import EntityMachines.Proofs.Lockstep.Quiet
import EntityMachines.Proofs.Lockstep.Unaffected

/-!
Calls that can be repeated. A closure without effects comes to the same in every later world that
retains what was there when it was made; its calls do not get in each other's way. The run in the
later world is followed alongside the one in the first world.
-/
namespace EntityMachines

open Library (drawing isAsync)
open Lockstep (effectNames)

/-- A later world with the same stores, in which all closures are still there. -/
structure World.Retains (w later : World) : Prop where
  stores : later.stores = w.stores
  closures : ∀ {id : Nat} {k : Closure}, w.closures[id]? = some k → later.closures[id]? = some k

namespace World.Retains

variable {w later : World}

theorem refl (w : World) : w.Retains w := ⟨rfl, id⟩

theorem trans {last : World} (h : w.Retains later) (h' : later.Retains last) : w.Retains last :=
  ⟨h'.stores.trans h.stores, fun hk => h'.closures (h.closures hk)⟩

theorem size_le (h : w.Retains later) : w.closures.size ≤ later.closures.size := by
  by_contra hlt
  have hlast : later.closures.size < w.closures.size := Nat.lt_of_not_le hlt
  have hfound := h.closures (Array.getElem?_eq_getElem hlast)
  rw [Array.getElem?_eq_none (Nat.le_refl _)] at hfound
  cases hfound

theorem capture (h : w.Retains later) (k : Closure) :
    w.Retains { later with closures := later.closures.push k } where
  stores := h.stores
  closures {id other} hother := by
    have hfound := h.closures hother
    have hlt := (Array.getElem?_eq_some_iff.mp hfound).1
    rw [Array.getElem?_push, if_neg (by omega)]
    exact hfound

end World.Retains

/-- A call of a closure leaves its trace in the history alone. -/
theorem Closure.enter_eq (k : Closure) (w : World) :
    ∃ history, k.enter w = { w with history := history } := by
  unfold enter
  split
  · exact ⟨_, rfl⟩
  · exact ⟨_, rfl⟩

/-- An operator that is no effect, is not asynchronous and draws no random numbers. -/
def Library.Inert (op : Text) : Prop := op ∉ effectNames ∧ isAsync op = false ∧ op ∉ drawing

/-- All calls in the body of a closure are of inert operators. -/
def Closure.Plain (k : Closure) : Prop := ∀ op ∈ Expr.operators k.body, Library.Inert op

/-- Every closure that is reached is there, and plain. -/
def World.Harmless (w : World) (roots : Nat → Prop) : Prop :=
  ∀ id, w.Reaches roots id → ∃ k, w.closures[id]? = some k ∧ k.Plain

/-- A closure stands in the body of another one, in the data around that, or in an item. -/
def Closure.Meets (k : Closure) (w : World) (items : List Value) (id : Nat) : Prop :=
  k.body.Holds id ∨ k.captured.Carries w id ∨ ∃ item ∈ items, item.Holds id

/-- A closure without effects on some items: it performs none, and neither does any closure that
it can come by in its body, in the data around it or in the items. -/
structure Closure.Effectless (k : Closure) (w : World) (items : List Value) : Prop where
  plain : k.Plain
  harmless : w.Harmless (k.Meets w items)

namespace Lockstep

section

variable (w v : World) (roots : Nat → Prop)

/-- In the later world the closures that the first one has go by the numbers they had, and those
that are made from now on by higher ones. -/
def retracing : Correspondence where
  __ := madeFrom w.closures.size (v.closures.size - w.closures.size)
  known id := w.Reaches roots id ∨ w.closures.size ≤ id

/-- Contexts in which an expression without effects reads related values. -/
structure Retraced (e : Value) (c d : Context) : Prop where
  plain : ∀ op ∈ Expr.operators e, Library.Inert op
  reached : ∀ id, e.Holds id → w.Reaches roots id
  now : c.now = d.now
  readings : ∀ text, (retracing w v roots).values (c.reading w text) (d.reading w text)

/-- Worlds that retain those in which the runs started, and in which both have made the same
closures. -/
structure Along (u u' : World) : Prop where
  left : w.Retains u
  right : v.Retains u'
  sizes : u'.closures.size = u.closures.size + (v.closures.size - w.closures.size)
  made : ∀ id, w.closures.size ≤ id → id < u.closures.size → ∃ parameters body c d,
    u.closures[id]? = some ⟨parameters, body, c⟩
      ∧ u'.closures[id + (v.closures.size - w.closures.size)]? = some ⟨parameters, body, d⟩
      ∧ Retraced w v roots body c d

end

variable {w v : World} {roots : Nat → Prop}

section harmless

variable (h : w.Harmless roots)

include h

theorem rename_of_reached {id : Nat} (hid : w.Reaches roots id) :
    (retracing w v roots).rename id = id := by
  obtain ⟨k, hk, -⟩ := h id hid
  exact if_pos (Array.getElem?_eq_some_iff.mp hk).1

/-- What holds nothing but closures that are reached is its own counterpart. -/
theorem values_of_reached {e : Value} (he : ∀ id, e.Holds id → w.Reaches roots id) :
    (retracing w v roots).values e e :=
  ⟨(Value.rename_eq_self_iff.mpr fun id hid => rename_of_reached h (he id hid)).symm,
    fun id hid => .inl (he id hid)⟩

/-- A context is its own counterpart, if all that it carries is reached. -/
theorem retraced_of_reached {e : Value} {ctx : Context}
    (hplain : ∀ op ∈ Expr.operators e, Library.Inert op)
    (he : ∀ id, e.Holds id → w.Reaches roots id)
    (hctx : ∀ id, ctx.Carries w id → w.Reaches roots id) : Retraced w v roots e ctx ctx where
  plain := hplain
  reached := he
  now := rfl
  readings _ := values_of_reached h fun id hid => hctx id (Context.carries_of_reading hid)

theorem retraced_closure {id : Nat} {k : Closure} (hid : w.Reaches roots id)
    (hk : w.closures[id]? = some k) : Retraced w v roots k.body k.captured k.captured := by
  obtain ⟨other, hother, hplain⟩ := h id hid
  obtain rfl : k = other := Option.some.inj (hk.symm.trans hother)
  exact retraced_of_reached h hplain (fun _ hbody => .body hid hk hbody)
    fun _ hdata => .captured hid hk hdata

end harmless

theorem Along.capture {u u' : World} (h : Along w v roots u u') {body : Value} {c d : Context}
    (parameters : Parameters) (hscopes : Retraced w v roots body c d) :
    Along w v roots { u with closures := u.closures.push ⟨parameters, body, c⟩ }
      { u' with closures := u'.closures.push ⟨parameters, body, d⟩ } where
  left := h.left.capture _
  right := h.right.capture _
  sizes := by
    have hsizes := h.sizes
    simp only [Array.size_push]
    omega
  made := by
    intro id hlow hid
    have hsizes := h.sizes
    rw [Array.size_push] at hid
    rw [Array.getElem?_push, Array.getElem?_push]
    by_cases hlast : id = u.closures.size
    · rw [if_pos hlast, if_pos (by omega)]
      exact ⟨parameters, body, c, d, rfl, rfl, hscopes⟩
    · rw [if_neg hlast, if_neg (by omega)]
      exact h.made id hlow (by omega)

/-- A closure that is known is an old one, the same on both sides, or one that both have made. -/
theorem Along.lookup {u u' : World} (h : Along w v roots u u') (hharmless : w.Harmless roots)
    (hv : w.Retains v) {id : Nat} (hid : (retracing w v roots).known id) :
    (u.closures[id]? = none ∧ u'.closures[(retracing w v roots).rename id]? = none) ∨
    ∃ parameters body c d, u.closures[id]? = some ⟨parameters, body, c⟩
      ∧ u'.closures[(retracing w v roots).rename id]? = some ⟨parameters, body, d⟩
      ∧ Retraced w v roots body c d := by
  rcases hid with hold | hnew
  · obtain ⟨k, hk, -⟩ := hharmless id hold
    rw [rename_of_reached hharmless hold]
    exact .inr ⟨k.parameters, k.body, k.captured, k.captured, h.left.closures hk,
      (hv.trans h.right).closures hk, retraced_closure hharmless hold hk⟩
  · have hrename : (retracing w v roots).rename id = id + (v.closures.size - w.closures.size) :=
      madeFrom_rename hnew
    rw [hrename]
    by_cases hsize : id < u.closures.size
    · exact .inr (h.made id hnew hsize)
    · have hsizes := h.sizes
      exact .inl ⟨Array.getElem?_eq_none (by omega), Array.getElem?_eq_none (by omega)⟩

/-- The run in a later world alongside the run in the first one. -/
def retraced (hharmless : w.Harmless roots) (hv : w.Retains v) : Lockstep where
  toCorrespondence := retracing w v roots
  worlds := Along w v roots
  scopes := Retraced w v roots
  admits := Library.Inert
  literal h := values_of_reached hharmless h.reached
  item h e he := ⟨fun _ hop => h.plain _ (Expr.operators_item he hop),
    fun id hid => h.reached id (Value.holds_array.mpr ⟨e, he, hid⟩), h.now, h.readings⟩
  head h := h.plain _ (Expr.head_mem_operators _ _)
  now h := h.now
  child h hbound :=
    ⟨h.plain, h.reached, h.now, fun text => Context.reading_child (h.readings text) hbound⟩
  binding {s c d} h _ := by
    intro u u' hu
    rw [Context.resolveText_eq, Context.resolveText_eq, c.reading_of_stores hu.left.stores,
      d.reading_of_stores (hv.trans hu.right).stores]
    exact .ok (h.readings s) hu
  capture {u u' body c d} parameters hu hscopes := by
    refine ⟨hu.capture parameters hscopes, ?_, fun id hid => .inr ?_⟩
    · rw [Value.rename_closure, hu.sizes]
      exact congrArg Value.closure (madeFrom_rename hu.left.size_le).symm
    · rw [Value.holds_closure.mp hid]
      exact hu.left.size_le
  lookup hu hid := hu.lookup hharmless hv hid
  enter {u u' body c d} parameters hu _ := by
    obtain ⟨history, hleft⟩ := Closure.enter_eq ⟨parameters, body, c⟩ u
    obtain ⟨history', hright⟩ := Closure.enter_eq ⟨parameters, body, d⟩ u'
    rw [hleft, hright]
    exact ⟨⟨hu.left.stores, hu.left.closures⟩, ⟨hu.right.stores, hu.right.closures⟩, hu.sizes,
      hu.made⟩

theorem retraced_admits {hharmless : w.Harmless roots} {hv : w.Retains v} (name : Text)
    (h : (retraced hharmless hv).admits name) : (retraced hharmless hv).Regular name := by
  obtain ⟨heffect, hasync, hdrawing⟩ := h
  refine ⟨fun hname => absurd hname hdrawing, ?_, fun hname => absurd hname heffect⟩
  rw [hasync]
  exact fun hname => nomatch hname

/-- At the start neither run has made anything. -/
theorem along_start (hv : w.Retains v) : Along w v roots w v where
  left := .refl w
  right := .refl v
  sizes := (Nat.add_sub_of_le hv.size_le).symm
  made _ hlow hid := absurd hid (Nat.not_lt.mpr hlow)

end Lockstep

/-- What a closure says of an item when it is called in a world. -/
def Closure.verdict (k : Closure) (ev : Evaluator) (w : World) (item : Value) : Except Fault Bool :=
  (Eval.outcome (ev.invokeClosure k [item]) w).map Value.isTruthy

/-- A closure without effects says of an item in a later world, where it may go by any number, what
it says of it in the first one, and what the later world has it retains. -/
theorem Closure.Effectless.settles {k : Closure} {w v : World} {items : List Value}
    (h : k.Effectless w items) (hv : w.Retains v) {id : Nat} (hk : v.closures[id]? = some k)
    {item : Value} (hitem : item ∈ items) (fuel : Nat) :
    Eval.Settles v.Retains
      (Collection.holds (Evaluator.withFuel Library.standard fuel) (.closure id) item)
      (k.verdict (Evaluator.withFuel Library.standard fuel) w item) := by
  intro u hu
  -- the run in the first world is one and the same beside all later ones
  have hretains : w.Retains u := hv.trans hu
  have hscopes : Lockstep.Retraced w u (k.Meets w items) k.body k.captured k.captured :=
    Lockstep.retraced_of_reached h.harmless h.plain (fun _ hid => .root (.inl hid))
      fun _ hid => .root (.inr (.inl hid))
  have hargument : (Lockstep.retracing w u (k.Meets w items)).lists [item] [item] :=
    Correspondence.lists_singleton <| Lockstep.values_of_reached h.harmless
      fun _ hid => .root (.inr (.inr ⟨item, hitem, hid⟩))
  have hcalls : (Lockstep.retraced h.harmless hretains).Agrees
      ((Evaluator.withFuel Library.standard fuel).invokeClosure k [item])
      ((Evaluator.withFuel Library.standard fuel).invokeClosure k [item]) :=
    Lockstep.invokeClosure (Lockstep.withFuel Lockstep.retraced_admits fuel) hscopes hargument
  have hrun := hcalls w u (Lockstep.along_start hretains)
  rw [← Evaluator.invoke_of_closure _ (hu.closures hk)] at hrun
  unfold verdict Collection.holds Eval.outcome Eval.after
  generalize (Evaluator.withFuel Library.standard fuel).invokeClosure k [item] w = first at hrun ⊢
  generalize hsecond : (Evaluator.withFuel Library.standard fuel).invoke (.closure id) [item] u
    = second at hrun
  cases hrun with
  | ok hvalues hworlds =>
    rw [Eval.bind_of_ok hsecond]
    exact ⟨congrArg Except.ok hvalues.isTruthy.symm, hu.trans hworlds.right⟩
  | error hworlds =>
    rw [Eval.bind_of_error hsecond]
    exact ⟨rfl, hu.trans hworlds.right⟩

end EntityMachines
