import EntityMachines.Proofs.Expr.Nodes
import EntityMachines.Proofs.Lockstep.Library
import EntityMachines.Proofs.Lockstep.Reading

/-!
Quiet expressions: those whose calls perform no effect and are not asynchronous. Their evaluation
depends on nothing but what their bindings read, and leaves the world alone, whatever the data
around them looks like.
-/
namespace EntityMachines

open Library (drawing isAsync)
open Lockstep (effectNames)

/-- No closure stands in the expression, and no call in it, as far as it is reached through arrays,
is of an effect or of an asynchronous operator; of those that draw random numbers only if drawing
is allowed. -/
structure Value.Quiet (draws : Prop) (e : Value) : Prop where
  no_closure : ∀ id, ¬ e.Holds id
  calls : ∀ op ∈ Expr.operators e,
    op ∉ effectNames ∧ isAsync op = false ∧ (op ∈ drawing → draws)

theorem Value.Quiet.item {draws : Prop} {items : List Value} (h : Quiet draws (.array items))
    {e : Value} (he : e ∈ items) : Quiet draws e where
  no_closure id hid := h.no_closure id (holds_array.mpr ⟨e, he, hid⟩)
  calls op hop := h.calls op (Expr.operators_item he hop)

/-- A later world in which nothing has happened but calls of closures. -/
structure World.Untouched (w later : World) : Prop where
  stores : later.stores = w.stores
  machines : later.machines = w.machines
  calls : later.calls = w.calls
  timing : later.timing = w.timing
  history : ∃ hs : List Handlers, later.history = hs.map .call ++ w.history

theorem World.Untouched.refl (w : World) : w.Untouched w := ⟨rfl, rfl, rfl, rfl, [], rfl⟩

theorem World.Untouched.enter {w later : World} (h : w.Untouched later) (k : Closure) :
    w.Untouched (k.enter later) := by
  unfold Closure.enter
  split
  · obtain ⟨hs, hhistory⟩ := h.history
    exact ⟨h.stores, h.machines, h.calls, h.timing, k.captured.handlers :: hs, by
      rw [List.map_cons, List.cons_append, ← hhistory]⟩
  · exact h

namespace Lockstep

/-- The closures made from a number on come up; in the second run their numbers are higher. -/
def madeFrom (first offset : Nat) : Correspondence where
  rename id := if id < first then id else id + offset
  rename_injective := by
    intro i j hij
    dsimp only at hij
    split at hij <;> split at hij <;> omega
  known id := first ≤ id

theorem madeFrom_rename {first offset id : Nat} (h : first ≤ id) :
    (madeFrom first offset).rename id = id + offset :=
  if_neg (Nat.not_lt.mpr h)

section

variable (draws : Prop) (w w' : World) (offset : Nat)

/-- Contexts with the same time, in which the bindings of a quiet expression read related values. -/
structure Beside (e : Value) (c d : Context) : Prop where
  quiet : e.Quiet draws
  now : c.now = d.now
  readings : ∀ b ∈ Expr.bindings e,
    (madeFrom w.closures.size offset).values (c.reading w b) (d.reading w' b)

/-- Worlds that are left alone but for closures, of which both runs have made the same ones. -/
structure Abreast (v v' : World) : Prop where
  left : w.Untouched v
  right : w'.Untouched v'
  random : draws → v.random = v'.random
  grown : w.closures.size ≤ v.closures.size
  sizes : v'.closures.size = v.closures.size + offset
  made : ∀ id, w.closures.size ≤ id → id < v.closures.size → ∃ parameters body c d,
    v.closures[id]? = some ⟨parameters, body, c⟩
      ∧ v'.closures[id + offset]? = some ⟨parameters, body, d⟩
      ∧ Beside draws w w' offset body c d

end

variable {draws : Prop} {w w' : World} {offset : Nat}

theorem Abreast.capture {v v' : World} (h : Abreast draws w w' offset v v') {body : Value}
    {c d : Context} (parameters : Parameters) (hscopes : Beside draws w w' offset body c d) :
    Abreast draws w w' offset { v with closures := v.closures.push ⟨parameters, body, c⟩ }
      { v' with closures := v'.closures.push ⟨parameters, body, d⟩ } where
  left := ⟨h.left.stores, h.left.machines, h.left.calls, h.left.timing, h.left.history⟩
  right := ⟨h.right.stores, h.right.machines, h.right.calls, h.right.timing, h.right.history⟩
  random := h.random
  grown := by
    have := h.grown
    simp
    omega
  sizes := by
    have := h.sizes
    simp
    omega
  made := by
    intro id hlow hid
    have hsizes := h.sizes
    rw [Array.size_push] at hid
    rw [Array.getElem?_push, Array.getElem?_push]
    by_cases hlast : id = v.closures.size
    · rw [if_pos hlast, if_pos (by omega)]
      exact ⟨parameters, body, c, d, rfl, rfl, hscopes⟩
    · rw [if_neg hlast, if_neg (by omega)]
      exact h.made id hlow (by omega)

theorem Abreast.lookup {v v' : World} (h : Abreast draws w w' offset v v') {id : Nat}
    (hid : w.closures.size ≤ id) :
    (v.closures[id]? = none ∧ v'.closures[id + offset]? = none) ∨
    ∃ parameters body c d, v.closures[id]? = some ⟨parameters, body, c⟩
      ∧ v'.closures[id + offset]? = some ⟨parameters, body, d⟩
      ∧ Beside draws w w' offset body c d := by
  by_cases hsize : id < v.closures.size
  · exact .inr (h.made id hid hsize)
  · have hsizes := h.sizes
    refine .inl ⟨?_, ?_⟩
    · exact Array.getElem?_eq_none (by omega)
    · exact Array.getElem?_eq_none (by omega)

variable (draws w w' offset)

/-- Two runs of quiet expressions side by side, each in a world of its own. -/
def quiet : Lockstep where
  toCorrespondence := madeFrom w.closures.size offset
  worlds := Abreast draws w w' offset
  scopes := Beside draws w w' offset
  admits name := name ∉ effectNames ∧ isAsync name = false ∧ (name ∈ drawing → draws)
  literal h := by
    have hnone := h.quiet.no_closure
    exact ⟨(Value.rename_eq_self_iff.mpr fun id hid => absurd hid (hnone id)).symm,
      fun id hid => absurd hid (hnone id)⟩
  item h e he := ⟨h.quiet.item he, h.now, fun b hb => h.readings b (Expr.bindings_item he hb)⟩
  head h := h.quiet.calls _ (Expr.head_mem_operators _ _)
  now h := h.now
  child h hbound := ⟨h.quiet, h.now, fun b hb => Context.reading_child (h.readings b hb) hbound⟩
  binding {s c d} h hbinding := by
    intro v v' hv
    have hs : s ∈ Expr.bindings (.string s) :=
      Expr.mem_bindings.mpr ⟨Expr.self_mem_nodes _, hbinding⟩
    rw [Context.resolveText_eq, Context.resolveText_eq, c.reading_of_stores hv.left.stores,
      d.reading_of_stores hv.right.stores]
    exact .ok (h.readings s hs) hv
  capture {v v' body c d} parameters hv hscopes := by
    refine ⟨hv.capture parameters hscopes, ?_, fun id hid => ?_⟩
    · rw [Value.rename_closure, madeFrom_rename hv.grown, hv.sizes]
    · rw [Value.holds_closure.mp hid]
      exact hv.grown
  lookup {v v' id} hv hid := by
    have hknown : w.closures.size ≤ id := hid
    rw [madeFrom_rename hknown]
    exact hv.lookup hknown
  enter parameters hv _ := by
    have hclosures (k : Closure) (v : World) : (k.enter v).closures = v.closures := by
      unfold Closure.enter
      split <;> rfl
    have hrandom (k : Closure) (v : World) : (k.enter v).random = v.random := by
      unfold Closure.enter
      split <;> rfl
    refine ⟨hv.left.enter _, hv.right.enter _, ?_, ?_, ?_, ?_⟩
    · rw [hrandom, hrandom]
      exact hv.random
    · rw [hclosures]
      exact hv.grown
    · rw [hclosures, hclosures]
      exact hv.sizes
    · rw [hclosures, hclosures]
      exact hv.made

theorem quiet_admits (name : Text) (h : (quiet draws w w' offset).admits name) :
    (quiet draws w w' offset).Regular name := by
  obtain ⟨heffect, hasync, hdraws⟩ := h
  refine ⟨fun hdrawing => ⟨fun hv => hv.random (hdraws hdrawing), fun n hv => ?_⟩, ?_,
    fun hname => absurd hname heffect⟩
  case refine_2 => rw [hasync]; exact fun hname => nomatch hname
  have hleft := hv.left
  have hright := hv.right
  exact ⟨⟨hleft.stores, hleft.machines, hleft.calls, hleft.timing, hleft.history⟩,
    ⟨hright.stores, hright.machines, hright.calls, hright.timing, hright.history⟩,
    fun _ => rfl, hv.grown, hv.sizes, hv.made⟩

/-- At the start nothing has been made. -/
theorem abreast_start (hsizes : w'.closures.size = w.closures.size + offset)
    (hrandom : draws → w.random = w'.random) : Abreast draws w w' offset w w' where
  left := .refl w
  right := .refl w'
  random := hrandom
  grown := Nat.le_refl _
  sizes := hsizes
  made _ hlow hid := absurd hid (Nat.not_lt.mpr hlow)

end Lockstep

/-- How evaluation ends: with a value, as it is printed, or with a fault. -/
def Eval.shown (x : Eval Value) (w : World) : Except Fault Text :=
  match x w with
  | .ok v _ => .ok v.print
  | .error fault _ => .error fault

namespace Evaluator

variable (fuel : Nat) {e : Value} {c d : Context} {w w' : World}

/-- Values without closures that are read on both sides are related however closures correspond. -/
theorem values_of_same_reading {R : Correspondence} {text : Text} (hc : c.HoldsData w)
    (h : ∃ v, c.resolveText text w = .ok v w ∧ d.resolveText text w' = .ok v w') :
    R.values (c.reading w text) (d.reading w' text) := by
  obtain ⟨v, hleft, hright⟩ := h
  rw [Context.resolveText_eq] at hleft hright
  cases hleft
  injection hright with hsame
  have hnone := hc.reading text
  rw [hsame]
  exact ⟨(Value.rename_eq_self_iff.mpr fun id hid => absurd hid (hnone id)).symm,
    fun id hid => absurd hid (hnone id)⟩

/-- The case that the second world has no fewer closures. -/
theorem shown_of_bindings_of_le (hle : w.closures.size ≤ w'.closures.size)
    (hquiet : e.Quiet False) (hc : c.HoldsData w) (hnow : c.now = d.now)
    (hbindings : ∀ b ∈ Expr.bindings e,
      ∃ v, c.resolveText b w = .ok v w ∧ d.resolveText b w' = .ok v w') :
    Eval.shown ((withFuel Library.standard fuel).evaluate e c) w
      = Eval.shown ((withFuel Library.standard fuel).evaluate e d) w' := by
  let offset := w'.closures.size - w.closures.size
  have hscopes : Lockstep.Beside False w w' offset e c d :=
    ⟨hquiet, hnow, fun b hb => values_of_same_reading hc (hbindings b hb)⟩
  have hstart : Lockstep.Abreast False w w' offset w w' :=
    Lockstep.abreast_start False w w' offset (by omega) False.elim
  have hrun := Lockstep.withFuel (Lockstep.quiet_admits False w w' offset) fuel hscopes w w' hstart
  unfold Eval.shown
  generalize (withFuel Library.standard fuel).evaluate e c w = left at hrun ⊢
  generalize (withFuel Library.standard fuel).evaluate e d w' = right at hrun ⊢
  cases hrun with
  | ok hvalues _ =>
    obtain ⟨rfl, -⟩ := hvalues
    exact congrArg Except.ok (Value.write_rename _ Value.full).symm
  | error _ => rfl

/-- Evaluation depends on nothing but the time and what the bindings of an expression read. -/
theorem shown_of_bindings (hquiet : e.Quiet False) (hc : c.HoldsData w) (hd : d.HoldsData w')
    (hnow : c.now = d.now)
    (hbindings : ∀ b ∈ Expr.bindings e,
      ∃ v, c.resolveText b w = .ok v w ∧ d.resolveText b w' = .ok v w') :
    Eval.shown ((withFuel Library.standard fuel).evaluate e c) w
      = Eval.shown ((withFuel Library.standard fuel).evaluate e d) w' := by
  rcases Nat.le_total w.closures.size w'.closures.size with hle | hle
  · exact shown_of_bindings_of_le fuel hle hquiet hc hnow hbindings
  · have hswapped : ∀ b ∈ Expr.bindings e,
        ∃ v, d.resolveText b w' = .ok v w' ∧ c.resolveText b w = .ok v w := fun b hb =>
      (hbindings b hb).imp fun _ h => ⟨h.2, h.1⟩
    exact (shown_of_bindings_of_le fuel hle hquiet hd hnow.symm hswapped).symm

/-- The items of the payload, each with a number from the entity added. -/
def shifted : Value :=
  Expr.call "map" [.string "@payload.items",
    Expr.call "fn" [.string "x", Expr.call "+" [.string "@x", .string "@entity.step"]]]

/-- A context for it, with something else around the items. -/
def shiftedIn (store : StoreRef) (note : Value) : Context where
  store := some store
  payload := .map [("items", .array [1, 2]), ("note", note)]
  now := 1

theorem shifted_quiet (draws : Prop) : shifted.Quiet draws where
  no_closure id hid := by
    simp [shifted, Expr.call, Value.Holds, Value.parts, Value.partsOfItems] at hid
  calls := by
    have hops : Expr.operators shifted = ["map", "fn", "+"].map Text.ofString := rfl
    rw [hops]
    intro op hop
    simp only [List.map_cons, List.map_nil, List.mem_cons, List.not_mem_nil, or_false] at hop
    rcases hop with rfl | rfl | rfl
    · exact ⟨by decide, by decide, fun h => absurd h (by decide)⟩
    · exact ⟨by decide, by decide, fun h => absurd h (by decide)⟩
    · exact ⟨by decide, by decide, fun h => absurd h (by decide)⟩

def near : World := { stores := #[.map [("step", 10)]] }

/-- A world with other stores and a closure that `near` does not have. -/
def far : World where
  stores := #[.undefined, .map [("hits", 3), ("step", 10)]]
  closures := #[⟨.single "y", 5, {}⟩]

theorem shifted_in_near_holds_data : (shiftedIn 0 "a").HoldsData near where
  payload := by
    simp [shiftedIn, Value.Holds, Value.parts, Value.partsOfItems, Value.partsOfEntries]
  user id hid := nomatch hid
  singletons entry hentry := nomatch hentry
  locals entry hentry := nomatch hentry
  entity store hstore id hid := by
    cases hstore
    simp [near, Value.Holds, Value.parts, Value.partsOfEntries] at hid

theorem shifted_in_far_holds_data : (shiftedIn 1 Value.null).HoldsData far where
  payload := by
    simp [shiftedIn, Value.Holds, Value.parts, Value.partsOfItems, Value.partsOfEntries]
  user id hid := nomatch hid
  singletons entry hentry := nomatch hentry
  locals entry hentry := nomatch hentry
  entity store hstore id hid := by
    cases hstore
    simp [far, Value.Holds, Value.parts, Value.partsOfEntries] at hid

theorem shown_shifted :
    (∀ b ∈ Expr.bindings shifted, ∃ v, (shiftedIn 0 "a").resolveText b near = .ok v near
        ∧ (shiftedIn 1 Value.null).resolveText b far = .ok v far)
      ∧ Eval.shown ((withFuel Library.standard 9).evaluate shifted (shiftedIn 0 "a")) near
        = Eval.shown ((withFuel Library.standard 9).evaluate shifted (shiftedIn 1 Value.null))
          far := by
  have hbindings : Expr.bindings shifted
      = ["@payload.items", "@x", "@entity.step"].map Text.ofString := rfl
  have hsame : ∀ b ∈ Expr.bindings shifted, ∃ v,
      (shiftedIn 0 "a").resolveText b near = .ok v near
        ∧ (shiftedIn 1 Value.null).resolveText b far = .ok v far := by
    rw [hbindings]
    intro b hb
    simp only [List.map_cons, List.map_nil, List.mem_cons, List.not_mem_nil, or_false] at hb
    rcases hb with rfl | rfl | rfl
    · exact ⟨_, rfl, rfl⟩
    · exact ⟨_, rfl, rfl⟩
    · exact ⟨_, rfl, rfl⟩
  exact ⟨hsame, shown_of_bindings 9 (shifted_quiet False) shifted_in_near_holds_data
    shifted_in_far_holds_data rfl hsame⟩

/-- Data is never executed: whatever the data of its context looks like and whatever handlers are
installed, a quiet expression reaches none of them. -/
theorem untouched_of_quiet (hquiet : e.Quiet True) (hc : c.HoldsData w) :
    w.Untouched (Eval.after ((withFuel Library.standard fuel).evaluate e c) w) := by
  have hscopes : Lockstep.Beside True w w 0 e c c :=
    ⟨hquiet, rfl, fun b _ => values_of_same_reading hc
      ⟨_, Context.resolveText_eq c b w, Context.resolveText_eq c b w⟩⟩
  have hstart : Lockstep.Abreast True w w 0 w w :=
    Lockstep.abreast_start True w w 0 rfl fun _ => rfl
  have hrun := Lockstep.withFuel (Lockstep.quiet_admits True w w 0) fuel hscopes w w hstart
  unfold Eval.after
  generalize (withFuel Library.standard fuel).evaluate e c w = result at hrun ⊢
  cases hrun with
  | ok _ hworlds => exact hworlds.left
  | error hworlds => exact hworlds.left

/-- The items of a payload, each handed through a closure as it is. -/
def relayed : Value :=
  Expr.call "let" [.array [Expr.call "all" [.string "@payload.items"]],
    Expr.call "map" [.string "@all", Expr.call "fn" [.string "x", .string "@x"]]]

/-- A context for it with a handler for every effect, and with items that look like calls. -/
def baited : Context where
  store := some 0
  payload := .map [("items", .array [Expr.call "set" [.string "@entity.hp", 0],
    Expr.call "async/debounce" [.string "SAVE", 5]])]
  handlers := Handlers.ofNames (CoreOp.effectOps.map EffectOp.name) "log" 0

theorem relayed_quiet (draws : Prop) : relayed.Quiet draws where
  no_closure id hid := by
    simp [relayed, Expr.call, Value.Holds, Value.parts, Value.partsOfItems] at hid
  calls := by
    have hops : Expr.operators relayed = ["let", "all", "map", "fn"].map Text.ofString := rfl
    rw [hops]
    intro op hop
    simp only [List.map_cons, List.map_nil, List.mem_cons, List.not_mem_nil, or_false] at hop
    rcases hop with rfl | rfl | rfl | rfl
    all_goals exact ⟨by decide, by decide, fun h => absurd h (by decide)⟩

theorem baited_holds_data : baited.HoldsData near where
  payload := by
    simp [baited, Expr.call, Value.Holds, Value.parts, Value.partsOfItems, Value.partsOfEntries]
  user id hid := nomatch hid
  singletons entry hentry := nomatch hentry
  locals entry hentry := nomatch hentry
  entity store hstore id hid := by
    cases hstore
    simp [near, Value.Holds, Value.parts, Value.partsOfEntries] at hid

theorem near_untouched_by_relayed :
    relayed.Quiet True ∧ baited.HoldsData near
      ∧ near.Untouched (Eval.after ((withFuel Library.standard 9).evaluate relayed baited) near) :=
  ⟨relayed_quiet True, baited_holds_data,
    untouched_of_quiet 9 (relayed_quiet True) baited_holds_data⟩

end Evaluator
end EntityMachines
