import EntityMachines.Eval.Timers
import EntityMachines.Proofs.Evaluation.Keeps
import EntityMachines.Proofs.Lockstep.Library
import EntityMachines.Proofs.Lockstep.Reading
import EntityMachines.Proofs.Table

/-!
Evaluation that nothing leaves. In a context without handlers, around which no closure brings
handlers of its own, every operator comes to nothing but a value: effects are skipped, and what the
asynchronous operators leave behind is silent. A run is followed alongside itself, which makes the
properties of what goes through it those of a single run.
-/
namespace EntityMachines

theorem Value.rename_id (v : Value) : v.rename id = v := rename_eq_self_iff.mpr fun _ _ => rfl

theorem Context.carries_child {ctx : Context} {w : World} {bound : Table Value} {id : Nat}
    (h : (ctx.child bound).Carries w id) :
    ctx.Carries w id ∨ ∃ entry ∈ bound, entry.2.Holds id := by
  cases h with
  | payload h => exact .inl (.payload h)
  | user h => exact .inl (.user h)
  | singletons entry hentry h => exact .inl (.singletons entry hentry h)
  | entity store hstore h => exact .inl (.entity store hstore h)
  | locals entry hentry h =>
    rcases Table.mem_overlay hentry with hbase | htop
    · exact .inl (.locals entry hbase h)
    · exact .inr ⟨entry, htop, h⟩

/-- A later world in which nothing has happened outside of expressions: stores and machines are as
they were, no handler was called, nothing was delivered and no activity logged. -/
structure World.Unaffected (w later : World) : Prop where
  stores : later.stores = w.stores
  machines : later.machines = w.machines
  calls : later.calls = w.calls
  history : later.history = w.history
  log : later.log = w.log

/-- The timers after some delayed events have been put off, each under its own name. -/
def Timing.arm (timers : Table (Timer DelayedEmit)) (armed : List DelayedEmit) :
    Table (Timer DelayedEmit) :=
  armed.foldl (fun timers action => timers.insert action.event ⟨action, none⟩) timers

namespace Lockstep

section

variable (start : World) (known : Nat → Prop)

/-- An expression in a context without handlers, around which only known closures are. -/
structure SealedIn (e : Value) (ctx : Context) : Prop where
  handlers : ctx.handlers = {}
  expression : ∀ id, e.Holds id → known id
  data : ∀ id, ctx.Carries start id → known id

/-- A world that nothing was done to, in which the known closures are sealed. -/
structure Sealed (w : World) : Prop where
  unaffected : start.Unaffected w
  /-- Closures that are made from now on count as known. -/
  fresh : ∀ id, w.closures.size ≤ id → known id
  closures : ∀ id k, known id → w.closures[id]? = some k → SealedIn start known k.body k.captured
  armed : ∃ armed : List DelayedEmit, w.timing.timers = Timing.arm start.timing.timers armed
    ∧ ∀ action ∈ armed, action.handlers = {}

end

variable {start : World} {known : Nat → Prop}

theorem SealedIn.item {items : List Value} {ctx : Context}
    (h : SealedIn start known (.array items) ctx) {e : Value} (he : e ∈ items) :
    SealedIn start known e ctx where
  handlers := h.handlers
  expression id hid := h.expression id (Value.holds_array.mpr ⟨e, he, hid⟩)
  data := h.data

theorem SealedIn.child {e : Value} {ctx : Context} (h : SealedIn start known e ctx)
    {bound : Table Value} (hbound : ∀ entry ∈ bound, ∀ id, entry.2.Holds id → known id) :
    SealedIn start known e (ctx.child bound) where
  handlers := h.handlers
  expression := h.expression
  data id hid := by
    rcases Context.carries_child hid with hctx | ⟨entry, hentry, hentryId⟩
    · exact h.data id hctx
    · exact hbound entry hentry id hentryId

theorem Sealed.enter {w : World} (hw : Sealed start known w) (k : Closure)
    (hk : k.captured.handlers = {}) : Sealed start known (k.enter w) := by
  unfold Closure.enter
  rw [if_neg (not_not.mpr hk)]
  exact hw

theorem Sealed.capture {w : World} (hw : Sealed start known w) (k : Closure)
    (hk : SealedIn start known k.body k.captured) :
    Sealed start known { w with closures := w.closures.push k } where
  unaffected := { hw.unaffected with }
  fresh id hid := by
    rw [Array.size_push] at hid
    exact hw.fresh id (by omega)
  closures id other hknown hother := by
    rw [Array.getElem?_push] at hother
    split at hother
    · cases hother
      exact hk
    · exact hw.closures id other hknown hother
  armed := hw.armed

theorem Sealed.debounce {w : World} (hw : Sealed start known w) (action : DelayedEmit)
    (haction : action.handlers = {}) :
    Sealed start known { w with timing := w.timing.debounce action.event action none } where
  unaffected := { hw.unaffected with }
  fresh := hw.fresh
  closures := hw.closures
  armed := by
    obtain ⟨armed, htimers, hsilent⟩ := hw.armed
    refine ⟨armed ++ [action], ?_, ?_⟩
    · simp [Timing.debounce, Timing.arm, htimers]
    · intro other hother
      rcases List.mem_append.mp hother with hold | hnew
      · exact hsilent other hold
      · rw [List.mem_singleton.mp hnew]
        exact haction

theorem sealed_lasting : Eval.Lasting (Sealed start known) where
  clock _ _ hw := ⟨{ hw.unaffected with }, hw.fresh, hw.closures, hw.armed⟩
  note _ _ _ hw := ⟨{ hw.unaffected with }, hw.fresh, hw.closures, hw.armed⟩
  throttle key window hw := by
    refine ⟨{ hw.unaffected with }, hw.fresh, hw.closures, ?_⟩
    rw [Timing.throttle_timers]
    exact hw.armed

variable (start known) in
/-- A sealed run alongside itself. -/
def alone : Lockstep where
  rename := id
  rename_injective := Function.injective_id
  known := known
  worlds w w' := w = w' ∧ Sealed start known w
  scopes e c d := c = d ∧ SealedIn start known e c
  admits _ := True
  literal h := ⟨(Value.rename_id _).symm, h.2.expression⟩
  item h e he := ⟨h.1, h.2.item he⟩
  head _ := trivial
  now h := by rw [h.1]
  child {e c d b b'} h hbound := by
    obtain ⟨rfl, hscope⟩ := h
    obtain ⟨hsame, hknown⟩ := hbound
    have heq : b' = b := by simp [hsame, Table.onValues, Value.rename_id]
    rw [heq]
    exact ⟨rfl, hscope.child hknown⟩
  binding {s c d} h _ := by
    obtain ⟨rfl, hscope⟩ := h
    rintro w _ ⟨rfl, hw⟩
    have hknown : ∀ id, (c.reading w s).Holds id → known id := by
      intro id hid
      rw [c.reading_of_stores hw.unaffected.stores] at hid
      exact hscope.data id (Context.carries_of_reading hid)
    rw [Context.resolveText_eq]
    exact .ok ⟨(Value.rename_id _).symm, hknown⟩ ⟨rfl, hw⟩
  capture {w w' body c d} parameters hw hscope := by
    obtain ⟨rfl, hw⟩ := hw
    obtain ⟨rfl, hscope⟩ := hscope
    refine ⟨⟨rfl, hw.capture _ hscope⟩, rfl, ?_⟩
    intro id hid
    rw [Value.holds_closure.mp hid]
    exact hw.fresh _ (Nat.le_refl _)
  lookup {w w' id} hw hid := by
    obtain ⟨rfl, hw⟩ := hw
    cases hk : w.closures[id]? with
    | none => exact .inl ⟨rfl, hk⟩
    | some k =>
      exact .inr ⟨k.parameters, k.body, k.captured, k.captured, rfl, hk, rfl,
        hw.closures id k hid hk⟩
  enter parameters hw hscope := by
    obtain ⟨rfl, hw⟩ := hw
    obtain ⟨rfl, hscope⟩ := hscope
    exact ⟨rfl, hw.enter _ hscope.handlers⟩

/-- A value around which only known closures are. -/
abbrev Known (known : Nat → Prop) (v : Value) : Prop := ∀ id, v.Holds id → known id

theorem agrees_alone_iff {x : Eval Value} :
    (alone start known).Agrees x x ↔ Eval.Yields (Sealed start known) (Known known) x := by
  constructor
  · intro hx w hw
    have hend := hx w w ⟨rfl, hw⟩
    generalize x w = result at hend ⊢
    cases hend with
    | ok hvalue hworld => exact .ok hvalue.2 hworld.2
    | error hworld => exact .error hworld.2
  · intro hx w w' hworlds
    obtain ⟨rfl, hw⟩ := hworlds
    have hend := hx w hw
    generalize x w = result at hend ⊢
    cases hend with
    | ok hvalue hworld => exact .ok ⟨(Value.rename_id _).symm, hvalue⟩ ⟨rfl, hworld⟩
    | error hworld => exact .error ⟨rfl, hworld⟩

/-- What evaluation of the arguments of an operator comes to in a sealed run. -/
structure Argued (start : World) (known : Nat → Prop) (ev : Evaluator) (ctx : Context)
    (args : List Value) : Prop where
  handlers : ctx.handlers = {}
  evaluates : ∀ e ∈ args, Eval.Yields (Sealed start known) (Known known) (ev.evaluate e ctx)

/-- An operator serves a sealed run if it yields known values whenever its arguments do. -/
theorem serves_alone {apply : Operator}
    (h : ∀ ev ctx args, Argued start known ev ctx args →
      Eval.Yields (Sealed start known) (Known known) (apply ev ctx args)) :
    (alone start known).Serves apply := by
  intro ev hev op args c d hscopes
  obtain ⟨rfl, hscope⟩ := hscopes
  have hargued : Argued start known ev c args := by
    constructor
    · exact hscope.handlers
    · intro e he
      have hitem := hscope.item (List.mem_cons_of_mem _ he)
      exact agrees_alone_iff.mp (hev ⟨rfl, hitem⟩)
  exact agrees_alone_iff.mpr (h ev c args hargued)

namespace Argued

open Eval (Yields)

variable {ev : Evaluator} {ctx : Context} {args : List Value}

theorem known_undefined : Known known .undefined := fun id hid =>
  absurd hid (Value.not_holds_undefined id)

theorem known_array {items : List Value} (h : ∀ item ∈ items, Known known item) :
    Known known (.array items) := by
  intro id hid
  obtain ⟨item, hitem, hid⟩ := Value.holds_array.mp hid
  exact h item hitem id hid

theorem undefined : Yields (Sealed start known) (Known known) (pure .undefined) :=
  .pure known_undefined

theorem skipped (op : EffectOp) :
    Yields (Sealed start known) (fun _ => True) (Effect.skipped op) :=
  Yields.note sealed_lasting _ _ _

theorem argument (op : Text) (args : List Value) (i : Nat) :
    Yields (Sealed start known) (fun e => e ∈ args) (Operator.argument op args i) := by
  unfold Operator.argument
  cases he : args[i]? with
  | some e => exact .pure (List.mem_of_getElem? he)
  | none => exact .raise _

theorem perform (op : EffectOp) (request : Request) :
    Yields (Sealed start known) (Known known) (Effect.perform op none request) :=
  (skipped op).bind fun _ _ => undefined

variable (h : Argued start known ev ctx args)

include h

theorem required (op : Text) (i : Nat) :
    Yields (Sealed start known) (Known known) (Operator.required op ev ctx args i) :=
  (argument op args i).bind h.evaluates

theorem optional (i : Nat) :
    Yields (Sealed start known) (Known known) (Operator.optional ev ctx args i) := by
  unfold Operator.optional
  cases he : args[i]? with
  | some e => exact h.evaluates e (List.mem_of_getElem? he)
  | none => exact undefined

theorem amount : Yields (Sealed start known) (fun _ => True) (Effect.amount ev ctx args) := by
  unfold Effect.amount
  cases he : args[1]? with
  | some e => exact (h.evaluates e (List.mem_of_getElem? he)).map fun _ _ => trivial
  | none => exact .pure trivial

theorem operation : Yields (Sealed start known) (fun _ => True) (Effect.operation ev ctx args) := by
  unfold Effect.operation
  cases he : args[2]? with
  | some e => exact (h.evaluates e (List.mem_of_getElem? he)).map fun _ _ => trivial
  | none => exact .pure trivial

theorem adjust (op : EffectOp) (change : Float → Float → Float) :
    Yields (Sealed start known) (fun _ => True) (Effect.adjust op change ev ctx args) := by
  unfold Effect.adjust
  rw [h.handlers]
  exact (argument op.name args 0).bind fun target _ => h.amount.bind fun amount _ => skipped op

/-- Without handlers an effect evaluates its arguments and is skipped. -/
theorem effect (op : EffectOp) :
    Yields (Sealed start known) (Known known) (Effect.apply op ev ctx args) := by
  have hrequired := h.required op.name
  have hskipped : Yields (Sealed start known) (Known known)
      (do Effect.skipped op; return Value.undefined) := (skipped op).bind fun _ _ => undefined
  unfold Effect.apply
  rw [h.handlers]
  cases op with
  | set =>
    exact (argument _ args 0).bind fun target _ => (hrequired 1).bind fun operand _ =>
      h.operation.bind fun operation _ => hskipped
  | setDynamic =>
    exact (hrequired 0).bind fun path _ => (hrequired 1).bind fun operand _ => hskipped
  | increment => exact (h.adjust .increment _).bind fun _ _ => undefined
  | decrement => exact (h.adjust .decrement _).bind fun _ _ => undefined
  | emit => exact (hrequired 0).bind fun event _ => (h.optional 1).bind fun payload _ => hskipped
  | navigate =>
    exact (hrequired 0).bind fun route _ => (h.optional 1).bind fun params _ => perform _ _
  | persist =>
    refine (hrequired 0).bind fun action _ => Yields.ite (fun _ => .raise _) fun _ => ?_
    apply Yields.ite
    · intro _
      exact (h.optional 1).bind fun data _ => perform _ _
    · intro _
      exact perform _ (.persist action.display ctx.payload)
  | notify =>
    exact (hrequired 0).bind fun message _ => (h.optional 1).bind fun severity _ => perform _ _
  | spawn => exact (hrequired 0).bind fun type _ => (h.optional 1).bind fun params _ => perform _ _
  | despawn => exact (h.optional 0).bind fun target _ => perform _ _
  | callService =>
    exact (hrequired 0).bind fun service _ => (hrequired 1).bind fun method _ =>
      (h.optional 2).bind fun params _ => hskipped
  | renderUi =>
    refine (hrequired 0).bind fun slot _ => (hrequired 1).bind fun pattern _ => ?_
    refine (h.optional 2).bind fun props _ => (h.optional 3).bind fun priority _ => ?_
    apply Yields.ite
    · intro _
      exact perform _ _
    · intro _
      exact perform _ _

end Argued

end Lockstep
end EntityMachines
