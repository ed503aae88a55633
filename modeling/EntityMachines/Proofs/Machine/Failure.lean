import EntityMachines.Proofs.Machine.Answer
import EntityMachines.Proofs.Machine.TickOrder

/-!
Transactions of a machine fail only where the evaluation of a guard or an effect of its definition
fails. In particular a drain comes to its end by itself, whatever is emitted meanwhile.
-/
namespace EntityMachines

/-- The guards and effects of a definition. -/
def Definition.expressions (d : Definition) : List Value :=
  d.transitions.flatMap (fun t => t.guard.toList ++ t.effects)
    ++ d.ticks.flatMap (fun t => t.guard.toList ++ t.effects) ++ d.initialEffects

namespace Machine

open Eval (Keeps OpenFrame)

variable {α β : Type} {ev : Evaluator} {a : Nat} {d : Definition} {services : Services}
  {m : Instance}

/-- The machine of a handle, if there is one, is of a definition. -/
def Defines (a : Nat) (d : Definition) (w : World) : Prop :=
  ∀ m, w.machine? a = some m → m.definition = d

/-- A result that is a failure is that of a guard or an effect, and little was done after it. -/
def Blamed (ev : Evaluator) (d : Definition) : EStateM.Result Fault World α → Prop
  | .ok _ _ => True
  | .error fault w => ∃ e ∈ d.expressions, ∃ ctx w₁ w₂,
      ev.evaluate e ctx w₁ = .error fault w₂ ∧ w.stores = w₂.stores ∧ w.calls = w₂.calls

def FailsByEvaluation (ev : Evaluator) (a : Nat) (d : Definition) (x : Eval α) : Prop :=
  ∀ w, Defines a d w → Blamed ev d (x w)

/-- The definition of a machine stays what it is. -/
def DefinitionKept (a : Nat) (d : Definition) (w w' : World) : Prop :=
  Defines a d w → Defines a d w'

theorem definitionKept_update (a handle : Nat) (d : Definition) (w : World)
    {f : Instance → Instance}
    (hf : ∀ m, (f m).handle = m.handle ∧ (f m).definition = m.definition) :
    DefinitionKept a d w (w.mapMachine handle f) := by
  intro h m hm
  rw [World.machine?_mapMachine w handle a fun m => (hf m).1] at hm
  split at hm
  · obtain ⟨m₀, hm₀, rfl⟩ := Option.map_eq_some_iff.mp hm
    rw [(hf m₀).2]
    exact h m₀ hm₀
  · exact h m hm

theorem definitionKept_frame (a : Nat) (d : Definition) : MachineFrame (DefinitionKept a d) where
  same w w' _ hm h m hw := h m (by rwa [World.machine?_congr hm] at hw)
  trans h h' := h' ∘ h
  write _ _ _ := id

theorem definitionKept_transacts (a handle : Nat) (d : Definition) :
    Transacts (DefinitionKept a d) handle fun _ => True :=
  (definitionKept_frame a d).transacts_of_update fun w _ hf =>
    definitionKept_update a handle d w hf

theorem definitionKept_timed (a handle : Nat) (d : Definition) :
    Timed (DefinitionKept a d) handle :=
  MachineFrame.timed_of_update fun w _ hf => definitionKept_update a handle d w hf

namespace FailsByEvaluation

theorem pure (x : α) : FailsByEvaluation ev a d (pure x) := fun _ _ => trivial

theorem modify (f : World → World) : FailsByEvaluation ev a d (modify f) := fun _ _ => trivial

theorem note (services : Services) (m : Instance) (level : Log.Level) (category message : Text) :
    FailsByEvaluation ev a d (note services m level category message) := by
  unfold Machine.note
  split
  · exact modify _
  · exact pure _

theorem ite {p : Prop} [Decidable p] {x y : Eval α} (hx : FailsByEvaluation ev a d x)
    (hy : FailsByEvaluation ev a d y) : FailsByEvaluation ev a d (if p then x else y) := by
  split
  · exact hx
  · exact hy

theorem bind {x : Eval α} {f : α → Eval β} (hx : FailsByEvaluation ev a d x)
    (hkept : Keeps (DefinitionKept a d) x) (hf : ∀ v, FailsByEvaluation ev a d (f v)) :
    FailsByEvaluation ev a d (x >>= f) := by
  intro w hw
  have hxw := hx w hw
  have hw' := hkept w hw
  unfold Eval.after at hw'
  simp only [Bind.bind, EStateM.bind]
  cases hr : x w with
  | ok v w' =>
    rw [hr] at hw'
    exact hf v w' hw'
  | error fault w' =>
    rw [hr] at hxw
    exact hxw

theorem withMachine (default : α) {f : Instance → Eval α}
    (hf : ∀ m, m.handle = a → m.definition = d → FailsByEvaluation ev a d (f m)) :
    FailsByEvaluation ev a d (withMachine a default f) := by
  intro w hw
  cases hm : w.machine? a with
  | none =>
    rw [withMachine_none hm]
    trivial
  | some m =>
    rw [withMachine_some hm]
    exact hf m (World.handle_of_machine? hm) (hw m hm) w hw

end FailsByEvaluation

theorem permits_fails {guard : Option Value} (hguard : ∀ g ∈ guard, g ∈ d.expressions)
    (ctx : Context) (place : Text) :
    FailsByEvaluation ev a d (permits ev services m guard ctx place) := by
  intro w _
  cases guard with
  | none => trivial
  | some g =>
    show Blamed ev d (guardHolds ev services m g ctx place w)
    cases hr : guardHolds ev services m g ctx place w with
    | ok _ _ => trivial
    | error fault w' =>
      obtain ⟨w₁, hfails, hstill, -⟩ := guardHolds_error hr
      exact ⟨g, hguard g rfl, ctx, w, w₁, hfails, hstill.stores, hstill.calls⟩

theorem runEffects_fails (ctx : Context) (place : Text) (effects : List Value)
    (he : ∀ e ∈ effects, e ∈ d.expressions) (ran : Nat) :
    FailsByEvaluation ev a d (runEffects ev services m ctx place ran effects) := by
  intro w _
  cases hr : runEffects ev services m ctx place ran effects w with
  | ok _ _ => trivial
  | error fault w' =>
    obtain ⟨e, hmem, w₁, w₂, hfails, hstill⟩ := runEffects_error hr
    exact ⟨e, he e hmem, ctx, w₁, w₂, hfails, hstill.stores, hstill.calls⟩

section activities

variable (hev : ev.Respects (DefinitionKept a d) fun _ => True)

include hev

variable (hm : m.handle = a)

section own

variable (hd : m.definition = d)

include hd

omit hev in
theorem transition_expressions {t : Transition} (ht : t ∈ m.definition.transitions) :
    (∀ g ∈ t.guard, g ∈ d.expressions) ∧ ∀ e ∈ t.effects, e ∈ d.expressions := by
  subst hd
  have hall : ∀ e ∈ t.guard.toList ++ t.effects, e ∈ m.definition.expressions := fun e he =>
    List.mem_append_left _ (List.mem_append_left _ (List.mem_flatMap.mpr ⟨t, ht, he⟩))
  refine ⟨fun g hg => hall g (List.mem_append_left _ ?_), fun e he => hall e ?_⟩
  · exact Option.mem_toList.mpr hg
  · exact List.mem_append_right _ he

omit hev in
theorem tick_expressions {t : Tick} (ht : t ∈ m.definition.ticks) :
    (∀ g ∈ t.guard, g ∈ d.expressions) ∧ ∀ e ∈ t.effects, e ∈ d.expressions := by
  subst hd
  have hall : ∀ e ∈ t.guard.toList ++ t.effects, e ∈ m.definition.expressions := fun e he =>
    List.mem_append_left _ (List.mem_append_right _ (List.mem_flatMap.mpr ⟨t, ht, he⟩))
  refine ⟨fun g hg => hall g (List.mem_append_left _ ?_), fun e he => hall e ?_⟩
  · exact Option.mem_toList.mpr hg
  · exact List.mem_append_right _ he

include hm

theorem tryTransitions_fails (ctx : Context) (event : Text) (ts : List Transition)
    (hts : ∀ t ∈ ts, t ∈ m.definition.transitions) (rejected : Bool) (index : Nat) :
    FailsByEvaluation ev a d (tryTransitions ev services m ctx event rejected index ts) := by
  intro w _
  have hweighs : Weighs (DefinitionKept a d) (fun _ => True) ev services m :=
    (definitionKept_transacts a a d).weighs hev hm
  have htried : Tried (DefinitionKept a d) ev services m ctx event index ts w
      (tryTransitions ev services m ctx event rejected index ts w) :=
    hweighs.tryTransitions_tried trivial event rejected index ts w
  generalize tryTransitions ev services m ctx event rejected index ts w = result at htried ⊢
  cases htried with
  | unanswered => trivial
  | guardFailed ht _ guarded _ fails =>
    obtain ⟨w₂, hfails, hstill, -⟩ := guardHolds_error fails
    exact ⟨_, (transition_expressions hd (hts _ ht)).1 _ guarded, _, _, w₂, hfails,
      hstill.stores, hstill.calls⟩
  | @taken i t rejected w₁ _ ht _ _ takes =>
    rw [← takes]
    rcases take_cases ev services m ctx event (index + i) t rejected w₁ with
      ⟨fault, w₂, hran, htake⟩ | ⟨_, _, _, -, htake⟩
    · rw [htake]
      obtain ⟨e, hmem, w₃, w₄, hfails, hstill⟩ := runEffects_error hran
      have hexpression := (transition_expressions hd (hts t (List.mem_of_getElem? ht))).2 e hmem
      exact ⟨e, hexpression, _, w₃, w₄, hfails, hstill.stores, hstill.calls⟩
    · rw [htake]
      trivial

theorem performTick_fails (ctx : Context) (index : Nat) {t : Tick} (ht : t ∈ m.definition.ticks) :
    FailsByEvaluation ev a d (performTick ev services m ctx index t) := by
  have hR := (definitionKept_transacts a a d).toReacts
  unfold performTick
  refine FailsByEvaluation.bind (runEffects_fails _ _ _ (tick_expressions hd ht).2 0)
    ((hR.weighs hev hm).runEffects_keeps trivial _ _ _) fun _ => ?_
  refine FailsByEvaluation.bind (FailsByEvaluation.modify _) ?_ fun _ => ?_
  · rw [hm]
    exact Keeps.modify fun w => (definitionKept_timed a a d).ran w index ctx.now
  · exact FailsByEvaluation.bind (FailsByEvaluation.modify _) (hR.count_keeps hm _) fun _ =>
      FailsByEvaluation.pure _

end own

theorem process_fails (event : Text) (payload : Value) :
    FailsByEvaluation ev a d (process ev services a event payload) := by
  have hR := definitionKept_transacts a a d
  refine FailsByEvaluation.withMachine _ fun m hm hd => ?_
  refine FailsByEvaluation.bind (fun w _ => ?_) (hR.processed m services _ hm) fun _ => ?_
  · rw [record_eq]
    trivial
  · refine FailsByEvaluation.bind (FailsByEvaluation.modify _) (hR.count_keeps hm _) fun _ => ?_
    refine FailsByEvaluation.bind (fun _ _ => trivial) hR.get fun w => ?_
    exact tryTransitions_fails hev hm hd _ event _ (fun t h => h) false 0

omit hev in
theorem nextPending_fails : FailsByEvaluation ev a d (nextPending a) := by
  refine FailsByEvaluation.withMachine none fun m _ _ => ?_
  cases m.pending with
  | nil => exact fun _ _ => trivial
  | cons o rest => exact fun _ _ => trivial

omit hev in
theorem dropPending_fails (hm : m.handle = a) (os : List Occurrence) :
    FailsByEvaluation ev a d (dropPending services m os) := by
  have hR := definitionKept_transacts a a d
  induction os with
  | nil => exact FailsByEvaluation.modify _
  | cons o rest ih =>
    unfold dropPending
    refine FailsByEvaluation.bind (fun w _ => ?_) (hR.dropped m services o hm) fun _ => ih
    rw [record_eq]
    trivial

/-- A drain processes no more than a number of events, so that it ends unless one of them fails. -/
theorem drain_fails (left : Nat) : FailsByEvaluation ev a d (drain ev services a left) := by
  have hR := definitionKept_transacts a a d
  induction left with
  | zero => exact FailsByEvaluation.withMachine () fun m hm _ => dropPending_fails hm m.pending
  | succ left ih =>
    unfold drain
    refine FailsByEvaluation.bind nextPending_fails hR.nextPending_keeps fun next => ?_
    cases next with
    | none => exact FailsByEvaluation.pure _
    | some o =>
      exact FailsByEvaluation.bind (process_fails hev o.event o.payload)
        (hR.process_keeps hev o.event o.payload) fun _ => ih

omit hev in
theorem transaction_fails {x : Eval α} (hx : FailsByEvaluation ev a d x) :
    FailsByEvaluation ev a d (transaction a x) := by
  have hR := definitionKept_transacts a a d
  refine FailsByEvaluation.bind (FailsByEvaluation.modify _) ?_ fun _ w hw => ?_
  · exact Keeps.modify fun w => hR.queue w (fun _ => true) fun m => m.pending
  · have h := hx w hw
    unfold Eval.andFinally
    cases hr : x w with
    | ok v w' => trivial
    | error fault w' =>
      rw [hr] at h
      exact h

theorem dispatch_fails (event : Text) (payload : Value) :
    FailsByEvaluation ev a d (dispatch ev services a event payload) := by
  have hR := definitionKept_transacts a a d
  refine transaction_fails ?_
  refine FailsByEvaluation.bind (process_fails hev event payload)
    (hR.process_keeps hev event payload) fun first => ?_
  exact FailsByEvaluation.bind (drain_fails hev _) (hR.drain_keeps hev _) fun _ =>
    FailsByEvaluation.pure first

theorem runTick_fails (now : Int) (index : Nat) {tick : Tick} (ht : tick ∈ d.ticks) :
    FailsByEvaluation ev a d (runTick ev services a now index tick) := by
  have hR := (definitionKept_transacts a a d).toReacts
  have hskip : FailsByEvaluation ev a d (do skipTick a; return false) := fun _ _ => trivial
  refine FailsByEvaluation.withMachine false fun m hm hd => ?_
  have ht' : tick ∈ m.definition.ticks := by rwa [hd]
  have hinterval : FailsByEvaluation ev a d (interval services m tick) := by
    unfold interval
    split
    · exact FailsByEvaluation.pure _
    · exact FailsByEvaluation.pure _
    · refine FailsByEvaluation.ite (FailsByEvaluation.pure _) ?_
      exact FailsByEvaluation.bind (FailsByEvaluation.note _ _ _ _ _)
        (hR.note_keeps services m (by decide) _ _) fun _ => FailsByEvaluation.pure _
  refine FailsByEvaluation.bind hinterval ((hR.weighs hev hm).interval_keeps tick) fun due => ?_
  cases due with
  | none => exact FailsByEvaluation.pure _
  | some due =>
    refine FailsByEvaluation.ite (FailsByEvaluation.pure _) (FailsByEvaluation.ite hskip ?_)
    refine FailsByEvaluation.bind (permits_fails (tick_expressions hd ht').1 _ _)
      ((hR.weighs hev hm).permits_keeps trivial tick.guard _) fun permitted => ?_
    exact FailsByEvaluation.ite (performTick_fails hev hm hd _ index ht') hskip

theorem runTicks_fails (now : Int) (ticks : List (Nat × Tick))
    (ht : ∀ entry ∈ ticks, entry.2 ∈ d.ticks) :
    FailsByEvaluation ev a d (runTicks ev services a now ticks) := by
  have hR : Paces (DefinitionKept a d) ev services a :=
    (definitionKept_transacts a a d).toReacts.paces hev (definitionKept_timed a a d)
  induction ticks with
  | nil => exact FailsByEvaluation.pure _
  | cons entry rest ih =>
    have hrest : ∀ entry ∈ rest, entry.2 ∈ d.ticks := fun e h => ht e (by simp [h])
    unfold runTicks
    refine FailsByEvaluation.bind (runTick_fails hev now entry.1 (ht entry (by simp)))
      (hR.runTick_keeps now entry.1 entry.2) fun ran => ?_
    exact FailsByEvaluation.bind (ih hrest) (hR.runTicks_keeps now rest) fun others =>
      FailsByEvaluation.pure _

theorem runDueTicks_fails (now : Int) :
    FailsByEvaluation ev a d (runDueTicks ev services a now) := by
  have hR := definitionKept_transacts a a d
  have hT := definitionKept_timed a a d
  refine FailsByEvaluation.withMachine 0 fun m hm hd => ?_
  refine FailsByEvaluation.ite (FailsByEvaluation.pure _) (transaction_fails ?_)
  have hrest : FailsByEvaluation ev a d (do
      let ran ← runTicks ev services a now (tickOrder m.definition)
      drain ev services a services.maxQueued
      return ran) := by
    refine FailsByEvaluation.bind (runTicks_fails hev now _ fun entry h => ?_)
      ((hR.paces hev hT).runTicks_keeps now _) fun ran => ?_
    · rw [← hd]
      exact List.mem_of_getElem? (mem_tickOrder.mp h)
    · exact FailsByEvaluation.bind (drain_fails hev _) (hR.drain_keeps hev _) fun _ =>
        FailsByEvaluation.pure ran
  refine FailsByEvaluation.ite ?_ hrest
  refine FailsByEvaluation.bind (FailsByEvaluation.modify _) ?_ fun _ => hrest
  exact Keeps.modify fun w => hT.restart w now

theorem runInitialEffects_fails :
    FailsByEvaluation ev a d (runInitialEffects ev services a) := by
  have hR := definitionKept_transacts a a d
  refine FailsByEvaluation.withMachine () fun m hm hd => ?_
  refine FailsByEvaluation.ite (FailsByEvaluation.pure _) (transaction_fails ?_)
  refine FailsByEvaluation.bind (fun _ _ => trivial) hR.get fun w => ?_
  refine FailsByEvaluation.bind (runEffects_fails _ _ _ (fun e he => ?_) 0)
    ((hR.weighs hev hm).runEffects_keeps trivial _ _ _) fun _ => drain_fails hev _
  rw [← hd]
  exact List.mem_append_right _ he

end activities

end Machine
end EntityMachines
