import EntityMachines.Proofs.Machine.Activity

/-!
A machine between transactions is so again behind every computation, whether it fails or not.
-/
namespace EntityMachines

/-- No transaction of the machine runs. -/
structure Instance.Idle (m : Instance) : Prop where
  busy : m.busy = false
  pending : m.pending = []

namespace Machine

open Eval (Keeps)

variable {α : Type} {ev : Evaluator} {a handle : Nat} {services : Services}

def IdleKept (a : Nat) (w w' : World) : Prop :=
  (∀ m, w.machine? a = some m → m.Idle) → ∀ m, w'.machine? a = some m → m.Idle

theorem idleKept_frame (a : Nat) : MachineFrame (IdleKept a) where
  same w w' _ hm h m hw := h m (by rwa [World.machine?_congr hm] at hw)
  trans h h' := h' ∘ h
  write _ _ _ := id

theorem idleKept_update (handle : Nat) (w : World) {f : Instance → Instance}
    (hf : ∀ m, (f m).handle = m.handle) (hidle : a = handle → ∀ m, m.Idle → (f m).Idle) :
    IdleKept a w (w.mapMachine handle f) := by
  intro h m hm
  rw [World.machine?_mapMachine w handle a hf] at hm
  split at hm
  next ha =>
    obtain ⟨m₀, hm₀, rfl⟩ := Option.map_eq_some_iff.mp hm
    exact hidle ha m₀ (h m₀ hm₀)
  next => exact h m hm

theorem idleKept_reacts (a handle : Nat) : Reacts (IdleKept a) handle fun _ => True :=
  (idleKept_frame a).reacts (fun _ _ _ _ h => absurd trivial h)
    (fun w _ => idleKept_update handle w (fun _ => rfl) fun _ _ h => ⟨h.busy, h.pending⟩)
    (fun w _ _ _ _ _ => idleKept_update handle w (fun _ => rfl) fun _ _ h => ⟨h.busy, h.pending⟩)

theorem idleKept_timed (a handle : Nat) : Timed (IdleKept a) handle where
  ran w _ _ := idleKept_update handle w (fun _ => rfl) fun _ _ h => ⟨h.busy, h.pending⟩
  restart w _ := idleKept_update handle w (fun _ => rfl) fun _ _ h => ⟨h.busy, h.pending⟩

theorem idleKept_transacts (h : handle ≠ a) : Transacts (IdleKept a) handle fun _ => True :=
  (idleKept_frame a).transacts (idleKept_reacts a handle) fun w _ _ =>
    idleKept_update handle w (fun _ => rfl) fun ha => absurd ha.symm h

theorem after_transaction (a : Nat) (x : Eval α) (w : World) :
    (transaction a x).after w
      = (x.after (w.mapMachine a fun m => { m with busy := true })).mapMachine a
        fun m => { m with busy := false, pending := [] } :=
  Eval.after_andFinally x _ _

/-- However a transaction ends, its machine is idle then. -/
theorem transaction_idle (a : Nat) (x : Eval α) : Keeps (IdleKept a) (transaction a x) := by
  have hhandle (m : Instance) :
      ({ m with busy := false, pending := [] } : Instance).handle = m.handle := rfl
  intro w _ m hm
  rw [after_transaction, World.machine?_mapMachine _ a a hhandle, if_pos rfl] at hm
  obtain ⟨m₀, -, rfl⟩ := Option.map_eq_some_iff.mp hm
  exact ⟨rfl, rfl⟩

/-- A transaction that ends well is its computation on a busy machine. -/
theorem transaction_runs {x : Eval α} {w w' : World} {v : α} (h : transaction a x w = .ok v w') :
    ∃ w₁, x (w.mapMachine a fun m => { m with busy := true }) = .ok v w₁ ∧
      w' = w₁.mapMachine a fun m => { m with busy := false, pending := [] } :=
  Eval.andFinally_ok h

/-- A transaction that fails ends where its computation fails, but with an idle machine. -/
theorem transaction_error {x : Eval α} {w w' : World} {fault : Fault}
    (h : transaction a x w = .error fault w') :
    ∃ w₁, x (w.mapMachine a fun m => { m with busy := true }) = .error fault w₁ ∧
      w' = w₁.mapMachine a fun m => { m with busy := false, pending := [] } :=
  Eval.andFinally_error h

theorem deliver_idle (ev : Evaluator) (a : Nat) (services : Services) (event : Text)
    (payload : Value) : Keeps (IdleKept a) (deliver ev a services event payload) := by
  have hR := idleKept_frame a
  intro w
  unfold deliver withMachine
  rw [Eval.after_get_bind]
  cases hm : w.machine? a with
  | none => exact hR.same w w rfl rfl
  | some m =>
    intro hidle
    have hb : m.busy = false := (hidle m hm).busy
    have hfate : m.fate services event = .undeclared ∨ m.fate services event = .dispatched := by
      unfold Instance.fate
      cases m.definition.hasEvent event with
      | false => exact .inl rfl
      | true => simp [hb]
    refine hR.openFrame.bind_at (hR.announce_keeps services m _ _ w) (fun _ => ?_) hidle
    rcases hfate with hfate | hfate
    · rw [hfate]
      exact hR.openFrame.pure ()
    · rw [hfate]
      exact hR.openFrame.bind (transaction_idle a _) fun _ => hR.openFrame.pure ()

theorem idleKept_withFuel (a n : Nat) :
    (Evaluator.withFuel Library.standard n).Respects (IdleKept a) fun _ => True := by
  refine Evaluator.withFuel_respects (idleKept_frame a).openFrame
    (fun n hev handle services event payload => ?_) n
  by_cases h : handle = a
  · rw [h]
    exact deliver_idle _ a services event payload
  · exact (idleKept_transacts h).deliver_keeps hev event payload

section

variable (hev : ev.Respects (IdleKept a) fun _ => True)

include hev

theorem dispatch_idle (handle : Nat) (event : Text) (payload : Value) :
    Keeps (IdleKept a) (dispatch ev services handle event payload) := by
  by_cases h : handle = a
  · rw [h]
    exact transaction_idle a _
  · exact (idleKept_transacts h).dispatch_keeps hev event payload

theorem runDueTicks_idle (handle : Nat) (now : Int) :
    Keeps (IdleKept a) (runDueTicks ev services handle now) := by
  by_cases h : handle = a
  · subst h
    refine (idleKept_reacts handle handle).withMachine 0 fun m _ _ => ?_
    exact Keeps.ite (fun _ => (idleKept_frame handle).openFrame.pure _) fun _ =>
      transaction_idle handle _
  · exact (idleKept_transacts h).runDueTicks_keeps hev (idleKept_timed a handle) now

theorem runInitialEffects_idle (handle : Nat) :
    Keeps (IdleKept a) (runInitialEffects ev services handle) := by
  by_cases h : handle = a
  · subst h
    refine (idleKept_reacts handle handle).withMachine () fun m _ _ => ?_
    exact Keeps.ite (fun _ => (idleKept_frame handle).openFrame.pure _) fun _ =>
      transaction_idle handle _
  · exact (idleKept_transacts h).runInitialEffects_keeps hev

end

end Machine
end EntityMachines
