import EntityMachines.Machine.Threads
import EntityMachines.Proofs.Machine.Held
import EntityMachines.Proofs.Machine.Idle
import Mathlib.Algebra.Ring.Nat

/-!
What one move of a thread does. The moves are listed once, and a property that each of them keeps is
one of every run.
-/
namespace EntityMachines

namespace Instance

variable {m : Instance}

theorem next_nil (h : m.pending = []) : m.next = (none, { m with busy := false }) := by
  unfold next
  rw [h]

theorem next_cons {o : Occurrence} {rest : List Occurrence} (h : m.pending = o :: rest) :
    m.next = (some o, { m with pending := rest }) := by
  unfold next
  rw [h]

end Instance

namespace Phase

/-- The thread has the lock of the transactions. -/
def inside : Phase → Bool
  | idle | waiting _ _ => false
  | _ => true

/-- The thread looks at the queue again before its transaction ends. -/
def drains : Phase → Bool
  | working _ _ | draining _ _ => true
  | _ => false

/-- The event with which the thread is going to begin a transaction. -/
def carried : Phase → List Occurrence
  | waiting _ first | admitted _ first => first.toList
  | _ => []

end Phase

theorem getElem?_set_phases {phases : List Phase} {i : Nat} {p : Phase}
    (h : phases[i]? = some p) (q : Phase) (j : Nat) :
    (phases.set i q)[j]? = if i = j then some q else phases[j]? := by
  obtain ⟨hi, -⟩ := List.getElem?_eq_some_iff.mp h
  rw [List.getElem?_set]
  split
  next hij =>
    subst hij
    simp
  next => rfl

/-- When a thread goes on, a sum over the phases changes with its phase. -/
theorem sum_set_phases {phases : List Phase} {i : Nat} {p : Phase} (h : phases[i]? = some p)
    (q : Phase) (f : Phase → Nat) :
    ((phases.set i q).map f).sum + f p = (phases.map f).sum + f q := by
  induction phases generalizing i with
  | nil => cases h
  | cons r rest ih =>
    cases i with
    | zero =>
      cases h
      simp only [List.set_cons_zero, List.map_cons, List.sum_cons]
      omega
    | succ i =>
      have hrest := ih h
      simp only [List.set_cons_succ, List.map_cons, List.sum_cons]
      omega

namespace Threads

variable {s s' : Threads} {i : Nat} {services : Services} {o : Occurrence}

/-- What becomes of an event that is emitted while the threads are as they are. -/
inductive Emits (s : Threads) (i : Nat) (services : Services) (o : Occurrence) : Threads → Prop
  | undeclared (h : ¬s.machine.definition.hasEvent o.event) :
      Emits s i services o (s.keep services (.emitted o .undeclared))
  | queued (h : s.machine.definition.hasEvent o.event) (busy : s.machine.busy = true)
      (room : s.machine.pending.length < services.maxQueued) :
      Emits s i services o
        { s.keep services (.emitted o .queued) with machine := s.machine.enqueue o }
  | refused (h : s.machine.definition.hasEvent o.event) (busy : s.machine.busy = true)
      (full : services.maxQueued ≤ s.machine.pending.length) :
      Emits s i services o (s.keep services (.emitted o .refused))
  | dispatched (h : s.machine.definition.hasEvent o.event) (free : s.machine.busy = false) :
      Emits s i services o
        ((s.keep services (.emitted o .dispatched)).turn i (.waiting services (some o)))

/-- The moves of a thread, each with the phase in which it is made and what it does. -/
inductive Step (s : Threads) (i : Nat) : Move → Threads → Prop
  | call {services first} (phase : s.phases[i]? = some .idle) :
      Step s i (.call services first)
        ({ s with called := s.called ++ first.toList }.turn i (.waiting services first))
  | acquire {services first} (phase : s.phases[i]? = some (.waiting services first))
      (free : s.holder = none) :
      Step s i .acquire ({ s with holder := some i }.turn i (.admitted services first))
  | enter {services first} (phase : s.phases[i]? = some (.admitted services first)) :
      Step s i .enter
        ((s.enter services first).turn i (.working services services.maxQueued))
  | emit {p services o s'} (phase : s.phases[i]? = some p)
      (may : p = .idle ∨ ∃ services left, p = .working services left)
      (h : Emits s i services o s') : Step s i (.emit services o) s'
  | excuse {services left place e} (phase : s.phases[i]? = some (.working services left)) :
      Step s i (.excuse place e) (s.keep services (.guardFailed place e))
  | finish {services left} (phase : s.phases[i]? = some (.working services left)) :
      Step s i .finish (s.turn i (.draining services left))
  | fail {services left} (phase : s.phases[i]? = some (.working services left)) :
      Step s i .fail (s.turn i .closing)
  | stop {services left} (phase : s.phases[i]? = some (.draining services left))
      (empty : s.machine.pending = []) :
      Step s i .next ({ s with machine := { s.machine with busy := false } }.turn i .closing)
  | process {services left o rest} (phase : s.phases[i]? = some (.draining services (left + 1)))
      (first : s.machine.pending = o :: rest) :
      Step s i .next
        (({ s with machine := { s.machine with pending := rest } }.keep services
          (.processed o)).turn i (.working services left))
  | drop {services o rest} (phase : s.phases[i]? = some (.draining services 0))
      (first : s.machine.pending = o :: rest) :
      Step s i .next
        ({ s with machine := { s.machine with pending := rest } }.keep services (.dropped o))
  | close (phase : s.phases[i]? = some .closing) :
      Step s i .close ({ s with machine := s.machine.closed }.turn i .leaving)
  | release (phase : s.phases[i]? = some .leaving) :
      Step s i .release ({ s with holder := none }.turn i .idle)

theorem emit_undeclared (h : s.machine.fate services o.event = .undeclared) (i : Nat) :
    s.emit i services o = s.keep services (.emitted o .undeclared) := by
  unfold emit
  rw [h]

theorem emit_refused (h : s.machine.fate services o.event = .refused) (i : Nat) :
    s.emit i services o = s.keep services (.emitted o .refused) := by
  unfold emit
  rw [h]

theorem emit_queued (h : s.machine.fate services o.event = .queued) (i : Nat) :
    s.emit i services o
      = { s.keep services (.emitted o .queued) with machine := s.machine.enqueue o } := by
  unfold emit
  rw [h]
  rfl

theorem emit_dispatched (h : s.machine.fate services o.event = .dispatched) (i : Nat) :
    s.emit i services o
      = (s.keep services (.emitted o .dispatched)).turn i (.waiting services (some o)) := by
  unfold emit
  rw [h]

theorem emit_emits (s : Threads) (i : Nat) (services : Services) (o : Occurrence) :
    Emits s i services o (s.emit i services o) := by
  cases hbusy : s.machine.busy with
  | true =>
    rcases Machine.fate_of_busy hbusy services o.event with
      ⟨hfate, h⟩ | ⟨hfate, h, hfull⟩ | ⟨hfate, h, hroom⟩
    · rw [emit_undeclared hfate]
      exact .undeclared h
    · rw [emit_refused hfate]
      exact .refused h hbusy hfull
    · rw [emit_queued hfate]
      exact .queued h hbusy hroom
  | false =>
    by_cases h : s.machine.definition.hasEvent o.event = true
    · rw [emit_dispatched (by simp [Instance.fate, h, hbusy])]
      exact .dispatched h hbusy
    · rw [emit_undeclared (by simp [Instance.fate, h])]
      exact .undeclared h

theorem advance_nil (h : s.machine.pending = []) (i : Nat) (services : Services) (left : Nat) :
    s.advance i services left
      = { s with machine := { s.machine with busy := false } }.turn i .closing := by
  unfold advance
  rw [Instance.next_nil h]

theorem advance_zero {rest : List Occurrence} (h : s.machine.pending = o :: rest) (i : Nat)
    (services : Services) :
    s.advance i services 0
      = { s with machine := { s.machine with pending := rest } }.keep services (.dropped o) := by
  unfold advance
  rw [Instance.next_cons h]

theorem advance_succ {rest : List Occurrence} (h : s.machine.pending = o :: rest) (i : Nat)
    (services : Services) (left : Nat) :
    s.advance i services (left + 1)
      = ({ s with machine := { s.machine with pending := rest } }.keep services
          (.processed o)).turn i (.working services left) := by
  unfold advance
  rw [Instance.next_cons h]

theorem advance_step {left : Nat} (hphase : s.phases[i]? = some (.draining services left)) :
    Step s i .next (s.advance i services left) := by
  cases hpending : s.machine.pending with
  | nil =>
    rw [advance_nil hpending]
    exact .stop hphase hpending
  | cons o rest =>
    cases left with
    | zero =>
      rw [advance_zero hpending]
      exact .drop hphase hpending
    | succ left =>
      rw [advance_succ hpending]
      exact .process hphase hpending

theorem step_eq {phase : Phase} (hphase : s.phases[i]? = some phase) (move : Move) :
    s.step (i, move) = s.move i phase move := by
  unfold step
  rw [hphase]

/-- Threads do no more than is listed. -/
theorem step_spec {move : Move} (h : s.step (i, move) = some s') : Step s i move s' := by
  cases hphase : s.phases[i]? with
  | none =>
    unfold step at h
    rw [hphase] at h
    cases h
  | some phase =>
    rw [step_eq hphase] at h
    unfold Threads.move at h
    split at h
    · cases h
      exact .call hphase
    · cases h
      exact .emit hphase (.inl rfl) (emit_emits s i _ _)
    · split at h
      next hfree =>
        cases h
        exact .acquire hphase (by simpa using hfree)
      next => cases h
    · cases h
      exact .enter hphase
    · cases h
      exact .emit hphase (.inr ⟨_, _, rfl⟩) (emit_emits s i _ _)
    · cases h
      exact .excuse hphase
    · cases h
      exact .finish hphase
    · cases h
      exact .fail hphase
    · cases h
      exact advance_step hphase
    · cases h
      exact .close hphase
    · cases h
      exact .release hphase
    · cases h

/-- No thread changes the definition. -/
theorem Step.definition {move : Move} (h : Step s i move s') :
    s'.machine.definition = s.machine.definition := by
  cases h with
  | emit _ _ hemits => cases hemits <;> rfl
  | @enter _ first => cases first <;> rfl
  | _ => rfl

theorem run_cons {entry : Nat × Move} {rest : List (Nat × Move)}
    (h : s.run (entry :: rest) = some s') :
    ∃ s₁, Step s entry.1 entry.2 s₁ ∧ s.step entry = some s₁ ∧ s₁.run rest = some s' := by
  unfold run at h
  rw [List.foldlM_cons] at h
  obtain ⟨s₁, hfirst, hrest⟩ := Option.bind_eq_some_iff.mp h
  exact ⟨s₁, step_spec hfirst, hfirst, hrest⟩

/-- What every move but a failure keeps holds behind every run in which nothing fails. -/
theorem run_keeps {P : Threads → Prop}
    (hstep : ∀ {s i move s'}, P s → move ≠ .fail → Step s i move s' → P s')
    {moves : List (Nat × Move)} (hmoves : ∀ entry ∈ moves, entry.2 ≠ .fail) (hs : P s)
    (h : s.run moves = some s') : P s' := by
  induction moves generalizing s with
  | nil =>
    cases h
    exact hs
  | cons entry rest ih =>
    obtain ⟨s₁, hfirst, -, hrest⟩ := run_cons h
    have hs₁ := hstep hs (hmoves entry List.mem_cons_self) hfirst
    exact ih (fun e he => hmoves e (List.mem_cons_of_mem entry he)) hs₁ hrest

end Threads
end EntityMachines
