import EntityMachines.Proofs.Machine.Choice
import EntityMachines.Proofs.Machine.Drain

/-!
What an event comes to that a machine processes, and what the machine counts of it.
-/
namespace EntityMachines

/-- What is counted of events and not of the guards that are asked. -/
def Stats.answers (s : Stats) : Nat × Nat × Nat := (s.events, s.transitions, s.unmatchedEvents)

namespace Machine

/-- What an event comes to when it is processed. -/
abbrev Outcome := Except Fault Dispatched

namespace Outcome

def result (w : World) : Outcome → EStateM.Result Fault World Dispatched
  | .ok r => .ok r w
  | .error fault => .error fault w

/-- A transition was taken. -/
def fired : Outcome → Bool
  | .ok r => r.transition.isSome
  | .error _ => false

/-- No transition was for the event. -/
def unmatched : Outcome → Bool
  | .ok r => r.transition.isNone && !r.guardRejected
  | .error _ => false

/-- Transitions were for the event, and all of them were denied. -/
def rejected : Outcome → Bool
  | .ok r => r.transition.isNone && r.guardRejected
  | .error _ => false

def failed : Outcome → Bool
  | .ok _ => false
  | .error _ => true

/-- An event comes to one of four things. -/
theorem length_eq (outcomes : List Outcome) :
    outcomes.length = outcomes.countP fired + outcomes.countP unmatched
      + outcomes.countP rejected + outcomes.countP failed := by
  induction outcomes with
  | nil => rfl
  | cons outcome rest ih =>
    have hone : outcome.fired.toNat + outcome.unmatched.toNat + outcome.rejected.toNat
        + outcome.failed.toNat = 1 := by
      cases outcome with
      | error fault => rfl
      | ok r =>
        obtain ⟨_, _, transition, denied, _⟩ := r
        cases transition <;> cases denied <;> rfl
    have hcons (p : Outcome → Bool) :
        (outcome :: rest).countP p = (p outcome).toNat + rest.countP p := by
      rw [List.countP_cons]
      cases p outcome <;> simp [Nat.add_comm]
    rw [List.length_cons, hcons, hcons, hcons, hcons]
    omega

end Outcome

/-- Counters that have gone on by what some events came to. -/
structure Counted (s : Stats) (outcomes : List Outcome) (s' : Stats) : Prop where
  events : s'.events = s.events + outcomes.length
  transitions : s'.transitions = s.transitions + outcomes.countP Outcome.fired
  unmatchedEvents : s'.unmatchedEvents = s.unmatchedEvents + outcomes.countP Outcome.unmatched

namespace Counted

theorem nil {s s' : Stats} (h : s'.answers = s.answers) : Counted s [] s' := by
  unfold Stats.answers at h
  simp only [Prod.mk.injEq] at h
  exact ⟨h.1, h.2.1, h.2.2⟩

theorem append {s s' s'' : Stats} {l l' : List Outcome} (h : Counted s l s')
    (h' : Counted s' l' s'') : Counted s (l ++ l') s'' where
  events := by rw [h'.events, h.events, List.length_append, Nat.add_assoc]
  transitions := by rw [h'.transitions, h.transitions, List.countP_append, Nat.add_assoc]
  unmatchedEvents := by
    rw [h'.unmatchedEvents, h.unmatchedEvents, List.countP_append, Nat.add_assoc]

/-- An event that takes no transition, though one is for it, is counted as an event only. -/
theorem of_begun {s s' : Stats} {outcome : Outcome} (hfired : outcome.fired = false)
    (hunmatched : outcome.unmatched = false)
    (h : s'.answers = Stats.answers { s with events := s.events + 1 }) :
    Counted s [outcome] s' := by
  unfold Stats.answers at h
  simp only [Prod.mk.injEq] at h
  exact ⟨h.1, by simp [h.2.1, hfired], by simp [h.2.2, hunmatched]⟩

end Counted

variable {a : Nat} {ev : Evaluator} {services : Services} {m : Instance} {ctx : Context}
  {event : Text} {w w' : World}

section step

variable (hev : ev.Respects (Unmoved Stats.answers a) fun _ => True)

include hev

/-- A machine whose transaction runs counts each event that it processes, and what the event comes
to. -/
theorem process_counted {o : Occurrence} {outcome : Outcome} (hm : w.machine? a = some m)
    (hb : m.busy = true)
    (h : process ev services a o.event o.payload w = outcome.result w') :
    ∃ m' J, w'.machine? a = some m' ∧ m'.busy = true ∧ Counted m.stats [outcome] m'.stats ∧
      w'.history = J.reverse ++ w.history ∧ pick Deed.processed? (deedsOf a J) = [o] := by
  obtain rfl : m.handle = a := World.handle_of_machine? hm
  have hjudges : Judges (Unmoved Stats.answers m.handle) (fun _ => True) ev services m :=
    Unmoved.judges hev fun _ => rfl
  let begun := (w.recorded services m (.processed o)).counted m.handle
    fun s => { s with events := s.events + 1 }
  have hm₁ : begun.machine? m.handle
      = some { m with stats := { m.stats with events := m.stats.events + 1 } } :=
    World.machine?_mapMachine_self (w := w.recorded services m (.processed o)) hm fun _ => rfl
  -- Wherever only guards and effects have been evaluated since, nothing more is counted of events.
  have hsince {w₁ : World} (hkept : Unmoved Stats.answers m.handle begun w₁) :
      ∃ stats pending J, w₁.machine? m.handle = some { m with stats, pending } ∧
        stats.answers = Stats.answers { m.stats with events := m.stats.events + 1 } ∧
        w₁.history = J.reverse ++ w.history ∧
        pick Deed.processed? (deedsOf m.handle J) = [o] := by
    obtain ⟨stats, pending, hm', hs, hbegan⟩ := hkept.began (w := w) hm₁ hb rfl
    obtain ⟨J, hh, -, hprocessed, -⟩ := hbegan.deeds
    exact ⟨stats, pending, J, hm', hs, hh, hprocessed⟩
  have hdeclined {candidates : List (Transition × Nat)} {w₁ : World}
      (h : Declined ev services m (m.context o.payload w.clock) o.event candidates begun w₁) :
      Unmoved Stats.answers m.handle begun w₁ :=
    h.keeps hjudges trivial (count_unmoved m.handle fun _ => rfl)
  have hchoice : Choice ev services m (m.context o.payload w.clock) o.event
      m.definition.transitions begun (process ev services m.handle o.event o.payload w) :=
    process_choice hm o.payload
  rw [h] at hchoice
  cases outcome with
  | error fault =>
    have hkept : Unmoved Stats.answers m.handle begun w' := by
      cases hchoice with
      | effectFails _ _ before yes fails =>
        exact (hdeclined before).trans ((yes.keeps hjudges trivial).trans
          ((hjudges.runEffects_keeps trivial _ _ _).of_error fails))
      | guardFails _ _ before fails => exact (hdeclined before).trans (fails.keeps hjudges trivial)
    obtain ⟨stats, pending, J, hm', hs, hh, hprocessed⟩ := hsince hkept
    exact ⟨_, J, hm', hb, .of_begun rfl rfl hs, hh, hprocessed⟩
  | ok r =>
    cases hchoice with
    | unmatched =>
      obtain ⟨stats, pending, J, hm', hs, hh, hprocessed⟩ := hsince (hev.frame.refl begun)
      have hcounted := World.machine?_mapMachine_self hm'
        (f := fun m' => { m' with stats :=
          { m'.stats with unmatchedEvents := m'.stats.unmatchedEvents + 1 } }) fun _ => rfl
      refine ⟨_, J, hcounted, hb, ?_, hh, hprocessed⟩
      unfold Stats.answers at hs
      simp only [Prod.mk.injEq] at hs
      exact ⟨hs.1, hs.2.1, congrArg (· + 1) hs.2.2⟩
    | rejected _ declined =>
      obtain ⟨stats, pending, J, hm', hs, hh, hprocessed⟩ := hsince (hdeclined declined)
      exact ⟨_, J, hm', hb, .of_begun rfl rfl hs, hh, hprocessed⟩
    | @taken i t _ _ _ _ _ _ before yes effects =>
      have hkept := (hdeclined before).trans ((yes.keeps hjudges trivial).trans
        ((hjudges.runEffects_keeps trivial _ _ _).of_ok effects))
      obtain ⟨stats, pending, J, hm', hs, hh, hprocessed⟩ := hsince hkept
      have hmoved := World.machine?_mapMachine_self hm'
        (f := fun m' => m'.moved (t.target.getD m.state)) fun _ => rfl
      refine ⟨_, J, hmoved, hb, ?_, hh, hprocessed⟩
      unfold Stats.answers at hs
      simp only [Prod.mk.injEq] at hs
      exact ⟨hs.1, congrArg (· + 1) hs.2.1, hs.2.2⟩

end step

end Machine
end EntityMachines
