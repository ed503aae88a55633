import EntityMachines.Proofs.Machine.Answer
import EntityMachines.Proofs.Machine.Queue

/-!
While the transaction of a machine runs, evaluation leaves the machine as it is: it can only add to
its queue, and all that is added stands in the history. Transactions of other machines may run
meanwhile.
-/
namespace EntityMachines
namespace Machine

open Eval (Keeps OpenFrame)

/-- What happens has nothing to do with a machine. -/
def Apart (a : Nat) (w w' : World) : Prop :=
  w'.machine? a = w.machine? a ∧ ∃ J, w'.history = J.reverse ++ w.history ∧ deedsOf a J = []

/-- A machine whose transaction runs has only taken in events. What waits has grown as the history
says, and nothing else of it is different. -/
def Held (a : Nat) (w w' : World) : Prop :=
  ∀ m, w.machine? a = some m → m.busy = true →
    ∃ pending J, w'.machine? a = some { m with pending } ∧
      w'.history = J.reverse ++ w.history ∧
      Worklist m.definition m.pending (deedsOf a J) pending ∧ pick Deed.taken? (deedsOf a J) = []

namespace Apart

variable {a handle : Nat} {w w' w'' : World}

theorem trans (h : Apart a w w') (h' : Apart a w' w'') : Apart a w w'' := by
  obtain ⟨hm, J, hh, hJ⟩ := h
  obtain ⟨hm', J', hh', hJ'⟩ := h'
  refine ⟨hm'.trans hm, J ++ J', ?_, ?_⟩
  · rw [hh', hh, List.reverse_append, List.append_assoc]
  · rw [deedsOf_append, hJ, hJ']
    rfl

theorem of_machines (hm : w'.machines = w.machines) (hh : w'.history = w.history) :
    Apart a w w' :=
  ⟨World.machine?_congr hm a, [], hh, rfl⟩

theorem of_update (h : a ≠ handle) {f : Instance → Instance} (hf : ∀ m, (f m).handle = m.handle) :
    Apart a w (w.mapMachine handle f) :=
  ⟨World.machine?_mapMachine_ne w h hf, [], rfl, rfl⟩

/-- The deed of another machine. -/
theorem of_deed {m : Instance} (h : m.handle ≠ a) {services : Services} {d : Deed}
    (hm : w'.machines = w.machines)
    (hh : w'.history = .deed m.handle m.label services d :: w.history) : Apart a w w' :=
  ⟨World.machine?_congr hm a, [_], hh, deedsOf_cons_other h services d []⟩

theorem openFrame (a : Nat) : OpenFrame (Apart a) where
  refl _ := of_machines rfl rfl
  trans := trans
  capture _ _ := of_machines rfl rfl
  timing _ _ _ := of_machines rfl rfl
  arm _ _ := of_machines rfl rfl
  random _ _ := of_machines rfl rfl
  clock _ _ _ := of_machines rfl rfl
  write _ store changes := ⟨rfl, [.write store changes], rfl, rfl⟩
  request _ _ _ _ := of_machines rfl rfl
  closure _ hs := ⟨rfl, [.call hs], rfl, rfl⟩

end Apart

namespace Held

variable {a : Nat} {w w' w'' : World}

theorem trans (h : Held a w w') (h' : Held a w' w'') : Held a w w'' := by
  intro m hm hb
  obtain ⟨pending, J, hm', hh, hq, ht⟩ := h m hm hb
  obtain ⟨pending', J', hm'', hh', hq', ht'⟩ := h' _ hm' hb
  refine ⟨pending', J ++ J', hm'', ?_, ?_, ?_⟩
  · rw [hh', hh, List.reverse_append, List.append_assoc]
  · rw [deedsOf_append]
    exact hq.append hq'
  · rw [deedsOf_append, pick_append, ht, ht']
    rfl

theorem of_apart (h : Apart a w w') : Held a w w' := by
  obtain ⟨hmachine, J, hh, hJ⟩ := h
  intro m hm _
  refine ⟨m.pending, J, by rw [hmachine, hm], hh, ?_, ?_⟩
  · rw [hJ]
    exact .done _
  · rw [hJ]
    rfl

/-- An emission to the machine has happened, and what waits is as its fate says. -/
theorem of_emitted {m : Instance} {pending : List Occurrence} {services : Services} {o : Occurrence}
    {fate : Fate} (hm : w.machine? a = some m) (hm' : w'.machine? a = some { m with pending })
    (hh : w'.history = .deed m.handle m.label services (.emitted o fate) :: w.history)
    (hq : Worklist m.definition m.pending [(services, .emitted o fate)] pending) :
    Held a w w' := by
  intro m₀ hm₀ _
  cases hm.symm.trans hm₀
  have hJ : deedsOf a [.deed m.handle m.label services (.emitted o fate)]
      = [(services, .emitted o fate)] :=
    deedsOf_cons_own (World.handle_of_machine? hm) services _ []
  refine ⟨pending, [.deed m.handle m.label services (.emitted o fate)], hm', hh, ?_, ?_⟩
  · rwa [hJ]
  · rw [hJ]
    rfl

theorem openFrame (a : Nat) : OpenFrame (Held a) := (Apart.openFrame a).weaken trans of_apart

end Held

variable {a handle : Nat} {ev : Evaluator} {services : Services} {m : Instance}

theorem record_apart (h : m.handle ≠ a) (services : Services) (d : Deed) :
    Keeps (Apart a) (record services m d) := by
  intro w
  rw [Eval.after_ok (record_eq services m d w)]
  exact Apart.of_deed h rfl rfl

/-- A listener that fails is the only reason for which an emission is not kept. -/
theorem announce_spec (services : Services) (m : Instance) (o : Occurrence) (fate : Fate)
    (w : World) :
    match announce services m o fate w with
    | .ok _ w' => w'.machines = w.machines ∧
        w'.history = .deed m.handle m.label services (.emitted o fate) :: w.history
    | .error _ w' => w'.machines = w.machines ∧ w'.history = w.history := by
  unfold announce
  cases services.listens with
  | false =>
    show match record services m (.emitted o fate) w with
      | .ok _ w' => _
      | .error _ w' => _
    rw [record_eq]
    exact ⟨rfl, rfl⟩
  | true =>
    let call : Call := ⟨[], .heard m.handle o.event o.payload⟩
    let told : World := { w with calls := call :: w.calls }
    have hcall : Eval.call [] (.heard m.handle o.event o.payload) w
        = Eval.ofExcept (w.respond (call :: w.calls)) told := rfl
    simp only [if_true, bind, EStateM.bind]
    rw [hcall]
    cases w.respond (call :: w.calls) with
    | error e => exact ⟨rfl, rfl⟩
    | ok v =>
      show match record services m (.emitted o fate) told with
        | .ok _ w' => _
        | .error _ w' => _
      rw [record_eq]
      exact ⟨rfl, rfl⟩

theorem announce_apart (h : m.handle ≠ a) (services : Services) (o : Occurrence) (fate : Fate) :
    Keeps (Apart a) (announce services m o fate) := by
  intro w
  have hspec := announce_spec services m o fate w
  cases hr : announce services m o fate w with
  | error fault w' =>
    rw [hr] at hspec
    rw [Eval.after_error hr]
    exact Apart.of_machines hspec.1 hspec.2
  | ok _ w' =>
    rw [hr] at hspec
    rw [Eval.after_ok hr]
    exact Apart.of_deed h hspec.1 hspec.2

/-- Whatever another machine does by itself has nothing to do with the machine. -/
theorem apart_transacts (h : handle ≠ a) : Transacts (Apart a) handle fun _ => True where
  toOpenFrame := Apart.openFrame a
  vacuous _ _ _ _ h := absurd trivial h
  count _ _ := Apart.of_update h.symm fun _ => rfl
  log _ _ _ _ _ _ := Apart.of_machines rfl rfl
  guardFailed _ services _ _ hm := record_apart (hm ▸ h) services _
  move _ _ _ _ _ _ := Apart.of_update h.symm fun _ => rfl
  processed _ services _ hm := record_apart (hm ▸ h) services _
  dropped _ services _ hm := record_apart (hm ▸ h) services _
  announced _ services o fate hm := announce_apart (hm ▸ h) services o fate
  queue _ _ _ := Apart.of_update h.symm fun _ => rfl

/-- An event that comes in while the transaction runs waits, is refused or is not declared. -/
theorem fate_of_busy (hb : m.busy = true) (services : Services) (event : Text) :
    (m.fate services event = .undeclared ∧ ¬m.definition.hasEvent event) ∨
    (m.fate services event = .refused ∧ m.definition.hasEvent event ∧
      services.maxQueued ≤ m.pending.length) ∨
    (m.fate services event = .queued ∧ m.definition.hasEvent event ∧
      m.pending.length < services.maxQueued) := by
  unfold Instance.fate
  cases he : m.definition.hasEvent event with
  | false => simp
  | true =>
    by_cases hfull : services.maxQueued ≤ m.pending.length
    · simp [hb, hfull]
    · simp [hb, hfull]
      omega

theorem deliver_held (ev : Evaluator) (a : Nat) (services : Services) (event : Text)
    (payload : Value) : Keeps (Held a) (deliver ev a services event payload) := by
  intro w
  unfold deliver withMachine
  rw [Eval.after_get_bind]
  cases hm : w.machine? a with
  | none => exact (Held.openFrame a).refl w
  | some m =>
    intro m₀ hm₀ hb
    cases hm.symm.trans hm₀
    have hspec := announce_spec services m ⟨event, payload⟩ (m.fate services event) w
    dsimp only
    cases hr : announce services m ⟨event, payload⟩ (m.fate services event) w with
    | error fault w' =>
      rw [hr] at hspec
      rw [Eval.after_bind_error hr]
      exact Held.of_apart (Apart.of_machines hspec.1 hspec.2) m hm hb
    | ok _ w' =>
      rw [hr] at hspec
      rw [Eval.after_bind_ok hr]
      have hm' : w'.machine? a = some m := by rw [World.machine?_congr hspec.1, hm]
      rcases fate_of_busy hb services event with ⟨hf, he⟩ | ⟨hf, he, hfull⟩ | ⟨hf, he, hroom⟩
      · rw [hf] at hspec ⊢
        exact Held.of_emitted hm hm' hspec.2 (.undeclared he (.done _)) m hm hb
      · rw [hf] at hspec ⊢
        exact Held.of_emitted hm hm' hspec.2 (.refused he hfull (.done _)) m hm hb
      · rw [hf] at hspec ⊢
        have hpush := World.machine?_mapMachine_self hm'
          (f := fun m => { m with pending := m.pending ++ [⟨event, payload⟩] }) fun _ => rfl
        exact Held.of_emitted hm hpush hspec.2 (.queued he hroom (.done _)) m hm hb

theorem held_withFuel (a n : Nat) :
    (Evaluator.withFuel Library.standard n).Respects (Held a) fun _ => True := by
  refine Evaluator.withFuel_respects (Held.openFrame a)
    (fun n hev handle services event v => ?_) n
  by_cases h : handle = a
  · rw [h]
    exact deliver_held _ a services event v
  · have hR : Transacts (Held a) handle fun _ => True :=
      (apart_transacts h).weaken Held.trans Held.of_apart
    exact hR.deliver_keeps hev event v

end Machine
end EntityMachines

/-!
A machine that is not there. Whatever other machines do, and whichever timers and closures bring its
handlers, it does nothing, its listener hears nothing, and it does not come back.
-/
namespace EntityMachines
namespace Machine

open Eval (Keeps OpenFrame)

variable {α : Type} {a b : Nat} {w w' w'' : World}

/-- What happens has nothing to do with a machine, and its listener hears nothing. Neither history
nor calls are lost. -/
structure Silent (a : Nat) (w w' : World) : Prop where
  apart : Apart a w w'
  unheard : ∃ C : List Call, w'.calls = C.reverse ++ w.calls ∧
    ∀ c ∈ C, ∀ o, c.request.hearing? ≠ some (a, o)

/-- A machine that is not there stays silent. -/
def Missing (a : Nat) (w w' : World) : Prop := w.machine? a = none → Silent a w w'

namespace Silent

theorem of_apart (h : Apart a w w') (hcalls : w'.calls = w.calls) : Silent a w w' :=
  ⟨h, [], hcalls, fun _ hc => absurd hc List.not_mem_nil⟩

theorem of_same (hmachines : w'.machines = w.machines) (hhistory : w'.history = w.history)
    (hcalls : w'.calls = w.calls) : Silent a w w' :=
  .of_apart (.of_machines hmachines hhistory) hcalls

theorem call (w : World) {c : Call} (hc : ∀ o, c.request.hearing? ≠ some (a, o)) :
    Silent a w { w with calls := c :: w.calls } where
  apart := .of_machines rfl rfl
  unheard := by
    refine ⟨[c], rfl, ?_⟩
    rw [List.forall_mem_singleton]
    exact hc

theorem trans (h : Silent a w w') (h' : Silent a w' w'') : Silent a w w'' := by
  obtain ⟨C, hC, hunheard⟩ := h.unheard
  obtain ⟨C', hC', hunheard'⟩ := h'.unheard
  refine ⟨h.apart.trans h'.apart, C ++ C', ?_, List.forall_mem_append.mpr ⟨hunheard, hunheard'⟩⟩
  rw [hC', hC, List.reverse_append, List.append_assoc]

theorem machine (h : Silent a w w') (hnone : w.machine? a = none) : w'.machine? a = none :=
  h.apart.1.trans hnone

end Silent

theorem missing_openFrame (a : Nat) : OpenFrame (Missing a) where
  refl _ _ := .of_same rfl rfl rfl
  trans h h' hnone := (h hnone).trans (h' ((h hnone).machine hnone))
  capture _ _ _ := .of_same rfl rfl rfl
  timing _ _ _ _ := .of_same rfl rfl rfl
  arm _ _ _ := .of_same rfl rfl rfl
  random _ _ _ := .of_same rfl rfl rfl
  clock _ _ _ _ := .of_same rfl rfl rfl
  write w store changes _ := .of_apart ((Apart.openFrame a).write w store changes) rfl
  request w _ request hrequest _ := .call w fun o hheard => by
    rw [hrequest] at hheard
    cases hheard
  closure w hs _ := .of_apart ((Apart.openFrame a).closure w hs) rfl

theorem record_missing {m : Instance} (hm : m.handle ≠ a) (services : Services) (d : Deed) :
    Keeps (Missing a) (record services m d) := fun w _ => by
  rw [Eval.after_ok (record_eq services m d w)]
  exact .of_apart (.of_deed hm rfl rfl) rfl

theorem announce_missing {m : Instance} (hm : m.handle ≠ a) (services : Services) (o : Occurrence)
    (fate : Fate) : Keeps (Missing a) (announce services m o fate) := by
  have hR := missing_openFrame a
  have hrecord := record_missing hm services (.emitted o fate)
  have hcall : Keeps (Missing a) (Eval.call [] (.heard m.handle o.event o.payload)) := by
    have hother (o' : Occurrence) :
        (Request.heard m.handle o.event o.payload).hearing? ≠ some (a, o') := by
      intro hheard
      cases hheard
      exact hm rfl
    exact hR.bind (Keeps.modify fun w _ => .call w hother) fun _ =>
      hR.bind hR.get fun _ => hR.ofExcept _
  unfold announce
  exact Keeps.ite (fun _ => hR.bind hcall fun _ => hrecord) fun _ => hrecord

/-- What another machine does by itself does not bring back one that is missing. -/
theorem missing_transacts (hb : b ≠ a) : Transacts (Missing a) b fun _ => True where
  toOpenFrame := missing_openFrame a
  vacuous _ _ _ _ h := absurd trivial h
  count _ _ _ := .of_apart (.of_update hb.symm fun _ => rfl) rfl
  log _ _ _ _ _ _ _ := .of_same rfl rfl rfl
  guardFailed _ services _ _ hm := record_missing (hm ▸ hb) services _
  move _ _ _ _ _ _ _ := .of_apart (.of_update hb.symm fun _ => rfl) rfl
  processed _ services _ hm := record_missing (hm ▸ hb) services _
  dropped _ services _ hm := record_missing (hm ▸ hb) services _
  announced _ services o fate hm := announce_missing (hm ▸ hb) services o fate
  queue _ _ _ _ := .of_apart (.of_update hb.symm fun _ => rfl) rfl

theorem missing_timed (hb : b ≠ a) : Timed (Missing a) b where
  ran _ _ _ _ := .of_apart (.of_update hb.symm fun _ => rfl) rfl
  restart _ _ _ := .of_apart (.of_update hb.symm fun _ => rfl) rfl

/-- What is done only to a machine that is there is not done to one that is missing. -/
theorem missing_withMachine (a : Nat) (default : α) (f : Instance → Eval α) :
    Keeps (Missing a) (withMachine a default f) := fun _ hnone => by
  rw [Eval.after_ok (withMachine_none hnone default f)]
  exact .of_same rfl rfl rfl

variable (a : Nat) (n : Nat) (services : Services)

/-- An event that is delivered to a missing machine is lost, whoever sends it. -/
theorem missing_respects : (Evaluator.withFuel Library.standard n).Respects (Missing a) fun _ => True := by
  refine Evaluator.withFuel_respects (missing_openFrame a) (fun n hev b services event payload => ?_) n
  by_cases hb : b = a
  · subst hb
    exact missing_withMachine b _ _
  · exact (missing_transacts hb).deliver_keeps hev event payload

theorem missing_dispatch (hb : b ≠ a) (event : Text) (payload : Value) : Keeps (Missing a)
    (dispatch (Evaluator.withFuel Library.standard n) services b event payload) :=
  (missing_transacts hb).dispatch_keeps (missing_respects a n) event payload

theorem missing_runDueTicks (b : Nat) (now : Int) : Keeps (Missing a)
    (runDueTicks (Evaluator.withFuel Library.standard n) services b now) := by
  by_cases hb : b = a
  · subst hb
    exact missing_withMachine b _ _
  · exact (missing_transacts hb).runDueTicks_keeps (missing_respects a n) (missing_timed hb) now

theorem missing_runInitialEffects (hb : b ≠ a) : Keeps (Missing a)
    (runInitialEffects (Evaluator.withFuel Library.standard n) services b) :=
  (missing_transacts hb).runInitialEffects_keeps (missing_respects a n)

end Machine
end EntityMachines
