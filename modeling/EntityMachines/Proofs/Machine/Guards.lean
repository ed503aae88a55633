import EntityMachines.Machine.Creation
import EntityMachines.Proofs.Machine.Answer
import EntityMachines.Proofs.Machine.Idle

/-!
An event that fires no transition changes nothing but counters, unless a guard calls a closure that
was made where handlers were installed and brings them along.
-/
namespace EntityMachines
namespace Machine

open Eval (Keeps Frame)
open World (Accounted)

variable {ev : Evaluator} {services : Services} {m : Instance} {w w' : World} {ctx : Context}

/-- Nothing has happened that can be seen, but for the counters of machines. -/
structure Untouched (w w' : World) (J : List Incident) : Prop where
  stores : w'.stores = w.stores
  calls : w'.calls = w.calls
  machines : ∀ a m, w.machine? a = some m → ∃ stats, w'.machine? a = some { m with stats }
  silent : ∀ machine label services o fate,
    Incident.deed machine label services (.emitted o fate) ∉ J

/-- Nothing has happened, or a closure was called that has handlers. -/
def Quiet (w w' : World) : Prop :=
  ∃ J, w'.history = J.reverse ++ w.history ∧ ((∃ hs, .call hs ∈ J) ∨ Untouched w w' J)

theorem Untouched.trans {a b c : World} {J J' : List Incident} (h : Untouched a b J)
    (h' : Untouched b c J') : Untouched a c (J ++ J') where
  stores := h'.stores.trans h.stores
  calls := h'.calls.trans h.calls
  machines handle m hm := by
    obtain ⟨stats, hb⟩ := h.machines handle m hm
    obtain ⟨stats', hc⟩ := h'.machines handle _ hb
    exact ⟨stats', hc⟩
  silent machine label services o fate hmem := by
    rcases List.mem_append.mp hmem with hmem | hmem
    · exact h.silent machine label services o fate hmem
    · exact h'.silent machine label services o fate hmem

namespace Quiet

theorem trans {a b c : World} (h : Quiet a b) (h' : Quiet b c) : Quiet a c := by
  obtain ⟨J, hJ, hcase⟩ := h
  obtain ⟨J', hJ', hcase'⟩ := h'
  refine ⟨J ++ J', by rw [hJ', hJ, List.reverse_append, List.append_assoc], ?_⟩
  rcases hcase with ⟨hs, hmem⟩ | hcase
  · exact .inl ⟨hs, List.mem_append_left _ hmem⟩
  · rcases hcase' with ⟨hs, hmem⟩ | hcase'
    · exact .inl ⟨hs, List.mem_append_right _ hmem⟩
    · exact .inr (hcase.trans hcase')

theorem of_same (hs : w'.stores = w.stores) (hc : w'.calls = w.calls)
    (hm : w'.machines = w.machines) (hh : w'.history = w.history) : Quiet w w' :=
  ⟨[], hh, .inr ⟨hs, hc, fun a m h => ⟨m.stats, by rw [World.machine?_congr hm, h]⟩, by simp⟩⟩

theorem frame : Frame Quiet where
  refl _ := of_same rfl rfl rfl rfl
  trans := trans
  timing _ _ _ := of_same rfl rfl rfl rfl
  random _ _ := of_same rfl rfl rfl rfl
  clock _ _ _ := of_same rfl rfl rfl rfl

theorem count (handle : Nat) (f : Stats → Stats) : Keeps Quiet (count handle f) := by
  have hhandle (m : Instance) : ({ m with stats := f m.stats } : Instance).handle = m.handle := rfl
  refine Keeps.modify fun w => ⟨[], rfl, .inr ⟨rfl, rfl, fun a m hm => ?_, by simp⟩⟩
  rw [World.machine?_mapMachine w handle a hhandle, hm]
  split
  · exact ⟨f m.stats, rfl⟩
  · exact ⟨m.stats, rfl⟩

theorem note (services : Services) (m : Instance) (level : Log.Level) (category message : Text) :
    Keeps Quiet (note services m level category message) := by
  unfold Machine.note
  exact Keeps.ite (fun _ => Keeps.modify fun w => of_same rfl rfl rfl rfl) fun _ => frame.pure _

/-- A deed that is kept is quiet by itself, if it is no emission. -/
theorem record {d : Deed} (hd : ∀ o fate, d ≠ .emitted o fate) (services : Services)
    (m : Instance) : Keeps Quiet (record services m d) := by
  intro w
  rw [Eval.after_ok (record_eq services m d w)]
  refine ⟨[.deed m.handle m.label services d], rfl, .inr ⟨rfl, rfl, fun a m h => ⟨m.stats, h⟩, ?_⟩⟩
  intro machine label services' o fate hmem
  cases List.mem_singleton.mp hmem
  exact hd o fate rfl

end Quiet

/-- Without handlers, evaluation does nothing that can be seen until it calls a closure that has
handlers of its own. -/
theorem quiet_withFuel (n : Nat) :
    (Evaluator.withFuel Library.standard n).Respects Quiet (· = {}) := by
  have hsame (w : World) (closures : Array Closure) (timing : Timing DelayedEmit) :
      Quiet w { w with closures, timing } := Quiet.of_same rfl rfl rfl rfl
  refine Evaluator.withFuel_sealed Quiet.frame (fun w c => hsame w _ _) (fun w t => hsame w _ t)
    (fun n c args hc w => ?_) n
  have hacc := Transacts.withFuel_respects accounted_transacts n
  unfold Evaluator.invokeClosure
  rw [if_pos hc]
  let called : World := { w with history := .call c.captured.handlers :: w.history }
  obtain ⟨J, C, D, h⟩ :=
    hacc.evaluate c.body (c.captured.child (c.parameters.bind args)) trivial called
  refine ⟨.call c.captured.handlers :: J, ?_, .inl ⟨_, List.mem_cons_self⟩⟩
  rw [List.reverse_cons, List.append_assoc]
  exact h.history

theorem Quiet.weighs (hev : ev.Respects Quiet (· = {})) : Weighs Quiet (· = {}) ev services m where
  respects := hev
  guardErrors := Quiet.count m.handle _
  count f _ := Quiet.count m.handle f
  note _ category message := Quiet.note services m _ category message
  guardFailed _ _ := Quiet.record (fun _ _ h => by cases h) services m

/-- As long as no transition is taken, only guards are evaluated. -/
theorem tryTransitions_quiet (hev : ev.Respects Quiet (· = {})) (hctx : ctx.handlers = {})
    {event : Text} {ts : List Transition} {rejected : Bool} {index : Nat} {r : Dispatched}
    (h : tryTransitions ev services m ctx event rejected index ts w = .ok r w')
    (hnone : r.transition = none) : Quiet w w' := by
  have hweighs : Weighs Quiet (· = {}) ev services m := Quiet.weighs hev
  have htried := hweighs.tryTransitions_tried hctx event rejected index ts w
  rw [h] at htried
  cases htried with
  | unanswered before => exact before
  | @taken i t rejected w₁ _ _ _ _ takes =>
    rcases take_cases ev services m ctx event (index + i) t rejected w₁ with
      ⟨_, _, -, hfails⟩ | ⟨_, _, _, -, htaken⟩
    · cases hfails.symm.trans takes
    · cases htaken.symm.trans takes
      cases hnone

theorem process_quiet (hev : ev.Respects Quiet (· = {})) {a : Nat} {event : Text} {payload : Value}
    {r : Dispatched} (hm : w.machine? a = some m)
    (h : process ev services a event payload w = .ok r w') (hnone : r.transition = none) :
    Quiet w w' := by
  unfold process at h
  rw [withMachine_some hm] at h
  obtain ⟨_, w₁, hrecord, h⟩ := Eval.bind_ok h
  unfold react at h
  obtain ⟨_, w₂, hcount, h⟩ := Eval.bind_ok h
  obtain ⟨w₃, w₄, hget, h⟩ := Eval.bind_ok h
  cases hget
  have hprocessed := (Quiet.record (fun _ _ h => by cases h) services m).of_ok hrecord
  exact hprocessed.trans (((Quiet.count _ _).of_ok hcount).trans
    (tryTransitions_quiet hev rfl h hnone))

/-- With an empty queue a drain only ends the transaction. -/
theorem drain_nothing (hm : w.machine? a = some m) (hq : m.pending = []) (left : Nat) :
    ∃ w', drain ev services a left w = .ok () w' ∧
      (w'.mapMachine a fun m => { m with busy := false, pending := [] })
        = w.mapMachine a fun m => { m with busy := false, pending := [] } := by
  cases left with
  | zero =>
    refine ⟨w.mapMachine a fun m => { m with busy := false, pending := [] }, ?_, ?_⟩
    · unfold drain
      rw [withMachine_some hm, hq, ← World.handle_of_machine? hm]
      rfl
    · exact World.mapMachine_mapMachine w a (f := fun m => { m with busy := false, pending := [] })
        (fun _ => rfl) _
  | succ left =>
    refine ⟨w.mapMachine a fun m => { m with busy := false }, ?_, ?_⟩
    · unfold drain nextPending
      simp only [Bind.bind, EStateM.bind, withMachine_some hm, hq]
      rfl
    · exact World.mapMachine_mapMachine w a (f := fun m => { m with busy := false })
        (fun _ => rfl) _

/-- What is untouched inside of a transaction is untouched when the machine is idle again. -/
theorem Untouched.closed {J : List Incident} (hm : w.machine? a = some m) (hidle : m.Idle)
    (h : Untouched (w.mapMachine a fun m => { m with busy := true }) w' J) :
    Untouched w (w'.mapMachine a fun m => { m with busy := false, pending := [] }) J where
  stores := h.stores
  calls := h.calls
  silent := h.silent
  machines b m' hm' := by
    by_cases hb : b = a
    · subst hb
      cases hm.symm.trans hm'
      obtain ⟨stats, hbusy⟩ := h.machines b _ (World.machine?_mapMachine_self hm fun _ => rfl)
      have hclosed := World.machine?_mapMachine_self hbusy
        (f := fun m => { m with busy := false, pending := [] }) fun _ => rfl
      refine ⟨stats, hclosed.trans ?_⟩
      simp [hidle.busy, hidle.pending]
    · have hopen := World.machine?_mapMachine_ne w hb
        (f := fun m => { m with busy := true }) fun _ => rfl
      have hclosed := World.machine?_mapMachine_ne w' hb
        (f := fun m => { m with busy := false, pending := [] }) fun _ => rfl
      obtain ⟨stats, hbusy⟩ := h.machines b m' (hopen.trans hm')
      exact ⟨stats, hclosed.trans hbusy⟩

/-- An event that fires no transition touches nothing, unless a closure is called that has
handlers. -/
theorem unanswered_untouched (fuel : Nat) {event : Text} {payload : Value} {r : Dispatched}
    (hm : w.machine? m.handle = some m) (hidle : m.Idle)
    (h : dispatch (Evaluator.withFuel Library.standard fuel) services m.handle event payload w
      = .ok r w')
    (hnone : r.transition = none) (hcalls : ∀ hs, .call hs ∉ w'.incidentsSince w) :
    Untouched w w' (w'.incidentsSince w) := by
  obtain ⟨w₁, hx, rfl⟩ := transaction_runs h
  obtain ⟨first, w₂, hprocess, hrest⟩ := Eval.bind_ok hx
  obtain ⟨_, w₃, hdrain, hpure⟩ := Eval.bind_ok hrest
  cases hpure
  have hbusy : (w.mapMachine m.handle fun m => { m with busy := true }).machine? m.handle
      = some { m with busy := true } := World.machine?_mapMachine_self hm fun _ => rfl
  obtain ⟨J, hJ, hcase⟩ := process_quiet (quiet_withFuel fuel) hbusy hprocess hnone
  have hhistory : w₂.history = J.reverse ++ w.history := hJ
  rcases hcase with ⟨hs, hmem⟩ | huntouched
  · have hacc := Transacts.withFuel_respects accounted_transacts fuel
    obtain ⟨J', C, D, hafter⟩ :=
      ((accounted_transacts m.handle).drain_keeps hacc services.maxQueued).of_ok hdrain
    have hgrown : w₁.history = (J ++ J').reverse ++ w.history := by
      rw [hafter.history, hhistory, List.reverse_append, List.append_assoc]
    have hcalled : .call hs ∈ w₁.incidentsSince w := by
      rw [World.incidentsSince_eq hgrown]
      exact List.mem_append_left _ hmem
    exact absurd hcalled (hcalls hs)
  · obtain ⟨stats, hm₂⟩ := huntouched.machines m.handle _ hbusy
    obtain ⟨w₄, hnothing, hclosed⟩ := drain_nothing hm₂ hidle.pending services.maxQueued
    cases hnothing.symm.trans hdrain
    have hsince : (w₂.mapMachine m.handle fun m =>
        { m with busy := false, pending := [] }).incidentsSince w = J :=
      World.incidentsSince_eq hhistory
    rw [hclosed, hsince]
    exact huntouched.closed hm hidle

def gate : Definition where
  name := "gate"
  initial := "shut"
  states := [{ name := "shut" }, { name := "open" }]
  events := [{ key := "PUSH" }]
  transitions := [{ event := "PUSH", guard := some (.string "@entity.key"), target := some "open" }]

def gateMachine : Instance := fresh 1 gate (.map []) 0 0

def gateWorld : World := { stores := #[.map []], machines := [gateMachine] }

/-- Without a key the gate stays as it is. -/
theorem gate_untouched :
    gateWorld.machine? gateMachine.handle = some gateMachine ∧ gateMachine.Idle ∧
    ∃ r after, dispatch (Evaluator.withFuel Library.standard 4) {} gateMachine.handle "PUSH"
        .undefined gateWorld = .ok r after ∧
      r.transition = none ∧ (∀ hs, .call hs ∉ after.incidentsSince gateWorld) ∧
      Untouched gateWorld after (after.incidentsSince gateWorld) := by
  have hm : gateWorld.machine? gateMachine.handle = some gateMachine := rfl
  have hidle : gateMachine.Idle := ⟨rfl, rfl⟩
  have hdenied : ∃ r after, dispatch (Evaluator.withFuel Library.standard 4) {}
      gateMachine.handle "PUSH" .undefined gateWorld = .ok r after ∧ r.transition = none ∧
        after.incidentsSince gateWorld
          = [.deed 1 gateMachine.label {} (.processed ⟨"PUSH", .undefined⟩)] :=
    ⟨_, _, rfl, rfl, rfl⟩
  obtain ⟨r, after, hr, hnone, hincidents⟩ := hdenied
  have hcalls (hs : Handlers) : .call hs ∉ after.incidentsSince gateWorld := by
    rw [hincidents]
    simp
  exact ⟨hm, hidle, r, after, hr, hnone, hcalls,
    unanswered_untouched 4 hm hidle hr hnone hcalls⟩

/-- A machine that keeps a closure made by an effect, and calls it from a guard. -/
def keeper : Definition where
  name := "keeper"
  initial := "idle"
  states := [{ name := "idle" }]
  events := [{ key := "SAVE" }, { key := "TRY" }]
  transitions := [
    { event := "SAVE"
      effects := [.array [.string "set", .string "@entity.f", .array [.string "fn", .string "x",
        .array [.string "set", .string "@entity.n", .bool true]]]] },
    { event := "TRY"
      guard := some (.array [.string "not",
        .array [.string "map", .array [.bool true], .string "@entity.f"]]) }]

/-- The guard denies the transition, and yet the machine's data are not what they were. -/
theorem keeper_guard_writes :
    ∃ m w r saved r' after,
      create 1 keeper .undefined .undefined 0 {} = .ok m w ∧
      dispatch (Evaluator.withFuel Library.standard 6) {} 1 "SAVE" .undefined w = .ok r saved ∧
      dispatch (Evaluator.withFuel Library.standard 6) {} 1 "TRY" .undefined saved
        = .ok r' after ∧
      r'.transition = none ∧ r'.guardRejected = true ∧
      (saved.stores.getD 0 .undefined).get "n" = .undefined ∧
      (after.stores.getD 0 .undefined).get "n" = .bool true :=
  ⟨_, _, _, _, _, _, rfl, rfl, rfl, rfl, rfl, rfl, rfl⟩

end Machine
end EntityMachines
