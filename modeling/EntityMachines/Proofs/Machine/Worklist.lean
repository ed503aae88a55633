import EntityMachines.Machine.Creation
import EntityMachines.Proofs.Machine.Drain
import EntityMachines.Proofs.Machine.Idle

/-!
A transaction is a bounded worklist without silent loss, whether an event, ticks or the initial
effects begin it. It ends by itself unless the evaluation of a guard or an effect fails.
-/
namespace EntityMachines

/-- What the machine of a handle did between two states. -/
def World.deedsSince (after before : World) (handle : Nat) : List (Services × Deed) :=
  deedsOf handle (after.incidentsSince before)

namespace Machine

open Eval (Keeps)
open World (Account Accounted ListenersAnswered)

/-- What a transaction has done when it ends. -/
structure Worked (m : Instance) (services : Services) (first : List Occurrence)
    (before after : World) : Prop where
  /-- Behind the first events, events are processed in the order in which they were queued. -/
  in_order : pick Deed.processed? (after.deedsSince before m.handle)
    = first ++ (pick Deed.queued? (after.deedsSince before m.handle)).take services.maxQueued
  bounded : (pick Deed.processed? (after.deedsSince before m.handle)).length
    ≤ first.length + services.maxQueued
  /-- Whether an event is queued follows from its declaration and from the room at its time. -/
  worklist : ∃ ds, after.deedsSince before m.handle
      = first.map (fun o => (services, .processed o)) ++ ds ∧ Worklist m.definition [] ds []
  declared : ∀ o ∈ (pick Deed.processed? (after.deedsSince before m.handle)).drop first.length,
    m.definition.hasEvent o.event = true
  accounted : (pick (Deed.declared? m.definition) (after.deedsSince before m.handle)).Perm
    ((pick Deed.processed? (after.deedsSince before m.handle)).drop first.length
      ++ pick Deed.lost? (after.deedsSince before m.handle))
  /-- The warnings in the log are those of the deeds, one for each that has one. -/
  warned : ∃ ds, after.log = before.log.writeAll ds ∧
    ds.filter (fun d => d.level = .warn)
      = (after.incidentsSince before).filterMap Incident.warning?
  /-- Every event that is lost has a warning. -/
  lost : ∀ label services' d o, services'.logs → d.lost? = some o →
    Incident.deed m.handle label services' d ∈ after.incidentsSince before →
    ∃ loss ∈ [" dropped: queue full", " dropped: limit reached"],
      (Incident.deed m.handle label services' d).warning?
        = some ⟨.warn, "behavior", label,
            "queued event " ++ o.event ++ Text.ofString loss⟩
  heard : ListenersAnswered before after →
    (after.callsSince before).filterMap (fun c => c.request.hearing?)
      = (after.incidentsSince before).filterMap Incident.hearing?

/-- How a transaction comes to its end. -/
structure Completes {α : Type} (ev : Evaluator) (m : Instance) (services : Services)
    (first : List Occurrence) (before : World) (r : EStateM.Result Fault World α) : Prop where
  worked : ∀ v after, r = .ok v after → Worked m services first before after
  blamed : Blamed ev m.definition r

variable {α : Type} {ev : Evaluator} {a : Nat} {services : Services} {m : Instance}

private theorem warning?_of_lost {services : Services} {d : Deed} {o : Occurrence} (handle : Nat)
    (label : Text) (hl : services.logs) (hd : d.lost? = some o) :
    ∃ loss ∈ [" dropped: queue full", " dropped: limit reached"],
      (Incident.deed handle label services d).warning?
        = some ⟨.warn, "behavior", label,
            "queued event " ++ o.event ++ Text.ofString loss⟩ := by
  unfold Incident.warning?
  dsimp only
  rw [if_pos hl]
  unfold Deed.lost? at hd
  split at hd
  · cases hd
    exact ⟨" dropped: queue full", by simp, rfl⟩
  · cases hd
    exact ⟨" dropped: limit reached", by simp, rfl⟩
  · cases hd

theorem Worked.of_drained {before after : World} {first : List Occurrence} {J : List Incident}
    {ds : List (Services × Deed)} (hJ : after.history = J.reverse ++ before.history)
    (hds : deedsOf m.handle J = first.map (fun o => (services, .processed o)) ++ ds)
    (h : Drained m.definition services.maxQueued [] ds) (hacc : Accounted before after) :
    Worked m services first before after := by
  obtain ⟨J', C, D, hacc⟩ := hacc
  have hsince : after.incidentsSince before = J := World.incidentsSince_eq hJ
  have hJ' : J' = J := (World.incidentsSince_eq hacc.history).symm.trans hsince
  have hdeeds : after.deedsSince before m.handle
      = first.map (fun o => (services, .processed o)) ++ ds := by
    unfold World.deedsSince
    rw [hsince, hds]
  have hprocessed : pick Deed.processed? (after.deedsSince before m.handle)
      = first ++ pick Deed.processed? ds := by
    rw [hdeeds, pick_append, pick_map_processed]
  have hother {kind : Deed → Option Occurrence} (hk : ∀ o, kind (.processed o) = none) :
      pick kind (after.deedsSince before m.handle) = pick kind ds := by
    rw [hdeeds, pick_append, pick_map_none hk, List.nil_append]
  have hrest : (pick Deed.processed? (after.deedsSince before m.handle)).drop first.length
      = pick Deed.processed? ds := by
    rw [hprocessed, List.drop_left]
  refine ⟨?_, ?_, ⟨ds, hdeeds, h.worklist⟩, ?_, ?_, ⟨D, hacc.log, ?_⟩, ?_, fun hans => ?_⟩
  · rw [hprocessed, hother fun _ => rfl, h.processed, List.nil_append]
  · rw [hprocessed, List.length_append]
    exact Nat.add_le_add_left h.processed_length _
  · rw [hrest]
    exact h.declared_of_processed
  · rw [hrest, hother fun _ => rfl, hother fun _ => rfl]
    exact h.declared_perm
  · rw [hsince, ← hJ']
    exact hacc.warned
  · exact fun label services' d o hl hd _ => warning?_of_lost m.handle label hl hd
  · rw [World.callsSince_eq hacc.calls, hsince, ← hJ']
    exact hacc.heard hans

/-- A part of a transaction that only queues events, and the drain behind it. -/
theorem Steady.drained (hev : ev.Respects (Steady a) fun _ => True) {left : Nat}
    {w w₁ w₂ : World} {m : Instance} (hs : Steady a w w₁) (hm : w.machine? a = some m)
    (hb : m.busy = true) (h : drain ev services a left w₁ = .ok () w₂) :
    ∃ J, w₂.history = J.reverse ++ w.history ∧
      Drained m.definition left m.pending (deedsOf a J) := by
  obtain ⟨m₁, J, hm₁, hd, hb₁, hh, hq, ht⟩ := hs m hm hb
  obtain ⟨J', hh', hJ'⟩ := drain_spec hev left hm₁ hb₁ h
  refine ⟨J ++ J', ?_, ?_⟩
  · rw [hh', hh, List.reverse_append, List.append_assoc]
  · rw [deedsOf_append]
    rw [hd] at hJ'
    exact hJ'.after_steady hq ht

/-- Inside of its transaction a machine is as it was, but busy. -/
theorem transaction_ok {x : Eval α} {w w' : World} {v : α} (hm : w.machine? a = some m)
    (h : transaction a x w = .ok v w') :
    ∃ w₀ w₁, w₀.machine? a = some { m with busy := true } ∧ w₀.history = w.history ∧
      x w₀ = .ok v w₁ ∧ w'.history = w₁.history := by
  obtain ⟨w₁, hx, rfl⟩ := transaction_runs h
  have hm₀ : (w.mapMachine a fun m => { m with busy := true }).machine? a
      = some { m with busy := true } := World.machine?_mapMachine_self hm fun _ => rfl
  exact ⟨_, w₁, hm₀, rfl, hx, rfl⟩

theorem dispatch_worked (hev : ev.Respects (Steady m.handle) fun _ => True)
    (hacc : ev.Respects Accounted fun _ => True) {w w' : World} {event : Text} {payload : Value}
    {r : Dispatched} (hm : w.machine? m.handle = some m) (hidle : m.Idle)
    (h : dispatch ev services m.handle event payload w = .ok r w') :
    Worked m services [⟨event, payload⟩] w w' := by
  have haccounted : Accounted w w' :=
    ((accounted_transacts m.handle).dispatch_keeps hacc event payload).of_ok h
  obtain ⟨w₀, w₁, hm₀, hh₀, hx, hh⟩ := transaction_ok hm h
  obtain ⟨first, w₂, hprocess, hrest⟩ := Eval.bind_ok hx
  obtain ⟨_, w₃, hdrain, hpure⟩ := Eval.bind_ok hrest
  cases hpure
  obtain ⟨m₂, hm₂, hd, hb₂, J, ds, hh₂, hJ, hq, ht⟩ := process_spec hev hm₀ rfl hprocess
  obtain ⟨J', hh', hJ'⟩ := drain_spec hev _ hm₂ hb₂ hdrain
  have hdrained : Drained m.definition services.maxQueued [] (ds ++ deedsOf m.handle J') := by
    rw [hd] at hJ'
    have hq' : Worklist m.definition [] ds m₂.pending := by rwa [← hidle.pending]
    exact hJ'.after_steady hq' ht
  refine Worked.of_drained (J := J ++ J') ?_ ?_ hdrained haccounted
  · rw [hh, hh', hh₂, hh₀, List.reverse_append, List.append_assoc]
  · rw [deedsOf_append, hJ]
    rfl

/-- A transaction that begins with no event. -/
theorem Worked.of_steady {x : Eval α} {w w' : World} {v : α} (hm : w.machine? m.handle = some m)
    (hidle : m.Idle) (hacc : Accounted w w') (h : transaction m.handle x w = .ok v w')
    (hx : ∀ w₀ w₁, w₀.machine? m.handle = some { m with busy := true } → x w₀ = .ok v w₁ →
      ∃ J, w₁.history = J.reverse ++ w₀.history ∧
        Drained m.definition services.maxQueued m.pending (deedsOf m.handle J)) :
    Worked m services [] w w' := by
  obtain ⟨w₀, w₁, hm₀, hh₀, hr, hh⟩ := transaction_ok hm h
  obtain ⟨J, hJ, hdrained⟩ := hx w₀ w₁ hm₀ hr
  rw [hidle.pending] at hdrained
  refine Worked.of_drained (J := J) ?_ rfl hdrained hacc
  rw [hh, hJ, hh₀]

theorem Worked.of_nothing (m : Instance) (services : Services) (w : World) :
    Worked m services [] w w :=
  Worked.of_drained (J := []) rfl rfl (.nil _ _) (Account.of_eq rfl rfl rfl rfl)

theorem runDueTicks_worked (hev : ev.Respects (Steady m.handle) fun _ => True)
    (hacc : ev.Respects Accounted fun _ => True) {w w' : World} {now : Int} {ran : Nat}
    (hm : w.machine? m.handle = some m) (hidle : m.Idle)
    (h : runDueTicks ev services m.handle now w = .ok ran w') :
    Worked m services [] w w' := by
  have haccounted : Accounted w w' :=
    ((accounted_transacts m.handle).runDueTicks_keeps hacc (accounted_timed m.handle) now).of_ok h
  have hR := steady_reacts m.handle
  have hT := steady_timed m.handle
  unfold runDueTicks at h
  rw [withMachine_some hm] at h
  split at h
  · cases h
    exact Worked.of_nothing m services w
  · refine Worked.of_steady hm hidle haccounted h fun w₀ w₁ hm₀ hx => ?_
    have hticks {v : Nat} {w₂ : World} (hs : Steady m.handle w₀ w₂)
        (hr : (do
          let ran ← runTicks ev services m.handle now (tickOrder m.definition)
          drain ev services m.handle services.maxQueued
          return ran : Eval Nat) w₂ = .ok v w₁) :
        ∃ J, w₁.history = J.reverse ++ w₀.history ∧
          Drained m.definition services.maxQueued m.pending (deedsOf m.handle J) := by
      obtain ⟨ran, w₃, hrun, hrest⟩ := Eval.bind_ok hr
      obtain ⟨_, w₄, hdrain, hpure⟩ := Eval.bind_ok hrest
      cases hpure
      have hsteady := hs.trans (((hR.paces hev hT).runTicks_keeps now _).of_ok hrun)
      obtain ⟨J, hJ, hdrained⟩ := hsteady.drained hev hm₀ rfl hdrain
      exact ⟨J, hJ, hdrained⟩
    split at hx
    · obtain ⟨_, w₂, hupdate, hrest⟩ := Eval.bind_ok hx
      cases hupdate
      exact hticks (hT.restart w₀ now) hrest
    · exact hticks (hR.refl w₀) hx

theorem runInitialEffects_worked (hev : ev.Respects (Steady m.handle) fun _ => True)
    (hacc : ev.Respects Accounted fun _ => True) {w w' : World}
    (hm : w.machine? m.handle = some m) (hidle : m.Idle)
    (h : runInitialEffects ev services m.handle w = .ok () w') :
    Worked m services [] w w' := by
  have haccounted : Accounted w w' :=
    ((accounted_transacts m.handle).runInitialEffects_keeps hacc).of_ok h
  have hR := steady_reacts m.handle
  unfold runInitialEffects at h
  rw [withMachine_some hm] at h
  split at h
  · cases h
    exact Worked.of_nothing m services w
  · refine Worked.of_steady hm hidle haccounted h fun w₀ w₁ hm₀ hx => ?_
    obtain ⟨_, w₂, hget, hrest⟩ := Eval.bind_ok hx
    cases hget
    obtain ⟨ran, w₃, heffects, hdrain⟩ := Eval.bind_ok hrest
    have hsteady : Steady m.handle w₀ w₃ :=
      ((hR.weighs hev rfl).runEffects_keeps trivial _ _ _).of_ok heffects
    obtain ⟨J, hJ, hdrained⟩ := hsteady.drained hev hm₀ rfl hdrain
    exact ⟨J, hJ, hdrained⟩

/-- Whatever begins it, a transaction of a machine is a bounded worklist. -/
theorem transaction_is_worklist (fuel : Nat) (services : Services) {w : World} {m : Instance}
    (hm : w.machine? m.handle = some m) (hidle : m.Idle) :
    let ev := Evaluator.withFuel Library.standard fuel
    (∀ event payload, Completes ev m services [⟨event, payload⟩] w
      (dispatch ev services m.handle event payload w)) ∧
    (∀ now, Completes ev m services [] w (runDueTicks ev services m.handle now w)) ∧
    Completes ev m services [] w (runInitialEffects ev services m.handle w) := by
  intro ev
  have hsteady := steady_withFuel m.handle fuel
  have hacc := Transacts.withFuel_respects accounted_transacts fuel
  have hkept := Transacts.withFuel_respects
    (fun handle => definitionKept_transacts m.handle handle m.definition) fuel
  have hdefines : Defines m.handle m.definition w := by
    intro m' hm'
    cases hm.symm.trans hm'
    rfl
  refine ⟨fun event payload => ⟨fun r after h => ?_, ?_⟩,
    fun now => ⟨fun ran after h => ?_, ?_⟩, ⟨fun _ after h => ?_, ?_⟩⟩
  · exact dispatch_worked hsteady hacc hm hidle h
  · exact dispatch_fails hkept event payload w hdefines
  · exact runDueTicks_worked hsteady hacc hm hidle h
  · exact runDueTicks_fails hkept now w hdefines
  · exact runInitialEffects_worked hsteady hacc hm hidle h
  · exact runInitialEffects_fails hkept w hdefines

/-- A machine that answers an event by the same event. -/
def echo : Definition where
  name := "echo"
  initial := "idle"
  states := [{ name := "idle" }]
  events := [{ key := "PING" }]
  transitions := [{ event := "PING", effects := [.array [.string "emit", .string "PING"]] }]

def echoMachine : Instance := fresh 1 echo (.map []) 0 0

def echoWorld : World := { stores := #[.map []], machines := [echoMachine] }

/-- An event that emits itself is processed once and then as often as is allowed. -/
theorem echo_worked :
    echoWorld.machine? echoMachine.handle = some echoMachine ∧ echoMachine.Idle ∧
    ∃ r after, dispatch (Evaluator.withFuel Library.standard 4) { maxQueued := 2 }
        echoMachine.handle "PING" .undefined echoWorld = .ok r after ∧
      Worked echoMachine { maxQueued := 2 } [⟨"PING", .undefined⟩] echoWorld after ∧
      (pick Deed.processed? (after.deedsSince echoWorld 1)).length = 3 := by
  have hm : echoWorld.machine? echoMachine.handle = some echoMachine := rfl
  have hidle : echoMachine.Idle := ⟨rfl, rfl⟩
  have hthree : (match dispatch (Evaluator.withFuel Library.standard 4) { maxQueued := 2 }
        echoMachine.handle "PING" .undefined echoWorld with
      | .ok _ after => (pick Deed.processed? (after.deedsSince echoWorld 1)).length
      | .error _ _ => 0) = 3 := by decide +kernel
  have hdone := (transaction_is_worklist 4 { maxQueued := 2 } hm hidle).1 "PING" .undefined
  refine ⟨hm, hidle, ?_⟩
  cases hr : dispatch (Evaluator.withFuel Library.standard 4) { maxQueued := 2 }
      echoMachine.handle "PING" .undefined echoWorld with
  | ok r after =>
    rw [hr] at hthree
    exact ⟨r, after, rfl, hdone.worked r after hr, hthree⟩
  | error fault after =>
    rw [hr] at hthree
    cases hthree

end Machine
end EntityMachines
