import EntityMachines.Proofs.Machine.Invariant
import EntityMachines.Proofs.Machine.Outcome
import EntityMachines.Proofs.Machine.Worklist

/-!
The course of a run, as one of its machines sees it: the events that the machine processes, and
what each of them comes to.
-/
namespace EntityMachines
namespace Machine

open Eval (Keeps OpenFrame)

variable {a : Nat} {services : Services} {m : Instance} {w w' w'' : World}

/-- What happens without an event that the machine processes. -/
def Aside (a : Nat) (w w' : World) : Prop :=
  ∀ m, w.machine? a = some m → ∃ m' J, w'.machine? a = some m' ∧
    m'.stats.answers = m.stats.answers ∧ w'.history = J.reverse ++ w.history ∧
    pick Deed.processed? (deedsOf a J) = []

namespace Aside

theorem of_absent (h : w.machine? a = none) : Aside a w w' := by
  intro m hm
  cases h.symm.trans hm

theorem of_apart (h : Apart a w w') : Aside a w w' := by
  obtain ⟨hmachine, J, hh, hJ⟩ := h
  intro m hm
  exact ⟨m, J, hmachine.trans hm, rfl, hh, by rw [hJ, pick_nil]⟩

/-- A change of the machine by which no event is counted. -/
theorem of_update {f : Instance → Instance}
    (hf : ∀ m, (f m).handle = m.handle ∧ (f m).stats.answers = m.stats.answers) :
    Aside a w (w.mapMachine a f) := by
  intro m hm
  exact ⟨f m, [], World.machine?_mapMachine_self hm fun m => (hf m).1, (hf m).2, rfl, rfl⟩

theorem of_deed {d : Deed} (hd : d.processed? = none) (hm : w'.machines = w.machines)
    (hh : w'.history = .deed m.handle m.label services d :: w.history) : Aside a w w' := by
  by_cases h : m.handle = a
  · intro m₀ hm₀
    refine ⟨m₀, [.deed m.handle m.label services d], ?_, rfl, hh, ?_⟩
    · rw [World.machine?_congr hm, hm₀]
    · rw [deedsOf_cons_own h, pick_cons_none hd]
      rfl
  · exact of_apart (Apart.of_deed h hm hh)

end Aside

/-- The events that a machine processes on the way from a world to another, in order, and what each
of them comes to. -/
inductive Course (a : Nat) : World → List (Occurrence × Outcome) → World → Prop
  | aside {w w' : World} (h : Aside a w w') : Course a w [] w'
  | processed {fuel services m o outcome} {w w' : World} (present : w.machine? a = some m)
      (busy : m.busy = true)
      (h : process (Evaluator.withFuel Library.standard fuel) services a o.event o.payload w
        = outcome.result w') :
      Course a w [(o, outcome)] w'
  | append {l l'} {w w' w'' : World} (h : Course a w l w') (h' : Course a w' l' w'') :
      Course a w (l ++ l') w''

/-- By induction on the course: the counters say how many events came to what. -/
theorem Course.counted {l : List (Occurrence × Outcome)} (h : Course a w l w')
    (hm : w.machine? a = some m) :
    ∃ m' J, w'.machine? a = some m' ∧ Counted m.stats (l.map Prod.snd) m'.stats ∧
      w'.history = J.reverse ++ w.history ∧
      pick Deed.processed? (deedsOf a J) = l.map Prod.fst := by
  induction h generalizing m with
  | aside h =>
    obtain ⟨m', J, hm', hs, hh, hprocessed⟩ := h m hm
    exact ⟨m', J, hm', .nil hs, hh, hprocessed⟩
  | processed present busy h =>
    cases present.symm.trans hm
    obtain ⟨m', J, hm', -, hs, hh, hprocessed⟩ :=
      process_counted (unmoved_withFuel Stats.answers a _) present busy h
    exact ⟨m', J, hm', hs, hh, hprocessed⟩
  | append _ _ ih ih' =>
    obtain ⟨m₁, J₁, hm₁, hs₁, hh₁, hprocessed₁⟩ := ih hm
    obtain ⟨m₂, J₂, hm₂, hs₂, hh₂, hprocessed₂⟩ := ih' hm₁
    refine ⟨m₂, J₁ ++ J₂, hm₂, ?_, ?_, ?_⟩
    · rw [List.map_append]
      exact hs₁.append hs₂
    · rw [hh₂, hh₁, List.reverse_append, List.append_assoc]
    · rw [deedsOf_append, pick_append, hprocessed₁, hprocessed₂, List.map_append]

def Coursed (a : Nat) (w w' : World) : Prop := ∃ l, Course a w l w'

namespace Coursed

theorem trans (h : Coursed a w w') (h' : Coursed a w' w'') : Coursed a w w'' := by
  obtain ⟨l, h⟩ := h
  obtain ⟨l', h'⟩ := h'
  exact ⟨l ++ l', h.append h'⟩

theorem of_aside (h : Aside a w w') : Coursed a w w' := ⟨[], .aside h⟩

theorem of_apart (h : Apart a w w') : Coursed a w w' := of_aside (.of_apart h)

theorem openFrame (a : Nat) : OpenFrame (Coursed a) := (Apart.openFrame a).weaken trans of_apart

theorem of_update {f : Instance → Instance}
    (hf : ∀ m, (f m).handle = m.handle ∧ (f m).stats.answers = m.stats.answers) :
    Coursed a w (w.mapMachine a f) := of_aside (.of_update hf)

theorem transacts {handle : Nat} (h : handle ≠ a) : Transacts (Coursed a) handle fun _ => True :=
  (apart_transacts h).weaken trans of_apart

theorem timed {handle : Nat} (h : handle ≠ a) : Timed (Coursed a) handle where
  ran _ _ _ := of_apart (.of_update h.symm fun _ => rfl)
  restart _ _ := of_apart (.of_update h.symm fun _ => rfl)

end Coursed

theorem record_coursed (services : Services) (m : Instance) {d : Deed}
    (hd : d.processed? = none) : Keeps (Coursed a) (record services m d) := by
  intro w
  rw [Eval.after_ok (record_eq services m d w)]
  exact .of_aside (.of_deed hd rfl rfl)

theorem announce_coursed (services : Services) (m : Instance) (o : Occurrence) (fate : Fate) :
    Keeps (Coursed a) (announce services m o fate) := by
  intro w
  have hspec := announce_spec services m o fate w
  cases hr : announce services m o fate w with
  | error fault w' =>
    rw [hr] at hspec
    rw [Eval.after_error hr]
    exact .of_apart (.of_machines hspec.1 hspec.2)
  | ok _ w' =>
    rw [hr] at hspec
    rw [Eval.after_ok hr]
    exact .of_aside (.of_deed rfl hspec.1 hspec.2)

theorem dropPending_coursed (services : Services) (hm : m.handle = a) (os : List Occurrence) :
    Keeps (Coursed a) (dropPending services m os) := by
  induction os with
  | nil =>
    unfold dropPending
    rw [hm]
    exact Keeps.modify fun w => .of_update fun _ => ⟨rfl, rfl⟩
  | cons o rest ih =>
    unfold dropPending
    exact (Coursed.openFrame a).bind (record_coursed services m rfl) fun _ => ih

/-- A transaction of the machine runs. -/
def Busy (a : Nat) (w : World) : Prop := ∃ m, w.machine? a = some m ∧ m.busy = true

theorem Steady.busy (h : Steady a w w') (hw : Busy a w) : Busy a w' := by
  obtain ⟨m, hm, hb⟩ := hw
  obtain ⟨m', _, hm', -, hb', -⟩ := h m hm hb
  exact ⟨m', hm', hb'⟩

/-- Inside of a transaction the computation has a course. -/
def Runs {α : Type} (a : Nat) (x : Eval α) : Prop := ∀ w, Busy a w → Coursed a w (x.after w)

section runs

variable {α β : Type} {x : Eval α} {f : α → Eval β} {n : Nat}

theorem Runs.bind (hx : Runs a x)
    (hbusy : ∀ {w v w'}, Busy a w → x w = .ok v w' → Busy a w') (hf : ∀ v, Runs a (f v)) :
    Runs a (x >>= f) := by
  intro w hw
  have hfirst := hx w hw
  cases hr : x w with
  | error fault w' =>
    rw [Eval.after_error hr] at hfirst
    rwa [Eval.after_bind_error hr]
  | ok v w' =>
    rw [Eval.after_ok hr] at hfirst
    rw [Eval.after_bind_ok hr]
    exact hfirst.trans (hf v w' (hbusy hw hr))

theorem Runs.of_keeps (hx : Keeps (Coursed a) x) : Runs a x := fun w _ => hx w

theorem Runs.transaction (hx : Runs a x) : Keeps (Coursed a) (transaction a x) := by
  intro w
  rw [after_transaction]
  let opened := w.mapMachine a fun m => { m with busy := true }
  have hopen : Coursed a w opened := .of_update fun _ => ⟨rfl, rfl⟩
  have hclose (w' : World) : Coursed a w'
      (w'.mapMachine a fun m => { m with busy := false, pending := [] }) :=
    .of_update fun _ => ⟨rfl, rfl⟩
  cases hm : w.machine? a with
  | none => exact .of_aside (.of_absent hm)
  | some m =>
    have hbusy : Busy a opened := ⟨_, World.machine?_mapMachine_self hm fun _ => rfl, rfl⟩
    exact hopen.trans ((hx opened hbusy).trans (hclose _))

theorem process_runs (fuel : Nat) (services : Services) (o : Occurrence) :
    Runs a (process (Evaluator.withFuel Library.standard fuel) services a o.event o.payload) := by
  intro w hw
  obtain ⟨m, hm, hb⟩ := hw
  cases hr : process (Evaluator.withFuel Library.standard fuel) services a o.event o.payload w with
  | ok r w' =>
    rw [Eval.after_ok hr]
    exact ⟨[(o, .ok r)], .processed hm hb hr⟩
  | error fault w' =>
    rw [Eval.after_error hr]
    exact ⟨[(o, .error fault)], .processed hm hb hr⟩

theorem process_busy {fuel : Nat} {o : Occurrence} {r : Dispatched} (hw : Busy a w)
    (h : process (Evaluator.withFuel Library.standard fuel) services a o.event o.payload w
      = .ok r w') : Busy a w' := by
  obtain ⟨m, hm, hb⟩ := hw
  have hanswers : process (Evaluator.withFuel Library.standard fuel) services a o.event o.payload w
      = Outcome.result w' (.ok r) := h
  obtain ⟨m', _, hm', hb', -⟩ :=
    process_counted (unmoved_withFuel Stats.answers a fuel) hm hb hanswers
  exact ⟨m', hm', hb'⟩

/-- A drain by induction on how many events may still be processed. -/
theorem drain_runs (fuel left : Nat) (services : Services) :
    Runs a (drain (Evaluator.withFuel Library.standard fuel) services a left) := by
  induction left with
  | zero =>
    intro w hw
    obtain ⟨m, hm, -⟩ := hw
    have hdropped : (drain (Evaluator.withFuel Library.standard fuel) services a 0).after w
        = (dropPending services m m.pending).after w := by
      unfold Eval.after drain
      rw [withMachine_some hm]
    rw [hdropped]
    exact dropPending_coursed services (World.handle_of_machine? hm) m.pending w
  | succ left ih =>
    intro w hw
    obtain ⟨m, hm, hb⟩ := hw
    unfold drain
    cases hq : m.pending with
    | nil =>
      rw [Eval.after_bind_ok (nextPending_nil hm hq)]
      exact .of_update fun _ => ⟨rfl, rfl⟩
    | cons o rest =>
      rw [Eval.after_bind_ok (nextPending_cons hm hq)]
      let taken := w.mapMachine a fun m => { m with pending := rest }
      have htaken : Busy a taken :=
        ⟨{ m with pending := rest }, World.machine?_mapMachine_self hm fun _ => rfl, hb⟩
      have hpop : Coursed a w taken := .of_update fun _ => ⟨rfl, rfl⟩
      have hrest := Runs.bind (process_runs fuel services o) process_busy fun _ => ih
      exact hpop.trans (hrest taken htaken)

theorem dispatch_coursed (fuel : Nat) (services : Services) (event : Text) (payload : Value) :
    Keeps (Coursed a)
      (dispatch (Evaluator.withFuel Library.standard fuel) services a event payload) := by
  have hframe := (Coursed.openFrame a).toFrame
  refine Runs.transaction (Runs.bind (process_runs fuel services ⟨event, payload⟩)
    (process_busy (o := ⟨event, payload⟩)) fun first w hw => ?_)
  exact hframe.bind_at (drain_runs fuel services.maxQueued services w hw) fun _ => hframe.pure first

theorem deliver_coursed (fuel : Nat) (services : Services) (event : Text) (payload : Value) :
    Keeps (Coursed a)
      (deliver (Evaluator.withFuel Library.standard fuel) a services event payload) := by
  have hframe := (Coursed.openFrame a).toFrame
  intro w
  unfold deliver withMachine
  rw [Eval.after_get_bind]
  cases hm : w.machine? a with
  | none => exact hframe.refl w
  | some m =>
    refine hframe.bind (announce_coursed services m _ _) (fun _ => ?_) w
    cases m.fate services event with
    | undeclared | refused => exact hframe.pure _
    | queued => exact Keeps.modify fun w => .of_update fun _ => ⟨rfl, rfl⟩
    | dispatched =>
      exact hframe.bind (dispatch_coursed fuel services event payload) fun _ => hframe.pure _

theorem coursed_withFuel (a n : Nat) :
    (Evaluator.withFuel Library.standard n).Respects (Coursed a) fun _ => True := by
  refine Evaluator.withFuel_respects (Coursed.openFrame a)
    (fun fuel hev handle services event payload => ?_) n
  by_cases h : handle = a
  · rw [h]
    exact deliver_coursed fuel services event payload
  · exact (Coursed.transacts h).deliver_keeps hev event payload

theorem Coursed.judges (fuel : Nat) (services : Services) (hm : m.handle = a) :
    Judges (Coursed a) (fun _ => True) (Evaluator.withFuel Library.standard fuel) services m where
  respects := coursed_withFuel a fuel
  guardErrors := by
    rw [hm]
    exact Keeps.modify fun w => .of_update fun _ => ⟨rfl, rfl⟩
  note hl category message w := by
    obtain ⟨log, hnote⟩ := note_ok services m _ category message w
    rw [Eval.after_ok hnote]
    exact .of_apart (.of_machines rfl rfl)
  guardFailed place e := record_coursed services m rfl

theorem Coursed.paces (a fuel : Nat) (services : Services) :
    Paces (Coursed a) (Evaluator.withFuel Library.standard fuel) services a where
  toFrame := (Coursed.openFrame a).toFrame
  judges _ _ hm := .inr ⟨fun _ => True, trivial, trivial,
    Coursed.judges fuel services (World.handle_of_machine? hm)⟩
  ran _ _ := Keeps.modify fun _ => .of_update fun _ => ⟨rfl, rfl⟩
  counted := Keeps.modify fun _ => .of_update fun _ => ⟨rfl, rfl⟩
  skipped := Keeps.modify fun _ => .of_update fun _ => ⟨rfl, rfl⟩

theorem runDueTicks_coursed (fuel : Nat) (services : Services) (now : Int) :
    Keeps (Coursed a)
      (runDueTicks (Evaluator.withFuel Library.standard fuel) services a now) := by
  have hframe := (Coursed.openFrame a).toFrame
  have hsteady : Paces (Steady a) (Evaluator.withFuel Library.standard fuel) services a :=
    (steady_reacts a).paces (steady_withFuel a fuel) (steady_timed a)
  have hrest (order : List (Nat × Tick)) : Runs a (do
      let ran ← runTicks (Evaluator.withFuel Library.standard fuel) services a now order
      drain (Evaluator.withFuel Library.standard fuel) services a services.maxQueued
      return ran) := by
    refine Runs.bind (.of_keeps ((Coursed.paces a fuel services).runTicks_keeps now order))
      (fun hw hr => ((hsteady.runTicks_keeps now order).of_ok hr).busy hw) fun ran w hw => ?_
    exact hframe.bind_at (drain_runs fuel services.maxQueued services w hw) fun _ =>
      hframe.pure ran
  intro w
  unfold runDueTicks withMachine
  rw [Eval.after_get_bind]
  cases hm : w.machine? a with
  | none => exact hframe.refl w
  | some m =>
    refine Keeps.ite (fun _ => hframe.pure _) (fun _ => Runs.transaction ?_) w
    split
    · refine Runs.bind (.of_keeps (Keeps.modify fun _ => .of_update fun _ => ⟨rfl, rfl⟩))
        (fun {w} _ _ hw hr => ?_) fun _ => hrest _
      cases hr
      exact ((steady_timed a).restart w now).busy hw
    · exact hrest _

theorem runInitialEffects_coursed (fuel : Nat) (services : Services) :
    Keeps (Coursed a)
      (runInitialEffects (Evaluator.withFuel Library.standard fuel) services a) := by
  have hframe := (Coursed.openFrame a).toFrame
  intro w
  unfold runInitialEffects withMachine
  rw [Eval.after_get_bind]
  cases hm : w.machine? a with
  | none => exact hframe.refl w
  | some m =>
    have hhandle : m.handle = a := World.handle_of_machine? hm
    have hjudges := Coursed.judges fuel services hhandle
    have hsteady : Weighs (Steady a) (fun _ => True) (Evaluator.withFuel Library.standard fuel)
        services m := (steady_reacts a).weighs (steady_withFuel a fuel) hhandle
    refine Keeps.ite (fun _ => hframe.pure _) (fun _ => Runs.transaction ?_) w
    refine Runs.bind (.of_keeps hframe.get) (fun hw hr => ?_) fun _ =>
      Runs.bind (.of_keeps (hjudges.runEffects_keeps trivial _ _ _))
        (fun hw hr => ((hsteady.runEffects_keeps trivial _ _ _).of_ok hr).busy hw) fun _ =>
          drain_runs fuel services.maxQueued services
    cases hr
    exact hw

theorem run_coursed (fuel : Nat) (w : World) (op : Operation) :
    Coursed a w (op.run (Evaluator.withFuel Library.standard fuel) w) := by
  have hev := coursed_withFuel a fuel
  cases op with
  | runInitialEffects handle services =>
    by_cases h : handle = a
    · rw [h]
      exact runInitialEffects_coursed fuel services w
    · exact (Coursed.transacts h).runInitialEffects_keeps hev w
  | dispatch handle services event payload =>
    by_cases h : handle = a
    · rw [h]
      exact dispatch_coursed fuel services event payload w
    · exact (Coursed.transacts h).dispatch_keeps hev event payload w
  | runDueTicks handle services now =>
    by_cases h : handle = a
    · rw [h]
      exact runDueTicks_coursed fuel services now w
    · exact (Coursed.transacts h).runDueTicks_keeps hev (Coursed.timed h) now w
  | settle rounds => exact Timers.settle_keeps hev rounds w
  | change clock respond => exact .of_apart (.of_machines rfl rfl)

theorem runAll_coursed (fuel : Nat) (w : World) (ops : List Operation) :
    Coursed a w (runAll (Evaluator.withFuel Library.standard fuel) w ops) := by
  induction ops generalizing w with
  | nil => exact (Coursed.openFrame a).refl w
  | cons op rest ih => exact (run_coursed fuel w op).trans (ih _)

end runs

/-- The course of a run and the counters of its machine behind it, when they have begun at zero. -/
structure Ledger (a : Nat) (before : World) (l : List (Occurrence × Outcome)) (after : World)
    (m : Instance) : Prop where
  course : Course a before l after
  machine : after.machine? a = some m
  processed : pick Deed.processed? (after.deedsSince before a) = l.map Prod.fst
  counted : Counted {} (l.map Prod.snd) m.stats
  /-- If none has failed, every event has taken a transition, found none or been denied all. -/
  balance : (∀ entry ∈ l, entry.2.failed = false) →
    m.stats.events = m.stats.transitions + m.stats.unmatchedEvents
      + (l.map Prod.snd).countP Outcome.rejected

theorem Counted.balance {s : Stats} {outcomes : List Outcome} (h : Counted {} outcomes s)
    (hnone : ∀ outcome ∈ outcomes, outcome.failed = false) :
    s.events = s.transitions + s.unmatchedEvents + outcomes.countP Outcome.rejected := by
  have hfailed : outcomes.countP Outcome.failed = 0 :=
    List.countP_eq_zero.mpr fun outcome hmem => by simp [hnone outcome hmem]
  have hevents : s.events = 0 + outcomes.length := h.events
  have htransitions : s.transitions = 0 + outcomes.countP Outcome.fired := h.transitions
  have hunmatched : s.unmatchedEvents = 0 + outcomes.countP Outcome.unmatched := h.unmatchedEvents
  have hlength := Outcome.length_eq outcomes
  omega

theorem runAll_ledger (fuel : Nat) {w : World} (hm : w.machine? a = some m) (hstats : m.stats = {})
    (ops : List Operation) :
    ∃ l m', Ledger a w l (runAll (Evaluator.withFuel Library.standard fuel) w ops) m' := by
  obtain ⟨l, hcourse⟩ := runAll_coursed (a := a) fuel w ops
  obtain ⟨m', J, hm', hcounted, hhistory, hprocessed⟩ := hcourse.counted hm
  rw [hstats] at hcounted
  refine ⟨l, m', hcourse, hm', ?_, hcounted, fun hnone => hcounted.balance ?_⟩
  · unfold World.deedsSince
    rw [World.incidentsSince_eq hhistory, hprocessed]
  · intro outcome hmem
    obtain ⟨entry, hentry, rfl⟩ := List.mem_map.mp hmem
    exact hnone entry hentry

/-- An event takes the first transition for it that is not denied, and the counters of a machine
say what has become of all the events of a run. -/
theorem transition_choice :
    (∀ (ev : Evaluator) (services : Services) (w : World) (m : Instance) (event : Text)
      (payload : Value), w.machine? m.handle = some m →
      Choice ev services m (m.context payload w.clock) event m.definition.transitions
        ((w.recorded services m (.processed ⟨event, payload⟩)).counted m.handle
          fun s => { s with events := s.events + 1 })
        (process ev services m.handle event payload w)) ∧
    (∀ (fuel a : Nat) (d : Definition) (given seed : Value) (created : Int) (w w' : World)
      (m : Instance) (ops : List Operation), create a d given seed created w = .ok m w' →
      ∃ l m', Ledger a w' l (runAll (Evaluator.withFuel Library.standard fuel) w' ops) m') := by
  constructor
  · intro ev services w m event payload hm
    exact process_choice hm payload
  · intro fuel a d given seed created w w' m ops hcreate
    obtain ⟨config, -, hfresh, hm, -⟩ := create_fresh hcreate
    exact runAll_ledger fuel hm (by rw [hfresh]; rfl) ops

/-- A machine with a guard that fails, one that says no, and a transition behind both. -/
def booth : Definition where
  name := "booth"
  initial := "free"
  states := [{ name := "free" }, { name := "taken" }]
  events := [{ key := "ENTER" }, { key := "LEAVE" }, { key := "CALL" }]
  transitions := [
    { event := "ENTER", sources := .listed ["free"], guard := some (.array [.string "set"]) },
    { event := "LEAVE", target := some "free" },
    { event := "ENTER", guard := some (.bool false) },
    { event := "ENTER", sources := .listed ["free"], target := some "taken" }]

def boothRun : List Operation :=
  [.dispatch 1 {} "ENTER" .null, .dispatch 1 {} "ENTER" .null, .dispatch 1 {} "CALL" .null,
    .dispatch 1 {} "LEAVE" .null]

/-- Two transitions are taken, one event is denied and one is for none. -/
theorem booth_balance :
    ∃ m w, create 1 booth .null .null 0 {} = .ok m w ∧
      (∃ after, process (Evaluator.withFuel Library.standard 3) {} 1 "ENTER" .null w
          = .ok ⟨"free", "taken", some 3, true, 0⟩ after ∧
        Choice (Evaluator.withFuel Library.standard 3) {} m (m.context .null w.clock) "ENTER"
          booth.transitions ((w.recorded {} m (.processed ⟨"ENTER", .null⟩)).counted 1
            fun s => { s with events := s.events + 1 })
          (.ok ⟨"free", "taken", some 3, true, 0⟩ after)) ∧
      ∃ l m', Ledger 1 w l (runAll (Evaluator.withFuel Library.standard 3) w boothRun) m' ∧
        m'.stats.answers = (4, 2, 1) := by
  let m := fresh 1 booth (.map []) 0 0
  let w : World := { stores := #[.map []], machines := [m] }
  have hcreate : create 1 booth .null .null 0 {} = .ok m w := rfl
  refine ⟨m, w, hcreate, ?_, ?_⟩
  · have hprocess : ∃ after, process (Evaluator.withFuel Library.standard 3) {} 1 "ENTER" .null w
        = .ok ⟨"free", "taken", some 3, true, 0⟩ after := ⟨_, rfl⟩
    obtain ⟨after, hprocess⟩ := hprocess
    refine ⟨after, hprocess, ?_⟩
    rw [← hprocess]
    exact transition_choice.1 (Evaluator.withFuel Library.standard 3) {} w m "ENTER" .null rfl
  · obtain ⟨l, m', hledger⟩ :=
      transition_choice.2 3 1 booth .null .null 0 {} w m boothRun hcreate
    have hstats : ((runAll (Evaluator.withFuel Library.standard 3) w boothRun).machine? 1).map
        (fun m => m.stats.answers) = some (4, 2, 1) := by decide +kernel
    rw [hledger.machine] at hstats
    exact ⟨l, m', hledger, Option.some.inj hstats⟩

end Machine
end EntityMachines
