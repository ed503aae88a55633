import EntityMachines.Proofs.Scheduler.Books

/-!
Jobs take their course. In whatever order a scheduler is made to move, its jobs wait in the order in
which they were submitted, start and finish once, and hand their outcome out at most once, but not
at all if they were released before.
-/
namespace EntityMachines

variable {α : Type}

namespace Life

/-- The phase in which a job stands. -/
def phase : Life α → JobPhase
  | unborn | gone _ _ _ => .unknown
  | queued _ => .queued
  | running _ => .running
  | settled _ outcome => ending outcome

theorem ending_eq (outcome : Except Error α) :
    ending outcome = .done ∨ ending outcome = .failed := by
  cases outcome
  · exact .inr rfl
  · exact .inl rfl

theorem passed_isPrefix (life : Life α) :
    ∃ last, (last = .done ∨ last = .failed) ∧ life.passed <+: [.queued, .running, last] := by
  cases life with
  | unborn => exact ⟨.done, .inl rfl, List.nil_prefix⟩
  | queued => exact ⟨.done, .inl rfl, [.running, .done], rfl⟩
  | running => exact ⟨.done, .inl rfl, [.done], rfl⟩
  | settled _ outcome | gone _ outcome _ =>
    exact ⟨ending outcome, ending_eq outcome, List.prefix_rfl⟩

theorem getLast?_passed {life : Life α} (h : life.phase ≠ .unknown) :
    life.passed.getLast? = some life.phase := by
  cases life with
  | unborn | gone => exact absurd rfl h
  | queued | running | settled => rfl

end Life

namespace Scheduler

/-- How many jobs run. -/
def running (s : Scheduler α) : Nat := s.jobs.countP (·.status.isRunning)

variable {s : Scheduler α} {id : Nat} {life : Life α}

theorem Shows.phase_eq (h : s.Shows id life) : s.phase id = life.phase := by
  unfold phase
  cases life with
  | unborn | gone => rw [h.1]; rfl
  | queued | running =>
    obtain ⟨job, hjob, hstatus, -⟩ := h
    rw [hjob]
    dsimp only
    rw [hstatus]
    rfl
  | settled number outcome =>
    obtain ⟨job, hjob, hstatus⟩ := h
    rw [hjob]
    dsimp only
    rw [hstatus]
    cases outcome <;> rfl

theorem Shows.outcome?_eq (h : s.Shows id life) :
    s.outcome? id = match life with
      | .settled _ outcome => some outcome
      | _ => none := by
  cases life with
  | unborn | gone =>
    exact outcome?_unsettled fun job hjob => absurd (h.1.symm.trans hjob) (Option.some_ne_none _).symm
  | queued | running =>
    obtain ⟨job, hjob, hstatus, -⟩ := h
    refine outcome?_unsettled fun j hj => ?_
    cases Option.some.inj (hj.symm.trans hjob)
    rw [hstatus]
    rfl
  | settled number outcome =>
    obtain ⟨job, hjob, hstatus⟩ := h
    exact outcome?_settled hjob hstatus

/-- Where no job has settled, taking its result is refused. -/
theorem take_of_outcome? (h : s.outcome? id = none) : (s.take id).2 = s ∧
    ((s.take id).1 = .error (.unsettledJob id) ∨
      (s.take id).1 = .error (.argument (.unknownJob id))) := by
  cases hknown : s.find? id with
  | none =>
    rw [take_unknown hknown]
    exact ⟨rfl, .inr rfl⟩
  | some job =>
    cases hsettled : job.status.isSettled with
    | false =>
      rw [take_unsettled hknown hsettled]
      exact ⟨rfl, .inl rfl⟩
    | true =>
      obtain ⟨number, outcome, hstatus⟩ := JobStatus.isSettled_iff.mp hsettled
      rw [outcome?_settled hknown hstatus] at h
      cases h

end Scheduler

namespace Chronicle

variable {c c' : Chronicle α} {move : SchedulerMove α} {moves : List (SchedulerMove α)}

/-- The phases that a job has passed through. -/
def passed (c : Chronicle α) (id : Nat) : List JobPhase :=
  c.events.filterMap (JobEvent.phase? id)

/-- What a scheduler makes of its jobs. -/
structure Regular (c : Chronicle α) : Prop where
  /-- The queue holds the queued jobs, each once, in the order in which they were submitted. -/
  queue_eq : c.scheduler.queue = c.submittedIds.filter fun id => c.scheduler.phase id = .queued
  queue_nodup : c.scheduler.queue.Nodup
  /-- Jobs start in the order in which they were submitted. -/
  in_order : c.startedIds ++ c.scheduler.queue = c.submittedIds
  counted : c.scheduler.stats.submitted = c.submittedIds.length ∧
    c.scheduler.stats.started = c.startedIds.length ∧
    c.scheduler.stats.completed = c.finished.countP succeeded ∧
    c.scheduler.stats.failed = c.finished.countP (!succeeded ·)
  submitted_eq : c.scheduler.stats.submitted = c.scheduler.queue.length + c.scheduler.running
    + c.scheduler.stats.completed + c.scheduler.stats.failed
  started_eq : c.scheduler.stats.started
    = c.scheduler.running + c.scheduler.stats.completed + c.scheduler.stats.failed
  passes : ∀ id, ∃ last, (last = .done ∨ last = .failed) ∧
    c.passed id <+: [.queued, .running, last]
  /-- A job that is known stands in the last phase that it has come to. -/
  phase_eq : ∀ id, c.scheduler.phase id ≠ .unknown →
    (c.passed id).getLast? = some (c.scheduler.phase id)
  /-- Jobs are numbered in the order in which they finish. -/
  numbers : c.finished.map (·.2.1)
    = List.range' 1 (c.scheduler.stats.completed + c.scheduler.stats.failed)
  number_eq : ∀ id number, c.scheduler.number? id = some number →
    ∃ outcome, .finished id number outcome ∈ c.events
  unreleased : ∀ id job, c.scheduler.find? id = some job → job.status.isSettled = true →
    job.released = false
  refuses : ∀ id job, c.scheduler.find? id = some job → job.status.isSettled = false →
    c.scheduler.take id = (.error (.unsettledJob id), c.scheduler)
  /-- A job that has finished hands out its own outcome to the first who takes it. -/
  hands_out : ∀ id number outcome, .finished id number outcome ∈ c.events →
    .released id ∉ c.events → (∀ other, .taken id other ∉ c.events) →
    (c.scheduler.take id).1 = outcome ∧
      c.step (.take id) = some ⟨(c.scheduler.take id).2, c.events ++ [.taken id outcome]⟩
  own : ∀ id outcome, .taken id outcome ∈ c.events →
    ∃ number, .finished id number outcome ∈ c.events
  finishes_once : ∀ id, (c.events.filterMap (JobEvent.finishOf? id)).length ≤ 1
  taken_once : ∀ id, (c.events.filterMap (JobEvent.takenOf? id)).length ≤ 1
  /-- No job is lost, whether it was released or not. -/
  goes_on : ∀ id ∈ c.submittedIds, c.scheduler.phase id = .queued ∨
    c.scheduler.phase id = .running ∨ ∃ number outcome, .finished id number outcome ∈ c.events
  may_start : ∀ id rest, c.scheduler.queue = id :: rest →
    ∃ i s, c.scheduler.step (.start i) = some (s, some (.started id))
  may_finish : ∀ id, c.scheduler.phase id = .running → ∃ i, ∀ outcome, ∃ s,
    c.scheduler.step (.finish i outcome)
      = some (s, some (.finished id c.scheduler.nextNumber outcome))
  /-- The outcome of a job that was released before it finished is out of reach. -/
  withheld : ∀ id, Abandoned id c.events → (∀ outcome, .taken id outcome ∉ c.events) ∧
    (c.scheduler.take id).2 = c.scheduler ∧
    ((c.scheduler.take id).1 = .error (.unsettledJob id) ∨
      (c.scheduler.take id).1 = .error (.argument (.unknownJob id)))

/-- What each move keeps holds throughout a run. -/
theorem run_keeps {P : Chronicle α → Prop}
    (hstep : ∀ {c c' : Chronicle α} {move : SchedulerMove α}, P c → c.step move = some c' → P c')
    (hc : P c) (h : c.run moves = some c') : P c' := by
  induction moves generalizing c with
  | nil =>
    cases h
    exact hc
  | cons move rest ih =>
    obtain ⟨next, hnext, hrest⟩ := Option.bind_eq_some_iff.mp (List.foldlM_cons.symm.trans h)
    exact ih (hstep hc hnext) hrest

theorem mem_startedIds {id : Nat} (h : id ∈ c.startedIds) : .running ∈ c.passed id := by
  obtain ⟨e, he, hstarted⟩ := List.mem_filterMap.mp h
  refine List.mem_filterMap.mpr ⟨e, he, ?_⟩
  cases e with
  | started x =>
    cases hstarted
    exact if_pos rfl
  | _ => cases hstarted

theorem mem_submittedIds {id : Nat} (h : id ∈ c.submittedIds) : .queued ∈ c.passed id := by
  obtain ⟨e, he, hsubmitted⟩ := List.mem_filterMap.mp h
  refine List.mem_filterMap.mpr ⟨e, he, ?_⟩
  cases e with
  | submitted x =>
    cases hsubmitted
    exact if_pos rfl
  | _ => cases hsubmitted

namespace Sound

variable (hc : Sound c)
include hc

theorem phase_of_queue {id : Nat} (h : id ∈ c.scheduler.queue) :
    c.scheduler.phase id = .queued := by
  rw [hc.tidy.queue_eq, hc.tidy.mem_idsOf_iff] at h
  obtain ⟨job, hjob, hqueued⟩ := h
  unfold Scheduler.phase
  rw [hjob]
  dsimp only
  rw [JobStatus.isQueued_iff.mp hqueued]
  rfl

theorem phase_of_started {id : Nat} (h : id ∈ c.startedIds) : c.scheduler.phase id ≠ .queued := by
  obtain ⟨life, hlives, hshows⟩ := hc.lives id
  have hpassed : JobPhase.running ∈ life.passed := hlives.passed_eq ▸ mem_startedIds h
  rw [hshows.phase_eq]
  cases life with
  | unborn => cases hpassed
  | queued => simp [Life.passed] at hpassed
  | running | gone => exact fun h => by cases h
  | settled _ outcome => cases outcome <;> exact fun h => by cases h

theorem queue_eq (hbooks : Books c) :
    c.scheduler.queue = c.submittedIds.filter fun id => c.scheduler.phase id = .queued := by
  have hqueue : c.scheduler.queue.filter (fun id => c.scheduler.phase id = .queued)
      = c.scheduler.queue :=
    List.filter_eq_self.mpr fun id hid => decide_eq_true (hc.phase_of_queue hid)
  have hstarted : c.startedIds.filter (fun id => c.scheduler.phase id = .queued) = [] :=
    List.filter_eq_nil_iff.mpr fun id hid => by simpa using hc.phase_of_started hid
  rw [← hbooks.in_order, List.filter_append, hstarted, hqueue]
  rfl

theorem number_eq {id number : Nat} (h : c.scheduler.number? id = some number) :
    ∃ outcome, .finished id number outcome ∈ c.events := by
  obtain ⟨life, hlives, hshows⟩ := hc.lives id
  unfold Scheduler.number? at h
  split at h
  next n o _ hjob =>
    cases h
    have hlife := hshows.of_known hjob
    dsimp only at hlife
    subst hlife
    exact ⟨o, mem_finishOf.mp (hlives.finish_eq ▸ List.mem_singleton_self _)⟩
  next => cases h

theorem hands_out {id number : Nat} {outcome : Except Error α}
    (hfinished : .finished id number outcome ∈ c.events) (hreleased : .released id ∉ c.events)
    (htaken : ∀ other, .taken id other ∉ c.events) : (c.scheduler.take id).1 = outcome ∧
    c.step (.take id) = some ⟨(c.scheduler.take id).2, c.events ++ [.taken id outcome]⟩ := by
  obtain ⟨life, hlives, hshows⟩ := hc.lives id
  have hfinish : (number, outcome) ∈ life.finish := hlives.finish_eq ▸ mem_finishOf.mpr hfinished
  cases life with
  | unborn | queued | running => cases hfinish
  | gone n o fate =>
    cases List.mem_singleton.mp hfinish
    cases fate with
    | taken =>
      have hmem : outcome ∈ c.events.filterMap (JobEvent.takenOf? id) :=
        hlives.handedOut_eq ▸ List.mem_singleton_self _
      exact absurd (mem_takenOf.mp hmem) (htaken outcome)
    | dropped | abandoned => exact absurd (hlives.released_mem (by decide)) hreleased
  | settled n o =>
    cases List.mem_singleton.mp hfinish
    obtain ⟨job, hjob, hstatus⟩ := hshows
    have htake := Scheduler.take_settled hjob hstatus
    rw [htake]
    exact ⟨rfl, Chronicle.step_take_settled hjob hstatus⟩

theorem goes_on {id : Nat} (h : id ∈ c.submittedIds) : c.scheduler.phase id = .queued ∨
    c.scheduler.phase id = .running ∨ ∃ number outcome, .finished id number outcome ∈ c.events := by
  obtain ⟨life, hlives, hshows⟩ := hc.lives id
  have hpassed : JobPhase.queued ∈ life.passed := hlives.passed_eq ▸ mem_submittedIds h
  rw [hshows.phase_eq]
  cases life with
  | unborn => cases hpassed
  | queued => exact .inl rfl
  | running => exact .inr (.inl rfl)
  | settled number outcome | gone number outcome _ =>
    have hmem : (number, outcome) ∈ c.events.filterMap (JobEvent.finishOf? id) :=
      hlives.finish_eq ▸ List.mem_singleton_self _
    exact .inr (.inr ⟨number, outcome, mem_finishOf.mp hmem⟩)

theorem may_start {id : Nat} {rest : List Nat} (hqueue : c.scheduler.queue = id :: rest) :
    ∃ i s, c.scheduler.step (.start i) = some (s, some (.started id)) := by
  have hwaits : c.scheduler.queue ≠ [] := by
    rw [hqueue]
    exact List.cons_ne_nil _ _
  obtain ⟨i, hi⟩ := hc.tidy.exists_idle hwaits
  have hstart := Scheduler.start_of_dropWhile (i := i) (hc.tidy.dropWhile_queue.trans hqueue)
  refine ⟨i, (c.scheduler.start i).2, (if_pos ⟨hi, hwaits⟩).trans ?_⟩
  rw [hstart]
  rfl

theorem may_finish {id : Nat} (h : c.scheduler.phase id = .running) :
    ∃ i, ∀ outcome, ∃ s, c.scheduler.step (.finish i outcome)
      = some (s, some (.finished id c.scheduler.nextNumber outcome)) := by
  obtain ⟨life, hlives, hshows⟩ := hc.lives id
  rw [hshows.phase_eq] at h
  cases life with
  | unborn | queued | gone => cases h
  | settled _ outcome => cases outcome <;> cases h
  | running =>
    obtain ⟨job, hjob, hstatus, -⟩ := hshows
    obtain ⟨i, hi⟩ := hc.tidy.exists_worker hjob hstatus
    refine ⟨i, fun outcome => ⟨c.scheduler.finish i id outcome, ?_⟩⟩
    unfold Scheduler.step
    dsimp only
    rw [hi]

theorem withheld {id : Nat} (h : Abandoned id c.events) : (∀ outcome, .taken id outcome ∉ c.events) ∧
    (c.scheduler.take id).2 = c.scheduler ∧
    ((c.scheduler.take id).1 = .error (.unsettledJob id) ∨
      (c.scheduler.take id).1 = .error (.argument (.unknownJob id))) := by
  obtain ⟨life, hlives, hshows⟩ := hc.lives id
  have habandoned := hlives.abandoned_iff.mp h
  have hnone : life.handedOut = [] ∧ c.scheduler.outcome? id = none := by
    rw [hshows.outcome?_eq]
    cases life with
    | unborn | settled => cases habandoned
    | queued | running => exact ⟨rfl, rfl⟩
    | gone number outcome fate =>
      cases of_decide_eq_true habandoned
      exact ⟨rfl, rfl⟩
  refine ⟨fun outcome hmem => ?_, Scheduler.take_of_outcome? hnone.2⟩
  have htaken := mem_takenOf.mpr hmem
  rw [hlives.handedOut_eq, hnone.1] at htaken
  cases htaken

theorem regular (hbooks : Books c) : Regular c := by
  have hstarted := hbooks.running.length_eq
  have hnumbers := congrArg List.length hbooks.numbers
  have hsubmitted := congrArg List.length hbooks.in_order
  have hsplit := List.length_eq_countP_add_countP succeeded (l := c.finished)
  have hrunning : c.scheduler.running = (idsOf c.scheduler.jobs JobStatus.isRunning).length := by
    rw [Scheduler.running, List.countP_eq_length_filter, idsOf, List.length_map]
  have hlength := congrArg List.length hbooks.submitted
  simp only [List.length_append, List.length_map] at hstarted hnumbers hsubmitted
  rw [List.length_range'] at hnumbers hlength
  have hcompleted := hbooks.completed
  have hcount := hbooks.started
  exact {
    queue_eq := hc.queue_eq hbooks
    queue_nodup := hc.tidy.queue_eq ▸ hc.tidy.idsOf_nodup _
    in_order := hbooks.in_order
    counted := ⟨hlength.symm, hcount, hcompleted, by simp at hsplit ⊢; omega⟩
    submitted_eq := by omega
    started_eq := by omega
    passes := fun id => by
      obtain ⟨life, hlives, -⟩ := hc.lives id
      rw [passed, hlives.passed_eq]
      exact life.passed_isPrefix
    phase_eq := fun id hid => by
      obtain ⟨life, hlives, hshows⟩ := hc.lives id
      rw [hshows.phase_eq] at hid ⊢
      rw [passed, hlives.passed_eq]
      exact Life.getLast?_passed hid
    numbers := hbooks.numbers
    number_eq := fun id number => hc.number_eq
    unreleased := fun id job hjob =>
      hc.tidy.unreleased job (hc.tidy.find?_eq_some_iff.mp hjob).1
    refuses := fun id job => Scheduler.take_unsettled
    hands_out := fun id number outcome => hc.hands_out
    own := fun id outcome h => by
      obtain ⟨life, hlives, -⟩ := hc.lives id
      have htaken := hlives.handedOut_eq ▸ mem_takenOf.mpr h
      obtain ⟨number, hfinish⟩ := Life.finish_of_handedOut htaken
      exact ⟨number, mem_finishOf.mp (hlives.finish_eq ▸ hfinish)⟩
    finishes_once := fun id => by
      obtain ⟨life, hlives, -⟩ := hc.lives id
      exact hlives.finish_eq ▸ life.length_finish
    taken_once := fun id => by
      obtain ⟨life, hlives, -⟩ := hc.lives id
      exact hlives.handedOut_eq ▸ life.length_handedOut
    goes_on := fun id => hc.goes_on
    may_start := fun id rest => hc.may_start
    may_finish := fun id => hc.may_finish
    withheld := fun id => hc.withheld }

end Sound

/-- In whatever order jobs are submitted, started, finished, taken and released, and workers come
and go, the jobs take their course. -/
theorem regular_of_run {count : Nat} (h : (start count).run moves = some c) : Regular c := by
  have hboth : Sound c ∧ Books c := by
    refine run_keeps (P := fun c => Sound c ∧ Books c) ?_ ⟨Sound.start count, Books.start count⟩ h
    rintro c c' move ⟨hsound, hbooks⟩ hstep
    exact ⟨hsound.step hstep, hbooks.step hsound.tidy hstep⟩
  exact hboth.1.regular hboth.2

/-- Two jobs, of which the second needs another worker and is given up while it runs. It ends
nevertheless, after the first, whose result is taken. -/
def errands : List (SchedulerMove Nat) :=
  [.submit [], .submit [], .start 0, .start 1, .release 2, .finish 0 (.ok 7), .take 1,
    .finish 1 (.error .unnamed), .stop, .rest 1, .leave 1]

def afterErrands : Chronicle Nat where
  scheduler :=
    { nextId := 3, nextNumber := 3, crew := [.resting, .gone], stopping := true,
      stats := { submitted := 2, started := 2, completed := 1, failed := 1, extra := 1 } }
  events :=
    [.submitted 1, .submitted 2, .started 1, .started 2, .released 2, .finished 1 1 (.ok 7),
      .taken 1 (.ok 7), .finished 2 2 (.error .unnamed)]

theorem regular_errands : (start 1).run errands = some afterErrands ∧ Regular afterErrands ∧
    Abandoned 2 afterErrands.events := by
  have hrun : (start 1).run errands = some afterErrands := rfl
  exact ⟨hrun, regular_of_run hrun, [.submitted 1, .submitted 2, .started 1, .started 2],
    [.finished 1 1 (.ok 7), .taken 1 (.ok 7), .finished 2 2 (.error .unnamed)], rfl, rfl⟩

end Chronicle
end EntityMachines
