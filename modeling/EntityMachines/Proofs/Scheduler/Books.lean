import EntityMachines.Proofs.Scheduler.Life

/-!
The books of a scheduler. Its counters count what has happened, jobs start in the order in which
they were submitted, and they are numbered in the order in which they finish.
-/
namespace EntityMachines

variable {α : Type}

/-- The job has ended with a value. -/
def succeeded (entry : Nat × Nat × Except Error α) : Bool := Life.ending entry.2.2 = .done

namespace Chronicle

/-- The jobs that were submitted, the earliest first. -/
def submittedIds (c : Chronicle α) : List Nat := c.events.filterMap JobEvent.submitted?

def startedIds (c : Chronicle α) : List Nat := c.events.filterMap JobEvent.started?

/-- The jobs that have finished, each with its number and its outcome, the earliest first. -/
def finished (c : Chronicle α) : List (Nat × Nat × Except Error α) :=
  c.events.filterMap JobEvent.finished?

structure Books (c : Chronicle α) : Prop where
  submitted : c.submittedIds = List.range' 1 c.scheduler.stats.submitted
  nextId : c.scheduler.nextId = c.scheduler.stats.submitted + 1
  in_order : c.startedIds ++ c.scheduler.queue = c.submittedIds
  started : c.scheduler.stats.started = c.startedIds.length
  running : (c.finished.map (·.1) ++ idsOf c.scheduler.jobs JobStatus.isRunning).Perm c.startedIds
  numbers : c.finished.map (·.2.1)
    = List.range' 1 (c.scheduler.stats.completed + c.scheduler.stats.failed)
  nextNumber : c.scheduler.nextNumber
    = c.scheduler.stats.completed + c.scheduler.stats.failed + 1
  completed : c.scheduler.stats.completed = c.finished.countP succeeded

variable {c c' : Chronicle α} {move : SchedulerMove α}

theorem Books.start (count : Nat) : Books (start count : Chronicle α) where
  submitted := rfl
  nextId := rfl
  in_order := rfl
  started := rfl
  running := .nil
  numbers := rfl
  nextNumber := rfl
  completed := rfl

section Events

variable {s : Scheduler α} {e : JobEvent α}

theorem submittedIds_snoc (c : Chronicle α) (s : Scheduler α) (e : JobEvent α) :
    submittedIds ⟨s, c.events ++ [e]⟩ = c.submittedIds ++ e.submitted?.toList :=
  filterMap_snoc _ _ _

theorem submittedIds_same (h : e.submitted? = none) :
    submittedIds ⟨s, c.events ++ [e]⟩ = c.submittedIds := by
  rw [submittedIds_snoc, h]
  exact List.append_nil _

theorem startedIds_snoc (c : Chronicle α) (s : Scheduler α) (e : JobEvent α) :
    startedIds ⟨s, c.events ++ [e]⟩ = c.startedIds ++ e.started?.toList :=
  filterMap_snoc _ _ _

theorem startedIds_same (h : e.started? = none) :
    startedIds ⟨s, c.events ++ [e]⟩ = c.startedIds := by
  rw [startedIds_snoc, h]
  exact List.append_nil _

theorem finished_snoc (c : Chronicle α) (s : Scheduler α) (e : JobEvent α) :
    finished ⟨s, c.events ++ [e]⟩ = c.finished ++ e.finished?.toList :=
  filterMap_snoc _ _ _

theorem finished_same (h : e.finished? = none) :
    finished ⟨s, c.events ++ [e]⟩ = c.finished := by
  rw [finished_snoc, h]
  exact List.append_nil _

end Events

/-- Nothing is booked for what is neither submitted nor started nor finished. -/
theorem Books.same (hc : Books c) {s : Scheduler α} {events : List (JobEvent α)}
    (hsubmitted : submittedIds ⟨s, events⟩ = c.submittedIds)
    (hstarted : startedIds ⟨s, events⟩ = c.startedIds)
    (hfinished : finished ⟨s, events⟩ = c.finished) (hstats : s.stats = c.scheduler.stats)
    (hnext : s.nextId = c.scheduler.nextId) (hqueue : s.queue = c.scheduler.queue)
    (hnumber : s.nextNumber = c.scheduler.nextNumber)
    (hrunning : idsOf s.jobs JobStatus.isRunning = idsOf c.scheduler.jobs JobStatus.isRunning) :
    Books ⟨s, events⟩ where
  submitted := by rw [hsubmitted, hc.submitted, hstats]
  nextId := by rw [hnext, hc.nextId, hstats]
  in_order := by rw [hstarted, hsubmitted, hqueue, hc.in_order]
  started := by rw [hstarted, hstats, hc.started]
  running := by rw [hfinished, hrunning, hstarted]; exact hc.running
  numbers := by rw [hfinished, hstats, hc.numbers]
  nextNumber := by rw [hnumber, hc.nextNumber, hstats]
  completed := by rw [hfinished, hstats, hc.completed]

theorem Books.submit (hc : Books c) (ht : c.scheduler.Tidy) (name : Text) :
    Books ⟨(c.scheduler.submit name).2, c.events ++ [.submitted c.scheduler.nextId]⟩ := by
  obtain ⟨-, -, hrunning⟩ := ht.enqueue name
  have hstats : (c.scheduler.submit name).2.stats.submitted = c.scheduler.stats.submitted + 1 ∧
      (c.scheduler.submit name).2.stats.started = c.scheduler.stats.started ∧
      (c.scheduler.submit name).2.stats.completed = c.scheduler.stats.completed ∧
      (c.scheduler.submit name).2.stats.failed = c.scheduler.stats.failed ∧
      (c.scheduler.submit name).2.nextId = c.scheduler.nextId + 1 ∧
      (c.scheduler.submit name).2.nextNumber = c.scheduler.nextNumber ∧
      (c.scheduler.submit name).2.queue = c.scheduler.queue ++ [c.scheduler.nextId] ∧
      (c.scheduler.submit name).2.jobs = (c.scheduler.enqueue name).jobs := by
    unfold Scheduler.submit
    dsimp only
    split <;> exact ⟨rfl, rfl, rfl, rfl, rfl, rfl, rfl, rfl⟩
  obtain ⟨hsubmitted, hstarted, hcompleted, hfailed, hnext, hnumber, hqueue, hjobs⟩ := hstats
  have hids : submittedIds ⟨(c.scheduler.submit name).2, c.events ++ [.submitted c.scheduler.nextId]⟩
      = c.submittedIds ++ [c.scheduler.nextId] := submittedIds_snoc _ _ _
  have hstart : startedIds ⟨(c.scheduler.submit name).2, c.events ++ [.submitted c.scheduler.nextId]⟩
      = c.startedIds := startedIds_same rfl
  have hfinish : finished ⟨(c.scheduler.submit name).2, c.events ++ [.submitted c.scheduler.nextId]⟩
      = c.finished := finished_same rfl
  constructor
  case submitted =>
    rw [hids, hc.submitted, hsubmitted, List.range'_concat, hc.nextId, Nat.add_comm 1, Nat.one_mul]
  case nextId => rw [hnext, hsubmitted, hc.nextId]
  case in_order => rw [hids, hstart, hqueue, ← List.append_assoc, hc.in_order]
  case started => rw [hstarted, hstart, hc.started]
  case running =>
    rw [hfinish, hstart, hjobs, hrunning]
    exact hc.running
  case numbers => rw [hfinish, hcompleted, hfailed, hc.numbers]
  case nextNumber => rw [hnumber, hcompleted, hfailed, hc.nextNumber]
  case completed => rw [hfinish, hcompleted, hc.completed]

theorem Books.assign (hc : Books c) (ht : c.scheduler.Tidy) {i id : Nat} {rest : List Nat}
    (hqueue : c.scheduler.queue = id :: rest) :
    Books ⟨{ c.scheduler with queue := rest }.assign i id, c.events ++ [.started id]⟩ := by
  obtain ⟨job, hjob, hqueued⟩ := ht.find?_of_queue hqueue
  have hjoins : (idsOf ({ c.scheduler with queue := rest }.assign i id).jobs
      JobStatus.isRunning).Perm (id :: idsOf c.scheduler.jobs JobStatus.isRunning) :=
    ht.running_assign hqueue
  have hstart : startedIds ⟨{ c.scheduler with queue := rest }.assign i id,
      c.events ++ [.started id]⟩ = c.startedIds ++ [id] := startedIds_snoc _ _ _
  have hids : submittedIds ⟨{ c.scheduler with queue := rest }.assign i id,
      c.events ++ [.started id]⟩ = c.submittedIds :=
    submittedIds_same rfl
  have hfinish : finished ⟨{ c.scheduler with queue := rest }.assign i id,
      c.events ++ [.started id]⟩ = c.finished := finished_same rfl
  constructor
  case submitted => exact hids.trans hc.submitted
  case nextId => exact hc.nextId
  case in_order =>
    rw [hids, hstart, ← hc.in_order, hqueue, List.append_assoc]
    rfl
  case started =>
    rw [hstart, List.length_append, ← hc.started]
    rfl
  case running =>
    rw [hfinish, hstart]
    refine (hjoins.append_left _).trans (List.perm_middle.trans ?_)
    exact (hc.running.cons id).trans (List.perm_append_singleton _ _).symm
  case numbers => rw [hfinish]; exact hc.numbers
  case nextNumber => exact hc.nextNumber
  case completed => rw [hfinish]; exact hc.completed

theorem Books.finish (hc : Books c) (ht : c.scheduler.Tidy) {i id : Nat}
    (worker : c.scheduler.crew[i]? = some (.running id)) (outcome : Except Error α) :
    Books ⟨c.scheduler.finish i id outcome,
      c.events ++ [.finished id c.scheduler.nextNumber outcome]⟩ := by
  have hleaves : (id :: idsOf (c.scheduler.finish i id outcome).jobs JobStatus.isRunning).Perm
      (idsOf c.scheduler.jobs JobStatus.isRunning) := ht.running_finish worker outcome
  obtain ⟨hqueue, -, -, hnext⟩ := Scheduler.settle_others c.scheduler id outcome
  have hcount : (c.scheduler.stats.count outcome).completed + (c.scheduler.stats.count outcome).failed
      = c.scheduler.stats.completed + c.scheduler.stats.failed + 1 := by
    cases outcome <;> simp only [JobStats.count] <;> omega
  have hids : submittedIds ⟨c.scheduler.finish i id outcome,
      c.events ++ [.finished id c.scheduler.nextNumber outcome]⟩ = c.submittedIds :=
    submittedIds_same rfl
  have hstart : startedIds ⟨c.scheduler.finish i id outcome,
      c.events ++ [.finished id c.scheduler.nextNumber outcome]⟩ = c.startedIds :=
    startedIds_same rfl
  have hfinish : finished ⟨c.scheduler.finish i id outcome,
      c.events ++ [.finished id c.scheduler.nextNumber outcome]⟩
      = c.finished ++ [(id, c.scheduler.nextNumber, outcome)] := finished_snoc _ _ _
  constructor
  case submitted =>
    rw [hids, hc.submitted]
    cases outcome <;> rfl
  case nextId =>
    refine hnext.trans (hc.nextId.trans ?_)
    cases outcome <;> rfl
  case in_order =>
    rw [hids, hstart, ← hc.in_order]
    exact congrArg (c.startedIds ++ ·) hqueue
  case started =>
    rw [hstart, ← hc.started]
    cases outcome <;> rfl
  case running =>
    rw [hfinish, hstart, List.map_append, List.append_assoc]
    exact (hleaves.append_left _).trans hc.running
  case numbers =>
    rw [hfinish, List.map_append, hc.numbers]
    show _ = List.range' 1 ((c.scheduler.stats.count outcome).completed
      + (c.scheduler.stats.count outcome).failed)
    rw [hcount, List.range'_concat, Nat.one_mul, Nat.add_comm 1, ← hc.nextNumber]
    rfl
  case nextNumber =>
    show c.scheduler.nextNumber + 1 = (c.scheduler.stats.count outcome).completed
      + (c.scheduler.stats.count outcome).failed + 1
    rw [hcount, hc.nextNumber]
  case completed =>
    rw [hfinish, List.countP_append, ← hc.completed]
    cases outcome <;> rfl

/-- A settled job that is forgotten was not running. -/
theorem Books.forget (hc : Books c) (ht : c.scheduler.Tidy) {id : Nat} {job : Job α}
    (known : c.scheduler.find? id = some job) (settled : job.status.isSettled = true)
    {e : JobEvent α} (he : e.submitted? = none ∧ e.started? = none ∧ e.finished? = none) :
    Books ⟨c.scheduler.forget id, c.events ++ [e]⟩ := by
  obtain ⟨number, outcome, hstatus⟩ := JobStatus.isSettled_iff.mp settled
  have hrunning : job.status.isRunning = false := by rw [hstatus]; rfl
  exact hc.same (submittedIds_same he.1) (startedIds_same he.2.1) (finished_same he.2.2) rfl rfl rfl
    rfl ((idsOf_forget _ _ _).trans (filter_ne_of_not_mem (ht.not_mem_idsOf known hrunning)))

theorem Books.step (hc : Books c) (ht : c.scheduler.Tidy) (h : c.step move = some c') :
    Books c' := by
  obtain ⟨event, hstep, hevents⟩ := step_eq_some h
  obtain ⟨s, events⟩ := c'
  subst hevents
  cases hstep with
  | submit name => exact hc.submit ht name
  | start worker first => exact hc.assign ht (ht.dropWhile_queue ▸ first)
  | startNone worker waits strays => exact absurd (ht.dropWhile_queue ▸ strays) waits
  | finish worker => exact hc.finish ht worker _
  | rest | leave | stop | refuse | ignore =>
    rw [Option.toList_none, List.append_nil]
    exact hc.same rfl rfl rfl rfl rfl rfl rfl rfl
  | take known settled => exact hc.forget ht known (by rw [settled]; rfl) ⟨rfl, rfl, rfl⟩
  | drop known settled => exact hc.forget ht known settled ⟨rfl, rfl, rfl⟩
  | abandon known unsettled =>
    exact hc.same (submittedIds_same rfl) (startedIds_same rfl) (finished_same rfl) rfl rfl rfl rfl
      (idsOf_map_same (fun _ => rfl) fun _ _ _ => rfl)

end Chronicle
end EntityMachines
