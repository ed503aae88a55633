import EntityMachines.Proofs.Scheduler.Jobs

/-!
The moves of a scheduler, listed once with what each of them does, and what they keep: the queue
holds the queued jobs in the order of the table, each running job has a worker, and as many workers
are idle as jobs wait, or more.
-/
namespace EntityMachines
namespace Scheduler

variable {α : Type} {s s' : Scheduler α} {move : SchedulerMove α} {event : Option (JobEvent α)}
  {i id : Nat} {job : Job α} {outcome : Except Error α}

/-- A queued number of a job that is not known. -/
def isStray (s : Scheduler α) (id : Nat) : Bool := (s.find? id).isNone

/-- The moves, each with what makes it possible, what happens to a job and what comes after. -/
inductive Step (s : Scheduler α) :
    SchedulerMove α → Option (JobEvent α) → Scheduler α → Prop
  | submit (name : Text) : Step s (.submit name) (some (.submitted s.nextId)) (s.submit name).2
  | start {i id : Nat} {rest : List Nat} (worker : s.crew[i]? = some .idle)
      (first : s.queue.dropWhile s.isStray = id :: rest) :
      Step s (.start i) (some (.started id)) ({ s with queue := rest }.assign i id)
  | startNone {i : Nat} (worker : s.crew[i]? = some .idle) (waits : s.queue ≠ [])
      (strays : s.queue.dropWhile s.isStray = []) : Step s (.start i) none { s with queue := [] }
  | finish {i id : Nat} {outcome : Except Error α} (worker : s.crew[i]? = some (.running id)) :
      Step s (.finish i outcome) (some (.finished id s.nextNumber outcome)) (s.finish i id outcome)
  | rest {i : Nat} (worker : s.crew[i]? = some .resting) : Step s (.rest i) none (s.rest i)
  | leave {i : Nat} (worker : s.crew[i]? = some .idle) (stopping : s.stopping = true)
      (empty : s.queue = []) : Step s (.leave i) none (s.leave i)
  | stop : Step s .stop none s.stop
  | take {id number : Nat} {job : Job α} {outcome : Except Error α}
      (known : s.find? id = some job) (settled : job.status = .settled number outcome) :
      Step s (.take id) (some (.taken id outcome)) (s.forget id)
  | refuse {id : Nat} (unsettled : s.outcome? id = none) : Step s (.take id) none s
  | drop {id : Nat} {job : Job α} (known : s.find? id = some job)
      (settled : job.status.isSettled = true) :
      Step s (.release id) (some (.released id)) (s.forget id)
  | abandon {id : Nat} {job : Job α} (known : s.find? id = some job)
      (unsettled : job.status.isSettled = false) :
      Step s (.release id) (some (.released id))
        (s.mapJob id fun job => { job with released := true })
  | ignore {id : Nat} (unknown : s.find? id = none) : Step s (.release id) none s

theorem start_of_dropWhile {rest : List Nat} (h : s.queue.dropWhile s.isStray = id :: rest) :
    s.start i = (some id, { s with queue := rest }.assign i id) := by
  have hsame : (s.queue.dropWhile fun x => (s.find? x).isNone) = id :: rest := h
  unfold start
  rw [hsame]

theorem start_of_strays (h : s.queue.dropWhile s.isStray = []) :
    s.start i = (none, { s with queue := [] }) := by
  have hsame : (s.queue.dropWhile fun x => (s.find? x).isNone) = [] := h
  unfold start
  rw [hsame]

theorem outcome?_settled {number : Nat} (known : s.find? id = some job)
    (settled : job.status = .settled number outcome) : s.outcome? id = some outcome := by
  obtain ⟨_, _, status, _⟩ := job
  cases settled
  unfold outcome?
  rw [known]

theorem outcome?_unsettled (h : ∀ job, s.find? id = some job → job.status.isSettled = false) :
    s.outcome? id = none := by
  unfold outcome?
  split
  next hjob => cases h _ hjob
  next => rfl

theorem take_settled {number : Nat} (known : s.find? id = some job)
    (settled : job.status = .settled number outcome) : s.take id = (outcome, s.forget id) := by
  unfold take
  rw [known]
  dsimp only
  rw [settled]

theorem take_unsettled (known : s.find? id = some job) (unsettled : job.status.isSettled = false) :
    s.take id = (.error (.unsettledJob id), s) := by
  unfold take
  rw [known]
  dsimp only
  split
  next hstatus =>
    rw [hstatus] at unsettled
    cases unsettled
  next => rfl

theorem take_unknown (unknown : s.find? id = none) :
    s.take id = (.error (.argument (.unknownJob id)), s) := by
  unfold take
  rw [unknown]

theorem release_known (known : s.find? id = some job) :
    s.release id = if job.status.isSettled then s.forget id
      else s.mapJob id fun job => { job with released := true } := by
  unfold release
  rw [known]

theorem release_unknown (unknown : s.find? id = none) : s.release id = s := by
  unfold release
  rw [unknown]

theorem step_take (s : Scheduler α) (id : Nat) :
    Step s (.take id) ((s.outcome? id).map (.taken id)) (s.take id).2 := by
  cases hknown : s.find? id with
  | none =>
    have hnone : s.outcome? id = none := outcome?_unsettled fun job hjob => by
      rw [hknown] at hjob
      cases hjob
    rw [take_unknown hknown, hnone]
    exact .refuse hnone
  | some job =>
    cases hstatus : job.status with
    | settled number outcome =>
      rw [take_settled hknown hstatus, outcome?_settled hknown hstatus]
      exact .take hknown hstatus
    | queued | running =>
      have hunsettled : job.status.isSettled = false := by rw [hstatus]; rfl
      have hnone : s.outcome? id = none := outcome?_unsettled fun j hj => by
        rw [hknown, Option.some.injEq] at hj
        exact hj ▸ hunsettled
      rw [take_unsettled hknown hunsettled, hnone]
      exact .refuse hnone

theorem step_release (s : Scheduler α) (id : Nat) :
    Step s (.release id) ((s.find? id).map fun _ => .released id) (s.release id) := by
  cases hknown : s.find? id with
  | none =>
    rw [release_unknown hknown]
    exact .ignore hknown
  | some job =>
    rw [release_known hknown]
    cases hsettled : job.status.isSettled with
    | true => exact .drop hknown hsettled
    | false => exact .abandon hknown hsettled

/-- Every move that is possible is listed. -/
theorem step_of_eq (h : s.step move = some (s', event)) : Step s move event s' := by
  cases move with
  | submit name =>
    cases h
    exact .submit name
  | start i =>
    simp only [step] at h
    split at h
    next hguard =>
      obtain ⟨hworker, hwaits⟩ := hguard
      cases hqueue : s.queue.dropWhile s.isStray with
      | nil =>
        rw [start_of_strays hqueue] at h
        cases h
        exact .startNone hworker hwaits hqueue
      | cons id rest =>
        rw [start_of_dropWhile hqueue] at h
        cases h
        exact .start hworker hqueue
    next => cases h
  | finish i outcome =>
    simp only [step] at h
    split at h
    next hworker =>
      cases h
      exact .finish hworker
    next => cases h
  | rest i =>
    simp only [step] at h
    split at h
    next hworker =>
      cases h
      exact .rest hworker
    next => cases h
  | leave i =>
    simp only [step] at h
    split at h
    next hguard =>
      cases h
      exact .leave hguard.1 hguard.2.1 hguard.2.2
    next => cases h
  | stop =>
    cases h
    exact .stop
  | take id =>
    cases h
    exact step_take s id
  | release id =>
    cases h
    exact step_release s id

/-- What holds of a scheduler between any two moves. -/
structure Tidy (s : Scheduler α) : Prop where
  sorted : (s.jobs.map (·.id)).Pairwise (· < ·)
  below : ∀ x ∈ s.jobs.map (·.id), x < s.nextId
  queue_eq : s.queue = idsOf s.jobs JobStatus.isQueued
  unreleased : ∀ job ∈ s.jobs, job.status.isSettled = true → job.released = false
  /-- The running jobs are those that the workers run, each by one of them. -/
  crew_perm : (s.crew.filterMap Worker.job?).Perm (idsOf s.jobs JobStatus.isRunning)
  idle_eq : s.idle = s.crew.count .idle
  queue_le : s.queue.length ≤ s.idle

theorem mapJob_ids {f : Job α → Job α} (hid : ∀ job, (f job).id = job.id) (s : Scheduler α)
    (id : Nat) : (s.mapJob id f).jobs.map (·.id) = s.jobs.map (·.id) := by
  unfold mapJob
  rw [List.map_map]
  refine List.map_congr_left fun job _ => ?_
  simp only [Function.comp_apply]
  split <;> simp [hid]

theorem forget_ids (s : Scheduler α) (id : Nat) :
    ((s.forget id).jobs.map (·.id)).Sublist (s.jobs.map (·.id)) :=
  List.filter_sublist.map _

theorem mem_mapJob {f : Job α → Job α} (h : job ∈ (s.mapJob id f).jobs) :
    job ∈ s.jobs ∨ ∃ old ∈ s.jobs, old.id = id ∧ job = f old := by
  obtain ⟨old, hold, hjob⟩ := List.mem_map.mp h
  split at hjob
  next hid => exact .inr ⟨old, hold, hid, hjob.symm⟩
  next => exact .inl (hjob ▸ hold)

theorem mem_of_forget (h : job ∈ (s.forget id).jobs) : job ∈ s.jobs := (List.mem_filter.mp h).1

/-- A job that settles leaves every list of jobs that have not settled. -/
theorem idsOf_settle {p : JobStatus α → Bool} (hp : p (.settled s.nextNumber outcome) = false) :
    idsOf (s.settle id outcome).jobs p = (idsOf s.jobs p).filter fun x => x ≠ id := by
  unfold settle
  split
  next => exact idsOf_forget s.jobs id p
  next => exact idsOf_map_leaves fun _ _ _ => hp

theorem settle_ids (s : Scheduler α) (id : Nat) (outcome : Except Error α) :
    ((s.settle id outcome).jobs.map (·.id)).Sublist (s.jobs.map (·.id)) := by
  unfold settle
  split
  next => exact forget_ids s id
  next =>
    have hsame := mapJob_ids (f := fun job => { job with status := .settled s.nextNumber outcome })
      (fun _ => rfl) s id
    exact hsame ▸ .refl _

/-- Only the table changes when a job settles. -/
theorem settle_others (s : Scheduler α) (id : Nat) (outcome : Except Error α) :
    (s.settle id outcome).queue = s.queue ∧ (s.settle id outcome).idle = s.idle ∧
    (s.settle id outcome).crew = s.crew ∧ (s.settle id outcome).nextId = s.nextId := by
  unfold settle
  split <;> exact ⟨rfl, rfl, rfl, rfl⟩

theorem perm_cons_filter {l : List Nat} (hnodup : l.Nodup) (h : id ∈ l) :
    l.Perm (id :: l.filter fun x => x ≠ id) := by
  have herase : (l.filter fun x => x ≠ id) = l.erase id := by
    rw [hnodup.erase_eq_filter]
    refine List.filter_congr fun x _ => ?_
    by_cases hx : x = id <;> simp [hx]
  rw [herase]
  exact List.perm_cons_erase h

namespace Tidy

variable (hs : Tidy s)
include hs

theorem nodup : (s.jobs.map (·.id)).Nodup := hs.sorted.imp Nat.ne_of_lt

theorem idsOf_nodup (p : JobStatus α → Bool) : (idsOf s.jobs p).Nodup :=
  hs.nodup.sublist (idsOf_sublist s.jobs p)

/-- A job is found under its id and no other. -/
theorem find?_eq_some_iff : s.find? id = some job ↔ job ∈ s.jobs ∧ job.id = id := by
  constructor
  · exact fun h => ⟨List.mem_of_find?_eq_some h, find?_id h⟩
  · rintro ⟨hjob, rfl⟩
    have hnodup := hs.nodup
    unfold find?
    generalize s.jobs = jobs at hjob hnodup
    induction jobs with
    | nil => cases hjob
    | cons first rest ih =>
      obtain ⟨hfirst, hrest⟩ := List.nodup_cons.mp hnodup
      rcases List.mem_cons.mp hjob with rfl | hjob
      · simp
      · have hne : first.id ≠ job.id := fun h => hfirst (List.mem_map.mpr ⟨job, hjob, h.symm⟩)
        rw [List.find?_cons_of_neg (by simpa using hne)]
        exact ih hjob hrest

theorem mem_idsOf_iff {p : JobStatus α → Bool} :
    id ∈ idsOf s.jobs p ↔ ∃ job, s.find? id = some job ∧ p job.status = true := by
  rw [mem_idsOf]
  constructor
  · rintro ⟨job, hjob, hid, hp⟩
    exact ⟨job, hs.find?_eq_some_iff.mpr ⟨hjob, hid⟩, hp⟩
  · rintro ⟨job, hjob, hp⟩
    obtain ⟨hmem, hid⟩ := hs.find?_eq_some_iff.mp hjob
    exact ⟨job, hmem, hid, hp⟩

theorem not_mem_idsOf {p : JobStatus α → Bool} (known : s.find? id = some job)
    (hp : p job.status = false) : id ∉ idsOf s.jobs p := by
  rw [hs.mem_idsOf_iff]
  rintro ⟨j, hj, hpj⟩
  rw [known, Option.some.injEq] at hj
  rw [← hj, hp] at hpj
  cases hpj

theorem lt_nextId (known : s.find? id = some job) : id < s.nextId := by
  obtain ⟨hmem, hid⟩ := hs.find?_eq_some_iff.mp known
  exact hs.below id (List.mem_map.mpr ⟨job, hmem, hid⟩)

/-- A job that a worker runs is running. -/
theorem find?_of_worker (worker : s.crew[i]? = some (.running id)) :
    ∃ job, s.find? id = some job ∧ job.status = .running := by
  have hmem : id ∈ s.crew.filterMap Worker.job? :=
    List.mem_filterMap.mpr ⟨.running id, List.mem_of_getElem? worker, rfl⟩
  obtain ⟨job, hjob, hrunning⟩ := hs.mem_idsOf_iff.mp (hs.crew_perm.mem_iff.mp hmem)
  exact ⟨job, hjob, JobStatus.isRunning_iff.mp hrunning⟩

theorem exists_worker (known : s.find? id = some job) (running : job.status = .running) :
    ∃ i : Nat, s.crew[i]? = some (.running id) := by
  have hmem : id ∈ idsOf s.jobs JobStatus.isRunning :=
    hs.mem_idsOf_iff.mpr ⟨job, known, JobStatus.isRunning_iff.mpr running⟩
  obtain ⟨w, hw, hjob⟩ := List.mem_filterMap.mp (hs.crew_perm.mem_iff.mpr hmem)
  obtain ⟨i, hi⟩ := List.getElem?_of_mem hw
  cases w with
  | running x =>
    cases hjob
    exact ⟨i, hi⟩
  | idle | resting | gone => cases hjob

theorem exists_idle (h : s.queue ≠ []) : ∃ i : Nat, s.crew[i]? = some .idle := by
  have hpos : 0 < s.crew.count .idle := by
    have hlength := List.length_pos_iff.mpr h
    have hle := hs.queue_le
    rw [hs.idle_eq] at hle
    omega
  exact List.getElem?_of_mem (List.count_pos_iff.mp hpos)

/-- All queued numbers are of known jobs. -/
theorem dropWhile_queue : s.queue.dropWhile s.isStray = s.queue := by
  cases hqueue : s.queue with
  | nil => rfl
  | cons id rest =>
    have hmem : id ∈ idsOf s.jobs JobStatus.isQueued := by
      rw [← hs.queue_eq, hqueue]
      exact List.mem_cons_self
    obtain ⟨job, hjob, -⟩ := hs.mem_idsOf_iff.mp hmem
    rw [List.dropWhile_cons_of_neg]
    simp [isStray, hjob]

/-- The first job in the queue is queued. -/
theorem find?_of_queue {rest : List Nat} (hqueue : s.queue = id :: rest) :
    ∃ job, s.find? id = some job ∧ job.status = .queued := by
  have hmem : id ∈ idsOf s.jobs JobStatus.isQueued := by
    rw [← hs.queue_eq, hqueue]
    exact List.mem_cons_self
  obtain ⟨job, hjob, hqueued⟩ := hs.mem_idsOf_iff.mp hmem
  exact ⟨job, hjob, JobStatus.isQueued_iff.mp hqueued⟩

/-- What changes the workers or whether they may leave, but no job, keeps what holds of jobs. -/
theorem with_crew {crew : List Worker} {idle : Nat} (stopping : Bool) (stats : JobStats)
    (hjobs : (crew.filterMap Worker.job?).Perm (s.crew.filterMap Worker.job?))
    (hidle : idle = crew.count .idle) (hle : s.queue.length ≤ idle) :
    Tidy { s with crew, idle, stopping, stats } where
  sorted := hs.sorted
  below := hs.below
  queue_eq := hs.queue_eq
  unreleased := hs.unreleased
  crew_perm := hjobs.trans hs.crew_perm
  idle_eq := hidle
  queue_le := hle

theorem enqueue (name : Text) :
    (s.enqueue name).jobs.map (·.id) = s.jobs.map (·.id) ++ [s.nextId] ∧
    (s.enqueue name).queue = idsOf (s.enqueue name).jobs JobStatus.isQueued ∧
    idsOf (s.enqueue name).jobs JobStatus.isRunning = idsOf s.jobs JobStatus.isRunning := by
  refine ⟨?_, ?_, ?_⟩
  · exact List.map_append
  · show s.queue ++ [s.nextId] = idsOf (s.jobs ++ [{ id := s.nextId, name }]) _
    rw [idsOf_append, hs.queue_eq]
    rfl
  · show idsOf (s.jobs ++ [{ id := s.nextId, name }]) _ = _
    rw [idsOf_append]
    exact List.append_nil _

/-- A job that finds too few idle workers brings one of its own. -/
theorem submit (name : Text) : Tidy (s.submit name).2 := by
  obtain ⟨hids, hqueue, hrunning⟩ := hs.enqueue name
  have hsorted : ((s.enqueue name).jobs.map (·.id)).Pairwise (· < ·) := by
    rw [hids]
    refine List.pairwise_append.mpr ⟨hs.sorted, List.pairwise_singleton _ _, fun x hx y hy => ?_⟩
    rw [List.mem_singleton.mp hy]
    exact hs.below x hx
  have hbelow : ∀ x ∈ (s.enqueue name).jobs.map (·.id), x < s.nextId + 1 := by
    intro x hx
    rw [hids] at hx
    rcases List.mem_append.mp hx with hx | hx
    · exact Nat.lt_succ_of_lt (hs.below x hx)
    · rw [List.mem_singleton.mp hx]
      exact Nat.lt_succ_self _
  have hunreleased : ∀ job ∈ (s.enqueue name).jobs, job.status.isSettled = true →
      job.released = false := by
    intro job hjob hsettled
    rcases List.mem_append.mp hjob with hjob | hjob
    · exact hs.unreleased job hjob hsettled
    · rw [List.mem_singleton.mp hjob]
  have hperm : (s.crew.filterMap Worker.job?).Perm
      (idsOf (s.enqueue name).jobs JobStatus.isRunning) := hrunning ▸ hs.crew_perm
  have hlength : (s.enqueue name).queue.length = s.queue.length + 1 := List.length_append
  have hle := hs.queue_le
  unfold Scheduler.submit
  dsimp only
  split
  next hfew =>
    refine ⟨hsorted, hbelow, hqueue, hunreleased, ?_, ?_, ?_⟩
    · rw [hire, List.filterMap_append]
      exact (List.append_nil _).symm ▸ hperm
    · show s.idle + 1 = (s.crew ++ [Worker.idle]).count .idle
      rw [List.count_append, hs.idle_eq]
      rfl
    · show (s.enqueue name).queue.length ≤ s.idle + 1
      omega
  next hfew => exact ⟨hsorted, hbelow, hqueue, hunreleased, hperm, hs.idle_eq, Nat.not_lt.mp hfew⟩

/-- The first job of the queue runs, in addition to those that run already. -/
theorem running_assign {rest : List Nat} (hqueue : s.queue = id :: rest) :
    (idsOf ({ s with queue := rest }.assign i id).jobs JobStatus.isRunning).Perm
      (id :: idsOf s.jobs JobStatus.isRunning) := by
  obtain ⟨job, hjob, hqueued⟩ := hs.find?_of_queue hqueue
  obtain ⟨hmem, hid⟩ := hs.find?_eq_some_iff.mp hjob
  refine idsOf_map_joins (fun _ => rfl) ?_ hs.nodup (List.mem_map.mpr ⟨job, hmem, hid⟩)
  intro j hj hjid
  have hfound := hs.find?_eq_some_iff.mpr ⟨hj, hjid⟩
  rw [hjob, Option.some.injEq] at hfound
  rw [← hfound, hqueued]
  exact ⟨rfl, rfl⟩

/-- The job that finishes was one of those that run. -/
theorem running_finish (worker : s.crew[i]? = some (.running id)) (outcome : Except Error α) :
    (id :: idsOf (s.finish i id outcome).jobs JobStatus.isRunning).Perm
      (idsOf s.jobs JobStatus.isRunning) := by
  obtain ⟨job, hjob, hrunning⟩ := hs.find?_of_worker worker
  have hrest : idsOf (s.finish i id outcome).jobs JobStatus.isRunning = _ := idsOf_settle rfl
  rw [hrest]
  exact (perm_cons_filter (hs.idsOf_nodup JobStatus.isRunning)
    (hs.mem_idsOf_iff.mpr ⟨job, hjob, JobStatus.isRunning_iff.mpr hrunning⟩)).symm

theorem assign {rest : List Nat} (worker : s.crew[i]? = some .idle)
    (hqueue : s.queue = id :: rest) : Tidy ({ s with queue := rest }.assign i id) := by
  have hid : ∀ job : Job α, ({ job with status := .running } : Job α).id = job.id := fun _ => rfl
  have hwaiting : idsOf s.jobs JobStatus.isQueued = id :: rest := hs.queue_eq ▸ hqueue
  have hnotin : id ∉ rest :=
    (List.nodup_cons.mp (hwaiting ▸ hs.idsOf_nodup JobStatus.isQueued)).1
  have hcount := count_set worker (.running id) .idle
  have hset := jobs_set worker (.running id)
  have hle := hs.queue_le
  have hidle := hs.idle_eq
  rw [hqueue, List.length_cons] at hle
  refine ⟨?_, ?_, ?_, ?_, ?_, ?_, ?_⟩
  · exact (mapJob_ids hid s id).symm ▸ hs.sorted
  · exact (mapJob_ids hid s id).symm ▸ hs.below
  · show rest = idsOf (s.mapJob id fun job => { job with status := .running }).jobs _
    rw [mapJob, idsOf_map_leaves fun _ _ _ => rfl, hwaiting,
      List.filter_cons_of_neg (by simp), filter_ne_of_not_mem hnotin]
  · intro j hj hsettled
    rcases mem_mapJob hj with hold | ⟨old, -, -, rfl⟩
    · exact hs.unreleased j hold hsettled
    · cases hsettled
  · exact (hset.trans (hs.crew_perm.cons id)).trans (hs.running_assign hqueue).symm
  · show s.idle - 1 = (s.crew.set i (.running id)).count .idle
    simp only [List.count_singleton] at hcount
    simp at hcount
    omega
  · show rest.length ≤ s.idle - 1
    omega

/-- A job that was released is forgotten rather than settled. -/
theorem unreleased_settle (id : Nat) (outcome : Except Error α) :
    ∀ job ∈ (s.settle id outcome).jobs, job.status.isSettled = true → job.released = false := by
  intro job hjob hsettled
  unfold settle at hjob
  split at hjob
  next => exact hs.unreleased job (mem_of_forget hjob) hsettled
  next hreleased =>
    rcases mem_mapJob hjob with hold | ⟨old, hold, hid, rfl⟩
    · exact hs.unreleased job hold hsettled
    · rw [hs.find?_eq_some_iff.mpr ⟨hold, hid⟩] at hreleased
      simpa using hreleased

theorem finish (worker : s.crew[i]? = some (.running id)) (outcome : Except Error α) :
    Tidy (s.finish i id outcome) := by
  obtain ⟨job, hjob, hrunning⟩ := hs.find?_of_worker worker
  have hqueue : idsOf (s.settle id outcome).jobs JobStatus.isQueued = s.queue := by
    rw [idsOf_settle rfl, hs.queue_eq]
    exact filter_ne_of_not_mem (hs.not_mem_idsOf hjob (by rw [hrunning]; rfl))
  have hset := jobs_set worker .resting
  have hcount := count_set worker .resting .idle
  have hids := settle_ids s id outcome
  obtain ⟨hsameQueue, hsameIdle, hsameCrew, hsameNext⟩ := settle_others s id outcome
  refine ⟨hs.sorted.sublist hids, ?_, ?_, hs.unreleased_settle id outcome, ?_, ?_, ?_⟩
  · intro x hx
    exact hsameNext ▸ hs.below x (hids.subset hx)
  · exact hsameQueue.trans hqueue.symm
  · show ((s.settle id outcome).crew.set i .resting |>.filterMap Worker.job?).Perm _
    rw [hsameCrew]
    exact List.Perm.cons_inv ((hset.trans hs.crew_perm).trans (hs.running_finish worker outcome).symm)
  · show (s.settle id outcome).idle = ((s.settle id outcome).crew.set i .resting).count .idle
    rw [hsameIdle, hsameCrew, hs.idle_eq]
    simpa using hcount.symm
  · show (s.settle id outcome).queue.length ≤ (s.settle id outcome).idle
    rw [hsameQueue, hsameIdle]
    exact hs.queue_le

theorem rest (worker : s.crew[i]? = some .resting) : Tidy (s.rest i) := by
  have hcount := count_set worker .idle .idle
  refine hs.with_crew s.stopping s.stats (jobs_set worker .idle) ?_
    (Nat.le_succ_of_le hs.queue_le)
  show s.idle + 1 = (s.crew.set i .idle).count .idle
  rw [hs.idle_eq]
  simpa using hcount.symm

theorem leave (worker : s.crew[i]? = some .idle) (empty : s.queue = []) : Tidy (s.leave i) := by
  have hcount := count_set worker .gone .idle
  refine hs.with_crew s.stopping s.stats (jobs_set worker .gone) ?_ ?_
  · show s.idle - 1 = (s.crew.set i .gone).count .idle
    rw [hs.idle_eq]
    simp at hcount
    omega
  · rw [empty]
    exact Nat.zero_le _

theorem stop : Tidy s.stop := hs.with_crew true s.stats .rfl hs.idle_eq hs.queue_le

/-- A settled job that is forgotten leaves the others as they are. -/
theorem forget (known : s.find? id = some job) (settled : job.status.isSettled = true) :
    Tidy (s.forget id) := by
  have hgone : ∀ p : JobStatus α → Bool, p job.status = false →
      idsOf (s.forget id).jobs p = idsOf s.jobs p := by
    intro p hp
    exact (idsOf_forget s.jobs id p).trans (filter_ne_of_not_mem (hs.not_mem_idsOf known hp))
  obtain ⟨number, outcome, hstatus⟩ := JobStatus.isSettled_iff.mp settled
  rw [hstatus] at hgone
  refine ⟨hs.sorted.sublist (forget_ids s id), ?_, ?_, ?_, ?_, hs.idle_eq, hs.queue_le⟩
  · exact fun x hx => hs.below x ((forget_ids s id).subset hx)
  · exact hs.queue_eq.trans (hgone _ rfl).symm
  · exact fun j hj => hs.unreleased j (mem_of_forget hj)
  · exact (hgone JobStatus.isRunning rfl).symm ▸ hs.crew_perm

theorem abandon (known : s.find? id = some job) (unsettled : job.status.isSettled = false) :
    Tidy (s.mapJob id fun job => { job with released := true }) := by
  have hid : ∀ job : Job α, ({ job with released := true } : Job α).id = job.id := fun _ => rfl
  have hsame : ∀ p : JobStatus α → Bool,
      idsOf (s.mapJob id fun job => { job with released := true }).jobs p = idsOf s.jobs p :=
    fun p => idsOf_map_same hid fun _ _ _ => rfl
  refine ⟨?_, ?_, ?_, ?_, ?_, hs.idle_eq, hs.queue_le⟩
  · exact (mapJob_ids hid s id).symm ▸ hs.sorted
  · exact (mapJob_ids hid s id).symm ▸ hs.below
  · exact hs.queue_eq.trans (hsame _).symm
  · intro j hj hsettled
    rcases mem_mapJob hj with hold | ⟨old, hold, hjid, rfl⟩
    · exact hs.unreleased j hold hsettled
    · have hfound := hs.find?_eq_some_iff.mpr ⟨hold, hjid⟩
      rw [known, Option.some.injEq] at hfound
      rw [hfound] at unsettled
      exact absurd (unsettled.symm.trans hsettled) Bool.false_ne_true
  · exact (hsame JobStatus.isRunning).symm ▸ hs.crew_perm

theorem step (h : Step s move event s') : Tidy s' := by
  cases h with
  | submit name => exact hs.submit name
  | start worker first => exact hs.assign worker (hs.dropWhile_queue ▸ first)
  | startNone worker waits strays => exact absurd (hs.dropWhile_queue ▸ strays) waits
  | finish worker => exact hs.finish worker _
  | rest worker => exact hs.rest worker
  | leave worker stopping empty => exact hs.leave worker empty
  | stop => exact hs.stop
  | take known settled => exact hs.forget known (by rw [settled]; rfl)
  | refuse => exact hs
  | drop known settled => exact hs.forget known settled
  | abandon known unsettled => exact hs.abandon known unsettled
  | ignore => exact hs

end Tidy

theorem tidy_withCrew (count : Nat) : Tidy (withCrew count : Scheduler α) where
  sorted := List.Pairwise.nil
  below := by simp [withCrew]
  queue_eq := rfl
  unreleased := by simp [withCrew]
  crew_perm := by
    rw [withCrew, List.filterMap_replicate_of_none rfl]
    exact .nil
  idle_eq := by simp [withCrew]
  queue_le := Nat.zero_le _

end Scheduler
end EntityMachines
