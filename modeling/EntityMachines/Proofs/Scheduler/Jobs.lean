import Mathlib.Data.List.Basic
import EntityMachines.Async.Scheduler

/-!
The table of the jobs of a scheduler, and what a change of one job does to the ids of those in some
standing.
-/
namespace EntityMachines

/-- The ids of the jobs in some standing, in the order of the table. -/
def idsOf {α : Type} (jobs : List (Job α)) (p : JobStatus α → Bool) : List Nat :=
  (jobs.filter fun job => p job.status).map (·.id)

section Table

variable {α : Type} {jobs : List (Job α)} {p : JobStatus α → Bool} {f : Job α → Job α} {id : Nat}

theorem mem_idsOf {x : Nat} : x ∈ idsOf jobs p ↔ ∃ job ∈ jobs, job.id = x ∧ p job.status = true := by
  simp only [idsOf, List.mem_map, List.mem_filter]
  constructor
  · rintro ⟨job, ⟨hjob, hp⟩, hid⟩
    exact ⟨job, hjob, hid, hp⟩
  · rintro ⟨job, hjob, hid, hp⟩
    exact ⟨job, ⟨hjob, hp⟩, hid⟩

theorem idsOf_cons (job : Job α) (jobs : List (Job α)) (p : JobStatus α → Bool) :
    idsOf (job :: jobs) p = if p job.status = true then job.id :: idsOf jobs p else idsOf jobs p := by
  unfold idsOf
  rw [List.filter_cons]
  split <;> rfl

theorem idsOf_append (jobs more : List (Job α)) (p : JobStatus α → Bool) :
    idsOf (jobs ++ more) p = idsOf jobs p ++ idsOf more p := by
  simp [idsOf]

theorem idsOf_sublist (jobs : List (Job α)) (p : JobStatus α → Bool) :
    (idsOf jobs p).Sublist (jobs.map (·.id)) :=
  List.filter_sublist.map _

/-- Forgetting a job takes its id out of every list. -/
theorem idsOf_forget (jobs : List (Job α)) (id : Nat) (p : JobStatus α → Bool) :
    idsOf (jobs.filter fun job => job.id ≠ id) p = (idsOf jobs p).filter fun x => x ≠ id := by
  simp only [idsOf, List.filter_map, List.filter_filter]
  congr 1
  refine List.filter_congr fun job _ => ?_
  simp [Bool.and_comm]

/-- A job that changes within a standing, or outside of it, does not change the list. -/
theorem idsOf_map_same (hid : ∀ job, (f job).id = job.id)
    (hp : ∀ job ∈ jobs, job.id = id → p (f job).status = p job.status) :
    idsOf (jobs.map fun job => if job.id = id then f job else job) p = idsOf jobs p := by
  induction jobs with
  | nil => rfl
  | cons job rest ih =>
    rw [List.map_cons, idsOf_cons, idsOf_cons, ih fun j hj => hp j (List.mem_cons_of_mem _ hj)]
    by_cases hjob : job.id = id
    · simp only [if_pos hjob, hp job List.mem_cons_self hjob, hid job]
    · simp only [if_neg hjob]

/-- A job that changes to another standing leaves the list. -/
theorem idsOf_map_leaves (hp : ∀ job ∈ jobs, job.id = id → p (f job).status = false) :
    idsOf (jobs.map fun job => if job.id = id then f job else job) p
      = (idsOf jobs p).filter fun x => x ≠ id := by
  induction jobs with
  | nil => rfl
  | cons job rest ih =>
    rw [List.map_cons, idsOf_cons, idsOf_cons, ih fun j hj => hp j (List.mem_cons_of_mem _ hj)]
    by_cases hjob : job.id = id
    · rw [if_pos hjob, hp job List.mem_cons_self hjob, if_neg Bool.false_ne_true]
      split <;> simp [hjob]
    · rw [if_neg hjob]
      split <;> simp [hjob]

theorem filter_ne_of_not_mem {l : List Nat} (h : id ∉ l) : (l.filter fun x => x ≠ id) = l :=
  List.filter_eq_self.mpr fun _ hx => decide_eq_true (ne_of_mem_of_not_mem hx h)

/-- A job that changes to a standing comes into its list. -/
theorem idsOf_map_joins (hid : ∀ job, (f job).id = job.id)
    (hp : ∀ job ∈ jobs, job.id = id → p job.status = false ∧ p (f job).status = true)
    (hnodup : (jobs.map (·.id)).Nodup) (hmem : id ∈ jobs.map (·.id)) :
    (idsOf (jobs.map fun job => if job.id = id then f job else job) p).Perm
      (id :: idsOf jobs p) := by
  induction jobs with
  | nil => cases hmem
  | cons job rest ih =>
    obtain ⟨hfirst, hrest⟩ := List.nodup_cons.mp hnodup
    have hpRest : ∀ j ∈ rest, j.id = id → p j.status = false ∧ p (f j).status = true :=
      fun j hj => hp j (List.mem_cons_of_mem _ hj)
    rw [List.map_cons, idsOf_cons, idsOf_cons]
    by_cases hjob : job.id = id
    · obtain ⟨hbefore, hafter⟩ := hp job List.mem_cons_self hjob
      have hothers : idsOf (rest.map fun j => if j.id = id then f j else j) p = idsOf rest p := by
        refine idsOf_map_same hid fun j hj hjid => ?_
        exact absurd (List.mem_map.mpr ⟨j, hj, hjid.trans hjob.symm⟩) hfirst
      rw [if_pos hjob, if_pos hafter, hbefore, hid, hjob, hothers]
      exact .rfl
    · have hperm := ih hpRest hrest ((List.mem_cons.mp hmem).resolve_left (Ne.symm hjob))
      rw [if_neg hjob]
      split
      next => exact (hperm.cons _).trans (.swap _ _ _)
      next => exact hperm

end Table

namespace JobStatus

variable {α : Type} {status : JobStatus α}

theorem isQueued_iff : status.isQueued = true ↔ status = .queued := by
  cases status <;> simp [isQueued]

theorem isRunning_iff : status.isRunning = true ↔ status = .running := by
  cases status <;> simp [isRunning]

theorem isSettled_iff :
    status.isSettled = true ↔ ∃ number outcome, status = .settled number outcome := by
  cases status <;> simp [isSettled]

theorem phase_eq_queued (h : status.phase = .queued) : status = .queued := by
  match status with
  | queued => rfl
  | settled _ (.ok _) | settled _ (.error _) => cases h

theorem phase_eq_running (h : status.phase = .running) : status = .running := by
  match status with
  | running => rfl
  | settled _ (.ok _) | settled _ (.error _) => cases h

end JobStatus

section Crew

variable {crew : List Worker} {i : Nat} {w : Worker}

/-- The job that a worker runs. -/
def Worker.job? : Worker → Option Nat
  | running id => some id
  | _ => none

/-- A worker among the others. -/
theorem exists_among (h : crew[i]? = some w) :
    ∃ before after, crew = before ++ w :: after ∧ ∀ v, crew.set i v = before ++ v :: after := by
  obtain ⟨hi, rfl⟩ := List.getElem?_eq_some_iff.mp h
  refine ⟨crew.take i, crew.drop (i + 1), ?_, fun v => ?_⟩
  · rw [List.getElem_cons_drop, List.take_append_drop]
  · exact List.set_eq_take_append_cons_drop.trans (if_pos hi)

/-- When a worker turns to something else, so do the jobs that are run. -/
theorem jobs_set (h : crew[i]? = some w) (v : Worker) :
    (w.job?.toList ++ (crew.set i v).filterMap Worker.job?).Perm
      (v.job?.toList ++ crew.filterMap Worker.job?) := by
  obtain ⟨before, after, hcrew, hset⟩ := exists_among h
  rw [hset, hcrew, List.filterMap_append, List.filterMap_append]
  have hcons (u : Worker) :
      (u :: after).filterMap Worker.job? = u.job?.toList ++ after.filterMap Worker.job? := by
    rw [List.filterMap_cons]
    cases u.job? <;> rfl
  rw [hcons, hcons]
  refine ((List.perm_append_comm_assoc _ _ _).append_left _).trans
    (List.Perm.trans ?_ (((List.perm_append_comm_assoc _ _ _).append_left _).symm))
  exact List.perm_append_comm_assoc _ _ _

theorem count_set (h : crew[i]? = some w) (v u : Worker) :
    (crew.set i v).count u + [w].count u = crew.count u + [v].count u := by
  obtain ⟨before, after, hcrew, hset⟩ := exists_among h
  rw [hset, hcrew]
  simp only [List.count_append, List.count_cons, List.count_nil]
  omega

end Crew

namespace Scheduler

variable {α : Type} {s : Scheduler α} {id : Nat}

theorem find?_id {x : Nat} {job : Job α} (h : s.find? x = some job) : job.id = x := by
  simpa using List.find?_some h

theorem find?_mapJob {f : Job α → Job α} (hid : ∀ job, (f job).id = job.id) (s : Scheduler α)
    (id x : Nat) :
    (s.mapJob id f).find? x = if x = id then (s.find? x).map f else s.find? x := by
  have hsame : (fun job : Job α => decide (job.id = x)) ∘
      (fun job => if job.id = id then f job else job) = fun job => decide (job.id = x) := by
    funext job
    simp only [Function.comp_apply]
    split <;> simp [hid]
  have hfind : (s.mapJob id f).find? x
      = (s.find? x).map fun job => if job.id = id then f job else job := by
    unfold find? mapJob
    rw [List.find?_map, hsame]
  rw [hfind]
  cases hjob : s.find? x with
  | none => simp
  | some job =>
    simp only [Option.map_some, find?_id hjob]
    split <;> rfl

theorem find?_forget (s : Scheduler α) (id x : Nat) :
    (s.forget id).find? x = if x = id then none else s.find? x := by
  unfold find? forget
  rw [List.find?_filter]
  split
  next h =>
    subst h
    exact List.find?_eq_none.mpr fun job _ => by simp
  next h =>
    congr 1
    funext job
    by_cases hjob : job.id = x <;> simp [hjob, h]

theorem find?_enqueue (s : Scheduler α) (name : Text) (x : Nat) :
    (s.enqueue name).find? x
      = (s.find? x).or (if s.nextId = x then some { id := s.nextId, name } else none) := by
  unfold find? enqueue
  rw [List.find?_append]
  congr 1
  by_cases h : s.nextId = x <;> simp [h]

end Scheduler
end EntityMachines
