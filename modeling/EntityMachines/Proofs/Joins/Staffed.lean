import EntityMachines.Proofs.Joins.Steps

/-!
Joins never wait for each other for want of a worker. No more jobs wait than workers are idle, so
every queued job can start at once; and a job that is blocked by a join waits for younger jobs only,
so there are no circles of jobs that wait for each other.
-/
namespace EntityMachines

namespace Scheduler

variable {α : Type} {s : Scheduler α} {i id x : Nat} {rest : List Nat}

def isInFlight (s : Scheduler α) (id : Nat) : Prop := s.phase id = .queued ∨ s.phase id = .running

theorem phase_of_find? {job : Job α} (h : s.find? id = some job) :
    s.phase id = job.status.phase := by
  unfold phase
  rw [h]

theorem inFlight_of_unsettled (h : s.isSettled id = false) : s.isInFlight id := by
  unfold isSettled at h
  split at h
  next => cases h
  next job hjob =>
    unfold isInFlight
    rw [phase_of_find? hjob]
    cases hstatus : job.status with
    | queued => exact .inl rfl
    | running => exact .inr rfl
    | settled number outcome =>
      rw [hstatus] at h
      cases h

theorem Tidy.mem_queue (hs : Tidy s) (h : s.phase id = .queued) : id ∈ s.queue := by
  unfold phase at h
  split at h
  next job hjob =>
    rw [hs.queue_eq, hs.mem_idsOf_iff]
    exact ⟨job, hjob, JobStatus.isQueued_iff.mpr (JobStatus.phase_eq_queued h)⟩
  next => cases h

theorem Tidy.running_worker (hs : Tidy s) (h : s.phase id = .running) :
    ∃ i : Nat, s.crew[i]? = some (.running id) := by
  unfold phase at h
  split at h
  next job hjob => exact hs.exists_worker hjob (JobStatus.phase_eq_running h)
  next => cases h

/-- The first job of the queue comes to run, and those that run go on. -/
theorem Tidy.phase_assign (hs : Tidy s) (hqueue : s.queue = id :: rest)
    (h : x = id ∨ s.phase x = .running) :
    ({ s with queue := rest }.assign i id).phase x = .running := by
  obtain ⟨job, hjob, -⟩ := hs.find?_of_queue hqueue
  have hfind : ({ s with queue := rest }.assign i id).find? x = _ :=
    find?_mapJob (f := fun job => { job with status := .running }) (fun _ => rfl)
      { s with queue := rest } id x
  by_cases hx : x = id
  · subst hx
    rw [if_pos rfl, show ({ s with queue := rest } : Scheduler α).find? x = some job from hjob]
      at hfind
    exact phase_of_find? hfind
  · rw [if_neg hx] at hfind
    have hrunning := h.resolve_left hx
    unfold phase at hrunning ⊢
    rw [hfind]
    exact hrunning

end Scheduler

namespace Joins

/-- A job that has not settled gets on: it can be made to run, it can come to its end, its join can
go on, or the join waits for jobs that all get on. -/
inductive GetsOn (c : Joins) : Nat → Prop
  | starts {id : Nat} {workers : List Nat} {c' : Joins}
      (queued : c.chronicle.scheduler.phase id = .queued)
      (run : c.run (workers.map fun i => .pool (.start i)) = some c')
      (running : c'.chronicle.scheduler.phase id = .running) : GetsOn c id
  | finishes {id i : Nat} (worker : c.chronicle.scheduler.crew[i]? = some (.running id))
      (step : ∀ outcome, ∃ c', c.step (.pool (.finish i outcome)) = some c') : GetsOn c id
  | goes {id k : Nat} {j : Join} {c' : Joins} (known : c.joins[k]? = some j)
      (caller : j.caller = some id) (step : c.step (.go k) = some c') : GetsOn c id
  | waits {id k : Nat} {j : Join} {pending : List Nat} (known : c.joins[k]? = some j)
      (caller : j.caller = some id) (stage : j.stage = .waiting pending)
      (inner : ∀ x ∈ pending, GetsOn c x) : GetsOn c id

/-- No job waits for want of a worker, and no jobs wait for each other for ever. -/
structure Staffed (c : Joins) : Prop where
  queue_le : c.chronicle.scheduler.queue.length ≤ c.chronicle.scheduler.idle
  idle_eq : c.chronicle.scheduler.idle = c.chronicle.scheduler.crew.count .idle
  /-- All queued jobs can start before anything else happens. -/
  starts : ∃ (workers : List Nat) (c' : Joins), c.run (workers.map fun i => .pool (.start i)) = some c' ∧
    ∀ id ∈ c.chronicle.scheduler.queue, c'.chronicle.scheduler.phase id = .running
  jobs_get_on : ∀ id, c.chronicle.scheduler.isInFlight id → c.GetsOn id
  joins_get_on : ∀ (k : Nat) (j : Join), c.joins[k]? = some j → j.isOpen = true →
    (∃ c', c.step (.go k) = some c') ∨ ∃ pending, j.stage = .waiting pending ∧
      ∀ id ∈ pending, c.chronicle.scheduler.isInFlight id ∧ c.GetsOn id

variable {c : Joins} {k i id : Nat} {j : Join} {rest : List Nat}

/-- A job that no join blocks can come to its end. -/
theorem exists_finish (worker : c.chronicle.scheduler.crew[i]? = some (.running id))
    (hfree : c.isBlocked id = false) (outcome : Except Error Value) :
    ∃ c', c.step (.pool (.finish i outcome)) = some c' := by
  simp [step, holdsUp, worker, hfree, Chronicle.step, Scheduler.step]

namespace Nested

theorem start_first (hc : Nested c) (hqueue : c.chronicle.scheduler.queue = id :: rest) :
    ∃ i c', c.step (.pool (.start i)) = some c' ∧ c'.chronicle.scheduler.queue = rest ∧
      ∀ x, x = id ∨ c.chronicle.scheduler.phase x = .running →
        c'.chronicle.scheduler.phase x = .running := by
  have hwaits : c.chronicle.scheduler.queue ≠ [] := by
    rw [hqueue]
    exact List.cons_ne_nil _ _
  obtain ⟨i, hi⟩ := hc.sound.tidy.exists_idle hwaits
  have hstart := Scheduler.start_of_dropWhile (i := i)
    (hc.sound.tidy.dropWhile_queue.trans hqueue)
  have hstep : c.chronicle.scheduler.step (.start i)
      = some ({ c.chronicle.scheduler with queue := rest }.assign i id, some (.started id)) := by
    refine (if_pos ⟨hi, hwaits⟩).trans ?_
    rw [hstart]
    rfl
  have hmove : c.chronicle.step (.start i) = some
      ⟨{ c.chronicle.scheduler with queue := rest }.assign i id,
        c.chronicle.events ++ [.started id]⟩ := by
    unfold Chronicle.step
    rw [hstep]
    rfl
  exact ⟨i, _, congrArg (Option.map _) hmove, rfl, fun x => hc.sound.tidy.phase_assign hqueue⟩

/-- All queued jobs can start, one after the other. -/
theorem start_all (hc : Nested c) : ∃ (workers : List Nat) (c' : Joins),
    c.run (workers.map fun i => .pool (.start i)) = some c' ∧
    ∀ x, x ∈ c.chronicle.scheduler.queue ∨ c.chronicle.scheduler.phase x = .running →
      c'.chronicle.scheduler.phase x = .running := by
  generalize hqueue : c.chronicle.scheduler.queue = queue
  induction queue generalizing c with
  | nil => exact ⟨[], c, rfl, fun x hx => hx.resolve_left List.not_mem_nil⟩
  | cons id rest ih =>
    obtain ⟨i, next, hstep, hrest, hruns⟩ := hc.start_first hqueue
    obtain ⟨workers, c', hrun, hall⟩ := ih (hc.step (step_of_eq hstep)) hrest
    refine ⟨i :: workers, c', ?_, ?_⟩
    · rw [List.map_cons, run_cons, hstep]
      exact hrun
    · rintro x (hx | hx)
      · rcases List.mem_cons.mp hx with rfl | hx
        · exact hall x (.inr (hruns x (.inl rfl)))
        · exact hall x (.inl hx)
      · exact hall x (.inr (hruns x (.inr hx)))

/-- A join that cannot go on waits for jobs none of which has settled, and all of which are younger
than the job that runs it. -/
theorem go_or_waits (hc : Nested c) (known : c.joins[k]? = some j) (hopen : j.isOpen = true) :
    (∃ c', c.step (.go k) = some c') ∨ ∃ pending, j.stage = .waiting pending ∧
      ∀ x ∈ pending, c.chronicle.scheduler.isInFlight x ∧ x < c.chronicle.scheduler.nextId ∧
        ∀ id, j.caller = some id → id < x := by
  have hj := hc.placed j (List.mem_of_getElem? known)
  by_cases hwaits : ∀ pending, j.stage = .waiting pending →
      c.chronicle.scheduler.firstSettled? pending ≠ none
  · obtain ⟨chronicle, j', hgo⟩ := Join.exists_go hopen hwaits
    exact .inl ⟨_, step_go_eq known hgo⟩
  · simp only [not_forall, not_not] at hwaits
    obtain ⟨pending, hstage, hnone⟩ := hwaits
    refine .inr ⟨pending, hstage, fun x hx => ?_⟩
    have hunsettled := Scheduler.firstSettled?_eq_none.mp hnone x hx
    have hid : x ∈ j.ids := hj.held_sub x (by simpa [Join.held, hstage, Stage.held] using hx)
    exact ⟨Scheduler.inFlight_of_unsettled hunsettled, (hj.known x hid).2,
      fun id hcaller => hj.inner id hcaller x hid⟩

/-- By the younger jobs that a job waits for, of which there are fewer and fewer. -/
theorem getsOn (hc : Nested c) (h : c.chronicle.scheduler.isInFlight id) : c.GetsOn id := by
  generalize hleft : c.chronicle.scheduler.nextId - id = left
  induction left using Nat.strongRecOn generalizing id with
  | ind left ih =>
  subst hleft
  rcases h with hqueued | hrunning
  · obtain ⟨workers, c', hrun, hall⟩ := hc.start_all
    exact .starts hqueued hrun (hall id (.inl (hc.sound.tidy.mem_queue hqueued)))
  · obtain ⟨i, worker⟩ := hc.sound.tidy.running_worker hrunning
    cases hblocked : c.isBlocked id with
    | false => exact .finishes worker (exists_finish worker hblocked)
    | true =>
      obtain ⟨j, hj, hjoin⟩ := List.any_eq_true.mp hblocked
      obtain ⟨hcaller, hopen⟩ := Bool.and_eq_true_iff.mp hjoin
      have hcaller := of_decide_eq_true hcaller
      obtain ⟨k, known⟩ := List.getElem?_of_mem hj
      rcases hc.go_or_waits known hopen with ⟨c', hstep⟩ | ⟨pending, hstage, hpending⟩
      · exact .goes known hcaller hstep
      · refine .waits known hcaller hstage fun x hx => ?_
        obtain ⟨hflight, hknown, hyounger⟩ := hpending x hx
        have hlt := hyounger id hcaller
        exact ih (c.chronicle.scheduler.nextId - x) (by omega) hflight rfl

theorem staffed (hc : Nested c) : Staffed c where
  queue_le := hc.sound.tidy.queue_le
  idle_eq := hc.sound.tidy.idle_eq
  starts := by
    obtain ⟨workers, c', hrun, hall⟩ := hc.start_all
    exact ⟨workers, c', hrun, fun id hid => hall id (.inl hid)⟩
  jobs_get_on id := hc.getsOn
  joins_get_on k j known hopen := by
    refine (hc.go_or_waits known hopen).imp_right ?_
    rintro ⟨pending, hstage, hpending⟩
    exact ⟨pending, hstage, fun x hx => ⟨(hpending x hx).1, hc.getsOn (hpending x hx).1⟩⟩

end Nested

/-- However jobs are submitted and come to their ends, whatever is taken or released, and whatever
joins the jobs run themselves, no job wants for a worker. -/
theorem staffed_of_run {count : Nat} {moves : List JoinMove} {c : Joins}
    (h : (start count).run moves = some c) : Staffed c :=
  (run_keeps Nested.step (Nested.start count) h).staffed

/-- The first of two jobs runs a race between two others, while there was one worker at first and
the scheduler stops. -/
def raceInside : List JoinMove :=
  [.join none (.all 2), .go 0, .pool (.start 0), .go 0, .join (some 1) (.race 2), .go 1, .go 1,
    .pool (.start 1), .pool .stop]

theorem staffed_raceInside : ∃ c, (start 1).run raceInside = some c ∧ c.isBlocked 1 = true ∧
    c.chronicle.scheduler.queue = [3, 4] ∧ Staffed c := by
  have hdone : ((start 1).run raceInside).isSome = true := rfl
  have hrun := (Option.some_get hdone).symm
  exact ⟨_, hrun, rfl, rfl, staffed_of_run hrun⟩

end Joins
end EntityMachines
