import EntityMachines.Proofs.Scheduler.Steps

/-!
The life of a single job, whatever happens to other jobs in between. A job is queued, runs and
settles; then its outcome is taken, or the job is dropped. One that was abandoned before it settled
still runs to its end, but leaves no outcome behind.
-/
namespace EntityMachines

variable {α : Type}

namespace JobEvent

/-- The job that an event is about. -/
def id : JobEvent α → Nat
  | submitted id | started id | finished id _ _ | taken id _ | released id => id

def submitted? : JobEvent α → Option Nat
  | submitted id => some id
  | _ => none

def started? : JobEvent α → Option Nat
  | started id => some id
  | _ => none

/-- The job that finished, with its number in the order of finishing and its outcome. -/
def finished? : JobEvent α → Option (Nat × Nat × Except Error α)
  | finished id number outcome => some (id, number, outcome)
  | _ => none

end JobEvent

/-- What becomes of a job that is forgotten. -/
inductive JobFate where
  | taken
  /-- It was released after it had settled. -/
  | dropped
  /-- It was released before it settled. -/
  | abandoned
deriving DecidableEq

/-- How far a job has come. -/
inductive Life (α : Type) where
  | unborn
  | queued (released : Bool)
  | running (released : Bool)
  | settled (number : Nat) (outcome : Except Error α)
  | gone (number : Nat) (outcome : Except Error α) (fate : JobFate)

namespace Life

/-- The phase in which a job ends. -/
def ending : Except Error α → JobPhase
  | .ok _ => .done
  | .error _ => .failed

/-- The phases that a job has passed through. -/
def passed : Life α → List JobPhase
  | unborn => []
  | queued _ => [.queued]
  | running _ => [.queued, .running]
  | settled _ outcome | gone _ outcome _ => [.queued, .running, ending outcome]

/-- The outcome of a job that has finished, with its number. -/
def finish : Life α → List (Nat × Except Error α)
  | settled number outcome | gone number outcome _ => [(number, outcome)]
  | _ => []

/-- The outcome that was handed out. -/
def handedOut : Life α → List (Except Error α)
  | gone _ outcome .taken => [outcome]
  | _ => []

/-- The job was released before it settled. -/
def isAbandoned : Life α → Bool
  | queued released | running released => released
  | gone _ _ fate => fate = .abandoned
  | _ => false

theorem length_finish (life : Life α) : life.finish.length ≤ 1 := by
  cases life <;> simp [finish]

theorem length_handedOut (life : Life α) : life.handedOut.length ≤ 1 := by
  cases life with
  | gone _ _ fate => cases fate <;> simp [handedOut]
  | _ => simp [handedOut]

/-- What a job hands out is the outcome with which it has finished. -/
theorem finish_of_handedOut {life : Life α} {outcome : Except Error α}
    (h : outcome ∈ life.handedOut) : ∃ number, (number, outcome) ∈ life.finish := by
  cases life with
  | gone number o fate =>
    cases fate with
    | taken =>
      cases List.mem_singleton.mp h
      exact ⟨number, List.mem_singleton_self _⟩
    | dropped | abandoned => cases h
  | _ => cases h

/-- What one event means to a job. -/
inductive Step (id : Nat) : Life α → JobEvent α → Life α → Prop
  | elsewhere {life : Life α} {e : JobEvent α} (h : e.id ≠ id) : Step id life e life
  | submitted : Step id .unborn (.submitted id) (.queued false)
  | started {released : Bool} : Step id (.queued released) (.started id) (.running released)
  | finished {number : Nat} {outcome : Except Error α} :
      Step id (.running false) (.finished id number outcome) (.settled number outcome)
  | lost {number : Nat} {outcome : Except Error α} :
      Step id (.running true) (.finished id number outcome) (.gone number outcome .abandoned)
  | taken {number : Nat} {outcome : Except Error α} :
      Step id (.settled number outcome) (.taken id outcome) (.gone number outcome .taken)
  | abandonedQueued {released : Bool} : Step id (.queued released) (.released id) (.queued true)
  | abandonedRunning {released : Bool} :
      Step id (.running released) (.released id) (.running true)
  | dropped {number : Nat} {outcome : Except Error α} :
      Step id (.settled number outcome) (.released id) (.gone number outcome .dropped)

end Life

/-- The events leave a job where it is. -/
inductive Lives (id : Nat) : List (JobEvent α) → Life α → Prop
  | start : Lives id [] .unborn
  | next {events : List (JobEvent α)} {e : JobEvent α} {life life' : Life α}
      (before : Lives id events life) (step : Life.Step id life e life') :
      Lives id (events ++ [e]) life'

/-- The phase that a job comes into with an event. -/
def JobEvent.phase? (id : Nat) : JobEvent α → Option JobPhase
  | submitted x => if x = id then some .queued else none
  | started x => if x = id then some .running else none
  | finished x _ outcome => if x = id then some (Life.ending outcome) else none
  | _ => none

def JobEvent.finishOf? (id : Nat) : JobEvent α → Option (Nat × Except Error α)
  | finished x number outcome => if x = id then some (number, outcome) else none
  | _ => none

def JobEvent.takenOf? (id : Nat) : JobEvent α → Option (Except Error α)
  | taken x outcome => if x = id then some outcome else none
  | _ => none

/-- The job was released before it finished. -/
def Abandoned (id : Nat) (events : List (JobEvent α)) : Prop :=
  ∃ before after, events = before ++ .released id :: after ∧
    before.filterMap (JobEvent.finishOf? id) = []

theorem filterMap_snoc {β γ : Type} (f : β → Option γ) (l : List β) (x : β) :
    (l ++ [x]).filterMap f = l.filterMap f ++ (f x).toList := by
  rw [List.filterMap_append]
  cases h : f x <;> simp [h]

theorem mem_finishOf {id number : Nat} {outcome : Except Error α} {events : List (JobEvent α)} :
    (number, outcome) ∈ events.filterMap (JobEvent.finishOf? id)
      ↔ .finished id number outcome ∈ events := by
  rw [List.mem_filterMap]
  constructor
  · rintro ⟨e, he, hfinish⟩
    cases e with
    | finished x n o =>
      simp only [JobEvent.finishOf?] at hfinish
      split at hfinish
      next hid =>
        cases hfinish
        exact hid ▸ he
      next => cases hfinish
    | _ => cases hfinish
  · exact fun h => ⟨_, h, if_pos rfl⟩

theorem mem_takenOf {id : Nat} {outcome : Except Error α} {events : List (JobEvent α)} :
    outcome ∈ events.filterMap (JobEvent.takenOf? id) ↔ .taken id outcome ∈ events := by
  rw [List.mem_filterMap]
  constructor
  · rintro ⟨e, he, htaken⟩
    cases e with
    | taken x o =>
      simp only [JobEvent.takenOf?] at htaken
      split at htaken
      next hid =>
        cases htaken
        exact hid ▸ he
      next => cases htaken
    | _ => cases htaken
  · exact fun h => ⟨_, h, if_pos rfl⟩

/-- Only the last event of a job can make it abandoned if it was not. -/
theorem abandoned_snoc {id : Nat} {events : List (JobEvent α)} {e : JobEvent α} :
    Abandoned id (events ++ [e]) ↔ Abandoned id events ∨
      e = .released id ∧ events.filterMap (JobEvent.finishOf? id) = [] := by
  constructor
  · rintro ⟨before, after, heq, hnone⟩
    rcases List.eq_nil_or_concat after with rfl | ⟨init, last, rfl⟩
    · obtain ⟨rfl, hlast⟩ := List.append_inj' heq rfl
      exact .inr ⟨List.singleton_inj.mp hlast, hnone⟩
    · rw [List.concat_eq_append, ← List.cons_append, ← List.append_assoc] at heq
      obtain ⟨rfl, -⟩ := List.append_inj' heq rfl
      exact .inl ⟨before, init, rfl, hnone⟩
  · rintro (⟨before, after, rfl, hnone⟩ | ⟨rfl, hnone⟩)
    · exact ⟨before, after ++ [e], by simp, hnone⟩
    · exact ⟨events, [], rfl, hnone⟩

namespace Lives

variable {id : Nat} {events : List (JobEvent α)} {life : Life α}

theorem not_phase {e : JobEvent α} (h : e.id ≠ id) : e.phase? id = none := by
  cases e <;> first | rfl | exact if_neg h

theorem not_finish {e : JobEvent α} (h : e.id ≠ id) : e.finishOf? id = none := by
  cases e <;> first | rfl | exact if_neg h

theorem not_taken {e : JobEvent α} (h : e.id ≠ id) : e.takenOf? id = none := by
  cases e <;> first | rfl | exact if_neg h

/-- A job passes through its phases in order. -/
theorem passed_eq (h : Lives id events life) :
    events.filterMap (JobEvent.phase? id) = life.passed := by
  induction h with
  | start => rfl
  | next before step ih =>
    rw [filterMap_snoc, ih]
    cases step with
    | elsewhere hid => rw [not_phase hid]; exact List.append_nil _
    | submitted | started | finished | lost => simp [JobEvent.phase?, Life.passed]
    | taken | abandonedQueued | abandonedRunning | dropped => rfl

/-- A job finishes at most once. -/
theorem finish_eq (h : Lives id events life) :
    events.filterMap (JobEvent.finishOf? id) = life.finish := by
  induction h with
  | start => rfl
  | next before step ih =>
    rw [filterMap_snoc, ih]
    cases step with
    | elsewhere hid => rw [not_finish hid]; exact List.append_nil _
    | finished | lost => simp [JobEvent.finishOf?, Life.finish]
    | submitted | started | taken | abandonedQueued | abandonedRunning | dropped => rfl

/-- What is handed out is the outcome of the job, and it is handed out at most once. -/
theorem handedOut_eq (h : Lives id events life) :
    events.filterMap (JobEvent.takenOf? id) = life.handedOut := by
  induction h with
  | start => rfl
  | next before step ih =>
    rw [filterMap_snoc, ih]
    cases step with
    | elsewhere hid => rw [not_taken hid]; exact List.append_nil _
    | taken => simp [JobEvent.takenOf?, Life.handedOut]
    | submitted | started | finished | lost | abandonedQueued | abandonedRunning | dropped => rfl

theorem abandoned_iff (h : Lives id events life) :
    Abandoned id events ↔ life.isAbandoned = true := by
  induction h with
  | start =>
    refine iff_of_false ?_ Bool.false_ne_true
    rintro ⟨before, after, heq, -⟩
    simp at heq
  | @next events e life life' before step ih =>
    rw [abandoned_snoc, ih, before.finish_eq]
    cases step with
    | elsewhere hid =>
      refine or_iff_left ?_
      rintro ⟨rfl, -⟩
      exact hid rfl
    | submitted | started | finished | lost | taken | abandonedQueued | abandonedRunning
    | dropped => simp [Life.isAbandoned, Life.finish]

/-- A job that is forgotten without having been taken was released. -/
theorem released_mem {number : Nat} {outcome : Except Error α} {fate : JobFate}
    (h : Lives id events (.gone number outcome fate)) (hfate : fate ≠ .taken) :
    .released id ∈ events := by
  cases fate with
  | taken => exact absurd rfl hfate
  | abandoned =>
    obtain ⟨before, after, rfl, -⟩ := h.abandoned_iff.mpr rfl
    exact List.mem_append_right _ List.mem_cons_self
  | dropped =>
    generalize hlife : Life.gone number outcome .dropped = life at h
    induction h with
    | start => cases hlife
    | next before step ih =>
      cases step with
      | elsewhere => exact List.mem_append_left _ (ih hlife)
      | dropped => exact List.mem_append_right _ (List.mem_singleton_self _)
      | _ => cases hlife

end Lives

namespace Scheduler

/-- What the table shows of a job. -/
def Shows (s : Scheduler α) (id : Nat) : Life α → Prop
  | .unborn => s.find? id = none ∧ (id = 0 ∨ s.nextId ≤ id)
  | .queued released =>
    ∃ job, s.find? id = some job ∧ job.status = .queued ∧ job.released = released
  | .running released =>
    ∃ job, s.find? id = some job ∧ job.status = .running ∧ job.released = released
  | .settled number outcome => ∃ job, s.find? id = some job ∧ job.status = .settled number outcome
  | .gone _ _ _ => s.find? id = none ∧ id < s.nextId

variable {s s' : Scheduler α} {move : SchedulerMove α} {event : Option (JobEvent α)} {id x : Nat}
  {job : Job α} {life : Life α}

/-- A table that says the same of a job, and has not come to its id meanwhile, shows the same. -/
theorem Shows.congr (h : s.Shows x life) (hfind : s'.find? x = s.find? x)
    (hnext : s'.nextId = s.nextId) : s'.Shows x life := by
  cases life with
  | unborn | gone => exact ⟨hfind.trans h.1, hnext ▸ h.2⟩
  | queued | running | settled =>
    obtain ⟨job, hjob, hrest⟩ := h
    exact ⟨job, hfind.trans hjob, hrest⟩

theorem Shows.of_known (h : s.Shows id life) (known : s.find? id = some job) :
    life = match job.status with
      | .queued => .queued job.released
      | .running => .running job.released
      | .settled number outcome => .settled number outcome := by
  have hsame {j : Job α} (hj : s.find? id = some j) : j = job :=
    Option.some.inj (hj.symm.trans known)
  cases life with
  | unborn | gone => exact absurd (h.1.symm.trans known) (Option.some_ne_none _).symm
  | queued | running =>
    obtain ⟨j, hj, hstatus, hreleased⟩ := h
    cases hsame hj
    rw [hstatus, ← hreleased]
  | settled =>
    obtain ⟨j, hj, hstatus⟩ := h
    cases hsame hj
    rw [hstatus]

theorem find?_submit (s : Scheduler α) (name : Text) (x : Nat) :
    (s.submit name).2.find? x = (s.enqueue name).find? x ∧
    (s.submit name).2.nextId = s.nextId + 1 := by
  unfold submit
  dsimp only
  split <;> exact ⟨rfl, rfl⟩

theorem find?_settle (s : Scheduler α) (id : Nat) (outcome : Except Error α) (known : s.find? id = some job)
    (x : Nat) : (s.settle id outcome).find? x =
      if x = id then
        if job.released then none else some { job with status := .settled s.nextNumber outcome }
      else s.find? x := by
  have hany : ((s.find? id).any fun j => j.released) = job.released := by rw [known]; rfl
  unfold settle
  rw [hany]
  cases hreleased : job.released with
  | true =>
    rw [if_pos rfl, if_pos rfl]
    exact find?_forget s id x
  | false =>
    rw [if_neg Bool.false_ne_true, if_neg Bool.false_ne_true]
    refine (find?_mapJob (f := fun job => { job with status := .settled s.nextNumber outcome })
      (fun _ => rfl) s id x).trans ?_
    by_cases hx : x = id
    · rw [if_pos hx, if_pos hx, hx, known, ← hreleased]
      rfl
    · rw [if_neg hx, if_neg hx]

/-- An event that changes one job at most is one step in the life of this job. -/
theorem shows_step {e : JobEvent α} (h : s.Shows x life) (hid : e.id = id)
    (hother : x ≠ id → s'.find? x = s.find? x ∧ s'.nextId = s.nextId)
    (hself : x = id → ∃ life', Life.Step x life e life' ∧ s'.Shows x life') :
    ∃ life', Life.Step x life e life' ∧ s'.Shows x life' := by
  by_cases hx : x = id
  · exact hself hx
  · obtain ⟨hfind, hnext⟩ := hother hx
    exact ⟨life, .elsewhere (hid.trans_ne (Ne.symm hx)), h.congr hfind hnext⟩

theorem shows_submit (hs : Tidy s) (name : Text) (h : s.Shows x life) :
    ∃ life', Life.Step x life (.submitted s.nextId) life' ∧ (s.submit name).2.Shows x life' := by
  obtain ⟨hfind, hnext⟩ := find?_submit s name x
  rw [find?_enqueue] at hfind
  by_cases hx : s.nextId = x
  · subst hx
    have hnone : s.find? s.nextId = none := by
      cases hknown : s.find? s.nextId with
      | none => rfl
      | some job => exact absurd (hs.lt_nextId hknown) (Nat.lt_irrefl _)
    rw [hnone, if_pos rfl] at hfind
    cases life with
    | unborn => exact ⟨_, .submitted, _, hfind, rfl, rfl⟩
    | gone => exact absurd h.2 (Nat.lt_irrefl _)
    | queued | running | settled =>
      obtain ⟨job, hjob, -⟩ := h
      exact absurd (hnone.symm.trans hjob) (Option.some_ne_none _).symm
  · rw [if_neg hx, Option.or_none] at hfind
    refine ⟨life, .elsewhere hx, ?_⟩
    cases life with
    | unborn =>
      exact ⟨hfind.trans h.1, h.2.imp_right fun hle => hnext ▸ Nat.lt_of_le_of_ne hle hx⟩
    | gone => exact ⟨hfind.trans h.1, hnext ▸ Nat.lt_succ_of_lt h.2⟩
    | queued | running | settled =>
      obtain ⟨job, hjob, hrest⟩ := h
      exact ⟨job, hfind.trans hjob, hrest⟩

/-- What happens to a job with a move is one step in its life. -/
theorem Tidy.shows {e : JobEvent α} (hs : Tidy s) (hstep : Step s move (some e) s')
    (h : s.Shows x life) : ∃ life', Life.Step x life e life' ∧ s'.Shows x life' := by
  cases hstep with
  | submit name => exact shows_submit hs name h
  | @start i id rest worker first =>
    obtain ⟨job, hjob, hqueued⟩ := hs.find?_of_queue (hs.dropWhile_queue ▸ first)
    have hfind : ∀ y, ({ s with queue := rest }.assign i id).find? y = _ :=
      find?_mapJob (f := fun job => { job with status := .running }) (fun _ => rfl)
        { s with queue := rest } id
    refine shows_step h rfl (fun hx => ⟨(hfind x).trans (if_neg hx), rfl⟩) ?_
    rintro rfl
    have hlife := h.of_known hjob
    rw [hqueued] at hlife
    subst hlife
    have hself := (hfind x).trans (if_pos rfl)
    rw [show ({ s with queue := rest } : Scheduler α).find? x = some job from hjob] at hself
    exact ⟨_, .started, _, hself, rfl, rfl⟩
  | @finish i id outcome worker =>
    obtain ⟨job, hjob, hrunning⟩ := hs.find?_of_worker worker
    have hfind : ∀ y, (s.finish i id outcome).find? y = _ := find?_settle s id outcome hjob
    have hnext : (s.finish i id outcome).nextId = s.nextId := (settle_others s id outcome).2.2.2
    refine shows_step h rfl (fun hx => ⟨(hfind x).trans (if_neg hx), hnext⟩) ?_
    rintro rfl
    have hlife := h.of_known hjob
    have hself := (hfind x).trans (if_pos rfl)
    rw [hrunning] at hlife
    subst hlife
    cases hreleased : job.released with
    | true =>
      rw [hreleased, if_pos rfl] at hself
      exact ⟨_, .lost, hself, hnext ▸ hs.lt_nextId hjob⟩
    | false =>
      rw [hreleased, if_neg Bool.false_ne_true] at hself
      exact ⟨_, .finished, _, hself, rfl⟩
  | @take id number job outcome known settled =>
    refine shows_step h rfl (fun hx => ⟨(find?_forget s id x).trans (if_neg hx), rfl⟩) ?_
    rintro rfl
    have hlife := h.of_known known
    rw [settled] at hlife
    subst hlife
    exact ⟨_, .taken, (find?_forget s x x).trans (if_pos rfl), hs.lt_nextId known⟩
  | @drop id job known settled =>
    refine shows_step h rfl (fun hx => ⟨(find?_forget s id x).trans (if_neg hx), rfl⟩) ?_
    rintro rfl
    have hlife := h.of_known known
    obtain ⟨number, outcome, hstatus⟩ := JobStatus.isSettled_iff.mp settled
    rw [hstatus] at hlife
    subst hlife
    exact ⟨_, .dropped, (find?_forget s x x).trans (if_pos rfl), hs.lt_nextId known⟩
  | @abandon id job known unsettled =>
    have hfind := find?_mapJob (f := fun job => { job with released := true }) (fun _ => rfl) s id
    refine shows_step h rfl (fun hx => ⟨(hfind x).trans (if_neg hx), rfl⟩) ?_
    rintro rfl
    have hlife := h.of_known known
    have hself := (hfind x).trans (if_pos rfl)
    rw [known] at hself
    cases hstatus : job.status with
    | queued =>
      rw [hstatus] at hlife
      subst hlife
      exact ⟨_, .abandonedQueued, _, hself, hstatus, rfl⟩
    | running =>
      rw [hstatus] at hlife
      subst hlife
      exact ⟨_, .abandonedRunning, _, hself, hstatus, rfl⟩
    | settled number outcome => rw [hstatus] at unsettled; cases unsettled

/-- A move with which nothing happens to a job changes nothing in the table. -/
theorem Tidy.shows_none (hs : Tidy s) (hstep : Step s move none s') (h : s.Shows x life) :
    s'.Shows x life := by
  cases hstep with
  | startNone worker waits strays => exact absurd (hs.dropWhile_queue ▸ strays) waits
  | rest | leave | stop => exact h.congr rfl rfl
  | refuse | ignore => exact h

end Scheduler

/-- Every job has lived as the events tell. -/
structure Chronicle.Sound (c : Chronicle α) : Prop where
  tidy : c.scheduler.Tidy
  lives : ∀ id, ∃ life, Lives id c.events life ∧ c.scheduler.Shows id life

namespace Chronicle

variable {c c' : Chronicle α} {move : SchedulerMove α} {id : Nat} {job : Job α}

/-- A move of a chronicle is one of its scheduler, which it keeps a record of. -/
theorem step_eq_some (h : c.step move = some c') : ∃ event,
    Scheduler.Step c.scheduler move event c'.scheduler ∧ c'.events = c.events ++ event.toList := by
  obtain ⟨⟨s, event⟩, hstep, rfl⟩ := Option.map_eq_some_iff.mp h
  exact ⟨event, Scheduler.step_of_eq hstep, rfl⟩

theorem step_take_settled {number : Nat} {outcome : Except Error α}
    (known : c.scheduler.find? id = some job) (settled : job.status = .settled number outcome) :
    c.step (.take id) = some ⟨c.scheduler.forget id, c.events ++ [.taken id outcome]⟩ := by
  unfold step Scheduler.step
  dsimp only
  rw [Scheduler.outcome?_settled known settled, Scheduler.take_settled known settled]
  rfl

theorem step_release_known (known : c.scheduler.find? id = some job) :
    c.step (.release id) = some ⟨c.scheduler.release id, c.events ++ [.released id]⟩ := by
  unfold step Scheduler.step
  dsimp only
  rw [known]
  rfl

theorem Sound.start (count : Nat) : Sound (start count : Chronicle α) where
  tidy := Scheduler.tidy_withCrew count
  lives id := ⟨.unborn, .start, rfl, Nat.eq_zero_or_pos id⟩

theorem Sound.step (hc : Sound c) (h : c.step move = some c') : Sound c' := by
  obtain ⟨event, hstep, hevents⟩ := step_eq_some h
  refine ⟨hc.tidy.step hstep, fun id => ?_⟩
  obtain ⟨life, hlives, hshows⟩ := hc.lives id
  rw [hevents]
  cases event with
  | none => exact ⟨life, (List.append_nil c.events).symm ▸ hlives, hc.tidy.shows_none hstep hshows⟩
  | some e =>
    obtain ⟨life', hnext, hshows'⟩ := hc.tidy.shows hstep hshows
    exact ⟨life', hlives.next hnext, hshows'⟩

end Chronicle
end EntityMachines
