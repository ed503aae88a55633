import EntityMachines.Proofs.Scheduler.Books

/-!
The order in which jobs settle. Of several jobs the one that settled first is the first of them in
the books, as long as all of them are known to the scheduler; and a job is known until its outcome
is taken or it is released.
-/
namespace EntityMachines

variable {α : Type}

section Search

variable {β : Type} (r : β → β → Prop) [DecidableRel r]

/-- One step of a search for what comes first. -/
def better (found : Option β) (x : β) : Option β :=
  match found with
  | none => some x
  | some best => if r x best then some x else some best

variable {r}

/-- What is found comes before all that stands before it, and after nothing that stands after it. -/
theorem exists_first (hasymm : ∀ {a b : β}, r a b → ¬r b a)
    (hsplit : ∀ {a b : β}, r a b → ∀ x, r a x ∨ r x b) (best : β) (l : List β) :
    ∃ before first after, l.foldl (better r) (some best) = some first ∧
      best :: l = before ++ first :: after ∧ (∀ x ∈ before, r first x) ∧
      ∀ x ∈ after, ¬r x first := by
  induction l generalizing best with
  | nil => exact ⟨[], best, [], rfl, rfl, by simp, by simp⟩
  | cons x rest ih =>
    rw [List.foldl_cons]
    by_cases hx : r x best
    · obtain ⟨before, first, after, hfold, hsplits, hbefore, hafter⟩ := ih x
      refine ⟨best :: before, first, after, ?_, congrArg (best :: ·) hsplits, ?_, hafter⟩
      · rw [← hfold, better, if_pos hx]
      · refine List.forall_mem_cons.mpr ⟨?_, hbefore⟩
        cases before with
        | nil =>
          cases hsplits
          exact hx
        | cons y before =>
          cases hsplits
          have hfirst := hbefore x List.mem_cons_self
          exact (hsplit hfirst best).resolve_right (hasymm hx)
    · obtain ⟨before, first, after, hfold, hsplits, hbefore, hafter⟩ := ih best
      have hfound : rest.foldl (better r) (better r (some best) x) = some first := by
        rw [← hfold, better, if_neg hx]
      cases before with
      | nil =>
        cases hsplits
        exact ⟨[], _, x :: rest, hfound, rfl, hbefore, List.forall_mem_cons.mpr ⟨hx, hafter⟩⟩
      | cons y before =>
        cases hsplits
        obtain ⟨hbest, hbefore⟩ := List.forall_mem_cons.mp hbefore
        have hfirst : r first x := (hsplit hbest x).resolve_right hx
        exact ⟨best :: x :: before, first, after, hfound, rfl,
          List.forall_mem_cons.mpr ⟨hbest, List.forall_mem_cons.mpr ⟨hfirst, hbefore⟩⟩, hafter⟩

end Search

namespace Scheduler

variable {s : Scheduler α} {a b id : Nat} {ids : List Nat}

theorem finishedBefore_iff : s.finishedBefore a b = true ↔
    ∃ m, s.number? a = some m ∧ ∀ n, s.number? b = some n → m < n := by
  unfold finishedBefore
  cases s.number? a <;> cases s.number? b <;> simp

theorem finishedBefore_asymm (h : s.finishedBefore a b = true) : ¬s.finishedBefore b a = true := by
  rw [finishedBefore_iff]
  rintro ⟨n, hb, hn⟩
  obtain ⟨m, ha, hm⟩ := finishedBefore_iff.mp h
  exact Nat.lt_asymm (hm n hb) (hn m ha)

/-- A third job finished after the earlier one of two, or before the later one. -/
theorem finishedBefore_split (h : s.finishedBefore a b = true) (x : Nat) :
    s.finishedBefore a x = true ∨ s.finishedBefore x b = true := by
  obtain ⟨m, ha, hm⟩ := finishedBefore_iff.mp h
  rw [finishedBefore_iff, finishedBefore_iff]
  cases hx : s.number? x with
  | none => exact .inl ⟨m, ha, fun n hn => by cases hn⟩
  | some k =>
    by_cases hlt : m < k
    · exact .inl ⟨m, ha, fun n hn => by cases hn; exact hlt⟩
    · exact .inr ⟨k, rfl, fun n hn => Nat.lt_of_le_of_lt (Nat.not_lt.mp hlt) (hm n hn)⟩

theorem firstSettled?_eq_foldl (s : Scheduler α) (ids : List Nat) : s.firstSettled? ids
    = (ids.filter s.isSettled).foldl (better fun a b => s.finishedBefore a b = true) none := by
  unfold firstSettled?
  congr 1
  funext found x
  cases found <;> rfl

/-- No job that has settled finished before the one that settled first. -/
theorem firstSettled?_least (h : s.firstSettled? ids = some id) : id ∈ ids ∧
    s.isSettled id = true ∧ ∀ x ∈ ids, s.isSettled x = true → ¬s.finishedBefore x id = true := by
  rw [firstSettled?_eq_foldl] at h
  have hleast : id ∈ ids.filter s.isSettled ∧
      ∀ x ∈ ids.filter s.isSettled, ¬s.finishedBefore x id = true := by
    cases hsettled : ids.filter s.isSettled with
    | nil =>
      rw [hsettled] at h
      cases h
    | cons best rest =>
      obtain ⟨before, first, after, hfirst, hsplit, hbefore, hafter⟩ :=
        exists_first (r := fun a b => s.finishedBefore a b = true) finishedBefore_asymm
          finishedBefore_split best rest
      rw [hsettled] at h
      cases hfirst.symm.trans h
      rw [hsplit, List.forall_mem_append, List.forall_mem_cons]
      exact ⟨List.mem_append_right _ List.mem_cons_self,
        fun x hx => finishedBefore_asymm (hbefore x hx),
        fun h => finishedBefore_asymm h h, hafter⟩
  obtain ⟨hid, hsettled⟩ := List.mem_filter.mp hleast.1
  exact ⟨hid, hsettled, fun x hx hxs => hleast.2 x (List.mem_filter.mpr ⟨hx, hxs⟩)⟩

theorem firstSettled?_eq_none :
    s.firstSettled? ids = none ↔ ∀ id ∈ ids, s.isSettled id = false := by
  have hempty : (∀ id ∈ ids, s.isSettled id = false) ↔ ids.filter s.isSettled = [] := by simp
  rw [hempty, firstSettled?_eq_foldl]
  cases hsettled : ids.filter s.isSettled with
  | nil => exact iff_of_true rfl rfl
  | cons best rest =>
    obtain ⟨before, first, after, hfirst, -⟩ :=
      exists_first (r := fun a b => s.finishedBefore a b = true) finishedBefore_asymm
        finishedBefore_split best rest
    exact iff_of_false (fun h => Option.some_ne_none _ (hfirst.symm.trans h)) (List.cons_ne_nil _ _)

theorem number?_settled {job : Job α} {number : Nat} {outcome : Except Error α}
    (known : s.find? id = some job) (settled : job.status = .settled number outcome) :
    s.number? id = some number := by
  obtain ⟨_, _, status, _⟩ := job
  cases settled
  unfold number?
  rw [known]

theorem isSettled_known {job : Job α} (known : s.find? id = some job) :
    s.isSettled id = job.status.isSettled := by
  unfold isSettled
  rw [known]

end Scheduler

/-- The job whose outcome is out of reach after an event. -/
def JobEvent.letsGo? : JobEvent α → Option Nat
  | taken id _ | released id => some id
  | _ => none

theorem JobEvent.id_of_letsGo {e : JobEvent α} {id : Nat} (h : e.letsGo? = some id) : e.id = id := by
  cases e with
  | taken | released =>
    cases h
    rfl
  | submitted | started | finished => cases h

/-- The outcome of a job was taken, or the job was released. -/
def Life.isLetGo : Life α → Bool
  | unborn | settled _ _ => false
  | queued released | running released => released
  | gone _ _ _ => true

theorem Lives.letGo_iff {id : Nat} {events : List (JobEvent α)} {life : Life α}
    (h : Lives id events life) :
    id ∈ events.filterMap JobEvent.letsGo? ↔ life.isLetGo = true := by
  induction h with
  | start => exact iff_of_false List.not_mem_nil Bool.false_ne_true
  | @next events e life life' before step ih =>
    rw [filterMap_snoc, List.mem_append, ih]
    cases step with
    | elsewhere hid =>
      refine or_iff_left fun h => hid ?_
      exact JobEvent.id_of_letsGo (Option.mem_toList.mp h)
    | submitted | started | finished | lost | taken | abandonedQueued | abandonedRunning
    | dropped => simp [JobEvent.letsGo?, Life.isLetGo]

namespace Chronicle

variable {c : Chronicle α} {id : Nat} {ids : List Nat} {job : Job α}

/-- The jobs that were taken or released. -/
def letGo (c : Chronicle α) : List Nat := c.events.filterMap JobEvent.letsGo?

/-- The outcomes of some jobs, in the order in which they settled. -/
def settled (c : Chronicle α) (ids : List Nat) : List (Nat × Except Error α) :=
  (c.finished.filter fun entry => entry.1 ∈ ids).map fun entry => (entry.1, entry.2.2)

theorem mem_letGo : id ∈ c.letGo ↔
    (∃ outcome, .taken id outcome ∈ c.events) ∨ .released id ∈ c.events := by
  rw [letGo, List.mem_filterMap]
  constructor
  · rintro ⟨e, he, hletsGo⟩
    cases e with
    | taken x outcome =>
      cases hletsGo
      exact .inl ⟨outcome, he⟩
    | released x =>
      cases hletsGo
      exact .inr he
    | submitted | started | finished => cases hletsGo
  · rintro (⟨outcome, he⟩ | he)
    · exact ⟨_, he, rfl⟩
    · exact ⟨_, he, rfl⟩

theorem mem_finished {number : Nat} {outcome : Except Error α} :
    (id, number, outcome) ∈ c.finished ↔
      (number, outcome) ∈ c.events.filterMap (JobEvent.finishOf? id) := by
  rw [mem_finishOf, finished, List.mem_filterMap]
  constructor
  · rintro ⟨e, he, hfinished⟩
    cases e with
    | finished x n o =>
      cases hfinished
      exact he
    | _ => cases hfinished
  · exact fun h => ⟨_, h, rfl⟩

theorem mem_settled {outcome : Except Error α} :
    (id, outcome) ∈ c.settled ids ↔ id ∈ ids ∧ ∃ number, (id, number, outcome) ∈ c.finished := by
  simp only [settled, List.mem_map, List.mem_filter, decide_eq_true_eq]
  constructor
  · rintro ⟨⟨x, number, o⟩, ⟨hentry, hmem⟩, heq⟩
    cases heq
    exact ⟨hmem, number, hentry⟩
  · rintro ⟨hmem, number, hentry⟩
    exact ⟨_, ⟨hentry, hmem⟩, rfl⟩

/-- A known job has settled if the books say so. -/
theorem Sound.settled_iff (hc : Sound c) (known : c.scheduler.find? id = some job) {number : Nat}
    {outcome : Except Error α} :
    job.status = .settled number outcome ↔ (id, number, outcome) ∈ c.finished := by
  obtain ⟨life, hlives, hshows⟩ := hc.lives id
  have hlife := hshows.of_known known
  rw [mem_finished, hlives.finish_eq, hlife]
  cases job.status with
  | queued | running => exact iff_of_false (fun h => by cases h) List.not_mem_nil
  | settled n o => simp [Life.finish, eq_comm]

/-- A job that nobody has taken or released is known. -/
theorem Sound.find?_held (hc : Sound c) (hid : 0 < id ∧ id < c.scheduler.nextId)
    (hheld : id ∉ c.letGo) : ∃ job, c.scheduler.find? id = some job := by
  obtain ⟨life, hlives, hshows⟩ := hc.lives id
  have hlife : life.isLetGo ≠ true := fun h => hheld (hlives.letGo_iff.mpr h)
  cases life with
  | unborn =>
    have := hshows.2
    omega
  | gone => exact absurd rfl hlife
  | queued | running | settled =>
    obtain ⟨job, hjob, -⟩ := hshows
    exact ⟨job, hjob⟩

/-- A job that was taken or released does not stay after it has settled. -/
theorem Sound.unsettled_of_letGo (hc : Sound c) (hid : id ∈ c.letGo)
    (known : c.scheduler.find? id = some job) :
    job.status.isSettled = false ∧ job.released = true := by
  obtain ⟨life, hlives, hshows⟩ := hc.lives id
  have hlife := hlives.letGo_iff.mp hid
  rw [hshows.of_known known] at hlife
  cases hstatus : job.status with
  | queued | running =>
    rw [hstatus] at hlife
    exact ⟨rfl, hlife⟩
  | settled =>
    rw [hstatus] at hlife
    cases hlife

/-- A job that was taken or released is no longer known once it has finished. -/
theorem Sound.find?_eq_none (hc : Sound c) (hid : id ∈ c.letGo) {number : Nat}
    {outcome : Except Error α} (hfinished : .finished id number outcome ∈ c.events) :
    c.scheduler.find? id = none := by
  cases hjob : c.scheduler.find? id with
  | none => rfl
  | some job =>
    have hstatus := (hc.settled_iff hjob).mpr (mem_finished.mpr (mem_finishOf.mpr hfinished))
    have hunsettled := (hc.unsettled_of_letGo hid hjob).1
    rw [hstatus] at hunsettled
    cases hunsettled

theorem Sound.lt_of_letGo (hc : Sound c) (hid : id ∈ c.letGo) : id < c.scheduler.nextId := by
  obtain ⟨life, hlives, hshows⟩ := hc.lives id
  have hlife := hlives.letGo_iff.mp hid
  cases life with
  | unborn | settled => cases hlife
  | gone => exact hshows.2
  | queued | running =>
    obtain ⟨job, hjob, -⟩ := hshows
    exact hc.tidy.lt_nextId hjob

section Events

variable {c' : Chronicle α} {event : Option (JobEvent α)}
  (hevents : c'.events = c.events ++ event.toList)
include hevents

theorem letGo_later : c'.letGo = c.letGo ++ (event.bind JobEvent.letsGo?).toList := by
  unfold letGo
  rw [hevents]
  cases event with
  | none => simp
  | some e => exact filterMap_snoc _ _ _

theorem finished_later : c'.finished = c.finished ++ (event.bind JobEvent.finished?).toList := by
  unfold finished
  rw [hevents]
  cases event with
  | none => simp
  | some e => exact filterMap_snoc _ _ _

theorem settled_later (ids : List Nat) : ∃ more, c'.settled ids = c.settled ids ++ more := by
  unfold settled
  rw [finished_later hevents, List.filter_append, List.map_append]
  exact ⟨_, rfl⟩

/-- Only what finishes settles. -/
theorem settled_same (hfinished : event.bind JobEvent.finished? = none) (ids : List Nat) :
    c'.settled ids = c.settled ids := by
  unfold settled
  rw [finished_later hevents, hfinished, Option.toList_none, List.append_nil]

end Events

theorem Books.finished_sorted (hc : Books c) : c.finished.Pairwise fun a b => a.2.1 < b.2.1 := by
  have hsorted : (c.finished.map (·.2.1)).Pairwise (· < ·) :=
    hc.numbers ▸ List.pairwise_lt_range'
  exact List.pairwise_map.mp hsorted

theorem Books.finished_nodup (hc : Books c) : (c.finished.map (·.1)).Nodup := by
  have hsubmitted : c.submittedIds.Nodup := hc.submitted ▸ List.nodup_range'
  have hstarted : c.startedIds.Nodup :=
    hsubmitted.sublist (hc.in_order ▸ List.sublist_append_left _ _)
  exact (hc.running.nodup_iff.mpr hstarted).sublist (List.sublist_append_left _ _)

theorem Books.settled_nodup (hc : Books c) (ids : List Nat) :
    ((c.settled ids).map Prod.fst).Nodup := by
  refine hc.finished_nodup.sublist ?_
  rw [settled, List.map_map]
  exact List.filter_sublist.map _

/-- A job that has finished is settled, with the number under which it is booked. -/
theorem Sound.settled_of_finished (hc : Sound c) (known : c.scheduler.find? id = some job)
    {number : Nat} {outcome : Except Error α} (h : (id, number, outcome) ∈ c.finished) :
    c.scheduler.isSettled id = true ∧ c.scheduler.number? id = some number := by
  have hstatus := (hc.settled_iff known).mpr h
  refine ⟨?_, Scheduler.number?_settled known hstatus⟩
  rw [Scheduler.isSettled_known known, hstatus]
  rfl

/-- The job that settled first is the first in the books. -/
theorem Sound.firstSettled?_eq (hc : Sound c) (hbooks : Books c)
    (hknown : ∀ id ∈ ids, ∃ job, c.scheduler.find? id = some job) :
    c.scheduler.firstSettled? ids = (c.settled ids).head?.map Prod.fst := by
  have hbooked : ∀ entry ∈ c.finished.filter (fun entry => entry.1 ∈ ids), entry.1 ∈ ids ∧
      c.scheduler.isSettled entry.1 = true ∧ c.scheduler.number? entry.1 = some entry.2.1 := by
    intro entry hentry
    obtain ⟨hfinished, hid⟩ := List.mem_filter.mp hentry
    obtain ⟨job, hjob⟩ := hknown entry.1 (of_decide_eq_true hid)
    exact ⟨of_decide_eq_true hid, hc.settled_of_finished hjob hfinished⟩
  have hsorted := hbooks.finished_sorted.sublist
    (List.filter_sublist (p := fun entry => decide (entry.1 ∈ ids)))
  rw [settled]
  cases hfirst : c.scheduler.firstSettled? ids with
  | none =>
    cases hfilter : c.finished.filter (fun entry => entry.1 ∈ ids) with
    | nil => rfl
    | cons first rest =>
      obtain ⟨hid, hsettled, -⟩ := hbooked first (hfilter ▸ List.mem_cons_self)
      have hunsettled := Scheduler.firstSettled?_eq_none.mp hfirst _ hid
      exact absurd (hunsettled.symm.trans hsettled) Bool.false_ne_true
  | some id =>
    obtain ⟨hid, hsettled, hleast⟩ := Scheduler.firstSettled?_least hfirst
    obtain ⟨job, hjob⟩ := hknown id hid
    rw [Scheduler.isSettled_known hjob] at hsettled
    obtain ⟨number, outcome, hstatus⟩ := JobStatus.isSettled_iff.mp hsettled
    have hmem : (id, number, outcome) ∈ c.finished.filter (fun entry => entry.1 ∈ ids) :=
      List.mem_filter.mpr ⟨(hc.settled_iff hjob).mp hstatus, decide_eq_true hid⟩
    cases hfilter : c.finished.filter (fun entry => entry.1 ∈ ids) with
    | nil => cases hfilter ▸ hmem
    | cons first rest =>
      rw [hfilter] at hmem hsorted
      rcases List.mem_cons.mp hmem with rfl | hmem
      · rfl
      · -- An earlier job in the books would have been found instead.
        obtain ⟨hfirstId, hfirstSettled, hfirstNumber⟩ :=
          hbooked first (hfilter ▸ List.mem_cons_self)
        have hbefore : c.scheduler.finishedBefore first.1 id = true := by
          refine Scheduler.finishedBefore_iff.mpr ⟨first.2.1, hfirstNumber, fun n hn => ?_⟩
          rw [Scheduler.number?_settled hjob hstatus, Option.some.injEq] at hn
          exact hn ▸ (List.pairwise_cons.mp hsorted).1 _ hmem
        exact absurd hbefore (hleast first.1 hfirstId hfirstSettled)

end Chronicle
end EntityMachines
