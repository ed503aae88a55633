import EntityMachines.Async.Joins
import EntityMachines.Proofs.Scheduler.Order

/-!
The moves of joins, listed once with what each of them does, and what they keep: a join waits for
jobs that were submitted after the job that runs it.
-/
namespace EntityMachines

namespace Chronicle

variable {α : Type} {c c' : Chronicle α} {move : SchedulerMove α}

theorem nextId_le (h : c.step move = some c') : c.scheduler.nextId ≤ c'.scheduler.nextId := by
  obtain ⟨event, hstep, -⟩ := step_eq_some h
  generalize c'.scheduler = s at hstep
  cases hstep with
  | submit name => exact (Scheduler.find?_submit _ name 0).2 ▸ Nat.le_succ _
  | @finish i id outcome worker =>
    exact Nat.le_of_eq (Scheduler.settle_others c.scheduler id outcome).2.2.2.symm
  | start | startNone | rest | leave | stop | take | refuse | drop | abandon | ignore =>
    exact Nat.le_refl _

theorem nextId_submit {name : Text} (h : c.step (.submit name) = some c') :
    c'.scheduler.nextId = c.scheduler.nextId + 1 := by
  cases h
  exact (Scheduler.find?_submit _ name 0).2

end Chronicle

/-- The jobs whose outcome a join still has to take or to give up. -/
def Stage.held (ids : List Nat) : Stage → List Nat
  | submitting => ids
  | waiting pending => pending
  | taking id pending => id :: pending
  | releasing id rest next => id :: rest ++ next.toOption.toList
  | ended _ => []

theorem Stage.held_release (ids rest : List Nat) (next : Except Error Nat) :
    (release rest next).held ids = rest ++ next.toOption.toList := by
  cases rest with
  | nil => cases next <;> rfl
  | cons id rest => rfl

theorem Stage.release_ne_submitting (rest : List Nat) (next : Except Error Nat) :
    release rest next ≠ submitting := by
  cases rest with
  | nil => cases next <;> simp [release]
  | cons id rest => simp [release]

theorem Stage.release_ne_waiting (rest : List Nat) (next : Except Error Nat) (pending : List Nat) :
    release rest next ≠ waiting pending := by
  cases rest with
  | nil => cases next <;> simp [release]
  | cons id rest => simp [release]

theorem perm_filter_append {l : List Nat} {id : Nat} (hnodup : l.Nodup) (h : id ∈ l) :
    ((l.filter fun x => x ≠ id) ++ [id]).Perm l :=
  (List.perm_append_singleton _ _).trans (Scheduler.perm_cons_filter hnodup h).symm

namespace Join

/-- What a join does next, with what makes it possible. -/
inductive Go (c : Chronicle Value) (j : Join) : Chronicle Value → Join → Prop
  | submit {c' : Chronicle Value} (stage : j.stage = .submitting)
      (step : c.step (.submit j.combinator.name) = some c') :
      Go c j c' (j.submit c.scheduler.nextId)
  | wake {id : Nat} {pending : List Nat} (stage : j.stage = .waiting pending)
      (first : c.scheduler.firstSettled? pending = some id) : Go c j c (j.wake id pending)
  | receive {id : Nat} {pending : List Nat} {c' : Chronicle Value}
      (stage : j.stage = .taking id pending) (step : c.step (.take id) = some c') :
      Go c j c' (j.receive id pending (c.scheduler.take id).1)
  | release {id : Nat} {rest : List Nat} {next : Except Error Nat} {c' : Chronicle Value}
      (stage : j.stage = .releasing id rest next) (step : c.step (.release id) = some c') :
      Go c j c' { j with stage := .release rest next }

variable {c c' : Chronicle Value} {j j' : Join}

theorem go_of_eq (h : j.go c = some (c', j')) : Go c j c' j' := by
  unfold go at h
  split at h
  next hstage =>
    obtain ⟨next, hstep, heq⟩ := Option.map_eq_some_iff.mp h
    cases heq
    exact .submit hstage hstep
  next pending hstage =>
    obtain ⟨id, hfirst, heq⟩ := Option.map_eq_some_iff.mp h
    cases heq
    exact .wake hstage hfirst
  next id pending hstage =>
    obtain ⟨next, hstep, heq⟩ := Option.map_eq_some_iff.mp h
    cases heq
    exact .receive hstage hstep
  next id rest after hstage =>
    obtain ⟨next, hstep, heq⟩ := Option.map_eq_some_iff.mp h
    cases heq
    exact .release hstage hstep
  next => cases h

/-- Only a join that is over, or that waits while none of its jobs has settled, does not go on. -/
theorem exists_go (hopen : j.isOpen = true)
    (hwaits : ∀ pending, j.stage = .waiting pending → c.scheduler.firstSettled? pending ≠ none) :
    ∃ c' j', j.go c = some (c', j') := by
  unfold go
  unfold isOpen at hopen
  cases hstage : j.stage with
  | submitting => exact ⟨_, _, rfl⟩
  | waiting pending =>
    obtain ⟨id, hid⟩ := Option.ne_none_iff_exists'.mp (hwaits pending hstage)
    exact ⟨c, j.wake id pending, by simp only [hid, Option.map_some]⟩
  | taking id pending => exact ⟨_, _, rfl⟩
  | releasing id rest next => exact ⟨_, _, rfl⟩
  | ended answer =>
    rw [hstage] at hopen
    cases hopen

def held (j : Join) : List Nat := j.stage.held j.ids

/-- Where the jobs of a join stand among all jobs, and what the join has to do with them. -/
structure Placed (s : Scheduler Value) (j : Join) : Prop where
  known : ∀ id ∈ j.ids, 0 < id ∧ id < s.nextId
  caller_known : ∀ caller, j.caller = some caller → caller < s.nextId
  /-- The jobs of a join are submitted after the job that runs it. -/
  inner : ∀ caller, j.caller = some caller → ∀ id ∈ j.ids, caller < id
  nodup : j.ids.Nodup
  held_sub : ∀ id ∈ j.held, id ∈ j.ids
  held_nodup : j.held.Nodup
  waits : ∀ pending, j.stage = .waiting pending → pending ≠ []
  incomplete : j.stage = .submitting → j.ids.length < j.combinator.effects
  complete : j.stage ≠ .submitting → j.ids.length = j.combinator.effects
  /-- Who wants the first outcome takes it when no other job is left. -/
  alone : ∀ id pending, j.stage = .taking id pending →
    j.combinator.takesFirst = true → pending = []

theorem Placed.start (s : Scheduler Value) {caller : Option Nat} (combinator : Combinator)
    (hcaller : ∀ id, caller = some id → id < s.nextId) : (start caller combinator).Placed s where
  known := by simp [Join.start]
  caller_known := hcaller
  inner := by simp [Join.start]
  nodup := List.nodup_nil
  held_sub := by
    unfold held Join.start
    split <;> simp [Stage.held]
  held_nodup := by
    unfold held Join.start
    split <;> simp [Stage.held]
  waits pending h := by
    unfold Join.start at h
    dsimp only at h
    split at h <;> cases h
  incomplete h := by
    unfold Join.start at h ⊢
    match combinator with
    | .all 0 | .race 0 => cases h
    | .all (n + 1) | .race (n + 1) => exact Nat.succ_pos n
    | .timeout => exact Nat.one_pos
  complete h := by
    unfold Join.start at h ⊢
    match combinator with
    | .all 0 | .race 0 => rfl
    | .all (n + 1) | .race (n + 1) | .timeout => exact absurd rfl h
  alone id pending h := by
    unfold Join.start at h
    dsimp only at h
    split at h <;> cases h

theorem Placed.later {s s' : Scheduler Value} (hj : j.Placed s) (h : s.nextId ≤ s'.nextId) :
    j.Placed s' where
  known id hid := ⟨(hj.known id hid).1, Nat.lt_of_lt_of_le (hj.known id hid).2 h⟩
  caller_known id hid := Nat.lt_of_lt_of_le (hj.caller_known id hid) h
  inner := hj.inner
  nodup := hj.nodup
  held_sub := hj.held_sub
  held_nodup := hj.held_nodup
  waits := hj.waits
  incomplete := hj.incomplete
  complete := hj.complete
  alone := hj.alone

/-- A join that has submitted its jobs has to do with fewer and fewer of them. -/
theorem Placed.onward {s : Scheduler Value} (values : List Value) {stage : Stage} (hj : j.Placed s)
    (hstage : j.stage ≠ .submitting) (hsub : ∀ id ∈ stage.held j.ids, id ∈ j.held)
    (hnodup : (stage.held j.ids).Nodup) (hwaits : ∀ pending, stage = .waiting pending → pending ≠ [])
    (hsubmitted : stage ≠ .submitting)
    (halone : ∀ id pending, stage = .taking id pending →
      j.combinator.takesFirst = true → pending = []) :
    Placed s { j with values, stage } where
  known := hj.known
  caller_known := hj.caller_known
  inner := hj.inner
  nodup := hj.nodup
  held_sub id hid := hj.held_sub id (hsub id hid)
  held_nodup := hnodup
  waits := hwaits
  incomplete h := absurd h hsubmitted
  complete _ := hj.complete hstage
  alone := halone

/-- A join that gives jobs up and then takes the outcome of another has to do with no more. -/
theorem Placed.release {s : Scheduler Value} {rest : List Nat} {next : Except Error Nat}
    (hj : j.Placed s) (hstage : j.stage ≠ .submitting)
    (hsub : ∀ id ∈ rest ++ next.toOption.toList, id ∈ j.held)
    (hnodup : (rest ++ next.toOption.toList).Nodup) :
    Placed s { j with stage := .release rest next } := by
  have hheld := Stage.held_release j.ids rest next
  refine hj.onward j.values hstage (hheld ▸ hsub) (hheld ▸ hnodup)
    (fun pending h => absurd h (Stage.release_ne_waiting _ _ _)) (Stage.release_ne_submitting _ _) ?_
  intro id pending h _
  cases rest with
  | nil =>
    cases next with
    | ok winner =>
      cases h
      rfl
    | error e => cases h
  | cons first rest => cases h

/-- A join that fails gives up what is pending. -/
theorem Placed.giveUp {s : Scheduler Value} {rest : List Nat} (hj : j.Placed s)
    (hstage : j.stage ≠ .submitting) (hsub : ∀ id ∈ rest, id ∈ j.held) (hnodup : rest.Nodup)
    (e : Error) : Placed s { j with stage := .release rest (.error e) } := by
  have hnone : rest ++ (Except.error e : Except Error Nat).toOption.toList = rest :=
    List.append_nil _
  exact hj.release hstage (hnone.symm ▸ hsub) (hnone.symm ▸ hnodup)

theorem Placed.submit {s s' : Scheduler Value} (hj : j.Placed s) (hstage : j.stage = .submitting)
    (hpos : 0 < s.nextId) (hnext : s'.nextId = s.nextId + 1) : (j.submit s.nextId).Placed s' := by
  have hfresh : s.nextId ∉ j.ids := fun h => Nat.lt_irrefl _ (hj.known _ h).2
  have hnodup : (j.ids ++ [s.nextId]).Nodup :=
    List.nodup_append.mpr ⟨hj.nodup, List.pairwise_singleton _ _, fun x hx y hy hxy => by
      rw [hxy, List.mem_singleton.mp hy] at hx
      exact hfresh hx⟩
  have hknown : ∀ id ∈ j.ids ++ [s.nextId], 0 < id ∧ id < s'.nextId := by
    intro id hid
    rcases List.mem_append.mp hid with hid | hid
    · exact ⟨(hj.known id hid).1, hnext ▸ Nat.lt_succ_of_lt (hj.known id hid).2⟩
    · rw [List.mem_singleton.mp hid, hnext]
      exact ⟨hpos, Nat.lt_succ_self _⟩
  have hcaller : ∀ caller, j.caller = some caller → caller < s'.nextId :=
    fun caller h => hnext ▸ Nat.lt_succ_of_lt (hj.caller_known caller h)
  have hinner : ∀ caller, j.caller = some caller → ∀ id ∈ j.ids ++ [s.nextId], caller < id := by
    intro caller h id hid
    rcases List.mem_append.mp hid with hid | hid
    · exact hj.inner caller h id hid
    · exact List.mem_singleton.mp hid ▸ hj.caller_known caller h
  have hlength : (j.ids ++ [s.nextId]).length = j.ids.length + 1 := List.length_append
  have hfew := hj.incomplete hstage
  unfold Join.submit
  dsimp only
  split
  next hless =>
    have hheld : Join.held { j with ids := j.ids ++ [s.nextId] } = j.ids ++ [s.nextId] := by
      unfold held
      rw [hstage]
      rfl
    exact {
      known := hknown
      caller_known := hcaller
      inner := hinner
      nodup := hnodup
      held_sub := fun id hid => hheld ▸ hid
      held_nodup := hheld.symm ▸ hnodup
      waits := fun pending h => by simp [hstage] at h
      incomplete := fun _ => hless
      complete := fun h => absurd hstage h
      alone := fun id pending h => by simp [hstage] at h }
  next hfull =>
    exact {
      known := hknown
      caller_known := hcaller
      inner := hinner
      nodup := hnodup
      held_sub := fun id hid => hid
      held_nodup := hnodup
      waits := fun pending h => by cases h; simp
      incomplete := fun h => by cases h
      complete := fun _ => by dsimp only; omega
      alone := fun id pending h => by cases h }

theorem Placed.wake {s : Scheduler Value} {id : Nat} {pending : List Nat} (hj : j.Placed s)
    (hstage : j.stage = .waiting pending) (hid : id ∈ pending) : (j.wake id pending).Placed s := by
  have hheld : j.held = pending := by simp [held, hstage, Stage.held]
  have hnodup : pending.Nodup := hheld ▸ hj.held_nodup
  have hsubmitted : j.stage ≠ .submitting := by simp [hstage]
  have hperm := perm_filter_append hnodup hid
  unfold Join.wake
  dsimp only
  split
  next =>
    exact hj.release hsubmitted (fun x hx => hheld ▸ hperm.subset hx) (hperm.nodup_iff.mpr hnodup)
  next hall =>
    have hcons := (Scheduler.perm_cons_filter hnodup hid).symm
    exact hj.onward j.values hsubmitted (fun x hx => hheld ▸ hcons.subset hx)
      (hcons.nodup_iff.mpr hnodup) (fun _ h => by cases h) (fun h => by cases h)
      (fun _ _ _ hfirst => absurd hfirst hall)

theorem Placed.receive {s : Scheduler Value} {id : Nat} {pending : List Nat} (hj : j.Placed s)
    (hstage : j.stage = .taking id pending) (outcome : Except Error Value) :
    (j.receive id pending outcome).Placed s := by
  have hheld : j.held = id :: pending := by simp [held, hstage, Stage.held]
  have hnodup : pending.Nodup := (List.nodup_cons.mp (hheld ▸ hj.held_nodup)).2
  have hsub : ∀ x ∈ pending, x ∈ j.held := fun x hx => hheld ▸ List.mem_cons_of_mem _ hx
  have hsubmitted : j.stage ≠ .submitting := by simp [hstage]
  have hover (values : List Value) (answer : Except Error Value) :
      Placed s { j with values, stage := .ended answer } :=
    hj.onward values hsubmitted (fun x hx => absurd hx List.not_mem_nil) List.nodup_nil
      (fun _ h => by cases h) (fun h => by cases h) (fun _ _ h => by cases h)
  unfold Join.receive
  split
  next => exact hover _ _
  next =>
    cases outcome with
    | ok v =>
      dsimp only
      split
      next => exact hover _ _
      next hmore =>
        refine hj.onward _ hsubmitted hsub hnodup ?_ (fun h => by cases h) (fun _ _ h => by cases h)
        rintro _ h rfl
        cases h
        exact hmore rfl
    | error e => exact hj.giveUp hsubmitted hsub hnodup e

theorem Placed.released {s : Scheduler Value} {id : Nat} {rest : List Nat} {next : Except Error Nat}
    (hj : j.Placed s) (hstage : j.stage = .releasing id rest next) :
    Placed s { j with stage := .release rest next } := by
  have hheld : j.held = id :: (rest ++ next.toOption.toList) := by simp [held, hstage, Stage.held]
  refine hj.release (by simp [hstage]) (fun x hx => ?_) ?_
  · exact hheld ▸ List.mem_cons_of_mem _ hx
  · exact (List.nodup_cons.mp (hheld ▸ hj.held_nodup)).2

/-- A join whose time is up gives its jobs up. -/
theorem Placed.expire {s : Scheduler Value} {pending : List Nat} (hj : j.Placed s)
    (hstage : j.stage = .waiting pending) (e : Error) :
    Placed s { j with stage := .release pending (.error e) } := by
  have hheld : j.held = pending := by simp [held, hstage, Stage.held]
  exact hj.giveUp (by simp [hstage]) (fun x hx => hheld ▸ hx)
    (hheld ▸ hj.held_nodup) e

/-- What a join does next leaves it placed. -/
theorem Placed.go (hj : j.Placed c.scheduler) (hpos : 0 < c.scheduler.nextId)
    (h : Go c j c' j') : j'.Placed c'.scheduler := by
  cases h with
  | submit stage step => exact hj.submit stage hpos (Chronicle.nextId_submit step)
  | wake stage first => exact hj.wake stage (Scheduler.firstSettled?_least first).1
  | receive stage step => exact (hj.receive stage _).later (Chronicle.nextId_le step)
  | release stage step => exact (hj.released stage).later (Chronicle.nextId_le step)

theorem expire_eq_some {s : Scheduler Value} (h : j.expire s = some j') : ∃ pending,
    j.combinator = .timeout ∧ j.stage = .waiting pending ∧
      j' = { j with stage := .release pending (.error .timeout) } := by
  unfold expire at h
  split at h
  next pending hcombinator hstage =>
    split at h
    next =>
      cases h
      exact ⟨pending, hcombinator, hstage, rfl⟩
    next => cases h
  next => cases h

end Join

namespace Joins

/-- The moves of a scheduler with joins, with what makes each of them possible. -/
inductive Step (c : Joins) : JoinMove → Joins → Prop
  | pool {move : SchedulerMove Value} {chronicle : Chronicle Value} (free : c.holdsUp move = false)
      (step : c.chronicle.step move = some chronicle) : Step c (.pool move) { c with chronicle }
  | join {caller : Option Nat} {combinator : Combinator} (may : c.mayJoin caller = true) :
      Step c (.join caller combinator) { c with joins := c.joins ++ [.start caller combinator] }
  | go {k : Nat} {j j' : Join} {chronicle : Chronicle Value} (known : c.joins[k]? = some j)
      (goes : Join.Go c.chronicle j chronicle j') :
      Step c (.go k) { chronicle, joins := c.joins.set k j' }
  | expire {k : Nat} {j : Join} {pending : List Nat} (known : c.joins[k]? = some j)
      (limited : j.combinator = .timeout) (stage : j.stage = .waiting pending) :
      Step c (.expire k)
        { c with
          joins := c.joins.set k { j with stage := .release pending (.error .timeout) } }

variable {c c' : Joins} {move : JoinMove} {moves : List JoinMove}

theorem step_of_eq (h : c.step move = some c') : Step c move c' := by
  cases move with
  | pool move =>
    simp only [step] at h
    split at h
    next => cases h
    next hfree =>
      obtain ⟨chronicle, hstep, rfl⟩ := Option.map_eq_some_iff.mp h
      exact .pool (eq_false_of_ne_true hfree) hstep
  | join caller combinator =>
    simp only [step] at h
    split at h
    next hmay =>
      cases h
      exact .join hmay
    next => cases h
  | go k =>
    obtain ⟨j, hj, h⟩ := Option.bind_eq_some_iff.mp h
    obtain ⟨⟨chronicle, j'⟩, hgo, h⟩ := Option.bind_eq_some_iff.mp h
    cases h
    exact .go hj (Join.go_of_eq hgo)
  | expire k =>
    obtain ⟨j, hj, h⟩ := Option.bind_eq_some_iff.mp h
    obtain ⟨j', hexpire, h⟩ := Option.bind_eq_some_iff.mp h
    cases h
    obtain ⟨pending, hlimited, hstage, rfl⟩ := Join.expire_eq_some hexpire
    exact .expire hj hlimited hstage

theorem step_go_eq {k : Nat} {j j' : Join} {chronicle : Chronicle Value}
    (known : c.joins[k]? = some j) (h : j.go c.chronicle = some (chronicle, j')) :
    c.step (.go k) = some { chronicle, joins := c.joins.set k j' } := by
  simp only [step, known, h, Option.bind_eq_bind, Option.bind_some]
  rfl

/-- The first of several moves is made, and then the others. -/
theorem run_cons {rest : List JoinMove} :
    c.run (move :: rest) = (c.step move).bind fun next => next.run rest := List.foldlM_cons

/-- What each move keeps holds throughout a run. -/
theorem run_keeps {P : Joins → Prop}
    (hstep : ∀ {c c' : Joins} {move : JoinMove}, P c → Step c move c' → P c')
    (hc : P c) (h : c.run moves = some c') : P c' := by
  induction moves generalizing c with
  | nil =>
    cases h
    exact hc
  | cons move rest ih =>
    obtain ⟨next, hnext, hrest⟩ := Option.bind_eq_some_iff.mp (run_cons.symm.trans h)
    exact ih (hstep hc (step_of_eq hnext)) hrest

/-- Every join waits for jobs that were submitted after the job that runs it. -/
structure Nested (c : Joins) : Prop where
  sound : c.chronicle.Sound
  books : c.chronicle.Books
  placed : ∀ j ∈ c.joins, j.Placed c.chronicle.scheduler

theorem Nested.start (count : Nat) : Nested (start count) where
  sound := .start count
  books := .start count
  placed _ hj := absurd hj List.not_mem_nil

theorem Nested.nextId_pos (hc : Nested c) : 0 < c.chronicle.scheduler.nextId :=
  hc.books.nextId ▸ Nat.succ_pos _

theorem Nested.caller_lt {caller : Option Nat} (hc : Nested c) (hmay : c.mayJoin caller = true) :
    ∀ id, caller = some id → id < c.chronicle.scheduler.nextId := by
  rintro id rfl
  have hrunning : c.chronicle.scheduler.phase id = .running :=
    of_decide_eq_true (Bool.and_eq_true_iff.mp hmay).1
  unfold Scheduler.phase at hrunning
  split at hrunning
  next job hjob => exact hc.sound.tidy.lt_nextId hjob
  next => cases hrunning

/-- What happens to the scheduler leaves every join placed. -/
theorem Nested.moved {move : SchedulerMove Value} {chronicle : Chronicle Value} (hc : Nested c)
    (h : c.chronicle.step move = some chronicle) : Nested { c with chronicle } where
  sound := hc.sound.step h
  books := hc.books.step hc.sound.tidy h
  placed j hj := (hc.placed j hj).later (Chronicle.nextId_le h)

theorem Nested.set {k : Nat} {j : Join} (hc : Nested c) (hj : j.Placed c.chronicle.scheduler) :
    Nested { c with joins := c.joins.set k j } where
  sound := hc.sound
  books := hc.books
  placed i hi := by
    rcases List.mem_or_eq_of_mem_set hi with hi | rfl
    · exact hc.placed i hi
    · exact hj

/-- A join that goes on makes one move of the scheduler, or none. -/
theorem Nested.went {j j' : Join} {chronicle : Chronicle Value} (hc : Nested c)
    (h : Join.Go c.chronicle j chronicle j') : Nested { c with chronicle } := by
  cases h with
  | submit _ step | receive _ step | release _ step => exact hc.moved step
  | wake => exact hc

theorem Nested.step (hc : Nested c) (h : Step c move c') : Nested c' := by
  cases h with
  | pool free step => exact hc.moved step
  | @join caller combinator may =>
    refine ⟨hc.sound, hc.books, fun j hj => ?_⟩
    rcases List.mem_append.mp hj with hj | hj
    · exact hc.placed j hj
    · rw [List.mem_singleton.mp hj]
      exact .start _ combinator (hc.caller_lt may)
  | go known goes =>
    have hj := hc.placed _ (List.mem_of_getElem? known)
    exact (hc.went goes).set (hj.go hc.nextId_pos goes)
  | expire known limited stage =>
    exact hc.set ((hc.placed _ (List.mem_of_getElem? known)).expire stage .timeout)

end Joins
end EntityMachines
