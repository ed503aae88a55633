import EntityMachines.Proofs.Joins.Orderly

/-!
Joins end. A join whose jobs have settled far enough to decide it comes to its end by its own moves,
of which there are only so many, and with the answer that they decide.
-/
namespace EntityMachines

namespace Join

variable {c c' : Chronicle Value} {j j' : Join} {id : Nat} {pending : List Nat}

/-- How many moves a join still makes at the most. -/
def remaining (j : Join) : Nat :=
  match j.stage with
  | .submitting => 2 * j.combinator.effects + 2 + (j.combinator.effects - j.ids.length)
  | .waiting pending => 2 * pending.length + 1
  | .taking _ pending => 2 * pending.length + 2
  | .releasing _ rest _ => rest.length + 3
  | .ended _ => 0

theorem remaining_release (rest : List Nat) (next : Except Error Nat) :
    remaining { j with stage := .release rest next } ≤ rest.length + 2 := by
  cases rest with
  | nil => cases next <;> simp [remaining, Stage.release]
  | cons id rest => simp [remaining, Stage.release]

theorem remaining_submit (hj : j.Placed c.scheduler) (hstage : j.stage = .submitting) (id : Nat) :
    (j.submit id).remaining < j.remaining := by
  have hfew := hj.incomplete hstage
  have hlength : (j.ids ++ [id]).length = j.ids.length + 1 := List.length_append
  have hbefore : j.remaining
      = 2 * j.combinator.effects + 2 + (j.combinator.effects - j.ids.length) := by
    simp only [remaining, hstage]
  rw [hbefore]
  unfold submit
  dsimp only
  split
  next => simp only [remaining, hstage, hlength]; omega
  next => simp only [remaining, hlength]; omega

theorem remaining_wake (hstage : j.stage = .waiting pending) (hnodup : pending.Nodup)
    (hid : id ∈ pending) : (j.wake id pending).remaining < j.remaining := by
  have hlength := (Scheduler.perm_cons_filter hnodup hid).length_eq
  rw [List.length_cons] at hlength
  have hbefore : j.remaining = 2 * pending.length + 1 := by simp only [remaining, hstage]
  unfold wake
  dsimp only
  split
  next =>
    have := remaining_release (j := j) (pending.filter fun x => x ≠ id) (.ok id)
    omega
  next =>
    rw [hbefore]
    simp only [remaining]
    omega

theorem remaining_receive (hstage : j.stage = .taking id pending) (outcome : Except Error Value) :
    (j.receive id pending outcome).remaining < j.remaining := by
  have hbefore : j.remaining = 2 * pending.length + 2 := by simp only [remaining, hstage]
  rw [hbefore]
  unfold receive
  split
  next => exact Nat.succ_pos _
  next =>
    cases outcome with
    | ok v =>
      dsimp only
      split
      next => exact Nat.succ_pos _
      next => exact Nat.lt_succ_self _
    | error e =>
      cases pending with
      | nil => exact Nat.succ_pos _
      | cons next rest =>
        simp only [remaining, Stage.release, List.length_cons]
        omega

/-- Each move of a join brings it nearer to its end. -/
theorem remaining_go (hj : j.Placed c.scheduler) (h : Go c j c' j') :
    j'.remaining < j.remaining := by
  cases h with
  | submit stage => exact remaining_submit hj stage _
  | @wake id pending stage first =>
    have hheld : j.held = pending := by simp only [held, stage, Stage.held]
    exact remaining_wake stage (hheld ▸ hj.held_nodup) (Scheduler.firstSettled?_least first).1
  | receive stage => exact remaining_receive stage _
  | @release id rest next _ stage =>
    have hbefore : j.remaining = rest.length + 3 := by simp only [remaining, stage]
    rw [hbefore]
    exact Nat.lt_succ_of_le (remaining_release rest next)

/-- A join that has submitted its jobs keeps to them, and waits for nothing that would settle
otherwise. -/
theorem Go.same (h : Go c j c' j') (hsubmitted : j.stage ≠ .submitting) :
    j'.ids = j.ids ∧ j'.combinator = j.combinator ∧ j'.stage ≠ .submitting ∧
      ∀ ids, c'.settled ids = c.settled ids := by
  have hown {move : SchedulerMove Value} (hstep : c.step move = some c')
      (hmove : ∀ i outcome, move ≠ .finish i outcome) :
      ∀ ids, c'.settled ids = c.settled ids := by
    obtain ⟨event, hmove', hevents⟩ := Chronicle.step_eq_some hstep
    refine Chronicle.settled_same hevents ?_
    generalize c'.scheduler = s at hmove'
    cases hmove' with
    | @finish i _ outcome => exact absurd rfl (hmove i outcome)
    | _ => rfl
  cases h with
  | submit stage => exact absurd stage hsubmitted
  | wake stage =>
    unfold Join.wake
    dsimp only
    split
    next => exact ⟨rfl, rfl, Stage.release_ne_submitting _ _, fun _ => rfl⟩
    next => exact ⟨rfl, rfl, fun h => (by cases h), fun _ => rfl⟩
  | receive stage step =>
    have hsame := hown step fun i outcome h => by cases h
    unfold Join.receive
    split
    next => exact ⟨rfl, rfl, fun h => (by cases h), hsame⟩
    next =>
      split
      next =>
        dsimp only
        split <;> exact ⟨rfl, rfl, fun h => (by cases h), hsame⟩
      next => exact ⟨rfl, rfl, Stage.release_ne_submitting _ _, hsame⟩
  | release stage step =>
    exact ⟨rfl, rfl, Stage.release_ne_submitting _ _, hown step fun i outcome h => by cases h⟩

end Join

/-- A join waits only where its jobs have not settled far enough to decide it. -/
theorem Course.undecided {ids pending : List Nat} {values : List Value}
    {order : List (Nat × Except Error Value)} {combinator : Combinator}
    {answer : Except Error Value} (h : Course ids values order combinator (.waiting pending))
    (hids : ids.Nodup) (hnodup : (order.map Prod.fst).Nodup)
    (hmem : ∀ entry ∈ order, entry.1 ∈ ids) (hpending : pending ≠ [])
    (hlimit : combinator ≠ .timeout) (hanswer : combinator.Answers ids order answer) :
    order.filter (fun entry => entry.1 ∈ pending) ≠ [] := by
  intro hnone
  cases h with
  | @collecting n _ done rest split collected =>
    subst split
    rw [collected.filter_eq hids hnodup hmem] at hnone
    subst hnone
    rw [List.append_nil] at hanswer
    cases hanswer with
    | values each =>
      obtain ⟨x, hx⟩ := List.exists_mem_of_ne_nil _ hpending
      obtain ⟨v, hv⟩ := exists_value each (collected.perm.subset (List.mem_append_right _ hx))
      have hsplit := List.nodup_append.mp (collected.perm.nodup_iff.mpr hids)
      exact hsplit.2.2 x (List.mem_map_of_mem hv) x hx rfl
    | failure first succeed =>
      obtain ⟨v, hv, -⟩ := collected.places _
        (first ▸ List.mem_append_right _ List.mem_cons_self)
      cases hv
    | winner takes => cases takes
  | racing takes =>
    have hall : order.filter (fun entry => decide (entry.1 ∈ ids)) = order :=
      List.filter_eq_self.mpr fun entry hentry => decide_eq_true (hmem entry hentry)
    rw [hall] at hnone
    cases hanswer with
    | values | failure => cases takes
    | winner _ first => exact List.cons_ne_nil _ _ (first.symm.trans hnone)
    | nobody none => exact hpending none
    | expired => exact hlimit rfl

namespace Joins

variable {c c' : Joins} {k : Nat} {j : Join} {answer : Except Error Value}

/-- A join comes to its end by its own moves, if it has not ended yet. -/
def Ends (c : Joins) (k : Nat) (answer : Except Error Value) : Prop :=
  ∃ n c' j', c.run (List.replicate n (.go k)) = some c' ∧ c'.joins[k]? = some j' ∧
    j'.stage = .ended answer

theorem step_go (known : c.joins[k]? = some j) (h : c.step (.go k) = some c') :
    ∃ j', Join.Go c.chronicle j c'.chronicle j' ∧ c'.joins[k]? = some j' := by
  have hk := (List.getElem?_eq_some_iff.mp known).1
  cases step_of_eq h with
  | go known' goes =>
    cases known.symm.trans known'
    exact ⟨_, goes, List.getElem?_set_self hk⟩

theorem ends_of_step (h : c.step (.go k) = some c') (hends : c'.Ends k answer) :
    c.Ends k answer := by
  obtain ⟨n, last, j, hrun, hj⟩ := hends
  refine ⟨n + 1, last, j, ?_, hj⟩
  rw [List.replicate_succ, run_cons, h]
  exact hrun

namespace Orderly

variable (hc : Orderly c) (known : c.joins[k]? = some j)
include hc known

/-- A join that goes on keeps its jobs, and has less to do. -/
theorem went (hsubmitted : j.stage ≠ .submitting) (h : c.step (.go k) = some c') :
    ∃ j', c'.joins[k]? = some j' ∧ Orderly c' ∧ j'.stage ≠ .submitting ∧
      j'.remaining < j.remaining ∧ j'.ids = j.ids ∧ j'.combinator = j.combinator ∧
      c'.chronicle.settled j'.ids = c.chronicle.settled j.ids := by
  obtain ⟨j', hgo, known'⟩ := step_go known h
  obtain ⟨hids, hcombinator, hstage, hsettled⟩ := hgo.same hsubmitted
  have hplaced := hc.nested.placed j (List.mem_of_getElem? known)
  refine ⟨j', known', hc.step rfl (step_of_eq h), hstage, Join.remaining_go hplaced hgo, hids,
    hcombinator, ?_⟩
  rw [hids]
  exact hsettled j.ids

theorem can_go (hopen : j.isOpen = true) (hlimit : j.combinator ≠ .timeout)
    (hanswer : j.combinator.Answers j.ids (c.chronicle.settled j.ids) answer) :
    ∃ c', c.step (.go k) = some c' := by
  have hmem := List.mem_of_getElem? known
  have hplaced := hc.nested.placed j hmem
  have hfair := hc.fair j hmem
  have hwaits : ∀ pending, j.stage = .waiting pending →
      c.chronicle.scheduler.firstSettled? pending ≠ none := by
    intro pending hstage hnone
    have hheld : j.held = pending := by simp only [Join.held, hstage, Stage.held]
    have hjobs : ∀ x ∈ pending, ∃ job, c.chronicle.scheduler.find? x = some job :=
      fun x hx => hfair.find?_held hc.nested.sound hplaced (hheld ▸ hx)
    rw [hc.nested.sound.firstSettled?_eq hc.nested.books hjobs, hplaced.settled_filter hheld,
      Option.map_eq_none_iff, List.head?_eq_none_iff] at hnone
    have hcourse := hfair.follows
    unfold Join.Follows at hcourse
    rw [hstage] at hcourse
    exact hcourse.undecided hplaced.nodup (hc.nested.books.settled_nodup j.ids)
      (fun entry hentry => (Chronicle.mem_settled.mp hentry).1) (hplaced.waits pending hstage)
      hlimit hanswer hnone
  obtain ⟨chronicle, j', hgo⟩ := Join.exists_go hopen hwaits
  exact ⟨_, step_go_eq known hgo⟩

/-- A join that is over has answered what its jobs decide. -/
theorem answers_of_ended (hstage : j.stage = .ended answer) :
    j.combinator.Answers j.ids (c.chronicle.settled j.ids) answer := by
  have hcourse := (hc.fair j (List.mem_of_getElem? known)).follows
  unfold Join.Follows at hcourse
  rw [hstage] at hcourse
  generalize j.combinator = combinator at hcourse ⊢
  cases hcourse with
  | ended answers => exact answers

theorem ends (hsubmitted : j.stage ≠ .submitting) (hlimit : j.combinator ≠ .timeout)
    (hanswer : j.combinator.Answers j.ids (c.chronicle.settled j.ids) answer) :
    c.Ends k answer := by
  generalize hleft : j.remaining = left
  induction left using Nat.strongRecOn generalizing c j with
  | ind left ih =>
  subst hleft
  cases hopen : j.isOpen with
  | true =>
    obtain ⟨c', h⟩ := hc.can_go known hopen hlimit hanswer
    obtain ⟨j', known', hc', hsubmitted', hless, hids, hcombinator, hsettled⟩ :=
      hc.went known hsubmitted h
    refine ends_of_step h (ih _ hless hc' known' hsubmitted' (hcombinator ▸ hlimit) ?_ rfl)
    rw [hcombinator, hsettled, hids]
    exact hanswer
  | false =>
    unfold Join.isOpen at hopen
    split at hopen
    next last hstage =>
      have hids : ∀ entry ∈ c.chronicle.settled j.ids, entry.1 ∈ j.ids :=
        fun entry hentry => (Chronicle.mem_settled.mp hentry).1
      have hlast := hc.answers_of_ended known hstage
      rw [hanswer.unique hlimit (hc.nested.books.settled_nodup j.ids) hids hlast]
      exact ⟨0, c, j, rfl, known, hstage⟩
    next => cases hopen

theorem answers_of_ends (hsubmitted : j.stage ≠ .submitting) (h : c.Ends k answer) :
    j.combinator.Answers j.ids (c.chronicle.settled j.ids) answer := by
  obtain ⟨n, last, final, hrun, hfinal, hover⟩ := h
  induction n generalizing c j with
  | zero =>
    cases hrun
    cases known.symm.trans hfinal
    exact hc.answers_of_ended known hover
  | succ n ih =>
    rw [List.replicate_succ, run_cons] at hrun
    obtain ⟨next, h, hrest⟩ := Option.bind_eq_some_iff.mp hrun
    obtain ⟨j', known', hc', hsubmitted', -, hids, hcombinator, hsettled⟩ :=
      hc.went known hsubmitted h
    have hanswer := ih hc' known' hsubmitted' hrest
    rw [hcombinator, hsettled, hids] at hanswer
    exact hanswer

/-- A join comes to have a job for each of its effects. -/
theorem submits : ∃ n c' j', c.run (List.replicate n (.go k)) = some c' ∧
    c'.joins[k]? = some j' ∧ j'.stage ≠ .submitting := by
  generalize hleft : j.remaining = left
  induction left using Nat.strongRecOn generalizing c j with
  | ind left ih =>
  subst hleft
  by_cases hstage : j.stage = .submitting
  · have hopen : j.isOpen = true := by simp [Join.isOpen, hstage]
    obtain ⟨chronicle, j', hgo⟩ := Join.exists_go (c := c.chronicle) hopen
      fun pending h => by simp [hstage] at h
    have hstep := step_go_eq known hgo
    have hless := Join.remaining_go (hc.nested.placed j (List.mem_of_getElem? known))
      (Join.go_of_eq hgo)
    have known' := List.getElem?_set_self (a := j') (List.getElem?_eq_some_iff.mp known).1
    obtain ⟨n, last, final, hrun, hfinal⟩ := ih _ hless (hc.step rfl (step_of_eq hstep)) known' rfl
    refine ⟨n + 1, last, final, ?_, hfinal⟩
    rw [List.replicate_succ, run_cons, hstep]
    exact hrun
  · exact ⟨0, c, j, rfl, known, hstage⟩

/-- A join that is over has let go of all its jobs. -/
theorem letGo_of_ended (hstage : j.stage = .ended answer) {id : Nat} (hid : id ∈ j.ids) :
    id ∈ c.chronicle.letGo := by
  have hheld : j.held = [] := by simp only [Join.held, hstage, Stage.held]
  have hiff := (hc.fair j (List.mem_of_getElem? known)).lets_go id hid
  rw [hheld] at hiff
  exact Decidable.of_not_not fun hnot => List.not_mem_nil (hiff.mpr hnot)

end Orderly

/-- What becomes of a join and of its jobs. -/
structure Answered (c : Joins) (k : Nat) (j : Join) : Prop where
  submits : ∃ n c' j', c.run (List.replicate n (.go k)) = some c' ∧
    c'.joins[k]? = some j' ∧ j'.stage ≠ .submitting
  jobs : j.ids.Nodup ∧ (∀ id ∈ j.ids, id ∈ c.chronicle.submittedIds) ∧
    (j.stage ≠ .submitting → j.ids.length = j.combinator.effects)
  /-- The order in which its jobs settle decides when a join ends and what it answers. -/
  answers : j.stage ≠ .submitting → j.combinator ≠ .timeout → ∀ answer,
    c.Ends k answer ↔ j.combinator.Answers j.ids (c.chronicle.settled j.ids) answer
  /-- A join that is over has taken or released its jobs, and none of them stays. -/
  collected : ∀ answer, j.stage = .ended answer → ∀ id ∈ j.ids,
    ((∃ outcome, .taken id outcome ∈ c.chronicle.events) ∨ .released id ∈ c.chronicle.events) ∧
    ∀ number outcome, .finished id number outcome ∈ c.chronicle.events →
      c.chronicle.scheduler.find? id = none

theorem Orderly.answered (hc : Orderly c) (known : c.joins[k]? = some j) : Answered c k j where
  submits := hc.submits known
  jobs := by
    have hplaced := hc.nested.placed j (List.mem_of_getElem? known)
    refine ⟨hplaced.nodup, fun id hid => ?_, hplaced.complete⟩
    obtain ⟨hpos, hlt⟩ := hplaced.known id hid
    rw [hc.nested.books.nextId] at hlt
    rw [hc.nested.books.submitted, List.mem_range'_1]
    omega
  answers hsubmitted hlimit answer :=
    ⟨hc.answers_of_ends known hsubmitted, hc.ends known hsubmitted hlimit⟩
  collected answer hstage id hid := by
    have hgone := hc.letGo_of_ended known hstage hid
    exact ⟨Chronicle.mem_letGo.mp hgone, fun number outcome =>
      hc.nested.sound.find?_eq_none hgone⟩

/-- However the jobs of a join settle, the order in which they do decides the answer, as long as
nobody else takes or releases them. -/
theorem answered_of_run {count : Nat} {moves : List JoinMove}
    (h : (start count).run moves = some c) (hdiscreet : (start count).discreet moves = true)
    (known : c.joins[k]? = some j) : Answered c k j :=
  (orderly_of_run (.start count) hdiscreet h).answered known

/-- Of three effects the last succeeds first, and then the first fails. The second goes on, but
nobody waits for it any more. -/
def thirdThenFirst : List JoinMove :=
  [.join none (.all 3), .go 0, .go 0, .go 0, .pool (.start 0), .pool (.start 1), .pool (.start 2),
    .pool (.finish 2 (.ok .null)), .go 0, .pool (.finish 0 (.error .timeout)), .go 0, .go 0, .go 0,
    .go 0, .pool (.finish 1 (.ok .null))]

theorem answered_thirdThenFirst : ∃ c j, (start 1).run thirdThenFirst = some c ∧
    c.joins[0]? = some j ∧ j.stage = .ended (.error .timeout) ∧ Answered c 0 j := by
  have hdone : ((start 1).run thirdThenFirst).isSome = true := rfl
  have hrun := (Option.some_get hdone).symm
  exact ⟨_, _, hrun, rfl, rfl, answered_of_run hrun rfl rfl⟩

end Joins
end EntityMachines
