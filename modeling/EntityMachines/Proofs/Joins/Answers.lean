import Mathlib.Data.List.Forall2
import Mathlib.Data.List.Nodup
import EntityMachines.Proofs.Joins.Steps

/-!
What joins make of their jobs depends on the order in which these settle, and on nothing else. The
values of all effects come in the order of the effects; an error is that of the job that failed
first, and a race is won by the job that settled first. When a join is over, it has taken or
released each of its jobs.
-/
namespace EntityMachines

/-- What a combinator answers when its jobs settle in some order. -/
inductive Combinator.Answers (ids : List Nat) (order : List (Nat × Except Error Value)) :
    Combinator → Except Error Value → Prop
  /-- All jobs have succeeded. -/
  | values {n : Nat} {values : List Value}
      (each : List.Forall₂ (fun id v => (id, .ok v) ∈ order) ids values) :
      Answers ids order (.all n) (.ok (.array values))
  /-- A job has failed before any other. -/
  | failure {n id : Nat} {e : Error} {before after : List (Nat × Except Error Value)}
      (first : order = before ++ (id, .error e) :: after)
      (succeed : ∀ entry ∈ before, ∃ v, entry.2 = .ok v) : Answers ids order (.all n) (.error e)
  | winner {combinator : Combinator} {id : Nat} {outcome : Except Error Value}
      {after : List (Nat × Except Error Value)} (takes : combinator.takesFirst = true)
      (first : order = (id, outcome) :: after) : Answers ids order combinator outcome
  /-- Nobody takes part in the race. -/
  | nobody {n : Nat} (none : ids = []) : Answers ids order (.race n) (.ok .undefined)
  | expired : Answers ids order .timeout (.error .timeout)

section Order

variable {ids : List Nat} {order more done rest : List (Nat × Except Error Value)}
  {combinator : Combinator} {a b : Except Error Value}

/-- What settles later does not change an answer. -/
theorem Combinator.Answers.extend (h : combinator.Answers ids order a) :
    combinator.Answers ids (order ++ more) a := by
  cases h with
  | values each => exact .values (each.imp fun _ _ h => List.mem_append_left _ h)
  | failure first succeed =>
    exact .failure (by rw [first, List.append_assoc, List.cons_append]) succeed
  | winner takes first => exact .winner takes (by rw [first, List.cons_append])
  | nobody none => exact .nobody none
  | expired => exact .expired

theorem eq_of_mem_order (hnodup : (order.map Prod.fst).Nodup) {id : Nat} (ha : (id, a) ∈ order)
    (hb : (id, b) ∈ order) : a = b :=
  (Prod.mk.inj (List.inj_on_of_nodup_map hnodup ha hb rfl)).2

theorem exists_value {R : Nat → Value → Prop} {values : List Value} (h : List.Forall₂ R ids values)
    {id : Nat} (hid : id ∈ ids) : ∃ v, R id v := by
  obtain ⟨i, rfl⟩ := List.mem_iff_get.mp hid
  exact ⟨_, h.get i.2 (h.length_eq ▸ i.2)⟩

/-- The first failure is the only one before which all jobs succeed. -/
theorem first_failure_unique {before after before' after' : List (Nat × Except Error Value)}
    {id id' : Nat} {e e' : Error}
    (h : before ++ (id, .error e) :: after = before' ++ (id', .error e') :: after')
    (hok : ∀ entry ∈ before, ∃ v, entry.2 = .ok v)
    (hok' : ∀ entry ∈ before', ∃ v, entry.2 = .ok v) : e = e' := by
  induction before generalizing before' with
  | nil =>
    cases before' with
    | nil =>
      injection h with heq
      injection heq with _ heq
      injection heq
    | cons entry before' =>
      injection h with heq
      obtain ⟨v, hv⟩ := hok' entry List.mem_cons_self
      rw [← heq] at hv
      cases hv
  | cons entry before ih =>
    obtain ⟨v, hv⟩ := hok entry List.mem_cons_self
    cases before' with
    | nil =>
      injection h with heq
      rw [heq] at hv
      cases hv
    | cons entry' before' =>
      injection h with _ htail
      exact ih htail (fun x hx => hok x (List.mem_cons_of_mem _ hx))
        fun x hx => hok' x (List.mem_cons_of_mem _ hx)

/-- Where one job fails, not all jobs have values. -/
theorem not_all_values (hnodup : (order.map Prod.fst).Nodup) {values : List Value}
    (each : List.Forall₂ (fun id v => (id, .ok v) ∈ order) ids values) {id : Nat} (hid : id ∈ ids)
    {e : Error} : (id, .error e) ∉ order := by
  intro hmem
  obtain ⟨v, hv⟩ := exists_value each hid
  cases eq_of_mem_order hnodup hv hmem

/-- The order decides: there is no more than one answer, unless time decides. -/
theorem Combinator.Answers.unique (hlimit : combinator ≠ .timeout) (hnodup : (order.map Prod.fst).Nodup)
    (hids : ∀ entry ∈ order, entry.1 ∈ ids) (ha : combinator.Answers ids order a)
    (hb : combinator.Answers ids order b) : a = b := by
  have hfails {id : Nat} {e : Error} {before after : List (Nat × Except Error Value)}
      (first : order = before ++ (id, .error e) :: after) : id ∈ ids ∧ (id, .error e) ∈ order := by
    have hmem : (id, .error e) ∈ order := first ▸ List.mem_append_right _ List.mem_cons_self
    exact ⟨hids _ hmem, hmem⟩
  have hwinner {id : Nat} {outcome : Except Error Value} {after : List (Nat × Except Error Value)}
      (first : order = (id, outcome) :: after) : ids ≠ [] :=
    List.ne_nil_of_mem (hids _ (first ▸ List.mem_cons_self))
  cases ha with
  | values each =>
    cases hb with
    | values each' =>
      have hunique : Relator.RightUnique fun (id : Nat) (v : Value) => (id, Except.ok v) ∈ order :=
        fun _ _ _ h h' => Except.ok.inj (eq_of_mem_order hnodup h h')
      rw [List.right_unique_forall₂' hunique each each']
    | failure first succeed =>
      obtain ⟨hid, hmem⟩ := hfails first
      exact absurd hmem (not_all_values hnodup each hid)
    | winner takes => cases takes
  | failure first succeed =>
    cases hb with
    | winner takes => cases takes
    | values each =>
      obtain ⟨hid, hmem⟩ := hfails first
      exact absurd hmem (not_all_values hnodup each hid)
    | failure first' succeed' =>
      rw [first_failure_unique (first.symm.trans first') succeed succeed']
  | winner takes first =>
    cases hb with
    | values | failure => cases takes
    | winner takes' first' =>
      injection first.symm.trans first' with heq
      injection heq
    | nobody none => exact absurd none (hwinner first)
    | expired => exact absurd rfl hlimit
  | nobody none =>
    cases hb with
    | winner takes first => exact absurd none (hwinner first)
    | nobody => rfl
  | expired => exact absurd rfl hlimit

end Order

/-- The outcomes that were taken so far are values, each at the place of its job. The other jobs are
left. -/
structure Collected (ids : List Nat) (values : List Value) (done : List (Nat × Except Error Value))
    (left : List Nat) : Prop where
  perm : (done.map Prod.fst ++ left).Perm ids
  length : values.length = ids.length
  places : ∀ entry ∈ done, ∃ v, entry.2 = .ok v ∧ values[ids.idxOf entry.1]? = some v

namespace Collected

variable {ids left pending : List Nat} {values : List Value} {id : Nat} {v : Value}
  {order done rest : List (Nat × Except Error Value)}

theorem start (ids : List Nat) (v : Value) :
    Collected ids (List.replicate ids.length v) [] ids where
  perm := .rfl
  length := List.length_replicate
  places _ hentry := absurd hentry List.not_mem_nil

theorem take (h : Collected ids values done (id :: pending)) (hids : ids.Nodup) :
    Collected ids (values.set (ids.idxOf id) v) (done ++ [(id, .ok v)]) pending where
  perm := by
    rw [List.map_append, List.append_assoc]
    exact h.perm
  length := List.length_set.trans h.length
  places := by
    have hid : id ∈ ids := h.perm.subset (List.mem_append_right _ List.mem_cons_self)
    have hnodup := List.nodup_append.mp (h.perm.nodup_iff.mpr hids)
    intro entry hentry
    rcases List.mem_append.mp hentry with hentry | hentry
    · obtain ⟨u, hu, hplace⟩ := h.places entry hentry
      have hmem : entry.1 ∈ done.map Prod.fst := List.mem_map_of_mem hentry
      have hne : entry.1 ≠ id := hnodup.2.2 _ hmem _ List.mem_cons_self
      refine ⟨u, hu, ?_⟩
      rw [List.getElem?_set_ne, hplace]
      exact fun heq => hne (List.idxOf_inj hid |>.mp heq).symm
    · cases List.mem_singleton.mp hentry
      refine ⟨v, rfl, List.getElem?_set_self ?_⟩
      rw [h.length]
      exact List.idxOf_lt_length_of_mem hid

/-- Once no job is left, there is a value for each of them. -/
theorem each (h : Collected ids values done []) (hids : ids.Nodup)
    (hdone : ∀ entry ∈ done, entry ∈ order) :
    List.Forall₂ (fun id v => (id, .ok v) ∈ order) ids values := by
  refine List.forall₂_iff_get.mpr ⟨h.length.symm, fun i hi hi' => ?_⟩
  have hmem : ids.get ⟨i, hi⟩ ∈ done.map Prod.fst := by
    have hperm := h.perm
    rw [List.append_nil] at hperm
    exact hperm.mem_iff.mpr (List.get_mem _ _)
  obtain ⟨⟨id, outcome⟩, hentry, hid⟩ := List.mem_map.mp hmem
  obtain ⟨v, hv, hplace⟩ := h.places _ hentry
  dsimp only at hid hv hplace
  subst hid hv
  rw [List.get_eq_getElem, hids.idxOf_getElem, List.getElem?_eq_getElem hi',
    Option.some.injEq] at hplace
  rw [List.get_eq_getElem, List.get_eq_getElem, hplace]
  exact hdone _ hentry

/-- What has settled and was not taken is left. -/
theorem filter_eq (h : Collected ids values done pending) (hids : ids.Nodup)
    (hnodup : ((done ++ rest).map Prod.fst).Nodup) (hmem : ∀ entry ∈ done ++ rest, entry.1 ∈ ids) :
    (done ++ rest).filter (fun entry => entry.1 ∈ pending) = rest := by
  have hsplit := List.nodup_append.mp (h.perm.nodup_iff.mpr hids)
  rw [List.map_append] at hnodup
  have hdone : done.filter (fun entry => decide (entry.1 ∈ pending)) = [] := by
    refine List.filter_eq_nil_iff.mpr fun entry hentry hpending => ?_
    exact hsplit.2.2 _ (List.mem_map_of_mem hentry) _ (of_decide_eq_true hpending) rfl
  have hrest : rest.filter (fun entry => decide (entry.1 ∈ pending)) = rest := by
    refine List.filter_eq_self.mpr fun entry hentry => decide_eq_true ?_
    have hid := h.perm.mem_iff.mpr (hmem entry (List.mem_append_right _ hentry))
    refine (List.mem_append.mp hid).resolve_left fun hdone => ?_
    exact (List.nodup_append.mp hnodup).2.2 _ hdone _ (List.mem_map_of_mem hentry) rfl
  rw [List.filter_append, hdone, hrest]
  rfl

end Collected

/-- How a join may stand when its jobs have settled in some order so far. -/
inductive Course (ids : List Nat) (values : List Value) (order : List (Nat × Except Error Value)) :
    Combinator → Stage → Prop
  | submitting {combinator : Combinator} : Course ids values order combinator .submitting
  | collecting {n : Nat} {pending : List Nat} {done rest : List (Nat × Except Error Value)}
      (split : order = done ++ rest) (collected : Collected ids values done pending) :
      Course ids values order (.all n) (.waiting pending)
  | collects {n id : Nat} {pending : List Nat} {outcome : Except Error Value}
      {done rest : List (Nat × Except Error Value)} (split : order = done ++ (id, outcome) :: rest)
      (collected : Collected ids values done (id :: pending)) :
      Course ids values order (.all n) (.taking id pending)
  | failing {n id : Nat} {rest : List Nat} {e : Error}
      (answers : (Combinator.all n).Answers ids order (.error e)) :
      Course ids values order (.all n) (.releasing id rest (.error e))
  | expiring {id : Nat} {rest : List Nat} :
      Course ids values order .timeout (.releasing id rest (.error .timeout))
  | racing {combinator : Combinator} (takes : combinator.takesFirst = true) :
      Course ids values order combinator (.waiting ids)
  | winning {combinator : Combinator} {first id : Nat} {rest : List Nat}
      {outcome : Except Error Value} {after : List (Nat × Except Error Value)}
      (takes : combinator.takesFirst = true) (split : order = (id, outcome) :: after) :
      Course ids values order combinator (.releasing first rest (.ok id))
  | wins {combinator : Combinator} {id : Nat} {pending : List Nat} {outcome : Except Error Value}
      {after : List (Nat × Except Error Value)} (takes : combinator.takesFirst = true)
      (split : order = (id, outcome) :: after) :
      Course ids values order combinator (.taking id pending)
  | ended {combinator : Combinator} {answer : Except Error Value}
      (answers : combinator.Answers ids order answer) :
      Course ids values order combinator (.ended answer)

namespace Course

variable {ids rest pending : List Nat} {values : List Value} {combinator : Combinator}
  {stage : Stage} {order more : List (Nat × Except Error Value)} {n id : Nat}
  {outcome : Except Error Value}

theorem extend (h : Course ids values order combinator stage) :
    Course ids values (order ++ more) combinator stage := by
  cases h with
  | submitting => exact .submitting
  | collecting split collected =>
    exact .collecting (by rw [split, List.append_assoc]) collected
  | collects split collected =>
    exact .collects (by rw [split, List.append_assoc, List.cons_append]) collected
  | failing answers => exact .failing answers.extend
  | expiring => exact .expiring
  | racing takes => exact .racing takes
  | winning takes split => exact .winning takes (by rw [split, List.cons_append])
  | wins takes split => exact .wins takes (by rw [split, List.cons_append])
  | ended answers => exact .ended answers.extend

theorem release_failed {e : Error} (h : (Combinator.all n).Answers ids order (.error e))
    (rest : List Nat) : Course ids values order (.all n) (.release rest (.error e)) := by
  cases rest with
  | nil => exact .ended h
  | cons id rest => exact .failing h

theorem release_lost {after : List (Nat × Except Error Value)}
    (takes : combinator.takesFirst = true) (h : order = (id, outcome) :: after) (rest : List Nat) :
    Course ids values order combinator (.release rest (.ok id)) := by
  cases rest with
  | nil => exact .wins takes h
  | cons id rest => exact .winning takes h

theorem release_expired (rest : List Nat) :
    Course ids values order .timeout (.release rest (.error .timeout)) := by
  cases rest with
  | nil => exact .ended .expired
  | cons id rest => exact .expiring

end Course

namespace Join

variable {j : Join} {order more : List (Nat × Except Error Value)} {id : Nat}
  {pending rest : List Nat}

/-- A join has made of its jobs what the order in which they have settled so far demands. -/
def Follows (order : List (Nat × Except Error Value)) (j : Join) : Prop :=
  Course j.ids j.values order j.combinator j.stage

theorem Follows.start (order : List (Nat × Except Error Value)) (caller : Option Nat)
    (combinator : Combinator) : (start caller combinator).Follows order := by
  match combinator with
  | .all 0 => exact .ended (.values .nil)
  | .race 0 => exact .ended (.nobody rfl)
  | .all (n + 1) | .race (n + 1) | .timeout => exact .submitting

theorem Follows.submit (hstage : j.stage = .submitting) : (j.submit id).Follows order := by
  obtain ⟨caller, combinator, ids, values, stage⟩ := j
  cases hstage
  unfold Join.submit
  dsimp only
  split
  next => exact .submitting
  next =>
    cases combinator with
    | all n => exact .collecting (List.nil_append order).symm (.start _ _)
    | race n => exact .racing rfl
    | timeout => exact .racing rfl

theorem Follows.wake (h : j.Follows order) (hstage : j.stage = .waiting pending)
    (hids : j.ids.Nodup) (hnodup : (order.map Prod.fst).Nodup)
    (hmem : ∀ entry ∈ order, entry.1 ∈ j.ids) (hid : id ∈ pending)
    (hfirst : (order.filter fun entry => entry.1 ∈ pending).head?.map Prod.fst = some id) :
    (j.wake id pending).Follows order := by
  obtain ⟨caller, combinator, ids, values, stage⟩ := j
  cases hstage
  obtain ⟨⟨first, outcome⟩, hhead, rfl⟩ := Option.map_eq_some_iff.mp hfirst
  obtain ⟨after, hafter⟩ := List.head?_eq_some_iff.mp hhead
  have hcourse : Course ids values order combinator (.waiting pending) := h
  cases hcourse with
  | collecting split collected =>
    subst split
    rw [collected.filter_eq hids hnodup hmem] at hafter
    subst hafter
    have hpending := (List.nodup_append.mp (collected.perm.nodup_iff.mpr hids)).2.1
    have hperm := (Scheduler.perm_cons_filter hpending hid).symm
    exact .collects rfl ⟨(hperm.append_left _).trans collected.perm, collected.length,
      collected.places⟩
  | racing takes =>
    have hall : order.filter (fun entry => decide (entry.1 ∈ pending)) = order :=
      List.filter_eq_self.mpr fun entry hentry => decide_eq_true (hmem entry hentry)
    unfold Join.wake
    dsimp only
    rw [if_pos takes]
    exact .release_lost takes (hall.symm.trans hafter) _

theorem Follows.receive {outcome : Except Error Value} (h : j.Follows order)
    (hstage : j.stage = .taking id pending) (hids : j.ids.Nodup)
    (houtcome : ∀ o, (id, o) ∈ order → o = outcome) :
    (j.receive id pending outcome).Follows order := by
  obtain ⟨caller, combinator, ids, values, stage⟩ := j
  cases hstage
  cases h with
  | @collects n _ _ o done rest split collected =>
    subst split
    cases houtcome o (List.mem_append_right _ List.mem_cons_self)
    cases outcome with
    | ok v =>
      have htaken := collected.take (v := v) hids
      cases pending with
      | nil =>
        refine .ended (.values (htaken.each hids fun entry hentry => ?_))
        rcases List.mem_append.mp hentry with hentry | hentry
        · exact List.mem_append_left _ hentry
        · rw [List.mem_singleton.mp hentry]
          exact List.mem_append_right _ List.mem_cons_self
      | cons next pending => exact .collecting (List.append_cons done (id, .ok v) rest) htaken
    | error e =>
      refine .release_failed (.failure rfl fun entry hentry => ?_) pending
      obtain ⟨v, hv, -⟩ := collected.places entry hentry
      exact ⟨v, hv⟩
  | @wins _ _ _ o after takes split =>
    subst split
    cases houtcome o List.mem_cons_self
    unfold Join.receive
    rw [if_pos takes]
    exact .ended (.winner takes rfl)

/-- A join takes what has settled. -/
theorem Follows.exists_outcome (h : j.Follows order) (hstage : j.stage = .taking id pending) :
    ∃ outcome, (id, outcome) ∈ order := by
  obtain ⟨caller, combinator, ids, values, stage⟩ := j
  cases hstage
  cases h with
  | collects split => exact ⟨_, split ▸ List.mem_append_right _ List.mem_cons_self⟩
  | wins _ split => exact ⟨_, split ▸ List.mem_cons_self⟩

theorem Follows.released {next : Except Error Nat} (h : j.Follows order)
    (hstage : j.stage = .releasing id rest next) :
    Follows order { j with stage := .release rest next } := by
  obtain ⟨caller, combinator, ids, values, stage⟩ := j
  cases hstage
  cases h with
  | failing answers => exact .release_failed answers rest
  | expiring => exact .release_expired rest
  | winning takes split => exact .release_lost takes split rest

theorem Follows.expire (hlimited : j.combinator = .timeout) (pending : List Nat) :
    Follows order { j with stage := .release pending (.error .timeout) } := by
  obtain ⟨caller, combinator, ids, values, stage⟩ := j
  cases hlimited
  exact .release_expired pending

end Join
end EntityMachines
