import EntityMachines.Proofs.Joins.Answers

/-!
Joins end as the order in which their jobs settle demands, and leave none of their jobs behind, as
long as nobody else takes or releases these jobs.
-/
namespace EntityMachines

namespace Scheduler

variable {s s' : Scheduler Value} {move : SchedulerMove Value} {e : JobEvent Value} {id : Nat}

/-- Only who takes or releases a job lets it go. -/
theorem Step.letsGo (h : Step s move (some e) s') (he : e.letsGo? = some id) :
    move = .take id ∨ move = .release id := by
  cases h with
  | submit | start | finish => cases he
  | take =>
    cases he
    exact .inl rfl
  | drop | abandon =>
    cases he
    exact .inr rfl

end Scheduler

namespace Join

variable {c c' : Chronicle Value} {j j' : Join} {id : Nat} {pending : List Nat}

theorem ids_submit (j : Join) (id : Nat) : (j.submit id).ids = j.ids ++ [id] := by
  unfold submit
  dsimp only
  split <;> rfl

theorem held_submit (hstage : j.stage = .submitting) (id : Nat) :
    (j.submit id).held = j.ids ++ [id] := by
  unfold submit held
  dsimp only
  split
  next => simp [hstage, Stage.held]
  next => rfl

theorem held_wake (hnodup : pending.Nodup) (hid : id ∈ pending) :
    (j.wake id pending).held.Perm pending := by
  unfold wake held
  dsimp only
  split
  next => exact Stage.held_release _ _ _ ▸ perm_filter_append hnodup hid
  next => exact (Scheduler.perm_cons_filter hnodup hid).symm

theorem ids_wake (j : Join) (id : Nat) (pending : List Nat) : (j.wake id pending).ids = j.ids := by
  unfold wake
  dsimp only
  split <;> rfl

theorem ids_receive (j : Join) (id : Nat) (pending : List Nat) (outcome : Except Error Value) :
    (j.receive id pending outcome).ids = j.ids := by
  unfold receive
  split
  next => rfl
  next =>
    cases outcome with
    | ok v =>
      dsimp only
      split <;> rfl
    | error e => rfl

theorem held_receive (halone : j.combinator.takesFirst = true → pending = [])
    (outcome : Except Error Value) : (j.receive id pending outcome).held = pending := by
  unfold receive held
  split
  next htakes => exact (halone htakes).symm
  next =>
    cases outcome with
    | ok v =>
      dsimp only
      split
      next hnone => exact (List.isEmpty_iff.mp hnone).symm
      next => rfl
    | error e => exact (Stage.held_release _ _ _).trans (List.append_nil _)

/-- A join has made of its jobs what it had to, and those that it does not hold are let go. -/
structure Fair (c : Chronicle Value) (j : Join) : Prop where
  lets_go : ∀ id ∈ j.ids, id ∈ j.held ↔ id ∉ c.letGo
  follows : j.Follows (c.settled j.ids)

/-- What happens otherwise does not matter to a join, unless its jobs are let go. -/
theorem Fair.others {event : Option (JobEvent Value)} (h : j.Fair c)
    (hevents : c'.events = c.events ++ event.toList)
    (hfree : ∀ id, event.bind JobEvent.letsGo? = some id → id ∉ j.ids) : j.Fair c' where
  lets_go id hid := by
    have hnot : id ∉ (event.bind JobEvent.letsGo?).toList :=
      fun hmem => hfree id (Option.mem_toList.mp hmem) hid
    rw [Chronicle.letGo_later hevents, List.mem_append, or_iff_left hnot]
    exact h.lets_go id hid
  follows := by
    obtain ⟨more, hmore⟩ := Chronicle.settled_later hevents j.ids
    unfold Follows
    rw [hmore]
    exact h.follows.extend

theorem Fair.submit {name : Text} (h : j.Fair c) (hc : c.Sound) (hstage : j.stage = .submitting)
    (hstep : c.step (.submit name) = some c') : (j.submit c.scheduler.nextId).Fair c' where
  lets_go id hid := by
    have hevents : c'.events
        = c.events ++ (some (JobEvent.submitted c.scheduler.nextId)).toList := by
      cases hstep
      rfl
    have hsame : c'.letGo = c.letGo :=
      (Chronicle.letGo_later hevents).trans (List.append_nil _)
    rw [ids_submit] at hid
    rw [held_submit hstage, hsame]
    refine iff_of_true hid ?_
    rcases List.mem_append.mp hid with hid | hid
    · exact (h.lets_go id hid).mp (by simpa [held, hstage, Stage.held] using hid)
    · rw [List.mem_singleton.mp hid]
      exact fun hmem => Nat.lt_irrefl _ (hc.lt_of_letGo hmem)
  follows := .submit hstage

/-- A job that is taken or released is let go, and the join no longer holds it. -/
theorem Fair.lose {e : JobEvent Value} {left : List Nat} (h : j.Fair c)
    (hevents : c'.events = c.events ++ (some e).toList) (he : e.letsGo? = some id)
    (hheld : j.held = id :: left) (hnodup : j.held.Nodup) :
    ∀ x ∈ j.ids, x ∈ left ↔ x ∉ c'.letGo := by
  intro x hx
  have hgone : c'.letGo = c.letGo ++ [id] := by
    rw [Chronicle.letGo_later hevents, Option.bind_some, he]
    rfl
  have hfresh : id ∉ left := (List.nodup_cons.mp (hheld ▸ hnodup)).1
  have hiff := h.lets_go x hx
  rw [hheld, List.mem_cons] at hiff
  rw [hgone, List.mem_append, List.mem_singleton]
  by_cases hid : x = id
  · subst hid
    exact iff_of_false hfresh fun hnot => hnot (.inr rfl)
  · rw [or_iff_right hid] at hiff
    rw [or_iff_left hid]
    exact hiff

variable (hc : c.Sound) (hb : c.Books) (hj : j.Placed c.scheduler) (h : j.Fair c)
include hc hj h

/-- A job that a join holds is known. -/
theorem Fair.find?_held (hid : id ∈ j.held) : ∃ job, c.scheduler.find? id = some job := by
  have hmem := hj.held_sub id hid
  exact hc.find?_held (hj.known id hmem) ((h.lets_go id hmem).mp hid)

omit hc h in
theorem Placed.settled_filter (hheld : j.held = pending) :
    c.settled pending = (c.settled j.ids).filter fun entry => entry.1 ∈ pending := by
  unfold Chronicle.settled
  rw [List.filter_map, List.filter_filter]
  congr 1
  refine List.filter_congr fun entry _ => ?_
  by_cases hid : entry.1 ∈ pending
  · simp [hid, hj.held_sub entry.1 (hheld ▸ hid)]
  · simp [hid]

include hb in
theorem Fair.wake (hstage : j.stage = .waiting pending)
    (hfirst : c.scheduler.firstSettled? pending = some id) : (j.wake id pending).Fair c where
  lets_go x hx := by
    have hheld : j.held = pending := by simp [held, hstage, Stage.held]
    rw [ids_wake] at hx
    have hid := (Scheduler.firstSettled?_least hfirst).1
    rw [(held_wake (hheld ▸ hj.held_nodup) hid).mem_iff, ← hheld]
    exact h.lets_go x hx
  follows := by
    have hheld : j.held = pending := by simp [held, hstage, Stage.held]
    have hknown : ∀ x ∈ pending, ∃ job, c.scheduler.find? x = some job :=
      fun x hx => h.find?_held hc hj (hheld ▸ hx)
    have hpending := (Scheduler.firstSettled?_least hfirst).1
    rw [hc.firstSettled?_eq hb hknown, hj.settled_filter hheld] at hfirst
    have hmem : ∀ entry ∈ c.settled j.ids, entry.1 ∈ j.ids :=
      fun entry hentry => (Chronicle.mem_settled.mp hentry).1
    rw [ids_wake]
    exact h.follows.wake hstage hj.nodup (hb.settled_nodup j.ids) hmem hpending hfirst

include hb in
/-- A join takes the outcome with which its job has settled. -/
theorem Fair.receive (hstage : j.stage = .taking id pending)
    (hstep : c.step (.take id) = some c') :
    (j.receive id pending (c.scheduler.take id).1).Fair c' := by
  have hheld : j.held = id :: pending := by simp [held, hstage, Stage.held]
  obtain ⟨outcome, hsettled⟩ := h.follows.exists_outcome hstage
  obtain ⟨-, number, hfinished⟩ := Chronicle.mem_settled.mp hsettled
  obtain ⟨job, hjob⟩ := h.find?_held hc hj (hheld ▸ List.mem_cons_self)
  have hstatus := (hc.settled_iff hjob).mpr hfinished
  rw [Scheduler.take_settled hjob hstatus]
  have hnext := Option.some.inj (hstep.symm.trans (Chronicle.step_take_settled hjob hstatus))
  have hevents : c'.events = c.events ++ (some (JobEvent.taken id outcome)).toList :=
    congrArg Chronicle.events hnext
  refine ⟨fun x hx => ?_, ?_⟩
  · rw [ids_receive] at hx
    rw [held_receive (hj.alone id pending hstage)]
    exact h.lose hevents rfl hheld hj.held_nodup x hx
  · rw [ids_receive, Chronicle.settled_same hevents rfl]
    refine h.follows.receive hstage hj.nodup fun o ho => ?_
    exact eq_of_mem_order (hb.settled_nodup j.ids) ho hsettled

theorem Fair.released {rest : List Nat} {next : Except Error Nat}
    (hstage : j.stage = .releasing id rest next) (hstep : c.step (.release id) = some c') :
    Fair c' { j with stage := .release rest next } := by
  have hheld : j.held = id :: (rest ++ next.toOption.toList) := by
    simp [held, hstage, Stage.held]
  obtain ⟨job, hjob⟩ := h.find?_held hc hj (hheld ▸ List.mem_cons_self)
  have hnext := Option.some.inj (hstep.symm.trans (Chronicle.step_release_known hjob))
  have hevents : c'.events = c.events ++ (some (JobEvent.released id)).toList :=
    congrArg Chronicle.events hnext
  refine ⟨fun x hx => ?_, ?_⟩
  · have hleft : held { j with stage := .release rest next } = rest ++ next.toOption.toList :=
      Stage.held_release _ _ _
    rw [hleft]
    exact h.lose hevents rfl hheld hj.held_nodup x hx
  · have hsame := Chronicle.settled_same hevents rfl j.ids
    exact hsame.symm ▸ h.follows.released hstage

include hb in
theorem Fair.go (hgo : Go c j c' j') : j'.Fair c' := by
  cases hgo with
  | submit stage step => exact h.submit hc stage step
  | wake stage first => exact h.wake hc hb hj stage first
  | receive stage step => exact h.receive hc hb hj stage step
  | release stage step => exact h.released hc hj stage step

omit hc h in
/-- A join lets go of its own jobs only. -/
theorem Placed.events (hgo : Go c j c' j') : ∃ event : Option (JobEvent Value),
    c'.events = c.events ++ event.toList ∧
      ∀ id, event.bind JobEvent.letsGo? = some id → id ∈ j.ids := by
  have hown {move : SchedulerMove Value} (hstep : c.step move = some c')
      (hids : ∀ id, move = .take id ∨ move = .release id → id ∈ j.ids) :
      ∃ event : Option (JobEvent Value), c'.events = c.events ++ event.toList ∧
        ∀ id, event.bind JobEvent.letsGo? = some id → id ∈ j.ids := by
    obtain ⟨event, hmove, hevents⟩ := Chronicle.step_eq_some hstep
    refine ⟨event, hevents, fun id hid => ?_⟩
    obtain ⟨e, rfl, he⟩ := Option.bind_eq_some_iff.mp hid
    exact hids id (hmove.letsGo he)
  cases hgo with
  | submit stage step => exact hown step fun id hid => by rcases hid with h | h <;> cases h
  | wake => exact ⟨none, (List.append_nil _).symm, fun id hid => by cases hid⟩
  | receive stage step =>
    refine hown step fun x hx => hj.held_sub x ?_
    rcases hx with h | h <;> cases h
    simp [held, stage, Stage.held]
  | release stage step =>
    refine hown step fun x hx => hj.held_sub x ?_
    rcases hx with h | h <;> cases h
    simp [held, stage, Stage.held]

omit hc hj h in
theorem mem_ids_go (hgo : Go c j c' j') (hid : id ∈ j'.ids) :
    id ∈ j.ids ∨ id = c.scheduler.nextId := by
  cases hgo with
  | submit =>
    rw [ids_submit] at hid
    exact (List.mem_append.mp hid).imp_right List.mem_singleton.mp
  | wake => exact .inl (ids_wake j _ _ ▸ hid)
  | receive => exact .inl (ids_receive j _ _ _ ▸ hid)
  | release => exact .inl hid

end Join

/-- What stands in a list that was changed at one place. -/
theorem getElem?_of_set {α : Type} {l : List α} {k m : Nat} {x y : α}
    (h : (l.set k x)[m]? = some y) : k = m ∧ y = x ∨ k ≠ m ∧ l[m]? = some y := by
  rw [List.getElem?_set] at h
  split at h
  next hkm =>
    split at h
    next => exact .inl ⟨hkm, (Option.some.inj h).symm⟩
    next => cases h
  next hkm => exact .inr ⟨hkm, h⟩

theorem getElem?_of_snoc {α : Type} {l : List α} {m : Nat} {x y : α}
    (h : (l ++ [x])[m]? = some y) : l[m]? = some y ∨ y = x := by
  rw [List.getElem?_append] at h
  split at h
  next => exact .inl h
  next => exact .inr (List.mem_singleton.mp (List.mem_of_getElem? h))

namespace Joins

variable {c c' : Joins} {move : JoinMove} {moves : List JoinMove}

/-- All joins are fair, and no two of them have to do with the same job. -/
structure Orderly (c : Joins) : Prop where
  nested : Nested c
  apart : ∀ (k l : Nat) (i j : Join), k ≠ l → c.joins[k]? = some i → c.joins[l]? = some j →
    ∀ id ∈ i.ids, id ∉ j.ids
  fair : ∀ j ∈ c.joins, j.Fair c.chronicle

namespace Orderly

theorem start (count : Nat) : Orderly (start count) where
  nested := .start count
  apart k l i j _ hi := by cases hi
  fair j hj := absurd hj List.not_mem_nil

variable (hc : Orderly c)
include hc

theorem pool {move : SchedulerMove Value} {chronicle : Chronicle Value}
    (hstep : c.chronicle.step move = some chronicle) (hdiscreet : c.meddles (.pool move) = false) :
    Orderly { c with chronicle } where
  nested := hc.nested.moved hstep
  apart := hc.apart
  fair j hj := by
    obtain ⟨event, hmove, hevents⟩ := Chronicle.step_eq_some hstep
    refine (hc.fair j hj).others hevents fun id hid hmem => ?_
    obtain ⟨e, rfl, he⟩ := Option.bind_eq_some_iff.mp hid
    have hmeddles : (c.joins.any fun j => j.ids.contains id) = true :=
      List.any_eq_true.mpr ⟨j, hj, List.contains_iff_mem.mpr hmem⟩
    rcases hmove.letsGo he with rfl | rfl <;>
      exact Bool.false_ne_true (hdiscreet.symm.trans hmeddles)

theorem join {caller : Option Nat} {combinator : Combinator}
    (hnested : Nested { c with joins := c.joins ++ [.start caller combinator] }) :
    Orderly { c with joins := c.joins ++ [.start caller combinator] } where
  nested := hnested
  apart k l i j hne hi hj id hid hid' := by
    have hold {k : Nat} {i : Join} (hi : (c.joins ++ [Join.start caller combinator])[k]? = some i)
        (hid : id ∈ i.ids) : c.joins[k]? = some i := by
      refine (getElem?_of_snoc hi).resolve_right ?_
      rintro rfl
      cases hid
    exact hc.apart k l i j hne (hold hi hid) (hold hj hid') id hid hid'
  fair j hj := by
    rcases List.mem_append.mp hj with hj | hj
    · exact hc.fair j hj
    · rw [List.mem_singleton.mp hj]
      exact ⟨fun id hid => absurd hid List.not_mem_nil, .start _ _ _⟩

/-- A join changes, and may come to have another job that is new. -/
theorem set {k : Nat} {j j' : Join} {chronicle : Chronicle Value} (known : c.joins[k]? = some j)
    (hnested : Nested { chronicle, joins := c.joins.set k j' })
    (hids : ∀ id ∈ j'.ids, id ∈ j.ids ∨ id = c.chronicle.scheduler.nextId)
    (hfair : j'.Fair chronicle)
    (hothers : ∀ (l : Nat) (i : Join), k ≠ l → c.joins[l]? = some i → i.Fair chronicle) :
    Orderly { chronicle, joins := c.joins.set k j' } where
  nested := hnested
  apart l m i i' hne hi hi' id hid hid' := by
    have hnew {l : Nat} {i : Join} (hkl : k ≠ l) (hi : c.joins[l]? = some i) (hid : id ∈ i.ids)
        (hid' : id ∈ j'.ids) : False := by
      rcases hids id hid' with hold | rfl
      · exact hc.apart k l j i hkl known hi id hold hid
      · exact Nat.lt_irrefl _ ((hc.nested.placed i (List.mem_of_getElem? hi)).known _ hid).2
    rcases getElem?_of_set hi with ⟨rfl, rfl⟩ | ⟨hkl, hl⟩
    · rcases getElem?_of_set hi' with ⟨rfl, -⟩ | ⟨hkm, hm⟩
      · exact hne rfl
      · exact hnew hkm hm hid' hid
    · rcases getElem?_of_set hi' with ⟨-, rfl⟩ | ⟨-, hm⟩
      · exact hnew hkl hl hid hid'
      · exact hc.apart l m i i' hne hl hm id hid hid'
  fair i hi := by
    obtain ⟨l, hl⟩ := List.getElem?_of_mem hi
    rcases getElem?_of_set hl with ⟨-, rfl⟩ | ⟨hkl, hl⟩
    · exact hfair
    · exact hothers l i hkl hl

theorem step (hdiscreet : c.meddles move = false) (h : Step c move c') : Orderly c' := by
  have hnested := hc.nested.step h
  cases h with
  | pool free step => exact hc.pool step hdiscreet
  | join may => exact hc.join hnested
  | @go k j j' chronicle known goes =>
    have hmem := List.mem_of_getElem? known
    have hplaced := hc.nested.placed j hmem
    have hfair := (hc.fair j hmem).go hc.nested.sound hc.nested.books hplaced goes
    refine hc.set known hnested (fun id => Join.mem_ids_go goes) hfair fun l i hkl hl => ?_
    obtain ⟨event, hevents, hown⟩ := hplaced.events goes
    refine (hc.fair i (List.mem_of_getElem? hl)).others hevents fun id hid => ?_
    exact hc.apart k l j i hkl known hl id (hown id hid)
  | @expire k j pending known limited stage =>
    have hmem := List.mem_of_getElem? known
    have hfair := hc.fair j hmem
    refine hc.set known hnested (fun id hid => .inl hid) ⟨fun id hid => ?_, ?_⟩
      fun l i hkl hl => hc.fair i (List.mem_of_getElem? hl)
    · have hheld : j.held = pending := by simp [Join.held, stage, Stage.held]
      have hleft : Join.held { j with stage := .release pending (.error .timeout) } = pending :=
        (Stage.held_release _ _ _).trans (List.append_nil _)
      rw [hleft, ← hheld]
      exact hfair.lets_go id hid
    · exact .expire limited pending

end Orderly

theorem orderly_of_run (hc : Orderly c) (hdiscreet : c.discreet moves = true)
    (h : c.run moves = some c') : Orderly c' := by
  induction moves generalizing c with
  | nil =>
    cases h
    exact hc
  | cons move rest ih =>
    obtain ⟨next, hnext, hrest⟩ := Option.bind_eq_some_iff.mp (run_cons.symm.trans h)
    simp only [discreet, hnext, Bool.and_eq_true, Bool.not_eq_true', Option.all_some] at hdiscreet
    exact ih (hc.step hdiscreet.1 (step_of_eq hnext)) hdiscreet.2 hrest

end Joins
end EntityMachines
