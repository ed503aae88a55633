import EntityMachines.Library.Async
import EntityMachines.Proofs.Evaluation.Keeps
import EntityMachines.Proofs.Joins.Answers
import EntityMachines.Proofs.Scheduler.Order

/-!
Operators that count how long effects wait, and do not wait. Their effects settle in the order of
the times that are counted, those of one time in the order of their places; and what the operators
answer is what a join answers whose jobs settle in this order.
-/
namespace EntityMachines
namespace Library.Async

/-- The computations that ended, each with its place. -/
def ended (outcomes : List (Option Outcome)) : List (Nat × Outcome) :=
  outcomes.zipIdx.filterMap fun entry => entry.1.map (entry.2, ·)

/-- One computation ends before another. -/
def Sooner (a b : Nat × Outcome) : Prop :=
  a.2.time < b.2.time ∨ a.2.time = b.2.time ∧ a.1 < b.1

/-- Computations in the order in which they end. -/
structure Chronological (entries order : List (Nat × Outcome)) : Prop where
  perm : order.Perm entries
  sorted : order.Pairwise Sooner

variable {entries order : List (Nat × Outcome)} {outcomes : List (Option Outcome)}

theorem map_ended (outcomes : List (Option Outcome)) :
    (ended outcomes).map Prod.snd = outcomes.filterMap id := by
  unfold ended
  rw [List.map_filterMap]
  have hsame : (fun entry : Option Outcome × Nat => (entry.1.map (entry.2, ·)).map Prod.snd)
      = id ∘ Prod.fst := by
    funext entry
    simp [Function.comp_def]
  rw [hsame, ← List.filterMap_map, List.zipIdx_map_fst]

theorem mem_ended {i : Nat} {o : Outcome} :
    (i, o) ∈ ended outcomes ↔ outcomes[i]? = some (some o) := by
  unfold ended
  rw [List.mem_filterMap]
  constructor
  · rintro ⟨⟨x, k⟩, hmem, heq⟩
    obtain ⟨o', rfl, heq⟩ := Option.map_eq_some_iff.mp heq
    cases heq
    exact List.mem_zipIdx_iff_getElem?.mp hmem
  · exact fun h => ⟨(some o, i), List.mem_zipIdx_iff_getElem?.mpr h, rfl⟩

theorem ended_sorted (outcomes : List (Option Outcome)) :
    (ended outcomes).Pairwise fun a b => a.1 < b.1 := by
  have hplaces : (outcomes.zipIdx.map Prod.snd).Pairwise (· < ·) := by
    rw [List.zipIdx_map_snd]
    exact List.pairwise_lt_range'
  refine List.pairwise_filterMap.mpr ((List.pairwise_map.mp hplaces).imp fun {a b} hab => ?_)
  intro x hx y hy
  obtain ⟨o, -, rfl⟩ := Option.map_eq_some_iff.mp hx
  obtain ⟨o', -, rfl⟩ := Option.map_eq_some_iff.mp hy
  exact hab

theorem Sooner.asymm {a b : Nat × Outcome} (h : Sooner a b) : ¬Sooner b a := by
  unfold Sooner at *
  omega

theorem Chronological.filter (h : Chronological entries order) (p : Nat × Outcome → Bool) :
    Chronological (entries.filter p) (order.filter p) where
  perm := h.perm.filter p
  sorted := h.sorted.sublist List.filter_sublist

/-- The order in which computations are sorted. -/
def noLater (a b : Nat × Outcome) : Bool :=
  a.2.time < b.2.time ∨ a.2.time = b.2.time ∧ a.1 ≤ b.1

theorem exists_chronological (hplaces : entries.Pairwise fun a b => a.1 < b.1) :
    ∃ order, Chronological entries order := by
  have hsorted : (entries.mergeSort noLater).Pairwise (noLater · ·) := by
    refine List.pairwise_mergeSort (fun a b c hab hbc => ?_) (fun a b => ?_) entries
    · simp only [noLater, decide_eq_true_eq] at hab hbc ⊢
      omega
    · simp only [noLater, Bool.or_eq_true, decide_eq_true_eq]
      omega
  have hdistinct : (entries.mergeSort noLater).Pairwise (·.1 ≠ ·.1) :=
    ((List.mergeSort_perm _ _).pairwise_iff fun h => h.symm).mpr
      (hplaces.imp fun hlt => Nat.ne_of_lt hlt)
  refine ⟨_, List.mergeSort_perm _ _, (hsorted.and hdistinct).imp fun {a b} ⟨hle, hne⟩ => ?_⟩
  simp only [noLater, decide_eq_true_eq] at hle
  unfold Sooner
  omega

theorem earliest?_eq_foldl (entries : List (Nat × Outcome)) : earliest? (entries.map Prod.snd)
    = (entries.foldl (better fun a b => a.2.time < b.2.time) none).map Prod.snd := by
  unfold earliest?
  rw [List.foldl_map]
  rw [show (none : Option Outcome) = (none : Option (Nat × Outcome)).map Prod.snd from rfl]
  refine List.foldl_hom (Option.map Prod.snd) fun found entry => ?_
  cases found with
  | none => rfl
  | some best =>
    simp only [better, Option.map_some]
    split <;> rfl

theorem exists_soonest (best : Nat × Outcome) (rest : List (Nat × Outcome))
    (hplaces : (best :: rest).Pairwise fun a b => a.1 < b.1) : ∃ first,
    rest.foldl (better fun a b => a.2.time < b.2.time) (some best) = some first ∧
      first ∈ best :: rest ∧ ∀ entry ∈ best :: rest, entry = first ∨ Sooner first entry := by
  obtain ⟨before, first, after, hfold, hsplit, hbefore, hafter⟩ :=
    exists_first (r := fun a b : Nat × Outcome => a.2.time < b.2.time) Nat.lt_asymm
      (fun hlt x => by omega) best rest
  rw [hsplit] at hplaces ⊢
  have hlater := (List.pairwise_cons.mp (List.pairwise_append.mp hplaces).2.1).1
  refine ⟨first, hfold, List.mem_append_right _ List.mem_cons_self,
    List.forall_mem_append.mpr ⟨fun entry hentry => .inr (.inl (hbefore entry hentry)),
      List.forall_mem_cons.mpr ⟨.inl rfl, fun entry hentry => .inr ?_⟩⟩⟩
  have hplace := hlater entry hentry
  have htime := hafter entry hentry
  unfold Sooner
  omega

/-- What is found is the first in the order of time. -/
theorem earliest?_eq (hplaces : entries.Pairwise fun a b => a.1 < b.1)
    (h : Chronological entries order) :
    earliest? (entries.map Prod.snd) = order.head?.map Prod.snd := by
  rw [earliest?_eq_foldl]
  congr 1
  cases entries with
  | nil =>
    rw [h.perm.eq_nil]
    rfl
  | cons best rest =>
    obtain ⟨first, hfold, hmem, hfirst⟩ := exists_soonest best rest hplaces
    refine Eq.trans hfold ?_
    cases order with
    | nil => exact absurd h.perm.symm.eq_nil (List.cons_ne_nil _ _)
    | cons head after =>
      have hafter := (List.pairwise_cons.mp h.sorted).1
      rcases hfirst head (h.perm.subset List.mem_cons_self) with rfl | hsooner
      · rfl
      · rcases List.mem_cons.mp (h.perm.symm.subset hmem) with rfl | hlater
        · rfl
        · exact absurd (hafter first hlater) hsooner.asymm

/-- The outcomes in the order in which the computations end. -/
def inOrder (order : List (Nat × Outcome)) : List (Nat × Except Error Value) :=
  order.map fun entry => (entry.1, entry.2.result)

/-- A computation has failed. -/
def Outcome.failed (o : Outcome) : Bool :=
  match o.result with
  | .error _ => true
  | .ok _ => false

theorem exists_error {o : Outcome} (h : o.failed = true) : ∃ e, o.result = .error e := by
  unfold Outcome.failed at h
  split at h
  next e he => exact ⟨e, he⟩
  next => cases h

theorem exists_ok {o : Outcome} (h : o.failed = false) : ∃ v, o.result = .ok v := by
  unfold Outcome.failed at h
  split at h
  next => cases h
  next v hv => exact ⟨v, hv⟩

/-- The first computation to fail decides. -/
theorem answers_failure {n : Nat} {ids : List Nat} {o : Outcome} {e : Error}
    (hfirst : (order.filter fun entry => entry.2.failed).head?.map Prod.snd = some o)
    (he : o.result = .error e) :
    (Combinator.all n).Answers ids (inOrder order) (.error e) := by
  obtain ⟨⟨i, o'⟩, hhead, rfl⟩ := Option.map_eq_some_iff.mp hfirst
  rw [List.head?_filter] at hhead
  obtain ⟨-, before, after, rfl, hbefore⟩ := List.find?_eq_some_iff_append.mp hhead
  have hsplit : inOrder (before ++ (i, o') :: after)
      = inOrder before ++ (i, .error e) :: inOrder after := by
    dsimp only at he
    simp [inOrder, he]
  refine .failure hsplit fun entry hentry => ?_
  obtain ⟨x, hx, rfl⟩ := List.mem_map.mp hentry
  exact exists_ok (by simpa using hbefore x hx)

/-- Where no computation fails, each has its value. -/
theorem answers_values {outcomes : List Outcome}
    (horder : Chronological (ended (outcomes.map some)) order)
    (hok : ∀ o ∈ outcomes, o.failed = false) :
    (Combinator.all outcomes.length).Answers (List.range outcomes.length) (inOrder order)
      (.ok (.array (outcomes.filterMap fun o => o.result.toOption))) := by
  have hvalues : ∀ os : List Outcome, (∀ o ∈ os, o.failed = false) →
      os.map (·.result) = (os.filterMap fun o => o.result.toOption).map .ok := by
    intro os hos
    induction os with
    | nil => rfl
    | cons o rest ih =>
      rw [List.forall_mem_cons] at hos
      obtain ⟨v, hv⟩ := exists_ok hos.1
      rw [List.map_cons, ih hos.2, hv, List.filterMap_cons, hv]
      rfl
  have hmap := hvalues outcomes hok
  have hlength := congrArg List.length hmap
  rw [List.length_map, List.length_map] at hlength
  refine .values (List.forall₂_iff_get.mpr ⟨List.length_range.trans hlength, fun i hi hi' => ?_⟩)
  rw [List.length_range] at hi
  have hresult : outcomes[i].result = .ok (outcomes.filterMap fun o => o.result.toOption)[i] := by
    have hget := List.getElem_of_eq hmap (by rw [List.length_map]; exact hi)
    rwa [List.getElem_map, List.getElem_map] at hget
  have hended : (i, outcomes[i]) ∈ ended (outcomes.map some) := by
    rw [mem_ended, List.getElem?_map, List.getElem?_eq_getElem hi]
    rfl
  rw [List.get_eq_getElem, List.get_eq_getElem, List.getElem_range, ← hresult]
  exact List.mem_map_of_mem (f := fun entry => (entry.1, entry.2.result))
    (horder.perm.symm.subset hended)

section Operators

variable {ev : Evaluator} {ctx : Context} {args : List Value} {w w' : World}

/-- All values come in the order of the effects, or the error of the computation that fails first,
if all computations end. -/
theorem all_answers {outcomes : List Outcome}
    (hrun : together ev ctx w.elapsed none args w = .ok (outcomes.map some) w')
    (horder : Chronological (ended (outcomes.map some)) order) :
    ∃ answer u, all ev ctx args w = Eval.ofExcept answer u ∧
      (Combinator.all outcomes.length).Answers (List.range outcomes.length) (inOrder order)
        answer := by
  have hsettled : (outcomes.map some).filterMap id = outcomes := by simp
  have hended : (ended (outcomes.map some)).map Prod.snd = outcomes :=
    (map_ended _).trans hsettled
  have hfailed : earliest? (outcomes.filter Outcome.failed)
      = (order.filter fun entry => entry.2.failed).head?.map Prod.snd := by
    rw [← earliest?_eq ((ended_sorted _).sublist List.filter_sublist)
      (horder.filter fun entry => entry.2.failed)]
    calc earliest? (outcomes.filter Outcome.failed)
        = earliest? (((ended (outcomes.map some)).map Prod.snd).filter Outcome.failed) := by
          rw [hended]
      _ = _ := congrArg earliest? List.filter_map
  have hnone : ¬outcomes.length < (outcomes.map some).length := by
    rw [List.length_map]
    exact Nat.lt_irrefl _
  unfold all
  rw [Eval.bind_of_ok (show (get : Eval World) w = .ok w w from rfl), Eval.bind_of_ok hrun,
    hsettled, if_neg hnone]
  conv in earliest? _ => change earliest? (outcomes.filter Outcome.failed)
  cases hfirst : earliest? (outcomes.filter Outcome.failed) with
  | some o =>
    have hhead := hfailed.symm.trans hfirst
    obtain ⟨entry, hentry, rfl⟩ := Option.map_eq_some_iff.mp hhead
    obtain ⟨e, he⟩ := exists_error (List.mem_filter.mp (List.mem_of_head? hentry)).2
    refine ⟨.error e, { w' with elapsed := entry.2.time }, ?_, answers_failure hhead he⟩
    rw [← he]
    rfl
  | none =>
    have hempty := List.head?_eq_none_iff.mp (Option.map_eq_none_iff.mp (hfailed.symm.trans hfirst))
    have hok : ∀ o ∈ outcomes, o.failed = false := by
      intro o ho
      obtain ⟨entry, hentry, rfl⟩ := List.mem_map.mp (hended.symm ▸ ho)
      have hmem := horder.perm.symm.subset hentry
      exact eq_false_of_ne_true (List.filter_eq_nil_iff.mp hempty entry hmem)
    exact ⟨_, { w' with elapsed := outcomes.foldl (fun t o => max t o.time) w.elapsed }, rfl,
      answers_values horder hok⟩

/-- The computation that ends first wins a race. -/
theorem race_answers {times : List Nat} {limit : Nat} {u : World} (hargs : args ≠ [])
    (htimes : finishTimes ev ctx args w = .ok times u) (hlimit : times.min? = some limit)
    (hrun : together ev ctx w.elapsed (some limit) args u = .ok outcomes w')
    (horder : Chronological (ended outcomes) order) (hnonempty : order ≠ []) :
    ∃ answer v, race ev ctx args w = Eval.ofExcept answer v ∧
      (Combinator.race args.length).Answers (List.range args.length) (inOrder order) answer := by
  have hfirst : earliest? (outcomes.filterMap id) = order.head?.map Prod.snd := by
    rw [← earliest?_eq (ended_sorted _) horder, map_ended]
  obtain ⟨⟨i, o⟩, after, rfl⟩ := List.exists_cons_of_ne_nil hnonempty
  refine ⟨o.result, { w' with elapsed := limit }, ?_, .winner rfl (List.map_cons ..)⟩
  unfold race
  rw [if_neg (by simpa using hargs)]
  refine (Eval.bind_of_ok rfl).trans ((Eval.bind_of_ok htimes).trans ?_)
  rw [hlimit]
  refine (Eval.bind_of_ok hrun).trans ?_
  rw [hfirst]
  rfl

end Operators

end Library.Async
end EntityMachines
