import Mathlib.Data.List.Sort

/-!
Stable sorting by a comparison that is total and transitive. Among what compares equal the order is
as before, so that sorting by one comparison and then by another one gives the lexicographic order
of the two.
-/
namespace EntityMachines
namespace Sorting

variable {α : Type} {cmp : α → α → Ordering}

/-- The members of a list in the order of a comparison; those that compare equal stay in the order
in which they came. -/
def arranged (cmp : α → α → Ordering) (l : List α) : List α := l.mergeSort fun a b => (cmp a b).isLE

theorem arranged_perm (cmp : α → α → Ordering) (l : List α) : (arranged cmp l).Perm l :=
  List.mergeSort_perm _ _

section comparison

variable [Std.TransCmp cmp]

theorem isLE_trans (a b c : α) (hab : (cmp a b).isLE = true) (hbc : (cmp b c).isLE = true) :
    (cmp a c).isLE = true := Std.TransCmp.isLE_trans hab hbc

theorem isLE_total (a b : α) : ((cmp a b).isLE || (cmp b a).isLE) = true := by
  have hswap : cmp b a = (cmp a b).swap := Std.OrientedCmp.eq_swap
  rw [hswap]
  cases cmp a b <;> rfl

theorem arranged_pairwise (cmp : α → α → Ordering) [Std.TransCmp cmp] (l : List α) :
    (arranged cmp l).Pairwise fun a b => (cmp a b).isLE = true :=
  List.pairwise_mergeSort isLE_trans isLE_total l

/-- What is picked out of a list and compares equal keeps its order. -/
theorem filter_arranged {l : List α} {p : α → Bool}
    (hp : ∀ a ∈ l, ∀ b ∈ l, p a = true → p b = true → cmp a b = .eq) :
    (arranged cmp l).filter p = l.filter p := by
  have htied : (l.filter p).Pairwise fun a b => (cmp a b).isLE = true := by
    refine List.pairwise_of_forall_mem_list fun a ha b hb => ?_
    obtain ⟨ha, hpa⟩ := List.mem_filter.mp ha
    obtain ⟨hb, hpb⟩ := List.mem_filter.mp hb
    rw [hp a ha b hb hpa hpb]
    rfl
  have hkept : (l.filter p).Sublist (arranged cmp l) :=
    List.sublist_mergeSort isLE_trans isLE_total htied List.filter_sublist
  have hfiltered : (l.filter p).Sublist ((arranged cmp l).filter p) := by
    simpa using hkept.filter p
  exact (hfiltered.eq_of_length ((arranged_perm cmp l).filter p).length_eq.symm).symm

/-- Of two members that compare equal, the one that comes first came first before. -/
theorem sublist_of_arranged {l : List α} {a b : α} (h : [a, b].Sublist (arranged cmp l))
    (heq : cmp a b = .eq) : [a, b].Sublist l := by
  let p : α → Bool := fun c => cmp a c == .eq
  have hp : ∀ c ∈ l, ∀ d ∈ l, p c = true → p d = true → cmp c d = .eq := by
    intro c _ d _ hc hd
    exact (Std.TransCmp.congr_left (beq_iff_eq.mp hc)).symm.trans (beq_iff_eq.mp hd)
  have ha : p a = true := beq_iff_eq.mpr Std.ReflCmp.compare_self
  have hb : p b = true := beq_iff_eq.mpr heq
  have hfiltered := h.filter p
  rw [filter_arranged hp, List.filter_cons_of_pos ha, List.filter_cons_of_pos hb,
    List.filter_nil] at hfiltered
  exact hfiltered.trans List.filter_sublist

theorem arranged_arranged_pairwise (cmp other : α → α → Ordering) [Std.TransCmp cmp]
    [Std.TransCmp other] (l : List α) :
    (arranged cmp (arranged other l)).Pairwise fun a b =>
      cmp a b = .lt ∨ cmp a b = .eq ∧ (other a b).isLE = true := by
  rw [List.pairwise_iff_forall_sublist]
  intro a b hab
  have hle : (cmp a b).isLE = true :=
    List.pairwise_iff_forall_sublist.mp (arranged_pairwise cmp _) hab
  cases hcmp : cmp a b with
  | lt => exact .inl rfl
  | eq =>
    have hbefore := sublist_of_arranged hab hcmp
    exact .inr ⟨rfl, List.pairwise_iff_forall_sublist.mp (arranged_pairwise other l) hbefore⟩
  | gt =>
    rw [hcmp] at hle
    cases hle

end comparison

/-- Only how the members of a list compare counts. -/
theorem mergeSort_eq_arranged {le : α → α → Bool} {l : List α}
    (h : ∀ a ∈ l, ∀ b ∈ l, le a b = (cmp a b).isLE) : l.mergeSort le = arranged cmp l := by
  have hmap := List.map_mergeSort (f := id) (s := fun a b => (cmp a b).isLE) h
  rwa [List.map_id, List.map_id] at hmap

end Sorting
end EntityMachines
