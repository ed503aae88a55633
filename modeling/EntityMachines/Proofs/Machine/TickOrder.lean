import EntityMachines.Machine.Transaction
import EntityMachines.Proofs.Numeral.Order
import EntityMachines.Proofs.Sorting

/-!
The order in which ticks have their turns: each has one, higher priorities come first, and among
equal ones it is as declared.
-/
namespace EntityMachines
namespace Machine

variable {d : Definition}

/-- The ticks with their places, as declared. -/
def declaredTicks (d : Definition) : List (Nat × Tick) := d.ticks.zipIdx.map fun (t, i) => (i, t)

/-- A tick has its turn before another: it has the higher priority, or of two that have the same it
is declared first. -/
def Precedes (x y : Nat × Tick) : Prop :=
  y.2.priority < x.2.priority ∨ (x.2.priority == y.2.priority) = true ∧ x.1 < y.1

instance (x y : Nat × Tick) : Decidable (Precedes x y) := inferInstanceAs (Decidable (_ ∨ _))

theorem declaredTicks_map_fst (d : Definition) :
    (declaredTicks d).map Prod.fst = List.range d.ticks.length := by
  unfold declaredTicks
  rw [List.map_map]
  exact List.zipIdx_map_snd 0 d.ticks |>.trans (List.range_eq_range').symm

theorem tickOrder_perm (d : Definition) : (tickOrder d).Perm (declaredTicks d) :=
  List.mergeSort_perm _ _

theorem mem_tickOrder {entry : Nat × Tick} :
    entry ∈ tickOrder d ↔ d.ticks[entry.1]? = some entry.2 := by
  rw [(tickOrder_perm d).mem_iff]
  unfold declaredTicks
  rw [List.mem_map]
  constructor
  · rintro ⟨⟨t, i⟩, hmem, rfl⟩
    exact List.mem_zipIdx_iff_getElem?.mp hmem
  · intro h
    exact ⟨(entry.2, entry.1), List.mem_zipIdx_iff_getElem?.mpr h, rfl⟩

theorem tickOrder_single {tick : Tick} (h : d.ticks = [tick]) : tickOrder d = [(0, tick)] := by
  unfold tickOrder
  rw [h]
  exact List.mergeSort_singleton _

theorem tickOrder_nodup (d : Definition) : ((tickOrder d).map Prod.fst).Nodup := by
  rw [((tickOrder_perm d).map Prod.fst).nodup_iff, declaredTicks_map_fst]
  exact List.nodup_range

/-- The second tick has no higher priority than the first. -/
def notAbove (x y : Nat × Tick) : Bool :=
  decide (Numeral.rank y.2.priority ≤ Numeral.rank x.2.priority)

/-- Ticks compare as their priorities do, with the higher one first. -/
def byPriority (x y : Nat × Tick) : Ordering :=
  compare (Numeral.rank y.2.priority) (Numeral.rank x.2.priority)

instance : Std.TransCmp byPriority :=
  @Std.TransCmp.opposite _ (compareOn fun entry : Nat × Tick => Numeral.rank entry.2.priority) _

theorem isLE_byPriority {x y : Nat × Tick} : (byPriority x y).isLE = true ↔
    Numeral.rank y.2.priority ≤ Numeral.rank x.2.priority :=
  Ordering.isLE_iff_ne_gt.trans compare_le_iff_le

theorem notAbove_eq_isLE (x y : Nat × Tick) : notAbove x y = (byPriority x y).isLE := by
  unfold notAbove
  rw [Bool.eq_iff_iff, decide_eq_true_iff, isLE_byPriority]

section ordered

variable (hd : ∀ t ∈ d.ticks, t.priority.isNaN = false)

include hd

theorem priority_ne_nan {entry : Nat × Tick} (h : entry ∈ tickOrder d) :
    entry.2.priority.isNaN = false :=
  hd entry.2 (List.mem_of_getElem? (mem_tickOrder.mp h))

theorem tickOrder_eq : tickOrder d = (declaredTicks d).mergeSort notAbove := by
  have hmem {entry : Nat × Tick} (h : entry ∈ declaredTicks d) :
      entry.2.priority.isNaN = false :=
    priority_ne_nan hd ((tickOrder_perm d).mem_iff.mpr h)
  have hmap := List.map_mergeSort (f := id) (l := declaredTicks d)
    (r := fun a b => !(b.2.priority > a.2.priority)) (s := notAbove) fun a ha b hb => ?_
  · rwa [List.map_id, List.map_id] at hmap
  · have hrank : a.2.priority < b.2.priority ↔ _ := Numeral.lt_iff_rank (hmem ha) (hmem hb)
    show (!decide (a.2.priority < b.2.priority)) = decide _
    rw [← decide_not, decide_eq_decide, hrank, not_lt]
    rfl

theorem tickOrder_eq_arranged : tickOrder d = Sorting.arranged byPriority (declaredTicks d) :=
  (tickOrder_eq hd).trans (Sorting.mergeSort_eq_arranged fun a _ b _ => notAbove_eq_isLE a b)

/-- Among ticks of one priority the order is as declared. -/
theorem tickOrder_stable (x : Nat × Tick) :
    (tickOrder d).filter (fun y => Numeral.rank y.2.priority = Numeral.rank x.2.priority)
      = (declaredTicks d).filter
        fun y => Numeral.rank y.2.priority = Numeral.rank x.2.priority := by
  rw [tickOrder_eq_arranged hd]
  refine Sorting.filter_arranged fun a _ b _ ha hb => ?_
  rw [decide_eq_true_iff] at ha hb
  exact compare_eq_iff_eq.mpr (hb.trans ha.symm)

/-- Higher priorities come first; among equal ones the order is as declared. -/
theorem tickOrder_pairwise : (tickOrder d).Pairwise Precedes := by
  rw [List.pairwise_iff_forall_sublist]
  intro x y hxy
  have hx : x.2.priority.isNaN = false := priority_ne_nan hd (hxy.subset (by simp))
  have hy : y.2.priority.isNaN = false := priority_ne_nan hd (hxy.subset (by simp))
  rw [tickOrder_eq_arranged hd] at hxy
  have hsorted := Sorting.arranged_pairwise byPriority (declaredTicks d)
  have hle : (byPriority x y).isLE = true := List.pairwise_iff_forall_sublist.mp hsorted hxy
  rcases (isLE_byPriority.mp hle).lt_or_eq with hlt | heq
  · left
    exact (Numeral.lt_iff_rank hy hx).mpr hlt
  · right
    refine ⟨(Numeral.beq_iff_rank hx hy).mpr heq.symm, ?_⟩
    have hpair := (Sorting.sublist_of_arranged hxy (compare_eq_iff_eq.mpr heq)).map Prod.fst
    have hdeclared : ((declaredTicks d).map Prod.fst).Pairwise (· < ·) := by
      rw [declaredTicks_map_fst]
      exact List.pairwise_lt_range
    exact List.pairwise_iff_forall_sublist.mp hdeclared hpair

/-- There is no other order of this kind. -/
theorem tickOrder_unique {order : List (Nat × Tick)} (hperm : order.Perm (declaredTicks d))
    (horder : order.Pairwise Precedes) : tickOrder d = order := by
  refine List.Perm.eq_of_pairwise ?_ (tickOrder_pairwise hd) horder
    ((tickOrder_perm d).trans hperm.symm)
  intro x y hx hy hxy hyx
  exfalso
  have hx : x.2.priority.isNaN = false := priority_ne_nan hd hx
  have hy : y.2.priority.isNaN = false :=
    priority_ne_nan hd ((tickOrder_perm d).mem_iff.mpr (hperm.mem_iff.mp hy))
  unfold Precedes at hxy hyx
  rw [Numeral.lt_iff_rank hy hx, Numeral.beq_iff_rank hx hy] at hxy
  rw [Numeral.lt_iff_rank hx hy, Numeral.beq_iff_rank hy hx] at hyx
  rcases hxy with hxy | ⟨hxy, hplace⟩
  · rcases hyx with hyx | ⟨hyx, -⟩
    · exact lt_asymm hxy hyx
    · exact hxy.ne hyx
  · rcases hyx with hyx | ⟨-, hplace'⟩
    · exact hyx.ne hxy
    · omega

end ordered

end Machine
end EntityMachines
