import EntityMachines.Proofs.Library.Object
import EntityMachines.Proofs.Numeral.Whole
import EntityMachines.Proofs.Sorting
import EntityMachines.Value.Items

/-!
Sorting by a key. Where all keys are ordered as texts, or all as numbers of which none is missing,
their comparison is total and transitive. Main statement: on such keys the operator that sorts
gives the items in order, and those of equal keys as they came, in either direction.
-/
namespace EntityMachines
namespace Items

open Numeral (rank lt_iff_rank)

/-- The values are ordered as texts, all of them, or all as numbers, none of which is missing. -/
def Homogeneous (keys : List Value) : Prop :=
  (∀ k ∈ keys, ∃ s, k.comparable = .string s) ∨
    ∀ k ∈ keys, ∃ x, k.comparable = .number x ∧ x.isNaN = false

theorem compare?_texts {a b : Value} {s t : Text} (ha : a.comparable = .string s)
    (hb : b.comparable = .string t) : a.comparable.compare? b.comparable = some (compare s t) := by
  rw [ha, hb]
  rfl

theorem compare?_numbers {a b : Value} {x y : Float} (ha : a.comparable = .number x)
    (hb : b.comparable = .number y) (hx : x.isNaN = false) (hy : y.isNaN = false) :
    a.comparable.compare? b.comparable = some (compare (rank x) (rank y)) := by
  have hcompare := Value.compare?_floats x y
  rw [hx, hy, if_neg (by decide)] at hcompare
  simp only [lt_iff_rank hx hy, lt_iff_rank hy hx] at hcompare
  rw [ha, hb]
  refine hcompare.trans ?_
  rcases lt_trichotomy (rank x) (rank y) with hlt | heq | hgt
  · rw [if_pos hlt, compare_lt_iff_lt.mpr hlt]
  · rw [if_neg heq.not_lt, if_neg heq.not_gt, compare_eq_iff_eq.mpr heq]
  · rw [if_neg hgt.not_gt, if_pos hgt, compare_gt_iff_gt.mpr hgt]

/-- On keys of one kind the comparison is that of a total preorder of all values. -/
theorem Homogeneous.exists_cmp {keys : List Value} (h : Homogeneous keys) :
    ∃ cmp : Value → Value → Ordering, Std.TransCmp cmp ∧
      ∀ a ∈ keys, ∀ b ∈ keys, a.comparable.compare? b.comparable = some (cmp a b) := by
  rcases h with htexts | hnumbers
  · refine ⟨compareOn fun v => v.comparable.display, inferInstance, fun a ha b hb => ?_⟩
    obtain ⟨s, hs⟩ := htexts a ha
    obtain ⟨t, ht⟩ := htexts b hb
    rw [compare?_texts hs ht, compareOn, hs, ht]
    rfl
  · refine ⟨compareOn fun v => rank v.comparable.toNumber, inferInstance, fun a ha b hb => ?_⟩
    obtain ⟨x, hx, hxnan⟩ := hnumbers a ha
    obtain ⟨y, hy, hynan⟩ := hnumbers b hb
    rw [compare?_numbers hx hy hxnan hynan, compareOn, hx, hy]
    rfl

/-- Items compare as their keys do, or the other way round. -/
def directed (cmp : Value → Value → Ordering) (key : Text) (descending : Bool) (a b : Value) :
    Ordering :=
  if descending then cmp (sortKey key b) (sortKey key a) else cmp (sortKey key a) (sortKey key b)

instance {cmp : Value → Value → Ordering} [Std.TransCmp cmp] (key : Text) (descending : Bool) :
    Std.TransCmp (directed cmp key descending) where
  eq_swap := by
    intro a b
    have hswap (x y : Value) : cmp x y = (cmp y x).swap := Std.OrientedCmp.eq_swap
    cases descending
    · exact hswap _ _
    · exact hswap _ _
  isLE_trans := by
    intro a b c hab hbc
    have htrans {x y z : Value} (hxy : (cmp x y).isLE = true) (hyz : (cmp y z).isLE = true) :
        (cmp x z).isLE = true := Std.TransCmp.isLE_trans hxy hyz
    cases descending
    · exact htrans hab hbc
    · exact htrans hbc hab

section sorting

variable {items : List Value} {key : Text} {cmp : Value → Value → Ordering}
  (hcmp : ∀ a ∈ items.map (sortKey key), ∀ b ∈ items.map (sortKey key),
    a.comparable.compare? b.comparable = some (cmp a b))

include hcmp

theorem order_sortKey {a b : Value} (ha : a ∈ items) (hb : b ∈ items) :
    order (sortKey key a) (sortKey key b) = cmp (sortKey key a) (sortKey key b) := by
  unfold order
  rw [hcmp _ (List.mem_map_of_mem ha) _ (List.mem_map_of_mem hb)]
  rfl

theorem directed_order {a b : Value} (ha : a ∈ items) (hb : b ∈ items) (descending : Bool) :
    directed order key descending a b = directed cmp key descending a b := by
  unfold directed
  rw [order_sortKey hcmp ha hb, order_sortKey hcmp hb ha]

theorem sort_eq_arranged [Std.TransCmp cmp] (descending : Bool) :
    sort items key descending = Sorting.arranged (directed cmp key descending) items := by
  refine Sorting.mergeSort_eq_arranged fun a ha b hb => ?_
  unfold mayPrecede directed
  dsimp only
  rw [order_sortKey hcmp hb ha]
  cases descending with
  | true => cases cmp (sortKey key b) (sortKey key a) <;> rfl
  | false =>
    have hswap : cmp (sortKey key a) (sortKey key b) = (cmp (sortKey key b) (sortKey key a)).swap :=
      Std.OrientedCmp.eq_swap
    rw [if_neg (by decide), if_neg (by decide), hswap]
    cases cmp (sortKey key b) (sortKey key a) <;> rfl

/-- Items of equal keys stay as they came. -/
theorem filter_sort [Std.TransCmp cmp] (descending : Bool) {k : Value}
    (hk : k ∈ items.map (sortKey key)) :
    (sort items key descending).filter (fun a => order (sortKey key a) k == .eq)
      = items.filter fun a => order (sortKey key a) k == .eq := by
  obtain ⟨c, hc, rfl⟩ := List.mem_map.mp hk
  rw [sort_eq_arranged hcmp]
  refine Sorting.filter_arranged fun a ha b hb hac hbc => ?_
  rw [beq_iff_eq, order_sortKey hcmp ha hc] at hac
  rw [beq_iff_eq, order_sortKey hcmp hb hc] at hbc
  have hca := Std.OrientedCmp.eq_symm hac
  have hcb := Std.OrientedCmp.eq_symm hbc
  cases descending with
  | true =>
    have hba : cmp (sortKey key b) (sortKey key a) = .eq := Std.TransCmp.eq_trans hbc hca
    exact hba
  | false =>
    have hab : cmp (sortKey key a) (sortKey key b) = .eq := Std.TransCmp.eq_trans hac hcb
    exact hab

end sorting

theorem sort_perm (items : List Value) (key : Text) (descending : Bool) :
    (sort items key descending).Perm items := List.mergeSort_perm _ _

section homogeneous

variable {items : List Value} {key : Text} (h : Homogeneous (items.map (sortKey key)))

include h

theorem sort_pairwise (descending : Bool) :
    (sort items key descending).Pairwise fun a b => directed order key descending a b ≠ .gt := by
  obtain ⟨cmp, _, hcmp⟩ := h.exists_cmp
  have hsorted := Sorting.arranged_pairwise (directed cmp key descending) items
  rw [← sort_eq_arranged hcmp] at hsorted
  refine hsorted.imp_of_mem fun ha hb hle => ?_
  have hperm := sort_perm items key descending
  rw [directed_order hcmp (hperm.mem_iff.mp ha) (hperm.mem_iff.mp hb)]
  exact Ordering.isLE_iff_ne_gt.mp hle

/-- What was in order by another key before is in the order of the new key first and of the other
one second. -/
theorem sort_sort_pairwise {secondary : Text}
    (hsecondary : Homogeneous (items.map (sortKey secondary))) (descending backwards : Bool) :
    (sort (sort items secondary backwards) key descending).Pairwise fun a b =>
      directed order key descending a b = .lt ∨
        directed order key descending a b = .eq ∧ directed order secondary backwards a b ≠ .gt := by
  obtain ⟨cmp, _, hcmp⟩ := h.exists_cmp
  obtain ⟨other, _, hother⟩ := hsecondary.exists_cmp
  have hcmp' : ∀ a ∈ (sort items secondary backwards).map (sortKey key),
      ∀ b ∈ (sort items secondary backwards).map (sortKey key),
        a.comparable.compare? b.comparable = some (cmp a b) := by
    have hkeys := (sort_perm items secondary backwards).map (sortKey key)
    exact fun a ha b hb => hcmp a (hkeys.mem_iff.mp ha) b (hkeys.mem_iff.mp hb)
  rw [sort_eq_arranged hcmp', sort_eq_arranged hother]
  have hsorted := Sorting.arranged_arranged_pairwise (directed cmp key descending)
    (directed other secondary backwards) items
  refine hsorted.imp_of_mem fun {a b} ha hb hle => ?_
  have hperm := (Sorting.arranged_perm (directed cmp key descending) _).trans
    (Sorting.arranged_perm (directed other secondary backwards) items)
  rw [directed_order hcmp (hperm.mem_iff.mp ha) (hperm.mem_iff.mp hb),
    directed_order hother (hperm.mem_iff.mp ha) (hperm.mem_iff.mp hb)]
  exact hle.imp_right (And.imp_right Ordering.isLE_iff_ne_gt.mp)

/-- The keys are totally preordered. -/
theorem order_swap {a b : Value} (ha : a ∈ items.map (sortKey key))
    (hb : b ∈ items.map (sortKey key)) : ∃ o, a.comparable.compare? b.comparable = some o ∧
      b.comparable.compare? a.comparable = some o.swap := by
  obtain ⟨cmp, _, hcmp⟩ := h.exists_cmp
  exact ⟨cmp a b, hcmp a ha b hb, by rw [hcmp b hb a ha, ← Std.OrientedCmp.eq_swap]⟩

theorem order_trans {a b c : Value} (ha : a ∈ items.map (sortKey key))
    (hb : b ∈ items.map (sortKey key)) (hc : c ∈ items.map (sortKey key))
    (hab : order a b ≠ .gt) (hbc : order b c ≠ .gt) : order a c ≠ .gt := by
  obtain ⟨cmp, _, hcmp⟩ := h.exists_cmp
  have horder {x y : Value} (hx : x ∈ items.map (sortKey key)) (hy : y ∈ items.map (sortKey key)) :
      order x y = cmp x y := by
    unfold order
    rw [hcmp x hx y hy]
    rfl
  rw [horder ha hb] at hab
  rw [horder hb hc] at hbc
  rw [horder ha hc]
  exact Ordering.isLE_iff_ne_gt.mp (Std.TransCmp.isLE_trans (Ordering.isLE_iff_ne_gt.mpr hab)
    (Ordering.isLE_iff_ne_gt.mpr hbc))

end homogeneous

theorem makes_sort (args : Arguments) :
    Library.Makes "array/sort" args (.array (sort (args.nth 0).items (args.text 1)
      (args.text 2 "asc" == Text.ofString "desc"))) :=
  .ofTotal (f := fun args => .array (sort (args.nth 0).items (args.text 1)
    (args.text 2 "asc" == Text.ofString "desc"))) (Library.operator?_of_place 56 rfl)

theorem sort_is_stable :
    (∀ args : Arguments, Library.Makes "array/sort" args (.array (sort (args.nth 0).items
      (args.text 1) (args.text 2 "asc" == Text.ofString "desc")))) ∧
    ∀ (items : List Value) (key : Text), Homogeneous (items.map (sortKey key)) →
      (∀ a ∈ items.map (sortKey key), ∀ b ∈ items.map (sortKey key),
        ∃ o, a.comparable.compare? b.comparable = some o ∧
          b.comparable.compare? a.comparable = some o.swap) ∧
      (∀ a ∈ items.map (sortKey key), ∀ b ∈ items.map (sortKey key),
        ∀ c ∈ items.map (sortKey key), order a b ≠ .gt → order b c ≠ .gt → order a c ≠ .gt) ∧
      ∀ descending : Bool,
        (sort items key descending).Perm items ∧
        ((sort items key descending).Pairwise fun a b =>
          directed order key descending a b ≠ .gt) ∧
        (∀ k ∈ items.map (sortKey key),
          (sort items key descending).filter (fun a => order (sortKey key a) k == .eq)
            = items.filter fun a => order (sortKey key a) k == .eq) ∧
        ∀ (secondary : Text) (backwards : Bool), Homogeneous (items.map (sortKey secondary)) →
          (sort (sort items secondary backwards) key descending).Pairwise fun a b =>
            directed order key descending a b = .lt ∨
              directed order key descending a b = .eq ∧
                directed order secondary backwards a b ≠ .gt := by
  refine ⟨makes_sort, fun items key h => ⟨fun a ha b hb => order_swap h ha hb,
    fun a ha b hb c hc => order_trans h ha hb hc, fun descending =>
      ⟨sort_perm items key descending, sort_pairwise h descending, fun k hk => ?_,
        fun _ backwards hsecondary => sort_sort_pairwise h hsecondary descending backwards⟩⟩⟩
  obtain ⟨cmp, _, hcmp⟩ := h.exists_cmp
  exact filter_sort hcmp descending hk

/-- Two rows of which one has no rank and the other a rank that counts as zero, and a third one. -/
def rows : List Value :=
  [.map [("id", .string "a")], .map [("id", .string "b"), ("rank", .bool true)],
    .map [("id", .string "c"), ("rank", .bool false)]]

theorem rows_keys : rows.map (sortKey "rank") = [.undefined, .bool true, .bool false] := rfl

/-- The two rows of equal keys stay as they came whichever way the rows are sorted. -/
theorem sort_is_stable_rows :
    Homogeneous (rows.map (sortKey "rank")) ∧ ∀ descending : Bool,
      (sort rows "rank" descending).filter
          (fun a => order (sortKey "rank" a) (.bool false) == .eq)
        = [.map [("id", .string "a")], .map [("id", .string "c"), ("rank", .bool false)]] := by
  have hkeys : Homogeneous (rows.map (sortKey "rank")) := by
    refine .inr fun k hk => ?_
    rw [rows_keys] at hk
    simp only [List.mem_cons, List.not_mem_nil, or_false] at hk
    rcases hk with rfl | rfl | rfl
    · exact ⟨0.0, rfl, by decide⟩
    · exact ⟨1.0, rfl, by decide⟩
    · exact ⟨0.0, rfl, by decide⟩
  refine ⟨hkeys, fun descending => ?_⟩
  obtain ⟨-, -, hsorted⟩ := sort_is_stable.2 rows "rank" hkeys
  obtain ⟨-, -, hstable, -⟩ := hsorted descending
  exact hstable (.bool false) (by rw [rows_keys]; simp)

end Items
end EntityMachines
