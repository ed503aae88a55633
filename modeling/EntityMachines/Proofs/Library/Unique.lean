import EntityMachines.Proofs.Library.Object
import EntityMachines.Proofs.Value.Equality
import EntityMachines.Value.Items
import Mathlib.Data.List.GetD
import Mathlib.Data.List.Induction

/-!
One item of each kind. An item is compared only with those that have been kept so far. Since
equality is symmetric and transitive, that comes to the same as a comparison with all items before
it, so that the items kept are those at the places where nothing before is equal. Main statement:
these are a subsequence without two equal items, whatever is dropped equals one of them before it,
and an item that does not equal itself is never dropped.
-/
namespace EntityMachines
namespace Items

open Value (equal_comm equal_trans)

/-- The places of the items that equal no item before them. -/
def firstPlaces (items : List Value) : List Nat :=
  (List.range items.length).filter fun i => !(items.getD i .undefined).occursIn (items.take i)

variable {items : List Value} {u v x : Value} {i j : Nat}

theorem occursIn_iff : v.occursIn items = true ↔ ∃ item ∈ items, item.equal v = true :=
  List.any_eq_true

theorem occursIn_append (items others : List Value) (v : Value) :
    v.occursIn (items ++ others) = (v.occursIn items || v.occursIn others) :=
  List.any_append

theorem occursIn_of_equal (hu : u.occursIn items = true) (h : u.equal v = true) :
    v.occursIn items = true := by
  obtain ⟨item, hitem, hequal⟩ := occursIn_iff.mp hu
  exact occursIn_iff.mpr ⟨item, hitem, equal_trans hequal h⟩

/-- What equals anything equals itself. -/
theorem equal_self_of_equal (h : u.equal v = true) : v.equal v = true :=
  equal_trans (equal_comm v u ▸ h) h

theorem unique_concat (items : List Value) (x : Value) :
    unique (items ++ [x]) = if x.occursIn (unique items) then unique items
      else unique items ++ [x] := by
  unfold unique
  rw [List.foldl_append]
  rfl

/-- To look among the items that are kept is to look among all. -/
theorem occursIn_unique (items : List Value) (v : Value) :
    v.occursIn (unique items) = v.occursIn items := by
  induction items using List.reverseRecOn generalizing v with
  | nil => rfl
  | append_singleton items x ih =>
    rw [unique_concat, occursIn_append]
    cases hx : x.occursIn (unique items) with
    | false => rw [if_neg Bool.false_ne_true, occursIn_append, ih]
    | true =>
      have hlast : v.occursIn [x] = true → v.occursIn items = true := by
        intro hv
        obtain ⟨item, hitem, hequal⟩ := occursIn_iff.mp hv
        obtain rfl := List.mem_singleton.mp hitem
        rw [ih] at hx
        exact occursIn_of_equal hx hequal
      rw [if_pos rfl, ih]
      cases hv : v.occursIn [x] with
      | false => rw [Bool.or_false]
      | true => rw [hlast hv, Bool.or_true]

theorem firstPlaces_concat (items : List Value) (x : Value) :
    firstPlaces (items ++ [x]) = if x.occursIn items then firstPlaces items
      else firstPlaces items ++ [items.length] := by
  have hbefore : (List.range items.length).filter
      (fun i => !((items ++ [x]).getD i .undefined).occursIn ((items ++ [x]).take i))
        = firstPlaces items := by
    refine List.filter_congr fun i hi => ?_
    have hlt : i < items.length := List.mem_range.mp hi
    rw [List.getD_append _ _ _ _ hlt, List.take_append_of_le_length hlt.le]
  unfold firstPlaces at hbefore ⊢
  rw [List.length_append, List.length_singleton, List.range_succ, List.filter_append, hbefore]
  cases hx : x.occursIn items <;> simp [hx]

/-- An item is kept exactly where it equals none before it. -/
theorem unique_eq (items : List Value) :
    unique items = (firstPlaces items).map fun i => items.getD i .undefined := by
  induction items using List.reverseRecOn with
  | nil => rfl
  | append_singleton items x ih =>
    have hbefore : (firstPlaces items).map (fun i => (items ++ [x]).getD i .undefined)
        = unique items := by
      rw [ih]
      refine List.map_congr_left fun i hi => ?_
      exact List.getD_append _ _ _ _ (List.mem_range.mp (List.mem_filter.mp hi).1)
    rw [unique_concat, firstPlaces_concat, occursIn_unique]
    cases x.occursIn items with
    | true => rw [if_pos rfl, if_pos rfl, hbefore]
    | false =>
      rw [if_neg Bool.false_ne_true, if_neg Bool.false_ne_true, List.map_append, hbefore]
      simp

theorem mem_firstPlaces : i ∈ firstPlaces items ↔
    ∃ hi : i < items.length, ∀ j (hj : j < i), items[j].equal items[i] = false := by
  unfold firstPlaces
  rw [List.mem_filter, List.mem_range, ← exists_prop]
  refine exists_congr fun hi => ?_
  rw [List.getD_eq_getElem _ _ hi, Bool.not_eq_true', Bool.eq_false_iff, Ne, occursIn_iff]
  constructor
  · intro h j hj
    refine Bool.eq_false_iff.mpr fun hequal => h ⟨items[j], ?_, hequal⟩
    exact List.mem_take_iff_getElem.mpr ⟨j, by omega, rfl⟩
  · rintro h ⟨item, hitem, hequal⟩
    obtain ⟨j, hj, rfl⟩ := List.mem_take_iff_getElem.mp hitem
    exact Bool.false_ne_true ((h j (by omega)).symm.trans hequal)

theorem firstPlaces_sorted (items : List Value) : (firstPlaces items).Pairwise (· < ·) :=
  List.pairwise_lt_range.filter _

/-- An item that is dropped equals one before it, and the first of these is kept. -/
theorem exists_first (hi : i < items.length) (hdropped : i ∉ firstPlaces items) :
    ∃ j ∈ firstPlaces items, ∃ hj : j < i, items[j].equal items[i] = true := by
  induction i using Nat.strong_induction_on with
  | _ i ih =>
    obtain ⟨k, hk, hequal⟩ : ∃ k, ∃ hk : k < i, items[k].equal items[i] = true := by
      by_contra hnone
      push Not at hnone
      exact hdropped (mem_firstPlaces.mpr ⟨hi, fun j hj => Bool.eq_false_iff.mpr (hnone j hj)⟩)
    by_cases hfirst : k ∈ firstPlaces items
    · exact ⟨k, hfirst, hk, hequal⟩
    · obtain ⟨j, hmem, hj, hearlier⟩ := ih k hk (by omega) hfirst
      exact ⟨j, hmem, hj.trans hk, equal_trans hearlier hequal⟩

theorem mem_firstPlaces_of_unequal (hi : i < items.length)
    (h : items[i].equal items[i] = false) : i ∈ firstPlaces items := by
  refine mem_firstPlaces.mpr ⟨hi, fun j hj => Bool.eq_false_iff.mpr fun hequal => ?_⟩
  exact Bool.false_ne_true (h.symm.trans (equal_self_of_equal hequal))

theorem unique_sublist (items : List Value) : (unique items).Sublist items := by
  induction items using List.reverseRecOn with
  | nil => exact .slnil
  | append_singleton items x ih =>
    rw [unique_concat]
    split
    · exact ih.trans (List.sublist_append_left items [x])
    · exact ih.append (.refl [x])

theorem unique_pairwise (items : List Value) :
    (unique items).Pairwise fun a b => a.equal b = false := by
  rw [unique_eq, List.pairwise_map]
  refine (firstPlaces_sorted items).imp_of_mem fun {i j} hi hj hlt => ?_
  obtain ⟨hj, hfirst⟩ := mem_firstPlaces.mp hj
  rw [List.getD_eq_getElem _ _ hj, List.getD_eq_getElem _ _ (hlt.trans hj)]
  exact hfirst i hlt

/-- Where no two items are equal, all are kept. -/
theorem unique_of_pairwise (h : items.Pairwise fun a b => a.equal b = false) :
    unique items = items := by
  induction items using List.reverseRecOn with
  | nil => rfl
  | append_singleton items x ih =>
    obtain ⟨hitems, -, hx⟩ := List.pairwise_append.mp h
    have hnew : x.occursIn items = false := by
      rw [Bool.eq_false_iff, Ne, occursIn_iff]
      rintro ⟨item, hitem, hequal⟩
      exact Bool.false_ne_true ((hx item hitem x (List.mem_singleton_self x)).symm.trans hequal)
    rw [unique_concat, ih hitems, hnew, if_neg Bool.false_ne_true]

theorem makes_unique (items : List Value) :
    Library.Makes "array/unique" [.array items] (.array (unique items)) :=
  .ofTotal (f := fun args => .array (unique (Library.Array.items args)))
    (Library.operator?_of_place 57 rfl)

theorem unique_keeps_firsts (items : List Value) :
    Library.Makes "array/unique" [.array items] (.array (unique items)) ∧
    (unique items).Sublist items ∧
    ((unique items).Pairwise fun a b => a.equal b = false ∧ b.equal a = false) ∧
    (firstPlaces items).Pairwise (· < ·) ∧
    (unique items = (firstPlaces items).map fun i => items.getD i .undefined) ∧
    (∀ i, i ∈ firstPlaces items ↔
      ∃ hi : i < items.length, ∀ j (hj : j < i), items[j].equal items[i] = false) ∧
    (∀ i (hi : i < items.length), i ∉ firstPlaces items →
      ∃ j ∈ firstPlaces items, ∃ hj : j < i, items[j].equal items[i] = true) ∧
    (∀ i (hi : i < items.length), items[i].equal items[i] = false → i ∈ firstPlaces items) ∧
    Library.Makes "array/unique" [.array (unique items)] (.array (unique items)) := by
  have hpairwise := unique_pairwise items
  have hagain := makes_unique (unique items)
  rw [unique_of_pairwise hpairwise] at hagain
  refine ⟨makes_unique items, unique_sublist items, ?_, firstPlaces_sorted items, unique_eq items,
    fun i => mem_firstPlaces, fun i => exists_first, fun i => mem_firstPlaces_of_unequal, hagain⟩
  exact hpairwise.imp fun {a b} h => ⟨h, (equal_comm b a).trans h⟩

/-- Readings of which the first and the last are no numbers, and two arrays are alike. -/
def readings : List Value :=
  [.number Double.nan, .array [.number 1.0], .bool true, .number 1.0, .array [.number 1.0],
    .number Double.nan]

/-- The second array goes, and what is no number stays both times. -/
theorem unique_keeps_firsts_readings :
    ∃ (hagain : 4 < readings.length) (hlast : 5 < readings.length),
    4 ∉ firstPlaces readings ∧
    (∃ j ∈ firstPlaces readings, ∃ hj : j < 4, readings[j].equal readings[4] = true) ∧
    readings[5].equal readings[5] = false ∧ 5 ∈ firstPlaces readings := by
  have hdropped : 4 ∉ firstPlaces readings := by decide +kernel
  have hnan : (Value.number Double.nan).equal (.number Double.nan) = false := by decide +kernel
  obtain ⟨-, -, -, -, -, -, hcovered, hkept, -⟩ := unique_keeps_firsts readings
  exact ⟨by decide, by decide, hdropped, hcovered 4 (by decide) hdropped, hnan,
    hkept 5 (by decide) hnan⟩

end Items
end EntityMachines
