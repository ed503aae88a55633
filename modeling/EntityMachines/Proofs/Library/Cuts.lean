import EntityMachines.Proofs.Library.Object
import EntityMachines.Proofs.Numeral.Whole
import EntityMachines.Proofs.Value.Renaming

/-!
Cutting arrays and texts in two at a number. The place of a cut is found by adding and comparing
doubles, but comes to what it is for the exact numbers. Main statement: what is in front of a cut
and what is behind it are the whole again, whichever number it is, and a text is cut as the array of
its bytes.
-/
namespace EntityMachines

namespace Double

open Float.Model (Format UnpackedFloat)
open Rounding
open Numeral (rank place lt_iff_rank)

variable {x y : Float} {q : ℚ}

theorem not_isFinite (h : toRat? x = none) : x.isFinite = false := by
  unfold toRat? at h
  split at h
  next => cases h
  next hinfinite => exact Bool.eq_false_iff.mpr hinfinite

theorem lt_positive_infinity (hx : toRat? x = some q)
    (hy : y.toModel.unpack = .infinity .positive) : x < y := by
  have hrank : rank y = place (.infinity .positive) := congrArg place hy
  rw [lt_iff_rank (not_isNaN hx) (isNaN_of_infinity hy), hrank]
  exact (rank_inside hx).2

theorem negative_infinity_lt (hx : toRat? x = some q)
    (hy : y.toModel.unpack = .infinity .negative) : y < x := by
  have hrank : rank y = place (.infinity .negative) := congrArg place hy
  rw [lt_iff_rank (isNaN_of_infinity hy) (not_isNaN hx), hrank]
  exact (rank_inside hx).1

/-- A rational number is nothing beside an infinite one. -/
theorem add_infinity {t : UnpackedFloat.Sign} (hx : toRat? x = some q)
    (hy : y.toModel.unpack = .infinity t) : (x + y).toModel.unpack = .infinity t := by
  obtain ⟨s, m, e, hparts, -⟩ := exists_parts_of_toRat? hx
  have hsum : (x + y).toModel = .pack (.add Format.binary64 (signed s m e) (.infinity t)) := by
    rw [← hparts.unpack, ← hy]
    rfl
  have hinfinity : UnpackedFloat.add Format.binary64 (signed s m e) (.infinity t)
      = .infinity t := by
    rcases Nat.eq_zero_or_pos m with rfl | hm
    · rw [signed_zero]
      rfl
    · rw [signed_pos hm]
      rfl
  rw [hsum, hinfinity]
  cases t <;> rfl

end Double

namespace Items

open Double (toRat?)

/-- The place that an index means among so many items: its whole part, from the front or, if it is
negative, from the end, and kept within the bounds. -/
def meant (index : Float) (length : ℕ) : ℕ :=
  match toRat? index with
  | some q => if q < 0 then (length + ⌈q⌉).toNat else min ⌊q⌋.toNat length
  | none => if 0.0 < index then length else 0

/-- The count that a number means; it does not go beyond a limit. -/
def counted (n : Float) : ℕ :=
  match toRat? n with
  | some q => min ⌊q⌋.toNat 4294967295
  | none => if 0.0 < n then 4294967295 else 0

variable {α : Type} {x y : Float} {q : ℚ} {length : ℕ}

theorem place_of_isNaN (h : x.isNaN = true) (length : ℕ) : place x length = 0 := by
  unfold place
  rw [if_pos h]

/-- An index from the front. -/
theorem place_of_nonneg (hx : toRat? x = some q) (hq : 0 ≤ q) (hlength : length ≤ 2 ^ 53) :
    place x length = min ⌊q⌋.toNat length := by
  have hfloor := Double.toRat?_floor hx
  have hnonneg : (0 : ℤ) ≤ ⌊q⌋ := Int.floor_nonneg.mpr hq
  have hfront : ¬x < 0.0 := by
    rw [Double.lt_iff hx Double.toRat?_zero, not_lt]
    exact hq
  have hinside : ¬Double.floor x < 0.0 := by
    rw [Double.lt_iff hfloor Double.toRat?_zero, not_lt]
    exact_mod_cast hnonneg
  have hplace : place x length
      = if Float.ofNat length < Double.floor x then length else ⌊q⌋.toNat := by
    unfold place truncate
    dsimp only
    rw [if_neg (Bool.eq_false_iff.mp (Double.not_isNaN hx)), if_neg hfront, if_neg hfront,
      if_neg hinside, Double.toInt_of_whole hfloor]
  have hbeyond_iff := Double.lt_iff (Double.toRat?_ofNat hlength) hfloor
  rw [hplace]
  split
  next hbeyond =>
    have hlt : (length : ℤ) < ⌊q⌋ := by exact_mod_cast hbeyond_iff.mp hbeyond
    omega
  next hwithin =>
    have hle : ⌊q⌋ ≤ (length : ℤ) := by exact_mod_cast not_lt.mp (mt hbeyond_iff.mpr hwithin)
    omega

/-- An index from the end. -/
theorem place_of_neg (hx : toRat? x = some q) (hq : q < 0) (hlength : length ≤ 2 ^ 53) :
    place x length = (length + ⌈q⌉).toNat := by
  have hsize := Double.toRat?_ofNat hlength
  have hceil := Double.toRat?_ceil hx
  have hback : x < 0.0 := (Double.lt_iff hx Double.toRat?_zero).mpr hq
  have hrounds := Double.add_rounds hsize hceil
  have hcast : ((length + ⌈q⌉ : ℤ) : ℚ) = length + ⌈q⌉ := by push_cast; rfl
  have hplace : place x length = if Float.ofNat length + Double.ceil x < 0.0 then 0
      else if Float.ofNat length < Float.ofNat length + Double.ceil x then length
      else (Double.toInt (Float.ofNat length + Double.ceil x)).toNat := by
    unfold place truncate
    dsimp only
    rw [if_neg (Bool.eq_false_iff.mp (Double.not_isNaN hx)), if_pos hback, if_pos hback]
  rw [hplace]
  rcases lt_or_ge (length + ⌈q⌉ : ℤ) 0 with hbeyond | hwithin
  · -- the sum may be rounded, but not up to zero
    have hminus : toRat? (Double.ofInt (-1)) = some ((-1 : ℤ) : ℚ) :=
      Double.toRat?_ofInt (by decide)
    have hrank : Numeral.rank (Float.ofNat length + Double.ceil x) < Numeral.rank 0.0 :=
      calc Numeral.rank (Float.ofNat length + Double.ceil x)
          ≤ Numeral.rank (Double.ofInt (-1)) := by
            refine hrounds.below _ _ hminus ?_
            rw [← hcast]
            exact_mod_cast Int.le_sub_one_of_lt hbeyond
        _ < Numeral.rank 0.0 :=
            (Double.rank_lt_iff hminus Double.toRat?_zero).mpr (by norm_num)
    have hnegative : Float.ofNat length + Double.ceil x < 0.0 :=
      (Numeral.lt_iff_rank hrounds.number (Double.not_isNaN Double.toRat?_zero)).mpr hrank
    rw [if_pos hnegative]
    omega
  · have hceil_le : ⌈q⌉ ≤ 0 := Int.ceil_nonpos.mpr hq.le
    have hsum : toRat? (Float.ofNat length + Double.ceil x) = some ((length + ⌈q⌉ : ℤ) : ℚ) := by
      rw [← hcast] at hrounds
      exact hrounds.exact (Double.toRat?_ofInt (by omega))
    have hfront : ¬Float.ofNat length + Double.ceil x < 0.0 := by
      rw [Double.lt_iff hsum Double.toRat?_zero, not_lt]
      exact_mod_cast hwithin
    have hinside : ¬Float.ofNat length < Float.ofNat length + Double.ceil x := by
      rw [Double.lt_iff hsize hsum, not_lt]
      exact_mod_cast (by omega : (length + ⌈q⌉ : ℤ) ≤ length)
    rw [if_neg hfront, if_neg hinside, Double.toInt_of_whole hsum]

theorem place_of_infinity {s : Float.Model.UnpackedFloat.Sign} (hnone : toRat? x = none)
    (hx : x.toModel.unpack = .infinity s) (hlength : length ≤ 2 ^ 53) :
    place x length = if 0.0 < x then length else 0 := by
  have hsize := Double.toRat?_ofNat hlength
  have hnumber := Double.isNaN_of_infinity hx
  have hwhole : truncate x = x := by
    unfold truncate Double.ceil Double.floor
    simp [Double.not_isFinite hnone]
  unfold place
  dsimp only
  rw [if_neg (Bool.eq_false_iff.mp hnumber), hwhole]
  cases s with
  | positive =>
    have hpositive := Double.lt_positive_infinity Double.toRat?_zero hx
    have hfront := Numeral.not_lt_of_lt hpositive
    rw [if_neg hfront, if_neg hfront, if_pos (Double.lt_positive_infinity hsize hx),
      if_pos hpositive]
  | negative =>
    have hback := Double.negative_infinity_lt Double.toRat?_zero hx
    have hsum := Double.add_infinity hsize hx
    rw [if_pos hback, if_pos (Double.negative_infinity_lt Double.toRat?_zero hsum),
      if_neg (Numeral.not_lt_of_lt hback)]

/-- A place comes to what is meant as long as doubles can count the items. -/
theorem place_eq_meant (index : Float) (hlength : length ≤ 2 ^ 53) :
    place index length = meant index length := by
  unfold meant
  cases hrat : toRat? index with
  | some q =>
    dsimp only
    split
    next hq => exact place_of_neg hrat hq hlength
    next hq => exact place_of_nonneg hrat (not_lt.mp hq) hlength
  | none =>
    dsimp only
    cases hnan : index.isNaN with
    | true =>
      have hunordered : ¬0.0 < index := fun hlt =>
        Bool.false_ne_true ((Numeral.isNaN_of_lt hlt).2.symm.trans hnan)
      rw [place_of_isNaN hnan, if_neg hunordered]
    | false =>
      obtain ⟨s, hinfinity⟩ := Double.exists_infinity hrat hnan
      exact place_of_infinity hrat hinfinity hlength

theorem count_eq_counted (n : Float) : count n = counted n := by
  unfold count counted
  cases hrat : toRat? n with
  | some q =>
    have hpositive_iff := Double.lt_iff Double.toRat?_zero hrat
    have hlarge_iff := Double.lt_iff toRat?_countLimit hrat
    dsimp only
    by_cases hpositive : 0.0 < n
    · have hq := hpositive_iff.mp hpositive
      rw [if_neg (by simpa using hpositive)]
      split
      next hlarge =>
        have hle : (4294967295 : ℤ) ≤ ⌊q⌋ :=
          Int.le_floor.mpr (by exact_mod_cast (hlarge_iff.mp hlarge).le)
        omega
      next hsmall =>
        have hle : ⌊q⌋ ≤ (4294967295 : ℤ) := by
          have hcast : (⌊q⌋ : ℚ) ≤ 4294967295 :=
            (Int.floor_le q).trans (not_lt.mp (mt hlarge_iff.mpr hsmall))
          exact_mod_cast hcast
        rw [Double.toInt_eq_floor hrat hq]
        omega
    · have hq : ⌊q⌋ ≤ 0 := Int.floor_nonpos (not_lt.mp (mt hpositive_iff.mpr hpositive))
      rw [if_pos (by simpa using hpositive)]
      omega
  | none =>
    dsimp only
    by_cases hpositive : 0.0 < n
    · obtain ⟨s, hinfinity⟩ := Double.exists_infinity hrat (Numeral.isNaN_of_lt hpositive).2
      cases s with
      | positive =>
        rw [if_neg (by simpa using hpositive), if_pos hpositive,
          if_pos (Double.lt_positive_infinity toRat?_countLimit hinfinity)]
      | negative =>
        have hback := Double.negative_infinity_lt Double.toRat?_zero hinfinity
        exact absurd hpositive (Numeral.not_lt_of_lt hback)
    · rw [if_pos (by simpa using hpositive), if_neg hpositive]

/-! What is in front of a place and what is behind it. -/

theorem slice_back (items : List α) (x : Float) :
    slice items x none = items.drop (place x items.length) := by
  show (items.take items.length).drop _ = _
  rw [List.take_length]

theorem slice_append (items : List α) (x : Float) :
    slice items (Float.ofNat 0) (some x) ++ slice items x none = items := by
  rw [slice_front items (Double.toRat?_ofNat (by decide)), slice_back, List.take_append_drop]

theorem meant_le (x : Float) (length : ℕ) : meant x length ≤ length := by
  unfold meant
  split
  next q _ =>
    split
    next hq =>
      have hceil := Int.ceil_nonpos.mpr hq.le
      omega
    next => exact min_le_right _ _
  next => split <;> omega

theorem length_slice_front {items : List α} (x : Float) (h : items.length ≤ 2 ^ 53) :
    (slice items (Float.ofNat 0) (some x)).length = meant x items.length := by
  rw [slice_front items (Double.toRat?_ofNat (by decide)), List.length_take, place_eq_meant x h,
    min_eq_left (meant_le x _)]

theorem dropLast_append_takeLast (items : List α) (n : ℕ) :
    dropLast items n ++ takeLast items n = items := List.take_append_drop _ _

theorem length_takeLast (items : List α) (n : ℕ) :
    (takeLast items n).length = min n items.length := by
  unfold takeLast
  rw [List.length_drop]
  omega

end Items

namespace Library

/-- The bytes of a text, each as a text of its own. -/
def bytes (t : Text) : List Value := t.map fun b => .string [b]

theorem makes_concat (front back : List Value) :
    Makes "array/concat" [.array front, .array back] (.array (front ++ back)) := by
  have hconcat : Makes "array/concat" [.array front, .array back]
      (.array ([.array front, .array back].flatMap Value.items)) :=
    .ofTotal (f := fun args => .array (args.flatMap Value.items)) (operator?_of_place 49 rfl)
  simpa [Value.items] using hconcat

theorem makes_slice (xs : List Value) (args : List Value) :
    Makes "array/slice" (.array xs :: args)
      (.array (Items.slice xs (Arguments.number (.array xs :: args) 1)
        (Array.optionalNumber (Arguments.nth (.array xs :: args) 2)))) :=
  .ofTotal (f := fun args => .array (Items.slice (Array.items args) (args.number 1)
    (Array.optionalNumber (args.nth 2)))) (operator?_of_place 48 rfl)

theorem makes_text_slice (s : Text) (args : List Value) :
    Makes "str/slice" (.string s :: args)
      (.string (Items.slice s (Arguments.number (.string s :: args) 1)
        (Strings.optionalNumber (Arguments.nth (.string s :: args) 2)))) :=
  .ofTotal (f := fun args => .string (Items.slice (args.text 0) (args.number 1)
    (Strings.optionalNumber (args.nth 2)))) (operator?_of_place 25 rfl)

/-- The bytes of a text put together again. -/
theorem makes_join (t : Text) : Makes "str/join" [.array (bytes t), .string []] (.string t) := by
  have hjoin : Makes "str/join" [.array (bytes t), .string []]
      (.string (Text.join [] ((bytes t).map Value.displayItem))) :=
    .ofTotal (f := fun args => .string (Strings.join (args.nth 0) (args.text 1 ",")))
      (operator?_of_place 24 rfl)
  have hdisplay : (bytes t).map Value.displayItem = t.map ([·]) := List.map_map
  rwa [hdisplay, Text.join_bytes] at hjoin

theorem makes_counted {name : Text} {f : List Value → ℕ → List Value}
    (hop : Evaluator.operator? standard name = some (Operator.ofValues fun args =>
      .ok (.array (f (Array.items args) (Items.count (args.number 1))))))
    (xs : List Value) (n : Value) :
    Makes name [.array xs, n] (.array (f xs (Items.counted n.toNumber))) := by
  have hcount : Items.count (Arguments.number [.array xs, n] 1) = Items.counted n.toNumber := by
    rw [Items.count_eq_counted, Arguments.number_eq]
    rfl
  rw [← hcount]
  exact .ofTotal (f := fun args => .array (f (Array.items args) (Items.count (args.number 1)))) hop

theorem cuts_lose_nothing :
    (∀ (xs : List Value) (i : Float), ∃ front back,
      Makes "array/slice" [.array xs, 0, .number i] (.array front) ∧
      Makes "array/slice" [.array xs, .number i] (.array back) ∧
      Makes "array/concat" [.array front, .array back] (.array xs) ∧
      (xs.length ≤ 2 ^ 53 → front.length = Items.meant i xs.length)) ∧
    (∀ (xs : List Value) (n : Value), ∃ front back,
      Makes "array/take" [.array xs, n] (.array front) ∧
      Makes "array/drop" [.array xs, n] (.array back) ∧
      Makes "array/concat" [.array front, .array back] (.array xs) ∧
      front.length = min (Items.counted n.toNumber) xs.length) ∧
    (∀ (xs : List Value) (n : Value), ∃ front back,
      Makes "array/dropLast" [.array xs, n] (.array front) ∧
      Makes "array/takeLast" [.array xs, n] (.array back) ∧
      Makes "array/concat" [.array front, .array back] (.array xs) ∧
      back.length = min (Items.counted n.toNumber) xs.length) ∧
    (∀ (s : Text) (i : Float), ∃ front back,
      Makes "str/slice" [.string s, 0, .number i] (.string front) ∧
      Makes "str/slice" [.string s, .number i] (.string back) ∧
      front ++ back = s ∧ (s.length ≤ 2 ^ 53 → front.length = Items.meant i s.length)) ∧
    ∀ (s : Text) (i j : Value), ∃ parts t,
      Makes "array/slice" [.array (bytes s), i, j] (.array parts) ∧
      Makes "str/join" [.array parts, .string []] (.string t) ∧
      Makes "str/slice" [.string s, i, j] (.string t) := by
  refine ⟨fun xs i => ?_, fun xs n => ?_, fun xs n => ?_, fun s i => ?_, fun s i j => ?_⟩
  · have hconcat := makes_concat (Items.slice xs (Float.ofNat 0) (some i)) (Items.slice xs i none)
    rw [Items.slice_append] at hconcat
    exact ⟨_, _, makes_slice xs [0, .number i], makes_slice xs [.number i], hconcat,
      Items.length_slice_front i⟩
  · have hconcat := makes_concat (xs.take (Items.counted n.toNumber))
      (xs.drop (Items.counted n.toNumber))
    rw [List.take_append_drop] at hconcat
    exact ⟨_, _, makes_counted (f := fun xs n => xs.take n) (operator?_of_place 67 rfl) xs n,
      makes_counted (f := fun xs n => xs.drop n) (operator?_of_place 68 rfl) xs n, hconcat,
      List.length_take⟩
  · have hconcat := makes_concat (Items.dropLast xs (Items.counted n.toNumber))
      (Items.takeLast xs (Items.counted n.toNumber))
    rw [Items.dropLast_append_takeLast] at hconcat
    exact ⟨_, _, makes_counted (f := Items.dropLast) (operator?_of_place 70 rfl) xs n,
      makes_counted (f := Items.takeLast) (operator?_of_place 69 rfl) xs n, hconcat,
      Items.length_takeLast xs _⟩
  · exact ⟨_, _, makes_text_slice s [0, .number i], makes_text_slice s [.number i],
      Items.slice_append s i, Items.length_slice_front i⟩
  · have hparts := makes_slice (bytes s) [i, j]
    unfold bytes at hparts
    rw [Items.slice_map] at hparts
    exact ⟨_, _, hparts, makes_join _, makes_text_slice s [i, j]⟩

/-- Of an index of one and a half from the end the half does not count. -/
theorem cuts_lose_nothing_of_three : ∃ front back,
    Makes "array/slice" [.array [1, 2, 3], 0, .number (-1.5)] (.array front) ∧
    Makes "array/slice" [.array [1, 2, 3], .number (-1.5)] (.array back) ∧
    Makes "array/concat" [.array front, .array back] (.array [1, 2, 3]) ∧
    ([1, 2, 3] : List Value).length ≤ 2 ^ 53 ∧ front.length = 2 := by
  obtain ⟨front, back, hfront, hback, hconcat, hlength⟩ := cuts_lose_nothing.1 [1, 2, 3] (-1.5)
  have hmeant : Items.meant (-1.5) 3 = 2 := by decide +kernel
  exact ⟨front, back, hfront, hback, hconcat, by decide, (hlength (by decide)).trans hmeant⟩

end Library
end EntityMachines
