import EntityMachines.Numeral.Double
import Mathlib.Data.Nat.Cast.Field
import Mathlib.Data.Prod.Lex
import Mathlib.Data.Rat.Floor

/-!
Doubles in their order and as rational numbers. All of them but the one that is no number stand in
one line, by sign and class first, and then by exponent and mantissa.
-/
namespace EntityMachines
namespace Numeral

open Float.Model (UnpackedFloat)

/-- The place of an unpacked double in the line. Both zeros have the same. -/
def place : UnpackedFloat → Int ×ₗ Int ×ₗ Int
  | .infinity .negative => toLex (-2, toLex (0, 0))
  | .finite .negative m e _ => toLex (-1, toLex (-e, -m))
  | .notANumber | .zero _ => toLex (0, toLex (0, 0))
  | .finite .positive m e _ => toLex (1, toLex (e, m))
  | .infinity .positive => toLex (2, toLex (0, 0))

def rank (x : Float) : Int ×ₗ Int ×ₗ Int := place x.toModel.unpack

theorem then_eq_lt (m n : Nat) (d e : Int) :
    (compare d e).then (compare m n) = .lt ↔ d < e ∨ d = e ∧ m < n := by
  rw [Ordering.then_eq_lt, compare_lt_iff_lt, compare_lt_iff_lt, compare_eq_iff_eq]

theorem then_eq_gt (m n : Nat) (d e : Int) :
    (compare d e).then (compare m n) = .gt ↔ e < d ∨ d = e ∧ n < m := by
  rw [Ordering.then_eq_gt, compare_gt_iff_gt, compare_gt_iff_gt, compare_eq_iff_eq]

theorem compare_negative_positive :
    compare UnpackedFloat.Sign.negative UnpackedFloat.Sign.positive = .lt := rfl

theorem compare_same (s : UnpackedFloat.Sign) : compare s s = .eq := by
  cases s <;> rfl

theorem place_lt {x y : UnpackedFloat} (hx : x.isNaN = false) (hy : y.isNaN = false) :
    place x < place y ↔ x.compare y = some .lt := by
  rcases x with s | _ | s | ⟨s, m, e, _⟩ <;> rcases y with s' | _ | s' | ⟨s', n, d, _⟩ <;>
    try cases s <;> try cases s'
  all_goals
    try cases hx
    try cases hy
  all_goals
    dsimp only [UnpackedFloat.compare, place]
    simp [Prod.Lex.toLex_lt_toLex, then_eq_lt, then_eq_gt, compare_negative_positive]

theorem place_eq {x y : UnpackedFloat} (hx : x.isNaN = false) (hy : y.isNaN = false) :
    place x = place y ↔ x.compare y = some .eq := by
  rcases x with s | _ | s | ⟨s, m, e, _⟩ <;> rcases y with s' | _ | s' | ⟨s', n, d, _⟩ <;>
    try cases s <;> try cases s'
  all_goals
    try cases hx
    try cases hy
  all_goals
    dsimp only [UnpackedFloat.compare, place]
    simp [compare_same]

theorem lt_iff_compare (x y : Float) :
    x < y ↔ x.toModel.unpack.compare y.toModel.unpack = some .lt := by
  rw [← beq_iff_eq]
  show (decide _ = true) ↔ _
  rw [decide_eq_true_iff]
  exact Iff.rfl

theorem lt_iff_rank {x y : Float} (hx : x.isNaN = false) (hy : y.isNaN = false) :
    x < y ↔ rank x < rank y := by
  have hplace : rank x < rank y ↔ x.toModel.unpack.compare y.toModel.unpack = some .lt :=
    place_lt hx hy
  rw [hplace, lt_iff_compare]

theorem beq_iff_rank {x y : Float} (hx : x.isNaN = false) (hy : y.isNaN = false) :
    (x == y) = true ↔ rank x = rank y := by
  have hbeq : (x == y) = (x.toModel.unpack.compare y.toModel.unpack == some .eq) := rfl
  have hplace : rank x = rank y ↔ x.toModel.unpack.compare y.toModel.unpack = some .eq :=
    place_eq hx hy
  rw [hbeq, hplace, beq_iff_eq]

theorem le_iff_rank {x y : Float} (hx : x.isNaN = false) (hy : y.isNaN = false) :
    x ≤ y ↔ rank x ≤ rank y := by
  have hle : x ≤ y ↔ ((x.toModel.unpack.compare y.toModel.unpack).any Ordering.isLE) = true := by
    show (decide _ = true) ↔ _
    rw [decide_eq_true_iff]
    exact Iff.rfl
  have hlt : rank x < rank y ↔ x.toModel.unpack.compare y.toModel.unpack = some .lt :=
    place_lt hx hy
  have heq : rank x = rank y ↔ x.toModel.unpack.compare y.toModel.unpack = some .eq :=
    place_eq hx hy
  rw [hle, le_iff_lt_or_eq, hlt, heq]
  rcases x.toModel.unpack.compare y.toModel.unpack with _ | o
  · decide
  · cases o <;> decide

theorem isNaN_of_compare {u v : UnpackedFloat} {o : Ordering} (h : u.compare v = some o) :
    u.isNaN = false ∧ v.isNaN = false := by
  cases u <;> cases v <;> first | exact ⟨rfl, rfl⟩ | cases h

/-- What is no number is not in order with any. -/
theorem isNaN_of_lt {x y : Float} (h : x < y) : x.isNaN = false ∧ y.isNaN = false :=
  isNaN_of_compare ((lt_iff_compare x y).mp h)

theorem not_lt_of_lt {x y : Float} (h : x < y) : ¬y < x := by
  obtain ⟨hx, hy⟩ := isNaN_of_lt h
  rw [lt_iff_rank hy hx]
  exact ((lt_iff_rank hx hy).mp h).not_gt

theorem beq_iff (x y : Float) :
    (x == y) = true ↔ x.isNaN = false ∧ y.isNaN = false ∧ rank x = rank y := by
  have hbeq : (x == y) = (x.toModel.unpack.compare y.toModel.unpack == some .eq) := rfl
  constructor
  · intro h
    obtain ⟨hx, hy⟩ : x.isNaN = false ∧ y.isNaN = false :=
      isNaN_of_compare (beq_iff_eq.mp (hbeq.symm.trans h))
    exact ⟨hx, hy, (beq_iff_rank hx hy).mp h⟩
  · rintro ⟨hx, hy, hrank⟩
    exact (beq_iff_rank hx hy).mpr hrank

end Numeral

/-!
The finite doubles are rational numbers. A double without its fractional part is the floor of a
positive one.
-/

namespace Double

/-- The magnitude as a rational number. -/
def Exact.magnitude (x : Exact) : ℚ := x.ratio.1 / x.ratio.2

def Exact.toRat (x : Exact) : ℚ := if x.negative then -x.magnitude else x.magnitude

/-- The rational number that a finite double is. -/
def toRat? (x : Float) : Option ℚ := if x.isFinite then some (exact x).toRat else none

theorem toRat?_of_ratio {x : Float} {n d : Nat} (hfinite : x.isFinite)
    (hsign : (exact x).negative = false) (hratio : (exact x).ratio = (n, d)) :
    toRat? x = some ((n : ℚ) / d) := by
  unfold toRat? Exact.toRat Exact.magnitude
  rw [if_pos hfinite, hsign, hratio]
  rfl

theorem Exact.magnitude_nonneg (x : Exact) : 0 ≤ x.magnitude := by
  unfold Exact.magnitude
  positivity

theorem Exact.ratio_pos (a : Exact) : 0 < a.ratio.2 := Nat.two_pow_pos _

theorem Exact.magnitude_of_isWhole {a : Exact} (h : a.isWhole = true) : a.magnitude = a.whole := by
  have hrest : a.ratio.1 % a.ratio.2 = 0 := beq_iff_eq.mp h
  unfold magnitude whole
  exact (Nat.cast_div_charZero (Nat.dvd_of_mod_eq_zero hrest)).symm

theorem Exact.truncated_eq_floor {x : Exact} (h : 0 < x.toRat) : x.truncated = ⌊x.toRat⌋ := by
  unfold Exact.toRat Exact.truncated at *
  cases hsign : x.negative with
  | true =>
    have hnonneg := x.magnitude_nonneg
    simp only [hsign, if_true] at h
    linarith
  | false =>
    have hfloor : ⌊x.magnitude⌋ = x.ratio.1 / x.ratio.2 := Rat.floor_natCast_div_natCast _ _
    simp only [Bool.false_eq_true, if_false, hfloor]
    rfl

theorem toInt_eq_floor {x : Float} {q : ℚ} (h : toRat? x = some q) (hq : 0 < q) :
    toInt x = ⌊q⌋ := by
  unfold toRat? at h
  unfold toInt
  split at h
  next hfinite =>
    cases h
    rw [if_pos hfinite]
    exact Exact.truncated_eq_floor hq
  next => cases h

end Double
end EntityMachines
