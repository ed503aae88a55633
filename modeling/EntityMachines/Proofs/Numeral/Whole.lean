import EntityMachines.Eval.Arithmetic
import EntityMachines.Eval.Comparison
import EntityMachines.Proofs.Numeral.Doubles
import EntityMachines.Proofs.Numeral.Token
import EntityMachines.Value.Items

/-!
Whole numbers among doubles, and remainders. What is rounded down or up is the floor or the ceiling,
sums and differences of whole numbers are whole, also where they are rounded, and the floor of a
quotient is the whole quotient; a remainder is not rounded, since it is a multiple of the smaller of
two last bits and has no more bits than one of the numbers.
-/
namespace EntityMachines
namespace Double

open Float.Model (Format UnpackedFloat)
open Float.Model.UnpackedFloat (Sign)
open Rounding

variable {x y : Float} {p q : ℚ} {n k : ℤ}

theorem toRat?_zero : toRat? 0.0 = some 0 := by
  have hnat := toRat?_ofNat (Nat.zero_le (2 ^ 53))
  rwa [Nat.cast_zero] at hnat

theorem toRat?_neg (hx : toRat? x = some q) : toRat? (-x) = some (-q) := by
  obtain ⟨s, m, e, hparts, rfl⟩ := exists_parts_of_toRat? hx
  have hneg : (-x).toModel = .pack (.neg (signed s m e)) := by
    rw [← hparts.unpack]
    rfl
  have hsigned : (signed s m e).neg = signed (-s) m e := by
    rcases Nat.eq_zero_or_pos m with rfl | hm
    · rfl
    · rw [signed_pos hm, signed_pos hm]
      rfl
  rw [hsigned] at hneg
  rw [toRat?_of_pack hneg hparts.canonical hparts.bound, unit_neg, neg_mul]

theorem toRat?_abs (hx : toRat? x = some q) : toRat? x.abs = some |q| := by
  obtain ⟨s, m, e, hparts, rfl⟩ := exists_parts_of_toRat? hx
  have habs : x.abs.toModel = .pack (.abs (signed s m e)) := by
    rw [← hparts.unpack]
    rfl
  have hsigned : UnpackedFloat.abs (signed s m e) = signed .positive m e := by
    rcases Nat.eq_zero_or_pos m with rfl | hm
    · rfl
    · rw [signed_pos hm, signed_pos hm]
      rfl
  rw [hsigned] at habs
  rw [toRat?_of_pack habs hparts.canonical hparts.bound, abs_unit_mul s (scaled_nonneg m e), unit,
    one_mul]

theorem toRat?_of_neg (h : toRat? (-x) = some q) : toRat? x = some (-q) := by
  have hnone {u : UnpackedFloat} (hunpack : x.toModel.unpack = u)
      (hu : (Float.Model.pack u.neg).unpack.isFinite = false) : False := by
    have hfinite : (-x).isFinite = (Float.Model.pack u.neg).unpack.isFinite := by
      rw [← hunpack]
      rfl
    rw [isFinite_of_toRat? h, hu] at hfinite
    cases hfinite
  rcases canonical_unpack x with hnan | ⟨s, hinf⟩ | ⟨s, m, e, hunpack, hc, he⟩
  · exact (hnone hnan rfl).elim
  · exact (hnone hinf (by cases s <;> rfl)).elim
  · have hx := Parts.toRat? ⟨hunpack, hc, he⟩
    rw [toRat?_neg hx, Option.some_inj] at h
    rw [hx, ← h, neg_neg]

theorem toRat?_ofInt (h : n.natAbs ≤ 2 ^ 53) : toRat? (ofInt n) = some (n : ℚ) := by
  have hwhole := toRat?_ofNat h
  unfold ofInt
  split
  next hneg =>
    rw [toRat?_neg hwhole]
    congr 1
    rw [Nat.cast_natAbs, abs_of_neg hneg]
    push_cast
    ring
  next hpos =>
    rw [hwhole, Nat.cast_natAbs, abs_of_nonneg (not_lt.mp hpos)]

/-- A whole number that no double holds is not rounded to one of those that all have a double. -/
theorem natAbs_le_of_toRat?_ofInt (h : toRat? (ofInt n) = some (k : ℚ)) (hk : k.natAbs < 2 ^ 53) :
    n.natAbs ≤ 2 ^ 53 := by
  have habs : toRat? (Float.ofNat n.natAbs) = some (if n < 0 then -(k : ℚ) else k) := by
    unfold ofInt at h
    split at h
    next hneg => rw [toRat?_of_neg h, if_pos hneg]
    next hpos => rw [h, if_neg hpos]
  refine not_lt.mp fun hlarge => ?_
  have hge := (ofNat_rounds n.natAbs).ge habs (toRat?_ofNat le_rfl) (by exact_mod_cast hlarge.le)
  have hle : (k : ℚ) < 2 ^ 53 ∧ -(k : ℚ) < 2 ^ 53 := by
    constructor <;> exact_mod_cast (by omega)
  push_cast at hge
  split at hge <;> linarith [hle.1, hle.2]

theorem eq_of_toRat?_ofInt (h : toRat? (ofInt n) = some (k : ℚ)) (hk : k.natAbs < 2 ^ 53) :
    n = k := by
  rw [toRat?_ofInt (natAbs_le_of_toRat?_ofInt h hk), Option.some_inj] at h
  exact_mod_cast h

/-- Whole numbers are added without loss, also where the sum is zero, which has no sign then. -/
theorem ofInt_add (hn : n.natAbs ≤ 2 ^ 53) (hy : toRat? y = some (k : ℚ)) (hzero : k = 0 → y = 0.0)
    (hsum : (n + k).natAbs ≤ 2 ^ 53) : ofInt n + y = ofInt (n + k) := by
  have hx := toRat?_ofInt hn
  rcases eq_or_ne (n + k) 0 with hcancel | hne
  · rw [hcancel]
    rcases eq_or_ne n 0 with rfl | hn0
    · rw [hzero (by omega)]
      rfl
    · have hopposite : (k : ℚ) = -(n : ℚ) := by
        rw [← Int.cast_neg]
        exact congrArg _ (by omega)
      exact add_eq_zero hx (hopposite ▸ hy) (Int.cast_ne_zero.mpr hn0)
  · have hcast : ((n + k : ℤ) : ℚ) = n + k := Int.cast_add n k
    have hvalue := (add_rounds hx hy).exact (hcast ▸ toRat?_ofInt hsum)
    exact eq_of_toRat? hvalue (hcast ▸ toRat?_ofInt hsum) (hcast ▸ Int.cast_ne_zero.mpr hne)

namespace Exact

theorem whole_lt_magnitude {a : Exact} (h : a.isWhole = false) : (a.whole : ℚ) < a.magnitude := by
  have hrest : a.ratio.1 % a.ratio.2 ≠ 0 := fun hzero =>
    Bool.false_ne_true (h.symm.trans (beq_iff_eq.mpr hzero))
  unfold magnitude whole
  rw [lt_div_iff₀ (by exact_mod_cast a.ratio_pos)]
  have hdivmod := Nat.div_add_mod a.ratio.1 a.ratio.2
  have hlt : a.ratio.1 / a.ratio.2 * a.ratio.2 < a.ratio.1 := by
    rw [mul_comm]
    omega
  exact_mod_cast hlt

theorem magnitude_lt_succ (a : Exact) : a.magnitude < a.whole + 1 := by
  unfold magnitude whole
  rw [div_lt_iff₀ (by exact_mod_cast a.ratio_pos)]
  exact_mod_cast Nat.lt_mul_of_div_lt (Nat.lt_succ_self (a.ratio.1 / a.ratio.2)) a.ratio_pos

/-- What has a fractional part has room for one in its mantissa. -/
theorem whole_lt_of_not_isWhole {a : Exact} (h : a.isWhole = false) (hm : a.mantissa < 2 ^ 53) :
    a.whole < 2 ^ 53 := by
  have hexponent : a.exponent < 0 := by
    refine not_le.mp fun hnonneg => Bool.false_ne_true (h.symm.trans ?_)
    unfold isWhole ratio
    rw [show (-a.exponent).toNat = 0 by omega]
    exact beq_iff_eq.mpr (Nat.mod_one _)
  refine (Nat.div_le_self _ _).trans_lt ?_
  unfold ratio
  rw [show a.exponent.toNat = 0 by omega]
  simpa using hm

theorem toRat_of_isWhole {a : Exact} (h : a.isWhole = true) : a.toRat = a.truncated := by
  unfold toRat truncated
  rw [magnitude_of_isWhole h]
  cases a.negative <;> simp

theorem floor_of_not_isWhole {a : Exact} (h : a.isWhole = false) :
    ⌊a.toRat⌋ = if a.negative then -((a.whole + 1 : ℕ) : ℤ) else a.whole := by
  have hlow := whole_lt_magnitude h
  have hhigh := a.magnitude_lt_succ
  unfold toRat
  rw [Int.floor_eq_iff]
  cases a.negative
  · exact ⟨by simpa using hlow.le, by simpa using hhigh⟩
  · simp only [if_true]
    push_cast
    constructor <;> linarith

theorem ceil_of_not_isWhole {a : Exact} (h : a.isWhole = false) :
    ⌈a.toRat⌉ = if a.negative then -(a.whole : ℤ) else (a.whole + 1 : ℕ) := by
  have hlow := whole_lt_magnitude h
  have hhigh := a.magnitude_lt_succ
  unfold toRat
  rw [Int.ceil_eq_iff]
  cases a.negative
  · simp only [Bool.false_eq_true, if_false]
    push_cast
    constructor <;> linarith
  · simp only [if_true]
    push_cast
    constructor <;> linarith

end Exact

theorem toRat_exact (hx : toRat? x = some q) : (exact x).toRat = q := by
  have hfinite := isFinite_of_toRat? hx
  unfold toRat? at hx
  rw [if_pos hfinite] at hx
  exact Option.some.inj hx

theorem magnitude_exact (hx : toRat? x = some q) : (exact x).magnitude = |q| := by
  have hnonneg := (exact x).magnitude_nonneg
  rw [← toRat_exact hx]
  unfold Exact.toRat
  split
  next => rw [abs_neg, abs_of_nonneg hnonneg]
  next => rw [abs_of_nonneg hnonneg]

/-- A whole number is not cut off anywhere. -/
theorem toInt_of_whole (hx : toRat? x = some (n : ℚ)) : toInt x = n := by
  have hexact := toRat_exact hx
  unfold toInt
  rw [if_pos (isFinite_of_toRat? hx)]
  cases hwhole : (exact x).isWhole with
  | true =>
    rw [Exact.toRat_of_isWhole hwhole] at hexact
    exact_mod_cast hexact
  | false =>
    have hlow := Exact.whole_lt_magnitude hwhole
    have hhigh := (exact x).magnitude_lt_succ
    have habs : (exact x).magnitude = (n.natAbs : ℚ) := by
      rw [Nat.cast_natAbs, Int.cast_abs, ← hexact]
      unfold Exact.toRat
      have hpos := (exact x).magnitude_nonneg
      cases (exact x).negative <;> simp [abs_of_nonneg hpos]
    rw [habs] at hlow hhigh
    have hlow' : (exact x).whole < n.natAbs := by exact_mod_cast hlow
    have hhigh' : n.natAbs < (exact x).whole + 1 := by exact_mod_cast hhigh
    omega

/-- A double with a fractional part lies among the whole numbers that doubles can hold. -/
theorem whole_lt (hx : toRat? x = some q) (h : (exact x).isWhole = false) :
    (exact x).whole < 2 ^ 53 := by
  obtain ⟨s, hparts, -⟩ := exists_parts (isFinite_of_toRat? hx)
  exact Exact.whole_lt_of_not_isWhole h hparts.canonical.mantissa

theorem toRat?_floor (hx : toRat? x = some q) : toRat? (floor x) = some (⌊q⌋ : ℚ) := by
  obtain rfl := toRat_exact hx
  unfold floor
  rw [isFinite_of_toRat? hx]
  cases hwhole : (exact x).isWhole with
  | true =>
    dsimp only
    rw [Exact.toRat_of_isWhole hwhole, Int.floor_intCast, ← Exact.toRat_of_isWhole hwhole, hwhole]
    exact hx
  | false =>
    have hsmall := whole_lt hx hwhole
    rw [Exact.floor_of_not_isWhole hwhole]
    dsimp only
    rw [hwhole, if_neg (by decide)]
    cases (exact x).negative with
    | true =>
      rw [if_pos rfl, if_pos rfl, toRat?_neg (toRat?_ofNat hsmall), Int.cast_neg, Int.cast_natCast]
    | false =>
      rw [if_neg Bool.false_ne_true, if_neg Bool.false_ne_true, toRat?_ofNat hsmall.le,
        Int.cast_natCast]

theorem toRat?_ceil (hx : toRat? x = some q) : toRat? (ceil x) = some (⌈q⌉ : ℚ) := by
  obtain rfl := toRat_exact hx
  unfold ceil
  rw [isFinite_of_toRat? hx]
  cases hwhole : (exact x).isWhole with
  | true =>
    dsimp only
    rw [Exact.toRat_of_isWhole hwhole, Int.ceil_intCast, ← Exact.toRat_of_isWhole hwhole, hwhole]
    exact hx
  | false =>
    have hsmall := whole_lt hx hwhole
    rw [Exact.ceil_of_not_isWhole hwhole]
    dsimp only
    rw [hwhole, if_neg (by decide)]
    cases (exact x).negative with
    | true =>
      rw [if_pos rfl, if_pos rfl, toRat?_neg (toRat?_ofNat hsmall.le), Int.cast_neg,
        Int.cast_natCast]
    | false =>
      rw [if_neg Bool.false_ne_true, if_neg Bool.false_ne_true, toRat?_ofNat hsmall,
        Int.cast_natCast]

/-- What is rounded from a whole number is whole. -/
theorem Rounds.exists_whole (h : Rounds x n) (hx : toRat? x = some q) : ∃ k : ℤ, q = k := by
  obtain ⟨s, m, e, hparts, rfl⟩ := exists_parts_of_toRat? hx
  rcases le_or_gt 0 e with he | he
  · refine ⟨s.apply (m * 2 ^ e.toNat : ℕ), ?_⟩
    have hvalue : scaled m e = (m * 2 ^ e.toNat : ℕ) := by
      rw [scaled_finer m he, sub_zero, scaled_of_whole]
    rw [hvalue]
    cases s <;> simp [unit, Sign.apply]
  · have hsmall : |unit s * scaled m e| < 2 ^ 53 := by
      rw [abs_unit_mul s (scaled_nonneg m e)]
      calc scaled m e < scaled (2 ^ 53) e := scaled_lt_iff.mpr hparts.canonical.mantissa
        _ ≤ scaled (2 ^ 53) 0 := by
            rw [scaled_pow, scaled_pow]
            exact scaled_one_le (by omega)
        _ = 2 ^ 53 := by
            rw [scaled_of_whole]
            norm_num
    have hbound : n.natAbs ≤ 2 ^ 53 := by
      have hhigh : toRat? (ofInt (2 ^ 53)) = some ((2 ^ 53 : ℤ) : ℚ) := toRat?_ofInt (by decide)
      have hlow : toRat? (ofInt (-2 ^ 53)) = some ((-2 ^ 53 : ℤ) : ℚ) := toRat?_ofInt (by decide)
      rw [abs_lt] at hsmall
      refine not_lt.mp fun hlarge => ?_
      rcases le_total 0 n with hpos | hneg
      · have hge := h.ge hx hhigh (by exact_mod_cast (by omega : (2 ^ 53 : ℤ) ≤ n))
        push_cast at hge
        linarith [hsmall.2]
      · have hle := h.le hx hlow (by exact_mod_cast (by omega : n ≤ (-2 ^ 53 : ℤ)))
        push_cast at hle
        linarith [hsmall.1]
    exact ⟨n, Option.some.inj (hx.symm.trans (h.exact (toRat?_ofInt hbound)))⟩

/-- Parts of a power of two that are few enough are doubles. -/
theorem exists_of_dyadic {z : ℤ} {j : ℕ} (hz : z.natAbs < 2 ^ 53) (hj : j ≤ 1074) :
    ∃ x, toRat? x = some ((z : ℚ) / 2 ^ j) := by
  have habs : |(z : ℚ) / 2 ^ j| = scaled z.natAbs (-j) := by
    rw [abs_div, ← Int.cast_abs, ← Nat.cast_natAbs, abs_of_pos (by positivity)]
    unfold scaled
    rw [zpow_neg, zpow_natCast, div_eq_mul_inv]
  refine exists_of_onGrid ⟨z.natAbs, -j, hz, by omega, habs⟩ ?_
  calc |(z : ℚ) / 2 ^ j| = scaled z.natAbs (-j) := habs
    _ < scaled (2 ^ 53) (-j) := scaled_lt_iff.mpr hz
    _ ≤ scaled 1 1024 := by
        rw [scaled_pow]
        refine scaled_one_le ?_
        push_cast
        omega

/-- A quotient of whole numbers that is not too large is not rounded up to the next whole
number: a part of a power of two lies between. -/
theorem toRat?_floor_div {n k : ℤ} {j : ℕ} (hx : toRat? x = some (n : ℚ))
    (hy : toRat? y = some (k : ℚ)) (hpos : 0 < k) (hk : k ≤ 2 ^ j) (hj : j ≤ 1074)
    (hquotient : (2 ^ j * (n / k + 1) - 1).natAbs < 2 ^ 53) (hsmall : (n / k).natAbs ≤ 2 ^ 53) :
    toRat? (floor (x / y)) = some ((n / k : ℤ) : ℚ) := by
  have hcast : (0 : ℚ) < k := by exact_mod_cast hpos
  have hrounds := div_rounds hx hy hcast.ne'
  have hlow : toRat? (ofInt (n / k)) = some ((n / k : ℤ) : ℚ) := toRat?_ofInt hsmall
  obtain ⟨z, hz⟩ := exists_of_dyadic hquotient hj
  have hfloor := Int.ediv_mul_le n hpos.ne'
  have hnext := Int.lt_ediv_add_one_mul_self n hpos
  have hge : ((n / k : ℤ) : ℚ) ≤ n / k := by
    rw [le_div_iff₀ hcast]
    exact_mod_cast hfloor
  have hle : (n : ℚ) / k ≤ ((2 ^ j * (n / k + 1) - 1 : ℤ) : ℚ) / 2 ^ j := by
    rw [div_le_div_iff₀ hcast (by positivity)]
    have hwhole : n * 2 ^ j ≤ (2 ^ j * (n / k + 1) - 1) * k := by
      have hmul := mul_le_mul_of_nonneg_left (Int.add_one_le_iff.mpr hnext)
        (pow_nonneg (zero_le_two (α := ℤ)) j)
      linarith
    exact_mod_cast hwhole
  obtain ⟨q, hq, hlower, hupper⟩ := hrounds.exists_between hlow hz hge hle
  rw [toRat?_floor hq]
  have hsame : ⌊q⌋ = n / k := by
    rw [Int.floor_eq_iff]
    refine ⟨hlower, hupper.trans_lt ?_⟩
    rw [div_lt_iff₀ (by positivity)]
    push_cast
    linarith
  rw [hsame]

end Double

/-- A value is a whole number. -/
def Value.IsWhole (v : Value) (n : ℤ) : Prop := ∃ x, v = .number x ∧ Double.toRat? x = some (n : ℚ)

section comparison

open Double
open Numeral (rank lt_iff_rank)

variable {x y : Float} {p q : ℚ}

theorem Value.compare?_floats (x y : Float) :
    (Value.number x).comparable.compare? (Value.number y).comparable
      = if x.isNaN || y.isNaN then none
        else if x < y then some .lt
        else if y < x then some .gt
        else some .eq := rfl

/-- Numbers compare as the rational numbers that they are. -/
theorem Value.compare?_number (hx : toRat? x = some p) (hy : toRat? y = some q) :
    (Value.number x).comparable.compare? (Value.number y).comparable = some (compare p q) := by
  rw [Value.compare?_floats, not_isNaN hx, not_isNaN hy, if_neg (by decide)]
  simp only [lt_iff hx hy, lt_iff hy hx]
  rcases lt_trichotomy p q with hlt | rfl | hgt
  · rw [if_pos hlt, compare_lt_iff_lt.mpr hlt]
  · rw [if_neg (lt_irrefl p), if_neg (lt_irrefl p), compare_eq_iff_eq.mpr rfl]
  · rw [if_neg hgt.not_gt, if_pos hgt, compare_gt_iff_gt.mpr hgt]

theorem Comparison.decide_number (hx : toRat? x = some p) (hy : toRat? y = some q)
    {op : ComparisonOp} (hop : op ∈ [.less, .greater, .lessEqual, .greaterEqual]) :
    Comparison.decide op (.number x) (.number y) = holds op (compare p q) := by
  have hdecide : Comparison.decide op (.number x) (.number y)
      = ((Value.number x).comparable.compare? (Value.number y).comparable).any (holds op) := by
    simp only [List.mem_cons, List.not_mem_nil, or_false] at hop
    rcases hop with rfl | rfl | rfl | rfl <;> rfl
  rw [hdecide, Value.compare?_number hx hy]
  rfl

theorem Comparison.decide_less (hx : toRat? x = some p) (hy : toRat? y = some q) :
    Comparison.decide .less (.number x) (.number y) = true ↔ p < q := by
  rw [decide_number hx hy (by decide), holds, beq_iff_eq, compare_lt_iff_lt]

theorem Comparison.decide_greater (hx : toRat? x = some p) (hy : toRat? y = some q) :
    Comparison.decide .greater (.number x) (.number y) = true ↔ q < p := by
  rw [decide_number hx hy (by decide), holds, beq_iff_eq, compare_gt_iff_gt]

theorem Comparison.decide_lessEqual (hx : toRat? x = some p) (hy : toRat? y = some q) :
    Comparison.decide .lessEqual (.number x) (.number y) = true ↔ p ≤ q := by
  rw [decide_number hx hy (by decide), holds, bne_iff_ne, ne_eq, compare_gt_iff_gt, not_lt]

theorem Comparison.decide_greaterEqual (hx : toRat? x = some p) (hy : toRat? y = some q) :
    Comparison.decide .greaterEqual (.number x) (.number y) = true ↔ q ≤ p := by
  rw [decide_number hx hy (by decide), holds, bne_iff_ne, ne_eq, compare_lt_iff_lt, not_lt]

/-- There are things exactly if their number is above zero, also where it is rounded. -/
theorem Comparison.decide_positive (n : ℕ) :
    Comparison.decide .greater (Value.ofNat n) 0 = true ↔ 0 < n := by
  have hzero : toRat? (Float.ofNat 0) = some 0 := by
    rw [toRat?_ofNat (by decide), Nat.cast_zero]
  constructor
  · intro hgreater
    refine Nat.pos_of_ne_zero fun hnone => ?_
    rw [hnone] at hgreater
    exact lt_irrefl _ ((Comparison.decide_greater hzero hzero).mp hgreater)
  · intro hpos
    have hone : toRat? (Float.ofNat 1) = some 1 := by rw [toRat?_ofNat (by decide), Nat.cast_one]
    have hrounds := ofNat_rounds n
    have hrank : rank (Float.ofNat 0) < rank (Float.ofNat n) :=
      calc rank (Float.ofNat 0) < rank (Float.ofNat 1) := (rank_lt_iff hzero hone).mpr zero_lt_one
        _ ≤ rank (Float.ofNat n) := hrounds.above _ _ hone (by exact_mod_cast hpos)
    have hcompare : (Value.ofNat n).comparable.compare? (0 : Value).comparable = some .gt := by
      have hnumber := not_isNaN hzero
      refine (Value.compare?_floats (Float.ofNat n) (Float.ofNat 0)).trans ?_
      rw [hrounds.number, hnumber, if_neg (by decide)]
      simp only [lt_iff_rank hrounds.number hnumber, lt_iff_rank hnumber hrounds.number]
      rw [if_neg hrank.not_gt, if_pos hrank]
    unfold Comparison.decide
    dsimp only
    rw [hcompare]
    rfl

/-- A quotient by anything but zero is rounded to a neighbour. -/
theorem Arithmetic.divide_rounds (hx : toRat? x = some p) (hy : toRat? y = some q) (hq : q ≠ 0) :
    Double.Rounds (Arithmetic.divide x y) (p / q) := by
  have hne : ¬(y == 0.0) = true := fun heq => hq ((beq_iff hy toRat?_zero).mp heq)
  unfold Arithmetic.divide
  rw [if_neg hne]
  exact div_rounds hx hy hq

end comparison

/-!
Whole numbers as places and counts of items. A cut by a whole number is a cut of the list, also
where there are more items than doubles can count.
-/

namespace Items

open Double (toRat?)

variable {α : Type} {x y : Float} {n : ℕ}

theorem not_lt_zero (hx : toRat? x = some (n : ℚ)) : ¬x < 0.0 := by
  rw [Double.lt_iff hx Double.toRat?_zero, not_lt]
  exact Nat.cast_nonneg n

theorem toInt_toNat (hx : toRat? x = some (n : ℚ)) : (Double.toInt x).toNat = n := by
  have hwhole : toRat? x = some ((n : ℤ) : ℚ) := by rw [hx, Int.cast_natCast]
  rw [Double.toInt_of_whole hwhole, Int.toNat_natCast]

/-- A place behind the last item is where the items end. -/
theorem min_place (hx : toRat? x = some (n : ℚ)) (length : Nat) :
    min (place x length) length = min n length := by
  have hfloor : toRat? (Double.floor x) = some (n : ℚ) := by
    rw [Double.toRat?_floor hx, Int.floor_natCast, Int.cast_natCast]
  have htruncate : truncate x = Double.floor x := by
    unfold truncate
    rw [if_neg (not_lt_zero hx)]
  have hplace : place x length = if Float.ofNat length < Double.floor x then length else n := by
    unfold place
    dsimp only
    rw [if_neg (Bool.eq_false_iff.mp (Double.not_isNaN hx)), if_neg (not_lt_zero hx), htruncate,
      if_neg (not_lt_zero hfloor), toInt_toNat hfloor]
  rw [hplace]
  split
  next hbeyond =>
    have hrounds := Double.ofNat_rounds length
    rw [Numeral.lt_iff_rank hrounds.number (Double.not_isNaN hfloor)] at hbeyond
    have hlt : length < n := by
      refine not_le.mp fun hle => hbeyond.not_ge ?_
      exact hrounds.above _ _ hfloor (by exact_mod_cast hle)
    rw [min_self, min_eq_right hlt.le]
  next => rfl

theorem slice_front (items : List α) (hx : toRat? x = some ((0 : ℕ) : ℚ)) (y : Float) :
    slice items x (some y) = items.take (place y items.length) := by
  have hzero : min (place x items.length) items.length = 0 := by
    rw [min_place hx, Nat.zero_min]
  have hfirst : (items.take (place y items.length)).drop (place x items.length)
      = (items.take (place y items.length)).drop 0 := by
    rw [List.drop_eq_drop_iff, List.length_take]
    omega
  exact hfirst

theorem slice_take (items : List α) (hx : toRat? x = some ((0 : ℕ) : ℚ))
    (hy : toRat? y = some (n : ℚ)) : slice items x (some y) = items.take n := by
  rw [slice_front items hx, List.take_eq_take_iff, min_place hy]

theorem slice_drop (items : List α) (hx : toRat? x = some (n : ℚ)) :
    slice items x none = items.drop n := by
  show (items.take items.length).drop (place x items.length) = items.drop n
  rw [List.take_length, List.drop_eq_drop_iff, min_place hx]

/-- The greatest count. -/
theorem toRat?_countLimit : toRat? 4294967295.0 = some 4294967295 := by
  have h : (toRat? 4294967295.0 == some 4294967295) = true := by decide +kernel
  exact eq_of_beq h

/-- Of at least one item some are counted, and no more than there are. -/
theorem count_bounds (hx : toRat? x = some (n : ℚ)) (hn : 1 ≤ n) : 1 ≤ count x ∧ count x ≤ n := by
  have hpos : x > 0.0 := by
    show 0.0 < x
    rw [Double.lt_iff Double.toRat?_zero hx]
    exact_mod_cast hn
  unfold count
  rw [if_neg (by simpa using hpos)]
  split
  next hmany =>
    rw [Double.lt_iff toRat?_countLimit hx] at hmany
    exact ⟨by decide, by exact_mod_cast hmany.le⟩
  next =>
    rw [toInt_toNat hx]
    exact ⟨hn, le_rfl⟩

end Items

/-! Remainders. -/

namespace Double

open Rounding

variable {x y : Float} {p q : ℚ} {m : ℕ} {e : ℤ}

theorem toRat?_two_pow {k : ℕ} (hk : k ≤ 971) :
    toRat? (Float.ofNat (Nat.pow 2 k)) = some (scaled 1 k) := by
  have hrounds := ofNat_rounds (Nat.pow 2 k)
  have hvalue : ((Nat.pow 2 k : ℕ) : ℚ) = scaled 1 k := by
    rw [Nat.pow_eq, ← scaled_of_whole, scaled_pow, zero_add]
  rw [hvalue] at hrounds
  exact hrounds.exact_of_onGrid (onGrid_scaled (by decide) (by omega))
    (abs_scaled_lt (by decide) (by exact_mod_cast hk))

theorem scaled_div_two_pow (m k : ℕ) (e : ℤ) : scaled m e / scaled 1 k = scaled m (e - k) := by
  unfold scaled
  rw [zpow_sub₀ two_ne_zero, Nat.cast_one, one_mul, mul_div_assoc]

/-- Halves of a negative power are divided by one after the other, neither of which rounds. -/
theorem toRat?_ofScaled (hm : m < 2 ^ 53) (hlow : -1074 ≤ e) (hhigh : e ≤ 971) :
    toRat? (ofScaled m e) = some (scaled m e) := by
  unfold ofScaled
  split
  next hpos =>
    have hrounds := ofNat_rounds (m * Nat.pow 2 e.toNat)
    have hvalue : ((m * Nat.pow 2 e.toNat : ℕ) : ℚ) = scaled m e := by
      rw [scaled_finer m hpos, sub_zero, scaled_of_whole]
      rfl
    rw [hvalue] at hrounds
    exact hrounds.exact_of_onGrid (onGrid_scaled hm hlow) (abs_scaled_lt hm hhigh)
  next hneg =>
    let places := (-e).toNat
    have hpow (k : ℕ) : scaled 1 k ≠ 0 := (scaled_pos one_pos).ne'
    have hwhole : toRat? (Float.ofNat m) = some (scaled m 0) := by
      rw [scaled_of_whole]
      exact toRat?_ofNat hm.le
    have hfirst := div_rounds hwhole (toRat?_two_pow (k := places / 2) (by omega)) (hpow _)
    rw [scaled_div_two_pow] at hfirst
    have hhalf := hfirst.exact_of_onGrid (onGrid_scaled hm (by omega)) (abs_scaled_lt hm (by omega))
    have hsecond := div_rounds hhalf (toRat?_two_pow (k := places - places / 2) (by omega)) (hpow _)
    have hplaces : 0 - ((places / 2 : ℕ) : ℤ) - (places - places / 2 : ℕ) = e := by omega
    rw [scaled_div_two_pow, hplaces] at hsecond
    exact hsecond.exact_of_onGrid (onGrid_scaled hm hlow) (abs_scaled_lt hm hhigh)

/-- Mantissas that count the same steps leave the remainder of their division. -/
theorem remainder_scaled (m n : ℕ) (e : ℤ) :
    scaled m e - scaled n e * ⌊scaled m e / scaled n e⌋ = scaled (m % n) e := by
  have hquotient : scaled m e / scaled n e = m / n := by
    unfold scaled
    rw [mul_div_mul_right _ _ (by positivity)]
  have hwhole : (m : ℚ) = n * (m / n : ℕ) + (m % n : ℕ) := by
    exact_mod_cast (Nat.div_add_mod m n).symm
  rw [hquotient, Rat.floor_natCast_div_natCast, ← Int.natCast_div, Int.cast_natCast]
  unfold scaled
  rw [hwhole]
  ring

theorem toRat?_remainder (hx : toRat? x = some p) (hy : toRat? y = some q) (hp : 0 ≤ p)
    (hq : 0 < q) : toRat? (remainder x y) = some (p - q * ⌊p / q⌋) := by
  obtain ⟨s, hxparts, hxneg⟩ := exists_parts (isFinite_of_toRat? hx)
  obtain ⟨t, hyparts, -⟩ := exists_parts (isFinite_of_toRat? hy)
  let low := min (exact x).exponent (exact y).exponent
  let m := (exact x).mantissa * 2 ^ ((exact x).exponent - low).toNat
  let n := (exact y).mantissa * 2 ^ ((exact y).exponent - low).toNat
  have hm : p = scaled m low := by
    have hvalue := hx.symm.trans hxparts.toRat?
    rw [Option.some_inj, scaled_finer _ (min_le_left _ _)] at hvalue
    rw [← abs_of_nonneg hp, hvalue, abs_unit_mul s (scaled_nonneg m low)]
  have hn : q = scaled n low := by
    have hvalue := hy.symm.trans hyparts.toRat?
    rw [Option.some_inj, scaled_finer _ (min_le_right _ _)] at hvalue
    rw [← abs_of_pos hq, hvalue, abs_unit_mul t (scaled_nonneg n low)]
  have hpos : 0 < n := Nat.pos_of_ne_zero fun hzero => by
    rw [hn, hzero, scaled_zero] at hq
    exact lt_irrefl 0 hq
  -- The steps are those of one of the two, whose mantissa bounds the remainder.
  have hfew : m % n < 2 ^ 53 := by
    rcases min_choice (exact x).exponent (exact y).exponent with hlow | hlow
    · refine (Nat.mod_le m n).trans_lt ?_
      show (exact x).mantissa * 2 ^ ((exact x).exponent - min _ _).toNat < 2 ^ 53
      rw [hlow, sub_self, Int.toNat_zero, pow_zero, mul_one]
      exact hxparts.canonical.mantissa
    · refine (Nat.mod_lt m hpos).trans ?_
      show (exact y).mantissa * 2 ^ ((exact y).exponent - min _ _).toNat < 2 ^ 53
      rw [hlow, sub_self, Int.toNat_zero, pow_zero, mul_one]
      exact hyparts.canonical.mantissa
  have hrest : toRat? (ofScaled (m % n) low) = some (scaled (m % n) low) :=
    toRat?_ofScaled hfew (le_min hxparts.canonical.exponent hyparts.canonical.exponent)
      ((min_le_left _ _).trans hxparts.bound)
  have hremainder : remainder x y
      = if (exact x).negative then -ofScaled (m % n) low else ofScaled (m % n) low := by
    obtain ⟨hxnan, hxinf⟩ := Float.not_special_of_isFinite (isFinite_of_toRat? hx)
    obtain ⟨hynan, hyinf⟩ := Float.not_special_of_isFinite (isFinite_of_toRat? hy)
    have hzero : (y == 0.0) = false :=
      Bool.eq_false_iff.mpr fun heq => hq.ne' ((beq_iff hy toRat?_zero).mp heq)
    unfold remainder
    rw [hxnan, hynan, hxinf, hyinf, hzero]
    rfl
  rw [hremainder, hm, hn, remainder_scaled m n low]
  cases s with
  | positive =>
    have hsign : (exact x).negative = false := hxneg.trans (by norm_num [unit])
    rw [hsign, if_neg Bool.false_ne_true, hrest]
  | negative =>
    -- What is not below zero and has a minus sign is zero.
    have hsign : (exact x).negative = true := hxneg.trans (by norm_num [unit])
    have hvalue := hx.symm.trans hxparts.toRat?
    rw [Option.some_inj, unit, neg_one_mul, scaled_finer _ (min_le_left _ _)] at hvalue
    have hnone : m = 0 := by
      refine Nat.eq_zero_of_not_pos fun hsome => ?_
      have hpositive : 0 < scaled m low := scaled_pos hsome
      exact absurd hp (not_le.mpr (hvalue ▸ neg_lt_zero.mpr hpositive))
    rw [hnone, Nat.zero_mod, scaled_zero] at hrest ⊢
    rw [hsign, if_pos rfl, toRat?_neg hrest, neg_zero]

theorem toRat?_remainder_whole {n k : ℤ} (hx : toRat? x = some (n : ℚ))
    (hy : toRat? y = some (k : ℚ)) (hn : 0 ≤ n) (hk : 0 < k) :
    toRat? (remainder x y) = some ((n % k : ℤ) : ℚ) := by
  rw [toRat?_remainder hx hy (by exact_mod_cast hn) (by exact_mod_cast hk)]
  lift k to ℕ using hk.le
  rw [Int.cast_natCast, Rat.floor_intCast_div_natCast, Int.emod_def]
  push_cast
  rfl

end Double
end EntityMachines
