import EntityMachines.Proofs.Numeral.Spelling
import EntityMachines.Proofs.Numeral.Whole

/-!
Where the doubles end. A number is rounded to the nearest double, and to the one with an even mantissa
if two are as near; so it becomes infinite from halfway between the greatest double and the power of
two behind it, and zero up to halfway between zero and the least double. Main statement: literals are
read so.
-/
namespace EntityMachines
namespace Rounding

open Float.Model (Format UnpackedFloat)
open Float.Model.UnpackedFloat (Sign Accuracy ExtendedMantissa)

theorem halfway_le : scaled (2 ^ 54 - 1) 970 ≤ scaled 1 1024 := by
  have hbehind : scaled (2 ^ 54) 970 = scaled 1 1024 := scaled_pow 54 970
  rw [← hbehind]
  exact scaled_le_iff.mpr (by decide)

theorem halfway_lt : scaled 1 (-1075) < scaled (2 ^ 54 - 1) 970 :=
  (scaled_one_lt (by decide)).trans_le (scaled_le_iff.mpr (by decide))

namespace Halved

variable {em : ExtendedMantissa} {e : ℤ} {v : ℚ}

theorem half_lt_iff (h : Halved em e v) (j : ℕ) : scaled j (e - 1) < v ↔
    j < halves em ∨ j = halves em ∧ em.stickyBit = true := by
  rcases lt_trichotomy j (halves em) with hlt | rfl | hgt
  · exact iff_of_true ((scaled_lt_iff.mpr hlt).trans_le h.lower) (.inl hlt)
  · rw [h.lower.lt_iff_ne, ne_comm, ne_eq, ← h.rest, Bool.not_eq_false]
    exact ⟨fun hrest => .inr ⟨rfl, hrest⟩, fun hrest => (hrest.resolve_left (lt_irrefl _)).2⟩
  · refine iff_of_false (h.upper.trans_le (scaled_le_iff.mpr hgt)).not_gt ?_
    rintro (hlt | ⟨heq, -⟩)
    · exact hgt.not_gt hlt
    · exact hgt.ne' heq

theorem eq_half_iff (h : Halved em e v) (j : ℕ) : v = scaled j (e - 1) ↔
    j = halves em ∧ em.stickyBit = false := by
  constructor
  · rintro rfl
    have hhalves : j = halves em :=
      le_antisymm (Nat.lt_succ_iff.mp (scaled_lt_iff.mp h.upper)) (scaled_le_iff.mp h.lower)
    exact ⟨hhalves, h.rest.mpr (by rw [← hhalves])⟩
  · rintro ⟨rfl, hrest⟩
    exact h.rest.mp hrest

/-- A number is rounded above another one if it is nearer to what is behind that, or as near and
that one is odd. -/
theorem lt_rounded_iff (h : Halved em e v) (j : ℕ) : j < em.roundedMantissa ↔
    scaled (2 * j + 1) (e - 1) < v ∨ v = scaled (2 * j + 1) (e - 1) ∧ j % 2 = 1 := by
  rw [h.half_lt_iff, h.eq_half_iff]
  obtain ⟨m, roundBit, stickyBit⟩ := em
  cases roundBit <;> cases stickyBit <;>
    simp [halves, ExtendedMantissa.roundedMantissa, ExtendedMantissa.accuracy,
      Accuracy.roundToNearestEven] <;> omega

/-- Halfway between the greatest double and the power of two behind it. -/
theorem large_iff (h : Halved em e v) (he : Settles e v) :
    scaled 1 1024 ≤ scaled em.roundedMantissa e ↔ scaled (2 ^ 54 - 1) 970 ≤ v := by
  rcases lt_trichotomy e 971 with hless | rfl | hgreater
  · have hbound : scaled (2 ^ 53) e ≤ scaled (2 ^ 53) 970 := by
      rw [scaled_pow, scaled_pow]
      exact scaled_one_le (by omega)
    have hsmall : scaled (2 ^ 53) 970 < scaled 1 1024 := by
      rw [scaled_pow]
      exact scaled_one_lt (by decide)
    refine iff_of_false (not_le.mpr ?_) (not_le.mpr ?_)
    · exact (scaled_le_iff.mpr (h.rounded_le he.small)).trans_lt (hbound.trans_lt hsmall)
    · exact (he.small.trans hbound).trans_lt (scaled_lt_iff.mpr (by decide))
  · have hpower : scaled 1 1024 = scaled (2 ^ 53) 971 := by
      rw [scaled_pow]
      rfl
    have hrounded := h.lt_rounded_iff (2 ^ 53 - 1)
    rw [hpower, scaled_le_iff, le_iff_lt_or_eq (b := v), eq_comm (b := v)]
    exact Iff.trans (by omega) (hrounded.trans (or_congr Iff.rfl (and_iff_left (by decide))))
  · have hlarge := he.large.resolve_left (by omega)
    have hpower : scaled 1 1024 ≤ scaled (2 ^ 52) e := by
      rw [scaled_pow]
      exact scaled_one_le (by push_cast; omega)
    refine iff_of_true (hpower.trans (scaled_le_iff.mpr (h.le_rounded hlarge))) ?_
    exact halfway_le.trans (hpower.trans hlarge)

/-- Halfway between zero and the least double. -/
theorem rounded_eq_zero_iff (h : Halved em e v) (he : Settles e v) :
    em.roundedMantissa = 0 ↔ v ≤ scaled 1 (-1075) := by
  rcases he.least.eq_or_lt with rfl | hlt
  · have hrounded : 0 < em.roundedMantissa ↔ scaled 1 (-1075) < v := by
      refine (h.lt_rounded_iff 0).trans (or_iff_left ?_)
      rintro ⟨-, hodd⟩
      cases hodd
    rw [← not_lt, ← hrounded, Nat.not_lt, Nat.le_zero]
  · have hlarge := he.large.resolve_left hlt.ne'
    have hsome : 2 ^ 52 ≤ em.roundedMantissa := h.le_rounded hlarge
    refine iff_of_false (by omega) (not_le.mpr ?_)
    refine lt_of_lt_of_le ?_ hlarge
    rw [scaled_pow]
    exact scaled_one_lt (by push_cast; omega)

end Halved

end Rounding

namespace Double

open Float.Model (Format UnpackedFloat)
open Float.Model.UnpackedFloat (Accuracy ExtendedMantissa)
open Numeral (place rank beq_iff_rank)
open Rounding

variable {v : ℚ}

/-- At least halfway from the greatest double to the power of two behind it. -/
def TooLarge (q : ℚ) : Prop := 2 ^ 1024 - 2 ^ 970 ≤ |q|

/-- Not zero, but at most halfway to the least double. -/
def TooSmall (q : ℚ) : Prop := q ≠ 0 ∧ |q| ≤ 2 ^ (-1075 : ℤ)

theorem tooLarge_iff (h : 0 ≤ v) : TooLarge v ↔ scaled (2 ^ 54 - 1) 970 ≤ v := by
  have hvalue : scaled (2 ^ 54 - 1) 970 = 2 ^ 1024 - 2 ^ 970 := by
    have hmantissa : ((2 ^ 54 - 1 : ℕ) : ℚ) = 2 ^ 54 - 1 := by norm_num
    have hpower : (2 : ℚ) ^ (970 : ℤ) = 2 ^ 970 := zpow_ofNat 2 970
    unfold scaled
    rw [hmantissa, hpower, sub_mul, one_mul, ← pow_add]
  unfold TooLarge
  rw [abs_of_nonneg h, hvalue]

theorem tooSmall_iff (h : 0 ≤ v) : TooSmall v ↔ v ≠ 0 ∧ v ≤ scaled 1 (-1075) := by
  unfold TooSmall scaled
  rw [abs_of_nonneg h, Nat.cast_one, one_mul]

theorem tooLarge_neg (q : ℚ) : TooLarge (-q) ↔ TooLarge q := by
  unfold TooLarge
  rw [abs_neg]

theorem tooSmall_neg (q : ℚ) : TooSmall (-q) ↔ TooSmall q := by
  unfold TooSmall
  rw [abs_neg, neg_ne_zero]

theorem TooLarge.one_le {q : ℚ} (h : TooLarge q) : 1 ≤ |q| := by
  have habs : TooLarge |q| := by
    unfold TooLarge
    rwa [abs_abs]
  have hone : (1 : ℚ) = scaled 1 0 := (scaled_of_whole 1).symm
  rw [hone]
  refine le_trans ?_ ((tooLarge_iff (abs_nonneg q)).mp habs)
  exact (scaled_one_le (by decide)).trans (scaled_le_iff.mpr (by decide))

theorem TooSmall.lt_one {q : ℚ} (h : TooSmall q) : |q| < 1 :=
  h.2.trans_lt (zpow_lt_one_of_neg₀ one_lt_two (by decide))

/-- A double that is infinite or zero exactly where a number is nearest to no other one. -/
structure Limited (x : Float) (v : ℚ) : Prop where
  number : x.isNaN = false
  infinite : x.isInf = true ↔ scaled (2 ^ 54 - 1) 970 ≤ v
  zero : (x == 0.0) = true ↔ v ≤ scaled 1 (-1075)

namespace Limited

variable {x : Float} {v q : ℚ} {m n k : ℕ} {e : ℤ} {accuracy : Accuracy}

theorem of_toRat? (hx : toRat? x = some q) (hv : v < scaled (2 ^ 54 - 1) 970)
    (hzero : q = 0 ↔ v ≤ scaled 1 (-1075)) : Limited x v := by
  obtain ⟨hnumber, hfinite⟩ := Float.not_special_of_isFinite (isFinite_of_toRat? hx)
  refine ⟨hnumber, iff_of_false ?_ hv.not_ge, (beq_iff hx toRat?_zero).trans hzero⟩
  rw [hfinite]
  exact Bool.false_ne_true

theorem of_infinity (hx : x.toModel.unpack = .infinity .positive)
    (hv : scaled (2 ^ 54 - 1) 970 ≤ v) : Limited x v := by
  have hnumber : x.isNaN = false := congrArg UnpackedFloat.isNaN hx
  have hrank : rank x = place (.infinity .positive) := congrArg place hx
  refine ⟨hnumber, iff_of_true (congrArg UnpackedFloat.isInf hx) hv, iff_of_false ?_ ?_⟩
  · rw [beq_iff_rank hnumber (not_isNaN toRat?_zero), hrank]
    exact (rank_inside toRat?_zero).2.ne'
  · exact (halfway_lt.trans_le hv).not_ge

/-- What is rounded is infinite or zero if it lies beyond the halfway marks. -/
theorem of_round
    (hx : x.toModel
      = .pack (.roundWithAccuracy Format.binary64 .positive m e accuracy))
    (h : Halved (.ofMantissaAndAccuracy m accuracy) e v) (he : e ≤ target m e) : Limited x v := by
  obtain ⟨k, hsettles, hround⟩ := roundWithAccuracy_eq .positive h he
  have hshift := h.shift k
  obtain ⟨R, T, hsettled, hc, hsame⟩ := exists_settled .positive hshift hsettles
  have hpack := hx.trans (congrArg Float.Model.pack (hround.trans hsettled))
  have hlarge := hshift.large_iff hsettles
  rw [← hsame] at hlarge
  rcases le_or_gt T 971 with hle | hgt
  · have hq := toRat?_of_pack hpack hc hle
    have hbound := abs_lt_of_toRat? hq
    rw [abs_unit_mul _ (scaled_nonneg R T)] at hbound
    refine of_toRat? hq (not_le.mp (mt hlarge.mpr hbound.not_ge)) ?_
    rw [unit, one_mul, hsame, scaled_eq_zero_iff]
    exact hshift.rounded_eq_zero_iff hsettles
  · refine of_infinity ?_ (hlarge.mp (large_of_gt hc hgt))
    rw [hpack, unpack_pack hc, if_neg (by omega)]

theorem exists_toRat? (h : Limited x v) (hv : v < scaled (2 ^ 54 - 1) 970) :
    ∃ q, toRat? x = some q ∧ (q = 0 ↔ v ≤ scaled 1 (-1075)) := by
  cases hx : toRat? x with
  | none =>
    obtain ⟨s, hs⟩ := exists_infinity hx h.number
    have hinfinite : x.isInf = true := congrArg UnpackedFloat.isInf hs
    exact absurd (h.infinite.mp hinfinite) hv.not_ge
  | some q => exact ⟨q, rfl, (beq_iff hx toRat?_zero).symm.trans h.zero⟩

/-- What is next to a number between the least and the greatest double is neither. -/
theorem of_rounds (h : Rounds x v) (hlow : scaled 1 (-1074) ≤ v)
    (hhigh : v ≤ scaled (2 ^ 53 - 1) 971) : Limited x v := by
  obtain ⟨y, hy⟩ := exists_of_onGrid (q := scaled 1 (-1074)) (onGrid_scaled (by decide) le_rfl)
    (abs_scaled_lt (by decide) (by decide))
  obtain ⟨z, hz⟩ := exists_of_onGrid (q := scaled (2 ^ 53 - 1) 971)
    (onGrid_scaled (by decide) (by decide)) (abs_scaled_lt (by decide) le_rfl)
  obtain ⟨q, hx, hyq, hqz⟩ := h.exists_between hy hz hlow hhigh
  have hpos : 0 < q := (scaled_pos one_pos).trans_le hyq
  have hleast : scaled 1 (-1075) < v := (scaled_one_lt (by decide)).trans_le hlow
  refine of_toRat? hx (hhigh.trans_lt ?_) (iff_of_false hpos.ne' hleast.not_ge)
  rw [← scaled_double]
  exact scaled_lt_iff.mpr (by decide)

theorem le_greatest (h : n < 2 ^ 53) : (n : ℚ) ≤ scaled (2 ^ 53 - 1) 971 := by
  rw [← scaled_of_whole]
  exact (scaled_le_iff.mpr (Nat.le_pred_of_lt h)).trans (scaled_mono _ (by decide))

theorem ofNat (hn : 0 < n) : Limited (Float.ofNat n) n := by
  rcases lt_or_ge n (2 ^ 53) with hsmall | hlarge
  · refine of_rounds (ofNat_rounds n) ?_ (le_greatest hsmall)
    rw [← scaled_of_whole]
    exact (scaled_one_le (by decide)).trans (scaled_le_iff.mpr hn)
  · have hhalved := Halved.of_exact (n <<< 53 * 1) (-53 + 0)
    rw [scaled_spare] at hhalved
    exact of_round (toModel_ofNat hlarge) hhalved (target_spare hn)

/-- A power of ten has between one bit and four bits for each of its zeros. -/
theorem quotient_bounds (hm : 0 < m) (k : ℕ) : scaled 1 (-(4 * k : ℕ)) ≤ (m : ℚ) / 10 ^ k ∧
    (m : ℚ) / 10 ^ k ≤ scaled 1 (m.log2 + 1 - k) := by
  have hone : (1 : ℚ) ≤ m := by exact_mod_cast hm
  have hbits : (m : ℚ) ≤ 2 ^ (m.log2 + 1) := by exact_mod_cast Nat.lt_log2_self.le
  have hpower : (10 : ℚ) ^ k ≤ 2 ^ (4 * k) := by
    rw [pow_mul]
    gcongr
    norm_num
  have hlow : (1 : ℚ) / 2 ^ (4 * k) = scaled 1 (-(4 * k : ℕ)) := by
    unfold scaled
    rw [zpow_neg, zpow_natCast, Nat.cast_one, one_mul, one_div]
  have hhigh : (2 : ℚ) ^ (m.log2 + 1) / 2 ^ k = scaled 1 (m.log2 + 1 - k) := by
    unfold scaled
    rw [zpow_sub₀ two_ne_zero, zpow_natCast, Nat.cast_one, one_mul]
    norm_cast
  rw [← hlow, ← hhigh]
  constructor
  · gcongr
  · gcongr
    norm_num

/-- A whole number divided by a power of ten. -/
theorem quotient (hm : 0 < m) (k : ℕ) (hk : 0 < k) :
    Limited (Float.ofScientific m true k) (m / 10 ^ k) := by
  obtain ⟨hlow, hhigh⟩ := quotient_bounds hm k
  by_cases hfast : m < 2 ^ 53 ∧ k ≤ 22
  · have hquotient := div_rounds (toRat?_word hfast.1) (toRat?_powerOfTen ⟨k, by omega⟩)
      (by positivity)
    have heq : Float.ofScientific m true k = m.toUInt64.toFloat
        / Float.exactlyRepresentablePowersOfTen[(⟨k, by omega⟩ : Fin 23)] := dif_pos hfast
    rw [heq]
    refine of_rounds hquotient ((scaled_one_le (by omega)).trans hlow) ?_
    exact (div_le_self m.cast_nonneg (one_le_pow₀ (by norm_num))).trans (le_greatest hfast.1)
  · have hslow : Float.ofScientific m true k
        = .ofModel (.pack (.ofScientific Format.binary64 m (-(k : ℤ)))) := by
      have hneg : Int.negOfNat k = -(k : ℤ) := Int.negOfNat_eq
      rw [← hneg]
      exact dif_neg hfast
    unfold UnpackedFloat.ofScientific at hslow
    have hpow : (2 ^ Format.binary64.exponentBits : ℤ) = 2048 := rfl
    rw [dif_neg hm.ne', hpow, if_neg (by omega)] at hslow
    by_cases hvanishing : m.log2 + 2048 < k
    · rw [if_pos (by omega)] at hslow
      have hzero : toRat? (Float.ofScientific m true k) = some 0 :=
        toRat?_of_zero (congrArg Float.toModel hslow)
      have hsmall := hhigh.trans (scaled_one_le (show m.log2 + 1 - (k : ℤ) ≤ -1075 by omega))
      exact of_toRat? hzero (hsmall.trans_lt halfway_lt) (iff_of_true rfl hsmall)
    · rw [if_neg (by omega), if_neg (by omega)] at hslow
      obtain ⟨hhalved, htarget⟩ := divCore_halved (e := 0) (d := 0) hm
        (Nat.pow_pos (n := (-(-(k : ℤ))).toNat) (by decide : 0 < 10))
      have hvalue : scaled m 0 / scaled (10 ^ (-(-(k : ℤ))).toNat) 0 = (m : ℚ) / 10 ^ k := by
        rw [scaled_of_whole, scaled_of_whole, neg_neg, Int.toNat_natCast, Nat.cast_pow,
          Nat.cast_ofNat]
      rw [hvalue] at hhalved
      exact of_round (congrArg Float.toModel hslow) hhalved htarget

end Limited

end Double

namespace Numeral.Literal

open Rounding
open Double (Limited TooLarge TooSmall)

variable {l : Literal}

theorem scaled_le_ten_pow {k : ℤ} (h : 400 ≤ k) : scaled 1 1200 ≤ 10 ^ k :=
  calc scaled 1 1200 = (2 ^ 3) ^ 400 := by
        unfold scaled
        rw [← pow_mul, Nat.cast_one, one_mul]
        rfl
    _ ≤ (10 : ℚ) ^ 400 := by
        gcongr
        norm_num
    _ = 10 ^ (400 : ℤ) := (zpow_ofNat 10 400).symm
    _ ≤ 10 ^ k := zpow_le_zpow_right₀ (by norm_num) h

theorem ten_pow_le_scaled {k : ℤ} (h : k ≤ -400) : 10 ^ k ≤ scaled 1 (-1200) := by
  have hinverse : scaled 1 (-1200) = (scaled 1 1200)⁻¹ := by
    unfold scaled
    rw [zpow_neg, Nat.cast_one, one_mul, one_mul]
  have hle := inv_anti₀ (scaled_pos one_pos) (scaled_le_ten_pow (k := -k) (by omega))
  rwa [← zpow_neg, neg_neg, ← hinverse] at hle

/-- Literals are rounded to the nearest double, also where their powers of ten are left aside. -/
theorem limited_toFloat (l : Literal) : Limited l.toFloat l.toRat := by
  unfold toFloat toRat
  dsimp only
  split
  next hzero =>
    rw [hzero, Nat.cast_zero, zero_mul]
    have hsmall := scaled_nonneg 1 (-1075)
    exact .of_toRat? Double.toRat?_zero (hsmall.trans_lt halfway_lt) (iff_of_true rfl hsmall)
  next hsome =>
    have hpos : 0 < l.mantissa := Nat.pos_of_ne_zero hsome
    have hwidth : 1 ≤ (Nat.toDigits 10 l.mantissa).length := Nat.length_toDigits_pos
    split
    next hlarge =>
      have hlead : (10 : ℚ) ^ ((Nat.toDigits 10 l.mantissa).length - 1) ≤ l.mantissa := by
        exact_mod_cast Decimal.pow_width_le hpos
      refine .of_infinity rfl (halfway_le.trans ((scaled_one_le (by decide)).trans
        ((scaled_le_ten_pow (k := l.exponent + (Nat.toDigits 10 l.mantissa).length - 1) ?_).trans ?_)))
      · omega
      · rw [add_sub_assoc, add_comm, zpow_add₀ (by norm_num), ← Nat.cast_pred hwidth, zpow_natCast]
        gcongr
    next =>
      split
      next hsmall =>
        have hbound : (l.mantissa : ℚ) ≤ 10 ^ (Nat.toDigits 10 l.mantissa).length := by
          exact_mod_cast ((Nat.length_toDigits_le_iff (by decide) hwidth).mp le_rfl).le
        have hle : (l.mantissa : ℚ) * 10 ^ l.exponent ≤ scaled 1 (-1075) := by
          refine le_trans ?_ ((ten_pow_le_scaled hsmall.le).trans (scaled_one_le (by decide)))
          rw [add_comm, zpow_add₀ (by norm_num), zpow_natCast]
          gcongr
        exact .of_toRat? Double.toRat?_zero (hle.trans_lt halfway_lt) (iff_of_true rfl hle)
      next =>
        split
        next hwhole =>
          have hlimited := Limited.ofNat (Nat.mul_pos hpos (Nat.pow_pos (n := l.exponent.toNat)
            (by decide : 0 < 10)))
          rw [Nat.cast_mul, Nat.cast_pow, ← zpow_natCast, Int.toNat_of_nonneg hwhole] at hlimited
          exact hlimited
        next hpart =>
          have hlimited := Limited.quotient hpos (-l.exponent).toNat (by omega)
          rw [div_eq_mul_inv, ← zpow_natCast, ← zpow_neg, Int.toNat_of_nonneg (by omega),
            neg_neg] at hlimited
          exact hlimited

theorem toRat_nonneg (l : Literal) : 0 ≤ l.toRat := by
  unfold toRat
  positivity

theorem toRat_eq_zero_iff (l : Literal) : l.toRat = 0 ↔ l.mantissa = 0 := by
  unfold toRat
  rw [mul_eq_zero_iff_right (by positivity), Nat.cast_eq_zero]

theorem outOfRange_iff (l : Literal) :
    l.outOfRange = true ↔ TooLarge l.toRat ∨ TooSmall l.toRat := by
  obtain ⟨-, hinfinite, hzero⟩ := limited_toFloat l
  unfold outOfRange
  rw [Bool.or_eq_true, Bool.and_eq_true, hinfinite, hzero, bne_iff_ne,
    Double.tooLarge_iff l.toRat_nonneg, Double.tooSmall_iff l.toRat_nonneg, ne_eq, ne_eq,
    toRat_eq_zero_iff, and_comm]

end Numeral.Literal
end EntityMachines
