import EntityMachines.Proofs.Numeral.Order
import Mathlib.Algebra.Order.Field.Power
import Mathlib.Data.Nat.Cast.Order.Field
import Mathlib.Tactic.Ring

/-!
How doubles are rounded. Main statement: a number is never rounded across one that a double can
hold, so that rounding keeps order, and what a double can hold stays as it is.
-/
namespace EntityMachines
namespace Rounding

open Float.Model (Format UnpackedFloat totalExponent)
open Float.Model.UnpackedFloat (Sign Accuracy ExtendedMantissa)

/-- A mantissa counts a power of two. -/
def scaled (m : ℕ) (e : ℤ) : ℚ := m * 2 ^ e

section scaled

variable {m n k : ℕ} {e d : ℤ}

theorem scaled_nonneg (m : ℕ) (e : ℤ) : 0 ≤ scaled m e := by
  unfold scaled
  positivity

theorem scaled_le_iff : scaled m e ≤ scaled n e ↔ m ≤ n := by
  unfold scaled
  rw [mul_le_mul_iff_left₀ (by positivity), Nat.cast_le]

theorem scaled_lt_iff : scaled m e < scaled n e ↔ m < n := by
  unfold scaled
  rw [mul_lt_mul_iff_left₀ (by positivity), Nat.cast_lt]

theorem scaled_pos (h : 0 < m) : 0 < scaled m e := by
  unfold scaled
  positivity

theorem scaled_eq_zero_iff : scaled m e = 0 ↔ m = 0 := by
  unfold scaled
  rw [mul_eq_zero_iff_right (by positivity), Nat.cast_eq_zero]

theorem scaled_zero (e : ℤ) : scaled 0 e = 0 := by
  unfold scaled
  rw [Nat.cast_zero, zero_mul]

theorem scaled_two_pow (m k : ℕ) (e : ℤ) : scaled (m * 2 ^ k) e = scaled m (e + k) := by
  unfold scaled
  rw [zpow_add₀ two_ne_zero, zpow_natCast]
  push_cast
  ring

/-- A mantissa may count smaller steps instead. -/
theorem scaled_finer (m : ℕ) (h : d ≤ e) : scaled m e = scaled (m * 2 ^ (e - d).toNat) d := by
  rw [scaled_two_pow]
  congr 1
  omega

theorem scaled_mul (m n : ℕ) (e d : ℤ) : scaled m e * scaled n d = scaled (m * n) (e + d) := by
  unfold scaled
  rw [zpow_add₀ two_ne_zero]
  push_cast
  ring

theorem scaled_mono (m : ℕ) (h : d ≤ e) : scaled m d ≤ scaled m e := by
  unfold scaled
  gcongr
  exact one_le_two

theorem scaled_one_le (h : d ≤ e) : scaled 1 d ≤ scaled 1 e := scaled_mono 1 h

theorem scaled_one_lt (h : d < e) : scaled 1 d < scaled 1 e := by
  unfold scaled
  rw [Nat.cast_one, one_mul, one_mul]
  exact zpow_lt_zpow_right₀ one_lt_two h

theorem scaled_pow (k : ℕ) (e : ℤ) : scaled (2 ^ k) e = scaled 1 (e + k) := by
  rw [← scaled_two_pow, one_mul]

end scaled

theorem scaled_double (m : ℕ) (e : ℤ) : scaled (2 * m) (e - 1) = scaled m e := by
  rw [mul_comm, ← pow_one 2, scaled_two_pow]
  congr 1
  push_cast
  ring

/-- How many halves of its last place a mantissa counts, together with the bit behind it. -/
def halves (em : ExtendedMantissa) : ℕ := 2 * em.mantissa + em.roundBit.toNat

/-- The number lies at so many halves of the last place or between them and the next one; the bit
behind them tells whether a rest is left. -/
structure Halved (em : ExtendedMantissa) (e : ℤ) (v : ℚ) : Prop where
  lower : scaled (halves em) (e - 1) ≤ v
  upper : v < scaled (halves em + 1) (e - 1)
  rest : em.stickyBit = false ↔ v = scaled (halves em) (e - 1)

namespace Halved

variable {em : ExtendedMantissa} {m n j : ℕ} {e : ℤ} {v : ℚ}

theorem of_exact (m : ℕ) (e : ℤ) : Halved (.ofMantissaAndAccuracy m .exact) e (scaled m e) := by
  have hhalves : halves (.ofMantissaAndAccuracy m .exact) = 2 * m := rfl
  refine ⟨?_, ?_, ?_⟩
  · rw [hhalves, scaled_double]
  · rw [hhalves, ← scaled_double, scaled_lt_iff]
    exact Nat.lt_succ_self _
  · rw [hhalves, scaled_double]
    exact iff_of_true rfl rfl

theorem halves_quotient (hn : 0 < n) (m : ℕ) :
    let em := ExtendedMantissa.ofMantissaAndAccuracy (m / n)
      (UnpackedFloat.accuracyOfFraction (m % n) n)
    halves em = 2 * m / n ∧ (em.stickyBit = false ↔ 2 * m % n = 0) := by
  have hdivmod : n * (m / n) + m % n = m := Nat.div_add_mod m n
  have hlt : m % n < n := Nat.mod_lt m hn
  have hunique (b c : ℕ) (hc : c < n) (hsum : c + n * b = 2 * (m % n)) :
      2 * m / n = 2 * (m / n) + b ∧ 2 * m % n = c :=
    (Nat.div_mod_unique hn).mpr ⟨by linarith, hc⟩
  unfold UnpackedFloat.accuracyOfFraction
  dsimp only
  rcases Nat.eq_zero_or_pos (m % n) with hzero | hpos
  · obtain ⟨hdiv, hmod⟩ := hunique 0 0 hn (by omega)
    rw [if_pos hzero, hdiv, hmod]
    exact ⟨rfl, iff_of_true rfl rfl⟩
  · rw [if_neg hpos.ne']
    rcases lt_trichotomy (2 * (m % n)) n with hless | heq | hgreater
    · obtain ⟨hdiv, hmod⟩ := hunique 0 (2 * (m % n)) hless rfl
      rw [compare_lt_iff_lt.mpr hless, hdiv, hmod]
      exact ⟨rfl, iff_of_false Bool.false_ne_true.symm (by omega)⟩
    · obtain ⟨hdiv, hmod⟩ := hunique 1 0 hn (by omega)
      rw [compare_eq_iff_eq.mpr heq, hdiv, hmod]
      exact ⟨rfl, iff_of_true rfl rfl⟩
    · obtain ⟨hdiv, hmod⟩ := hunique 1 (2 * (m % n) - n) (by omega) (by omega)
      rw [compare_gt_iff_gt.mpr hgreater, hdiv, hmod]
      exact ⟨rfl, iff_of_false Bool.false_ne_true.symm (by omega)⟩

/-- A whole quotient with what its remainder tells. -/
theorem of_quotient (hn : 0 < n) (m : ℕ) (e : ℤ) :
    Halved (.ofMantissaAndAccuracy (m / n) (UnpackedFloat.accuracyOfFraction (m % n) n)) e
      (m / n * 2 ^ e) := by
  obtain ⟨hhalves, hsticky⟩ := halves_quotient hn m
  have hcast : (0 : ℚ) < n := by exact_mod_cast hn
  have hvalue : (m : ℚ) / n * 2 ^ e = (2 * m : ℕ) / n * 2 ^ (e - 1) := by
    rw [zpow_sub_one₀ two_ne_zero]
    push_cast
    ring
  rw [hvalue]
  refine ⟨?_, ?_, ?_⟩
  · rw [hhalves]
    unfold scaled
    gcongr
    exact Nat.cast_div_le
  · rw [hhalves]
    unfold scaled
    gcongr
    rw [div_lt_iff₀ hcast]
    exact_mod_cast Nat.lt_mul_of_div_lt (Nat.lt_succ_self _) hn
  · rw [hsticky, hhalves]
    unfold scaled
    rw [mul_left_inj' (by positivity), div_eq_iff hcast.ne']
    have hdivmod := Nat.div_add_mod' (2 * m) n
    constructor
    · intro hmod
      rw [hmod, add_zero] at hdivmod
      exact_mod_cast hdivmod.symm
    · intro hmod
      have hwhole : 2 * m = 2 * m / n * n := by exact_mod_cast hmod
      omega

theorem mantissa_le (h : Halved em e v) : scaled em.mantissa e ≤ v := by
  refine le_trans ?_ h.lower
  rw [← scaled_double, scaled_le_iff]
  exact Nat.le_add_right _ _

theorem lt_succ (h : Halved em e v) : v < scaled (em.mantissa + 1) e := by
  refine h.upper.trans_le ?_
  rw [← scaled_double (em.mantissa + 1), scaled_le_iff]
  have hbit := Bool.toNat_le em.roundBit
  unfold halves
  omega

theorem eq_mantissa_iff (h : Halved em e v) :
    v = scaled em.mantissa e ↔ em.roundBit = false ∧ em.stickyBit = false := by
  rw [h.rest, ← scaled_double]
  constructor
  · intro hv
    have hle : halves em ≤ 2 * em.mantissa := scaled_le_iff.mp (h.lower.trans_eq hv)
    have hbit : em.roundBit = false := by
      unfold halves at hle
      rcases hround : em.roundBit with _ | _
      · rfl
      · rw [hround] at hle
        simp at hle
    refine ⟨hbit, ?_⟩
    unfold halves
    rw [hbit]
    exact hv
  · rintro ⟨hbit, hv⟩
    unfold halves at hv
    rwa [hbit] at hv

theorem shiftRightOne (h : Halved em e v) : Halved em.shiftRightOne (e + 1) v := by
  have hhalves : halves em.shiftRightOne = em.mantissa := by
    have hparity := Nat.mod_two_eq_zero_or_one em.mantissa
    unfold halves ExtendedMantissa.shiftRightOne
    dsimp only
    rcases hparity with hbit | hbit <;> simp [hbit] <;> omega
  have hsticky : em.shiftRightOne.stickyBit = (em.roundBit || em.stickyBit) := rfl
  constructor
  · rw [hhalves, add_sub_cancel_right]
    exact h.mantissa_le
  · rw [hhalves, add_sub_cancel_right]
    exact h.lt_succ
  · rw [hhalves, add_sub_cancel_right, hsticky, h.eq_mantissa_iff, Bool.or_eq_false_iff]

theorem shift (h : Halved em e v) (k : ℕ) : Halved (em >>> k) (e + k) v := by
  induction k with
  | zero =>
    rw [Nat.cast_zero, add_zero]
    exact h
  | succ k ih =>
    rw [Nat.cast_succ, ← add_assoc]
    exact ih.shiftRightOne

theorem rounded_bounds (em : ExtendedMantissa) :
    em.mantissa ≤ em.roundedMantissa ∧ em.roundedMantissa ≤ em.mantissa + 1 := by
  obtain ⟨m, roundBit, stickyBit⟩ := em
  cases roundBit <;> cases stickyBit <;>
    simp [ExtendedMantissa.roundedMantissa, ExtendedMantissa.accuracy,
      Accuracy.roundToNearestEven]
  omega

/-- No multiple of the step is crossed upwards. -/
theorem le_rounded (h : Halved em e v) (hj : scaled j e ≤ v) : j ≤ em.roundedMantissa := by
  have hlt : j < em.mantissa + 1 := scaled_lt_iff.mp (hj.trans_lt h.lt_succ)
  exact (Nat.lt_succ_iff.mp hlt).trans (rounded_bounds em).1

/-- No multiple of the step is crossed downwards. -/
theorem rounded_le (h : Halved em e v) (hj : v ≤ scaled j e) : em.roundedMantissa ≤ j := by
  rcases h.mantissa_le.eq_or_lt with heq | hlt
  · obtain ⟨hround, hsticky⟩ := h.eq_mantissa_iff.mp heq.symm
    have hsame : em.roundedMantissa = em.mantissa := by
      obtain ⟨m, roundBit, stickyBit⟩ := em
      obtain rfl : roundBit = false := hround
      obtain rfl : stickyBit = false := hsticky
      rfl
    rw [hsame]
    exact scaled_le_iff.mp (heq.trans_le hj)
  · exact (rounded_bounds em).2.trans (scaled_lt_iff.mp (hlt.trans_le hj))

end Halved

/-- A number that 53 bits can write above the least exponent. -/
def OnGrid (y : ℚ) : Prop := ∃ n k, n < 2 ^ 53 ∧ -1074 ≤ k ∧ y = scaled n k

/-- No number on the grid lies strictly between two numbers, or on the first one alone. -/
structure Faithful (r v : ℚ) : Prop where
  above : ∀ y, OnGrid y → y ≤ v → y ≤ r
  below : ∀ y, OnGrid y → v ≤ y → r ≤ y

/-- Mantissa and exponent as doubles have them. -/
structure Canonical (m : ℕ) (e : ℤ) : Prop where
  mantissa : m < 2 ^ 53
  exponent : -1074 ≤ e
  leading : 2 ^ 52 ≤ m ∨ e = -1074

/-- An unpacked double, zero included. -/
def signed (s : Sign) (m : ℕ) (e : ℤ) : UnpackedFloat :=
  if h : m = 0 then .zero s else .finite s m e (Nat.pos_of_ne_zero h)

/-- The exponent to which a number is rounded. -/
def target (m : ℕ) (e : ℤ) : ℤ := Format.binary64.targetExponent (totalExponent m e)

theorem target_eq (m : ℕ) (e : ℤ) : target m e = max (m.log2 + e - 52) (-1074) := by
  have hbits : (Format.binary64.mantissaBits : ℤ) = 53 := rfl
  have hleast : Format.binary64.minExponent = -1074 := rfl
  unfold target Format.targetExponent totalExponent
  rw [hbits, hleast]
  congr 1
  ring

/-- From the exponent to which a number is rounded, all smaller numbers on the grid can be seen. -/
theorem Halved.faithful {em : ExtendedMantissa} {T : ℤ} {v : ℚ} (h : Halved em T v)
    (hT : T = -1074 ∨ scaled (2 ^ 52) T ≤ v) : Faithful (scaled em.roundedMantissa T) v := by
  constructor
  · rintro _ ⟨n, k, hn, hk, rfl⟩ hle
    rcases le_or_gt T k with hTk | hkT
    · rw [scaled_finer n hTk] at hle ⊢
      exact scaled_le_iff.mpr (h.le_rounded hle)
    · have hlarge := hT.resolve_left (by omega)
      have hsmall : scaled n k ≤ scaled (2 ^ 52) T := by
        have hone : 1 ≤ 2 ^ (T - (k + 1)).toNat := Nat.one_le_two_pow
        have hexp : T - k = T - (k + 1) + 1 := by ring
        rw [scaled_finer _ hkT.le, scaled_le_iff, hexp, Int.toNat_add (by omega) zero_le_one]
        calc n ≤ 2 ^ 52 * (1 * 2) := by omega
          _ ≤ 2 ^ 52 * (2 ^ (T - (k + 1)).toNat * 2) := by gcongr
      exact hsmall.trans (scaled_le_iff.mpr (h.le_rounded hlarge))
  · rintro _ ⟨n, k, hn, hk, rfl⟩ hle
    rcases le_or_gt T k with hTk | hkT
    · rw [scaled_finer n hTk] at hle ⊢
      exact scaled_le_iff.mpr (h.rounded_le hle)
    · have hlarge := hT.resolve_left (by omega)
      refine absurd (hlarge.trans hle) (not_le.mpr ?_)
      have hexp : T - k = T - (k + 1) + 1 := by ring
      rw [scaled_finer _ hkT.le, scaled_lt_iff, hexp, Int.toNat_add (by omega) zero_le_one]
      have hone : 1 ≤ 2 ^ (T - (k + 1)).toNat := Nat.one_le_two_pow
      calc n < 2 ^ 52 * (1 * 2) := by omega
        _ ≤ 2 ^ 52 * (2 ^ (T - (k + 1)).toNat * 2) := by gcongr

theorem le_log2_of_le {m k : ℕ} (h : 2 ^ k ≤ m) : k ≤ m.log2 :=
  (Nat.le_log2 (Nat.ne_of_gt ((Nat.two_pow_pos k).trans_le h))).mpr h

theorem log2_le_of_lt {m k : ℕ} (h : m < 2 ^ (k + 1)) : m.log2 ≤ k := by
  rcases eq_or_ne m 0 with rfl | hm
  · exact Nat.zero_le k
  · exact Nat.lt_succ_iff.mp ((Nat.log2_lt hm).mpr h)

/-- The second shift of a rounding: the mantissa has at most one bit too many, and then it is a
power of two. -/
theorem shift_rounded {R : ℕ} {T : ℤ} (hR : R ≤ 2 ^ 53) (hT : -1074 ≤ T) :
    ∃ k : ℕ, UnpackedFloat.shiftToTargetExponent Format.binary64 R T .exact
        = (ExtendedMantissa.ofMantissaAndAccuracy R .exact >>> k, T + k) ∧
      (R < 2 ^ 53 ∧ k = 0 ∨ R = 2 ^ 53 ∧ k = 1) := by
  have hshift : UnpackedFloat.shiftToTargetExponent Format.binary64 R T .exact
      = (ExtendedMantissa.ofMantissaAndAccuracy R .exact >>> (target R T - T).toNat,
        T + (target R T - T).toNat) := rfl
  refine ⟨(target R T - T).toNat, hshift, ?_⟩
  rw [target_eq]
  rcases hR.lt_or_eq with hlt | rfl
  · have hlog := log2_le_of_lt hlt
    exact .inl ⟨hlt, by omega⟩
  · rw [Nat.log2_two_pow]
    exact .inr ⟨rfl, by omega⟩

/-- An exponent at which a number is rounded: in front of the point it has no more than 53 bits,
and as many as there is room for. -/
structure Settles (T : ℤ) (v : ℚ) : Prop where
  least : -1074 ≤ T
  large : T = -1074 ∨ scaled (2 ^ 52) T ≤ v
  small : v ≤ scaled (2 ^ 53) T

/-- A rounded mantissa with a bit too many is a power of two, and then the exponent is raised. -/
def settled (s : Sign) (R : ℕ) (T : ℤ) : UnpackedFloat :=
  if R < 2 ^ 53 then signed s R T else signed s (2 ^ 52) (T + 1)

theorem mantissa_ofAccuracy (m : ℕ) (accuracy : Accuracy) :
    (ExtendedMantissa.ofMantissaAndAccuracy m accuracy).mantissa = m := by
  rcases accuracy with _ | o
  · rfl
  · cases o <;> rfl

/-- A number is rounded once, after a shift. -/
theorem roundWithAccuracy_eq (s : Sign) {m : ℕ} {e : ℤ} {accuracy : Accuracy} {v : ℚ}
    (h : Halved (.ofMantissaAndAccuracy m accuracy) e v) (he : e ≤ target m e) :
    ∃ k : ℕ, Settles (e + k) v ∧
      UnpackedFloat.roundWithAccuracy Format.binary64 s m e accuracy
        = settled s (ExtendedMantissa.ofMantissaAndAccuracy m accuracy >>> k).roundedMantissa
          (e + k) := by
  let k := (target m e - e).toNat
  let T := e + k
  let em := ExtendedMantissa.ofMantissaAndAccuracy m accuracy >>> k
  have hTtarget : T = max (m.log2 + e - 52) (-1074) := by
    rw [← target_eq]
    omega
  have hlower : scaled m e ≤ v := by
    simpa only [mantissa_ofAccuracy] using h.mantissa_le
  have hupper : v < scaled (m + 1) e := by
    simpa only [mantissa_ofAccuracy] using h.lt_succ
  have hleast : -1074 ≤ T := by omega
  have hlarge : T = -1074 ∨ scaled (2 ^ 52) T ≤ v := by
    refine or_iff_not_imp_left.mpr fun hT => ?_
    have hm : m ≠ 0 := by
      rintro rfl
      rw [Nat.log2_zero] at hTtarget
      omega
    calc scaled (2 ^ 52) T = scaled (2 ^ m.log2) e := by
          rw [scaled_pow, scaled_pow]
          congr 1
          omega
      _ ≤ scaled m e := scaled_le_iff.mpr (Nat.log2_self_le hm)
      _ ≤ v := hlower
  have hsmall : v ≤ scaled (2 ^ 53) T :=
    calc v ≤ scaled (m + 1) e := hupper.le
      _ ≤ scaled (2 ^ (m.log2 + 1)) e := scaled_le_iff.mpr Nat.lt_log2_self
      _ ≤ scaled (2 ^ 53) T := by
          rw [scaled_pow, scaled_pow]
          refine scaled_one_le ?_
          push_cast
          omega
  obtain ⟨k', hshift, hk'⟩ := shift_rounded ((h.shift k).rounded_le hsmall) hleast
  have hround : UnpackedFloat.roundWithAccuracy Format.binary64 s m e accuracy
      = signed s (ExtendedMantissa.ofMantissaAndAccuracy em.roundedMantissa .exact >>> k').mantissa
        (T + k') := by
    have hfirst : UnpackedFloat.shiftToTargetExponent Format.binary64 m e accuracy = (em, T) := rfl
    unfold UnpackedFloat.roundWithAccuracy
    rw [hfirst]
    dsimp only
    rw [hshift]
    rfl
  refine ⟨k, ⟨hleast, hlarge, hsmall⟩, hround.trans ?_⟩
  show _ = settled s em.roundedMantissa T
  unfold settled
  rcases hk' with ⟨hlt, rfl⟩ | ⟨hmax, rfl⟩
  · rw [if_pos hlt, Nat.cast_zero, add_zero]
    rfl
  · rw [hmax, if_neg (lt_irrefl _), Nat.cast_one]
    rfl

/-- A mantissa with a bit too many counts as much as the power of two that takes its place. -/
theorem exists_settled (s : Sign) {em : ExtendedMantissa} {T : ℤ} {v : ℚ} (h : Halved em T v)
    (hT : Settles T v) : ∃ R T', settled s em.roundedMantissa T = signed s R T' ∧ Canonical R T' ∧
      scaled R T' = scaled em.roundedMantissa T := by
  have hleast := hT.least
  rcases (h.rounded_le hT.small).lt_or_eq with hlt | hmax
  · refine ⟨_, T, if_pos hlt, ⟨hlt, hleast, ?_⟩, rfl⟩
    exact (hT.large.imp_right h.le_rounded).symm
  · refine ⟨2 ^ 52, T + 1, ?_, ⟨by decide, by omega, .inl le_rfl⟩, ?_⟩
    · rw [hmax]
      rfl
    · rw [hmax, scaled_pow, scaled_pow]
      congr 1
      push_cast
      ring

/-- To round is to find a neighbour in the form that doubles have. -/
theorem roundWithAccuracy_faithful (s : Sign) {m : ℕ} {e : ℤ} {accuracy : Accuracy} {v : ℚ}
    (h : Halved (.ofMantissaAndAccuracy m accuracy) e v) (he : e ≤ target m e) :
    ∃ R T, UnpackedFloat.roundWithAccuracy Format.binary64 s m e accuracy = signed s R T ∧
      Canonical R T ∧ Faithful (scaled R T) v := by
  obtain ⟨k, hsettles, hround⟩ := roundWithAccuracy_eq s h he
  have hshift := h.shift k
  obtain ⟨R, T, hsettled, hcanonical, hsame⟩ := exists_settled s hshift hsettles
  exact ⟨R, T, hround.trans hsettled, hcanonical, hsame ▸ hshift.faithful hsettles.large⟩

/-- A mantissa without a rest is rounded to a neighbour whatever its exponent. -/
theorem round_faithful (s : Sign) {m : ℕ} (hm : m ≠ 0) (e : ℤ) :
    ∃ R T, UnpackedFloat.round Format.binary64 s m e = signed s R T ∧
      Canonical R T ∧ Faithful (scaled R T) (scaled m e) := by
  let k := (e - target m e).toNat
  have hround : UnpackedFloat.round Format.binary64 s m e
      = UnpackedFloat.roundWithAccuracy Format.binary64 s (m <<< k) (e - k) .exact := rfl
  have hsame : scaled (m <<< k) (e - k) = scaled m e := by
    rw [Nat.shiftLeft_eq, scaled_two_pow]
    congr 1
    ring
  rw [hround, ← hsame]
  refine roundWithAccuracy_faithful s (.of_exact _ _) ?_
  rw [target_eq]
  have hk : k = (e - max (m.log2 + e - 52) (-1074)).toNat := by
    rw [← target_eq]
  have hlog : m.log2 + k ≤ (m <<< k).log2 := by
    refine le_log2_of_le ?_
    rw [pow_add, Nat.shiftLeft_eq]
    exact Nat.mul_le_mul_right _ (Nat.log2_self_le hm)
  omega

section packing

variable {s : Sign} {m : ℕ} {e : ℤ}

theorem signed_zero (s : Sign) (e : ℤ) : signed s 0 e = .zero s := rfl

theorem signed_pos (h : 0 < m) : signed s m e = .finite s m e h := dif_neg h.ne'

theorem eq_of_signed_eq_finite {t : Sign} {n : ℕ} {d : ℤ} {hn : 0 < n}
    (h : signed s m e = .finite t n d hn) : s = t ∧ m = n ∧ e = d := by
  rcases Nat.eq_zero_or_pos m with rfl | hm
  · cases h
  · rw [signed_pos hm] at h
    cases h
    exact ⟨rfl, rfl, rfl⟩

theorem toNat_leading (f : BitVec 52) : (1#1 ++ f).toNat = 2 ^ 52 + f.toNat := by
  rw [BitVec.toNat_append, ← Nat.shiftLeft_add_eq_or_of_lt f.isLt]
  rfl

/-- What the parts of a double say. -/
theorem unpack_eq (b : BitVec Format.binary64.numBits) :
    UnpackedFloat.unpack Format.binary64 b =
      let sign := Sign.ofBitVec (UnpackedFloat.unpackSign b)
      let exponent : BitVec 11 := UnpackedFloat.unpackExponent b
      let fraction : BitVec 52 := UnpackedFloat.unpackMantissa b
      if exponent = -1#11 then if fraction = 0#52 then .infinity sign else .notANumber
      else if exponent = 0#11 then signed sign fraction.toNat (-1074)
      else signed sign (2 ^ 52 + fraction.toNat) (exponent.toNat - 1075) := by
  have hbias : (Format.binary64.exponentBias + Format.binary64.mantissaBitsWithoutImplicit : ℤ)
      = 1075 := rfl
  unfold UnpackedFloat.unpack
  dsimp only
  rw [hbias]
  refine ite_congr rfl (fun _ => rfl) fun _ => ite_congr rfl (fun hexponent => ?_) fun _ => ?_
  · by_cases hzero : (UnpackedFloat.unpackMantissa b : BitVec 52) = 0#52
    · rw [dif_pos hzero, hzero]
      rfl
    · rw [dif_neg hzero, hexponent]
      exact (signed_pos _).symm
  · rw [← toNat_leading, signed_pos (by rw [toNat_leading]; positivity)]

theorem ofBitVec_toBitVec (s : Sign) : Sign.ofBitVec s.toBitVec = s := by
  cases s <;> rfl

/-- The sign is the bit in front of all others. -/
theorem unpackSign_eq {spec : Format} (b : BitVec spec.numBits) :
    UnpackedFloat.unpackSign b = BitVec.cast (by omega)
      (b.extractLsb (spec.mantissaBitsWithoutImplicit + spec.exponentBits)
        (spec.mantissaBitsWithoutImplicit + spec.exponentBits)) := rfl

theorem unpackSign_packComponents {spec : Format} (s : Sign) (exponent : BitVec spec.exponentBits)
    (fraction : BitVec spec.mantissaBitsWithoutImplicit) :
    UnpackedFloat.unpackSign (UnpackedFloat.packComponents spec s exponent fraction)
      = s.toBitVec := by
  ext i hi
  obtain rfl : i = 0 := by omega
  simp [unpackSign_eq, UnpackedFloat.packComponents, BitVec.getLsbD_append,
    BitVec.getElem_append]

/-- What is put together from parts comes apart again. -/
theorem unpack_packComponents (s : Sign) (exponent : BitVec 11) (fraction : BitVec 52) :
    UnpackedFloat.unpack Format.binary64
        (UnpackedFloat.packComponents Format.binary64 s exponent fraction) =
      if exponent = -1#11 then if fraction = 0#52 then .infinity s else .notANumber
      else if exponent = 0#11 then signed s fraction.toNat (-1074)
      else signed s (2 ^ 52 + fraction.toNat) (exponent.toNat - 1075) := by
  rw [unpack_eq]
  simp only [unpackSign_packComponents, UnpackedFloat.unpackExponent_packComponents,
    UnpackedFloat.unpackMantissa_packComponents, ofBitVec_toBitVec]

theorem pack_finite (s : Sign) (h : 0 < m) :
    UnpackedFloat.pack Format.binary64 (.finite s m e h) =
      let field :=
        (e + Format.binary64.exponentBias + Format.binary64.mantissaBitsWithoutImplicit).toNat
      if 2048 ≤ field + 1 then UnpackedFloat.packedInfinity Format.binary64 s
      else if m.log2 + 1 = Format.binary64.mantissaBits then
        UnpackedFloat.packComponents Format.binary64 s (BitVec.ofNat 11 field) (BitVec.ofNat 52 m)
      else UnpackedFloat.packComponents Format.binary64 s 0#11 (BitVec.ofNat 52 m) := rfl

/-- A double in its form is packed without loss, unless it is too large: then it is infinite. -/
theorem unpack_pack (h : Canonical m e) : (Float.Model.pack (signed s m e)).unpack
    = if e ≤ 971 then signed s m e else .infinity s := by
  show UnpackedFloat.unpack Format.binary64 (UnpackedFloat.pack Format.binary64 (signed s m e)) = _
  have hexponent := h.exponent
  rcases Nat.eq_zero_or_pos m with rfl | hm
  · have hleast : e = -1074 := h.leading.resolve_left (by decide)
    rw [if_pos (by omega), signed_zero]
    exact unpack_packComponents s 0#11 0#52
  have hbias : (e + Format.binary64.exponentBias + Format.binary64.mantissaBitsWithoutImplicit)
      = e + 1075 := by
    rw [add_assoc]
    rfl
  rw [signed_pos hm, pack_finite s hm, ← signed_pos (s := s) hm]
  dsimp only
  rw [hbias]
  rcases le_or_gt e 971 with hle | hgt
  · rw [if_pos hle, if_neg (by omega)]
    have hlog : m.log2 + 1 = Format.binary64.mantissaBits ↔ 2 ^ 52 ≤ m := by
      show m.log2 + 1 = 53 ↔ _
      have hupper : m.log2 ≤ 52 := log2_le_of_lt h.mantissa
      rw [← Nat.le_log2 hm.ne']
      omega
    by_cases hnormal : 2 ^ 52 ≤ m
    · have hfield : (BitVec.ofNat 11 (e + 1075).toNat).toNat = (e + 1075).toNat := by
        rw [BitVec.toNat_ofNat, Nat.mod_eq_of_lt (by omega)]
      have hones : BitVec.ofNat 11 (e + 1075).toNat ≠ -1#11 := fun heq => by
        have hmax : (e + 1075).toNat = 2047 := hfield.symm.trans (congrArg BitVec.toNat heq)
        omega
      have hzero : BitVec.ofNat 11 (e + 1075).toNat ≠ 0#11 := fun heq => by
        have hmin : (e + 1075).toNat = 0 := hfield.symm.trans (congrArg BitVec.toNat heq)
        omega
      have hmantissa : 2 ^ 52 + (BitVec.ofNat 52 m).toNat = m := by
        have hupper := h.mantissa
        rw [BitVec.toNat_ofNat]
        omega
      have hback : ((e + 1075).toNat : ℤ) - 1075 = e := by omega
      rw [if_pos (hlog.mpr hnormal), unpack_packComponents, if_neg hones, if_neg hzero, hmantissa,
        hfield, hback]
    · have hleast : e = -1074 := h.leading.resolve_left hnormal
      have hmantissa : (BitVec.ofNat 52 m).toNat = m := by
        rw [BitVec.toNat_ofNat, Nat.mod_eq_of_lt (by omega)]
      rw [if_neg (mt hlog.mp hnormal), unpack_packComponents, if_neg (by decide), if_pos rfl,
        hmantissa, hleast]
  · rw [if_pos (by omega), if_neg (by omega)]
    exact unpack_packComponents s (-1#11) 0#52

/-- A double is in the form that doubles have. -/
theorem canonical_unpack (x : Float) :
    x.toModel.unpack = .notANumber ∨ (∃ s, x.toModel.unpack = .infinity s) ∨
      ∃ s m e, x.toModel.unpack = signed s m e ∧ Canonical m e ∧ e ≤ 971 := by
  have hunpack := unpack_eq x.toModel.toBits.toBitVec
  rw [show UnpackedFloat.unpack Format.binary64 x.toModel.toBits.toBitVec = x.toModel.unpack
    from rfl] at hunpack
  dsimp only at hunpack
  generalize @UnpackedFloat.unpackExponent Format.binary64 _ = exponent at hunpack
  generalize @UnpackedFloat.unpackMantissa Format.binary64 _ = fraction at hunpack
  have hfraction : fraction.toNat < 2 ^ 52 := fraction.isLt
  by_cases hones : exponent = -1#11
  · rw [if_pos hones] at hunpack
    by_cases hzero : fraction = 0#52
    · exact .inr (.inl ⟨_, hunpack.trans (if_pos hzero)⟩)
    · exact .inl (hunpack.trans (if_neg hzero))
  · have hexponent : exponent.toNat < 2047 := by
      have hne : exponent.toNat ≠ 2047 := fun h => hones (BitVec.eq_of_toNat_eq h)
      have hlt : exponent.toNat < 2 ^ 11 := exponent.isLt
      omega
    rw [if_neg hones] at hunpack
    by_cases hzero : exponent = 0#11
    · exact .inr (.inr ⟨_, _, _, hunpack.trans (if_pos hzero),
        ⟨by omega, le_rfl, .inr rfl⟩, by omega⟩)
    · have hpos : exponent.toNat ≠ 0 := fun h => hzero (BitVec.eq_of_toNat_eq h)
      exact .inr (.inr ⟨_, _, _, hunpack.trans (if_neg hzero),
        ⟨by omega, by omega, .inl (by omega)⟩, by omega⟩)

end packing

end Rounding
end EntityMachines
