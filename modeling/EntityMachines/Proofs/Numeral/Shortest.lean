import EntityMachines.Numeral.Shortest
import EntityMachines.Proofs.Numeral.Doubles
import Mathlib.Algebra.Order.Floor.Semifield

/-!
The shortest decimal of a double. Main statements: the decimal that the search finds lies where
numbers are rounded to the double, and no number lies there for two doubles.
-/
namespace EntityMachines

open Rounding (scaled Canonical scaled_le_iff scaled_lt_iff scaled_finer scaled_pos
  scaled_nonneg zpow_eq_div)

namespace Decimal

def toRat (d : Decimal) : ℚ := d.digits * 10 ^ d.exponent

theorem toRat_stripped (digits : ℕ) (exponent : ℤ) (fuel : ℕ) :
    (stripped digits exponent fuel).toRat = digits * 10 ^ exponent := by
  induction fuel generalizing digits exponent with
  | zero => rfl
  | succ fuel ih =>
    unfold stripped
    split
    next h =>
      have hdigits : digits = digits / 10 * 10 :=
        (Nat.div_mul_cancel (Nat.dvd_of_mod_eq_zero h.1)).symm
      rw [ih, zpow_add_one₀ (by norm_num)]
      conv_rhs => rw [hdigits]
      push_cast
      ring
    next => rfl

theorem pow_width_le {n : ℕ} (h : 0 < n) : 10 ^ (width n - 1) ≤ n := by
  rcases Nat.eq_zero_or_pos (width n - 1) with hone | hmore
  · rw [hone]
    exact h
  · refine not_lt.mp fun hlt => ?_
    have hwidth : width n ≤ width n - 1 :=
      (Nat.length_toDigits_le_iff (by decide) hmore).mpr hlt
    omega

end Decimal

namespace Shortest

/-- Steps of a quarter of the last place that lie between a double and the end below it. -/
def reach (m : ℕ) (e : ℤ) : ℕ := if m = 2 ^ 52 ∧ -1074 < e then 1 else 2

/-- The number lies where numbers are rounded to the double, at an end only if the double has an
even mantissa. -/
structure Surrounds (m : ℕ) (e : ℤ) (r : ℚ) : Prop where
  low : scaled (4 * m - reach m e) (e - 2) ≤ r
  high : r ≤ scaled (4 * m + 2) (e - 2)
  between : m % 2 = 1 → scaled (4 * m - reach m e) (e - 2) < r ∧ r < scaled (4 * m + 2) (e - 2)

section surrounds

variable {m n : ℕ} {e d : ℤ} {r : ℚ}

theorem reach_bounds (m : ℕ) (e : ℤ) : 1 ≤ reach m e ∧ reach m e ≤ 2 := by
  unfold reach
  split <;> decide

theorem scaled_quarters (m : ℕ) (e : ℤ) : scaled (4 * m) (e - 2) = scaled m e := by
  unfold scaled
  rw [zpow_sub₀ two_ne_zero]
  push_cast
  ring

theorem surrounds_self (hm : 0 < m) : Surrounds m e (scaled m e) := by
  have hreach := reach_bounds m e
  have hlow : scaled (4 * m - reach m e) (e - 2) < scaled m e := by
    rw [← scaled_quarters m, scaled_lt_iff]
    omega
  have hhigh : scaled m e < scaled (4 * m + 2) (e - 2) := by
    rw [← scaled_quarters m, scaled_lt_iff]
    omega
  exact ⟨hlow.le, hhigh.le, fun _ => ⟨hlow, hhigh⟩⟩

theorem Surrounds.pos (h : Surrounds m e r) (hm : 0 < m) : 0 < r := by
  have hreach := reach_bounds m e
  exact (scaled_pos (by omega)).trans_le h.low

/-- Where the places of two doubles meet, only one of them has an even mantissa. -/
theorem high_le_low (hm : Canonical m e) (hn : Canonical n d) (h : e < d ∨ e = d ∧ m < n) :
    scaled (4 * m + 2) (e - 2) < scaled (4 * n - reach n d) (d - 2) ∨
      scaled (4 * m + 2) (e - 2) = scaled (4 * n - reach n d) (d - 2) ∧ m % 2 ≠ n % 2 := by
  have hmantissa := hm.mantissa
  have hleast := hm.exponent
  have hreach := reach_bounds n d
  suffices hplaces : ∃ k, scaled (4 * n - reach n d) (d - 2) = scaled k (e - 2) ∧
      4 * m + 2 ≤ k ∧ (4 * m + 2 = k → m % 2 ≠ n % 2) by
    obtain ⟨k, hlow, hle, hparity⟩ := hplaces
    rw [hlow]
    rcases hle.lt_or_eq with hlt | heq
    · exact .inl (scaled_lt_iff.mpr hlt)
    · exact .inr ⟨by rw [heq], hparity heq⟩
  rcases h with hlt | ⟨rfl, hlt⟩
  · -- the next greater exponent: at its first mantissa the double below is the odd last one
    have hnormal : 2 ^ 52 ≤ n := hn.leading.resolve_right (by omega)
    refine ⟨_, scaled_finer _ (show e - 2 ≤ d - 2 by omega), ?_⟩
    have htwice : 2 ≤ 2 ^ (d - 2 - (e - 2)).toNat := Nat.le_self_pow (by omega) 2
    generalize 2 ^ (d - 2 - (e - 2)).toNat = steps at htwice
    have hsteps := Nat.mul_le_mul_left (4 * n - reach n d) htwice
    rcases hnormal.eq_or_lt with hfirst | hmore
    · have hhalf : reach n d = 1 := if_pos ⟨hfirst.symm, by omega⟩
      rw [hhalf] at hsteps ⊢
      generalize (4 * n - 1) * steps = k at hsteps
      omega
    · generalize (4 * n - reach n d) * steps = k at hsteps
      omega
  · have hfull : reach n e = 2 := by
      refine if_neg fun hfirst => ?_
      have hnormal := hm.leading
      omega
    refine ⟨_, rfl, ?_⟩
    rw [hfull]
    omega

theorem Surrounds.unique (hm : Canonical m e) (hn : Canonical n d) (h : Surrounds m e r)
    (h' : Surrounds n d r) : m = n ∧ e = d := by
  have hordered {m n : ℕ} {e d : ℤ} (hm : Canonical m e) (hn : Canonical n d)
      (h : Surrounds m e r) (h' : Surrounds n d r) : ¬(e < d ∨ e = d ∧ m < n) := by
    intro hlex
    rcases high_le_low hm hn hlex with hlt | ⟨heq, hparity⟩
    · exact absurd ((h.high.trans_lt hlt).trans_le h'.low) (lt_irrefl r)
    · rcases Nat.mod_two_eq_zero_or_one m with heven | hodd
      · have hodd : n % 2 = 1 := by omega
        exact absurd (h.high.trans_lt (heq.trans_lt (h'.between hodd).1)) (lt_irrefl r)
      · exact absurd (((h.between hodd).2.trans_eq heq).trans_le h'.low) (lt_irrefl r)
  have hle := hordered hm hn h h'
  have hge := hordered hn hm h' h
  omega

end surrounds

namespace Neighbourhood

section contains

variable {v : Neighbourhood} {n a : ℕ} {k : ℤ}

theorem end_le_iff (hv : 0 < v.denominator) :
    a * Nat.pow 10 (-k).toNat ≤ n * Nat.pow 10 k.toNat * v.denominator
      ↔ (a / v.denominator : ℚ) ≤ n * 10 ^ k := by
  have hden : (0 : ℚ) < v.denominator := by exact_mod_cast hv
  rw [zpow_eq_div (by norm_num), ← mul_div_assoc, div_le_div_iff₀ hden (by positivity)]
  simp only [Nat.pow_eq]
  exact_mod_cast Iff.rfl

theorem le_end_iff (hv : 0 < v.denominator) :
    n * Nat.pow 10 k.toNat * v.denominator ≤ a * Nat.pow 10 (-k).toNat
      ↔ (n * 10 ^ k : ℚ) ≤ a / v.denominator := by
  have hden : (0 : ℚ) < v.denominator := by exact_mod_cast hv
  rw [zpow_eq_div (by norm_num), ← mul_div_assoc, div_le_div_iff₀ (by positivity) hden]
  simp only [Nat.pow_eq]
  exact_mod_cast Iff.rfl

/-- The whole numbers of a neighbourhood over their denominator. -/
theorem over_denominator (x : Double.Exact) (a : ℕ) :
    ((a * Nat.pow 2 x.exponent.toNat : ℕ) : ℚ) / (of x).denominator
      = scaled a (x.exponent - 2) := by
  unfold scaled
  rw [zpow_sub₀ two_ne_zero, zpow_eq_div two_ne_zero]
  simp only [of, Nat.pow_eq]
  push_cast
  field_simp

theorem denominator_pos (x : Double.Exact) : 0 < (of x).denominator := by
  have hpow := Nat.two_pow_pos (-x.exponent).toNat
  exact Nat.mul_pos (by decide) hpow

theorem contains_iff (x : Double.Exact) (n : ℕ) (k : ℤ) :
    (of x).contains n k = true ↔ Surrounds x.mantissa x.exponent (n * 10 ^ k) := by
  have hv := denominator_pos x
  have hlow : ((of x).low : ℚ) / (of x).denominator
      = scaled (4 * x.mantissa - reach x.mantissa x.exponent) (x.exponent - 2) :=
    over_denominator x _
  have hhigh : ((of x).high : ℚ) / (of x).denominator
      = scaled (4 * x.mantissa + 2) (x.exponent - 2) := over_denominator x _
  have hclosed : (of x).closed = decide (x.mantissa % 2 = 0) := rfl
  unfold contains
  dsimp only
  rw [hclosed]
  rcases Nat.mod_two_eq_zero_or_one x.mantissa with heven | hodd
  · rw [heven, decide_eq_true rfl, if_pos rfl, Bool.and_eq_true, decide_eq_true_iff,
      decide_eq_true_iff, end_le_iff hv, le_end_iff hv, hlow, hhigh]
    exact ⟨fun h => ⟨h.1, h.2, fun hodd => by omega⟩, fun h => ⟨h.low, h.high⟩⟩
  · rw [hodd, decide_eq_false one_ne_zero, if_neg Bool.false_ne_true, Bool.and_eq_true,
      decide_eq_true_iff, decide_eq_true_iff, ← not_le, ← not_le, end_le_iff hv, le_end_iff hv,
      not_le, not_le, hlow, hhigh]
    exact ⟨fun h => ⟨h.1.le, h.2.le, fun _ => h⟩, fun h => h.between hodd⟩

end contains

section search

variable {v : Neighbourhood} {x : Double.Exact} {n : ℕ} {k : ℤ}

theorem le_leadingPlace {fuel j : ℕ} (h : v.denominator ≤ v.value * 10 ^ (j + fuel)) :
    v.denominator ≤ v.value * 10 ^ v.leadingPlace fuel j := by
  induction fuel generalizing j with
  | zero => exact h
  | succ fuel ih =>
    unfold leadingPlace
    split
    next hfound => exact hfound
    next => exact ih (by rwa [Nat.add_right_comm, Nat.add_assoc])

theorem value_over_denominator (x : Double.Exact) :
    ((of x).value : ℚ) / (of x).denominator = scaled x.mantissa x.exponent :=
  (over_denominator x _).trans (scaled_quarters _ _)

/-- The leading digit of a double is not far behind the point. -/
theorem denominator_le (hm : 0 < x.mantissa) (he : -1074 ≤ x.exponent) {places : ℕ}
    (hplaces : 358 ≤ places) : (of x).denominator ≤ (of x).value * 10 ^ places := by
  have hpow : 2 ^ (-x.exponent).toNat ≤ 10 ^ places :=
    calc 2 ^ (-x.exponent).toNat ≤ 2 ^ (3 * places) := Nat.pow_le_pow_right two_pos (by omega)
      _ = 8 ^ places := pow_mul 2 3 places
      _ ≤ 10 ^ places := Nat.pow_le_pow_left (by decide) places
  have hvalue : 4 ≤ (of x).value := by
    have hscale := Nat.two_pow_pos x.exponent.toNat
    show 4 ≤ 4 * x.mantissa * 2 ^ x.exponent.toNat
    nlinarith
  exact Nat.mul_le_mul hvalue hpow

theorem pow_magnitude_le (hm : 0 < x.mantissa) (he : -1074 ≤ x.exponent) :
    (10 : ℚ) ^ (of x).magnitude ≤ scaled x.mantissa x.exponent := by
  have hden : (0 : ℚ) < (of x).denominator := by exact_mod_cast denominator_pos x
  rw [← value_over_denominator]
  unfold magnitude
  split
  next hle =>
    have hwhole : 0 < (of x).value / (of x).denominator := Nat.div_pos hle (denominator_pos x)
    have hwidth := Decimal.pow_width_le hwhole
    have hpos : 1 ≤ Decimal.width ((of x).value / (of x).denominator) := Nat.length_toDigits_pos
    calc (10 : ℚ) ^ ((Decimal.width ((of x).value / (of x).denominator) : ℤ) - 1)
        = ((10 ^ (Decimal.width ((of x).value / (of x).denominator) - 1) : ℕ) : ℚ) := by
          rw [Nat.cast_pow, ← zpow_natCast, Nat.cast_sub hpos]
          norm_num
      _ ≤ (((of x).value / (of x).denominator : ℕ) : ℚ) := by exact_mod_cast hwidth
      _ ≤ (of x).value / (of x).denominator := Nat.cast_div_le
  next =>
    have hplace := le_leadingPlace (denominator_le hm he (by decide : 358 ≤ 1 + 400))
    have hvalue : (0 : ℚ) < (of x).value := by
      have hpos := scaled_pos (e := x.exponent) hm
      rw [← value_over_denominator] at hpos
      exact (div_pos_iff_of_pos_right hden).mp hpos
    rw [zpow_neg, zpow_natCast, inv_le_comm₀ (by positivity) (by positivity), inv_div,
      div_le_iff₀ hvalue, mul_comm]
    exact_mod_cast hplace

/-- The multiple of a power of ten next below the value. -/
def below (v : Neighbourhood) (k : ℤ) : ℕ :=
  v.value * Nat.pow 10 (-k).toNat / (v.denominator * Nat.pow 10 k.toNat)

theorem below_bounds (x : Double.Exact) (k : ℤ) :
    (((of x).below k : ℚ) * 10 ^ k ≤ scaled x.mantissa x.exponent) ∧
      scaled x.mantissa x.exponent < ((of x).below k + 1) * 10 ^ k := by
  have hten : (0 : ℚ) < 10 ^ k := by positivity
  have hfloor : (of x).below k = ⌊scaled x.mantissa x.exponent / 10 ^ k⌋₊ := by
    rw [← value_over_denominator, zpow_eq_div (by norm_num) k, div_div_div_eq]
    norm_cast
  rw [hfloor, ← le_div_iff₀ hten, ← div_lt_iff₀ hten]
  exact ⟨Nat.floor_le (div_nonneg (scaled_nonneg _ _) hten.le), Nat.lt_floor_add_one _⟩

theorem contains_of_onGrid? (h : v.onGrid? k = some n) : v.contains n k = true := by
  unfold onGrid? at h
  dsimp only at h
  split at h
  next hlower =>
    cases h
    exact (Bool.and_eq_true_iff.mp hlower).1
  next =>
    split at h
    next hupper =>
      cases h
      exact hupper
    next => cases h

theorem onGrid?_isSome (h : v.contains (v.below k) k = true) : (v.onGrid? k).isSome = true := by
  unfold below at h
  unfold onGrid?
  dsimp only
  rw [h, Bool.true_and]
  split
  next => rfl
  next hother =>
    rw [Bool.or_eq_true, not_or] at hother
    rw [if_pos (by simpa using hother.2)]
    rfl

theorem search_contains {fuel i : ℕ} (hi : i < fuel) (h : (v.onGrid? (k - i)).isSome = true) :
    ∃ n j, v.contains n j = true ∧ (v.search fuel k).toRat = n * 10 ^ j := by
  induction fuel generalizing k i with
  | zero => cases hi
  | succ fuel ih =>
    unfold search
    cases hgrid : v.onGrid? k with
    | some n => exact ⟨n, k, contains_of_onGrid? hgrid, Decimal.toRat_stripped n k 20⟩
    | none =>
      cases i with
      | zero =>
        rw [Nat.cast_zero, sub_zero, hgrid] at h
        cases h
      | succ i =>
        refine @ih (k - 1) i (Nat.lt_of_succ_lt_succ hi) ?_
        rwa [sub_sub, add_comm, ← Nat.cast_succ]

/-- Seventeen places behind the leading digit the steps are smaller than a quarter of the last
place of the mantissa. -/
theorem step_lt_quarter (hc : Canonical x.mantissa x.exponent) (hm : 0 < x.mantissa) :
    (10 : ℚ) ^ ((of x).magnitude - 17) < scaled 1 (x.exponent - 2) := by
  have hscale : (0 : ℚ) < 2 ^ x.exponent := by positivity
  have hleading : (10 : ℚ) ^ ((of x).magnitude - 17) * 10 ^ 17 < 2 ^ 53 * 2 ^ x.exponent :=
    calc (10 : ℚ) ^ ((of x).magnitude - 17) * 10 ^ 17 = 10 ^ (of x).magnitude := by
          rw [zpow_sub₀ (by norm_num)]
          norm_num
      _ ≤ scaled x.mantissa x.exponent := pow_magnitude_le hm hc.exponent
      _ < 2 ^ 53 * 2 ^ x.exponent :=
          mul_lt_mul_of_pos_right (by exact_mod_cast hc.mantissa) hscale
  unfold scaled
  rw [zpow_sub₀ two_ne_zero]
  norm_num at hleading ⊢
  linarith

theorem contains_below (hc : Canonical x.mantissa x.exponent) (hm : 0 < x.mantissa) :
    (of x).contains ((of x).below ((of x).magnitude - 17)) ((of x).magnitude - 17) = true := by
  rw [contains_iff]
  have hstep := step_lt_quarter hc hm
  obtain ⟨hle, hlt⟩ := below_bounds x ((of x).magnitude - 17)
  generalize (of x).below ((of x).magnitude - 17) = b at hle hlt
  have hreach := reach_bounds x.mantissa x.exponent
  have hlow : scaled (4 * x.mantissa - reach x.mantissa x.exponent) (x.exponent - 2)
      < b * 10 ^ ((of x).magnitude - 17) := by
    have hquarter : scaled (4 * x.mantissa - 1) (x.exponent - 2) + scaled 1 (x.exponent - 2)
        = scaled x.mantissa x.exponent := by
      rw [← scaled_quarters x.mantissa]
      unfold scaled
      push_cast [show 1 ≤ 4 * x.mantissa by omega]
      ring
    have hends : scaled (4 * x.mantissa - reach x.mantissa x.exponent) (x.exponent - 2)
        ≤ scaled (4 * x.mantissa - 1) (x.exponent - 2) := scaled_le_iff.mpr (by omega)
    linarith
  have hhigh : (b * 10 ^ ((of x).magnitude - 17) : ℚ)
      < scaled (4 * x.mantissa + 2) (x.exponent - 2) := by
    refine hle.trans_lt ?_
    rw [← scaled_quarters, scaled_lt_iff]
    omega
  exact ⟨hlow.le, hhigh.le, fun _ => ⟨hlow, hhigh⟩⟩

end search

end Neighbourhood

/-- The search ends with a decimal that is rounded to the double. -/
theorem surrounds_shortest (x : Double.Exact) (hc : Canonical x.mantissa x.exponent)
    (hm : 0 < x.mantissa) : Surrounds x.mantissa x.exponent x.shortest.toRat := by
  have hgrid := Neighbourhood.onGrid?_isSome (Neighbourhood.contains_below hc hm)
  obtain ⟨n, k, hcontains, hfound⟩ :=
    Neighbourhood.search_contains (by decide : 17 < 18) (by exact_mod_cast hgrid)
  have hshortest : x.shortest.toRat = n * 10 ^ k := hfound
  rw [hshortest, ← Neighbourhood.contains_iff]
  exact hcontains

end Shortest
end EntityMachines
