import EntityMachines.Proofs.Numeral.Rounding
import Mathlib.Data.Nat.Cast.Order.Field

/-!
Doubles by the rational numbers that they are: their order, their arithmetic and the whole numbers
among them. Main statement: sums, differences, products and quotients are rounded to neighbours, so
that they keep order with every double.
-/
namespace EntityMachines

open Float.Model (Format UnpackedFloat totalExponent)
open Float.Model.UnpackedFloat (Sign Accuracy ExtendedMantissa)

namespace Rounding

def unit : Sign → ℚ
  | .positive => 1
  | .negative => -1

theorem unit_neg (s : Sign) : unit (-s) = -unit s := by
  cases s
  · exact (neg_neg 1).symm
  · rfl

theorem unit_mul (s t : Sign) : unit (s * t) = unit s * unit t := by
  cases s <;> cases t
  · exact ((neg_one_mul (-1)).trans (neg_neg 1)).symm
  · exact (mul_one (-1)).symm
  · exact (one_mul (-1)).symm
  · exact (one_mul 1).symm

theorem unit_div (s t : Sign) : unit (s / t) = unit s / unit t := by
  cases s <;> cases t
  · exact (div_self (neg_ne_zero.mpr one_ne_zero)).symm
  · exact (div_one (-1)).symm
  · exact (one_div_neg_one_eq_neg_one).symm
  · exact (div_one 1).symm

/-- The rational number of an unpacked double. -/
def amount? : UnpackedFloat → Option ℚ
  | .finite s m e _ => some (unit s * scaled m e)
  | .zero _ => some 0
  | .notANumber | .infinity _ => none

theorem amount?_signed (s : Sign) (m : ℕ) (e : ℤ) :
    amount? (signed s m e) = some (unit s * scaled m e) := by
  rcases Nat.eq_zero_or_pos m with rfl | hm
  · rw [signed_zero, scaled_zero, mul_zero]
    rfl
  · rw [signed_pos hm]
    rfl

/-- A power as a quotient of whole powers, of which one is trivial. -/
theorem zpow_eq_div {b : ℚ} (hb : b ≠ 0) (k : ℤ) : b ^ k = b ^ k.toNat / b ^ (-k).toNat := by
  rw [← zpow_natCast, ← zpow_natCast, ← zpow_sub₀ hb]
  congr 1
  omega

theorem magnitude_eq (x : Double.Exact) : x.magnitude = scaled x.mantissa x.exponent := by
  unfold Double.Exact.magnitude Double.Exact.ratio scaled
  rw [zpow_eq_div two_ne_zero, Nat.pow_eq, Nat.pow_eq]
  push_cast
  ring

end Rounding

namespace Double

open Numeral (rank place lt_iff_rank le_iff_rank beq_iff_rank)
open Rounding

section parts

/-- A double that is a number and not infinite, by its parts. -/
structure Parts (x : Float) (s : Sign) (m : ℕ) (e : ℤ) : Prop where
  unpack : x.toModel.unpack = signed s m e
  canonical : Canonical m e
  bound : e ≤ 971

variable {x : Float} {s : Sign} {m : ℕ} {e : ℤ} {q : ℚ}

theorem toNat_unpackExponent (b : BitVec 64) :
    (@UnpackedFloat.unpackExponent Format.binary64 b).toNat = (b.toNat >>> 52) % 2048 := by
  simp [UnpackedFloat.unpackExponent]

theorem toNat_unpackMantissa (b : BitVec 64) :
    (@UnpackedFloat.unpackMantissa Format.binary64 b).toNat = b.toNat % 2 ^ 52 := by
  simp [UnpackedFloat.unpackMantissa]

theorem negative_iff_unpackSign (b : BitVec 64) :
    2 ^ 63 ≤ b.toNat ↔ unit (Sign.ofBitVec (@UnpackedFloat.unpackSign Format.binary64 b)) < 0 := by
  have hsign : (@UnpackedFloat.unpackSign Format.binary64 b).toNat = b.toNat >>> 63 := by
    have hbits : b.toNat < 2 ^ 64 := b.isLt
    simp [unpackSign_eq]
    omega
  have hset : @UnpackedFloat.unpackSign Format.binary64 b = 0#1 ↔ ¬2 ^ 63 ≤ b.toNat := by
    rw [← BitVec.toNat_inj, hsign, BitVec.toNat_ofNat]
    omega
  unfold Sign.ofBitVec
  split
  next hzero => exact iff_of_false (hset.mp hzero) (by norm_num [unit])
  next hone => exact iff_of_true (not_not.mp (mt hset.mpr hone)) (by norm_num [unit])

/-- The bits of a double are the parts that it is unpacked to. -/
theorem exists_parts (h : x.isFinite = true) : ∃ s, Parts x s (exact x).mantissa (exact x).exponent ∧
    (exact x).negative = decide (unit s < 0) := by
  let b : BitVec 64 := x.toModel.toBits.toBitVec
  have hexact : exact x =
      if (b.toNat >>> 52) % 2048 = 0 then ⟨decide (2 ^ 63 ≤ b.toNat), b.toNat % 2 ^ 52, -1074⟩
      else ⟨decide (2 ^ 63 ≤ b.toNat), b.toNat % 2 ^ 52 + 2 ^ 52,
        ((b.toNat >>> 52) % 2048 : ℕ) - 1075⟩ := rfl
  have hnegative : (exact x).negative
      = decide (unit (Sign.ofBitVec (@UnpackedFloat.unpackSign Format.binary64 b)) < 0) := by
    rw [← decide_eq_decide.mpr (negative_iff_unpackSign b), hexact]
    split <;> rfl
  have hunpack := unpack_eq b
  rw [show UnpackedFloat.unpack Format.binary64 b = x.toModel.unpack from rfl] at hunpack
  have hfraction : b.toNat % 2 ^ 52 < 2 ^ 52 := Nat.mod_lt _ (Nat.two_pow_pos 52)
  have hfield : (b.toNat >>> 52) % 2048 < 2048 := Nat.mod_lt _ (by decide)
  dsimp only at hunpack
  refine ⟨_, ?_, hnegative⟩
  split at hunpack
  next hones =>
    have hspecial : x.toModel.unpack.isFinite = false := by
      rw [hunpack]
      split <;> rfl
    exact absurd (h.symm.trans hspecial) Bool.false_ne_true.symm
  next hones =>
    have hlimit : (b.toNat >>> 52) % 2048 ≠ 2047 := fun hmax =>
      hones (BitVec.eq_of_toNat_eq ((toNat_unpackExponent b).trans hmax))
    split at hunpack
    next hzero =>
      have hmin : (b.toNat >>> 52) % 2048 = 0 :=
        (toNat_unpackExponent b).symm.trans (congrArg BitVec.toNat hzero)
      rw [toNat_unpackMantissa] at hunpack
      rw [hexact, if_pos hmin]
      exact ⟨hunpack, ⟨by dsimp only; omega, le_rfl, .inr rfl⟩, by norm_num⟩
    next hzero =>
      have hmin : (b.toNat >>> 52) % 2048 ≠ 0 := fun hmin =>
        hzero (BitVec.eq_of_toNat_eq ((toNat_unpackExponent b).trans hmin))
      rw [toNat_unpackMantissa, toNat_unpackExponent, Nat.add_comm] at hunpack
      rw [hexact, if_neg hmin]
      exact ⟨hunpack, ⟨by dsimp only; omega, by dsimp only; omega, .inl (by dsimp only; omega)⟩,
        by dsimp only; omega⟩

theorem toRat?_eq (x : Float) : toRat? x = amount? x.toModel.unpack := by
  unfold toRat?
  split
  next hfinite =>
    obtain ⟨s, hparts, hnegative⟩ := exists_parts hfinite
    rw [hparts.unpack, amount?_signed]
    unfold Exact.toRat
    rw [hnegative, magnitude_eq]
    cases s <;> norm_num [unit]
  next hfinite =>
    have hspecial : ¬x.toModel.unpack.isFinite = true := hfinite
    cases hunpack : x.toModel.unpack with
    | notANumber | infinity => rfl
    | zero | finite => exact absurd (by rw [hunpack]; rfl) hspecial

theorem Parts.toRat? (h : Parts x s m e) : toRat? x = some (unit s * scaled m e) := by
  rw [toRat?_eq, h.unpack, amount?_signed]

theorem isFinite_of_toRat? (h : toRat? x = some q) : x.isFinite = true := by
  unfold toRat? at h
  split at h
  next hfinite => exact hfinite
  next => cases h

theorem exists_parts_of_toRat? (h : toRat? x = some q) :
    ∃ s m e, Parts x s m e ∧ q = unit s * scaled m e := by
  obtain ⟨s, hparts, -⟩ := exists_parts (isFinite_of_toRat? h)
  exact ⟨s, _, _, hparts, Option.some.inj (h.symm.trans hparts.toRat?)⟩

end parts

section order

variable {x y : Float} {p q : ℚ} {m n : ℕ} {e d : ℤ}

theorem scaled_lt_of_lex (hm : Canonical m e) (hn : Canonical n d)
    (h : e < d ∨ e = d ∧ m < n) : scaled m e < scaled n d := by
  rcases h with hlt | ⟨rfl, hlt⟩
  · have hnormal : 2 ^ 52 ≤ n := by
      have hleast := hm.exponent
      exact hn.leading.resolve_right (by omega)
    calc scaled m e < scaled (2 ^ 53) e := scaled_lt_iff.mpr hm.mantissa
      _ ≤ scaled (2 ^ 52) d := by
          rw [scaled_pow, scaled_pow]
          refine scaled_one_le ?_
          push_cast
          omega
      _ ≤ scaled n d := scaled_le_iff.mpr hnormal
  · exact scaled_lt_iff.mpr hlt

theorem rank_of_parts {s : Sign} (h : Parts x s m e) : rank x =
    if m = 0 then toLex (0, toLex (0, 0))
    else match s with
      | .positive => toLex (1, toLex (e, (m : ℤ)))
      | .negative => toLex (-1, toLex (-e, -(m : ℤ))) := by
  unfold rank
  rw [h.unpack]
  rcases Nat.eq_zero_or_pos m with rfl | hm
  · rfl
  · rw [signed_pos hm, if_neg hm.ne']
    cases s <;> rfl

/-- The line of doubles is that of their numbers. -/
theorem lt_of_rank_lt (hx : toRat? x = some p) (hy : toRat? y = some q) (h : rank x < rank y) :
    p < q := by
  obtain ⟨s, m, e, hxparts, rfl⟩ := exists_parts_of_toRat? hx
  obtain ⟨t, n, d, hyparts, rfl⟩ := exists_parts_of_toRat? hy
  rw [rank_of_parts hxparts, rank_of_parts hyparts] at h
  have hlex := scaled_lt_of_lex hxparts.canonical hyparts.canonical
  have hlex' := scaled_lt_of_lex hyparts.canonical hxparts.canonical
  rcases Nat.eq_zero_or_pos m with rfl | hm <;> rcases Nat.eq_zero_or_pos n with rfl | hn
  · exact absurd h (lt_irrefl _)
  · have hpos : 0 < scaled n d := scaled_pos hn
    cases t with
    | positive => simpa [unit, scaled_zero] using hpos
    | negative => simp [hn.ne', Prod.Lex.toLex_lt_toLex] at h
  · have hpos : 0 < scaled m e := scaled_pos hm
    cases s with
    | positive => simp [hm.ne', Prod.Lex.toLex_lt_toLex] at h
    | negative => simpa [unit, scaled_zero] using hpos
  · have hpos : 0 < scaled m e := scaled_pos hm
    have hpos' : 0 < scaled n d := scaled_pos hn
    rw [if_neg hm.ne', if_neg hn.ne'] at h
    cases s <;> cases t <;> simp [Prod.Lex.toLex_lt_toLex] at h
    · have hless := hlex' (h.imp id fun h => ⟨h.1.symm, h.2⟩)
      simpa [unit] using hless
    · simp only [unit]
      linarith
    · have hless := hlex h
      simpa [unit] using hless

theorem eq_of_rank_eq (hx : toRat? x = some p) (hy : toRat? y = some q) (h : rank x = rank y) :
    p = q := by
  obtain ⟨s, m, e, hxparts, rfl⟩ := exists_parts_of_toRat? hx
  obtain ⟨t, n, d, hyparts, rfl⟩ := exists_parts_of_toRat? hy
  rw [rank_of_parts hxparts, rank_of_parts hyparts] at h
  rcases Nat.eq_zero_or_pos m with rfl | hm <;> rcases Nat.eq_zero_or_pos n with rfl | hn
  · simp [scaled_zero]
  · cases t <;> simp [hn.ne'] at h
  · cases s <;> simp [hm.ne'] at h
  · rw [if_neg hm.ne', if_neg hn.ne'] at h
    cases s <;> cases t <;> simp at h
    · rw [h.1, h.2]
    · rw [h.1, h.2]

theorem rank_lt_iff (hx : toRat? x = some p) (hy : toRat? y = some q) :
    rank x < rank y ↔ p < q := by
  refine ⟨lt_of_rank_lt hx hy, fun hlt => ?_⟩
  rcases lt_trichotomy (rank x) (rank y) with hrank | hrank | hrank
  · exact hrank
  · exact absurd (eq_of_rank_eq hx hy hrank) hlt.ne
  · exact absurd (lt_of_rank_lt hy hx hrank) hlt.not_gt

theorem rank_le_iff (hx : toRat? x = some p) (hy : toRat? y = some q) :
    rank x ≤ rank y ↔ p ≤ q := by
  rw [← not_lt, rank_lt_iff hy hx, not_lt]

/-- No two doubles have the same parts. -/
theorem exact_injective : Function.Injective exact := by
  rintro ⟨⟨b, hb⟩⟩ ⟨⟨c, hc⟩⟩ h
  have hbits : b = c := by
    have hlt : b.toNat < 2 ^ 64 := b.toNat_lt
    have hlt' : c.toNat < 2 ^ 64 := c.toNat_lt
    refine UInt64.toNat_inj.mp ?_
    change Exact.ofBits b = Exact.ofBits c at h
    unfold Exact.ofBits at h
    simp only [Nat.pow_eq, Nat.shiftRight_eq_div_pow] at h
    split at h <;> split at h <;> simp only [Exact.mk.injEq, decide_eq_decide] at h <;> omega
  subst hbits
  rfl

/-- A number other than zero is one double. -/
theorem eq_of_toRat? (hx : toRat? x = some q) (hy : toRat? y = some q) (hq : q ≠ 0) : x = y := by
  have hrank : rank x = rank y :=
    le_antisymm ((rank_le_iff hx hy).mpr le_rfl) ((rank_le_iff hy hx).mpr le_rfl)
  obtain ⟨s, hxparts, hxneg⟩ := exists_parts (isFinite_of_toRat? hx)
  obtain ⟨t, hyparts, hyneg⟩ := exists_parts (isFinite_of_toRat? hy)
  have hpos {z : Float} {r : Sign} (hz : toRat? z = some q)
      (hparts : Parts z r (exact z).mantissa (exact z).exponent) : (exact z).mantissa ≠ 0 := by
    intro hzero
    have hvalue := hz.symm.trans hparts.toRat?
    rw [hzero, scaled_zero, mul_zero, Option.some_inj] at hvalue
    exact hq hvalue
  rw [rank_of_parts hxparts, rank_of_parts hyparts, if_neg (hpos hx hxparts),
    if_neg (hpos hy hyparts)] at hrank
  have hsame : s = t ∧ (exact x).exponent = (exact y).exponent ∧
      (exact x).mantissa = (exact y).mantissa := by
    cases s <;> cases t <;> simp at hrank ⊢ <;> exact hrank
  refine exact_injective ?_
  rw [Exact.mk.injEq]
  exact ⟨by rw [hxneg, hyneg, hsame.1], hsame.2.2, hsame.2.1⟩

theorem not_isNaN (hx : toRat? x = some p) : x.isNaN = false := by
  obtain ⟨s, m, e, hparts, -⟩ := exists_parts_of_toRat? hx
  have hunpack : x.isNaN = (signed s m e).isNaN := congrArg UnpackedFloat.isNaN hparts.unpack
  rw [hunpack]
  rcases Nat.eq_zero_or_pos m with rfl | hm
  · rfl
  · rw [signed_pos hm]
    rfl

theorem lt_iff (hx : toRat? x = some p) (hy : toRat? y = some q) : x < y ↔ p < q := by
  rw [lt_iff_rank (not_isNaN hx) (not_isNaN hy), rank_lt_iff hx hy]

theorem le_iff (hx : toRat? x = some p) (hy : toRat? y = some q) : x ≤ y ↔ p ≤ q := by
  rw [le_iff_rank (not_isNaN hx) (not_isNaN hy), rank_le_iff hx hy]

theorem beq_iff (hx : toRat? x = some p) (hy : toRat? y = some q) : (x == y) = true ↔ p = q := by
  rw [beq_iff_rank (not_isNaN hx) (not_isNaN hy)]
  refine ⟨eq_of_rank_eq hx hy, fun heq => ?_⟩
  exact le_antisymm ((rank_le_iff hx hy).mpr heq.le) ((rank_le_iff hy hx).mpr heq.ge)

end order

section rounding

/-- A double next to a number: no other double lies between them. -/
structure Rounds (x : Float) (q : ℚ) : Prop where
  number : x.isNaN = false
  above : ∀ y r, toRat? y = some r → r ≤ q → rank y ≤ rank x
  below : ∀ y r, toRat? y = some r → q ≤ r → rank x ≤ rank y

variable {x y : Float} {p q r : ℚ} {s : Sign} {m : ℕ} {e : ℤ} {v : ℚ}

theorem abs_unit_mul (s : Sign) (h : 0 ≤ v) : |unit s * v| = v := by
  cases s <;> simp [unit, abs_of_nonneg h]

theorem onGrid_abs (hx : toRat? x = some q) : OnGrid |q| := by
  obtain ⟨s, m, e, hparts, rfl⟩ := exists_parts_of_toRat? hx
  have hcanonical := hparts.canonical
  exact ⟨m, e, hcanonical.mantissa, hcanonical.exponent, abs_unit_mul s (scaled_nonneg m e)⟩

theorem abs_lt_of_toRat? (hx : toRat? x = some q) : |q| < scaled 1 1024 := by
  obtain ⟨s, m, e, hparts, rfl⟩ := exists_parts_of_toRat? hx
  rw [abs_unit_mul s (scaled_nonneg m e)]
  calc scaled m e < scaled (2 ^ 53) e := scaled_lt_iff.mpr hparts.canonical.mantissa
    _ ≤ scaled 1 1024 := by
        have hbound := hparts.bound
        rw [scaled_pow]
        refine scaled_one_le ?_
        push_cast
        omega

/-- Infinities are beyond all doubles that are numbers. -/
theorem rank_inside (hx : toRat? x = some q) :
    place (.infinity .negative) < rank x ∧ rank x < place (.infinity .positive) := by
  obtain ⟨s, m, e, hparts, -⟩ := exists_parts_of_toRat? hx
  rw [rank_of_parts hparts]
  show toLex (-2, toLex (0, 0)) < _ ∧ _ < toLex (2, toLex (0, 0))
  split
  · simp [Prod.Lex.toLex_lt_toLex]
  · cases s <;> simp [Prod.Lex.toLex_lt_toLex]

/-- A number that is not rational is infinite. -/
theorem exists_infinity (h : toRat? x = none) (hnumber : x.isNaN = false) :
    ∃ s, x.toModel.unpack = .infinity s := by
  rcases canonical_unpack x with hnan | hinf | ⟨s, m, e, hunpack, hc, he⟩
  · have htrue : x.isNaN = true := congrArg UnpackedFloat.isNaN hnan
    exact absurd (htrue.symm.trans hnumber) (by decide)
  · exact hinf
  · rw [Parts.toRat? ⟨hunpack, hc, he⟩] at h
    cases h

theorem isNaN_of_infinity {s : UnpackedFloat.Sign} (h : x.toModel.unpack = .infinity s) :
    x.isNaN = false := congrArg UnpackedFloat.isNaN h

/-- The parts of what is packed, if it is not too large. -/
theorem parts_of_pack (hx : x.toModel = .pack (signed s m e)) (hc : Canonical m e) (he : e ≤ 971) :
    Parts x s m e := by
  refine ⟨?_, hc, he⟩
  rw [hx, unpack_pack hc, if_pos he]

/-- What is too large is beyond all doubles. -/
theorem large_of_gt (hc : Canonical m e) (he : 971 < e) : scaled 1 1024 ≤ scaled m e := by
  have hleast := hc.exponent
  have hnormal : 2 ^ 52 ≤ m := hc.leading.resolve_right (by omega)
  calc scaled 1 1024 ≤ scaled (2 ^ 52) e := by
        rw [scaled_pow]
        refine scaled_one_le ?_
        push_cast
        omega
    _ ≤ scaled m e := scaled_le_iff.mpr hnormal

theorem rounds_of_faithful (hx : x.toModel = .pack (signed s m e)) (hc : Canonical m e)
    (hf : Faithful (scaled m e) v) (hv : 0 ≤ v) : Rounds x (unit s * v) := by
  have hnonneg := scaled_nonneg m e
  rcases le_or_gt e 971 with he | he
  · have hxq := (parts_of_pack hx hc he).toRat?
    refine ⟨not_isNaN hxq, fun y r hy hr => ?_, fun y r hy hr => ?_⟩
    · rw [rank_le_iff hy hxq]
      have hgrid := onGrid_abs hy
      cases s with
      | positive =>
        simp only [unit, one_mul] at hr ⊢
        rcases le_total r 0 with hneg | hpos
        · exact hneg.trans hnonneg
        · rw [abs_of_nonneg hpos] at hgrid
          exact hf.above r hgrid hr
      | negative =>
        simp only [unit, neg_one_mul] at hr ⊢
        rw [abs_of_nonpos (by linarith)] at hgrid
        have hbelow := hf.below (-r) hgrid (by linarith)
        linarith
    · rw [rank_le_iff hxq hy]
      have hgrid := onGrid_abs hy
      cases s with
      | positive =>
        simp only [unit, one_mul] at hr ⊢
        rw [abs_of_nonneg (by linarith)] at hgrid
        exact hf.below r hgrid hr
      | negative =>
        simp only [unit, neg_one_mul] at hr ⊢
        rcases le_total r 0 with hneg | hpos
        · rw [abs_of_nonpos hneg] at hgrid
          have habove := hf.above (-r) hgrid (by linarith)
          linarith
        · linarith
  · have hunpack : x.toModel.unpack = .infinity s := by
      rw [hx, unpack_pack hc, if_neg (by omega)]
    have hnumber : x.isNaN = false := by
      show x.toModel.unpack.isNaN = false
      rw [hunpack]
      rfl
    have hrank : rank x = place (.infinity s) := congrArg place hunpack
    have hlarge := large_of_gt hc he
    have hbeyond {y : Float} {r : ℚ} (hy : toRat? y = some r) : ¬v ≤ |r| := fun hle =>
      absurd ((hlarge.trans (hf.below _ (onGrid_abs hy) hle)).trans_lt (abs_lt_of_toRat? hy))
        (lt_irrefl _)
    refine ⟨hnumber, fun y r hy hr => ?_, fun y r hy hr => ?_⟩
    · cases s with
      | positive => exact hrank ▸ (rank_inside hy).2.le
      | negative =>
        simp only [unit, neg_one_mul] at hr
        exact absurd (le_abs_self (-r)) (fun h => hbeyond hy (by rw [abs_neg] at h; linarith))
    · cases s with
      | positive =>
        simp only [unit, one_mul] at hr
        exact absurd (hr.trans (le_abs_self r)) (hbeyond hy)
      | negative => exact hrank ▸ (rank_inside hy).1.le

/-- What a double can hold is not rounded. -/
theorem toRat?_of_faithful (hx : x.toModel = .pack (signed s m e)) (hc : Canonical m e)
    (hf : Faithful (scaled m e) v) (hgrid : OnGrid v) (hv : v < scaled 1 1024) :
    toRat? x = some (unit s * v) := by
  have hsame : scaled m e = v := le_antisymm (hf.below v hgrid le_rfl) (hf.above v hgrid le_rfl)
  have he : e ≤ 971 := not_lt.mp fun hlt =>
    absurd ((large_of_gt hc hlt).trans_lt (hsame ▸ hv)) (lt_irrefl _)
  rw [(parts_of_pack hx hc he).toRat?, hsame]

theorem rounds_of_toRat? (hx : toRat? x = some q) : Rounds x q :=
  ⟨not_isNaN hx, fun _ _ hy hle => (rank_le_iff hy hx).mpr hle,
    fun _ _ hy hle => (rank_le_iff hx hy).mpr hle⟩

namespace Rounds

variable {z : Float}

/-- A double keeps the order of what it is next to. -/
theorem le (h : Rounds x q) (hx : toRat? x = some p) (hy : toRat? y = some r) (hle : q ≤ r) :
    p ≤ r :=
  (rank_le_iff hx hy).mp (h.below y r hy hle)

theorem ge (h : Rounds x q) (hx : toRat? x = some p) (hy : toRat? y = some r) (hle : r ≤ q) :
    r ≤ p :=
  (rank_le_iff hy hx).mp (h.above y r hy hle)

/-- What is next to a number between two doubles is between them. -/
theorem exists_between (h : Rounds x q) (hy : toRat? y = some p) (hz : toRat? z = some r)
    (hpq : p ≤ q) (hqr : q ≤ r) : ∃ q', toRat? x = some q' ∧ p ≤ q' ∧ q' ≤ r := by
  have hlow := (rank_inside hy).1.trans_le (h.above y p hy hpq)
  have hhigh := (h.below z r hz hqr).trans_lt (rank_inside hz).2
  rcases canonical_unpack x with hnan | ⟨s, hinf⟩ | ⟨s, m, e, hunpack, hc, he⟩
  · have hnumber : x.toModel.unpack.isNaN = false := h.number
    rw [hnan] at hnumber
    cases hnumber
  · have hrank : rank x = place (.infinity s) := congrArg place hinf
    rw [hrank] at hlow hhigh
    cases s with
    | positive => exact absurd hhigh (lt_irrefl _)
    | negative => exact absurd hlow (lt_irrefl _)
  · have hx := Parts.toRat? ⟨hunpack, hc, he⟩
    exact ⟨_, hx, h.ge hx hy hpq, h.le hx hz hqr⟩

/-- What a double can hold is not rounded. -/
theorem exact (h : Rounds x q) (hy : toRat? y = some q) : toRat? x = some q := by
  obtain ⟨q', hx, hle, hge⟩ := h.exists_between hy hy le_rfl le_rfl
  rw [hx, le_antisymm hge hle]

end Rounds

end rounding

section operations

variable {x y : Float} {p q : ℚ} {s t : Sign} {m n : ℕ} {e d : ℤ}

theorem toRat?_of_pack (hx : x.toModel = .pack (signed s m e)) (hc : Canonical m e) (he : e ≤ 971) :
    toRat? x = some (unit s * scaled m e) :=
  (parts_of_pack hx hc he).toRat?

theorem canonical_zero : Canonical 0 (-1074) := ⟨by decide, le_rfl, .inr rfl⟩

theorem toRat?_of_zero (hx : x.toModel = .pack (.zero s)) : toRat? x = some 0 := by
  have hzero := toRat?_of_pack (m := 0) (e := -1074) hx canonical_zero (by decide)
  rwa [scaled_zero, mul_zero] at hzero

theorem normalize_rounds {z : ℤ} (hx : x.toModel = .pack (.normalize Format.binary64 z e t)) :
    Rounds x (z * 2 ^ e) := by
  unfold UnpackedFloat.normalize at hx
  rcases lt_trichotomy z 0 with hz | rfl | hz
  · rw [compare_lt_iff_lt.mpr hz] at hx
    obtain ⟨R, T, hround, hc, hf⟩ := round_faithful .negative (m := (-z).toNat) (by omega) e
    have hvalue : (z : ℚ) * 2 ^ e = unit .negative * scaled (-z).toNat e := by
      have hcast : (((-z).toNat : ℕ) : ℚ) = -z := by exact_mod_cast Int.toNat_of_nonneg (by omega)
      unfold scaled unit
      rw [hcast]
      ring
    rw [hvalue]
    exact rounds_of_faithful (hx.trans (congrArg _ hround)) hc hf (scaled_nonneg _ _)
  · rw [Int.cast_zero, zero_mul]
    exact rounds_of_toRat? (toRat?_of_zero hx)
  · rw [compare_gt_iff_gt.mpr hz] at hx
    obtain ⟨R, T, hround, hc, hf⟩ := round_faithful .positive (m := z.toNat) (by omega) e
    have hvalue : (z : ℚ) * 2 ^ e = unit .positive * scaled z.toNat e := by
      have hcast : ((z.toNat : ℕ) : ℚ) = z := by exact_mod_cast Int.toNat_of_nonneg (by omega)
      unfold scaled unit
      rw [hcast, one_mul]
    rw [hvalue]
    exact rounds_of_faithful (hx.trans (congrArg _ hround)) hc hf (scaled_nonneg _ _)

/-- A signed mantissa in smaller steps. -/
theorem apply_shift (s : Sign) (m : ℕ) (h : d ≤ e) :
    ((s.apply (m <<< (e - d).toNat : ℕ) : ℤ) : ℚ) * 2 ^ d = unit s * scaled m e := by
  rw [scaled_finer m h, Nat.shiftLeft_eq]
  unfold scaled
  cases s <;> simp [Sign.apply, unit]

/-- A sum is rounded to a neighbour. -/
theorem add_rounds (hx : toRat? x = some p) (hy : toRat? y = some q) : Rounds (x + y) (p + q) := by
  obtain ⟨s, m, e, hxparts, rfl⟩ := exists_parts_of_toRat? hx
  obtain ⟨t, n, d, hyparts, rfl⟩ := exists_parts_of_toRat? hy
  have hsum : (x + y).toModel = .pack (.add Format.binary64 (signed s m e) (signed t n d)) := by
    rw [← hxparts.unpack, ← hyparts.unpack]
    rfl
  rcases Nat.eq_zero_or_pos m with rfl | hm
  · rw [scaled_zero, mul_zero, zero_add]
    rcases Nat.eq_zero_or_pos n with rfl | hn
    · rw [scaled_zero, mul_zero]
      cases s <;> cases t <;> exact rounds_of_toRat? (toRat?_of_zero hsum)
    · refine rounds_of_toRat? (toRat?_of_pack (hsum.trans ?_) hyparts.canonical hyparts.bound)
      rw [signed_zero, signed_pos hn]
      rfl
  · rcases Nat.eq_zero_or_pos n with rfl | hn
    · rw [scaled_zero, mul_zero, add_zero]
      refine rounds_of_toRat? (toRat?_of_pack (hsum.trans ?_) hxparts.canonical hxparts.bound)
      rw [signed_zero, signed_pos hm]
      rfl
    · rw [signed_pos hm, signed_pos hn] at hsum
      have hvalue : unit s * scaled m e + unit t * scaled n d
          = (s.apply (m <<< (e - min e d).toNat : ℕ) + t.apply (n <<< (d - min e d).toNat : ℕ) : ℤ)
            * 2 ^ min e d := by
        rw [Int.cast_add, add_mul, apply_shift s m (min_le_left e d),
          apply_shift t n (min_le_right e d)]
      rw [hvalue]
      exact normalize_rounds hsum

/-- A number and its opposite have the sum zero, without a sign. -/
theorem add_eq_zero (hx : toRat? x = some p) (hy : toRat? y = some (-p)) (hp : p ≠ 0) :
    x + y = 0.0 := by
  obtain ⟨s, m, e, hxparts, rfl⟩ := exists_parts_of_toRat? hx
  obtain ⟨t, n, d, hyparts, hopposite⟩ := exists_parts_of_toRat? hy
  have hm : 0 < m := Nat.pos_of_ne_zero fun hzero => hp (by rw [hzero, scaled_zero, mul_zero])
  have hn : 0 < n := by
    refine Nat.pos_of_ne_zero fun hzero => hp ?_
    rwa [hzero, scaled_zero, mul_zero, neg_eq_zero] at hopposite
  have hcancel : s.apply (m <<< (e - min e d).toNat : ℕ)
      + t.apply (n <<< (d - min e d).toNat : ℕ) = 0 := by
    have hsum := congrArg₂ (· + ·) (apply_shift s m (min_le_left e d))
      (apply_shift t n (min_le_right e d))
    rw [← hopposite, add_neg_cancel, ← add_mul, mul_eq_zero] at hsum
    exact_mod_cast hsum.resolve_right (by positivity)
  have hsum : (x + y).toModel = .pack (.add Format.binary64 (signed s m e) (signed t n d)) := by
    rw [← hxparts.unpack, ← hyparts.unpack]
    rfl
  have hzero : UnpackedFloat.add Format.binary64 (signed s m e) (signed t n d)
      = .normalize Format.binary64 0 (min e d) .positive := by
    rw [signed_pos hm, signed_pos hn, ← hcancel]
    rfl
  have hmodel : (x + y).toModel = (0.0 : Float).toModel := by
    rw [hsum, hzero]
    rfl
  exact congrArg Float.ofModel hmodel

/-- A difference is rounded to a neighbour. -/
theorem sub_rounds (hx : toRat? x = some p) (hy : toRat? y = some q) : Rounds (x - y) (p - q) := by
  obtain ⟨s, m, e, hxparts, rfl⟩ := exists_parts_of_toRat? hx
  obtain ⟨t, n, d, hyparts, rfl⟩ := exists_parts_of_toRat? hy
  have hdiff : (x - y).toModel = .pack (.sub Format.binary64 (signed s m e) (signed t n d)) := by
    rw [← hxparts.unpack, ← hyparts.unpack]
    rfl
  rcases Nat.eq_zero_or_pos n with rfl | hn
  · rw [scaled_zero, mul_zero, sub_zero]
    rcases Nat.eq_zero_or_pos m with rfl | hm
    · rw [scaled_zero, mul_zero]
      cases s <;> cases t <;> exact rounds_of_toRat? (toRat?_of_zero hdiff)
    · refine rounds_of_toRat? (toRat?_of_pack (hdiff.trans ?_) hxparts.canonical hxparts.bound)
      rw [signed_zero, signed_pos hm]
      rfl
  · rcases Nat.eq_zero_or_pos m with rfl | hm
    · have hvalue : unit s * scaled 0 e - unit t * scaled n d = unit (-t) * scaled n d := by
        rw [scaled_zero, mul_zero, zero_sub, unit_neg, neg_mul]
      rw [hvalue]
      refine rounds_of_toRat? (toRat?_of_pack (hdiff.trans ?_) hyparts.canonical hyparts.bound)
      rw [signed_zero, signed_pos hn, signed_pos hn]
      rfl
    · rw [signed_pos hm, signed_pos hn] at hdiff
      have hvalue : unit s * scaled m e - unit t * scaled n d
          = (s.apply (m <<< (e - min e d).toNat : ℕ) - t.apply (n <<< (d - min e d).toNat : ℕ) : ℤ)
            * 2 ^ min e d := by
        rw [Int.cast_sub, sub_mul, apply_shift s m (min_le_left e d),
          apply_shift t n (min_le_right e d)]
      rw [hvalue]
      exact normalize_rounds hdiff

/-- Mantissas are divided after a shift that leaves bits enough. -/
theorem divCore_eq (hm : 0 < m) (hn : 0 < n) : ∃ M T,
    UnpackedFloat.divCore Format.binary64 m e n d
      = (M / n, T, UnpackedFloat.accuracyOfFraction (M % n) n) ∧
    scaled m e / scaled n d = M / n * 2 ^ T ∧ T ≤ target (M / n) T := by
  let T := min (e - d) (Format.binary64.targetExponent (totalExponent m e - totalExponent n d))
  let k := (e - d - T).toNat
  let M := m <<< k
  have htarget : Format.binary64.targetExponent (totalExponent m e - totalExponent n d)
      = max (m.log2 + e - (n.log2 + d) - 53) (-1074) := by
    have hbits : (Format.binary64.mantissaBits : ℤ) = 53 := rfl
    have hleast : Format.binary64.minExponent = -1074 := rfl
    unfold Format.targetExponent totalExponent
    rw [hbits, hleast]
    congr 1
    ring
  have hT : T = min (e - d) (max (m.log2 + e - (n.log2 + d) - 53) (-1074)) := by
    rw [← htarget]
  refine ⟨M, T, rfl, ?_, ?_⟩
  · have hfiner : scaled m e = scaled M (T + d) := by
      rw [scaled_finer m (show T + d ≤ e by omega)]
      show _ = scaled (m <<< k) (T + d)
      rw [Nat.shiftLeft_eq]
      congr 3
      omega
    rw [hfiner]
    unfold scaled
    rw [zpow_add₀ two_ne_zero]
    field_simp
  · rw [target_eq]
    rcases le_or_gt T (-1074) with hleast | hnormal
    · exact hleast.trans (le_max_right _ _)
    · have hshift : n.log2 + 53 ≤ m.log2 + k := by omega
      have hlog : 52 ≤ (M / n).log2 := by
        refine le_log2_of_le ((Nat.le_div_iff_mul_le hn).mpr ?_)
        calc 2 ^ 52 * n ≤ 2 ^ 52 * 2 ^ (n.log2 + 1) := Nat.mul_le_mul_left _ Nat.lt_log2_self.le
          _ = 2 ^ (n.log2 + 53) := by ring
          _ ≤ 2 ^ (m.log2 + k) := Nat.pow_le_pow_right two_pos hshift
          _ = 2 ^ m.log2 * 2 ^ k := pow_add _ _ _
          _ ≤ m * 2 ^ k := Nat.mul_le_mul_right _ (Nat.log2_self_le hm.ne')
          _ = M := (Nat.shiftLeft_eq m k).symm
      omega

/-- The exact quotient lies at the halves of the last place that are counted. -/
theorem divCore_halved (hm : 0 < m) (hn : 0 < n) :
    let r := UnpackedFloat.divCore Format.binary64 m e n d
    Halved (.ofMantissaAndAccuracy r.1 r.2.2) r.2.1 (scaled m e / scaled n d) ∧
      r.2.1 ≤ target r.1 r.2.1 := by
  obtain ⟨M, T, hcore, hquotient, htarget⟩ := divCore_eq (e := e) (d := d) hm hn
  dsimp only
  rw [hcore, hquotient]
  exact ⟨.of_quotient hn M T, htarget⟩

/-- A quotient is rounded to a neighbour. -/
theorem div_rounds (hx : toRat? x = some p) (hy : toRat? y = some q) (hq : q ≠ 0) :
    Rounds (x / y) (p / q) := by
  obtain ⟨s, m, e, hxparts, rfl⟩ := exists_parts_of_toRat? hx
  obtain ⟨t, n, d, hyparts, rfl⟩ := exists_parts_of_toRat? hy
  have hn : 0 < n := Nat.pos_of_ne_zero (by rintro rfl; exact hq (by rw [scaled_zero, mul_zero]))
  have hquotient : (x / y).toModel = .pack (.div Format.binary64 (signed s m e) (signed t n d)) := by
    rw [← hxparts.unpack, ← hyparts.unpack]
    rfl
  rw [signed_pos hn] at hquotient
  rcases Nat.eq_zero_or_pos m with rfl | hm
  · rw [scaled_zero, mul_zero, zero_div]
    exact rounds_of_toRat? (toRat?_of_zero hquotient)
  · rw [signed_pos hm] at hquotient
    obtain ⟨hhalved, htarget⟩ := divCore_halved (e := e) (d := d) hm hn
    obtain ⟨R, T, hround, hc, hf⟩ := roundWithAccuracy_faithful (s / t) hhalved htarget
    have hvalue : unit s * scaled m e / (unit t * scaled n d)
        = unit (s / t) * (scaled m e / scaled n d) := by
      rw [unit_div, mul_div_mul_comm]
    rw [hvalue]
    refine rounds_of_faithful (hquotient.trans (congrArg _ hround)) hc hf ?_
    exact div_nonneg (scaled_nonneg m e) (scaled_nonneg n d)

/-- A product is rounded to a neighbour if it has bits enough. -/
theorem mul_faithful (hm : 0 < m) (hn : 0 < n) (h : e + d ≤ target (m * n) (e + d))
    (hx : x.toModel = .pack (.mul Format.binary64 (signed s m e) (signed t n d))) :
    ∃ R T, x.toModel = .pack (signed (s * t) R T) ∧ Canonical R T ∧
      Faithful (scaled R T) (scaled m e * scaled n d) := by
  obtain ⟨R, T, hround, hc, hf⟩ :=
    roundWithAccuracy_faithful (s * t) (.of_exact (m * n) (e + d)) h
  refine ⟨R, T, ?_, hc, scaled_mul m n e d ▸ hf⟩
  rw [hx, signed_pos hm, signed_pos hn, ← hround]
  rfl

theorem target_mul (hm : 0 < m) (hn : 2 ^ 52 ≤ n) :
    e + d ≤ target (m * n) (e + d) := by
  have hlog : 52 ≤ (m * n).log2 :=
    le_log2_of_le (hn.trans (Nat.le_mul_of_pos_left n hm))
  rw [target_eq]
  omega

/-- The mantissas of doubles make products with bits enough. -/
theorem target_mul_of_canonical (hm : Canonical m e) (hn : Canonical n d) (hmpos : 0 < m)
    (hnpos : 0 < n) : e + d ≤ target (m * n) (e + d) := by
  rcases hn.leading with hnormal | hleast
  · exact target_mul hmpos hnormal
  rcases hm.leading with hnormal | hleast'
  · rw [mul_comm, add_comm]
    exact target_mul hnpos hnormal
  · rw [target_eq]
    omega

/-- A product is rounded to a neighbour. -/
theorem mul_rounds (hx : toRat? x = some p) (hy : toRat? y = some q) : Rounds (x * y) (p * q) := by
  obtain ⟨s, m, e, hxparts, rfl⟩ := exists_parts_of_toRat? hx
  obtain ⟨t, n, d, hyparts, rfl⟩ := exists_parts_of_toRat? hy
  have hproduct : (x * y).toModel = .pack (.mul Format.binary64 (signed s m e) (signed t n d)) := by
    rw [← hxparts.unpack, ← hyparts.unpack]
    rfl
  have hvalue : unit s * scaled m e * (unit t * scaled n d)
      = unit (s * t) * (scaled m e * scaled n d) := by
    rw [unit_mul, mul_mul_mul_comm]
  rw [hvalue]
  rcases Nat.eq_zero_or_pos m with rfl | hm
  · rw [scaled_zero, zero_mul, mul_zero]
    rcases Nat.eq_zero_or_pos n with rfl | hn
    · exact rounds_of_toRat? (toRat?_of_zero hproduct)
    · rw [signed_pos hn] at hproduct
      exact rounds_of_toRat? (toRat?_of_zero hproduct)
  rcases Nat.eq_zero_or_pos n with rfl | hn
  · rw [scaled_zero, mul_zero, mul_zero]
    rw [signed_pos hm] at hproduct
    exact rounds_of_toRat? (toRat?_of_zero hproduct)
  · obtain ⟨R, T, hpack, hc, hf⟩ :=
      mul_faithful hm hn (target_mul_of_canonical hxparts.canonical hyparts.canonical hm hn) hproduct
    exact rounds_of_faithful hpack hc hf (mul_nonneg (scaled_nonneg m e) (scaled_nonneg n d))

/-- A mantissa of a double with an exponent of one is below all infinities. -/
theorem abs_scaled_lt (hm : m < 2 ^ 53) (he : e ≤ 971) : |scaled m e| < scaled 1 1024 := by
  rw [abs_of_nonneg (scaled_nonneg m e)]
  calc scaled m e < scaled (2 ^ 53) e := scaled_lt_iff.mpr hm
    _ ≤ scaled 1 1024 := by
        rw [scaled_pow]
        refine scaled_one_le ?_
        push_cast
        omega

theorem onGrid_scaled (hm : m < 2 ^ 53) (he : -1074 ≤ e) : OnGrid |scaled m e| :=
  ⟨m, e, hm, he, abs_of_nonneg (scaled_nonneg m e)⟩

theorem scaled_of_whole (k : ℕ) : scaled k 0 = k := by
  unfold scaled
  rw [zpow_zero, mul_one]

theorem onGrid_natCast {n : ℕ} (h : n < 2 ^ 53) : OnGrid n :=
  ⟨n, 0, h, by decide, (scaled_of_whole n).symm⟩

theorem abs_natCast_lt {n : ℕ} (h : n ≤ 2 ^ 53) : |(n : ℚ)| < scaled 1 1024 := by
  rw [Nat.abs_cast, ← scaled_of_whole]
  calc scaled n 0 ≤ scaled (2 ^ 53) 0 := scaled_le_iff.mpr h
    _ < scaled 1 1024 := by
        rw [scaled_pow]
        exact scaled_one_lt (by decide)

/-- What 53 bits can write is a double. -/
theorem exists_of_onGrid (hgrid : OnGrid |q|) (hq : |q| < scaled 1 1024) :
    ∃ x, toRat? x = some q := by
  have hsign : ∃ s, unit s * |q| = q := by
    rcases abs_cases q with ⟨habs, -⟩ | ⟨habs, -⟩
    · exact ⟨.positive, by rw [habs, unit, one_mul]⟩
    · exact ⟨.negative, by rw [habs, unit, neg_one_mul, neg_neg]⟩
  obtain ⟨s, hs⟩ := hsign
  obtain ⟨n, k, hn, hk, hvalue⟩ := id hgrid
  rcases Nat.eq_zero_or_pos n with rfl | hpos
  · rw [scaled_zero, abs_eq_zero] at hvalue
    exact ⟨.ofModel (.pack (.zero .positive)), hvalue ▸ toRat?_of_zero rfl⟩
  · obtain ⟨R, T, -, hc, hf⟩ := round_faithful s hpos.ne' k
    rw [← hvalue] at hf
    exact ⟨.ofModel (.pack (signed s R T)), hs ▸ toRat?_of_faithful rfl hc hf hgrid hq⟩

theorem Rounds.exact_of_onGrid (h : Rounds x q) (hgrid : OnGrid |q|) (hq : |q| < scaled 1 1024) :
    toRat? x = some q := by
  obtain ⟨y, hy⟩ := exists_of_onGrid hgrid hq
  exact h.exact hy

/-- A whole number that fits into a word is converted without loss. -/
theorem toRat?_word {n : ℕ} (h : n < 2 ^ 53) : toRat? n.toUInt64.toFloat = some (n : ℚ) := by
  have hword : n.toUInt64.toNat = n := by
    rw [Nat.toUInt64_eq, UInt64.toNat_ofNat_of_lt' (h.trans (by decide))]
  have hrounds : Rounds n.toUInt64.toFloat ((n.toUInt64.toNat : ℤ) * 2 ^ (0 : ℤ)) :=
    normalize_rounds rfl
  rw [hword, zpow_zero, mul_one, Int.cast_natCast] at hrounds
  refine hrounds.exact_of_onGrid ?_ (abs_natCast_lt h.le)
  rw [Nat.abs_cast]
  exact onGrid_natCast h

theorem toRat?_powerOfTen : ∀ k : Fin 23,
    toRat? Float.exactlyRepresentablePowersOfTen[k] = some (10 ^ k.val) := by
  decide +kernel

/-- A whole number with more bits than a double has is rounded with bits to spare. -/
theorem toModel_ofNat {n : ℕ} (h : 2 ^ 53 ≤ n) : (Float.ofNat n).toModel
    = .pack (.roundWithAccuracy Format.binary64 .positive (n <<< 53 * 1) (-53 + 0) .exact) := by
  have hn : 0 < n := (Nat.two_pow_pos 53).trans_le h
  have hslow : Float.ofNat n = .ofModel (.pack (.ofScientific Format.binary64 n 0)) :=
    (dif_neg (by omega) : Float.ofScientific n false 0 = _)
  have hpow : (0 : ℤ) < 2 ^ Format.binary64.exponentBits := by decide
  rw [hslow]
  show Float.Model.pack (.ofScientific Format.binary64 n 0) = _
  unfold UnpackedFloat.ofScientific
  rw [dif_neg hn.ne', if_neg (by omega), if_neg (by omega), if_pos le_rfl]
  rfl

theorem scaled_spare (n : ℕ) : scaled (n <<< 53 * 1) (-53 + 0) = n := by
  rw [mul_one, add_zero, Nat.shiftLeft_eq, scaled_two_pow]
  exact scaled_of_whole n

theorem target_spare {n : ℕ} (hn : 0 < n) :
    (-53 + 0 : ℤ) ≤ target (n <<< 53 * 1) (-53 + 0) := by
  have hlog : 53 ≤ (n <<< 53 * 1).log2 := by
    rw [mul_one, Nat.shiftLeft_eq]
    exact le_log2_of_le (Nat.le_mul_of_pos_left _ hn)
  rw [target_eq]
  omega

/-- A whole number is rounded to a neighbour as it becomes a double. -/
theorem ofNat_rounds (n : ℕ) : Rounds (Float.ofNat n) n := by
  rcases lt_or_ge n (2 ^ 53) with hsmall | hlarge
  · have hfast : Float.ofNat n = n.toUInt64.toFloat * Float.exactlyRepresentablePowersOfTen[0] :=
      (dif_pos ⟨hsmall, by decide⟩ : Float.ofScientific n false 0 = _)
    have hproduct := mul_rounds (toRat?_word hsmall) (toRat?_powerOfTen 0)
    rw [hfast]
    rwa [Fin.val_zero, pow_zero, mul_one] at hproduct
  · have hn : 0 < n := (Nat.two_pow_pos 53).trans_le hlarge
    obtain ⟨R, T, hround, hc, hf⟩ :=
      roundWithAccuracy_faithful .positive (.of_exact _ _) (target_spare hn)
    rw [scaled_spare] at hf
    have hrounds :=
      rounds_of_faithful ((toModel_ofNat hlarge).trans (congrArg _ hround)) hc hf n.cast_nonneg
    rwa [unit, one_mul] at hrounds

theorem toRat?_ofNat {n : ℕ} (h : n ≤ 2 ^ 53) : toRat? (Float.ofNat n) = some (n : ℚ) := by
  refine (ofNat_rounds n).exact_of_onGrid ?_ (abs_natCast_lt h)
  rw [Nat.abs_cast]
  rcases h.lt_or_eq with hlt | rfl
  · exact onGrid_natCast hlt
  · refine ⟨1, 53, by decide, by decide, ?_⟩
    rw [← scaled_of_whole, scaled_pow]
    rfl

end operations

end Double
end EntityMachines
