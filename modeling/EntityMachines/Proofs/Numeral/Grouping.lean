import EntityMachines.Proofs.Numeral.Whole
import EntityMachines.Proofs.Numeral.Spelling
import EntityMachines.Proofs.Text

/-!
Numbers with commas between groups of three digits. A magnitude is rounded to so many decimal places,
its zeros at the end are left out as far as they may, and its whole digits are grouped from the end.
Main statement: whichever finite number it is, all its digits are there, and the sign is shown before
a digit that is not zero.
-/
namespace EntityMachines
namespace Numeral

open Double (Exact toRat?)

/-- A whole number that no other one is nearer to; of two that are as near it is the even one. -/
structure Nearest (v : ℚ) (n : ℕ) : Prop where
  near : |v - n| ≤ 1 / 2
  even : |v - n| = 1 / 2 → n % 2 = 0

theorem Nearest.of_bounds {v : ℚ} {n : ℕ} (hlow : n - 1 / 2 ≤ v) (hhigh : v ≤ n + 1 / 2)
    (hhalf : n % 2 = 0 ∨ n - 1 / 2 < v ∧ v < n + 1 / 2) : Nearest v n := by
  refine ⟨abs_le.mpr ⟨by linarith, by linarith⟩, fun heq => hhalf.resolve_right ?_⟩
  rintro ⟨hlow, hhigh⟩
  exact (abs_lt.mpr ⟨by linarith, by linarith⟩).ne heq

theorem nearest_quotient {d : ℕ} (hd : 0 < d) (a : ℕ) : Nearest (a / d)
    (if 2 * (a % d) < d then a / d else if d < 2 * (a % d) then a / d + 1
      else if a / d % 2 = 0 then a / d else a / d + 1) := by
  have hcast : (0 : ℚ) < d := by exact_mod_cast hd
  have hvalue : (a : ℚ) / d = (a / d : ℕ) + (a % d : ℕ) / d := by
    rw [div_eq_iff hcast.ne', add_mul, div_mul_cancel₀ _ hcast.ne']
    exact_mod_cast (Nat.div_add_mod' a d).symm
  have hpart : 0 ≤ ((a % d : ℕ) : ℚ) / d := by positivity
  have hless : ((a % d : ℕ) : ℚ) / d < 1 := by
    rw [div_lt_one hcast]
    exact_mod_cast Nat.mod_lt a hd
  have hhalf : 2 * (((a % d : ℕ) : ℚ) / d) * d = (2 * (a % d) : ℕ) := by
    rw [mul_assoc, div_mul_cancel₀ _ hcast.ne']
    push_cast
    ring
  have hbelow : 2 * (((a % d : ℕ) : ℚ) / d) < 1 ↔ 2 * (a % d) < d := by
    rw [← mul_lt_mul_iff_left₀ hcast, hhalf, one_mul, Nat.cast_lt]
  have habove : 1 < 2 * (((a % d : ℕ) : ℚ) / d) ↔ d < 2 * (a % d) := by
    rw [← mul_lt_mul_iff_left₀ hcast, hhalf, one_mul, Nat.cast_lt]
  rw [hvalue]
  split
  next h =>
    have hfirst := hbelow.mpr h
    exact .of_bounds (by linarith) (by linarith) (.inr ⟨by linarith, by linarith⟩)
  next h =>
    have hfirst := mt hbelow.mp h
    split
    next h =>
      have hsecond := habove.mpr h
      refine .of_bounds ?_ ?_ (.inr ⟨?_, ?_⟩) <;> push_cast <;> linarith
    next h =>
      have hsecond := mt habove.mp h
      split
      next heven => exact .of_bounds (by linarith) (by linarith) (.inl heven)
      next hodd => refine .of_bounds ?_ ?_ (.inl (by omega)) <;> push_cast <;> linarith

theorem nearest_scaledRound (x : Exact) (places : ℕ) :
    Nearest (x.magnitude * 10 ^ places) (x.scaledRound places) := by
  have hnearest := nearest_quotient x.ratio_pos (x.ratio.1 * Nat.pow 10 places)
  have hvalue : ((x.ratio.1 * Nat.pow 10 places : ℕ) : ℚ) / x.ratio.2
      = x.magnitude * 10 ^ places := by
    unfold Exact.magnitude
    rw [Nat.pow_eq]
    push_cast
    ring
  rw [hvalue] at hnearest
  exact hnearest

/-- The digits of a number that is rounded to so many places. -/
structure Rounded (v : ℚ) (places : ℕ) (whole fraction : Text) : Prop where
  digits : ∀ b ∈ whole ++ fraction, b.isDigit = true
  nonempty : whole ≠ []
  unpadded : whole.head? = some 48 → whole = [48]
  length : fraction.length = places
  nearest : Nearest (v * 10 ^ places) (Literal.ofDigits 0 (whole ++ fraction))

theorem ofNat_unpadded {n : ℕ} (h : (Text.ofNat n).head? = some 48) : Text.ofNat n = [48] := by
  obtain ⟨rest, hrest⟩ := List.head?_eq_some_iff.mp h
  have hvalue : Literal.ofDigits 0 rest = n := by
    rw [← Literal.ofDigits_ofNat n, hrest]
    rfl
  have hdigits : ∀ b ∈ rest, b.isDigit = true := fun b hb =>
    Text.isDigit_of_mem_ofNat (hrest ▸ List.mem_cons_of_mem 48 hb)
  have hbound := Literal.ofDigits_lt hdigits
  rcases Nat.eq_zero_or_pos rest.length with hnone | hsome
  · rw [hrest, List.eq_nil_of_length_eq_zero hnone]
  · have hlength : (Text.ofNat n).length ≤ rest.length := by
      rw [Text.ofNat_eq_map, List.length_map]
      exact (Nat.length_toDigits_le_iff (by decide) hsome).mpr (hvalue ▸ hbound)
    rw [hrest, List.length_cons] at hlength
    omega

theorem rounded_fixedDigits {x : Float} {q : ℚ} (hx : toRat? x = some q) (places : ℕ) :
    Rounded |q| places (fixedDigits x places).1 (fixedDigits x places).2 := by
  let n := (Double.exact x).scaledRound places
  have hfraction : (fixedDigits x places).2 = if places = 0 then []
    else Text.zeroPadded places (n % 10 ^ places) := rfl
  have hwhole : (fixedDigits x places).1 = Text.ofNat (n / 10 ^ places) := rfl
  have hpow : 0 < 10 ^ places := Nat.pow_pos (by decide)
  have hvalue : Literal.ofDigits 0 (fixedDigits x places).2 = n % 10 ^ places := by
    rw [hfraction]
    split
    next hnone =>
      rw [hnone, pow_zero, Nat.mod_one]
      rfl
    next => exact Literal.ofDigits_zeroPadded places _
  have hlength : (fixedDigits x places).2.length = places := by
    rw [hfraction]
    split
    next hnone => exact hnone.symm
    next hsome => exact Text.length_zeroPadded (Nat.pos_of_ne_zero hsome) (Nat.mod_lt n hpow)
  have hdigits : ∀ b ∈ (fixedDigits x places).2, b.isDigit = true := by
    rw [hfraction]
    split
    next => exact fun b hb => absurd hb List.not_mem_nil
    next => exact fun b hb => Text.isDigit_of_mem_padStart (fun _ => Text.isDigit_of_mem_ofNat) hb
  refine ⟨fun b hb => ?_, hwhole ▸ Text.ofNat_ne_nil _, hwhole ▸ ofNat_unpadded, hlength, ?_⟩
  · exact (List.mem_append.mp hb).elim (fun h => Text.isDigit_of_mem_ofNat (hwhole ▸ h)) (hdigits b)
  · rw [Literal.ofDigits_append, Literal.ofDigits_eq_add, hvalue, hlength, hwhole,
      Literal.ofDigits_ofNat, Nat.div_add_mod', ← Double.magnitude_exact hx]
    exact nearest_scaledRound _ places

/-- A fraction without zeros at its end, which stay only among the least number of places. -/
structure Trimmed (least : ℕ) (fraction shown : Text) : Prop where
  rest : ∃ count, fraction = shown ++ List.replicate count 48
  enough : least ≤ shown.length
  done : shown.length = least ∨ shown.getLast? ≠ some 48

theorem trimmed_trimZeros {least : ℕ} {fraction : Text} (h : least ≤ fraction.length) :
    Trimmed least fraction (trimZeros least fraction) := by
  have hfront : (fraction.take least).length = least := List.length_take_of_le h
  have hshown : trimZeros least fraction
      = fraction.take least ++ (fraction.drop least).rdropWhile (· == 48) := rfl
  rw [hshown]
  refine ⟨⟨((fraction.drop least).rtakeWhile (· == 48)).length, ?_⟩, ?_, ?_⟩
  · have hzeros : (fraction.drop least).rtakeWhile (· == 48)
        = List.replicate ((fraction.drop least).rtakeWhile (· == 48)).length 48 :=
      List.eq_replicate_of_mem fun b hb => by simpa using List.mem_rtakeWhile_imp hb
    rw [← hzeros, List.append_assoc, List.rdropWhile_append_rtakeWhile, List.take_append_drop]
  · rw [List.length_append, hfront]
    exact Nat.le_add_right _ _
  · by_cases hnone : (fraction.drop least).rdropWhile (· == 48) = []
    · rw [hnone, List.append_nil]
      exact .inl hfront
    · have hlast := List.rdropWhile_last_not _ _ hnone
      rw [List.getLast?_append_of_ne_nil _ hnone, List.getLast?_eq_some_getLast hnone]
      exact .inr fun heq => hlast (beq_iff_eq.mpr (Option.some.inj heq))

/-- Digits with commas before every third one from the end. -/
structure Triples (digits t : Text) : Prop where
  digits : t.filter (· ≠ 44) = digits
  groups : ∃ first others, Text.splitByte 44 t = first :: others ∧
    1 ≤ first.length ∧ first.length ≤ 3 ∧ ∀ group ∈ others, group.length = 3

theorem filter_groupDigits {t : Text} (h : 44 ∉ t) : (groupDigits t).filter (· ≠ 44) = t := by
  induction t with
  | nil => rfl
  | cons b rest ih =>
    obtain ⟨hb, hrest⟩ := not_or.mp (mt List.mem_cons.mpr h)
    unfold groupDigits
    split
    next => simpa [Ne.symm hb] using ih hrest
    next => simpa [Ne.symm hb] using ih hrest

/-- One more digit in front joins the first group, or stands alone if that has three already. -/
theorem splitByte_groupDigits {t : Text} (h : 44 ∉ t) (hsome : t ≠ []) :
    ∃ first others, Text.splitByte 44 (groupDigits t) = first :: others ∧
      (first.length % 3 = t.length % 3 ∧ 1 ≤ first.length ∧ first.length ≤ 3) ∧
      ∀ group ∈ others, group.length = 3 := by
  induction t with
  | nil => exact absurd rfl hsome
  | cons b rest ih =>
    obtain ⟨hb, hrest⟩ := not_or.mp (mt List.mem_cons.mpr h)
    rcases eq_or_ne rest [] with rfl | hmore
    · exact ⟨[b], [], Text.splitByte_of_not_mem h, ⟨rfl, le_rfl, by simp⟩,
        fun _ hgroup => absurd hgroup List.not_mem_nil⟩
    obtain ⟨first, others, hsplit, ⟨hmod, hlow, hhigh⟩, hothers⟩ := ih hrest hmore
    unfold groupDigits
    split
    next hwithin =>
      obtain ⟨part, parts, hparts, hcons⟩ := Text.splitByte_cons 44 b (groupDigits rest)
      obtain ⟨rfl, rfl⟩ := List.cons.inj (hparts.symm.trans hsplit)
      rw [if_neg (by rw [beq_iff_eq]; exact Ne.symm hb)] at hcons
      refine ⟨b :: part, parts, hcons, ⟨?_, ?_, ?_⟩, hothers⟩
      all_goals
        simp [hmore] at hwithin
        simp only [List.length_cons]
        omega
    next hfull =>
      simp [hmore] at hfull
      have hthree : first.length = 3 := by omega
      refine ⟨[b], first :: others, ?_, ⟨?_, le_rfl, by simp⟩, ?_⟩
      · have halone : 44 ∉ [b] := by simpa using hb
        rw [← hsplit]
        exact Text.splitByte_append halone (groupDigits rest)
      · simp only [List.length_cons, List.length_nil]
        omega
      · exact List.forall_mem_cons.mpr ⟨hthree, hothers⟩

theorem triples_groupDigits {t : Text} (h : ∀ b ∈ t, b.isDigit = true) (hsome : t ≠ []) :
    Triples t (groupDigits t) := by
  have hcomma : (44 : Byte) ∉ t := fun hmem => by cases h 44 hmem
  obtain ⟨first, others, hsplit, ⟨-, hlow, hhigh⟩, hothers⟩ := splitByte_groupDigits hcomma hsome
  exact ⟨filter_groupDigits hcomma, first, others, hsplit, hlow, hhigh, hothers⟩

/-- A minus sign is shown for a number below zero of which a digit that is not zero is shown. -/
structure Marked (q : ℚ) (digits sign : Text) : Prop where
  minus : q < 0 → (∃ b ∈ digits, b ≠ 48) → sign = "-"
  none : ¬(q < 0 ∧ ∃ b ∈ digits, b ≠ 48) → sign = []

theorem marked_sign {x : Float} {q : ℚ} (hx : toRat? x = some q) (digits : Text) :
    Marked q digits (if x < 0.0 && digits.any (· != 48) then "-" else []) := by
  have hsign : (decide (x < 0.0) && digits.any (· != 48)) = true ↔
      q < 0 ∧ ∃ b ∈ digits, b ≠ 48 := by
    rw [Bool.and_eq_true, decide_eq_true_iff, Double.lt_iff hx Double.toRat?_zero,
      List.any_eq_true]
    simp only [bne_iff_ne]
  exact ⟨fun hq hdigit => if_pos (hsign.mpr ⟨hq, hdigit⟩), fun hnone => if_neg (mt hsign.mp hnone)⟩

/-- All digits of a finite number are shown, in groups, and its sign if one of them is not zero. -/
theorem grouped_faithful {x : Float} {q : ℚ} (hx : toRat? x = some q) {least most : ℕ}
    (h : least ≤ most) : ∃ sign whole fraction groups shown,
      grouped x least most = sign ++ groups ++ (if shown.isEmpty then [] else 46 :: shown) ∧
      Rounded |q| most whole fraction ∧ Triples whole groups ∧ Trimmed least fraction shown ∧
      Marked q (whole ++ shown) sign := by
  obtain ⟨hnan, hinf⟩ := Float.not_special_of_isFinite (Double.isFinite_of_toRat? hx)
  have hrounded := rounded_fixedDigits (Double.toRat?_abs hx) most
  rw [abs_abs] at hrounded
  have hwhole := triples_groupDigits
    (fun b hb => hrounded.digits b (List.mem_append_left _ hb)) hrounded.nonempty
  have hshown := trimmed_trimZeros (h.trans_eq hrounded.length.symm)
  refine ⟨_, _, _, _, _, ?_, hrounded, hwhole, hshown, marked_sign hx _⟩
  unfold grouped
  rw [hnan, hinf, if_neg Bool.false_ne_true, if_neg Bool.false_ne_true]

/-- Three groups and a fraction of which a zero is left out. -/
theorem millions_grouped : toRat? (-1234567.25) = some (-4938269 / 4) ∧
    grouped (-1234567.25) 2 3 = "-1,234,567.25" ∧
    ∃ sign whole fraction groups shown,
      grouped (-1234567.25) 2 3 = sign ++ groups ++ (if shown.isEmpty then [] else 46 :: shown) ∧
      Rounded |-4938269 / 4| 3 whole fraction ∧ Triples whole groups ∧ Trimmed 2 fraction shown ∧
      Marked (-4938269 / 4) (whole ++ shown) sign := by
  have hvalue : toRat? (-1234567.25) = some (-4938269 / 4) := by decide +kernel
  exact ⟨hvalue, by decide +kernel, grouped_faithful hvalue (by decide)⟩

-- what is rounded to zero has no sign
example : grouped (-0.0004) 0 3 = "0" := by decide +kernel

end Numeral
end EntityMachines
