import EntityMachines.Proofs.Numeral.Shortest
import EntityMachines.Proofs.Numeral.Token
import EntityMachines.Proofs.Text

/-!
The text of a number as a literal: what is written positionally or with an exponent has the digits
of the decimal that is written. Main statement: numbers have the same text exactly if they are
equal.
-/
namespace EntityMachines

theorem Text.length_zeroPadded {width n : ℕ} (hwidth : 0 < width) (h : n < 10 ^ width) :
    (Text.zeroPadded width n).length = width := by
  have hlength : (Text.ofNat n).length ≤ width := by
    rw [Text.ofNat_eq_map, List.length_map]
    exact (Nat.length_toDigits_le_iff (by decide) hwidth).mpr h
  unfold Text.zeroPadded Text.padStart
  rw [List.length_append, List.length_replicate, Nat.sub_add_cancel hlength]

namespace Numeral

open Double (Exact)
open Rounding
open Float.Model (UnpackedFloat)
open Float.Model.UnpackedFloat (Sign)

namespace Literal

/-- The number that is written. -/
def toRat (l : Literal) : ℚ := l.mantissa * 10 ^ l.exponent

theorem ofDigits_append (read : ℕ) (s t : Text) :
    ofDigits read (s ++ t) = ofDigits (ofDigits read s) t := List.foldl_append

theorem ofDigits_eq_add (read : ℕ) (t : Text) :
    ofDigits read t = read * 10 ^ t.length + ofDigits 0 t := by
  induction t generalizing read with
  | nil => exact (Nat.mul_one read).symm
  | cons b t ih =>
    have hstep (n : ℕ) : ofDigits n (b :: t) = ofDigits (n * 10 + b.digit) t := rfl
    rw [hstep, hstep, ih (read * 10 + b.digit), ih (0 * 10 + b.digit), List.length_cons, pow_succ]
    ring

theorem ofDigits_lt {t : Text} (h : ∀ b ∈ t, b.isDigit = true) : ofDigits 0 t < 10 ^ t.length := by
  induction t with
  | nil => exact Nat.one_pos
  | cons b t ih =>
    rw [List.forall_mem_cons] at h
    have hdigit := Byte.digit_le h.1
    have hstep : ofDigits 0 (b :: t) = ofDigits (0 * 10 + b.digit) t := rfl
    rw [hstep, ofDigits_eq_add, List.length_cons, pow_succ, Nat.zero_mul, Nat.zero_add]
    nlinarith [ih h.2]

theorem ofDigits_zeros (read count : ℕ) :
    ofDigits read (List.replicate count 48) = read * 10 ^ count := by
  induction count generalizing read with
  | zero => exact (Nat.mul_one read).symm
  | succ count ih =>
    have hstep : ofDigits read (List.replicate (count + 1) 48)
        = ofDigits (read * 10) (List.replicate count 48) := rfl
    rw [hstep, ih, pow_succ']
    ring

theorem ofDigits_ofNat (n : ℕ) : ofDigits 0 (Text.ofNat n) = n := by
  have hdigits : ∀ (read : ℕ), ∀ c ∈ Nat.toDigits 10 n,
      read * 10 + Byte.digit (UInt8.ofNat c.toNat) = 10 * read + (c.toNat - '0'.toNat) := by
    intro read c hc
    have hdigit := Char.isDigit_iff_toNat.mp
      (Nat.isDigit_of_mem_toDigits (by decide) (by decide) hc)
    have hhigh : c.toNat ≤ 57 := hdigit.2
    unfold Byte.digit
    rw [UInt8.toNat_ofNat_of_lt' (hhigh.trans_lt (by decide)), Nat.mul_comm]
    rfl
  unfold ofDigits
  rw [Text.ofNat_eq_map, List.foldl_map, List.foldl_ext _ _ _ hdigits, ← Nat.ofDigitChars_eq_foldl]
  exact Nat.ofDigitChars_ten_toDigits

theorem ofDigits_zeroPadded (width n : ℕ) : ofDigits 0 (Text.zeroPadded width n) = n := by
  show ofDigits 0 (List.replicate _ 48 ++ Text.ofNat n) = n
  rw [ofDigits_append, ofDigits_zeros, Nat.zero_mul, ofDigits_ofNat]

/-- Digits with a fraction behind a point, if there is one, and what follows. -/
theorem scan_pointed {whole fraction tail : Text} (hwhole : ∀ b ∈ whole, b.isDigit = true)
    (hsome : whole ≠ []) (hfraction : ∀ b ∈ fraction, b.isDigit = true)
    (htail : ∀ b ∈ tail.head?, b.isDigit = false ∧ b ≠ 46) :
    scan (whole ++ ((if fraction.isEmpty then [] else 46 :: fraction) ++ tail))
      = some (⟨ofDigits 0 (whole ++ fraction), (exponentPart tail).1 - fraction.length⟩,
        (exponentPart tail).2) := by
  have hend : ∀ b ∈ tail.head?, b.isDigit = false := fun b hb => (htail b hb).1
  have hread : whole.isEmpty = false := List.isEmpty_eq_false_iff.mpr hsome
  rw [ofDigits_append]
  cases fraction with
  | nil =>
    obtain ⟨htake, hdrop⟩ := Reader.span_append hwhole hend
    unfold scan
    simp only [List.isEmpty_nil, if_true, List.nil_append, htake, hdrop]
    cases tail with
    | nil => rw [hread]; rfl
    | cons b rest =>
      have hpoint : (b == ('.' : Byte)) = false := beq_eq_false_iff_ne.mpr (htail b rfl).2
      simp only [hpoint, hread]
      rfl
  | cons f fraction =>
    have hfollows : ∀ b ∈ (46 :: (f :: fraction ++ tail) : Text).head?, b.isDigit = false :=
      fun b hb => by cases hb; rfl
    obtain ⟨htake, hdrop⟩ := Reader.span_append hwhole hfollows
    obtain ⟨htake', hdrop'⟩ := Reader.span_append hfraction hend
    have hpoint : ((46 : Byte) == ('.' : Byte)) = true := rfl
    unfold scan
    simp only [List.isEmpty_cons, Bool.false_eq_true, if_false, List.cons_append] at htake hdrop ⊢
    simp only [htake, hdrop, hpoint, if_true]
    simp only [List.cons_append] at htake' hdrop'
    rw [htake', hdrop', hread]
    rfl

/-- Digits with a point behind the first of them, if there are more. -/
theorem scan_cut {digits : Text} {places : ℕ} (h : ∀ b ∈ digits, b.isDigit = true)
    (hsome : digits ≠ []) (hplaces : places ≠ 0) (tail : Text)
    (htail : ∀ b ∈ tail.head?, b.isDigit = false ∧ b ≠ 46) :
    scan (digits.take places ++ ((if (digits.drop places).isEmpty then []
        else 46 :: digits.drop places) ++ tail))
      = some (⟨ofDigits 0 digits, (exponentPart tail).1 - (digits.drop places).length⟩,
        (exponentPart tail).2) := by
  have hwhole : digits.take places ≠ [] := fun hnil =>
    (List.take_eq_nil_iff.mp hnil).elim hplaces hsome
  have hscan := scan_pointed (fun b hb => h b (List.mem_of_mem_take hb)) hwhole
    (fun b (hb : b ∈ digits.drop places) => h b (List.mem_of_mem_drop hb)) htail
  rwa [List.take_append_drop] at hscan

theorem scan_digits {digits : Text} (h : ∀ b ∈ digits, b.isDigit = true) (hsome : digits ≠ []) :
    scan digits = some (⟨ofDigits 0 digits, 0⟩, []) := by
  have hscan := scan_pointed h hsome (fun b (hb : b ∈ ([] : Text)) => nomatch hb)
    (fun b (hb : b ∈ ([] : Text).head?) => nomatch hb)
  simpa [exponentPart] using hscan

theorem exponentPart_digits {digits : Text} (h : ∀ b ∈ digits, b.isDigit = true)
    (hsome : digits ≠ []) {sign : Byte} (hsign : sign = 45 ∨ sign = 43) :
    exponentPart (101 :: sign :: digits)
      = (if sign = 45 then -(ofDigits 0 digits : ℤ) else ofDigits 0 digits, []) := by
  obtain ⟨htake, hdrop⟩ := Reader.span_append h fun b (hb : b ∈ ([] : Text).head?) => nomatch hb
  rw [List.append_nil] at htake hdrop
  have hread : digits.isEmpty = false := List.isEmpty_eq_false_iff.mpr hsome
  have hmark : ((101 : Byte) == ('e' : Byte) || (101 : Byte) == ('E' : Byte)) = true := rfl
  unfold exponentPart
  simp only [hmark, if_true]
  rcases hsign with rfl | rfl
  · simp [htake, hdrop, hread]
  · simp [htake, hdrop, hread]

/-- The exponent behind its mark. -/
def exponentText (n : ℤ) : Text :=
  plain.exponentMark ++ ((if n < 0 then ("-" : Text) else "+") ++ Text.ofNat n.natAbs)

theorem exponentPart_exponentText (n : ℤ) : exponentPart (exponentText n) = (n, []) := by
  have hdigits : ∀ b ∈ Text.ofNat n.natAbs, b.isDigit = true := fun b hb =>
    Text.isDigit_of_mem_ofNat hb
  have hread := fun sign => @exponentPart_digits _ hdigits (Text.ofNat_ne_nil _) sign
  rw [ofDigits_ofNat] at hread
  unfold exponentText
  split
  next hneg =>
    have hvalue : -(n.natAbs : ℤ) = n := by omega
    exact (hread 45 (.inl rfl)).trans (by rw [if_pos rfl, hvalue])
  next hpos =>
    have hvalue : (n.natAbs : ℤ) = n := by omega
    exact (hread 43 (.inr rfl)).trans (by rw [if_neg (by decide), hvalue])

section decimal

variable (d : Decimal)

theorem scan_positional : ∃ l, scan (positional d) = some (l, []) ∧ l.toRat = d.toRat := by
  unfold positional
  dsimp only
  split
  next hwhole =>
    have hall : ∀ b ∈ Text.ofNat d.digits ++ List.replicate d.exponent.toNat 48,
        b.isDigit = true := by
      intro b hb
      rcases List.mem_append.mp hb with hb | hb
      · exact Text.isDigit_of_mem_ofNat hb
      · rw [List.eq_of_mem_replicate hb]
        rfl
    have hsome : Text.ofNat d.digits ++ List.replicate d.exponent.toNat 48 ≠ [] :=
      List.append_ne_nil_of_left_ne_nil (Text.ofNat_ne_nil _) _
    refine ⟨_, scan_digits hall hsome, ?_⟩
    unfold toRat Decimal.toRat
    dsimp only
    rw [ofDigits_append, ofDigits_ofNat, ofDigits_zeros, zpow_zero, mul_one, Nat.cast_mul,
      Nat.cast_pow, ← zpow_natCast, Int.toNat_of_nonneg hwhole]
    rfl
  next hpoint =>
    let places := (-d.exponent).toNat
    let padded := Text.padStart (places + 1) 48 (Text.ofNat d.digits)
    have hlength : places + 1 ≤ padded.length := Text.le_length_padStart _ _ _
    have hfraction : (padded.drop (padded.length - places)).length = places := by
      rw [List.length_drop]
      omega
    have hsome : (padded.drop (padded.length - places)).isEmpty = false :=
      List.isEmpty_eq_false_iff.mpr (List.ne_nil_of_length_pos (by omega))
    have hread : ofDigits 0 padded = d.digits := by
      show ofDigits 0 (List.replicate _ 48 ++ Text.ofNat d.digits) = d.digits
      rw [ofDigits_append, ofDigits_zeros, Nat.zero_mul, ofDigits_ofNat]
    have hnil : padded ≠ [] := List.ne_nil_of_length_pos (by omega)
    have hdigits : ∀ b ∈ padded, b.isDigit = true := fun _ hb =>
      Text.isDigit_of_mem_padStart (fun _ => Text.isDigit_of_mem_ofNat) hb
    have hscan := scan_cut hdigits hnil (by omega : padded.length - places ≠ 0) []
      (fun b hb => nomatch hb)
    rw [hsome, if_neg Bool.false_ne_true, List.append_nil, hread, hfraction] at hscan
    refine ⟨_, hscan, ?_⟩
    have hexponent : (exponentPart []).1 - (places : ℤ) = d.exponent := by
      show (0 : ℤ) - places = d.exponent
      omega
    unfold toRat Decimal.toRat
    rw [hexponent]

theorem scan_scientific :
    scan (scientific plain.exponentMark d) = some (⟨d.digits, d.exponent⟩, []) := by
  have hscan := scan_cut (fun _ => Text.isDigit_of_mem_ofNat) (Text.ofNat_ne_nil d.digits)
    one_ne_zero (exponentText d.magnitude) (fun b hb => by cases hb; exact ⟨rfl, by decide⟩)
  have hwidth : (Text.ofNat d.digits).length = Decimal.width d.digits := by
    rw [Text.ofNat_eq_map, List.length_map]
    rfl
  have hpos : 1 ≤ Decimal.width d.digits := Nat.length_toDigits_pos
  have hexponent : d.magnitude - (Decimal.width d.digits - 1 : ℕ) = d.exponent := by
    unfold Decimal.magnitude
    omega
  rw [exponentPart_exponentText, ofDigits_ofNat, List.length_drop, hwidth, hexponent] at hscan
  rw [← hscan]
  unfold scientific exponentText
  simp only [List.append_assoc]

end decimal

end Literal

/-- What is written for a magnitude is the shortest decimal or, for a whole number, the number
itself. -/
theorem scan_magnitudeText (x : Exact) : ∃ l, Literal.scan (plain.magnitudeText x) = some (l, []) ∧
    (l.toRat = x.shortest.toRat ∨ l.toRat = x.magnitude) := by
  unfold Layout.magnitudeText
  dsimp only
  split
  · split
    next hwhole =>
      refine ⟨_, Literal.scan_digits (fun b hb => Text.isDigit_of_mem_ofNat hb)
        (Text.ofNat_ne_nil _), .inr ?_⟩
      unfold Literal.toRat
      rw [Literal.ofDigits_ofNat, zpow_zero, mul_one]
      exact (Exact.magnitude_of_isWhole hwhole).symm
    next =>
      obtain ⟨l, hscan, hl⟩ := Literal.scan_positional x.shortest
      exact ⟨l, hscan, .inl hl⟩
  · exact ⟨_, Literal.scan_scientific x.shortest, .inl rfl⟩

def signText : Sign → Text
  | .positive => []
  | .negative => "-"

/-- The text of a double by the form in which it is stored. -/
def written : UnpackedFloat → Text
  | .notANumber => plain.notANumber
  | .zero _ => plain.zero
  | .infinity s => signText s ++ plain.infinity
  | .finite s m e _ => signText s ++ plain.magnitudeText ⟨decide (unit s < 0), m, e⟩

/-- What is not zero is written with its sign, which is that of its place. -/
theorem write_of_ne_zero {x : Float} {s : Sign} (hnan : x.isNaN = false)
    (hne : rank x ≠ toLex (0, toLex (0, 0)))
    (hneg : rank x < toLex (0, toLex (0, 0)) ↔ s = .negative) :
    plain.write x = signText s ++ if x.isInf then plain.infinity
      else plain.magnitudeText (Double.exact x) := by
  have hzero : ¬(x == 0.0) = true := fun heq => hne ((beq_iff_rank hnan rfl).mp heq)
  have hless : x < 0.0 ↔ s = .negative := (lt_iff_rank hnan rfl).trans hneg
  unfold Layout.write
  rw [if_neg (by rw [hnan]; decide), if_neg hzero]
  dsimp only
  cases s with
  | positive =>
    rw [if_neg fun h => nomatch hless.mp h]
    split <;> rfl
  | negative =>
    rw [if_pos (hless.mpr rfl)]
    split <;> rfl

/-- A place that is not that of zero lies before it or behind it by its class. -/
theorem beside_zero {k : ℤ} (hk : k ≠ 0) (q : ℤ ×ₗ ℤ) :
    toLex (k, q) ≠ toLex (0, toLex (0, 0)) ∧
      (toLex (k, q) < toLex (0, toLex (0, 0)) ↔ k < 0) := by
  refine ⟨fun heq => hk (Prod.mk.inj heq).1, ?_⟩
  rw [Prod.Lex.toLex_lt_toLex]
  exact or_iff_left fun hboth => hk hboth.1

theorem place_signed {u : UnpackedFloat} {s : Sign}
    (hu : u = .infinity s ∨ ∃ m e h, u = .finite s m e h) :
    place u ≠ toLex (0, toLex (0, 0)) ∧
      (place u < toLex (0, toLex (0, 0)) ↔ s = .negative) := by
  have hclass : ∃ k q, place u = toLex (k, q) ∧ k ≠ 0 ∧ (k < 0 ↔ s = .negative) := by
    rcases hu with rfl | ⟨m, e, h, rfl⟩ <;> cases s <;> exact ⟨_, _, rfl, by decide, by simp⟩
  obtain ⟨k, q, hplace, hk, hsign⟩ := hclass
  rw [hplace, ← hsign]
  exact beside_zero hk q

theorem write_eq_written (x : Float) : plain.write x = written x.toModel.unpack := by
  have hrank : rank x = place x.toModel.unpack := rfl
  have hnan : x.isNaN = x.toModel.unpack.isNaN := rfl
  have hinf : x.isInf = x.toModel.unpack.isInf := rfl
  have hfinite : x.isFinite = x.toModel.unpack.isFinite := rfl
  cases hunpack : x.toModel.unpack with
  | notANumber =>
    rw [hunpack] at hnan
    exact if_pos hnan
  | zero s =>
    rw [hunpack] at hnan hrank
    have hzero : (x == 0.0) = true := (beq_iff_rank hnan rfl).mpr hrank
    unfold Layout.write
    rw [hnan, hzero]
    rfl
  | infinity s =>
    rw [hunpack] at hnan hinf hrank
    obtain ⟨hne, hneg⟩ := place_signed (.inl rfl)
    rw [← hrank] at hne hneg
    rw [write_of_ne_zero hnan hne hneg, hinf]
    rfl
  | finite s m e h =>
    rw [hunpack] at hnan hinf hrank hfinite
    obtain ⟨t, hparts, hnegative⟩ := Double.exists_parts hfinite
    obtain ⟨rfl, rfl, rfl⟩ := eq_of_signed_eq_finite (hparts.unpack.symm.trans hunpack)
    obtain ⟨hne, hneg⟩ := place_signed (.inr ⟨_, _, _, rfl⟩)
    rw [← hrank] at hne hneg
    rw [write_of_ne_zero hnan hne hneg, hinf]
    show _ = signText t ++ plain.magnitudeText ⟨decide (unit t < 0), _, _⟩
    rw [← hnegative]
    rfl

theorem isFinite_or_write_eq {x : Float} (h : x.isNaN = false) :
    x.isFinite = true ∨ ∃ s, plain.write x = signText s ++ plain.infinity := by
  have hnan : x.isNaN = x.toModel.unpack.isNaN := rfl
  have hfinite : x.isFinite = x.toModel.unpack.isFinite := rfl
  rw [hfinite, write_eq_written]
  rw [hnan] at h
  cases hunpack : x.toModel.unpack with
  | notANumber =>
    rw [hunpack] at h
    cases h
  | infinity s => exact .inr ⟨s, rfl⟩
  | zero | finite => exact .inl rfl

/-- The sign in front of a text, and the number behind it. -/
def spelled (t : Text) : Sign × Option ℚ :=
  (if (splitSign t).1 then .negative else .positive,
    match Literal.scan (splitSign t).2 with
    | some (l, []) => some l.toRat
    | _ => none)

/-- What the text of a double tells: its sign, but for zero, and a number that is rounded to it,
unless it is infinite. -/
inductive Tells : UnpackedFloat → Sign × Option ℚ → Prop
  | zero (s : Sign) : Tells (.zero s) (.positive, some 0)
  | infinity (s : Sign) : Tells (.infinity s) (s, none)
  | finite {s : Sign} {m : ℕ} {e : ℤ} {h : 0 < m} {r : ℚ} (canonical : Canonical m e)
      (near : Shortest.Surrounds m e r) : Tells (.finite s m e h) (s, some r)

theorem spelled_signText (s : Sign) {t : Text} (h : splitSign t = (false, t)) :
    spelled (signText s ++ t) = (s, (spelled t).2) := by
  have hminus : splitSign (signText .negative ++ t) = (true, t) := rfl
  unfold spelled
  cases s with
  | positive =>
    rw [show signText .positive ++ t = t from rfl, h]
    rfl
  | negative =>
    rw [hminus, h]
    rfl

/-- A text that is read as a literal has no sign. -/
theorem splitSign_of_scan {t : Text} {l : Literal} (h : Literal.scan t = some (l, [])) :
    splitSign t = (false, t) := by
  cases t with
  | nil => rfl
  | cons b rest =>
    have hsign (sign : Byte) (hnone : Literal.scan (sign :: rest) = none) : b ≠ sign := by
      rintro rfl
      rw [hnone] at h
      cases h
    have hminus : (b == ('-' : Byte)) = false := beq_eq_false_iff_ne.mpr (hsign 45 rfl)
    have hplus : (b == ('+' : Byte)) = false := beq_eq_false_iff_ne.mpr (hsign 43 rfl)
    unfold splitSign
    simp only [hminus, hplus]
    rfl

theorem tells_written {u : UnpackedFloat} (hnan : u.isNaN = false)
    (hc : ∀ s m e h, u = .finite s m e h → Canonical m e) : Tells u (spelled (written u)) := by
  cases u with
  | notANumber => cases hnan
  | zero s =>
    have hzero : spelled plain.zero = (.positive, some (Literal.toRat ⟨0, 0⟩)) := rfl
    have hvalue : (Literal.toRat ⟨0, 0⟩ : ℚ) = 0 := zero_mul _
    show Tells _ (spelled plain.zero)
    rw [hzero, hvalue]
    exact .zero s
  | infinity s =>
    have hunread : (spelled plain.infinity).2 = none := rfl
    show Tells _ (spelled (signText s ++ plain.infinity))
    rw [spelled_signText s rfl, hunread]
    exact .infinity s
  | finite s m e hm =>
    have hcanonical := hc s m e hm rfl
    obtain ⟨l, hscan, hl⟩ := scan_magnitudeText ⟨decide (unit s < 0), m, e⟩
    have hsign := splitSign_of_scan hscan
    have hread : (spelled (plain.magnitudeText ⟨decide (unit s < 0), m, e⟩)).2 = some l.toRat := by
      unfold spelled
      rw [hsign]
      dsimp only
      rw [hscan]
    show Tells _ (spelled (signText s ++ plain.magnitudeText _))
    rw [spelled_signText s hsign, hread]
    refine .finite hcanonical ?_
    rcases hl with hl | hl
    · rw [hl]
      exact Shortest.surrounds_shortest ⟨_, m, e⟩ hcanonical hm
    · rw [hl, magnitude_eq]
      exact Shortest.surrounds_self hm

theorem Tells.place_eq {u v : UnpackedFloat} {told : Sign × Option ℚ} (hu : Tells u told)
    (hv : Tells v told) : place u = place v := by
  cases hu with
  | zero s =>
    cases hv with
    | zero => rfl
    | @finite _ m _ hm _ _ near => exact absurd (near.pos hm) (lt_irrefl 0)
  | infinity s =>
    cases hv
    rfl
  | @finite _ m _ hm _ canonical near =>
    cases hv with
    | zero => exact absurd (near.pos hm) (lt_irrefl 0)
    | finite canonical' near' =>
      obtain ⟨rfl, rfl⟩ := near.unique canonical canonical' near'
      rfl

theorem written_eq_of_place_eq {u v : UnpackedFloat} (hu : u.isNaN = false) (hv : v.isNaN = false)
    (h : place u = place v) : written u = written v := by
  rcases u with s | _ | s | ⟨s, m, e, _⟩ <;> rcases v with s' | _ | s' | ⟨s', n, d, _⟩ <;>
    try cases s <;> try cases s'
  all_goals
    try cases hu
    try cases hv
  all_goals
    obtain ⟨hclass, hplace⟩ := Prod.mk.inj h
    first
    | rfl
    | exact absurd hclass (by decide)
    | obtain ⟨hexponent, hmantissa⟩ := Prod.mk.inj hplace
      obtain ⟨rfl, rfl⟩ : e = d ∧ m = n := by omega
      rfl

/-- Numbers have one text exactly if they are equal. -/
theorem write_eq_iff {x y : Float} (hx : x.isNaN = false) (hy : y.isNaN = false) :
    plain.write x = plain.write y ↔ (x == y) = true := by
  rw [write_eq_written, write_eq_written, beq_iff_rank hx hy]
  constructor
  · intro h
    have htells (z : Float) (hz : z.isNaN = false) :
        Tells z.toModel.unpack (spelled (written z.toModel.unpack)) := by
      refine tells_written hz fun s m e hm hunpack => ?_
      rcases canonical_unpack z with hnan | ⟨t, hinf⟩ | ⟨t, n, d, hfinite, hc, -⟩
      · cases hunpack.symm.trans hnan
      · cases hunpack.symm.trans hinf
      · obtain ⟨-, rfl, rfl⟩ := eq_of_signed_eq_finite (hfinite.symm.trans hunpack)
        exact hc
    exact (htells x hx).place_eq (h ▸ htells y hy)
  · exact written_eq_of_place_eq hx hy

end Numeral
end EntityMachines
