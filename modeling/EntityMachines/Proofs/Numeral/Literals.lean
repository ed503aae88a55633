import EntityMachines.Proofs.Numeral.Spelling
import Mathlib.Data.List.TakeWhile

/-!
Literals as they are written: digits with an optional point among them and an optional exponent
behind them. Main statement: what is read at the front of a text is the longest literal there.
-/
namespace EntityMachines
namespace Numeral

open Float.Model.UnpackedFloat (Sign)

/-! A sign in front of a number, which may be left out. -/

section sign

variable {t : Text}

def leadText : Option Sign → Text
  | some .negative => [45]
  | some .positive => [43]
  | none => []

def isMinus : Option Sign → Bool
  | some .negative => true
  | _ => false

theorem splitSign_eq (t : Text) : splitSign t =
    (t.head? == some (45 : Byte),
      if t.head? == some (45 : Byte) || t.head? == some (43 : Byte) then t.drop 1 else t) := by
  cases t with
  | nil => rfl
  | cons b rest =>
    by_cases hminus : b = 45
    · subst hminus
      rfl
    · by_cases hplus : b = 43
      · subst hplus
        rfl
      · have hsplit : splitSign (b :: rest)
          = if b == 45 then (true, rest) else if b == 43 then (false, rest) else (false, b :: rest) :=
          rfl
        rw [hsplit]
        simp [hminus, hplus]

theorem splitSign_leadText (sign : Option Sign) (h : ∀ b ∈ t.head?, b ≠ 45 ∧ b ≠ 43) :
    splitSign (leadText sign ++ t) = (isMinus sign, t) := by
  match sign with
  | some .negative | some .positive => rfl
  | none =>
    show splitSign t = (false, t)
    rw [splitSign_eq]
    cases t with
    | nil => rfl
    | cons b rest =>
      obtain ⟨hminus, hplus⟩ := h b rfl
      simp [hminus, hplus]

theorem exists_leadText (t : Text) :
    ∃ sign, t = leadText sign ++ (splitSign t).2 ∧ (splitSign t).1 = isMinus sign := by
  rw [splitSign_eq]
  cases t with
  | nil => exact ⟨none, rfl, rfl⟩
  | cons b rest =>
    by_cases hminus : b = 45
    · subst hminus
      exact ⟨some .negative, rfl, rfl⟩
    · by_cases hplus : b = 43
      · subst hplus
        exact ⟨some .positive, rfl, rfl⟩
      · exact ⟨none, by simp [leadText, hminus, hplus], by simp [isMinus, hminus]⟩

end sign

namespace Literal

abbrev Digits : Type := { t : Text // ∀ b ∈ t, b.isDigit = true }

def Digits.value (d : Digits) : ℕ := ofDigits 0 d.val

/-- The mark of an exponent in either letter case, a sign that may be left out, and digits. -/
structure Exponent where
  capital : Bool
  sign : Option Sign
  digits : Digits
  some : digits.val ≠ []

/-- A literal without a sign in front of it. -/
structure Spelling where
  whole : Digits
  fraction : Option Digits
  exponent : Option Exponent
  some : whole.val ++ fraction.elim [] Subtype.val ≠ []

namespace Exponent

def mark (x : Exponent) : Byte := if x.capital then 69 else 101

def text (x : Exponent) : Text := x.mark :: (leadText x.sign ++ x.digits.val)

/-- A number with the sign of the exponent. -/
def directed (x : Exponent) (n : ℕ) : ℤ := if isMinus x.sign then -n else n

def value (x : Exponent) : ℤ := x.directed x.digits.value

end Exponent

namespace Spelling

/-- The digits behind the point. -/
def places (s : Spelling) : Text := s.fraction.elim [] Subtype.val

def text (s : Spelling) : Text :=
  s.whole.val ++ (s.fraction.elim [] (fun d => 46 :: d.val) ++ s.exponent.elim [] Exponent.text)

/-- The number that is written. -/
def value (s : Spelling) : ℚ :=
  (s.whole.value + ofDigits 0 s.places / 10 ^ s.places.length)
    * 10 ^ s.exponent.elim 0 Exponent.value

def literal (s : Spelling) : Literal :=
  ⟨ofDigits 0 (s.whole.val ++ s.places), s.exponent.elim 0 Exponent.value - s.places.length⟩

theorem toRat_literal (s : Spelling) : s.literal.toRat = s.value := by
  unfold toRat literal value
  dsimp only
  rw [ofDigits_append, ofDigits_eq_add, zpow_sub₀ (by norm_num), zpow_natCast]
  unfold Digits.value
  push_cast
  field_simp

end Spelling

/-! The stages in which a literal is read: digits, a point with digits behind it, an exponent. -/

section stages

variable {t more : Text}

/-- Digits behind a point, if there is one, and what follows them. -/
def pointed (t : Text) : Text × Text :=
  match t with
  | mark :: rest =>
    if mark == 46 then (rest.takeWhile Byte.isDigit, rest.dropWhile Byte.isDigit) else ([], t)
  | [] => ([], [])

theorem scan_eq (t : Text) : scan t =
    let whole := t.takeWhile Byte.isDigit
    let read := pointed (t.dropWhile Byte.isDigit)
    if whole ++ read.1 = [] then none
    else some (⟨ofDigits 0 (whole ++ read.1), (exponentPart read.2).1 - read.1.length⟩,
      (exponentPart read.2).2) := by
  have hstages : scan t =
      let whole := t.takeWhile Byte.isDigit
      let read := pointed (t.dropWhile Byte.isDigit)
      if whole.isEmpty && read.1.isEmpty then none
      else some (⟨ofDigits (ofDigits 0 whole) read.1, (exponentPart read.2).1 - read.1.length⟩,
        (exponentPart read.2).2) := by
    unfold scan pointed
    dsimp only
    cases t.dropWhile Byte.isDigit with
    | nil => rfl
    | cons b rest => rfl
  rw [hstages]
  dsimp only
  refine if_congr ?_ rfl (by rw [ofDigits_append])
  rw [Bool.and_eq_true, List.isEmpty_iff, List.isEmpty_iff, List.append_eq_nil_iff]

theorem pointed_point (t : Text) :
    pointed (46 :: t) = (t.takeWhile Byte.isDigit, t.dropWhile Byte.isDigit) := rfl

theorem pointed_of_ne (h : ∀ b ∈ t.head?, b ≠ 46) : pointed t = ([], t) := by
  cases t with
  | nil => rfl
  | cons b rest => exact if_neg (by simpa using h b rfl)

theorem exponentPart_of_ne (h : ∀ b ∈ t.head?, b ≠ 101 ∧ b ≠ 69) : exponentPart t = (0, t) := by
  cases t with
  | nil => rfl
  | cons b rest =>
    have hmark : ¬(b == 101 || b == 69) = true := by simpa using h b rfl
    exact if_neg hmark

theorem head?_append_of_ne_nil {p : Byte → Prop} (h : t ≠ []) (hall : ∀ b ∈ t, p b)
    (more : Text) : ∀ b ∈ (t ++ more).head?, p b := by
  cases t with
  | nil => exact absurd rfl h
  | cons b rest =>
    rintro _ ⟨⟩
    exact hall b List.mem_cons_self

theorem not_sign_of_isDigit {b : Byte} (h : b.isDigit = true) : b ≠ 45 ∧ b ≠ 43 := by
  constructor <;> rintro rfl <;> cases h

theorem exponentPart_mark {b : Byte} (h : b = 101 ∨ b = 69) (rest : Text) :
    exponentPart (b :: rest) =
      let read := splitSign rest
      let digits := read.2.takeWhile Byte.isDigit
      if digits = [] then (0, b :: rest)
      else (if read.1 then -(ofDigits 0 digits : ℤ) else ofDigits 0 digits,
        read.2.dropWhile Byte.isDigit) := by
  have hmark : (b == ('e' : Byte) || b == ('E' : Byte)) = true := by
    rcases h with rfl | rfl <;> rfl
  unfold exponentPart
  dsimp only
  rw [if_pos hmark, splitSign_eq]
  exact if_congr List.isEmpty_iff rfl rfl

theorem Exponent.mark_or (x : Exponent) : x.mark = 101 ∨ x.mark = 69 := by
  unfold mark
  split
  · exact .inr rfl
  · exact .inl rfl

theorem Exponent.text_append (x : Exponent) (more : Text) :
    x.text ++ more = x.mark :: (leadText x.sign ++ (x.digits.val ++ more)) := by
  rw [← List.append_assoc]
  rfl

/-- An exponent is read together with all digits that follow. -/
theorem exponentPart_append (x : Exponent) (more : Text) :
    exponentPart (x.text ++ more)
      = (x.directed (ofDigits 0 (x.digits.val ++ more.takeWhile Byte.isDigit)),
        more.dropWhile Byte.isDigit) := by
  have hsplit := splitSign_leadText x.sign
    (head?_append_of_ne_nil x.some (fun b hb => not_sign_of_isDigit (x.digits.property b hb)) more)
  have hsome : x.digits.val ++ more.takeWhile Byte.isDigit ≠ [] :=
    List.append_ne_nil_of_left_ne_nil x.some _
  rw [x.text_append, exponentPart_mark x.mark_or]
  dsimp only
  rw [hsplit, List.takeWhile_append_of_pos x.digits.property,
    List.dropWhile_append_of_pos x.digits.property, if_neg hsome]
  rfl

/-- A point with digits behind it, or neither. -/
theorem exists_fraction (t : Text) : ∃ fraction? : Option Digits,
    t = fraction?.elim [] (fun d => 46 :: d.val) ++ (pointed t).2 ∧
      (pointed t).1 = fraction?.elim [] Subtype.val := by
  by_cases hpoint : ∀ b ∈ t.head?, b ≠ 46
  · rw [pointed_of_ne hpoint]
    exact ⟨none, rfl, rfl⟩
  · obtain ⟨rest, rfl⟩ : ∃ rest, t = 46 :: rest := by
      cases t with
      | nil => exact absurd (fun b hb => nomatch hb) hpoint
      | cons b rest =>
        have hb : b = 46 := by simpa using hpoint
        exact ⟨rest, by rw [hb]⟩
    rw [pointed_point]
    refine ⟨some ⟨_, fun _ h => List.mem_takeWhile_imp h⟩, ?_, rfl⟩
    rw [Option.elim_some, List.cons_append, List.takeWhile_append_dropWhile]

/-- An exponent, or nothing where its mark has no digits behind it. -/
theorem exists_exponent (t : Text) : ∃ exponent? : Option Exponent,
    t = exponent?.elim [] Exponent.text ++ (exponentPart t).2 ∧
      (exponentPart t).1 = exponent?.elim 0 Exponent.value := by
  by_cases hmark : ∀ b ∈ t.head?, b ≠ 101 ∧ b ≠ 69
  · rw [exponentPart_of_ne hmark]
    exact ⟨none, rfl, rfl⟩
  · obtain ⟨b, rest, rfl, hb⟩ : ∃ b rest, t = b :: rest ∧ (b = 101 ∨ b = 69) := by
      cases t with
      | nil => exact absurd (fun b hb => nomatch hb) hmark
      | cons b rest =>
        refine ⟨b, rest, rfl, or_iff_not_imp_left.mpr fun hsmall => ?_⟩
        by_contra hcapital
        exact hmark (by rintro _ ⟨⟩; exact ⟨hsmall, hcapital⟩)
    obtain ⟨sign, hrest, hminus⟩ := exists_leadText rest
    rw [exponentPart_mark hb]
    dsimp only
    by_cases hsome : (splitSign rest).2.takeWhile Byte.isDigit = []
    · rw [if_pos hsome]
      exact ⟨none, rfl, rfl⟩
    · have hcapital : (if decide (b = 69) then (69 : Byte) else 101) = b := by
        rcases hb with rfl | rfl <;> rfl
      let x : Exponent := ⟨b = 69, sign, ⟨_, fun _ h => List.mem_takeWhile_imp h⟩, hsome⟩
      have hx : x.text = b :: (leadText sign ++ (splitSign rest).2.takeWhile Byte.isDigit) := by
        show (if decide (b = 69) then (69 : Byte) else 101) :: _ = _
        rw [hcapital]
      rw [if_neg hsome, hminus]
      refine ⟨some x, ?_, rfl⟩
      rw [Option.elim_some, hx, List.cons_append, List.append_assoc,
        List.takeWhile_append_dropWhile, ← hrest]

theorem pointed_suffix (t : Text) : (pointed t).2 <:+ t :=
  have ⟨_, htext, _⟩ := exists_fraction t
  ⟨_, htext.symm⟩

theorem exponentPart_suffix (t : Text) : (exponentPart t).2 <:+ t :=
  have ⟨_, htext, _⟩ := exists_exponent t
  ⟨_, htext.symm⟩

end stages

/-- No literal goes on with this text. -/
def Stops (more : Text) : Prop :=
  ∀ b ∈ more.head?, b.isDigit = false ∧ b ≠ 46 ∧ b ≠ 101 ∧ b ≠ 69

namespace Stops

variable {more : Text}

theorem takeWhile_eq (h : Stops more) : more.takeWhile Byte.isDigit = [] := by
  cases more with
  | nil => rfl
  | cons b rest => exact List.takeWhile_cons_of_neg (by rw [(h b rfl).1]; exact Bool.false_ne_true)

theorem dropWhile_eq (h : Stops more) : more.dropWhile Byte.isDigit = more := by
  cases more with
  | nil => rfl
  | cons b rest => exact List.dropWhile_cons_of_neg (by rw [(h b rfl).1]; exact Bool.false_ne_true)

theorem pointed_eq (h : Stops more) : pointed more = ([], more) :=
  pointed_of_ne fun b hb => (h b hb).2.1

theorem exponentPart_eq (h : Stops more) : exponentPart more = (0, more) :=
  exponentPart_of_ne fun b hb => (h b hb).2.2

end Stops

namespace Exponent

variable (x : Exponent) (more : Text)

theorem takeWhile_text_append : (x.text ++ more).takeWhile Byte.isDigit = [] := by
  refine List.takeWhile_cons_of_neg ?_
  rcases x.mark_or with h | h <;> rw [h] <;> decide

theorem dropWhile_text_append : (x.text ++ more).dropWhile Byte.isDigit = x.text ++ more := by
  refine List.dropWhile_cons_of_neg ?_
  rcases x.mark_or with h | h <;> rw [h] <;> decide

theorem pointed_text_append : pointed (x.text ++ more) = ([], x.text ++ more) := by
  refine pointed_of_ne ?_
  rintro _ ⟨⟩
  rcases x.mark_or with h | h <;> rw [h] <;> decide

end Exponent

/-- The bytes from the exponent on: digits that would still belong to what is in front of them, and
then the exponent. -/
theorem exists_behind (x? : Option Exponent) (more : Text) : ∃ digits after,
    (x?.elim [] Exponent.text ++ more).takeWhile Byte.isDigit = digits ∧
    (x?.elim [] Exponent.text ++ more).dropWhile Byte.isDigit = after ∧
    (exponentPart after).2 <:+ more ∧
    (Stops more → digits = [] ∧ exponentPart after = (x?.elim 0 Exponent.value, more)) := by
  cases x? with
  | none =>
    refine ⟨_, _, rfl, rfl, ?_, fun h => ?_⟩
    · exact (exponentPart_suffix _).trans (List.dropWhile_suffix _)
    · rw [Option.elim_none, List.nil_append, h.takeWhile_eq, h.dropWhile_eq, h.exponentPart_eq]
      exact ⟨rfl, rfl⟩
  | some x =>
    refine ⟨[], x.text ++ more, x.takeWhile_text_append more, x.dropWhile_text_append more, ?_,
      fun h => ⟨rfl, ?_⟩⟩
    · rw [exponentPart_append]
      exact List.dropWhile_suffix _
    · rw [exponentPart_append, h.takeWhile_eq, h.dropWhile_eq, List.append_nil]
      rfl

/-- A literal in front of a text is read, and if the text does not go on with it, nothing else is. -/
theorem scan_append (s : Spelling) (more : Text) : ∃ l rest,
    scan (s.text ++ more) = some (l, rest) ∧ rest <:+ more ∧
      (Stops more → l = s.literal ∧ rest = more) := by
  have htext : s.text ++ more = s.whole.val ++ (s.fraction.elim [] (fun d => 46 :: d.val)
      ++ (s.exponent.elim [] Exponent.text ++ more)) := by
    unfold Spelling.text
    rw [List.append_assoc, List.append_assoc]
  have hsome := s.some
  have hliteral : s.literal = ⟨ofDigits 0 (s.whole.val ++ s.fraction.elim [] Subtype.val),
    s.exponent.elim 0 Exponent.value - (s.fraction.elim [] Subtype.val).length⟩ := rfl
  rw [htext, scan_eq, hliteral]
  dsimp only
  rw [List.takeWhile_append_of_pos s.whole.property, List.dropWhile_append_of_pos s.whole.property]
  cases hfraction : s.fraction with
  | some f =>
    obtain ⟨digits, after, hdigits, hafter, hsuffix, hstops⟩ := exists_behind s.exponent more
    rw [hfraction] at hsome
    have hpoint : (46 : Byte) :: f.val ++ (s.exponent.elim [] Exponent.text ++ more)
        = 46 :: (f.val ++ (s.exponent.elim [] Exponent.text ++ more)) := rfl
    have hne : s.whole.val ++ (f.val ++ digits) ≠ [] := by
      rw [← List.append_assoc]
      exact List.append_ne_nil_of_left_ne_nil hsome digits
    rw [Option.elim_some, hpoint, List.takeWhile_cons_of_neg (by decide),
      List.dropWhile_cons_of_neg (by decide), pointed_point,
      List.takeWhile_append_of_pos f.property, List.dropWhile_append_of_pos f.property, hdigits,
      hafter, List.append_nil, if_neg hne]
    refine ⟨_, _, rfl, hsuffix, fun h => ?_⟩
    obtain ⟨rfl, hexponent⟩ := hstops h
    rw [hexponent, List.append_nil]
    exact ⟨rfl, rfl⟩
  | none =>
    rw [hfraction, Option.elim_none, List.append_nil] at hsome
    rw [Option.elim_none, List.nil_append, Option.elim_none, List.append_nil, List.length_nil]
    cases s.exponent with
    | none =>
      -- digits alone: what follows may go on with a point or an exponent of its own
      rw [Option.elim_none, List.nil_append, List.append_assoc,
        if_neg (List.append_ne_nil_of_left_ne_nil hsome _)]
      refine ⟨_, _, rfl, ?_, fun h => ?_⟩
      · exact ((exponentPart_suffix _).trans (pointed_suffix _)).trans (List.dropWhile_suffix _)
      · rw [h.takeWhile_eq, h.dropWhile_eq, h.pointed_eq, h.exponentPart_eq, List.append_nil,
          List.append_nil]
        exact ⟨rfl, rfl⟩
    | some x =>
      rw [Option.elim_some, x.takeWhile_text_append, x.dropWhile_text_append,
        x.pointed_text_append, List.append_nil, List.append_nil, if_neg hsome,
        exponentPart_append]
      refine ⟨_, _, rfl, List.dropWhile_suffix _, fun h => ?_⟩
      rw [h.takeWhile_eq, h.dropWhile_eq, List.append_nil]
      exact ⟨rfl, rfl⟩

/-- What is read is a literal. -/
theorem exists_spelling {t : Text} {l : Literal} {rest : Text} (h : scan t = some (l, rest)) :
    ∃ s : Spelling, t = s.text ++ rest ∧ l = s.literal := by
  rw [scan_eq] at h
  dsimp only at h
  split at h
  next => cases h
  next hsome =>
    obtain ⟨rfl, rfl⟩ := Prod.mk.inj (Option.some.inj h)
    obtain ⟨fraction, hpointed, hplaces⟩ := exists_fraction (t.dropWhile Byte.isDigit)
    rw [hplaces] at hsome ⊢
    obtain ⟨x?, htext, hvalue⟩ := exists_exponent (pointed (t.dropWhile Byte.isDigit)).2
    refine ⟨⟨⟨_, fun _ h => List.mem_takeWhile_imp h⟩, fraction, x?, hsome⟩, ?_, ?_⟩
    · unfold Spelling.text
      dsimp only
      rw [List.append_assoc, List.append_assoc, ← htext, ← hpointed, List.takeWhile_append_dropWhile]
    · rw [hvalue]
      rfl

/-- No longer literal is at the front of the text. -/
def Longest (s : Spelling) (t : Text) : Prop :=
  s.text <+: t ∧ ∀ other : Spelling, other.text <+: t → other.text.length ≤ s.text.length

theorem stops_nil : Stops [] := fun _ h => nomatch h

/-- Literals with the same text are read alike. -/
theorem literal_eq_of_text_eq {s other : Spelling} (h : s.text = other.text) :
    s.literal = other.literal := by
  obtain ⟨l, rest, hscan, -, hstops⟩ := scan_append s []
  obtain ⟨l', rest', hscan', -, hstops'⟩ := scan_append other []
  rw [h, hscan'] at hscan
  obtain ⟨rfl, rfl⟩ := Prod.mk.inj (Option.some.inj hscan)
  rw [← (hstops stops_nil).1, ← (hstops' stops_nil).1]

/-- What is read is the longest literal at the front of the text. -/
theorem scan_eq_some_iff {t : Text} {l : Literal} {rest : Text} : scan t = some (l, rest) ↔
    ∃ s : Spelling, t = s.text ++ rest ∧ l = s.literal ∧ Longest s t := by
  constructor
  · intro h
    obtain ⟨s, ht, hl⟩ := exists_spelling h
    refine ⟨s, ht, hl, ⟨rest, ht.symm⟩, ?_⟩
    rintro other ⟨more, hmore⟩
    obtain ⟨l', rest', hscan, hsuffix, -⟩ := scan_append other more
    rw [hmore, h] at hscan
    obtain ⟨rfl, rfl⟩ := Prod.mk.inj (Option.some.inj hscan)
    have hlengths := congrArg List.length (hmore.trans ht)
    have hle := hsuffix.length_le
    rw [List.length_append, List.length_append] at hlengths
    omega
  · rintro ⟨s, rfl, rfl, -, hlongest⟩
    obtain ⟨l, rest', hscan, hsuffix, -⟩ := scan_append s rest
    obtain ⟨other, htext, rfl⟩ := exists_spelling hscan
    have hle := hlongest other ⟨rest', htext.symm⟩
    have hlengths := congrArg List.length htext
    rw [List.length_append, List.length_append] at hlengths
    obtain rfl := hsuffix.eq_of_length_le (by omega)
    rw [hscan, literal_eq_of_text_eq (List.append_cancel_right htext)]

theorem scan_of_stops (s : Spelling) {more : Text} (h : Stops more) :
    scan (s.text ++ more) = some (s.literal, more) := by
  obtain ⟨l, rest, hscan, -, hstops⟩ := scan_append s more
  obtain ⟨rfl, rfl⟩ := hstops h
  exact hscan

theorem Stops.longest {more : Text} (h : Stops more) (s : Spelling) :
    Longest s (s.text ++ more) := by
  obtain ⟨other, htext, -, hlongest⟩ := scan_eq_some_iff.mp (scan_of_stops s h)
  have hsame : s.text = other.text := List.append_cancel_right htext
  unfold Longest at hlongest ⊢
  rwa [← hsame] at hlongest

end Literal
end Numeral
end EntityMachines
