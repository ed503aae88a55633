import EntityMachines.Eval.Comparison
import EntityMachines.Proofs.Numeral.Literals
import EntityMachines.Proofs.Numeral.Nearest
import EntityMachines.Proofs.Text

/-!
The two readings of a text as a number, from its front and as a whole. Main statements: a text that is
a number as a whole is the same one from its front, and a number that no double is near is read on its
side of the range exactly if the mark of a small exponent tells which side that is.
-/
namespace EntityMachines
namespace Numeral

open Float.Model.UnpackedFloat (Sign)
open Double (TooLarge TooSmall)
open Literal (Spelling Exponent Digits Longest Stops scan)

namespace Literal

variable {t more : Text} {b : Byte}

/-- The bytes of which literals are made. -/
def Admitted (b : Byte) : Prop :=
  b.isDigit = true ∨ b = 46 ∨ b = 101 ∨ b = 69 ∨ b = 43 ∨ b = 45

theorem admitted_of_mem_leadText {sign : Option Sign} (h : b ∈ leadText sign) : Admitted b := by
  match sign with
  | some .negative =>
    obtain rfl := List.mem_singleton.mp h
    exact .inr (.inr (.inr (.inr (.inr rfl))))
  | some .positive =>
    obtain rfl := List.mem_singleton.mp h
    exact .inr (.inr (.inr (.inr (.inl rfl))))
  | none => exact absurd h List.not_mem_nil

theorem Exponent.admitted_of_mem_text {x : Exponent} (h : b ∈ x.text) : Admitted b := by
  rcases List.mem_cons.mp h with rfl | h
  · rcases x.mark_or with hmark | hmark
    · exact .inr (.inr (.inl hmark))
    · exact .inr (.inr (.inr (.inl hmark)))
  rcases List.mem_append.mp h with h | h
  · exact admitted_of_mem_leadText h
  · exact .inl (x.digits.property b h)

theorem Spelling.admitted_of_mem_text {s : Spelling} (h : b ∈ s.text) : Admitted b := by
  unfold text at h
  rcases List.mem_append.mp h with h | h
  · exact .inl (s.whole.property b h)
  rcases List.mem_append.mp h with h | h
  · rcases hfraction : s.fraction with _ | d
    · rw [hfraction] at h
      exact absurd h List.not_mem_nil
    · rw [hfraction] at h
      rcases List.mem_cons.mp h with rfl | h
      · exact .inr (.inl rfl)
      · exact .inl (d.property b h)
  · rcases hexponent : s.exponent with _ | x
    · rw [hexponent] at h
      exact absurd h List.not_mem_nil
    · rw [hexponent] at h
      exact x.admitted_of_mem_text h

theorem Admitted.isSpace_eq (h : Admitted b) : b.isSpace = false := by
  rcases h with hdigit | rfl | rfl | rfl | rfl | rfl
  · exact Byte.not_isSpace_of_isDigit hdigit
  all_goals rfl

theorem Admitted.ne_x (h : Admitted b) : b ≠ 120 ∧ b ≠ 88 := by
  constructor <;> rintro rfl <;> rcases h with h | h | h | h | h | h <;> cases h

theorem Spelling.exists_cons (s : Spelling) :
    ∃ b rest, s.text = b :: rest ∧ (b.isDigit = true ∨ b = 46) := by
  have hsome := s.some
  unfold text
  rcases hwhole : s.whole.val with _ | ⟨b, rest⟩
  · rcases hfraction : s.fraction with _ | d
    · rw [hwhole, hfraction] at hsome
      exact absurd rfl hsome
    · exact ⟨46, _, rfl, .inr rfl⟩
  · exact ⟨b, _, rfl, .inl (s.whole.property b (by rw [hwhole]; exact List.mem_cons_self))⟩

/-- A text that begins with a byte is not within one that has this byte nowhere. -/
theorem infix_append_of_not_mem {d : Text} (h : b ∉ t) (more : Text) :
    b :: d <:+: t ++ more ↔ b :: d <:+: more := by
  induction t with
  | nil => rfl
  | cons c rest ih =>
    obtain ⟨hne, hrest⟩ := not_or.mp (mt List.mem_cons.mpr h)
    rw [List.cons_append, List.infix_cons_iff, ih hrest, List.cons_prefix_cons]
    exact or_iff_right fun hfront => hne hfront.1

theorem not_mem_of_digits {d : Text} (h : ∀ b ∈ d, b.isDigit = true) : (101 : Byte) ∉ d := by
  intro hmem
  cases h 101 hmem

theorem not_mem_leadText (sign : Option Sign) : (101 : Byte) ∉ leadText sign := by
  match sign with
  | some .negative | some .positive | none => decide

theorem minus_prefix_iff (sign : Option Sign) (h : ∀ b ∈ t.head?, b ≠ 45) :
    ([45] : Text) <+: leadText sign ++ t ↔ isMinus sign = true := by
  match sign with
  | some .negative => exact iff_of_true (List.prefix_append [45] t) rfl
  | some .positive =>
    refine iff_of_false (fun hminus => ?_) Bool.false_ne_true
    exact absurd (List.cons_prefix_cons.mp hminus).1 (by decide)
  | none =>
    refine iff_of_false ?_ Bool.false_ne_true
    rintro ⟨rest, rfl⟩
    exact h 45 rfl rfl

/-- The mark of a small exponent is in an exponent if it is a lower-case one below zero. -/
theorem Exponent.mark_iff (x : Exponent) (more : Text) : ("e-" : Text) <:+: x.text ++ more ↔
    x.capital = false ∧ isMinus x.sign = true ∨ ("e-" : Text) <:+: more := by
  have hneedle : ("e-" : Text) = [101, 45] := rfl
  have hmark : 101 = x.mark ↔ x.capital = false := by
    unfold mark
    cases x.capital <;> decide
  have hdigit := head?_append_of_ne_nil x.some
    (fun b hb => (not_sign_of_isDigit (x.digits.property b hb)).1) more
  rw [x.text_append, hneedle, List.infix_cons_iff, infix_append_of_not_mem (not_mem_leadText x.sign),
    infix_append_of_not_mem (not_mem_of_digits x.digits.property), List.cons_prefix_cons, hmark,
    minus_prefix_iff x.sign hdigit]

theorem Spelling.mark_iff (s : Spelling) (more : Text) : ("e-" : Text) <:+: s.text ++ more ↔
    (∃ x ∈ s.exponent, x.capital = false ∧ isMinus x.sign = true) ∨ ("e-" : Text) <:+: more := by
  have hfraction : (101 : Byte) ∉ s.fraction.elim [] (fun d => 46 :: d.val) := by
    rcases s.fraction with _ | d
    · exact List.not_mem_nil
    · intro hmem
      rcases List.mem_cons.mp hmem with h | h
      · cases h
      · exact not_mem_of_digits d.property h
  have hneedle : ("e-" : Text) = [101, 45] := rfl
  unfold text
  rw [List.append_assoc, List.append_assoc, hneedle,
    infix_append_of_not_mem (not_mem_of_digits s.whole.property),
    infix_append_of_not_mem hfraction, ← hneedle]
  rcases s.exponent with _ | x
  · exact (or_iff_right (by rintro ⟨x, hx, -⟩; cases hx)).symm
  · rw [Option.elim_some, x.mark_iff]
    simp only [Option.mem_some_iff, exists_eq_left']

end Literal

section readings

variable {before behind : Text} {s : Spelling}

theorem admitted_of_mem_signed (sign : Option Sign) (s : Spelling) :
    ∀ b ∈ leadText sign ++ s.text, Literal.Admitted b := by
  intro b hb
  rcases List.mem_append.mp hb with hb | hb
  · exact Literal.admitted_of_mem_leadText hb
  · exact Literal.Spelling.admitted_of_mem_text hb

theorem text_ne_nil (s : Spelling) : s.text ≠ [] := by
  obtain ⟨b, rest, htext, -⟩ := s.exists_cons
  rw [htext]
  exact List.cons_ne_nil b rest

theorem splitSign_signed (sign : Option Sign) (s : Spelling) (more : Text) :
    splitSign (leadText sign ++ (s.text ++ more)) = (isMinus sign, s.text ++ more) := by
  refine splitSign_leadText sign ?_
  obtain ⟨b, rest, htext, hb⟩ := s.exists_cons
  rw [htext]
  rintro _ ⟨⟩
  rcases hb with hdigit | rfl
  · exact Literal.not_sign_of_isDigit hdigit
  · decide

theorem beginsNumber_text (s : Spelling) (more : Text) : beginsNumber (s.text ++ more) = true := by
  obtain ⟨b, rest, htext, hb⟩ := s.exists_cons
  rw [htext]
  show (b.isDigit || b == 46) = true
  rw [Bool.or_eq_true, beq_iff_eq]
  exact hb

theorem not_infinity (s : Spelling) (more : Text) :
    ¬("Infinity" : Text) <+: s.text ++ more := by
  obtain ⟨b, rest, htext, hb⟩ := s.exists_cons
  rw [htext]
  intro hword
  obtain rfl : 73 = b := (List.cons_prefix_cons.mp hword).1
  rcases hb with hb | hb <;> cases hb

theorem trimStart_signed (hbefore : ∀ b ∈ before, b.isSpace = true) (sign : Option Sign)
    (s : Spelling) (behind : Text) :
    (before ++ (leadText sign ++ (s.text ++ behind))).trimStart
      = leadText sign ++ (s.text ++ behind) := by
  refine Text.trimStart_append hbefore ?_
  rw [← List.append_assoc]
  exact Literal.head?_append_of_ne_nil (List.append_ne_nil_of_right_ne_nil _ (text_ne_nil s))
    (fun b hb => (admitted_of_mem_signed sign s b hb).isSpace_eq) behind

theorem trim_signed (hbefore : ∀ b ∈ before, b.isSpace = true)
    (hbehind : ∀ b ∈ behind, b.isSpace = true) (sign : Option Sign) (s : Spelling) :
    (before ++ (leadText sign ++ (s.text ++ behind))).trim = leadText sign ++ s.text := by
  unfold Text.trim
  rw [trimStart_signed hbefore, ← List.append_assoc]
  refine Text.trimEnd_append hbehind fun b hb => ?_
  exact (admitted_of_mem_signed sign s b (List.mem_of_getLast? hb)).isSpace_eq

/-- The mark of base sixteen has a letter that is in no literal. -/
theorem not_hexadecimal (sign : Option Sign) (s : Spelling) :
    ¬(Text.startsWith (leadText sign ++ s.text) "0x"
      || Text.startsWith (leadText sign ++ s.text) "0X") = true := by
  rw [Bool.or_eq_true, Text.startsWith_iff, Text.startsWith_iff]
  rintro (hmark | hmark)
  · exact (admitted_of_mem_signed sign s 120 (hmark.subset (by decide))).ne_x.1 rfl
  · exact (admitted_of_mem_signed sign s 88 (hmark.subset (by decide))).ne_x.2 rfl

/-- The reading from the front is that of the literal there. -/
theorem ofLeading_eq (hbefore : ∀ b ∈ before, b.isSpace = true) (sign : Option Sign)
    (hscan : scan (s.text ++ behind) = some (s.literal, behind)) :
    ofLeading (before ++ (leadText sign ++ (s.text ++ behind)))
      = signed (isMinus sign) (ofLiteral s.literal (s.text ++ behind)) := by
  unfold ofLeading
  rw [trimStart_signed hbefore, splitSign_signed]
  dsimp only
  rw [if_neg (mt Text.startsWith_iff.mp (not_infinity s behind)), beginsNumber_text, hscan]
  rfl

/-- The reading of a text that is a literal as a whole. -/
theorem ofWhole_eq (hbefore : ∀ b ∈ before, b.isSpace = true)
    (hbehind : ∀ b ∈ behind, b.isSpace = true) (sign : Option Sign) (s : Spelling) :
    ofWhole (before ++ (leadText sign ++ (s.text ++ behind)))
      = signed (isMinus sign) (ofLiteral s.literal s.text) := by
  have hsplit := splitSign_signed sign s []
  have hword := not_infinity s []
  have hbegins := beginsNumber_text s []
  have hscan := Literal.scan_of_stops s Literal.stops_nil
  rw [List.append_nil] at hsplit hword hbegins hscan
  have hne : s.text ≠ "Infinity" := fun heq => hword (heq.symm ▸ List.prefix_rfl)
  have hsome : ¬s.text.isEmpty = true := mt List.isEmpty_iff.mp (text_ne_nil s)
  have hhex := not_hexadecimal sign s
  unfold ofWhole
  rw [trim_signed hbefore hbehind]
  dsimp only
  rw [hsplit]
  dsimp only
  rw [if_neg (mt List.isEmpty_iff.mp (List.append_ne_nil_of_right_ne_nil _ (text_ne_nil s))),
    if_neg hne, if_neg hsome, Bool.eq_false_iff.mpr hhex,
    Bool.and_false, if_neg Bool.false_ne_true, hbegins, hscan]
  rfl

/-- A text that is a number as a whole, and not in base sixteen, is a word for an infinity or a
literal, with a sign that may be left out. -/
theorem exists_of_ofWhole {t : Text} (hnumber : (ofWhole t).isNaN = false) (hsome : t.trim ≠ [])
    (hhex : ¬("0x" <+: t.trim ∨ "0X" <+: t.trim)) :
    ∃ sign, (t.trim = leadText sign ++ "Infinity" ∧
        ofWhole t = signed (isMinus sign) Double.infinity) ∨
      ∃ s : Spelling, t.trim = leadText sign ++ s.text := by
  have hnan : ¬Double.nan.isNaN = false := by decide
  obtain ⟨sign, htrim, hminus⟩ := exists_leadText t.trim
  have hsplit : splitSign t.trim = (isMinus sign, (splitSign t.trim).2) := Prod.ext hminus rfl
  have hbase : ¬(t.trim.startsWith "0x" || t.trim.startsWith "0X") = true := by
    rwa [Bool.or_eq_true, Text.startsWith_iff, Text.startsWith_iff]
  refine ⟨sign, ?_⟩
  unfold ofWhole at hnumber ⊢
  dsimp only at hnumber ⊢
  rw [if_neg (mt List.isEmpty_iff.mp hsome), hsplit] at hnumber ⊢
  dsimp only at hnumber ⊢
  rw [Bool.eq_false_iff.mpr hbase, Bool.and_false] at hnumber ⊢
  generalize (splitSign t.trim).2 = body at htrim hnumber ⊢
  by_cases hword : body = "Infinity"
  · exact .inl ⟨htrim.trans (by rw [hword]), if_pos hword⟩
  · rw [if_neg hword] at hnumber
    split at hnumber
    next => exact absurd hnumber hnan
    rw [if_neg Bool.false_ne_true] at hnumber
    split at hnumber
    next => exact absurd hnumber hnan
    split at hnumber
    next l hscan =>
      obtain ⟨s, hbody, -⟩ := Literal.exists_spelling hscan
      exact .inr ⟨s, by rw [htrim, hbody, List.append_nil]⟩
    next => exact absurd hnumber hnan

end readings

section blanks

variable {t behind : Text}

theorem stops_of_blanks (h : ∀ b ∈ behind, b.isSpace = true) : Stops behind := by
  intro b hb
  have hspace := h b (List.mem_of_mem_head? hb)
  have hnot : ¬Literal.Admitted b := fun hadmitted => by
    rw [hadmitted.isSpace_eq] at hspace
    cases hspace
  unfold Literal.Admitted at hnot
  rw [← Bool.not_eq_true]
  tauto

theorem not_marked_of_blanks (h : ∀ b ∈ behind, b.isSpace = true) :
    ¬("e-" : Text) <:+: behind := by
  intro hmark
  cases h 101 (hmark.subset (by decide))

/-- Blanks behind a literal do not change what is read. -/
theorem ofLiteral_append (h : ∀ b ∈ behind, b.isSpace = true) (s : Spelling) :
    ofLiteral s.literal (s.text ++ behind) = ofLiteral s.literal s.text := by
  have hmark : (s.text ++ behind).contains "e-" = s.text.contains "e-" := by
    have hnothing := s.mark_iff []
    rw [List.append_nil] at hnothing
    rw [Bool.eq_iff_iff, Text.contains_iff, Text.contains_iff, s.mark_iff, hnothing]
    exact or_congr Iff.rfl (iff_of_false (not_marked_of_blanks h) (by decide))
  unfold ofLiteral
  rw [hmark]

/-- A text that is a number as a whole is the same number from its front. -/
theorem ofLeading_eq_ofWhole (hnumber : (ofWhole t).isNaN = false) (hsome : t.trim ≠ [])
    (hhex : ¬("0x" <+: t.trim ∨ "0X" <+: t.trim)) : ofLeading t = ofWhole t := by
  obtain ⟨behind, hbehind, hstart⟩ := Text.exists_trimStart_eq t
  obtain ⟨sign, ⟨htrim, hvalue⟩ | ⟨s, htrim⟩⟩ := exists_of_ofWhole hnumber hsome hhex
  · have hsplit : splitSign (leadText sign ++ ("Infinity" ++ behind))
        = (isMinus sign, ("Infinity" : Text) ++ behind) :=
      splitSign_leadText sign (by rintro _ ⟨⟩; decide)
    rw [htrim, List.append_assoc] at hstart
    rw [hvalue]
    unfold ofLeading
    rw [hstart, hsplit]
    exact if_pos (Text.startsWith_iff.mpr (List.prefix_append _ _))
  · let before := t.takeWhile Byte.isSpace
    have hbefore : ∀ b ∈ before, b.isSpace = true := fun b hb => List.mem_takeWhile_imp hb
    have ht : t = before ++ (leadText sign ++ (s.text ++ behind)) := by
      rw [← List.append_assoc (leadText sign), ← htrim, ← hstart]
      exact List.takeWhile_append_dropWhile.symm
    rw [ht, ofLeading_eq hbefore sign (Literal.scan_of_stops s (stops_of_blanks hbehind)),
      ofWhole_eq hbefore hbehind, ofLiteral_append hbehind]

end blanks

/-- Comparisons read texts as a whole and sums read their fronts, but both find the same number in a
text that is one. -/
theorem readings_agree {t : Text} (hnumber : (ofWhole t).isNaN = false) (hsome : t.trim ≠ [])
    (hhex : ¬("0x" <+: t.trim ∨ "0X" <+: t.trim)) :
    ofLeading t = ofWhole t ∧
    (Value.string t).toNumber = (Value.string t).comparable.comparableNumber ∧
    ∀ v : Value, (∀ s, v.comparable ≠ .string s) →
      (Value.string t).comparable.compare? v.comparable
        = (Value.number (Value.string t).toNumber).comparable.compare? v.comparable ∧
      v.comparable.compare? (Value.string t).comparable
        = v.comparable.compare? (Value.number (Value.string t).toNumber).comparable := by
  have hsame := ofLeading_eq_ofWhole hnumber hsome hhex
  have hsum : (Value.string t).toNumber = ofWhole t := by
    unfold Value.toNumber
    dsimp only
    rw [hsame, hnumber, if_neg Bool.false_ne_true]
  refine ⟨hsame, hsum, fun v hv => ?_⟩
  rw [hsum]
  cases hcomparable : v.comparable with
  | string s => exact absurd hcomparable (hv s)
  | _ => exact ⟨rfl, rfl⟩

/-- A sign, a point and an exponent, with blanks around them. -/
theorem thousandths_agree : (ofWhole " -12.50e-3\n").isNaN = false ∧
    ofLeading " -12.50e-3\n" = ofWhole " -12.50e-3\n" ∧
    (Value.string " -12.50e-3\n").comparable.compare? (Value.bool false).comparable
      = (Value.number (Value.string " -12.50e-3\n").toNumber).comparable.compare?
        (Value.bool false).comparable := by
  have hnumber : (ofWhole " -12.50e-3\n").isNaN = false := by decide +kernel
  obtain ⟨hsame, -, hcompare⟩ := readings_agree hnumber (by decide) (by decide)
  exact ⟨hnumber, hsame, (hcompare (.bool false) (fun _ h => nomatch h)).1⟩

/-- Blanks, a sign that may be left out, a literal as far as it goes, and what is behind it. -/
structure Entry where
  before : Text
  blank : ∀ b ∈ before, b.isSpace = true
  sign : Option Sign
  spelling : Spelling
  behind : Text
  longest : Longest spelling (spelling.text ++ behind)

/-- An infinity stands for numbers that are too large, and zero for none of them. -/
structure OnItsSide (q : ℚ) (x : Float) : Prop where
  infinite : x.isInf = true → TooLarge q
  zero : TooLarge q → (x == 0.0) = false
  fraction : |q| < 1 → x.isInf = false

namespace Entry

def text (w : Entry) : Text := w.before ++ (leadText w.sign ++ (w.spelling.text ++ w.behind))

def value (w : Entry) : ℚ := if isMinus w.sign then -w.spelling.value else w.spelling.value

/-- A lower-case exponent below zero, or what looks like one further behind. -/
def Marked (w : Entry) : Prop :=
  (∃ x ∈ w.spelling.exponent, x.capital = false ∧ isMinus x.sign = true) ∨
    ("e-" : Text) <:+: w.behind

end Entry

theorem toRat?_signed {x : Float} {q : ℚ} (hx : Double.toRat? x = some q) (negative : Bool) :
    Double.toRat? (signed negative x) = some (if negative then -q else q) := by
  cases negative
  · exact hx
  · exact Double.toRat?_neg hx

/-- What is read for a literal: it is infinite or zero only beyond the doubles, and there the mark of
a small exponent tells which. -/
theorem signed_ofLiteral (negative : Bool) (l : Literal) (text : Text) :
    ((signed negative (ofLiteral l text)).isInf = true ↔
      (TooLarge l.toRat ∨ TooSmall l.toRat) ∧ ¬("e-" : Text) <:+: text) ∧
    ((signed negative (ofLiteral l text) == 0.0) = true ↔
      l.toRat = 0 ∨ (TooLarge l.toRat ∨ TooSmall l.toRat) ∧ ("e-" : Text) <:+: text) := by
  unfold ofLiteral
  by_cases hrange : l.outOfRange = true
  · have hout := l.outOfRange_iff.mp hrange
    have hsome : l.toRat ≠ 0 := by
      rcases hout with hlarge | hsmall
      · exact abs_pos.mp (one_pos.trans_le hlarge.one_le)
      · exact hsmall.1
    rw [if_pos hrange]
    by_cases hmark : text.contains "e-" = true
    · rw [if_pos hmark]
      rw [Text.contains_iff] at hmark
      refine ⟨iff_of_false ?_ fun h => h.2 hmark, iff_of_true ?_ (.inr ⟨hout, hmark⟩)⟩ <;>
        cases negative <;> decide
    · rw [if_neg hmark]
      rw [Text.contains_iff] at hmark
      refine ⟨iff_of_true ?_ ⟨hout, hmark⟩, iff_of_false ?_ ?_⟩
      · cases negative <;> decide
      · cases negative <;> decide
      · exact not_or.mpr ⟨hsome, fun h => hmark h.2⟩
  · have hout := mt l.outOfRange_iff.mpr hrange
    obtain ⟨hlarge, hsmall⟩ := not_or.mp hout
    obtain ⟨q, hq, hzero⟩ := l.limited_toFloat.exists_toRat?
      (not_le.mp (mt (Double.tooLarge_iff l.toRat_nonneg).mpr hlarge))
    have hx := toRat?_signed hq negative
    rw [if_neg hrange]
    refine ⟨iff_of_false ?_ fun h => hout h.1, ?_⟩
    · rw [(Float.not_special_of_isFinite (Double.isFinite_of_toRat? hx)).2]
      exact Bool.false_ne_true
    · rw [Double.beq_iff hx Double.toRat?_zero, or_iff_left fun h => hout h.1]
      have hsign : (if negative then -q else q) = 0 ↔ q = 0 := by
        cases negative
        · rfl
        · exact neg_eq_zero
      rw [hsign, hzero]
      refine ⟨fun hle => not_not.mp fun hne => hsmall ?_, fun heq => ?_⟩
      · exact (Double.tooSmall_iff l.toRat_nonneg).mpr ⟨hne, hle⟩
      · rw [heq]
        exact Rounding.scaled_nonneg 1 (-1075)

theorem onItsSide_of {q : ℚ} {x : Float} {marked : Prop}
    (hinfinite : x.isInf = true ↔ (TooLarge q ∨ TooSmall q) ∧ ¬marked)
    (hzero : (x == 0.0) = true ↔ q = 0 ∨ (TooLarge q ∨ TooSmall q) ∧ marked) :
    OnItsSide q x ↔ (TooLarge q → ¬marked) ∧ (TooSmall q → marked) := by
  have hapart (hlarge : TooLarge q) : ¬TooSmall q := fun hsmall =>
    hsmall.lt_one.not_ge hlarge.one_le
  constructor
  · rintro ⟨hright, hnonzero, -⟩
    refine ⟨fun hlarge hmarked => ?_, fun hsmall => by_contra fun hmarked => ?_⟩
    · rw [hzero.mpr (.inr ⟨.inl hlarge, hmarked⟩)] at hnonzero
      cases hnonzero hlarge
    · exact hapart (hright (hinfinite.mpr ⟨.inr hsmall, hmarked⟩)) hsmall
  · rintro ⟨hlarge, hsmall⟩
    have hright : x.isInf = true → TooLarge q := fun hx =>
      (hinfinite.mp hx).1.resolve_right fun h => (hinfinite.mp hx).2 (hsmall h)
    refine ⟨hright, fun h => ?_, fun h => ?_⟩
    · rw [Bool.eq_false_iff, ne_eq, hzero]
      rintro (rfl | ⟨-, hmarked⟩)
      · exact absurd (h.one_le.trans_eq abs_zero) (by norm_num)
      · exact hlarge h hmarked
    · exact Bool.eq_false_iff.mpr fun hx => h.not_ge (hright hx).one_le

namespace Entry

theorem ofLeading_text (w : Entry) : ofLeading w.text
    = signed (isMinus w.sign) (ofLiteral w.spelling.literal (w.spelling.text ++ w.behind)) :=
  ofLeading_eq w.blank w.sign
    (Literal.scan_eq_some_iff.mpr ⟨w.spelling, rfl, rfl, w.longest⟩)

theorem ofWhole_text (w : Entry) (h : ∀ b ∈ w.behind, b.isSpace = true) :
    ofWhole w.text = ofLeading w.text := by
  rw [w.ofLeading_text, ofLiteral_append h]
  exact ofWhole_eq w.blank h w.sign w.spelling

theorem onItsSide_ofLeading (w : Entry) : OnItsSide w.value (ofLeading w.text) ↔
    (TooLarge w.value → ¬w.Marked) ∧ (TooSmall w.value → w.Marked) := by
  obtain ⟨hinfinite, hzero⟩ := signed_ofLiteral (isMinus w.sign) w.spelling.literal
    (w.spelling.text ++ w.behind)
  have hmark : ("e-" : Text) <:+: w.spelling.text ++ w.behind ↔ w.Marked :=
    w.spelling.mark_iff w.behind
  have hsame : (TooLarge w.value ↔ TooLarge w.spelling.literal.toRat) ∧
      (TooSmall w.value ↔ TooSmall w.spelling.literal.toRat) ∧
      (w.value = 0 ↔ w.spelling.literal.toRat = 0) := by
    rw [w.spelling.toRat_literal]
    unfold value
    split
    · exact ⟨Double.tooLarge_neg _, Double.tooSmall_neg _, neg_eq_zero⟩
    · exact ⟨Iff.rfl, Iff.rfl, Iff.rfl⟩
  obtain ⟨hlarge, hsmall, hnothing⟩ := hsame
  rw [← hlarge, ← hsmall, hmark, ← w.ofLeading_text] at hinfinite
  rw [← hlarge, ← hsmall, hmark, ← hnothing, ← w.ofLeading_text] at hzero
  exact onItsSide_of hinfinite hzero

end Entry

/-- A number that no double is near is read on its side of the range exactly if one that is too
large has no mark of a small exponent with it, and one that is too small has. -/
theorem on_its_side_iff (w : Entry) :
    (OnItsSide w.value (ofLeading w.text) ↔
      (TooLarge w.value → ¬w.Marked) ∧ (TooSmall w.value → w.Marked)) ∧
    ((∀ b ∈ w.behind, b.isSpace = true) →
      (OnItsSide w.value (ofWhole w.text) ↔
        (TooLarge w.value → ¬w.Marked) ∧ (TooSmall w.value → w.Marked))) := by
  refine ⟨w.onItsSide_ofLeading, fun h => ?_⟩
  rw [w.ofWhole_text h]
  exact w.onItsSide_ofLeading

/-- Too large, with a blank behind it. -/
theorem large_on_its_side : ∃ w : Entry, w.text = "-2.5e400 " ∧
    (∀ b ∈ w.behind, b.isSpace = true) ∧ TooLarge w.value ∧
    OnItsSide w.value (ofLeading w.text) ∧ OnItsSide w.value (ofWhole w.text) := by
  let s : Spelling := {
    whole := ⟨"2", List.all_eq_true.mp rfl⟩
    fraction := some ⟨"5", List.all_eq_true.mp rfl⟩
    exponent := some ⟨false, none, ⟨"400", List.all_eq_true.mp rfl⟩, by decide⟩
    some := by decide }
  have hblank : ∀ b ∈ (" " : Text), b.isSpace = true := List.all_eq_true.mp rfl
  let w : Entry := ⟨[], nofun, some .negative, s, " ", (stops_of_blanks hblank).longest s⟩
  have hlarge : TooLarge w.value := by
    have hinfinite : s.literal.toFloat.isInf = true := by
      rw [show s.literal = ⟨25, 399⟩ from rfl]
      decide +kernel
    refine (Double.tooLarge_neg s.value).mpr ?_
    rw [← s.toRat_literal]
    exact (Double.tooLarge_iff s.literal.toRat_nonneg).mpr
      (s.literal.limited_toFloat.infinite.mp hinfinite)
  have hmarked : ¬w.Marked := by
    rintro (⟨x, hx, -, hminus⟩ | hmark)
    · obtain rfl := Option.some.inj hx
      cases hminus
    · exact not_marked_of_blanks hblank hmark
  have hcondition : (TooLarge w.value → ¬w.Marked) ∧ (TooSmall w.value → w.Marked) :=
    ⟨fun _ => hmarked, fun hsmall => absurd hlarge.one_le hsmall.lt_one.not_ge⟩
  obtain ⟨hleading, hwhole⟩ := on_its_side_iff w
  exact ⟨w, rfl, hblank, hlarge, hleading.mpr hcondition, (hwhole hblank).mpr hcondition⟩

/-- A number of less than one is read as infinite, as its exponent has a capital letter. -/
theorem capital_exponent_infinite : ∃ w : Entry, w.text = "1E-400" ∧ |w.value| < 1 ∧
    (ofLeading "1E-400").isInf = true ∧ (ofWhole "1E-400").isInf = true ∧
    ¬OnItsSide w.value (ofLeading w.text) ∧ ¬OnItsSide w.value (ofWhole w.text) := by
  let s : Spelling := {
    whole := ⟨"1", List.all_eq_true.mp rfl⟩
    fraction := none
    exponent := some ⟨true, some .negative, ⟨"400", List.all_eq_true.mp rfl⟩, by decide⟩
    some := by decide }
  let w : Entry := ⟨[], nofun, none, s, [], Literal.stops_nil.longest s⟩
  have htext : w.text = "1E-400" := rfl
  have hvalue : |w.value| < 1 := by
    have hzero : (s.literal.toFloat == 0.0) = true := by
      rw [show s.literal = ⟨1, -400⟩ from rfl]
      decide +kernel
    have hsmall := s.literal.limited_toFloat.zero.mp hzero
    show |s.value| < 1
    rw [← s.toRat_literal, abs_of_nonneg s.literal.toRat_nonneg]
    have hone : Rounding.scaled 1 0 = 1 := (Double.scaled_of_whole 1).trans Nat.cast_one
    exact hsmall.trans_lt ((Rounding.scaled_one_lt (by decide)).trans_eq hone)
  have hleading : (ofLeading "1E-400").isInf = true := by decide +kernel
  have hwhole : (ofWhole "1E-400").isInf = true := by decide +kernel
  refine ⟨w, htext, hvalue, hleading, hwhole, fun h => ?_, fun h => ?_⟩
  · have hfinite := h.fraction hvalue
    rw [htext, hleading] at hfinite
    cases hfinite
  · have hfinite := h.fraction hvalue
    rw [htext, hwhole] at hfinite
    cases hfinite

end Numeral
end EntityMachines
