import EntityMachines.Calendar.Parse
import EntityMachines.Proofs.Calendar.Dates
import EntityMachines.Proofs.Numeral.Spelling
import EntityMachines.Proofs.Text
import Mathlib.Data.List.TakeWhile

/-!
Written dates and times of day. A stamp has the digits that stand in a text for each field, with all
that may be left out; whatever is read as a time is the text of a stamp, and is read as the fields
that the stamp has. Main statement: each stamp is read as its fields, moved by its zone, if they are
in range, and what is read is a stamp.
-/
namespace EntityMachines
namespace Calendar

open Numeral (Literal)

/-- Decimal digits, as many as a field has. -/
structure Figures (count : ℕ) where
  text : Text
  length : text.length = count
  digits : ∀ b ∈ text, b.isDigit = true

def Figures.value {count : ℕ} (d : Figures count) : ℕ := Literal.ofDigits 0 d.text

/-- Digits behind the point of a second. -/
structure Fraction where
  text : Text
  some : text ≠ []
  digits : ∀ b ∈ text, b.isDigit = true

/-- A second with the fraction that may be written behind it. -/
structure Seconds where
  second : Figures 2
  fraction : Option Fraction

/-- A time of day behind a blank or the letter that stands there. -/
structure Clock where
  spaced : Bool
  hour : Figures 2
  minute : Figures 2
  seconds : Option Seconds

inductive Zone where
  | universal
  | shifted (east : Bool) (hours : Figures 2) (colon : Bool) (minutes : Figures 2)

abbrev Blanks : Type := { t : Text // ∀ b ∈ t, b.isSpace = true }

/-- A date as it is written, with what may stand behind it. -/
structure Stamp where
  before : Blanks
  year : Figures 4
  month : Figures 2
  day : Figures 2
  clock : Option Clock
  zone : Option (Blanks × Zone)
  after : Blanks

/-! The text of each part in front of what follows. -/

def Fraction.onto (f : Fraction) (rest : Text) : Text := 46 :: (f.text ++ rest)

def Seconds.onto (s : Seconds) (rest : Text) : Text :=
  58 :: (s.second.text ++ s.fraction.elim rest (·.onto rest))

def Clock.onto (c : Clock) (rest : Text) : Text :=
  (if c.spaced then 32 else 84) ::
    (c.hour.text ++ 58 :: (c.minute.text ++ c.seconds.elim rest (·.onto rest)))

def Zone.onto (z : Zone) (rest : Text) : Text :=
  match z with
  | .universal => 90 :: rest
  | .shifted east hours colon minutes =>
    (if east then 43 else 45) ::
      (hours.text ++ ((if colon then [58] else []) ++ (minutes.text ++ rest)))

namespace Stamp

/-- The zone and the blanks around it. -/
def tail (s : Stamp) : Text :=
  s.zone.elim s.after.val fun z => z.1.val ++ z.2.onto s.after.val

def text (s : Stamp) : Text :=
  s.before.val ++ (s.year.text ++ 45 :: (s.month.text ++ 45 ::
    (s.day.text ++ s.clock.elim s.tail (·.onto s.tail))))

end Stamp

/-! What each part stands for; a part that is left out stands for zero. -/

/-- Whole milliseconds. -/
def Fraction.millis (f : Fraction) : ℕ := Literal.ofDigits 0 f.text * 1000 / 10 ^ f.text.length

def Seconds.millis (s : Seconds) : ℕ := s.fraction.elim 0 Fraction.millis

def Clock.second (c : Clock) : ℕ := c.seconds.elim 0 (·.second.value)

def Clock.millis (c : Clock) : ℕ := c.seconds.elim 0 Seconds.millis

def Zone.millis : Zone → ℤ
  | .universal => 0
  | .shifted east hours _ minutes =>
    let distance : ℤ := hours.value * msPerHour + minutes.value * msPerMinute
    if east then distance else -distance

namespace Stamp

def hour (s : Stamp) : ℕ := s.clock.elim 0 (·.hour.value)

def minute (s : Stamp) : ℕ := s.clock.elim 0 (·.minute.value)

def second (s : Stamp) : ℕ := s.clock.elim 0 Clock.second

def millisecond (s : Stamp) : ℕ := s.clock.elim 0 Clock.millis

/-- The digits behind the point of the second. -/
def fractionText (s : Stamp) : Text :=
  ((s.clock.bind Clock.seconds).bind Seconds.fraction).elim [] Fraction.text

def fields (s : Stamp) : Fields :=
  { year := s.year.value
    month := s.month.value
    day := s.day.value
    hour := s.hour
    minute := s.minute
    second := s.second
    millisecond := s.millisecond }

/-- The milliseconds by which its zone is ahead of universal time. -/
def offset (s : Stamp) : ℤ := s.zone.elim 0 (·.2.millis)

/-- There is no zone, or the one of universal time. -/
def IsUniversal (s : Stamp) : Prop := ∀ z ∈ s.zone, z.2 = .universal

theorem IsUniversal.offset_eq_zero {s : Stamp} (h : s.IsUniversal) : s.offset = 0 := by
  unfold Stamp.offset
  cases hzone : s.zone with
  | none => rfl
  | some z =>
    show z.2.millis = 0
    rw [h z hzone]
    rfl

/-- The fields are those of a date and a time of day, of which the hour may be one too late. -/
structure InRange (s : Stamp) : Prop where
  date : s.fields.toDate.Valid
  hour : s.fields.hour ≤ 24
  minute : s.fields.minute ≤ 59
  second : s.fields.second ≤ 59

end Stamp

/-! Digits. -/

section digits

variable {count n : ℕ} {t rest : Text}

theorem Figures.value_lt (d : Figures count) : d.value < 10 ^ count := by
  have hlt := Literal.ofDigits_lt d.digits
  rwa [d.length] at hlt

theorem Figures.exists_cons (d : Figures (count + 1)) :
    ∃ b more, d.text = b :: more ∧ b.isDigit = true := by
  have hsome : 0 < d.text.length := d.length.symm ▸ count.succ_pos
  obtain ⟨b, more, htext⟩ := List.exists_cons_of_length_pos hsome
  exact ⟨b, more, htext, d.digits b (htext ▸ List.mem_cons_self)⟩

theorem digits_append (d : Figures count) (rest : Text) :
    digits count (d.text ++ rest) = some (d.value, rest) := by
  have htake : (d.text ++ rest).take count = d.text := List.take_left' d.length
  have hdrop : (d.text ++ rest).drop count = rest := List.drop_left' d.length
  unfold digits
  rw [htake, hdrop]
  exact if_pos ⟨d.length, List.all_eq_true.mpr d.digits⟩

theorem exists_figures (h : digits count t = some (n, rest)) :
    ∃ d : Figures count, t = d.text ++ rest := by
  unfold digits at h
  dsimp only at h
  split at h
  next hread =>
    cases h
    exact ⟨⟨t.take count, hread.1, List.all_eq_true.mp hread.2⟩, (List.take_append_drop ..).symm⟩
  next => cases h

theorem digits_eq_none (h : ∀ b ∈ t.head?, b.isDigit = false) : digits (count + 1) t = none := by
  rcases hread : digits (count + 1) t with _ | ⟨n, rest⟩
  · rfl
  · obtain ⟨d, rfl⟩ := exists_figures hread
    obtain ⟨b, more, htext, hdigit⟩ := d.exists_cons
    rw [h b (by rw [htext]; rfl)] at hdigit
    cases hdigit

end digits

/-! A fraction of a second, of which three digits count. -/

theorem Fraction.millis_eq (f : Fraction) :
    Literal.ofDigits 0 (f.text.take 3) * Nat.pow 10 (3 - (f.text.take 3).length) = f.millis := by
  unfold Fraction.millis
  rw [List.length_take]
  rcases le_total f.text.length 3 with hshort | hlong
  · have hthousand : 1000 = 10 ^ (3 - f.text.length) * 10 ^ f.text.length := by
      rw [← pow_add, Nat.sub_add_cancel hshort]
      rfl
    rw [List.take_of_length_le hshort, min_eq_right hshort, hthousand, ← Nat.mul_assoc,
      Nat.mul_div_cancel _ (by positivity)]
    rfl
  · have hpower : 10 ^ f.text.length = 1000 * 10 ^ (f.text.drop 3).length := by
      rw [List.length_drop, show 1000 = 10 ^ 3 from rfl, ← pow_add, Nat.add_sub_cancel' hlong]
    have hvalue : Literal.ofDigits 0 f.text = 10 ^ (f.text.drop 3).length
        * Literal.ofDigits 0 (f.text.take 3) + Literal.ofDigits 0 (f.text.drop 3) := by
      rw [Nat.mul_comm, ← Literal.ofDigits_eq_add, ← Literal.ofDigits_append,
        List.take_append_drop]
    have hdropped := Literal.ofDigits_lt fun b hb => f.digits b (List.mem_of_mem_drop (i := 3) hb)
    rw [min_eq_left hlong, hpower, Nat.mul_comm _ 1000, Nat.mul_div_mul_left _ _ (by decide),
      hvalue, Nat.mul_add_div (by positivity), Nat.div_eq_of_lt hdropped]
    exact Nat.mul_one _

/-! What may stand behind a time of day begins with none of its marks. -/

/-- Blanks and then a zone, or nothing. -/
def Closing (t : Text) : Prop := ∀ b ∈ t.trimStart.head?, b = 90 ∨ b = 43 ∨ b = 45

section closing

variable {rest : Text}

theorem trimStart_blanks (blanks : Blanks) (t : Text) :
    Text.trimStart (blanks.val ++ t) = t.trimStart := List.dropWhile_append_of_pos blanks.property

theorem trimStart_eq_nil (blanks : Blanks) : Text.trimStart blanks.val = [] :=
  List.dropWhile_eq_nil_iff.mpr blanks.property

theorem Zone.exists_onto_eq_cons (z : Zone) (rest : Text) :
    ∃ b more, z.onto rest = b :: more ∧ (b = 90 ∨ b = 43 ∨ b = 45) := by
  cases z with
  | universal => exact ⟨90, rest, rfl, .inl rfl⟩
  | shifted east hours colon minutes =>
    refine ⟨_, _, rfl, ?_⟩
    cases east
    · exact .inr (.inr rfl)
    · exact .inr (.inl rfl)

theorem Zone.trimStart_onto (z : Zone) (rest : Text) : (z.onto rest).trimStart = z.onto rest := by
  obtain ⟨b, more, htext, hb⟩ := z.exists_onto_eq_cons rest
  rw [htext]
  rcases hb with rfl | rfl | rfl <;> rfl

theorem Stamp.closing_tail (s : Stamp) : Closing s.tail := by
  unfold Closing Stamp.tail
  cases s.zone with
  | none =>
    rw [Option.elim_none, trimStart_eq_nil]
    exact fun b hb => by cases hb
  | some z =>
    obtain ⟨b, more, htext, hmark⟩ := z.2.exists_onto_eq_cons s.after.val
    rw [Option.elim_some, trimStart_blanks, Zone.trimStart_onto, htext]
    intro c hc
    rwa [Option.some.inj hc] at hmark

/-- What closes a stamp begins with a blank, behind which it is closed as well, or with a zone. -/
theorem Closing.cases {b : Byte} (h : Closing (b :: rest)) :
    b.isSpace = true ∧ Closing rest ∨ b = 90 ∨ b = 43 ∨ b = 45 := by
  unfold Closing Text.trimStart at h
  rw [List.dropWhile_cons] at h
  split at h
  next hblank => exact .inl ⟨hblank, h⟩
  next => exact .inr (h b rfl)

theorem Closing.head (h : Closing rest) :
    ∀ b ∈ rest.head?, b.isDigit = false ∧ b ≠ 46 ∧ b ≠ 58 := by
  intro b hb
  obtain ⟨more, rfl⟩ := List.head?_eq_some_iff.mp hb
  rcases h.cases with ⟨hblank, -⟩ | rfl | rfl | rfl
  · simp [Byte.isSpace, UInt8.le_iff_toNat_le, ← UInt8.toNat_inj] at hblank
    simp [Byte.isDigit, UInt8.le_iff_toNat_le, ← UInt8.toNat_inj]
    omega
  · decide
  · decide
  · decide

end closing

/-! The readers of the parts. -/

section readers

variable {t rest : Text} {allowed : List Char} {b : Byte} {c : Char}

theorem mark_cons (h : c ∈ allowed) (rest : Text) :
    mark allowed (c.toUInt8 :: rest) = some (c.toUInt8, rest) :=
  if_pos (List.any_eq_true.mpr ⟨c, h, beq_self_eq_true c.toUInt8⟩)

theorem exists_mark (h : mark allowed t = some (b, rest)) :
    ∃ c ∈ allowed, b = c.toUInt8 ∧ t = b :: rest := by
  cases t with
  | nil => cases h
  | cons first more =>
    have hread : (if (allowed.any fun c => first == c.toUInt8) = true then some (first, more)
        else none) = some (b, rest) := h
    split at hread
    next hmark =>
      cases hread
      obtain ⟨c, hc, heq⟩ := List.any_eq_true.mp hmark
      exact ⟨c, hc, beq_iff_eq.mp heq, rfl⟩
    next => cases hread

theorem mark_colon (rest : Text) : mark [':'] (58 :: rest) = some (58, rest) :=
  mark_cons (List.mem_singleton_self ':') rest

theorem mark_dash (rest : Text) : mark ['-'] (45 :: rest) = some (45, rest) :=
  mark_cons (List.mem_singleton_self '-') rest

theorem eq_of_mark (h : mark [c] t = some (b, rest)) : b = c.toUInt8 ∧ t = c.toUInt8 :: rest := by
  obtain ⟨c', hc, rfl, rfl⟩ := exists_mark h
  obtain rfl := List.mem_singleton.mp hc
  exact ⟨rfl, rfl⟩

theorem mark_eq_none (h : ∀ b ∈ t.head?, ∀ c ∈ allowed, b ≠ c.toUInt8) : mark allowed t = none := by
  rcases hread : mark allowed t with _ | ⟨b, rest⟩
  · rfl
  · obtain ⟨c, hc, heq, rfl⟩ := exists_mark hread
    exact absurd heq (h _ rfl c hc)

theorem fraction_onto (f : Option Fraction) (h : Closing rest) :
    fraction (f.elim rest (·.onto rest)) = (f.elim 0 Fraction.millis, rest) := by
  cases f with
  | none =>
    have hmark : mark ['.'] rest = none := mark_eq_none fun b hb =>
      List.forall_mem_singleton.mpr (h.head b hb).2.1
    unfold fraction
    rw [Option.elim_none, hmark]
    rfl
  | some f =>
    have hrest : ∀ b ∈ rest.head?, b.isDigit = false := fun b hb => (h.head b hb).1
    obtain ⟨htake, hdrop⟩ := Reader.span_append f.digits hrest
    have hsome : f.text.isEmpty = false := List.isEmpty_eq_false_iff.mpr f.some
    have hmark : mark ['.'] (f.onto rest) = some (46, f.text ++ rest) :=
      mark_cons (List.mem_singleton_self '.') _
    unfold fraction
    rw [Option.elim_some, hmark]
    dsimp only
    rw [htake, hdrop, hsome, if_neg Bool.false_ne_true, Option.elim_some, ← Fraction.millis_eq]
    rfl

theorem exists_fraction (t : Text) :
    ∃ f : Option Fraction, t = f.elim (fraction t).2 (·.onto (fraction t).2) := by
  unfold fraction
  split
  next b rest hmark =>
    obtain ⟨rfl, rfl⟩ := eq_of_mark hmark
    dsimp only
    split
    next => exact ⟨none, rfl⟩
    next hsome =>
      refine ⟨some ⟨rest.takeWhile Byte.isDigit, by simpa using hsome, fun b hb =>
        List.mem_takeWhile_imp hb⟩, ?_⟩
      exact congrArg (46 :: ·) List.takeWhile_append_dropWhile.symm
  next => exact ⟨none, rfl⟩

theorem seconds_onto (s : Option Seconds) (h : Closing rest) :
    seconds (s.elim rest (·.onto rest))
      = (s.elim 0 (·.second.value), s.elim 0 Seconds.millis, rest) := by
  cases s with
  | none =>
    have hmark : mark [':'] rest = none := mark_eq_none fun b hb =>
      List.forall_mem_singleton.mpr (h.head b hb).2.2
    unfold seconds
    rw [Option.elim_none, hmark]
    rfl
  | some s =>
    unfold seconds
    simp only [Option.elim_some, Seconds.onto, mark_colon, digits_append, fraction_onto s.fraction h,
      Option.bind_eq_bind, Option.bind_some]
    rfl

theorem exists_seconds (t : Text) :
    ∃ s : Option Seconds, t = s.elim (seconds t).2.2 (·.onto (seconds t).2.2) := by
  unfold seconds
  dsimp only
  split
  next s rest hfound =>
    obtain ⟨⟨b, more⟩, hmark, hdigits⟩ := Option.bind_eq_some_iff.mp hfound
    obtain ⟨rfl, rfl⟩ := eq_of_mark hmark
    obtain ⟨d, rfl⟩ := exists_figures hdigits
    obtain ⟨f, hf⟩ := exists_fraction rest
    exact ⟨some ⟨d, f⟩, congrArg (fun t => 58 :: (d.text ++ t)) hf⟩
  next => exact ⟨none, rfl⟩

/-- A blank may stand in front of a time of day and in front of a zone. -/
theorem timeOfDay_closing (h : Closing rest) : timeOfDay rest = none := by
  unfold timeOfDay
  rcases hmark : mark ['T', ' '] rest with _ | ⟨b, more⟩
  · rfl
  · obtain ⟨c, hc, rfl, rfl⟩ := exists_mark hmark
    have hmore : Closing more := by
      rcases List.mem_pair.mp hc with rfl | rfl
      · exact (h.cases.resolve_right (by decide)).2
      · exact (h.cases.resolve_right (by decide)).2
    have hnone : digits 2 more = none :=
      digits_eq_none fun b hb => (hmore.head b hb).1
    simp only [hnone, Option.bind_eq_bind, Option.bind_some, Option.bind_none]

theorem timeOfDay_onto (c : Option Clock) (h : Closing rest) :
    (timeOfDay (c.elim rest (·.onto rest))).getD (0, 0, 0, 0, c.elim rest (·.onto rest))
      = (c.elim 0 (·.hour.value), c.elim 0 (·.minute.value), c.elim 0 Clock.second,
        c.elim 0 Clock.millis, rest) := by
  cases c with
  | none =>
    rw [Option.elim_none, timeOfDay_closing h]
    rfl
  | some c =>
    have hmark : mark ['T', ' '] (c.onto rest) = some (if c.spaced then 32 else 84,
        c.hour.text ++ 58 :: (c.minute.text ++ c.seconds.elim rest (·.onto rest))) := by
      unfold Clock.onto
      cases c.spaced
      · exact mark_cons (c := 'T') (by decide) _
      · exact mark_cons (c := ' ') (by decide) _
    unfold timeOfDay
    simp only [Option.elim_some, hmark, digits_append, mark_colon, seconds_onto c.seconds h,
      Option.bind_eq_bind, Option.bind_some]
    rfl

theorem exists_clock (t : Text) : ∃ (c : Option Clock) (hour minute second ms : ℕ) (rest : Text),
    (timeOfDay t).getD (0, 0, 0, 0, t) = (hour, minute, second, ms, rest) ∧
      t = c.elim rest (·.onto rest) := by
  cases htime : timeOfDay t with
  | none => exact ⟨none, 0, 0, 0, 0, t, rfl, rfl⟩
  | some found =>
    unfold timeOfDay at htime
    simp only [Option.bind_eq_bind, Option.bind_eq_some_iff, Prod.exists] at htime
    obtain ⟨b, t₁, hmark, hour, t₂, hhour, b', t₃, hcolon, minute, t₄, hminute, hend⟩ := htime
    obtain ⟨c, hc, rfl, rfl⟩ := exists_mark hmark
    obtain ⟨hourText, rfl⟩ := exists_figures hhour
    obtain ⟨rfl, rfl⟩ := eq_of_mark hcolon
    obtain ⟨minuteText, rfl⟩ := exists_figures hminute
    obtain ⟨s, hs⟩ := exists_seconds t₄
    cases hend
    refine ⟨some ⟨c = ' ', hourText, minuteText, s⟩, _, _, _, _, _, rfl, ?_⟩
    rcases List.mem_pair.mp hc with rfl | rfl
    · exact congrArg (fun t => 84 :: (hourText.text ++ 58 :: (minuteText.text ++ t))) hs
    · exact congrArg (fun t => 32 :: (hourText.text ++ 58 :: (minuteText.text ++ t))) hs

theorem zone_onto (z : Zone) (rest : Text) : zone (z.onto rest) = some (z.millis, rest) := by
  cases z with
  | universal => rfl
  | shifted east hours colon minutes =>
    let behind : Text := (if colon then [58] else []) ++ (minutes.text ++ rest)
    have hmark : mark ['Z', '+', '-'] ((Zone.shifted east hours colon minutes).onto rest)
        = some (if east then 43 else 45, hours.text ++ behind) := by
      cases east
      · exact mark_cons (c := '-') (by decide) _
      · exact mark_cons (c := '+') (by decide) _
    have hcolon : (if behind.head? == some (58 : Byte) then behind.drop 1 else behind)
        = minutes.text ++ rest := by
      cases colon
      · obtain ⟨b, more, htext, hdigit⟩ := minutes.exists_cons
        refine if_neg fun hhead => ?_
        have hhead : b = 58 := by
          simpa [behind, htext] using hhead
        rw [hhead] at hdigit
        cases hdigit
      · rfl
    have hshifted : ((if east then 43 else 45 : Byte) == 'Z'.toUInt8) = false := by
      cases east <;> decide
    have hwest : ((if east then 43 else 45 : Byte) == '-'.toUInt8) = !east := by
      cases east <;> decide
    unfold zone
    simp only [hmark, Option.bind_eq_bind, Option.bind_some, digits_append, hcolon, hshifted, hwest]
    -- The factors are too large for the kernel to compute with.
    cases east <;> simp [Zone.millis]

/-- A colon between the hours and the minutes of a zone is left out or not. -/
theorem exists_shifted {hours minutes : ℕ} {t' : Text} (hhours : digits 2 t = some (hours, t'))
    (hminutes : digits 2 (if t'.head? == some (58 : Byte) then t'.drop 1 else t')
      = some (minutes, rest)) (east : Bool) :
    ∃ z : Zone, (if east then 43 else 45) :: t = z.onto rest := by
  obtain ⟨h, rfl⟩ := exists_figures hhours
  obtain ⟨m, hm⟩ := exists_figures hminutes
  refine ⟨.shifted east h (t'.head? == some 58) m, ?_⟩
  unfold Zone.onto
  dsimp only
  rw [← hm]
  by_cases hcolon : (t'.head? == some (58 : Byte)) = true
  · rw [if_pos hcolon, if_pos hcolon]
    obtain ⟨more, rfl⟩ := List.head?_eq_some_iff.mp (beq_iff_eq.mp hcolon)
    rfl
  · rw [if_neg hcolon, if_neg hcolon]
    rfl

theorem exists_zone (t : Text) : ∃ (z : Option Zone) (offset : ℤ) (rest : Text),
    (zone t).getD (0, t) = (offset, rest) ∧ t = z.elim rest (·.onto rest) := by
  cases hzone : zone t with
  | none => exact ⟨none, 0, t, rfl, rfl⟩
  | some found =>
    unfold zone at hzone
    obtain ⟨⟨b, t'⟩, hmark, hread⟩ := Option.bind_eq_some_iff.mp hzone
    obtain ⟨c, hc, rfl, rfl⟩ := exists_mark hmark
    simp only [List.mem_cons, List.not_mem_nil, or_false] at hc
    rcases hc with rfl | rfl | rfl
    · cases hread
      exact ⟨some .universal, 0, t', rfl, rfl⟩
    · obtain ⟨⟨hours, t''⟩, hhours, hread⟩ := Option.bind_eq_some_iff.mp hread
      obtain ⟨⟨minutes, rest⟩, hminutes, hend⟩ := Option.bind_eq_some_iff.mp hread
      cases hend
      obtain ⟨z, hz⟩ := exists_shifted hhours hminutes true
      exact ⟨some z, _, rest, rfl, hz⟩
    · obtain ⟨⟨hours, t''⟩, hhours, hread⟩ := Option.bind_eq_some_iff.mp hread
      obtain ⟨⟨minutes, rest⟩, hminutes, hend⟩ := Option.bind_eq_some_iff.mp hread
      cases hend
      obtain ⟨z, hz⟩ := exists_shifted hhours hminutes false
      exact ⟨some z, _, rest, rfl, hz⟩

/-- A text with blanks around it. -/
theorem exists_blanks (t : Text) : ∃ blanks : Blanks, t = blanks.val ++ t.trimStart :=
  ⟨⟨t.takeWhile Byte.isSpace, fun _ hb => List.mem_takeWhile_imp hb⟩,
    List.takeWhile_append_dropWhile.symm⟩

end readers

/-! Whole stamps. -/

namespace Stamp

variable {s : Stamp}

theorem zone_tail (s : Stamp) : ∃ rest : Text, rest.trimStart = [] ∧
    (Calendar.zone s.tail.trimStart).getD (0, s.tail.trimStart) = (s.offset, rest) := by
  unfold tail offset
  cases s.zone with
  | none =>
    rw [Option.elim_none, trimStart_eq_nil]
    exact ⟨[], rfl, rfl⟩
  | some z =>
    rw [Option.elim_some, trimStart_blanks, Zone.trimStart_onto, zone_onto]
    exact ⟨s.after.val, trimStart_eq_nil s.after, rfl⟩

/-- Fields are never negative, so that only their upper bounds and those of the date are left. -/
theorem inRange_iff (s : Stamp) : s.InRange ↔ 1 ≤ s.month.value ∧ s.month.value ≤ 12 ∧
    1 ≤ s.day.value ∧ (s.day.value : ℤ) ≤ daysInMonth s.year.value s.month.value ∧
    s.hour ≤ 24 ∧ s.minute ≤ 59 ∧ s.second ≤ 59 := by
  constructor
  · rintro ⟨⟨hmonth, hmonth', hday, hday'⟩, hhour, hminute, hsecond⟩
    simp only [fields] at *
    omega
  · rintro ⟨hmonth, hmonth', hday, hday', hhour, hminute, hsecond⟩
    refine ⟨⟨?_, ?_, ?_, hday'⟩, ?_, ?_, ?_⟩ <;> (simp only [fields]; omega)

theorem trimStart_text (s : Stamp) : s.text.trimStart = s.year.text ++ 45 :: (s.month.text ++ 45 ::
    (s.day.text ++ s.clock.elim s.tail (·.onto s.tail))) := by
  obtain ⟨b, more, htext, hdigit⟩ := s.year.exists_cons
  unfold text
  rw [trimStart_blanks, htext, List.cons_append]
  exact List.dropWhile_cons_of_neg (Bool.eq_false_iff.mp (Byte.not_isSpace_of_isDigit hdigit))

instance (s : Stamp) : Decidable s.InRange := decidable_of_iff _ s.inRange_iff.symm

theorem parse_text (s : Stamp) :
    parse s.text = if s.InRange then some (s.fields.toMillis - s.offset) else none := by
  obtain ⟨rest, hrest, hzone⟩ := s.zone_tail
  have hclock := timeOfDay_onto s.clock s.closing_tail
  unfold parse
  simp only [trimStart_text, digits_append, mark_dash, Option.bind_eq_bind, Option.bind_some, hclock,
    hzone, hrest, List.isEmpty_nil, true_and]
  exact if_congr s.inRange_iff.symm rfl rfl

/-- What is left behind a time of day, if only blanks are left behind a zone. -/
theorem exists_tail {t : Text} {offset : ℤ} {rest : Text}
    (h : (Calendar.zone t.trimStart).getD (0, t.trimStart) = (offset, rest))
    (hrest : rest.trimStart = []) : ∃ (zone : Option (Blanks × Zone)) (after : Blanks),
      t = zone.elim after.val fun z => z.1.val ++ z.2.onto after.val := by
  obtain ⟨blanks, hblanks⟩ := exists_blanks t
  obtain ⟨z, offset', rest', hzone, htext⟩ := exists_zone t.trimStart
  obtain ⟨rfl, rfl⟩ : offset' = offset ∧ rest' = rest := Prod.mk.inj (hzone.symm.trans h)
  obtain ⟨after, hafter⟩ := exists_blanks rest'
  rw [hrest, List.append_nil] at hafter
  rw [htext, hafter] at hblanks
  cases z with
  | none =>
    refine ⟨none, ⟨t, fun b hb => ?_⟩, rfl⟩
    rw [hblanks] at hb
    exact (List.mem_append.mp hb).elim (blanks.property b) (after.property b)
  | some z => exact ⟨some (blanks, z), after, hblanks⟩

theorem exists_of_parse {t : Text} {n : ℤ} (h : parse t = some n) : ∃ s : Stamp, s.text = t := by
  unfold parse at h
  simp only [Option.bind_eq_bind, Option.bind_eq_some_iff, Prod.exists] at h
  obtain ⟨_, t₁, hyear, _, t₂, hdash, _, t₃, hmonth, _, t₄, hdash', _, t₅, hday, hend⟩ := h
  obtain ⟨before, hbefore⟩ := exists_blanks t
  obtain ⟨year, hyear⟩ := exists_figures hyear
  obtain ⟨rfl, rfl⟩ := eq_of_mark hdash
  obtain ⟨month, rfl⟩ := exists_figures hmonth
  obtain ⟨rfl, rfl⟩ := eq_of_mark hdash'
  obtain ⟨day, rfl⟩ := exists_figures hday
  obtain ⟨clock, hour, minute, second, ms, t₆, hread, rfl⟩ := exists_clock t₅
  rw [hread] at hend
  dsimp only at hend
  split at hend
  next hrange =>
    obtain ⟨zone, after, htail⟩ := exists_tail rfl (List.isEmpty_iff.mp hrange.1)
    refine ⟨⟨before, year, month, day, clock, zone, after⟩, ?_⟩
    rw [hbefore, hyear]
    unfold text tail
    dsimp only
    rw [← htail]
    rfl
  next => cases hend

end Stamp

/-! The time that is read, and the one that is written. -/

/-- The first millisecond of a date. -/
def Fields.midnight (d : Date) : Fields :=
  { d with hour := 0, minute := 0, second := 0, millisecond := 0 }

theorem Fields.ofMillis_days (days : ℤ) :
    ofMillis (days * 86400000) = midnight (Date.ofDays days) := by
  unfold ofMillis
  simp only [msPerDay, msPerHour, msPerMinute, msPerSecond]
  rw [Int.mul_ediv_cancel days (by decide), Int.mul_emod_left]
  rfl

namespace Stamp

variable {s : Stamp}

/-- The end of a day, as its twenty-fourth hour. -/
structure EndsDay (s : Stamp) : Prop where
  hour : s.hour = 24
  minute : s.minute = 0
  second : s.second = 0
  fraction : ∀ b ∈ s.fractionText, b = 48

/-- A time has the fields that are written, or is the midnight after a day that is written to its
end. -/
def Told (s : Stamp) (n : ℤ) : Prop :=
  Fields.ofMillis n = s.fields ∨
    s.EndsDay ∧ Fields.ofMillis n = Fields.midnight (Date.ofDays (s.fields.toDays + 1))

/-- A time of day behind the end of the day. -/
def Overruns (s : Stamp) : Prop :=
  s.hour = 24 ∧ (s.minute ≠ 0 ∨ s.second ≠ 0 ∨ ∃ b ∈ s.fractionText, b ≠ 48)

theorem overruns_iff (s : Stamp) : s.Overruns ↔ s.hour = 24 ∧ ¬s.EndsDay := by
  refine and_congr_right fun hhour => ?_
  have hends : s.EndsDay ↔ s.minute = 0 ∧ s.second = 0 ∧ ∀ b ∈ s.fractionText, b = 48 :=
    ⟨fun ⟨_, hminute, hsecond, hzeros⟩ => ⟨hminute, hsecond, hzeros⟩,
      fun ⟨hminute, hsecond, hzeros⟩ => ⟨hhour, hminute, hsecond, hzeros⟩⟩
  rw [hends]
  push Not
  tauto

theorem millisecond_le (s : Stamp) : s.millisecond ≤ 999 := by
  unfold millisecond Clock.millis Seconds.millis Fraction.millis
  rcases s.clock with _ | ⟨-, -, -, _ | ⟨-, _ | f⟩⟩
  · exact Nat.zero_le 999
  · exact Nat.zero_le 999
  · exact Nat.zero_le 999
  · have hlt := Literal.ofDigits_lt f.digits
    show Literal.ofDigits 0 f.text * 1000 / 10 ^ f.text.length ≤ 999
    refine Nat.le_of_lt_succ (Nat.div_lt_of_lt_mul ?_)
    rw [Nat.mul_comm]
    omega

theorem InRange.of_valid (h : s.fields.Valid) : s.InRange :=
  ⟨h.date, h.hour.2.trans (by decide), h.minute.2, h.second.2⟩

theorem fields_valid (h : s.InRange) : s.fields.Valid ↔ s.hour ≠ 24 := by
  have hmilli := s.millisecond_le
  constructor
  · intro hvalid heq
    have hhour : (s.hour : ℤ) ≤ 23 := hvalid.hour.2
    omega
  · intro hne
    obtain ⟨hdate, hhour, hminute, hsecond⟩ := h
    refine ⟨hdate, ?_, ?_, ?_, ?_⟩ <;> (simp only [fields] at *; omega)

theorem EndsDay.millisecond_eq_zero (h : s.EndsDay) : s.millisecond = 0 := by
  have hzeros := h.fraction
  revert hzeros
  unfold fractionText Stamp.millisecond Clock.millis Seconds.millis Fraction.millis
  rcases s.clock with _ | ⟨-, -, -, _ | ⟨-, _ | f⟩⟩
  · exact fun _ => rfl
  · exact fun _ => rfl
  · exact fun _ => rfl
  · intro hzeros
    have htext : f.text = List.replicate f.text.length 48 := List.eq_replicate_of_mem hzeros
    show Literal.ofDigits 0 f.text * 1000 / 10 ^ f.text.length = 0
    rw [htext, Literal.ofDigits_zeros, Nat.zero_mul, Nat.zero_mul, Nat.zero_div]

theorem EndsDay.toMillis_eq (h : s.EndsDay) :
    s.fields.toMillis = (s.fields.toDays + 1) * 86400000 := by
  have hclock : s.fields.timeOfDay = 86400000 := by
    unfold Fields.timeOfDay fields
    dsimp only
    rw [h.hour, h.minute, h.second, h.millisecond_eq_zero]
    rfl
  rw [Fields.toMillis_eq, hclock]
  ring

theorem told_iff (h : s.InRange) : s.Told s.fields.toMillis ↔ ¬s.Overruns := by
  rw [overruns_iff]
  constructor
  · rintro (htold | ⟨hends, -⟩) ⟨hhour, hlate⟩
    · have hvalid := Fields.ofMillis_valid s.fields.toMillis
      rw [htold] at hvalid
      exact (fields_valid h).mp hvalid hhour
    · exact hlate hends
  · intro hkept
    by_cases hhour : s.hour = 24
    · have hends : s.EndsDay := not_not.mp fun hlate => hkept ⟨hhour, hlate⟩
      exact .inr ⟨hends, by rw [hends.toMillis_eq, Fields.ofMillis_days]⟩
    · exact .inl ((fields_valid h).mpr hhour).ofMillis_toMillis

end Stamp

end Calendar
end EntityMachines
