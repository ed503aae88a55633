import EntityMachines.Calendar.Format
import EntityMachines.Proofs.Calendar.Stamps
import EntityMachines.Proofs.Library.Object
import EntityMachines.Proofs.Library.Time

/-!
Times that are written by tokens. A date with or without a time of day, from the longest field to
the shortest, is the text of a stamp in years of four digits, and is read back to what it tells.
-/
namespace EntityMachines
namespace Calendar

open Numeral (Literal)

/-- A number among the digits of a field, filled up with zeros. -/
def Figures.ofNat {count : ℕ} (n : ℕ) (hcount : 0 < count) (h : n < 10 ^ count) : Figures count where
  text := Text.zeroPadded count n
  length := Text.length_zeroPadded hcount h
  digits _ hb := Text.isDigit_of_mem_padStart (fun _ => Text.isDigit_of_mem_ofNat) hb

theorem Figures.value_ofNat {count n : ℕ} (hcount : 0 < count) (h : n < 10 ^ count) :
    (ofNat n hcount h).value = n :=
  Literal.ofDigits_zeroPadded count n

theorem exists_twoDigits {n : ℤ} (hpos : 0 ≤ n) (hlt : n < 100) :
    ∃ d : Figures 2, twoDigits n = d.text ∧ (d.value : ℤ) = n := by
  obtain ⟨k, rfl⟩ := Int.eq_ofNat_of_zero_le hpos
  refine ⟨.ofNat k Nat.two_pos (by omega), rfl, ?_⟩
  rw [Figures.value_ofNat]

/-- A year is written without zeros in front, which are not needed from the thousandth on. -/
theorem exists_year {n : ℤ} (hge : 1000 ≤ n) (hle : n ≤ 9999) :
    ∃ d : Figures 4, Text.ofInt n = d.text ∧ (d.value : ℤ) = n := by
  obtain ⟨k, rfl⟩ := Int.eq_ofNat_of_zero_le (a := n) (by omega)
  refine ⟨.ofNat k (by decide) (by omega), ?_, by rw [Figures.value_ofNat]⟩
  have hlength : ¬(Text.ofNat k).length ≤ 3 := by
    rw [Text.ofNat_eq_map, List.length_map, Nat.length_toDigits_le_iff (by decide) (by decide)]
    omega
  show Text.ofNat k = List.replicate (4 - (Text.ofNat k).length) 48 ++ Text.ofNat k
  rw [Nat.sub_eq_zero_of_le (by omega)]
  rfl

section patterns

variable {f : Fields} {t : ℤ}

/-- A date with its time of day behind it; only midnight may be left out. -/
theorem parse_written (h : f.Valid) (hge : 1000 ≤ f.year) (hle : f.year ≤ 9999)
    (clock : Option Clock) (hhour : (clock.elim 0 (·.hour.value) : ℕ) = f.hour)
    (hminute : (clock.elim 0 (·.minute.value) : ℕ) = f.minute)
    (hsecond : (clock.elim 0 Clock.second : ℕ) = f.second)
    (hmilli : (clock.elim 0 Clock.millis : ℕ) = f.millisecond) :
    parse (Text.ofInt f.year ++ 45 :: (twoDigits f.month ++ 45 :: (twoDigits f.day ++
      clock.elim [] (·.onto [])))) = some f.toMillis := by
  obtain ⟨hmonth, hmonth', hday, hday'⟩ := h.date
  have hlast := (daysInMonth_bounds f.year f.month).2
  obtain ⟨year, hyearText, hyear⟩ := exists_year hge hle
  obtain ⟨month, hmonthText, hmonth⟩ := exists_twoDigits (n := f.month) (by omega) (by omega)
  obtain ⟨day, hdayText, hday⟩ := exists_twoDigits (n := f.day) (by omega) (by omega)
  let nothing : Blanks := ⟨[], List.forall_mem_nil _⟩
  let s : Stamp := ⟨nothing, year, month, day, clock, none, nothing⟩
  have hfields : s.fields = f := by
    show (⟨⟨year.value, month.value, day.value⟩, (clock.elim 0 (·.hour.value) : ℕ),
      (clock.elim 0 (·.minute.value) : ℕ), (clock.elim 0 Clock.second : ℕ),
      (clock.elim 0 Clock.millis : ℕ)⟩ : Fields) = f
    rw [hyear, hmonth, hday, hhour, hminute, hsecond, hmilli]
  have htext := s.parse_text
  rw [if_pos (.of_valid (hfields ▸ h)), hfields] at htext
  rw [hyearText, hmonthText, hdayText]
  refine htext.trans ?_
  show some (f.toMillis - 0) = _
  rw [Int.sub_zero]

theorem midnight_valid {d : Date} (h : d.Valid) : (Fields.midnight d).Valid :=
  ⟨h, ⟨le_rfl, Int.natCast_nonneg 23⟩, ⟨le_rfl, Int.natCast_nonneg 59⟩,
    ⟨le_rfl, Int.natCast_nonneg 59⟩, ⟨le_rfl, Int.natCast_nonneg 999⟩⟩

theorem parse_format_date (hge : 1000 ≤ (Fields.ofMillis t).year)
    (hle : (Fields.ofMillis t).year ≤ 9999) :
    parse (format t "YYYY-MM-DD") = some (startOf t .day) :=
  -- The tokens of the pattern are replaced by evaluation.
  parse_written (midnight_valid (Fields.ofMillis_valid t).date) hge hle none rfl rfl rfl rfl

/-- What is less than a second is cut off. -/
theorem toMillis_second (t : ℤ) :
    Fields.toMillis { Fields.ofMillis t with millisecond := 0 } = t / 1000 * 1000 := by
  have hwhole := Fields.toMillis_ofMillis t
  have hrest : (Fields.ofMillis t).millisecond = t % 86400000 % 1000 := rfl
  unfold Fields.toMillis at hwhole ⊢
  dsimp only
  omega

theorem parse_format_dateTime (hge : 1000 ≤ (Fields.ofMillis t).year)
    (hle : (Fields.ofMillis t).year ≤ 9999) :
    parse (format t "YYYY-MM-DDTHH:mm:ss") = some (t / 1000 * 1000) := by
  obtain ⟨hdate, hhour, hminute, hsecond, -⟩ := Fields.ofMillis_valid t
  obtain ⟨hour, hhourText, hhourValue⟩ :=
    exists_twoDigits (n := (Fields.ofMillis t).hour) (by omega) (by omega)
  obtain ⟨minute, hminuteText, hminuteValue⟩ :=
    exists_twoDigits (n := (Fields.ofMillis t).minute) (by omega) (by omega)
  obtain ⟨second, hsecondText, hsecondValue⟩ :=
    exists_twoDigits (n := (Fields.ofMillis t).second) (by omega) (by omega)
  let clock : Clock := ⟨false, hour, minute, some ⟨second, none⟩⟩
  have hclock : clock.onto [] = 84 :: (twoDigits (Fields.ofMillis t).hour ++
      58 :: (twoDigits (Fields.ofMillis t).minute ++
        58 :: (twoDigits (Fields.ofMillis t).second ++ []))) := by
    rw [hhourText, hminuteText, hsecondText]
    rfl
  have hread := parse_written (f := { Fields.ofMillis t with millisecond := 0 })
    ⟨hdate, hhour, hminute, hsecond, le_rfl, Int.natCast_nonneg 999⟩ hge hle (some clock) hhourValue
    hminuteValue hsecondValue rfl
  rw [Option.elim_some, hclock, toMillis_second] at hread
  exact hread

end patterns

end Calendar
end EntityMachines

/-!
Times as doubles that are read from texts and written to them. Main statements: what is read has the
fields that are written, but for an hour that is one too late, and what is written without a loss is
read back.
-/
namespace EntityMachines
namespace Library.Time

open Calendar Double

variable {s : Stamp}

theorem abs_zone_le (z : Zone) : |z.millis| ≤ 2 ^ 30 := by
  cases z with
  | universal => decide
  | shifted east hours colon minutes =>
    have hhours := hours.value_lt
    have hminutes := minutes.value_lt
    unfold Zone.millis msPerHour msPerMinute
    dsimp only
    split <;> (rw [abs_le]; omega)

theorem natAbs_stamp_le (h : s.InRange) : (s.fields.toMillis - s.offset).natAbs ≤ 2 ^ 50 := by
  let f : Fields := { s.fields with hour := 0 }
  have hhour := h.hour
  have hvalid : f.Valid := by
    have hmilli := s.millisecond_le
    refine ⟨h.date, ⟨le_rfl, Int.natCast_nonneg 23⟩, ⟨Int.natCast_nonneg s.minute, h.minute⟩,
      ⟨Int.natCast_nonneg s.second, h.second⟩, ⟨Int.natCast_nonneg s.millisecond, ?_⟩⟩
    show (s.millisecond : ℤ) ≤ 999
    omega
  have hdated : Dated f.toMillis := by
    have hyear := s.year.value_lt
    unfold Dated
    rw [hvalid.ofMillis_toMillis]
    show -32767 ≤ (s.year.value : ℤ) ∧ (s.year.value : ℤ) ≤ 32767
    omega
  have htime : s.fields.toMillis = f.toMillis + s.fields.hour * 3600000 := by
    rw [Fields.toMillis_eq, Fields.toMillis_eq]
    show s.fields.toDays * 86400000 + s.fields.timeOfDay
      = s.fields.toDays * 86400000 + f.timeOfDay + s.fields.hour * 3600000
    unfold Fields.timeOfDay
    ring
  have hoffset : |s.offset| ≤ 2 ^ 30 := by
    unfold Stamp.offset
    cases s.zone with
    | none => decide
    | some z => exact abs_zone_le z.2
  have hfar := hdated.natAbs_add_le
  rw [abs_le] at hoffset
  have hpos : 0 ≤ s.fields.hour := Int.natCast_nonneg s.hour
  omega

theorem parse_text (h : s.InRange) : parse s.text = ofInt (s.fields.toMillis - s.offset) := by
  unfold parse
  rw [s.parse_text, if_pos h]

theorem isNaN_parse (t : Text) : (parse t).isNaN = !(Calendar.parse t).isSome := by
  unfold parse
  cases hread : Calendar.parse t with
  | none => decide
  | some n =>
    obtain ⟨s, rfl⟩ := Stamp.exists_of_parse hread
    rw [s.parse_text] at hread
    split at hread
    next h =>
      cases hread
      exact (Float.not_special_of_isFinite (isFinite_ofInt (natAbs_stamp_le h))).1
    next => cases hread

/-- What is read as a time is the text of a stamp in range. -/
theorem exists_stamp {t : Text} (h : (parse t).isNaN = false) : ∃ s : Stamp, s.text = t := by
  rw [isNaN_parse, Bool.not_eq_false'] at h
  obtain ⟨n, hread⟩ := Option.isSome_iff_exists.mp h
  exact Stamp.exists_of_parse hread

theorem inRange_of_parse (h : (parse s.text).isNaN = false) : s.InRange := by
  rw [isNaN_parse, Bool.not_eq_false', s.parse_text] at h
  by_contra hrange
  rw [if_neg hrange] at h
  cases h

theorem makes_date (t : Text) : Makes "validate/date" [.string t] (.bool !(parse t).isNaN) := by
  rw [isNaN_parse, Bool.not_not]
  exact .ofValues (f := fun args => .ok (.bool (Validate.isDate (args.nth 0))))
    (operator?_of_place 139 rfl) rfl

theorem makes_parse (t : Text) : Makes "time/parse" [.string t] (.number (parse t)) := by
  obtain ⟨f, hop, hf⟩ : ∃ f, Evaluator.operator? standard "time/parse" = some (Operator.ofValues f) ∧
      f [.string t] = .ok (.number (parse t)) := ⟨_, operator?_of_place 102 rfl, rfl⟩
  exact .ofValues hop hf

/-- A time of day is read as it is written, and it exists, unless its hour is one too late and it
is not the end of a day. -/
theorem written_time_iff (t : Text) :
    Makes "time/parse" [.string t] (.number (parse t)) ∧
    Makes "validate/date" [.string t] (.bool !(parse t).isNaN) ∧
    ((parse t).isNaN = false → (∃ s : Stamp, s.text = t) ∧ ∀ s : Stamp, s.text = t →
      ((s.fields.Valid ∨ s.EndsDay) ↔ ¬s.Overruns) ∧
      (s.IsUniversal → (s.Told (millis (parse t)) ↔ ¬s.Overruns))) := by
  refine ⟨makes_parse t, makes_date t, fun haccepted => ⟨exists_stamp haccepted, ?_⟩⟩
  rintro s rfl
  have hrange := inRange_of_parse haccepted
  refine ⟨?_, fun huniversal => ?_⟩
  · rw [Stamp.fields_valid hrange, Stamp.overruns_iff]
    have hhour (hends : s.EndsDay) : s.hour = 24 := hends.hour
    tauto
  · have hsmall := natAbs_stamp_le hrange
    rw [parse_text hrange, millis_ofInt hsmall, huniversal.offset_eq_zero, Int.sub_zero]
    exact Stamp.told_iff hrange

/-- The last second of a leap day. -/
def leapSecond : Stamp where
  before := ⟨[32], List.all_eq_true.mp rfl⟩
  year := ⟨"2020", rfl, List.all_eq_true.mp rfl⟩
  month := ⟨"02", rfl, List.all_eq_true.mp rfl⟩
  day := ⟨"29", rfl, List.all_eq_true.mp rfl⟩
  clock := some {
    spaced := false
    hour := ⟨"23", rfl, List.all_eq_true.mp rfl⟩
    minute := ⟨"59", rfl, List.all_eq_true.mp rfl⟩
    seconds := some {
      second := ⟨"59", rfl, List.all_eq_true.mp rfl⟩
      fraction := some ⟨"9996", by decide, List.all_eq_true.mp rfl⟩ } }
  zone := some (⟨[], List.forall_mem_nil _⟩, .universal)
  after := ⟨[], List.forall_mem_nil _⟩

theorem leapSecond_told :
    leapSecond.text = " 2020-02-29T23:59:59.9996Z" ∧ leapSecond.fields.millisecond = 999 ∧
    (parse leapSecond.text).isNaN = false ∧ leapSecond.Told (millis (parse leapSecond.text)) := by
  have haccepted : (parse leapSecond.text).isNaN = false := by
    rw [isNaN_parse]
    decide
  obtain ⟨-, -, htold⟩ := written_time_iff leapSecond.text
  obtain ⟨-, hfields⟩ := (htold haccepted).2 leapSecond rfl
  have hkept : ¬leapSecond.Overruns := fun h => absurd h.1 (by decide)
  refine ⟨by decide, by decide, haccepted, (hfields fun z hz => ?_).mpr hkept⟩
  cases hz
  rfl

/-- Half an hour after the end of a day. -/
def halfPast : Stamp where
  before := ⟨[], List.forall_mem_nil _⟩
  year := ⟨"2020", rfl, List.all_eq_true.mp rfl⟩
  month := ⟨"01", rfl, List.all_eq_true.mp rfl⟩
  day := ⟨"01", rfl, List.all_eq_true.mp rfl⟩
  clock := some {
    spaced := false
    hour := ⟨"24", rfl, List.all_eq_true.mp rfl⟩
    minute := ⟨"30", rfl, List.all_eq_true.mp rfl⟩
    seconds := some ⟨⟨"00", rfl, List.all_eq_true.mp rfl⟩, none⟩ }
  zone := none
  after := ⟨[], List.forall_mem_nil _⟩

/-- It is read, as half past midnight on the next day, and is told to be a date. -/
theorem halfPast_misread :
    halfPast.text = "2020-01-01T24:30:00" ∧ halfPast.IsUniversal ∧
    (parse halfPast.text).isNaN = false ∧
    Fields.ofMillis (millis (parse halfPast.text)) = ⟨⟨2020, 1, 2⟩, 0, 30, 0, 0⟩ ∧
    ¬halfPast.Told (millis (parse halfPast.text)) ∧
    ¬(halfPast.fields.Valid ∨ halfPast.EndsDay) ∧
    Makes "validate/date" [.string halfPast.text] (.bool true) := by
  have hrange : halfPast.InRange := by decide
  have haccepted : (parse halfPast.text).isNaN = false := by
    rw [isNaN_parse]
    decide
  have hread : Fields.ofMillis (millis (parse halfPast.text)) = ⟨⟨2020, 1, 2⟩, 0, 30, 0, 0⟩ := by
    rw [parse_text hrange, millis_ofInt (natAbs_stamp_le hrange)]
    decide
  have hlate : ¬halfPast.EndsDay := fun h => absurd h.minute (by decide)
  have huniversal : halfPast.IsUniversal := fun z hz => nomatch hz
  have hdate := makes_date halfPast.text
  rw [haccepted] at hdate
  refine ⟨by decide, huniversal, haccepted, hread, ?_, ?_, hdate⟩
  · rintro (htold | ⟨hends, -⟩)
    · rw [hread] at htold
      exact absurd htold (by decide)
    · exact hlate hends
  · rintro (hvalid | hends)
    · exact absurd hvalid.hour.2 (by decide)
    · exact hlate hends

/-! Texts that are written for a time. -/

section written

variable {t : ℤ}

theorem makes_format (x : Float) (pattern : Text) :
    Makes "time/format" [.number x, .string pattern] (.string (format x pattern)) :=
  .ofTotal (f := fun args => .string (format (timeAt args 0) (args.text 1 "YYYY-MM-DD")))
    (operator?_of_place 103 rfl)

theorem makes_startOfDay (x : Float) :
    Makes "time/startOf" [.number x, .string "day"] (.number (bound startOf x (some .day))) :=
  .ofTotal (f := fun args => .number (bound startOf (timeAt args 0) (periodAt args 1)))
    (operator?_of_place 114 rfl)

theorem format_ofInt (h : t.natAbs ≤ 2 ^ 50) (pattern : Text) :
    format (ofInt t) pattern = Calendar.format t pattern := by
  unfold format
  rw [isFinite_ofInt h, millis_ofInt h]
  rfl

theorem parse_of_some {text : Text} (h : Calendar.parse text = some t) : parse text = ofInt t := by
  unfold parse
  rw [h]

theorem format_parses_back (hge : 1000 ≤ (Fields.ofMillis t).year)
    (hle : (Fields.ofMillis t).year ≤ 9999) :
    parse (format (ofInt t) "YYYY-MM-DDTHH:mm:ss") = ofInt (t / 1000 * 1000) ∧
    parse (format (ofInt t) "YYYY-MM-DD") = bound startOf (ofInt t) (some .day) ∧
    ∃ date dateTime,
      Makes "time/format" [.number (ofInt t), .string "YYYY-MM-DDTHH:mm:ss"] (.string dateTime) ∧
      Makes "time/parse" [.string dateTime] (.number (ofInt (t / 1000 * 1000))) ∧
      Makes "time/format" [.number (ofInt t), .string "YYYY-MM-DD"] (.string date) ∧
      ∃ day, Makes "time/startOf" [.number (ofInt t), .string "day"] day ∧
        Makes "time/parse" [.string date] day := by
  have hsmall : t.natAbs ≤ 2 ^ 50 := Dated.natAbs_le ⟨by omega, by omega⟩
  have hdateTime : parse (format (ofInt t) "YYYY-MM-DDTHH:mm:ss") = ofInt (t / 1000 * 1000) := by
    rw [format_ofInt hsmall]
    exact parse_of_some (parse_format_dateTime hge hle)
  have hdate : parse (format (ofInt t) "YYYY-MM-DD") = bound startOf (ofInt t) (some .day) := by
    rw [format_ofInt hsmall, bound_startOf hsmall]
    exact parse_of_some (parse_format_date hge hle)
  refine ⟨hdateTime, hdate, _, _, makes_format _ _, ?_, makes_format _ _, _, makes_startOfDay _, ?_⟩
  · rw [← hdateTime]
    exact makes_parse _
  · rw [← hdate]
    exact makes_parse _

/-- Half a second before the epoch. -/
theorem format_parses_back_before_epoch :
    (Fields.ofMillis (-500)).year = 1969 ∧
    parse (format (ofInt (-500)) "YYYY-MM-DDTHH:mm:ss") = ofInt (-1000) ∧
    parse (format (ofInt (-500)) "YYYY-MM-DD") = ofInt (-86400000) := by
  obtain ⟨hdateTime, hdate, -⟩ := format_parses_back (t := -500) (by decide) (by decide)
  rw [bound_startOf (by decide)] at hdate
  exact ⟨by decide, hdateTime, hdate⟩

end written

end Library.Time
end EntityMachines
