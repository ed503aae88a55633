import EntityMachines.Calendar
import Mathlib.Data.Int.ConditionallyCompleteOrder
import Mathlib.Data.List.Basic
import Mathlib.Tactic.IntervalCases
import Mathlib.Tactic.Linarith

/-!
Dates and the days from the epoch, and the fields of a date and a time of day. Months are counted
through all years, each one begins where the one before it ends, and a day is in one month only. Main
statements: the days and the dates that a calendar has are the same, in the same order, and so are
times and their fields; what is beyond the end of a month or of a year is counted on in the next one.
-/
namespace EntityMachines
namespace Calendar

/-- A date of the calendar. -/
structure Date.Valid (d : Date) : Prop where
  month_pos : 1 ≤ d.month
  month_le : d.month ≤ 12
  day_pos : 1 ≤ d.day
  day_le : d.day ≤ daysInMonth d.year d.month

/-- The months before a date, counted through all years. -/
def Date.monthNumber (d : Date) : Int := 12 * d.year + (d.month - 1)

/-- The days before a month. -/
def monthStart (k : Int) : Int := daysToMonth (k / 12) (k % 12 + 1)

def monthLength (k : Int) : Int := daysInMonth (k / 12) (k % 12 + 1)

section months

variable {j k y m : Int}

theorem isLeapYear_iff : isLeapYear y = true ↔ y % 4 = 0 ∧ (y % 100 ≠ 0 ∨ y % 400 = 0) := by
  unfold isLeapYear
  exact decide_eq_true_iff

theorem daysInMonth_bounds (y m : Int) : 28 ≤ daysInMonth y m ∧ daysInMonth y m ≤ 31 := by
  unfold daysInMonth
  split_ifs <;> decide

theorem daysToMonth_next_month (hpos : 1 ≤ m) (hlt : m < 12) :
    daysToMonth y (m + 1) = daysToMonth y m + daysInMonth y m := by
  have hleap := isLeapYear_iff (y := y)
  unfold daysToMonth daysInMonth
  interval_cases m <;> norm_num
  case «2» =>
    split_ifs with h
    · rw [hleap] at h
      omega
    · rw [hleap] at h
      omega
  all_goals omega

theorem daysToMonth_next_year (y : Int) :
    daysToMonth (y + 1) 1 = daysToMonth y 12 + daysInMonth y 12 := by
  unfold daysToMonth daysInMonth
  norm_num
  omega

/-- Each month begins where the one before it ends. -/
theorem monthStart_succ (k : Int) : monthStart (k + 1) = monthStart k + monthLength k := by
  unfold monthStart monthLength
  rcases lt_or_ge (k % 12) 11 with hlt | hge
  · have hyear : (k + 1) / 12 = k / 12 := by omega
    have hmonth : (k + 1) % 12 + 1 = k % 12 + 1 + 1 := by omega
    rw [hyear, hmonth]
    exact daysToMonth_next_month (by omega) (by omega)
  · have hyear : (k + 1) / 12 = k / 12 + 1 := by omega
    have hmonth : (k + 1) % 12 = 0 := by omega
    have hlast : k % 12 = 11 := by omega
    rw [hyear, hmonth, hlast]
    exact daysToMonth_next_year (k / 12)

theorem monthStart_strictMono : StrictMono monthStart := by
  refine strictMono_int_of_lt_succ fun k => ?_
  have hlength : 28 ≤ monthLength k := (daysInMonth_bounds _ _).1
  rw [monthStart_succ]
  omega

theorem monthStart_add_monthLength_le (h : j < k) : monthStart j + monthLength j ≤ monthStart k := by
  rw [← monthStart_succ]
  exact monthStart_strictMono.monotone h

end months

section dates

variable {d e : Date}

theorem Date.toDays_eq (d : Date) : d.toDays = monthStart d.monthNumber + (d.day - 1) := by
  have hyear : d.monthNumber / 12 = d.year + (d.month - 1) / 12 := by
    unfold Date.monthNumber
    omega
  have hmonth : d.monthNumber % 12 = (d.month - 1) % 12 := by
    unfold Date.monthNumber
    omega
  unfold Date.toDays monthStart
  rw [hyear, hmonth]

/-- Twelve months are a year. -/
theorem Date.toDays_carry_months (y m day k : Int) :
    Date.toDays ⟨y, m + 12 * k, day⟩ = Date.toDays ⟨y + k, m, day⟩ := by
  have hmonth : Date.monthNumber ⟨y, m + 12 * k, day⟩ = Date.monthNumber ⟨y + k, m, day⟩ := by
    unfold Date.monthNumber
    dsimp only
    omega
  rw [Date.toDays_eq, Date.toDays_eq, hmonth]

namespace Date.Valid

theorem monthLength_eq (h : d.Valid) : monthLength d.monthNumber = daysInMonth d.year d.month := by
  have hpos := h.month_pos
  have hle := h.month_le
  have hyear : d.monthNumber / 12 = d.year := by
    unfold Date.monthNumber
    omega
  have hmonth : d.monthNumber % 12 + 1 = d.month := by
    unfold Date.monthNumber
    omega
  unfold monthLength
  rw [hyear, hmonth]

theorem lt_of_monthNumber_lt (hd : d.Valid) (he : e.Valid) (h : d.monthNumber < e.monthNumber) :
    d.toDays < e.toDays := by
  have hnext := monthStart_add_monthLength_le h
  have hlast := hd.day_le
  have hfirst := he.day_pos
  rw [hd.monthLength_eq] at hnext
  rw [toDays_eq, toDays_eq]
  omega

/-- A date is told by its day. -/
theorem eq_of_toDays_eq (hd : d.Valid) (he : e.Valid) (h : d.toDays = e.toDays) : d = e := by
  have hmonths : d.monthNumber = e.monthNumber := by
    rcases lt_trichotomy d.monthNumber e.monthNumber with hlt | heq | hgt
    · exact absurd h (hd.lt_of_monthNumber_lt he hlt).ne
    · exact heq
    · exact absurd h (he.lt_of_monthNumber_lt hd hgt).ne'
  rw [toDays_eq, toDays_eq, hmonths] at h
  obtain ⟨y, m, day⟩ := d
  obtain ⟨y', m', day'⟩ := e
  have hpos : 1 ≤ m ∧ 1 ≤ m' := ⟨hd.month_pos, he.month_pos⟩
  have hle : m ≤ 12 ∧ m' ≤ 12 := ⟨hd.month_le, he.month_le⟩
  unfold monthNumber at hmonths
  dsimp only at hmonths h
  rw [mk.injEq]
  omega

/-- An earlier day has a date that comes first when years, months and days are compared in turn. -/
theorem lt_of_toDays_lt (hd : d.Valid) (he : e.Valid) (h : d.toDays < e.toDays) :
    d.year < e.year ∨ d.year = e.year ∧
      (d.month < e.month ∨ d.month = e.month ∧ d.day < e.day) := by
  have hmonths : d.monthNumber ≤ e.monthNumber := not_lt.mp fun hlt =>
    (he.lt_of_monthNumber_lt hd hlt).not_gt h
  have hpos : 1 ≤ d.month ∧ 1 ≤ e.month := ⟨hd.month_pos, he.month_pos⟩
  have hle : d.month ≤ 12 ∧ e.month ≤ 12 := ⟨hd.month_le, he.month_le⟩
  rcases hmonths.lt_or_eq with hlt | heq
  · unfold monthNumber at hlt
    omega
  · rw [toDays_eq, toDays_eq, heq] at h
    unfold monthNumber at heq
    omega

end Date.Valid

/-- The days of a month that are too many are days of the next month. -/
theorem Date.toDays_carry_days {y m : Int} (hpos : 1 ≤ m) (hle : m ≤ 12) (day : Int) :
    Date.toDays ⟨y, m, day + daysInMonth y m⟩ = Date.toDays ⟨y, m + 1, day⟩ := by
  have hfirst : Date.Valid ⟨y, m, 1⟩ := by
    have hlength := (daysInMonth_bounds y m).1
    exact ⟨hpos, hle, le_rfl, by dsimp only; omega⟩
  have hlength : monthLength (12 * y + (m - 1)) = daysInMonth y m := hfirst.monthLength_eq
  have hnext := monthStart_succ (12 * y + (m - 1))
  rw [hlength, show 12 * y + (m - 1) + 1 = 12 * y + (m + 1 - 1) by omega] at hnext
  rw [toDays_eq, toDays_eq]
  unfold monthNumber
  dsimp only
  omega

end dates

section days

/-!
The date of a day is found by counting from a first of March, in eras of four hundred years: then
centuries, groups of four years and years are of one length each but for the last of them, which
has a leap day more or less at its end.
-/

variable {c q r t d : Int}

/-- A day of an era by its century, the group of four years, the year of it and the day of that. -/
structure DayOfEra (d c q r t : Int) : Prop where
  century : 0 ≤ c ∧ c ≤ 3
  group : 0 ≤ q ∧ q ≤ 24
  year : 0 ≤ r ∧ r ≤ 3
  day : 0 ≤ t ∧ t ≤ 365
  leap : t = 365 → r = 3 ∧ (q = 24 → c = 3)
  sum : d = 36524 * c + 1461 * q + 365 * r + t

theorem exists_dayOfEra (hnonneg : 0 ≤ d) (hlt : d < 146097) : ∃ c q r t, DayOfEra d c q r t := by
  obtain ⟨c, hc⟩ : ∃ c, c = min 3 (d / 36524) := ⟨_, rfl⟩
  obtain ⟨u, hu⟩ : ∃ u, u = d - 36524 * c := ⟨_, rfl⟩
  have hcentury : 0 ≤ c ∧ c ≤ 3 := by omega
  have hrest : 0 ≤ u ∧ u ≤ 36524 ∧ (u = 36524 → c = 3) := by omega
  obtain ⟨r, hr⟩ : ∃ r, r = min 3 (u % 1461 / 365) := ⟨_, rfl⟩
  refine ⟨c, u / 1461, r, u % 1461 - 365 * r, hcentury, ?_, ?_, ?_, ?_, ?_⟩ <;> omega

namespace DayOfEra

theorem year_eq (h : DayOfEra d c q r t) :
    (d - d / 1460 + d / 36524 - d / 146096) / 365 = 100 * c + 4 * q + r := by
  obtain ⟨hc, hq, hr, ht, hleap, hsum⟩ := h
  have hcentury : d / 36524 - d / 146096 = c := by
    rcases lt_or_ge (1461 * q + 365 * r + t) 36524 with hlt | hge
    · have hdiv : d / 36524 = c := by omega
      have hnone : d / 146096 = 0 := by omega
      omega
    · -- the last day of the era is the one that the fourth century has more than the others
      obtain rfl : c = 3 := by omega
      omega
  rcases lt_or_ge (24 * c + q + 365 * r + t) 1460 with hlt | hge
  · have hdiv : d / 1460 = 25 * c + q := by omega
    omega
  · have hdiv : d / 1460 = 25 * c + q + 1 := by omega
    omega

theorem day_eq (h : DayOfEra d c q r t) : d - (365 * (100 * c + 4 * q + r)
    + (100 * c + 4 * q + r) / 4 - (100 * c + 4 * q + r) / 100) = t := by
  have hgroup := h.group
  have hyear := h.year
  have hsum := h.sum
  have hfours : (100 * c + 4 * q + r) / 4 = 25 * c + q := by omega
  have hhundreds : (100 * c + 4 * q + r) / 100 = c := by omega
  omega

theorem isLeapYear_of_last (h : DayOfEra d c q r t) (hlast : t = 365) (era : Int) :
    isLeapYear (era * 400 + (100 * c + 4 * q + r) + 1) = true := by
  have hcentury := h.century
  have hgroup := h.group
  obtain ⟨rfl, hend⟩ := h.leap hlast
  rw [isLeapYear_iff]
  refine ⟨by omega, ?_⟩
  rcases hgroup.2.lt_or_eq with hlt | heq
  · exact .inl (by omega)
  · rw [hend heq, heq]
    exact .inr (by omega)

end DayOfEra

/-- The days before a year that is so many eras and years from the first one. -/
theorem era_years {era y : Int} (hnonneg : 0 ≤ y) (hlt : y < 400) :
    365 * (era * 400 + y) + (era * 400 + y) / 4 - (era * 400 + y) / 100 + (era * 400 + y) / 400
      = 146097 * era + (365 * y + y / 4 - y / 100) := by
  omega

/-- The date so many days after the first of March of a year. -/
def Date.afterMarch (y t : Int) : Date :=
  let m := (5 * t + 2) / 153
  { year := if m < 10 then y else y + 1
    month := if m < 10 then m + 3 else m - 9
    day := t - (153 * m + 2) / 5 + 1 }

theorem months_bounds (h : 0 ≤ t ∧ t ≤ 365) : 0 ≤ (5 * t + 2) / 153 ∧ (5 * t + 2) / 153 ≤ 11 := by
  omega

/-- Each day belongs to the year that began on the first of March before it. -/
theorem exists_afterMarch (n : Int) : ∃ y t, (0 ≤ t ∧ t ≤ 365) ∧
    (t = 365 → isLeapYear (y + 1) = true) ∧
    n = 365 * y + y / 4 - y / 100 + y / 400 + t - 719468 ∧
    Date.ofDays n = Date.afterMarch y t := by
  have hera := Int.mul_ediv_add_emod (n + 719468) 146097
  have hnonneg := Int.emod_nonneg (n + 719468) (show (146097 : Int) ≠ 0 by decide)
  have hlt := Int.emod_lt_of_pos (n + 719468) (show (0 : Int) < 146097 by decide)
  obtain ⟨c, q, r, t, h⟩ := exists_dayOfEra hnonneg hlt
  have hyears : 0 ≤ 100 * c + 4 * q + r ∧ 100 * c + 4 * q + r < 400 := by
    have hc := h.century
    have hq := h.group
    have hr := h.year
    omega
  have hday := h.day_eq
  refine ⟨(n + 719468) / 146097 * 400 + (100 * c + 4 * q + r), t, h.day,
    fun hlast => h.isLeapYear_of_last hlast _, ?_, ?_⟩
  · rw [era_years hyears.1 hyears.2]
    linarith
  · have hmonths := months_bounds h.day
    unfold Date.ofDays Date.afterMarch
    dsimp only
    rw [h.year_eq, hday, Date.mk.injEq]
    refine ⟨?_, rfl, rfl⟩
    generalize (5 * t + 2) / 153 = m at hmonths ⊢
    split_ifs <;> linarith

theorem Date.afterMarch_valid {y : Int} (ht : 0 ≤ t ∧ t ≤ 365)
    (hleap : t = 365 → isLeapYear (y + 1) = true) : (afterMarch y t).Valid := by
  have hmonths := months_bounds ht
  obtain ⟨m, hm⟩ : ∃ m, m = (5 * t + 2) / 153 := ⟨_, rfl⟩
  unfold afterMarch
  dsimp only
  rw [← hm] at hmonths ⊢
  obtain ⟨hlow, hhigh⟩ := hmonths
  constructor
  · dsimp only
    split_ifs <;> omega
  · dsimp only
    split_ifs <;> omega
  · dsimp only
    omega
  · unfold daysInMonth
    interval_cases m <;> norm_num
    case «11» =>
      rcases ht.2.lt_or_eq with hlt | heq
      · split_ifs <;> omega
      · rw [if_pos (hleap heq), heq]
        decide
    all_goals omega

theorem Date.toDays_afterMarch {y : Int} (ht : 0 ≤ t ∧ t ≤ 365) :
    (afterMarch y t).toDays = 365 * y + y / 4 - y / 100 + y / 400 + t - 719468 := by
  have hmonths := months_bounds ht
  unfold afterMarch toDays daysToMonth
  generalize (5 * t + 2) / 153 = m at hmonths ⊢
  obtain ⟨hlow, hhigh⟩ := hmonths
  interval_cases m <;> norm_num <;> omega

theorem Date.ofDays_valid (n : Int) : (Date.ofDays n).Valid := by
  obtain ⟨y, t, ht, hleap, -, hdate⟩ := exists_afterMarch n
  rw [hdate]
  exact afterMarch_valid ht hleap

theorem Date.toDays_ofDays (n : Int) : (Date.ofDays n).toDays = n := by
  obtain ⟨y, t, ht, -, hn, hdate⟩ := exists_afterMarch n
  rw [hdate, toDays_afterMarch ht, ← hn]

theorem Date.Valid.ofDays_toDays {d : Date} (h : d.Valid) : Date.ofDays d.toDays = d :=
  (Date.ofDays_valid _).eq_of_toDays_eq h (Date.toDays_ofDays _)

end days

/-! The fields of a date and a time of day. -/

/-- A date of the calendar and a time of its day. -/
structure Fields.Valid (f : Fields) : Prop where
  date : f.toDate.Valid
  hour : 0 ≤ f.hour ∧ f.hour ≤ 23
  minute : 0 ≤ f.minute ∧ f.minute ≤ 59
  second : 0 ≤ f.second ∧ f.second ≤ 59
  millisecond : 0 ≤ f.millisecond ∧ f.millisecond ≤ 999

namespace Fields

/-- The fields from the longest to the shortest, in the order in which they are compared. -/
def parts (f : Fields) : List Int :=
  [f.year, f.month, f.day, f.hour, f.minute, f.second, f.millisecond]

/-- The milliseconds since midnight. -/
def timeOfDay (f : Fields) : Int :=
  f.hour * 3600000 + f.minute * 60000 + f.second * 1000 + f.millisecond

theorem toMillis_eq (f : Fields) : f.toMillis = f.toDays * 86400000 + f.timeOfDay := by
  unfold toMillis timeOfDay
  simp only [msPerDay, msPerHour, msPerMinute, msPerSecond]
  omega

theorem Valid.timeOfDay_bounds {f : Fields} (h : f.Valid) :
    0 ≤ f.timeOfDay ∧ f.timeOfDay < 86400000 := by
  obtain ⟨-, hhour, hminute, hsecond, hmilli⟩ := h
  unfold timeOfDay
  omega

theorem timeOfDay_ofMillis (t : Int) : (ofMillis t).timeOfDay = t % 86400000 := by
  have hhour : t % 86400000 / 60000 / 60 = t % 86400000 / 3600000 := by omega
  have hminute : t % 86400000 / 1000 / 60 = t % 86400000 / 60000 := by omega
  show t % 86400000 / 3600000 * 3600000 + t % 86400000 / 60000 % 60 * 60000
    + t % 86400000 / 1000 % 60 * 1000 + t % 86400000 % 1000 = t % 86400000
  omega

theorem toDays_ofMillis (t : Int) : (ofMillis t).toDays = t / 86400000 :=
  Date.toDays_ofDays (t / 86400000)

theorem ofMillis_valid (t : Int) : (ofMillis t).Valid := by
  have hday : 0 ≤ t % 86400000 ∧ t % 86400000 < 86400000 := by omega
  refine ⟨Date.ofDays_valid _, ?_, ?_, ?_, ?_⟩
  · show 0 ≤ t % 86400000 / 3600000 ∧ t % 86400000 / 3600000 ≤ 23
    omega
  · show 0 ≤ t % 86400000 / 60000 % 60 ∧ t % 86400000 / 60000 % 60 ≤ 59
    omega
  · show 0 ≤ t % 86400000 / 1000 % 60 ∧ t % 86400000 / 1000 % 60 ≤ 59
    omega
  · show 0 ≤ t % 86400000 % 1000 ∧ t % 86400000 % 1000 ≤ 999
    omega

theorem toMillis_ofMillis (t : Int) : (ofMillis t).toMillis = t := by
  rw [toMillis_eq, toDays_ofMillis, timeOfDay_ofMillis]
  omega

namespace Valid

variable {f g : Fields}

theorem toDays_eq (h : f.Valid) : f.toDays = f.toMillis / 86400000 := by
  have htime := h.timeOfDay_bounds
  rw [toMillis_eq]
  omega

/-- The clock can be read off the milliseconds since midnight. -/
theorem clock (h : f.Valid) : f.timeOfDay / 3600000 = f.hour ∧ f.timeOfDay / 60000 % 60 = f.minute ∧
    f.timeOfDay / 1000 % 60 = f.second ∧ f.timeOfDay % 1000 = f.millisecond := by
  obtain ⟨-, hhour, hminute, hsecond, hmilli⟩ := h
  unfold timeOfDay
  refine ⟨?_, ?_, ?_, ?_⟩ <;> omega

theorem ofMillis_toMillis (h : f.Valid) : ofMillis f.toMillis = f := by
  have hdays : f.toMillis / 86400000 = f.toDays := h.toDays_eq.symm
  have htime : f.toMillis % 86400000 = f.timeOfDay := by
    have hbounds := h.timeOfDay_bounds
    rw [toMillis_eq]
    omega
  obtain ⟨hhour, hminute, hsecond, hmilli⟩ := h.clock
  unfold ofMillis
  simp only [msPerDay, msPerHour, msPerMinute, msPerSecond]
  rw [hdays, htime, hhour, hminute, hsecond, hmilli, h.date.ofDays_toDays]

/-- Of two times of one day, the earlier one is told by the first field that differs. -/
theorem timeOfDay_lt (hf : f.Valid) (hg : g.Valid) (h : f.timeOfDay < g.timeOfDay) :
    f.hour < g.hour ∨ f.hour = g.hour ∧ (f.minute < g.minute ∨ f.minute = g.minute ∧
      (f.second < g.second ∨ f.second = g.second ∧ f.millisecond < g.millisecond)) := by
  obtain ⟨-, hhour, hminute, hsecond, hmilli⟩ := hf
  obtain ⟨-, hhour', hminute', hsecond', hmilli'⟩ := hg
  unfold timeOfDay at h
  rcases lt_trichotomy f.hour g.hour with hlt | hours | hgt
  · exact .inl hlt
  · refine .inr ⟨hours, ?_⟩
    rcases lt_trichotomy f.minute g.minute with hlt | minutes | hgt
    · exact .inl hlt
    · refine .inr ⟨minutes, ?_⟩
      omega
    · omega
  · omega

theorem parts_lt (hf : f.Valid) (hg : g.Valid) (h : f.toMillis < g.toMillis) :
    f.parts < g.parts := by
  have htime := hf.timeOfDay_bounds
  have htime' := hg.timeOfDay_bounds
  rw [toMillis_eq, toMillis_eq] at h
  unfold parts
  simp only [List.cons_lt_cons_iff]
  rcases lt_or_ge f.toDays g.toDays with hlt | hge
  · refine (hf.date.lt_of_toDays_lt hg.date hlt).imp_right fun ⟨hyear, hrest⟩ => ⟨hyear, ?_⟩
    exact hrest.imp_right fun ⟨hmonth, hday⟩ => ⟨hmonth, .inl hday⟩
  · have hsame : f.toDays = g.toDays := by omega
    have hdate := hf.date.eq_of_toDays_eq hg.date hsame
    have hclock := hf.timeOfDay_lt hg (by omega)
    rw [hdate]
    refine .inr ⟨rfl, .inr ⟨rfl, .inr ⟨rfl, ?_⟩⟩⟩
    refine hclock.imp_right fun ⟨hhour, hrest⟩ => ⟨hhour, ?_⟩
    refine hrest.imp_right fun ⟨hminute, hrest⟩ => ⟨hminute, ?_⟩
    exact hrest.imp_right fun ⟨hsecond, hmilli⟩ => ⟨hsecond, .inl hmilli⟩

end Valid

/-- Earlier times have fields that come first in the order of texts of numbers. -/
theorem parts_ofMillis_lt {s t : Int} (h : s < t) : (ofMillis s).parts < (ofMillis t).parts := by
  refine (ofMillis_valid s).parts_lt (ofMillis_valid t) ?_
  rwa [toMillis_ofMillis, toMillis_ofMillis]

/-! Fields out of range. -/

theorem toMillis_carry_months (f : Fields) (k : Int) :
    toMillis { f with month := f.month + 12 * k } = toMillis { f with year := f.year + k } := by
  rw [toMillis_eq, toMillis_eq]
  exact congrArg (· * 86400000 + f.timeOfDay) (Date.toDays_carry_months f.year f.month f.day k)

theorem toMillis_carry_days (f : Fields) (hpos : 1 ≤ f.month) (hle : f.month ≤ 12) :
    toMillis { f with day := f.day + daysInMonth f.year f.month }
      = toMillis { f with month := f.month + 1 } := by
  rw [toMillis_eq, toMillis_eq]
  exact congrArg (· * 86400000 + f.timeOfDay) (Date.toDays_carry_days hpos hle f.day)

end Fields

/-! The days of the week. -/

theorem weekdayOf_eq (t : Int) : weekdayOf t = (t / 86400000 + 4) % 7 := rfl

theorem weekdayOf_bounds (t : Int) : 0 ≤ weekdayOf t ∧ weekdayOf t ≤ 6 := by
  rw [weekdayOf_eq]
  omega

theorem weekdayOf_next_day (t : Int) : weekdayOf (t + msPerDay) = (weekdayOf t + 1) % 7 := by
  rw [weekdayOf_eq, weekdayOf_eq]
  unfold msPerDay
  omega

theorem weekdayOf_of_toDate_eq {s t : Int}
    (h : (Fields.ofMillis s).toDate = (Fields.ofMillis t).toDate) : weekdayOf s = weekdayOf t := by
  have hdays : s / 86400000 = t / 86400000 := by
    rw [← Fields.toDays_ofMillis, ← Fields.toDays_ofMillis, h]
  rw [weekdayOf_eq, weekdayOf_eq, hdays]

end Calendar
end EntityMachines
