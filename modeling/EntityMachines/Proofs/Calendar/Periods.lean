import EntityMachines.Proofs.Calendar.Dates

/-!
Periods are numbered, each begins where the one before it ends, and a time is in one of them. Main
statements: the bounds of the period around a time are where the period of its number begins and
where it ends; and a time is moved by two numbers of periods, one after the other, as by their sum.
-/
namespace EntityMachines
namespace Calendar

namespace Period

/-- The number of the period of a time. Below a minute each millisecond is a period. -/
def index (u : Period) (t : Int) : Int :=
  match u with
  | .year => (Fields.ofMillis t).year
  | .month => (Fields.ofMillis t).monthNumber
  | .week => (t / 86400000 + 4) / 7
  | .day => t / 86400000
  | .hour => t / 3600000
  | .minute => t / 60000
  | .second | .ms => t

/-- The first time of a period by its number. The epoch is in a week that began four days
before it. -/
def first (u : Period) (i : Int) : Int :=
  match u with
  | .year => monthStart (12 * i) * 86400000
  | .month => monthStart i * 86400000
  | .week => (7 * i - 4) * 86400000
  | .day => i * 86400000
  | .hour => i * 3600000
  | .minute => i * 60000
  | .second | .ms => i

variable {u : Period} {i t s : Int}

theorem first_strictMono (u : Period) : StrictMono u.first := by
  intro i j hlt
  cases u with
  | year =>
    have hmonths : monthStart (12 * i) < monthStart (12 * j) := monthStart_strictMono (by omega)
    show monthStart (12 * i) * 86400000 < monthStart (12 * j) * 86400000
    omega
  | month =>
    have hmonths : monthStart i < monthStart j := monthStart_strictMono hlt
    show monthStart i * 86400000 < monthStart j * 86400000
    omega
  | week => show (7 * i - 4) * 86400000 < (7 * j - 4) * 86400000; omega
  | day => show i * 86400000 < j * 86400000; omega
  | hour => show i * 3600000 < j * 3600000; omega
  | minute => show i * 60000 < j * 60000; omega
  | second => exact hlt
  | ms => exact hlt

/-- The day of a time lies in the month of its date. -/
theorem month_bounds (t : Int) : monthStart (Fields.ofMillis t).monthNumber ≤ t / 86400000 ∧
    t / 86400000 < monthStart ((Fields.ofMillis t).monthNumber + 1) := by
  have hdate := (Fields.ofMillis_valid t).date
  have hpos := hdate.day_pos
  have hle := hdate.day_le
  have hdays := Fields.toDays_ofMillis t
  rw [Date.toDays_eq] at hdays
  rw [monthStart_succ, hdate.monthLength_eq]
  omega

/-- The month of a date lies in its year. -/
theorem year_bounds {d : Date} (h : d.Valid) :
    12 * d.year ≤ d.monthNumber ∧ d.monthNumber + 1 ≤ 12 * (d.year + 1) := by
  have hpos := h.month_pos
  have hle := h.month_le
  unfold Date.monthNumber
  omega

theorem first_index_le (u : Period) (t : Int) : u.first (u.index t) ≤ t := by
  have hmonth := month_bounds t
  cases u with
  | year =>
    have hyear := year_bounds (Fields.ofMillis_valid t).date
    have hstart := monthStart_strictMono.monotone hyear.1
    show monthStart (12 * (Fields.ofMillis t).year) * 86400000 ≤ t
    omega
  | month =>
    show monthStart (Fields.ofMillis t).monthNumber * 86400000 ≤ t
    omega
  | week => show (7 * ((t / 86400000 + 4) / 7) - 4) * 86400000 ≤ t; omega
  | day => show t / 86400000 * 86400000 ≤ t; omega
  | hour => show t / 3600000 * 3600000 ≤ t; omega
  | minute => show t / 60000 * 60000 ≤ t; omega
  | second => exact le_rfl
  | ms => exact le_rfl

theorem lt_first_index_succ (u : Period) (t : Int) : t < u.first (u.index t + 1) := by
  have hmonth := month_bounds t
  cases u with
  | year =>
    have hyear := year_bounds (Fields.ofMillis_valid t).date
    have hend := monthStart_strictMono.monotone hyear.2
    show t < monthStart (12 * ((Fields.ofMillis t).year + 1)) * 86400000
    omega
  | month =>
    show t < monthStart ((Fields.ofMillis t).monthNumber + 1) * 86400000
    omega
  | week => show t < (7 * ((t / 86400000 + 4) / 7 + 1) - 4) * 86400000; omega
  | day => show t < (t / 86400000 + 1) * 86400000; omega
  | hour => show t < (t / 3600000 + 1) * 3600000; omega
  | minute => show t < (t / 60000 + 1) * 60000; omega
  | second => exact lt_add_one t
  | ms => exact lt_add_one t

/-- No period is longer than a leap year. -/
theorem first_succ_le (u : Period) (i : Int) : u.first (i + 1) ≤ u.first i + 366 * 86400000 := by
  cases u with
  | year =>
    have hyear (y : Int) : monthStart (12 * y) = daysToMonth y 1 := by
      unfold monthStart
      rw [Int.mul_ediv_cancel_left y (by decide), Int.mul_emod_right]
      rfl
    have hlength : daysToMonth (i + 1) 1 ≤ daysToMonth i 1 + 366 := by
      unfold daysToMonth
      norm_num
      omega
    show monthStart (12 * (i + 1)) * 86400000 ≤ monthStart (12 * i) * 86400000 + 366 * 86400000
    rw [hyear, hyear]
    omega
  | month =>
    have hlength : monthLength i ≤ 31 := (daysInMonth_bounds _ _).2
    show monthStart (i + 1) * 86400000 ≤ monthStart i * 86400000 + 366 * 86400000
    rw [monthStart_succ]
    omega
  | week => show (7 * (i + 1) - 4) * 86400000 ≤ (7 * i - 4) * 86400000 + 366 * 86400000; omega
  | day => show (i + 1) * 86400000 ≤ i * 86400000 + 366 * 86400000; omega
  | hour => show (i + 1) * 3600000 ≤ i * 3600000 + 366 * 86400000; omega
  | minute => show (i + 1) * 60000 ≤ i * 60000 + 366 * 86400000; omega
  | second => show i + 1 ≤ i + 366 * 86400000; omega
  | ms => show i + 1 ≤ i + 366 * 86400000; omega

/-- A time is in the one period that has begun and whose next one has not. -/
theorem index_eq_iff : u.index t = i ↔ u.first i ≤ t ∧ t < u.first (i + 1) := by
  constructor
  · rintro rfl
    exact ⟨first_index_le u t, lt_first_index_succ u t⟩
  · rintro ⟨hbegun, hnext⟩
    have hlow : i < u.index t + 1 :=
      (first_strictMono u).lt_iff_lt.mp (hbegun.trans_lt (lt_first_index_succ u t))
    have hhigh : u.index t < i + 1 :=
      (first_strictMono u).lt_iff_lt.mp ((first_index_le u t).trans_lt hnext)
    omega

theorem index_first (u : Period) (i : Int) : u.index (u.first i) = i :=
  index_eq_iff.mpr ⟨le_rfl, first_strictMono u (lt_add_one i)⟩

end Period

/-! The bounds of periods. -/

section bounds

variable (t : Int)

theorem midnight_eq (d : Date) :
    Fields.toMillis { d with hour := 0, minute := 0, second := 0, millisecond := 0 }
      = d.toDays * 86400000 := by
  rw [Fields.toMillis_eq]
  exact add_zero _

theorem lastOf_eq (d : Date) :
    Fields.toMillis { d with hour := 23, minute := 59, second := 59, millisecond := 999 }
      = (d.toDays + 1) * 86400000 - 1 := by
  rw [Fields.toMillis_eq]
  show d.toDays * 86400000 + 86399999 = (d.toDays + 1) * 86400000 - 1
  omega

theorem toDays_add_days (d : Date) (n : Int) :
    Date.toDays ⟨d.year, d.month, d.day + n⟩ = d.toDays + n := by
  rw [Date.toDays_eq, Date.toDays_eq d]
  show monthStart d.monthNumber + (d.day + n - 1) = monthStart d.monthNumber + (d.day - 1) + n
  omega

theorem toDays_first (y m : Int) : Date.toDays ⟨y, m, 1⟩ = monthStart (12 * y + (m - 1)) := by
  rw [Date.toDays_eq]
  exact add_zero _

/-- The day of a date behind the last one of its month is the first of the next month. -/
theorem toDays_last {y m : Int} (hpos : 1 ≤ m) (hle : m ≤ 12) :
    Date.toDays ⟨y, m, daysInMonth y m⟩ + 1 = monthStart (12 * y + (m - 1) + 1) := by
  have hcarry := Date.toDays_carry_days (y := y) hpos hle 1
  have hnext := toDays_first y (m + 1)
  rw [add_comm 1, toDays_add_days ⟨y, m, daysInMonth y m⟩ 1] at hcarry
  rw [hcarry, hnext]
  congr 1
  omega

/-- The first time of a period is the one at which its number begins. -/
theorem startOf_eq (u : Period) : startOf t u = u.first (u.index t) := by
  have hdays := Fields.toDays_ofMillis t
  cases u with
  | year =>
    have hstart := toDays_first (Fields.ofMillis t).year 1
    rw [sub_self, add_zero] at hstart
    exact (midnight_eq _).trans (congrArg (· * 86400000) hstart)
  | month => exact (midnight_eq _).trans (congrArg (· * 86400000) (toDays_first _ _))
  | week =>
    refine (midnight_eq _).trans ?_
    rw [sub_eq_add_neg, toDays_add_days, hdays, weekdayOf_eq]
    show _ = (7 * ((t / 86400000 + 4) / 7) - 4) * 86400000
    omega
  | day =>
    refine (midnight_eq _).trans ?_
    rw [hdays]
    rfl
  | hour =>
    refine (Fields.toMillis_eq _).trans ?_
    show (Fields.ofMillis t).toDays * 86400000
      + (t % 86400000 / 3600000 * 3600000 + 0 * 60000 + 0 * 1000 + 0) = t / 3600000 * 3600000
    omega
  | minute =>
    refine (Fields.toMillis_eq _).trans ?_
    show (Fields.ofMillis t).toDays * 86400000 + (t % 86400000 / 3600000 * 3600000
      + t % 86400000 / 60000 % 60 * 60000 + 0 * 1000 + 0) = t / 60000 * 60000
    omega
  | second => rfl
  | ms => rfl

/-- Behind the last time of a period the next one begins. -/
theorem endOf_eq (u : Period) : endOf t u = u.first (u.index t + 1) - 1 := by
  have hdays := Fields.toDays_ofMillis t
  cases u with
  | year =>
    have hnext := toDays_last (y := (Fields.ofMillis t).year) (m := 12) (by decide) (by decide)
    refine (lastOf_eq _).trans ?_
    show (Date.toDays ⟨(Fields.ofMillis t).year, 12, 31⟩ + 1) * 86400000 - 1
      = monthStart (12 * ((Fields.ofMillis t).year + 1)) * 86400000 - 1
    rw [show 12 * (Fields.ofMillis t).year + (12 - 1) + 1
      = 12 * ((Fields.ofMillis t).year + 1) by omega] at hnext
    rw [← hnext]
    rfl
  | month =>
    have hdate := (Fields.ofMillis_valid t).date
    have hnext := toDays_last (y := (Fields.ofMillis t).year) hdate.month_pos hdate.month_le
    exact (lastOf_eq _).trans (congrArg (· * 86400000 - 1) hnext)
  | week =>
    refine (lastOf_eq _).trans ?_
    rw [toDays_add_days, hdays, weekdayOf_eq]
    show _ = (7 * ((t / 86400000 + 4) / 7 + 1) - 4) * 86400000 - 1
    omega
  | day =>
    refine (lastOf_eq _).trans ?_
    rw [hdays]
    rfl
  | hour =>
    refine (Fields.toMillis_eq _).trans ?_
    show (Fields.ofMillis t).toDays * 86400000 + (t % 86400000 / 3600000 * 3600000
      + 59 * 60000 + 59 * 1000 + 999) = (t / 3600000 + 1) * 3600000 - 1
    omega
  | minute =>
    refine (Fields.toMillis_eq _).trans ?_
    show (Fields.ofMillis t).toDays * 86400000 + (t % 86400000 / 3600000 * 3600000
      + t % 86400000 / 60000 % 60 * 60000 + 59 * 1000 + 999) = (t / 60000 + 1) * 60000 - 1
    omega
  | second => exact (add_sub_cancel_right t 1).symm
  | ms => exact (add_sub_cancel_right t 1).symm

theorem startOf_le (u : Period) : startOf t u ≤ t := by
  rw [startOf_eq]
  exact u.first_index_le t

theorem le_endOf (u : Period) : t ≤ endOf t u := by
  have hlt := u.lt_first_index_succ t
  rw [endOf_eq]
  omega

end bounds

/-- What lies between the bounds of a period is in it. -/
theorem index_eq_of_mem {u : Period} {s t : Int} (hfirst : startOf t u ≤ s) (hlast : s ≤ endOf t u) :
    u.index s = u.index t := by
  rw [startOf_eq] at hfirst
  rw [endOf_eq] at hlast
  exact Period.index_eq_iff.mpr ⟨hfirst, by omega⟩

theorem startOf_endOf_succ (u : Period) (t : Int) : startOf (endOf t u + 1) u = endOf t u + 1 := by
  rw [endOf_eq, Int.sub_add_cancel, startOf_eq, Period.index_first]

/-- Two times have the same bounds exactly if they are in one period. -/
theorem startOf_eq_iff {u : Period} {s t : Int} : startOf s u = startOf t u ↔ u.index s = u.index t := by
  rw [startOf_eq, startOf_eq]
  exact u.first_strictMono.injective.eq_iff

/-!
Times moved by a number of periods. Weeks, days and the periods of the clock have one length each;
months are counted on through all years, and a year is twelve of them. On a day that each month has,
to move a time by one number of periods and then by another is to move it by their sum, and the day
of the month and the time of day stay as they are.
-/

section shifts

variable {t : Int} {u : Period}

/-- The time that is a number of periods behind another one. -/
def shifted (t : Int) (u : Period) (n : Int) : Int :=
  match u with
  | .hour => t + n * msPerHour
  | .minute => t + n * msPerMinute
  | .second => t + n * msPerSecond
  | .ms => t + n
  | u => addDays t u n

theorem addDays_day (t n : Int) : addDays t .day n = t + n * 86400000 := by
  have htime := Fields.toMillis_eq (Fields.ofMillis t)
  rw [Fields.toMillis_ofMillis] at htime
  refine (Fields.toMillis_eq _).trans ?_
  show Date.toDays ⟨_, _, (Fields.ofMillis t).day + n⟩ * 86400000 + (Fields.ofMillis t).timeOfDay = _
  rw [toDays_add_days]
  omega

theorem addDays_week (t n : Int) : addDays t .week n = t + n * 604800000 := by
  have hdays : addDays t .week n = addDays t .day (n * 7) := rfl
  rw [hdays, addDays_day]
  omega

theorem addDays_year (t n : Int) : addDays t .year n = addDays t .month (12 * n) :=
  (Fields.toMillis_carry_months (Fields.ofMillis t) n).symm

namespace Fields

/-- The same day and time of day in the month of a number. -/
def inMonth (f : Fields) (k : Int) : Fields := { f with year := k / 12, month := k % 12 + 1 }

theorem monthNumber_inMonth (f : Fields) (k : Int) : (f.inMonth k).monthNumber = k := by
  unfold inMonth Date.monthNumber
  dsimp only
  omega

/-- A day that each month has is a day of the month. -/
theorem Valid.inMonth {f : Fields} (hf : f.Valid) (h : f.day ≤ 28) (k : Int) :
    (f.inMonth k).Valid := by
  have hlength := (daysInMonth_bounds (k / 12) (k % 12 + 1)).1
  have hmonth : 1 ≤ k % 12 + 1 ∧ k % 12 + 1 ≤ 12 := by omega
  exact ⟨⟨hmonth.1, hmonth.2, hf.date.day_pos, h.trans hlength⟩, hf.hour, hf.minute, hf.second,
    hf.millisecond⟩

/-- A time is told by the number of its month, the day in it and the time of day. -/
theorem toMillis_congr {f g : Fields} (hmonth : f.monthNumber = g.monthNumber)
    (hday : f.day = g.day) (htime : f.timeOfDay = g.timeOfDay) : f.toMillis = g.toMillis := by
  rw [toMillis_eq, toMillis_eq, Date.toDays_eq, Date.toDays_eq, hmonth, hday, htime]

end Fields

theorem addDays_month (t n : Int) : addDays t .month n
    = ((Fields.ofMillis t).inMonth ((Fields.ofMillis t).monthNumber + n)).toMillis := by
  refine Fields.toMillis_congr ?_ rfl rfl
  rw [Fields.monthNumber_inMonth]
  unfold Date.monthNumber
  dsimp only
  omega

/-- A day that each month has is the same day some months later. -/
theorem ofMillis_addDays_month (h : (Fields.ofMillis t).day ≤ 28) (n : Int) :
    Fields.ofMillis (addDays t .month n)
      = (Fields.ofMillis t).inMonth ((Fields.ofMillis t).monthNumber + n) := by
  rw [addDays_month]
  exact ((Fields.ofMillis_valid t).inMonth h _).ofMillis_toMillis

theorem addDays_month_month (h : (Fields.ofMillis t).day ≤ 28) (n m : Int) :
    addDays (addDays t .month n) .month m = addDays t .month (n + m) := by
  rw [addDays_month (addDays t .month n), ofMillis_addDays_month h, addDays_month t,
    Fields.monthNumber_inMonth, Int.add_assoc]
  rfl

/-- Months later on a day that each month has, the clock shows the same time of the same day. -/
theorem shifted_keeps_day (hu : u = .month ∨ u = .year) (h : (Fields.ofMillis t).day ≤ 28)
    (n : Int) : (Fields.ofMillis (shifted t u n)).day = (Fields.ofMillis t).day ∧
      (Fields.ofMillis (shifted t u n)).timeOfDay = (Fields.ofMillis t).timeOfDay := by
  rcases hu with rfl | rfl
  · rw [show shifted t .month n = addDays t .month n from rfl, ofMillis_addDays_month h]
    exact ⟨rfl, rfl⟩
  · rw [show shifted t .year n = addDays t .month (12 * n) from addDays_year t n,
      ofMillis_addDays_month h]
    exact ⟨rfl, rfl⟩

theorem shifted_zero (t : Int) (u : Period) : shifted t u 0 = t := by
  have hkept : Fields.toMillis { Fields.ofMillis t with month := (Fields.ofMillis t).month + 0 } = t := by
    rw [Int.add_zero]
    exact Fields.toMillis_ofMillis t
  cases u with
  | year => exact (addDays_year t 0).trans hkept
  | month => exact hkept
  | week => exact (addDays_week t 0).trans (by omega)
  | day => exact (addDays_day t 0).trans (by omega)
  | hour => show t + 0 * msPerHour = t; omega
  | minute => show t + 0 * msPerMinute = t; omega
  | second => show t + 0 * msPerSecond = t; omega
  | ms => exact Int.add_zero t

/-- Periods add up. -/
theorem shifted_shifted (h : u = .month ∨ u = .year → (Fields.ofMillis t).day ≤ 28) (n m : Int) :
    shifted (shifted t u n) u m = shifted t u (n + m) := by
  cases u with
  | year =>
    show addDays (addDays t .year n) .year m = addDays t .year (n + m)
    rw [addDays_year, addDays_year, addDays_year, addDays_month_month (h (.inr rfl)), mul_add]
  | month => exact addDays_month_month (h (.inl rfl)) n m
  | week =>
    show addDays (addDays t .week n) .week m = addDays t .week (n + m)
    rw [addDays_week, addDays_week, addDays_week]
    omega
  | day =>
    show addDays (addDays t .day n) .day m = addDays t .day (n + m)
    rw [addDays_day, addDays_day, addDays_day]
    omega
  | hour =>
    show t + n * msPerHour + m * msPerHour = t + (n + m) * msPerHour
    rw [Int.add_mul, Int.add_assoc]
  | minute =>
    show t + n * msPerMinute + m * msPerMinute = t + (n + m) * msPerMinute
    rw [Int.add_mul, Int.add_assoc]
  | second =>
    show t + n * msPerSecond + m * msPerSecond = t + (n + m) * msPerSecond
    rw [Int.add_mul, Int.add_assoc]
  | ms => exact Int.add_assoc t n m

end shifts

end Calendar
end EntityMachines
