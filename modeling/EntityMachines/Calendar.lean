import EntityMachines.Text

/-!
The calendar: milliseconds since the epoch and the fields of a date and a time of day in it, in
universal time and by the rules of Gregory's calendar for all years.
-/
namespace EntityMachines
namespace Calendar

def msPerSecond : Int := 1000

def msPerMinute : Int := 60000

def msPerHour : Int := 3600000

def msPerDay : Int := 86400000

/-- Months count from one to twelve, days from one. -/
structure Date where
  year : Int
  month : Int
  day : Int
deriving DecidableEq, Repr

structure Fields extends Date where
  hour : Int
  minute : Int
  second : Int
  millisecond : Int
deriving DecidableEq, Repr

def isLeapYear (year : Int) : Bool := year % 4 = 0 ∧ (year % 100 ≠ 0 ∨ year % 400 = 0)

def daysInMonth (year month : Int) : Int :=
  if month = 2 then (if isLeapYear year then 29 else 28)
  else if month = 4 ∨ month = 6 ∨ month = 9 ∨ month = 11 then 30
  else 31

/-- Days from the epoch to the first day of a month. Years are counted from March, so that leap
days fall on their ends. -/
def daysToMonth (year month : Int) : Int :=
  let y := if month ≤ 2 then year - 1 else year
  let m := if month ≤ 2 then month + 9 else month - 3
  365 * y + y / 4 - y / 100 + y / 400 + (153 * m + 2) / 5 - 719468

/-- Days from the epoch to a date. A month out of range counts on in neighbouring years, and a
day out of range in neighbouring months. -/
def Date.toDays (d : Date) : Int :=
  daysToMonth (d.year + (d.month - 1) / 12) ((d.month - 1) % 12 + 1) + (d.day - 1)

/-- The date that is a number of days from the epoch. -/
def Date.ofDays (days : Int) : Date :=
  let z := days + 719468
  let era := z / 146097
  let dayOfEra := z % 146097
  let yearOfEra := (dayOfEra - dayOfEra / 1460 + dayOfEra / 36524 - dayOfEra / 146096) / 365
  let dayOfYear := dayOfEra - (365 * yearOfEra + yearOfEra / 4 - yearOfEra / 100)
  let m := (5 * dayOfYear + 2) / 153
  let month := if m < 10 then m + 3 else m - 9
  { year := yearOfEra + era * 400 + (if month ≤ 2 then 1 else 0)
    month
    day := dayOfYear - (153 * m + 2) / 5 + 1 }

/-- The day of the week, counted from Sunday as zero. -/
def weekday (days : Int) : Int := (days + 4) % 7

namespace Fields

def ofMillis (t : Int) : Fields :=
  let time := t % msPerDay
  { Date.ofDays (t / msPerDay) with
    hour := time / msPerHour
    minute := time / msPerMinute % 60
    second := time / msPerSecond % 60
    millisecond := time % 1000 }

/-- Fields out of range carry over. -/
def toMillis (f : Fields) : Int :=
  f.toDays * msPerDay + f.hour * msPerHour + f.minute * msPerMinute + f.second * msPerSecond
    + f.millisecond

end Fields

def weekdayOf (t : Int) : Int := weekday (t / msPerDay)

inductive Period where
  | year | month | week | day | hour | minute | second | ms
deriving DecidableEq, Repr

def Period.ofText? (name : Text) : Option Period :=
  if name = "year" then some .year
  else if name = "month" then some .month
  else if name = "week" then some .week
  else if name = "day" then some .day
  else if name = "hour" then some .hour
  else if name = "minute" then some .minute
  else if name = "second" then some .second
  else if name = "ms" then some .ms
  else none

/-- The first millisecond of the period around a time. Periods below a minute are not cut. -/
def startOf (t : Int) (period : Period) : Int :=
  let f := Fields.ofMillis t
  let midnight (d : Date) : Int :=
    Fields.toMillis { d with hour := 0, minute := 0, second := 0, millisecond := 0 }
  match period with
  | .year => midnight ⟨f.year, 1, 1⟩
  | .month => midnight ⟨f.year, f.month, 1⟩
  | .week => midnight ⟨f.year, f.month, f.day - weekdayOf t⟩
  | .day => midnight f.toDate
  | .hour => Fields.toMillis { f with minute := 0, second := 0, millisecond := 0 }
  | .minute => Fields.toMillis { f with second := 0, millisecond := 0 }
  | .second | .ms => t

/-- The last millisecond of the period around a time. -/
def endOf (t : Int) (period : Period) : Int :=
  let f := Fields.ofMillis t
  let lastOf (d : Date) : Int :=
    Fields.toMillis { d with hour := 23, minute := 59, second := 59, millisecond := 999 }
  match period with
  | .year => lastOf ⟨f.year, 12, 31⟩
  | .month => lastOf ⟨f.year, f.month, daysInMonth f.year f.month⟩
  | .week => lastOf ⟨f.year, f.month, f.day + (6 - weekdayOf t)⟩
  | .day => lastOf f.toDate
  | .hour => Fields.toMillis { f with minute := 59, second := 59, millisecond := 999 }
  | .minute => Fields.toMillis { f with second := 59, millisecond := 999 }
  | .second | .ms => t

/-- A time moved by whole years, months, weeks or days, with the time of day kept. -/
def addDays (t : Int) (period : Period) (amount : Int) : Int :=
  let f := Fields.ofMillis t
  match period with
  | .year => Fields.toMillis { f with year := f.year + amount }
  | .month => Fields.toMillis { f with month := f.month + amount }
  | .week => Fields.toMillis { f with day := f.day + amount * 7 }
  | .day => Fields.toMillis { f with day := f.day + amount }
  | _ => t

end Calendar
end EntityMachines
