import EntityMachines.Calendar.Format
import EntityMachines.Calendar.Parse
import EntityMachines.Library.Module

/-!
The module `time/`. Times are numbers of milliseconds; a fraction of a millisecond is cut off
where the calendar is asked.
-/
namespace EntityMachines
namespace Library.Time

/-- The time at a place among the arguments; a missing one is not a number. -/
def timeAt (args : Arguments) (i : Nat) : Float := args.number i Double.nan

/-- The whole milliseconds of a time. -/
def millis (t : Float) : Int := Double.toInt (Double.floor t)

def periodAt (args : Arguments) (i : Nat) : Option Calendar.Period :=
  Calendar.Period.ofText? (args.text i)

/-- Applies a function of the calendar to a time that is finite. -/
def withMillis (t : Float) (f : Int → Float) : Float :=
  if t.isFinite then f (millis t) else Double.nan

def format (t : Float) (pattern : Text) : Text :=
  if t.isFinite then Calendar.format (millis t) pattern else "Invalid Date"

/-- A time moved by the whole part of an amount of periods. -/
def add (t amount : Float) (period : Option Calendar.Period) : Float :=
  if !t.isFinite || !amount.isFinite then Double.nan
  else
    let n := Double.toInt amount
    match period with
    | some .hour => t + Double.ofInt n * Calendar.msOf Calendar.msPerHour
    | some .minute => t + Double.ofInt n * Calendar.msOf Calendar.msPerMinute
    | some .second => t + Double.ofInt n * Calendar.msOf Calendar.msPerSecond
    | some .ms => t + Double.ofInt n
    | some period => Double.ofInt (Calendar.addDays (millis t) period n)
    | none => t

/-- Whole periods between two times; years and months have a mean length. -/
def diff (a b : Float) (period : Option Calendar.Period) : Float :=
  let delta := a - b
  let day := Calendar.msOf Calendar.msPerDay
  let inUnits (unit : Float) : Float := Double.floor (delta / unit)
  match period with
  | some .year => inUnits (day * 365.25)
  | some .month => inUnits (day * 30.44)
  | some .week => inUnits (day * 7.0)
  | some .day => inUnits day
  | some .hour => inUnits (Calendar.msOf Calendar.msPerHour)
  | some .minute => inUnits (Calendar.msOf Calendar.msPerMinute)
  | some .second => inUnits (Calendar.msOf Calendar.msPerSecond)
  | some .ms | none => delta

/-- The bound of a period around a time; a time without a longer period is its own bound. -/
def bound (f : Int → Calendar.Period → Int) (t : Float) (period : Option Calendar.Period) : Float :=
  withMillis t fun n =>
    match period with
    | none | some .second | some .ms => t
    | some period => Double.ofInt (f n period)

/-- Whether two times fall into one period. Weeks and milliseconds are not told apart from exact
times. -/
def isSame (a b : Float) (period : Option Calendar.Period) : Bool :=
  let inUnits (unit : Int) (t : Float) : Float := Double.floor (t / Calendar.msOf unit)
  let agree (same : Calendar.Fields → Calendar.Fields → Bool) : Bool :=
    a.isFinite && b.isFinite
      && same (Calendar.Fields.ofMillis (millis a)) (Calendar.Fields.ofMillis (millis b))
  match period with
  | some .minute => inUnits Calendar.msPerMinute a == inUnits Calendar.msPerMinute b
  | some .second => inUnits Calendar.msPerSecond a == inUnits Calendar.msPerSecond b
  | some .year => agree fun f g => f.year == g.year
  | some .month => agree fun f g => f.year == g.year && f.month == g.month
  | some .day => agree fun f g => f.toDate == g.toDate
  | some .hour => agree fun f g => f.toDate == g.toDate && f.hour == g.hour
  | some .week | some .ms | none => a == b

def parse (t : Text) : Float :=
  match Calendar.parse t with
  | some n => Double.ofInt n
  | none => Double.nan

def field (f : Int → Int) (args : Arguments) : Value :=
  .number (withMillis (timeAt args 0) fun n => Double.ofInt (f n))

def total : Library := ofTotal [
  ("time/parse", fun args =>
    match args.nth 0 with
    | .number x => .number x
    | _ => .number (parse (args.text 0))),
  ("time/format", fun args => .string (format (timeAt args 0) (args.text 1 "YYYY-MM-DD"))),
  ("time/year", field fun n => (Calendar.Fields.ofMillis n).year),
  ("time/month", field fun n => (Calendar.Fields.ofMillis n).month),
  ("time/day", field fun n => (Calendar.Fields.ofMillis n).day),
  ("time/weekday", field Calendar.weekdayOf),
  ("time/hour", field fun n => (Calendar.Fields.ofMillis n).hour),
  ("time/minute", field fun n => (Calendar.Fields.ofMillis n).minute),
  ("time/second", field fun n => (Calendar.Fields.ofMillis n).second),
  ("time/add", fun args => .number (add (timeAt args 0) (args.number 1) (periodAt args 2))),
  ("time/subtract", fun args => .number (add (timeAt args 0) (-args.number 1) (periodAt args 2))),
  ("time/diff", fun args =>
    .number (diff (timeAt args 0) (timeAt args 1) (Calendar.Period.ofText? (args.text 2 "ms")))),
  ("time/startOf", fun args => .number (bound Calendar.startOf (timeAt args 0) (periodAt args 1))),
  ("time/endOf", fun args => .number (bound Calendar.endOf (timeAt args 0) (periodAt args 1))),
  ("time/isBefore", fun args => .bool (timeAt args 0 < timeAt args 1)),
  ("time/isAfter", fun args => .bool (timeAt args 0 > timeAt args 1)),
  ("time/isBetween", fun args =>
    .bool (timeAt args 0 >= timeAt args 1 && timeAt args 0 <= timeAt args 2)),
  ("time/isSame", fun args => .bool (isSame (timeAt args 0) (timeAt args 1) (periodAt args 2))),
  ("time/duration", fun args => .string (Calendar.durationText (args.number 0)))]

/-- An operator on values that also reads the time of its context. -/
def contextual (f : Float → Arguments → Value) : Operator := fun ev ctx args => do
  return f (Double.ofInt ctx.now) (← ev.evaluateAll ctx args)

def contextuals : Library :=
  let functions : List (String × (Float → Arguments → Value)) := [
    ("time/now", fun now _ => .number now),
    ("time/today", fun now _ => .number (bound Calendar.startOf now (some .day))),
    ("time/isPast", fun now args => .bool (timeAt args 0 < now)),
    ("time/isFuture", fun now args => .bool (timeAt args 0 > now)),
    ("time/isToday", fun now args => .bool (isSame (timeAt args 0) now (some .day))),
    ("time/relative", fun now args => .string (Calendar.relativeText (timeAt args 0) now))]
  functions.map fun (name, f) => (Text.ofString name, contextual f)

def operators : Library := total ++ contextuals

end Library.Time
end EntityMachines
