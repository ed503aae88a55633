import EntityMachines.Calendar
import EntityMachines.Numeral.Layout

/-!
Written times: texts in which tokens such as `YYYY` and `mm` stand for the fields of a time, and
lengths of time in words.
-/
namespace EntityMachines
namespace Calendar

def monthNames : List String :=
  ["January", "February", "March", "April", "May", "June", "July", "August", "September",
    "October", "November", "December"]

def weekdayNames : List String :=
  ["Sunday", "Monday", "Tuesday", "Wednesday", "Thursday", "Friday", "Saturday"]

def nameAt (names : List String) (i : Int) : Text := Text.ofString (names.getD i.toNat "")

def twoDigits (n : Int) : Text := Text.zeroPadded 2 n.toNat

def lastTwo (t : Text) : Text := t.drop (t.length - 2)

/-- The tokens and their texts. Where one token begins with another the longer one comes
first. -/
def tokens (f : Fields) (weekday : Int) : List (Text × Text) :=
  [("YYYY", Text.ofInt f.year), ("YY", lastTwo (Text.ofInt f.year)),
    ("MMMM", nameAt monthNames (f.month - 1)), ("MMM", (nameAt monthNames (f.month - 1)).take 3),
    ("MM", twoDigits f.month), ("M", Text.ofInt f.month),
    ("dddd", nameAt weekdayNames weekday), ("ddd", (nameAt weekdayNames weekday).take 3),
    ("DD", twoDigits f.day), ("D", Text.ofInt f.day),
    ("HH", twoDigits f.hour), ("H", Text.ofInt f.hour),
    ("mm", twoDigits f.minute), ("m", Text.ofInt f.minute),
    ("ss", twoDigits f.second), ("s", Text.ofInt f.second)]

/-- Puts texts in the place of tokens, at each place the first token that fits. Bytes to skip
belong to a token already replaced. -/
def replaceTokens (table : List (Text × Text)) (skip : Nat) : Text → Text
  | [] => []
  | b :: rest =>
    if skip ≠ 0 then replaceTokens table (skip - 1) rest
    else
      match table.find? fun (token, _) => Text.startsWith (b :: rest) token with
      | some (token, text) => text ++ replaceTokens table (token.length - 1) rest
      | none => b :: replaceTokens table 0 rest

def format (t : Int) (pattern : Text) : Text :=
  replaceTokens (tokens (Fields.ofMillis t) (weekdayOf t)) 0 pattern

/-! How long something takes, and how far a time is from now. -/

def msOf (unit : Int) : Float := Double.ofInt unit

/-- The parts of a length of time in days, hours, minutes and seconds. Seconds are told only
where fewer than two parts come before them. -/
def durationParts (ms : Float) : List Text :=
  let part (unit : Int) (suffix : Text) (ms : Float) (parts : List Text) : Float × List Text :=
    if ms >= msOf unit then
      (Double.remainder ms (msOf unit),
        parts ++ [Numeral.plain.write (Double.floor (ms / msOf unit)) ++ suffix])
    else (ms, parts)
  let (ms, parts) := part msPerDay "d" ms []
  let (ms, parts) := part msPerHour "h" ms parts
  let (ms, parts) := part msPerMinute "m" ms parts
  if parts.length < 2 then (part msPerSecond "s" ms parts).2 else parts

def durationText (ms : Float) : Text :=
  let parts := durationParts ms.abs
  if parts.isEmpty then "0s" else Text.join " " parts

/-- The units in which a distance in time is told, each up to a bound. -/
def distanceUnits : List (Float × Float × Text) :=
  let day := msOf msPerDay
  [(msOf msPerHour, msOf msPerMinute, "minute"), (day, msOf msPerHour, "hour"),
    (day * 7.0, day, "day"), (day * 30.0, day * 7.0, "week"),
    (day * 365.0, day * 30.0, "month"), (Double.infinity, day * 365.0, "year")]

/-- A time in relation to another one, to the nearest whole unit. -/
def relativeText (t now : Float) : Text :=
  let delta := t - now
  let distance := delta.abs
  if distance < msOf msPerMinute then "just now"
  else
    match distanceUnits.find? fun (bound, _, _) => distance < bound with
    | some (_, unit, name) =>
      let count := Double.floor (distance / unit + 0.5)
      let label := Numeral.plain.write count ++ " " ++ name
        ++ (if count == 1.0 then ([] : Text) else "s")
      if delta < 0.0 then label ++ " ago" else "in " ++ label
    | none => "just now"

end Calendar
end EntityMachines
