import EntityMachines.Calendar

/-!
Reading a date, or a date with a time of day and a zone. A time without a zone is in universal
time.
-/
namespace EntityMachines
namespace Calendar

/-- The number that exactly so many digits at the front of a text stand for. -/
def digits (count : Nat) (t : Text) : Option (Nat × Text) :=
  let ds := t.take count
  if ds.length = count ∧ ds.all Byte.isDigit then
    some (ds.foldl (fun n b => n * 10 + b.digit) 0, t.drop count)
  else none

/-- A byte at the front of a text, which has to be one of several. -/
def mark (allowed : List Char) (t : Text) : Option (Byte × Text) :=
  match t with
  | b :: rest => if allowed.any fun c => b == c.toUInt8 then some (b, rest) else none
  | [] => none

/-- The milliseconds of a fraction of a second; digits after the third are dropped. -/
def fraction (t : Text) : Nat × Text :=
  match mark ['.'] t with
  | some (_, rest) =>
    let ds := rest.takeWhile Byte.isDigit
    if ds.isEmpty then (0, t)
    else
      let kept := ds.take 3
      (kept.foldl (fun n b => n * 10 + b.digit) 0 * Nat.pow 10 (3 - kept.length),
        rest.dropWhile Byte.isDigit)
  | none => (0, t)

/-- Seconds with a fraction behind a colon; none are zero. -/
def seconds (t : Text) : Nat × Nat × Text :=
  let found := do
    let (_, rest) ← mark [':'] t
    digits 2 rest
  match found with
  | some (s, rest) =>
    let (ms, rest) := fraction rest
    (s, ms, rest)
  | none => (0, 0, t)

/-- A time of day behind a date. -/
def timeOfDay (t : Text) : Option (Nat × Nat × Nat × Nat × Text) := do
  let (_, rest) ← mark ['T', ' '] t
  let (hour, rest) ← digits 2 rest
  let (_, rest) ← mark [':'] rest
  let (minute, rest) ← digits 2 rest
  let (second, ms, rest) := seconds rest
  return (hour, minute, second, ms, rest)

/-- The milliseconds by which a zone is ahead of universal time. -/
def zone (t : Text) : Option (Int × Text) := do
  let (sign, rest) ← mark ['Z', '+', '-'] t
  if sign == 'Z' then return (0, rest)
  else
    let (hours, rest) ← digits 2 rest
    let rest := if rest.head? == some (58 : Byte) then rest.drop 1 else rest
    let (minutes, rest) ← digits 2 rest
    let offset := (hours : Int) * msPerHour + (minutes : Int) * msPerMinute
    return (if sign == '-' then -offset else offset, rest)

/-- The time that a whole text stands for, blanks around it and before the zone aside. The hour
may be 24, which is the first of the next day. -/
def parse (t : Text) : Option Int := do
  let (year, rest) ← digits 4 t.trimStart
  let (_, rest) ← mark ['-'] rest
  let (month, rest) ← digits 2 rest
  let (_, rest) ← mark ['-'] rest
  let (day, rest) ← digits 2 rest
  let (hour, minute, second, ms, rest) := (timeOfDay rest).getD (0, 0, 0, 0, rest)
  let (offset, rest) := (zone rest.trimStart).getD (0, rest.trimStart)
  if rest.trimStart.isEmpty ∧ 1 ≤ month ∧ month ≤ 12 ∧ 1 ≤ day
      ∧ (day : Int) ≤ daysInMonth year month ∧ hour ≤ 24 ∧ minute ≤ 59 ∧ second ≤ 59 then
    some (Fields.toMillis ⟨⟨year, month, day⟩, hour, minute, second, ms⟩ - offset)
  else none

end Calendar
end EntityMachines
