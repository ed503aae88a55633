import EntityMachines.Text

/-!
Logs keep the newest records up to a capacity. Every record written gets the next number, also
one that is not kept, so that the numbers in a log show what has been lost.
-/
namespace EntityMachines

namespace Log

inductive Level where
  | debug | info | warn | error
  /-- A level without a name of its own. -/
  | other
deriving DecidableEq, Repr, Inhabited

def Level.name : Level → Text
  | debug => "debug"
  | info => "info"
  | warn => "warn"
  | error => "error"
  | other => "unknown"

/-- The levels by their number, counted from the least severe. -/
def Level.ofIndex : Int → Level
  | 0 => debug
  | 1 => info
  | 2 => warn
  | 3 => error
  | _ => other

structure Record where
  number : Nat
  /-- Nanoseconds on the clock of the log. -/
  time : Int
  level : Level
  category : Text
  /-- The machine that wrote the record; empty for anything else. -/
  source : Text
  message : Text
deriving DecidableEq, Repr

end Log

open Log in
structure Log where
  capacity : Nat
  records : List Record
  /-- The records written so far, kept or not. -/
  written : Nat
deriving DecidableEq, Repr

namespace Log

def empty (capacity : Nat) : Log := ⟨capacity, [], 0⟩

/-- Writes a record under the next number. A full log gives up its oldest record. -/
def write (log : Log) (level : Level) (category source message : Text) (time : Int) : Log :=
  let record : Record := ⟨log.written + 1, time, level, category, source, message⟩
  let kept :=
    if log.capacity = 0 then []
    else (if log.records.length = log.capacity then log.records.drop 1 else log.records) ++ [record]
  { log with records := kept, written := log.written + 1 }

def clear (log : Log) : Log := { log with records := [] }

def size (log : Log) : Nat := log.records.length

/-- One line for a record. -/
def Record.line (r : Record) : Text :=
  let source : Text := if r.source.isEmpty then [] else " instance=" ++ r.source
  Text.ofNat r.number ++ " level=" ++ r.level.name ++ " ts_ns=" ++ Text.ofInt r.time ++ " category="
    ++ r.category ++ source ++ " msg=" ++ r.message ++ ([10] : Text)

def text (log : Log) : Text := log.records.flatMap Record.line

/-- A record without its number and time. -/
def Record.brief (r : Record) : Text :=
  Text.join "|" [r.level.name, r.category, r.source, r.message]

end Log

end EntityMachines
