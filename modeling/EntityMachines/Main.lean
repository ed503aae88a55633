import EntityMachines.Console
import Std.Time.DateTime.Timestamp

/-!
The command `entity-machines`: with a path it runs the script there, without one it starts a
session on the standard input.
-/
namespace EntityMachines
namespace Main

def bytes (t : Text) : ByteArray := ⟨t.toArray⟩

def text (b : ByteArray) : Text := b.data.toList

def write (shown : Shown) : IO Unit := do
  let out ← IO.getStdout
  out.write (bytes shown.out)
  out.flush
  let err ← IO.getStderr
  err.write (bytes shown.err)

/-- Milliseconds since the epoch. -/
def now : IO Int := do
  return (← Std.Time.Timestamp.now).toMillisecondsSinceUnixEpoch.val

/-- The next line without its end, if there is one. -/
partial def readLine (input : IO.FS.Stream) (line : Text := []) : IO (Option Text) := do
  let b ← input.read 1
  match text b with
  | [] => return if line.isEmpty then none else some line.reverse
  | b :: _ => if b == 10 then return some line.reverse else readLine input (b :: line)

partial def converse (c : Console) : IO Unit := do
  write { out := c.prompt }
  match ← readLine (← IO.getStdin) with
  | none => write { out := Console.atEnd }
  | some line =>
    let (shown, next) := c.takeLine .standard (← now) line
    write shown
    if let some c := next then converse c

def readFile? (path : String) : IO (Option Text) := do
  try return some (text (← IO.FS.readBinFile path))
  catch _ => return none

end Main
end EntityMachines

open EntityMachines in
def main (args : List String) : IO UInt32 := do
  match args with
  | [] =>
    Main.converse {}
    return 0
  | path :: _ =>
    let (shown, succeeded) ←
      match ← Main.readFile? path with
      | some source => pure (Console.script .standard (← Main.now) source)
      | none => pure (Console.unreadable path)
    Main.write shown
    return if succeeded then 0 else 1
