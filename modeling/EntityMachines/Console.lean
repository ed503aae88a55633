import EntityMachines.Catalogue
import EntityMachines.Evaluator
import EntityMachines.Value.Reader

/-!
The command line: a script of expressions, or a session that reads them line by line. Effects
have nowhere to go from here and are shown instead.
-/
namespace EntityMachines

/-- What is written to the two outputs. -/
structure Shown where
  out : Text := []
  err : Text := []

namespace Console

def endLine (t : Text) : Text := t ++ ([10] : Text)

/-- An effect as it is shown, if it is one that the command line serves. -/
def echo? : Request → Option Text
  | .set changes => some ("; set " ++ (Value.map changes).toJson)
  | .emit event payload => some ("; emit " ++ event ++ " " ++ payload.toJson)
  | .navigate route _ => some ("; navigate " ++ route)
  | .persist action data => some ("; persist " ++ action ++ " " ++ data.toJson)
  | .notify message severity => some ("; notify [" ++ severity ++ "] " ++ message)
  | .renderUi slot pattern props _ =>
    some ("; render-ui " ++ slot ++ " " ++ pattern.toJson ++ " " ++ props.toJson)
  | _ => none

/-- The calls between two states, in order, as they are shown. -/
def echoes (before after : World) : Text :=
  ((after.callsSince before).filterMap fun c => echo? c.request).flatMap endLine

/-- The handlers that show effects; there are none for entities and services. -/
def handlers : Handlers where
  navigate := some []
  persist := some []
  notify := some []
  renderUi := some []
  mutate := some ⟨0, some []⟩
  emit := some (.outside [])

def context (now : Int) : Context where
  store := some 0
  payload := .map []
  now
  handlers := handlers

/-- The state at the start: one entity without data. -/
def start : World := { stores := #[.map []] }

/-- Evaluates expressions in order and shows each value after its effects. The first failure
ends the run. -/
def evaluate (ev : Evaluator) (now : Int) (out : Text) :
    List Value → World → Text × Option Fault × World
  | [], w => (out, none, w)
  | e :: rest, w =>
    match ev.evaluate e (context now) { w with elapsed := 0, deadline := none } with
    | .ok v after => evaluate ev now (out ++ echoes w after ++ endLine v.print) rest after
    | .error fault after => (out ++ echoes w after, some fault, after)

def faultText : Fault → Text
  | .raised e => e.message
  | .abandoned => "evaluation was given up"
  | .exhausted => "evaluation does not end"

def fatal (message : Text) : Text := endLine ("fatal: " ++ message)

/-- Runs a script. Tells what is shown and whether the run has succeeded. -/
def script (ev : Evaluator) (now : Int) (source : Text) : Shown × Bool :=
  match Value.readAll source with
  | .error e => ({ err := fatal e.message }, false)
  | .ok exprs =>
    match evaluate ev now [] exprs start with
    | (out, none, _) => ({ out }, true)
    | (out, some fault, _) => ({ out, err := fatal (faultText fault) }, false)

/-- A script that cannot be read from its file. -/
def unreadable (path : Text) : Shown × Bool :=
  ({ err := fatal (Error.unreadableFile path).message }, false)

def catalogueText : Text :=
  Catalogue.registry.definitions.flatMap fun d =>
    endLine (d.name ++ " (" ++ d.category ++ ") " ++ d.description)

def quitCommands : List Text := [":q", ":quit", ":exit"].map Text.ofString

def catalogueCommand : Text := ":behaviors"

end Console

/-- A session between two lines: an expression may have begun on lines before. -/
structure Console where
  world : World := Console.start
  buffer : Text := []

namespace Console

def prompt (c : Console) : Text := if c.buffer.isEmpty then "orbital> " else "......> "

/-- Takes a line. There is no session afterwards if the line asks to quit. -/
def takeLine (ev : Evaluator) (now : Int) (c : Console) (line : Text) : Shown × Option Console :=
  if c.buffer.isEmpty && quitCommands.contains line then ({}, none)
  else if c.buffer.isEmpty && line == catalogueCommand then ({ out := catalogueText }, some c)
  else
    let buffer := c.buffer ++ endLine line
    match Value.readAll buffer with
    | .error (.parse lineNumber column fault) =>
      if fault.isIncomplete then ({}, some { c with buffer })
      else
        let e := Error.parse lineNumber column fault
        ({ err := endLine ("parse error: " ++ e.message) }, some { c with buffer := [] })
    | .error e => ({ err := endLine ("error: " ++ e.message) }, some { c with buffer := [] })
    | .ok exprs =>
      match evaluate ev now [] exprs c.world with
      | (out, none, world) => ({ out }, some { world, buffer := [] })
      | (out, some fault, world) =>
        ({ out, err := endLine ("error: " ++ faultText fault) }, some { world, buffer := [] })

/-- What is shown when there are no more lines. -/
def atEnd : Text := endLine []

/-- The lines of a text; a line need not be ended if it is the last one. -/
def lines (input : Text) : List Text :=
  match (Text.splitByte 10 input).reverse with
  | [] => []
  | last :: others => (if last.isEmpty then others else last :: others).reverse

/-- A whole session, with prompts. -/
def session (ev : Evaluator) (now : Int) (shown : Shown) (c : Console) : List Text → Shown
  | [] => { shown with out := shown.out ++ c.prompt ++ atEnd }
  | line :: rest =>
    let (step, next) := takeLine ev now c line
    let shown : Shown := ⟨shown.out ++ c.prompt ++ step.out, shown.err ++ step.err⟩
    match next with
    | none => shown
    | some c => session ev now shown c rest

end Console
end EntityMachines
