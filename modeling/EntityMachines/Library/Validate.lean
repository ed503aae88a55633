import EntityMachines.Calendar.Parse
import EntityMachines.Library.Module
import EntityMachines.Pattern.Match
import EntityMachines.Value.Equality

/-!
The module `validate/`: rules that a value keeps or not, and checks of several fields at once.
-/
namespace EntityMachines
namespace Library.Validate

def digitsOf (t : Text) : Text := t.filter Byte.isDigit

/-- The length of a text or an array. -/
def length? : Value → Option Float
  | .string s => some (Float.ofNat s.length)
  | .array xs => some (Float.ofNat xs.length)
  | _ => none

/-- A digit as it counts in the check sum, doubled or not. -/
def weighted (doubled : Bool) (d : Nat) : Nat :=
  if doubled then (if 2 * d > 9 then 2 * d - 9 else 2 * d) else d

/-- The check sum of digits given from the last one on; every other digit counts twice. -/
def checkSum (doubled : Bool) : Text → Nat
  | [] => 0
  | b :: rest => weighted doubled b.digit + checkSum (!doubled) rest

def luhnValid (digits : Text) : Bool := checkSum false digits.reverse % 10 == 0

def matchesText (v : Value) (pattern : Text) (ignoreCase : Bool := false) : Bool :=
  match v with
  | .string s => Pattern.search s pattern ignoreCase
  | _ => false

def isCardNumber (v : Value) : Bool :=
  match v with
  | .string s =>
    let digits := digitsOf s
    13 ≤ digits.length && digits.length ≤ 19 && luhnValid digits
  | _ => false

def isPhone (v : Value) : Bool :=
  match v with
  | .string s => Pattern.search s "^\\+?[\\d\\s\\-().]\x7b10,\x7d$" && 10 ≤ (digitsOf s).length
  | _ => false

def isDate : Value → Bool
  | .number x => x.isFinite
  | .string s => (Calendar.parse s).isSome
  | _ => false

/-- Whether a number, if the value is one, passes a test. -/
def numberHolds (test : Float → Bool) : Value → Bool
  | .number x => test x
  | _ => false

def lengthHolds (test : Float → Bool) (v : Value) : Bool := (length? v).any test

abbrev Rule := Value → Arguments → Bool

/-- A rule for texts of a fixed pattern. -/
def textRule (pattern : Text) (ignoreCase : Bool := false) : Rule := fun v _ =>
  matchesText v pattern ignoreCase

def rules : List (Text × Rule) := [
  ("array", fun v _ => match v with | .array _ => true | _ => false),
  ("boolean", fun v _ => match v with | .bool _ => true | _ => false),
  ("creditCard", fun v _ => isCardNumber v),
  ("date", fun v _ => isDate v),
  ("email", textRule "^[^\\s@]+@[^\\s@]+\\.[^\\s@]+$"),
  ("equals", fun v args => v.equal (args.nth 0)),
  ("length", fun v args => lengthHolds (· == args.number 0) v),
  ("max", fun v args => numberHolds (· <= args.number 0) v),
  ("maxLength", fun v args => lengthHolds (· <= args.number 0) v),
  ("min", fun v args => numberHolds (· >= args.number 0) v),
  ("minLength", fun v args => lengthHolds (· >= args.number 0) v),
  ("noneOf", fun v args => !v.occursIn (args.nth 0).items),
  ("number", fun v _ => numberHolds (!·.isNaN) v),
  ("object", fun v _ => v.isMap),
  ("oneOf", fun v args => v.occursIn (args.nth 0).items),
  ("pattern", fun v args => matchesText v (args.text 0)),
  ("phone", fun v _ => isPhone v),
  ("range", fun v args => numberHolds (fun x => x >= args.number 0 && x <= args.number 1) v),
  ("required", fun v _ => match v with | .undefined | .null | .string [] => false | _ => true),
  ("string", fun v _ => match v with | .string _ => true | _ => false),
  ("url", textRule "^[A-Za-z][A-Za-z0-9+.\\-]*:[^\\s]+$"),
  ("uuid", textRule
    ("^[0-9a-f]\x7b8\x7d-[0-9a-f]\x7b4\x7d-[1-5][0-9a-f]\x7b3\x7d-" ++
      "[89ab][0-9a-f]\x7b3\x7d-[0-9a-f]\x7b12\x7d$") true)]

/-- Whether a value keeps a rule, given by name and with its arguments. An unknown rule and an
empty one are kept by all. -/
def keeps (v rule : Value) : Bool :=
  match rule.items with
  | [] => true
  | name :: args =>
    match rules.lookup name.display with
    | some holds => holds v args
    | none => true

/-- The rules that the fields of a value break. -/
def failures (subject : Value) (fields : Table Value) : List Text :=
  fields.flatMap fun (field, fieldRules) =>
    (fieldRules.items.filter fun rule => !keeps (subject.get field) rule).map fun rule =>
      field ++ ": " ++ (rule.items.headD .undefined).display ++ " validation failed"

def check (subject fields : Value) : Value :=
  let errors := failures subject fields.entries
  .map [("errors", .array (errors.map .string)), ("valid", .bool errors.isEmpty)]

def ruleOperator (rule : Rule) : Operator :=
  Operator.ofValues fun args => .ok (.bool (rule (args.nth 0) (args.drop 1)))

def operators : Library :=
  rules.map (fun (name, rule) => ("validate/" ++ name, ruleOperator rule))
    ++ ofTotal [("validate/check", fun args => check (args.nth 0) (args.nth 1))]

end Library.Validate
end EntityMachines
