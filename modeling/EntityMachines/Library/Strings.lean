import EntityMachines.Library.Module
import EntityMachines.Text.Case
import EntityMachines.Text.Search
import EntityMachines.Value.Items

/-!
The module `str/`.
-/
namespace EntityMachines
namespace Library.Strings

def length (v : Value) : Nat :=
  match v with
  | .string s => s.length
  | .array xs => xs.length
  | _ => 0

/-- As much of a repeated text as fills up to a length. -/
def filling (t : Text) (length : Float) (fill : Text) : Text :=
  if fill.isEmpty || length.isNaN || length <= Float.ofNat t.length then []
  else
    let needed := (Double.toInt length).toNat - t.length
    ((List.replicate (needed / fill.length + 1) fill).flatten).take needed

def replicate (t : Text) (count : Float) : Except Error Value :=
  if count < 0.0 || count.isInf then .error (.repeatCount count)
  else .ok (.string (List.replicate (Double.toInt count).toNat t).flatten)

/-- The parts of a text; a nullish value has none. -/
def split (v : Value) (delimiter : Text) : Value :=
  if v.isNullish then .array [] else .array ((Text.splitOn v.display delimiter).map .string)

/-- The texts of the items with a delimiter between them; nullish items are empty. -/
def join (v : Value) (delimiter : Text) : Text :=
  match v with
  | .array items => Text.join delimiter (items.map Value.displayItem)
  | v => if v.isNullish then [] else v.display

/-- A text cut to a length and ended by a suffix; a text that is short enough stays. -/
def truncate (t : Text) (length : Float) (suffix : Text) : Text :=
  if Float.ofNat t.length <= length then t
  else Items.slice t 0.0 (some (length - Float.ofNat suffix.length)) ++ suffix

/-- The display texts of variables in the place of their names in braces. -/
def fillTemplate (vars : Value) (fuel : Nat) (t : Text) : Text :=
  match fuel, t with
  | 0, t => t
  | _, [] => []
  | fuel + 1, b :: rest =>
    let name := rest.takeWhile Text.isWordByte
    let behind := rest.dropWhile Text.isWordByte
    if b == 123 && !name.isEmpty && behind.head? == some (125 : Byte) then
      let shown := match vars.get name with
        | .undefined => []
        | v => v.display
      shown ++ fillTemplate vars fuel (behind.drop 1)
    else b :: fillTemplate vars fuel rest

def orDefault (v fallback : Value) : Value :=
  match v with
  | .undefined | .null | .string [] => fallback
  | _ => v

/-- A question about two texts; there is no answer but no about a nullish value. -/
def ask (f : Text → Text → Bool) (args : Arguments) : Value :=
  if (args.nth 0).isNullish then .bool false
  else .bool (f (args.text 0) (args.text 1 "undefined"))

def ofText (f : Text → Text) (args : Arguments) : Value := .string (f (args.text 0))

def optionalNumber (v : Value) : Option Float :=
  match v with
  | .undefined => none
  | v => some v.toNumber

def total : Library := ofTotal [
  ("str/len", fun args => Value.ofNat (length (args.nth 0))),
  ("str/upper", ofText Text.toUpper),
  ("str/lower", ofText Text.toLower),
  ("str/trim", ofText Text.trim),
  ("str/trimStart", ofText Text.trimStart),
  ("str/trimEnd", ofText Text.trimEnd),
  ("str/split", fun args => split (args.nth 0) (args.text 1)),
  ("str/join", fun args => .string (join (args.nth 0) (args.text 1 ","))),
  ("str/slice", fun args =>
    .string (Items.slice (args.text 0) (args.number 1) (optionalNumber (args.nth 2)))),
  ("str/replace", fun args =>
    .string (Text.replaceFirst (args.text 0) (args.text 1) (args.text 2))),
  ("str/replaceAll", fun args =>
    .string (Text.replaceAll (args.text 0) (args.text 1) (args.text 2))),
  ("str/includes", ask Text.contains),
  ("str/startsWith", ask Text.startsWith),
  ("str/endsWith", ask Text.endsWith),
  ("str/padStart", fun args =>
    .string (filling (args.text 0) (args.number 1) (args.text 2 " ") ++ args.text 0)),
  ("str/padEnd", fun args =>
    .string (args.text 0 ++ filling (args.text 0) (args.number 1) (args.text 2 " "))),
  ("str/reverse", ofText List.reverse),
  ("str/capitalize", ofText Text.capitalize),
  ("str/titleCase", ofText Text.titleCase),
  ("str/camelCase", ofText Text.camelCase),
  ("str/kebabCase", ofText Text.kebabCase),
  ("str/snakeCase", ofText Text.snakeCase),
  ("str/default", fun args => orDefault (args.nth 0) (args.nth 1)),
  ("str/template", fun args =>
    .string (fillTemplate (args.nth 1) (args.text 0).length (args.text 0))),
  ("str/truncate", fun args =>
    .string (truncate (args.text 0) (args.number 1) (args.text 2 "...")))]

def demanding : Library := ofPartial [
  ("str/repeat", fun args => replicate (args.text 0) (args.number 1))]

def operators : Library := total ++ demanding

end Library.Strings
end EntityMachines
