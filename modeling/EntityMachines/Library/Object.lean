import EntityMachines.Eval.Collection
import EntityMachines.Library.Module
import EntityMachines.Value.Path

/-!
The module `object/`, and the operator that puts paths together.
-/
namespace EntityMachines
namespace Library.Object

def path (args : Arguments) : Path := Path.ofText (args.text 1)

/-- The value at a path, or another one where there is none. -/
def getOr (v : Value) (path : Path) (fallback : Value) : Value :=
  if v.isNullish then fallback
  else
    match v.getIn path with
    | .undefined => fallback
    | found => found

/-- Whether every key of a path is there, whatever its value. -/
def has : Value → Path → Bool
  | _, [] => true
  | v, key :: rest =>
    match v.find? key with
    | some next => has next rest
    | none => false

/-- A map of the pairs in a list; what is no pair is left out. -/
def ofPairs (pairs : List Value) : Table Value :=
  Table.ofEntries <| pairs.filterMap fun pair =>
    match pair with
    | .array (key :: rest) => some (key.display, rest.headD .undefined)
    | _ => none

def pick (entries : Table Value) (keys : List Value) : Table Value :=
  Table.ofEntries <| keys.filterMap fun key => (entries.find? key.display).map (key.display, ·)

def without (entries : Table Value) (keys : List Value) : Table Value :=
  entries.filter fun entry => !keys.any fun key => key.display == entry.1

def mergeAll (args : Arguments) : Table Value :=
  args.foldl (fun merged v => Table.overlay merged v.entries) []

def deepMergeAll (args : Arguments) : Table Value :=
  args.foldl (fun merged v => Value.deepMerge merged v.entries) []

/-- The segments joined to a path; nullish ones are empty. -/
def joinPath (args : Arguments) : Except Error Value :=
  if args.isEmpty then .error (.missingArgument "path" 1)
  else .ok (.string (Path.toText ((List.range args.length).map fun i => args.text i)))

def total : Library := ofTotal [
  ("object/keys", fun args => .array ((args.nth 0).entries.keys.map .string)),
  ("object/values", fun args => .array (args.nth 0).entries.values),
  ("object/entries", fun args =>
    .array ((args.nth 0).entries.map fun (key, item) => .array [.string key, item])),
  ("object/fromEntries", fun args => .map (ofPairs (args.nth 0).items)),
  ("object/get", fun args => getOr (args.nth 0) (path args) (args.nth 2)),
  ("object/set", fun args => (args.nth 0).orEmptyMap.assocIn (path args) (args.nth 2)),
  ("object/has", fun args => .bool (has (args.nth 0) (path args))),
  ("object/merge", fun args => .map (mergeAll args)),
  ("object/deepMerge", fun args => .map (deepMergeAll args)),
  ("object/pick", fun args => .map (pick (args.nth 0).entries (args.nth 1).items)),
  ("object/omit", fun args => .map (without (args.nth 0).entries (args.nth 1).items)),
  ("object/empty?", fun args => .bool (args.nth 0).entries.isEmpty),
  ("object/equals", fun args => .bool ((args.nth 0).equal (args.nth 1))),
  ("object/clone", fun args => .map (args.nth 0).entries),
  ("object/deepClone", fun args => .map (args.nth 0).entries)]

def paths : Library := ofPartial [("object/path", joinPath), ("path", joinPath)]

/-- The entries with the values that a closure gives for theirs. -/
def mapValues (ev : Evaluator) (f : Value) : List (Text × Value) → Eval (Table Value)
  | [] => return []
  | (key, item) :: rest => do
    let v ← ev.invoke f [item]
    return (key, v) :: (← mapValues ev f rest)

/-- The entries under the names that a closure gives for theirs. -/
def mapKeys (ev : Evaluator) (f : Value) (renamed : Table Value) :
    List (Text × Value) → Eval (Table Value)
  | [] => return renamed
  | (key, item) :: rest => do
    let name := (← ev.invoke f [.string key]).display
    mapKeys ev f (renamed.insert name item) rest

/-- The entries to whose key and value a closure says yes. -/
def filterEntries (ev : Evaluator) (f : Value) : List (Text × Value) → Eval (Table Value)
  | [] => return []
  | (key, item) :: rest => do
    if (← ev.invoke f [.string key, item]).isTruthy then
      return (key, item) :: (← filterEntries ev f rest)
    else filterEntries ev f rest

def calling : Library := ofCalling [
  ("object/mapValues", fun ev args => do
    let f ← Operator.lambdaAt "object/mapValues" args 1
    return .map (← mapValues ev f (args.nth 0).entries)),
  ("object/mapKeys", fun ev args => do
    let f ← Operator.lambdaAt "object/mapKeys" args 1
    return .map (← mapKeys ev f [] (args.nth 0).entries)),
  ("object/filter", fun ev args => do
    let f ← Operator.lambdaAt "object/filter" args 1
    return .map (← filterEntries ev f (args.nth 0).entries))]

def operators : Library := total ++ paths ++ calling

end Library.Object
end EntityMachines
