import EntityMachines.Eval.Collection
import EntityMachines.Library.Module
import EntityMachines.Random
import EntityMachines.Value.Items

/-!
The module `array/`. Its operators evaluate all their arguments before they look at any.
-/
namespace EntityMachines
namespace Library.Array

def items (args : Arguments) : List Value := (args.nth 0).items

/-- The place that the second argument means among the items. -/
def placeOf (args : Arguments) : Nat := Items.place (args.number 1) (items args).length

def optionalNumber (v : Value) : Option Float :=
  match v with
  | .undefined => none
  | v => some v.toNumber

def length (v : Value) : Nat :=
  match v with
  | .string s => s.length
  | .array xs => xs.length
  | _ => 0

def isEmpty (v : Value) : Bool :=
  match v with
  | .array xs => xs.isEmpty
  | _ => true

def removeFirst (xs : List Value) (v : Value) : List Value :=
  match Items.indexOf? xs v with
  | some i => xs.eraseIdx i
  | none => xs

def total : Library := ofTotal [
  ("array/len", fun args => Value.ofNat (length (args.nth 0))),
  ("array/empty?", fun args => .bool (isEmpty (args.nth 0))),
  ("array/first", fun args => (items args).headD .undefined),
  ("array/last", fun args => (items args).getLastD .undefined),
  ("array/nth", fun args => (Collection.item? (items args) (args.number 1)).getD .undefined),
  ("array/slice", fun args =>
    .array (Items.slice (items args) (args.number 1) (optionalNumber (args.nth 2)))),
  ("array/concat", fun args => .array (args.flatMap Value.items)),
  ("array/append", fun args => .array (items args ++ [args.nth 1])),
  ("array/prepend", fun args => .array (args.nth 1 :: items args)),
  ("array/insert", fun args => .array ((items args).insertIdx (placeOf args) (args.nth 2))),
  ("array/remove", fun args => .array ((items args).eraseIdx (placeOf args))),
  ("array/removeItem", fun args => .array (removeFirst (items args) (args.nth 1))),
  ("array/reverse", fun args => .array (items args).reverse),
  ("array/sort", fun args =>
    .array (Items.sort (items args) (args.text 1) (args.text 2 "asc" == Text.ofString "desc"))),
  ("array/unique", fun args => .array (Items.unique (items args))),
  ("array/flatten", fun args => .array (Items.flatten (items args))),
  ("array/zip", fun args => .array (Items.zip (items args) (args.nth 1).items)),
  ("array/includes", fun args => .bool ((args.nth 1).occursIn (items args))),
  ("array/indexOf", fun args =>
    match Items.indexOf? (items args) (args.nth 1) with
    | some i => Value.ofNat i
    | none => .number (-1.0)),
  ("array/sum", fun args => .number (Items.sum (items args) (args.text 1))),
  ("array/avg", fun args => .number (Items.average (items args) (args.text 1))),
  ("array/min", fun args => .number (Items.least (items args) (args.text 1))),
  ("array/max", fun args => .number (Items.greatest (items args) (args.text 1))),
  ("array/groupBy", fun args =>
    .map ((Items.groupBy (items args) (args.text 1)).map fun (name, group) =>
      (name, .array group))),
  ("array/take", fun args => .array ((items args).take (Items.count (args.number 1)))),
  ("array/drop", fun args => .array ((items args).drop (Items.count (args.number 1)))),
  ("array/takeLast", fun args =>
    .array (Items.takeLast (items args) (Items.count (args.number 1)))),
  ("array/dropLast", fun args =>
    .array (Items.dropLast (items args) (Items.count (args.number 1))))]

/-- The value that a closure builds up from item to item. -/
def reduce (ev : Evaluator) (f acc : Value) : List Value → Eval Value
  | [] => return acc
  | item :: rest => do reduce ev f (← ev.invoke f [acc, item]) rest

/-- The items to which a closure says yes, and the others. -/
def partition (ev : Evaluator) (f : Value) : List Value → Eval (List Value × List Value)
  | [] => return ([], [])
  | item :: rest => do
    if ← Collection.holds ev f item then
      let (matching, others) ← partition ev f rest
      return (item :: matching, others)
    else
      let (matching, others) ← partition ev f rest
      return (matching, item :: others)

/-- An operator on items and a closure. -/
def withLambda (name : String) (f : Evaluator → Value → Arguments → Eval Value) :
    String × (Evaluator → Arguments → Eval Value) :=
  (name, fun ev args => do f ev (← Operator.lambdaAt (Text.ofString name) args 1) args)

def calling : Library := ofCalling [
  withLambda "array/find" fun ev f args =>
    return ((← Collection.findItem ev f 0 (items args)).map (·.2)).getD .undefined,
  withLambda "array/findIndex" fun ev f args => do
    match ← Collection.findItem ev f 0 (items args) with
    | some (i, _) => return Value.ofNat i
    | none => return .number (-1.0),
  withLambda "array/filter" fun ev f args =>
    return .array (← Collection.filterItems ev f (items args)),
  withLambda "array/reject" fun ev f args => return .array (← partition ev f (items args)).2,
  withLambda "array/map" fun ev f args => return .array (← Collection.mapItems ev f (items args)),
  withLambda "array/reduce" fun ev f args => reduce ev f (args.nth 2) (items args),
  withLambda "array/every" fun ev f args => return .bool (← every ev f (items args)),
  withLambda "array/some" fun ev f args =>
    return .bool (← Collection.findItem ev f 0 (items args)).isSome,
  withLambda "array/partition" fun ev f args => do
    let (matching, others) ← partition ev f (items args)
    return .array [.array matching, .array others],
  ("array/count", fun ev args => do
    if args.length < 2 then return Value.ofNat (items args).length
    else
      let f ← Operator.lambdaAt "array/count" args 1
      return Value.ofNat (← Collection.filterItems ev f (items args)).length),
  ("array/shuffle", fun _ args =>
    return .array (Random.shuffle (← get).random (items args).length (items args)))]
where
  /-- Whether a closure says yes to all items; it is not asked behind one it denies. -/
  every (ev : Evaluator) (f : Value) : List Value → Eval Bool
    | [] => return true
    | item :: rest => do
      if ← Collection.holds ev f item then every ev f rest else return false

def operators : Library := total ++ calling

end Library.Array
end EntityMachines
