import EntityMachines.Eval.Arguments
import EntityMachines.Operator
import EntityMachines.Value.Equality

/-!
Operators on the items of arrays. Closures are called item by item, in order, and no further
than the answer needs.
-/
namespace EntityMachines
namespace Collection

/-- The values of a closure at the items. -/
def mapItems (ev : Evaluator) (f : Value) : List Value → Eval (List Value)
  | [] => return []
  | item :: rest => do
    let v ← ev.invoke f [item]
    return v :: (← mapItems ev f rest)

/-- Whether a closure says yes to an item. -/
def holds (ev : Evaluator) (f item : Value) : Eval Bool := return (← ev.invoke f [item]).isTruthy

/-- The items to which a closure says yes. -/
def filterItems (ev : Evaluator) (f : Value) : List Value → Eval (List Value)
  | [] => return []
  | item :: rest => do
    if ← holds ev f item then return item :: (← filterItems ev f rest)
    else filterItems ev f rest

/-- The first item to which a closure says yes, and its place. -/
def findItem (ev : Evaluator) (f : Value) (place : Nat) : List Value → Eval (Option (Nat × Value))
  | [] => return none
  | item :: rest => do
    if ← holds ev f item then return some (place, item) else findItem ev f (place + 1) rest

/-- The sum of the numbers that a closure gives for the items. -/
def sumItems (ev : Evaluator) (f : Value) (total : Float) : List Value → Eval Float
  | [] => return total
  | item :: rest => do sumItems ev f (total + (← ev.invoke f [item]).toNumber) rest

/-- The item at a place given as a number, if it is a whole number within the bounds. -/
def item? (items : List Value) (place : Float) : Option Value :=
  if !(place >= 0.0) || Double.floor place != place || place >= Float.ofNat items.length then none
  else items[(Double.toInt place).toNat]?

/-- The items of all arguments, one after another. -/
def concat (ev : Evaluator) (ctx : Context) : List Value → Eval (List Value)
  | [] => return []
  | arg :: rest => do
    let v ← ev.evaluate arg ctx
    return v.items ++ (← concat ev ctx rest)

def apply (op : CollectionOp) (ev : Evaluator) (ctx : Context) (args : List Value) :
    Eval Value := do
  match op with
  | .concat => return .array (← concat ev ctx args)
  | _ =>
  let items := (← Operator.required op.name ev ctx args 0).items
  let lambda := Operator.requiredLambda op.name ev ctx args 1
  match op with
  | .map => return .array (← mapItems ev (← lambda) items)
  | .filter => return .array (← filterItems ev (← lambda) items)
  | .find => return ((← findItem ev (← lambda) 0 items).map (·.2)).getD .undefined
  | .count =>
    if args.length < 2 then return Value.ofNat items.length
    else return Value.ofNat (← filterItems ev (← lambda) items).length
  | .sum =>
    if args.length < 2 then
      return .number (items.foldl (fun total item => total + item.toNumber) 0.0)
    else return .number (← sumItems ev (← lambda) 0.0 items)
  | .first => return items.headD .undefined
  | .last => return items.getLastD .undefined
  | .nth =>
    return (item? items (← Operator.required op.name ev ctx args 1).toNumber).getD .undefined
  | .includes => return .bool ((← Operator.required op.name ev ctx args 1).occursIn items)
  | .empty => return .bool items.isEmpty
  | .concat => return .undefined

end Collection
end EntityMachines
