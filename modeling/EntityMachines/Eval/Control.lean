import EntityMachines.Eval.Arguments
import EntityMachines.Operator

/-!
Operators that decide what is evaluated: connectives, local names, sequences and closures.
-/
namespace EntityMachines

namespace Logic

/-- Whether all expressions are truthy; none is evaluated behind one that is not. -/
def all (ev : Evaluator) (ctx : Context) : List Value → Eval Bool
  | [] => return true
  | arg :: rest => do
    if (← ev.evaluate arg ctx).isTruthy then all ev ctx rest else return false

/-- Whether some expression is truthy; none is evaluated behind one that is. -/
def any (ev : Evaluator) (ctx : Context) : List Value → Eval Bool
  | [] => return false
  | arg :: rest => do
    if (← ev.evaluate arg ctx).isTruthy then return true else any ev ctx rest

def apply (op : LogicOp) (ev : Evaluator) (ctx : Context) (args : List Value) : Eval Value := do
  match op with
  | .and => return .bool (← all ev ctx args)
  | .or => return .bool (← any ev ctx args)
  | .not => return .bool !(← Operator.required op.name ev ctx args 0).isTruthy
  | .choose =>
    if (← Operator.required op.name ev ctx args 0).isTruthy then
      Operator.required op.name ev ctx args 1
    else Operator.optional ev ctx args 2

end Logic

namespace Control

/-- Evaluates expressions one after another and keeps the last value. -/
def sequence (ev : Evaluator) (ctx : Context) (last : Value) : List Value → Eval Value
  | [] => return last
  | e :: rest => do sequence ev ctx (← ev.evaluate e ctx) rest

/-- The local names of `let`, each bound outside the others' scope. -/
def bindNames (ev : Evaluator) (ctx : Context) (bound : Table Value) :
    List Value → Eval (Table Value)
  | [] => return bound
  | .array (.string name :: expr) :: rest => do
    let v ← Operator.optional ev ctx expr 0
    bindNames ev ctx (bound.insert (Binding.bareName name) v) rest
  | _ :: _ => Eval.raise (.type .bindingPair)

/-- The parameter names in a list. -/
def parameterNames : List Value → Except Error (List Text)
  | [] => .ok []
  | .string name :: rest => (parameterNames rest).map (Binding.bareName name :: ·)
  | _ :: _ => .error (.type .parameterName)

def parameters : Value → Except Error Parameters
  | .string name => .ok (.single (Binding.bareName name))
  | .array names => (parameterNames names).map .positional
  | _ => .error (.type .parameterList)

def apply (op : ControlOp) (ev : Evaluator) (ctx : Context) (args : List Value) : Eval Value := do
  match op with
  | .bind =>
    let bindings ← Operator.argument op.name args 0
    let _ ← Operator.argument op.name args 1
    match bindings with
    | .array pairs =>
      let bound ← bindNames ev ctx [] pairs
      sequence ev (ctx.child bound) .undefined (args.drop 1)
    | _ => Eval.raise (.type .bindingList)
  | .sequence => sequence ev ctx .undefined args
  | .when =>
    if (← Operator.required op.name ev ctx args 0).isTruthy then
      let _ ← Operator.argument op.name args 1
      let _ ← sequence ev ctx .undefined (args.drop 1)
    return .undefined
  | .lambda =>
    let names ← Operator.argument op.name args 0
    let body ← Operator.argument op.name args 1
    Eval.newClosure ⟨← Eval.ofExcept (parameters names), body, ctx⟩

end Control

end EntityMachines
