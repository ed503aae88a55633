import EntityMachines.World
import EntityMachines.Value.Conversion

/-!
How operators take their arguments: unevaluated and by place, evaluated and by place, or all
evaluated from left to right.
-/
namespace EntityMachines

namespace Operator

/-- The unevaluated argument at a place. -/
def argument (op : Text) (args : List Value) (i : Nat) : Eval Value :=
  match args[i]? with
  | some arg => return arg
  | none => Eval.raise (.missingArgument op (i + 1))

def required (op : Text) (ev : Evaluator) (ctx : Context) (args : List Value) (i : Nat) :
    Eval Value := do
  ev.evaluate (← argument op args i) ctx

def optional (ev : Evaluator) (ctx : Context) (args : List Value) (i : Nat) : Eval Value :=
  match args[i]? with
  | some arg => ev.evaluate arg ctx
  | none => return .undefined

/-- The evaluated argument at a place, which has to be a closure. -/
def requiredClosure (op : Text) (f : Value) : Eval Value :=
  match f with
  | .closure _ => return f
  | _ => Eval.raise (.type (.notLambda op f.kind))

def requiredLambda (op : Text) (ev : Evaluator) (ctx : Context) (args : List Value) (i : Nat) :
    Eval Value := do
  requiredClosure op (← required op ev ctx args i)

end Operator

/-- Evaluated arguments, looked at by place. A missing argument is undefined. -/
abbrev Arguments := List Value

namespace Arguments

def nth (args : Arguments) (i : Nat) : Value := args.getD i .undefined

/-- A number, with another one in the place of undefined. -/
def number (args : Arguments) (i : Nat) (fallback : Float := 0.0) : Float :=
  match args.nth i with
  | .undefined => fallback
  | v => v.toNumber

/-- The text of a value for display, with another one in the place of nullish values. -/
def text (args : Arguments) (i : Nat) (fallback : Text := []) : Text :=
  let v := args.nth i
  if v.isNullish then fallback else v.display

def require (op : Text) (args : Arguments) (count : Nat) : Except Error Unit :=
  if args.length < count then .error (.missingArgument op (args.length + 1)) else .ok ()

end Arguments

namespace Operator

/-- An operator on values. -/
def ofValues (f : Arguments → Except Error Value) : Operator := fun ev ctx args => do
  Eval.ofExcept (f (← ev.evaluateAll ctx args))

/-- An operator on values that can call closures. -/
def ofValuesWith (f : Evaluator → Arguments → Eval Value) : Operator := fun ev ctx args => do
  f ev (← ev.evaluateAll ctx args)

/-- The closure among evaluated arguments. -/
def lambdaAt (op : Text) (args : Arguments) (i : Nat) : Eval Value := do
  requiredClosure op (← argument op args i)

end Operator

end EntityMachines
