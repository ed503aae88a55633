import EntityMachines.Eval.Arguments
import EntityMachines.Operator

/-!
Arithmetic on numbers. Any value counts as a number; where an operator takes any number of
arguments, missing ones do not matter.
-/
namespace EntityMachines
namespace Arithmetic

/-- The lesser number; a missing number is passed on. -/
def min (a b : Float) : Float :=
  if a.isNaN || b.isNaN then Double.nan else if b < a then b else a

def max (a b : Float) : Float :=
  if a.isNaN || b.isNaN then Double.nan else if b > a then b else a

/-- A divisor of zero gives an infinity with the sign of the dividend. -/
def divide (a b : Float) : Float :=
  if b == 0.0 then (if a >= 0.0 then Double.infinity else -Double.infinity) else a / b

/-- Halves are rounded up. -/
def round (x : Float) : Float := Double.floor (x + 0.5)

/-- The least number allowed wins over the greatest. -/
def clamp (x low high : Float) : Float := max low (min high x)

def fold (ev : Evaluator) (ctx : Context) (f : Float → Float → Float) :
    Float → List Value → Eval Value
  | acc, [] => return .number acc
  | acc, arg :: rest => do fold ev ctx f (f acc (← ev.evaluate arg ctx).toNumber) rest

def apply (op : ArithmeticOp) (ev : Evaluator) (ctx : Context) (args : List Value) :
    Eval Value := do
  let operand (i : Nat) : Eval Float :=
    return (← Operator.required op.name ev ctx args i).toNumber
  match op with
  | .add => fold ev ctx (· + ·) 0.0 args
  | .multiply => fold ev ctx (· * ·) 1.0 args
  | .min => fold ev ctx min Double.infinity args
  | .max => fold ev ctx max (-Double.infinity) args
  | .subtract =>
    let a ← operand 0
    if args.length = 1 then return .number (-a)
    else return .number (a - (← Operator.optional ev ctx args 1).toNumber)
  | .divide =>
    let a ← operand 0
    return .number (divide a (← operand 1))
  | .modulo =>
    let a ← operand 0
    return .number (Double.remainder a (← operand 1))
  | .abs => return .number (← operand 0).abs
  | .floor => return .number (Double.floor (← operand 0))
  | .ceil => return .number (Double.ceil (← operand 0))
  | .round => return .number (round (← operand 0))
  | .clamp =>
    let x ← operand 0
    let low ← operand 1
    return .number (clamp x low (← operand 2))

end Arithmetic
end EntityMachines
