import EntityMachines.Eval.Arithmetic
import EntityMachines.Eval.Collection
import EntityMachines.Eval.Comparison
import EntityMachines.Eval.Control
import EntityMachines.Eval.Effect
import EntityMachines.Library
import EntityMachines.Machine.Transaction

/-!
Evaluation. A single step takes an expression apart and leaves the evaluation of its parts to an
evaluator that it is given; the evaluator with so much fuel is that many steps on top of one
another.
-/
namespace EntityMachines

namespace CoreOp

def apply : CoreOp → Operator
  | arithmetic op => Arithmetic.apply op
  | comparison op => Comparison.apply op
  | logic op => Logic.apply op
  | control op => Control.apply op
  | collection op => Collection.apply op
  | effect op => Effect.apply op

end CoreOp

namespace Evaluator

/-- The operator of a name; the core ones come before those of a library. -/
def operator? (library : Library) (name : Text) : Option Operator :=
  match CoreOp.ofName? name with
  | some op => some op.apply
  | none => library.find? name

/-- One step: a call applies its operator, a binding is read, and anything else is its own
value. -/
def step (library : Library) (ev : Evaluator) (e : Value) (ctx : Context) : Eval Value :=
  match e with
  | .array (.string op :: args) =>
    match operator? library op with
    | some apply => apply ev ctx args
    | none => Eval.raise (.unknownOperator op)
  | .string s => if Expr.isBinding e then ctx.resolveText s else return e
  | _ => return e

/-- Evaluation and delivery to so many levels. -/
def withFuel (library : Library) : Nat → Evaluator
  | 0 => { evaluate := fun _ _ => throw .exhausted, deliver := fun _ _ _ _ => throw .exhausted }
  | n + 1 =>
    { evaluate := fun e ctx => step library (withFuel library n) e ctx
      deliver := fun handle services event payload =>
        Machine.deliver (withFuel library n) handle services event payload }

/-- Levels enough for any expression that is not made to run for ever. -/
def levels : Nat := 1000000000

def standard : Evaluator := withFuel Library.standard levels

def guard (ev : Evaluator) (e : Value) (ctx : Context) : Eval Bool :=
  return (← ev.evaluate e ctx).isTruthy

def execute (ev : Evaluator) (ctx : Context) : List Value → Eval Unit
  | [] => return ()
  | e :: rest => do
    let _ ← ev.evaluate e ctx
    execute ev ctx rest

end Evaluator
end EntityMachines
