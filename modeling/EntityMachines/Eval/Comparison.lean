import EntityMachines.Eval.Arguments
import EntityMachines.Operator
import EntityMachines.Pattern.Match
import EntityMachines.Value.Equality

/-!
Comparisons of two values: equality by structure, order by number or text, and the search for a
pattern.
-/
namespace EntityMachines
namespace Comparison

/-- Whether an order is the one that an operator asks for. -/
def holds (op : ComparisonOp) (order : Ordering) : Bool :=
  match op with
  | .less => order == .lt
  | .greater => order == .gt
  | .lessEqual => order != .gt
  | .greaterEqual => order != .lt
  | _ => false

def decide (op : ComparisonOp) (a b : Value) : Bool :=
  match op with
  | .equal => a.equal b
  | .notEqual => !a.equal b
  | .isMatch =>
    match a, b with
    | .string subject, .string pattern => Pattern.search subject pattern
    | _, _ => false
  | _ => (a.comparable.compare? b.comparable).any (holds op)

def apply (op : ComparisonOp) (ev : Evaluator) (ctx : Context) (args : List Value) :
    Eval Value := do
  let a ← Operator.required op.name ev ctx args 0
  let b ← Operator.required op.name ev ctx args 1
  return .bool (decide op a b)

end Comparison
end EntityMachines
