import EntityMachines.Eval.Arguments

/-!
Modules are lists of named operators beside the core ones.
-/
namespace EntityMachines

abbrev Library := List (Text × Operator)

namespace Library

def find? (library : Library) (name : Text) : Option Operator := library.lookup name

def contains (library : Library) (name : Text) : Bool := (library.find? name).isSome

/-- Operators on values that cannot fail. -/
def ofTotal (functions : List (String × (Arguments → Value))) : Library :=
  functions.map fun (name, f) => (Text.ofString name, Operator.ofValues fun args => .ok (f args))

/-- Operators on values. -/
def ofPartial (functions : List (String × (Arguments → Except Error Value))) : Library :=
  functions.map fun (name, f) => (Text.ofString name, Operator.ofValues f)

/-- Operators on values that call closures. -/
def ofCalling (functions : List (String × (Evaluator → Arguments → Eval Value))) : Library :=
  functions.map fun (name, f) => (Text.ofString name, Operator.ofValuesWith f)

end Library

end EntityMachines
