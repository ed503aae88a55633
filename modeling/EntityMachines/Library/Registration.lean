import EntityMachines.Library.Module
import EntityMachines.Operator

/-!
Operators that the surrounding program adds to the language. A new operator must have a name of
its own, one that cannot be read as a binding, and must be there.
-/
namespace EntityMachines

/-- What is added: an operator, which takes its arguments unevaluated, or a function, which takes
them evaluated. -/
inductive Addition where
  | operator (apply : Option Operator)
  | function (apply : Option (List Value → Eval Value))

namespace Addition

/-- The activity that failures of an addition name. -/
def activity : Addition → Text
  | operator _ => "registrar.register_builtin"
  | function _ => "registrar.register_function"

def content? : Addition → Option Operator
  | operator f => f
  | function f => f.map fun f ev ctx args => do f (← ev.evaluateAll ctx args)

/-- What is wrong with an addition without content. -/
def absence (name : Text) : Addition → RegistrationFault
  | operator _ => .emptyOperator name
  | function _ => .emptyFunction name

end Addition

namespace Library

/-- What is wrong with a name for a new operator, if anything is. -/
def nameFault? (library : Library) (name : Text) : Option RegistrationFault :=
  if name.isEmpty then some .emptyName
  else if name.head? = some 64 then some (.bindingName name)
  else if (CoreOp.ofName? name).isSome then some (.coreName name)
  else if library.contains name then some (.alreadyDefined name)
  else none

def register (library : Library) (name : Text) (addition : Addition) : Except Error Library :=
  match library.nameFault? name with
  | some fault => .error (.registration addition.activity fault)
  | none =>
    match addition.content? with
    | some apply => .ok (library ++ [(name, apply)])
    | none => .error (.registration addition.activity (addition.absence name))

end Library
end EntityMachines
