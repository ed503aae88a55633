import EntityMachines.Library.Array
import EntityMachines.Library.Async
import EntityMachines.Library.Format
import EntityMachines.Library.Math
import EntityMachines.Library.Object
import EntityMachines.Library.Strings
import EntityMachines.Library.Time
import EntityMachines.Library.Validate

/-!
The standard library: the operators of all modules.
-/
namespace EntityMachines
namespace Library

def standard : Library :=
  Math.operators ++ Strings.operators ++ Array.operators ++ Object.operators ++ Time.operators
    ++ Format.operators ++ Validate.operators ++ Async.operators

/-- The names of operators in byte order. -/
def names (library : Library) : List Text :=
  (library.map (·.1)).mergeSort fun a b => !Text.before b a

end Library
end EntityMachines
