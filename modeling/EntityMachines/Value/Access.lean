import EntityMachines.Error

/-!
Access to the content of a value of one kind; a value of another kind is a fault of type.
-/
namespace EntityMachines
namespace Value

def mismatch {α : Type} (expected : Kind) (v : Value) : Except Error α :=
  .error (.type (.expected expected v.kind))

def asBool : Value → Except Error Bool
  | bool b => .ok b
  | v => mismatch .boolean v

def asNumber : Value → Except Error Float
  | number x => .ok x
  | v => mismatch .number v

def asText : Value → Except Error Text
  | string s => .ok s
  | v => mismatch .string v

def asItems : Value → Except Error (List Value)
  | array items => .ok items
  | v => mismatch .array v

def asEntries : Value → Except Error (Table Value)
  | map entries => .ok entries
  | v => mismatch .map v

/-- The number under which a closure is kept. -/
def asClosure : Value → Except Error Nat
  | closure id => .ok id
  | v => mismatch .closure v

end Value
end EntityMachines
