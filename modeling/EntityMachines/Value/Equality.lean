import EntityMachines.Value

/-!
Equality of values: by structure, with numbers equal as numbers are, so that a missing number
differs from itself, and with closures equal when they are the same closure.
-/
namespace EntityMachines
namespace Value

mutual

def equal : Value → Value → Bool
  | undefined, undefined => true
  | null, null => true
  | bool a, bool b => a == b
  | number x, number y => x == y
  | string s, string t => s == t
  | array xs, array ys => equalItems xs ys
  | map m, map n => equalEntries m n
  | closure i, closure j => i == j
  | _, _ => false

def equalItems : List Value → List Value → Bool
  | [], [] => true
  | x :: xs, y :: ys => equal x y && equalItems xs ys
  | _, _ => false

def equalEntries : List (Text × Value) → List (Text × Value) → Bool
  | [], [] => true
  | (k, x) :: m, (l, y) :: n => k == l && equal x y && equalEntries m n
  | _, _ => false

end

/-- Some item of a list equals the value. -/
def occursIn (v : Value) (items : List Value) : Bool := items.any fun item => equal item v

end Value
end EntityMachines
