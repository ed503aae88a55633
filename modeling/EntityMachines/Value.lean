import EntityMachines.Table
import EntityMachines.Numeral.Layout
import EntityMachines.Numeral.Literal

/-!
Values are the data of the language and, at the same time, its programs. Arrays and maps are
immutable; a closure stands in a value by the number under which it is kept.
-/
namespace EntityMachines

inductive Value where
  | undefined
  | null
  | bool (b : Bool)
  | number (x : Float)
  | string (s : Text)
  | array (items : List Value)
  | map (entries : List (Text × Value))
  | closure (id : Nat)
deriving Inhabited

/-- The kinds of values, as error messages name them. -/
inductive Kind where
  | undefined | null | boolean | number | string | array | map | closure
deriving DecidableEq, Repr

def Kind.name : Kind → Text
  | undefined => "undefined"
  | null => "null"
  | boolean => "boolean"
  | number => "number"
  | string => "string"
  | array => "array"
  | map => "map"
  | closure => "closure"

namespace Value

instance : Coe Text Value := ⟨string⟩

instance : Coe Bool Value := ⟨bool⟩

instance (n : Nat) : OfNat Value n := ⟨number (Float.ofNat n)⟩

def kind : Value → Kind
  | undefined => .undefined
  | null => .null
  | bool _ => .boolean
  | number _ => .number
  | string _ => .string
  | array _ => .array
  | map _ => .map
  | closure _ => .closure

def ofNat (n : Nat) : Value := number (Float.ofNat n)

def ofInt (n : Int) : Value := number (Double.ofInt n)

def isNullish : Value → Bool
  | undefined | null => true
  | _ => false

def isMap : Value → Bool
  | map _ => true
  | _ => false

/-- The entries of a map; anything else has none. -/
def entries : Value → Table Value
  | map m => m
  | _ => []

/-- The entry of a map under a key; anything but a map has no entries. -/
def find? (v : Value) (key : Text) : Option Value := v.entries.find? key

def get (v : Value) (key : Text) : Value := (v.find? key).getD undefined

/-- A map with one more or one changed entry; anything but a map counts as the empty map. -/
def put (v : Value) (key : Text) (item : Value) : Value := map (v.entries.insert key item)

/-- An array with one more item; anything but an array counts as the empty array. -/
def push (v : Value) (item : Value) : Value :=
  match v with
  | array items => array (items ++ [item])
  | _ => array [item]

/-- The value itself if it is a map, else the empty map. -/
def orEmptyMap (v : Value) : Value := if v.isMap then v else map []

/-- Nullish values count as no items, anything but an array as a single one. -/
def items : Value → List Value
  | array xs => xs
  | undefined | null => []
  | v => [v]

end Value

end EntityMachines
