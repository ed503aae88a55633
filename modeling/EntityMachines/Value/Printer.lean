import EntityMachines.Value

/-!
The written form of values. The full form has a spelling for every value; the strict form is
plain JSON: it leaves out undefined members of maps and writes `null` for what JSON cannot say.
-/
namespace EntityMachines
namespace Value

/-- A byte inside quotes. -/
def escapeByte (b : Byte) : Text :=
  if b == 92 then [92, 92]
  else if b == 34 then [92, 34]
  else if b == 10 then [92, 110]
  else if b == 9 then [92, 116]
  else if b == 13 then [92, 114]
  else if b == 8 then [92, 98]
  else if b == 12 then [92, 102]
  else if b < 32 then
    [92, 117, 48, 48, Byte.ofHexDigit (b.toNat / 16), Byte.ofHexDigit (b.toNat % 16)]
  else [b]

def quoted (s : Text) : Text := 34 :: (s.flatMap escapeByte ++ [34])

/-- What a form writes for the values that are not JSON. -/
structure Form where
  undefined : Text
  closure : Text
  beyondNumbers : Float → Text
  keepsUndefinedMembers : Bool

def full : Form where
  undefined := "undefined"
  closure := "#<closure>"
  beyondNumbers := Numeral.plain.write
  keepsUndefinedMembers := true

def strict : Form where
  undefined := "null"
  closure := "null"
  beyondNumbers := fun _ => "null"
  keepsUndefinedMembers := false

/-- The members of a map that a form shows. -/
def Form.shows (form : Form) : Value → Bool
  | Value.undefined => form.keepsUndefinedMembers
  | _ => true

mutual

def write (form : Form) : Value → Text
  | undefined => form.undefined
  | null => "null"
  | bool b => if b then "true" else "false"
  | number x => if x.isFinite then Numeral.plain.write x else form.beyondNumbers x
  | string s => quoted s
  | array items => 91 :: (writeItems form true items ++ [93])
  | map entries => 123 :: (writeEntries form true entries ++ [125])
  | closure _ => form.closure

def writeItems (form : Form) (first : Bool) : List Value → Text
  | [] => []
  | item :: rest =>
    (if first then [] else [44]) ++ write form item ++ writeItems form false rest

def writeEntries (form : Form) (first : Bool) : List (Text × Value) → Text
  | [] => []
  | (key, item) :: rest =>
    if form.shows item then
      (if first then [] else [44]) ++ quoted key ++ 58 :: write form item
        ++ writeEntries form false rest
    else writeEntries form first rest

end

def print (v : Value) : Text := write full v

def toJson (v : Value) : Text := write strict v

end Value
end EntityMachines
