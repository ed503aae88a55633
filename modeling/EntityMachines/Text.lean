/-!
Texts are strings of bytes. Lengths, positions, order and letter case are those of single
bytes: a byte from 128 up is never a letter, a digit or a blank.
-/
namespace EntityMachines

abbrev Byte := UInt8

namespace Byte

instance : Coe Char Byte := ⟨Char.toUInt8⟩

def isSpace (b : Byte) : Bool := b == 32 || (9 ≤ b && b ≤ 13)

def isDigit (b : Byte) : Bool := 48 ≤ b && b ≤ 57

def isUpper (b : Byte) : Bool := 65 ≤ b && b ≤ 90

def isLower (b : Byte) : Bool := 97 ≤ b && b ≤ 122

def isAlpha (b : Byte) : Bool := isUpper b || isLower b

def isAlnum (b : Byte) : Bool := isAlpha b || isDigit b

def toLower (b : Byte) : Byte := if isUpper b then b + 32 else b

def toUpper (b : Byte) : Byte := if isLower b then b - 32 else b

/-- The value of a decimal digit. -/
def digit (b : Byte) : Nat := b.toNat - 48

/-- The value of a digit in base sixteen, of either letter case. -/
def hexDigit? (b : Byte) : Option Nat :=
  if isDigit b then some (b.toNat - 48)
  else if 97 ≤ b && b ≤ 102 then some (b.toNat - 87)
  else if 65 ≤ b && b ≤ 70 then some (b.toNat - 55)
  else none

/-- The lower-case digit for a number below sixteen. -/
def ofHexDigit (n : Nat) : Byte := if n < 10 then UInt8.ofNat (48 + n) else UInt8.ofNat (87 + n)

end Byte

abbrev Text := List Byte

namespace Text

/-- The bytes of a string in UTF-8. -/
def ofString (s : String) : Text := s.toList.flatMap String.utf8EncodeChar

instance : Coe String Text := ⟨ofString⟩

def ofNat (n : Nat) : Text := ofString (toString n)

def ofInt (n : Int) : Text := ofString (toString n)

/-- The order of texts is the lexicographic order of their bytes. -/
def before (a b : Text) : Bool := compare a b == .lt

def toLower (t : Text) : Text := t.map Byte.toLower

def toUpper (t : Text) : Text := t.map Byte.toUpper

def trimStart (t : Text) : Text := t.dropWhile Byte.isSpace

def trimEnd (t : Text) : Text := (t.reverse.dropWhile Byte.isSpace).reverse

def trim (t : Text) : Text := trimEnd (trimStart t)

def startsWith (t lead : Text) : Bool := lead.isPrefixOf t

def endsWith (t tail : Text) : Bool := tail.isSuffixOf t

/-- The number of bytes before the first occurrence of a text. -/
def indexOf? (t sought : Text) : Option Nat :=
  match t with
  | [] => if sought.isEmpty then some 0 else none
  | b :: rest =>
    if sought.isPrefixOf (b :: rest) then some 0 else (indexOf? rest sought).map (· + 1)

def contains (t sought : Text) : Bool := (indexOf? t sought).isSome

/-- The parts between the occurrences of a byte; one more part than occurrences. -/
def splitByte (sep : Byte) : Text → List Text
  | [] => [[]]
  | b :: rest =>
    match splitByte sep rest with
    | [] => [[b]]
    | part :: parts => if b == sep then [] :: part :: parts else (b :: part) :: parts

/-- The parts joined with a separator between neighbours. -/
def join (sep : Text) : List Text → Text
  | [] => []
  | [part] => part
  | part :: parts => part ++ sep ++ join sep parts

/-- The text padded at the front to a width. -/
def padStart (width : Nat) (fill : Byte) (t : Text) : Text :=
  List.replicate (width - t.length) fill ++ t

/-- A number written with at least the given number of digits. -/
def zeroPadded (width : Nat) (n : Nat) : Text := padStart width 48 (ofNat n)

end Text

end EntityMachines
