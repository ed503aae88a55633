import EntityMachines.Error

/-!
Reading values from texts: JSON with comments from a semicolon to the end of the line, with any
bytes inside quotes, and with any number of values one after another.

Every reader takes a text to the value at its front and the text behind it. A failure holds the
length of the text that was left at the fault, from which its line and column follow.
-/
namespace EntityMachines

structure ReadFailure where
  fault : ParseFault
  remaining : Nat
deriving DecidableEq, Repr

namespace Reader

abbrev Result (α : Type) := Except ReadFailure α

def failAt {α : Type} (fault : ParseFault) (rest : Text) : Result α := .error ⟨fault, rest.length⟩

/-- Drops blanks and comments; a comment ends before a line break. -/
def skipBlank (inComment : Bool) : Text → Text
  | [] => []
  | b :: rest =>
    if b.isSpace then
      if b == 10 then skipBlank false rest else skipBlank inComment rest
    else if inComment then skipBlank true rest
    else if b == ';' then skipBlank true rest
    else b :: rest

/-- The bytes of a code point in UTF-8; halves of surrogate pairs are encoded like others. -/
def utf8 (cp : Nat) : Text :=
  if cp < 0x80 then [UInt8.ofNat cp]
  else if cp < 0x800 then [UInt8.ofNat (0xC0 + cp / 64), UInt8.ofNat (0x80 + cp % 64)]
  else if cp < 0x10000 then
    [UInt8.ofNat (0xE0 + cp / 4096), UInt8.ofNat (0x80 + cp / 64 % 64),
      UInt8.ofNat (0x80 + cp % 64)]
  else
    [UInt8.ofNat (0xF0 + cp / 262144), UInt8.ofNat (0x80 + cp / 4096 % 64),
      UInt8.ofNat (0x80 + cp / 64 % 64), UInt8.ofNat (0x80 + cp % 64)]

def isHighSurrogate (cp : Nat) : Bool := 0xD800 ≤ cp && cp ≤ 0xDBFF

def isLowSurrogate (cp : Nat) : Bool := 0xDC00 ≤ cp && cp ≤ 0xDFFF

/-- The bytes for a code unit and the one escaped directly behind it. -/
def utf8Pair (high low : Nat) : Text :=
  if isLowSurrogate low then utf8 (0x10000 + (high - 0xD800) * 1024 + (low - 0xDC00))
  else utf8 high ++ utf8 low

/-- The number that four hexadecimal digits stand for. -/
def codeUnit? (a b c d : Byte) : Option Nat := do
  let a ← a.hexDigit?
  let b ← b.hexDigit?
  let c ← c.hexDigit?
  let d ← d.hexDigit?
  return ((a * 16 + b) * 16 + c) * 16 + d

/-- The code unit that four digits at the front of a text stand for. -/
def readCodeUnit (t : Text) : Result Nat :=
  match t with
  | a :: b :: c :: d :: _ =>
    match codeUnit? a b c d with
    | some cp => .ok cp
    | none => failAt .invalidCodeUnit t
  | _ => failAt .truncatedCodeUnit t

/-- The byte that a single letter after a backslash stands for. -/
def shortEscape? (b : Byte) : Option Byte :=
  if b == 'n' then some 10
  else if b == 't' then some 9
  else if b == 'r' then some 13
  else if b == 'b' then some 8
  else if b == 'f' then some 12
  else if b == '/' || b == '"' || b == '\\' then some b
  else none

/-- The rest of a quoted text after its opening quote. The text read so far is kept in
reverse. -/
def readQuoted (fuel : Nat) (acc : Text) (t : Text) : Result (Text × Text) :=
  match fuel with
  | 0 => failAt .unterminatedString t
  | fuel + 1 =>
    match t with
    | [] => failAt .unterminatedString t
    | b :: rest =>
      if b == '"' then .ok (acc.reverse, rest)
      else if b != '\\' then readQuoted fuel (b :: acc) rest
      else
        match rest with
        | [] => failAt .unterminatedEscape rest
        | e :: rest =>
          match shortEscape? e with
          | some b => readQuoted fuel (b :: acc) rest
          | none =>
            if e != 'u' then failAt .unknownEscape rest
            else
              match readCodeUnit rest with
              | .error failure => .error failure
              | .ok unit =>
                let rest := rest.drop 4
                if isHighSurrogate unit && Text.startsWith rest [92, 117] then
                  match readCodeUnit (rest.drop 2) with
                  | .error failure => .error failure
                  | .ok next =>
                    readQuoted fuel ((utf8Pair unit next).reverse ++ acc) (rest.drop 6)
                else readQuoted fuel ((utf8 unit).reverse ++ acc) rest

def isNumberByte (b : Byte) : Bool :=
  b.isDigit || b == '.' || b == 'e' || b == 'E' || b == '+' || b == '-'

/-- The bytes that could belong to a number are taken together and have to be one. -/
def readNumber (t : Text) : Result (Value × Text) :=
  let token := t.takeWhile isNumberByte
  let rest := t.dropWhile isNumberByte
  let negative := token.head? == some (45 : Byte)
  match Numeral.Literal.scan (if negative then token.drop 1 else token) with
  | some (literal, []) =>
    if literal.outOfRange then failAt (.numberOutOfRange token) t
    else .ok (.number (Numeral.signed negative literal.toFloat), rest)
  | _ =>
    if rest.isEmpty && token == [45] then failAt .incompleteNumber t
    else failAt (.invalidNumber token) t

def readWord (t : Text) : Result (Value × Text) :=
  let word := t.takeWhile Byte.isAlpha
  let rest := t.dropWhile Byte.isAlpha
  if word = "true" then .ok (.bool true, rest)
  else if word = "false" then .ok (.bool false, rest)
  else if word = "null" then .ok (.null, rest)
  else if word.isEmpty then failAt (.unexpectedByte (t.headD 0)) t
  else failAt (.unknownLiteral word) t

/-- A key in quotes and the colon behind it. -/
def readKey (t : Text) : Result (Text × Text) :=
  match skipBlank false t with
  | [] => failAt .unterminatedObject []
  | b :: rest =>
    if b != '"' then failAt .objectKey (b :: rest)
    else
      match readQuoted rest.length [] rest with
      | .error failure => .error failure
      | .ok (key, rest) =>
        match skipBlank false rest with
        | [] => failAt .unterminatedObject []
        | b :: rest => if b != ':' then failAt .objectColon (b :: rest) else .ok (key, rest)

mutual

/-- The value at the front of a text. Each step takes at least one byte, so that fuel beyond the
length of the text is never used up. -/
def readValue (fuel : Nat) (t : Text) : Result (Value × Text) :=
  match fuel with
  | 0 => failAt .endOfInput t
  | fuel + 1 =>
    match skipBlank false t with
    | [] => failAt .endOfInput []
    | b :: rest =>
      if b == '[' then
        match skipBlank false rest with
        | [] => readItems fuel [] []
        | c :: tail => if c == ']' then .ok (.array [], tail) else readItems fuel [] (c :: tail)
      else if b == 123 then
        match skipBlank false rest with
        | [] => readEntries fuel [] []
        | c :: tail => if c == 125 then .ok (.map [], tail) else readEntries fuel [] (c :: tail)
      else if b == '"' then
        (readQuoted rest.length [] rest).map fun (s, rest) => (.string s, rest)
      else if b == ']' || b == 125 then failAt (.strayBracket b) (b :: rest)
      else if b == '-' || b.isDigit then readNumber (b :: rest)
      else readWord (b :: rest)

/-- The items of an array up to its closing bracket, after those already read. -/
def readItems (fuel : Nat) (acc : List Value) (t : Text) : Result (Value × Text) :=
  match fuel with
  | 0 => failAt .unterminatedArray t
  | fuel + 1 =>
    match readValue fuel t with
    | .error failure => .error failure
    | .ok (item, rest) =>
      match skipBlank false rest with
      | [] => failAt .unterminatedArray []
      | b :: rest =>
        if b == ']' then .ok (.array (item :: acc).reverse, rest)
        else if b != ',' then failAt .arraySeparator (b :: rest)
        else readItems fuel (item :: acc) rest

/-- The members of an object up to its closing brace, over those already read. -/
def readEntries (fuel : Nat) (acc : Table Value) (t : Text) : Result (Value × Text) :=
  match fuel with
  | 0 => failAt .unterminatedObject t
  | fuel + 1 =>
    match readKey t with
    | .error failure => .error failure
    | .ok (key, rest) =>
      match readValue fuel rest with
      | .error failure => .error failure
      | .ok (item, rest) =>
        match skipBlank false rest with
        | [] => failAt .unterminatedObject []
        | b :: rest =>
          if b == 125 then .ok (.map (acc.insert key item), rest)
          else if b != ',' then failAt .objectSeparator (b :: rest)
          else readEntries fuel (acc.insert key item) rest

end

/-- Enough fuel for a text: a value takes two steps at most for each byte, and one more. -/
def fuelFor (t : Text) : Nat := 2 * t.length + 2

def readSingle (t : Text) : Result Value :=
  match readValue (fuelFor t) t with
  | .error failure => .error failure
  | .ok (v, rest) =>
    match skipBlank false rest with
    | [] => .ok v
    | rest => failAt .trailing rest

def readMany (fuel : Nat) (acc : List Value) (t : Text) : Result (List Value) :=
  match fuel with
  | 0 => .ok acc.reverse
  | fuel + 1 =>
    match skipBlank false t with
    | [] => .ok acc.reverse
    | t =>
      match readValue (fuelFor t) t with
      | .error failure => .error failure
      | .ok (v, rest) => readMany fuel (v :: acc) rest

/-- The line and the column after a text, both counted from one. -/
def position (before : Text) : Nat × Nat :=
  before.foldl (fun (line, column) (b : Byte) =>
    if b == 10 then (line + 1, 1) else (line, column + 1)) (1, 1)

def locate (t : Text) (failure : ReadFailure) : Error :=
  let (line, column) := position (t.take (t.length - failure.remaining))
  .parse line column failure.fault

end Reader

namespace Value

/-- The one value that a text holds. -/
def read (t : Text) : Except Error Value := (Reader.readSingle t).mapError (Reader.locate t)

/-- All values that a text holds, one after another. -/
def readAll (t : Text) : Except Error (List Value) :=
  (Reader.readMany (t.length + 1) [] t).mapError (Reader.locate t)

end Value
end EntityMachines
