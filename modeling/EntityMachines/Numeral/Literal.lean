import EntityMachines.Text
import EntityMachines.Numeral.Double

/-!
Decimal literals in texts: digits with an optional point and an optional exponent. A text is
read either from its front, as far as a literal reaches, or as a whole.
-/
namespace EntityMachines

namespace Numeral

/-- The number `mantissa · 10 ^ exponent` as it was written. -/
structure Literal where
  mantissa : Nat
  exponent : Int
deriving Repr, DecidableEq

namespace Literal

/-- The number that a run of decimal digits stands for, after the digits already read. -/
def ofDigits (read : Nat) (digits : Text) : Nat :=
  digits.foldl (fun n b => n * 10 + b.digit) read

/-- The nearest double; infinite or zero where no finite nonzero double is near. -/
def toFloat (l : Literal) : Float :=
  if l.mantissa = 0 then 0.0
  else
    let magnitude := l.exponent + (Nat.toDigits 10 l.mantissa).length
    if 400 < magnitude then Double.infinity
    else if magnitude < -400 then 0.0
    else if 0 ≤ l.exponent then
      Float.ofScientific (l.mantissa * Nat.pow 10 l.exponent.toNat) false 0
    else Float.ofScientific l.mantissa true (-l.exponent).toNat

/-- No finite double, or no double but zero, is nearest to the literal. -/
def outOfRange (l : Literal) : Bool :=
  l.toFloat.isInf || (l.toFloat == 0.0 && l.mantissa != 0)

/-- An exponent part, if the text begins with a complete one. -/
def exponentPart (t : Text) : Int × Text :=
  match t with
  | mark :: rest =>
    if mark == 'e' || mark == 'E' then
      let negative := rest.head? == some (45 : Byte)
      let unsigned := if negative || rest.head? == some (43 : Byte) then rest.drop 1 else rest
      let digits := unsigned.takeWhile Byte.isDigit
      if digits.isEmpty then (0, t)
      else
        let n : Int := ofDigits 0 digits
        (if negative then -n else n, unsigned.dropWhile Byte.isDigit)
    else (0, t)
  | [] => (0, t)

/-- The longest unsigned literal at the front, and the text behind it. -/
def scan (t : Text) : Option (Literal × Text) :=
  let whole := t.takeWhile Byte.isDigit
  let afterWhole := t.dropWhile Byte.isDigit
  let (fraction, afterFraction) :=
    match afterWhole with
    | mark :: rest =>
      if mark == '.' then (rest.takeWhile Byte.isDigit, rest.dropWhile Byte.isDigit)
      else ([], afterWhole)
    | [] => ([], [])
  if whole.isEmpty && fraction.isEmpty then none
  else
    let (exponent, rest) := exponentPart afterFraction
    some (⟨ofDigits (ofDigits 0 whole) fraction, exponent - fraction.length⟩, rest)

end Literal

/-- A sign at the front of a text. -/
def splitSign (t : Text) : Bool × Text :=
  match t with
  | mark :: rest =>
    if mark == '-' then (true, rest) else if mark == '+' then (false, rest) else (false, t)
  | [] => (false, t)

def signed (negative : Bool) (x : Float) : Float := if negative then -x else x

/-- A literal beyond the doubles is read as zero if the text around it has the mark of a small
exponent, written in lower case, and as infinite otherwise. -/
def ofLiteral (l : Literal) (text : Text) : Float :=
  if l.outOfRange then
    if text.contains "e-" then 0.0 else Double.infinity
  else l.toFloat

def beginsNumber (t : Text) : Bool :=
  match t with
  | b :: _ => b.isDigit || b == '.'
  | [] => false

/-- The number at the front of a text after blanks: `12px` reads as twelve. What follows the
number is ignored; a text that begins with no number is not a number. -/
def ofLeading (t : Text) : Float :=
  let (negative, rest) := splitSign t.trimStart
  if rest.startsWith "Infinity" then signed negative Double.infinity
  else if !beginsNumber rest then Double.nan
  else
    match Literal.scan rest with
    | none => Double.nan
    | some (l, _) => signed negative (ofLiteral l rest)

/-- The number that hexadecimal digits stand for, if it fits in 64 bits. -/
def ofHex? (digits : Text) : Option Nat :=
  let value := digits.foldl (fun n? b => n?.bind fun n => b.hexDigit?.map (n * 16 + ·)) (some 0)
  value.filter (· < Nat.pow 2 64)

/-- The number that a whole text stands for, blanks around it aside. A blank text is zero; an
unsigned text after `0x` is read in base sixteen. -/
def ofWhole (t : Text) : Float :=
  let trimmed := t.trim
  if trimmed.isEmpty then 0.0
  else
    let (negative, body) := splitSign trimmed
    if body = "Infinity" then signed negative Double.infinity
    else if body.isEmpty then Double.nan
    else if trimmed.length > 2 && (trimmed.startsWith "0x" || trimmed.startsWith "0X") then
      match ofHex? (trimmed.drop 2) with
      | some n => Float.ofNat n
      | none => Double.nan
    else if !beginsNumber body then Double.nan
    else
      match Literal.scan body with
      | some (l, []) => signed negative (ofLiteral l body)
      | _ => Double.nan

end Numeral

end EntityMachines
