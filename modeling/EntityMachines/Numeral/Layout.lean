import EntityMachines.Text
import EntityMachines.Numeral.Shortest

/-!
The written form of numbers: which magnitudes are written positionally, how an exponent looks
and what stands for the values that are no numbers.
-/
namespace EntityMachines
namespace Numeral

/-- A way to write doubles. Leading digits from `10 ^ lowest` to `10 ^ highest` are written
positionally, all others with an exponent. -/
structure Layout where
  lowest : Int
  highest : Int
  exponentMark : Text
  zero : Text
  notANumber : Text
  infinity : Text

/-- Numbers from a millionth to below `10 ^ 21` are positional, zero has no sign. -/
def plain : Layout where
  lowest := -6
  highest := 20
  exponentMark := "e"
  zero := "0"
  notANumber := "NaN"
  infinity := "Infinity"

/-- Digits with a decimal point after the first `places` of them. -/
def positional (d : Decimal) : Text :=
  let digits := Text.ofNat d.digits
  if 0 ≤ d.exponent then digits ++ List.replicate d.exponent.toNat 48
  else
    let places := (-d.exponent).toNat
    let padded := Text.padStart (places + 1) 48 digits
    padded.take (padded.length - places) ++ (46 : Byte) :: padded.drop (padded.length - places)

def scientific (mark : Text) (d : Decimal) : Text :=
  let digits := Text.ofNat d.digits
  let fraction := digits.drop 1
  let sign : Text := if d.magnitude < 0 then "-" else "+"
  digits.take 1 ++ (if fraction.isEmpty then [] else (46 : Byte) :: fraction) ++ mark ++ sign
    ++ Text.ofNat d.magnitude.natAbs

/-- A finite positive number; whole numbers in positional form show all their digits. -/
def Layout.magnitudeText (l : Layout) (x : Double.Exact) : Text :=
  let d := x.shortest
  if l.lowest ≤ d.magnitude ∧ d.magnitude ≤ l.highest then
    if x.isWhole then Text.ofNat x.whole else positional d
  else scientific l.exponentMark d

def Layout.write (l : Layout) (x : Float) : Text :=
  if x.isNaN then l.notANumber
  else if x == 0.0 then l.zero
  else
    let sign : Text := if x < 0.0 then "-" else []
    if x.isInf then sign ++ l.infinity
    else sign ++ l.magnitudeText (Double.exact x)

/-!
Numbers with a bounded count of decimal places and with commas between groups of three digits.
-/

/-- The whole digits and the fraction digits of a finite magnitude, rounded to a number of
places; a half goes to the even neighbour. -/
def fixedDigits (x : Float) (places : Nat) : Text × Text :=
  let n := (Double.exact x).scaledRound places
  (Text.ofNat (n / Nat.pow 10 places),
    if places = 0 then [] else Text.zeroPadded places (n % Nat.pow 10 places))

def fixedText (x : Float) (places : Nat) : Text :=
  let (whole, fraction) := fixedDigits x places
  if fraction.isEmpty then whole else whole ++ (46 : Byte) :: fraction

/-- Commas before every third digit from the end, but not in front. -/
def groupDigits : Text → Text
  | [] => []
  | b :: rest =>
    if rest.isEmpty || rest.length % 3 ≠ 0 then b :: groupDigits rest
    else b :: 44 :: groupDigits rest

/-- Drops zeros from the end as long as more than a number of digits are left. -/
def trimZeros (least : Nat) (fraction : Text) : Text :=
  let extra := fraction.drop least
  fraction.take least ++ (extra.reverse.dropWhile (· == 48)).reverse

/-- A number in groups, with at most and at least so many decimal places. The sign is shown only
before a digit that is not zero. -/
def grouped (x : Float) (least most : Nat) : Text :=
  if x.isNaN then "NaN"
  else if x.isInf then (if x < 0.0 then "-∞" else "∞")
  else
    let (whole, fraction) := fixedDigits x.abs most
    let shown := trimZeros least fraction
    let negative := x < 0.0 && ((whole ++ shown).any (· != 48))
    let sign : Text := if negative then "-" else []
    sign ++ groupDigits whole ++ (if shown.isEmpty then [] else (46 : Byte) :: shown)

end Numeral
end EntityMachines
