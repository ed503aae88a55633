import EntityMachines.Numeral.Double

/-!
Shortest decimals. Every real of an interval around a double is nearer to it than to any other
double; of the decimals there the one with the fewest digits is chosen, and of several with as
many digits the one nearest to the double.
-/
namespace EntityMachines

/-- The number `digits · 10 ^ exponent`. -/
structure Decimal where
  digits : Nat
  exponent : Int
deriving Repr, DecidableEq

namespace Decimal

/-- The same number with no zero at the end of its digits. -/
def stripped (digits : Nat) (exponent : Int) : Nat → Decimal
  | 0 => ⟨digits, exponent⟩
  | fuel + 1 =>
    if digits % 10 = 0 ∧ digits ≠ 0 then stripped (digits / 10) (exponent + 1) fuel
    else ⟨digits, exponent⟩

/-- The number of decimal digits of a positive number. -/
def width (n : Nat) : Nat := (Nat.toDigits 10 n).length

/-- The power of ten of the leading digit. -/
def magnitude (d : Decimal) : Int := d.exponent + width d.digits - 1

end Decimal

namespace Shortest

/-- A positive number with the interval of reals that round to it, all over one denominator.
The ends belong to the interval when the mantissa is even. -/
structure Neighbourhood where
  low : Nat
  value : Nat
  high : Nat
  denominator : Nat
  closed : Bool

/-- Below a power of two the doubles lie twice as close. -/
def Neighbourhood.of (x : Double.Exact) : Neighbourhood :=
  let below := if x.mantissa = Nat.pow 2 52 ∧ x.exponent > -1074 then 1 else 2
  let scale := Nat.pow 2 x.exponent.toNat
  { low := (4 * x.mantissa - below) * scale
    value := 4 * x.mantissa * scale
    high := (4 * x.mantissa + 2) * scale
    denominator := 4 * Nat.pow 2 (-x.exponent).toNat
    closed := x.mantissa % 2 = 0 }

namespace Neighbourhood

/-- Membership of `n · 10 ^ exponent`. -/
def contains (v : Neighbourhood) (n : Nat) (exponent : Int) : Bool :=
  let point := n * Nat.pow 10 exponent.toNat * v.denominator
  let scale := Nat.pow 10 (-exponent).toNat
  if v.closed then v.low * scale ≤ point && point ≤ v.high * scale
  else v.low * scale < point && point < v.high * scale

/-- The least `j` from a start at which the value times `10 ^ j` is at least one. -/
def leadingPlace (v : Neighbourhood) : Nat → Nat → Nat
  | 0, j => j
  | fuel + 1, j => if v.denominator ≤ v.value * Nat.pow 10 j then j else leadingPlace v fuel (j + 1)

/-- The power of ten of the leading digit of the value. -/
def magnitude (v : Neighbourhood) : Int :=
  if v.denominator ≤ v.value then (Decimal.width (v.value / v.denominator) : Int) - 1
  else -(v.leadingPlace 400 1 : Int)

/-- The decimal of a grid that lies in the interval next to the value. Of two such decimals the
nearer one is taken, and of two equally near ones the even one. -/
def onGrid? (v : Neighbourhood) (exponent : Int) : Option Nat :=
  let num := v.value * Nat.pow 10 (-exponent).toNat
  let den := v.denominator * Nat.pow 10 exponent.toNat
  let q := num / den
  let twice := 2 * (num % den)
  let lower := v.contains q exponent
  let upper := v.contains (q + 1) exponent
  let preferLower := twice < den || (twice == den && q % 2 == 0)
  if lower && (preferLower || !upper) then some q
  else if upper then some (q + 1)
  else none

/-- The first hit among the grids with growing numbers of digits. -/
def search (v : Neighbourhood) : Nat → Int → Decimal
  | 0, exponent =>
    ⟨v.value * Nat.pow 10 (-exponent).toNat / (v.denominator * Nat.pow 10 exponent.toNat), exponent⟩
  | fuel + 1, exponent =>
    match v.onGrid? exponent with
    | some n => Decimal.stripped n exponent 20
    | none => search v fuel (exponent - 1)

end Neighbourhood

end Shortest

/-- The shortest decimal that reads back as a positive finite double; seventeen digits always
suffice. -/
def Double.Exact.shortest (x : Double.Exact) : Decimal :=
  let v := Shortest.Neighbourhood.of x
  v.search 18 v.magnitude

end EntityMachines
