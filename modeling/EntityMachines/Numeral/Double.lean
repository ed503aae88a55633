/-!
Finite doubles as exact numbers: a double is a sign, a whole mantissa and a power of two.
-/
namespace EntityMachines

namespace Double

def infinity : Float := 1.0 / 0.0

def nan : Float := 0.0 / 0.0

/-- A finite double of the value `± mantissa · 2 ^ exponent`. -/
structure Exact where
  negative : Bool
  mantissa : Nat
  exponent : Int
deriving Repr, DecidableEq

/-- The exact value that a bit pattern of a finite double stands for. -/
def Exact.ofBits (bits : UInt64) : Exact :=
  let field := (bits.toNat >>> 52) % 2048
  let fraction := bits.toNat % Nat.pow 2 52
  if field = 0 then ⟨bits.toNat ≥ Nat.pow 2 63, fraction, -1074⟩
  else ⟨bits.toNat ≥ Nat.pow 2 63, fraction + Nat.pow 2 52, (field : Int) - 1075⟩

def exact (x : Float) : Exact := Exact.ofBits x.toBits

namespace Exact

/-- The magnitude as a quotient of whole numbers. -/
def ratio (x : Exact) : Nat × Nat :=
  (x.mantissa * Nat.pow 2 x.exponent.toNat, Nat.pow 2 (-x.exponent).toNat)

/-- The magnitude has no fractional part. -/
def isWhole (x : Exact) : Bool := x.ratio.1 % x.ratio.2 == 0

/-- The magnitude without its fractional part. -/
def whole (x : Exact) : Nat := x.ratio.1 / x.ratio.2

/-- The number without its fractional part. -/
def truncated (x : Exact) : Int := if x.negative then -(x.whole : Int) else x.whole

/-- The whole number nearest to the magnitude times a power of ten; a half goes to the even
neighbour. -/
def scaledRound (x : Exact) (places : Nat) : Nat :=
  let (num, den) := x.ratio
  let scaled := num * Nat.pow 10 places
  let q := scaled / den
  let twice := 2 * (scaled % den)
  if twice < den then q
  else if den < twice then q + 1
  else if q % 2 = 0 then q else q + 1

end Exact

/-- A finite double without its fractional part, as a whole number. -/
def toInt (x : Float) : Int := if x.isFinite then (exact x).truncated else 0

def ofInt (n : Int) : Float := if n < 0 then -(Float.ofNat n.natAbs) else Float.ofNat n.natAbs

/-- The greatest whole number that is not above a double. -/
def floor (x : Float) : Float :=
  let a := exact x
  if !x.isFinite || a.isWhole then x
  else if a.negative then -(Float.ofNat (a.whole + 1)) else Float.ofNat a.whole

/-- The least whole number that is not below a double. -/
def ceil (x : Float) : Float :=
  let a := exact x
  if !x.isFinite || a.isWhole then x
  else if a.negative then -(Float.ofNat a.whole) else Float.ofNat (a.whole + 1)

/-- The number `mantissa · 2 ^ exponent`, where it is a double. -/
def ofScaled (mantissa : Nat) (exponent : Int) : Float :=
  if 0 ≤ exponent then Float.ofNat (mantissa * Nat.pow 2 exponent.toNat)
  else
    -- the whole power may be too large for a double, either half of it is not
    let places := (-exponent).toNat
    Float.ofNat mantissa / Float.ofNat (Nat.pow 2 (places / 2))
      / Float.ofNat (Nat.pow 2 (places - places / 2))

/-- The remainder of the division of magnitudes toward zero, with the sign of the dividend.
It is exact: the remainder of two doubles is a double. -/
def remainder (x y : Float) : Float :=
  if x.isNaN || y.isNaN || x.isInf || y == 0.0 then nan
  else if y.isInf then x
  else
    let a := exact x
    let b := exact y
    let low := min a.exponent b.exponent
    let m := a.mantissa * Nat.pow 2 (a.exponent - low).toNat
    let n := b.mantissa * Nat.pow 2 (b.exponent - low).toNat
    let r := ofScaled (m % n) low
    if a.negative then -r else r

end Double

end EntityMachines
