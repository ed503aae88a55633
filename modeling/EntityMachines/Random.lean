/-!
Reproducible random numbers: a generator that steps through all 64-bit states and mixes each.
-/
namespace EntityMachines
namespace Random

/-- The next state. -/
def step (state : UInt64) : UInt64 := state + 0x9e3779b97f4a7c15

/-- The number that belongs to a state. -/
def mix (state : UInt64) : UInt64 :=
  let z := (state ^^^ (state >>> 30)) * 0xbf58476d1ce4e5b9
  let z := (z ^^^ (z >>> 27)) * 0x94d049bb133111eb
  z ^^^ (z >>> 31)

/-- A number from zero up to but not including one, from the upper 53 bits. -/
def unit (state : UInt64) : Float := (mix state >>> 11).toFloat * (1.0 / 9007199254740992.0)

/-- The state that a whole number stands for. -/
def seed (n : Int) : UInt64 := UInt64.ofInt n

/-- The items in an order drawn from a state: each time one of those left is moved to the
front. -/
def shuffle {α : Type} (state : UInt64) : Nat → List α → List α
  | 0, items => items
  | n + 1, items =>
    let state := step state
    let i := (mix state).toNat % (max items.length 1)
    match items[i]? with
    | some item => item :: shuffle state n (items.eraseIdx i)
    | none => []

end Random
end EntityMachines
