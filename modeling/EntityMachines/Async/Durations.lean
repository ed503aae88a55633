/-!
Durations that are observed one after another, in nanoseconds.
-/
namespace EntityMachines

structure Durations where
  count : Nat := 0
  last : Int := 0
  max : Int := 0
  total : Int := 0
  overBudget : Nat := 0
deriving DecidableEq, Repr

/-- Takes in a sample. A budget that is not positive is none, and no sample exceeds it. -/
def Durations.observe (d : Durations) (sample : Int) (budget : Int := 0) : Durations where
  count := d.count + 1
  last := sample
  max := if d.max < sample then sample else d.max
  total := d.total + sample
  overBudget := if 0 < budget ∧ budget < sample then d.overBudget + 1 else d.overBudget

end EntityMachines
