import EntityMachines.Eval.Arithmetic
import EntityMachines.Library.Module
import EntityMachines.Random

/-!
The module `math/`.
-/
namespace EntityMachines
namespace Library.Math

/-- A number rounded to decimal places; halves are rounded up. -/
def roundTo (x places : Float) : Float :=
  if places == 0.0 then Arithmetic.round x
  else
    let factor := Float.pow 10.0 places
    Arithmetic.round (x * factor) / factor

/-- The greatest number allowed wins over the least. -/
def clamp (x low high : Float) : Float := Arithmetic.min (Arithmetic.max x low) high

def sign (x : Float) : Float :=
  if x.isNaN || x == 0.0 then x else if x > 0.0 then 1.0 else -1.0

/-- The number that lies in one range as another number lies in another range. -/
def rescale (x inLow inHigh outLow outHigh : Float) : Float :=
  (x - inLow) / (inHigh - inLow) * (outHigh - outLow) + outLow

def orDefault (v fallback : Value) : Value :=
  match v with
  | .undefined | .null => fallback
  | .number x => if x.isNaN then fallback else v
  | _ => v

def ofNumber (f : Float → Float) (args : Arguments) : Value := .number (f (args.number 0))

def ofNumbers (f : Float → Float → Float) (args : Arguments) : Value :=
  .number (f (args.number 0) (args.number 1))

def total : Library := ofTotal [
  ("math/abs", ofNumber Float.abs),
  ("math/min", fun args =>
    .number (args.foldl (fun m v => Arithmetic.min m v.toNumber) Double.infinity)),
  ("math/max", fun args =>
    .number (args.foldl (fun m v => Arithmetic.max m v.toNumber) (-Double.infinity))),
  ("math/floor", ofNumber Double.floor),
  ("math/ceil", ofNumber Double.ceil),
  ("math/round", ofNumbers roundTo),
  ("math/pow", ofNumbers Float.pow),
  ("math/sqrt", ofNumber Float.sqrt),
  ("math/mod", ofNumbers Double.remainder),
  ("math/sign", ofNumber sign),
  ("math/lerp", fun args =>
    .number (args.number 0 + (args.number 1 - args.number 0) * args.number 2)),
  ("math/default", fun args => orDefault (args.nth 0) (args.nth 1))]

def demanding : Library := ofPartial [
  ("math/clamp", fun args => do
    args.require "math/clamp" 3
    return .number (clamp (args.number 0) (args.number 1) (args.number 2))),
  ("math/map", fun args => do
    args.require "math/map" 5
    return .number (rescale (args.number 0) (args.number 1) (args.number 2) (args.number 3)
      (args.number 4)))]

/-- Draws a number from zero up to one. -/
def draw : Eval Float := do
  let state := Random.step (← get).random
  modify fun w => { w with random := state }
  return Random.unit state

def random : Library := ofCalling [
  ("math/random", fun _ _ => return .number (← draw)),
  ("math/randomInt", fun _ args => do
    let low := args.number 0
    return .number (Double.floor ((← draw) * (args.number 1 - low + 1.0)) + low)),
  ("math/seed", fun _ args => do
    modify fun w => { w with random := Random.seed (Double.toInt (args.number 0)) }
    return .undefined)]

def operators : Library := total ++ demanding ++ random

end Library.Math
end EntityMachines
