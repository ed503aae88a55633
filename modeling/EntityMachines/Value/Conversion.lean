import EntityMachines.Value

/-!
Conversions of values: to truth values, numbers, texts for display, and to the numbers and texts
that are compared by order.
-/
namespace EntityMachines
namespace Value

def isTruthy : Value → Bool
  | undefined | null => false
  | bool b => b
  | number x => x != 0.0 && !x.isNaN
  | string s => !s.isEmpty
  | array _ | map _ | closure _ => true

/-- Texts count as the number at their front, and as zero if there is none. -/
def toNumber : Value → Float
  | number x => x
  | string s =>
    let x := Numeral.ofLeading s
    if x.isNaN then 0.0 else x
  | bool b => if b then 1.0 else 0.0
  | _ => 0.0

mutual

/-- The text of a value among others; a nullish one leaves an empty place. -/
def displayItem : Value → Text
  | undefined | null => []
  | bool b => if b then "true" else "false"
  | number x => Numeral.plain.write x
  | string s => s
  | array [] => []
  | array (item :: rest) => displayItem item ++ displayRest rest
  | map _ => "[object Object]"
  | closure _ => "[function]"
termination_by structural v => v

def displayRest : List Value → Text
  | [] => []
  | item :: rest => 44 :: (displayItem item ++ displayRest rest)
termination_by structural vs => vs

end

/-- The text of a value for people. -/
def display : Value → Text
  | undefined => "undefined"
  | null => "null"
  | v => v.displayItem

/-- What takes part in a comparison by order: a number or a text. -/
def comparable : Value → Value
  | number x => number x
  | string s => string s
  | bool b => number (if b then 1.0 else 0.0)
  | undefined | null => number 0.0
  | v => string v.display

/-- The number of a comparable; a text has to be a number as a whole. -/
def comparableNumber : Value → Float
  | string s => Numeral.ofWhole s
  | v => v.toNumber

/-- Two texts compare byte by byte, anything else as numbers. There is no order where one of the
numbers is missing. -/
def compare? (a b : Value) : Option Ordering :=
  match a, b with
  | string s, string t => some (compare s t)
  | _, _ =>
    let x := a.comparableNumber
    let y := b.comparableNumber
    if x.isNaN || y.isNaN then none
    else if x < y then some .lt
    else if y < x then some .gt
    else some .eq

end Value
end EntityMachines
