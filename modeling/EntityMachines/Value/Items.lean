import EntityMachines.Value.Conversion
import EntityMachines.Value.Equality

/-!
Arrays as lists of items: cutting, searching, sorting and grouping.
-/
namespace EntityMachines
namespace Items

/-- A number without its fractional part. -/
def truncate (x : Float) : Float := if x < 0.0 then Double.ceil x else Double.floor x

/-- The place that an index means among `length` items. Negative indices count from the end,
and all indices are kept within the bounds; a missing number means the front. -/
def place (index : Float) (length : Nat) : Nat :=
  if index.isNaN then 0
  else
    let size := Float.ofNat length
    let resolved := if index < 0.0 then size + truncate index else truncate index
    if resolved < 0.0 then 0
    else if size < resolved then length
    else (Double.toInt resolved).toNat

/-- The items from one place to another; to the end if none is given. -/
def slice {α : Type} (items : List α) (start : Float) (stop : Option Float) : List α :=
  let first := place start items.length
  let last := match stop with
    | some stop => place stop items.length
    | none => items.length
  (items.take last).drop first

/-- A count of items; anything but a positive number counts none. -/
def count (n : Float) : Nat :=
  if !(n > 0.0) then 0
  else if 4294967295.0 < n then 4294967295
  else (Double.toInt n).toNat

def takeLast {α : Type} (items : List α) (n : Nat) : List α := items.drop (items.length - n)

def dropLast {α : Type} (items : List α) (n : Nat) : List α := items.take (items.length - n)

/-- The place of the first item that equals a value. -/
def indexOf? (items : List Value) (v : Value) : Option Nat :=
  items.findIdx? fun item => item.equal v

/-- Each item that equals no item before it. -/
def unique (items : List Value) : List Value :=
  items.foldl (fun kept item => if item.occursIn kept then kept else kept ++ [item]) []

/-- What items are ordered by: a field of each, or the item itself if no key is given. -/
def sortKey (key : Text) (item : Value) : Value := if key.isEmpty then item else item.get key

/-- The order of two values; values without an order count as equal. -/
def order (a b : Value) : Ordering := (a.comparable.compare? b.comparable).getD .eq

/-- An item may stand before another unless the other has to precede it. -/
def mayPrecede (key : Text) (descending : Bool) (a b : Value) : Bool :=
  let o := order (sortKey key b) (sortKey key a)
  if descending then o != .gt else o != .lt

/-- The items in order; those that compare equal stay in the order in which they came. -/
def sort (items : List Value) (key : Text) (descending : Bool) : List Value :=
  items.mergeSort (mayPrecede key descending)

/-- The items of arrays among the items in the place of the arrays. -/
def flatten (items : List Value) : List Value :=
  items.flatMap fun item => match item with
    | .array inner => inner
    | item => [item]

def zip (items others : List Value) : List Value :=
  (items.zip others).map fun (a, b) => .array [a, b]

/-- The numbers among the items, or among their fields under a key. -/
def numericField? (key : Text) (item : Value) : Option Float :=
  match sortKey key item with
  | .number x => some x
  | _ => none

def sum (items : List Value) (key : Text) : Float :=
  items.foldl (fun total item => total + (numericField? key item).getD 0.0) 0.0

def average (items : List Value) (key : Text) : Float :=
  if items.isEmpty then 0.0 else sum items key / Float.ofNat items.length

def least (items : List Value) (key : Text) : Float :=
  if items.isEmpty then 0.0
  else items.foldl (fun found item =>
    let x := (numericField? key item).getD Double.infinity
    if x < found then x else found) Double.infinity

def greatest (items : List Value) (key : Text) : Float :=
  if items.isEmpty then 0.0
  else items.foldl (fun found item =>
    let x := (numericField? key item).getD (-Double.infinity)
    if found < x then x else found) (-Double.infinity)

/-- The name of the group of an item. -/
def groupName (key : Text) (item : Value) : Text :=
  let field := item.get key
  if field.isNullish then "undefined" else field.display

/-- The items by the text of a field, in each group in the order in which they came. -/
def groupBy (items : List Value) (key : Text) : Table (List Value) :=
  items.foldl (fun groups item =>
    let name := groupName key item
    groups.insert name ((groups.find? name).getD [] ++ [item])) []

end Items
end EntityMachines
