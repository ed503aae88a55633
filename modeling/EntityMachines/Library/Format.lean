import EntityMachines.Library.Module
import EntityMachines.Numeral.Layout

/-!
The module `format/`: numbers, amounts and identifiers for people to read.
-/
namespace EntityMachines
namespace Library.Format

/-- How an amount in a currency is written. -/
structure Currency where
  code : Text
  symbol : Text
  places : Nat

def currencies : List Currency :=
  [⟨"USD", "$", 2⟩, ⟨"EUR", "€", 2⟩, ⟨"GBP", "£", 2⟩, ⟨"JPY", "¥", 0⟩, ⟨"CNY", "CN¥", 2⟩,
    ⟨"INR", "₹", 2⟩, ⟨"CAD", "CA$", 2⟩, ⟨"AUD", "A$", 2⟩]

/-- Decimal places from none to twenty. -/
def placesOf (x : Float) : Nat :=
  if !(x >= 0.0) then 0 else if x > 20.0 then 20 else (Double.toInt x).toNat

def number (x : Float) (options : Value) : Text :=
  let places := options.get "decimals"
  if places.isNullish then Numeral.grouped x 0 3
  else
    let n := placesOf places.toNumber
    Numeral.grouped x n n

/-- The blank between a currency's code and an amount, at which no line breaks. -/
def noBreakSpace : Text := "\u00a0"

/-- An amount of money; an unknown currency is written by its code. -/
def currency (x : Float) (code : Text) : Text :=
  let sign : Text := if x < 0.0 then "-" else []
  match currencies.find? fun c => c.code = code with
  | some c => sign ++ c.symbol ++ Numeral.grouped x.abs c.places c.places
  | none => sign ++ code ++ noBreakSpace ++ Numeral.grouped x.abs 2 2

def percent (x places : Float) : Text :=
  Numeral.grouped (x * 100.0) (placesOf places) (placesOf places) ++ "%"

def byteUnits : List Text := ["B", "KB", "MB", "GB", "TB", "PB"].map Text.ofString

/-- A size in the greatest unit that does not exceed it. -/
def bytes (x : Float) : Text :=
  if x == 0.0 then "0 B"
  else
    let exponent := Double.toInt (Double.floor (Float.log x / Float.log 1024.0))
    if exponent ≤ 0 ∨ x.isNaN then Numeral.plain.write x ++ " B"
    else
      let exponent := min exponent.toNat 5
      let scaled := x / Float.pow 1024.0 (Float.ofNat exponent)
      let text :=
        if scaled >= 10.0 then Numeral.plain.write (Double.floor (scaled + 0.5))
        else if Double.floor scaled == scaled then Numeral.plain.write scaled
        else Numeral.fixedText scaled 1
      text ++ " " ++ byteUnits.getD exponent []

def ordinalSuffix (x : Float) : Text :=
  let lastDigit := Double.remainder x.abs 10.0
  let lastTwo := Double.remainder x.abs 100.0
  if lastTwo >= 11.0 && lastTwo <= 13.0 then "th"
  else if lastDigit == 1.0 then "st"
  else if lastDigit == 2.0 then "nd"
  else if lastDigit == 3.0 then "rd"
  else "th"

/-- A list in words, with a conjunction before the last item. -/
def listing (items : List Text) (conjunction : Text) : Text :=
  match items with
  | [] => []
  | [item] => item
  | [a, b] => a ++ " " ++ conjunction ++ " " ++ b
  | _ =>
    let front : Text := items.dropLast.flatMap fun item => item ++ Text.ofString ", "
    front ++ conjunction ++ " " ++ items.getLastD []

def digitsOf (t : Text) : Text := t.filter Byte.isDigit

/-- A phone number in groups, if it has enough digits. -/
def phone? (digits : Text) (american : Bool) : Option Text :=
  if american && digits.length == 10 then
    some ("(" ++ digits.take 3 ++ ") " ++ (digits.drop 3).take 3 ++ "-" ++ digits.drop 6)
  else if american && digits.length == 11 && digits.head? == some (49 : Byte) then
    some ("+1 (" ++ (digits.drop 1).take 3 ++ ") " ++ (digits.drop 4).take 3 ++ "-"
      ++ digits.drop 7)
  else if 10 ≤ digits.length then
    some (digits.take 3 ++ "-" ++ (digits.drop 3).take 3 ++ "-" ++ digits.drop 6)
  else none

/-- Digits from a place on, in groups of four, with a bullet for each but the last four. -/
def maskFrom (place : Nat) : Text → Text
  | [] => []
  | b :: rest =>
    let gap : Text := if place ≠ 0 ∧ place % 4 = 0 then " " else []
    let shown : Text := if 4 ≤ rest.length then "•" else [b]
    gap ++ shown ++ maskFrom (place + 1) rest

def card? (digits : Text) : Option Text :=
  if digits.length < 4 then none else some (maskFrom 0 digits)

/-- A text if there is one, else the value that it should have been made of. -/
def orInput (input : Value) (t? : Option Text) : Value :=
  match t? with
  | some t => .string t
  | none => input

def total : Library := ofTotal [
  ("format/number", fun args => .string (number (args.number 0) (args.nth 1))),
  ("format/currency", fun args => .string (currency (args.number 0) (args.text 1 "USD"))),
  ("format/percent", fun args => .string (percent (args.number 0) (args.number 1))),
  ("format/bytes", fun args => .string (bytes (args.number 0))),
  ("format/ordinal", fun args =>
    .string (Numeral.plain.write (args.number 0) ++ ordinalSuffix (args.number 0))),
  ("format/plural", fun args =>
    .string (Numeral.plain.write (args.number 0) ++ " "
      ++ if (args.number 0).abs == 1.0 then args.text 1 else args.text 2)),
  ("format/list", fun args =>
    .string (listing ((args.nth 0).items.map Value.display) (args.text 1 "and"))),
  ("format/phone", fun args =>
    orInput (args.nth 0)
      (phone? (digitsOf (args.text 0)) (args.text 1 "US" == Text.ofString "US"))),
  ("format/creditCard", fun args => orInput (args.nth 0) (card? (digitsOf (args.text 0))))]

def operators : Library := total

end Library.Format
end EntityMachines
