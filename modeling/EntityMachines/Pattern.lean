import EntityMachines.Text

/-!
Regular expressions over bytes, with groups, references back to groups, assertions about what
follows, and bracket expressions with the character classes of POSIX.
-/
namespace EntityMachines

/-- Named classes of bytes. -/
inductive ByteClass where
  | alnum | alpha | blank | cntrl | digit | graph | lower | print | punct | space | upper | xdigit
  | word
deriving DecidableEq, Repr

namespace ByteClass

def accepts (b : Byte) : ByteClass → Bool
  | alnum => b.isAlnum
  | alpha => b.isAlpha
  | blank => b == 32 || b == 9
  | cntrl => b < 32 || b == 127
  | digit => b.isDigit
  | graph => 33 ≤ b && b ≤ 126
  | lower => b.isLower
  | print => 32 ≤ b && b ≤ 126
  | punct => 33 ≤ b && b ≤ 126 && !b.isAlnum
  | space => b.isSpace
  | upper => b.isUpper
  | xdigit => b.hexDigit?.isSome
  | word => b.isAlnum || b == '_'

/-- Class names are known in any letter case; the short names stand for digits, blanks and
bytes of words. Where case is ignored, a class of one case holds letters of both. -/
def ofName? (ignoreCase : Bool) (name : Text) : Option ByteClass :=
  let classes : List (String × ByteClass) :=
    [("d", digit), ("w", word), ("s", space), ("alnum", alnum), ("alpha", alpha),
      ("blank", blank), ("cntrl", cntrl), ("digit", digit), ("graph", graph),
      ("lower", if ignoreCase then alpha else lower), ("print", print), ("punct", punct),
      ("space", space), ("upper", if ignoreCase then alpha else upper), ("xdigit", xdigit)]
  (classes.find? fun (s, _) => Text.ofString s = name.toLower).map (·.2)

end ByteClass

/-- A part of a bracket expression. -/
inductive BracketItem where
  | byte (b : Byte)
  | range (low high : Byte)
  | inside (c : ByteClass)
  | outside (c : ByteClass)
  /-- All bytes that are the same letter. -/
  | letter (b : Byte)
deriving DecidableEq, Repr

namespace BracketItem

/-- Bytes from 128 up come before all others in ranges. -/
def inRange (low high b : Byte) : Bool := low + 128 ≤ b + 128 && b + 128 ≤ high + 128

def accepts (ignoreCase : Bool) (b : Byte) : BracketItem → Bool
  | byte c => if ignoreCase then b.toLower == c.toLower else b == c
  | range low high =>
    if ignoreCase then inRange low high b.toLower || inRange low high b.toUpper
    else inRange low high b
  | inside c => c.accepts b
  | outside c => !c.accepts b
  | letter c => b.toLower == c.toLower

end BracketItem

/-- How many rounds a repetition goes. -/
inductive Rounds where
  | any
  | atLeastOne
  | atMostOne
  /-- So many rounds, and then at most so many more; without bound if there is none. Each of these
  rounds counts as a part of its own. -/
  | counted (least : Nat) (more : Option Nat)
deriving DecidableEq, Repr

inductive Pattern where
  | empty
  | byte (b : Byte)
  /-- Any byte but a line break. -/
  | anyByte
  | bracket (negated : Bool) (items : List BracketItem)
  | start
  | finish
  | wordBoundary (negated : Bool)
  | ahead (negated : Bool) (p : Pattern)
  /-- A group with an index keeps the text it matches. -/
  | group (index : Option Nat) (p : Pattern)
  | back (index : Nat)
  | seq (p q : Pattern)
  /-- The first way is tried before the second. -/
  | alt (p q : Pattern)
  /-- A greedy repetition tries another round before it ends, any other ends before it tries
  another round. -/
  | repeated (greedy : Bool) (rounds : Rounds) (p : Pattern)
deriving DecidableEq, Repr

namespace Pattern

/-- The number of parts of a pattern whose counted rounds are written out. -/
def parts : Pattern → Nat
  | seq p q => p.parts + q.parts
  | alt p q => p.parts + q.parts + 2
  | group index p => p.parts + if index.isSome then 2 else 1
  | ahead _ p => p.parts + 2
  | repeated _ rounds p =>
    match rounds with
    | .any | .atLeastOne => p.parts + 1
    | .atMostOne => p.parts + 2
    | .counted least none => least * p.parts + p.parts + 2
    | .counted least (some more) => least * p.parts + more * (p.parts + 1) + 2
  | _ => 1

/-- The number of parts that come up while a pattern is written out: what counted rounds are copied
from counts too. -/
def size : Pattern → Nat
  | seq p q => p.size + q.size
  | alt p q => p.size + q.size + 2
  | group index p => p.size + if index.isSome then 2 else 1
  | ahead _ p => p.size + 2
  | repeated greedy rounds p =>
    match rounds with
    | .any | .atLeastOne => p.size + 1
    | .atMostOne => p.size + 2
    | .counted _ _ => p.size + (repeated greedy rounds p).parts
  | _ => 1

end Pattern
end EntityMachines
