import EntityMachines.Pattern
import EntityMachines.Pattern.Parser

/-!
How a pattern matches at a place in a text. The ways to match are tried in order of preference, and
the first one along which the rest of the match succeeds is taken. What groups have captured is
given up with the way on which they captured it, but for groups inside an assertion: once the
assertion is left, their captures stay, whatever becomes of the way.
-/
namespace EntityMachines
namespace Pattern

/-- The texts that groups have captured, by index. -/
abbrev Captures := List (Nat × Text)

/-- Gives a group a text, or takes it away. -/
def Captures.set (i : Nat) (captured : Option Text) (c : Captures) : Captures :=
  (captured.map fun t => (i, t)).toList ++ c.filter (·.1 != i)

/-- How a match ends, and the captures that stay. -/
inductive Outcome where
  | found (c : Captures)
  | lost (c : Captures)

namespace Outcome

def isFound : Outcome → Bool
  | found _ => true
  | lost _ => false

/-- Where one way is lost another one begins with the captures that stay. -/
def otherwise : Outcome → (Captures → Outcome) → Outcome
  | found c, _ => .found c
  | lost c, other => other c

/-- Where a way is lost a group has the text again that it had before. -/
def restoring (i : Nat) (captured : Option Text) : Outcome → Outcome
  | found c => .found c
  | lost c => .lost (c.set i captured)

end Outcome

/-- Where a part stands in a pattern: the way down to it, innermost turn first. The rounds of a
counted repetition stand apart from each other. -/
abbrev Site := List Nat

/-- A place in a text during a match. -/
structure Place where
  position : Nat
  /-- The byte before the place; none at the front. -/
  previous : Option Byte
  rest : Text
  /-- The repetitions that have begun rounds at this very place, one entry a round. -/
  begun : List Site

namespace Place

def next (s : Place) (b : Byte) (rest : Text) : Place := ⟨s.position + 1, some b, rest, []⟩

/-- Moves over bytes that have been compared already. -/
def skip (s : Place) (count : Nat) : Place :=
  if count = 0 then s
  else ⟨s.position + count, s.rest[count - 1]?, s.rest.drop count, []⟩

def atWordBoundary (s : Place) : Bool :=
  let isWord (b : Option Byte) : Bool := b.any fun b => ByteClass.word.accepts b
  isWord s.previous != isWord s.rest.head?

/-- Begins a round of a repetition. After a round that takes nothing a second one may begin at the
same place, since a group may have captured a text by then, but no third. -/
def beginRound (site : Site) (s : Place) : Option Place :=
  if s.begun.count site < 2 then some { s with begun := site :: s.begun } else none

/-- No repetition begins more rounds than this from a place on: at most two at every place. -/
def roundLimit (s : Place) : Nat := 2 * (s.rest.length + 1)

end Place

/-- The rest of a match. -/
abbrev Rest := Place → Captures → Outcome

/-- A part of a match, which goes on with the rest. -/
abbrev Step := Rest → Rest

def oneByte (accepts : Byte → Bool) : Step := fun k s c =>
  match s.rest with
  | b :: rest => if accepts b then k (s.next b rest) c else .lost c
  | [] => .lost c

def assertion (holds : Place → Bool) : Step := fun k s c => if holds s then k s c else .lost c

/-- The text that a group has captured, once more. -/
def sameAgain (ignoreCase : Bool) (i : Nat) : Step := fun k s c =>
  match c.lookup i with
  | none => .lost c
  | some captured =>
    let here := s.rest.take captured.length
    let same :=
      if ignoreCase then Text.toLower here == Text.toLower captured else here == captured
    if same then k (s.skip captured.length) c else .lost c

/-- Another round of a repetition, if one may begin, or its end. -/
def anotherOr (greedy : Bool) (site : Site) (another : Rest) : Step := fun k s c =>
  let round (c : Captures) : Outcome :=
    match s.beginRound site with
    | some s => another s c
    | none => .lost c
  if greedy then (round c).otherwise (k s) else (k s c).otherwise round

/-- At most so many rounds, all of one repetition. -/
def repeating (greedy : Bool) (site : Site) (step : Step) (k : Rest) : Nat → Rest
  | 0 => k
  | n + 1 => anotherOr greedy site (step (repeating greedy site step k n)) k

/-- Any number of rounds of a repetition. -/
def unbounded (greedy : Bool) (site : Site) (step : Step) : Step := fun k s c =>
  repeating greedy site step k s.roundLimit s c

/-- So many rounds, each a step of its own. -/
def exactly (round : Nat → Step) (k : Rest) : Nat → Rest
  | 0 => k
  | n + 1 => round n (exactly round k n)

/-- At most so many rounds, each a repetition of its own. -/
def atMost (greedy : Bool) (site : Nat → Site) (round : Nat → Step) (k : Rest) : Nat → Rest
  | 0 => k
  | n + 1 => anotherOr greedy (site n) (round n (atMost greedy site round k n)) k

/-- Matches a pattern and then the rest. An assertion about what follows takes the first match of
its own, with no rest to please, and no other after it. Inside an assertion the text begins at the
assertion, unless the search has left the front of the text before. -/
def step (ignoreCase fromFront : Bool) : Pattern → Site → Step
  | empty, _ => id
  | byte c, _ => oneByte fun b => if ignoreCase then b.toLower == c.toLower else b == c
  | anyByte, _ => oneByte fun b => b != 10 && b != 13
  | bracket negated items, _ =>
    oneByte fun b => (items.any fun item => item.accepts ignoreCase b) != negated
  | start, _ => assertion fun s => s.previous.isNone
  | finish, _ => assertion fun s => s.rest.isEmpty
  | wordBoundary negated, _ => assertion fun s => s.atWordBoundary != negated
  | ahead negated p, site => fun k s c =>
    let here := { s with previous := if fromFront then none else s.previous, begun := [] }
    match step ignoreCase fromFront p site (fun _ c => .found c) here c with
    | .found inside => if negated then .lost inside else k s inside
    | .lost _ => if negated then k s c else .lost c
  | group none p, site => step ignoreCase fromFront p site
  | group (some i) p, site => fun k s =>
    step ignoreCase fromFront p site (fun t c =>
      (k t (c.set i (some (s.rest.take (t.position - s.position))))).restoring i (c.lookup i)) s
  | back i, _ => sameAgain ignoreCase i
  | seq p q, site => fun k =>
    step ignoreCase fromFront p (0 :: site) (step ignoreCase fromFront q (1 :: site) k)
  | alt p q, site => fun k s c =>
    (step ignoreCase fromFront p (0 :: site) k s c).otherwise
      (step ignoreCase fromFront q (1 :: site) k s)
  | repeated greedy rounds p, site =>
    let round (i : Nat) : Step := step ignoreCase fromFront p (i :: site)
    match rounds with
    | .any => unbounded greedy (0 :: site) (round 0)
    | .atLeastOne => fun k => round 0 (unbounded greedy (0 :: site) (round 0) k)
    | .atMostOne => fun k => atMost greedy (· :: site) round k 1
    | .counted least none => fun k =>
      exactly round (unbounded greedy (least :: site) (round least) k) least
    | .counted least (some more) => fun k =>
      exactly round
        (atMost greedy (fun i => (least + i) :: site) (fun i => round (least + i)) k more) least

end Pattern

/-! Whether a written pattern matches somewhere in a text. -/

namespace Pattern

/-- Whether a pattern matches at a place, with no group captured yet. -/
def matchesAt (ignoreCase fromFront : Bool) (p : Pattern) (s : Place) : Bool :=
  (step ignoreCase fromFront p [] (fun _ c => .found c) s []).isFound

/-- Tries the pattern at every place from a given one on. -/
def searchFrom (ignoreCase fromFront : Bool) (p : Pattern) (position : Nat)
    (previous : Option Byte) (t : Text) : Bool :=
  matchesAt ignoreCase fromFront p ⟨position, previous, t, []⟩ ||
    match t with
    | [] => false
    | b :: rest => searchFrom ignoreCase false p (position + 1) (some b) rest

/-- Whether a written pattern matches somewhere in a text; a text that is no pattern matches
nowhere. -/
def search (subject pattern : Text) (ignoreCase : Bool := false) : Bool :=
  match parse ignoreCase pattern with
  | some p => searchFrom ignoreCase true p 0 none subject
  | none => false

end Pattern
end EntityMachines
