import EntityMachines.Text

/-!
Texts beside one another: the occurrences of a text in another, found from the front and without
overlap, with splitting at them and replacing them, and the distance between two texts.
-/
namespace EntityMachines
namespace Text

/-- The parts between the occurrences of a delimiter that is not empty. Bytes to skip belong to
an occurrence already found; the part read so far is kept in reverse. -/
def splitFrom (delimiter : Text) (skip : Nat) (part : Text) : Text → List Text
  | [] => [part.reverse]
  | b :: rest =>
    if skip ≠ 0 then splitFrom delimiter (skip - 1) part rest
    else if startsWith (b :: rest) delimiter then
      part.reverse :: splitFrom delimiter (delimiter.length - 1) [] rest
    else splitFrom delimiter 0 (b :: part) rest

/-- The parts between the occurrences of a delimiter; an empty one splits between all bytes. -/
def splitOn (t delimiter : Text) : List Text :=
  if delimiter.isEmpty then t.map ([·]) else splitFrom delimiter 0 [] t

/-- Puts a text in the place of each occurrence of another, which is not empty. -/
def replaceFrom (sought replacement : Text) (skip : Nat) : Text → Text
  | [] => []
  | b :: rest =>
    if skip ≠ 0 then replaceFrom sought replacement (skip - 1) rest
    else if startsWith (b :: rest) sought then
      replacement ++ replaceFrom sought replacement (sought.length - 1) rest
    else b :: replaceFrom sought replacement 0 rest

def replaceAll (t sought replacement : Text) : Text :=
  if sought.isEmpty then t else replaceFrom sought replacement 0 t

def replaceFirst (t sought replacement : Text) : Text :=
  match indexOf? t sought with
  | some i => t.take i ++ replacement ++ t.drop (i + sought.length)
  | none => t

/-!
The edit distance between texts: the least number of insertions, deletions and substitutions of
single bytes that turn one into the other.

The distances from a beginning of the first text to all beginnings of the second form a row.
The row of one more byte follows from the row before it.
-/

/-- The cells of the next row behind its first, for one more byte of the first text. Each is
reached from the cell to its left by an insertion, from the cell above by a deletion, or from
the cell before that one by a match or a substitution. -/
def nextCells (x : Byte) (left diagonal : Nat) : Text → List Nat → List Nat
  | y :: rest, above :: row =>
    let cell := min (min (above + 1) (left + 1)) (diagonal + if x = y then 0 else 1)
    cell :: nextCells x cell above rest row
  | _, _ => []

def nextRow (b : Text) (row : List Nat) (x : Byte) : List Nat :=
  let first := row.headD 0
  (first + 1) :: nextCells x (first + 1) first b (row.drop 1)

/-- The distances from the empty text to all beginnings of a text. -/
def firstRow (b : Text) : List Nat := List.range (b.length + 1)

def distance (a b : Text) : Nat := (a.foldl (nextRow b) (firstRow b)).getLastD 0

end Text
end EntityMachines
