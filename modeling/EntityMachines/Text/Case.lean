import EntityMachines.Text

/-!
Letter case conventions for names of several words.
-/
namespace EntityMachines
namespace Text

def isWordByte (b : Byte) : Bool := b.isAlnum || b == '_'

def capitalize : Text → Text
  | [] => []
  | b :: rest => b.toUpper :: rest

/-- Capitals at the front of words, small letters behind; a word reaches up to a blank. -/
def titleFrom (inWord : Bool) : Text → Text
  | [] => []
  | b :: rest =>
    if inWord then
      if b.isSpace then b :: titleFrom false rest else b.toLower :: titleFrom true rest
    else if isWordByte b then b.toUpper :: titleFrom true rest
    else b :: titleFrom false rest

def titleCase (t : Text) : Text := titleFrom false t

/-- Capitals where a word begins behind a byte that belongs to none. -/
def capitalizeWords (afterWord : Bool) : Text → Text
  | [] => []
  | b :: rest =>
    (if afterWord then b else b.toUpper) :: capitalizeWords (isWordByte b) rest

def isSeparator (b : Byte) : Bool := b.isSpace || b == '-' || b == '_'

/-- The words put together, each with a capital but for one at the very front. -/
def camelCase (t : Text) : Text :=
  match t with
  | [] => []
  | b :: rest => (b.toLower :: capitalizeWords (isWordByte b) rest).filter fun b => !isSeparator b

/-- A separator between each small letter and a capital behind it. -/
def separateCapitals (sep : Byte) : Text → Text
  | [] => []
  | [b] => [b]
  | a :: b :: rest =>
    if a.isLower && b.isUpper then a :: sep :: separateCapitals sep (b :: rest)
    else a :: separateCapitals sep (b :: rest)

/-- One separator in the place of each run of bytes of a kind. -/
def replaceRuns (sep : Byte) (isKind : Byte → Bool) (inRun : Bool) : Text → Text
  | [] => []
  | b :: rest =>
    if isKind b then
      if inRun then replaceRuns sep isKind true rest else sep :: replaceRuns sep isKind true rest
    else b :: replaceRuns sep isKind false rest

def kebabCase (t : Text) : Text :=
  toLower (replaceRuns 45 (fun b => b.isSpace || b == '_') false (separateCapitals 45 t))

def snakeCase (t : Text) : Text :=
  toLower (replaceRuns 95 (fun b => b.isSpace || b == '-') false (separateCapitals 95 t))

end Text
end EntityMachines
