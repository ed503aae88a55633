import EntityMachines.Pattern

/-!
The written form of patterns. A text that is no pattern has no reading.
-/
namespace EntityMachines
namespace Pattern

/-- The names of single bytes in bracket expressions, from zero up. -/
def symbolNames : List String :=
  ["NUL", "SOH", "STX", "ETX", "EOT", "ENQ", "ACK", "alert", "backspace", "tab", "newline",
    "vertical-tab", "form-feed", "carriage-return", "SO", "SI", "DLE", "DC1", "DC2", "DC3", "DC4",
    "NAK", "SYN", "ETB", "CAN", "EM", "SUB", "ESC", "IS4", "IS3", "IS2", "IS1", "space",
    "exclamation-mark", "quotation-mark", "number-sign", "dollar-sign", "percent-sign",
    "ampersand", "apostrophe", "left-parenthesis", "right-parenthesis", "asterisk", "plus-sign",
    "comma", "hyphen", "period", "slash", "zero", "one", "two", "three", "four", "five", "six",
    "seven", "eight", "nine", "colon", "semicolon", "less-than-sign", "equals-sign",
    "greater-than-sign", "question-mark", "commercial-at", "A", "B", "C", "D", "E", "F", "G", "H",
    "I", "J", "K", "L", "M", "N", "O", "P", "Q", "R", "S", "T", "U", "V", "W", "X", "Y", "Z",
    "left-square-bracket", "backslash", "right-square-bracket", "circumflex", "underscore",
    "grave-accent", "a", "b", "c", "d", "e", "f", "g", "h", "i", "j", "k", "l", "m", "n", "o",
    "p", "q", "r", "s", "t", "u", "v", "w", "x", "y", "z", "left-curly-bracket", "vertical-line",
    "right-curly-bracket", "tilde", "DEL"]

def symbol? (name : Text) : Option Byte :=
  ((symbolNames.map Text.ofString).findIdx? (· = name)).map UInt8.ofNat

/-- What a backslash and the text behind it mean. -/
inductive Escape where
  | byte (b : Byte)
  | inside (c : ByteClass)
  | outside (c : ByteClass)
  | wordBoundary (negated : Bool)
  | back (index : Nat)

/-- The byte that hexadecimal digits stand for; only its lowest eight bits count. -/
def hexEscape (count : Nat) (t : Text) : Option (Escape × Text) := do
  let digits := t.take count
  if digits.length < count then none
  let n ← digits.foldlM (fun n b => return n * 16 + (← Byte.hexDigit? b)) 0
  return (.byte (UInt8.ofNat n), t.drop count)

/-- The escape behind a backslash. A letter without a meaning stands for itself. -/
def escape (inBracket : Bool) (t : Text) : Option (Escape × Text) :=
  match t with
  | [] => none
  | b :: rest =>
    if b == '0' then some (.byte 0, rest)
    else if b == 'b' then
      some (if inBracket then .byte 8 else .wordBoundary false, rest)
    else if b == 'f' then some (.byte 12, rest)
    else if b == 'n' then some (.byte 10, rest)
    else if b == 'r' then some (.byte 13, rest)
    else if b == 't' then some (.byte 9, rest)
    else if b == 'v' then some (.byte 11, rest)
    else if b == 'B' then some (.wordBoundary true, rest)
    else if b == 'd' then some (.inside .digit, rest)
    else if b == 'D' then some (.outside .digit, rest)
    else if b == 's' then some (.inside .space, rest)
    else if b == 'S' then some (.outside .space, rest)
    else if b == 'w' then some (.inside .word, rest)
    else if b == 'W' then some (.outside .word, rest)
    else if b == 'c' then rest.head?.map fun c => (.byte c, rest.drop 1)
    else if b == 'x' then hexEscape 2 rest
    else if b == 'u' then hexEscape 4 rest
    else if b.isDigit then
      let digits := t.takeWhile Byte.isDigit
      some (.back (digits.foldl (fun n d => n * 10 + Byte.digit d) 0), t.dropWhile Byte.isDigit)
    else some (.byte b, rest)

/-- A unit of a bracket expression. -/
inductive BracketToken where
  | byte (b : Byte)
  | dash
  | classes (item : BracketItem)
  | close

/-- The name up to a mark that is followed by a closing bracket. -/
def bracketName (mark : Byte) (t : Text) : Option (Text × Text) :=
  let name := t.takeWhile (· != mark)
  match t.dropWhile (· != mark) with
  | _ :: close :: rest => if close == ']' then some (name, rest) else none
  | _ => none

def bracketToken (ignoreCase : Bool) (t : Text) : Option (BracketToken × Text) :=
  match t with
  | [] => none
  | b :: rest =>
    if b == '-' then some (.dash, rest)
    else if b == ']' then some (.close, rest)
    else if b == '\\' then do
      let (e, rest) ← escape true rest
      match e with
      | .byte b => some (.byte b, rest)
      | .inside c => some (.classes (.inside c), rest)
      | .outside c => some (.classes (.outside c), rest)
      | _ => none
    else if b == '[' then
      match rest with
      | [] => none
      | mark :: tail =>
        if mark == '.' then do
          let (name, rest) ← bracketName mark tail
          return (.byte (← symbol? name), rest)
        else if mark == ':' then do
          let (name, rest) ← bracketName mark tail
          return (.classes (.inside (← ByteClass.ofName? ignoreCase name)), rest)
        else if mark == '=' then do
          let (name, rest) ← bracketName mark tail
          return (.classes (.letter (← symbol? name)), rest)
        else some (.byte b, rest)
    else some (.byte b, rest)

/-- What the last unit of a bracket expression was: a byte that could begin a range, a class,
or the end of a range. -/
inductive Last where
  | byte (b : Byte)
  | classes
  | nothing

def Last.items : Last → List BracketItem
  | byte b => [.byte b]
  | _ => []

/-- The items of a bracket expression up to its closing bracket. -/
def bracketItems (ignoreCase : Bool) (fuel : Nat) (last : Last) (t : Text) :
    Option (List BracketItem × Text) :=
  match fuel with
  | 0 => none
  | fuel + 1 => do
    let (token, rest) ← bracketToken ignoreCase t
    match token with
    | .close => return (last.items, rest)
    | .byte b =>
      let (items, rest) ← bracketItems ignoreCase fuel (.byte b) rest
      return (last.items ++ items, rest)
    | .classes item =>
      let (items, rest) ← bracketItems ignoreCase fuel .classes rest
      return (last.items ++ item :: items, rest)
    | .dash =>
      let (next, behind) ← bracketToken ignoreCase rest
      match next, last with
      | .close, _ => return (last.items ++ [.byte 45], behind)
      | _, .classes => none
      | .byte high, .byte low =>
        if low + 128 ≤ high + 128 then
          let (items, rest) ← bracketItems ignoreCase fuel .nothing behind
          return (.range low high :: items, rest)
        else none
      | .dash, .byte low =>
        if low + 128 ≤ (45 : Byte) + 128 then
          let (items, rest) ← bracketItems ignoreCase fuel .nothing behind
          return (.range low 45 :: items, rest)
        else none
      | _, .byte _ => none
      | _, .nothing => bracketItems ignoreCase fuel (.byte 45) rest

/-- A bracket expression behind its opening bracket. A dash in front stands for itself. -/
def bracketExpression (ignoreCase : Bool) (t : Text) : Option (Pattern × Text) := do
  let negated := t.head? == some (94 : Byte)
  let t := if negated then t.drop 1 else t
  let (last, t) :=
    if t.head? == some (45 : Byte) then (Last.byte 45, t.drop 1) else (Last.nothing, t)
  let (items, rest) ← bracketItems ignoreCase (t.length + 1) last t
  return (.bracket negated items, rest)

/-- The part of the text that is still to be read, the number of groups begun so far, and the
groups around the present place. -/
structure Cursor where
  rest : Text
  groups : Nat
  around : List Nat

/-- The least count and the further count between braces. -/
def braceCounts (t : Text) : Option (Nat × Option Nat × Text) := do
  let number (digits : Text) : Nat := digits.foldl (fun n d => n * 10 + Byte.digit d) 0
  let digits := t.takeWhile Byte.isDigit
  if digits.isEmpty then none
  let least := number digits
  match t.dropWhile Byte.isDigit with
  | [] => none
  | b :: rest =>
    if b == 125 then return (least, some 0, rest)
    else if b != ',' then none
    else
      let digits := rest.takeWhile Byte.isDigit
      match rest.dropWhile Byte.isDigit with
      | [] => none
      | b :: rest =>
        if b != 125 then none
        else if digits.isEmpty then return (least, none, rest)
        else if number digits < least then none
        else return (least, some (number digits - least), rest)

/-- The quantifiers behind a pattern. A question mark behind one takes its greed away. -/
def quantifiers (fuel : Nat) (p : Pattern) (t : Text) : Option (Pattern × Text) :=
  match fuel, t with
  | 0, _ => some (p, t)
  | _, [] => some (p, [])
  | fuel + 1, b :: rest =>
    let behind (rounds : Rounds) (rest : Text) : Option (Pattern × Text) :=
      if rest.head? == some (63 : Byte) then
        quantifiers fuel (.repeated false rounds p) (rest.drop 1)
      else quantifiers fuel (.repeated true rounds p) rest
    if b == '*' then behind .any rest
    else if b == '+' then behind .atLeastOne rest
    else if b == '?' then behind .atMostOne rest
    else if b == 123 then do
      let (least, more, rest) ← braceCounts rest
      behind (.counted least more) rest
    else some (p, t)

mutual

/-- Alternatives between bars, up to a closing parenthesis or the end. -/
def disjunction (ignoreCase : Bool) (fuel : Nat) (c : Cursor) : Option (Pattern × Cursor) :=
  match fuel with
  | 0 => none
  | fuel + 1 => do
    let (p, c) ← alternative ignoreCase fuel c
    match c.rest with
    | b :: rest =>
      if b == '|' then
        let (q, c) ← disjunction ignoreCase fuel { c with rest }
        return (.alt p q, c)
      else return (p, c)
    | [] => return (p, c)

def alternative (ignoreCase : Bool) (fuel : Nat) (c : Cursor) : Option (Pattern × Cursor) :=
  match fuel with
  | 0 => none
  | fuel + 1 =>
    match c.rest with
    | [] => some (.empty, c)
    | b :: _ =>
      if b == '|' || b == ')' then some (.empty, c)
      else do
        let (p, c) ← term ignoreCase fuel c
        let (q, c) ← alternative ignoreCase fuel c
        return (.seq p q, c)

/-- An assertion, or an atom with its quantifiers. -/
def term (ignoreCase : Bool) (fuel : Nat) (c : Cursor) : Option (Pattern × Cursor) :=
  match fuel with
  | 0 => none
  | fuel + 1 =>
    let atom (p : Pattern) (c : Cursor) : Option (Pattern × Cursor) := do
      let (p, rest) ← quantifiers c.rest.length p c.rest
      return (p, { c with rest })
    let enclosed (c : Cursor) : Option (Pattern × Cursor) := do
      let (p, c) ← disjunction ignoreCase fuel c
      match c.rest with
      | b :: rest => if b == ')' then return (p, { c with rest }) else none
      | [] => none
    match c.rest with
    | [] => none
    | b :: rest =>
      if b == '^' then some (.start, { c with rest })
      else if b == '$' then some (.finish, { c with rest })
      else if b == '.' then atom .anyByte { c with rest }
      else if b == '*' || b == '+' || b == '?' || b == 123 then none
      else if b == '[' then do
        let (p, rest) ← bracketExpression ignoreCase rest
        atom p { c with rest }
      else if b == '\\' then do
        let (e, rest) ← escape false rest
        match e with
        | .byte b => atom (.byte b) { c with rest }
        | .inside k => atom (.bracket false [.inside k]) { c with rest }
        | .outside k => atom (.bracket true [.inside k]) { c with rest }
        | .wordBoundary negated => some (.wordBoundary negated, { c with rest })
        | .back i =>
          if i = 0 ∨ c.groups < i ∨ c.around.contains i then none
          else atom (.back i) { c with rest }
      else if b == '(' then
        match rest with
        | mark :: kind :: tail =>
          if mark == '?' then
            if kind == ':' then do
              let (p, c) ← enclosed { c with rest := tail }
              atom (.group none p) c
            else if kind == '=' || kind == '!' then do
              let (p, c) ← enclosed { c with rest := tail }
              return (.ahead (kind == '!') p, c)
            else none
          else do
            let index := c.groups + 1
            let (p, d) ← enclosed ⟨rest, index, index :: c.around⟩
            atom (.group (some index) p) { d with around := c.around }
        | _ =>
          if rest.head? == some (63 : Byte) then none
          else do
            let index := c.groups + 1
            let (p, d) ← enclosed ⟨rest, index, index :: c.around⟩
            atom (.group (some index) p) { d with around := c.around }
      else atom (.byte b) { c with rest }

end

/-- Patterns that get too large when written out are refused. -/
def sizeLimit : Nat := 100000

/-- A pattern is written out as a group of its own, with a mark for its end. -/
def parse (ignoreCase : Bool) (t : Text) : Option Pattern := do
  let (p, c) ← disjunction ignoreCase (3 * t.length + 3) ⟨t, 0, []⟩
  if c.rest.isEmpty && p.size + 3 ≤ sizeLimit then some p else none

end Pattern
end EntityMachines
