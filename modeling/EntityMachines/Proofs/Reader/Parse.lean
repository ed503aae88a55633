import EntityMachines.Proofs.Value.RoundTrip

/-!
Readers as they are put together: one after another, by the next byte, with what may stand between
the parts of a list, and the steps of the readers of texts and values out of smaller ones.
-/
namespace EntityMachines
namespace Reader

/-- Takes something from the front of a text. -/
abbrev Parse (α : Type) := Text → Result (α × Text)

namespace Parse

variable {α β : Type}

def done (a : α) : Parse α := fun t => .ok (a, t)

/-- One reader, and on what it leaves the next. -/
def andThen (f : Parse α) (k : α → Parse β) : Parse β := fun t =>
  match f t with
  | .error failure => .error failure
  | .ok (a, rest) => k a rest

theorem andThen_ok {f : Parse α} {k : α → Parse β} {t rest : Text} {a : α}
    (h : f t = .ok (a, rest)) : andThen f k t = k a rest := by
  unfold andThen
  rw [h]

theorem andThen_error {f : Parse α} {k : α → Parse β} {t : Text} {failure : ReadFailure}
    (h : f t = .error failure) : andThen f k t = .error failure := by
  unfold andThen
  rw [h]

/-- A reader succeeds if both of its parts do. -/
theorem andThen_eq_ok {f : Parse α} {k : α → Parse β} {t rest : Text} {b : β}
    (h : andThen f k t = .ok (b, rest)) :
    ∃ a middle, f t = .ok (a, middle) ∧ k a middle = .ok (b, rest) := by
  cases hr : f t with
  | error failure =>
    rw [andThen_error hr] at h
    cases h
  | ok result =>
    obtain ⟨a, middle⟩ := result
    rw [andThen_ok hr] at h
    exact ⟨a, middle, rfl, h⟩

/-- A reader fails in its first part, or in the second on what the first has left. -/
theorem andThen_eq_error {f : Parse α} {k : α → Parse β} {t : Text} {failure : ReadFailure}
    (h : andThen f k t = .error failure) :
    f t = .error failure ∨ ∃ a middle, f t = .ok (a, middle) ∧ k a middle = .error failure := by
  cases hr : f t with
  | error failure' =>
    rw [andThen_error hr] at h
    cases h
    exact .inl rfl
  | ok result =>
    obtain ⟨a, middle⟩ := result
    rw [andThen_ok hr] at h
    exact .inr ⟨a, middle, rfl, h⟩

theorem andThen_congr {f g : Parse α} {k l : α → Parse β} {t : Text} (hf : f t = g t)
    (hk : ∀ {a rest}, g t = .ok (a, rest) → k a rest = l a rest) :
    andThen f k t = andThen g l t := by
  cases hr : g t with
  | error failure => rw [andThen_error (hf.trans hr), andThen_error hr]
  | ok result =>
    obtain ⟨a, rest⟩ := result
    rw [andThen_ok (hf.trans hr), andThen_ok hr, hk hr]

/-- What a reader leaves is the end of the text. -/
def Leaves (f : Parse α) : Prop := ∀ ⦃t a rest⦄, f t = .ok (a, rest) → rest <:+ t

theorem Leaves.andThen {f : Parse α} {k : α → Parse β} (hf : Leaves f) (hk : ∀ a, Leaves (k a)) :
    Leaves (andThen f k) := by
  intro t b rest h
  obtain ⟨a, middle, hfirst, hsecond⟩ := andThen_eq_ok h
  exact (hk a hsecond).trans (hf hfirst)

theorem Leaves.done (a : α) : Leaves (done a) := by
  intro t b rest h
  cases h
  exact List.suffix_rfl

theorem Leaves.failAt (fault : ParseFault) (left : Text → Text) :
    Leaves (fun t => failAt fault (left t) : Parse α) := by
  intro t a rest h
  cases h

end Parse

open Parse

variable {α : Type}

/-- The next byte, whatever it is. -/
def byte (missing : ParseFault) : Parse Byte
  | [] => failAt missing []
  | b :: rest => .ok (b, rest)

/-- The next byte that is neither blank nor in a comment. -/
def visible (missing : ParseFault) : Parse Byte := fun t => byte missing (skipBlank false t)

theorem byte_eq_ok {missing : ParseFault} {t rest : Text} {b : Byte} :
    byte missing t = .ok (b, rest) ↔ t = b :: rest := by
  cases t with
  | nil => exact ⟨nofun, nofun⟩
  | cons c tail =>
    unfold byte
    rw [Except.ok.injEq, Prod.mk.injEq, List.cons.injEq]

theorem byte_eq_error {missing : ParseFault} {t : Text} {failure : ReadFailure}
    (h : byte missing t = .error failure) : t = [] ∧ failure = ⟨missing, 0⟩ := by
  cases t with
  | nil =>
    cases h
    exact ⟨rfl, rfl⟩
  | cons b rest => cases h

theorem visible_eq_ok {missing : ParseFault} {t rest : Text} {b : Byte} :
    visible missing t = .ok (b, rest) ↔ skipBlank false t = b :: rest := byte_eq_ok

theorem visible_eq_error {missing : ParseFault} {t : Text} {failure : ReadFailure}
    (h : visible missing t = .error failure) :
    skipBlank false t = [] ∧ failure = ⟨missing, 0⟩ := byte_eq_error h

/-- A byte is passed over, and behind the end of a line no comment goes on then, or it is visible
and stays. -/
theorem skipBlank_cons (inComment : Bool) (b : Byte) :
    (∃ behind, (b = 10 → behind = false) ∧
      ∀ rest, skipBlank inComment (b :: rest) = skipBlank behind rest) ∨
    IsVisible b ∧ ∀ rest, skipBlank inComment (b :: rest) = b :: rest := by
  cases hspace : b.isSpace with
  | true =>
    by_cases hline : b = 10
    · exact .inl ⟨false, fun _ => rfl, fun rest => by subst hline; rfl⟩
    · refine .inl ⟨inComment, fun heq => absurd heq hline, fun rest => ?_⟩
      rw [skipBlank, if_pos hspace, if_neg fun heq => hline (beq_iff_eq.mp heq)]
  | false =>
    cases inComment with
    | true =>
      refine .inl ⟨true, ?_, fun rest => by rw [skipBlank, hspace]; rfl⟩
      rintro rfl
      cases hspace
    | false =>
      by_cases hcomment : b = 59
      · subst hcomment
        exact .inl ⟨true, fun heq => absurd heq (by decide), fun rest => rfl⟩
      · exact .inr ⟨⟨hspace, hcomment⟩, fun rest => skipBlank_visible ⟨hspace, hcomment⟩⟩

theorem skipBlank_suffix (inComment : Bool) (t : Text) : skipBlank inComment t <:+ t := by
  induction t generalizing inComment with
  | nil => exact List.suffix_rfl
  | cons b rest ih =>
    obtain ⟨behind, -, hskip⟩ | ⟨-, hskip⟩ := skipBlank_cons inComment b
    · rw [hskip]
      exact (ih behind).trans (List.suffix_cons b rest)
    · exact (hskip rest).symm ▸ List.suffix_rfl

theorem byte_leaves (missing : ParseFault) : Leaves (byte missing) := by
  intro t b rest h
  rw [byte_eq_ok.mp h]
  exact List.suffix_cons b rest

theorem visible_leaves (missing : ParseFault) : Leaves (visible missing) := by
  intro t b rest h
  exact (byte_leaves missing h).trans (skipBlank_suffix false t)

/-- The byte itself is gone. -/
theorem length_of_skipBlank {t rest : Text} {b : Byte} (h : skipBlank false t = b :: rest) :
    rest.length < t.length := by
  have hlength := (skipBlank_suffix false t).length_le
  rw [h, List.length_cons] at hlength
  omega

theorem length_of_visible {missing : ParseFault} {t rest : Text} {b : Byte}
    (h : visible missing t = .ok (b, rest)) : rest.length < t.length :=
  length_of_skipBlank (visible_eq_ok.mp h)

/-- One visible byte in particular, and what comes after it. -/
def expect (wanted : Byte) (missing wrong : ParseFault) (after : Parse α) : Parse α :=
  andThen (visible missing) fun b =>
    if b = wanted then after else fun rest => failAt wrong (b :: rest)

/-- The end of a list, or a comma and more of it. -/
def separated (close : Byte) (v : Value) (missing wrong : ParseFault) (more : Parse Value) :
    Parse Value :=
  andThen (visible missing) fun b =>
    if b = close then done v
    else if b = 44 then more
    else fun rest => failAt wrong (b :: rest)

/-- The end of a list that has only begun, or its first part. -/
def closedOr (close : Byte) (v : Value) (first : Parse Value) : Parse Value := fun t =>
  match skipBlank false t with
  | [] => first []
  | b :: rest => if b = close then .ok (v, rest) else first (b :: rest)

section leaves

variable {close : Byte} {v : Value} {missing wrong : ParseFault} {more : Parse Value}

theorem expect_leaves {wanted : Byte} {after : Parse α} (h : Leaves after) :
    Leaves (expect wanted missing wrong after) := by
  refine (visible_leaves missing).andThen fun b => ?_
  split
  · exact h
  · exact Leaves.failAt wrong (b :: ·)

theorem separated_leaves (h : Leaves more) : Leaves (separated close v missing wrong more) := by
  refine (visible_leaves missing).andThen fun b => ?_
  split
  · exact Leaves.done v
  split
  · exact h
  · exact Leaves.failAt wrong (b :: ·)

theorem closedOr_leaves (h : Leaves more) : Leaves (closedOr close v more) := by
  intro t a rest hr
  have hblank := skipBlank_suffix false t
  unfold closedOr at hr
  cases hskip : skipBlank false t with
  | nil =>
    rw [hskip] at hr hblank
    exact (h hr).trans hblank
  | cons b tail =>
    rw [hskip] at hr hblank
    dsimp only at hr
    split at hr
    · cases hr
      exact (List.suffix_cons b rest).trans hblank
    · exact (h hr).trans hblank

end leaves

end Reader

/-! Each step is over whatever reads on after it. -/

namespace Reader

open Parse

def codeUnit : Parse Nat := fun t => (readCodeUnit t).map fun unit => (unit, t.drop 4)

/-- What follows an escaped code unit, of which the other half may come next. -/
def unitEnd (more : Text → Parse Text) (acc : Text) (unit : Nat) : Parse Text := fun t =>
  if isHighSurrogate unit && Text.startsWith t [92, 117] then
    andThen codeUnit (fun next => more ((utf8Pair unit next).reverse ++ acc)) (t.drop 2)
  else more ((utf8 unit).reverse ++ acc) t

/-- What follows a backslash and a letter. -/
def escaped (more : Text → Parse Text) (acc : Text) (letter : Byte) : Parse Text :=
  match shortEscape? letter with
  | some b => more (b :: acc)
  | none => if letter = 117 then andThen codeUnit (unitEnd more acc) else failAt .unknownEscape

def quotedStep (more : Text → Parse Text) (acc : Text) : Parse Text :=
  andThen (byte .unterminatedString) fun b =>
    if b = 34 then done acc.reverse
    else if b = 92 then andThen (byte .unterminatedEscape) (escaped more acc)
    else more (b :: acc)

/-- The rest of a quoted text, after what has been read of it. -/
def quotedText (acc : Text) : Parse Text := fun t => readQuoted t.length acc t

/-- A value by its first byte. -/
def valueFrom (items entries : Parse Value) (b : Byte) : Parse Value :=
  if b = 91 then closedOr 93 (.array []) items
  else if b = 123 then closedOr 125 (.map []) entries
  else if b = 34 then andThen (quotedText []) fun s => done (.string s)
  else if b = 93 ∨ b = 125 then fun rest => failAt (.strayBracket b) (b :: rest)
  else if b = 45 ∨ b.isDigit = true then fun rest => readNumber (b :: rest)
  else fun rest => readWord (b :: rest)

def valueStep (items entries : Parse Value) : Parse Value :=
  andThen (visible .endOfInput) (valueFrom items entries)

def itemsStep (value : Parse Value) (more : List Value → Parse Value) (acc : List Value) :
    Parse Value :=
  andThen value fun item =>
    separated 93 (.array (item :: acc).reverse) .unterminatedArray .arraySeparator
      (more (item :: acc))

def entriesStep (value : Parse Value) (more : Table Value → Parse Value) (acc : Table Value) :
    Parse Value :=
  andThen readKey fun key => andThen value fun item =>
    separated 125 (.map (acc.insert key item)) .unterminatedObject .objectSeparator
      (more (acc.insert key item))

section steps

variable (fuel : Nat) (t : Text)

theorem codeUnit_ok {t : Text} {unit : Nat} (h : readCodeUnit t = .ok unit) :
    codeUnit t = .ok (unit, t.drop 4) := by
  unfold codeUnit
  rw [h]
  rfl

theorem codeUnit_error {t : Text} {failure : ReadFailure} (h : readCodeUnit t = .error failure) :
    codeUnit t = .error failure := by
  unfold codeUnit
  rw [h]
  rfl

theorem readQuoted_succ (acc : Text) :
    readQuoted (fuel + 1) acc t = quotedStep (readQuoted fuel) acc t := by
  have hquote : ('"' : Byte) = 34 := rfl
  have hslash : ('\\' : Byte) = 92 := rfl
  have hu : ('u' : Byte) = 117 := rfl
  rw [readQuoted.eq_def]
  unfold quotedStep andThen byte
  cases t with
  | nil => rfl
  | cons b rest =>
    simp only [hquote, hslash, hu, beq_iff_eq, bne_iff_ne, ite_not]
    split
    · rfl
    split
    · cases rest with
      | nil => rfl
      | cons letter rest =>
        simp only [escaped]
        cases shortEscape? letter with
        | some b => rfl
        | none =>
          dsimp only
          split
          · cases hunit : readCodeUnit rest with
            | error failure => rw [andThen_error (codeUnit_error hunit)]
            | ok unit =>
              rw [andThen_ok (codeUnit_ok hunit)]
              unfold unitEnd
              dsimp only
              split
              · cases hnext : readCodeUnit ((rest.drop 4).drop 2) with
                | error failure => rw [andThen_error (codeUnit_error hnext)]
                | ok next =>
                  rw [andThen_ok (codeUnit_ok hnext)]
                  simp only [List.drop_drop]
              · rfl
          · rfl
    · rfl

theorem readKey_eq : readKey = expect 34 .unterminatedObject .objectKey
    (andThen (quotedText []) fun key => expect 58 .unterminatedObject .objectColon (done key)) := by
  have hquote : ('"' : Byte) = 34 := rfl
  have hcolon : (':' : Byte) = 58 := rfl
  funext t
  unfold readKey expect andThen visible byte quotedText
  cases skipBlank false t with
  | nil => rfl
  | cons b rest =>
    simp only [hquote, hcolon, bne_iff_ne, ite_not]
    split
    · dsimp only
      cases readQuoted rest.length [] rest with
      | error failure => rfl
      | ok result =>
        dsimp only
        cases skipBlank false result.2 with
        | nil => rfl
        | cons c rest =>
          dsimp only
          split
          · rfl
          · rfl
    · rfl

theorem readValue_succ :
    readValue (fuel + 1) t = valueStep (readItems fuel []) (readEntries fuel []) t := by
  have hquote : ('"' : Byte) = 34 := rfl
  have hopen : ('[' : Byte) = 91 := rfl
  have hclose : (']' : Byte) = 93 := rfl
  have hminus : ('-' : Byte) = 45 := rfl
  rw [readValue.eq_def]
  unfold valueStep andThen visible byte valueFrom closedOr quotedText
  cases skipBlank false t with
  | nil => rfl
  | cons b rest =>
    simp only [hquote, hopen, hclose, hminus, beq_iff_eq, Bool.or_eq_true]
    split
    · rfl
    split
    · rfl
    split
    · unfold andThen
      dsimp only
      cases readQuoted rest.length [] rest with
      | error failure => rfl
      | ok result => rfl
    split
    · rfl
    split
    · rfl
    · rfl

theorem readItems_succ (acc : List Value) :
    readItems (fuel + 1) acc t = itemsStep (readValue fuel) (readItems fuel) acc t := by
  have hclose : (']' : Byte) = 93 := rfl
  have hcomma : (',' : Byte) = 44 := rfl
  rw [readItems.eq_def]
  unfold itemsStep separated andThen visible byte
  dsimp only
  cases readValue fuel t with
  | error failure => rfl
  | ok result =>
    dsimp only
    cases skipBlank false result.2 with
    | nil => rfl
    | cons b rest =>
      simp only [hclose, hcomma, beq_iff_eq, bne_iff_ne, ite_not]
      split
      · rfl
      split
      · rfl
      · rfl

theorem readEntries_succ (acc : Table Value) :
    readEntries (fuel + 1) acc t = entriesStep (readValue fuel) (readEntries fuel) acc t := by
  have hcomma : (',' : Byte) = 44 := rfl
  rw [readEntries.eq_def]
  unfold entriesStep separated andThen visible byte
  dsimp only
  cases readKey t with
  | error failure => rfl
  | ok result =>
    dsimp only
    cases readValue fuel result.2 with
    | error failure => rfl
    | ok result =>
      dsimp only
      cases skipBlank false result.2 with
      | nil => rfl
      | cons b rest =>
        simp only [hcomma, beq_iff_eq, bne_iff_ne, ite_not]
        split
        · rfl
        split
        · rfl
        · rfl

end steps

end Reader
end EntityMachines
