import EntityMachines.Proofs.Reader.Token

/-!
Reading without fuel. Each step asks only about what is left of a text, so that as much fuel as the
text is long is never used up, and the readers satisfy the equations of their steps.
-/
namespace EntityMachines
namespace Reader

open Parse

/-! What the readers leave. -/

/-- The first byte of a run is known to the one who begins it. -/
theorem TakesRun.leaves_tail {p : Byte → Bool} {f : Parse Value} (hf : TakesRun p f) {b : Byte}
    {t rest : Text} {v : Value} (h : f (b :: t) = .ok (v, rest)) :
    p b = true ∧ rest = t.dropWhile p := by
  have hb : p b = true := Decidable.byContradiction fun hb =>
    hf.begins h (List.takeWhile_cons_of_neg hb)
  have hrest := hf.leaves h
  rw [List.dropWhile_cons_of_pos hb] at hrest
  exact ⟨hb, hrest⟩

theorem TakesRun.leaves_suffix {p : Byte → Bool} {f : Parse Value} (hf : TakesRun p f) (b : Byte) :
    Leaves fun t => f (b :: t) := by
  intro t v rest h
  rw [(hf.leaves_tail h).2]
  exact List.dropWhile_suffix p

theorem codeUnit_leaves : Leaves codeUnit := by
  intro t unit rest h
  cases hunit : readCodeUnit t with
  | error failure =>
    rw [codeUnit_error hunit] at h
    cases h
  | ok unit =>
    rw [codeUnit_ok hunit] at h
    cases h
    exact List.drop_suffix 4 t

section quoted

variable {more : Text → Parse Text} (hmore : ∀ acc, Leaves (more acc)) (acc : Text)

include hmore

theorem unitEnd_leaves (unit : Nat) : Leaves (unitEnd more acc unit) := by
  intro t s rest h
  unfold unitEnd at h
  split at h
  · exact (codeUnit_leaves.andThen (fun _ => hmore _) h).trans (List.drop_suffix 2 t)
  · exact hmore _ h

theorem escaped_leaves (letter : Byte) : Leaves (escaped more acc letter) := by
  unfold escaped
  split
  · exact hmore _
  split
  · exact codeUnit_leaves.andThen (unitEnd_leaves hmore acc)
  · exact Leaves.failAt .unknownEscape id

theorem quotedStep_leaves : Leaves (quotedStep more acc) := by
  refine (byte_leaves _).andThen fun b => ?_
  split
  · exact Leaves.done _
  split
  · exact (byte_leaves _).andThen (escaped_leaves hmore acc)
  · exact hmore _

end quoted

theorem readQuoted_leaves (fuel : Nat) (acc : Text) : Leaves (readQuoted fuel acc) := by
  induction fuel generalizing acc with
  | zero => exact Leaves.failAt .unterminatedString id
  | succ fuel ih =>
    intro t s rest h
    rw [readQuoted_succ] at h
    exact quotedStep_leaves ih acc h

theorem quotedText_leaves (acc : Text) : Leaves (quotedText acc) := fun t =>
  @readQuoted_leaves t.length acc t

theorem readKey_leaves : Leaves readKey := by
  rw [readKey_eq]
  exact expect_leaves ((quotedText_leaves []).andThen fun _ => expect_leaves (Leaves.done _))

theorem valueFrom_leaves {items entries : Parse Value} (hitems : Leaves items)
    (hentries : Leaves entries) (b : Byte) : Leaves (valueFrom items entries b) := by
  unfold valueFrom
  split
  · exact closedOr_leaves hitems
  split
  · exact closedOr_leaves hentries
  split
  · exact (quotedText_leaves []).andThen fun _ => Leaves.done _
  split
  · exact Leaves.failAt _ (b :: ·)
  split
  · exact readNumber_takesRun.leaves_suffix b
  · exact readWord_takesRun.leaves_suffix b

/-- By induction on the fuel; each step leaves what its parts do. -/
theorem readers_leave (fuel : Nat) :
    Leaves (readValue fuel) ∧ (∀ acc, Leaves (readItems fuel acc))
      ∧ ∀ acc, Leaves (readEntries fuel acc) := by
  induction fuel with
  | zero =>
    exact ⟨Leaves.failAt .endOfInput id, fun _ => Leaves.failAt .unterminatedArray id,
      fun _ => Leaves.failAt .unterminatedObject id⟩
  | succ fuel ih =>
    obtain ⟨hvalue, hitems, hentries⟩ := ih
    refine ⟨fun t v rest h => ?_, fun acc t v rest h => ?_, fun acc t v rest h => ?_⟩
    · rw [readValue_succ] at h
      exact (visible_leaves _).andThen (valueFrom_leaves (hitems []) (hentries [])) h
    · rw [readItems_succ] at h
      exact hvalue.andThen (fun _ => separated_leaves (hitems _)) h
    · rw [readEntries_succ] at h
      exact readKey_leaves.andThen
        (fun _ => hvalue.andThen fun _ => separated_leaves (hentries _)) h

/-! A step asks about shorter texts only. -/

/-- Two readers agree on all texts that are shorter than a given one. -/
def AgreeBelow {α : Type} (t : Text) (f g : Parse α) : Prop :=
  ∀ t' : Text, t'.length < t.length → f t' = g t'

section congr

variable {α : Type} {t : Text}

theorem AgreeBelow.mono {f g : Parse α} (h : AgreeBelow t f g) {t₁ : Text}
    (hlength : t₁.length ≤ t.length) : AgreeBelow t₁ f g :=
  fun t' ht' => h t' (Nat.lt_of_lt_of_le ht' hlength)

theorem separated_congr {close : Byte} {v : Value} {missing wrong : ParseFault}
    {more more' : Parse Value} (h : AgreeBelow t more more') :
    separated close v missing wrong more t = separated close v missing wrong more' t := by
  refine andThen_congr rfl fun {b rest} hb => ?_
  split
  · rfl
  split
  · exact h rest (length_of_visible hb)
  · rfl

theorem closedOr_congr {close : Byte} {v : Value} {first first' : Parse Value}
    (h : ∀ t' : Text, t'.length ≤ t.length → first t' = first' t') :
    closedOr close v first t = closedOr close v first' t := by
  have hlength := (skipBlank_suffix false t).length_le
  unfold closedOr
  cases hskip : skipBlank false t with
  | nil => exact h [] (Nat.zero_le _)
  | cons b rest =>
    rw [hskip] at hlength
    dsimp only
    split
    · rfl
    · exact h _ hlength

theorem quotedStep_congr {more more' : Text → Parse Text} {acc : Text}
    (h : ∀ acc, AgreeBelow t (more acc) (more' acc)) :
    quotedStep more acc t = quotedStep more' acc t := by
  refine andThen_congr rfl fun {b rest} hb => ?_
  obtain rfl := byte_eq_ok.mp hb
  split
  · rfl
  split
  · refine andThen_congr rfl fun {letter rest'} hletter => ?_
    obtain rfl := byte_eq_ok.mp hletter
    have hrest : ∀ acc, ∀ t' : Text, t'.length ≤ rest'.length → more acc t' = more' acc t' := by
      intro acc t' ht'
      refine h acc t' ?_
      simp only [List.length_cons]
      omega
    unfold escaped
    cases shortEscape? letter with
    | some b => exact hrest _ _ (Nat.le_refl _)
    | none =>
      dsimp only
      split
      · refine andThen_congr rfl fun {unit rest₁} hunit => ?_
        have hrest₁ := (codeUnit_leaves hunit).length_le
        unfold unitEnd
        split
        · refine andThen_congr rfl fun {next rest₂} hnext => ?_
          have hrest₂ := ((codeUnit_leaves hnext).trans (List.drop_suffix 2 rest₁)).length_le
          exact hrest _ _ (Nat.le_trans hrest₂ hrest₁)
        · exact hrest _ _ hrest₁
      · rfl
  · exact h _ rest (by simp)

theorem valueStep_congr {items items' entries entries' : Parse Value}
    (hitems : AgreeBelow t items items') (hentries : AgreeBelow t entries entries') :
    valueStep items entries t = valueStep items' entries' t := by
  refine andThen_congr rfl fun {b rest} hb => ?_
  have hrest := length_of_visible hb
  unfold valueFrom
  split
  · exact closedOr_congr fun t' ht' => hitems t' (Nat.lt_of_le_of_lt ht' hrest)
  split
  · exact closedOr_congr fun t' ht' => hentries t' (Nat.lt_of_le_of_lt ht' hrest)
  · rfl

theorem itemsStep_congr {value value' : Parse Value} {more more' : List Value → Parse Value}
    {acc : List Value} (hleaves : Leaves value') (hvalue : value t = value' t)
    (hmore : ∀ acc, AgreeBelow t (more acc) (more' acc)) :
    itemsStep value more acc t = itemsStep value' more' acc t :=
  andThen_congr hvalue fun hitem => separated_congr ((hmore _).mono (hleaves hitem).length_le)

/-- A key takes its quotes at least. -/
theorem length_of_readKey {key rest : Text} (h : readKey t = .ok (key, rest)) :
    rest.length < t.length := by
  rw [readKey_eq] at h
  obtain ⟨b, middle, hb, hafter⟩ := andThen_eq_ok h
  have hmiddle := length_of_visible hb
  have hrest : rest <:+ middle := by
    split at hafter
    · exact (quotedText_leaves []).andThen (fun _ => expect_leaves (Leaves.done _)) hafter
    · cases hafter
  exact Nat.lt_of_le_of_lt hrest.length_le hmiddle

theorem entriesStep_congr {value value' : Parse Value} {more more' : Table Value → Parse Value}
    {acc : Table Value} (hleaves : Leaves value') (hvalue : AgreeBelow t value value')
    (hmore : ∀ acc, AgreeBelow t (more acc) (more' acc)) :
    entriesStep value more acc t = entriesStep value' more' acc t := by
  refine andThen_congr rfl fun {key rest} hkey => ?_
  have hrest := length_of_readKey hkey
  refine andThen_congr (hvalue rest hrest) fun hitem => separated_congr ((hmore _).mono ?_)
  exact Nat.le_trans (hleaves hitem).length_le (Nat.le_of_lt hrest)

end congr

theorem readQuoted_fuel {fuel : Nat} {t : Text} (acc : Text) (h : t.length ≤ fuel) :
    readQuoted (fuel + 1) acc t = readQuoted fuel acc t := by
  induction fuel generalizing t acc with
  | zero =>
    obtain rfl := List.eq_nil_of_length_eq_zero (Nat.le_zero.mp h)
    rfl
  | succ fuel ih =>
    rw [readQuoted_succ, readQuoted_succ]
    exact quotedStep_congr fun acc t' ht' => ih acc (by omega)

/-- By induction on the fuel, of which an item takes one step more than a value. -/
theorem readers_fuel (fuel : Nat) :
    (∀ t : Text, 2 * t.length + 1 ≤ fuel → readValue (fuel + 1) t = readValue fuel t)
      ∧ (∀ acc, ∀ t : Text, 2 * t.length + 2 ≤ fuel →
        readItems (fuel + 1) acc t = readItems fuel acc t)
      ∧ ∀ acc, ∀ t : Text, 2 * t.length + 2 ≤ fuel →
        readEntries (fuel + 1) acc t = readEntries fuel acc t := by
  induction fuel with
  | zero =>
    refine ⟨fun t h => ?_, fun acc t h => ?_, fun acc t h => ?_⟩
    · omega
    · omega
    · omega
  | succ fuel ih =>
    obtain ⟨hvalue, hitems, hentries⟩ := ih
    have hleaves := (readers_leave fuel).1
    refine ⟨fun t h => ?_, fun acc t h => ?_, fun acc t h => ?_⟩
    · rw [readValue_succ, readValue_succ]
      exact valueStep_congr (fun t' ht' => hitems [] t' (by omega))
        fun t' ht' => hentries [] t' (by omega)
    · rw [readItems_succ, readItems_succ]
      exact itemsStep_congr hleaves (hvalue t (by omega))
        fun acc t' ht' => hitems acc t' (by omega)
    · rw [readEntries_succ, readEntries_succ]
      exact entriesStep_congr hleaves (fun t' ht' => hvalue t' (by omega))
        fun acc t' ht' => hentries acc t' (by omega)

/-- What does not change with one step of fuel more does not change with any. -/
theorem eq_of_fuel {β : Type} {f : Nat → β} {bound : Nat}
    (h : ∀ fuel, bound ≤ fuel → f (fuel + 1) = f fuel) {fuel : Nat} (hfuel : bound ≤ fuel) :
    f fuel = f bound := by
  induction hfuel with
  | refl => rfl
  | step hfuel ih => rw [h _ hfuel, ih]

/-! The readers with fuel enough. -/

def value : Parse Value := fun t => readValue (fuelFor t) t

def items (acc : List Value) : Parse Value := fun t => readItems (fuelFor t) acc t

def entries (acc : Table Value) : Parse Value := fun t => readEntries (fuelFor t) acc t

theorem readQuoted_eq {fuel : Nat} {t : Text} (acc : Text) (h : t.length ≤ fuel) :
    readQuoted fuel acc t = quotedText acc t :=
  eq_of_fuel (f := fun fuel => readQuoted fuel acc t) (fun _ h => readQuoted_fuel acc h) h

theorem readValue_eq {fuel : Nat} {t : Text} (h : 2 * t.length + 1 ≤ fuel) :
    readValue fuel t = value t := by
  have hstable {fuel : Nat} (hfuel : 2 * t.length + 1 ≤ fuel) :
      readValue fuel t = readValue (2 * t.length + 1) t :=
    eq_of_fuel (f := fun fuel => readValue fuel t)
      (fun fuel hfuel => (readers_fuel fuel).1 t hfuel) hfuel
  exact (hstable h).trans (hstable (Nat.le_succ _)).symm

theorem readItems_eq {fuel : Nat} {t : Text} (acc : List Value) (h : 2 * t.length + 2 ≤ fuel) :
    readItems fuel acc t = items acc t :=
  eq_of_fuel (f := fun fuel => readItems fuel acc t)
    (fun fuel hfuel => (readers_fuel fuel).2.1 acc t hfuel) h

theorem readEntries_eq {fuel : Nat} {t : Text} (acc : Table Value)
    (h : 2 * t.length + 2 ≤ fuel) : readEntries fuel acc t = entries acc t :=
  eq_of_fuel (f := fun fuel => readEntries fuel acc t)
    (fun fuel hfuel => (readers_fuel fuel).2.2 acc t hfuel) h

theorem value_leaves : Leaves value := fun t => @(readers_leave (fuelFor t)).1 t

theorem items_leaves (acc : List Value) : Leaves (items acc) := fun t =>
  @(readers_leave (fuelFor t)).2.1 acc t

theorem entries_leaves (acc : Table Value) : Leaves (entries acc) := fun t =>
  @(readers_leave (fuelFor t)).2.2 acc t

theorem quotedText_eq (acc : Text) : quotedText acc = quotedStep quotedText acc := by
  funext t
  rw [← readQuoted_eq acc (Nat.le_succ t.length), readQuoted_succ]
  exact quotedStep_congr fun acc t' ht' => readQuoted_eq acc (Nat.le_of_lt ht')

theorem value_eq : value = valueStep (items []) (entries []) := by
  funext t
  refine (readValue_succ (2 * t.length + 1) t).trans (valueStep_congr (fun t' ht' => ?_) ?_)
  · exact readItems_eq [] (by omega)
  · exact fun t' ht' => readEntries_eq [] (by omega)

theorem items_eq (acc : List Value) : items acc = itemsStep value items acc := by
  funext t
  refine (readItems_succ (2 * t.length + 1) t acc).trans
    (itemsStep_congr value_leaves (readValue_eq (Nat.le_refl _)) fun acc t' ht' => ?_)
  exact readItems_eq acc (by omega)

theorem entries_eq (acc : Table Value) : entries acc = entriesStep value entries acc := by
  funext t
  refine (readEntries_succ (2 * t.length + 1) t acc).trans
    (entriesStep_congr value_leaves (fun t' ht' => readValue_eq (by omega)) fun acc t' ht' => ?_)
  exact readEntries_eq acc (by omega)

/-- A value takes a byte at least. -/
theorem length_of_value {t rest : Text} {v : Value} (h : value t = .ok (v, rest)) :
    rest.length < t.length := by
  rw [value_eq] at h
  obtain ⟨b, middle, hb, hafter⟩ := andThen_eq_ok h
  have hrest := valueFrom_leaves (items_leaves []) (entries_leaves []) b hafter
  exact Nat.lt_of_le_of_lt hrest.length_le (length_of_visible hb)

/-- Induction over what the readers leave: what holds of a value holds of the items and members of
which it is the first, and what holds of these on shorter texts holds of a value. -/
theorem reading_induction {V : Text → Prop} {I : List Value → Text → Prop}
    {E : Table Value → Text → Prop}
    (value : ∀ t, (∀ t' : Text, t'.length < t.length → I [] t' ∧ E [] t') → V t)
    (items : ∀ acc t, V t → (∀ acc', ∀ t' : Text, t'.length < t.length → I acc' t') → I acc t)
    (entries : ∀ acc t, (∀ t' : Text, t'.length < t.length → V t') →
      (∀ acc', ∀ t' : Text, t'.length < t.length → E acc' t') → E acc t) (t : Text) :
    V t ∧ (∀ acc, I acc t) ∧ ∀ acc, E acc t := by
  have ih : ∀ t' : Text, t'.length < t.length → V t' ∧ (∀ acc, I acc t') ∧ ∀ acc, E acc t' :=
    fun t' _ => reading_induction value items entries t'
  have hvalue : V t := value t fun t' ht' => ⟨(ih t' ht').2.1 [], (ih t' ht').2.2 []⟩
  refine ⟨hvalue, fun acc => ?_, fun acc => ?_⟩
  · exact items acc t hvalue fun acc' t' ht' => (ih t' ht').2.1 acc'
  · exact entries acc t (fun t' ht' => (ih t' ht').1) fun acc' t' ht' => (ih t' ht').2.2 acc'
termination_by t.length

end Reader
end EntityMachines
