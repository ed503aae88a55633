import EntityMachines.Value.Reader
import EntityMachines.Value.Equality
import EntityMachines.Proofs.Value.StrictForm
import EntityMachines.Proofs.Numeral.Token

/-!
Printing and reading are inverse. Texts in quotes read back as they were, whatever bytes they hold.
A reader takes from the front of a text exactly what was written for a plain value, if a separator
or a closing bracket follows, and what it takes equals that value.
-/
namespace EntityMachines

theorem Byte.hexDigit?_ofHexDigit : ∀ n < 16, Byte.hexDigit? (Byte.ofHexDigit n) = some n := by
  decide

namespace Reader

variable (fuel : Nat) (acc rest : Text)

theorem readQuoted_plain {b : Byte} (hquote : b ≠ 34) (hslash : b ≠ 92) :
    readQuoted (fuel + 1) acc (b :: rest) = readQuoted fuel (b :: acc) rest := by
  have hquote' : (b == ('"' : Byte)) = false := beq_eq_false_iff_ne.mpr hquote
  have hslash' : (b != ('\\' : Byte)) = true := bne_iff_ne.mpr hslash
  rw [readQuoted.eq_def]
  simp only [hquote', hslash', Bool.false_eq_true, if_false, if_true]

theorem readQuoted_close : readQuoted (fuel + 1) acc (34 :: rest) = .ok (acc.reverse, rest) := rfl

/-- Of control bytes, those without a letter of their own are escaped by their number. -/
theorem readQuoted_control {b : Byte} (h : b < 32) :
    readQuoted (fuel + 1) acc (92 :: 117 :: 48 :: 48 :: Byte.ofHexDigit (b.toNat / 16)
      :: Byte.ofHexDigit (b.toNat % 16) :: rest) = readQuoted fuel (b :: acc) rest := by
  have hb : b.toNat < 32 := UInt8.lt_iff_toNat_lt.mp h
  have hunit : codeUnit? 48 48 (Byte.ofHexDigit (b.toNat / 16)) (Byte.ofHexDigit (b.toNat % 16))
      = some b.toNat := by
    have hzero : Byte.hexDigit? 48 = some 0 := by decide
    have hhigh := Byte.hexDigit?_ofHexDigit (b.toNat / 16) (by omega)
    have hlow := Byte.hexDigit?_ofHexDigit (b.toNat % 16) (by omega)

    simp [codeUnit?, hzero, hhigh, hlow]
    omega
  have hshort : shortEscape? 117 = none := by decide
  have hsurrogate : isHighSurrogate b.toNat = false := by
    simp [isHighSurrogate]
    omega
  have hbyte : utf8 b.toNat = [b] := by
    unfold utf8
    rw [if_pos (by omega), UInt8.ofNat_toNat]
  rw [readQuoted]
  simp only [hshort, readCodeUnit, hunit, hsurrogate, hbyte]
  rfl

/-- A byte is read from its escaped form in one step. -/
theorem readQuoted_escapeByte (b : Byte) :
    readQuoted (fuel + 1) acc (Value.escapeByte b ++ rest) = readQuoted fuel (b :: acc) rest := by
  by_cases hslash : b = 92
  · subst hslash
    rfl
  by_cases hquote : b = 34
  · subst hquote
    rfl
  by_cases hletter : b ∈ ([10, 9, 13, 8, 12] : List Byte)
  · simp only [List.mem_cons, List.not_mem_nil, or_false] at hletter
    rcases hletter with rfl | rfl | rfl | rfl | rfl <;> rfl
  simp only [List.mem_cons, List.not_mem_nil, or_false, not_or] at hletter
  obtain ⟨hline, htab, hreturn, hback, hfeed⟩ := hletter
  unfold Value.escapeByte
  simp only [beq_iff_eq, hslash, hquote, hline, htab, hreturn, hback, hfeed, if_false]
  split
  next hcontrol => exact readQuoted_control fuel acc rest hcontrol
  next => exact readQuoted_plain fuel acc rest hquote hslash

/-- One step for each byte, and one for the closing quote. -/
theorem readQuoted_escaped (s : Text) {fuel : Nat} (h : s.length < fuel) :
    readQuoted fuel acc (s.flatMap Value.escapeByte ++ 34 :: rest)
      = .ok (acc.reverse ++ s, rest) := by
  induction s generalizing fuel acc with
  | nil =>
    obtain ⟨fuel, rfl⟩ : ∃ n, fuel = n + 1 := ⟨fuel - 1, by simp at h; omega⟩
    rw [List.flatMap_nil, List.nil_append, readQuoted_close, List.append_nil]
  | cons b s ih =>
    obtain ⟨fuel, rfl⟩ : ∃ n, fuel = n + 1 := ⟨fuel - 1, by omega⟩
    have hs : s.length < fuel := by simpa using h
    rw [List.flatMap_cons, List.append_assoc, readQuoted_escapeByte, ih _ hs, List.reverse_cons,
      List.append_assoc]
    rfl

theorem length_le_escaped (s : Text) : s.length ≤ (s.flatMap Value.escapeByte).length := by
  have hpos (b : Byte) : 1 ≤ (Value.escapeByte b).length := by
    unfold Value.escapeByte
    repeat' split
    all_goals simp
  induction s with
  | nil => simp
  | cons b s ih =>
    have hb := hpos b
    rw [List.flatMap_cons, List.length_append, List.length_cons]
    omega

/-- What stands behind an opening quote is read up to the closing one. -/
theorem readQuoted_quoted (s : Text) :
    let behind := s.flatMap Value.escapeByte ++ 34 :: rest
    readQuoted behind.length [] behind = .ok (s, rest) := by
  have hlength := length_le_escaped s
  refine readQuoted_escaped [] rest s ?_
  rw [List.length_append, List.length_cons]
  omega

end Reader

/-! Plain values. -/

theorem Table.insert_of_after {α : Type} {t : Table α} {key : Text} (x : α)
    (h : ∀ entry ∈ t, Text.before entry.1 key = true) : t.insert key x = t ++ [(key, x)] := by
  induction t with
  | nil => rfl
  | cons entry rest ih =>
    obtain ⟨k, v⟩ := entry
    have hlt : compare k key = .lt := beq_iff_eq.mp (h (k, v) List.mem_cons_self)
    have hne : (k == key) = false := by
      refine beq_eq_false_iff_ne.mpr fun heq => ?_
      have hself : compare key key = .eq := Std.ReflOrd.compare_self
      rw [heq, hself] at hlt
      cases hlt
    have hafter : Text.before key k = false := by
      unfold Text.before
      rw [Std.OrientedOrd.eq_swap, hlt]
      rfl
    rw [insert, hne, hafter, ih fun entry hentry => h entry (List.mem_cons_of_mem _ hentry)]
    rfl

namespace Reader

open Value (strict write writeItems writeEntries quoted Plain Tabular)

/-- Neither a blank nor the beginning of a comment. -/
abbrev IsVisible (b : Byte) : Prop := b.isSpace = false ∧ b ≠ 59

/-- What may follow a value inside another one, or nothing. -/
def Closed (rest : Text) : Prop := ∀ b ∈ rest.head?, b = 44 ∨ b = 93 ∨ b = 125

theorem closed_nil : Closed [] := by
  intro b hb
  cases hb

theorem closed_cons {b : Byte} {rest : Text} (h : b = 44 ∨ b = 93 ∨ b = 125) :
    Closed (b :: rest) := by
  intro c hc
  cases hc
  exact h

theorem Closed.head_eq_false {rest : Text} (h : Closed rest) {p : Byte → Bool}
    (hcomma : p 44 = false) (hbracket : p 93 = false) (hbrace : p 125 = false) :
    ∀ b ∈ rest.head?, p b = false := by
  intro b hb
  rcases h b hb with rfl | rfl | rfl
  · exact hcomma
  · exact hbracket
  · exact hbrace

theorem skipBlank_visible {b : Byte} {t : Text} (h : IsVisible b) :
    skipBlank false (b :: t) = b :: t := by
  have hcomment : (b == (';' : Byte)) = false := beq_eq_false_iff_ne.mpr h.2
  rw [skipBlank, h.1, hcomment]
  rfl

section steps

variable {fuel : Nat} {rest : Text}

/-- A word ends where a byte follows that is not a letter. -/
theorem readWord_word {word : Text} {v : Value} (hword : ∀ b ∈ word, b.isAlpha = true)
    (hrest : Closed rest) (hv : readWord word = .ok (v, [])) :
    readWord (word ++ rest) = .ok (v, rest) := by
  obtain ⟨htake, hdrop⟩ := span_append hword (hrest.head_eq_false rfl rfl rfl)
  have halone := span_append hword fun b (hb : b ∈ ([] : Text).head?) => nomatch hb
  rw [List.append_nil] at halone
  obtain ⟨hwhole, hnothing⟩ := halone
  unfold readWord at hv ⊢
  simp only [hwhole, hnothing] at hv
  simp only [htake, hdrop]
  split at hv
  next htrue => cases hv; rw [if_pos htrue]
  next htrue =>
    rw [if_neg htrue]
    split at hv
    next hfalse => cases hv; rw [if_pos hfalse]
    next hfalse =>
      rw [if_neg hfalse]
      split at hv
      next hnull => cases hv; rw [if_pos hnull]
      next => split at hv <;> cases hv

theorem quoted_append (s : Text) :
    quoted s ++ rest = 34 :: (s.flatMap Value.escapeByte ++ 34 :: rest) := by
  simp [quoted]

theorem readValue_array_nil : readValue (fuel + 1) (91 :: 93 :: rest) = .ok (.array [], rest) := rfl

theorem readValue_map_nil : readValue (fuel + 1) (123 :: 125 :: rest) = .ok (.map [], rest) := rfl

theorem readValue_array {b : Byte} (hvisible : IsVisible b) (hopen : b ≠ 93) :
    readValue (fuel + 1) (91 :: b :: rest) = readItems fuel [] (b :: rest) := by
  have hskip : skipBlank false (b :: rest) = b :: rest := skipBlank_visible hvisible
  have hopen' : (b == (']' : Byte)) = false := beq_eq_false_iff_ne.mpr hopen
  rw [readValue.eq_def]
  have h91 : skipBlank false (91 :: b :: rest) = 91 :: b :: rest := rfl
  simp only [h91, hskip, hopen']
  rfl

theorem readValue_map :
    readValue (fuel + 1) (123 :: 34 :: rest) = readEntries fuel [] (34 :: rest) := rfl

theorem readValue_string (s : Text) :
    readValue (fuel + 1) (quoted s ++ rest) = .ok (.string s, rest) := by
  have hskip (t : Text) : skipBlank false (34 :: t) = 34 :: t := rfl
  have hquoted := readQuoted_quoted rest s
  rw [quoted_append, readValue.eq_def]
  simp only [hskip]
  change Except.map _ (readQuoted _ [] _) = _
  rw [hquoted]
  rfl

theorem readKey_quoted (key : Text) : readKey (quoted key ++ 58 :: rest) = .ok (key, rest) := by
  have hskip (t : Text) : skipBlank false (34 :: t) = 34 :: t := rfl
  have hquoted := readQuoted_quoted (58 :: rest) key
  rw [quoted_append, readKey.eq_def]
  simp only [hskip]
  simp only at hquoted
  rw [hquoted]
  rfl

/-- A byte that begins no array, object or text and ends none. -/
abbrev BeginsScalar (b : Byte) : Prop :=
  IsVisible b ∧ b ≠ 91 ∧ b ≠ 123 ∧ b ≠ 34 ∧ b ≠ 93 ∧ b ≠ 125

theorem forall_byte {p : Byte → Prop} (h : ∀ n < 256, p (UInt8.ofNat n)) (b : Byte) : p b := by
  have hb := h b.toNat b.toNat_lt
  rwa [UInt8.ofNat_toNat] at hb

theorem beginsScalar_of_number :
    ∀ b : Byte, (b == 45 || b.isDigit) = true → BeginsScalar b :=
  forall_byte (by decide +kernel)

theorem beginsScalar_of_letter :
    ∀ b : Byte, b.isAlpha = true → BeginsScalar b ∧ (b == 45 || b.isDigit) = false :=
  forall_byte (by decide +kernel)

theorem readValue_scalar {b : Byte} (h : BeginsScalar b) :
    readValue (fuel + 1) (b :: rest) =
      if b == 45 || b.isDigit then readNumber (b :: rest) else readWord (b :: rest) := by
  obtain ⟨hvisible, hopen, hbrace, hquote, hclose, hbrace'⟩ := h
  have hopen' : (b == ('[' : Byte)) = false := beq_eq_false_iff_ne.mpr hopen
  have hquote' : (b == ('"' : Byte)) = false := beq_eq_false_iff_ne.mpr hquote
  have hclose' : (b == (']' : Byte)) = false := beq_eq_false_iff_ne.mpr hclose
  have hstray : (b == 125) = false := beq_eq_false_iff_ne.mpr hbrace'
  rw [readValue.eq_def]
  simp only [skipBlank_visible hvisible, hopen', beq_eq_false_iff_ne.mpr hbrace, hquote', hclose',
    hstray]
  rfl

theorem readValue_number {token : Text} {y : Float} (h : Numeral.IsToken token)
    (hrest : Closed rest) (hy : Numeral.ofToken? token = some y) :
    readValue (fuel + 1) (token ++ rest) = .ok (.number y, rest) := by
  have hnumber := readNumber_token h (hrest.head_eq_false rfl rfl rfl) hy
  obtain ⟨b, tail, rfl, hb⟩ := h.begins
  have hbegins : (b == 45 || b.isDigit) = true := by
    rcases hb with rfl | hdigit
    · rfl
    · rw [hdigit, Bool.or_true]
  rw [List.cons_append, readValue_scalar (beginsScalar_of_number b hbegins), if_pos hbegins]
  exact hnumber

theorem readItems_last {acc : List Value} {t : Text} {item : Value}
    (h : readValue fuel t = .ok (item, 93 :: rest)) :
    readItems (fuel + 1) acc t = .ok (.array (acc.reverse ++ [item]), rest) := by
  rw [readItems.eq_def]
  simp only [h]
  rw [← List.reverse_cons]
  rfl

theorem readItems_next {acc : List Value} {t : Text} {item : Value}
    (h : readValue fuel t = .ok (item, 44 :: rest)) :
    readItems (fuel + 1) acc t = readItems fuel (item :: acc) rest := by
  rw [readItems.eq_def]
  simp only [h]
  rfl

theorem readEntries_last {acc : Table Value} {key t : Text} {item : Value}
    (h : readValue fuel t = .ok (item, 125 :: rest)) :
    readEntries (fuel + 1) acc (quoted key ++ 58 :: t)
      = .ok (.map (acc.insert key item), rest) := by
  rw [readEntries.eq_def]
  simp only [readKey_quoted, h]
  rfl

theorem readEntries_next {acc : Table Value} {key t : Text} {item : Value}
    (h : readValue fuel t = .ok (item, 44 :: rest)) :
    readEntries (fuel + 1) acc (quoted key ++ 58 :: t)
      = readEntries fuel (acc.insert key item) rest := by
  rw [readEntries.eq_def]
  simp only [readKey_quoted, h]
  rfl

end steps

/-- What is written for a value is taken from the front of a text as a value equal to it. -/
def Rereads (v : Value) : Prop :=
  ∀ fuel rest, 2 * (write strict v).length ≤ fuel → Closed rest →
    ∃ u, readValue fuel (write strict v ++ rest) = .ok (u, rest) ∧ u.equal v = true

/-- The numbers in a value are read back from their written forms. -/
def Legible (v : Value) : Prop :=
  ∀ x, Value.number x ∈ v.parts → x.isFinite = true → Numeral.ReadsBack x

theorem write_begins {v : Value} (h : Plain v) :
    ∃ b t, write strict v = b :: t ∧ IsVisible b ∧ b ≠ 93 := by
  cases h with
  | null => exact ⟨110, _, rfl, by decide, by decide⟩
  | bool b =>
    cases b with
    | true => exact ⟨116, _, rfl, by decide, by decide⟩
    | false => exact ⟨102, _, rfl, by decide, by decide⟩
  | @number x hfinite =>
    obtain ⟨b, t, htoken, hb⟩ := (Numeral.write_isToken hfinite).begins
    have hscalar : BeginsScalar b := beginsScalar_of_number b (by
      rcases hb with rfl | hdigit
      · rfl
      · rw [hdigit, Bool.or_true])
    refine ⟨b, t, ?_, hscalar.1, hscalar.2.2.2.2.1⟩
    rw [write, if_pos hfinite, htoken]
  | string s => exact ⟨34, _, rfl, by decide, by decide⟩
  | array => exact ⟨91, _, rfl, by decide, by decide⟩
  | map => exact ⟨123, _, rfl, by decide, by decide⟩

theorem writeItems_first {form : Value.Form} (item : Value) (items : List Value) :
    writeItems form true (item :: items) = write form item ++ writeItems form false items :=
  rfl

theorem writeItems_next {form : Value.Form} (item : Value) (items : List Value) :
    writeItems form false (item :: items) = 44 :: writeItems form true (item :: items) :=
  rfl

theorem writeEntries_first {entry : Text × Value} (h : Plain entry.2)
    (entries : List (Text × Value)) :
    writeEntries strict true (entry :: entries) =
      quoted entry.1 ++ 58 :: (write strict entry.2 ++ writeEntries strict false entries) := by
  rw [writeEntries, if_pos (Value.strict_shows h.kind_ne_undefined), if_pos rfl, List.nil_append,
    List.append_assoc, List.cons_append]

theorem writeEntries_next {entry : Text × Value} (h : Plain entry.2)
    (entries : List (Text × Value)) :
    writeEntries strict false (entry :: entries)
      = 44 :: writeEntries strict true (entry :: entries) := by
  rw [writeEntries_first h, writeEntries, if_pos (Value.strict_shows h.kind_ne_undefined)]
  simp

/-- One step takes an item with what separates it from the next. -/
theorem readItems_written {item : Value} {items : List Value}
    (h : ∀ i ∈ item :: items, Rereads i) {fuel : Nat} {acc : List Value} (rest : Text)
    (hfuel : 2 * (writeItems strict true (item :: items)).length < fuel) :
    ∃ us, readItems fuel acc (writeItems strict true (item :: items) ++ 93 :: rest)
        = .ok (.array (acc.reverse ++ us), rest)
      ∧ Value.equalItems us (item :: items) = true := by
  induction items generalizing item fuel acc with
  | nil =>
    obtain ⟨fuel, rfl⟩ : ∃ n, fuel = n + 1 := ⟨fuel - 1, by omega⟩
    have htext : writeItems strict true [item] = write strict item := List.append_nil _
    rw [htext] at hfuel ⊢
    obtain ⟨u, hread, hequal⟩ :=
      h item List.mem_cons_self fuel (93 :: rest) (by omega) (closed_cons (.inr (.inl rfl)))
    refine ⟨[u], readItems_last hread, ?_⟩
    rw [Value.equalItems, hequal]
    rfl
  | cons next more ih =>
    obtain ⟨fuel, rfl⟩ : ∃ n, fuel = n + 1 := ⟨fuel - 1, by omega⟩
    rw [writeItems_first, writeItems_next, List.append_assoc, List.cons_append]
    rw [writeItems_first, writeItems_next, List.length_append, List.length_cons] at hfuel
    obtain ⟨u, hread, hequal⟩ :=
      h item List.mem_cons_self fuel (44 :: (writeItems strict true (next :: more) ++ 93 :: rest))
        (by omega) (closed_cons (.inl rfl))
    obtain ⟨us, hrest, hequals⟩ :=
      @ih next (fun i hi => h i (List.mem_cons_of_mem _ hi)) fuel (u :: acc) (by omega)
    refine ⟨u :: us, ?_, ?_⟩
    · rw [readItems_next hread, hrest, List.reverse_cons, List.append_assoc]
      rfl
    · rw [Value.equalItems, hequal, hequals]
      rfl

/-- One step takes a member; its key comes after all keys so far, so that it is put at the end. -/
theorem readEntries_written {entry : Text × Value} {entries : List (Text × Value)}
    (h : ∀ e ∈ entry :: entries, Plain e.2 ∧ Rereads e.2)
    (hordered : Table.Ordered (entry :: entries)) {fuel : Nat} {acc : Table Value}
    (hafter : ∀ a ∈ acc, ∀ e ∈ entry :: entries, Text.before a.1 e.1 = true) (rest : Text)
    (hfuel : 2 * (writeEntries strict true (entry :: entries)).length < fuel) :
    ∃ us, readEntries fuel acc (writeEntries strict true (entry :: entries) ++ 125 :: rest)
        = .ok (.map (acc ++ us), rest)
      ∧ Value.equalEntries us (entry :: entries) = true := by
  obtain ⟨hplain, hrereads⟩ := h entry List.mem_cons_self
  have hlast : ∀ a ∈ acc, Text.before a.1 entry.1 = true := fun a ha =>
    hafter a ha entry List.mem_cons_self
  obtain ⟨fuel, rfl⟩ : ∃ n, fuel = n + 1 := ⟨fuel - 1, by omega⟩
  induction entries generalizing entry fuel acc with
  | nil =>
    have htext : writeEntries strict true [entry]
        = quoted entry.1 ++ 58 :: write strict entry.2 := by
      rw [writeEntries_first hplain, writeEntries, List.append_nil]
    rw [htext] at hfuel ⊢
    rw [List.length_append, List.length_cons] at hfuel
    rw [List.append_assoc, List.cons_append]
    obtain ⟨u, hread, hequal⟩ :=
      hrereads fuel (125 :: rest) (by omega) (closed_cons (.inr (.inr rfl)))
    refine ⟨[(entry.1, u)], ?_, ?_⟩
    · rw [readEntries_last hread, Table.insert_of_after u hlast]
    · rw [Value.equalEntries, hequal, beq_self_eq_true]
      rfl
  | cons next more ih =>
    have hmore : ∀ e ∈ next :: more, Plain e.2 ∧ Rereads e.2 := fun e he =>
      h e (List.mem_cons_of_mem _ he)
    obtain ⟨hnext, hnextRereads⟩ := hmore next List.mem_cons_self
    rw [writeEntries_first hplain, writeEntries_next hnext, List.append_assoc, List.cons_append,
      List.append_assoc, List.cons_append]
    rw [writeEntries_first hplain, writeEntries_next hnext, List.length_append, List.length_cons,
      List.length_append, List.length_cons] at hfuel
    obtain ⟨u, hread, hequal⟩ :=
      hrereads fuel (44 :: (writeEntries strict true (next :: more) ++ 125 :: rest)) (by omega)
        (closed_cons (.inl rfl))
    obtain ⟨hbefore, hmoreOrdered⟩ := List.pairwise_cons.mp hordered
    have hafter' : ∀ a ∈ acc ++ [(entry.1, u)], ∀ e ∈ next :: more,
        Text.before a.1 e.1 = true := by
      intro a ha e he
      rcases List.mem_append.mp ha with ha | ha
      · exact hafter a ha e (List.mem_cons_of_mem _ he)
      · rw [List.mem_singleton.mp ha]
        exact hbefore e he
    obtain ⟨fuel, rfl⟩ : ∃ n, fuel = n + 1 := ⟨fuel - 1, by omega⟩
    obtain ⟨us, hrest, hequals⟩ :=
      ih hmore hmoreOrdered hafter' hnext hnextRereads
        (fun a ha => hafter' a ha next List.mem_cons_self) fuel (by omega)
    refine ⟨(entry.1, u) :: us, ?_, ?_⟩
    · rw [readEntries_next hread, Table.insert_of_after u hlast, hrest, List.append_assoc]
      rfl
    · rw [Value.equalEntries, hequal, hequals, beq_self_eq_true]
      rfl

theorem Legible.item {items : List Value} (h : Legible (.array items)) {item : Value}
    (hitem : item ∈ items) : Legible item :=
  fun x hx => h x (Value.mem_parts_of_item hitem hx)

theorem Legible.member {entries : List (Text × Value)} (h : Legible (.map entries))
    {entry : Text × Value} (hentry : entry ∈ entries) : Legible entry.2 :=
  fun x hx => h x (Value.mem_parts_of_member hentry hx)

theorem Legible.strictForm {v : Value} (h : Legible v) : Legible v.strictForm := by
  intro x hx
  obtain ⟨w, hw, hnumber⟩ := Value.mem_parts_strictForm v hx
  cases Value.eq_number_of_strictForm hnumber
  exact h x hw

theorem rereads_word (word : Text) {v : Value} (hwrite : write strict v = word)
    (hletters : word.all Byte.isAlpha = true) (hne : word ≠ []) (hv : readWord word = .ok (v, []))
    (hequal : v.equal v = true) : Rereads v := by
  intro fuel rest hfuel hrest
  have hword := List.all_eq_true.mp hletters
  have hread := readWord_word hword hrest hv
  rw [hwrite] at hfuel ⊢
  cases word with
  | nil => exact absurd rfl hne
  | cons b word =>
    obtain ⟨hscalar, hletter⟩ := beginsScalar_of_letter b (hword b List.mem_cons_self)
    rw [List.length_cons] at hfuel
    obtain ⟨fuel, rfl⟩ : ∃ n, fuel = n + 1 := ⟨fuel - 1, by omega⟩
    refine ⟨v, ?_, hequal⟩
    rw [List.cons_append, readValue_scalar hscalar, hletter]
    exact hread

theorem rereads_of_plain {v : Value} (h : Plain v) (htables : Tabular v) (hnumbers : Legible v) :
    Rereads v := by
  induction h with
  | null => exact rereads_word "null" rfl rfl (by decide) rfl rfl
  | bool b =>
    cases b with
    | true => exact rereads_word "true" rfl rfl (by decide) rfl rfl
    | false => exact rereads_word "false" rfl rfl (by decide) rfl rfl
  | @number x hfinite =>
    intro fuel rest hfuel hrest
    have htoken := Numeral.write_isToken hfinite
    obtain ⟨y, hy, hequal⟩ := hnumbers x (List.mem_singleton.mpr rfl) hfinite
    rw [write, if_pos hfinite] at hfuel ⊢
    have hlength : 0 < (Numeral.plain.write x).length := by
      obtain ⟨b, t, ht, -⟩ := htoken.begins
      rw [ht]
      exact Nat.succ_pos _
    obtain ⟨fuel, rfl⟩ : ∃ n, fuel = n + 1 := ⟨fuel - 1, by omega⟩
    exact ⟨.number y, readValue_number htoken hrest hy, hequal⟩
  | string s =>
    intro fuel rest hfuel hrest
    obtain ⟨fuel, rfl⟩ : ∃ n, fuel = n + 1 := ⟨fuel - 1, by simp [write, quoted] at hfuel; omega⟩
    exact ⟨.string s, readValue_string s, beq_self_eq_true s⟩
  | @array items hplain ih =>
    intro fuel rest hfuel hrest
    have hitems : ∀ item ∈ items, Rereads item := fun item hitem =>
      ih item hitem (htables.item hitem) (hnumbers.item hitem)
    rw [write, List.length_cons, List.length_append, List.length_singleton] at hfuel
    obtain ⟨fuel, rfl⟩ : ∃ n, fuel = n + 1 := ⟨fuel - 1, by omega⟩
    rw [write, List.cons_append, List.append_assoc, List.singleton_append]
    cases items with
    | nil => exact ⟨.array [], readValue_array_nil, rfl⟩
    | cons item items =>
      obtain ⟨us, hread, hequal⟩ :=
        @readItems_written item items hitems fuel [] rest (by omega)
      obtain ⟨b, t, hwrite, hvisible, hopen⟩ := write_begins (hplain item List.mem_cons_self)
      refine ⟨.array us, ?_, hequal⟩
      rw [writeItems_first, hwrite] at hread ⊢
      exact (readValue_array hvisible hopen).trans hread
  | @map entries hplain ih =>
    intro fuel rest hfuel hrest
    have hentries : ∀ entry ∈ entries, Plain entry.2 ∧ Rereads entry.2 := fun entry hentry =>
      ⟨hplain entry hentry, ih entry hentry (htables.member hentry) (hnumbers.member hentry)⟩
    rw [write, List.length_cons, List.length_append, List.length_singleton] at hfuel
    obtain ⟨fuel, rfl⟩ : ∃ n, fuel = n + 1 := ⟨fuel - 1, by omega⟩
    rw [write, List.cons_append, List.append_assoc, List.singleton_append]
    cases entries with
    | nil => exact ⟨.map [], readValue_map_nil, rfl⟩
    | cons entry entries =>
      obtain ⟨us, hread, hequal⟩ :=
        @readEntries_written entry entries hentries htables.ordered fuel [] (by simp) rest
          (by omega)
      refine ⟨.map us, ?_, hequal⟩
      rw [writeEntries_first (hplain entry List.mem_cons_self), List.append_assoc, quoted_append]
        at hread ⊢
      exact readValue_map.trans hread

end Reader

namespace Value

/-- A text with nothing but a plain value in it is read as a whole. -/
theorem read_toJson_of_plain {v : Value} (h : Plain v) (htables : Tabular v)
    (hnumbers : Reader.Legible v) : ∃ u, read v.toJson = .ok u ∧ u.equal v = true := by
  have hrereads := Reader.rereads_of_plain h htables hnumbers
  obtain ⟨u, hread, hequal⟩ :=
    hrereads (Reader.fuelFor v.toJson) [] (Nat.le_add_right _ 2) Reader.closed_nil
  refine ⟨u, ?_, hequal⟩
  rw [List.append_nil] at hread
  unfold toJson at hread ⊢
  unfold read Reader.readSingle
  rw [hread]
  rfl

/-- Printing and reading are inverse: what is written in plain JSON reads back as the strict form,
and a plain value reads back from either written form as a value equal to it. -/
theorem read_written (v : Value) (htables : Tabular v) (hnumbers : Reader.Legible v) :
    (∃ u, read v.toJson = .ok u ∧ u.equal v.strictForm = true)
      ∧ (Plain v → v.print = v.toJson ∧ ∃ u, read v.print = .ok u ∧ u.equal v = true) := by
  refine ⟨?_, fun hplain => ⟨print_of_plain hplain, ?_⟩⟩
  · have hstrict :=
      read_toJson_of_plain (strictForm_plain v) htables.strictForm hnumbers.strictForm
    rwa [toJson_strictForm] at hstrict
  · rw [print_of_plain hplain]
    exact read_toJson_of_plain hplain htables hnumbers

/-- A plain value with bytes that have to be escaped, a fraction and a negative number. -/
def ledger : Value :=
  map [("k", array [number 1.5, string [0, 10, 34, 92, 200]]), ("l", number (-3)), ("m", null)]

/-- A value with everything in it that JSON has no word for. -/
def sketch : Value :=
  map [("a", undefined), ("b", array [undefined, closure 3, number (0.0 / 0.0), ledger])]

theorem sketch_tabular : Tabular sketch := by
  intro m hm
  simp only [sketch, ledger, parts, partsOfItems, partsOfEntries, List.cons_append, List.nil_append,
    List.append_nil, List.mem_cons, List.not_mem_nil, or_false, Value.map.injEq, reduceCtorEq,
    false_or] at hm
  unfold Table.Ordered
  rcases hm with rfl | rfl
  · decide
  · decide

theorem sketch_legible : Reader.Legible sketch := by
  intro x hx hfinite
  simp only [sketch, ledger, parts, partsOfItems, partsOfEntries, List.cons_append, List.nil_append,
    List.append_nil, List.mem_cons, List.not_mem_nil, or_false, Value.number.injEq, reduceCtorEq,
    false_or] at hx
  rcases hx with rfl | rfl | rfl
  · exact absurd hfinite (by decide)
  · exact ⟨1.5, by decide +kernel⟩
  · exact ⟨-3, by decide +kernel⟩

theorem ledger_mem_sketch : ∀ u ∈ ledger.parts, u ∈ sketch.parts := by
  intro u hu
  have hitem : u ∈ (array [undefined, closure 3, number (0.0 / 0.0), ledger]).parts :=
    mem_parts_of_item (by simp) hu
  exact mem_parts_of_member (List.mem_cons_of_mem _ List.mem_cons_self) hitem

theorem ledger_plain : Plain ledger := by
  refine .map fun entry hentry => ?_
  simp only [List.mem_cons, List.not_mem_nil, or_false] at hentry
  rcases hentry with rfl | rfl | rfl
  · refine .array fun item hitem => ?_
    simp only [List.mem_cons, List.not_mem_nil, or_false] at hitem
    rcases hitem with rfl | rfl
    · exact .number (by decide)
    · exact .string _
  · exact .number (by decide)
  · exact .null

theorem sketch_read_written :
    (∃ u, read sketch.toJson = .ok u ∧ u.equal sketch.strictForm = true)
      ∧ ledger.print = ledger.toJson ∧ ∃ u, read ledger.print = .ok u ∧ u.equal ledger = true := by
  refine ⟨(read_written sketch sketch_tabular sketch_legible).1, ?_⟩
  have htables : Tabular ledger := fun m hm => sketch_tabular m (ledger_mem_sketch _ hm)
  have hnumbers : Reader.Legible ledger := fun x hx => sketch_legible x (ledger_mem_sketch _ hx)
  exact (read_written ledger htables hnumbers).2 ledger_plain

end Value
end EntityMachines
