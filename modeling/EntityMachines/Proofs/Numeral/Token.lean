import EntityMachines.Value.Reader

/-!
The text of a finite number is one token for a reader: it begins with a digit or a minus sign and
has no byte that could not belong to a number.
-/
namespace EntityMachines

/-- Each decimal digit is a byte of its own. -/
theorem Text.ofNat_eq_map (n : Nat) :
    Text.ofNat n = (Nat.toDigits 10 n).map fun c => UInt8.ofNat c.toNat := by
  unfold Text.ofNat Text.ofString
  rw [Nat.toString_eq_ofList_toDigits, String.toList_ofList, List.map_eq_flatMap, List.flatMap_def,
    List.flatMap_def]
  refine congrArg List.flatten (List.map_congr_left fun c hc => ?_)
  have hdigit := Char.isDigit_iff_toNat.mp (Nat.isDigit_of_mem_toDigits (by decide) (by decide) hc)
  have hascii : c.val.toNat ≤ 127 := Nat.le_trans hdigit.2 (by decide)
  exact if_pos hascii

theorem Text.isDigit_of_mem_ofNat {n : Nat} {b : Byte} (h : b ∈ Text.ofNat n) :
    b.isDigit = true := by
  rw [Text.ofNat_eq_map] at h
  obtain ⟨c, hc, rfl⟩ := List.mem_map.mp h
  have hdigit := Char.isDigit_iff_toNat.mp (Nat.isDigit_of_mem_toDigits (by decide) (by decide) hc)
  have hlow : 48 ≤ c.toNat := hdigit.1
  have hhigh : c.toNat ≤ 57 := hdigit.2
  simp [Byte.isDigit, UInt8.le_iff_toNat_le]
  omega

theorem Text.ofNat_ne_nil (n : Nat) : Text.ofNat n ≠ [] := by
  rw [Text.ofNat_eq_map]
  exact mt List.map_eq_nil_iff.mp Nat.toDigits_ne_nil

theorem Text.isDigit_of_mem_padStart {t : Text} (h : ∀ b ∈ t, b.isDigit = true) {width : Nat}
    {b : Byte} (hb : b ∈ Text.padStart width 48 t) : b.isDigit = true := by
  rcases List.mem_append.mp hb with hb | hb
  · rw [List.eq_of_mem_replicate hb]
    rfl
  · exact h b hb

theorem Text.le_length_padStart (width : Nat) (fill : Byte) (t : Text) :
    width ≤ (Text.padStart width fill t).length := by
  unfold Text.padStart
  rw [List.length_append, List.length_replicate]
  omega

theorem Float.not_special_of_isFinite {x : Float} (h : x.isFinite = true) :
    x.isNaN = false ∧ x.isInf = false := by
  unfold Float.isFinite Float.Model.isFinite Float.Model.UnpackedFloat.isFinite at h
  unfold Float.isNaN Float.Model.isNaN Float.isInf Float.Model.isInf
  unfold Float.Model.UnpackedFloat.isNaN Float.Model.UnpackedFloat.isInf
  split at h
  next => cases h
  next => cases h
  next hunpack =>
    rw [hunpack]
    exact ⟨rfl, rfl⟩
  next hunpack =>
    rw [hunpack]
    exact ⟨rfl, rfl⟩

namespace Numeral

/-- The double that a token stands for, if it is the text of one and not out of range. -/
def ofToken? (token : Text) : Option Float :=
  let negative := token.head? == some (45 : Byte)
  match Literal.scan (if negative then token.drop 1 else token) with
  | some (l, []) => if l.outOfRange then none else some (signed negative l.toFloat)
  | _ => none

theorem ofToken?_some {token : Text} {y : Float} (h : ofToken? token = some y) :
    ∃ l, Literal.scan (if token.head? == some (45 : Byte) then token.drop 1 else token)
        = some (l, [])
      ∧ l.outOfRange = false ∧ y = signed (token.head? == some (45 : Byte)) l.toFloat := by
  unfold ofToken? at h
  dsimp only at h
  split at h
  next l hscan =>
    split at h
    · cases h
    next hrange =>
      cases h
      exact ⟨l, hscan, Bool.eq_false_iff.mpr hrange, rfl⟩
  next => cases h

/-- The written form of a double stands for a double that equals it. -/
def ReadsBack (x : Float) : Prop := ∃ y, ofToken? (plain.write x) = some y ∧ (y == x) = true

/-- A text that a reader takes as a whole for a number. -/
structure IsToken (t : Text) : Prop where
  begins : ∃ b rest, t = b :: rest ∧ (b = 45 ∨ b.isDigit = true)
  bytes : ∀ b ∈ t, Reader.isNumberByte b = true

theorem isNumberByte_of_isDigit {b : Byte} (h : b.isDigit = true) :
    Reader.isNumberByte b = true := by
  simp [Reader.isNumberByte, h]

theorem IsToken.of_digits {t : Text} (h : ∀ b ∈ t, b.isDigit = true) (hne : t ≠ []) :
    IsToken t := by
  refine ⟨?_, fun b hb => isNumberByte_of_isDigit (h b hb)⟩
  cases t with
  | nil => exact absurd rfl hne
  | cons b rest => exact ⟨b, rest, rfl, .inr (h b List.mem_cons_self)⟩

theorem IsToken.append {t t' : Text} (h : IsToken t)
    (h' : ∀ b ∈ t', Reader.isNumberByte b = true) : IsToken (t ++ t') := by
  obtain ⟨b, rest, rfl, hb⟩ := h.begins
  refine ⟨⟨b, rest ++ t', rfl, hb⟩, fun c hc => ?_⟩
  rcases List.mem_append.mp hc with hc | hc
  · exact h.bytes c hc
  · exact h' c hc

theorem IsToken.signed {t : Text} (h : IsToken t) (sign : Text) (hsign : sign = [] ∨ sign = [45]) :
    IsToken (sign ++ t) := by
  rcases hsign with rfl | rfl
  · exact h
  · refine ⟨⟨45, t, rfl, .inl rfl⟩, fun b hb => ?_⟩
    rcases List.mem_cons.mp hb with rfl | hb
    · rfl
    · exact h.bytes b hb

theorem IsToken.ofNat (n : Nat) : IsToken (Text.ofNat n) :=
  IsToken.of_digits (fun _ h => Text.isDigit_of_mem_ofNat h) (Text.ofNat_ne_nil n)

theorem positional_isToken (d : Decimal) : IsToken (positional d) := by
  have hdigits : ∀ b ∈ Text.ofNat d.digits, b.isDigit = true := fun _ h =>
    Text.isDigit_of_mem_ofNat h
  unfold positional
  dsimp only
  split
  · refine (IsToken.ofNat d.digits).append fun b hb => ?_
    rw [List.eq_of_mem_replicate hb]
    rfl
  · let places := (-d.exponent).toNat
    let padded := Text.padStart (places + 1) 48 (Text.ofNat d.digits)
    have hpadded : ∀ b ∈ padded, b.isDigit = true := fun b hb =>
      Text.isDigit_of_mem_padStart hdigits hb
    have hlength : places + 1 ≤ padded.length := Text.le_length_padStart _ _ _
    have hwhole : IsToken (padded.take (padded.length - places)) := by
      refine IsToken.of_digits (fun b hb => hpadded b (List.mem_of_mem_take hb)) fun hnil => ?_
      have hzero := congrArg List.length hnil
      rw [List.length_take, List.length_nil] at hzero
      omega
    refine hwhole.append fun b hb => ?_
    rcases List.mem_cons.mp hb with rfl | hb
    · rfl
    · exact isNumberByte_of_isDigit (hpadded b (List.mem_of_mem_drop hb))

theorem scientific_isToken (d : Decimal) : IsToken (scientific plain.exponentMark d) := by
  have hdigits : ∀ b ∈ Text.ofNat d.digits, b.isDigit = true := fun _ h =>
    Text.isDigit_of_mem_ofNat h
  have hlead : IsToken ((Text.ofNat d.digits).take 1) := by
    refine IsToken.of_digits (fun b hb => hdigits b (List.mem_of_mem_take hb)) ?_
    cases h : Text.ofNat d.digits with
    | nil => exact absurd h (Text.ofNat_ne_nil _)
    | cons b rest => simp
  have hfraction : ∀ b ∈ (if ((Text.ofNat d.digits).drop 1).isEmpty then []
      else (46 : Byte) :: (Text.ofNat d.digits).drop 1), Reader.isNumberByte b = true := by
    intro b hb
    split at hb
    · cases hb
    · rcases List.mem_cons.mp hb with rfl | hb
      · rfl
      · exact isNumberByte_of_isDigit (hdigits b (List.mem_of_mem_drop hb))
  have hmark : ∀ b ∈ plain.exponentMark, Reader.isNumberByte b = true := List.all_eq_true.mp rfl
  have hsign : ∀ b ∈ (if d.magnitude < 0 then ("-" : Text) else "+"),
      Reader.isNumberByte b = true := by
    split
    · exact List.all_eq_true.mp rfl
    · exact List.all_eq_true.mp rfl
  have hexponent : ∀ b ∈ Text.ofNat d.magnitude.natAbs, Reader.isNumberByte b = true :=
    fun b hb => isNumberByte_of_isDigit (Text.isDigit_of_mem_ofNat hb)
  exact (((hlead.append hfraction).append hmark).append hsign).append hexponent

theorem write_isToken {x : Float} (h : x.isFinite = true) : IsToken (plain.write x) := by
  obtain ⟨hnan, hinf⟩ := Float.not_special_of_isFinite h
  have hmagnitude : IsToken (plain.magnitudeText (Double.exact x)) := by
    unfold Layout.magnitudeText
    dsimp only
    split
    · split
      · exact IsToken.ofNat _
      · exact positional_isToken _
    · exact scientific_isToken _
  unfold Layout.write
  simp only [hnan, hinf, Bool.false_eq_true, if_false]
  split
  · exact ⟨⟨48, [], rfl, .inr rfl⟩, List.all_eq_true.mp rfl⟩
  · refine hmagnitude.signed _ ?_
    split
    · exact .inr rfl
    · exact .inl rfl

end Numeral

namespace Reader

/-- Bytes of one class are taken up to the first byte of another. -/
theorem span_append {p : Byte → Bool} {t rest : Text} (ht : ∀ b ∈ t, p b = true)
    (hrest : ∀ b ∈ rest.head?, p b = false) :
    (t ++ rest).takeWhile p = t ∧ (t ++ rest).dropWhile p = rest := by
  rw [List.takeWhile_append_of_pos ht, List.dropWhile_append_of_pos ht]
  cases rest with
  | nil => simp
  | cons b rest => simp [hrest b rfl]

/-- A number ends where a byte follows that could not belong to one. -/
theorem readNumber_token {token rest : Text} {y : Float} (h : Numeral.IsToken token)
    (hrest : ∀ b ∈ rest.head?, isNumberByte b = false) (hy : Numeral.ofToken? token = some y) :
    readNumber (token ++ rest) = .ok (.number y, rest) := by
  obtain ⟨htake, hdrop⟩ := span_append h.bytes hrest
  obtain ⟨l, hscan, hrange, rfl⟩ := Numeral.ofToken?_some hy
  unfold readNumber
  rw [htake, hdrop]
  simp only [hscan, hrange]
  rfl

end Reader
end EntityMachines
