import EntityMachines.Proofs.Library.Cuts
import EntityMachines.Proofs.Library.Object
import EntityMachines.Proofs.Text

/-!
The operators that split, join and replace, the one that truncates and the one that makes a name of
words. Main statements: what is split is put together again by joining, and replacing is joining with
something else; a truncated text is as short as it should be exactly if there is room for the suffix
or the text is short itself, since a cut in front of the text is one counted from its end; separators
between words may stand for one another exactly as long as no small letter comes to stand behind an
underscore or loses the one in front of it, as an underscore is also part of a word.
-/
namespace EntityMachines
namespace Library

/-! Splitting and joining. -/

theorem makes_split (s d : Text) :
    Makes "str/split" [.string s, .string d] (.array ((Text.splitOn s d).map .string)) :=
  .ofTotal (f := fun args => Strings.split (args.nth 0) (args.text 1)) (operator?_of_place 23 rfl)

theorem makes_join_parts (parts : List Text) (d : Text) :
    Makes "str/join" [.array (parts.map .string), .string d] (.string (Text.join d parts)) := by
  have hjoin : Makes "str/join" [.array (parts.map .string), .string d]
      (.string (Text.join d ((parts.map Value.string).map Value.displayItem))) :=
    .ofTotal (f := fun args => .string (Strings.join (args.nth 0) (args.text 1 ",")))
      (operator?_of_place 24 rfl)
  have hdisplay : (parts.map Value.string).map Value.displayItem = parts := by
    rw [List.map_map]
    exact List.map_id parts
  rwa [hdisplay] at hjoin

theorem makes_replaceAll (s d r : Text) :
    Makes "str/replaceAll" [.string s, .string d, .string r] (.string (Text.replaceAll s d r)) :=
  .ofTotal (f := fun args => .string (Text.replaceAll (args.text 0) (args.text 1) (args.text 2)))
    (operator?_of_place 27 rfl)

theorem split_join_agree (s d : Text) : ∃ parts : List Text,
    Makes "str/split" [.string s, .string d] (.array (parts.map .string)) ∧
    Makes "str/join" [.array (parts.map .string), .string d] (.string s) ∧
    (d ≠ [] → (∀ part ∈ parts, ¬d <:+: part) ∧
      ∀ r, ∃ t, Makes "str/replaceAll" [.string s, .string d, .string r] (.string t) ∧
        Makes "str/join" [.array (parts.map .string), .string r] (.string t)) := by
  have hjoin := makes_join_parts (Text.splitOn s d) d
  rw [Text.join_splitOn] at hjoin
  refine ⟨Text.splitOn s d, makes_split s d, hjoin, fun hd => ⟨fun part hpart => ?_, fun r => ?_⟩⟩
  · exact Text.not_infix_of_mem_splitOn hd hpart
  · have hreplace := makes_replaceAll s d r
    rw [Text.replaceAll_eq_join hd] at hreplace
    exact ⟨_, hreplace, makes_join_parts _ r⟩

/-- A delimiter that overlaps with itself, at both ends and twice in a row. -/
theorem split_join_agree_of_overlaps : ∃ parts : List Text,
    Makes "str/split" [.string "aaaaabaa", .string "aa"] (.array (parts.map .string)) ∧
    ("aa" : Text) ≠ [] ∧ (∀ part ∈ parts, ¬("aa" : Text) <:+: part) := by
  obtain ⟨parts, hsplit, -, hparts⟩ := split_join_agree "aaaaabaa" "aa"
  have hd : ("aa" : Text) ≠ [] := by decide
  exact ⟨parts, hsplit, hd, (hparts hd).1⟩

/-! Truncating. -/

namespace Strings

open Double (toRat?)

variable {s x : Text} {length : Float} {n : ℕ}

theorem truncate_of_fits (hn : toRat? length = some (n : ℚ)) (hs : s.length ≤ n)
    (hcount : s.length ≤ 2 ^ 53) (x : Text) : truncate s length x = s := by
  have hfits : Float.ofNat s.length ≤ length := by
    rw [Double.le_iff (Double.toRat?_ofNat hcount) hn]
    exact_mod_cast hs
  exact if_pos hfits

theorem truncate_of_exceeds (hn : toRat? length = some (n : ℚ)) (hs : n < s.length)
    (hcount : s.length ≤ 2 ^ 53) (x : Text) : truncate s length x
      = s.take (Items.place (length - Float.ofNat x.length) s.length) ++ x := by
  have hexceeds : ¬Float.ofNat s.length ≤ length := by
    rw [Double.le_iff (Double.toRat?_ofNat hcount) hn, not_le]
    exact_mod_cast hs
  have hzero : toRat? 0.0 = some ((0 : ℕ) : ℚ) := by rw [Double.toRat?_zero, Nat.cast_zero]
  unfold truncate
  rw [if_neg hexceeds, Items.slice_front s hzero]

/-- Where the text is cut: if there is no room for the suffix, so much in front of the end. -/
theorem place_of_cut (hn : toRat? length = some (n : ℚ)) (hs : n < s.length)
    (hcount : s.length ≤ 2 ^ 53) (hx : x.length ≤ 2 ^ 53) :
    Items.place (length - Float.ofNat x.length) s.length
      = if n < x.length then s.length + n - x.length else n - x.length := by
  have hrounds := Double.sub_rounds hn (Double.toRat?_ofNat hx)
  have hcast : ((n : ℤ) - (x.length : ℤ) : ℤ) = ((n : ℚ) - x.length : ℚ) := by push_cast; rfl
  rw [← hcast] at hrounds
  have hcut := hrounds.exact (Double.toRat?_ofInt (by omega))
  have hback : (((n : ℤ) - (x.length : ℤ) : ℤ) : ℚ) < 0 ↔ n < x.length := by
    rw [Int.cast_lt_zero]
    omega
  rw [Items.place_eq_meant _ hcount]
  unfold Items.meant
  rw [hcut]
  dsimp only
  rw [Int.ceil_intCast, Int.floor_intCast, if_congr hback rfl rfl]
  split <;> omega

theorem length_truncate (hn : toRat? length = some (n : ℚ)) (hs : n < s.length)
    (hcount : s.length ≤ 2 ^ 53) (hx : x.length ≤ 2 ^ 53) : (truncate s length x).length
      = if n < x.length then max x.length (s.length + n) else n := by
  rw [truncate_of_exceeds hn hs hcount, List.length_append, List.length_take,
    place_of_cut hn hs hcount hx]
  split <;> omega

end Strings

open Double (toRat?)

theorem makes_truncate (s x : Text) (v : Value) :
    Makes "str/truncate" [.string s, v, .string x]
      (.string (Strings.truncate s v.toNumber x)) := by
  have hnumber : Arguments.number [.string s, v, .string x] 1 = v.toNumber :=
    Arguments.number_eq _ 1
  rw [← hnumber]
  exact .ofTotal (f := fun args => .string (Strings.truncate (args.text 0) (args.number 1)
    (args.text 2 "..."))) (operator?_of_place 41 rfl)

/-- What is asked of a truncated text: one that has no more bytes than asked for is kept, and any
other is cut so that it ends with the suffix and is no longer than asked for or than the suffix. -/
def Shortened (s : Text) (n : ℕ) (x t : Text) : Prop :=
  (s.length ≤ n → t = s) ∧ (n < s.length → t.length ≤ max n x.length ∧ x <:+ t)

/-- A text that is too long always gets the suffix, but it is not short enough if there is no room
for the suffix and the text is longer than what the suffix exceeds the room by. -/
theorem truncate_shortens_iff {s x : Text} {v : Value} {n : ℕ}
    (hn : toRat? v.toNumber = some (n : ℚ)) (hs : s.length ≤ 2 ^ 53) (hx : x.length ≤ 2 ^ 53) :
    Makes "str/truncate" [.string s, v, .string x]
      (.string (Strings.truncate s v.toNumber x)) ∧
    (n < s.length → x <:+ Strings.truncate s v.toNumber x) ∧
    (Shortened s n x (Strings.truncate s v.toNumber x) ↔
      ¬(n < s.length ∧ n < x.length ∧ x.length < s.length + n)) := by
  have hsuffix (hexceeds : n < s.length) : x <:+ Strings.truncate s v.toNumber x := by
    rw [Strings.truncate_of_exceeds hn hexceeds hs]
    exact List.suffix_append _ x
  refine ⟨makes_truncate s x v, hsuffix, ?_⟩
  by_cases hexceeds : n < s.length
  · have hlength := Strings.length_truncate hn hexceeds hs hx
    constructor
    · rintro ⟨-, hshort⟩
      have hle := (hshort hexceeds).1
      rw [hlength] at hle
      split at hle <;> omega
    · refine fun hroom => ⟨fun hfits => absurd hexceeds (Nat.not_lt.mpr hfits), fun _ => ⟨?_, ?_⟩⟩
      · rw [hlength]
        split <;> omega
      · exact hsuffix hexceeds
  · have hfits := Nat.not_lt.mp hexceeds
    exact iff_of_true ⟨fun _ => Strings.truncate_of_fits hn hfits hs x, fun h => absurd h hexceeds⟩
      fun h => hexceeds h.1

/-- The suffix takes up part of the length asked for. -/
theorem greeting_shortened :
    toRat? (Value.number 8.0).toNumber = some ((8 : ℕ) : ℚ) ∧
    ("Hello world" : Text).length ≤ 2 ^ 53 ∧ ("..." : Text).length ≤ 2 ^ 53 ∧
    Makes "str/truncate" [.string "Hello world", .number 8.0, .string "..."]
      (.string (Strings.truncate "Hello world" 8.0 "...")) ∧
    Shortened "Hello world" 8 "..." (Strings.truncate "Hello world" 8.0 "...") := by
  have hn : toRat? (Value.number 8.0).toNumber = some ((8 : ℕ) : ℚ) := by decide +kernel
  obtain ⟨hmakes, -, hshortened⟩ :=
    truncate_shortens_iff (s := "Hello world") (x := "...") hn (by decide) (by decide)
  exact ⟨hn, by decide, by decide, hmakes, hshortened.mpr (by decide)⟩

/-- A text of ten bytes to be cut to two comes out longer than it was. -/
theorem alphabet_not_shortened :
    Makes "str/truncate" [.string "abcdefghij", .number 2.0, .string "..."]
      (.string "abcdefghi...") ∧
    ¬Shortened "abcdefghij" 2 "..." "abcdefghi..." := by
  have hmakes := makes_truncate "abcdefghij" "..." (.number 2.0)
  have htext : Strings.truncate "abcdefghij" (Value.number 2.0).toNumber "..." = "abcdefghi..." := by
    decide +kernel
  rw [htext] at hmakes
  refine ⟨hmakes, fun h => ?_⟩
  exact absurd (h.2 (by decide)).1 (by decide)

end Library

/-! Making a name of words. Letter cases, separators and the bytes of words go by their numbers. -/

section kinds

variable {b : Byte}

theorem Byte.toNat_toUpper (h : b.isLower = true) : b.toUpper.toNat = b.toNat - 32 := by
  have hlower := isLower_iff.mp h
  have hle : (32 : Byte) ≤ b := UInt8.le_iff_toNat_le.mpr (by simp; omega)
  unfold toUpper
  rw [if_pos h, UInt8.toNat_sub_of_le _ _ hle]
  rfl

theorem Byte.toNat_toLower (h : b.isUpper = true) : b.toLower.toNat = b.toNat + 32 := by
  have hupper := isUpper_iff.mp h
  unfold toLower
  rw [if_pos h, UInt8.toNat_add]
  simp
  omega

theorem Text.isSeparator_iff : isSeparator b = true ↔
    b.toNat = 32 ∨ 9 ≤ b.toNat ∧ b.toNat ≤ 13 ∨ b.toNat = 45 ∨ b.toNat = 95 := by
  have hkinds : isSeparator b = (b.isSpace || b == 45 || b == 95) := rfl
  rw [hkinds, Bool.or_eq_true, Bool.or_eq_true, Byte.isSpace_iff]
  simp [← UInt8.toNat_inj, or_assoc]

theorem Text.isWordByte_iff : isWordByte b = true ↔
    b.isUpper = true ∨ b.isLower = true ∨ b.isDigit = true ∨ b.toNat = 95 := by
  have hkinds : isWordByte b = (b.isUpper || b.isLower || b.isDigit || b == 95) := rfl
  rw [hkinds]
  simp [← UInt8.toNat_inj, or_assoc]

end kinds

namespace Text

variable {b c : Byte} {s t front rest : Text} {p q : Bool}

theorem isLower_of_isSeparator (h : isSeparator b = true) : b.isLower = false := by
  rw [Bool.eq_false_iff, ne_eq, Byte.isLower_iff]
  have hsep := isSeparator_iff.mp h
  omega

theorem toUpper_of_isSeparator (h : isSeparator b = true) : b.toUpper = b :=
  if_neg (Bool.eq_false_iff.mp (isLower_of_isSeparator h))

theorem toLower_of_isSeparator (h : isSeparator b = true) : b.toLower = b := by
  refine if_neg fun hupper => ?_
  have hsep := isSeparator_iff.mp h
  rw [Byte.isUpper_iff] at hupper
  omega

/-- Of the separators the underscore alone belongs to a word. -/
theorem isWordByte_of_isSeparator (h : isSeparator b = true) : isWordByte b = decide (b = 95) := by
  have hsep := isSeparator_iff.mp h
  rw [Bool.eq_iff_iff, isWordByte_iff, Byte.isUpper_iff, Byte.isLower_iff, Byte.isDigit_iff,
    decide_eq_true_iff, ← UInt8.toNat_inj]
  simp
  omega

theorem toUpper_ne (h : b.isLower = true) : b.toUpper ≠ b := by
  have hlower := Byte.isLower_iff.mp h
  rw [ne_eq, ← UInt8.toNat_inj, Byte.toNat_toUpper h]
  omega

theorem isSeparator_toUpper (h : isSeparator b = false) : isSeparator b.toUpper = false := by
  rcases hlower : b.isLower with _ | _
  · have hsame : b.toUpper = b := if_neg (Bool.eq_false_iff.mp hlower)
    rwa [hsame]
  · rw [Bool.eq_false_iff, ne_eq, isSeparator_iff, Byte.toNat_toUpper hlower]
    have hrange := Byte.isLower_iff.mp hlower
    omega

theorem isSeparator_toLower (h : isSeparator b = false) : isSeparator b.toLower = false := by
  rcases hupper : b.isUpper with _ | _
  · have hsame : b.toLower = b := if_neg (Bool.eq_false_iff.mp hupper)
    rwa [hsame]
  · rw [Bool.eq_false_iff, ne_eq, isSeparator_iff, Byte.toNat_toLower hupper]
    have hrange := Byte.isUpper_iff.mp hupper
    omega

/-- What is left of a text without its separators. -/
def unseparated (t : Text) : Text := t.filter fun b => !isSeparator b

theorem unseparated_of_isSeparator (h : isSeparator b = true) (t : Text) :
    unseparated (b :: t) = unseparated t :=
  List.filter_cons_of_neg (by rw [h]; exact Bool.false_ne_true)

theorem unseparated_of_not_isSeparator (h : isSeparator b = false) (t : Text) :
    unseparated (b :: t) = b :: unseparated t := List.filter_cons_of_pos (by rw [h]; rfl)

theorem unseparated_append (s t : Text) : unseparated (s ++ t) = unseparated s ++ unseparated t :=
  List.filter_append ..

/-- The texts differ at most in which separators they have. -/
def Respaced (s t : Text) : Prop :=
  List.Forall₂ (fun b c => b = c ∨ isSeparator b = true ∧ isSeparator c = true) s t

/-- In front of a small letter both texts have an underscore or neither. -/
def SameUnderscores (s t : Text) : Prop :=
  ∀ i, (∃ b ∈ s[i + 1]?, b.isLower = true) → (s[i]? = some 95 ↔ t[i]? = some 95)

theorem sameUnderscores_cons : SameUnderscores (b :: s) (c :: t) ↔
    ((∃ a ∈ s.head?, a.isLower = true) → (b = 95 ↔ c = 95)) ∧ SameUnderscores s t := by
  constructor
  · refine fun h => ⟨fun hsmall => ?_, fun i hsmall => h (i + 1) hsmall⟩
    rw [List.head?_eq_getElem?] at hsmall
    simpa using h 0 hsmall
  · rintro ⟨hfirst, hrest⟩ i hsmall
    cases i with
    | zero =>
      rw [List.getElem?_cons_succ, ← List.head?_eq_getElem?] at hsmall
      simpa using hfirst hsmall
    | succ i => exact hrest i hsmall

/-- Words are capitalized alike exactly if they begin in the same places, as far as there is a small
letter there. -/
theorem unseparated_capitalizeWords_eq_iff (h : Respaced s t) (p q : Bool) :
    unseparated (capitalizeWords p s) = unseparated (capitalizeWords q t) ↔
      ((∃ b ∈ s.head?, b.isLower = true) → p = q) ∧ SameUnderscores s t := by
  induction h generalizing p q with
  | nil => simp [capitalizeWords, SameUnderscores]
  | @cons b c s t hbc hst ih =>
    rw [sameUnderscores_cons]
    simp only [capitalizeWords, List.head?_cons, Option.mem_some_iff, exists_eq_left']
    rcases hsep : isSeparator b with _ | _
    · obtain rfl : b = c := hbc.resolve_right fun h => by rw [h.1] at hsep; cases hsep
      have hkept (a : Bool) : isSeparator (if a then b else b.toUpper) = false := by
        split
        · exact hsep
        · exact isSeparator_toUpper hsep
      rw [unseparated_of_not_isSeparator (hkept p), unseparated_of_not_isSeparator (hkept q),
        List.cons_eq_cons, ih]
      have hhead : (if p then b else b.toUpper) = (if q then b else b.toUpper) ↔
          (b.isLower = true → p = q) := by
        rcases hlower : b.isLower with _ | _
        · have hsame : b.toUpper = b := if_neg (Bool.eq_false_iff.mp hlower)
          simp [hsame]
        · have hne := toUpper_ne hlower
          cases p <;> cases q <;> simp [hne, hne.symm]
      rw [hhead]
      simp
    · have hsep' : isSeparator c = true := by
        rcases hbc with rfl | hbc
        · exact hsep
        · exact hbc.2
      have hleft (a : Bool) {d : Byte} (hd : isSeparator d = true) :
          isSeparator (if a then d else d.toUpper) = true := by
        rwa [toUpper_of_isSeparator hd, ite_self]
      rw [unseparated_of_isSeparator (hleft p hsep), unseparated_of_isSeparator (hleft q hsep'), ih,
        isWordByte_of_isSeparator hsep, isWordByte_of_isSeparator hsep', decide_eq_decide,
        isLower_of_isSeparator hsep]
      simp

theorem camelCase_cons (b : Byte) (t : Text) :
    camelCase (b :: t) = unseparated (b.toLower :: capitalizeWords (isWordByte b) t) := rfl

theorem camelCase_eq_iff (h : Respaced s t) : camelCase s = camelCase t ↔ SameUnderscores s t := by
  cases h with
  | nil => exact iff_of_true rfl fun _ _ => Iff.rfl
  | @cons b c s t hbc hst =>
    rw [sameUnderscores_cons, camelCase_cons, camelCase_cons]
    rcases hsep : isSeparator b with _ | _
    · obtain rfl : b = c := hbc.resolve_right fun h => by rw [h.1] at hsep; cases hsep
      have hkept := isSeparator_toLower hsep
      rw [unseparated_of_not_isSeparator hkept, unseparated_of_not_isSeparator hkept,
        List.cons_eq_cons, unseparated_capitalizeWords_eq_iff hst]
      simp
    · have hsep' : isSeparator c = true := by
        rcases hbc with rfl | hbc
        · exact hsep
        · exact hbc.2
      rw [toLower_of_isSeparator hsep, toLower_of_isSeparator hsep',
        unseparated_of_isSeparator hsep, unseparated_of_isSeparator hsep',
        unseparated_capitalizeWords_eq_iff hst, isWordByte_of_isSeparator hsep,
        isWordByte_of_isSeparator hsep', decide_eq_decide]

theorem capitalizeWords_cons (p : Bool) (b : Byte) (t : Text) :
    capitalizeWords p (b :: t) = (if p then b else b.toUpper) :: capitalizeWords (isWordByte b) t := rfl

theorem capitalizeWords_append (p : Bool) (front : Text) (h : isSeparator c = true) (rest : Text) :
    capitalizeWords p (front ++ c :: rest)
      = capitalizeWords p front ++ c :: capitalizeWords (decide (c = 95)) rest := by
  induction front generalizing p with
  | nil =>
    rw [List.nil_append, capitalizeWords_cons, toUpper_of_isSeparator h, ite_self,
      isWordByte_of_isSeparator h]
    rfl
  | cons b front ih =>
    rw [List.cons_append, capitalizeWords_cons, ih, capitalizeWords_cons, List.cons_append]

/-- What stands behind a separator does not depend on what is in front of it. -/
theorem camelCase_append (front : Text) (h : isSeparator c = true) (rest : Text) :
    camelCase (front ++ c :: rest)
      = camelCase front ++ unseparated (capitalizeWords (decide (c = 95)) rest) := by
  cases front with
  | nil =>
    rw [List.nil_append, camelCase_cons, toLower_of_isSeparator h, unseparated_of_isSeparator h,
      isWordByte_of_isSeparator h]
    rfl
  | cons b front =>
    rw [List.cons_append, camelCase_cons, capitalizeWords_append _ _ h, camelCase_cons,
      ← List.cons_append, unseparated_append, unseparated_of_isSeparator h]

end Text

namespace Library

open Text (Respaced SameUnderscores camelCase isSeparator)

theorem makes_camelCase (s : Text) : Makes "str/camelCase" [.string s] (.string (camelCase s)) :=
  .ofTotal (f := Strings.ofText camelCase) (operator?_of_place 36 rfl)

/-- Separators may stand for one another if all small letters that have an underscore in front of
them keep it and no others get one; a word behind any other separator is capitalized. -/
theorem camelCase_alike_iff {s t : Text} (h : Respaced s t) :
    Makes "str/camelCase" [.string s] (.string (camelCase s)) ∧
    Makes "str/camelCase" [.string t] (.string (camelCase t)) ∧
    (camelCase s = camelCase t ↔ SameUnderscores s t) ∧
    ∀ front c b rest, s = front ++ c :: b :: rest → isSeparator c = true →
      camelCase s = camelCase front ++ Text.unseparated
        ((if c = 95 then b else b.toUpper) :: Text.capitalizeWords (Text.isWordByte b) rest) := by
  refine ⟨makes_camelCase s, makes_camelCase t, Text.camelCase_eq_iff h, ?_⟩
  rintro front c b rest rfl hc
  rw [Text.camelCase_append front hc, Text.capitalizeWords_cons]
  by_cases hunder : c = 95
  · rw [if_pos hunder, decide_eq_true hunder, if_pos rfl]
  · rw [if_neg hunder, decide_eq_false hunder, if_neg Bool.false_ne_true]

/-- Blanks and hyphens in the place of one another. -/
theorem toDoList_alike :
    Respaced "to-do list" "to do-list" ∧ camelCase "to-do list" = camelCase "to do-list" := by
  have hrespaced : Respaced "to-do list" "to do-list" := by
    have hcheck : List.Forall₂ (fun b c => b = c ∨ isSeparator b = true ∧ isSeparator c = true)
      ("to-do list" : Text) "to do-list" := by decide
    exact hcheck
  have hsame : SameUnderscores "to-do list" "to do-list" := by
    intro i _
    refine iff_of_false (fun h => ?_) fun h => ?_
    · exact absurd (List.mem_of_getElem? h) (by decide)
    · exact absurd (List.mem_of_getElem? h) (by decide)
  exact ⟨hrespaced, (camelCase_alike_iff hrespaced).2.2.1.mpr hsame⟩

/-- A hyphen and an underscore are both left out, but only behind the hyphen a word begins. -/
theorem underscore_told_apart :
    Respaced "a-b" "a_b" ∧
    Makes "str/camelCase" [.string "a-b"] (.string "aB") ∧
    Makes "str/camelCase" [.string "a_b"] (.string "ab") ∧ ("aB" : Text) ≠ "ab" := by
  refine ⟨?_, makes_camelCase "a-b", makes_camelCase "a_b", by decide⟩
  exact .cons (.inl rfl) (.cons (.inr ⟨rfl, rfl⟩) (.cons (.inl rfl) .nil))

end Library
end EntityMachines
