import EntityMachines.Proofs.Library.Object
import EntityMachines.Proofs.Text
import Mathlib.Data.List.DropRight

/-!
Numbers of cards. One operator writes them for people, another one checks their digits against one
another. Main statements: what is written tells no more of a number than how many digits it has and
which are the last four; and where a number passes the check, it does not pass with one digit replaced
or with two neighbours swapped, unless these are a zero and a nine.
-/
namespace EntityMachines
namespace Library
namespace Format

/-! Masking. The digits are turned into positions first, each a text of its own, and these are put
into groups. -/

def bullet : Text := "•"

/-- What stands for the digits of a number: a bullet for each but the last four. -/
def positions (digits : Text) : List Text :=
  List.replicate (digits.length - 4) bullet ++ (digits.rtake 4).map ([·])

theorem rtake_four_of_le {digits : Text} (h : digits.length ≤ 4) : digits.rtake 4 = digits := by
  simp [List.rtake, Nat.sub_eq_zero_of_le h]

theorem rtake_four_cons {digits : Text} (b : Byte) (h : 4 ≤ digits.length) :
    (b :: digits).rtake 4 = digits.rtake 4 := by
  simp [List.rtake, Nat.sub_add_comm h]

theorem positions_cons (b : Byte) (rest : Text) :
    positions (b :: rest) = (if 4 ≤ rest.length then bullet else [b]) :: positions rest := by
  unfold positions
  split
  next h =>
    rw [rtake_four_cons b h, List.length_cons, Nat.sub_add_comm h, List.replicate_succ,
      List.cons_append]
  next h =>
    have hall : (b :: rest).length ≤ 4 := by rw [List.length_cons]; omega
    have hrest : rest.length ≤ 4 := by omega
    rw [rtake_four_of_le hall, rtake_four_of_le hrest, Nat.sub_eq_zero_of_le hall,
      Nat.sub_eq_zero_of_le hrest]
    rfl

/-- What is written in front of a position: a blank before every fourth but the first. -/
def gap (place : ℕ) : Text := if place ≠ 0 ∧ place % 4 = 0 then " " else []

/-- Positions from a place on, written with their gaps. -/
def spaced (place : ℕ) : List Text → Text
  | [] => []
  | position :: rest => gap place ++ position ++ spaced (place + 1) rest

theorem maskFrom_eq (place : ℕ) (digits : Text) :
    maskFrom place digits = spaced place (positions digits) := by
  induction digits generalizing place with
  | nil => rfl
  | cons b rest ih =>
    rw [positions_cons, spaced, ← ih]
    rfl

theorem spaced_append (place : ℕ) (front rest : List Text) :
    spaced place (front ++ rest) = spaced place front ++ spaced (place + front.length) rest := by
  induction front generalizing place with
  | nil => rfl
  | cons position front ih => simp [spaced, ih, Nat.add_assoc, Nat.add_comm 1]

/-- There are no gaps within a group. -/
theorem spaced_within {place : ℕ} {group : List Text} (hplace : place % 4 ≠ 0)
    (h : place % 4 + group.length ≤ 4) : spaced place group = group.flatten := by
  induction group generalizing place with
  | nil => rfl
  | cons position rest ih =>
    rw [List.length_cons] at h
    have hrest : spaced (place + 1) rest = rest.flatten := by
      cases rest with
      | nil => rfl
      | cons next rest =>
        rw [List.length_cons] at h
        apply ih
        · omega
        · rw [List.length_cons]
          omega
    simp [spaced, gap, hplace, hrest]

theorem spaced_group {place : ℕ} {group : List Text} (hplace : place % 4 = 0) (hsome : group ≠ [])
    (hfour : group.length ≤ 4) : spaced place group = gap place ++ group.flatten := by
  cases group with
  | nil => exact absurd rfl hsome
  | cons position rest =>
    rw [List.length_cons] at hfour
    have hrest : spaced (place + 1) rest = rest.flatten := by
      apply spaced_within <;> omega
    simp [spaced, hrest]

/-- Positions in groups of four with a blank between neighbours; the last group may have fewer. -/
def Fours (positions : List Text) (t : Text) : Prop :=
  ∃ (full : List (List Text)) (last : List Text),
    t = Text.join " " ((full ++ [last]).map List.flatten) ∧ (full ++ [last]).flatten = positions ∧
      (∀ group ∈ full, group.length = 4) ∧ 1 ≤ last.length ∧ last.length ≤ 4

theorem Fours.single {ps : List Text} (hsome : ps ≠ []) (hfew : ps.length ≤ 4) :
    Fours ps ps.flatten := by
  refine ⟨[], ps, ?_⟩
  simpa [Text.join, Nat.one_le_iff_ne_zero, hsome] using hfew

/-- One more group in front. -/
theorem Fours.cons {group rest : List Text} {t : Text} (hgroup : group.length = 4)
    (h : Fours rest t) : Fours (group ++ rest) (group.flatten ++ " " ++ t) := by
  obtain ⟨full, last, rfl, rfl, hfull, hlast⟩ := h
  refine ⟨group :: full, last, ?_, ?_, List.forall_mem_cons.mpr ⟨hgroup, hfull⟩, hlast⟩
  · rw [List.cons_append, List.map_cons, Text.join_cons]
    simp
  · simp

theorem spaced_fours {place : ℕ} {ps : List Text} (hplace : place % 4 = 0) (hsome : ps ≠ []) :
    ∃ t, spaced place ps = gap place ++ t ∧ Fours ps t := by
  induction hcount : ps.length using Nat.strong_induction_on generalizing place ps with
  | _ count ih =>
    subst hcount
    by_cases hfew : ps.length ≤ 4
    · exact ⟨ps.flatten, spaced_group hplace hsome hfew, .single hsome hfew⟩
    · have hfour : (ps.take 4).length = 4 := by rw [List.length_take]; omega
      have hmore : ps.drop 4 ≠ [] := by rw [ne_eq, List.drop_eq_nil_iff]; omega
      have hless : (ps.drop 4).length < ps.length := by rw [List.length_drop]; omega
      have hnext : (place + 4) % 4 = 0 := by omega
      obtain ⟨t, ht, hfours⟩ := ih _ hless hnext hmore rfl
      have hgap : gap (place + 4) = " " := if_pos ⟨by omega, hnext⟩
      have hfirst : spaced place (ps.take 4) = gap place ++ (ps.take 4).flatten := by
        apply spaced_group hplace _ hfour.le
        exact List.ne_nil_of_length_eq_add_one hfour
      have hsplit := spaced_append place (ps.take 4) (ps.drop 4)
      have hgroups := hfours.cons hfour
      rw [List.take_append_drop] at hsplit hgroups
      rw [hfour, hfirst, ht, hgap] at hsplit
      exact ⟨_, by rw [hsplit]; simp, hgroups⟩

theorem digitsOf_append (s t : Text) : digitsOf (s ++ t) = digitsOf s ++ digitsOf t :=
  List.filter_append ..

theorem isDigit_of_mem_digitsOf {t : Text} {b : Byte} (h : b ∈ digitsOf t) : b.isDigit = true :=
  List.of_mem_filter h

/-- Neither blanks nor bullets are digits. -/
theorem digitsOf_maskFrom {digits : Text} (h : ∀ b ∈ digits, b.isDigit = true) (place : ℕ) :
    digitsOf (maskFrom place digits) = digits.rtake 4 := by
  have hgap (place : ℕ) : digitsOf (gap place) = [] := by
    unfold gap
    split <;> decide
  induction digits generalizing place with
  | nil => rfl
  | cons b rest ih =>
    obtain ⟨hb, hrest⟩ := List.forall_mem_cons.mp h
    have hstep : maskFrom place (b :: rest)
        = gap place ++ (if 4 ≤ rest.length then bullet else [b]) ++ maskFrom (place + 1) rest := rfl
    rw [hstep, digitsOf_append, digitsOf_append, hgap, ih hrest]
    split
    next hmany =>
      rw [rtake_four_cons b hmany]
      rfl
    next hfew =>
      have hall : (b :: rest).length ≤ 4 := by rw [List.length_cons]; omega
      rw [rtake_four_of_le (by omega), rtake_four_of_le hall]
      simp [digitsOf, hb]

/-- The number of a card with all digits hidden but the last four. -/
structure Masked (count : ℕ) (four t : Text) : Prop where
  digits : digitsOf t = four
  positions : Fours (List.replicate (count - 4) bullet ++ four.map ([·])) t

theorem masked_maskFrom {digits : Text} (h : ∀ b ∈ digits, b.isDigit = true) (hsome : digits ≠ []) :
    Masked digits.length (digits.rtake 4) (maskFrom 0 digits) := by
  constructor
  · exact digitsOf_maskFrom h 0
  · have hpositions : positions digits ≠ [] := by
      cases digits with
      | nil => exact absurd rfl hsome
      | cons b rest =>
        rw [positions_cons]
        exact List.cons_ne_nil _ _
    obtain ⟨t, ht, hfours⟩ := spaced_fours (Nat.zero_mod 4) hpositions
    rw [maskFrom_eq, ht]
    exact hfours

/-- Two numbers of one length with the same four digits at the end are written alike. -/
theorem maskFrom_congr {digits others : Text} (hcount : others.length = digits.length)
    (hfour : others.rtake 4 = digits.rtake 4) (place : ℕ) :
    maskFrom place others = maskFrom place digits := by
  rw [maskFrom_eq, maskFrom_eq, positions, positions, hcount, hfour]

theorem makes_creditCard {v : Value} (h : 4 ≤ (digitsOf v.display).length) (more : List Value) :
    Makes "format/creditCard" (v :: more) (.string (maskFrom 0 (digitsOf v.display))) := by
  have htext : Arguments.text (v :: more) 0 = v.display := by
    cases v with
    | undefined => exact absurd h (by decide)
    | null => exact absurd h (by decide)
    | _ => rfl
  have hcard : card? (digitsOf v.display) = some (maskFrom 0 (digitsOf v.display)) :=
    if_neg (Nat.not_lt.mpr h)
  have hmakes : Makes "format/creditCard" (v :: more)
      (orInput v (card? (digitsOf (Arguments.text (v :: more) 0)))) :=
    .ofTotal (f := fun args => orInput (args.nth 0) (card? (digitsOf (args.text 0))))
      (operator?_of_place 135 rfl)
  rwa [htext, hcard] at hmakes

/-- Of two values whose digits are as many and end alike nobody can tell which one was written. -/
theorem creditCard_hides {v w : Value} (henough : 4 ≤ (digitsOf v.display).length)
    (hcount : (digitsOf w.display).length = (digitsOf v.display).length)
    (hfour : (digitsOf w.display).rtake 4 = (digitsOf v.display).rtake 4)
    (more others : List Value) :
    ∃ t, Makes "format/creditCard" (v :: more) (.string t) ∧
      Makes "format/creditCard" (w :: others) (.string t) ∧
      Masked (digitsOf v.display).length ((digitsOf v.display).rtake 4) t := by
  have hother := makes_creditCard (hcount ▸ henough) others
  rw [maskFrom_congr hcount hfour] at hother
  refine ⟨_, makes_creditCard henough more, hother, masked_maskFrom ?_ ?_⟩
  · intro b hb
    exact isDigit_of_mem_digitsOf hb
  · intro hnone
    rw [hnone] at henough
    exact absurd henough (by decide)

theorem creditCard_hides_brand :
    ∃ t, Makes "format/creditCard" [.string "4111 1111 1111 1234"] (.string t) ∧
      Makes "format/creditCard" [.string "Card 5500-0000-0000-1234 (old)"] (.string t) ∧
      Masked 16 "1234" t :=
  creditCard_hides (v := .string "4111 1111 1111 1234")
    (w := .string "Card 5500-0000-0000-1234 (old)") (by decide) (by decide) (by decide) [] []

-- the groups are counted from the front
example : maskFrom 0 "123456" = "••34 56" := by decide

end Format

namespace Validate

/-! Checking. -/

variable {d e : ℕ}

theorem weighted_le (doubled : Bool) (hd : d ≤ 9) : weighted doubled d ≤ 9 := by
  unfold weighted
  cases doubled with
  | false => exact hd
  | true =>
    simp only [if_true]
    split <;> omega

/-- Different digits count differently, doubled or not. -/
theorem weighted_inj (doubled : Bool) (hd : d ≤ 9) (he : e ≤ 9)
    (h : weighted doubled d = weighted doubled e) : d = e := by
  unfold weighted at h
  cases doubled with
  | false => exact h
  | true =>
    simp only [if_true] at h
    split at h <;> split at h <;> omega

/-- Neighbours count the same in either order only if they are equal, or a zero and a nine, which
count as themselves when they are doubled. -/
theorem weighted_swap (doubled : Bool) (hd : d ≤ 9) (he : e ≤ 9)
    (h : (weighted doubled d + weighted (!doubled) e) % 10
      = (weighted doubled e + weighted (!doubled) d) % 10) :
    d = e ∨ d = 0 ∧ e = 9 ∨ d = 9 ∧ e = 0 := by
  unfold weighted at h
  cases doubled with
  | false =>
    simp only [Bool.not_false, if_true, Bool.false_eq_true, if_false] at h
    split at h <;> split at h <;> omega
  | true =>
    simp only [Bool.not_true, if_true, Bool.false_eq_true, if_false] at h
    split at h <;> split at h <;> omega

/-- Whether the digits behind a text count twice depends on the text alone. -/
theorem exists_checkSum_append (doubled : Bool) (front : Text) :
    ∃ later, ∀ rest,
      checkSum doubled (front ++ rest) = checkSum doubled front + checkSum later rest := by
  induction front generalizing doubled with
  | nil => exact ⟨doubled, by simp [checkSum]⟩
  | cons b front ih =>
    obtain ⟨later, hlater⟩ := ih (!doubled)
    exact ⟨later, by simp [checkSum, hlater, Nat.add_assoc]⟩

/-- A number with one mistake: a digit is another one, or two different neighbours that are not a
zero and a nine have changed places. -/
inductive Mistyped : Text → Text → Prop
  | replaced (front rest : Text) {b c : Byte} (digit : c.isDigit = true) (other : b ≠ c) :
      Mistyped (front ++ b :: rest) (front ++ c :: rest)
  | swapped (front rest : Text) {b c : Byte} (other : b ≠ c) (told : ¬(b = 48 ∧ c = 57))
      (told' : ¬(b = 57 ∧ c = 48)) : Mistyped (front ++ b :: c :: rest) (front ++ c :: b :: rest)

theorem luhnValid_iff (digits : Text) :
    luhnValid digits = true ↔ checkSum false digits.reverse % 10 = 0 := beq_iff_eq

/-- Replacing a digit and swapping neighbours change the check sum, but not by a multiple of ten. -/
theorem luhnValid_of_mistyped {digits typed : Text} (hdigits : ∀ b ∈ digits, b.isDigit = true)
    (hvalid : luhnValid digits = true) (h : Mistyped digits typed) : luhnValid typed = false := by
  rw [Bool.eq_false_iff, ne_eq, luhnValid_iff]
  rw [luhnValid_iff] at hvalid
  intro htyped
  -- what is behind a mistake is summed up alike before and after it, and so is what is in front
  cases h with
  | @replaced front rest b c hc hne =>
    obtain ⟨doubled, hbehind⟩ := exists_checkSum_append false rest.reverse
    have hb : b.isDigit = true := hdigits b (by simp)
    have hbound := weighted_le doubled (Byte.digit_le hb)
    have hbound' := weighted_le doubled (Byte.digit_le hc)
    simp only [List.reverse_append, List.reverse_cons, List.append_assoc, List.cons_append,
      List.nil_append, hbehind, checkSum] at hvalid htyped
    have hsame : weighted doubled b.digit = weighted doubled c.digit := by omega
    have heq := weighted_inj doubled (Byte.digit_le hb) (Byte.digit_le hc) hsame
    exact hne (Byte.digit_inj hb hc heq)
  | @swapped front rest b c hne htold htold' =>
    obtain ⟨doubled, hbehind⟩ := exists_checkSum_append false rest.reverse
    have hb : b.isDigit = true := hdigits b (by simp)
    have hc : c.isDigit = true := hdigits c (by simp)
    simp only [List.reverse_append, List.reverse_cons, List.append_assoc, List.cons_append,
      List.nil_append, hbehind, checkSum] at hvalid htyped
    have hsame : (weighted doubled b.digit + weighted (!doubled) c.digit) % 10
        = (weighted doubled c.digit + weighted (!doubled) b.digit) % 10 := by omega
    obtain heq | ⟨hzero, hnine⟩ | ⟨hnine, hzero⟩ :=
      weighted_swap doubled (Byte.digit_le hb) (Byte.digit_le hc) hsame
    · exact hne (Byte.digit_inj hb hc heq)
    · exact htold ⟨Byte.digit_inj hb rfl hzero, Byte.digit_inj hc rfl hnine⟩
    · exact htold' ⟨Byte.digit_inj hb rfl hnine, Byte.digit_inj hc rfl hzero⟩

theorem makes_creditCard (s : Text) (more : List Value) :
    Makes "validate/creditCard" (.string s :: more) (.bool (isCardNumber (.string s))) :=
  .ofTotal (f := fun args => .bool (isCardNumber (args.nth 0))) (operator?_of_place 138 rfl)

theorem isCardNumber_string (s : Text) : isCardNumber (.string s)
    = (13 ≤ (digitsOf s).length && (digitsOf s).length ≤ 19 && luhnValid (digitsOf s)) := rfl

/-- Of the texts with the digits of a number those with a mistake are refused, and the others are if
there are too few digits or too many. -/
theorem mistyped_rejected {digits typed : Text} (hdigits : ∀ b ∈ digits, b.isDigit = true)
    (hvalid : luhnValid digits = true) (h : Mistyped digits typed) :
    luhnValid typed = false ∧
    (∀ (s : Text) (more : List Value), digitsOf s = typed →
      Makes "validate/creditCard" (.string s :: more) (.bool false)) ∧
    ∀ (s : Text) (more : List Value), digitsOf s = digits →
      Makes "validate/creditCard" (.string s :: more)
        (.bool (13 ≤ digits.length && digits.length ≤ 19)) := by
  have htyped := luhnValid_of_mistyped hdigits hvalid h
  refine ⟨htyped, ?_, ?_⟩
  · rintro s more rfl
    have hmakes := makes_creditCard s more
    rwa [isCardNumber_string, htyped, Bool.and_false] at hmakes
  · rintro s more rfl
    have hmakes := makes_creditCard s more
    rwa [isCardNumber_string, hvalid, Bool.and_true] at hmakes

/-- Two digits of a number change places. -/
theorem mistyped_rejected_visa :
    luhnValid "4111111111111111" = true ∧ Mistyped "4111111111111111" "1411111111111111" ∧
    luhnValid "1411111111111111" = false ∧
    Makes "validate/creditCard" [.string "No. 1411-1111-1111-1111"] (.bool false) ∧
    Makes "validate/creditCard" [.string "No. 4111-1111-1111-1111"] (.bool true) := by
  have hdigits : ∀ b ∈ Text.ofString "4111111111111111", b.isDigit = true := by decide +kernel
  have hvalid : luhnValid "4111111111111111" = true := by decide
  have hswapped : Mistyped "4111111111111111" "1411111111111111" :=
    .swapped [] "11111111111111" (by decide) (by decide) (by decide)
  obtain ⟨hinvalid, hrefused, htaken⟩ := mistyped_rejected hdigits hvalid hswapped
  exact ⟨hvalid, hswapped, hinvalid, hrefused "No. 1411-1111-1111-1111" [] (by decide),
    htaken "No. 4111-1111-1111-1111" [] (by decide)⟩

end Validate
end Library
end EntityMachines
