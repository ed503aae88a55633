import EntityMachines.Text
import EntityMachines.Text.Search
import Mathlib.Data.List.DropRight
import Mathlib.Data.List.Infix

/-!
Splitting a text at a byte and joining the parts undo each other, and in the order of texts what is
in front of a text comes before it.
-/
namespace EntityMachines

/-! The kinds of bytes by their numbers. -/

section kinds

variable {b : Byte}

theorem Byte.isLower_iff : b.isLower = true ↔ 97 ≤ b.toNat ∧ b.toNat ≤ 122 := by
  simp [Byte.isLower, UInt8.le_iff_toNat_le]

theorem Byte.isUpper_iff : b.isUpper = true ↔ 65 ≤ b.toNat ∧ b.toNat ≤ 90 := by
  simp [Byte.isUpper, UInt8.le_iff_toNat_le]

theorem Byte.isDigit_iff : b.isDigit = true ↔ 48 ≤ b.toNat ∧ b.toNat ≤ 57 := by
  simp [Byte.isDigit, UInt8.le_iff_toNat_le]

theorem Byte.isSpace_iff : b.isSpace = true ↔ b.toNat = 32 ∨ 9 ≤ b.toNat ∧ b.toNat ≤ 13 := by
  simp [Byte.isSpace, UInt8.le_iff_toNat_le, ← UInt8.toNat_inj]

theorem Byte.not_isSpace_of_isDigit (h : b.isDigit = true) : b.isSpace = false := by
  rw [isDigit_iff] at h
  rw [Bool.eq_false_iff, ne_eq, isSpace_iff]
  omega

theorem Byte.digit_le (h : b.isDigit = true) : b.digit ≤ 9 := by
  rw [isDigit_iff] at h
  unfold digit
  omega

theorem Byte.digit_inj {c : Byte} (hb : b.isDigit = true) (hc : c.isDigit = true)
    (h : b.digit = c.digit) : b = c := by
  rw [isDigit_iff] at hb hc
  unfold digit at h
  rw [← UInt8.toNat_inj]
  omega

end kinds

namespace Text

variable {sep : Byte}

theorem splitByte_cons (sep b : Byte) (t : Text) :
    ∃ part parts, splitByte sep t = part :: parts ∧
      splitByte sep (b :: t) = if b == sep then [] :: part :: parts else (b :: part) :: parts := by
  induction t generalizing b with
  | nil => exact ⟨[], [], rfl, rfl⟩
  | cons c rest ih =>
    obtain ⟨part, parts, -, hsplit⟩ := ih c
    by_cases hc : (c == sep) = true
    · rw [if_pos hc] at hsplit
      refine ⟨[], part :: parts, hsplit, ?_⟩
      rw [splitByte, hsplit]
    · rw [if_neg hc] at hsplit
      refine ⟨c :: part, parts, hsplit, ?_⟩
      rw [splitByte, hsplit]

theorem splitByte_ne_nil (sep : Byte) (t : Text) : splitByte sep t ≠ [] := by
  obtain ⟨part, parts, h, -⟩ := splitByte_cons sep sep t
  rw [h]
  exact List.cons_ne_nil part parts

/-- No part has the byte at which it was split in it. -/
theorem not_mem_of_mem_splitByte {t part : Text} (h : part ∈ splitByte sep t) : sep ∉ part := by
  induction t generalizing part with
  | nil =>
    cases List.mem_singleton.mp h
    exact List.not_mem_nil
  | cons b rest ih =>
    obtain ⟨first, parts, hrest, hsplit⟩ := splitByte_cons sep b rest
    have hall : ∀ p ∈ first :: parts, sep ∉ p := fun p hp => ih (hrest ▸ hp)
    rw [hsplit] at h
    split at h
    next =>
      rcases List.mem_cons.mp h with rfl | h
      · exact List.not_mem_nil
      · exact hall part h
    next hb =>
      rcases List.mem_cons.mp h with rfl | h
      · rw [List.mem_cons, not_or]
        exact ⟨fun hsep => hb (beq_iff_eq.mpr hsep.symm), hall first (List.mem_cons_self ..)⟩
      · exact hall part (List.mem_cons_of_mem _ h)

theorem splitByte_of_not_mem {t : Text} (h : sep ∉ t) : splitByte sep t = [t] := by
  induction t with
  | nil => rfl
  | cons b rest ih =>
    rw [List.mem_cons, not_or] at h
    obtain ⟨part, parts, hrest, hsplit⟩ := splitByte_cons sep b rest
    obtain ⟨rfl, rfl⟩ : part = rest ∧ parts = [] := by simpa using hrest.symm.trans (ih h.2)
    have hb : ¬(b == sep) = true := fun hb => h.1 (beq_iff_eq.mp hb).symm
    rw [hsplit, if_neg hb]

theorem splitByte_append {first : Text} (h : sep ∉ first) (rest : Text) :
    splitByte sep (first ++ sep :: rest) = first :: splitByte sep rest := by
  induction first with
  | nil =>
    obtain ⟨part, parts, hrest, hsplit⟩ := splitByte_cons sep sep rest
    rw [List.nil_append, hsplit, if_pos (beq_self_eq_true sep), hrest]
  | cons b first ih =>
    rw [List.mem_cons, not_or] at h
    obtain ⟨part, parts, hrest, hsplit⟩ := splitByte_cons sep b (first ++ sep :: rest)
    obtain ⟨rfl, rfl⟩ : part = first ∧ parts = splitByte sep rest := by
      simpa using hrest.symm.trans (ih h.2)
    have hb : ¬(b == sep) = true := fun hb => h.1 (beq_iff_eq.mp hb).symm
    rw [List.cons_append, hsplit, if_neg hb]

theorem join_cons (sep : Text) (part : Text) {parts : List Text} (h : parts ≠ []) :
    join sep (part :: parts) = part ++ sep ++ join sep parts := by
  cases parts with
  | nil => exact absurd rfl h
  | cons next rest => rfl

theorem join_append (sep : Text) {parts others : List Text} (hparts : parts ≠ [])
    (hothers : others ≠ []) :
    join sep (parts ++ others) = join sep parts ++ sep ++ join sep others := by
  induction parts with
  | nil => exact absurd rfl hparts
  | cons part parts ih =>
    cases parts with
    | nil => exact join_cons sep part hothers
    | cons next rest =>
      have hnext : next :: rest ≠ [] := List.cons_ne_nil next rest
      have hrest : (next :: rest) ++ others ≠ [] := List.cons_ne_nil next (rest ++ others)
      rw [List.cons_append, join_cons sep part hrest, join_cons sep part hnext, ih hnext]
      simp only [List.append_assoc]

/-- The bytes of a text put together again. -/
theorem join_bytes (t : Text) : join [] (t.map ([·])) = t := by
  induction t with
  | nil => rfl
  | cons b rest ih =>
    cases rest with
    | nil => rfl
    | cons c rest =>
      have hrest : (c :: rest).map ([·]) ≠ [] := List.cons_ne_nil _ _
      rw [List.map_cons, join_cons [] [b] hrest, ih]
      rfl

theorem splitByte_join {parts : List Text} (hne : parts ≠ []) (h : ∀ part ∈ parts, sep ∉ part) :
    splitByte sep (join [sep] parts) = parts := by
  induction parts with
  | nil => exact absurd rfl hne
  | cons part parts ih =>
    rw [List.forall_mem_cons] at h
    cases parts with
    | nil => exact splitByte_of_not_mem h.1
    | cons next rest =>
      have hnext : next :: rest ≠ [] := List.cons_ne_nil next rest
      have hjoin : join [sep] (part :: next :: rest) = part ++ sep :: join [sep] (next :: rest) := by
        simp [join_cons [sep] part hnext]
      rw [hjoin, splitByte_append h.1, ih hnext h.2]

theorem join_splitByte (sep : Byte) (t : Text) : join [sep] (splitByte sep t) = t := by
  induction t with
  | nil => rfl
  | cons b rest ih =>
    obtain ⟨part, parts, hrest, hsplit⟩ := splitByte_cons sep b rest
    rw [hrest] at ih
    rw [hsplit]
    split
    next hb =>
      rw [join_cons [sep] [] (List.cons_ne_nil part parts), ih, beq_iff_eq.mp hb]
      rfl
    next =>
      cases parts with
      | nil => rw [← ih]; rfl
      | cons next others =>
        rw [join_cons [sep] _ (List.cons_ne_nil next others), ← ih,
          join_cons [sep] _ (List.cons_ne_nil next others)]
        rfl

theorem before_append (t : Text) {more : Text} (h : more ≠ []) : before t (t ++ more) = true := by
  induction t with
  | nil =>
    cases more with
    | nil => exact absurd rfl h
    | cons b rest => rfl
  | cons b rest ih =>
    have hself : compare b b = .eq := Std.ReflOrd.compare_self
    unfold before at ih ⊢
    rwa [List.cons_append, List.compare_cons_cons, hself, Ordering.eq_then]

end Text
end EntityMachines

/-!
Splitting a text at the occurrences of a delimiter and replacing the occurrences find the same ones:
to replace them is to join the parts with the replacement. Main statements: this equation, that
joining with the delimiter itself gives the text back, and that no part has the delimiter in it.
-/
namespace EntityMachines
namespace Text

variable {d t part : Text} {b : Byte} {rest : Text}

theorem startsWith_iff : startsWith t d = true ↔ d <+: t := List.isPrefixOf_iff_prefix

/-! What the two scans do with a byte that they do not skip: a delimiter begins with it, or it is
kept. -/

theorem splitFrom_hit (part : Text) (h : d <+: b :: rest) :
    splitFrom d 0 part (b :: rest) = part.reverse :: splitFrom d (d.length - 1) [] rest := by
  rw [splitFrom, if_neg (not_not.mpr rfl), if_pos (startsWith_iff.mpr h)]

theorem splitFrom_miss (part : Text) (h : ¬d <+: b :: rest) :
    splitFrom d 0 part (b :: rest) = splitFrom d 0 (b :: part) rest := by
  rw [splitFrom, if_neg (not_not.mpr rfl), if_neg (mt startsWith_iff.mp h)]

theorem replaceFrom_hit (r : Text) (h : d <+: b :: rest) :
    replaceFrom d r 0 (b :: rest) = r ++ replaceFrom d r (d.length - 1) rest := by
  rw [replaceFrom, if_neg (not_not.mpr rfl), if_pos (startsWith_iff.mpr h)]

theorem replaceFrom_miss (r : Text) (h : ¬d <+: b :: rest) :
    replaceFrom d r 0 (b :: rest) = b :: replaceFrom d r 0 rest := by
  rw [replaceFrom, if_neg (not_not.mpr rfl), if_neg (mt startsWith_iff.mp h)]

theorem splitFrom_ne_nil (d : Text) (skip : Nat) (part t : Text) : splitFrom d skip part t ≠ [] := by
  induction t generalizing skip part with
  | nil => exact List.cons_ne_nil _ _
  | cons b rest ih =>
    cases skip with
    | succ skip => exact ih skip part
    | zero =>
      by_cases hit : d <+: b :: rest
      · rw [splitFrom_hit part hit]
        exact List.cons_ne_nil _ _
      · rw [splitFrom_miss part hit]
        exact ih 0 (b :: part)

theorem join_splitFrom (d r : Text) (skip : Nat) (part t : Text) :
    join r (splitFrom d skip part t) = part.reverse ++ replaceFrom d r skip t := by
  induction t generalizing skip part with
  | nil => exact (List.append_nil _).symm
  | cons b rest ih =>
    cases skip with
    | succ skip => exact ih skip part
    | zero =>
      by_cases hit : d <+: b :: rest
      · rw [splitFrom_hit part hit, replaceFrom_hit r hit,
          join_cons r _ (splitFrom_ne_nil d _ _ _), ih, List.reverse_nil, List.nil_append,
          List.append_assoc]
      · rw [splitFrom_miss part hit, replaceFrom_miss r hit, ih, List.reverse_cons,
          List.append_assoc]
        rfl

/-- An occurrence replaced by itself; what is skipped of one that is found is not written again. -/
theorem replaceFrom_self (hd : d ≠ []) (skip : Nat) (t : Text) :
    replaceFrom d d skip t = t.drop skip := by
  induction t generalizing skip with
  | nil => exact List.drop_nil.symm
  | cons b rest ih =>
    cases skip with
    | succ skip => exact ih skip
    | zero =>
      by_cases hit : d <+: b :: rest
      · obtain ⟨behind, hbehind⟩ := hit
        obtain ⟨c, tail, rfl⟩ := List.exists_cons_of_ne_nil hd
        obtain ⟨rfl, rfl⟩ := List.cons.inj hbehind
        rw [replaceFrom_hit _ ⟨behind, rfl⟩, ih]
        show (c :: tail) ++ (tail ++ behind).drop tail.length = _
        rw [List.drop_left]
        rfl
      · rw [replaceFrom_miss _ hit, ih]
        rfl

/-- No occurrence of a delimiter begins in what has been read of a part. -/
def Clear (d part t : Text) : Prop :=
  ∀ back, back <:+ part.reverse → back ≠ [] → ¬d <+: back ++ t

theorem clear_nil (d t : Text) : Clear d [] t := fun _ hback hne =>
  absurd (List.suffix_nil.mp hback) hne

theorem Clear.push (h : Clear d part (b :: rest)) (hmiss : ¬d <+: b :: rest) :
    Clear d (b :: part) rest := by
  intro back hback hne
  rw [List.reverse_cons, List.suffix_concat_iff] at hback
  obtain hnil | ⟨front, rfl, hfront⟩ := hback
  · exact absurd hnil hne
  · rw [List.append_assoc]
    by_cases hempty : front = []
    · rw [hempty]
      exact hmiss
    · exact h front hfront hempty

/-- An occurrence inside of a part would begin in it. -/
theorem Clear.not_within (hd : d ≠ []) (h : Clear d part t) : ¬d <:+: part.reverse := by
  intro hinfix
  obtain ⟨back, hfront, hback⟩ := List.infix_iff_prefix_suffix.mp hinfix
  have hne : back ≠ [] := fun hnil => hd (List.prefix_nil.mp (hnil ▸ hfront))
  exact h back hback hne (hfront.trans (List.prefix_append back t))

theorem not_infix_of_mem_splitFrom (hd : d ≠ []) (skip : Nat) (part t : Text)
    (hclear : skip = 0 → Clear d part t) (hpart : skip ≠ 0 → part = []) :
    ∀ p ∈ splitFrom d skip part t, ¬d <:+: p := by
  induction t generalizing skip part with
  | nil =>
    intro p hp
    obtain rfl := List.mem_singleton.mp hp
    cases skip with
    | zero => exact (hclear rfl).not_within hd
    | succ skip =>
      rw [hpart (Nat.succ_ne_zero skip)]
      exact (clear_nil d []).not_within hd
  | cons b rest ih =>
    cases skip with
    | succ skip =>
      obtain rfl := hpart (Nat.succ_ne_zero skip)
      exact ih skip [] (fun _ => clear_nil d rest) fun _ => rfl
    | zero =>
      by_cases hit : d <+: b :: rest
      · rw [splitFrom_hit part hit, List.forall_mem_cons]
        exact ⟨(hclear rfl).not_within hd,
          ih _ [] (fun _ => clear_nil d rest) fun _ => rfl⟩
      · rw [splitFrom_miss part hit]
        exact ih 0 (b :: part) (fun _ => (hclear rfl).push hit) fun hne => absurd rfl hne

theorem splitOn_of_ne_nil (hd : d ≠ []) (t : Text) : splitOn t d = splitFrom d 0 [] t :=
  if_neg (by simpa using hd)

theorem not_infix_of_mem_splitOn (hd : d ≠ []) (h : part ∈ splitOn t d) : ¬d <:+: part := by
  rw [splitOn_of_ne_nil hd] at h
  exact not_infix_of_mem_splitFrom hd 0 [] t (fun _ => clear_nil d t) (fun _ => rfl) part h

theorem replaceAll_eq_join (hd : d ≠ []) (t r : Text) :
    replaceAll t d r = join r (splitOn t d) := by
  rw [splitOn_of_ne_nil hd, join_splitFrom, replaceAll, if_neg (by simpa using hd)]
  rfl

theorem join_splitOn (t d : Text) : join d (splitOn t d) = t := by
  by_cases hd : d = []
  · subst hd
    exact join_bytes t
  · rw [splitOn_of_ne_nil hd, join_splitFrom, replaceFrom_self hd]
    rfl

/-- Of two occurrences that overlap only the first one counts. -/
example : splitOn [97, 97, 97, 97, 97] [97, 97] = [[], [], [97]] := by decide

/-! Texts somewhere in texts, and blanks around them. -/

theorem contains_iff (t d : Text) : t.contains d = true ↔ d <:+: t := by
  unfold contains
  induction t with
  | nil =>
    unfold indexOf?
    cases d <;> simp
  | cons b rest ih =>
    unfold indexOf?
    by_cases hfront : d.isPrefixOf (b :: rest) = true
    · rw [if_pos hfront]
      exact iff_of_true rfl (List.isPrefixOf_iff_prefix.mp hfront).isInfix
    · rw [if_neg hfront, Option.isSome_map, ih, List.infix_cons_iff]
      exact (or_iff_right (mt List.isPrefixOf_iff_prefix.mpr hfront)).symm

theorem dropWhile_eq_self {p : Byte → Bool} (h : ∀ b ∈ t.head?, p b = false) :
    t.dropWhile p = t := by
  cases t with
  | nil => rfl
  | cons b rest => exact List.dropWhile_cons_of_neg (Bool.eq_false_iff.mp (h b rfl))

theorem trimStart_append {front : Text} (hfront : ∀ b ∈ front, b.isSpace = true)
    (hfirst : ∀ b ∈ t.head?, b.isSpace = false) : (front ++ t).trimStart = t := by
  unfold trimStart
  rw [List.dropWhile_append_of_pos hfront, dropWhile_eq_self hfirst]

theorem trimEnd_append {behind : Text} (hbehind : ∀ b ∈ behind, b.isSpace = true)
    (hlast : ∀ b ∈ t.getLast?, b.isSpace = false) : (t ++ behind).trimEnd = t := by
  unfold trimEnd
  rw [List.reverse_append, List.dropWhile_append_of_pos (by simpa using hbehind),
    dropWhile_eq_self (by simpa using hlast), List.reverse_reverse]

/-- Behind what trimming leaves of a text are only blanks. -/
theorem exists_trimStart_eq (t : Text) :
    ∃ behind : Text, (∀ b ∈ behind, b.isSpace = true) ∧ t.trimStart = t.trim ++ behind :=
  ⟨t.trimStart.rtakeWhile Byte.isSpace, fun _ h => List.mem_rtakeWhile_imp h,
    List.rdropWhile_append_rtakeWhile.symm⟩

end Text
end EntityMachines
