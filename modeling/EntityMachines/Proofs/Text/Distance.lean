import EntityMachines.Text.Search
import Mathlib.Data.List.Induction
import Mathlib.Order.Bounds.Defs
import Mathlib.Order.MinMax

/-!
The distance between texts by the edits that lead from one to the other. Main statement: no row of
edits is shorter than the distance, and one is as long, so that the distance is a metric.
-/
namespace EntityMachines
namespace Text

/-- A single byte is inserted, deleted or substituted. -/
inductive Edit : Text → Text → Prop
  | insertion (front : Text) (y : Byte) (back : Text) : Edit (front ++ back) (front ++ y :: back)
  | deletion (front : Text) (x : Byte) (back : Text) : Edit (front ++ x :: back) (front ++ back)
  | substitution (front : Text) (x y : Byte) (back : Text) :
      Edit (front ++ x :: back) (front ++ y :: back)

/-- So many edits, one after the other, turn a text into another. -/
inductive Edits : Nat → Text → Text → Prop
  | none (a : Text) : Edits 0 a a
  | more {n : Nat} {a b c : Text} (before : Edits n a b) (edit : Edit b c) : Edits (n + 1) a c

/-!
The cells of the rows. A byte more at the end of the second text is a cell more at the end of each
row, and the cells before it stay.
-/

/-- The row behind the bytes of a text. -/
def rowBehind (a b : Text) : List Nat := a.foldl (nextRow b) (firstRow b)

theorem rowBehind_append (a b : Text) (x : Byte) :
    rowBehind (a ++ [x]) b = nextRow b (rowBehind a b) x := List.foldl_append ..

theorem nextCells_append (x y : Byte) {b : Text} {row : List Nat} (left diagonal above : Nat)
    (h : row.length = b.length) :
    nextCells x left diagonal (b ++ [y]) (row ++ [above]) = nextCells x left diagonal b row ++
      [min (min (above + 1) ((nextCells x left diagonal b row).getLastD left + 1))
        (row.getLastD diagonal + if x = y then 0 else 1)] := by
  induction b generalizing row left diagonal with
  | nil =>
    obtain rfl := List.length_eq_zero_iff.mp h
    rfl
  | cons z rest ih =>
    cases row with
    | nil => cases h
    | cons cell row =>
      simp only [List.cons_append, nextCells, List.getLastD_cons, ih _ _ (Nat.succ.inj h)]

theorem length_nextCells (x : Byte) {b : Text} {row : List Nat} (left diagonal : Nat)
    (h : row.length = b.length) : (nextCells x left diagonal b row).length = b.length := by
  induction b generalizing row left diagonal with
  | nil => rfl
  | cons z rest ih =>
    cases row with
    | nil => cases h
    | cons cell row => simp only [nextCells, List.length_cons, ih _ _ (Nat.succ.inj h)]

theorem exists_rowBehind (a b : Text) :
    ∃ first cells, rowBehind a b = first :: cells ∧ cells.length = b.length := by
  induction a using List.reverseRecOn with
  | nil => exact ⟨0, _, List.range_succ_eq_map, by simp⟩
  | append_singleton a x ih =>
    obtain ⟨first, cells, hrow, hlength⟩ := ih
    refine ⟨first + 1, nextCells x (first + 1) first b cells, ?_, length_nextCells _ _ _ hlength⟩
    rw [rowBehind_append, hrow]
    rfl

/-- The row of a text with one byte more at the end. -/
theorem nextRow_append (x y : Byte) {b : Text} (first above : Nat) {cells : List Nat}
    (h : cells.length = b.length) :
    nextRow (b ++ [y]) (first :: cells ++ [above]) x = nextRow b (first :: cells) x ++
      [min (min (above + 1) ((nextRow b (first :: cells) x).getLastD 0 + 1))
        ((first :: cells).getLastD 0 + if x = y then 0 else 1)] := by
  unfold nextRow
  simp only [List.cons_append, List.headD_cons, List.drop_succ_cons, List.drop_zero,
    List.getLastD_cons, nextCells_append x y _ _ _ h]

theorem exists_rowBehind_append (a b : Text) (y : Byte) :
    ∃ cell, rowBehind a (b ++ [y]) = rowBehind a b ++ [cell] := by
  induction a using List.reverseRecOn with
  | nil =>
    refine ⟨b.length + 1, ?_⟩
    show List.range ((b ++ [y]).length + 1) = List.range (b.length + 1) ++ [b.length + 1]
    rw [List.length_append, List.length_singleton, List.range_succ]
  | append_singleton a x ih =>
    obtain ⟨above, hrow⟩ := ih
    obtain ⟨first, cells, hfirst, hlength⟩ := exists_rowBehind a b
    rw [rowBehind_append, rowBehind_append, hrow, hfirst]
    exact ⟨_, nextRow_append x y first above hlength⟩

theorem rowBehind_append_right (a b : Text) (y : Byte) :
    rowBehind a (b ++ [y]) = rowBehind a b ++ [distance a (b ++ [y])] := by
  obtain ⟨cell, hrow⟩ := exists_rowBehind_append a b y
  have hcell : distance a (b ++ [y]) = cell := by
    show (rowBehind a (b ++ [y])).getLastD 0 = cell
    rw [hrow, List.getLastD_concat]
  rw [hcell, hrow]

/-! The distance by the last bytes of the texts. -/

theorem distance_nil_left (b : Text) : distance [] b = b.length := by
  show (List.range (b.length + 1)).getLastD 0 = b.length
  rw [List.range_succ, List.getLastD_concat]

theorem distance_nil_right (a : Text) : distance a [] = a.length := by
  have hrow : rowBehind a [] = [a.length] := by
    induction a using List.reverseRecOn with
    | nil => rfl
    | append_singleton a x ih =>
      rw [rowBehind_append, ih, List.length_append]
      rfl
  show (rowBehind a []).getLastD 0 = a.length
  rw [hrow]
  rfl

/-- Of three ways to deal with the last bytes of two texts the cheapest one is taken. -/
theorem distance_append (a b : Text) (x y : Byte) :
    distance (a ++ [x]) (b ++ [y]) =
      min (min (distance a (b ++ [y]) + 1) (distance (a ++ [x]) b + 1))
        (distance a b + if x = y then 0 else 1) := by
  obtain ⟨first, cells, hrow, hlength⟩ := exists_rowBehind a b
  have hcorner : distance a b = (first :: cells).getLastD 0 := congrArg (List.getLastD · 0) hrow
  have hleft : distance (a ++ [x]) b = (nextRow b (first :: cells) x).getLastD 0 := by
    rw [← hrow, ← rowBehind_append]
    rfl
  have hnext := nextRow_append x y first (distance a (b ++ [y])) hlength
  rw [← hrow, ← rowBehind_append_right, ← rowBehind_append, hrow, ← hcorner, ← hleft] at hnext
  show (rowBehind (a ++ [x]) (b ++ [y])).getLastD 0 = _
  rw [hnext, List.getLastD_concat]

theorem distance_append_left_le (a b : Text) (x : Byte) :
    distance (a ++ [x]) b ≤ distance a b + 1 := by
  induction b using List.reverseRecOn with
  | nil => simp [distance_nil_right]
  | append_singleton b y _ =>
    rw [distance_append]
    exact (min_le_left ..).trans (min_le_left ..)

theorem distance_append_right_le (a b : Text) (y : Byte) :
    distance a (b ++ [y]) ≤ distance a b + 1 := by
  induction a using List.reverseRecOn with
  | nil => simp [distance_nil_left]
  | append_singleton a x _ =>
    rw [distance_append]
    exact (min_le_left ..).trans (min_le_right ..)

theorem distance_self (a : Text) : distance a a = 0 := by
  induction a using List.reverseRecOn with
  | nil => rfl
  | append_singleton a x ih =>
    rw [distance_append, ih, if_pos rfl]
    exact Nat.min_zero _

/-!
One edit changes the distance by one at most. Where the edit is not at the end of the text, it is
an edit in front of the last byte.
-/

theorem distance_le_append_right (a b : Text) (y : Byte) :
    distance a b ≤ distance a (b ++ [y]) + 1 := by
  induction a using List.reverseRecOn with
  | nil =>
    rw [distance_nil_left, distance_nil_left, List.length_append]
    omega
  | append_singleton a x ih =>
    have habove := distance_append_left_le a b x
    rw [distance_append]
    omega

theorem distance_replace_last_le (a b : Text) (y z : Byte) :
    distance a (b ++ [z]) ≤ distance a (b ++ [y]) + 1 := by
  induction a using List.reverseRecOn with
  | nil => simp [distance_nil_left]
  | append_singleton a x ih =>
    have hfew : (if x = z then 0 else 1) ≤ 1 := by split <;> decide
    rw [distance_append, distance_append]
    omega

theorem distance_same_last_le {b c : Text} (h : ∀ a, distance a c ≤ distance a b + 1) (a : Text)
    (z : Byte) : distance a (c ++ [z]) ≤ distance a (b ++ [z]) + 1 := by
  induction a using List.reverseRecOn with
  | nil =>
    have hlength := h []
    rw [distance_nil_left, distance_nil_left] at hlength ⊢
    rw [List.length_append, List.length_append]
    omega
  | append_singleton a x ih =>
    have hcorner := h a
    have hleft := h (a ++ [x])
    rw [distance_append, distance_append]
    omega

theorem distance_same_end_le {b c : Text} (h : ∀ a, distance a c ≤ distance a b + 1)
    (back a : Text) : distance a (c ++ back) ≤ distance a (b ++ back) + 1 := by
  induction back using List.reverseRecOn generalizing a with
  | nil => simpa using h a
  | append_singleton back z ih =>
    rw [← List.append_assoc, ← List.append_assoc]
    exact distance_same_last_le ih a z

section edits

variable {a b c : Text} {m n : Nat}

namespace Edit

theorem distance_le (h : Edit b c) (a : Text) : distance a c ≤ distance a b + 1 := by
  cases h with
  | insertion front y back =>
    have hend := fun a => distance_append_right_le a front y
    simpa using distance_same_end_le hend back a
  | deletion front x back =>
    have hend := fun a => distance_le_append_right a front x
    simpa using distance_same_end_le hend back a
  | substitution front x y back =>
    have hend := fun a => distance_replace_last_le a front x y
    simpa using distance_same_end_le hend back a

theorem symm (h : Edit b c) : Edit c b := by
  cases h with
  | insertion front y back => exact .deletion front y back
  | deletion front x back => exact .insertion front x back
  | substitution front x y back => exact .substitution front y x back

theorem append (h : Edit b c) (back : Text) : Edit (b ++ back) (c ++ back) := by
  cases h with
  | insertion front y rest => simpa using Edit.insertion front y (rest ++ back)
  | deletion front x rest => simpa using Edit.deletion front x (rest ++ back)
  | substitution front x y rest => simpa using Edit.substitution front x y (rest ++ back)

end Edit

namespace Edits

/-- No row of edits is shorter than the distance. -/
theorem distance_le (h : Edits n a b) : distance a b ≤ n := by
  induction h with
  | none a => exact (distance_self a).le
  | more _ edit ih => exact (edit.distance_le _).trans (Nat.succ_le_succ ih)

theorem eq_of_zero (h : Edits 0 a b) : a = b := by
  cases h
  rfl

theorem trans (hab : Edits m a b) (hbc : Edits n b c) : Edits (m + n) a c := by
  induction hbc with
  | none => exact hab
  | more _ edit ih => exact .more (ih hab) edit

theorem symm (h : Edits n a b) : Edits n b a := by
  induction h with
  | none a => exact .none a
  | @more n a b c _ edit ih =>
    rw [Nat.add_comm]
    exact trans (.more (.none c) edit.symm) ih

/-- What is behind the texts is not edited. -/
theorem append (h : Edits n a b) (back : Text) : Edits n (a ++ back) (b ++ back) := by
  induction h with
  | none a => exact .none (a ++ back)
  | more _ edit ih => exact .more ih (edit.append back)

theorem insert_last (h : Edits n a b) (y : Byte) : Edits (n + 1) a (b ++ [y]) := by
  have hedit : Edit (b ++ []) (b ++ [y]) := .insertion b y []
  rw [List.append_nil] at hedit
  exact .more h hedit

theorem delete_last (h : Edits n a b) (x : Byte) : Edits (n + 1) (a ++ [x]) b :=
  (h.symm.insert_last x).symm

theorem replace_last (h : Edits n a b) (x y : Byte) :
    Edits (n + if x = y then 0 else 1) (a ++ [x]) (b ++ [y]) := by
  split
  next hsame =>
    rw [hsame]
    exact h.append [y]
  next => exact .more (h.append [x]) (.substitution b x y [])

end Edits

end edits

/-- The distance is the number of edits that the cells of the rows stand for. -/
theorem edits_distance (a b : Text) : Edits (distance a b) a b := by
  induction a using List.reverseRecOn generalizing b with
  | nil =>
    rw [distance_nil_left]
    induction b using List.reverseRecOn with
    | nil => exact .none []
    | append_singleton b y ih => exact List.length_append ▸ ih.insert_last y
  | append_singleton a x iha =>
    induction b using List.reverseRecOn with
    | nil =>
      have hdelete := (iha []).delete_last x
      rw [distance_nil_right] at hdelete ⊢
      rwa [List.length_append]
    | append_singleton b y ihb =>
      rw [distance_append]
      rcases min_choice (min (distance a (b ++ [y]) + 1) (distance (a ++ [x]) b + 1))
        (distance a b + if x = y then 0 else 1) with hmin | hmin
      · rw [hmin]
        rcases min_choice (distance a (b ++ [y]) + 1) (distance (a ++ [x]) b + 1) with hmin | hmin
        · rw [hmin]
          exact (iha (b ++ [y])).delete_last x
        · rw [hmin]
          exact ihb.insert_last y
      · rw [hmin]
        exact (iha b).replace_last x y

theorem distance_counts_edits (a b : Text) :
    IsLeast {n | Edits n a b} (distance a b) ∧ (distance a b = 0 ↔ a = b) ∧
      distance b a = distance a b ∧ ∀ c, distance a c ≤ distance a b + distance b c := by
  refine ⟨⟨edits_distance a b, fun n h => h.distance_le⟩, ⟨fun hzero => ?_, ?_⟩, ?_, fun c => ?_⟩
  · exact (hzero ▸ edits_distance a b : Edits 0 a b).eq_of_zero
  · rintro rfl
    exact distance_self a
  · exact le_antisymm (edits_distance a b).symm.distance_le (edits_distance b a).symm.distance_le
  · exact ((edits_distance a b).trans (edits_distance b c)).distance_le

example : distance "kitten" "sitting" = 3 := by decide

end Text
end EntityMachines
