import EntityMachines.Table
import Mathlib.Data.List.Perm.Subperm

/-!
Ordered tables are determined by their lookups, and a lookup in an overlay is one in the table on
top or, where that has nothing, one below.
-/
namespace EntityMachines

theorem Text.before_trans {a b c : Text} (hab : before a b = true) (hbc : before b c = true) :
    before a c = true :=
  beq_iff_eq.mpr (Std.TransCmp.lt_trans (beq_iff_eq.mp hab) (beq_iff_eq.mp hbc))

theorem Text.ne_of_before {a b : Text} (h : before a b = true) : a ≠ b := by
  rintro rfl
  have hself : compare a a = .eq := Std.ReflOrd.compare_self
  unfold before at h
  rw [hself] at h
  cases h

theorem Text.not_before_of_before {a b : Text} (h : before a b = true) : ¬before b a = true :=
  fun h' => ne_of_before (before_trans h h') rfl

/-- Of two different texts that do not come in one order, the other order holds. -/
theorem Text.before_of_not_before {a b : Text} (hne : a ≠ b) (h : ¬before a b = true) :
    before b a = true := by
  cases hcompare : compare a b with
  | lt => exact absurd (beq_iff_eq.mpr hcompare) h
  | eq => exact absurd (Std.LawfulEqOrd.eq_of_compare hcompare) hne
  | gt => exact beq_iff_eq.mpr (Std.OrientedCmp.lt_of_gt hcompare)

namespace Table

variable {α : Type}

theorem find?_cons_self (key : Text) (x : α) (t : Table α) :
    find? ((key, x) :: t) key = some x := by
  simp [find?]

theorem find?_cons_of_ne {k key : Text} (h : k ≠ key) (x : α) (t : Table α) :
    find? ((k, x) :: t) key = find? t key := by
  simp [find?, h]

theorem find?_eq_none {t : Table α} {key : Text} (h : ∀ entry ∈ t, entry.1 ≠ key) :
    t.find? key = none := by
  induction t with
  | nil => rfl
  | cons entry rest ih =>
    rw [find?_cons_of_ne (h entry List.mem_cons_self)]
    exact ih fun e he => h e (List.mem_cons_of_mem entry he)

theorem Ordered.find?_tail {k : Text} {x : α} {t : Table α} (h : Ordered ((k, x) :: t)) :
    t.find? k = none := by
  have hafter := (List.pairwise_cons.mp h).1
  exact find?_eq_none fun entry hentry => (Text.ne_of_before (hafter entry hentry)).symm

/-- Before its first key an ordered table has nothing. -/
theorem Ordered.find?_before {k key : Text} {x : α} {t : Table α} (h : Ordered ((k, x) :: t))
    (hkey : Text.before key k = true) : find? ((k, x) :: t) key = none := by
  have hafter := (List.pairwise_cons.mp h).1
  refine find?_eq_none fun entry hentry => ?_
  rcases List.mem_cons.mp hentry with rfl | hentry
  · exact (Text.ne_of_before hkey).symm
  · exact (Text.ne_of_before (Text.before_trans hkey (hafter entry hentry))).symm

/-- Ordered tables with the same lookups are the same. -/
theorem Ordered.ext {t u : Table α} (ht : t.Ordered) (hu : u.Ordered)
    (h : ∀ key, t.find? key = u.find? key) : t = u := by
  induction t generalizing u with
  | nil =>
    cases u with
    | nil => rfl
    | cons entry u =>
      have hkey := h entry.1
      rw [find?_nil, find?_cons_self] at hkey
      cases hkey
  | cons entry t ih =>
    obtain ⟨k, x⟩ := entry
    have hk := h k
    rw [find?_cons_self] at hk
    cases u with
    | nil => cases hk
    | cons entry u =>
      obtain ⟨l, y⟩ := entry
      by_cases hkl : k = l
      · subst hkl
        rw [find?_cons_self, Option.some.injEq] at hk
        subst hk
        have htail : t = u := by
          refine ih (List.pairwise_cons.mp ht).2 (List.pairwise_cons.mp hu).2 fun key => ?_
          by_cases hkey : k = key
          · rw [← hkey, ht.find?_tail, hu.find?_tail]
          · have hrest := h key
            rwa [find?_cons_of_ne hkey, find?_cons_of_ne hkey] at hrest
        rw [htail]
      · -- The table whose first key comes first has a key that the other lacks.
        by_cases hbefore : Text.before k l = true
        · rw [hu.find?_before hbefore] at hk
          cases hk
        · have hl := h l
          rw [ht.find?_before (Text.before_of_not_before hkl hbefore), find?_cons_self] at hl
          cases hl

/-- Of the entries of an ordered table no two have one key. -/
theorem Ordered.eq_of_mem {t : Table α} (h : t.Ordered) {a b : Text × α}
    (ha : a ∈ t) (hb : b ∈ t) (hkey : a.1 = b.1) : a = b := by
  induction t with
  | nil => cases ha
  | cons entry rest ih =>
    obtain ⟨hafter, hrest⟩ := List.pairwise_cons.mp h
    rcases List.mem_cons.mp ha with rfl | hatail
    · rcases List.mem_cons.mp hb with rfl | hbtail
      · rfl
      · exact absurd hkey (Text.ne_of_before (hafter b hbtail))
    · rcases List.mem_cons.mp hb with rfl | hbtail
      · exact absurd hkey.symm (Text.ne_of_before (hafter a hatail))
      · exact ih hrest hatail hbtail

theorem mem_of_find?_eq_some {t : Table α} {key : Text} {x : α} (h : t.find? key = some x) :
    (key, x) ∈ t := by
  induction t with
  | nil => cases h
  | cons entry rest ih =>
    obtain ⟨k, y⟩ := entry
    by_cases hkey : k = key
    · subst hkey
      rw [find?_cons_self] at h
      cases h
      exact List.mem_cons_self
    · rw [find?_cons_of_ne hkey] at h
      exact List.mem_cons_of_mem _ (ih h)

theorem mem_keys_of_find? {t : Table α} {key : Text} {x : α} (h : t.find? key = some x) :
    key ∈ t.keys := List.mem_map_of_mem (mem_of_find?_eq_some h)

theorem Ordered.find?_eq_some_iff {t : Table α} (h : t.Ordered) {key : Text} {x : α} :
    t.find? key = some x ↔ (key, x) ∈ t := by
  refine ⟨mem_of_find?_eq_some, fun hmem => ?_⟩
  induction t with
  | nil => cases hmem
  | cons entry rest ih =>
    obtain ⟨k, y⟩ := entry
    obtain ⟨hafter, hrest⟩ := List.pairwise_cons.mp h
    rcases List.mem_cons.mp hmem with hfirst | htail
    · cases hfirst
      exact find?_cons_self key x rest
    · rw [find?_cons_of_ne (Text.ne_of_before (hafter _ htail))]
      exact ih hrest htail

theorem Ordered.pairwise_keys {t : Table α} (h : t.Ordered) :
    t.keys.Pairwise fun a b => Text.before a b = true := List.pairwise_map.mpr h

/-- Ordered tables of which one has no more entries than the other and all its keys have the same
keys. -/
theorem Ordered.keys_eq {t u : Table α} (ht : t.Ordered) (hu : u.Ordered)
    (hlength : u.length ≤ t.length) (hkeys : t.keys ⊆ u.keys) : t.keys = u.keys := by
  have hnodup : t.keys.Nodup := ht.pairwise_keys.imp Text.ne_of_before
  have hperm : t.keys.Perm u.keys := by
    refine (List.subperm_of_subset hnodup hkeys).perm_of_length_le ?_
    rw [keys, keys, List.length_map, List.length_map]
    exact hlength
  exact hperm.eq_of_pairwise
    (fun a b _ _ hab hba => absurd hba (Text.not_before_of_before hab))
    ht.pairwise_keys hu.pairwise_keys

theorem insert_insert (t : Table α) (key : Text) (x y : α) :
    (t.insert key x).insert key y = t.insert key y := by
  induction t with
  | nil => simp [insert]
  | cons entry rest ih =>
    obtain ⟨k, v⟩ := entry
    by_cases hk : k = key
    · simp [insert, hk]
    · by_cases hbefore : Text.before key k = true
      · simp [insert, hk, hbefore]
      · simp [insert, hk, hbefore, ih]

/-- Entries under two keys may be put in either order. -/
theorem insert_comm (t : Table α) {key other : Text} (h : key ≠ other) (x y : α) :
    (t.insert key x).insert other y = (t.insert other y).insert key x := by
  have htotal : Text.before other key = !Text.before key other := by
    cases hbefore : Text.before key other with
    | true => simpa using Text.not_before_of_before hbefore
    | false => exact Text.before_of_not_before h (by simp [hbefore])
  induction t with
  | nil => cases hbefore : Text.before key other <;> simp [insert, h, h.symm, htotal, hbefore]
  | cons entry rest ih =>
    obtain ⟨k, v⟩ := entry
    grind [insert, Text.before_trans, Text.ne_of_before]

theorem mem_insert {t : Table α} {key : Text} {x : α} {entry : Text × α}
    (h : entry ∈ t.insert key x) : entry ∈ t ∨ entry = (key, x) := by
  induction t with
  | nil => exact .inr (List.mem_singleton.mp h)
  | cons first rest ih =>
    obtain ⟨k, v⟩ := first
    simp only [insert] at h
    split at h
    · rcases List.mem_cons.mp h with hentry | hentry
      · exact .inr hentry
      · exact .inl (List.mem_cons_of_mem _ hentry)
    · split at h
      · rcases List.mem_cons.mp h with hentry | hentry
        · exact .inr hentry
        · exact .inl hentry
      · rcases List.mem_cons.mp h with hentry | hentry
        · rw [hentry]
          exact .inl List.mem_cons_self
        · exact (ih hentry).imp_left (List.mem_cons_of_mem _)

theorem mem_overlay {base top : Table α} {entry : Text × α} (h : entry ∈ overlay base top) :
    entry ∈ base ∨ entry ∈ top := by
  unfold overlay at h
  induction top generalizing base with
  | nil => exact .inl h
  | cons first rest ih =>
    rcases ih h with hbase | hrest
    · rcases mem_insert hbase with hold | hnew
      · exact .inl hold
      · rw [hnew]
        exact .inr List.mem_cons_self
    · exact .inr (List.mem_cons_of_mem _ hrest)

theorem Ordered.insert {t : Table α} (h : t.Ordered) (key : Text) (x : α) :
    (t.insert key x).Ordered := by
  induction t with
  | nil => exact List.pairwise_singleton _ _
  | cons first rest ih =>
    obtain ⟨k, v⟩ := first
    obtain ⟨hafter, hrest⟩ := List.pairwise_cons.mp h
    unfold Table.insert
    split
    · rename_i hk
      rw [beq_iff_eq] at hk
      subst hk
      exact List.pairwise_cons.mpr ⟨hafter, hrest⟩
    · rename_i hk
      rw [beq_iff_eq] at hk
      split
      · rename_i hbefore
        refine List.pairwise_cons.mpr ⟨fun entry hentry => ?_, h⟩
        rcases List.mem_cons.mp hentry with rfl | hentry
        · exact hbefore
        · exact Text.before_trans hbefore (hafter entry hentry)
      · rename_i hbefore
        refine List.pairwise_cons.mpr ⟨fun entry hentry => ?_, ih hrest⟩
        rcases mem_insert hentry with hold | rfl
        · exact hafter entry hold
        · exact Text.before_of_not_before (Ne.symm hk) hbefore

/-- An entry is put in the place of the one that has its key. -/
theorem insert_perm {t : Table α} (h : t.Ordered) (key : Text) (x : α) :
    (t.insert key x).Perm ((key, x) :: t.filter fun entry => entry.1 != key) := by
  induction t with
  | nil => exact .refl _
  | cons first rest ih =>
    obtain ⟨k, v⟩ := first
    have hafter := (List.pairwise_cons.mp h).1
    unfold Table.insert
    split
    next hk =>
      obtain rfl := beq_iff_eq.mp hk
      rw [List.filter_cons_of_neg (by simp), List.filter_eq_self.mpr]
      exact fun entry hentry => bne_iff_ne.mpr (Text.ne_of_before (hafter entry hentry)).symm
    next hk =>
      rw [beq_iff_eq] at hk
      rw [List.filter_cons_of_pos (by simpa using hk)]
      split
      next hbefore =>
        rw [List.filter_eq_self.mpr fun entry hentry => bne_iff_ne.mpr (Text.ne_of_before
          (Text.before_trans hbefore (hafter entry hentry))).symm]
      next => exact ((ih (List.pairwise_cons.mp h).2).cons (k, v)).trans (.swap _ _ _)

theorem Ordered.overlay {base : Table α} (h : base.Ordered) (top : Table α) :
    (base.overlay top).Ordered := by
  unfold Table.overlay
  induction top generalizing base with
  | nil => exact h
  | cons entry top ih => exact ih (h.insert entry.1 entry.2)

theorem ordered_ofEntries (entries : List (Text × α)) : (ofEntries entries).Ordered :=
  Ordered.overlay List.Pairwise.nil entries

theorem overlay_cons (base top : Table α) (entry : Text × α) :
    base.overlay (entry :: top) = (base.insert entry.1 entry.2).overlay top := rfl

/-- Entries with other keys are of no matter. -/
theorem find?_overlay_of_ne {top : Table α} {key : Text} (h : ∀ entry ∈ top, entry.1 ≠ key)
    (base : Table α) : (base.overlay top).find? key = base.find? key := by
  induction top generalizing base with
  | nil => rfl
  | cons entry top ih =>
    rw [overlay_cons, ih fun e he => h e (List.mem_cons_of_mem entry he)]
    exact find?_insert_of_ne base entry.2 (h entry List.mem_cons_self)

/-- The last entry with a key counts. -/
theorem find?_ofEntries_of_last {before after : List (Text × α)} {key : Text} {x : α}
    (h : ∀ entry ∈ after, entry.1 ≠ key) :
    (ofEntries (before ++ (key, x) :: after)).find? key = some x := by
  have happend : ofEntries (before ++ (key, x) :: after) =
      ((ofEntries before).insert key x).overlay after := by
    simp [ofEntries, overlay]
  rw [happend, find?_overlay_of_ne h, find?_insert_self]

theorem find?_overlay {top : Table α} (h : top.Ordered) (base : Table α) (key : Text) :
    (base.overlay top).find? key = (top.find? key).or (base.find? key) := by
  induction top generalizing base with
  | nil => rfl
  | cons entry top ih =>
    obtain ⟨k, x⟩ := entry
    rw [overlay_cons, ih (List.pairwise_cons.mp h).2]
    by_cases hkey : k = key
    · subst hkey
      rw [h.find?_tail, find?_cons_self, find?_insert_self]
      rfl
    · rw [find?_insert_of_ne _ _ hkey, find?_cons_of_ne hkey]

/-- What lies below already decides nothing where a table lies over itself. -/
theorem overlay_overlay {base top : Table α} (hbase : base.Ordered) (htop : top.Ordered) :
    base.overlay (base.overlay top) = base.overlay top := by
  refine Ordered.ext (hbase.overlay _) (hbase.overlay _) fun key => ?_
  rw [find?_overlay (hbase.overlay top), find?_overlay htop, Option.or_assoc, Option.or_self]

end Table
end EntityMachines
