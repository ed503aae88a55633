import EntityMachines.Proofs.Numeral.Order
import EntityMachines.Proofs.Table
import EntityMachines.Proofs.Value.Parts
import EntityMachines.Value.Equality
import Mathlib.Data.List.Forall2

/-!
Equality of values. It is symmetric and transitive, and a value equals itself unless it has a number
that is none. Maps are compared entry by entry, which is the same as to look up the keys of one of
them in the other if there are equally many.
-/
namespace EntityMachines
namespace Value

open List (Forall₂)
open Numeral (beq_iff)

/-- All numbers in the value are numbers. -/
def IsNumeric (v : Value) : Prop := ∀ x, number x ∈ v.parts → x.isNaN = false

theorem isNumeric_array {items : List Value} :
    IsNumeric (array items) ↔ ∀ item ∈ items, IsNumeric item := by
  refine ⟨fun h item hitem x hx => h x (mem_parts_of_item hitem hx), fun h x hx => ?_⟩
  rcases mem_parts_array.mp hx with heq | ⟨item, hitem, hx⟩
  · cases heq
  · exact h item hitem x hx

theorem isNumeric_map {entries : List (Text × Value)} :
    IsNumeric (map entries) ↔ ∀ entry ∈ entries, IsNumeric entry.2 := by
  refine ⟨fun h entry hentry x hx => h x (mem_parts_of_member hentry hx), fun h x hx => ?_⟩
  rcases mem_parts_map.mp hx with heq | ⟨entry, hentry, hx⟩
  · cases heq
  · exact h entry hentry x hx

/-- Entries of maps with one key and equal items. -/
def Alike (a b : Text × Value) : Prop := a.1 = b.1 ∧ a.2.equal b.2 = true

theorem equal_array_iff {xs ys : List Value} :
    (array xs).equal (array ys) = true ↔ Forall₂ (fun x y => x.equal y = true) xs ys := by
  rw [equal]
  induction xs generalizing ys with
  | nil => cases ys <;> simp [equalItems]
  | cons x xs ih => cases ys <;> simp [equalItems, ih]

theorem equal_map_iff {m n : List (Text × Value)} :
    (map m).equal (map n) = true ↔ Forall₂ Alike m n := by
  rw [equal]
  induction m generalizing n with
  | nil => cases n <;> simp [equalEntries]
  | cons entry m ih => cases n <;> simp [equalEntries, ih, Alike]

section laws

variable {α : Type} {R : α → α → Prop} {as bs cs : List α}

/-- What is symmetric for the members of one list is symmetric for it and any other. -/
theorem forall₂_comm (h : ∀ a ∈ as, ∀ b, R a b ↔ R b a) : Forall₂ R as bs ↔ Forall₂ R bs as := by
  induction as generalizing bs with
  | nil => cases bs <;> simp
  | cons a as ih =>
    obtain ⟨ha, has⟩ := List.forall_mem_cons.mp h
    cases bs with
    | nil => simp
    | cons b bs => rw [List.forall₂_cons, List.forall₂_cons, ha, ih has]

theorem forall₂_trans (h : ∀ a ∈ as, ∀ b c, R a b → R b c → R a c) (hab : Forall₂ R as bs)
    (hbc : Forall₂ R bs cs) : Forall₂ R as cs := by
  induction hab generalizing cs with
  | nil => exact hbc
  | cons hab _ ih =>
    obtain ⟨ha, has⟩ := List.forall_mem_cons.mp h
    cases hbc with
    | cons hbc htail => exact .cons (ha _ _ hab hbc) (ih has htail)

theorem map_eq_of_forall₂ {β : Type} {f : α → β} (h : ∀ a ∈ as, ∀ b, R a b → f a = f b)
    (hab : Forall₂ R as bs) : as.map f = bs.map f := by
  induction hab with
  | nil => rfl
  | cons hab _ ih =>
    obtain ⟨ha, has⟩ := List.forall_mem_cons.mp h
    rw [List.map_cons, List.map_cons, ha _ hab, ih has]

theorem beq_comm (x y : Float) : (x == y) = (y == x) := by
  rw [Bool.eq_iff_iff, beq_iff, beq_iff]
  exact ⟨fun ⟨hx, hy, h⟩ => ⟨hy, hx, h.symm⟩, fun ⟨hy, hx, h⟩ => ⟨hx, hy, h.symm⟩⟩

theorem equal_comm (u v : Value) : u.equal v = v.equal u := by
  induction u using inductionOn generalizing v with
  | undefined | null => cases v <;> rfl
  | bool b | string s | closure i => cases v <;> simp [equal, BEq.comm]
  | number x => cases v <;> simp [equal, beq_comm]
  | array xs ih =>
    cases v with
    | array ys =>
      rw [Bool.eq_iff_iff, equal_array_iff, equal_array_iff]
      exact forall₂_comm fun x hx y => by rw [ih x hx y]
    | _ => rfl
  | map m ih =>
    cases v with
    | map n =>
      rw [Bool.eq_iff_iff, equal_map_iff, equal_map_iff]
      exact forall₂_comm fun entry hentry other => by rw [Alike, Alike, ih entry hentry, eq_comm]
    | _ => rfl

theorem equal_trans {u v w : Value} (huv : u.equal v = true) (hvw : v.equal w = true) :
    u.equal w = true := by
  induction u using inductionOn generalizing v w with
  | undefined | null => cases v <;> first | exact hvw | cases huv
  | bool b | string s | closure i =>
    cases v <;> simp only [equal, beq_iff_eq, Bool.false_eq_true] at huv
    rw [huv]
    exact hvw
  | number x =>
    cases v with
    | number y =>
      cases w with
      | number z =>
        rw [equal, beq_iff] at *
        exact ⟨huv.1, hvw.2.1, huv.2.2.trans hvw.2.2⟩
      | _ => cases hvw
    | _ => cases huv
  | array xs ih =>
    cases v with
    | array ys =>
      cases w with
      | array zs =>
        rw [equal_array_iff] at *
        exact forall₂_trans (fun x hx y z => ih x hx) huv hvw
      | _ => cases hvw
    | _ => cases huv
  | map m ih =>
    cases v with
    | map n =>
      cases w with
      | map p =>
        rw [equal_map_iff] at *
        exact forall₂_trans
          (fun entry hentry _ _ h h' => ⟨h.1.trans h'.1, ih entry hentry h.2 h'.2⟩) huv hvw
      | _ => cases hvw
    | _ => cases huv

theorem equal_self_iff (v : Value) : v.equal v = true ↔ IsNumeric v := by
  induction v using inductionOn with
  | undefined | null | bool b | string s | closure i => simp [equal, IsNumeric, parts]
  | number x =>
    rw [equal, beq_iff]
    simp [IsNumeric, parts]
  | array xs ih =>
    rw [equal_array_iff, isNumeric_array, List.forall₂_same]
    exact forall₂_congr ih
  | map m ih =>
    rw [equal_map_iff, isNumeric_map, List.forall₂_same]
    exact forall₂_congr fun entry hentry => (and_iff_right rfl).trans (ih entry hentry)

end laws

section tables

variable {m n : Table Value}

theorem alike_of_keys (hm : m.Ordered) (hkeys : m.keys = n.keys)
    (h : ∀ entry ∈ m, ∃ y, n.find? entry.1 = some y ∧ entry.2.equal y = true) :
    Forall₂ Alike m n := by
  induction m generalizing n with
  | nil =>
    cases n with
    | nil => exact .nil
    | cons other n => cases hkeys
  | cons entry m ih =>
    cases n with
    | nil => cases hkeys
    | cons other n =>
      obtain ⟨k, x⟩ := entry
      obtain ⟨l, y⟩ := other
      obtain ⟨rfl, htail⟩ : k = l ∧ Table.keys m = Table.keys n := List.cons.inj hkeys
      obtain ⟨hafter, hm⟩ := List.pairwise_cons.mp hm
      obtain ⟨⟨_, hfind, hequal⟩, hrest⟩ := List.forall_mem_cons.mp h
      rw [Table.find?_cons_self] at hfind
      cases hfind
      refine .cons ⟨rfl, hequal⟩ (ih hm htail fun e he => ?_)
      have hfound := hrest e he
      rwa [Table.find?_cons_of_ne (Text.ne_of_before (hafter e he))] at hfound

theorem find?_of_alike (hm : m.Ordered) (h : Forall₂ Alike m n) :
    ∀ entry ∈ m, ∃ y, n.find? entry.1 = some y ∧ entry.2.equal y = true := by
  induction h with
  | nil => exact fun _ hentry => nomatch hentry
  | @cons entry other m n halike _ ih =>
    obtain ⟨k, x⟩ := entry
    obtain ⟨l, y⟩ := other
    obtain ⟨rfl, hequal⟩ : k = l ∧ x.equal y = true := halike
    obtain ⟨hafter, hm⟩ := List.pairwise_cons.mp hm
    refine List.forall_mem_cons.mpr ⟨⟨y, Table.find?_cons_self k y n, hequal⟩, fun e he => ?_⟩
    rw [Table.find?_cons_of_ne (Text.ne_of_before (hafter e he))]
    exact ih hm e he

/-- Only the keys of one side are looked up; that there are equally many does the rest. -/
theorem equal_map_iff_find? (hm : m.Ordered) (hn : n.Ordered) :
    (map m).equal (map n) = true ↔ m.length = n.length ∧
      ∀ entry ∈ m, ∃ y, n.find? entry.1 = some y ∧ entry.2.equal y = true := by
  rw [equal_map_iff]
  refine ⟨fun h => ⟨h.length_eq, find?_of_alike hm h⟩, fun ⟨hlength, h⟩ => ?_⟩
  refine alike_of_keys hm (hm.keys_eq hn hlength.ge fun key hkey => ?_) h
  obtain ⟨entry, hentry, rfl⟩ := List.mem_map.mp hkey
  obtain ⟨y, hfind, -⟩ := h entry hentry
  exact Table.mem_keys_of_find? hfind

end tables

end Value
end EntityMachines
