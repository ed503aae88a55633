import EntityMachines.Value

/-!
Values by what is in them. The parts of a value are the value itself and, for arrays and maps, the
parts of what they hold.
-/
namespace EntityMachines
namespace Value

/-- Induction on values: what holds of all items holds of an array, what holds of all members of a
map. -/
theorem inductionOn {P : Value → Prop} (v : Value) (undefined : P undefined) (null : P null)
    (bool : ∀ b, P (bool b)) (number : ∀ x, P (number x)) (string : ∀ s, P (string s))
    (array : ∀ items, (∀ item ∈ items, P item) → P (array items))
    (map : ∀ entries, (∀ entry ∈ entries, P entry.2) → P (map entries))
    (closure : ∀ id, P (closure id)) : P v := by
  refine @Value.rec P (fun items => ∀ item ∈ items, P item)
    (fun entries => ∀ entry ∈ entries, P entry.2) (fun entry => P entry.2)
    undefined null bool number string array map closure ?_ ?_ ?_ ?_ ?_ v
  · intro item h
    cases h
  · intro item rest hitem hrest
    exact List.forall_mem_cons.mpr ⟨hitem, hrest⟩
  · intro entry h
    cases h
  · intro entry rest hentry hrest
    exact List.forall_mem_cons.mpr ⟨hentry, hrest⟩
  · intro key item hitem
    exact hitem

mutual

/-- A value and everything in it. -/
def parts : Value → List Value
  | array items => array items :: partsOfItems items
  | map entries => map entries :: partsOfEntries entries
  | v => [v]

def partsOfItems : List Value → List Value
  | [] => []
  | item :: rest => parts item ++ partsOfItems rest

def partsOfEntries : List (Text × Value) → List Value
  | [] => []
  | (_, item) :: rest => parts item ++ partsOfEntries rest

end

theorem mem_partsOfItems {u : Value} {items : List Value} :
    u ∈ partsOfItems items ↔ ∃ item ∈ items, u ∈ item.parts := by
  induction items with
  | nil => simp [partsOfItems]
  | cons item rest ih => simp [partsOfItems, ih]

theorem mem_partsOfEntries {u : Value} {entries : List (Text × Value)} :
    u ∈ partsOfEntries entries ↔ ∃ entry ∈ entries, u ∈ entry.2.parts := by
  induction entries with
  | nil => simp [partsOfEntries]
  | cons entry rest ih => simp [partsOfEntries, ih]

theorem mem_parts_array {u : Value} {items : List Value} :
    u ∈ (array items).parts ↔ u = array items ∨ ∃ item ∈ items, u ∈ item.parts := by
  simp [parts, mem_partsOfItems]

theorem mem_parts_map {u : Value} {entries : List (Text × Value)} :
    u ∈ (map entries).parts ↔ u = map entries ∨ ∃ entry ∈ entries, u ∈ entry.2.parts := by
  simp [parts, mem_partsOfEntries]

theorem mem_parts_of_item {u item : Value} {items : List Value} (h : item ∈ items)
    (hu : u ∈ item.parts) : u ∈ (array items).parts :=
  mem_parts_array.mpr (.inr ⟨item, h, hu⟩)

theorem mem_parts_of_member {u : Value} {entry : Text × Value} {entries : List (Text × Value)}
    (h : entry ∈ entries) (hu : u ∈ entry.2.parts) : u ∈ (map entries).parts :=
  mem_parts_map.mpr (.inr ⟨entry, h, hu⟩)

/-!
Whether two values are the same can be decided. This is finer than the equality of values in the
language, for which there are numbers that differ from themselves.
-/

mutual

def identical : Value → Value → Bool
  | undefined, undefined => true
  | null, null => true
  | bool a, bool b => a == b
  | number x, number y => decide (x = y)
  | string s, string t => s == t
  | array xs, array ys => identicalItems xs ys
  | map m, map n => identicalEntries m n
  | closure i, closure j => i == j
  | _, _ => false

def identicalItems : List Value → List Value → Bool
  | [], [] => true
  | x :: xs, y :: ys => identical x y && identicalItems xs ys
  | _, _ => false

def identicalEntries : List (Text × Value) → List (Text × Value) → Bool
  | [], [] => true
  | (k, x) :: m, (l, y) :: n => k == l && (identical x y && identicalEntries m n)
  | _, _ => false

end

theorem identicalItems_iff {xs : List Value} (h : ∀ x ∈ xs, ∀ y, x.identical y = true ↔ x = y)
    (ys : List Value) : identicalItems xs ys = true ↔ xs = ys := by
  induction xs generalizing ys with
  | nil => cases ys <;> simp [identicalItems]
  | cons x xs ih =>
    obtain ⟨hx, hxs⟩ := List.forall_mem_cons.mp h
    cases ys with
    | nil => simp [identicalItems]
    | cons y ys => simp [identicalItems, hx, ih hxs]

theorem identicalEntries_iff {m : List (Text × Value)}
    (h : ∀ entry ∈ m, ∀ y, entry.2.identical y = true ↔ entry.2 = y) (n : List (Text × Value)) :
    identicalEntries m n = true ↔ m = n := by
  induction m generalizing n with
  | nil => cases n <;> simp [identicalEntries]
  | cons entry m ih =>
    obtain ⟨hentry, hm⟩ := List.forall_mem_cons.mp h
    cases n with
    | nil => simp [identicalEntries]
    | cons other n => simp [identicalEntries, hentry, ih hm, Prod.ext_iff, and_assoc]

theorem identical_iff (v u : Value) : v.identical u = true ↔ v = u := by
  induction v using inductionOn generalizing u with
  | undefined | null => cases u <;> simp [identical]
  | bool b | number x | string s | closure id => cases u <;> simp [identical]
  | array items ih => cases u <;> simp [identical, identicalItems_iff ih]
  | map entries ih => cases u <;> simp [identical, identicalEntries_iff ih]

instance : DecidableEq Value := fun v u => decidable_of_iff _ (identical_iff v u)

end Value
end EntityMachines
