import EntityMachines.Text

/-!
Tables are finite maps with texts as keys, kept as lists of entries in increasing key order,
so that a table has one representation and is listed in the order in which it is printed.
-/
namespace EntityMachines

abbrev Table (α : Type) := List (Text × α)

namespace Table

variable {α β : Type}

def find? : Table α → Text → Option α
  | [], _ => none
  | (k, v) :: rest, key => if k == key then some v else find? rest key

def contains (t : Table α) (key : Text) : Bool := (t.find? key).isSome

/-- Puts an entry at its place, over an entry with the same key. -/
def insert : Table α → Text → α → Table α
  | [], key, x => [(key, x)]
  | (k, v) :: rest, key, x =>
    if k == key then (key, x) :: rest
    else if Text.before key k then (key, x) :: (k, v) :: rest
    else (k, v) :: insert rest key x

def keys (t : Table α) : List Text := t.map (·.1)

def values (t : Table α) : List α := t.map (·.2)

/-- The entries in order of arrival; of two with one key the later counts. -/
def ofEntries (entries : List (Text × α)) : Table α :=
  entries.foldl (fun t entry => t.insert entry.1 entry.2) []

/-- The entries of both tables; where both have a key, the entry of the second. -/
def overlay (base top : Table α) : Table α :=
  top.foldl (fun t entry => t.insert entry.1 entry.2) base

/-- Keys increase strictly from each entry to every later one. -/
def Ordered (t : Table α) : Prop := t.Pairwise fun a b => Text.before a.1 b.1 = true

@[simp] theorem find?_nil (key : Text) : find? ([] : Table α) key = none := rfl

theorem find?_insert_self (t : Table α) (key : Text) (x : α) :
    (t.insert key x).find? key = some x := by
  induction t with
  | nil => simp [insert, find?]
  | cons entry rest ih =>
    obtain ⟨k, v⟩ := entry
    simp only [insert]
    split
    · simp [find?]
    · split
      · simp [find?]
      · simp_all [find?]

theorem find?_insert_of_ne (t : Table α) {key other : Text} (x : α) (h : key ≠ other) :
    (t.insert key x).find? other = t.find? other := by
  induction t with
  | nil => simp [insert, find?, h]
  | cons entry rest ih =>
    obtain ⟨k, v⟩ := entry
    simp only [insert]
    split
    · rename_i hk
      have hk : k = key := by simpa using hk
      simp [find?, hk, h]
    · split
      · simp [find?, h]
      · simp [find?, ih]

end Table

end EntityMachines
