import EntityMachines.Proofs.Table
import EntityMachines.Proofs.Text
import EntityMachines.Value.Path
import EntityMachines.World

/-!
Reading and changing what lies at the end of a path. A change is read back at its own path, the
last of two changes at one path counts, and changes at paths of which neither leads on from the
other have nothing to do with each other.
-/
namespace EntityMachines

namespace Path

/-- Neither of two paths leads on from the other. -/
def Apart (p q : Path) : Prop := ¬p <+: q ∧ ¬q <+: p

theorem apart_cons {key : Text} {p q : Path} : Apart (key :: p) (key :: q) ↔ p.Apart q := by
  simp [Apart, List.cons_prefix_cons]

theorem ofText_ne_nil (t : Text) : ofText t ≠ [] := Text.splitByte_ne_nil 46 t

theorem toText_ofText (t : Text) : toText (ofText t) = t := Text.join_splitByte 46 t

theorem ofText_toText {path : Path} (hne : path ≠ []) (h : ∀ key ∈ path, (46 : Byte) ∉ key) :
    ofText (toText path) = path := Text.splitByte_join hne h

theorem ofText_injective : Function.Injective ofText := fun t u h => by
  rw [← toText_ofText t, h, toText_ofText]

end Path

namespace Value

variable {p q : Path}

theorem get_put_self (v : Value) (key : Text) (item : Value) : (v.put key item).get key = item := by
  unfold get find? put
  rw [entries, Table.find?_insert_self]
  rfl

theorem get_put_of_ne (v : Value) {key other : Text} (item : Value) (h : key ≠ other) :
    (v.put key item).get other = v.get other := by
  unfold get find? put
  rw [entries, Table.find?_insert_of_ne _ _ h]

theorem put_put (v : Value) (key : Text) (item other : Value) :
    (v.put key item).put key other = v.put key other := by
  unfold put
  rw [entries, Table.insert_insert]

theorem put_comm (v : Value) {key other : Text} (h : key ≠ other) (x y : Value) :
    (v.put key x).put other y = (v.put other y).put key x := by
  unfold put
  rw [entries, entries, Table.insert_comm _ h]

theorem getIn_nil (v : Value) : v.getIn [] = v := by
  cases v <;> rfl

theorem getIn_undefined (path : Path) : undefined.getIn path = undefined := by
  cases path <;> rfl

/-- What is no map has nothing at any key, so that a path may be followed key by key. -/
theorem getIn_cons (v : Value) (key : Text) (path : Path) :
    v.getIn (key :: path) = (v.get key).getIn path := by
  cases v with
  | map entries => rfl
  | _ => exact (getIn_undefined path).symm

theorem getIn_single (v : Value) (key : Text) : v.getIn [key] = v.get key := by
  rw [getIn_cons, getIn_nil]

theorem getIn_assocIn_self (v : Value) (p : Path) (x : Value) : (v.assocIn p x).getIn p = x := by
  induction p generalizing v with
  | nil => exact getIn_nil x
  | cons key p ih => rw [assocIn, getIn_cons, get_put_self, ih]

theorem assocIn_assocIn (v : Value) (p : Path) (x y : Value) :
    (v.assocIn p x).assocIn p y = v.assocIn p y := by
  induction p generalizing v with
  | nil => rfl
  | cons key p ih => rw [assocIn, assocIn, assocIn, get_put_self, put_put, ih]

theorem getIn_assocIn_of_apart (v : Value) (h : p.Apart q) (x : Value) :
    (v.assocIn p x).getIn q = v.getIn q := by
  induction p generalizing v q with
  | nil => exact absurd List.nil_prefix h.1
  | cons key p ih =>
    cases q with
    | nil => exact absurd List.nil_prefix h.2
    | cons other q =>
      rw [assocIn, getIn_cons, getIn_cons]
      by_cases hkey : key = other
      · subst hkey
        rw [get_put_self, ih _ (Path.apart_cons.mp h)]
      · rw [get_put_of_ne _ _ hkey]

theorem assocIn_comm (v : Value) (h : p.Apart q) (x y : Value) :
    (v.assocIn p x).assocIn q y = (v.assocIn q y).assocIn p x := by
  induction p generalizing v q with
  | nil => exact absurd List.nil_prefix h.1
  | cons key p ih =>
    cases q with
    | nil => exact absurd List.nil_prefix h.2
    | cons other q =>
      simp only [assocIn]
      by_cases hkey : key = other
      · subst hkey
        rw [get_put_self, get_put_self, put_put, put_put, ih _ (Path.apart_cons.mp h)]
      · rw [get_put_of_ne _ _ hkey, get_put_of_ne _ _ (Ne.symm hkey), put_comm _ hkey]

/-- A change behind a path is a change of what lies at the path. -/
theorem getIn_assocIn_append (v : Value) (p q : Path) (x : Value) :
    (v.assocIn (p ++ q) x).getIn p = (v.getIn p).assocIn q x := by
  induction p generalizing v with
  | nil => rw [List.nil_append, getIn_nil, getIn_nil]
  | cons key p ih => rw [List.cons_append, assocIn, getIn_cons, get_put_self, ih, ← getIn_cons]

theorem assocIn_isMap (v : Value) {path : Path} (h : path ≠ []) (item : Value) :
    (v.assocIn path item).isMap = true := by
  cases path with
  | nil => exact absurd rfl h
  | cons key rest => rfl

theorem applyChanges_isMap {v : Value} (h : v.isMap = true) (changes : Table Value) :
    (v.applyChanges changes).isMap = true := by
  unfold applyChanges
  induction changes generalizing v with
  | nil => exact h
  | cons change rest ih => exact ih (assocIn_isMap v (Path.ofText_ne_nil change.1) change.2)

theorem applyChanges_single (v : Value) (field : Text) (item : Value) :
    v.applyChanges [(field, item)] = v.assocIn (Path.ofText field) item := rfl

end Value
end EntityMachines

/-!
Sets of changes. They are made in the order of their texts, in which what is shorter comes before
what leads on from it, so that no change is lost under a later one. Main statement: after a set of
changes each changed path has its new value, with the changes behind it laid over, and what is
beside all of them is as before.
-/
namespace EntityMachines

namespace Path

theorem toText_append {p q : Path} (hp : p ≠ []) (hq : q ≠ []) :
    toText (p ++ q) = toText p ++ 46 :: toText q := by
  unfold toText
  rw [Text.join_append "." hp hq, List.append_assoc]
  rfl

/-- The text of a path comes before the texts of the paths that lead on from it. -/
theorem before_of_prefix {t u : Text} (h : ofText t <+: ofText u) (hne : t ≠ u) :
    Text.before t u = true := by
  obtain ⟨rest, hrest⟩ := h
  have hrestne : rest ≠ [] := by
    rintro rfl
    exact hne (ofText_injective (by rwa [List.append_nil] at hrest))
  have hu : u = t ++ 46 :: toText rest := by
    rw [← toText_ofText u, ← hrest, toText_append (ofText_ne_nil t) hrestne, toText_ofText]
  rw [hu]
  exact Text.before_append t (List.cons_ne_nil 46 _)

end Path

namespace Value

/-- A value under several changes, one after the other. -/
def written (v : Value) (writes : List (Path × Value)) : Value :=
  writes.foldl (fun v write => v.assocIn write.1 write.2) v

/-- The changes whose paths lead on from a path, as they look from its end. -/
def behind (p : Path) (changes : Table Value) : List (Path × Value) :=
  changes.filterMap fun change =>
    if p <+: Path.ofText change.1 ∧ p ≠ Path.ofText change.1 then
      some ((Path.ofText change.1).drop p.length, change.2)
    else none

variable {p : Path} {changes : Table Value}

theorem behind_eq_nil
    (h : ∀ change ∈ changes, p ≠ Path.ofText change.1 → ¬p <+: Path.ofText change.1) :
    behind p changes = [] :=
  List.filterMap_eq_nil_iff.mpr fun change hchange =>
    if_neg fun hbehind => h change hchange hbehind.2 hbehind.1

theorem behind_append (p : Path) (changes others : Table Value) :
    behind p (changes ++ others) = behind p changes ++ behind p others :=
  List.filterMap_append ..

/-- What lies at a path takes part in the changes behind it only. -/
theorem getIn_applyChanges (v : Value) (h : ∀ change ∈ changes, ¬Path.ofText change.1 <+: p) :
    (v.applyChanges changes).getIn p = (v.getIn p).written (behind p changes) := by
  induction changes generalizing v with
  | nil => rfl
  | cons change rest ih =>
    obtain ⟨hchange, hrest⟩ := List.forall_mem_cons.mp h
    have hstep : (v.applyChanges (change :: rest)).getIn p
        = ((v.assocIn (Path.ofText change.1) change.2).getIn p).written (behind p rest) :=
      ih _ hrest
    by_cases hprefix : p <+: Path.ofText change.1
    · obtain ⟨q, hq⟩ := hprefix
      have hne : p ≠ Path.ofText change.1 := fun heq => hchange (heq ▸ List.prefix_rfl)
      have hbehind : behind p (change :: rest) = (q, change.2) :: behind p rest := by
        refine List.filterMap_cons_some ?_
        rw [if_pos ⟨⟨q, hq⟩, hne⟩, ← hq, List.drop_left]
      rw [hstep, hbehind, ← hq, getIn_assocIn_append]
      rfl
    · have hbehind : behind p (change :: rest) = behind p rest :=
        List.filterMap_cons_none (if_neg fun hboth => hprefix hboth.1)
      rw [hstep, hbehind, getIn_assocIn_of_apart v ⟨hchange, hprefix⟩]

theorem getIn_applyChanges_of_apart (v : Value)
    (h : ∀ change ∈ changes, (Path.ofText change.1).Apart p) :
    (v.applyChanges changes).getIn p = v.getIn p := by
  rw [getIn_applyChanges v fun change hchange => (h change hchange).1,
    behind_eq_nil fun change hchange _ => (h change hchange).2]
  rfl

/-- Of the other changes, those made before do not lead on from the path of a change, and it does
not lead on from those made after. -/
theorem getIn_applyChanges_of_mem (h : changes.Ordered) (v : Value) {key : Text} {x : Value}
    (hmem : (key, x) ∈ changes) :
    (v.applyChanges changes).getIn (Path.ofText key)
      = x.written (behind (Path.ofText key) changes) := by
  obtain ⟨earlier, later, rfl⟩ := List.append_of_mem hmem
  obtain ⟨-, hrest, hearlier⟩ := List.pairwise_append.mp h
  obtain ⟨hlater, -⟩ := List.pairwise_cons.mp hrest
  have hnone : behind (Path.ofText key) earlier = [] := by
    refine behind_eq_nil fun change hchange hne hprefix => ?_
    have hbefore := hearlier change hchange (key, x) List.mem_cons_self
    exact Text.not_before_of_before hbefore
      (Path.before_of_prefix hprefix fun heq => hne (congrArg Path.ofText heq))
  have hself : behind (Path.ofText key) ((key, x) :: later) = behind (Path.ofText key) later :=
    List.filterMap_cons_none (if_neg fun hboth => hboth.2 rfl)
  have hafter : ∀ change ∈ later, ¬Path.ofText change.1 <+: Path.ofText key := by
    intro change hchange hprefix
    have hbefore := hlater change hchange
    exact Text.not_before_of_before hbefore
      (Path.before_of_prefix hprefix (Text.ne_of_before hbefore).symm)
  have hsplit : v.applyChanges (earlier ++ (key, x) :: later)
      = ((v.applyChanges earlier).assocIn (Path.ofText key) x).applyChanges later :=
    List.foldl_append ..
  rw [hsplit, getIn_applyChanges _ hafter, getIn_assocIn_self, behind_append, hnone, hself,
    List.nil_append]

/-- Changes beside one another may be made in any order. -/
theorem applyChanges_perm (h : changes.Ordered)
    (hbeside : ∀ a ∈ changes, ∀ b ∈ changes, Path.ofText a.1 <+: Path.ofText b.1 → a.1 = b.1)
    {order : Table Value} (horder : changes.Perm order) (v : Value) :
    v.applyChanges order = v.applyChanges changes := by
  refine (horder.foldl_eq' (fun a ha b hb v => ?_) v).symm
  by_cases hkey : a.1 = b.1
  · rw [h.eq_of_mem ha hb hkey]
  · exact assocIn_comm v ⟨fun hprefix => hkey (hbeside a ha b hb hprefix),
      fun hprefix => hkey (hbeside b hb a ha hprefix).symm⟩ a.2 b.2

end Value

namespace Eval

theorem writeStore_loses_nothing {store : StoreRef} {w : World} {entries : Table Value}
    (hw : w.stores[store]? = some (.map entries)) {changes : Table Value} (h : changes.Ordered) :
    ∃ later v, writeStore store changes w = .ok () later ∧ later.stores[store]? = some v ∧
      v.isMap = true ∧
      (∀ key x, (key, x) ∈ changes →
        v.getIn (Path.ofText key) = x.written (Value.behind (Path.ofText key) changes)) ∧
      (∀ key x, (key, x) ∈ changes →
        (∀ other ∈ changes, Path.ofText key <+: Path.ofText other.1 → key = other.1) →
          v.getIn (Path.ofText key) = x) ∧
      (∀ p : Path, (∀ change ∈ changes, (Path.ofText change.1).Apart p) →
        v.getIn p = (Value.map entries).getIn p) ∧
      ((∀ a ∈ changes, ∀ b ∈ changes, Path.ofText a.1 <+: Path.ofText b.1 → a.1 = b.1) →
        ∀ order, changes.Perm order → ∃ later', writeStore store order w = .ok () later' ∧
          later'.stores[store]? = some v) := by
  have hwrite (order : Table Value) : ∃ later, writeStore store order w = .ok () later ∧
      later.stores[store]? = some ((Value.map entries).applyChanges order) :=
    ⟨_, rfl, by simp [Array.getElem?_modify, hw]⟩
  obtain ⟨later, hlater, hstored⟩ := hwrite changes
  refine ⟨later, _, hlater, hstored, Value.applyChanges_isMap rfl changes,
    fun key x hmem => Value.getIn_applyChanges_of_mem h _ hmem, fun key x hmem hlast => ?_,
    fun p hp => Value.getIn_applyChanges_of_apart _ hp, fun hbeside order horder => ?_⟩
  · have hnone : Value.behind (Path.ofText key) changes = [] :=
      Value.behind_eq_nil fun change hchange hne hprefix =>
        hne (congrArg Path.ofText (hlast change hchange hprefix))
    rw [Value.getIn_applyChanges_of_mem h _ hmem, hnone]
    rfl
  · rw [← Value.applyChanges_perm h hbeside horder]
    exact hwrite order

/-- Between a text and what leads on from it other texts may come. -/
def overlapping : Table Value :=
  [("a", .map [("kept", .null)]), ("a-b", .number 1), ("a.b.c", .number 2), ("a.d", .bool true)]

theorem writeStore_overlapping :
    overlapping.Ordered ∧
    ∃ later v, writeStore 0 overlapping { stores := #[.map [("a", .number 0)]] } = .ok () later ∧
      later.stores[0]? = some v ∧
      v.getIn ["a"] = .map [("b", .map [("c", .number 2)]), ("d", .bool true), ("kept", .null)] := by
  have hordered : overlapping.Ordered := by
    unfold Table.Ordered
    decide
  have hstart : ({ stores := #[.map [("a", .number 0)]] } : World).stores[0]?
      = some (.map [("a", .number 0)]) := rfl
  obtain ⟨later, v, hwritten, hstored, -, hchanged, -⟩ := writeStore_loses_nothing hstart hordered
  exact ⟨hordered, later, v, hwritten, hstored, hchanged "a" _ List.mem_cons_self⟩

end Eval
end EntityMachines
