import EntityMachines.Proofs.Table
import EntityMachines.Registry
import Mathlib.Algebra.GroupWithZero.Nat
import Mathlib.Data.List.Induction

/-!
A registry is a map in the order of insertion. It has the last definition that came in under each
name, at the place where the name first came in, and its numbers are sums over these definitions.
-/
namespace EntityMachines

namespace Table

/-- What an entry changes in the sum of a table. -/
theorem sum_values_insert {t : Table Nat} (h : t.Ordered) (key : Text) (n : Nat) :
    (t.insert key n).values.sum + (t.find? key).getD 0 = t.values.sum + n := by
  induction t with
  | nil => simp [insert, values]
  | cons entry rest ih =>
    obtain ⟨k, m⟩ := entry
    have hrest := ih (List.pairwise_cons.mp h).2
    simp only [insert, values] at hrest ⊢
    by_cases hkey : k = key
    · subst hkey
      simp only [beq_self_eq_true, if_true, find?_cons_self, List.map_cons, List.sum_cons,
        Option.getD_some]
      omega
    · rw [if_neg (by simpa using hkey)]
      split
      next hbefore =>
        rw [h.find?_before hbefore]
        simp only [List.map_cons, List.sum_cons, Option.getD_none]
        omega
      next =>
        rw [find?_cons_of_ne hkey]
        simp only [List.map_cons, List.sum_cons]
        omega

end Table

namespace Registry

/-- The definition that a change brings. -/
def Change.definition? : Change → Option Definition
  | register d => some d
  | clear => none

/-- The definitions that have come in since the last clearing, the latest first. -/
def recent (changes : List Change) : List Definition :=
  (changes.reverse.takeWhile fun change => change.definition?.isSome).filterMap Change.definition?

theorem recent_register (changes : List Change) (d : Definition) :
    recent (changes ++ [.register d]) = d :: recent changes := by
  simp [recent, Change.definition?]

theorem recent_clear (changes : List Change) : recent (changes ++ [.clear]) = [] := by
  simp [recent, Change.definition?]

section Place

variable (d : Definition) (ds : List Definition)

theorem find?_place (name : Text) :
    (place d ds).find? (fun other => other.name = name)
      = (d :: ds).find? fun other => other.name = name := by
  induction ds with
  | nil => rfl
  | cons other rest ih =>
    unfold place
    split
    next hname => by_cases h : d.name = name <;> simp [h, hname]
    next hname =>
      rw [List.find?_cons, ih]
      by_cases h : d.name = name
      · subst h
        simp [hname]
      · simp [List.find?_cons, h]

variable {d ds}

theorem place_of_not_mem (h : d.name ∉ ds.map (·.name)) : place d ds = ds ++ [d] := by
  induction ds with
  | nil => rfl
  | cons other rest ih =>
    rw [List.map_cons, List.mem_cons, not_or] at h
    rw [place, if_neg (Ne.symm h.1), ih h.2]
    rfl

/-- A definition comes into the place of the one that has its name. -/
theorem place_of_mem (hnodup : (ds.map (·.name)).Nodup) (h : d.name ∈ ds.map (·.name)) :
    place d ds = ds.map fun old => if old.name = d.name then d else old := by
  induction ds with
  | nil => cases h
  | cons other rest ih =>
    obtain ⟨hfirst, hrest⟩ := List.nodup_cons.mp hnodup
    rw [place, List.map_cons]
    split
    next hname =>
      have hothers : ∀ old ∈ rest, old.name ≠ d.name := by
        intro old hold hsame
        exact hfirst (List.mem_map.mpr ⟨old, hold, hsame.trans hname.symm⟩)
      rw [List.map_congr_left fun old hold => if_neg (hothers old hold), List.map_id']
    next hname => rw [ih hrest ((List.mem_cons.mp h).resolve_left (Ne.symm hname))]

theorem names_place_of_mem (hnodup : (ds.map (·.name)).Nodup) (h : d.name ∈ ds.map (·.name)) :
    (place d ds).map (·.name) = ds.map (·.name) := by
  rw [place_of_mem hnodup h, List.map_map]
  refine List.map_congr_left fun old _ => ?_
  simp only [Function.comp_apply]
  split
  next hname => exact hname.symm
  next => rfl

end Place

/-- Every definition is found under its name. -/
theorem find?_of_mem {ds : List Definition} (hnodup : (ds.map (·.name)).Nodup) {d : Definition}
    (hd : d ∈ ds) : ds.find? (fun other => other.name = d.name) = some d := by
  induction ds with
  | nil => cases hd
  | cons other rest ih =>
    obtain ⟨hfirst, hrest⟩ := List.nodup_cons.mp hnodup
    rcases List.mem_cons.mp hd with rfl | hd
    · simp
    · have hname : other.name ≠ d.name := fun hsame =>
        hfirst (List.mem_map.mpr ⟨d, hd, hsame.symm⟩)
      rw [List.find?_cons_of_neg (by simpa using hname)]
      exact ih hrest hd

theorem total_eq (r : Registry) (f : Definition → Nat) :
    r.total f = (r.definitions.map f).sum := by
  unfold total
  rw [List.sum_eq_foldl, List.foldl_map]

/-- What the numbers of a registry say of the definitions in it. -/
structure Tallies (stats : Stats) (ds : List Definition) : Prop where
  behaviors : stats.behaviors = ds.length
  states : stats.states = (ds.map (·.states.length)).sum
  events : stats.events = (ds.map (·.events.length)).sum
  transitions : stats.transitions = (ds.map (·.transitions.length)).sum
  ticks : stats.ticks = (ds.map (·.ticks.length)).sum
  /-- Each category that a definition has is listed once, with the number of its definitions. -/
  categories : stats.byCategory.Ordered ∧ ∀ category, stats.byCategory.find? category =
    let count := ds.countP fun d => d.category = category
    if count = 0 then none else some count
  categories_sum : stats.byCategory.values.sum = ds.length

/-- Counting goes on where it has stopped. -/
theorem countCategories (ds : List Definition) {t : Table Nat} (h : t.Ordered) :
    (ds.foldl countCategory t).Ordered ∧
    (ds.foldl countCategory t).values.sum = t.values.sum + ds.length ∧
    ∀ category, (ds.foldl countCategory t).find? category =
      let count := ds.countP fun d => d.category = category
      if count = 0 then t.find? category else some ((t.find? category).getD 0 + count) := by
  induction ds generalizing t with
  | nil => exact ⟨h, rfl, fun _ => rfl⟩
  | cons d rest ih =>
    obtain ⟨hordered, hsum, hfind⟩ := ih (t := countCategory t d) (h.insert _ _)
    refine ⟨hordered, ?_, fun category => ?_⟩
    · have hinsert : (countCategory t d).values.sum + (t.find? d.category).getD 0
          = t.values.sum + ((t.find? d.category).getD 0 + 1) := Table.sum_values_insert h _ _
      rw [List.foldl_cons, hsum, List.length_cons]
      omega
    · rw [List.foldl_cons, hfind category, List.countP_cons, countCategory]
      by_cases hcategory : d.category = category
      · subst hcategory
        rw [Table.find?_insert_self, Option.getD_some, decide_eq_true rfl, if_pos rfl,
          if_neg (Nat.succ_ne_zero _)]
        dsimp only
        split
        next hnone => rw [hnone]
        next => rw [Nat.add_assoc, Nat.add_comm 1]
      · simp [Table.find?_insert_of_ne t _ hcategory, hcategory]

theorem stats_tallies (r : Registry) : Tallies r.stats r.definitions := by
  obtain ⟨hordered, hsum, hfind⟩ := countCategories r.definitions (t := []) List.Pairwise.nil
  exact {
    behaviors := rfl
    states := total_eq r _
    events := total_eq r _
    transitions := total_eq r _
    ticks := total_eq r _
    categories := ⟨hordered, fun category => (hfind category).trans (by simp)⟩
    categories_sum := hsum.trans (Nat.zero_add _) }

/-- The registry holds definitions that have come in, the latest first in the list, as a map in the
order of insertion. -/
structure Mirrors (r : Registry) (ds : List Definition) : Prop where
  names_nodup : r.names.Nodup
  /-- The last definition with a name is the one that is found. -/
  find?_eq : ∀ name, r.find? name = ds.find? fun d => d.name = name
  /-- The names are listed in the order in which they came in first. -/
  names_eq : r.names = (ds.reverse.map (·.name)).eraseDups
  all_eq : r.definitions.map some = r.names.map r.find?
  /-- A definition with a name that is known takes the place of the one that had it. -/
  replaced : ∀ d, d.name ∈ r.names → (r.register d).names = r.names ∧
    (r.register d).definitions = r.definitions.map fun old => if old.name = d.name then d else old
  appended : ∀ d, d.name ∉ r.names → (r.register d).definitions = r.definitions ++ [d]
  tallies : Tallies r.stats r.definitions

/-- What the rest follows from: the names, and what is found under them. -/
structure Mirrored (r : Registry) (ds : List Definition) : Prop where
  nodup : (r.definitions.map (·.name)).Nodup
  found : ∀ name, r.find? name = ds.find? fun d => d.name = name
  names : r.definitions.map (·.name) = (ds.reverse.map (·.name)).eraseDups

namespace Mirrored

variable {r : Registry} {ds : List Definition}

theorem empty : Mirrored {} [] where
  nodup := List.nodup_nil
  found _ := rfl
  names := rfl

theorem mem_iff (h : Mirrored r ds) (name : Text) :
    name ∈ r.definitions.map (·.name) ↔ name ∈ ds.reverse.map (·.name) := by
  rw [h.names, List.mem_eraseDups]

theorem register (h : Mirrored r ds) (d : Definition) : Mirrored (r.register d) (d :: ds) := by
  have hfound : ∀ name, (r.register d).find? name = (d :: ds).find? fun e => e.name = name := by
    intro name
    have hrest : r.definitions.find? (fun e => e.name = name) = ds.find? fun e => e.name = name :=
      h.found name
    exact (find?_place d r.definitions name).trans (by rw [List.find?_cons, List.find?_cons, hrest])
  by_cases hmem : d.name ∈ r.definitions.map (·.name)
  · have hnames := names_place_of_mem h.nodup hmem
    have hlisted : d.name ∈ ds.reverse.map (·.name) := (h.mem_iff _).mp hmem
    refine ⟨hnames ▸ h.nodup, hfound, hnames.trans ?_⟩
    have hknown : ([d].map (·.name)).removeAll (ds.reverse.map (·.name)) = [] := by
      simpa [List.removeAll] using hlisted
    rw [h.names, List.reverse_cons, List.map_append, List.eraseDups_append, hknown]
    exact (List.append_nil _).symm
  · have hplace : (r.register d).definitions = r.definitions ++ [d] := place_of_not_mem hmem
    have hlisted : d.name ∉ ds.reverse.map (·.name) := mt (h.mem_iff _).mpr hmem
    refine ⟨?_, hfound, ?_⟩
    · rw [hplace, List.map_append]
      refine List.nodup_append.mpr ⟨h.nodup, List.pairwise_singleton _ _, ?_⟩
      rintro name hname last hlast rfl
      obtain rfl : name = d.name := List.mem_singleton.mp hlast
      exact hmem hname
    · have hnew : ([d].map (·.name)).removeAll (ds.reverse.map (·.name)) = [d.name] := by
        simpa [List.removeAll] using hlisted
      rw [hplace, List.map_append, h.names, List.reverse_cons, List.map_append,
        List.eraseDups_append, hnew]
      rfl

theorem mirrors (h : Mirrored r ds) : Mirrors r ds where
  names_nodup := h.nodup
  find?_eq := h.found
  names_eq := h.names
  all_eq := by
    rw [Registry.names, List.map_map]
    exact List.map_congr_left fun d hd => (find?_of_mem h.nodup hd).symm
  replaced d hd := ⟨names_place_of_mem h.nodup hd, place_of_mem h.nodup hd⟩
  appended d hd := place_of_not_mem hd
  tallies := stats_tallies r

end Mirrored

/-- By induction over the changes: one of them keeps the names and what is found under them in step
with what has come in. -/
theorem mirrored_ofChanges (changes : List Change) :
    Mirrored (ofChanges changes) (recent changes) := by
  induction changes using List.reverseRecOn with
  | nil => exact .empty
  | append_singleton before last ih =>
    rw [ofChanges, List.foldl_append]
    cases last with
    | register d =>
      rw [recent_register]
      exact ih.register d
    | clear =>
      rw [recent_clear]
      exact .empty

/-- However definitions come in and are cleared away, a registry has the last one under each name
since the last clearing, in the order in which the names came in. -/
theorem ofChanges_mirrors (changes : List Change) :
    (ofChanges changes).Mirrors (recent changes) :=
  (mirrored_ofChanges changes).mirrors

end Registry
end EntityMachines
