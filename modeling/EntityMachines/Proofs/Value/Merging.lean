import EntityMachines.Proofs.Library.Object
import EntityMachines.Proofs.Value.StrictForm

/-!
Maps merged path by path. Where both sides have a map at the end of a path, the merge of these lies
there; anywhere else the second side counts, with all that is below it. Main statement: a path that
the second side has leads to what it has there unless both sides have maps there, and where a path
leaves the second side below maps of both, the first side is left as it is.
-/
namespace EntityMachines
namespace Value

/-- The value at the end of a path, if every key of the path is there. -/
def findIn? : Value → Path → Option Value
  | v, [] => some v
  | v, key :: rest => (v.find? key).bind fun next => next.findIn? rest

variable {u v w : Value} {m n : Table Value} {existing : Option Value} {key : Text} {p q : Path}

theorem findIn?_nil (v : Value) : v.findIn? [] = some v := by
  cases v <;> rfl

theorem findIn?_cons (v : Value) (key : Text) (rest : Path) :
    v.findIn? (key :: rest) = (v.find? key).bind fun next => next.findIn? rest := by
  cases v <;> rfl

theorem findIn?_map (entries : Table Value) (key : Text) (rest : Path) :
    (map entries).findIn? (key :: rest)
      = (Table.find? entries key).bind fun next => next.findIn? rest := rfl

theorem findIn?_append (v : Value) (p q : Path) :
    v.findIn? (p ++ q) = (v.findIn? p).bind fun next => next.findIn? q := by
  induction p generalizing v with
  | nil => rw [findIn?_nil]; rfl
  | cons key p ih =>
    rw [List.cons_append, findIn?_cons, findIn?_cons, Option.bind_assoc]
    simp only [ih]

/-- To read at a path is to find what is there, and nothing where a key is missing. -/
theorem getIn_eq_findIn? (v : Value) (p : Path) : v.getIn p = (v.findIn? p).getD undefined := by
  induction p generalizing v with
  | nil => rw [getIn_nil, findIn?_nil]; rfl
  | cons key p ih =>
    rw [getIn_cons, findIn?_cons, get]
    cases v.find? key with
    | none => exact getIn_undefined p
    | some next => exact ih next

/-- Only maps have something behind a key. -/
theorem exists_map_of_find? (h : v.find? key = some u) :
    ∃ entries : Table Value, v = map entries ∧ entries.find? key = some u := by
  cases v with
  | map entries => exact ⟨entries, rfl, h⟩
  | _ => cases h

theorem exists_of_findIn?_cons (h : v.findIn? (key :: p) = some w) :
    ∃ (entries : Table Value) (next : Value), v = map entries ∧ entries.find? key = some next ∧
      next.findIn? p = some w := by
  rw [findIn?_cons] at h
  obtain ⟨next, hnext, hw⟩ := Option.bind_eq_some_iff.mp h
  obtain ⟨entries, rfl, hfind⟩ := exists_map_of_find? hnext
  exact ⟨entries, next, rfl, hfind, hw⟩

theorem Tabular.of_find? {entries : Table Value} (h : Tabular (map entries))
    (hfind : entries.find? key = some v) : Tabular v :=
  h.member (Table.mem_of_find?_eq_some hfind)

theorem Tabular.of_findIn? (h : Tabular v) (hfind : v.findIn? p = some u) : Tabular u := by
  induction p generalizing v with
  | nil =>
    rw [findIn?_nil] at hfind
    cases hfind
    exact h
  | cons key p ih =>
    obtain ⟨entries, next, rfl, hnext, hu⟩ := exists_of_findIn?_cons hfind
    exact ih (h.of_find? hnext) hu

/-! One key. -/

theorem mergeOver_maps (m n : Table Value) :
    mergeOver (some (map m)) (map n) = map (deepMerge m n) := by
  rw [mergeOver]

/-- Unless there are maps on both sides, the second side counts. -/
theorem mergeOver_eq_right (h : v.isMap = false ∨ ∀ x, existing = some x → x.isMap = false) :
    mergeOver existing v = v := by
  cases v with
  | map entries =>
    have hexisting := h.resolve_left Bool.noConfusion
    unfold mergeOver
    split
    next base => exact absurd (hexisting _ rfl) Bool.noConfusion
    next => rfl
  | undefined | null | bool | number | string | array | closure => rfl

theorem find?_deepMerge (hn : n.Ordered) (m : Table Value) (key : Text) :
    Table.find? (deepMerge m n) key
      = ((n.find? key).map (mergeOver (m.find? key))).or (m.find? key) := by
  induction n generalizing m with
  | nil => rfl
  | cons entry rest ih =>
    obtain ⟨k, incoming⟩ := entry
    rw [deepMerge, ih (List.pairwise_cons.mp hn).2]
    by_cases hkey : k = key
    · subst hkey
      rw [hn.find?_tail, Table.find?_insert_self, Table.find?_cons_self]
      rfl
    · rw [Table.find?_insert_of_ne _ _ hkey, Table.find?_cons_of_ne hkey]

theorem ordered_deepMerge (hm : m.Ordered) (n : Table Value) : Table.Ordered (deepMerge m n) := by
  induction n generalizing m with
  | nil => exact hm
  | cons entry rest ih =>
    obtain ⟨k, incoming⟩ := entry
    rw [deepMerge]
    exact ih (hm.insert k _)

theorem nil_deepMerge (hn : n.Ordered) : deepMerge [] n = n := by
  refine (ordered_deepMerge List.Pairwise.nil n).ext hn fun key => ?_
  rw [find?_deepMerge hn, Table.find?_nil, Option.or_none]
  cases n.find? key with
  | none => rfl
  | some x => exact congrArg some (mergeOver_eq_right (.inr fun _ h => nomatch h))

theorem mergeOver_self (h : Tabular v) : mergeOver (some v) v = v := by
  induction v using inductionOn with
  | map entries ih =>
    have hentries := h.ordered
    have hself : deepMerge entries entries = entries := by
      refine (ordered_deepMerge hentries entries).ext hentries fun key => ?_
      rw [find?_deepMerge hentries]
      cases hfind : Table.find? entries key with
      | none => rfl
      | some x =>
        have hmem := Table.mem_of_find?_eq_some hfind
        exact congrArg some (ih _ hmem (h.member hmem))
    rw [mergeOver_maps, hself]
  | undefined | null | bool | number | string | array | closure => exact mergeOver_eq_right (.inl rfl)

/-! Paths. -/

/-- A path of the second side leads to what it has there, unless both sides have maps there. -/
theorem findIn?_mergeOver_right (hv : Tabular v) (hw : v.findIn? p = some w)
    (h : w.isMap = false ∨ ∀ x, (existing.bind (·.findIn? p)) = some x → x.isMap = false) :
    (mergeOver existing v).findIn? p = some w := by
  induction p generalizing existing v with
  | nil =>
    simp only [findIn?_nil, Option.some_inj, Option.bind_fun_some] at hw h ⊢
    subst hw
    exact mergeOver_eq_right h
  | cons key p ih =>
    obtain ⟨entries, next, rfl, hnext, hw'⟩ := exists_of_findIn?_cons hw
    by_cases hmaps : ∃ base : Table Value, existing = some (map base)
    · obtain ⟨base, rfl⟩ := hmaps
      have hmerged : Table.find? (deepMerge base entries) key
          = some (mergeOver (base.find? key) next) := by
        rw [find?_deepMerge hv.ordered, hnext]
        rfl
      rw [mergeOver_maps, findIn?_map, hmerged, Option.bind_some]
      exact ih (hv.of_find? hnext) hw' h
    · have hsame : mergeOver existing (map entries) = map entries := by
        refine mergeOver_eq_right (.inr fun x hx => ?_)
        cases x with
        | map base => exact absurd ⟨base, hx⟩ hmaps
        | undefined | null | bool | number | string | array | closure => rfl
      rw [hsame]
      exact hw

theorem findIn?_mergeOver_maps (hv : Tabular v) (hm : u.findIn? p = some (map m))
    (hn : v.findIn? p = some (map n)) :
    (mergeOver (some u) v).findIn? p = some (map (deepMerge m n)) := by
  induction p generalizing u v with
  | nil =>
    simp only [findIn?_nil, Option.some_inj] at hm hn ⊢
    rw [hm, hn, mergeOver_maps]
  | cons key p ih =>
    obtain ⟨base, below, rfl, hbelow, hm'⟩ := exists_of_findIn?_cons hm
    obtain ⟨entries, next, rfl, hnext, hn'⟩ := exists_of_findIn?_cons hn
    have hmerged : Table.find? (deepMerge base entries) key
        = some (mergeOver (some below) next) := by
      rw [find?_deepMerge hv.ordered, hnext, hbelow]
      rfl
    rw [mergeOver_maps, findIn?_map, hmerged, Option.bind_some]
    exact ih (hv.of_find? hnext) hm' hn'

/-- Behind a key that a map of the second side lacks, the first side is left as it is. -/
theorem findIn?_mergeOver_left (hv : Tabular v) (hm : u.findIn? p = some (map m))
    (hn : v.findIn? p = some (map n)) (hkey : n.find? key = none) (q : Path) :
    (mergeOver (some u) v).findIn? (p ++ key :: q) = u.findIn? (p ++ key :: q) := by
  have hfind : Table.find? (deepMerge m n) key = m.find? key := by
    rw [find?_deepMerge (hv.of_findIn? hn).ordered, hkey]
    rfl
  rw [findIn?_append, findIn?_append, findIn?_mergeOver_maps hv hm hn, hm, Option.bind_some,
    Option.bind_some, findIn?_map, findIn?_map, hfind]

end Value

namespace Library.Object

variable {t s : Table Value}

theorem makes_deepMerge (ht : t.Ordered) (s : Table Value) :
    Makes "object/deepMerge" [.map t, .map s] (.map (Value.deepMerge t s)) := by
  have hmerge : Makes "object/deepMerge" [.map t, .map s]
      (.map (Value.deepMerge (Value.deepMerge [] t) s)) :=
    .ofTotal (f := fun args => .map (deepMergeAll args)) (operator?_of_place 90 rfl)
  rwa [Value.nil_deepMerge ht] at hmerge

theorem deepMerge_right_biased (ht : (Value.map t).Tabular) (hs : (Value.map s).Tabular) :
    (∃ m, Makes "object/deepMerge" [.map t, .map s] (.map m) ∧
      (∀ p v, (Value.map s).findIn? p = some v → v.isMap = false →
        (Value.map m).findIn? p = some v) ∧
      (∀ p v, (Value.map s).findIn? p = some v →
        (∀ u, (Value.map t).findIn? p = some u → u.isMap = false) →
        (Value.map m).findIn? p = some v) ∧
      ∀ p key q a b, (Value.map t).findIn? p = some (.map a) →
        (Value.map s).findIn? p = some (.map b) → Table.find? b key = none →
        (Value.map m).findIn? (p ++ key :: q) = (Value.map t).findIn? (p ++ key :: q)) ∧
    Makes "object/deepMerge" [.map [], .map s] (.map s) ∧
    Makes "object/deepMerge" [.map t, .map []] (.map t) ∧
    Makes "object/deepMerge" [.map t, .map t] (.map t) := by
  have hmaps := Value.mergeOver_maps t s
  have hempty := makes_deepMerge List.Pairwise.nil s
  have hself := makes_deepMerge ht.ordered t
  have hsame : Value.map (Value.deepMerge t t) = .map t := by
    rw [← Value.mergeOver_maps, Value.mergeOver_self ht]
  rw [Value.nil_deepMerge hs.ordered] at hempty
  rw [hsame] at hself
  refine ⟨⟨_, makes_deepMerge ht.ordered s, fun p v hv hmap => ?_, fun p v hv hmap => ?_,
    fun p key q a b ha hb hkey => ?_⟩, hempty, makes_deepMerge ht.ordered [], hself⟩
  · rw [← hmaps]
    exact Value.findIn?_mergeOver_right hs hv (.inl hmap)
  · rw [← hmaps]
    exact Value.findIn?_mergeOver_right hs hv (.inr hmap)
  · rw [← hmaps]
    exact Value.findIn?_mergeOver_left hs ha hb hkey q

/-- A theme, and what is chosen in its place: a number in a map on both sides, null for a map, and a
map for a text. -/
def theme : Table Value :=
  [("size", .map [("h", .number 1.0), ("w", .number 2.0)]),
    ("style", .map [("color", .string "red")]), ("title", .string "Shop")]

def choices : Table Value :=
  [("size", .map [("w", .number 3.0)]), ("style", .null), ("title", .map [("en", .string "Store")])]

theorem theme_tabular : (Value.map theme).Tabular := by
  intro m hm
  simp only [theme, Value.parts, Value.partsOfEntries, List.cons_append, List.nil_append,
    List.append_nil, List.mem_cons, List.not_mem_nil, or_false, Value.map.injEq, reduceCtorEq,
    false_or] at hm
  unfold Table.Ordered
  rcases hm with rfl | rfl | rfl
  · decide
  · decide
  · decide

theorem choices_tabular : (Value.map choices).Tabular := by
  intro m hm
  simp only [choices, Value.parts, Value.partsOfEntries, List.cons_append, List.nil_append,
    List.append_nil, List.mem_cons, List.not_mem_nil, or_false, Value.map.injEq, reduceCtorEq,
    false_or] at hm
  unfold Table.Ordered
  rcases hm with rfl | rfl | rfl
  · decide
  · decide
  · decide

theorem theme_with_choices :
    (Value.map theme).Tabular ∧ (Value.map choices).Tabular ∧
    ∃ m, Makes "object/deepMerge" [.map theme, .map choices] (.map m) ∧
      (Value.map m).findIn? ["size", "w"] = some (.number 3.0) ∧
      (Value.map m).findIn? ["style"] = some .null ∧
      (Value.map m).findIn? ["title"] = some (.map [("en", .string "Store")]) ∧
      (Value.map m).findIn? ["size", "h"] = (Value.map theme).findIn? ["size", "h"] := by
  obtain ⟨⟨m, hmakes, hleaf, hmap, hmissing⟩, -⟩ :=
    deepMerge_right_biased theme_tabular choices_tabular
  refine ⟨theme_tabular, choices_tabular, m, hmakes, ?_, ?_, ?_, ?_⟩
  · exact hleaf ["size", "w"] (.number 3.0) rfl rfl
  · exact hleaf ["style"] .null rfl rfl
  · refine hmap ["title"] _ rfl fun u hu => ?_
    cases hu
    rfl
  · exact hmissing ["size"] "h" [] _ _ rfl rfl rfl

end Library.Object
end EntityMachines
