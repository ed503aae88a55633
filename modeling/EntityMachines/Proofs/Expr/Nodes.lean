import EntityMachines.Expr
import EntityMachines.Proofs.Value.Paths
import EntityMachines.Proofs.Value.Renaming

/-!
The nodes of an expression are what is reached from it through arrays. Its bindings and the names
of its calls are those of its nodes. A text is a binding exactly if it is written from a root and a
path.
-/
namespace EntityMachines
namespace Expr

def nodes (e : Value) : List Value := (walk e).map (·.node)

/-- The names at the heads of the calls in an expression. -/
def operators (e : Value) : List Text := (walk e).filterMap fun visit => operator? visit.node

/-- Which nodes are visited does not depend on where an expression stands. -/
theorem walkFrom_nodes (parent : Option Value) (index : Nat) (e : Value) :
    (walkFrom parent index e).map (·.node) = nodes e := by
  cases e <;> rfl

theorem walkItems_nodes (parent : Value) (index : Nat) (items : List Value) :
    (walkItems parent index items).map (·.node) = items.flatMap nodes := by
  induction items generalizing index with
  | nil => rfl
  | cons item rest ih => rw [walkItems, List.map_append, walkFrom_nodes, ih, List.flatMap_cons]

theorem nodes_array (items : List Value) :
    nodes (.array items) = .array items :: items.flatMap nodes := by
  rw [nodes, walk, walkFrom, List.map_cons, walkItems_nodes]

theorem self_mem_nodes (e : Value) : e ∈ nodes e := by
  cases e with
  | array items => rw [nodes_array]; exact List.mem_cons_self
  | _ => exact List.mem_cons_self

theorem mem_nodes_of_item {items : List Value} {item node : Value} (hitem : item ∈ items)
    (h : node ∈ nodes item) : node ∈ nodes (.array items) := by
  rw [nodes_array]
  exact List.mem_cons_of_mem _ (List.mem_flatMap.mpr ⟨item, hitem, h⟩)

theorem mem_bindings {e : Value} {s : Text} :
    s ∈ bindings e ↔ .string s ∈ nodes e ∧ isBinding (.string s) = true := by
  simp only [bindings, nodes, List.mem_filterMap, List.mem_map]
  constructor
  · rintro ⟨visit, hvisit, hs⟩
    split at hs
    next t hnode =>
      split at hs
      next hbinding =>
        cases hs
        exact ⟨⟨visit, hvisit, hnode⟩, hbinding⟩
      next => cases hs
    next => cases hs
  · rintro ⟨⟨visit, hvisit, hnode⟩, hbinding⟩
    exact ⟨visit, hvisit, by rw [hnode]; exact if_pos hbinding⟩

theorem mem_operators {e : Value} {op : Text} :
    op ∈ operators e ↔ ∃ node ∈ nodes e, operator? node = some op := by
  have hfilter : operators e = (nodes e).filterMap operator? := by
    rw [nodes, List.filterMap_map]
    rfl
  rw [hfilter, List.mem_filterMap]

theorem bindings_item {items : List Value} {item : Value} (hitem : item ∈ items) {s : Text}
    (h : s ∈ bindings item) : s ∈ bindings (.array items) := by
  obtain ⟨hnode, hbinding⟩ := mem_bindings.mp h
  exact mem_bindings.mpr ⟨mem_nodes_of_item hitem hnode, hbinding⟩

theorem operators_item {items : List Value} {item : Value} (hitem : item ∈ items) {op : Text}
    (h : op ∈ operators item) : op ∈ operators (.array items) := by
  obtain ⟨node, hnode, hop⟩ := mem_operators.mp h
  exact mem_operators.mpr ⟨node, mem_nodes_of_item hitem hnode, hop⟩

theorem head_mem_operators (op : Text) (args : List Value) :
    op ∈ operators (.array (.string op :: args)) :=
  mem_operators.mpr ⟨_, self_mem_nodes _, rfl⟩

end Expr

namespace Binding

variable {t rest root : Text} {path : Path} {b : Binding}

theorem ofText?_of_unmarked (h : t.head? ≠ some 64) : ofText? t = none := by
  cases t with
  | nil => rfl
  | cons mark rest =>
    have hmark : mark ≠ 64 := by simpa using h
    simp [ofText?, show ('@' : Char).toUInt8 = 64 from rfl, hmark]

theorem ofText?_marked (h : Path.ofText rest = root :: path) :
    ofText? (64 :: rest) = if root.isEmpty then none else some ⟨root, path, 64 :: rest⟩ := by
  cases rest with
  | nil =>
    cases h
    rfl
  | cons c rest =>
    simp [ofText?, show ('@' : Char).toUInt8 = 64 from rfl, h]

/-- The bindings are the texts that are written from a root that is not empty and a path, both
without dots of their own. -/
theorem ofText?_eq_some_iff : ofText? t = some b ↔
    b.written = t ∧ t = 64 :: Path.toText (b.root :: b.path) ∧ b.root ≠ [] ∧
      ∀ key ∈ b.root :: b.path, (46 : Byte) ∉ key := by
  constructor
  · intro h
    obtain ⟨rest, rfl⟩ : ∃ rest, t = 64 :: rest := by
      by_contra hmark
      rw [ofText?_of_unmarked] at h
      · cases h
      · intro hhead
        exact hmark (List.head?_eq_some_iff.mp hhead)
    obtain ⟨root, path, hsplit⟩ := List.exists_cons_of_ne_nil (Path.ofText_ne_nil rest)
    rw [ofText?_marked hsplit] at h
    split at h
    next => cases h
    next hroot =>
      cases h
      refine ⟨rfl, ?_, by simpa using hroot, ?_⟩
      · rw [← hsplit, Path.toText_ofText]
      · intro key hkey
        rw [← hsplit] at hkey
        exact Text.not_mem_of_mem_splitByte hkey
  · rintro ⟨rfl, hwritten, hroot, hdots⟩
    have hsplit := Path.ofText_toText (List.cons_ne_nil b.root b.path) hdots
    rw [hwritten, ofText?_marked hsplit, if_neg (by simpa using hroot), ← hwritten]

/-- A mark with anything but a dot behind it is enough. -/
theorem isSome_ofText?_iff :
    (ofText? t).isSome = true ↔ 2 ≤ t.length ∧ t[0]? = some 64 ∧ t[1]? ≠ some 46 := by
  match t with
  | [] => simp [ofText?]
  | [mark] => simp [ofText?]
  | mark :: c :: rest =>
    by_cases hmark : mark = 64
    · subst hmark
      obtain ⟨part, parts, -, hsplit⟩ := Text.splitByte_cons 46 c rest
      by_cases hdot : c = 46
      · subst hdot
        have hnone := ofText?_marked hsplit
        simp [hnone]
      · rw [if_neg (by simpa using hdot)] at hsplit
        have hsome := ofText?_marked hsplit
        simp [hsome, hdot]
    · have hnone : ofText? (mark :: c :: rest) = none := ofText?_of_unmarked (by simpa using hmark)
      simp [hnone, hmark]

theorem isBinding (h : ofText? t = some b) : Expr.isBinding (.string t) = true := by
  rw [(ofText?_eq_some_iff.mp h).2.1]
  rfl

/-- The keys of a binding have no dots in them. -/
theorem dot_not_mem {key : Text} (h : ofText? t = some b) (hkey : key ∈ b.path) :
    (46 : Byte) ∉ key := by
  obtain ⟨-, -, -, hdots⟩ := ofText?_eq_some_iff.mp h
  exact hdots key (List.mem_cons_of_mem b.root hkey)

end Binding
end EntityMachines
