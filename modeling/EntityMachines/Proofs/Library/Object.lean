import EntityMachines.Proofs.Evaluation.Reads
import EntityMachines.Proofs.Value.Paths

/-!
The operators that read, set and look for what lies at a dotted text. Main statement: reading and
changing at the end of a path keep the laws of a lens for all values and paths, and so do the
operators, whose dotted texts the operator for paths puts together from their segments.
-/
namespace EntityMachines
namespace Library

/-- A call of an operator comes to a value wherever its arguments come to the given ones. -/
def Makes (name : Text) (args : List Value) (v : Value) : Prop :=
  ∀ (n : Nat) (ctx : Context) (es : List Value) (w later : World),
    (Evaluator.withFuel standard n).evaluateAll ctx es w = .ok args later →
      (Evaluator.withFuel standard (n + 1)).evaluate (Expr.call name es) ctx w = .ok v later

namespace Makes

variable {name : Text} {args : List Value} {v : Value}

theorem ofValues {f : Arguments → Except Error Value}
    (hop : Evaluator.operator? standard name = some (Operator.ofValues f)) (hf : f args = .ok v) :
    Makes name args v := by
  intro n ctx es w later hargs
  have hcall : Operator.ofValues f (Evaluator.withFuel standard n) ctx es w
      = Eval.ofExcept (f args) later := Eval.bind_of_ok hargs
  rw [Evaluator.evaluate_call hop, hcall, hf]
  rfl

theorem ofTotal {f : Arguments → Value}
    (hop : Evaluator.operator? standard name = some (Operator.ofValues fun args => .ok (f args))) :
    Makes name args (f args) := ofValues hop rfl

end Makes

namespace Object

variable {p : Path}

theorem has_assocIn (v : Value) (p : Path) (x : Value) : has (v.assocIn p x) p = true := by
  induction p generalizing v with
  | nil => rfl
  | cons key p ih =>
    have hfound : (v.put key ((v.get key).assocIn p x)).find? key = some ((v.get key).assocIn p x) :=
      Table.find?_insert_self _ key _
    rw [Value.assocIn, has, hfound]
    exact ih _

/-- What is there, or the fallback in the place of nothing. -/
def orElse (found fallback : Value) : Value :=
  match found with
  | .undefined => fallback
  | found => found

theorem getOr_of_isMap {v : Value} (h : v.isMap = true) (path : Path) (fallback : Value) :
    getOr v path fallback = orElse (v.getIn path) fallback := by
  cases v with
  | map entries => rfl
  | undefined | null | bool | number | string | array | closure => cases h

/-- The text that an argument contributes to a path. -/
def segment (v : Value) : Text := if v.isNullish then [] else v.display

theorem map_text (args : Arguments) :
    (List.range args.length).map (fun i => args.text i) = args.map segment := by
  refine List.ext_getElem (by simp) fun i hi _ => ?_
  have hlt : i < args.length := by simpa using hi
  have hnth : args.nth i = args[i] := by simp [Arguments.nth, hlt]
  simp [Arguments.text, segment, hnth]

theorem joinPath_of_ne_nil {args : Arguments} (h : args ≠ []) :
    joinPath args = .ok (.string (Path.toText (args.map segment))) := by
  unfold joinPath
  rw [if_neg (by simpa using h), map_text]

theorem makes_set (entries : Table Value) (s : Text) (x : Value) :
    Makes "object/set" [.map entries, .string s, x]
      ((Value.map entries).assocIn (Path.ofText s) x) :=
  .ofTotal (f := fun args => (args.nth 0).orEmptyMap.assocIn (path args) (args.nth 2))
    (operator?_of_place 87 rfl)

theorem makes_has (v : Value) (s : Text) :
    Makes "object/has" [v, .string s] (.bool (has v (Path.ofText s))) :=
  .ofTotal (f := fun args => .bool (has (args.nth 0) (path args))) (operator?_of_place 88 rfl)

theorem makes_get {v : Value} (h : v.isMap = true) (s : Text) (fallback : Value) :
    Makes "object/get" [v, .string s, fallback] (orElse (v.getIn (Path.ofText s)) fallback) := by
  rw [← getOr_of_isMap h]
  exact .ofTotal (f := fun args => getOr (args.nth 0) (path args) (args.nth 2))
    (operator?_of_place 86 rfl)

theorem makes_path {args : List Value} (h : args ≠ []) :
    Makes "path" args (.string (Path.toText (args.map segment))) :=
  .ofValues (operator?_of_place 98 rfl) (joinPath_of_ne_nil h)

theorem lens_laws :
    (∀ (v : Value) (p : Path) (x : Value), (v.assocIn p x).getIn p = x) ∧
    (∀ (v : Value) (p : Path) (x y : Value), (v.assocIn p x).assocIn p y = v.assocIn p y) ∧
    (∀ (v : Value) (p q : Path) (x y : Value), p.Apart q →
      (v.assocIn p x).getIn q = v.getIn q ∧
      (v.assocIn p x).assocIn q y = (v.assocIn q y).assocIn p x) ∧
    (∀ (entries : Table Value) (s : Text) (x : Value), ∃ v,
      Makes "object/set" [.map entries, .string s, x] v ∧
      v = (Value.map entries).assocIn (Path.ofText s) x ∧
      Makes "object/has" [v, .string s] (.bool true) ∧
      ∀ fallback, Makes "object/get" [v, .string s, fallback] (orElse x fallback) ∧
        Makes "object/get" [.map entries, .string s, fallback]
          (orElse ((Value.map entries).getIn (Path.ofText s)) fallback)) ∧
    ∀ args : List Value, args ≠ [] → (∀ arg ∈ args, (46 : Byte) ∉ segment arg) →
      ∃ s, Makes "path" args (.string s) ∧ Path.ofText s = args.map segment := by
  refine ⟨Value.getIn_assocIn_self, Value.assocIn_assocIn, fun v p q x y h =>
    ⟨Value.getIn_assocIn_of_apart v h x, Value.assocIn_comm v h x y⟩, fun entries s x => ?_,
    fun args hne hdots => ⟨_, makes_path hne, ?_⟩⟩
  · have hmap := Value.assocIn_isMap (.map entries) (Path.ofText_ne_nil s) x
    have hhas := makes_has ((Value.map entries).assocIn (Path.ofText s) x) s
    have hget := makes_get hmap s
    rw [has_assocIn] at hhas
    rw [Value.getIn_assocIn_self] at hget
    exact ⟨_, makes_set entries s x, rfl, hhas, fun fallback =>
      ⟨hget fallback, makes_get rfl s fallback⟩⟩
  · refine Path.ofText_toText (by simpa using hne) fun key hkey => ?_
    obtain ⟨arg, harg, rfl⟩ := List.mem_map.mp hkey
    exact hdots arg harg

/-- A change below a number replaces it by a map and leaves its neighbour; a path with an empty
segment in the middle is put together and taken apart. -/
theorem lens_laws_of_scalars :
    Path.Apart ["a", "b"] ["c"] ∧
    ((Value.map [("a", .number 1), ("c", .null)]).assocIn ["a", "b"] (.bool true)).getIn ["c"]
      = (Value.map [("a", .number 1), ("c", .null)]).getIn ["c"] ∧
    ∃ s, Makes "path" [.string "a", .null, .string "b"] (.string s) ∧
      Path.ofText s = ["a", "", "b"] := by
  have hapart : Path.Apart ["a", "b"] ["c"] := by
    unfold Path.Apart
    decide
  obtain ⟨-, -, hlaws, -, hpath⟩ := lens_laws
  exact ⟨hapart, (hlaws _ _ _ _ .undefined hapart).1,
    hpath [.string "a", .null, .string "b"] (List.cons_ne_nil _ _) (by decide)⟩

end Object
end Library
end EntityMachines
