import EntityMachines.Evaluator
import EntityMachines.Proofs.Evaluation.Keeps
import EntityMachines.Proofs.Value.Renaming

/-!
Two runs in lockstep. Two computations agree if from related worlds they end alike: both with
related values or both with the same fault, and in worlds that are related again.
-/
namespace EntityMachines
namespace Eval

variable {α β γ δ : Type} {S : World → World → Prop}

/-- Two outcomes of the same kind, with related values in related worlds. -/
inductive Alike (S : World → World → Prop) (V : α → β → Prop) :
    EStateM.Result Fault World α → EStateM.Result Fault World β → Prop
  | ok {a : α} {b : β} {w w' : World} (values : V a b) (worlds : S w w') :
      Alike S V (.ok a w) (.ok b w')
  | error {fault : Fault} {w w' : World} (worlds : S w w') :
      Alike S V (.error fault w) (.error fault w')

def Agree (S : World → World → Prop) (V : α → β → Prop) (x : Eval α) (y : Eval β) : Prop :=
  ∀ w w', S w w' → Alike S V (x w) (y w')

namespace Agree

variable {V : α → β → Prop} {U : γ → δ → Prop}

theorem pure {a : α} {b : β} (h : V a b) : Agree S V (pure a) (pure b) :=
  fun _ _ hw => .ok h hw

theorem throw (fault : Fault) : Agree S V (throw fault) (throw fault) := fun _ _ hw => .error hw

theorem raise (e : Error) : Agree S V (Eval.raise e) (Eval.raise e) := throw _

theorem bind {x : Eval α} {y : Eval β} {f : α → Eval γ} {g : β → Eval δ} (hx : Agree S V x y)
    (hf : ∀ a b, V a b → Agree S U (f a) (g b)) : Agree S U (x >>= f) (y >>= g) := by
  intro w w' hw
  have hend := hx w w' hw
  simp only [Bind.bind, EStateM.bind]
  cases hxw : x w with
  | ok a w₁ =>
    cases hyw : y w' with
    | ok b w₁' =>
      rw [hxw, hyw] at hend
      obtain ⟨hab, hw₁⟩ := hend
      exact hf a b hab w₁ w₁' hw₁
    | error fault w₁' =>
      rw [hxw, hyw] at hend
      cases hend
  | error fault w₁ =>
    cases hyw : y w' with
    | ok b w₁' =>
      rw [hxw, hyw] at hend
      cases hend
    | error fault' w₁' =>
      rw [hxw, hyw] at hend
      cases hend with
      | error hw₁ => exact .error hw₁

/-- A branch that both sides take alike. -/
theorem ite {p q : Prop} [Decidable p] [Decidable q] {x x' : Eval α} {y y' : Eval β}
    (hpq : p ↔ q) (hx : p → Agree S V x y) (hx' : ¬p → Agree S V x' y') :
    Agree S V (if p then x else x') (if q then y else y') := by
  by_cases hp : p
  · rw [if_pos hp, if_pos (hpq.mp hp)]
    exact hx hp
  · rw [if_neg hp, if_neg (mt hpq.mpr hp)]
    exact hx' hp

theorem get : Agree S S get get := fun _ _ hw => .ok hw hw

theorem modify {f g : World → World} (h : ∀ w w', S w w' → S (f w) (g w')) :
    Agree S (fun _ _ => True) (modify f) (modify g) := fun w w' hw => .ok trivial (h w w' hw)

end Agree
end Eval

/-- What is done to the history when a closure is called. -/
def Closure.enter (k : Closure) (w : World) : World :=
  if k.captured.handlers ≠ {} then { w with history := .call k.captured.handlers :: w.history }
  else w

theorem Evaluator.invokeClosure_eq (ev : Evaluator) (k : Closure) (args : List Value) (w : World) :
    ev.invokeClosure k args w
      = ev.evaluate k.body (k.captured.child (k.parameters.bind args)) (k.enter w) := by
  unfold invokeClosure Closure.enter
  by_cases h : k.captured.handlers ≠ {}
  · rw [if_pos h, if_pos h]
    rfl
  · rw [if_neg h, if_neg h]

theorem Evaluator.invoke_of_closure (ev : Evaluator) {w : World} {id : Nat} {k : Closure}
    (hk : w.closures[id]? = some k) (args : List Value) :
    ev.invoke (.closure id) args w = ev.invokeClosure k args w := by
  have hread : (get : Eval World) w = .ok w w := rfl
  unfold invoke
  dsimp only
  rw [Eval.bind_of_ok hread, hk]

/-- How two runs correspond: the closures of the second go by other numbers, and only some of
the first can come up at all. -/
structure Correspondence where
  rename : Nat → Nat
  rename_injective : rename.Injective
  known : Nat → Prop

namespace Correspondence

variable (R : Correspondence)

def Known (v : Value) : Prop := ∀ id, v.Holds id → R.known id

def values (v u : Value) : Prop := u = v.rename R.rename ∧ R.Known v

def lists (vs us : List Value) : Prop :=
  us = vs.map (Value.rename R.rename) ∧ ∀ v ∈ vs, R.Known v

def tables (t s : Table Value) : Prop :=
  s = Table.onValues (Value.rename R.rename) t ∧ ∀ entry ∈ t, R.Known entry.2

variable {R} {v u : Value} {vs us : List Value} {t s : Table Value}

theorem values_undefined : R.values .undefined .undefined :=
  ⟨rfl, fun _ h => by simp [Value.Holds, Value.parts] at h⟩

theorem values_bool (b : Bool) : R.values (.bool b) (.bool b) :=
  ⟨rfl, fun _ h => by simp [Value.Holds, Value.parts] at h⟩

theorem values_number (x : Float) : R.values (.number x) (.number x) :=
  ⟨rfl, fun _ h => by simp [Value.Holds, Value.parts] at h⟩

theorem values_string (s : Text) : R.values (.string s) (.string s) :=
  ⟨rfl, fun _ h => by simp [Value.Holds, Value.parts] at h⟩

theorem known_array : R.Known (.array vs) ↔ ∀ v ∈ vs, R.Known v := by
  constructor
  · intro h v hv id hid
    exact h id (Value.holds_array.mpr ⟨v, hv, hid⟩)
  · intro h id hid
    obtain ⟨v, hv, hid⟩ := Value.holds_array.mp hid
    exact h v hv id hid

theorem known_map : R.Known (.map t) ↔ ∀ entry ∈ t, R.Known entry.2 := by
  constructor
  · intro h entry hentry id hid
    exact h id (Value.holds_map.mpr ⟨entry, hentry, hid⟩)
  · intro h id hid
    obtain ⟨entry, hentry, hid⟩ := Value.holds_map.mp hid
    exact h entry hentry id hid

theorem values_array : R.values (.array vs) (.array us) ↔ R.lists vs us := by
  rw [values, lists, Value.rename_array, Value.array.injEq, known_array]

theorem values_map : R.values (.map t) (.map s) ↔ R.tables t s := by
  rw [values, tables, Value.rename_map, Value.map.injEq, known_map]

theorem lists_nil : R.lists [] [] := ⟨rfl, fun _ h => nomatch h⟩

theorem lists_cons : R.lists (v :: vs) (u :: us) ↔ R.values v u ∧ R.lists vs us := by
  simp only [lists, values, List.map_cons, List.cons.injEq, List.forall_mem_cons]
  grind

/-- Lists correspond item by item. -/
theorem lists_induction {motive : (vs us : List Value) → R.lists vs us → Prop}
    (nil : motive [] [] lists_nil)
    (cons : ∀ {v u vs us} (first : R.values v u) (rest : R.lists vs us), motive vs us rest →
      motive (v :: vs) (u :: us) (lists_cons.mpr ⟨first, rest⟩)) {vs us : List Value}
    (h : R.lists vs us) : motive vs us h := by
  induction vs generalizing us with
  | nil =>
    cases h.1
    exact nil
  | cons v vs ih =>
    obtain ⟨u, us, rfl⟩ : ∃ u us', us = u :: us' := ⟨_, _, h.1⟩
    obtain ⟨hv, hvs⟩ := lists_cons.mp h
    exact cons hv hvs (ih hvs)

theorem lists_singleton (h : R.values v u) : R.lists [v] [u] := lists_cons.mpr ⟨h, lists_nil⟩

theorem lists.append {vs' us' : List Value} (h : R.lists vs us) (h' : R.lists vs' us') :
    R.lists (vs ++ vs') (us ++ us') := by
  obtain ⟨rfl, hknown⟩ := h
  obtain ⟨rfl, hknown'⟩ := h'
  exact ⟨List.map_append.symm, fun v hv => (List.mem_append.mp hv).elim (hknown v) (hknown' v)⟩

theorem tables_nil : R.tables [] [] := ⟨rfl, fun _ h => nomatch h⟩

theorem tables_cons {key : Text} :
    R.tables ((key, v) :: t) ((key, u) :: s) ↔ R.values v u ∧ R.tables t s := by
  simp only [tables, values, Table.onValues_cons, List.cons.injEq, Prod.mk.injEq, true_and,
    List.forall_mem_cons]
  grind

/-- Tables correspond entry by entry. -/
theorem tables_induction {motive : (t s : Table Value) → R.tables t s → Prop}
    (nil : motive [] [] tables_nil)
    (cons : ∀ {key v u t s} (first : R.values v u) (rest : R.tables t s), motive t s rest →
      motive ((key, v) :: t) ((key, u) :: s) (tables_cons.mpr ⟨first, rest⟩)) {t s : Table Value}
    (h : R.tables t s) : motive t s h := by
  induction t generalizing s with
  | nil =>
    cases h.1
    exact nil
  | cons entry t ih =>
    obtain ⟨key, v⟩ := entry
    obtain ⟨u, s, rfl⟩ : ∃ u s', s = (key, u) :: s' := ⟨_, _, h.1⟩
    obtain ⟨hv, hs⟩ := tables_cons.mp h
    exact cons hv hs (ih hs)

namespace values

variable (h : R.values v u)

include h

theorem isTruthy : v.isTruthy = u.isTruthy := by rw [h.1, Value.isTruthy_rename]

theorem toNumber : v.toNumber = u.toNumber := by rw [h.1, Value.toNumber_rename]

theorem display : v.display = u.display := by rw [h.1, Value.display_rename]

theorem kind : v.kind = u.kind := by rw [h.1, Value.kind_rename]

theorem comparable : v.comparable = u.comparable := by rw [h.1, Value.comparable_rename]

theorem items : R.lists v.items u.items := by
  obtain ⟨rfl, hknown⟩ := h
  refine ⟨Value.items_rename v, fun item hitem id hid => hknown id ?_⟩
  cases v with
  | array items => exact Value.holds_array.mpr ⟨item, hitem, hid⟩
  | undefined | null => cases hitem
  | _ =>
    rw [List.mem_singleton.mp hitem] at hid
    exact hid

theorem entries : R.tables v.entries u.entries := by
  obtain ⟨rfl, hknown⟩ := h
  refine ⟨Value.entries_rename v, fun entry hentry id hid => hknown id ?_⟩
  cases v with
  | map entries => exact Value.holds_map.mpr ⟨entry, hentry, hid⟩
  | _ => cases hentry

end values

/-- What is computed from related arguments without regard to the numbers of closures is
related. -/
theorem ofEquivariant {f : Arguments → Except Error Value} (hf : Equivariant f)
    (h : R.lists vs us) (hv : f vs = .ok v) : ∃ u, f us = .ok u ∧ R.values v u := by
  obtain ⟨rfl, hknown⟩ := h
  refine ⟨v.rename R.rename, ?_, rfl, fun id hid => ?_⟩
  · rw [hf R.rename R.rename_injective, hv]
    rfl
  · obtain ⟨arg, harg, hid⟩ := hf.holds_of_result hv hid
    exact hknown arg harg id hid

theorem ofExcept {f : Arguments → Except Error Value} (hf : Equivariant f) (h : R.lists vs us)
    (S : World → World → Prop) :
    Eval.Agree S R.values (Eval.ofExcept (f vs)) (Eval.ofExcept (f us)) := by
  cases hv : f vs with
  | ok v =>
    obtain ⟨u, hu, hvu⟩ := ofEquivariant hf h hv
    rw [hu]
    exact .pure hvu
  | error e =>
    have hu : f us = .error e := by
      rw [h.1, hf R.rename R.rename_injective, hv]
      rfl
    rw [hu]
    exact .raise e

/-- The same for functions that give a value in any case. -/
theorem ofFunction {f : Arguments → Value}
    (hf : ∀ ρ : Nat → Nat, ρ.Injective → ∀ args, f (args.map (Value.rename ρ)) = (f args).rename ρ)
    (h : R.lists vs us) : R.values (f vs) (f us) := by
  obtain ⟨u, hu, hvu⟩ := ofEquivariant (Equivariant.of_total hf) h rfl
  rwa [Except.ok.inj hu]

end Correspondence

/-- A correspondence between two runs, of their worlds and of the contexts in which they evaluate
an expression. It is kept by all that evaluation does by itself: it takes expressions apart, binds
local names, reads bindings, and makes and calls closures. -/
structure Lockstep extends Correspondence where
  worlds : World → World → Prop
  /-- The contexts in which an expression may be evaluated side by side. -/
  scopes : Value → Context → Context → Prop
  /-- The operators that may be called. -/
  admits : Text → Prop
  literal : ∀ {e c d}, scopes e c d → toCorrespondence.values e e
  item : ∀ {items c d}, scopes (.array items) c d → ∀ e ∈ items, scopes e c d
  head : ∀ {op args c d}, scopes (.array (.string op :: args)) c d → admits op
  now : ∀ {e c d}, scopes e c d → c.now = d.now
  child : ∀ {e c d b b'}, scopes e c d → toCorrespondence.tables b b' →
    scopes e (c.child b) (d.child b')
  binding : ∀ {s c d}, scopes (.string s) c d → Expr.isBinding (.string s) = true →
    Eval.Agree worlds toCorrespondence.values (c.resolveText s) (d.resolveText s)
  capture : ∀ {w w' body c d} (parameters), worlds w w' → scopes body c d →
    worlds { w with closures := w.closures.push ⟨parameters, body, c⟩ }
      { w' with closures := w'.closures.push ⟨parameters, body, d⟩ }
    ∧ toCorrespondence.values (.closure w.closures.size) (.closure w'.closures.size)
  lookup : ∀ {w w' id}, worlds w w' → known id →
    (w.closures[id]? = none ∧ w'.closures[rename id]? = none) ∨
    ∃ parameters body c d, w.closures[id]? = some ⟨parameters, body, c⟩
      ∧ w'.closures[rename id]? = some ⟨parameters, body, d⟩ ∧ scopes body c d
  enter : ∀ {w w' body c d} (parameters), worlds w w' → scopes body c d →
    worlds (Closure.enter ⟨parameters, body, c⟩ w) (Closure.enter ⟨parameters, body, d⟩ w')

namespace Lockstep

variable (L : Lockstep)

/-- Two computations that agree on a value. -/
abbrev Agrees (x y : Eval Value) : Prop := Eval.Agree L.worlds L.values x y

/-- Expressions are evaluated alike. -/
def Follows (ev : Evaluator) : Prop :=
  ∀ ⦃e c d⦄, L.scopes e c d → L.Agrees (ev.evaluate e c) (ev.evaluate e d)

/-- An operator goes alike on both sides if evaluation does. -/
def Serves (apply : Operator) : Prop :=
  ∀ ⦃ev : Evaluator⦄, L.Follows ev → ∀ ⦃op args c d⦄,
    L.scopes (.array (.string op :: args)) c d → L.Agrees (apply ev c args) (apply ev d args)

end Lockstep
end EntityMachines
