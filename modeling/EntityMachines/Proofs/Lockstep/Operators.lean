import EntityMachines.Proofs.Library.Renaming
import EntityMachines.Proofs.Lockstep.Basic

/-!
The core operators go alike in two runs, effects apart.
-/
namespace EntityMachines
namespace Lockstep

open Eval (Agree)
open Value (rename)

variable {L : Lockstep} {ev : Evaluator} {c d : Context} {op : Text} {args : List Value}

/-- The argument at a place is the same expression on both sides. -/
theorem argument (op : Text) (args : List Value) (i : Nat) :
    Agree L.worlds (fun e e' => e = e' ∧ e ∈ args) (Operator.argument op args i)
      (Operator.argument op args i) := by
  unfold Operator.argument
  cases h : args[i]? with
  | some e => exact .pure ⟨rfl, List.mem_of_getElem? h⟩
  | none => exact .raise _

theorem requiredClosure (op : Text) {f g : Value} (h : L.values f g) :
    L.Agrees (Operator.requiredClosure op f) (Operator.requiredClosure op g) := by
  have hkind := h.kind
  obtain ⟨rfl, hknown⟩ := h
  cases f with
  | closure id => exact .pure ⟨rfl, hknown⟩
  | array items =>
    rw [Value.rename_array] at hkind ⊢
    exact .raise _
  | map entries =>
    rw [Value.rename_map] at hkind ⊢
    exact .raise _
  | _ => exact .raise _

/-- Related arguments, taken by place, are related or missing on both sides. -/
theorem lambdaAt (op : Text) {vs us : List Value} (h : L.lists vs us) (i : Nat) :
    L.Agrees (Operator.lambdaAt op vs i) (Operator.lambdaAt op us i) := by
  obtain ⟨rfl, hknown⟩ := h
  have hargument : L.Agrees (Operator.argument op vs i)
      (Operator.argument op (vs.map (rename L.rename)) i) := by
    unfold Operator.argument
    rw [List.getElem?_map]
    cases hv : vs[i]? with
    | some v => exact .pure ⟨rfl, hknown v (List.mem_of_getElem? hv)⟩
    | none => exact .raise _
  exact hargument.bind fun f g hfg => requiredClosure op hfg

/-- The arguments that positional parameters take; a lone array is taken apart. -/
def spread : List Value → List Value
  | [.array items] => items
  | args => args

theorem spread_rename (ρ : Nat → Nat) (args : List Value) :
    spread (args.map (rename ρ)) = (spread args).map (rename ρ) := by
  match args with
  | [] => rfl
  | [.array items] => simp [spread]
  | [.undefined] | [.null] | [.bool _] | [.number _] | [.string _] | [.map _] | [.closure _] =>
    simp [spread]
  | v :: v' :: rest => simp [spread]

theorem bind_positional (names : List Text) (args : List Value) :
    (Parameters.positional names).bind args
      = Table.ofEntries (names.zipIdx.map fun p => (p.1, (spread args).getD p.2 .undefined)) := by
  match args with
  | [] => rfl
  | [.array items] => rfl
  | [.undefined] | [.null] | [.bool _] | [.number _] | [.string _] | [.map _] | [.closure _] => rfl
  | v :: v' :: rest => cases v <;> rfl

theorem tables_insert {t s : Table Value} {v u : Value} (h : L.tables t s) (key : Text)
    (hvu : L.values v u) : L.tables (t.insert key v) (s.insert key u) := by
  have hargs : L.lists [.map t, v] [.map s, u] :=
    Correspondence.lists_cons.mpr
      ⟨Correspondence.values_map.mpr h, Correspondence.lists_singleton hvu⟩
  have hput := Correspondence.ofFunction (f := fun args => (args.nth 0).put key (args.nth 1))
    (fun ρ _ args => by simp) hargs
  exact Correspondence.values_map.mp hput

/-- The local names of a call are bound to related values. -/
theorem tables_bind (parameters : Parameters) {vs us : List Value} (h : L.lists vs us) :
    L.tables (parameters.bind vs) (parameters.bind us) := by
  refine Correspondence.values_map.mp
    (Correspondence.ofFunction (f := fun args => .map (parameters.bind args)) ?_ h)
  intro ρ _ args
  rw [Value.rename_map, Value.map.injEq]
  cases parameters with
  | single name =>
    simp only [Parameters.bind, Table.onValues_cons, Table.onValues_nil,
      Library.headD_rename args]
  | positional names =>
    have hplace (bound : List Value) (i : Nat) :
        (bound.map (rename ρ)).getD i .undefined = (bound.getD i .undefined).rename ρ := by
      rw [List.getD_eq_getElem?_getD, List.getD_eq_getElem?_getD, List.getElem?_map,
        Library.getD_rename]
    rw [bind_positional, bind_positional, spread_rename, ← Table.ofEntries_onValues, List.map_map]
    simp only [hplace, Function.comp_def]

section evaluation

variable (hev : L.Follows ev)

include hev

theorem invokeClosure {parameters : Parameters} {body : Value} {vs us : List Value}
    (hscopes : L.scopes body c d) (h : L.lists vs us) :
    L.Agrees (ev.invokeClosure ⟨parameters, body, c⟩ vs)
      (ev.invokeClosure ⟨parameters, body, d⟩ us) := by
  intro w w' hw
  rw [Evaluator.invokeClosure_eq, Evaluator.invokeClosure_eq]
  exact hev (L.child hscopes (tables_bind parameters h)) _ _ (L.enter parameters hw hscopes)

/-- A call of related closures, which have one body, with related arguments. -/
theorem invoke {f g : Value} {vs us : List Value} (hfg : L.values f g) (h : L.lists vs us) :
    L.Agrees (ev.invoke f vs) (ev.invoke g us) := by
  have hkind := hfg.kind
  obtain ⟨rfl, hknown⟩ := hfg
  cases f with
  | closure id =>
    have hid : L.known id := hknown id (Value.holds_closure.mpr rfl)
    refine Agree.get.bind fun w w' hw => ?_
    rcases L.lookup hw hid with ⟨hnone, hnone'⟩ | ⟨parameters, body, c, d, hk, hk', hscopes⟩
    · rw [hnone]
      dsimp only
      rw [hnone']
      exact .raise _
    · rw [hk]
      dsimp only
      rw [hk']
      exact invokeClosure hev hscopes h
  | array items =>
    rw [Value.rename_array] at hkind ⊢
    exact .raise _
  | map entries =>
    rw [Value.rename_map] at hkind ⊢
    exact .raise _
  | _ => exact .raise _

section calls

variable {f g : Value} (hfg : L.values f g)

include hfg

theorem holds {item item' : Value} (h : L.values item item') :
    Agree L.worlds Eq (Collection.holds ev f item) (Collection.holds ev g item') :=
  (invoke hev hfg (Correspondence.lists_singleton h)).bind fun _ _ hv => .pure hv.isTruthy

theorem mapItems {items others : List Value} (h : L.lists items others) :
    Agree L.worlds L.lists (Collection.mapItems ev f items) (Collection.mapItems ev g others) := by
  induction h using Correspondence.lists_induction with
  | nil => exact .pure Correspondence.lists_nil
  | cons hitem _ ih =>
    unfold Collection.mapItems
    exact (invoke hev hfg (Correspondence.lists_singleton hitem)).bind fun v u hvu =>
      ih.bind fun vs us hvs => .pure (Correspondence.lists_cons.mpr ⟨hvu, hvs⟩)

theorem filterItems {items others : List Value} (h : L.lists items others) :
    Agree L.worlds L.lists (Collection.filterItems ev f items)
      (Collection.filterItems ev g others) := by
  induction h using Correspondence.lists_induction with
  | nil => exact .pure Correspondence.lists_nil
  | cons hitem _ ih =>
    unfold Collection.filterItems
    refine (holds hev hfg hitem).bind fun b b' hb =>
      Agree.ite (by rw [hb]) (fun _ => ?_) fun _ => ?_
    · exact ih.bind fun _ _ hvs => .pure (Correspondence.lists_cons.mpr ⟨hitem, hvs⟩)
    · exact ih

/-- An item is found at one place on both sides, or on neither. -/
inductive Found (L : Lockstep) : Option (Nat × Value) → Option (Nat × Value) → Prop
  | nothing : Found L none none
  | item {v u : Value} (place : Nat) (values : L.values v u) :
      Found L (some (place, v)) (some (place, u))

theorem findItem {items others : List Value} (h : L.lists items others) (place : Nat) :
    Agree L.worlds (Found L) (Collection.findItem ev f place items)
      (Collection.findItem ev g place others) := by
  induction h using Correspondence.lists_induction generalizing place with
  | nil => exact .pure .nothing
  | cons hitem _ ih =>
    unfold Collection.findItem
    refine (holds hev hfg hitem).bind fun b b' hb =>
      Agree.ite (by rw [hb]) (fun _ => ?_) fun _ => ?_
    · exact .pure (.item place hitem)
    · exact ih (place + 1)

theorem sumItems {items others : List Value} (h : L.lists items others) (total : Float) :
    Agree L.worlds Eq (Collection.sumItems ev f total items)
      (Collection.sumItems ev g total others) := by
  induction h using Correspondence.lists_induction generalizing total with
  | nil => exact .pure rfl
  | cons hitem _ ih =>
    unfold Collection.sumItems
    refine (invoke hev hfg (Correspondence.lists_singleton hitem)).bind fun v u hvu => ?_
    rw [hvu.toNumber]
    exact ih _

end calls

section arguments

variable (hargs : ∀ e ∈ args, L.scopes e c d)

include hargs

theorem required (op : Text) (i : Nat) :
    L.Agrees (Operator.required op ev c args i) (Operator.required op ev d args i) :=
  (argument op args i).bind fun e e' h => by
    obtain ⟨rfl, he⟩ := h
    exact hev (hargs e he)

theorem optional (i : Nat) :
    L.Agrees (Operator.optional ev c args i) (Operator.optional ev d args i) := by
  unfold Operator.optional
  cases h : args[i]? with
  | some e => exact hev (hargs e (List.mem_of_getElem? h))
  | none => exact .pure Correspondence.values_undefined

theorem requiredLambda (op : Text) (i : Nat) :
    L.Agrees (Operator.requiredLambda op ev c args i) (Operator.requiredLambda op ev d args i) :=
  (required hev hargs op i).bind fun _ _ hfg => requiredClosure op hfg

theorem evaluateAll :
    Agree L.worlds L.lists (ev.evaluateAll c args) (ev.evaluateAll d args) := by
  unfold Evaluator.evaluateAll
  induction args with
  | nil => exact .pure Correspondence.lists_nil
  | cons e rest ih =>
    rw [List.mapM_cons, List.mapM_cons]
    exact (hev (hargs e List.mem_cons_self)).bind fun v u hvu =>
      (ih fun e he => hargs e (List.mem_cons_of_mem _ he)).bind fun vs us hvs =>
        .pure (Correspondence.lists_cons.mpr ⟨hvu, hvs⟩)

theorem ofValues {f : Arguments → Except Error Value} (hf : Equivariant f) :
    L.Agrees (Operator.ofValues f ev c args) (Operator.ofValues f ev d args) :=
  (evaluateAll hev hargs).bind fun _ _ h => Correspondence.ofExcept hf h L.worlds

theorem ofValuesWith {f : Evaluator → Arguments → Eval Value}
    (hf : ∀ vs us, L.lists vs us → L.Agrees (f ev vs) (f ev us)) :
    L.Agrees (Operator.ofValuesWith f ev c args) (Operator.ofValuesWith f ev d args) :=
  (evaluateAll hev hargs).bind hf

theorem arithmetic_fold (f : Float → Float → Float) (acc : Float) :
    L.Agrees (Arithmetic.fold ev c f acc args) (Arithmetic.fold ev d f acc args) := by
  induction args generalizing acc with
  | nil => exact .pure (Correspondence.values_number acc)
  | cons e rest ih =>
    unfold Arithmetic.fold
    refine (hev (hargs e List.mem_cons_self)).bind fun v u hvu => ?_
    rw [hvu.toNumber]
    exact ih (fun e he => hargs e (List.mem_cons_of_mem _ he)) _

theorem arithmetic (op : ArithmeticOp) :
    L.Agrees (Arithmetic.apply op ev c args) (Arithmetic.apply op ev d args) := by
  have hnumber (x : Float) : L.Agrees (pure (.number x)) (pure (.number x)) :=
    .pure (Correspondence.values_number x)
  have hoperand (i : Nat) : Agree L.worlds Eq
      (do return (← Operator.required op.name ev c args i).toNumber : Eval Float)
      (do return (← Operator.required op.name ev d args i).toNumber : Eval Float) :=
    (required hev hargs op.name i).bind fun v u hvu => .pure hvu.toNumber
  unfold Arithmetic.apply
  cases op with
  | add | multiply | min | max => exact arithmetic_fold hev hargs _ _
  | subtract =>
    refine (hoperand 0).bind fun a a' ha => Agree.ite Iff.rfl (fun _ => ?_) fun _ => ?_
    · rw [ha]
      exact hnumber _
    · refine (optional hev hargs 1).bind fun b b' hb => ?_
      rw [ha, hb.toNumber]
      exact hnumber _
  | divide | modulo =>
    refine (hoperand 0).bind fun a a' ha => (hoperand 1).bind fun b b' hb => ?_
    rw [ha, hb]
    exact hnumber _
  | abs | floor | ceil | round =>
    refine (hoperand 0).bind fun a a' ha => ?_
    rw [ha]
    exact hnumber _
  | clamp =>
    refine (hoperand 0).bind fun x x' hx => (hoperand 1).bind fun low low' hlow => ?_
    refine (hoperand 2).bind fun high high' hhigh => ?_
    rw [hx, hlow, hhigh]
    exact hnumber _

theorem comparison (op : ComparisonOp) :
    L.Agrees (Comparison.apply op ev c args) (Comparison.apply op ev d args) := by
  unfold Comparison.apply
  refine (required hev hargs _ 0).bind fun a a' ha =>
    (required hev hargs _ 1).bind fun b b' hb => ?_
  have hdecide : Comparison.decide op a b = Comparison.decide op a' b' := by
    have hcomparable := ha.comparable
    have hcomparable' := hb.comparable
    obtain ⟨rfl, -⟩ := ha
    obtain ⟨rfl, -⟩ := hb
    unfold Comparison.decide
    rw [Value.equal_rename L.rename_injective, hcomparable, hcomparable']
    cases op with
    | isMatch => cases a <;> cases b <;> simp
    | _ => rfl
  rw [hdecide]
  exact .pure (Correspondence.values_bool _)

theorem logic_all : Agree L.worlds Eq (Logic.all ev c args) (Logic.all ev d args) := by
  induction args with
  | nil => exact .pure rfl
  | cons e rest ih =>
    unfold Logic.all
    refine (hev (hargs e List.mem_cons_self)).bind fun v u hvu => ?_
    exact Agree.ite (by rw [hvu.isTruthy])
      (fun _ => ih fun e he => hargs e (List.mem_cons_of_mem _ he)) fun _ => .pure rfl

theorem logic_any : Agree L.worlds Eq (Logic.any ev c args) (Logic.any ev d args) := by
  induction args with
  | nil => exact .pure rfl
  | cons e rest ih =>
    unfold Logic.any
    refine (hev (hargs e List.mem_cons_self)).bind fun v u hvu => ?_
    exact Agree.ite (by rw [hvu.isTruthy]) (fun _ => .pure rfl)
      fun _ => ih fun e he => hargs e (List.mem_cons_of_mem _ he)

theorem logic (op : LogicOp) :
    L.Agrees (Logic.apply op ev c args) (Logic.apply op ev d args) := by
  unfold Logic.apply
  cases op with
  | and =>
    refine (logic_all hev hargs).bind fun b b' hb => ?_
    rw [hb]
    exact .pure (Correspondence.values_bool _)
  | or =>
    refine (logic_any hev hargs).bind fun b b' hb => ?_
    rw [hb]
    exact .pure (Correspondence.values_bool _)
  | not =>
    refine (required hev hargs _ 0).bind fun v u hvu => ?_
    rw [hvu.isTruthy]
    exact .pure (Correspondence.values_bool _)
  | choose =>
    refine (required hev hargs _ 0).bind fun v u hvu => ?_
    exact Agree.ite (by rw [hvu.isTruthy]) (fun _ => required hev hargs _ 1)
      fun _ => optional hev hargs 2

theorem sequence {last last' : Value} (hlast : L.values last last') :
    L.Agrees (Control.sequence ev c last args) (Control.sequence ev d last' args) := by
  induction args generalizing last last' with
  | nil => exact .pure hlast
  | cons e rest ih =>
    unfold Control.sequence
    exact (hev (hargs e List.mem_cons_self)).bind fun v u hvu =>
      ih (fun e he => hargs e (List.mem_cons_of_mem _ he)) hvu

theorem bindNames {bound bound' : Table Value} (hbound : L.tables bound bound') :
    Agree L.worlds L.tables (Control.bindNames ev c bound args)
      (Control.bindNames ev d bound' args) := by
  induction args generalizing bound bound' with
  | nil => exact .pure hbound
  | cons pair rest ih =>
    have hrest : ∀ e ∈ rest, L.scopes e c d := fun e he => hargs e (List.mem_cons_of_mem _ he)
    have hpair : L.scopes pair c d := hargs pair List.mem_cons_self
    unfold Control.bindNames
    split
    next h => cases h
    next name expr others h =>
      cases h
      have hexpr : ∀ e ∈ expr, L.scopes e c d := fun e he =>
        L.item hpair e (List.mem_cons_of_mem _ he)
      exact (optional hev hexpr 0).bind fun v u hvu => ih hrest (tables_insert hbound _ hvu)
    next => exact .raise _

theorem control (op : ControlOp) :
    L.Agrees (Control.apply op ev c args) (Control.apply op ev d args) := by
  unfold Control.apply
  cases op with
  | bind =>
    refine (argument _ args 0).bind fun bindings _ h => ?_
    obtain ⟨rfl, hbindings⟩ := h
    refine (argument _ args 1).bind fun _ _ _ => ?_
    have hscopes := hargs bindings hbindings
    split
    next pairs =>
      refine (bindNames hev (L.item hscopes) Correspondence.tables_nil).bind fun b b' hb => ?_
      exact sequence hev (fun e he => L.child (hargs e (List.mem_of_mem_drop he)) hb)
        Correspondence.values_undefined
    next => exact .raise _
  | sequence => exact sequence hev hargs Correspondence.values_undefined
  | when =>
    refine (required hev hargs _ 0).bind fun v u hvu => ?_
    refine Agree.ite (by rw [hvu.isTruthy]) (fun _ => ?_)
      fun _ => .pure Correspondence.values_undefined
    refine (argument _ args 1).bind fun _ _ _ => ?_
    refine (sequence hev (fun e he => hargs e (List.mem_of_mem_drop he))
      Correspondence.values_undefined).bind fun _ _ _ => .pure Correspondence.values_undefined
  | lambda =>
    refine (argument _ args 0).bind fun names _ h => ?_
    obtain ⟨rfl, -⟩ := h
    refine (argument _ args 1).bind fun body _ h => ?_
    obtain ⟨rfl, hbody⟩ := h
    cases Control.parameters names with
    | error e => exact .raise e
    | ok parameters =>
      intro w w' hw
      obtain ⟨hworlds, hclosure⟩ := L.capture parameters hw (hargs body hbody)
      exact .ok hclosure hworlds

theorem concat : Agree L.worlds L.lists (Collection.concat ev c args)
    (Collection.concat ev d args) := by
  induction args with
  | nil => exact .pure Correspondence.lists_nil
  | cons e rest ih =>
    unfold Collection.concat
    exact (hev (hargs e List.mem_cons_self)).bind fun v u hvu =>
      (ih fun e he => hargs e (List.mem_cons_of_mem _ he)).bind fun vs us hvs =>
        .pure (hvu.items.append hvs)

theorem collection (op : CollectionOp) :
    L.Agrees (Collection.apply op ev c args) (Collection.apply op ev d args) := by
  have hitems := required hev hargs op.name 0
  have hsecond := required hev hargs op.name 1
  have hlambda := requiredLambda hev hargs op.name 1
  have hnat (n : Nat) : L.Agrees (pure (.ofNat n)) (pure (.ofNat n)) :=
    .pure (Correspondence.values_number _)
  have harray {vs us : List Value} (h : L.lists vs us) :
      L.Agrees (pure (.array vs)) (pure (.array us)) :=
    .pure (Correspondence.values_array.mpr h)
  unfold Collection.apply
  cases op with
  | concat => exact (concat hev hargs).bind fun _ _ h => harray h
  | map =>
    exact hitems.bind fun v u hvu => hlambda.bind fun f g hfg =>
      (mapItems hev hfg hvu.items).bind fun _ _ h => harray h
  | filter =>
    exact hitems.bind fun v u hvu => hlambda.bind fun f g hfg =>
      (filterItems hev hfg hvu.items).bind fun _ _ h => harray h
  | find =>
    refine hitems.bind fun v u hvu => hlambda.bind fun f g hfg =>
      (findItem hev hfg hvu.items 0).bind fun _ _ h => ?_
    cases h with
    | nothing => exact .pure Correspondence.values_undefined
    | item place hitem => exact .pure hitem
  | count =>
    refine hitems.bind fun v u hvu => Agree.ite Iff.rfl (fun _ => ?_) fun _ => ?_
    · rw [hvu.items.1, List.length_map]
      exact hnat _
    · refine hlambda.bind fun f g hfg => (filterItems hev hfg hvu.items).bind fun _ _ h => ?_
      rw [h.1, List.length_map]
      exact hnat _
  | sum =>
    refine hitems.bind fun v u hvu => Agree.ite Iff.rfl (fun _ => ?_) fun _ => ?_
    · rw [hvu.items.1, List.foldl_map]
      simp only [Value.toNumber_rename]
      exact .pure (Correspondence.values_number _)
    · refine hlambda.bind fun f g hfg => (sumItems hev hfg hvu.items 0.0).bind fun x y h => ?_
      rw [h]
      exact .pure (Correspondence.values_number _)
  | first =>
    exact hitems.bind fun v u hvu => .pure
      (Correspondence.ofFunction (f := fun items => items.headD .undefined)
        (fun _ _ => Library.headD_rename) hvu.items)
  | last =>
    exact hitems.bind fun v u hvu => .pure
      (Correspondence.ofFunction (f := fun items => items.getLastD .undefined)
        (fun _ _ => Library.getLastD_rename) hvu.items)
  | nth =>
    refine hitems.bind fun v u hvu => hsecond.bind fun place _ hplace => ?_
    rw [← hplace.toNumber]
    exact .pure (Correspondence.ofFunction
      (f := fun items => (Collection.item? items place.toNumber).getD .undefined)
      (fun _ _ items => by simp) hvu.items)
  | includes =>
    refine hitems.bind fun v u hvu => hsecond.bind fun item item' hitem => ?_
    rw [hvu.items.1, hitem.1, Value.occursIn_rename L.rename_injective]
    exact .pure (Correspondence.values_bool _)
  | empty =>
    refine hitems.bind fun v u hvu => ?_
    have hempty : v.items.isEmpty = u.items.isEmpty := by rw [hvu.items.1, List.isEmpty_map]
    dsimp only
    rw [hempty]
    exact .pure (Correspondence.values_bool _)

end arguments

end evaluation
end Lockstep
end EntityMachines
