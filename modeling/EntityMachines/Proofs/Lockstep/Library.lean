import EntityMachines.Proofs.Lockstep.Operators

/-!
The operators of the standard library go alike in two runs: those that draw random numbers if both
runs draw the same ones, the asynchronous ones if they are known to. So does evaluation then.
-/
namespace EntityMachines
namespace Library

/-- The operators that read or change the state of the random numbers. -/
def drawing : List Text :=
  ["math/random", "math/randomInt", "math/seed", "array/shuffle"].map Text.ofString

def isAsync (name : Text) : Bool := Text.startsWith name "async/"

end Library

namespace Lockstep

open Eval (Agree)
open Value (rename)
open Library (drawing isAsync)

/-- Both runs draw the same random numbers. -/
structure SharesRandom (L : Lockstep) : Prop where
  same : ∀ {w w'}, L.worlds w w' → w.random = w'.random
  set : ∀ {w w'} (n : UInt64), L.worlds w w' →
    L.worlds { w with random := n } { w' with random := n }

/-- The names of the operators that perform effects. -/
def effectNames : List Text := CoreOp.effectOps.map EffectOp.name

/-- What has to be known of a name for its operator to go alike. -/
structure Regular (L : Lockstep) (name : Text) : Prop where
  draws : name ∈ drawing → L.SharesRandom
  async : isAsync name = true → ∀ entry ∈ Library.Async.operators, L.Serves entry.2
  effect : name ∈ effectNames → ∀ op, L.Serves (Effect.apply op)

/-- All operators of a library with such names go alike. -/
def ServesAll (L : Lockstep) (library : Library) : Prop :=
  ∀ entry ∈ library, L.Regular entry.1 → L.Serves entry.2

variable {L : Lockstep} {ev : Evaluator} {c d : Context} {op : Text} {args : List Value}

theorem arguments_scoped (h : L.scopes (.array (.string op :: args)) c d) :
    ∀ e ∈ args, L.scopes e c d :=
  fun e he => L.item h e (List.mem_cons_of_mem _ he)

theorem ServesAll.append {l l' : Library} (hl : L.ServesAll l) (hl' : L.ServesAll l') :
    L.ServesAll (l ++ l') :=
  fun entry hentry => (List.mem_append.mp hentry).elim (hl entry) (hl' entry)

theorem servesAll_of_byValue {l : Library} (h : l.ByValue) : L.ServesAll l := by
  intro entry hentry _ ev hev op args c d hscopes
  obtain ⟨f, hf, heq⟩ := h entry hentry
  rw [heq]
  exact ofValues hev (arguments_scoped hscopes) hf

theorem ServesAll.ofCalling {functions : List (String × (Evaluator → Arguments → Eval Value))}
    (h : ∀ f ∈ functions, L.Regular (Text.ofString f.1) → ∀ ev, L.Follows ev →
      ∀ vs us, L.lists vs us → L.Agrees (f.2 ev vs) (f.2 ev us)) :
    L.ServesAll (Library.ofCalling functions) := by
  intro entry hentry hregular ev hev op args c d hscopes
  obtain ⟨f, hf, rfl⟩ := List.mem_map.mp hentry
  exact ofValuesWith hev (arguments_scoped hscopes) (h f hf hregular ev hev)

theorem contextual {f : Float → Arguments → Value}
    (hf : ∀ now ρ args, f now (args.map (rename ρ)) = (f now args).rename ρ) :
    L.Serves (Library.Time.contextual f) := by
  intro ev hev op args c d hscopes
  refine (evaluateAll hev (arguments_scoped hscopes)).bind fun vs us h => ?_
  rw [L.now hscopes]
  exact .pure (Correspondence.ofFunction (fun ρ _ args => hf _ ρ args) h)

theorem time_contextuals : L.ServesAll Library.Time.contextuals := by
  simp only [ServesAll, Library.Time.contextuals, List.map_cons, List.map_nil,
    List.forall_mem_cons, List.not_mem_nil, false_implies, implies_true, and_true]
  exact ⟨fun _ => contextual (by simp), fun _ => contextual (by simp),
    fun _ => contextual (by simp), fun _ => contextual (by simp),
    fun _ => contextual (by simp), fun _ => contextual (by simp)⟩

section calling

variable (hev : L.Follows ev) {f g : Value} (hfg : L.values f g)

include hev hfg

theorem array_reduce {items others : List Value} (h : L.lists items others) {acc acc' : Value}
    (hacc : L.values acc acc') :
    L.Agrees (Library.Array.reduce ev f acc items) (Library.Array.reduce ev g acc' others) := by
  induction h using Correspondence.lists_induction generalizing acc acc' with
  | nil => exact .pure hacc
  | @cons item other _ _ hitem _ ih =>
    have hargs : L.lists [acc, item] [acc', other] :=
      Correspondence.lists_cons.mpr ⟨hacc, Correspondence.lists_singleton hitem⟩
    unfold Library.Array.reduce
    exact (invoke hev hfg hargs).bind fun v u hvu => ih hvu

theorem array_partition {items others : List Value} (h : L.lists items others) :
    Agree L.worlds (fun p q => L.lists p.1 q.1 ∧ L.lists p.2 q.2)
      (Library.Array.partition ev f items) (Library.Array.partition ev g others) := by
  induction h using Correspondence.lists_induction with
  | nil => exact .pure ⟨Correspondence.lists_nil, Correspondence.lists_nil⟩
  | cons hitem _ ih =>
    unfold Library.Array.partition
    refine (holds hev hfg hitem).bind fun b b' hb =>
      Agree.ite (by rw [hb]) (fun _ => ?_) fun _ => ?_
    · exact ih.bind fun p q hpq => .pure
        ⟨Correspondence.lists_cons.mpr ⟨hitem, hpq.1⟩, hpq.2⟩
    · exact ih.bind fun p q hpq => .pure
        ⟨hpq.1, Correspondence.lists_cons.mpr ⟨hitem, hpq.2⟩⟩

theorem array_every {items others : List Value} (h : L.lists items others) :
    Agree L.worlds Eq (Library.Array.calling.every ev f items)
      (Library.Array.calling.every ev g others) := by
  induction h using Correspondence.lists_induction with
  | nil => exact .pure rfl
  | cons hitem _ ih =>
    unfold Library.Array.calling.every
    exact (holds hev hfg hitem).bind fun b b' hb =>
      Agree.ite (by rw [hb]) (fun _ => ih) fun _ => .pure rfl

theorem object_mapValues {t s : Table Value} (h : L.tables t s) :
    Agree L.worlds L.tables (Library.Object.mapValues ev f t)
      (Library.Object.mapValues ev g s) := by
  induction h using Correspondence.tables_induction with
  | nil => exact .pure Correspondence.tables_nil
  | cons hitem _ ih =>
    unfold Library.Object.mapValues
    exact (invoke hev hfg (Correspondence.lists_singleton hitem)).bind fun v u hvu =>
      ih.bind fun _ _ hvs => .pure (Correspondence.tables_cons.mpr ⟨hvu, hvs⟩)

theorem object_mapKeys {t s renamed renamed' : Table Value} (h : L.tables t s)
    (hrenamed : L.tables renamed renamed') :
    Agree L.worlds L.tables (Library.Object.mapKeys ev f renamed t)
      (Library.Object.mapKeys ev g renamed' s) := by
  induction h using Correspondence.tables_induction generalizing renamed renamed' with
  | nil => exact .pure hrenamed
  | @cons key _ _ _ _ hitem _ ih =>
    unfold Library.Object.mapKeys
    refine (invoke hev hfg (Correspondence.lists_singleton
      (Correspondence.values_string key))).bind fun v u hvu => ?_
    rw [← hvu.display]
    exact ih (tables_insert hrenamed _ hitem)

theorem object_filterEntries {t s : Table Value} (h : L.tables t s) :
    Agree L.worlds L.tables (Library.Object.filterEntries ev f t)
      (Library.Object.filterEntries ev g s) := by
  induction h using Correspondence.tables_induction with
  | nil => exact .pure Correspondence.tables_nil
  | @cons key item other _ _ hitem _ ih =>
    have hargs : L.lists [.string key, item] [.string key, other] :=
      Correspondence.lists_cons.mpr
        ⟨Correspondence.values_string key, Correspondence.lists_singleton hitem⟩
    unfold Library.Object.filterEntries
    refine (invoke hev hfg hargs).bind fun v u hvu =>
      Agree.ite (by rw [hvu.isTruthy]) (fun _ => ?_) fun _ => ih
    exact ih.bind fun _ _ hvs => .pure (Correspondence.tables_cons.mpr ⟨hitem, hvs⟩)

end calling

theorem shuffle_map {α β : Type} (f : α → β) (state : UInt64) (n : Nat) (items : List α) :
    Random.shuffle state n (items.map f) = (Random.shuffle state n items).map f := by
  induction n generalizing state items with
  | zero => rfl
  | succ n ih =>
    simp only [Random.shuffle, List.length_map, List.getElem?_map]
    cases items[(Random.mix (Random.step state)).toNat % max items.length 1]? with
    | none => rfl
    | some item => simp only [Option.map_some, List.map_cons, List.eraseIdx_map, ih]

theorem lists_items {vs us : List Value} (h : L.lists vs us) :
    L.lists (Library.Array.items vs) (Library.Array.items us) :=
  Correspondence.values_array.mp
    (Correspondence.ofFunction (f := fun args => .array (Library.Array.items args))
      (fun ρ _ args => by simp) h)

theorem values_nth {vs us : List Value} (h : L.lists vs us) (i : Nat) :
    L.values (Arguments.nth vs i) (Arguments.nth us i) :=
  Correspondence.ofFunction (f := fun args => args.nth i) (fun _ _ args => args.nth_rename i) h

theorem array_calling : L.ServesAll Library.Array.calling := by
  have hnat (n : Nat) : L.Agrees (pure (.ofNat n)) (pure (.ofNat n)) :=
    .pure (Correspondence.values_number _)
  have hbool (b : Bool) : L.Agrees (pure (.bool b)) (pure (.bool b)) :=
    .pure (Correspondence.values_bool _)
  have harray {vs us : List Value} (h : L.lists vs us) :
      L.Agrees (pure (.array vs)) (pure (.array us)) :=
    .pure (Correspondence.values_array.mpr h)
  have hwith (name : String) {k : Evaluator → Value → Arguments → Eval Value} {ev : Evaluator}
      {vs us : List Value} (h : L.lists vs us)
      (hk : ∀ f g, L.values f g → L.Agrees (k ev f vs) (k ev g us)) :
      L.Agrees ((Library.Array.withLambda name k).2 ev vs)
        ((Library.Array.withLambda name k).2 ev us) :=
    (lambdaAt _ h 1).bind hk
  refine ServesAll.ofCalling ?_
  simp only [List.forall_mem_cons, List.not_mem_nil, false_implies, implies_true, and_true]
  refine ⟨fun _ ev hev vs us h => hwith "array/find" h fun f g hfg => ?_,
    fun _ ev hev vs us h => hwith "array/findIndex" h fun f g hfg => ?_,
    fun _ ev hev vs us h => hwith "array/filter" h fun f g hfg => ?_,
    fun _ ev hev vs us h => hwith "array/reject" h fun f g hfg => ?_,
    fun _ ev hev vs us h => hwith "array/map" h fun f g hfg => ?_,
    fun _ ev hev vs us h => hwith "array/reduce" h fun f g hfg => ?_,
    fun _ ev hev vs us h => hwith "array/every" h fun f g hfg => ?_,
    fun _ ev hev vs us h => hwith "array/some" h fun f g hfg => ?_,
    fun _ ev hev vs us h => hwith "array/partition" h fun f g hfg => ?_,
    fun _ ev hev vs us h => ?_, fun hregular ev hev vs us h => ?_⟩
  · refine (findItem hev hfg (lists_items h) 0).bind fun _ _ hfound => ?_
    cases hfound with
    | nothing => exact .pure Correspondence.values_undefined
    | item place hitem => exact .pure hitem
  · refine (findItem hev hfg (lists_items h) 0).bind fun _ _ hfound => ?_
    cases hfound with
    | nothing => exact .pure (Correspondence.values_number _)
    | item place hitem => exact hnat place
  · exact (filterItems hev hfg (lists_items h)).bind fun _ _ hvs => harray hvs
  · exact (array_partition hev hfg (lists_items h)).bind fun _ _ hpq => harray hpq.2
  · exact (mapItems hev hfg (lists_items h)).bind fun _ _ hvs => harray hvs
  · exact array_reduce hev hfg (lists_items h) (values_nth h 2)
  · refine (array_every hev hfg (lists_items h)).bind fun b _ hb => ?_
    rw [← hb]
    exact hbool b
  · refine (findItem hev hfg (lists_items h) 0).bind fun _ _ hfound => ?_
    cases hfound with
    | nothing => exact hbool false
    | item place hitem => exact hbool true
  · refine (array_partition hev hfg (lists_items h)).bind fun p q hpq => harray ?_
    exact Correspondence.lists_cons.mpr ⟨Correspondence.values_array.mpr hpq.1,
      Correspondence.lists_singleton (Correspondence.values_array.mpr hpq.2)⟩
  · have hlength : vs.length = us.length := by rw [h.1, List.length_map]
    refine Agree.ite (by rw [hlength]) (fun _ => ?_) fun _ => ?_
    · rw [(lists_items h).1, List.length_map]
      exact hnat _
    · refine (lambdaAt _ h 1).bind fun f g hfg => ?_
      refine (filterItems hev hfg (lists_items h)).bind fun _ _ hvs => ?_
      rw [hvs.1, List.length_map]
      exact hnat _
  · have hshares := hregular.draws (by decide)
    refine Agree.get.bind fun w w' hw => .pure ?_
    rw [← hshares.same hw]
    refine Correspondence.ofFunction (f := fun args => .array (Random.shuffle w.random
      (Library.Array.items args).length (Library.Array.items args))) (fun ρ _ args => ?_) h
    simp [shuffle_map]

theorem object_calling : L.ServesAll Library.Object.calling := by
  have hmap {t s : Table Value} (h : L.tables t s) : L.Agrees (pure (.map t)) (pure (.map s)) :=
    .pure (Correspondence.values_map.mpr h)
  refine ServesAll.ofCalling ?_
  simp only [List.forall_mem_cons, List.not_mem_nil, false_implies, implies_true, and_true]
  refine ⟨fun _ ev hev vs us h => ?_, fun _ ev hev vs us h => ?_, fun _ ev hev vs us h => ?_⟩
  · exact (lambdaAt _ h 1).bind fun f g hfg =>
      (object_mapValues hev hfg (values_nth h 0).entries).bind fun _ _ ht => hmap ht
  · exact (lambdaAt _ h 1).bind fun f g hfg =>
      (object_mapKeys hev hfg (values_nth h 0).entries Correspondence.tables_nil).bind
        fun _ _ ht => hmap ht
  · exact (lambdaAt _ h 1).bind fun f g hfg =>
      (object_filterEntries hev hfg (values_nth h 0).entries).bind fun _ _ ht => hmap ht

theorem draw (hshares : L.SharesRandom) :
    Agree L.worlds Eq Library.Math.draw Library.Math.draw := by
  refine Agree.get.bind fun w w' hw => ?_
  rw [hshares.same hw]
  exact (Agree.modify fun _ _ hw₁ => hshares.set _ hw₁).bind fun _ _ _ => .pure rfl

theorem math_random : L.ServesAll Library.Math.random := by
  refine ServesAll.ofCalling ?_
  simp only [List.forall_mem_cons, List.not_mem_nil, false_implies, implies_true, and_true]
  refine ⟨fun hregular ev hev vs us h => ?_, fun hregular ev hev vs us h => ?_,
    fun hregular ev hev vs us h => ?_⟩
  · refine (draw (hregular.draws (by decide))).bind fun x y hxy => ?_
    rw [hxy]
    exact .pure (Correspondence.values_number _)
  · refine (draw (hregular.draws (by decide))).bind fun x y hxy => ?_
    rw [hxy, h.1]
    simp only [Arguments.number_rename]
    exact .pure (Correspondence.values_number _)
  · rw [h.1]
    simp only [Arguments.number_rename]
    exact (Agree.modify fun _ _ hw => (hregular.draws (by decide)).set _ hw).bind fun _ _ _ =>
      .pure Correspondence.values_undefined

theorem async_operators : L.ServesAll Library.Async.operators := by
  have hasync : ∀ entry ∈ Library.Async.operators, isAsync entry.1 = true := by
    decide
  intro entry hentry hregular
  exact hregular.async (hasync entry hentry) entry hentry

theorem standard : L.ServesAll Library.standard := by
  have hmath : L.ServesAll Library.Math.operators :=
    ((servesAll_of_byValue Library.Math.total_byValue).append
      (servesAll_of_byValue Library.Math.demanding_byValue)).append math_random
  have hstrings : L.ServesAll Library.Strings.operators :=
    servesAll_of_byValue (Library.Strings.total_byValue.append Library.Strings.demanding_byValue)
  have harray : L.ServesAll Library.Array.operators :=
    (servesAll_of_byValue Library.Array.total_byValue).append array_calling
  have hobject : L.ServesAll Library.Object.operators :=
    (servesAll_of_byValue (Library.Object.total_byValue.append Library.Object.paths_byValue)).append
      object_calling
  have htime : L.ServesAll Library.Time.operators :=
    (servesAll_of_byValue Library.Time.total_byValue).append time_contextuals
  have hformat : L.ServesAll Library.Format.operators :=
    servesAll_of_byValue Library.Format.operators_byValue
  have hvalidate : L.ServesAll Library.Validate.operators :=
    servesAll_of_byValue Library.Validate.operators_byValue
  have hvalues := ((hmath.append hstrings).append harray).append hobject
  exact (((hvalues.append htime).append hformat).append hvalidate).append async_operators

end Lockstep

/-!
Evaluation to any number of levels goes alike in two runs, if all operators that may be called do.
-/

namespace Lockstep

open Eval (Agree)

variable {L : Lockstep}

theorem effectName_of_ofName? {name : Text} {op : EffectOp}
    (h : CoreOp.ofName? name = some (.effect op)) : name ∈ effectNames := by
  obtain ⟨before, behind, heq, -⟩ := List.lookup_eq_some_iff.mp h
  have hmem : (name, CoreOp.effect op) ∈ CoreOp.table := by simp [heq]
  obtain ⟨core, -, hcore⟩ := List.mem_map.mp hmem
  cases hcore
  refine List.mem_map.mpr ⟨op, ?_, rfl⟩
  cases op <;> decide

theorem core {op : CoreOp}
    (heffect : ∀ effect, op = .effect effect → L.Serves (Effect.apply effect)) :
    L.Serves op.apply := by
  intro ev hev _ args c d hscopes
  have hargs := arguments_scoped hscopes
  cases op with
  | arithmetic op => exact arithmetic hev hargs op
  | comparison op => exact comparison hev hargs op
  | logic op => exact logic hev hargs op
  | control op => exact control hev hargs op
  | collection op => exact collection hev hargs op
  | effect op => exact heffect op rfl hev hscopes

theorem operator?_serves {name : Text} {apply : Operator} (hregular : L.Regular name)
    (h : Evaluator.operator? Library.standard name = some apply) : L.Serves apply := by
  unfold Evaluator.operator? at h
  cases hcore : CoreOp.ofName? name with
  | some op =>
    rw [hcore] at h
    cases h
    refine core fun effect heq => ?_
    rw [heq] at hcore
    exact hregular.effect (effectName_of_ofName? hcore) effect
  | none =>
    rw [hcore] at h
    obtain ⟨before, behind, heq, -⟩ := List.lookup_eq_some_iff.mp h
    have hmem : (name, apply) ∈ Library.standard := by simp [heq]
    exact standard _ hmem hregular

variable (hadmits : ∀ name, L.admits name → L.Regular name)

include hadmits

theorem step {ev : Evaluator} (hev : L.Follows ev) {e : Value} {c d : Context}
    (hscopes : L.scopes e c d) :
    L.Agrees (Evaluator.step Library.standard ev e c) (Evaluator.step Library.standard ev e d) := by
  have hliteral : L.Agrees (pure e) (pure e) := .pure (L.literal hscopes)
  unfold Evaluator.step
  split
  next op args =>
    have hregular := hadmits op (L.head hscopes)
    cases h : Evaluator.operator? Library.standard op with
    | some apply => exact operator?_serves hregular h hev hscopes
    | none => exact .raise _
  next s => exact Agree.ite Iff.rfl (L.binding hscopes) fun _ => hliteral
  next => exact hliteral

theorem withFuel (fuel : Nat) : L.Follows (Evaluator.withFuel Library.standard fuel) := by
  induction fuel with
  | zero => exact fun _ _ _ _ => .throw _
  | succ fuel ih => exact fun _ _ _ hscopes => step hadmits ih hscopes

end Lockstep
end EntityMachines
