import EntityMachines.Evaluator
import EntityMachines.Proofs.Ending.Program

/-!
Core operators of an evaluator that imitates another follow those of the other. All that they have
evaluated is written in their call, or is the body of a closure in the world.
-/
namespace EntityMachines

open Program (Any Follows)

variable {P : Program} {cut : Prop}

theorem Operator.argument_follows {args : List Value} (hargs : ∀ arg ∈ args, arg ∈ P.texts)
    (op : Text) (i : Nat) :
    P.Follows cut (· ∈ P.texts) (Operator.argument op args i) (Operator.argument op args i) := by
  unfold argument
  split
  next arg harg => exact .pure (hargs arg (List.mem_of_getElem? harg))
  next => exact .raise _

theorem Operator.lambdaAt_follows (op : Text) (args : Arguments) (i : Nat) :
    P.Follows cut Any (Operator.lambdaAt op args i) (Operator.lambdaAt op args i) := by
  have hargument : P.Follows cut Any (Operator.argument op args i) (Operator.argument op args i) := by
    unfold argument
    split
    · exact .pure trivial
    · exact .raise _
  refine hargument.bind fun f _ => ?_
  unfold requiredClosure
  split
  · exact .pure trivial
  · exact .raise _

theorem Context.resolveText_follows (ctx : Context) (text : Text) :
    P.Follows cut Any (ctx.resolveText text) (ctx.resolveText text) := by
  have hpure (v : Value) : P.Follows cut Any (pure v) (pure v) := .pure trivial
  unfold resolveText
  split
  · unfold resolve
    split
    · exact hpure _
    · refine .ite (fun _ => ?_) fun _ => ?_
      · split
        · exact (P.snapshot_follows _).bind fun _ _ => hpure _
        · exact hpure _
      · repeat' refine .ite (fun _ => hpure _) fun _ => ?_
        exact hpure _
  · exact hpure _

namespace Evaluator.Imitates

variable {ev ev' : Evaluator} {ctx : Context} {args : List Value}
  (hev : Imitates P cut ev ev')

include hev

/-- The closures in the world have bodies of the program. -/
theorem invoke (f : Value) (args : List Value) :
    P.Follows cut Any (ev.invoke f args) (ev'.invoke f args) := by
  unfold Evaluator.invoke
  split
  next id =>
    refine Follows.get.bind fun w hw => ?_
    cases hc : w.closures[id]? with
    | none => exact .raise _
    | some c =>
      have hbody : c.body ∈ P.texts := hw.body c (Array.mem_of_getElem? hc)
      refine .ite (fun _ => ?_) fun _ => hev.evaluate _ hbody _
      exact Follows.bind (.modify fun _ hw => hw.congr rfl rfl rfl) fun _ _ =>
        hev.evaluate _ hbody _
  next => exact .raise _

section arguments

variable (hargs : ∀ arg ∈ args, arg ∈ P.texts)

include hargs

theorem required (op : Text) (i : Nat) :
    P.Follows cut Any (Operator.required op ev ctx args i) (Operator.required op ev' ctx args i) :=
  (Operator.argument_follows hargs op i).bind fun e he => hev.evaluate e he ctx

theorem optional (i : Nat) :
    P.Follows cut Any (Operator.optional ev ctx args i) (Operator.optional ev' ctx args i) := by
  unfold Operator.optional
  split
  next arg harg => exact hev.evaluate arg (hargs arg (List.mem_of_getElem? harg)) ctx
  next => exact .pure trivial

theorem requiredLambda (op : Text) (i : Nat) :
    P.Follows cut Any (Operator.requiredLambda op ev ctx args i)
      (Operator.requiredLambda op ev' ctx args i) := by
  refine (hev.required hargs op i).bind fun f _ => ?_
  unfold Operator.requiredClosure
  split
  · exact .pure trivial
  · exact .raise _

theorem evaluateAll : P.Follows cut Any (ev.evaluateAll ctx args) (ev'.evaluateAll ctx args) :=
  .mapM fun arg harg => hev.evaluate arg (hargs arg harg) ctx

theorem ofValues (f : Arguments → Except Error Value) :
    P.Follows cut Any (Operator.ofValues f ev ctx args) (Operator.ofValues f ev' ctx args) :=
  (hev.evaluateAll hargs).bind fun vs _ => .ofExcept (f vs)

theorem ofValuesWith {f : Evaluator → Arguments → Eval Value}
    (hf : ∀ vs, P.Follows cut Any (f ev vs) (f ev' vs)) :
    P.Follows cut Any (Operator.ofValuesWith f ev ctx args) (Operator.ofValuesWith f ev' ctx args) :=
  (hev.evaluateAll hargs).bind fun vs _ => hf vs

end arguments

section collections

theorem mapItems (f : Value) (items : List Value) :
    P.Follows cut Any (Collection.mapItems ev f items) (Collection.mapItems ev' f items) := by
  induction items with
  | nil => exact .pure trivial
  | cons item rest ih =>
    unfold Collection.mapItems
    exact (hev.invoke f [item]).bind fun _ _ => ih.bind fun _ _ => .pure trivial

theorem holds (f item : Value) :
    P.Follows cut Any (Collection.holds ev f item) (Collection.holds ev' f item) :=
  (hev.invoke f [item]).bind fun _ _ => .pure trivial

theorem filterItems (f : Value) (items : List Value) :
    P.Follows cut Any (Collection.filterItems ev f items) (Collection.filterItems ev' f items) := by
  induction items with
  | nil => exact .pure trivial
  | cons item rest ih =>
    unfold Collection.filterItems
    exact (hev.holds f item).bind fun _ _ =>
      .ite (fun _ => ih.bind fun _ _ => .pure trivial) fun _ => ih

theorem findItem (f : Value) (items : List Value) (place : Nat) :
    P.Follows cut Any (Collection.findItem ev f place items)
      (Collection.findItem ev' f place items) := by
  induction items generalizing place with
  | nil => exact .pure trivial
  | cons item rest ih =>
    unfold Collection.findItem
    exact (hev.holds f item).bind fun _ _ =>
      .ite (fun _ => .pure trivial) fun _ => ih (place + 1)

theorem sumItems (f : Value) (items : List Value) (total : Float) :
    P.Follows cut Any (Collection.sumItems ev f total items)
      (Collection.sumItems ev' f total items) := by
  induction items generalizing total with
  | nil => exact .pure trivial
  | cons item rest ih =>
    unfold Collection.sumItems
    exact (hev.invoke f [item]).bind fun _ _ => ih _

end collections

section effects

theorem send (emitter : Emitter) (event : Text) (payload : Value) :
    P.Follows cut Any (Effect.send ev emitter event payload)
      (Effect.send ev' emitter event payload) := by
  cases emitter with
  | outside label => exact (P.call_follows label _).bind fun _ _ => .pure trivial
  | machine handle services => exact hev.deliver handle services event payload

theorem emitLater (hs : Handlers) (event : Text) :
    P.Follows cut Any (Effect.emitLater ev hs event) (Effect.emitLater ev' hs event) := by
  unfold Effect.emitLater
  split
  · exact hev.send _ event _
  · exact P.note_follows _ _ _

omit hev in
theorem mutate (m : Mutator) (changes : Table Value) :
    P.Follows cut Any (Effect.mutate m changes) (Effect.mutate m changes) := by
  unfold Effect.mutate
  refine (P.writeStore_follows _ _).bind fun _ _ => ?_
  split
  · exact (P.call_follows _ _).bind fun _ _ => .pure trivial
  · exact .pure trivial

omit hev in
theorem perform (op : EffectOp) (handler : Option Label) (request : Request) :
    P.Follows cut Any (Effect.perform op handler request) (Effect.perform op handler request) := by
  unfold Effect.perform
  split
  · exact (P.call_follows _ _).bind fun _ _ => .pure trivial
  · exact (P.note_follows _ _ _).bind fun _ _ => .pure trivial

omit hev in
theorem currentValue (ctx : Context) (target : Value) :
    P.Follows cut Any (Effect.currentValue ctx target) (Effect.currentValue ctx target) := by
  unfold Effect.currentValue
  split
  · exact ctx.resolveText_follows _
  · exact .pure trivial

end effects

section families

variable (hargs : ∀ arg ∈ args, arg ∈ P.texts)

include hargs

theorem arithmetic_fold (f : Float → Float → Float) (acc : Float) :
    P.Follows cut Any (Arithmetic.fold ev ctx f acc args) (Arithmetic.fold ev' ctx f acc args) := by
  induction args generalizing acc with
  | nil => exact .pure trivial
  | cons arg rest ih =>
    obtain ⟨harg, hrest⟩ := List.forall_mem_cons.mp hargs
    unfold Arithmetic.fold
    exact (hev.evaluate arg harg ctx).bind fun _ _ => ih hrest _

theorem arithmetic (op : ArithmeticOp) :
    P.Follows cut Any (Arithmetic.apply op ev ctx args) (Arithmetic.apply op ev' ctx args) := by
  have hoperand (i : Nat) : P.Follows cut Any
      (do return (← Operator.required op.name ev ctx args i).toNumber : Eval Float)
      (do return (← Operator.required op.name ev' ctx args i).toNumber) :=
    (hev.required hargs op.name i).bind fun _ _ => .pure trivial
  unfold Arithmetic.apply
  cases op with
  | add | multiply | min | max => exact hev.arithmetic_fold hargs _ _
  | subtract =>
    refine (hoperand 0).bind fun _ _ => .ite (fun _ => .pure trivial) fun _ => ?_
    exact (hev.optional hargs 1).bind fun _ _ => .pure trivial
  | divide | modulo => exact (hoperand 0).bind fun _ _ => (hoperand 1).bind fun _ _ => .pure trivial
  | abs | floor | ceil | round => exact (hoperand 0).bind fun _ _ => .pure trivial
  | clamp =>
    exact (hoperand 0).bind fun _ _ => (hoperand 1).bind fun _ _ =>
      (hoperand 2).bind fun _ _ => .pure trivial

theorem comparison (op : ComparisonOp) :
    P.Follows cut Any (Comparison.apply op ev ctx args) (Comparison.apply op ev' ctx args) :=
  (hev.required hargs op.name 0).bind fun _ _ =>
    (hev.required hargs op.name 1).bind fun _ _ => .pure trivial

theorem logic_all : P.Follows cut Any (Logic.all ev ctx args) (Logic.all ev' ctx args) := by
  induction args with
  | nil => exact .pure trivial
  | cons arg rest ih =>
    obtain ⟨harg, hrest⟩ := List.forall_mem_cons.mp hargs
    unfold Logic.all
    exact (hev.evaluate arg harg ctx).bind fun _ _ =>
      .ite (fun _ => ih hrest) fun _ => .pure trivial

theorem logic_any : P.Follows cut Any (Logic.any ev ctx args) (Logic.any ev' ctx args) := by
  induction args with
  | nil => exact .pure trivial
  | cons arg rest ih =>
    obtain ⟨harg, hrest⟩ := List.forall_mem_cons.mp hargs
    unfold Logic.any
    exact (hev.evaluate arg harg ctx).bind fun _ _ =>
      .ite (fun _ => .pure trivial) fun _ => ih hrest

theorem logic (op : LogicOp) :
    P.Follows cut Any (Logic.apply op ev ctx args) (Logic.apply op ev' ctx args) := by
  unfold Logic.apply
  cases op with
  | and => exact (hev.logic_all hargs).bind fun _ _ => .pure trivial
  | or => exact (hev.logic_any hargs).bind fun _ _ => .pure trivial
  | not => exact (hev.required hargs _ 0).bind fun _ _ => .pure trivial
  | choose =>
    exact (hev.required hargs _ 0).bind fun _ _ =>
      .ite (fun _ => hev.required hargs _ 1) fun _ => hev.optional hargs 2

theorem control_sequence (last : Value) :
    P.Follows cut Any (Control.sequence ev ctx last args) (Control.sequence ev' ctx last args) := by
  induction args generalizing last with
  | nil => exact .pure trivial
  | cons e rest ih =>
    obtain ⟨he, hrest⟩ := List.forall_mem_cons.mp hargs
    unfold Control.sequence
    exact (hev.evaluate e he ctx).bind fun v _ => ih hrest v

omit hargs in
/-- The expressions that names are bound to stand two arrays deep in the call. -/
theorem bindNames {pairs : List Value} (hpairs : ∀ pair ∈ pairs, pair ∈ P.texts)
    (bound : Table Value) :
    P.Follows cut Any (Control.bindNames ev ctx bound pairs)
      (Control.bindNames ev' ctx bound pairs) := by
  induction pairs generalizing bound with
  | nil => exact .pure trivial
  | cons pair rest ih =>
    obtain ⟨hpair, hrest⟩ := List.forall_mem_cons.mp hpairs
    unfold Control.bindNames
    split
    next h => cases h
    next name expr others h =>
      cases h
      have hexpr : ∀ e ∈ expr, e ∈ P.texts := fun e he =>
        P.closed _ hpair e (List.mem_cons_of_mem _ he)
      exact (hev.optional hexpr 0).bind fun _ _ => ih hrest _
    next => exact .raise _

theorem control (op : ControlOp) :
    P.Follows cut Any (Control.apply op ev ctx args) (Control.apply op ev' ctx args) := by
  have hargument (i : Nat) : P.Follows cut (· ∈ P.texts) (Operator.argument op.name args i)
      (Operator.argument op.name args i) := Operator.argument_follows hargs op.name i
  have hdrop : ∀ arg ∈ args.drop 1, arg ∈ P.texts := fun arg harg =>
    hargs arg (List.mem_of_mem_drop harg)
  unfold Control.apply
  cases op with
  | bind =>
    refine (hargument 0).bind fun bindings hbindings => (hargument 1).bind fun _ _ => ?_
    split
    next pairs =>
      exact (hev.bindNames (P.closed pairs hbindings) []).bind fun _ _ =>
        hev.control_sequence hdrop _
    next => exact .raise _
  | sequence => exact hev.control_sequence hargs _
  | when =>
    refine (hev.required hargs _ 0).bind fun _ _ => .ite (fun _ => ?_) fun _ => .pure trivial
    exact (hargument 1).bind fun _ _ =>
      (hev.control_sequence hdrop _).bind fun _ _ => .pure trivial
  | lambda =>
    exact (hargument 0).bind fun names _ => (hargument 1).bind fun body hbody =>
      (Follows.ofExcept _).bind fun _ _ => P.newClosure_follows hbody

theorem collection_concat :
    P.Follows cut Any (Collection.concat ev ctx args) (Collection.concat ev' ctx args) := by
  induction args with
  | nil => exact .pure trivial
  | cons arg rest ih =>
    obtain ⟨harg, hrest⟩ := List.forall_mem_cons.mp hargs
    unfold Collection.concat
    exact (hev.evaluate arg harg ctx).bind fun _ _ => (ih hrest).bind fun _ _ => .pure trivial

theorem collection (op : CollectionOp) :
    P.Follows cut Any (Collection.apply op ev ctx args) (Collection.apply op ev' ctx args) := by
  have hrequired (i : Nat) : P.Follows cut Any (Operator.required op.name ev ctx args i)
      (Operator.required op.name ev' ctx args i) := hev.required hargs op.name i
  have hitems := hrequired 0
  have hlambda : P.Follows cut Any (Operator.requiredLambda op.name ev ctx args 1)
      (Operator.requiredLambda op.name ev' ctx args 1) := hev.requiredLambda hargs op.name 1
  unfold Collection.apply
  cases op with
  | concat => exact (hev.collection_concat hargs).bind fun _ _ => .pure trivial
  | map =>
    exact hitems.bind fun _ _ => hlambda.bind fun f _ =>
      (hev.mapItems f _).bind fun _ _ => .pure trivial
  | filter =>
    exact hitems.bind fun _ _ => hlambda.bind fun f _ =>
      (hev.filterItems f _).bind fun _ _ => .pure trivial
  | find =>
    exact hitems.bind fun _ _ => hlambda.bind fun f _ =>
      (hev.findItem f _ 0).bind fun _ _ => .pure trivial
  | count =>
    exact hitems.bind fun _ _ => .ite (fun _ => .pure trivial) fun _ =>
      hlambda.bind fun f _ => (hev.filterItems f _).bind fun _ _ => .pure trivial
  | sum =>
    exact hitems.bind fun _ _ => .ite (fun _ => .pure trivial) fun _ =>
      hlambda.bind fun f _ => (hev.sumItems f _ _).bind fun _ _ => .pure trivial
  | first | last | empty => exact hitems.bind fun _ _ => .pure trivial
  | nth | includes => exact hitems.bind fun _ _ => (hrequired 1).bind fun _ _ => .pure trivial

theorem amount : P.Follows cut Any (Effect.amount ev ctx args) (Effect.amount ev' ctx args) := by
  unfold Effect.amount
  split
  next arg harg => exact (hev.evaluate arg (hargs arg (List.mem_of_getElem? harg)) ctx).map _
  next => exact .pure trivial

theorem operation :
    P.Follows cut Any (Effect.operation ev ctx args) (Effect.operation ev' ctx args) := by
  unfold Effect.operation
  split
  next arg harg => exact (hev.evaluate arg (hargs arg (List.mem_of_getElem? harg)) ctx).map _
  next => exact .pure trivial

theorem adjust (op : EffectOp) (change : Float → Float → Float) :
    P.Follows cut Any (Effect.adjust op change ev ctx args)
      (Effect.adjust op change ev' ctx args) := by
  unfold Effect.adjust
  refine (Operator.argument_follows hargs _ 0).bind fun target _ =>
    (hev.amount hargs).bind fun _ _ => ?_
  split
  · exact P.note_follows _ _ _
  · exact .ite (fun _ => P.note_follows _ _ _) fun _ =>
      (currentValue ctx target).bind fun _ _ => mutate _ _

theorem effect_set :
    P.Follows cut Any (Effect.apply .set ev ctx args) (Effect.apply .set ev' ctx args) := by
  unfold Effect.apply
  refine (Operator.argument_follows hargs _ 0).bind fun target _ =>
    (hev.required hargs _ 1).bind fun _ _ => (hev.operation hargs).bind fun _ _ => ?_
  cases ctx.handlers.mutate with
  | none => exact (P.note_follows _ _ _).bind fun _ _ => .pure trivial
  | some m =>
    refine .ite (fun _ => ?_) fun _ => .ite (fun _ => ?_) fun _ => ?_
    · exact (P.note_follows _ _ _).bind fun _ _ => .pure trivial
    · exact (mutate m _).bind fun _ _ => .pure trivial
    · exact (currentValue ctx target).bind fun _ _ => (mutate m _).bind fun _ _ => .pure trivial

theorem effect_setDynamic :
    P.Follows cut Any (Effect.apply .setDynamic ev ctx args)
      (Effect.apply .setDynamic ev' ctx args) := by
  unfold Effect.apply
  refine (hev.required hargs _ 0).bind fun path _ => (hev.required hargs _ 1).bind fun _ _ => ?_
  cases ctx.handlers.mutate with
  | none => exact (P.note_follows _ _ _).bind fun _ _ => .pure trivial
  | some m =>
    dsimp only
    split
    · exact (mutate m _).bind fun _ _ => .pure trivial
    · exact (P.note_follows _ _ _).bind fun _ _ => .pure trivial

theorem effect_emit :
    P.Follows cut Any (Effect.apply .emit ev ctx args) (Effect.apply .emit ev' ctx args) := by
  unfold Effect.apply
  refine (hev.required hargs _ 0).bind fun _ _ => (hev.optional hargs 1).bind fun payload _ => ?_
  cases ctx.handlers.emit with
  | none => exact (P.note_follows _ _ _).bind fun _ _ => .pure trivial
  | some emitter => exact (hev.send emitter _ payload).bind fun _ _ => .pure trivial

theorem effect_persist :
    P.Follows cut Any (Effect.apply .persist ev ctx args)
      (Effect.apply .persist ev' ctx args) := by
  unfold Effect.apply
  refine (hev.required hargs _ 0).bind fun _ _ => .ite (fun _ => .raise _) fun _ => ?_
  exact .ite (fun _ => (hev.optional hargs 1).bind fun _ _ => perform _ _ _) fun _ => perform _ _ _

theorem effect_callService :
    P.Follows cut Any (Effect.apply .callService ev ctx args)
      (Effect.apply .callService ev' ctx args) := by
  unfold Effect.apply
  refine (hev.required hargs _ 0).bind fun _ _ => (hev.required hargs _ 1).bind fun _ _ =>
    (hev.optional hargs 2).bind fun _ _ => ?_
  cases ctx.handlers.callService with
  | none => exact (P.note_follows _ _ _).bind fun _ _ => .pure trivial
  | some label => exact P.call_follows label _

theorem effect_renderUi :
    P.Follows cut Any (Effect.apply .renderUi ev ctx args)
      (Effect.apply .renderUi ev' ctx args) := by
  unfold Effect.apply
  refine (hev.required hargs _ 0).bind fun _ _ => (hev.required hargs _ 1).bind fun _ _ =>
    (hev.optional hargs 2).bind fun _ _ => (hev.optional hargs 3).bind fun _ _ => ?_
  exact .ite (fun _ => perform _ _ _) fun _ => perform _ _ _

theorem effect (op : EffectOp) :
    P.Follows cut Any (Effect.apply op ev ctx args) (Effect.apply op ev' ctx args) := by
  have hrequired (i : Nat) : P.Follows cut Any (Operator.required op.name ev ctx args i)
      (Operator.required op.name ev' ctx args i) := hev.required hargs op.name i
  have hoptional (i : Nat) : P.Follows cut Any (Operator.optional ev ctx args i)
      (Operator.optional ev' ctx args i) := hev.optional hargs i
  cases op with
  | set => exact hev.effect_set hargs
  | setDynamic => exact hev.effect_setDynamic hargs
  | increment | decrement => exact (hev.adjust hargs _ _).bind fun _ _ => .pure trivial
  | emit => exact hev.effect_emit hargs
  | navigate | notify | spawn =>
    exact (hrequired 0).bind fun _ _ => (hoptional 1).bind fun _ _ => perform _ _ _
  | persist => exact hev.effect_persist hargs
  | despawn => exact (hoptional 0).bind fun _ _ => perform _ _ _
  | callService => exact hev.effect_callService hargs
  | renderUi => exact hev.effect_renderUi hargs

theorem core (op : CoreOp) : P.Follows cut Any (op.apply ev ctx args) (op.apply ev' ctx args) := by
  cases op with
  | arithmetic op => exact hev.arithmetic hargs op
  | comparison op => exact hev.comparison hargs op
  | logic op => exact hev.logic hargs op
  | control op => exact hev.control hargs op
  | collection op => exact hev.collection hargs op
  | effect op => exact hev.effect hargs op

end families

end Evaluator.Imitates
end EntityMachines
