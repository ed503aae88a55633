import EntityMachines.Evaluator
import EntityMachines.Proofs.Evaluation.Keeps

/-!
Core operators keep whatever the evaluation of their arguments, the closures that they call and
the handlers of their context keep.
-/
namespace EntityMachines

/-- The machine whose listener a call lets hear an event, and the event. -/
def Request.hearing? : Request → Option (Nat × Occurrence)
  | heard machine event payload => some (machine, ⟨event, payload⟩)
  | _ => none

namespace Evaluator

open Eval (Keeps Frame)

/-- All that leaves an expression through the given handlers keeps a relation. -/
structure Outgoing (R : World → World → Prop) (ev : Evaluator) (hs : Handlers) : Prop where
  mutate : ∀ m, hs.mutate = some m → ∀ changes, Keeps R (Effect.mutate m changes)
  send : ∀ emitter, hs.emit = some emitter → ∀ event payload,
    Keeps R (Effect.send ev emitter event payload)
  call : hs ≠ {} → ∀ label request, request.hearing? = none → Keeps R (Eval.call label request)

/-- Evaluation under handlers of one kind keeps a relation, and so does every call of a closure that
is there. Closures and timers get the handlers of their context. -/
structure Respects (R : World → World → Prop) (H : Handlers → Prop) (ev : Evaluator) : Prop where
  frame : Frame R
  evaluate : ∀ e ctx, H ctx.handlers → Keeps R (ev.evaluate e ctx)
  invoke : ∀ w c args, c ∈ w.closures → R w ((ev.invokeClosure c args).after w)
  outgoing : ∀ hs, H hs → Outgoing R ev hs
  capture : ∀ w c, H c.captured.handlers → R w { w with closures := w.closures.push c }
  arm : ∀ w key hs, H hs → R w { w with timing := w.timing.debounce key ⟨key, hs⟩ none }

theorem Outgoing.none (R : World → World → Prop) (ev : Evaluator) : Outgoing R ev {} where
  mutate := by intro m h; cases h
  send := by intro emitter h; cases h
  call := by intro h; exact absurd rfl h

/-- What keeps a relation keeps every weaker one. -/
theorem Respects.mono {R R' : World → World → Prop} {H : Handlers → Prop} {ev : Evaluator}
    (hev : ev.Respects R H) (hframe : Frame R') (h : ∀ w w', R w w' → R' w w') :
    ev.Respects R' H where
  frame := hframe
  evaluate e ctx hctx w := h _ _ (hev.evaluate e ctx hctx w)
  invoke w c args hc := h _ _ (hev.invoke w c args hc)
  outgoing hs hhs := {
    mutate := fun m hm changes w => h _ _ ((hev.outgoing hs hhs).mutate m hm changes w)
    send := fun emitter hemitter event payload w =>
      h _ _ ((hev.outgoing hs hhs).send emitter hemitter event payload w)
    call := fun hne label request hr w =>
      h _ _ ((hev.outgoing hs hhs).call hne label request hr w) }
  capture w c hc := h _ _ (hev.capture w c hc)
  arm w key hs hhs := h _ _ (hev.arm w key hs hhs)

namespace Respects

variable {R : World → World → Prop} {H : Handlers → Prop} {ev : Evaluator} {ctx : Context}

section arguments

theorem argument (hR : Frame R) (op : Text) (args : List Value) (i : Nat) :
    Keeps R (Operator.argument op args i) := by
  unfold Operator.argument
  split
  · exact hR.pure _
  · exact hR.raise _

theorem requiredClosure (hR : Frame R) (op : Text) (f : Value) :
    Keeps R (Operator.requiredClosure op f) := by
  unfold Operator.requiredClosure
  split
  · exact hR.pure _
  · exact hR.raise _

theorem lambdaAt (hR : Frame R) (op : Text) (args : Arguments) (i : Nat) :
    Keeps R (Operator.lambdaAt op args i) :=
  hR.bind (argument hR op args i) fun f => requiredClosure hR op f

theorem resolve (hR : Frame R) (ctx : Context) (b : Binding) : Keeps R (ctx.resolve b) := by
  unfold Context.resolve
  split
  · exact hR.pure _
  · refine Keeps.ite (fun _ => ?_) fun _ => ?_
    · split
      · exact hR.bind (hR.snapshot _) fun v => hR.pure _
      · exact hR.pure _
    · repeat' refine Keeps.ite (fun _ => hR.pure _) fun _ => ?_
      exact hR.pure _

theorem resolveText (hR : Frame R) (ctx : Context) (text : Text) :
    Keeps R (ctx.resolveText text) := by
  unfold Context.resolveText
  split
  · exact resolve hR ctx _
  · exact hR.pure _

end arguments

variable (hev : ev.Respects R H)

include hev

theorem call_closure (f : Value) (args : List Value) : Keeps R (ev.invoke f args) := by
  unfold Evaluator.invoke
  split
  next id =>
    intro w
    rw [Eval.after_get_bind]
    cases hc : w.closures[id]? with
    | some c => exact hev.invoke w c args (Array.mem_of_getElem? hc)
    | none => exact hev.frame.raise _ w
  next => exact hev.frame.raise _

section context

variable (hctx : H ctx.handlers)

include hctx

theorem required (op : Text) (args : List Value) (i : Nat) :
    Keeps R (Operator.required op ev ctx args i) :=
  hev.frame.bind (argument hev.frame op args i) fun e => hev.evaluate e ctx hctx

theorem optional (args : List Value) (i : Nat) : Keeps R (Operator.optional ev ctx args i) := by
  unfold Operator.optional
  split
  · exact hev.evaluate _ ctx hctx
  · exact hev.frame.pure _

theorem requiredLambda (op : Text) (args : List Value) (i : Nat) :
    Keeps R (Operator.requiredLambda op ev ctx args i) :=
  hev.frame.bind (hev.required hctx op args i) fun f => requiredClosure hev.frame op f

theorem evaluateAll (args : List Value) : Keeps R (ev.evaluateAll ctx args) :=
  hev.frame.mapM (fun arg => hev.evaluate arg ctx hctx) args

theorem ofValues (f : Arguments → Except Error Value) (args : List Value) :
    Keeps R (Operator.ofValues f ev ctx args) :=
  hev.frame.bind (hev.evaluateAll hctx args) fun vs => hev.frame.ofExcept (f vs)

theorem ofValuesWith {f : Evaluator → Arguments → Eval Value} (hf : ∀ vs, Keeps R (f ev vs))
    (args : List Value) : Keeps R (Operator.ofValuesWith f ev ctx args) :=
  hev.frame.bind (hev.evaluateAll hctx args) hf

end context

section collections

theorem mapItems (f : Value) (items : List Value) : Keeps R (Collection.mapItems ev f items) := by
  induction items with
  | nil => exact hev.frame.pure _
  | cons item rest ih =>
    unfold Collection.mapItems
    exact hev.frame.bind (hev.call_closure f [item]) fun v =>
      hev.frame.bind ih fun vs => hev.frame.pure _

theorem holds (f item : Value) : Keeps R (Collection.holds ev f item) :=
  hev.frame.bind (hev.call_closure f [item]) fun _ => hev.frame.pure _

theorem filterItems (f : Value) (items : List Value) :
    Keeps R (Collection.filterItems ev f items) := by
  induction items with
  | nil => exact hev.frame.pure _
  | cons item rest ih =>
    unfold Collection.filterItems
    refine hev.frame.bind (hev.holds f item) fun b => Keeps.ite (fun _ => ?_) fun _ => ih
    exact hev.frame.bind ih fun vs => hev.frame.pure _

theorem findItem (f : Value) (items : List Value) (place : Nat) :
    Keeps R (Collection.findItem ev f place items) := by
  induction items generalizing place with
  | nil => exact hev.frame.pure _
  | cons item rest ih =>
    unfold Collection.findItem
    exact hev.frame.bind (hev.holds f item) fun b =>
      Keeps.ite (fun _ => hev.frame.pure _) fun _ => ih (place + 1)

theorem sumItems (f : Value) (items : List Value) (total : Float) :
    Keeps R (Collection.sumItems ev f total items) := by
  induction items generalizing total with
  | nil => exact hev.frame.pure _
  | cons item rest ih =>
    unfold Collection.sumItems
    exact hev.frame.bind (hev.call_closure f [item]) fun v => ih _

end collections

section families

variable (hctx : H ctx.handlers)

include hctx

theorem arithmetic_fold (f : Float → Float → Float) (args : List Value) (acc : Float) :
    Keeps R (Arithmetic.fold ev ctx f acc args) := by
  induction args generalizing acc with
  | nil => exact hev.frame.pure _
  | cons arg rest ih =>
    unfold Arithmetic.fold
    exact hev.frame.bind (hev.evaluate arg ctx hctx) fun v => ih _

theorem arithmetic (op : ArithmeticOp) (args : List Value) :
    Keeps R (Arithmetic.apply op ev ctx args) := by
  have hpure (v : Value) : Keeps R (pure v) := hev.frame.pure v
  have hoperand (i : Nat) :
      Keeps R (do return (← Operator.required op.name ev ctx args i).toNumber : Eval Float) :=
    hev.frame.bind (hev.required hctx op.name args i) fun v => hev.frame.pure _
  unfold Arithmetic.apply
  cases op with
  | add | multiply | min | max => exact hev.arithmetic_fold hctx _ args _
  | subtract =>
    refine hev.frame.bind (hoperand 0) fun a => Keeps.ite (fun _ => hpure _) fun _ => ?_
    exact hev.frame.bind (hev.optional hctx args 1) fun b => hpure _
  | divide | modulo =>
    exact hev.frame.bind (hoperand 0) fun a => hev.frame.bind (hoperand 1) fun b => hpure _
  | abs | floor | ceil | round => exact hev.frame.bind (hoperand 0) fun a => hpure _
  | clamp =>
    exact hev.frame.bind (hoperand 0) fun x => hev.frame.bind (hoperand 1) fun low =>
      hev.frame.bind (hoperand 2) fun high => hpure _

theorem comparison (op : ComparisonOp) (args : List Value) :
    Keeps R (Comparison.apply op ev ctx args) :=
  hev.frame.bind (hev.required hctx op.name args 0) fun _ =>
    hev.frame.bind (hev.required hctx op.name args 1) fun _ => hev.frame.pure _

theorem logic_all (args : List Value) : Keeps R (Logic.all ev ctx args) := by
  induction args with
  | nil => exact hev.frame.pure _
  | cons arg rest ih =>
    unfold Logic.all
    exact hev.frame.bind (hev.evaluate arg ctx hctx) fun v =>
      Keeps.ite (fun _ => ih) fun _ => hev.frame.pure _

theorem logic_any (args : List Value) : Keeps R (Logic.any ev ctx args) := by
  induction args with
  | nil => exact hev.frame.pure _
  | cons arg rest ih =>
    unfold Logic.any
    exact hev.frame.bind (hev.evaluate arg ctx hctx) fun v =>
      Keeps.ite (fun _ => hev.frame.pure _) fun _ => ih

theorem logic (op : LogicOp) (args : List Value) : Keeps R (Logic.apply op ev ctx args) := by
  unfold Logic.apply
  cases op with
  | and => exact hev.frame.bind (hev.logic_all hctx args) fun b => hev.frame.pure _
  | or => exact hev.frame.bind (hev.logic_any hctx args) fun b => hev.frame.pure _
  | not => exact hev.frame.bind (hev.required hctx _ args 0) fun v => hev.frame.pure _
  | choose =>
    exact hev.frame.bind (hev.required hctx _ args 0) fun v =>
      Keeps.ite (fun _ => hev.required hctx _ args 1) fun _ => hev.optional hctx args 2

theorem control_sequence (args : List Value) (last : Value) :
    Keeps R (Control.sequence ev ctx last args) := by
  induction args generalizing last with
  | nil => exact hev.frame.pure _
  | cons e rest ih =>
    unfold Control.sequence
    exact hev.frame.bind (hev.evaluate e ctx hctx) fun v => ih v

theorem bindNames (pairs : List Value) (bound : Table Value) :
    Keeps R (Control.bindNames ev ctx bound pairs) := by
  induction pairs generalizing bound with
  | nil => exact hev.frame.pure _
  | cons pair rest ih =>
    unfold Control.bindNames
    split
    next h => cases h
    next name expr others h =>
      cases h
      exact hev.frame.bind (hev.optional hctx expr 0) fun v => ih _
    next => exact hev.frame.raise _

theorem control (op : ControlOp) (args : List Value) : Keeps R (Control.apply op ev ctx args) := by
  have hargument (i : Nat) : Keeps R (Operator.argument op.name args i) :=
    argument hev.frame op.name args i
  unfold Control.apply
  cases op with
  | bind =>
    refine hev.frame.bind (hargument 0) fun bindings => hev.frame.bind (hargument 1) fun _ => ?_
    split
    · exact hev.frame.bind (hev.bindNames hctx _ []) fun bound =>
        hev.control_sequence (show H (ctx.child bound).handlers from hctx) _ _
    · exact hev.frame.raise _
  | sequence => exact hev.control_sequence hctx args _
  | when =>
    refine hev.frame.bind (hev.required hctx _ args 0) fun v => ?_
    refine Keeps.ite (fun _ => ?_) fun _ => hev.frame.pure _
    exact hev.frame.bind (hargument 1) fun _ =>
      hev.frame.bind (hev.control_sequence hctx _ _) fun _ => hev.frame.pure _
  | lambda =>
    exact hev.frame.bind (hargument 0) fun names => hev.frame.bind (hargument 1) fun body =>
      hev.frame.bind (hev.frame.ofExcept _) fun ps w => hev.capture w ⟨ps, body, ctx⟩ hctx

theorem collection_concat (args : List Value) : Keeps R (Collection.concat ev ctx args) := by
  induction args with
  | nil => exact hev.frame.pure _
  | cons arg rest ih =>
    unfold Collection.concat
    exact hev.frame.bind (hev.evaluate arg ctx hctx) fun v =>
      hev.frame.bind ih fun vs => hev.frame.pure _

theorem collection (op : CollectionOp) (args : List Value) :
    Keeps R (Collection.apply op ev ctx args) := by
  have hpure (v : Value) : Keeps R (pure v) := hev.frame.pure v
  have hitems : Keeps R (Operator.required op.name ev ctx args 0) := hev.required hctx _ args 0
  have hsecond : Keeps R (Operator.required op.name ev ctx args 1) := hev.required hctx _ args 1
  have hlambda : Keeps R (Operator.requiredLambda op.name ev ctx args 1) :=
    hev.requiredLambda hctx _ args 1
  unfold Collection.apply
  cases op with
  | concat => exact hev.frame.bind (hev.collection_concat hctx args) fun vs => hpure _
  | map =>
    exact hev.frame.bind hitems fun v => hev.frame.bind hlambda fun f =>
      hev.frame.bind (hev.mapItems f _) fun vs => hpure _
  | filter =>
    exact hev.frame.bind hitems fun v => hev.frame.bind hlambda fun f =>
      hev.frame.bind (hev.filterItems f _) fun vs => hpure _
  | find =>
    exact hev.frame.bind hitems fun v => hev.frame.bind hlambda fun f =>
      hev.frame.bind (hev.findItem f _ 0) fun found => hpure _
  | count =>
    refine hev.frame.bind hitems fun v => Keeps.ite (fun _ => hpure _) fun _ => ?_
    exact hev.frame.bind hlambda fun f => hev.frame.bind (hev.filterItems f _) fun vs => hpure _
  | sum =>
    refine hev.frame.bind hitems fun v => Keeps.ite (fun _ => hpure _) fun _ => ?_
    exact hev.frame.bind hlambda fun f => hev.frame.bind (hev.sumItems f _ _) fun x => hpure _
  | first | last | empty => exact hev.frame.bind hitems fun v => hpure _
  | nth | includes => exact hev.frame.bind hitems fun v => hev.frame.bind hsecond fun u => hpure _

omit hctx in
theorem skipped (op : EffectOp) : Keeps R (Effect.skipped op) := hev.frame.note _ _ _

omit hctx in
theorem unsupported (op : EffectOp) (target : Value) : Keeps R (Effect.unsupported op target) :=
  hev.frame.note _ _ _

omit hctx in
theorem currentValue (ctx : Context) (target : Value) :
    Keeps R (Effect.currentValue ctx target) := by
  unfold Effect.currentValue
  split
  · exact resolveText hev.frame ctx _
  · exact hev.frame.pure _

omit hctx in
theorem emitLater {hs : Handlers} (hhs : H hs) (event : Text) :
    Keeps R (Effect.emitLater ev hs event) := by
  unfold Effect.emitLater
  cases h : hs.emit with
  | some emitter => exact (hev.outgoing hs hhs).send emitter h event _
  | none => exact hev.frame.note _ _ _

theorem amount (args : List Value) : Keeps R (Effect.amount ev ctx args) := by
  unfold Effect.amount
  split
  · exact hev.frame.map _ (hev.evaluate _ ctx hctx)
  · exact hev.frame.pure _

theorem operation (args : List Value) : Keeps R (Effect.operation ev ctx args) := by
  unfold Effect.operation
  split
  · exact hev.frame.map _ (hev.evaluate _ ctx hctx)
  · exact hev.frame.pure _

theorem adjust (op : EffectOp) (change : Float → Float → Float) (args : List Value) :
    Keeps R (Effect.adjust op change ev ctx args) := by
  unfold Effect.adjust
  refine hev.frame.bind (argument hev.frame _ args 0) fun target => ?_
  refine hev.frame.bind (hev.amount hctx args) fun amount => ?_
  cases h : ctx.handlers.mutate with
  | none => exact hev.skipped op
  | some m =>
    refine Keeps.ite (fun _ => hev.unsupported op target) fun _ => ?_
    exact hev.frame.bind (hev.currentValue ctx target) fun v =>
      (hev.outgoing _ hctx).mutate m h _

/-- A handler that is installed makes the handlers as a whole differ from none. -/
theorem perform (op : EffectOp) {handler : Option Label}
    (h : handler ≠ none → ctx.handlers ≠ {}) {request : Request} (hr : request.hearing? = none) :
    Keeps R (Effect.perform op handler request) := by
  unfold Effect.perform
  cases handler with
  | none => exact hev.frame.bind (hev.skipped op) fun _ => hev.frame.pure _
  | some label =>
    exact hev.frame.bind ((hev.outgoing _ hctx).call (h (by simp)) label request hr) fun _ =>
      hev.frame.pure _

theorem effect_set (args : List Value) : Keeps R (Effect.apply .set ev ctx args) := by
  unfold Effect.apply
  refine hev.frame.bind (argument hev.frame _ args 0) fun target => ?_
  refine hev.frame.bind (hev.required hctx _ args 1) fun operand => ?_
  refine hev.frame.bind (hev.operation hctx args) fun operation => ?_
  cases h : ctx.handlers.mutate with
  | none => exact hev.frame.bind (hev.skipped .set) fun _ => hev.frame.pure _
  | some m =>
    have hmutate := (hev.outgoing _ hctx).mutate m h
    refine Keeps.ite (fun _ => ?_) fun _ => Keeps.ite (fun _ => ?_) fun _ => ?_
    · exact hev.frame.bind (hev.unsupported .set target) fun _ => hev.frame.pure _
    · exact hev.frame.bind (hmutate _) fun _ => hev.frame.pure _
    · exact hev.frame.bind (hev.currentValue ctx target) fun current =>
        hev.frame.bind (hmutate _) fun _ => hev.frame.pure _

theorem effect_setDynamic (args : List Value) :
    Keeps R (Effect.apply .setDynamic ev ctx args) := by
  unfold Effect.apply
  refine hev.frame.bind (hev.required hctx _ args 0) fun path => ?_
  refine hev.frame.bind (hev.required hctx _ args 1) fun operand => ?_
  cases h : ctx.handlers.mutate with
  | none => exact hev.frame.bind (hev.skipped .setDynamic) fun _ => hev.frame.pure _
  | some m =>
    dsimp only
    split
    · exact hev.frame.bind ((hev.outgoing _ hctx).mutate m h _) fun _ => hev.frame.pure _
    · exact hev.frame.bind (hev.frame.note _ _ _) fun _ => hev.frame.pure _

theorem effect_emit (args : List Value) : Keeps R (Effect.apply .emit ev ctx args) := by
  unfold Effect.apply
  refine hev.frame.bind (hev.required hctx _ args 0) fun event => ?_
  refine hev.frame.bind (hev.optional hctx args 1) fun payload => ?_
  cases h : ctx.handlers.emit with
  | none => exact hev.frame.bind (hev.skipped .emit) fun _ => hev.frame.pure _
  | some emitter =>
    exact hev.frame.bind ((hev.outgoing _ hctx).send emitter h _ payload) fun _ => hev.frame.pure _

theorem effect_persist (args : List Value) : Keeps R (Effect.apply .persist ev ctx args) := by
  unfold Effect.apply
  refine hev.frame.bind (hev.required hctx _ args 0) fun action => ?_
  refine Keeps.ite (fun _ => hev.frame.raise _) fun _ => ?_
  have hperform (data : Value) : Keeps R
      (Effect.perform .persist ctx.handlers.persist (.persist action.display data)) :=
    hev.perform hctx .persist (by intro h h'; exact h (by rw [h'])) rfl
  exact Keeps.ite (fun _ => hev.frame.bind (hev.optional hctx args 1) hperform) fun _ => hperform _

theorem effect_callService (args : List Value) :
    Keeps R (Effect.apply .callService ev ctx args) := by
  unfold Effect.apply
  refine hev.frame.bind (hev.required hctx _ args 0) fun service => ?_
  refine hev.frame.bind (hev.required hctx _ args 1) fun method => ?_
  refine hev.frame.bind (hev.optional hctx args 2) fun params => ?_
  cases h : ctx.handlers.callService with
  | none => exact hev.frame.bind (hev.skipped .callService) fun _ => hev.frame.pure _
  | some label =>
    have hne : ctx.handlers ≠ {} := by intro h'; rw [h'] at h; cases h
    exact (hev.outgoing _ hctx).call hne label _ rfl

theorem effect_renderUi (args : List Value) : Keeps R (Effect.apply .renderUi ev ctx args) := by
  unfold Effect.apply
  refine hev.frame.bind (hev.required hctx _ args 0) fun slot => ?_
  refine hev.frame.bind (hev.required hctx _ args 1) fun pattern => ?_
  refine hev.frame.bind (hev.optional hctx args 2) fun props => ?_
  refine hev.frame.bind (hev.optional hctx args 3) fun priority => ?_
  have hne : ctx.handlers.renderUi ≠ none → ctx.handlers ≠ {} := by
    intro h h'
    exact h (by rw [h'])
  exact Keeps.ite (fun _ => hev.perform hctx .renderUi hne rfl) fun _ =>
    hev.perform hctx .renderUi hne rfl

theorem effect (op : EffectOp) (args : List Value) : Keeps R (Effect.apply op ev ctx args) := by
  have hrequired (i : Nat) : Keeps R (Operator.required op.name ev ctx args i) :=
    hev.required hctx op.name args i
  have hoptional (i : Nat) : Keeps R (Operator.optional ev ctx args i) := hev.optional hctx args i
  cases op with
  | set => exact hev.effect_set hctx args
  | setDynamic => exact hev.effect_setDynamic hctx args
  | increment | decrement =>
    exact hev.frame.bind (hev.adjust hctx _ _ args) fun _ => hev.frame.pure _
  | emit => exact hev.effect_emit hctx args
  | navigate =>
    exact hev.frame.bind (hrequired 0) fun _ => hev.frame.bind (hoptional 1) fun _ =>
      hev.perform hctx .navigate (by intro h h'; exact h (by rw [h'])) rfl
  | persist => exact hev.effect_persist hctx args
  | notify =>
    exact hev.frame.bind (hrequired 0) fun _ => hev.frame.bind (hoptional 1) fun _ =>
      hev.perform hctx .notify (by intro h h'; exact h (by rw [h'])) rfl
  | spawn =>
    exact hev.frame.bind (hrequired 0) fun _ => hev.frame.bind (hoptional 1) fun _ =>
      hev.perform hctx .spawn (by intro h h'; exact h (by rw [h'])) rfl
  | despawn =>
    exact hev.frame.bind (hoptional 0) fun _ =>
      hev.perform hctx .despawn (by intro h h'; exact h (by rw [h'])) rfl
  | callService => exact hev.effect_callService hctx args
  | renderUi => exact hev.effect_renderUi hctx args

theorem core (op : CoreOp) (args : List Value) : Keeps R (op.apply ev ctx args) := by
  cases op with
  | arithmetic op => exact hev.arithmetic hctx op args
  | comparison op => exact hev.comparison hctx op args
  | logic op => exact hev.logic hctx op args
  | control op => exact hev.control hctx op args
  | collection op => exact hev.collection hctx op args
  | effect op => exact hev.effect hctx op args

end families

end Respects
end Evaluator
end EntityMachines
