import EntityMachines.Proofs.Evaluation.Operators
import EntityMachines.Eval.Timers

/-!
The operators of the standard library keep whatever the core operators do, and so does evaluation
to any number of levels.
-/
namespace EntityMachines

open Eval (Keeps Frame)

/-- All operators of a library keep a relation under handlers of one kind. -/
def Library.Keeps (R : World → World → Prop) (H : Handlers → Prop) (ev : Evaluator)
    (library : Library) : Prop :=
  ∀ entry ∈ library, ∀ ctx args, H ctx.handlers → Eval.Keeps R (entry.2 ev ctx args)

namespace Evaluator.Respects

variable {R : World → World → Prop} {H : Handlers → Prop} {ev : Evaluator} {ctx : Context}

theorem library_append {l l' : Library} (hl : l.Keeps R H ev) (hl' : l'.Keeps R H ev) :
    Library.Keeps R H ev (l ++ l') := by
  intro entry hentry
  rcases List.mem_append.mp hentry with h | h
  · exact hl entry h
  · exact hl' entry h

variable (hev : ev.Respects R H)

include hev

theorem ofTotal (functions : List (String × (Arguments → Value))) :
    (Library.ofTotal functions).Keeps R H ev := by
  intro entry hentry ctx args hctx
  obtain ⟨⟨name, f⟩, -, rfl⟩ := List.mem_map.mp hentry
  exact hev.ofValues hctx _ args

theorem ofPartial (functions : List (String × (Arguments → Except Error Value))) :
    (Library.ofPartial functions).Keeps R H ev := by
  intro entry hentry ctx args hctx
  obtain ⟨⟨name, f⟩, -, rfl⟩ := List.mem_map.mp hentry
  exact hev.ofValues hctx f args

theorem ofCalling {functions : List (String × (Evaluator → Arguments → Eval Value))}
    (hf : ∀ f ∈ functions, ∀ vs, Keeps R (f.2 ev vs)) :
    (Library.ofCalling functions).Keeps R H ev := by
  intro entry hentry ctx args hctx
  obtain ⟨f, hmem, rfl⟩ := List.mem_map.mp hentry
  exact hev.ofValuesWith hctx (hf f hmem) args

section values

theorem array_reduce (f : Value) (items : List Value) (acc : Value) :
    Keeps R (Library.Array.reduce ev f acc items) := by
  induction items generalizing acc with
  | nil => exact hev.frame.pure _
  | cons item rest ih =>
    unfold Library.Array.reduce
    exact hev.frame.bind (hev.call_closure f [acc, item]) fun v => ih v

theorem array_partition (f : Value) (items : List Value) :
    Keeps R (Library.Array.partition ev f items) := by
  induction items with
  | nil => exact hev.frame.pure _
  | cons item rest ih =>
    unfold Library.Array.partition
    refine hev.frame.bind (hev.holds f item) fun b => Keeps.ite (fun _ => ?_) fun _ => ?_
    · exact hev.frame.bind ih fun p => hev.frame.pure _
    · exact hev.frame.bind ih fun p => hev.frame.pure _

theorem array_every (f : Value) (items : List Value) :
    Keeps R (Library.Array.calling.every ev f items) := by
  induction items with
  | nil => exact hev.frame.pure _
  | cons item rest ih =>
    unfold Library.Array.calling.every
    exact hev.frame.bind (hev.holds f item) fun b =>
      Keeps.ite (fun _ => ih) fun _ => hev.frame.pure _

theorem array_calling : Library.Array.calling.Keeps R H ev := by
  have hwith (name : String) (g : Evaluator → Value → Arguments → Eval Value) (vs : Arguments)
      (hg : ∀ f, Keeps R (g ev f vs)) : Keeps R ((Library.Array.withLambda name g).2 ev vs) :=
    hev.frame.bind (lambdaAt hev.frame _ vs 1) hg
  have hpure (v : Value) : Keeps R (pure v) := hev.frame.pure v
  refine hev.ofCalling ?_
  simp only [List.forall_mem_cons, List.not_mem_nil, false_implies, implies_true, and_true]
  refine ⟨fun vs => hwith _ _ vs fun f => ?_, fun vs => hwith _ _ vs fun f => ?_,
    fun vs => hwith _ _ vs fun f => ?_, fun vs => hwith _ _ vs fun f => ?_,
    fun vs => hwith _ _ vs fun f => ?_, fun vs => hwith _ _ vs fun f => ?_,
    fun vs => hwith _ _ vs fun f => ?_, fun vs => hwith _ _ vs fun f => ?_,
    fun vs => hwith _ _ vs fun f => ?_, fun vs => ?_, fun vs => ?_⟩
  · exact hev.frame.bind (hev.findItem f _ 0) fun found => hpure _
  · refine hev.frame.bind (hev.findItem f _ 0) fun found => ?_
    split
    · exact hpure _
    · exact hpure _
  · exact hev.frame.bind (hev.filterItems f _) fun items => hpure _
  · exact hev.frame.bind (hev.array_partition f _) fun items => hpure _
  · exact hev.frame.bind (hev.mapItems f _) fun items => hpure _
  · exact hev.array_reduce f _ _
  · exact hev.frame.bind (hev.array_every f _) fun b => hpure _
  · exact hev.frame.bind (hev.findItem f _ 0) fun found => hpure _
  · exact hev.frame.bind (hev.array_partition f _) fun items => hpure _
  · refine Keeps.ite (fun _ => hpure _) fun _ => ?_
    exact hev.frame.bind (lambdaAt hev.frame _ vs 1) fun f =>
      hev.frame.bind (hev.filterItems f _) fun items => hpure _
  · exact hev.frame.bind hev.frame.get fun w => hpure _

theorem object_mapValues (f : Value) (entries : List (Text × Value)) :
    Keeps R (Library.Object.mapValues ev f entries) := by
  induction entries with
  | nil => exact hev.frame.pure _
  | cons entry rest ih =>
    unfold Library.Object.mapValues
    exact hev.frame.bind (hev.call_closure f [entry.2]) fun v =>
      hev.frame.bind ih fun vs => hev.frame.pure _

theorem object_mapKeys (f : Value) (entries : List (Text × Value)) (renamed : Table Value) :
    Keeps R (Library.Object.mapKeys ev f renamed entries) := by
  induction entries generalizing renamed with
  | nil => exact hev.frame.pure _
  | cons entry rest ih =>
    unfold Library.Object.mapKeys
    exact hev.frame.bind (hev.call_closure f [.string entry.1]) fun v => ih _

theorem object_filterEntries (f : Value) (entries : List (Text × Value)) :
    Keeps R (Library.Object.filterEntries ev f entries) := by
  induction entries with
  | nil => exact hev.frame.pure _
  | cons entry rest ih =>
    unfold Library.Object.filterEntries
    refine hev.frame.bind (hev.call_closure f [.string entry.1, entry.2]) fun v => ?_
    exact Keeps.ite (fun _ => hev.frame.bind ih fun vs => hev.frame.pure _) fun _ => ih

theorem object_calling : Library.Object.calling.Keeps R H ev := by
  refine hev.ofCalling ?_
  simp only [List.forall_mem_cons, List.not_mem_nil, false_implies, implies_true, and_true]
  refine ⟨fun vs => ?_, fun vs => ?_, fun vs => ?_⟩
  · exact hev.frame.bind (lambdaAt hev.frame _ vs 1) fun f =>
      hev.frame.bind (hev.object_mapValues f _) fun t => hev.frame.pure _
  · exact hev.frame.bind (lambdaAt hev.frame _ vs 1) fun f =>
      hev.frame.bind (hev.object_mapKeys f _ []) fun t => hev.frame.pure _
  · exact hev.frame.bind (lambdaAt hev.frame _ vs 1) fun f =>
      hev.frame.bind (hev.object_filterEntries f _) fun t => hev.frame.pure _

theorem math_draw : Keeps R Library.Math.draw :=
  hev.frame.bind hev.frame.get fun _ =>
    hev.frame.bind (Keeps.modify fun w => hev.frame.random w _) fun _ => hev.frame.pure _

theorem math_random : Library.Math.random.Keeps R H ev := by
  refine hev.ofCalling ?_
  simp only [List.forall_mem_cons, List.not_mem_nil, false_implies, implies_true, and_true]
  refine ⟨fun vs => ?_, fun vs => ?_, fun vs => ?_⟩
  · exact hev.frame.bind hev.math_draw fun x => hev.frame.pure _
  · exact hev.frame.bind hev.math_draw fun x => hev.frame.pure _
  · exact hev.frame.bind (Keeps.modify fun w => hev.frame.random w _) fun _ => hev.frame.pure _

end values

section async

variable (hctx : H ctx.handlers)

include hctx

theorem async_delay (args : List Value) : Keeps R (Library.Async.delay ev ctx args) :=
  hev.frame.bind (hev.required hctx _ args 0) fun _ =>
    hev.frame.bind (hev.frame.wait _) fun _ => hev.optional hctx args 1

theorem async_timeout (args : List Value) : Keeps R (Library.Async.timeout ev ctx args) := by
  unfold Library.Async.timeout
  refine hev.frame.bind (argument hev.frame _ args 0) fun effect => ?_
  refine hev.frame.bind (hev.required hctx _ args 1) fun ms => ?_
  refine hev.frame.bind hev.frame.get fun w => ?_
  refine hev.frame.bind (hev.frame.within _ (hev.evaluate effect ctx hctx)) fun v? => ?_
  split
  · exact hev.frame.pure _
  · exact hev.frame.raise _

theorem async_debounce (args : List Value) : Keeps R (Library.Async.debounce ev ctx args) :=
  hev.frame.bind (hev.required hctx _ args 0) fun _ =>
    hev.frame.bind (hev.required hctx _ args 1) fun _ =>
      hev.frame.bind (Keeps.modify fun w => hev.arm w _ _ hctx) fun _ => hev.frame.pure _

theorem async_throttle (args : List Value) : Keeps R (Library.Async.throttle ev ctx args) := by
  unfold Library.Async.throttle
  refine hev.frame.bind (hev.required hctx _ args 0) fun name => ?_
  refine hev.frame.bind (hev.required hctx _ args 1) fun ms => ?_
  intro w
  rw [Eval.after_get_bind]
  dsimp only
  rw [Eval.after_set_bind]
  generalize hthrottle : w.timing.throttle name.display _ = p
  have htimers : p.2.timers = w.timing.timers := by
    rw [← hthrottle]
    exact Timing.throttle_timers _ _ _
  have hemit : Keeps R (if p.1 = true then do
      Effect.emitLater ev ctx.handlers name.display
      pure Value.undefined
    else pure Value.undefined) :=
    Keeps.ite (fun _ => hev.frame.bind (hev.emitLater hctx _) fun _ => hev.frame.pure _)
      fun _ => hev.frame.pure _
  exact hev.frame.trans (hev.frame.timing w p.2 fun _ => htimers ▸ id) (hemit _)

theorem async_attempts (effect : Value) (backoff : Text) (base : Float) (left i : Nat)
    (last : Option Error) :
    Keeps R (Library.Async.attempts ev ctx effect backoff base left i last) := by
  induction left generalizing i last with
  | zero =>
    cases last with
    | none => exact hev.frame.pure _
    | some e => exact hev.frame.raise e
  | succ left ih =>
    unfold Library.Async.attempts
    refine hev.frame.bind (Keeps.attempt (hev.evaluate effect ctx hctx)) fun outcome => ?_
    cases outcome with
    | ok v => exact hev.frame.pure v
    | error e =>
      refine hev.frame.bind (hev.frame.note _ _ _) fun _ => Keeps.ite (fun _ => ?_) fun _ => ih _ _
      exact hev.frame.bind (hev.frame.wait _) fun _ => ih _ _

theorem async_retry (args : List Value) : Keeps R (Library.Async.retry ev ctx args) :=
  hev.frame.bind (argument hev.frame _ args 0) fun effect =>
    hev.frame.bind (hev.optional hctx args 1) fun _ => hev.async_attempts hctx effect _ _ _ 0 none

theorem async_together (start : Nat) (limit : Option Nat) (args : List Value) :
    Keeps R (Library.Async.together ev ctx start limit args) := by
  induction args with
  | nil => exact hev.frame.pure _
  | cons effect rest ih =>
    have hrun : Keeps R (Eval.settle (ev.evaluate effect ctx)) :=
      Keeps.settle (hev.evaluate effect ctx hctx)
    unfold Library.Async.together
    refine hev.frame.bind (hev.frame.setElapsed start) fun _ => ?_
    cases limit with
    | none =>
      exact hev.frame.bind hrun fun result => hev.frame.bind hev.frame.get fun w =>
        hev.frame.bind ih fun outcomes => hev.frame.pure _
    | some limit =>
      exact hev.frame.bind (hev.frame.map _ (hev.frame.within limit hrun)) fun result =>
        hev.frame.bind hev.frame.get fun w =>
          hev.frame.bind ih fun outcomes => hev.frame.pure _

omit hctx in
theorem async_finishTimes (ctx : Context) (args : List Value) :
    Keeps R (Library.Async.finishTimes ev ctx args) := by
  induction args with
  | nil => exact hev.frame.pure _
  | cons effect rest ih =>
    unfold Library.Async.finishTimes
    exact hev.frame.bind (hev.frame.finishTime _) fun time =>
      hev.frame.bind ih fun times => hev.frame.pure _

theorem async_race (args : List Value) : Keeps R (Library.Async.race ev ctx args) := by
  unfold Library.Async.race
  refine Keeps.ite (fun _ => hev.frame.pure _) fun _ => ?_
  refine hev.frame.bind hev.frame.get fun w => ?_
  refine hev.frame.bind (hev.async_finishTimes ctx args) fun times => ?_
  split
  · exact hev.frame.throw _
  · refine hev.frame.bind (hev.async_together hctx _ _ args) fun outcomes => ?_
    refine hev.frame.bind (hev.frame.setElapsed _) fun _ => ?_
    split
    · exact hev.frame.ofExcept _
    · exact hev.frame.throw _

theorem async_all (args : List Value) : Keeps R (Library.Async.all ev ctx args) := by
  unfold Library.Async.all
  refine hev.frame.bind hev.frame.get fun w => ?_
  refine hev.frame.bind (hev.async_together hctx _ none args) fun outcomes => ?_
  dsimp only
  split
  · exact hev.frame.bind (hev.frame.setElapsed _) fun _ => hev.frame.ofExcept _
  · refine Keeps.ite (fun _ => hev.frame.throw _) fun _ => ?_
    exact hev.frame.bind (hev.frame.setElapsed _) fun _ => hev.frame.pure _

theorem async_sequence (args : List Value) : Keeps R (Library.Async.sequence ev ctx args) :=
  hev.frame.bind (hev.evaluateAll hctx args) fun _ => hev.frame.pure _

omit hctx in
theorem async_operators : Library.Async.operators.Keeps R H ev := by
  simp only [Library.Keeps, Library.Async.operators, List.map_cons, List.map_nil,
    List.forall_mem_cons, List.not_mem_nil, false_implies, implies_true, and_true]
  exact ⟨fun _ args h => hev.async_delay h args, fun _ args h => hev.async_timeout h args,
    fun _ args h => hev.async_debounce h args, fun _ args h => hev.async_throttle h args,
    fun _ args h => hev.async_retry h args, fun _ args h => hev.async_race h args,
    fun _ args h => hev.async_all h args, fun _ args h => hev.async_sequence h args⟩

end async

theorem time_contextuals : Library.Time.contextuals.Keeps R H ev := by
  intro entry hentry ctx args hctx
  obtain ⟨⟨name, f⟩, -, rfl⟩ := List.mem_map.mp hentry
  exact hev.frame.bind (hev.evaluateAll hctx args) fun vs => hev.frame.pure _

theorem validate_operators : Library.Validate.operators.Keeps R H ev := by
  refine library_append ?_ (hev.ofTotal _)
  intro entry hentry ctx args hctx
  obtain ⟨⟨name, rule⟩, -, rfl⟩ := List.mem_map.mp hentry
  exact hev.ofValues hctx _ args

theorem standard : Library.standard.Keeps R H ev := by
  have hmath : Library.Math.operators.Keeps R H ev :=
    library_append (library_append (hev.ofTotal _) (hev.ofPartial _)) hev.math_random
  have hstrings : Library.Strings.operators.Keeps R H ev :=
    library_append (hev.ofTotal _) (hev.ofPartial _)
  have harray : Library.Array.operators.Keeps R H ev :=
    library_append (hev.ofTotal _) hev.array_calling
  have hobject : Library.Object.operators.Keeps R H ev :=
    library_append (library_append (hev.ofTotal _) (hev.ofPartial _)) hev.object_calling
  have htime : Library.Time.operators.Keeps R H ev :=
    library_append (hev.ofTotal _) hev.time_contextuals
  have hformat : Library.Format.operators.Keeps R H ev := hev.ofTotal _
  have hvalues := library_append (library_append (library_append hmath hstrings) harray) hobject
  have hrest := library_append (library_append hvalues htime) hformat
  exact library_append (library_append hrest hev.validate_operators) hev.async_operators

end Evaluator.Respects

/-!
Evaluation to any number of levels keeps a relation: with all its effects, if they and deliveries
keep it, and without handlers, if the closures that bring handlers of their own keep it.
-/

/-- A relation that evaluation keeps with all its effects, deliveries to machines apart. -/
structure Eval.OpenFrame (R : World → World → Prop) : Prop extends Frame R where
  capture : ∀ w c, R w { w with closures := w.closures.push c }
  arm : ∀ w t, R w { w with timing := t }
  write : ∀ w store (changes : Table Value),
    R w { w with
      stores := w.stores.modify store fun data => data.applyChanges changes
      history := .write store changes :: w.history }
  request : ∀ w label request, request.hearing? = none →
    R w { w with calls := ⟨label, request⟩ :: w.calls }
  closure : ∀ w hs, R w { w with history := .call hs :: w.history }

namespace Eval.OpenFrame

variable {R : World → World → Prop} (hR : OpenFrame R)

include hR

theorem weaken {R' : World → World → Prop} (htrans : ∀ {a b c}, R' a b → R' b c → R' a c)
    (h : ∀ {w w'}, R w w' → R' w w') : OpenFrame R' where
  refl w := h (hR.refl w)
  trans := htrans
  capture w c := h (hR.capture w c)
  timing w t ht := h (hR.timing w t ht)
  arm w t := h (hR.arm w t)
  random w n := h (hR.random w n)
  clock w t d := h (hR.clock w t d)
  write w store changes := h (hR.write w store changes)
  request w label request hrequest := h (hR.request w label request hrequest)
  closure w hs := h (hR.closure w hs)

theorem call (label : Label) {request : Request} (h : request.hearing? = none) :
    Keeps R (Eval.call label request) :=
  hR.bind (Keeps.modify fun w => hR.request w label request h) fun _ =>
    hR.bind hR.get fun _ => hR.ofExcept _

theorem mutate (m : Mutator) (changes : Table Value) : Keeps R (Effect.mutate m changes) := by
  unfold Effect.mutate
  have hwrite : Keeps R (Eval.writeStore m.store changes) := fun w => hR.write w m.store changes
  refine hR.bind hwrite fun _ => ?_
  cases m.observer with
  | none => exact hR.pure _
  | some label => exact hR.bind (hR.call label rfl) fun _ => hR.pure _

theorem respects {ev : Evaluator} (hevaluate : ∀ e ctx, Keeps R (ev.evaluate e ctx))
    (hdeliver : ∀ handle services event payload,
      Keeps R (ev.deliver handle services event payload)) :
    ev.Respects R fun _ => True where
  frame := hR.toFrame
  evaluate e ctx _ := hevaluate e ctx
  invoke w c args _ := by
    have hinvoke : Keeps R (ev.invokeClosure c args) := by
      unfold Evaluator.invokeClosure
      refine Keeps.ite (fun _ => ?_) fun _ => hevaluate _ _
      exact hR.bind (Keeps.modify fun w => hR.closure w _) fun _ => hevaluate _ _
    exact hinvoke w
  outgoing hs _ := {
    mutate := fun m _ changes => hR.mutate m changes
    send := by
      intro emitter _ event payload
      cases emitter with
      | outside label => exact hR.bind (hR.call label rfl) fun _ => hR.pure _
      | machine handle services => exact hdeliver handle services event payload
    call := fun _ label request h => hR.call label h }
  capture w c _ := hR.capture w c
  arm w _ _ _ := hR.arm w _

end Eval.OpenFrame

namespace Evaluator

variable {R : World → World → Prop} {H : Handlers → Prop} {ev : Evaluator} {ctx : Context}

theorem operator?_keeps (hev : ev.Respects R H) (hctx : H ctx.handlers) {name : Text}
    {apply : Operator} (h : operator? Library.standard name = some apply) (args : List Value) :
    Keeps R (apply ev ctx args) := by
  unfold operator? at h
  cases hcore : CoreOp.ofName? name with
  | some op =>
    rw [hcore] at h
    cases h
    exact hev.core hctx op args
  | none =>
    rw [hcore] at h
    obtain ⟨before, behind, heq, -⟩ := List.lookup_eq_some_iff.mp h
    have hmem : (name, apply) ∈ Library.standard := by rw [heq]; simp
    exact hev.standard _ hmem ctx args hctx

theorem step_keeps (hev : ev.Respects R H) (hctx : H ctx.handlers) (e : Value) :
    Keeps R (step Library.standard ev e ctx) := by
  unfold step
  split
  · split
    next h => exact operator?_keeps hev hctx h _
    next => exact hev.frame.raise _
  · exact Keeps.ite (fun _ => Respects.resolveText hev.frame ctx _) fun _ => hev.frame.pure _
  · exact hev.frame.pure _

/-- Evaluation keeps a relation if its effects do and if machines do that answer to it. -/
theorem withFuel_respects (hR : Eval.OpenFrame R)
    (hdeliver : ∀ n, (withFuel Library.standard n).Respects R (fun _ => True) →
      ∀ handle services event payload, Keeps R
        (Machine.deliver (withFuel Library.standard n) handle services event payload)) (n : Nat) :
    (withFuel Library.standard n).Respects R fun _ => True := by
  induction n with
  | zero => exact hR.respects (fun _ _ => hR.throw _) fun _ _ _ _ => hR.throw _
  | succ n ih => exact hR.respects (fun e ctx => step_keeps ih trivial e) (hdeliver n ih)

/-- Evaluation without handlers keeps a relation if the closures that bring handlers do. -/
theorem withFuel_sealed (hR : Frame R)
    (hcapture : ∀ w c, R w { w with closures := w.closures.push c })
    (harm : ∀ w t, R w { w with timing := t })
    (hcall : ∀ n c args, c.captured.handlers ≠ {} →
      Keeps R ((withFuel Library.standard n).invokeClosure c args)) (n : Nat) :
    (withFuel Library.standard n).Respects R (· = {}) := by
  have hrespects (m : Nat) (hevaluate : ∀ e ctx, ctx.handlers = {} →
      Keeps R ((withFuel Library.standard m).evaluate e ctx)) :
      (withFuel Library.standard m).Respects R (· = {}) := {
    frame := hR
    evaluate := hevaluate
    invoke := by
      intro w c args _
      by_cases h : c.captured.handlers = {}
      · unfold invokeClosure
        rw [if_neg (by simp [h])]
        exact hevaluate c.body (c.captured.child _) h w
      · exact hcall m c args h w
    outgoing := by
      rintro hs rfl
      exact Outgoing.none R _
    capture := fun w c _ => hcapture w c
    arm := fun w _ _ _ => harm w _ }
  induction n with
  | zero => exact hrespects 0 fun _ _ _ => hR.throw _
  | succ n ih => exact hrespects (n + 1) fun e ctx hctx => step_keeps ih hctx e

end Evaluator

namespace Timers

variable {R : World → World → Prop} {H : Handlers → Prop} {ev : Evaluator}

theorem act_keeps (hev : ev.Respects R H) {action : DelayedEmit} (h : H action.handlers) :
    Keeps R (act ev action) := by
  have hemit : Keeps R (Effect.emitLater ev action.handlers action.event) :=
    hev.emitLater h action.event
  unfold act
  refine hev.frame.bind (Keeps.attempt hemit) fun outcome => ?_
  cases outcome with
  | ok _ => exact hev.frame.pure none
  | error e => exact hev.frame.pure (some e.message)

theorem expire_keeps (hev : ev.Respects R H) {timers : List (Text × Timer DelayedEmit)}
    (h : ∀ entry ∈ timers, H entry.2.action.handlers) :
    Keeps R (Timing.expire (act ev) note timers) := by
  induction timers with
  | nil => exact hev.frame.pure ()
  | cons entry rest ih =>
    rw [List.forall_mem_cons] at h
    unfold Timing.expire
    refine hev.frame.bind (act_keeps hev h.1) fun failure => ?_
    cases failure with
    | none => exact ih h.2
    | some message =>
      exact hev.frame.bind (Keeps.modify fun w => hev.frame.timing w _ fun _ => id) fun _ => ih h.2

/-- Nothing is asked where a timer that waits has handlers of another kind. -/
theorem settle_keeps_of (hev : ev.Respects R H)
    (h : ∀ w w', R w w' ∨ ∀ entry ∈ w.timing.timers, H entry.2.action.handlers) (rounds : Nat) :
    Keeps R (settle ev rounds) := by
  induction rounds with
  | zero => exact hev.frame.throw _
  | succ rounds ih =>
    intro w
    obtain hvacuous | htimers := h w ((settle ev (rounds + 1)).after w)
    · exact hvacuous
    · unfold settle Timing.takeTimers
      rw [Eval.after_get_bind]
      generalize hwaiting : w.timing.timers = timers at htimers
      cases timers with
      | nil => exact hev.frame.refl w
      | cons first others =>
        have hrest : Keeps R (do Timing.expire (act ev) note (first :: others); settle ev rounds) :=
          hev.frame.bind (expire_keeps hev htimers) fun _ => ih
        rw [Eval.after_set_bind]
        have hcleared : R w { w with timing := w.timing.clearTimers } :=
          hev.frame.timing w _ fun _ hnone => absurd hnone List.not_mem_nil
        exact hev.frame.trans hcleared (hrest _)

theorem settle_keeps (hev : ev.Respects R fun _ => True) (rounds : Nat) :
    Keeps R (settle ev rounds) :=
  settle_keeps_of hev (fun _ _ => .inr fun _ _ => trivial) rounds

end Timers
end EntityMachines
