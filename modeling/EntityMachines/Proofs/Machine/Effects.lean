import EntityMachines.Proofs.Evaluation.Plain
import EntityMachines.Proofs.Machine.Scene

/-!
What effects do to the scene of the machine that runs them: `set` writes into its data, `emit` adds
to its queue as long as there is room, `async/debounce` arms a timer, and notices and pictures for
the surrounding program leave no trace.
-/
namespace EntityMachines

/-- A scene with changes of the data. -/
def Scene.write (s : Scene) (changes : Table Value) : Scene :=
  { s with data := s.data.applyChanges changes }

/-- A scene with a timer for an event, in the place of one of the same name. -/
def Scene.arm (s : Scene) (event : Text) (handlers : Handlers) : Scene :=
  { s with timers := s.timers.insert event ⟨⟨event, handlers⟩, none⟩ }

open Evaluator (Reads Plain)

section closures

variable {n i : Nat} {c : Closure} {data : Value} {w : World}

/-- The call of a closure that only reads is noted in the history, and leaves no other trace. -/
theorem Evaluator.invoke_closure {args : List Value} {v : Value} (hc : w.closures[i]? = some c)
    (hw : c.captured.Sees data w)
    (hbody : Reads n (c.captured.child (c.parameters.bind args)) data c.body v) :
    ∃ w', (withFuel Library.standard n).invoke (.closure i) args w = .ok v w' ∧ w.Unseen w' ∧
      w'.closures = w.closures := by
  rw [invoke_of_closure _ hc]
  unfold invokeClosure
  by_cases hhandlers : c.captured.handlers = {}
  · rw [if_neg (by simpa using hhandlers)]
    exact ⟨w, hbody w hw, .refl w, rfl⟩
  · rw [if_pos hhandlers]
    exact ⟨_, hbody { w with history := .call c.captured.handlers :: w.history } hw,
      .of_same rfl rfl rfl rfl rfl, rfl⟩

section items

variable {asks : Value → Bool} (hbody : ∀ item, Reads n
  (c.captured.child (c.parameters.bind [item])) data c.body (.bool (asks item)))

include hbody

theorem Collection.holds_closure (item : Value) (hc : w.closures[i]? = some c)
    (hw : c.captured.Sees data w) :
    ∃ w', holds (Evaluator.withFuel Library.standard n) (.closure i) item w = .ok (asks item) w' ∧
      w.Unseen w' ∧ w'.closures = w.closures := by
  obtain ⟨w', hcall, hlater⟩ := Evaluator.invoke_closure hc hw (hbody item)
  exact ⟨w', Eval.bind_of_ok hcall, hlater⟩

/-- By induction over the items, a filter keeps those to which its closure says yes. -/
theorem Collection.filterItems_closure (items : List Value) (hc : w.closures[i]? = some c)
    (hw : c.captured.Sees data w) :
    ∃ w', filterItems (Evaluator.withFuel Library.standard n) (.closure i) items w
      = .ok (items.filter asks) w' ∧ w.Unseen w' := by
  induction items generalizing w with
  | nil => exact ⟨w, rfl, .refl w⟩
  | cons item rest ih =>
    obtain ⟨w₁, hholds, hunseen, hclosures⟩ := holds_closure hbody item hc hw
    obtain ⟨w₂, hrest, hlater⟩ := ih (hclosures ▸ hc) (hw.of_unseen hunseen)
    refine ⟨w₂, ?_, hunseen.trans hlater⟩
    unfold filterItems
    rw [Eval.bind_of_ok hholds, List.filter_cons]
    cases asks item with
    | true => exact Eval.bind_of_ok hrest
    | false => exact hrest

/-- By induction over the items, they are parted by what the closure says to them. -/
theorem Library.Array.partition_closure (items : List Value) (hc : w.closures[i]? = some c)
    (hw : c.captured.Sees data w) :
    ∃ w', partition (Evaluator.withFuel Library.standard n) (.closure i) items w
      = .ok (items.filter asks, items.filter fun item => !asks item) w' ∧ w.Unseen w' := by
  induction items generalizing w with
  | nil => exact ⟨w, rfl, .refl w⟩
  | cons item rest ih =>
    obtain ⟨w₁, hholds, hunseen, hclosures⟩ := Collection.holds_closure hbody item hc hw
    obtain ⟨w₂, hrest, hlater⟩ := ih (hclosures ▸ hc) (hw.of_unseen hunseen)
    refine ⟨w₂, ?_, hunseen.trans hlater⟩
    unfold partition
    rw [Eval.bind_of_ok hholds, List.filter_cons, List.filter_cons]
    cases asks item with
    | true => exact Eval.bind_of_ok hrest
    | false => exact Eval.bind_of_ok hrest

/-- By induction over the items, one is found exactly if the closure says yes to some of them. -/
theorem Collection.findItem_closure (items : List Value) (place : Nat)
    (hc : w.closures[i]? = some c) (hw : c.captured.Sees data w) :
    ∃ found w', findItem (Evaluator.withFuel Library.standard n) (.closure i) place items w
      = .ok found w' ∧ w.Unseen w' ∧ found.isSome = items.any asks := by
  induction items generalizing w place with
  | nil => exact ⟨none, w, rfl, .refl w, rfl⟩
  | cons item rest ih =>
    obtain ⟨w₁, hholds, hunseen, hclosures⟩ := holds_closure hbody item hc hw
    obtain ⟨found, w₂, hrest, hlater, hfound⟩ :=
      ih (place + 1) (hclosures ▸ hc) (hw.of_unseen hunseen)
    unfold findItem
    rw [Eval.bind_of_ok hholds, List.any_cons]
    cases asks item with
    | true => exact ⟨some (place, item), w₁, rfl, hunseen, rfl⟩
    | false => exact ⟨found, w₂, hrest, hunseen.trans hlater, hfound⟩

end items

end closures

namespace Actor

/-- The handlers of its effects. -/
def handlers (actor : Actor) : Handlers := actor.machine.handlers actor.services

/-- An emitted event is queued if it is declared and there is room. -/
def post (actor : Actor) (s : Scene) (o : Occurrence) : Scene :=
  if actor.machine.definition.hasEvent o.event ∧ s.queue.length < actor.services.maxQueued then
    { s with queue := s.queue ++ [o] }
  else s

/-- Effects of the machine are evaluated in a context. -/
structure Acts (actor : Actor) (ctx : Context) : Prop where
  store : ctx.store = some actor.store
  handlers : ctx.handlers = actor.handlers

theorem Acts.child {actor : Actor} {ctx : Context} (h : actor.Acts ctx) (locals : Table Value) :
    actor.Acts (ctx.child locals) :=
  ⟨h.store, h.handlers⟩

/-- From a scene on an effect ends in scenes of given kinds. -/
def Performs (actor : Actor) (levels : Nat) (ctx : Context) (effect : Value) (s : Scene)
    (Q E : Scene → Prop) : Prop :=
  actor.Does ((Evaluator.withFuel Library.standard levels).evaluate effect ctx) s (fun _ => Q) E

/-- Effects that are performed one after another. -/
def PerformsAll (actor : Actor) (levels : Nat) (ctx : Context) :
    List Value → Scene → (Scene → Prop) → (Scene → Prop) → Prop
  | [], s, Q, _ => Q s
  | effect :: rest, s, Q, E =>
    actor.Performs levels ctx effect s (fun s => PerformsAll actor levels ctx rest s Q E) E

variable {actor : Actor} {n : Nat} {ctx : Context} {s : Scene} {e v : Value} {es : List Value}
  {Q E : Scene → Prop}

/-- What is emitted first finds room, if there is any. -/
theorem post_of_empty {o : Occurrence}
    (hevent : actor.machine.definition.hasEvent o.event = true)
    (hlimit : 1 ≤ actor.services.maxQueued) (hqueue : s.queue = []) :
    actor.post s o = { s with queue := [o] } := by
  unfold post
  rw [hqueue, if_pos ⟨hevent, hlimit⟩]
  rfl

theorem PerformsAll.mono {Q' E' : Scene → Prop} (h : actor.PerformsAll n ctx es s Q E)
    (hQ : ∀ s, Q s → Q' s) (hE : ¬actor.calm → ∀ s, E s → E' s) :
    actor.PerformsAll n ctx es s Q' E' := by
  induction es generalizing s with
  | nil => exact hQ s h
  | cons e rest ih => exact Does.mono h (fun _ _ hrest => ih hrest) hE

theorem PerformsAll.append (es later : List Value)
    (h : actor.PerformsAll n ctx es s (fun s' => actor.PerformsAll n ctx later s' Q E) E) :
    actor.PerformsAll n ctx (es ++ later) s Q E := by
  induction es generalizing s with
  | nil => exact h
  | cons e rest ih => exact Does.mono h (fun _ _ hrest => ih hrest) fun _ _ => id

/-- What an effect does is read off its operator. -/
theorem performs_core (op : CoreOp)
    (h : actor.Does (op.apply (Evaluator.withFuel Library.standard n) ctx es) s (fun _ => Q) E) :
    actor.Performs (n + 1) ctx (Expr.call op.name es) s Q E := by
  unfold Performs
  rw [Evaluator.evaluate_core]
  exact h

namespace Does

theorem ofReads (hctx : actor.Acts ctx) (h : Reads n ctx s.data e v) {Q : Value → Scene → Prop}
    (hQ : Q v s) : actor.Does ((Evaluator.withFuel Library.standard n).evaluate e ctx) s Q E :=
  ofGives hctx.store h hQ

theorem raise {α : Type} {e : Error} {Q : α → Scene → Prop} (hwild : ¬actor.calm) (h : E s) :
    actor.Does (Eval.raise e) s Q E := fun w hw =>
  .failed hwild hw (.refl w) h

theorem write {changes : Table Value} {Q : Unit → Scene → Prop} (h : Q () (s.write changes)) :
    actor.Does (Eval.writeStore actor.store changes) s Q E := by
  intro w hw
  let later : World := { w with
    stores := w.stores.modify actor.store fun data => data.applyChanges changes
    history := .write actor.store changes :: w.history }
  have hwrite : Eval.writeStore actor.store changes w = .ok () later := rfl
  rw [hwrite]
  refine .done (s := s.write changes) ⟨hw.machine, ?_, hw.timers, hw.calm⟩
    ⟨rfl, fun _ _ => rfl, fun store hstore => ?_, rfl, .of_eq rfl⟩ h
  · dsimp only [later]
    rw [Array.getElem?_modify, if_pos rfl, hw.data]
    rfl
  · dsimp only [later]
    rw [Array.getElem?_modify, if_neg (Ne.symm hstore)]

theorem mutate {changes : Table Value} {Q : Unit → Scene → Prop} (h : Q () (s.write changes))
    (hfails : ¬actor.calm → E (s.write changes)) :
    actor.Does (Effect.mutate ⟨actor.store, actor.services.observer⟩ changes) s Q E := by
  have hwrite : actor.Does (Eval.writeStore actor.store changes) s
      (fun _ s' => s' = s.write changes) E := write rfl
  unfold Effect.mutate
  refine hwrite.bind ?_
  rintro _ _ rfl
  cases actor.services.observer with
  | none => exact pure h
  | some label => exact pass (call (fun _ => rfl) hfails) fun _ => pure h

/-- A call for its effect alone leaves no trace. -/
theorem perform {op : EffectOp} {handler : Option Label} {request : Request}
    {Q : Value → Scene → Prop} (h : Q .undefined s) (hfails : ¬actor.calm → E s) :
    actor.Does (Effect.perform op handler request) s Q E := by
  unfold Effect.perform
  cases handler with
  | none => exact pass (note rfl) fun _ => pure h
  | some label => exact pass (call (fun _ => rfl) hfails) fun _ => pure h

theorem required {op : Text} {i : Nat} (hi : es[i]? = some e) {Q : Value → Scene → Prop}
    (h : actor.Does ((Evaluator.withFuel Library.standard n).evaluate e ctx) s Q E) :
    actor.Does (Operator.required op (Evaluator.withFuel Library.standard n) ctx es i) s Q E := by
  have harg : Operator.argument op es i = Pure.pure e := by
    unfold Operator.argument
    rw [hi]
  unfold Operator.required
  rw [harg]
  exact follow (pure ⟨rfl, rfl⟩) h

/-- An argument that is plain, or not there, comes to something. -/
theorem optional (hctx : actor.Acts ctx) {i : Nat} (hi : ∀ e, es[i]? = some e → Plain n e)
    {Q : Value → Scene → Prop} (h : ∀ v, Q v s) :
    actor.Does (Operator.optional (Evaluator.withFuel Library.standard n) ctx es i) s Q E := by
  unfold Operator.optional
  cases harg : es[i]? with
  | none => exact pure (h _)
  | some e =>
    obtain ⟨v, hv⟩ := hi e harg ctx s.data
    exact ofReads hctx hv (h v)

theorem announce {m : Instance} {o : Occurrence} {fate : Fate} (hfails : ¬actor.calm → E s) :
    actor.Does (Machine.announce actor.services m o fate) s (fun u s' => u = () ∧ s' = s) E := by
  unfold Machine.announce
  cases actor.services.listens with
  | true => exact pass (call (fun _ => rfl) hfails) fun _ => record ⟨rfl, rfl⟩
  | false => exact record ⟨rfl, rfl⟩

/-- What a machine emits while it is busy waits in its queue. -/
theorem deliver_busy {ev : Evaluator} {event : Text} {payload : Value} (hbusy : s.busy = true)
    {Q : Unit → Scene → Prop} (h : Q () (actor.post s ⟨event, payload⟩))
    (hfails : ¬actor.calm → E s) :
    actor.Does (Machine.deliver ev actor.handle actor.services event payload) s Q E := by
  unfold Machine.deliver
  refine withMachine fun stats lastRun => ?_
  refine follow (announce hfails) ?_
  · have hdeclared : (actor.cast s stats lastRun).definition = actor.machine.definition := rfl
    have hpending : (actor.cast s stats lastRun).pending = s.queue := rfl
    have hmachine : (actor.cast s stats lastRun).busy = true := hbusy
    unfold Instance.fate
    rw [hdeclared, hpending, hmachine]
    unfold post at h
    cases hevent : actor.machine.definition.hasEvent event with
    | false =>
      rw [if_neg (by simp [hevent])] at h
      exact pure h
    | true =>
      by_cases hroom : actor.services.maxQueued ≤ s.queue.length
      · rw [if_neg (by simp; omega)] at h
        simp only [hroom]
        exact pure h
      · rw [if_pos ⟨hevent, by omega⟩] at h
        simp only [hroom]
        exact update (fun m => { m with pending := m.pending ++ [⟨event, payload⟩] })
          { s with queue := s.queue ++ [⟨event, payload⟩] } (fun _ => rfl)
          (fun stats lastRun => ⟨stats, lastRun, rfl⟩) rfl rfl h

/-- An operator hands its items to a new closure, which does nothing but say something to them. -/
theorem lambda {name operator : Text} {items : List Value} {u : Value}
    {f : Evaluator → Value → Arguments → Eval Value}
    (hop : Evaluator.operator? Library.standard operator = some (Operator.ofValuesWith
      fun ev args => do f ev (← Operator.lambdaAt operator args 1) args))
    (hstore : ctx.store = some actor.store) (hinert : Expr.Inert body)
    (hsource : Reads (n + 1) ctx s.data source (.array items))
    (hf : ∀ i w, w.closures[i]? = some ⟨.single (Binding.bareName name), body, ctx⟩ →
      ctx.Sees s.data w → ∃ w', f (Evaluator.withFuel Library.standard (n + 1)) (.closure i)
        [.array items, .closure i] w = .ok u w' ∧ w.Unseen w') :
    actor.Does ((Evaluator.withFuel Library.standard (n + 2)).evaluate
        (Expr.call operator [source, Expr.call "fn" [.string name, body]]) ctx) s
      (fun u' s' => u' = u ∧ s' = s) E := by
  intro w hw
  let c : Closure := ⟨.single (Binding.bareName name), body, ctx⟩
  let captured : World := { w with closures := w.closures.push c }
  have hsees : ctx.Sees s.data w := ⟨actor.store, hstore, hw.data⟩
  have hinertly : w.MakesInert captured := by
    intro c' hc'
    rcases Array.mem_push.mp hc' with hold | rfl
    · exact .inl hold
    · exact .inr hinert
  have hunseen : w.Unseen captured := ⟨rfl, rfl, rfl, rfl, hinertly⟩
  have hfn : (Evaluator.withFuel Library.standard (n + 1)).evaluate
      (Expr.call "fn" [.string name, body]) ctx w = .ok (.closure w.closures.size) captured := by
    rw [show ("fn" : Text) = (CoreOp.control .lambda).name from rfl, Evaluator.evaluate_core]
    rfl
  obtain ⟨w', hcalled, hlater⟩ :=
    hf w.closures.size captured Array.getElem?_push_size (hsees.of_unseen hunseen)
  have hlast : [Expr.call "fn" [.string name, body]].mapM
      (fun e => (Evaluator.withFuel Library.standard (n + 1)).evaluate e ctx) w
        = .ok [.closure w.closures.size] captured := by
    rw [List.mapM_cons]
    exact (Eval.bind_of_ok hfn).trans rfl
  have hargs : (Evaluator.withFuel Library.standard (n + 1)).evaluateAll ctx
      [source, Expr.call "fn" [.string name, body]] w
        = .ok [.array items, .closure w.closures.size] captured := by
    unfold Evaluator.evaluateAll
    rw [List.mapM_cons, Eval.bind_of_ok (hsource w hsees), Eval.bind_of_ok hlast]
    rfl
  have hlambda : Operator.lambdaAt operator [.array items, .closure w.closures.size] 1 captured
      = .ok (.closure w.closures.size) captured := rfl
  rw [Evaluator.evaluate_call hop]
  unfold Operator.ofValuesWith
  rw [Eval.bind_of_ok hargs]
  dsimp only
  rw [Eval.bind_of_ok hlambda, hcalled]
  exact .done (hw.of_unseen (hunseen.trans hlater)) (.of_unseen (hunseen.trans hlater)) ⟨rfl, rfl⟩

section items

variable {name : Text} {items : List Value} {asks : Value → Bool}
  (hstore : ctx.store = some actor.store) (hinert : Expr.Inert body)
  (hsource : Reads (n + 1) ctx s.data source (.array items))
  (hbody : ∀ item, Reads (n + 1) (ctx.child [(Binding.bareName name, item)]) s.data body
    (.bool (asks item)))

include hstore hinert hsource hbody

theorem filter :
    actor.Does ((Evaluator.withFuel Library.standard (n + 2)).evaluate
        (Expr.call "array/filter" [source, Expr.call "fn" [.string name, body]]) ctx) s
      (fun u s' => u = .array (items.filter asks) ∧ s' = s) E := by
  refine lambda (Library.operator?_of_place 73 rfl) hstore hinert hsource fun i w hc hw => ?_
  obtain ⟨w', hfilter, hlater⟩ := Collection.filterItems_closure hbody items hc hw
  exact ⟨w', Eval.bind_of_ok hfilter, hlater⟩

theorem reject :
    actor.Does ((Evaluator.withFuel Library.standard (n + 2)).evaluate
        (Expr.call "array/reject" [source, Expr.call "fn" [.string name, body]]) ctx) s
      (fun u s' => u = .array (items.filter fun item => !asks item) ∧ s' = s) E := by
  refine lambda (Library.operator?_of_place 74 rfl) hstore hinert hsource fun i w hc hw => ?_
  obtain ⟨w', hparted, hlater⟩ := Library.Array.partition_closure hbody items hc hw
  exact ⟨w', Eval.bind_of_ok hparted, hlater⟩

theorem someItem :
    actor.Does ((Evaluator.withFuel Library.standard (n + 2)).evaluate
        (Expr.call "array/some" [source, Expr.call "fn" [.string name, body]]) ctx) s
      (fun u s' => u = .bool (items.any asks) ∧ s' = s) E := by
  refine lambda (Library.operator?_of_place 78 rfl) hstore hinert hsource fun i w hc hw => ?_
  obtain ⟨found, w', hfind, hlater, hfound⟩ := Collection.findItem_closure hbody items 0 hc hw
  exact ⟨w', (Eval.bind_of_ok hfind).trans (hfound ▸ rfl), hlater⟩

end items

end Does

namespace Performs

/-- The operand may be anything that comes to a value, as long as it leaves the scene alone. -/
theorem setTo {target : Value} {field : Text} (hctx : actor.Acts ctx)
    (hfield : Effect.fieldPath target = field) (hne : field ≠ [])
    (hoperand : actor.Does ((Evaluator.withFuel Library.standard n).evaluate e ctx) s
      (fun u s' => u = v ∧ s' = s) E)
    (h : Q (s.write [(field, v)])) (hfails : ¬actor.calm → E (s.write [(field, v)])) :
    actor.Performs (n + 1) ctx (Expr.call "set" [target, e]) s Q E := by
  have hmutate : ctx.handlers.mutate = some ⟨actor.store, actor.services.observer⟩ := by
    rw [hctx.handlers]
    rfl
  refine performs_core (.effect .set) ?_
  refine Does.follow (a := target) (Does.pure ⟨rfl, rfl⟩) ?_
  refine Does.follow (Does.required rfl hoperand) ?_
  refine Does.follow (a := ([] : Text)) (Does.pure ⟨rfl, rfl⟩) ?_
  rw [hmutate]
  dsimp only
  rw [hfield, if_neg (by simpa using hne), if_pos List.isEmpty_nil]
  exact Does.bind (Does.mutate (Q := fun _ => Q) h hfails) fun _ _ hQ => Does.pure hQ

theorem set {target : Value} {field : Text} (hctx : actor.Acts ctx)
    (hfield : Effect.fieldPath target = field) (hne : field ≠ []) (hv : Reads n ctx s.data e v)
    (h : Q (s.write [(field, v)])) (hfails : ¬actor.calm → E (s.write [(field, v)])) :
    actor.Performs (n + 1) ctx (Expr.call "set" [target, e]) s Q E :=
  setTo hctx hfield hne (Does.ofReads hctx hv ⟨rfl, rfl⟩) h hfails

/-- The event is told to the listener before it is queued, so that the queue stays as it is if the
listener fails. -/
theorem emit (hctx : actor.Acts ctx) (hbusy : s.busy = true) (hv : Reads (n + 1) ctx s.data e v)
    (hes : ∀ e ∈ es, Plain (n + 1) e) (h : ∀ payload, Q (actor.post s ⟨v.display, payload⟩))
    (hfails : ¬actor.calm → E s) :
    actor.Performs (n + 2) ctx (Expr.call "emit" (e :: es)) s Q E := by
  have hemit : ctx.handlers.emit = some (.machine actor.handle actor.services) := by
    rw [hctx.handlers]
    rfl
  have hpayload : ∀ p, (e :: es)[1]? = some p → Plain (n + 1) p := fun p hp =>
    hes p (List.mem_of_getElem? (by simpa using hp))
  refine performs_core (.effect .emit) ?_
  refine Does.follow (Does.required rfl (Does.ofReads hctx hv ⟨rfl, rfl⟩)) ?_
  refine Does.pass (Does.optional hctx hpayload fun _ => rfl) fun payload => ?_
  rw [hemit]
  refine Does.bind (P := fun _ s' => s' = actor.post s ⟨v.display, payload⟩) ?_ ?_
  · exact Does.deliver_busy hbusy rfl hfails
  · rintro _ _ rfl
    exact Does.pure (h payload)

theorem notify (hctx : actor.Acts ctx) (he : Plain n e) (hes : ∀ e ∈ es, Plain n e) (h : Q s)
    (hfails : ¬actor.calm → E s) :
    actor.Performs (n + 1) ctx (Expr.call "notify" (e :: es)) s Q E := by
  obtain ⟨v, hv⟩ := he ctx s.data
  have hseverity : ∀ p, (e :: es)[1]? = some p → Plain n p := fun p hp =>
    hes p (List.mem_of_getElem? (by simpa using hp))
  refine performs_core (.effect .notify) ?_
  refine Does.follow (Does.required rfl (Does.ofReads hctx hv ⟨rfl, rfl⟩)) ?_
  refine Does.pass (Does.optional hctx hseverity fun _ => rfl) fun _ => ?_
  exact Does.perform h hfails

theorem renderUi {slot pattern : Value} (hctx : actor.Acts ctx) (hslot : Plain n slot)
    (hpattern : Plain n pattern) (hes : ∀ e ∈ es, Plain n e) (h : Q s)
    (hfails : ¬actor.calm → E s) :
    actor.Performs (n + 1) ctx (Expr.call "render-ui" (slot :: pattern :: es)) s Q E := by
  obtain ⟨u, hu⟩ := hslot ctx s.data
  obtain ⟨v, hv⟩ := hpattern ctx s.data
  have hrest : ∀ i, ∀ p, (slot :: pattern :: es)[i + 2]? = some p → Plain n p := fun i p hp =>
    hes p (List.mem_of_getElem? (by simpa using hp))
  refine performs_core (.effect .renderUi) ?_
  refine Does.follow (Does.required rfl (Does.ofReads hctx hu ⟨rfl, rfl⟩)) ?_
  refine Does.follow (Does.required rfl (Does.ofReads hctx hv ⟨rfl, rfl⟩)) ?_
  refine Does.pass (Does.optional hctx (hrest 0) fun _ => rfl) fun _ => ?_
  refine Does.pass (Does.optional hctx (hrest 1) fun _ => rfl) fun _ => ?_
  split
  · exact Does.perform h hfails
  · exact Does.perform h hfails

theorem choose {c a b u : Value} (hctx : actor.Acts ctx) (hc : Reads n ctx s.data c u)
    (h : actor.Performs n ctx (if u.isTruthy then a else b) s Q E) :
    actor.Performs (n + 1) ctx (Expr.call "if" [c, a, b]) s Q E := by
  refine performs_core (.logic .choose) ?_
  refine Does.follow (Does.required rfl (Does.ofReads hctx hc ⟨rfl, rfl⟩)) ?_
  cases htruthy : u.isTruthy with
  | true =>
    rw [htruthy, if_pos rfl] at h
    rw [if_pos rfl]
    exact Does.required rfl h
  | false =>
    rw [htruthy, if_neg Bool.false_ne_true] at h
    rw [if_neg Bool.false_ne_true]
    exact h

theorem either {c a b : Value} (hctx : actor.Acts ctx) (hc : Plain n c)
    (ha : actor.Performs n ctx a s Q E) (hb : actor.Performs n ctx b s Q E) :
    actor.Performs (n + 1) ctx (Expr.call "if" [c, a, b]) s Q E := by
  obtain ⟨u, hu⟩ := hc ctx s.data
  refine choose hctx hu ?_
  split
  · exact ha
  · exact hb

theorem sequence_of (h : actor.PerformsAll n ctx es s Q E) (last : Value) :
    actor.Does (Control.sequence (Evaluator.withFuel Library.standard n) ctx last es) s
      (fun _ => Q) E := by
  induction es generalizing s last with
  | nil => exact Does.pure h
  | cons e rest ih => exact Does.bind h fun _ _ hrest => ih hrest _

theorem sequence (h : actor.PerformsAll n ctx es s Q E) :
    actor.Performs (n + 1) ctx (Expr.call "do" es) s Q E :=
  performs_core (.control .sequence) (sequence_of h _)

theorem when {c u : Value} (hctx : actor.Acts ctx) (hc : Reads n ctx s.data c u)
    (h : u.isTruthy = true → actor.Performs n ctx e s Q E) (hskip : u.isTruthy = false → Q s) :
    actor.Performs (n + 1) ctx (Expr.call "when" [c, e]) s Q E := by
  refine performs_core (.control .when) ?_
  refine Does.follow (Does.required rfl (Does.ofReads hctx hc ⟨rfl, rfl⟩)) ?_
  cases htruthy : u.isTruthy with
  | true =>
    rw [if_pos rfl]
    refine Does.follow (a := e) (Does.pure ⟨rfl, rfl⟩) ?_
    refine Does.bind (P := fun _ => Q) ?_ fun _ _ hQ => Does.pure hQ
    have hbody : actor.PerformsAll n ctx [e] s Q E := h htruthy
    exact sequence_of hbody _
  | false =>
    rw [if_neg Bool.false_ne_true]
    exact Does.pure (hskip htruthy)

/-- A value is bound to a name for the effect behind it. -/
theorem bindName {name : Text} {body : Value} (hctx : actor.Acts ctx) (hv : Reads n ctx s.data e v)
    (h : actor.Performs n (ctx.child [(Binding.bareName name, v)]) body s Q E) :
    actor.Performs (n + 1) ctx (Expr.call "let" [.array [.array [.string name, e]], body]) s Q E := by
  unfold Performs
  rw [Evaluator.evaluate_bindName]
  exact Does.follow (Does.ofReads hctx hv ⟨rfl, rfl⟩) h

theorem debounce {ms : Value} (hctx : actor.Acts ctx) (hv : Reads n ctx s.data e v)
    (hms : Plain n ms) (h : Q (s.arm v.display actor.handlers)) :
    actor.Performs (n + 1) ctx (Expr.call "async/debounce" [e, ms]) s Q E := by
  obtain ⟨u, hu⟩ := hms ctx s.data
  have hop : Evaluator.operator? Library.standard "async/debounce" = some Library.Async.debounce :=
    Library.operator?_of_place 161 rfl
  unfold Performs
  rw [Evaluator.evaluate_call hop]
  refine Does.follow (Does.required rfl (Does.ofReads hctx hv ⟨rfl, rfl⟩)) ?_
  refine Does.follow (Does.required rfl (Does.ofReads hctx hu ⟨rfl, rfl⟩)) ?_
  refine Does.bind (P := fun _ => Q) ?_ fun _ _ hQ => Does.pure hQ
  intro w hw
  rw [hctx.handlers]
  refine .done (s := s.arm v.display actor.handlers) ⟨hw.machine, hw.data, ?_, hw.calm⟩
    ⟨rfl, fun _ _ => rfl, fun _ _ => rfl, rfl, .of_eq rfl⟩ h
  exact congrArg (fun timers => timers.insert v.display ⟨⟨v.display, actor.handlers⟩, none⟩)
    hw.timers

end Performs

end Actor
end EntityMachines
