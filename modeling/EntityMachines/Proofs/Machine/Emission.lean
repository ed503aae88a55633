import EntityMachines.Proofs.Machine.Reaction
import EntityMachines.Proofs.Machine.Worklist

/-!
What a machine emits. Behind an event for which there is one transition, the machine has emitted
what the effects of the transition did, and it says whether the transition was taken. Here the
surrounding program does not fail.
-/
namespace EntityMachines

/-- The event that a machine emits, whatever becomes of it. -/
def Deed.emitted? : Deed → Option Occurrence
  | emitted o _ => some o
  | _ => none

/-- The events that a machine emitted between two states. -/
def World.emittedSince (after before : World) (handle : Nat) : List Occurrence :=
  pick Deed.emitted? (after.deedsSince before handle)

/-- Between two states a machine emits some events, and no history is lost. -/
def World.Utters (handle : Nat) (os : List Occurrence) (w w' : World) : Prop :=
  ∃ J, w'.history = J.reverse ++ w.history ∧ pick Deed.emitted? (deedsOf handle J) = os

namespace World

variable {handle : Nat} {os os' : List Occurrence} {w w' w'' : World}

theorem Utters.since (h : w.Utters handle os w') : w'.emittedSince w handle = os := by
  obtain ⟨J, hhistory, hos⟩ := h
  unfold emittedSince deedsSince
  rwa [incidentsSince_eq hhistory]

theorem Utters.of_eq (h : w'.history = w.history) : w.Utters handle [] w' := ⟨[], h, rfl⟩

theorem Utters.trans (h : w.Utters handle os w') (h' : w'.Utters handle os' w'') :
    w.Utters handle (os ++ os') w'' := by
  obtain ⟨J, hhistory, rfl⟩ := h
  obtain ⟨J', hhistory', rfl⟩ := h'
  refine ⟨J ++ J', ?_, ?_⟩
  · rw [hhistory', hhistory, List.reverse_append, List.append_assoc]
  · rw [deedsOf_append, pick_append]

theorem Utters.deed {m : Instance} (hm : m.handle = handle) {services : Services} {d : Deed}
    (h : w'.history = .deed m.handle m.label services d :: w.history) :
    w.Utters handle d.emitted?.toList w' := by
  refine ⟨[.deed m.handle m.label services d], h, ?_⟩
  rw [deedsOf_cons_own hm]
  cases hd : d.emitted? with
  | none => rw [pick_cons_none hd]; rfl
  | some o => rw [pick_cons_some hd]; rfl

/-- Effects other than emitted events are not uttered. -/
theorem Utters.openFrame (handle : Nat) : Eval.OpenFrame (Utters handle []) where
  refl _ := .of_eq rfl
  trans h h' := h.trans h'
  capture _ _ := .of_eq rfl
  timing _ _ _ := .of_eq rfl
  arm _ _ := .of_eq rfl
  random _ _ := .of_eq rfl
  clock _ _ _ := .of_eq rfl
  write _ store changes := ⟨[.write store changes], rfl, rfl⟩
  request _ _ _ _ := .of_eq rfl
  closure _ hs := ⟨[.call hs], rfl, rfl⟩

end World

namespace Actor

open Evaluator (Gives Reads Plain)
open Machine (Choice)

variable {α β : Type}

/-- From a scene on a computation comes to its end in scenes of a kind, and meanwhile the machine
emits some events. -/
def Voices (actor : Actor) (x : Eval α) (s : Scene) (Q : α → Scene → List Occurrence → Prop) :
    Prop :=
  ∀ w, actor.Stands s w → ∃ a s' w' os, x w = .ok a w' ∧ actor.Stands s' w' ∧
    actor.Elsewhere w w' ∧ w.Utters actor.handle os w' ∧ Q a s' os

variable {actor : Actor} {n : Nat} {ctx : Context} {s : Scene} {e v : Value} {event : Text}
  {payload : Value}

namespace Voices

theorem mono {x : Eval α} {Q Q' : α → Scene → List Occurrence → Prop} (hx : actor.Voices x s Q)
    (hQ : ∀ a s os, Q a s os → Q' a s os) : actor.Voices x s Q' := by
  intro w hw
  obtain ⟨a, s', w', os, hr, hw', helsewhere, hos, h⟩ := hx w hw
  exact ⟨a, s', w', os, hr, hw', helsewhere, hos, hQ a s' os h⟩

theorem does {x : Eval α} {Q : α → Scene → Prop} {E : Scene → Prop}
    (hx : actor.Voices x s fun a s' _ => Q a s') : actor.Does x s Q E := by
  intro w hw
  obtain ⟨a, s', w', os, hr, hw', helsewhere, -, h⟩ := hx w hw
  rw [hr]
  exact .done hw' helsewhere h

/-- A computation that is known to emit nothing. -/
theorem of_does (hcalm : actor.calm) {x : Eval α} {Q : α → Scene → Prop} {E : Scene → Prop}
    (hx : actor.Does x s Q E) (hquiet : Eval.Keeps (World.Utters actor.handle []) x) :
    actor.Voices x s fun a s' os => Q a s' ∧ os = [] := by
  intro w hw
  have hend := hx w hw
  have hutters := hquiet w
  cases hr : x w with
  | ok a w' =>
    rw [Eval.after_ok hr] at hutters
    rw [hr] at hend
    cases hend with
    | done stands elsewhere h => exact ⟨a, _, w', [], rfl, stands, elsewhere, hutters, h, rfl⟩
  | error fault w' =>
    rw [hr] at hend
    cases hend with
    | failed wild => exact absurd hcalm wild

/-- Where a machine stands, two computations may be the same. -/
theorem of_eq {x y : Eval α} {Q : α → Scene → List Occurrence → Prop}
    (h : ∀ w, actor.Stands s w → x w = y w) (hy : actor.Voices y s Q) : actor.Voices x s Q := by
  intro w hw
  rw [h w hw]
  exact hy w hw

theorem pure {a : α} {Q : α → Scene → List Occurrence → Prop} (h : Q a s []) :
    actor.Voices (pure a) s Q := fun w hw =>
  ⟨a, s, w, [], rfl, hw, .refl w, .of_eq rfl, h⟩

theorem bind {x : Eval α} {f : α → Eval β} {P : α → Scene → List Occurrence → Prop}
    {Q : β → Scene → List Occurrence → Prop} (hx : actor.Voices x s P)
    (hf : ∀ a s' os, P a s' os → actor.Voices (f a) s' fun b s'' os' => Q b s'' (os ++ os')) :
    actor.Voices (x >>= f) s Q := by
  intro w hw
  obtain ⟨a, s', w', os, hr, hw', helsewhere, hos, hP⟩ := hx w hw
  obtain ⟨b, s'', w'', os', hr', hw'', helsewhere', hos', hQ⟩ := hf a s' os hP w' hw'
  exact ⟨b, s'', w'', os ++ os', (Eval.bind_of_ok hr).trans hr', hw'', helsewhere.trans helsewhere',
    hos.trans hos', hQ⟩

/-- The first computation leaves a known scene and emits nothing. -/
theorem follow {x : Eval α} {t : Scene} {f : α → Eval β} {Q : β → Scene → List Occurrence → Prop}
    (hx : actor.Voices x s fun _ s' os => s' = t ∧ os = [])
    (hf : ∀ a, actor.Voices (f a) t Q) : actor.Voices (x >>= f) s Q := by
  refine hx.bind ?_
  rintro a _ _ ⟨rfl, rfl⟩
  exact hf a

/-- A field is written, and that is all that is done. -/
theorem set {target : Value} {field : Text} (hcalm : actor.calm) (hctx : actor.Acts ctx)
    (hfield : Effect.fieldPath target = field) (hne : field ≠ []) (hv : Reads n ctx s.data e v) :
    actor.Voices ((Evaluator.withFuel Library.standard (n + 1)).evaluate
      (Expr.call "set" [target, e]) ctx) s fun _ s' os => s' = s.write [(field, v)] ∧ os = [] := by
  let write : Eval Value := do
    Effect.mutate ⟨actor.store, actor.services.observer⟩ [(field, v)]
    return .undefined
  have hmutate : ctx.handlers.mutate = some ⟨actor.store, actor.services.observer⟩ := by
    rw [hctx.handlers]
    rfl
  have hframe := World.Utters.openFrame actor.handle
  refine of_eq (y := write) (fun w hw => ?_) ?_
  · have hoperand : Operator.required EffectOp.set.name
        (Evaluator.withFuel Library.standard n) ctx [target, e] 1 w = .ok v w :=
      Evaluator.required_gives rfl hv w ⟨actor.store, hctx.store, hw.data⟩
    rw [show ("set" : Text) = (CoreOp.effect .set).name from rfl, Evaluator.evaluate_core]
    refine (Eval.bind_of_ok (a := target) rfl).trans ((Eval.bind_of_ok hoperand).trans ?_)
    refine (Eval.bind_of_ok (a := ([] : Text)) rfl).trans ?_
    rw [hmutate]
    dsimp only
    rw [hfield, if_neg (by simpa using hne), if_pos List.isEmpty_nil]
  · refine of_does (E := fun _ => True) hcalm ?_ ?_
    · exact Does.bind (P := fun _ s' => s' = s.write [(field, v)])
        (Does.mutate rfl fun _ => trivial) fun _ _ hs' => Does.pure hs'
    · exact hframe.bind (hframe.mutate _ _) fun _ => hframe.pure _

/-- An event that is not declared is told to the listener and then forgotten. -/
theorem deliver (hcalm : actor.calm) {ev : Evaluator}
    (hevent : actor.machine.definition.hasEvent event = false) :
    actor.Voices (Machine.deliver ev actor.handle actor.services event payload) s
      fun _ s' os => s' = s ∧ os = [⟨event, payload⟩] := by
  intro w hw
  obtain ⟨stats, lastRun, hm⟩ := hw.machine
  let o : Occurrence := ⟨event, payload⟩
  have hfate : (actor.cast s stats lastRun).fate actor.services event = .undeclared := by
    unfold Instance.fate
    rw [show (actor.cast s stats lastRun).definition = actor.machine.definition from rfl, hevent]
    rfl
  obtain ⟨told, htold, hunseen, hhistory⟩ : ∃ told, Machine.announce actor.services
      (actor.cast s stats lastRun) o .undeclared w = .ok () told ∧ w.Unseen told ∧
      told.history = .deed actor.handle (actor.cast s stats lastRun).label actor.services
        (.emitted o .undeclared) :: w.history := by
    unfold Machine.announce
    cases actor.services.listens with
    | false => exact ⟨_, Machine.record_eq _ _ _ w, .of_same rfl rfl rfl rfl rfl, rfl⟩
    | true =>
      let call : Call := ⟨[], .heard actor.handle event payload⟩
      let called : World := { w with calls := call :: w.calls }
      obtain ⟨u, hu⟩ := hw.calm hcalm called.calls
      have hcall : Eval.call [] (.heard actor.handle event payload) w = .ok u called := by
        rw [show Eval.call [] (.heard actor.handle event payload) w
          = Eval.ofExcept (w.respond called.calls) called from rfl, hu]
        rfl
      refine ⟨_, (Eval.bind_of_ok hcall).trans (Machine.record_eq _ _ _ called),
        .of_same rfl rfl rfl rfl rfl, rfl⟩
  refine ⟨(), s, told, [o], ?_, hw.of_unseen hunseen, .of_unseen hunseen,
    .deed (m := actor.cast s stats lastRun) rfl hhistory, rfl, rfl⟩
  unfold Machine.deliver
  rw [Machine.withMachine_some hm, hfate]
  exact Eval.bind_of_ok htold

theorem emit {p u : Value} (hcalm : actor.calm) (hctx : actor.Acts ctx)
    (hevent : actor.machine.definition.hasEvent v.display = false)
    (hv : Reads (n + 1) ctx s.data e v) (hu : Reads (n + 1) ctx s.data p u) :
    actor.Voices ((Evaluator.withFuel Library.standard (n + 2)).evaluate
      (Expr.call "emit" [e, p]) ctx) s fun _ s' os => s' = s ∧ os = [⟨v.display, u⟩] := by
  let send : Eval Value := do
    Machine.deliver (Evaluator.withFuel Library.standard n) actor.handle actor.services v.display u
    return .undefined
  have hemit : ctx.handlers.emit = some (.machine actor.handle actor.services) := by
    rw [hctx.handlers]
    rfl
  refine of_eq (y := send) (fun w hw => ?_) ?_
  · have hsees : ctx.Sees s.data w := ⟨actor.store, hctx.store, hw.data⟩
    have hname : Operator.required EffectOp.emit.name
        (Evaluator.withFuel Library.standard (n + 1)) ctx [e, p] 0 w = .ok v w :=
      Evaluator.required_gives rfl hv w hsees
    have hpayload : Operator.optional (Evaluator.withFuel Library.standard (n + 1)) ctx [e, p] 1 w
        = .ok u w := Evaluator.optional_gives rfl hu w hsees
    rw [show ("emit" : Text) = (CoreOp.effect .emit).name from rfl, Evaluator.evaluate_core]
    refine (Eval.bind_of_ok hname).trans ((Eval.bind_of_ok hpayload).trans ?_)
    rw [hemit]
    rfl
  · refine (deliver hcalm hevent).bind ?_
    rintro _ _ _ ⟨rfl, rfl⟩
    exact pure ⟨rfl, rfl⟩

/-- A value is bound to a name for the effects behind it. -/
theorem bindName {name : Text} {body : Value} {Q : Value → Scene → List Occurrence → Prop}
    (hctx : actor.Acts ctx) (hv : Reads n ctx s.data e v)
    (hbody : actor.Voices ((Evaluator.withFuel Library.standard n).evaluate body
      (ctx.child [(Binding.bareName name, v)])) s Q) :
    actor.Voices ((Evaluator.withFuel Library.standard (n + 1)).evaluate
      (Expr.call "let" [.array [.array [.string name, e]], body]) ctx) s Q := by
  refine of_eq (fun w hw => ?_) hbody
  rw [Evaluator.evaluate_bindName, Eval.bind_of_ok (hv w ⟨actor.store, hctx.store, hw.data⟩)]

/-- One effect of a sequence leaves a known scene and emits nothing. -/
theorem sequence_cons {es : List Value} {last : Value} {t : Scene}
    {Q : Value → Scene → List Occurrence → Prop}
    (h : actor.Voices ((Evaluator.withFuel Library.standard n).evaluate e ctx) s
      fun _ s' os => s' = t ∧ os = [])
    (hrest : ∀ last, actor.Voices (Control.sequence (Evaluator.withFuel Library.standard n) ctx last
      es) t Q) :
    actor.Voices (Control.sequence (Evaluator.withFuel Library.standard n) ctx last (e :: es)) s Q :=
  h.follow hrest

theorem sequence_last {last : Value} {Q : Value → Scene → List Occurrence → Prop}
    (h : actor.Voices ((Evaluator.withFuel Library.standard n).evaluate e ctx) s Q) :
    actor.Voices (Control.sequence (Evaluator.withFuel Library.standard n) ctx last [e]) s Q := by
  have hlast : Control.sequence (Evaluator.withFuel Library.standard n) ctx last [e]
      = (Evaluator.withFuel Library.standard n).evaluate e ctx := bind_pure _
  rw [hlast]
  exact h

theorem sequence {es : List Value} {Q : Value → Scene → List Occurrence → Prop}
    (h : actor.Voices (Control.sequence (Evaluator.withFuel Library.standard n) ctx .undefined es) s
      Q) :
    actor.Voices ((Evaluator.withFuel Library.standard (n + 1)).evaluate (Expr.call "do" es) ctx) s
      Q := by
  rw [show ("do" : Text) = (CoreOp.control .sequence).name from rfl, Evaluator.evaluate_core]
  exact h

/-- The effects of a transition are one effect. -/
theorem runEffect {Q : Scene → List Occurrence → Prop} (m : Instance) (place : Text)
    (h : actor.Voices ((Evaluator.withFuel Library.standard n).evaluate e ctx) s fun _ => Q) :
    actor.Voices (Machine.runEffects (Evaluator.withFuel Library.standard n) actor.services m ctx
      place 0 [e]) s fun _ => Q := by
  intro w hw
  obtain ⟨v, s', w', os, hr, hw', helsewhere, hos, hQ⟩ := h w hw
  refine ⟨1, s', w', os, ?_, hw', helsewhere, hos, hQ⟩
  have hattempt : Eval.attempt ((Evaluator.withFuel Library.standard n).evaluate e ctx) w
      = .ok (.ok v) w' := by
    unfold Eval.attempt
    rw [hr]
  exact Eval.bind_of_ok hattempt

/-- A choice of the only transition for an event. It is taken as its guard says, and has one
effect. -/
theorem choose {i : Nat} {t : Transition} {b : Bool} {now : Int} {w : World}
    {stats : Stats} {lastRun : List Int} {Q : Scene → List Occurrence → Prop}
    (hone : Transition.candidates event s.state actor.machine.definition.transitions = [(t, i)])
    (hasked : actor.Asked n s payload now t.guard b) (heffects : t.effects = [e])
    (hskip : b = false → Q s [])
    (htaken : b = true → actor.Voices ((Evaluator.withFuel Library.standard n).evaluate e
      (actor.stage s payload now)) s fun _ s' => Q { s' with state := t.target.getD s.state })
    (hw : actor.Stands s w) {r : EStateM.Result Fault World Dispatched}
    (hchoice : Choice (Evaluator.withFuel Library.standard n) actor.services
      (actor.cast s stats lastRun) (actor.context s payload now) event
      actor.machine.definition.transitions w r) :
    ∃ d s' w' os, r = .ok d w' ∧ actor.Stands s' w' ∧ actor.Elsewhere w w' ∧
      w.Utters actor.handle os w' ∧ (d.transition = if b then some i else none) ∧ Q s' os := by
  have honly {t' : Transition} {i' : Nat}
      (ht' : actor.machine.definition.transitions[i']? = some t')
      (hsuits : t'.Suits event s.state) : t' = t ∧ i' = i := by
    have hmem := Transition.mem_candidates.mpr ⟨ht', hsuits⟩
    rw [hone, List.mem_singleton] at hmem
    exact Prod.mk.inj hmem
  have hfirst {w₁ : World} (hbefore : Machine.Declined (Evaluator.withFuel Library.standard n)
      actor.services (actor.cast s stats lastRun) (actor.context s payload now) event
      (Transition.candidates event s.state (actor.machine.definition.transitions.take i)) w w₁) :
      w₁ = w := by
    rw [Transition.candidates_take_of_single hone] at hbefore
    cases hbefore
    rfl
  cases hchoice with
  | unmatched unsuited =>
    rw [show (actor.cast s stats lastRun).state = s.state from rfl, hone] at unsuited
    cases unsuited
  | rejected suited declined =>
    rw [show (actor.cast s stats lastRun).state = s.state from rfl, hone] at declined
    cases declined with
    | cons no next =>
      cases next
      obtain ⟨rfl, rfl⟩ := hasked.accords hw no
      exact ⟨_, s, _, [], rfl, hw.counted _, .counted _ _, .of_eq rfl, rfl, hskip rfl⟩
  | @taken i' t' w₁ w₂ w₃ log ht suits before yes effects =>
    obtain ⟨rfl, rfl⟩ := honly ht suits
    obtain rfl := hfirst before
    obtain ⟨rfl, rfl⟩ := hasked.accords hw yes
    obtain ⟨ran, s', w', os, hr, hw', helsewhere, hos, hQ⟩ := (htaken rfl).runEffect
      (actor.cast s stats lastRun) (event ++ " transition " ++ Text.ofNat i') w₂ hw
    rw [heffects] at effects
    cases hr.symm.trans effects
    refine ⟨_, { s' with state := t'.target.getD s.state }, _, os, rfl,
      hw'.moved (t'.target.getD s.state) log,
      helsewhere.trans (.moved w₃ (t'.target.getD s.state) log), ?_, rfl, hQ⟩
    rw [← List.append_nil os]
    exact hos.trans (.of_eq rfl)
  | @effectFails i' t' w₁ w₂ fault w₃ ht suits before yes fails =>
    obtain ⟨rfl, rfl⟩ := honly ht suits
    obtain rfl := hfirst before
    obtain ⟨rfl, rfl⟩ := hasked.accords hw yes
    obtain ⟨ran, s', w', os, hr, -⟩ := (htaken rfl).runEffect
      (actor.cast s stats lastRun) (event ++ " transition " ++ Text.ofNat i') w₂ hw
    rw [heffects] at fails
    cases hr.symm.trans fails
  | @guardFails i' t' w₁ fault w₂ ht suits before fails =>
    obtain ⟨rfl, rfl⟩ := honly ht suits
    obtain rfl := hfirst before
    exact (hasked.not_fails hw fails).elim

/-- An event for which there is one transition, with one effect, is answered as its guard says. -/
theorem process {i : Nat} {t : Transition} {b : Bool} {Q : Scene → List Occurrence → Prop}
    (hone : Transition.candidates event s.state actor.machine.definition.transitions = [(t, i)])
    (hasked : ∀ now, actor.Asked n s payload now t.guard b) (heffects : t.effects = [e])
    (hskip : b = false → Q s [])
    (htaken : b = true → ∀ now, actor.Voices ((Evaluator.withFuel Library.standard n).evaluate e
      (actor.stage s payload now)) s fun _ s' => Q { s' with state := t.target.getD s.state }) :
    actor.Voices (Machine.process (Evaluator.withFuel Library.standard n) actor.services
      actor.handle event payload) s
      fun d s' os => (d.transition = if b then some i else none) ∧ Q s' os := by
  intro w hw
  obtain ⟨stats, lastRun, hm⟩ := hw.machine
  let recorded := w.recorded actor.services (actor.cast s stats lastRun)
    (.processed ⟨event, payload⟩)
  have hunseen : w.Unseen recorded := .of_same rfl rfl rfl rfl rfl
  have hstarted := (hw.of_unseen hunseen).counted fun s => { s with events := s.events + 1 }
  obtain ⟨d, s', w', os, hr, hw', helsewhere, hos, hQ⟩ := choose hone (hasked w.clock) heffects
    hskip (fun hb => htaken hb w.clock) hstarted (Machine.process_choice hm payload)
  refine ⟨d, s', w', os, hr, hw', ?_, ?_, hQ⟩
  · exact ((Elsewhere.of_unseen hunseen).trans (.counted recorded _)).trans helsewhere
  · have hsilent : w.Utters actor.handle [] recorded :=
      .deed (m := actor.cast s stats lastRun) (d := .processed ⟨event, payload⟩) rfl rfl
    exact hsilent.trans hos

theorem drain {ev : Evaluator} (hqueue : s.queue = []) (left : Nat) :
    actor.Voices (Machine.drain ev actor.services actor.handle left) s
      fun _ s' os => s'.rest = s.rest ∧ os = [] := by
  intro w hw
  obtain ⟨stats, lastRun, hm⟩ := hw.machine
  have hpending : (actor.cast s stats lastRun).pending = [] := hqueue
  cases left with
  | zero =>
    refine ⟨(), s.rest, w.mapMachine actor.handle fun m => { m with busy := false, pending := [] },
      [], ?_, ?_, .update w _ fun _ => rfl, .of_eq rfl, rfl, rfl⟩
    · unfold Machine.drain
      rw [Machine.withMachine_some hm, hpending]
      rfl
    · exact hw.update _ _ (fun _ => rfl) (fun stats lastRun => ⟨stats, lastRun, rfl⟩) rfl rfl
  | succ left =>
    refine ⟨(), { s with busy := false }, w.mapMachine actor.handle fun m => { m with busy := false },
      [], ?_, ?_, .update w _ fun _ => rfl, .of_eq rfl, rfl, rfl⟩
    · unfold Machine.drain
      exact Eval.bind_of_ok (Machine.nextPending_nil hm hpending)
    · exact hw.update _ _ (fun _ => rfl) (fun stats lastRun => ⟨stats, lastRun, rfl⟩) rfl rfl

theorem transaction {x : Eval α} {Q : α → Scene → List Occurrence → Prop}
    (hx : actor.Voices x { s with busy := true } fun a s' => Q a s'.rest) :
    actor.Voices (Machine.transaction actor.handle x) s Q := by
  intro w hw
  let began := w.mapMachine actor.handle fun m => { m with busy := true }
  have hbegan : actor.Stands { s with busy := true } began :=
    hw.update _ _ (fun _ => rfl) (fun stats lastRun => ⟨stats, lastRun, rfl⟩) rfl rfl
  obtain ⟨a, s', w', os, hr, hw', helsewhere, hos, hQ⟩ := hx began hbegan
  let ended := w'.mapMachine actor.handle fun m => { m with busy := false, pending := [] }
  have hended : actor.Stands s'.rest ended :=
    hw'.update _ _ (fun _ => rfl) (fun stats lastRun => ⟨stats, lastRun, rfl⟩) rfl rfl
  have hfirst : actor.Elsewhere w began := .update w _ fun _ => rfl
  have hlast : actor.Elsewhere w' ended := .update w' _ fun _ => rfl
  refine ⟨a, s'.rest, ended, os, ?_, hended, hfirst.trans (helsewhere.trans hlast), ?_, hQ⟩
  · have hruns : Machine.transaction actor.handle x w = Eval.andFinally x
        (fun w => w.mapMachine actor.handle fun m => { m with busy := false, pending := [] })
        began := rfl
    rw [hruns]
    unfold Eval.andFinally
    rw [hr]
  · rw [← List.append_nil os]
    have hsilent : w.Utters actor.handle [] began := .of_eq rfl
    exact hsilent.trans (hos.trans (.of_eq rfl))

/-- Behind an event that queues nothing the transaction is over. -/
theorem dispatch {Q : Dispatched → Scene → List Occurrence → Prop}
    (h : actor.Voices (Machine.process (Evaluator.withFuel Library.standard n) actor.services
      actor.handle event payload) { s with busy := true }
      fun d s' os => s'.queue = [] ∧ Q d s'.rest os) :
    actor.Voices (Machine.dispatch (Evaluator.withFuel Library.standard n) actor.services
      actor.handle event payload) s Q := by
  refine transaction (h.bind ?_)
  rintro d s' os ⟨hqueue, hQ⟩
  refine (drain hqueue _).bind ?_
  rintro _ s'' _ ⟨hrest, rfl⟩
  refine pure ?_
  rw [hrest, List.append_nil, List.append_nil]
  exact hQ

end Voices
end Actor
end EntityMachines
