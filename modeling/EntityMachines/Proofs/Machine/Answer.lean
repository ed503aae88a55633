import EntityMachines.Proofs.Machine.History

/-!
How a machine comes to answer an event. It passes over transitions until one is taken or a guard
fails; what it takes and where it fails is said here once for all that is shown of answers.
-/
namespace EntityMachines

/-- The transition is for an event and leaves from a state. -/
def Transition.Suits (t : Transition) (event state : Text) : Prop :=
  t.event = event ∧ t.sources.accepts state = true

/-- A failure that is an error with a message, so that it can be caught. -/
def Fault.Caught (fault : Fault) : Prop := ∃ e, fault = .raised e ∧ e ≠ .unnamed

/-- A later world in which nothing has happened, though something may be counted or logged. -/
structure World.Still (w later : World) : Prop where
  stores : later.stores = w.stores
  calls : later.calls = w.calls
  history : later.history = w.history

theorem World.Still.trans {w w₁ w₂ : World} (h : w.Still w₁) (h' : w₁.Still w₂) : w.Still w₂ where
  stores := h'.stores.trans h.stores
  calls := h'.calls.trans h.calls
  history := h'.history.trans h.history

/-- Something is counted of a machine. -/
def World.counted (w : World) (handle : Nat) (f : Stats → Stats) : World :=
  w.mapMachine handle fun m => { m with stats := f m.stats }

/-- A deed of a machine is kept, and its warning is in the log. -/
def World.recorded (w : World) (services : Services) (m : Instance) (d : Deed) : World :=
  { w with
    history := .deed m.handle m.label services d :: w.history
    log := w.log.writeAll (Incident.deed m.handle m.label services d).warning?.toList }

/-- A machine when a transition has taken it to a state. -/
def Instance.moved (m : Instance) (state : Text) : Instance :=
  { m with state, stats := { m.stats with transitions := m.stats.transitions + 1 } }

namespace Eval

variable {α : Type} {x : Eval α} {w w' : World}

theorem attempt_error {fault : Fault} (h : attempt x w = .error fault w') :
    x w = .error fault w' ∧ ¬fault.Caught := by
  unfold attempt at h
  split at h
  · cases h
  next hx =>
    cases h
    refine ⟨hx, ?_⟩
    rintro ⟨e, he, hne⟩
    cases he
    exact hne rfl
  · cases h
  next hraised hx =>
    cases h
    refine ⟨hx, ?_⟩
    rintro ⟨e, rfl, -⟩
    exact hraised e rfl

theorem attempt_caught {e : Error} (h : attempt x w = .ok (.error e) w') :
    x w = .error (.raised e) w' := by
  unfold attempt at h
  split at h
  · cases h
  · cases h
  next hx =>
    cases h
    exact hx
  · cases h

/-- What is caught has a message. -/
theorem attempt_named {e : Error} (h : attempt x w = .ok (.error e) w') : e ≠ .unnamed := by
  rintro rfl
  unfold attempt at h
  split at h
  · cases h
  · cases h
  next hunnamed hx =>
    cases h
    exact hunnamed rfl
  · cases h

theorem attempt_value {a : α} (h : attempt x w = .ok (.ok a) w') : x w = .ok a w' := by
  unfold attempt at h
  split at h
  next hx =>
    cases h
    exact hx
  all_goals cases h

end Eval

namespace Machine

open Eval (Keeps)

variable {R : World → World → Prop} {H : Handlers → Prop} {ev : Evaluator} {services : Services}
  {m : Instance} {ctx : Context} {w w' : World} {fault : Fault} {event : Text} {index : Nat}
  {t : Transition} {rejected : Bool}

theorem note_ok (services : Services) (m : Instance) (level : Log.Level) (category message : Text)
    (w : World) : ∃ log, note services m level category message w = .ok () { w with log } := by
  unfold note
  cases services.logs with
  | true => exact ⟨_, rfl⟩
  | false => exact ⟨w.log, rfl⟩

/-- What a guard says when it is asked. What has no guard is not denied. -/
inductive Says (ev : Evaluator) (services : Services) (m : Instance) (ctx : Context)
    (place : Text) : Option Value → World → Bool → World → Prop
  | absent (w : World) : Says ev services m ctx place none w true w
  | value {guard v w w₁} (h : ev.evaluate guard ctx w = .ok v w₁) :
      Says ev services m ctx place (some guard) w v.isTruthy w₁
  /-- A failure that counts as a no. -/
  | failure {guard e w w₁} (h : ev.evaluate guard ctx w = .error (.raised e) w₁)
      (caught : e ≠ .unnamed) (policy : services.guardPolicy = .treatAsFalse) :
      Says ev services m ctx place (some guard) w false
        ((w₁.counted m.handle fun s => { s with guardErrors := s.guardErrors + 1 }).recorded
          services m (.guardFailed place e))

/-- A guard fails, and that is no answer: its failure cannot be caught, or is passed on by
policy. -/
inductive FailsToSay (ev : Evaluator) (services : Services) (m : Instance) (ctx : Context) :
    Option Value → World → Fault → World → Prop
  | uncaught {guard fault w w₁} (h : ev.evaluate guard ctx w = .error fault w₁)
      (uncaught : ¬fault.Caught) : FailsToSay ev services m ctx (some guard) w fault w₁
  | propagated {guard e w w₁} (h : ev.evaluate guard ctx w = .error (.raised e) w₁)
      (policy : services.guardPolicy = .propagate) :
      FailsToSay ev services m ctx (some guard) w (.raised e)
        (w₁.counted m.handle fun s => { s with guardErrors := s.guardErrors + 1 })

theorem Says.keeps (hR : Judges R H ev services m) (hctx : H ctx.handlers) {place : Text}
    {guard : Option Value} {b : Bool} (h : Says ev services m ctx place guard w b w') : R w w' := by
  have hframe := hR.respects.frame
  cases h with
  | absent => exact hframe.refl w
  | value h => exact (hR.respects.evaluate _ ctx hctx).of_ok h
  | failure h _ _ =>
    have hfailed := (hR.respects.evaluate _ ctx hctx).of_error h
    have hcounted := hframe.trans hfailed (hR.guardErrors _)
    exact hframe.trans hcounted ((hR.guardFailed place _).of_ok (record_eq services m _ _))

theorem FailsToSay.keeps (hR : Judges R H ev services m) (hctx : H ctx.handlers)
    {guard : Option Value} (h : FailsToSay ev services m ctx guard w fault w') : R w w' := by
  have hframe := hR.respects.frame
  cases h with
  | uncaught h _ => exact (hR.respects.evaluate _ ctx hctx).of_error h
  | propagated h _ =>
    exact hframe.trans ((hR.respects.evaluate _ ctx hctx).of_error h) (hR.guardErrors _)

theorem Says.unique {place : Text} {guard : Option Value} {b b' : Bool} {w₁ w₂ : World}
    (h : Says ev services m ctx place guard w b w₁)
    (h' : Says ev services m ctx place guard w b' w₂) : b = b' := by
  cases h with
  | absent =>
    cases h'
    rfl
  | value h =>
    cases h' with
    | value h' =>
      cases h.symm.trans h'
      rfl
    | failure h' => cases h.symm.trans h'
  | failure h =>
    cases h' with
    | value h' => cases h.symm.trans h'
    | failure => rfl

theorem permits_ok {guard : Option Value} {place : Text} {b : Bool}
    (h : permits ev services m guard ctx place w = .ok b w') :
    Says ev services m ctx place guard w b w' := by
  cases guard with
  | none =>
    cases h
    exact .absent w
  | some guard =>
    unfold permits guardHolds at h
    obtain ⟨outcome, w₁, hattempt, h⟩ := Eval.bind_ok h
    cases outcome with
    | ok v =>
      cases h
      exact .value (Eval.attempt_value hattempt)
    | error e =>
      have hfails := Eval.attempt_caught hattempt
      have hnamed := Eval.attempt_named hattempt
      dsimp only at h
      cases hpolicy : services.guardPolicy with
      | propagate =>
        rw [hpolicy] at h
        cases h
      | treatAsFalse =>
        rw [hpolicy] at h
        simp only [Bind.bind, EStateM.bind, count, update, record_eq] at h
        cases h
        exact .failure hfails hnamed hpolicy

theorem permits_error {guard : Option Value} {place : Text}
    (h : permits ev services m guard ctx place w = .error fault w') :
    FailsToSay ev services m ctx guard w fault w' := by
  cases guard with
  | none => cases h
  | some guard =>
    unfold permits guardHolds at h
    rcases Eval.bind_error h with h | ⟨outcome, w₁, hattempt, h⟩
    · obtain ⟨hfails, huncaught⟩ := Eval.attempt_error h
      exact .uncaught hfails huncaught
    · cases outcome with
      | ok v => cases h
      | error e =>
        have hfails := Eval.attempt_caught hattempt
        dsimp only at h
        cases hpolicy : services.guardPolicy with
        | propagate =>
          rw [hpolicy] at h
          cases h
          exact .propagated hfails hpolicy
        | treatAsFalse =>
          rw [hpolicy] at h
          simp only [Bind.bind, EStateM.bind, count, update, record_eq] at h
          cases h

/-- A guard that fails is passed on by policy, unless its failure cannot be caught. -/
theorem guardHolds_error {guard : Value} {place : Text}
    (h : guardHolds ev services m guard ctx place w = .error fault w') :
    ∃ w₁, ev.evaluate guard ctx w = .error fault w₁ ∧ w₁.Still w' ∧
      (fault.Caught → services.guardPolicy = .propagate) := by
  have hasked : permits ev services m (some guard) ctx place w = .error fault w' := h
  cases permits_error hasked with
  | uncaught hfails uncaught =>
    exact ⟨w', hfails, ⟨rfl, rfl, rfl⟩, fun hcaught => absurd hcaught uncaught⟩
  | propagated hfails policy => exact ⟨_, hfails, ⟨rfl, rfl, rfl⟩, fun _ => policy⟩

/-- Effects fail where one of them fails, and the log says so. -/
theorem runEffects_error {place : Text} {effects : List Value} {ran : Nat}
    (h : runEffects ev services m ctx place ran effects w = .error fault w') :
    ∃ effect ∈ effects, ∃ w₁ w₂, ev.evaluate effect ctx w₁ = .error fault w₂ ∧ w₂.Still w' := by
  induction effects generalizing ran w with
  | nil => cases h
  | cons effect rest ih =>
    unfold runEffects at h
    rcases Eval.bind_error h with h | ⟨outcome, w₁, hattempt, h⟩
    · exact ⟨effect, by simp, w, w', (Eval.attempt_error h).1, ⟨rfl, rfl, rfl⟩⟩
    · cases outcome with
      | ok v =>
        obtain ⟨failing, hmem, w₁, w₂, hfails, hstill⟩ := ih h
        exact ⟨failing, List.mem_cons_of_mem _ hmem, w₁, w₂, hfails, hstill⟩
      | error e =>
        obtain ⟨log, hnote⟩ := note_ok services m .error "behavior"
          (place ++ ": effect " ++ Text.ofNat (ran + 1) ++ " failed: " ++ e.message) w₁
        rcases Eval.bind_error h with h | ⟨_, w₂, hok, h⟩
        · rw [hnote] at h
          cases h
        · cases hnote.symm.trans hok
          cases h
          exact ⟨effect, by simp, w, w₁, Eval.attempt_caught hattempt, ⟨rfl, rfl, rfl⟩⟩

/-- A transition fails only in its effects. Otherwise the machine moves to its target. -/
theorem take_cases (ev : Evaluator) (services : Services) (m : Instance) (ctx : Context)
    (event : Text) (index : Nat) (t : Transition) (rejected : Bool) (w : World) :
    let effects := runEffects ev services m { ctx with handlers := m.handlers services }
      (event ++ " transition " ++ Text.ofNat index) 0 t.effects
    let target := t.target.getD m.state
    (∃ fault w₁, effects w = .error fault w₁ ∧
      take ev services m ctx event index t rejected w = .error fault w₁) ∨
    ∃ ran w₁ log, effects w = .ok ran w₁ ∧
      take ev services m ctx event index t rejected w
        = .ok ⟨m.state, target, some index, rejected, ran⟩
          { w₁.mapMachine m.handle (fun m' => m'.moved target) with log } := by
  intro effects target
  cases heffects : effects w with
  | error fault w₁ => exact .inl ⟨fault, w₁, rfl, Eval.bind_of_error heffects⟩
  | ok ran w₁ =>
    let named := w₁.mapMachine m.handle fun m' => { m' with state := target }
    let counted := named.mapMachine m.handle fun m' => { m' with
      stats := { m'.stats with transitions := m'.stats.transitions + 1 } }
    have hmoved : counted = w₁.mapMachine m.handle fun m' => m'.moved target :=
      World.mapMachine_mapMachine _ _ (f := fun m' => { m' with state := target }) (fun _ => rfl) _
    obtain ⟨log, hnote⟩ := note_ok services m .debug "behavior"
      (event ++ ": " ++ m.state ++ " -> " ++ target) counted
    refine .inr ⟨ran, w₁, log, rfl, ?_⟩
    rw [← hmoved]
    exact (Eval.bind_of_ok heffects).trans (Eval.bind_of_ok hnote)

/-- What becomes of an event for which transitions are tried in order, from a place on: none is
taken, a guard fails, or one is taken. Up to there a relation is kept. -/
inductive Tried (R : World → World → Prop) (ev : Evaluator) (services : Services) (m : Instance)
    (ctx : Context) (event : Text) (index : Nat) (ts : List Transition) (w : World) :
    EStateM.Result Fault World Dispatched → Prop
  | unanswered {rejected w₁} (before : R w w₁) :
      Tried R ev services m ctx event index ts w (.ok ⟨m.state, m.state, none, rejected, 0⟩ w₁)
  | guardFailed {t guard place w₁ fault w₂} (ht : t ∈ ts) (suits : t.Suits event m.state)
      (guarded : t.guard = some guard) (before : R w w₁)
      (fails : guardHolds ev services m guard ctx place w₁ = .error fault w₂) :
      Tried R ev services m ctx event index ts w (.error fault w₂)
  | taken {i t rejected w₁ r} (ht : ts[i]? = some t) (suits : t.Suits event m.state)
      (before : R w w₁) (takes : take ev services m ctx event (index + i) t rejected w₁ = r) :
      Tried R ev services m ctx event index ts w r

theorem Tried.since {r : EStateM.Result Fault World Dispatched} {ts : List Transition}
    {w₁ : World} (hR : Eval.Frame R) (hw : R w w₁)
    (h : Tried R ev services m ctx event index ts w₁ r) :
    Tried R ev services m ctx event index ts w r := by
  cases h with
  | unanswered before => exact .unanswered (hR.trans hw before)
  | guardFailed ht suits guarded before fails =>
    exact .guardFailed ht suits guarded (hR.trans hw before) fails
  | taken ht suits before takes => exact .taken ht suits (hR.trans hw before) takes

/-- A transition in front is passed over. -/
theorem Tried.behind {r : EStateM.Result Fault World Dispatched} {ts : List Transition}
    (h : Tried R ev services m ctx event (index + 1) ts w r) :
    Tried R ev services m ctx event index (t :: ts) w r := by
  cases h with
  | unanswered before => exact .unanswered before
  | guardFailed ht suits guarded before fails =>
    exact .guardFailed (List.mem_cons_of_mem _ ht) suits guarded before fails
  | @taken i t' rejected w₂ r ht suits before takes =>
    have hplace : index + (i + 1) = index + 1 + i := by omega
    exact .taken (i := i + 1) (by simpa using ht) suits before (by rwa [hplace])

theorem Weighs.tryTransitions_tried (hR : Weighs R H ev services m) (hctx : H ctx.handlers)
    (event : Text) (rejected : Bool) (index : Nat) (ts : List Transition) (w : World) :
    Tried R ev services m ctx event index ts w
      (tryTransitions ev services m ctx event rejected index ts w) := by
  have hframe := hR.respects.frame
  induction ts generalizing rejected index w with
  | nil =>
    cases rejected with
    | true => exact .unanswered (hframe.refl w)
    | false =>
      let counted := w.mapMachine m.handle fun m' => { m' with
        stats := { m'.stats with unmatchedEvents := m'.stats.unmatchedEvents + 1 } }
      have hcount : R w counted :=
        (hR.count (fun s => { s with unmatchedEvents := s.unmatchedEvents + 1 }) fun _ => rfl) w
      obtain ⟨log, hlogged⟩ := note_ok services m .debug "behavior"
        (event ++ ": no transition from " ++ m.state) counted
      have hlast : tryTransitions ev services m ctx event false index [] w
          = .ok ⟨m.state, m.state, none, false, 0⟩ { counted with log } := Eval.bind_of_ok hlogged
      rw [hlast]
      exact .unanswered (hframe.trans hcount ((hR.note (by decide) _ _).of_ok hlogged))
  | cons t rest ih =>
    unfold tryTransitions
    split
    · exact (ih rejected (index + 1) w).behind
    next happlies =>
      have hsuits : t.Suits event m.state := by simpa [Transition.Suits] using happlies
      have hkept := hR.permits_keeps hctx t.guard (event ++ " transition " ++ Text.ofNat index)
      cases hasked : permits ev services m t.guard ctx
          (event ++ " transition " ++ Text.ofNat index) w with
      | error fault w₁ =>
        rw [Eval.bind_of_error hasked]
        cases hguard : t.guard with
        | none =>
          rw [hguard] at hasked
          cases hasked
        | some guard =>
          rw [hguard] at hasked
          exact .guardFailed (by simp) hsuits hguard (hframe.refl w) hasked
      | ok permitted w₁ =>
        rw [Eval.bind_of_ok hasked]
        have hbefore : R w w₁ := hkept.of_ok hasked
        cases permitted with
        | true => exact .taken (i := 0) rfl hsuits hbefore rfl
        | false =>
          let counted := w₁.mapMachine m.handle fun m' => { m' with
            stats := { m'.stats with guardRejections := m'.stats.guardRejections + 1 } }
          have hcount : R w₁ counted :=
            hR.count (fun s => { s with guardRejections := s.guardRejections + 1 })
              (fun _ => rfl) w₁
          exact ((ih true (index + 1) counted).since hframe (hframe.trans hbefore hcount)).behind

/-- A machine answers an event by its transitions, with guards that have no handlers. -/
theorem Weighs.react_tried (hR : Weighs R H ev services m) (hH : H {}) (event : Text)
    (payload : Value) (w : World) :
    Tried R ev services m (m.context payload w.clock) event 0 m.definition.transitions w
      (react ev services m event payload w) := by
  let counted := w.mapMachine m.handle fun m' => { m' with
    stats := { m'.stats with events := m'.stats.events + 1 } }
  have hcount : R w counted :=
    hR.count (fun s => { s with events := s.events + 1 }) (fun _ => rfl) w
  have htried : Tried R ev services m (m.context payload w.clock) event 0 m.definition.transitions
      counted (react ev services m event payload w) :=
    hR.tryTransitions_tried hH event false 0 m.definition.transitions counted
  exact htried.since hR.respects.frame hcount

/-- That an event is processed is kept in the history before it is answered. -/
theorem process_eq {handle : Nat} (hm : w.machine? handle = some m) (ev : Evaluator)
    (services : Services) (event : Text) (payload : Value) :
    process ev services handle event payload w
      = react ev services m event payload
          (w.recorded services m (.processed ⟨event, payload⟩)) := by
  unfold process
  rw [withMachine_some hm, Eval.bind_of_ok (record_eq services m _ w)]
  rfl

end Machine
end EntityMachines
