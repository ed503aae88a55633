import EntityMachines.Proofs.Machine.Worklist
import EntityMachines.Proofs.Machine.History

/-!
A transaction that fails stops at the event that fails. The events before it have been answered in
full, the writes before the failure are kept, what still waited is given up, and the machine is
idle again.
-/
namespace EntityMachines

/-- An answer to an event in a state: a transition for both is taken to its target, or none is and
the state stays. -/
structure Definition.Answers (d : Definition) (state event : Text) (r : Dispatched) : Prop where
  fromState : r.fromState = state
  taken : ∀ i, r.transition = some i →
    ∃ t, d.transitions[i]? = some t ∧ t.Suits event state ∧ r.toState = t.target.getD state
  stayed : r.transition = none → r.toState = state

/-- Answers, each in the state in which the one before it ends, lead from a state to another. -/
inductive Definition.Leads (d : Definition) : Text → List (Occurrence × Dispatched) → Text → Prop
  | nil (state : Text) : Leads d state [] state
  | cons {state last o r rest} (answer : d.Answers state o.event r)
      (leads : Leads d r.toState rest last) : Leads d state ((o, r) :: rest) last

namespace Machine

open Eval (Keeps)
open World (Accounted)

variable {a : Nat} {ev : Evaluator} {services : Services} {m : Instance} {w w' : World}
  {event : Text} {payload : Value} {r : Dispatched} {fault : Fault} {o last : Occurrence}
  {answered : List (Occurrence × Dispatched)}

/-- How many answers take a transition. -/
def fired (answered : List (Occurrence × Dispatched)) : Nat :=
  answered.countP fun entry => entry.2.transition.isSome

theorem fired_cons (entry : Occurrence × Dispatched) (answered : List (Occurrence × Dispatched)) :
    fired (entry :: answered) = fired [entry] + fired answered := by
  unfold fired
  rw [← List.countP_append, List.singleton_append]

/-- How a machine fails to answer an event: an effect of a transition for it fails, or a guard whose
failures are passed on, and behind that nothing happens. -/
inductive FailsAt (ev : Evaluator) (services : Services) (m : Instance) (o : Occurrence)
    (fault : Fault) (after : World) : Prop
  | effect {t e now before failed} (ht : t ∈ m.definition.transitions)
      (suits : t.Suits o.event m.state) (he : e ∈ t.effects)
      (fails : ev.evaluate e { m.context o.payload now with handlers := m.handlers services } before
        = .error fault failed)
      (still : failed.Still after)
  | guard {t e now before failed} (ht : t ∈ m.definition.transitions)
      (suits : t.Suits o.event m.state) (he : t.guard = some e)
      (policy : fault.Caught → services.guardPolicy = .propagate)
      (fails : ev.evaluate e (m.context o.payload now) before = .error fault failed)
      (still : failed.Still after)

section step

variable (hev : ev.Respects (Unmoved Stats.transitions a) fun _ => True)
  (hm : w.machine? a = some m) (hb : m.busy = true)

include hev hm

theorem process_tried (services : Services) (event : Text) (payload : Value) :
    ∃ w₁, w₁.machine? a = some m ∧
      w₁.history = .deed m.handle m.label services (.processed ⟨event, payload⟩) :: w.history ∧
      Tried (Unmoved Stats.transitions a) ev services m (m.context payload w.clock) event 0
        m.definition.transitions w₁ (process ev services a event payload w) := by
  have hweighs : Weighs (Unmoved Stats.transitions a) (fun _ => True) ev services m :=
    Unmoved.weighs hev
  let begun := w.recorded services m (.processed ⟨event, payload⟩)
  rw [process_eq hm]
  exact ⟨begun, hm, rfl, hweighs.react_tried trivial event payload begun⟩

include hb

/-- A machine that answers an event goes where the answer says. -/
theorem process_answers (h : process ev services a event payload w = .ok r w') :
    m.definition.Answers m.state event r ∧
    ∃ stats pending, w'.machine? a = some { m with state := r.toState, stats, pending } ∧
      stats.transitions = m.stats.transitions + fired [(⟨event, payload⟩, r)] ∧
      Began a services ⟨event, payload⟩ m.definition m.pending pending w w' := by
  obtain rfl : m.handle = a := World.handle_of_machine? hm
  obtain ⟨w₁, hm₁, hh₁, htried⟩ := process_tried hev hm services event payload
  rw [h] at htried
  cases htried with
  | unanswered before =>
    obtain ⟨stats, pending, hm', hs, hbegan⟩ := before.began hm₁ hb hh₁
    exact ⟨⟨rfl, fun i hi => (nomatch hi), fun _ => rfl⟩, stats, pending, hm', hs, hbegan⟩
  | @taken i t rejected w₂ _ ht suits before takes =>
    rcases take_cases ev services m (m.context payload w.clock) event (0 + i) t rejected w₂ with
      ⟨_, _, -, hfails⟩ | ⟨ran, w₃, log, hran, htaken⟩
    · cases hfails.symm.trans takes
    · cases htaken.symm.trans takes
      have hweighs : Weighs (Unmoved Stats.transitions m.handle) (fun _ => True) ev services m :=
        Unmoved.weighs hev
      have hran' : Unmoved Stats.transitions m.handle w₁ w₃ :=
        before.trans ((hweighs.runEffects_keeps trivial _ _ _).of_ok hran)
      obtain ⟨stats, pending, hm₃, hs, hbegan⟩ := hran'.began hm₁ hb hh₁
      have hmoved := World.machine?_mapMachine_self hm₃
        (f := fun m' => m'.moved (t.target.getD m.state)) fun _ => rfl
      refine ⟨⟨rfl, fun j hj => ?_, fun hnone => (nomatch hnone)⟩,
        { stats with transitions := stats.transitions + 1 }, pending, hmoved,
        congrArg (· + 1) hs, hbegan⟩
      have hplace : 0 + i = j := Option.some.inj hj
      rw [Nat.zero_add] at hplace
      subst hplace
      exact ⟨t, ht, suits, rfl⟩

/-- A machine that fails to answer an event stays in its state and counts no transition. -/
theorem process_stops (h : process ev services a event payload w = .error fault w') :
    FailsAt ev services m ⟨event, payload⟩ fault w' ∧
    ∃ stats pending, w'.machine? a = some { m with stats, pending } ∧
      stats.transitions = m.stats.transitions ∧
      Began a services ⟨event, payload⟩ m.definition m.pending pending w w' := by
  obtain ⟨w₁, hm₁, hh₁, htried⟩ := process_tried hev hm services event payload
  have hweighs : Weighs (Unmoved Stats.transitions a) (fun _ => True) ev services m :=
    Unmoved.weighs hev
  rw [h] at htried
  cases htried with
  | @guardFailed t guard _ w₂ _ _ ht suits guarded before fails =>
    obtain ⟨w₃, hfails, hstill, hpolicy⟩ := guardHolds_error fails
    have hkept : Unmoved Stats.transitions a w₁ w' :=
      before.trans ((hweighs.guardHolds_keeps trivial _ _).of_error fails)
    exact ⟨.guard ht suits guarded hpolicy hfails hstill, hkept.began hm₁ hb hh₁⟩
  | @taken i t rejected w₂ _ ht suits before takes =>
    rcases take_cases ev services m (m.context payload w.clock) event (0 + i) t rejected w₂ with
      ⟨_, _, hran, hfails⟩ | ⟨_, _, _, -, htaken⟩
    · cases hfails.symm.trans takes
      obtain ⟨e, hmem, w₃, w₄, he, hstill⟩ := runEffects_error hran
      have hkept : Unmoved Stats.transitions a w₁ w' :=
        before.trans ((hweighs.runEffects_keeps trivial _ _ _).of_error hran)
      exact ⟨.effect (List.mem_of_getElem? ht) suits hmem he hstill, hkept.began hm₁ hb hh₁⟩
    · cases htaken.symm.trans takes

end step

/-- Events that a machine answers one after the other, from one on and up to one whose turn it is
then. Each but the first is taken off the queue. -/
inductive Answered (ev : Evaluator) (services : Services) (a : Nat) :
    World → Occurrence → List (Occurrence × Dispatched) → World → Occurrence → Prop
  | start (w : World) (o : Occurrence) : Answered ev services a w o [] w o
  | next {w w₁ w₂ w₃ o o' last r answered}
      (answers : process ev services a o.event o.payload w = .ok r w₁)
      (takes : nextPending a w₁ = .ok (some o') w₂)
      (rest : Answered ev services a w₂ o' answered w₃ last) :
      Answered ev services a w o ((o, r) :: answered) w₃ last

theorem nextPending_cases (a : Nat) (w : World) :
    (∃ w₁, nextPending a w = .ok none w₁) ∨
    ∃ m o rest, w.machine? a = some m ∧ m.pending = o :: rest ∧ nextPending a w
      = .ok (some o) (w.mapMachine a fun m => { m with pending := rest }) := by
  cases hm : w.machine? a with
  | none => exact .inl ⟨w, withMachine_none hm none _⟩
  | some m =>
    cases hq : m.pending with
    | nil => exact .inl ⟨_, nextPending_nil hm hq⟩
    | cons o rest => exact .inr ⟨m, o, rest, rfl, hq, nextPending_cons hm hq⟩

/-- A drain fails only in an event that it has taken off the queue. -/
theorem drain_error {left : Nat} (h : drain ev services a left w = .error fault w') :
    ∃ o w₁ answered w₂ last, nextPending a w = .ok (some o) w₁ ∧
      Answered ev services a w₁ o answered w₂ last ∧
      process ev services a last.event last.payload w₂ = .error fault w' ∧
      answered.length < left := by
  induction left generalizing w with
  | zero =>
    unfold drain at h
    cases hm : w.machine? a with
    | none =>
      rw [withMachine_none hm] at h
      cases h
    | some m =>
      rw [withMachine_some hm] at h
      obtain ⟨w₁, J, hr, -⟩ :=
        dropPending_spec services (World.handle_of_machine? hm) m.definition m.pending w
      cases hr.symm.trans h
  | succ left ih =>
    unfold drain at h
    rcases nextPending_cases a w with ⟨w₁, hnext⟩ | ⟨m, o, rest, -, -, hnext⟩
    · rw [Eval.bind_of_ok hnext] at h
      cases h
    · let taken := w.mapMachine a fun m => { m with pending := rest }
      rw [Eval.bind_of_ok hnext] at h
      refine ⟨o, taken, ?_⟩
      rcases Eval.bind_error h with h | ⟨r, w₁, hanswers, h⟩
      · exact ⟨[], taken, o, hnext, .start taken o, h, Nat.succ_pos left⟩
      · obtain ⟨o', w₂, answered, w₃, last, htakes, hrest, hfails, hlength⟩ := ih h
        exact ⟨(o, r) :: answered, w₃, last, hnext, .next hanswers htakes hrest, hfails,
          Nat.succ_lt_succ hlength⟩

/-- A dispatch fails in its own event or in one of the events that were queued meanwhile. -/
theorem dispatch_error (h : dispatch ev services a event payload w = .error fault w') :
    ∃ answered w₁ last w₂,
      Answered ev services a (w.mapMachine a fun m => { m with busy := true }) ⟨event, payload⟩
        answered w₁ last ∧
      process ev services a last.event last.payload w₁ = .error fault w₂ ∧
      w' = w₂.mapMachine a (fun m => { m with busy := false, pending := [] }) ∧
      answered.length ≤ services.maxQueued := by
  obtain ⟨w₂, hx, hclosed⟩ := transaction_error h
  rcases Eval.bind_error hx with hx | ⟨r, w₃, hanswers, hx⟩
  · exact ⟨[], _, ⟨event, payload⟩, w₂, .start _ _, hx, hclosed, Nat.zero_le _⟩
  · rcases Eval.bind_error hx with hx | ⟨_, w₄, -, hx⟩
    · obtain ⟨o, w₅, answered, w₆, last, htakes, hrest, hfails, hlength⟩ := drain_error hx
      exact ⟨(⟨event, payload⟩, r) :: answered, w₆, last, w₂, .next hanswers htakes hrest, hfails,
        hclosed, hlength⟩
    · cases hx

/-- By induction on the answers: where they lead, and what waits behind the event whose turn it is
then. -/
theorem Answered.progress (hev : ev.Respects (Unmoved Stats.transitions a) fun _ => True)
    (h : Answered ev services a w o answered w' last) (hm : w.machine? a = some m)
    (hb : m.busy = true) :
    ∃ state stats pending J, w'.machine? a = some { m with state, stats, pending } ∧
      m.definition.Leads m.state answered state ∧
      stats.transitions = m.stats.transitions + fired answered ∧
      w'.history = J.reverse ++ w.history ∧
      Worklist m.definition (o :: m.pending) (deedsOf a J) (last :: pending) ∧
      pick Deed.processed? (deedsOf a J) = answered.map Prod.fst ∧
      pick Deed.dropped? (deedsOf a J) = [] := by
  induction h generalizing m with
  | start w o => exact ⟨m.state, m.stats, m.pending, [], hm, .nil _, rfl, rfl, .done _, rfl, rfl⟩
  | @next w w₁ w₂ w₃ o o' last r answered hanswers htakes _ ih =>
    obtain ⟨hanswer, stats₁, pending₁, hm₁, hs₁, hbegan⟩ := process_answers hev hm hb hanswers
    obtain ⟨J₁, hh₁, hq₁, hprocessed₁, hdropped₁⟩ := hbegan.deeds
    rcases nextPending_cases a w₁ with ⟨_, hnone⟩ | ⟨m₁, o₁, rest, hm₁', hpending, hsome⟩
    · cases hnone.symm.trans htakes
    · cases hsome.symm.trans htakes
      cases hm₁.symm.trans hm₁'
      have hm₂ := World.machine?_mapMachine_self hm₁
        (f := fun m => { m with pending := rest }) fun _ => rfl
      obtain ⟨state, stats, pending, J₂, hm₃, hleads, hs₂, hh₂, hq₂, hprocessed₂, hdropped₂⟩ :=
        ih hm₂ hb
      refine ⟨state, stats, pending, J₁ ++ J₂, hm₃, .cons hanswer hleads, ?_, ?_, ?_, ?_, ?_⟩
      · rw [fired_cons, ← Nat.add_assoc, ← hs₁]
        exact hs₂
      · rw [hh₂]
        show J₂.reverse ++ w₁.history = _
        rw [hh₁, List.reverse_append, List.append_assoc]
      · rw [deedsOf_append]
        have hpending₁ : pending₁ = o' :: rest := hpending
        rw [hpending₁] at hq₁
        exact hq₁.append hq₂
      · rw [deedsOf_append, pick_append, hprocessed₁, hprocessed₂]
        rfl
      · rw [deedsOf_append, pick_append, hdropped₁, hdropped₂]
        rfl

theorem FailsAt.of_still {after later : World} (h : FailsAt ev services m o fault after)
    (hlater : after.Still later) : FailsAt ev services m o fault later := by
  cases h with
  | effect ht suits he fails still => exact .effect ht suits he fails (still.trans hlater)
  | guard ht suits he policy fails still =>
    exact .guard ht suits he policy fails (still.trans hlater)

/-- What waits for a machine and what is counted of it does not matter to its expressions. -/
theorem FailsAt.of_queued {busy : Bool} {pending : List Occurrence} {stats : Stats}
    (h : FailsAt ev services { m with busy, pending, stats } o fault w') :
    FailsAt ev services m o fault w' := by
  cases h with
  | effect ht suits he fails still => exact .effect ht suits he fails still
  | guard ht suits he policy fails still => exact .guard ht suits he policy fails still

/-- Answers with a failure behind them. The event that fails has been taken off the queue as
well. -/
theorem Answered.stops {w'' : World} (hev : ev.Respects (Unmoved Stats.transitions a) fun _ => True)
    (h : Answered ev services a w o answered w' last)
    (hfails : process ev services a last.event last.payload w' = .error fault w'')
    (hm : w.machine? a = some m) (hb : m.busy = true) :
    ∃ state stats pending J, FailsAt ev services { m with state } last fault w'' ∧
      w''.machine? a = some { m with state, stats, pending } ∧
      m.definition.Leads m.state answered state ∧
      stats.transitions = m.stats.transitions + fired answered ∧
      w''.history = J.reverse ++ w.history ∧
      Worklist m.definition (o :: m.pending) (deedsOf a J) pending ∧
      pick Deed.processed? (deedsOf a J) = answered.map Prod.fst ++ [last] ∧
      pick Deed.dropped? (deedsOf a J) = [] := by
  obtain ⟨state, stats₁, pending₁, J₁, hm₁, hleads, hs₁, hh₁, hq₁, hprocessed₁, hdropped₁⟩ :=
    h.progress hev hm hb
  obtain ⟨hat, stats, pending, hm₂, hs₂, hbegan⟩ := process_stops hev hm₁ hb hfails
  obtain ⟨J₂, hh₂, hq₂, hprocessed₂, hdropped₂⟩ := hbegan.deeds
  have hat' : FailsAt ev services { m with state } last fault w'' := hat.of_queued
  refine ⟨state, stats, pending, J₁ ++ J₂, hat', hm₂, hleads, hs₂.trans hs₁, ?_, ?_, ?_, ?_⟩
  · rw [hh₂, hh₁, List.reverse_append, List.append_assoc]
  · rw [deedsOf_append]
    exact hq₁.append hq₂
  · rw [deedsOf_append, pick_append, hprocessed₁, hprocessed₂]
  · rw [deedsOf_append, pick_append, hdropped₁, hdropped₂]
    rfl

/-- How a transaction of a machine stops that fails: some events are answered and the next one
fails. -/
structure Stopped (ev : Evaluator) (services : Services) (m : Instance) (first : Occurrence)
    (before : World) (fault : Fault) (after : World) (answered : List (Occurrence × Dispatched))
    (failing : Occurrence) (waiting : List Occurrence) (state : Text) (stats : Stats) : Prop where
  run : ∃ w₁ w₂, Answered ev services m.handle
      (before.mapMachine m.handle fun m => { m with busy := true }) first answered w₁ failing ∧
    process ev services m.handle failing.event failing.payload w₁ = .error fault w₂ ∧
    after = w₂.mapMachine m.handle fun m => { m with busy := false, pending := [] }
  bounded : answered.length ≤ services.maxQueued
  fails : FailsAt ev services { m with state } failing fault after
  /-- The machine is idle again and, but for its state and its counters, as it was. -/
  machine : after.machine? m.handle = some { m with state, stats }
  leads : m.definition.Leads m.state answered state
  transitions : stats.transitions = m.stats.transitions + fired answered
  /-- All that was written before the failure is kept, and there are no other changes. -/
  data : ∀ store : StoreRef, after.stores[store]? = before.stores[store]?.map fun data =>
    (after.writesSince before store).foldl Value.applyChanges data
  /-- What was queued and is not answered waits until the failure, and then it is given up without
  being dropped one by one. -/
  worklist : Worklist m.definition [first] (after.deedsSince before m.handle) waiting
  processed : pick Deed.processed? (after.deedsSince before m.handle)
    = answered.map Prod.fst ++ [failing]
  dropped : pick Deed.dropped? (after.deedsSince before m.handle) = []
  /-- No other machine is left in the midst of a transaction either. -/
  others : ∀ b, IdleKept b before after
  /-- The next event is the first of a transaction of its own, and it is answered in that state. -/
  next : ∀ services event payload,
    Completes ev { m with state, stats } services [⟨event, payload⟩] after
      (dispatch ev services m.handle event payload after) ∧
    ∀ r later, dispatch ev services m.handle event payload after = .ok r later →
      m.definition.Answers state event r

/-- A transaction of an idle machine begins with its own event, in the state of the machine. -/
theorem dispatch_begins (fuel : Nat) (services : Services) (hm : w.machine? m.handle = some m)
    (hidle : m.Idle) (event : Text) (payload : Value) :
    let ev := Evaluator.withFuel Library.standard fuel
    Completes ev m services [⟨event, payload⟩] w
      (dispatch ev services m.handle event payload w) ∧
    ∀ r later, dispatch ev services m.handle event payload w = .ok r later →
      m.definition.Answers m.state event r := by
  intro ev
  refine ⟨⟨fun r later h => ?_, ?_⟩, fun r later h => ?_⟩
  · exact dispatch_worked (steady_withFuel m.handle fuel)
      (Transacts.withFuel_respects accounted_transacts fuel) hm hidle h
  · refine dispatch_fails (Transacts.withFuel_respects
      (fun handle => definitionKept_transacts m.handle handle m.definition) fuel) event payload w ?_
    intro m' hm'
    cases hm.symm.trans hm'
    rfl
  · obtain ⟨w₀, w₁, hm₀, -, hx, -⟩ := transaction_ok hm h
    obtain ⟨first, w₂, hprocess, hrest⟩ := Eval.bind_ok hx
    obtain ⟨_, w₃, -, hpure⟩ := Eval.bind_ok hrest
    cases hpure
    exact (process_answers (unmoved_withFuel Stats.transitions m.handle fuel) hm₀ rfl hprocess).1

/-- A machine whose second event fails, with a third one waiting. -/
def fragile : Definition where
  name := "fragile"
  initial := "whole"
  states := [{ name := "whole" }, { name := "cracked" }, { name := "broken" }]
  events := [{ key := "HIT" }, { key := "CRACK" }, { key := "SHATTER" }]
  transitions := [
    { event := "HIT", target := some "cracked"
      effects := [.array [.string "set", .string "@entity.hits", 1],
        .array [.string "emit", .string "CRACK"], .array [.string "emit", .string "SHATTER"]] },
    { event := "CRACK", target := some "broken"
      effects := [.array [.string "set", .string "@entity.cracks", 1], .array [.string "set"],
        .array [.string "set", .string "@entity.cracks", 2]] },
    { event := "SHATTER", target := some "broken" }]

def fragileMachine : Instance := fresh 1 fragile (.map []) 0 0

def fragileWorld : World := { stores := #[.map []], machines := [fragileMachine] }

end Machine
end EntityMachines
