import EntityMachines.Eval.Timers
import EntityMachines.Evaluator
import EntityMachines.Library.Async
import EntityMachines.Proofs.Evaluation.Keeps
import EntityMachines.Proofs.Machine.Answer
import EntityMachines.Proofs.Table
import Mathlib.Data.List.Dedup

/-!
Timers that wait. After any calls of the operator that arms them there is one for each name, the one
of the last call.
-/
namespace EntityMachines

namespace Timers

/-- The last of the actions for each name. -/
def lasts : List DelayedEmit → List DelayedEmit
  | [] => []
  | a :: later => if a.event ∈ later.map (·.event) then lasts later else a :: lasts later

theorem map_event_lasts (actions : List DelayedEmit) :
    (lasts actions).map (·.event) = (actions.map (·.event)).dedup := by
  induction actions with
  | nil => rfl
  | cons a later ih =>
    unfold lasts
    rw [List.map_cons]
    split
    next hlater => rw [List.dedup_cons_of_mem hlater, ih]
    next hlater => rw [List.dedup_cons_of_notMem hlater, List.map_cons, ih]

theorem mem_lasts {a : DelayedEmit} {actions : List DelayedEmit} (h : a ∈ lasts actions) :
    a ∈ actions := by
  induction actions with
  | nil => exact h
  | cons b later ih =>
    unfold lasts at h
    split at h
    · exact List.mem_cons_of_mem b (ih h)
    · rcases List.mem_cons.mp h with rfl | h
      · exact List.mem_cons_self
      · exact List.mem_cons_of_mem b (ih h)

/-- A new action takes the place of the one for its name. -/
theorem lasts_concat (actions : List DelayedEmit) (a : DelayedEmit) :
    lasts (actions ++ [a]) = (lasts actions).filter (·.event != a.event) ++ [a] := by
  induction actions with
  | nil => rfl
  | cons b later ih =>
    have hmem : b.event ∈ (later ++ [a]).map (·.event)
        ↔ b.event ∈ later.map (·.event) ∨ b.event = a.event := by simp
    rw [List.cons_append, lasts, lasts]
    by_cases hlater : b.event ∈ later.map (·.event)
    · rw [if_pos (hmem.mpr (.inl hlater)), if_pos hlater, ih]
    · by_cases hsame : b.event = a.event
      · rw [if_pos (hmem.mpr (.inr hsame)), if_neg hlater,
          List.filter_cons_of_neg (by simp [hsame]), ih]
      · rw [if_neg (mt hmem.mp (not_or.mpr ⟨hlater, hsame⟩)), if_neg hlater,
          List.filter_cons_of_pos (by simp [hsame]), ih, List.cons_append]

def entry (a : DelayedEmit) : Text × Timer DelayedEmit := (a.event, ⟨a, none⟩)

/-- The timers that wait are those of the last action for each name. -/
structure Awaits (actions : List DelayedEmit) (timers : Table (Timer DelayedEmit)) : Prop where
  ordered : timers.Ordered
  perm : timers.Perm ((lasts actions).map entry)

theorem Awaits.debounce {actions : List DelayedEmit} {timers : Table (Timer DelayedEmit)}
    (h : Awaits actions timers) (a : DelayedEmit) :
    Awaits (actions ++ [a]) (timers.insert a.event ⟨a, none⟩) where
  ordered := h.ordered.insert _ _
  perm := by
    have hothers : (timers.filter fun t => t.1 != a.event).Perm
        (((lasts actions).filter (·.event != a.event)).map entry) := by
      have hfilter := h.perm.filter fun t => t.1 != a.event
      rwa [List.filter_map] at hfilter
    rw [lasts_concat, List.map_append]
    exact (Table.insert_perm h.ordered a.event ⟨a, none⟩).trans
      ((hothers.cons _).trans (List.perm_append_singleton _ _).symm)

theorem Awaits.nil : Awaits [] [] := ⟨List.Pairwise.nil, .nil⟩

/-- Every timer that waits is one of an action. -/
theorem Awaits.exists_action {actions : List DelayedEmit} {timers : Table (Timer DelayedEmit)}
    (h : Awaits actions timers) {t : Text × Timer DelayedEmit} (ht : t ∈ timers) :
    ∃ a ∈ actions, entry a = t := by
  obtain ⟨a, ha, hentry⟩ := List.mem_map.mp (h.perm.subset ht)
  exact ⟨a, mem_lasts ha, hentry⟩

theorem Awaits.length {actions : List DelayedEmit} {timers : Table (Timer DelayedEmit)}
    (h : Awaits actions timers) : timers.length = (actions.map (·.event)).dedup.length := by
  rw [h.perm.length_eq, List.length_map, ← map_event_lasts, List.length_map]

section calls

variable {ev : Evaluator} {ctx : Context} {args : List Value}

theorem debounce_eq {v delay : Value} {w w₁ w₂ : World}
    (hevent : Operator.required "async/debounce" ev ctx args 0 w = .ok v w₁)
    (hdelay : Operator.required "async/debounce" ev ctx args 1 w₁ = .ok delay w₂) :
    Library.Async.debounce ev ctx args w = .ok .undefined
      { w₂ with timing := w₂.timing.debounce v.display ⟨v.display, ctx.handlers⟩ none } := by
  unfold Library.Async.debounce
  rw [Eval.bind_of_ok hevent, Eval.bind_of_ok hdelay]
  rfl

/-- What is armed on the way from one state to a later one, in order. Calls that arm timers may
stand anywhere, also in the arguments of others; what else happens leaves the timers as they are. -/
inductive Arms (ev : Evaluator) : List DelayedEmit → World → World → Prop
  | still {w w' : World} (h : w'.timing.timers = w.timing.timers) : Arms ev [] w w'
  | call {ctx : Context} {args : List Value} {v delay r : Value} {first second : List DelayedEmit}
      {w w₁ w₂ w' : World} (result : Library.Async.debounce ev ctx args w = .ok r w')
      (event : Operator.required "async/debounce" ev ctx args 0 w = .ok v w₁)
      (whileEvent : Arms ev first w w₁)
      (delay : Operator.required "async/debounce" ev ctx args 1 w₁ = .ok delay w₂)
      (whileDelay : Arms ev second w₁ w₂) :
      Arms ev (first ++ second ++ [⟨v.display, ctx.handlers⟩]) w w'
  | trans {first second : List DelayedEmit} {w w₁ w₂ : World} (before : Arms ev first w w₁)
      (after : Arms ev second w₁ w₂) : Arms ev (first ++ second) w w₂

/-- A call whose arguments change nothing. -/
theorem Arms.of_plain {v delay : Value} {w : World}
    (hevent : Operator.required "async/debounce" ev ctx args 0 w = .ok v w)
    (hdelay : Operator.required "async/debounce" ev ctx args 1 w = .ok delay w) :
    Arms ev [⟨v.display, ctx.handlers⟩] w
      { w with timing := w.timing.debounce v.display ⟨v.display, ctx.handlers⟩ none } :=
  .call (debounce_eq hevent hdelay) hevent (.still rfl) hdelay (.still rfl)

/-- By induction over what is armed; each call puts its timer in the place of an earlier one. -/
theorem Arms.awaits {actions earlier : List DelayedEmit} {w w' : World} (h : Arms ev actions w w')
    (hearlier : Awaits earlier w.timing.timers) :
    Awaits (earlier ++ actions) w'.timing.timers := by
  induction h generalizing earlier with
  | still h =>
    rw [h, List.append_nil]
    exact hearlier
  | call result event _ delay _ ih ih' =>
    rw [debounce_eq event delay] at result
    cases result
    rw [← List.append_assoc, ← List.append_assoc]
    exact (ih' (ih hearlier)).debounce _
  | trans _ _ ih ih' =>
    rw [← List.append_assoc]
    exact ih' (ih hearlier)

end calls

end Timers
end EntityMachines

/-!
Timers that expire. Those that are due are taken off together and act in the order of their names,
and each of them emits its event once, whether or not the handlers of others fail.
-/
namespace EntityMachines
namespace Timers

/-- What a timer emits, and to whom; nothing if its context has no handler. -/
def emission? (a : DelayedEmit) : Option (Text × Emitter) :=
  a.handlers.emit.map fun emitter => (a.event, emitter)

def emissions (timers : Table (Timer DelayedEmit)) : List (Text × Emitter) :=
  timers.filterMap fun t => emission? t.2.action

section emitted

variable {ev : Evaluator}

/-- An emission with an undefined payload reaches its handler, which may fail with an exception that
has a message. -/
def Sends (ev : Evaluator) (x : Text × Emitter) (w w' : World) : Prop :=
  Effect.send ev x.2 x.1 .undefined w = .ok () w' ∨
    ∃ fault, fault.Caught ∧ Effect.send ev x.2 x.1 .undefined w = .error fault w'

/-- A run that consists of emissions. Between them only the log is written and timers are taken
off. -/
inductive Emitted (ev : Evaluator) : List (Text × Emitter) → World → World → Prop
  | nil (w : World) : Emitted ev [] w w
  | aside {trace w w'} (timers : Table (Timer DelayedEmit)) (log : Log)
      (rest : Emitted ev trace { w with timing := { w.timing with timers, log } } w') :
      Emitted ev trace w w'
  | cons {x trace w w₁ w'} (first : Sends ev x w w₁) (rest : Emitted ev trace w₁ w') :
      Emitted ev (x :: trace) w w'

theorem Emitted.append {first second : List (Text × Emitter)} {w w₁ w₂ : World}
    (h : Emitted ev first w w₁) (h' : Emitted ev second w₁ w₂) :
    Emitted ev (first ++ second) w w₂ := by
  induction h with
  | nil => exact h'
  | aside timers log _ ih => exact .aside timers log (ih h')
  | cons first _ ih => exact .cons first (ih h')

theorem Emitted.note (level : Log.Level) (category message : Text) (w : World) :
    Emitted ev [] w { w with timing := w.timing.write level category message } :=
  .aside w.timing.timers _ (.nil _)

/-- Wherever some of these emissions have led, each of them reaches its handler, and none arms a
timer. -/
def Harmless (ev : Evaluator) (due : List (Text × Emitter)) (w : World) : Prop :=
  ∀ {trace v}, Emitted ev trace w v → trace ⊆ due → ∀ x ∈ due,
    ∃ v', Sends ev x v v' ∧ v'.timing.timers = v.timing.timers

theorem Harmless.later {due : List (Text × Emitter)} {trace : List (Text × Emitter)} {w v : World}
    (h : Harmless ev due w) (htrace : Emitted ev trace w v) (hsub : trace ⊆ due) :
    Harmless ev due v := fun hlater hsub' =>
  h (htrace.append hlater) (List.append_subset.mpr ⟨hsub, hsub'⟩)

variable {due : List (Text × Emitter)} {w : World}

/-- A timer emits what it has to emit, and its failure is only a message. -/
theorem act_emits (h : Harmless ev due w) {a : DelayedEmit} (hdue : ∀ x ∈ emission? a, x ∈ due) :
    ∃ message? w', act ev a w = .ok message? w' ∧ w'.timing.timers = w.timing.timers ∧
      Emitted ev (emission? a).toList w w' := by
  unfold act Effect.emitLater
  cases hemit : a.handlers.emit with
  | none =>
    have hnone : emission? a = none := by rw [emission?, hemit]; rfl
    rw [hnone]
    exact ⟨none, _, rfl, rfl, .note _ _ _ w⟩
  | some emitter =>
    have hsome : emission? a = some (a.event, emitter) := by rw [emission?, hemit]; rfl
    obtain ⟨w', hsends, htimers⟩ := h (.nil w) (List.nil_subset due) _ (hdue _ hsome)
    have hemits : Emitted ev (emission? a).toList w w' := hsome ▸ .cons hsends (.nil w')
    rcases hsends with hsent | ⟨fault, ⟨e, rfl, hnamed⟩, hfails⟩
    · exact ⟨none, w', Eval.bind_of_ok (Eval.attempt_of_ok hsent), htimers, hemits⟩
    · exact ⟨some e.message, w', Eval.bind_of_ok (Eval.attempt_of_raised hfails hnamed), htimers,
        hemits⟩

theorem note_emits (key message : Text) (w : World) : ∃ w', Timers.note key message w = .ok () w' ∧
    w'.timing.timers = w.timing.timers ∧ Emitted ev [] w w' :=
  ⟨_, rfl, rfl, .note _ _ _ w⟩

/-- By induction over the timers, none of which loses its turn. -/
theorem expire_emits {timers : Table (Timer DelayedEmit)} (h : Harmless ev due w)
    (hdue : ∀ t ∈ timers, ∀ x ∈ emission? t.2.action, x ∈ due) :
    ∃ w', Timing.expire (act ev) note timers w = .ok () w' ∧
      w'.timing.timers = w.timing.timers ∧
      Emitted ev (emissions timers) w w' := by
  induction timers generalizing w with
  | nil => exact ⟨w, rfl, rfl, .nil w⟩
  | cons t rest ih =>
    obtain ⟨key, timer⟩ := t
    obtain ⟨message?, w₁, hact, htimers, hemits⟩ :=
      act_emits h (hdue (key, timer) List.mem_cons_self)
    -- behind the act stands the note of a failure, if there was one
    obtain ⟨w₂, hnext, htimers', hquiet⟩ : ∃ w₂,
        Timing.expire (act ev) note ((key, timer) :: rest) w = Timing.expire (act ev) note rest w₂ ∧
          w₂.timing.timers = w₁.timing.timers ∧ Emitted ev [] w₁ w₂ := by
      rw [Timing.expire, Eval.bind_of_ok hact]
      cases message? with
      | none => exact ⟨w₁, rfl, rfl, .nil w₁⟩
      | some message =>
        obtain ⟨w₂, hnote, hsame, hquiet⟩ := note_emits key message w₁
        exact ⟨w₂, Eval.bind_of_ok hnote, hsame, hquiet⟩
    have hfirst := hemits.append hquiet
    rw [List.append_nil] at hfirst
    have hsub : (emission? timer.action).toList ⊆ due := fun x hx =>
      hdue (key, timer) List.mem_cons_self x (Option.mem_toList.mp hx)
    obtain ⟨w', hrest, htimers'', hemits'⟩ := ih (h.later hfirst hsub)
      fun t ht => hdue t (List.mem_cons_of_mem _ ht)
    refine ⟨w', hnext.trans hrest, htimers''.trans (htimers'.trans htimers), ?_⟩
    have hall := hfirst.append hemits'
    rw [emissions, List.filterMap_cons]
    cases hemission : emission? timer.action with
    | none =>
      rw [hemission] at hall
      exact hall
    | some x =>
      rw [hemission] at hall
      exact hall

end emitted

/-- A pass over the timers: those that are due are taken off together and act in the order of their
names. -/
def round (ev : Evaluator) (due : Text → Bool) : Eval Unit := do
  let w ← get
  let expired := w.timing.timers.filter fun t => due t.1
  let waiting := w.timing.timers.filter fun t => !due t.1
  set { w with timing := { w.timing with timers := waiting } }
  Timing.expire (act ev) note expired

def rounds (ev : Evaluator) : List (Text → Bool) → Eval Unit
  | [] => return ()
  | due :: later => do
    round ev due
    rounds ev later

section rounds

variable {ev : Evaluator} {due : List (Text × Emitter)} {w : World}

theorem round_eq (ready : Text → Bool) : round ev ready w
    = Timing.expire (act ev) note (w.timing.timers.filter fun t => ready t.1)
      { w with timing :=
        { w.timing with timers := w.timing.timers.filter fun t => !ready t.1 } } := rfl

theorem round_emits (h : Harmless ev due w)
    (hdue : ∀ t ∈ w.timing.timers, ∀ x ∈ emission? t.2.action, x ∈ due) (ready : Text → Bool) :
    ∃ w', round ev ready w = .ok () w' ∧
      w'.timing.timers = (w.timing.timers.filter fun t => !ready t.1) ∧
      Emitted ev (emissions (w.timing.timers.filter fun t => ready t.1)) w w' := by
  let waiting := w.timing.timers.filter fun t => !ready t.1
  let taken : World := { w with timing := { w.timing with timers := waiting } }
  have htaken : Emitted ev [] w taken := .aside waiting w.timing.log (.nil _)
  have hexpired : ∀ t ∈ w.timing.timers.filter (fun t => ready t.1),
      ∀ x ∈ emission? t.2.action, x ∈ due := fun t ht => hdue t (List.mem_of_mem_filter ht)
  obtain ⟨w', hexpire, htimers, hemits⟩ :=
    expire_emits (h.later htaken (List.nil_subset due)) hexpired
  exact ⟨w', hexpire, htimers, htaken.append hemits⟩

/-- By induction over the passes; the timers of a pass and those that wait behind it are those that
waited before it. -/
theorem rounds_emit {schedule : List (Text → Bool)} (h : Harmless ev due w)
    (hdue : ∀ t ∈ w.timing.timers, ∀ x ∈ emission? t.2.action, x ∈ due)
    (hready : ∀ t ∈ w.timing.timers, ∃ ready ∈ schedule, ready t.1 = true) :
    ∃ w' trace, rounds ev schedule w = .ok () w' ∧ w'.timing.timers = [] ∧
      Emitted ev trace w w' ∧ trace.Perm (emissions w.timing.timers) := by
  induction schedule generalizing w with
  | nil =>
    have hnone : w.timing.timers = [] := by
      refine List.eq_nil_iff_forall_not_mem.mpr fun t ht => ?_
      obtain ⟨ready, hmem, -⟩ := hready t ht
      cases hmem
    exact ⟨w, [], rfl, hnone, .nil w, by rw [hnone]; exact .refl _⟩
  | cons ready later ih =>
    obtain ⟨w₁, hround, htimers, hfirst⟩ := round_emits h hdue ready
    have hsub : emissions (w.timing.timers.filter fun t => ready t.1) ⊆ due := by
      intro x hx
      obtain ⟨t, ht, hx⟩ := List.mem_filterMap.mp hx
      exact hdue t (List.mem_of_mem_filter ht) x hx
    obtain ⟨w', trace, hrounds, hempty, hlater, hperm⟩ := ih (h.later hfirst hsub)
      (by
        rw [htimers]
        exact fun t ht => hdue t (List.mem_of_mem_filter ht))
      (by
        rw [htimers]
        intro t ht
        obtain ⟨ht, hwaits⟩ := List.mem_filter.mp ht
        obtain ⟨ready', hmem, hdue'⟩ := hready t ht
        rcases List.mem_cons.mp hmem with rfl | hmem
        · rw [hdue'] at hwaits
          cases hwaits
        · exact ⟨ready', hmem, hdue'⟩)
    refine ⟨w', _, (Eval.bind_of_ok hround).trans hrounds, hempty, hfirst.append hlater, ?_⟩
    rw [htimers] at hperm
    refine (hperm.append_left _).trans ?_
    unfold emissions
    rw [← List.filterMap_append]
    exact (List.filter_append_perm (fun t => ready t.1) w.timing.timers).filterMap _

theorem settle_of_nil (h : w.timing.timers = []) (n : Nat) : settle ev (n + 1) w = .ok () w := by
  have hget : (get : Eval World) w = .ok w w := rfl
  unfold settle
  rw [Eval.bind_of_ok hget, Timing.takeTimers, h]
  rfl

/-- The expiry of all timers at once is a single pass. -/
theorem settle_of_round {w' : World} (h : round ev (fun _ => true) w = .ok () w')
    (hempty : w'.timing.timers = []) (n : Nat) : settle ev (n + 2) w = .ok () w' := by
  have hget : (get : Eval World) w = .ok w w := rfl
  have hround : round ev (fun _ => true) w
      = Timing.expire (act ev) note w.timing.timers { w with timing := w.timing.clearTimers } := by
    have hexpired : (w.timing.timers.filter fun _ => true) = w.timing.timers :=
      List.filter_eq_self.mpr fun _ _ => rfl
    have hwaiting : (w.timing.timers.filter fun _ => !true) = [] :=
      List.filter_eq_nil_iff.mpr fun _ _ => Bool.false_ne_true
    rw [round_eq, hexpired, hwaiting, Timing.clearTimers]
  cases htimers : w.timing.timers with
  | nil =>
    rw [hround, htimers] at h
    have hsame : { w with timing := w.timing.clearTimers } = w := by
      rw [Timing.clearTimers, ← htimers]
    rw [hsame] at h
    cases h
    exact settle_of_nil hempty (n + 1)
  | cons t rest =>
    rw [hround, htimers] at h
    unfold settle
    rw [Eval.bind_of_ok hget, Timing.takeTimers, htimers]
    exact (Eval.bind_of_ok h).trans (settle_of_nil hempty n)

end rounds

theorem Awaits.emissions_perm {actions : List DelayedEmit} {timers : Table (Timer DelayedEmit)}
    (h : Awaits actions timers) :
    (emissions timers).Perm ((lasts actions).filterMap emission?) := by
  have hperm := h.perm.filterMap fun t => emission? t.2.action
  rwa [List.filterMap_map] at hperm

/-- Behind the expiry of all timers nothing waits, and the last action for each name has emitted
its event once, if its context had a handler. -/
structure EmittedOnce (ev : Evaluator) (actions : List DelayedEmit) (w after : World) : Prop where
  pending : after.timing.pending = 0
  emitted : ∃ trace, Emitted ev trace w after ∧ trace.Perm ((lasts actions).filterMap emission?)

/-- Calls that arm timers, in any contexts and under any names, and the expiry of the timers: in
passes, whichever timers are due in each of them, or all at once. -/
theorem debounce_coalesces {ev : Evaluator} {actions : List DelayedEmit} {w w' : World}
    (hstart : w.timing.timers = []) (hcalls : Arms ev actions w w') :
    w'.timing.pending = (actions.map (·.event)).dedup.length ∧
      (Harmless ev ((lasts actions).filterMap emission?) w' →
        (∀ schedule : List (Text → Bool),
          (∀ a ∈ actions, ∃ ready ∈ schedule, ready a.event = true) →
          ∃ after, rounds ev schedule w' = .ok () after ∧ EmittedOnce ev actions w' after) ∧
        ∀ n, ∃ after, settle ev (n + 2) w' = .ok () after ∧ EmittedOnce ev actions w' after) := by
  have hnone : Awaits [] w.timing.timers := hstart ▸ Awaits.nil
  have hawaits : Awaits actions w'.timing.timers := hcalls.awaits hnone
  refine ⟨hawaits.length, fun hharmless => ?_⟩
  have hemissions := hawaits.emissions_perm
  have hdue : ∀ t ∈ w'.timing.timers, ∀ x ∈ emission? t.2.action,
      x ∈ (lasts actions).filterMap emission? := fun t ht x hx =>
    hemissions.subset (List.mem_filterMap.mpr ⟨t, ht, hx⟩)
  have hrounds (schedule : List (Text → Bool))
      (hready : ∀ a ∈ actions, ∃ ready ∈ schedule, ready a.event = true) :
      ∃ after, rounds ev schedule w' = .ok () after ∧ EmittedOnce ev actions w' after := by
    have htimers : ∀ t ∈ w'.timing.timers, ∃ ready ∈ schedule, ready t.1 = true := by
      intro t ht
      obtain ⟨a, ha, rfl⟩ := hawaits.exists_action ht
      exact hready a ha
    obtain ⟨after, trace, hrun, hempty, hemits, hperm⟩ := rounds_emit hharmless hdue htimers
    refine ⟨after, hrun, ?_, trace, hemits, hperm.trans hemissions⟩
    rw [Timing.pending, hempty, List.length_nil]
  refine ⟨hrounds, fun n => ?_⟩
  obtain ⟨after, hrun, honce⟩ :=
    hrounds [fun _ => true] fun _ _ => ⟨_, List.mem_singleton_self _, rfl⟩
  obtain ⟨_, w₁, hround, hdone⟩ := Eval.bind_ok hrun
  cases hdone
  exact ⟨after, settle_of_round hround (List.eq_nil_of_length_eq_zero honce.pending) n, honce⟩

section outside

/-- The call that an emission is for the surrounding program. -/
def call? : Text × Emitter → Option Call
  | (event, .outside label) => some ⟨label, .emit event .undefined⟩
  | (_, .machine _ _) => none

/-- Every emission goes to the surrounding program. -/
def Outside (trace : List (Text × Emitter)) : Prop := ∀ x ∈ trace, ∃ label, x.2 = .outside label

variable {ev : Evaluator} {w : World}

theorem send_outside (label : Label) (event : Text) (w : World) :
    Effect.send ev (.outside label) event .undefined w =
      match w.respond (⟨label, .emit event .undefined⟩ :: w.calls) with
      | .ok _ => .ok () { w with calls := ⟨label, .emit event .undefined⟩ :: w.calls }
      | .error e =>
        .error (.raised e) { w with calls := ⟨label, .emit event .undefined⟩ :: w.calls } := by
  have hcall : Eval.call label (.emit event .undefined) w
      = Eval.ofExcept (w.respond (⟨label, .emit event .undefined⟩ :: w.calls))
        { w with calls := ⟨label, .emit event .undefined⟩ :: w.calls } := rfl
  unfold Effect.send
  cases hreply : w.respond (⟨label, .emit event .undefined⟩ :: w.calls) with
  | ok v => exact Eval.bind_of_ok (hcall.trans (by rw [hreply]; rfl))
  | error e => exact Eval.bind_of_error (hcall.trans (by rw [hreply]; rfl))

/-- Whether it fails or not, such an emission is one call and nothing else. -/
theorem Sends.outside {label : Label} {event : Text} {w w' : World}
    (h : Sends ev (event, .outside label) w w') :
    w' = { w with calls := ⟨label, .emit event .undefined⟩ :: w.calls } := by
  unfold Sends at h
  rw [send_outside] at h
  cases hreply : w.respond (⟨label, .emit event .undefined⟩ :: w.calls) with
  | ok v =>
    rw [hreply] at h
    obtain hsent | ⟨fault, -, hfails⟩ := h
    · cases hsent
      rfl
    · cases hfails
  | error e =>
    rw [hreply] at h
    obtain hsent | ⟨fault, -, hfails⟩ := h
    · cases hsent
    · cases hfails
      rfl

/-- By induction over the emissions, each of which is one call. -/
theorem Emitted.calls {trace : List (Text × Emitter)} {w' : World} (h : Emitted ev trace w w')
    (houtside : Outside trace) :
    w'.respond = w.respond ∧ w'.calls = (trace.filterMap call?).reverse ++ w.calls := by
  induction h with
  | nil => exact ⟨rfl, rfl⟩
  | aside timers log _ ih => exact ih houtside
  | @cons x trace w w₁ w' first _ ih =>
    obtain ⟨hrespond, hcalls⟩ := ih fun y hy => houtside y (List.mem_cons_of_mem x hy)
    obtain ⟨event, emitter⟩ := x
    obtain ⟨label, rfl⟩ := houtside _ List.mem_cons_self
    rw [first.outside] at hrespond hcalls
    refine ⟨hrespond, hcalls.trans ?_⟩
    rw [List.filterMap_cons, call?, List.reverse_cons, List.append_assoc]
    rfl

/-- The surrounding program arms no timers. -/
theorem harmless_of_outside {due : List (Text × Emitter)} (houtside : Outside due)
    (hnamed : ∀ calls e, w.respond calls = .error e → e ≠ .unnamed) : Harmless ev due w := by
  intro trace v htrace hsub x hx
  have hrespond := (htrace.calls fun x hx => houtside x (hsub hx)).1
  obtain ⟨event, emitter⟩ := x
  obtain ⟨label, rfl⟩ := houtside _ hx
  refine ⟨{ v with calls := ⟨label, .emit event .undefined⟩ :: v.calls }, ?_, rfl⟩
  unfold Sends
  rw [send_outside]
  cases hreply : v.respond (⟨label, .emit event .undefined⟩ :: v.calls) with
  | ok r => exact .inl rfl
  | error e => exact .inr ⟨_, ⟨e, rfl, hnamed _ e (hrespond ▸ hreply)⟩, rfl⟩

/-- The handlers of the surrounding program are called once for each name. -/
theorem EmittedOnce.callsSince {actions : List DelayedEmit} {after : World}
    (h : EmittedOnce ev actions w after)
    (houtside : Outside ((lasts actions).filterMap emission?)) :
    (after.callsSince w).Perm (((lasts actions).filterMap emission?).filterMap call?) := by
  obtain ⟨trace, htrace, hperm⟩ := h.emitted
  have hcalls := (htrace.calls fun x hx => houtside x (hperm.subset hx)).2
  rw [World.callsSince_eq hcalls]
  exact hperm.filterMap _

end outside

/-- A program with three handlers, of which the second fails. -/
def callbox : World where
  respond
    | ⟨label, _⟩ :: _ => if label = ([2] : Text) then .error .timeout else .ok .undefined
    | [] => .ok .undefined

/-- Four calls under three names. The first name is used again with another handler, and nobody
hears of the last one. -/
def rings : List DelayedEmit :=
  [⟨"door", { emit := some (.outside [1]) }⟩, ⟨"gate", { emit := some (.outside [2]) }⟩,
    ⟨"door", { emit := some (.outside [3]) }⟩, ⟨"roof", {}⟩]

/-- Levels enough for arguments that are their own values. -/
def literal : Evaluator := .withFuel Library.standard 1

theorem plain_arms {a : DelayedEmit} (hplain : Expr.isBinding (.string a.event) = false)
    (w : World) :
    Arms literal [a] w { w with timing := w.timing.debounce a.event a none } := by
  let ctx : Context := { handlers := a.handlers }
  have hname : literal.evaluate (.string a.event) ctx w = .ok (.string a.event) w := by
    have hvalue : literal.evaluate (.string a.event) ctx
        = if Expr.isBinding (.string a.event) then ctx.resolveText a.event
          else return .string a.event := rfl
    rw [hvalue, hplain]
    rfl
  have hevent : Operator.required "async/debounce" literal ctx [.string a.event, .number 5] 0 w
      = .ok (.string a.event) w := hname
  have hdelay : Operator.required "async/debounce" literal ctx [.string a.event, .number 5] 1 w
      = .ok (.number 5) w := rfl
  exact Arms.of_plain hevent hdelay

/-- Calls under any names that are no bindings, one after another. -/
theorem exists_arms {actions : List DelayedEmit}
    (hplain : ∀ a ∈ actions, Expr.isBinding (.string a.event) = false) (w : World) :
    ∃ w', Arms literal actions w w' ∧ w'.respond = w.respond := by
  induction actions generalizing w with
  | nil => exact ⟨w, .still rfl, rfl⟩
  | cons a later ih =>
    obtain ⟨w', hlater, hrespond⟩ := ih (fun b hb => hplain b (List.mem_cons_of_mem a hb))
      { w with timing := w.timing.debounce a.event a none }
    exact ⟨w', (plain_arms (hplain a List.mem_cons_self) w).trans hlater, hrespond⟩

theorem rings_coalesced :
    callbox.timing.timers = [] ∧ ∃ w', Arms literal rings callbox w' ∧
      Harmless literal ((lasts rings).filterMap emission?) w' ∧ w'.timing.pending = 3 ∧
      ∃ after, settle literal 2 w' = .ok () after ∧ EmittedOnce literal rings w' after ∧
        (after.callsSince w').Perm
          [⟨[2], .emit (Text.ofString "gate") .undefined⟩,
            ⟨[3], .emit (Text.ofString "door") .undefined⟩] := by
  have hplain : ∀ a ∈ rings, Expr.isBinding (.string a.event) = false := by decide
  obtain ⟨w', harms, hrespond⟩ := exists_arms hplain callbox
  have hemissions : (lasts rings).filterMap emission?
      = [(Text.ofString "gate", .outside [2]), (Text.ofString "door", .outside [3])] := by decide
  have houtside : Outside ((lasts rings).filterMap emission?) := by
    rw [hemissions]
    simp [Outside]
  have hharmless : Harmless literal ((lasts rings).filterMap emission?) w' := by
    refine harmless_of_outside houtside fun calls e hfails => ?_
    rw [hrespond] at hfails
    cases calls with
    | nil => cases hfails
    | cons call earlier =>
      change (if call.label = ([2] : Text) then Except.error Error.timeout
        else .ok Value.undefined) = .error e at hfails
      split at hfails
      · cases hfails
        exact nofun
      · cases hfails
  obtain ⟨hpending, hexpiry⟩ := debounce_coalesces rfl harms
  obtain ⟨after, hsettle, honce⟩ := (hexpiry hharmless).2 0
  have hcalls := honce.callsSince houtside
  rw [hemissions] at hcalls
  exact ⟨rfl, w', harms, hharmless, hpending.trans (by decide), after, hsettle, honce, hcalls⟩

end Timers
end EntityMachines
