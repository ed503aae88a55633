import EntityMachines.Proofs.Host.Pass
import EntityMachines.Proofs.Machine.Emission
import EntityMachines.Proofs.Timers

/-!
Runs of a host, and what a machine that is made to process events does in one. Each machine has data
of its own, and what one machine does leaves the others alone.
-/
namespace EntityMachines

/-- What a timer that waits alone emits is all that its expiry does, but for the log. -/
theorem Timers.settle_single (ev : Evaluator) {w : World} {key : Text} {timer : Timer DelayedEmit}
    (htimers : w.timing.timers = [(key, timer)])
    (hempty : ((Effect.emitLater ev timer.action.handlers timer.action.event).after
      { w with timing := w.timing.clearTimers }).timing.timers = []) (rounds : Nat) :
    ((Effect.emitLater ev timer.action.handlers timer.action.event).after
      { w with timing := w.timing.clearTimers }).Unseen ((settle ev (rounds + 1)).after w) := by
  have hrest (later : World) (hlater : later.timing.timers = []) :
      (settle ev rounds).after later = later := by
    cases rounds with
    | zero => rfl
    | succ rounds => exact Eval.after_ok (settle_of_nil hlater rounds)
  unfold settle
  rw [Eval.after_get_bind, Timing.takeTimers, htimers]
  dsimp only
  rw [Eval.after_set_bind]
  generalize { w with timing := w.timing.clearTimers } = taken at hempty ⊢
  rcases Eval.attempt_cases (Effect.emitLater ev timer.action.handlers timer.action.event) taken
    with ⟨_, later, hr, ha⟩ | ⟨e, later, hr, ha⟩ | ⟨fault, later, hr, ha⟩
  · rw [Eval.after_ok hr] at hempty ⊢
    have hact : act ev timer.action taken = .ok none later := Eval.bind_of_ok ha
    have hexpire : Timing.expire (act ev) note [(key, timer)] taken = .ok () later :=
      Eval.bind_of_ok hact
    rw [Eval.after_bind_ok hexpire, hrest later hempty]
    exact .of_same rfl rfl rfl rfl rfl
  · rw [Eval.after_error hr] at hempty ⊢
    let noted : World := { later with timing := later.timing.timerFailed key e.message }
    have hact : act ev timer.action taken = .ok (some e.message) later := Eval.bind_of_ok ha
    have hexpire : Timing.expire (act ev) note [(key, timer)] taken = .ok () noted :=
      Eval.bind_of_ok hact
    rw [Eval.after_bind_ok hexpire, hrest noted hempty]
    exact .of_same rfl rfl rfl rfl rfl
  · rw [Eval.after_error hr] at hempty ⊢
    have hact : act ev timer.action taken = .error fault later := Eval.bind_of_error ha
    have hexpire : Timing.expire (act ev) note [(key, timer)] taken = .error fault later :=
      Eval.bind_of_error hact
    rw [Eval.after_bind_error hexpire]
    exact .of_same rfl rfl rfl rfl rfl

/-- What a surrounding program does to a host. -/
inductive Host.Move where
  | create (definition : Nat) (given seed : Value)
  | destroy (handle : Nat)
  | dispatch (handle : Nat) (event : Text) (payload : Value)
  | runDueTicks (now : Int)
  | install (outlets : Outlets) (observer : Option Label) (listens : Bool)
  | setClock (now : Int)
  /-- Calls are answered in another way from now on. -/
  | reply (respond : List Call → Except Error Value)
  /-- The debounce timers that wait act. -/
  | expire (rounds : Nat)

namespace Host

variable {α : Type} {ev : Evaluator} {h : Host}

/-- The host behind an action, whether that fails or not. -/
def behind (x : Action α) (h : Host) : Host :=
  match x h with
  | .ok _ h' => h'
  | .error _ h' => h'

/-- The host behind a move. -/
def moved (ev : Evaluator) (h : Host) : Move → Host
  | .create definition given seed => behind (create ev definition given seed) h
  | .destroy handle => behind (destroy handle) h
  | .dispatch handle event payload => behind (dispatch ev handle event payload) h
  | .runDueTicks now => behind (runDueTicks ev now) h
  | .install outlets observer listens => behind (install outlets observer listens) h
  | .setClock now => behind (setClock now) h
  | .reply respond => { h with world := { h.world with respond } }
  | .expire rounds => behind (perform (Timers.settle ev (rounds + 1))) h

/-- The host behind some moves, one after the other. -/
def run (ev : Evaluator) (h : Host) (moves : List Move) : Host := moves.foldl (moved ev) h

/-- The host behind events that a machine is made to process, one after the other. -/
def dispatched (ev : Evaluator) (handle : Nat) (h : Host) (os : List Occurrence) : Host :=
  h.run ev (os.map fun o => .dispatch handle o.event o.payload)

/-- The state of a machine that is there. -/
def state? (h : Host) (handle : Nat) : Option Text := (h.world.machine? handle).map (·.state)

/-- The data of a machine that is there. -/
def data? (h : Host) (handle : Nat) : Option Value :=
  (h.world.machine? handle).bind fun m => h.world.stores[m.store]?

theorem run_concat (ev : Evaluator) (h : Host) (moves : List Move) (move : Move) :
    h.run ev (moves ++ [move]) = (h.run ev moves).moved ev move := by
  unfold run
  rw [List.foldl_append]
  rfl

theorem behind_ok {x : Action α} {a : α} {h' : Host} (hx : x h = .ok a h') : behind x h = h' := by
  unfold behind
  rw [hx]

theorem behind_error {x : Action α} {fault : Fault} {h' : Host} (hx : x h = .error fault h') :
    behind x h = h' := by
  unfold behind
  rw [hx]

theorem behind_perform (x : Eval α) (h : Host) :
    behind (perform x) h = { h with world := x.after h.world } := by
  cases hx : x h.world with
  | ok a w => rw [behind_ok (perform_ok hx), Eval.after_ok hx]
  | error fault w => rw [behind_error (perform_error hx), Eval.after_error hx]

theorem require_some {handle : Nat} {m : Instance} (hm : h.world.machine? handle = some m)
    (activity : Text) : require handle activity h = .ok m h := by
  unfold require
  rw [get_bind, hm]
  rfl

theorem require_none {handle : Nat} (hm : h.world.machine? handle = none) (activity : Text) :
    require handle activity h = .error (.raised (.argument (.unknownInstance activity))) h := by
  unfold require
  rw [get_bind, hm]
  rfl

theorem dispatch_eq (ev : Evaluator) (handle : Nat) (event : Text) (payload : Value) (h : Host)
    {m : Instance} (hm : h.world.machine? handle = some m) :
    dispatch ev handle event payload h
      = perform (Machine.dispatch ev h.services handle event payload) h :=
  Eval.bind_of_ok (require_some hm "dispatch")

theorem behind_dispatch (ev : Evaluator) (handle : Nat) (event : Text) (payload : Value) (h : Host)
    {m : Instance} (hm : h.world.machine? handle = some m) :
    behind (dispatch ev handle event payload) h
      = { h with world := (Machine.dispatch ev h.services handle event payload).after h.world } := by
  rw [← behind_perform]
  unfold behind
  rw [dispatch_eq ev handle event payload h hm]

theorem dispatch_none (ev : Evaluator) (handle : Nat) (event : Text) (payload : Value)
    (hm : h.world.machine? handle = none) : dispatch ev handle event payload h
      = .error (.raised (.argument (.unknownInstance "dispatch"))) h :=
  Eval.bind_of_error (require_none hm "dispatch")

theorem behind_dispatch_none (ev : Evaluator) (handle : Nat) (event : Text) (payload : Value)
    (hm : h.world.machine? handle = none) : behind (dispatch ev handle event payload) h = h :=
  behind_error (dispatch_none ev handle event payload hm)

/-- The host in which there is nothing under a handle. -/
def without (h : Host) (handle : Nat) : Host :=
  { h with
    kept := h.kept.filter fun entry => entry.1 ≠ handle
    world := { h.world with machines := h.world.machines.filter fun m => m.handle ≠ handle } }

theorem behind_destroy (handle : Nat) (h : Host) :
    behind (destroy handle) h = h ∨ behind (destroy handle) h = h.without handle := by
  cases hm : h.world.machine? handle with
  | none => exact .inl (behind_error (Eval.bind_of_error (require_none hm "destroy_instance")))
  | some m => exact .inr (behind_ok (Eval.bind_of_ok (require_some hm "destroy_instance")))

/-- The host behind the creation of a machine. -/
def joined (h : Host) (d : Definition) (config : Table Value) (seed : Value) (log : Log) : Host :=
  h.handedOut d { h.world with
    machines := Machine.fresh h.nextInstance d (.map config) h.world.stores.size h.world.clock ::
      h.world.machines
    stores := h.world.stores.push (.map (Machine.initialData d seed))
    log }

theorem machine?_joined (h : Host) (d : Definition) (config : Table Value) (seed : Value) (log : Log)
    (b : Nat) : (h.joined d config seed log).world.machine? b
      = if b = h.nextInstance then
          some (Machine.fresh h.nextInstance d (.map config) h.world.stores.size h.world.clock)
        else h.world.machine? b := by
  unfold World.machine? joined handedOut
  dsimp only
  rw [List.find?_cons]
  by_cases hb : b = h.nextInstance
  · rw [if_pos hb, show (Machine.fresh h.nextInstance d _ _ _).handle = b from hb.symm, beq_self_eq_true]
  · rw [if_neg hb, show ((Machine.fresh h.nextInstance d _ _ _).handle == b) = false from
      beq_false_of_ne (Ne.symm hb)]

/-- A creation without initial effects succeeds if the machine can be configured. -/
theorem create_of_configure (ev : Evaluator) (h : Host) (definition : Nat) (given seed : Value)
    {d : Definition} {config : Table Value} (hd : h.definitions.lookup definition = some d)
    (hconfig : d.configure given = .ok config) (hinitial : d.initialEffects = []) :
    ∃ log, create ev definition given seed h
      = .ok h.nextInstance (h.joined d config seed log) := by
  let m := Machine.fresh h.nextInstance d (.map config) h.world.stores.size h.world.clock
  let w : World := { h.world with
    machines := m :: h.world.machines
    stores := h.world.stores.push (.map (Machine.initialData d seed)) }
  have hbrought : Machine.create h.nextInstance d given seed h.world.clock h.world = .ok m w := by
    unfold Machine.create
    rw [hconfig]
    rfl
  obtain ⟨log, hnote⟩ :=
    Machine.note_ok h.services m .info "behavior" ("created in state " ++ m.state) w
  have hbegins : Begins definition given seed h (h.joined d config seed log).world :=
    ⟨d, m, w, hd, hbrought, hnote⟩
  have hm : (h.joined d config seed log).world.machine? h.nextInstance = some m := by
    rw [machine?_joined, if_pos rfl]
  have hnone : Machine.runInitialEffects ev h.services h.nextInstance
      (h.joined d config seed log).world = .ok () (h.joined d config seed log).world := by
    have heffects : m.definition.initialEffects.isEmpty = true := List.isEmpty_iff.mpr hinitial
    unfold Machine.runInitialEffects
    rw [Machine.withMachine_some hm, heffects]
    rfl
  refine ⟨log, ?_⟩
  rw [hbegins.create_eq hd ev, hnone]
  rfl

/-- Without initial effects a creation either brings in a new machine or changes nothing. -/
theorem create_joins (ev : Evaluator) (definition : Nat) (given seed : Value) (h : Host)
    (hinitial : ∀ d, h.definitions.lookup definition = some d → d.initialEffects = []) :
    (∃ fault, create ev definition given seed h = .error fault h) ∨
    ∃ d config log, h.definitions.lookup definition = some d ∧ d.configure given = .ok config ∧
      create ev definition given seed h = .ok h.nextInstance (h.joined d config seed log) := by
  rcases begins_or_refused ev definition given seed h with
    ⟨_, d, _, _, hd, hcreated, -⟩ | hrefused
  · obtain ⟨config, hconfig, -⟩ := Machine.create_fresh hcreated
    obtain ⟨log, hjoined⟩ := create_of_configure ev h definition given seed hd hconfig (hinitial d hd)
    exact .inr ⟨d, config, log, hd, hconfig, hjoined⟩
  · exact .inl hrefused

/-- A pass visits machines that are there when it begins. -/
theorem behind_runDueTicks (ev : Evaluator) (now : Int) (h : Host) :
    ∃ order, behind (runDueTicks ev now) h = h.visited ev now order := by
  have hpassed : behind (runDueTicks ev now) h = h.passed ev now h.live := by
    have hget : runDueTicks ev now h = runTicksOf ev now h.live h := get_bind _ h
    unfold behind passed
    rw [hget]
    cases runTicksOf ev now h.live h <;> rfl
  rw [hpassed]
  exact passed_eq_visited ev now h.live h

/-- A new machine, before its initial effects, in a world that is otherwise as it was. -/
theorem Begins.world_eq {definition : Nat} {given seed : Value} {w : World}
    (hb : Begins definition given seed h w) :
    ∃ d config log, h.definitions.lookup definition = some d ∧ d.configure given = .ok config ∧
      w = (h.joined d config seed log).world := by
  obtain ⟨d, m, w₀, hd, hcreated, hnote⟩ := hb
  have hcreate : ∃ config, d.configure given = .ok config ∧
      m = Machine.fresh h.nextInstance d (.map config) h.world.stores.size h.world.clock ∧
      w₀ = { h.world with
        machines := m :: h.world.machines
        stores := h.world.stores.push (.map (Machine.initialData d seed)) } := by
    unfold Machine.create at hcreated
    cases hconfig : d.configure given with
    | error e =>
      rw [hconfig] at hcreated
      cases hcreated
    | ok config =>
      rw [hconfig] at hcreated
      cases hcreated
      exact ⟨config, rfl, rfl, rfl⟩
  obtain ⟨config, hconfig, rfl, rfl⟩ := hcreate
  obtain ⟨log, hnoted⟩ := Machine.note_ok h.services _ .info "behavior" _ _
  cases hnote.symm.trans hnoted
  exact ⟨d, config, log, hd, hconfig, rfl⟩

/-- What creates a machine is a new machine and its initial effects, or nothing. -/
theorem behind_create (ev : Evaluator) (definition : Nat) (given seed : Value) (h : Host) :
    behind (create ev definition given seed) h = h ∨ ∃ d config log,
      h.definitions.lookup definition = some d ∧ d.configure given = .ok config ∧
      behind (create ev definition given seed) h = { h.joined d config seed log with
        world := (Machine.runInitialEffects ev h.services h.nextInstance).after
          (h.joined d config seed log).world } := by
  rcases begins_or_refused ev definition given seed h with ⟨w, hb⟩ | ⟨fault, hrefused⟩
  · obtain ⟨d, config, log, hd, hconfig, rfl⟩ := hb.world_eq
    refine .inr ⟨d, config, log, hd, hconfig, ?_⟩
    have hcreate := hb.create_eq hd ev
    cases hr : Machine.runInitialEffects ev h.services h.nextInstance
        (h.joined d config seed log).world with
    | ok u w' =>
      rw [hr] at hcreate
      rw [behind_ok hcreate, Eval.after_ok hr]
      rfl
    | error fault w' =>
      rw [hr] at hcreate
      rw [behind_error hcreate, Eval.after_error hr]
      rfl
  · exact .inl (behind_error hrefused)

/-- What a move comes to. -/
inductive Stepped (ev : Evaluator) (h : Host) : Move → Host → Prop
  | refused (move : Move) : Stepped ev h move h
  | joins {definition : Nat} {given seed : Value} {d : Definition} {config : Table Value} (log : Log)
      (found : h.definitions.lookup definition = some d)
      (configured : d.configure given = .ok config) :
      Stepped ev h (.create definition given seed) { h.joined d config seed log with
        world := (Machine.runInitialEffects ev h.services h.nextInstance).after
          (h.joined d config seed log).world }
  | leaves (b : Nat) : Stepped ev h (.destroy b) (h.without b)
  | acts {b : Nat} {m : Instance} (event : Text) (payload : Value)
      (present : h.world.machine? b = some m) :
      Stepped ev h (.dispatch b event payload)
        { h with world := (Machine.dispatch ev h.services b event payload).after h.world }
  | passes (now : Int) (order : List Nat) :
      Stepped ev h (.runDueTicks now) (h.visited ev now order)
  | expires (rounds : Nat) : Stepped ev h (.expire rounds)
      { h with world := (Timers.settle ev (rounds + 1)).after h.world }
  | installs (outlets : Outlets) (observer : Option Label) (listens : Bool) :
      Stepped ev h (.install outlets observer listens)
        { h with services := { h.services with outlets, observer, listens } }
  | sets (now : Int) :
      Stepped ev h (.setClock now) { h with world := { h.world with clock := now } }
  | replies (respond : List Call → Except Error Value) :
      Stepped ev h (.reply respond) { h with world := { h.world with respond } }

/-- Nothing else can come of a move. -/
theorem stepped (ev : Evaluator) (h : Host) (move : Move) : Stepped ev h move (h.moved ev move) := by
  have hrefused : Stepped ev h move h := .refused move
  cases move with
  | create definition given seed =>
    rw [moved]
    rcases behind_create ev definition given seed h with
      hsame | ⟨d, config, log, hd, hconfig, hcreated⟩
    · rwa [hsame]
    · rw [hcreated]
      exact .joins log hd hconfig
  | destroy b =>
    rw [moved]
    rcases behind_destroy b h with hsame | hgone
    · rwa [hsame]
    · rw [hgone]
      exact .leaves b
  | dispatch b event payload =>
    rw [moved]
    cases hm : h.world.machine? b with
    | none => rwa [behind_dispatch_none _ _ _ _ hm]
    | some m =>
      rw [behind_dispatch _ _ _ _ _ hm]
      exact .acts event payload hm
  | runDueTicks now =>
    obtain ⟨order, hpass⟩ := behind_runDueTicks ev now h
    rw [moved, hpass]
    exact .passes now order
  | expire rounds =>
    rw [moved, behind_perform]
    exact .expires rounds
  | install outlets observer listens => exact .installs outlets observer listens
  | setClock now => exact .sets now
  | reply respond => exact .replies respond

end Host

/-- All machines are idle, each has data of its own, and a property holds of each with its data. -/
structure World.Populated (P : Definition → Text → Value → Prop) (w : World) : Prop where
  member : ∀ a m, w.machine? a = some m →
    m.Idle ∧ ∃ data, w.stores[m.store]? = some data ∧ P m.definition m.state data
  apart : ∀ a b m m', a ≠ b → w.machine? a = some m → w.machine? b = some m' → m.store ≠ m'.store

namespace World

variable {P : Definition → Text → Value → Prop} {w w' : World} {a : Nat} {m : Instance}

theorem Populated.congr (hw : w.Populated P) (hmachines : w'.machines = w.machines)
    (hstores : w'.stores = w.stores) : w'.Populated P where
  member a m hm := by
    rw [hstores]
    exact hw.member a m ((machine?_congr hmachines a).symm.trans hm)
  apart a b m m' hab hm hm' := hw.apart a b m m' hab ((machine?_congr hmachines a).symm.trans hm)
    ((machine?_congr hmachines b).symm.trans hm')

theorem Populated.of_empty (h : w.machines = []) : w.Populated P := by
  have hnone (a : Nat) : w.machine? a = none := by
    unfold machine?
    rw [h]
    rfl
  constructor
  · intro a m hm
    cases (hnone a).symm.trans hm
  · intro a b m m' _ hm
    cases (hnone a).symm.trans hm

/-- A machine that is there acts from a scene at rest. -/
theorem Populated.stands (hw : w.Populated P) (hm : w.machine? a = some m) (services : Services)
    (calm : Prop) (hcalm : calm → w.Calm) : ∃ data, P m.definition m.state data ∧
      (Actor.mk m services calm).Stands ⟨m.state, false, [], data, w.timing.timers⟩ w := by
  obtain ⟨⟨hbusy, hpending⟩, data, hdata, hP⟩ := hw.member a m hm
  refine ⟨data, hP, ⟨m.stats, m.lastRun, ?_⟩, hdata, rfl, hcalm⟩
  have hcast : (Actor.mk m services calm).cast ⟨m.state, false, [], data, w.timing.timers⟩ m.stats
      m.lastRun = m := by
    unfold Actor.cast
    rw [← hbusy, ← hpending]
  rw [hcast]
  exact (congrArg w.machine? (handle_of_machine? hm)).trans hm

theorem Populated.later {actor : Actor} {s : Scene} (hw : w.Populated P)
    (hm : w.machine? actor.handle = some m) (hstore : m.store = actor.store)
    (hstands : actor.Stands s w') (helsewhere : actor.Elsewhere w w')
    (hs : actor.Rests P s) : w'.Populated P := by
  obtain ⟨hbusy, hqueue, hP⟩ := hs
  obtain ⟨stats, lastRun, hm'⟩ := hstands.machine
  have hother {b : Nat} {m₁ : Instance} (hb : b ≠ actor.handle) (hm₁ : w'.machine? b = some m₁) :
      w.machine? b = some m₁ := (helsewhere.machines b hb).symm.trans hm₁
  have hforeign {b : Nat} {m₁ : Instance} (hb : b ≠ actor.handle)
      (hm₁ : w'.machine? b = some m₁) : m₁.store ≠ actor.store :=
    hstore ▸ hw.apart b actor.handle m₁ m hb (hother hb hm₁) hm
  constructor
  · intro b m₁ hm₁
    by_cases hb : b = actor.handle
    · subst hb
      cases hm'.symm.trans hm₁
      exact ⟨⟨hbusy, hqueue⟩, s.data, hstands.data, hP⟩
    · obtain ⟨hidle, data, hdata, hPdata⟩ := hw.member b m₁ (hother hb hm₁)
      exact ⟨hidle, data, (helsewhere.stores m₁.store (hforeign hb hm₁)).trans hdata, hPdata⟩
  · intro b c m₁ m₂ hbc hm₁ hm₂
    by_cases hb : b = actor.handle
    · subst hb
      cases hm'.symm.trans hm₁
      exact (hforeign hbc.symm hm₂).symm
    · by_cases hc : c = actor.handle
      · subst hc
        cases hm'.symm.trans hm₂
        exact hforeign hb hm₁
      · exact hw.apart b c m₁ m₂ hbc (hother hb hm₁) (hother hc hm₂)

/-- A new machine joins the others with data behind theirs. -/
theorem Populated.create (hw : w.Populated P) {data : Value} (hidle : m.Idle)
    (hstore : m.store = w.stores.size) (hP : P m.definition m.state data)
    (hmachines : w'.machines = m :: w.machines) (hstores : w'.stores = w.stores.push data) :
    w'.Populated P := by
  have hnew {b : Nat} {m₁ : Instance} (hm₁ : w'.machine? b = some m₁) :
      m₁ = m ∧ b = m.handle ∨ b ≠ m.handle ∧ w.machine? b = some m₁ := by
    unfold machine? at hm₁ ⊢
    rw [hmachines, List.find?_cons] at hm₁
    split at hm₁
    next heq => exact .inl ⟨(Option.some.inj hm₁).symm, (beq_iff_eq.mp heq).symm⟩
    next hne => exact .inr ⟨fun hb => by simp [hb] at hne, hm₁⟩
  have hold {b : Nat} {m₁ : Instance} (hm₁ : w.machine? b = some m₁) :
      m₁.store < w.stores.size := by
    obtain ⟨-, data, hdata, -⟩ := hw.member b m₁ hm₁
    exact (Array.getElem?_eq_some_iff.mp hdata).1
  constructor
  · intro b m₁ hm₁
    rcases hnew hm₁ with ⟨rfl, -⟩ | ⟨-, hm₁⟩
    · refine ⟨hidle, data, ?_, hP⟩
      rw [hstores, hstore, Array.getElem?_push_size]
    · obtain ⟨hidle, data, hdata, hPdata⟩ := hw.member b m₁ hm₁
      refine ⟨hidle, data, ?_, hPdata⟩
      rw [hstores, Array.getElem?_push_lt (hold hm₁)]
      rwa [Array.getElem?_eq_getElem (hold hm₁)] at hdata
  · intro b c m₁ m₂ hbc hm₁ hm₂
    rcases hnew hm₁ with ⟨rfl, rfl⟩ | ⟨-, hm₁⟩ <;> rcases hnew hm₂ with ⟨rfl, rfl⟩ | ⟨-, hm₂⟩
    · exact absurd rfl hbc
    · exact hstore ▸ (hold hm₂).ne'
    · exact hstore ▸ (hold hm₁).ne
    · exact hw.apart b c m₁ m₂ hbc hm₁ hm₂

theorem machine?_filter {handle : Nat}
    (h : w'.machines = w.machines.filter fun m => m.handle ≠ handle) (a : Nat) :
    w'.machine? a = if a = handle then none else w.machine? a := by
  unfold machine?
  rw [h, List.find?_filter]
  split
  next ha =>
    subst ha
    simp
  next ha =>
    congr 1
    funext m
    by_cases hm : m.handle = a
    · simp [hm, ha]
    · simp [hm]

theorem machine?_of_filter {handle : Nat}
    (h : w'.machines = w.machines.filter fun m => m.handle ≠ handle) {a : Nat} {m : Instance}
    (hm : w'.machine? a = some m) : w.machine? a = some m := by
  rw [machine?_filter h] at hm
  split at hm
  · cases hm
  · exact hm

theorem Populated.destroy (hw : w.Populated P) {handle : Nat}
    (hmachines : w'.machines = w.machines.filter fun m => m.handle ≠ handle)
    (hstores : w'.stores = w.stores) : w'.Populated P := by
  have hold {b : Nat} {m₁ : Instance} (hm₁ : w'.machine? b = some m₁) :
      w.machine? b = some m₁ := machine?_of_filter hmachines hm₁
  constructor
  · intro b m₁ hm₁
    rw [hstores]
    exact hw.member b m₁ (hold hm₁)
  · intro b c m₁ m₂ hbc hm₁ hm₂
    exact hw.apart b c m₁ m₂ hbc (hold hm₁) (hold hm₂)

end World

namespace Host

section single

variable {actor : Actor} {s : Scene} {h : Host} {ev : Evaluator}

theorem state?_of_stands (hw : actor.Stands s h.world) : h.state? actor.handle = some s.state := by
  obtain ⟨stats, lastRun, hm⟩ := hw.machine
  unfold state?
  rw [hm]
  rfl

theorem data?_of_stands (hw : actor.Stands s h.world) : h.data? actor.handle = some s.data := by
  obtain ⟨stats, lastRun, hm⟩ := hw.machine
  unfold data?
  rw [hm]
  exact hw.data

/-- Behind a creation that succeeds a new machine has joined, if it has no initial effects. -/
theorem create_joined {h₁ : Host} {definition a : Nat} {given seed : Value} {d : Definition}
    (hd : h.definitions.lookup definition = some d) (hinitial : d.initialEffects = [])
    (hcreate : create ev definition given seed h = .ok a h₁) :
    ∃ config log, d.configure given = .ok config ∧ a = h.nextInstance ∧
      h₁ = h.joined d config seed log := by
  rcases create_joins ev definition given seed h
      (fun d' hd' => Option.some.inj (hd.symm.trans hd') ▸ hinitial) with
    ⟨fault, hrefused⟩ | ⟨d', config, log, hd', hconfig, hcreated⟩
  · cases hcreate.symm.trans hrefused
  · cases hd.symm.trans hd'
    cases hcreate.symm.trans hcreated
    exact ⟨config, log, hconfig, rfl, rfl⟩

theorem joined_stands (h : Host) (d : Definition) (config : Table Value) (seed : Value) (log : Log)
    {calm : Prop} (hcalm : calm → h.world.Calm) :
    (Actor.mk (Machine.fresh h.nextInstance d (.map config) h.world.stores.size h.world.clock)
      h.services calm).Stands
      ⟨d.initial, false, [], .map (Machine.initialData d seed), h.world.timing.timers⟩
      (h.joined d config seed log).world := by
  refine ⟨⟨{}, d.ticks.map fun _ => h.world.clock, ?_⟩, ?_, rfl, hcalm⟩
  · exact (machine?_joined h d config seed log h.nextInstance).trans (if_pos rfl)
  · show (h.world.stores.push _)[h.world.stores.size]? = _
    rw [Array.getElem?_push_size]

/-- A new machine acts from its initial state, with its own data. -/
theorem create_stands {h₁ : Host} {definition a : Nat} {given seed : Value} {d : Definition}
    (hd : h.definitions.lookup definition = some d) (hinitial : d.initialEffects = [])
    (hcreate : create ev definition given seed h = .ok a h₁) :
    ∃ config store now, d.configure given = .ok config ∧ ∀ calm : Prop, (calm → h.world.Calm) →
      (Actor.mk (Machine.fresh a d (.map config) store now) h₁.services calm).Stands
        ⟨d.initial, false, [], .map (Machine.initialData d seed), h.world.timing.timers⟩
        h₁.world := by
  obtain ⟨config, log, hconfig, rfl, rfl⟩ := create_joined hd hinitial hcreate
  exact ⟨config, h.world.stores.size, h.world.clock, hconfig,
    fun _ => joined_stands h d config seed log⟩

/-- What a machine does to its scene as it processes an event, it does in a host. -/
theorem dispatch_stands {event : Text} {payload : Value} {I : Scene → Prop}
    (hservices : actor.services = h.services) (hw : actor.Stands s h.world)
    (hx : actor.Does (Machine.dispatch ev actor.services actor.handle event payload) s
      (fun _ => I) I) :
    ∃ s', actor.Stands s' (h.moved ev (.dispatch actor.handle event payload)).world ∧ I s' ∧
      actor.services = (h.moved ev (.dispatch actor.handle event payload)).services := by
  obtain ⟨stats, lastRun, hm⟩ := hw.machine
  obtain ⟨s', hstands, -, hs'⟩ := (hx _ hw).after
  rw [Host.moved, behind_dispatch _ _ _ _ _ hm, ← hservices]
  exact ⟨s', hstands, hs', rfl⟩

/-- What a machine does to its scene as it processes an event, by whether that succeeds. -/
theorem dispatch_ends {event : Text} {payload : Value} {Q : Dispatched → Scene → Prop}
    {E : Scene → Prop} (hservices : actor.services = h.services) (hw : actor.Stands s h.world)
    (hx : actor.Does (Machine.dispatch ev actor.services actor.handle event payload) s Q E) :
    (∃ d h' s', dispatch ev actor.handle event payload h = .ok d h' ∧ actor.Stands s' h'.world ∧
      actor.services = h'.services ∧ Q d s') ∨
    ∃ fault h' s', dispatch ev actor.handle event payload h = .error fault h' ∧
      actor.Stands s' h'.world ∧ actor.services = h'.services ∧ E s' := by
  obtain ⟨stats, lastRun, hm⟩ := hw.machine
  have hend := hx _ hw
  rw [dispatch_eq ev actor.handle event payload h hm, ← hservices]
  cases hr : Machine.dispatch ev actor.services actor.handle event payload h.world with
  | ok d w =>
    rw [hr] at hend
    cases hend with
    | done stands _ hQ => exact .inl ⟨d, _, _, perform_ok hr, stands, hservices, hQ⟩
  | error fault w =>
    rw [hr] at hend
    cases hend with
    | failed _ stands _ hE => exact .inr ⟨_, _, _, perform_error hr, stands, hservices, hE⟩

/-- What a machine emits as it processes an event, it emits in a host. -/
theorem dispatch_voices {event : Text} {payload : Value}
    {Q : Dispatched → Scene → List Occurrence → Prop} (hservices : actor.services = h.services)
    (hw : actor.Stands s h.world)
    (hx : actor.Voices (Machine.dispatch ev actor.services actor.handle event payload) s Q) :
    ∃ d h' s' os, dispatch ev actor.handle event payload h = .ok d h' ∧
      actor.Stands s' h'.world ∧ actor.services = h'.services ∧
      h.world.Utters actor.handle os h'.world ∧ Q d s' os := by
  obtain ⟨stats, lastRun, hm⟩ := hw.machine
  obtain ⟨d, s', w', os, hr, hw', -, hos, hQ⟩ := hx _ hw
  rw [hservices] at hr
  exact ⟨d, { h with world := w' }, s', os,
    (dispatch_eq ev actor.handle event payload h hm).trans (perform_ok hr), hw', hservices, hos, hQ⟩

/-- By induction over the events: a property of the host lasts as long as none of them is out of
place, if that decides it for each of them. -/
theorem throughout_iff {handle : Nat} {P R : Host → Prop} {O : Host → Occurrence → Prop}
    {os : List Occurrence} (hstep : ∀ h, ∀ o ∈ os, R h → P h →
      R (h.moved ev (.dispatch handle o.event o.payload)) ∧
        (P (h.moved ev (.dispatch handle o.event o.payload)) ↔ ¬O h o)) (hR : R h) (hP : P h) :
    (∀ before, before <+: os → P (h.dispatched ev handle before)) ↔
      ∀ before o, before ++ [o] <+: os → ¬O (h.dispatched ev handle before) o := by
  induction os generalizing h with
  | nil =>
    simp only [List.prefix_nil, List.append_eq_nil_iff, List.cons_ne_nil, and_false, forall_eq]
    exact iff_of_true hP fun _ _ hfalse => hfalse.elim
  | cons o rest ih =>
    rw [forall_comm] at hstep
    obtain ⟨hR', hP'⟩ := hstep o h List.mem_cons_self hR hP
    by_cases hO : O h o
    · refine iff_of_false (fun hall => ?_) fun hnone => ?_
      · exact hP'.mp (hall [o] (List.prefix_append [o] rest)) hO
      · exact hnone [] o (List.prefix_append [o] rest) hO
    · have hlater := ih (fun h o ho => hstep o h (List.mem_cons_of_mem _ ho)) hR' (hP'.mpr hO)
      constructor
      · intro hall before o' hprefix
        cases before with
        | nil =>
          obtain ⟨rfl, -⟩ := List.cons_prefix_cons.mp hprefix
          exact hO
        | cons first before =>
          obtain ⟨rfl, hrest⟩ := List.cons_prefix_cons.mp hprefix
          exact hlater.mp (fun before hbefore =>
            hall (first :: before) (List.cons_prefix_cons.mpr ⟨rfl, hbefore⟩)) before o' hrest
      · intro hnone before hprefix
        cases before with
        | nil => exact hP
        | cons first before =>
          obtain ⟨rfl, hrest⟩ := List.cons_prefix_cons.mp hprefix
          exact hlater.mpr (fun before o' hbefore =>
            hnone (first :: before) o' (List.cons_prefix_cons.mpr ⟨rfl, hbefore⟩)) before hrest

end single

end Host
end EntityMachines
