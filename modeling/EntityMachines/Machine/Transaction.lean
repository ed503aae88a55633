import EntityMachines.Eval.Arguments

/-!
Transactions of machines. An event is processed by the first transition that matches it, leaves
from the present state and is not denied by its guard; the effects of the transition run before
the state changes. Declared events that are emitted meanwhile are queued and processed, in
order, before the transaction ends. Ticks and initial effects run in transactions of their own.
-/
namespace EntityMachines

/-- How a machine took an event. -/
structure Dispatched where
  fromState : Text
  toState : Text
  /-- The transition that was taken. -/
  transition : Option Nat := none
  /-- A guard has said no. -/
  guardRejected : Bool := false
  effectsRun : Nat := 0
deriving DecidableEq, Repr

namespace Instance

def label (m : Instance) : Text := m.definition.name ++ "#" ++ Text.ofNat m.handle

/-- The context in which expressions of a machine are evaluated; effects need handlers
besides. -/
def context (m : Instance) (payload : Value) (now : Int) : Context where
  store := some m.store
  payload
  state := m.state
  now
  user := m.user
  singletons := m.singletons

/-- Changes go to the machine's store, events to the machine, and all else to the surrounding
program. -/
def handlers (m : Instance) (services : Services) : Handlers :=
  { services.outlets with
    mutate := some ⟨m.store, services.observer⟩
    emit := some (.machine m.handle services) }

/-- What becomes of an event that is emitted now. -/
def fate (m : Instance) (services : Services) (event : Text) : Fate :=
  if !m.definition.hasEvent event then .undeclared
  else if !m.busy then .dispatched
  else if services.maxQueued ≤ m.pending.length then .refused
  else .queued

end Instance

namespace World

def machine? (w : World) (handle : Nat) : Option Instance :=
  w.machines.find? fun m => m.handle == handle

def mapMachine (w : World) (handle : Nat) (f : Instance → Instance) : World :=
  { w with machines := w.machines.map fun m => if m.handle = handle then f m else m }

end World

namespace Machine

/-- Runs a computation on a machine; a machine that is gone does nothing. -/
def withMachine {α : Type} (handle : Nat) (default : α) (f : Instance → Eval α) : Eval α := do
  match (← get).machine? handle with
  | some m => f m
  | none => return default

def update (handle : Nat) (f : Instance → Instance) : Eval Unit :=
  modify fun w => w.mapMachine handle f

def count (handle : Nat) (f : Stats → Stats) : Eval Unit :=
  update handle fun m => { m with stats := f m.stats }

/-- Writes into the log of the machines, if there is one. -/
def note (services : Services) (m : Instance) (level : Log.Level) (category message : Text) :
    Eval Unit := do
  if services.logs then
    modify fun w => { w with log := w.log.write level category m.label message 0 }

/-- Keeps a deed of a machine in the history, and writes the warning that goes with it. -/
def record (services : Services) (m : Instance) (deed : Deed) : Eval Unit := do
  modify fun w => { w with history := .deed m.handle m.label services deed :: w.history }
  if let some message := deed.warning? then note services m .warn "behavior" message

/-- Whether a guard says yes. By policy, a guard that fails says no. -/
def guardHolds (ev : Evaluator) (services : Services) (m : Instance) (guard : Value)
    (ctx : Context) (place : Text) : Eval Bool := do
  match ← Eval.attempt (ev.evaluate guard ctx) with
  | .ok v => return v.isTruthy
  | .error e =>
    count m.handle fun s => { s with guardErrors := s.guardErrors + 1 }
    match services.guardPolicy with
    | .propagate => Eval.raise e
    | .treatAsFalse =>
      record services m (.guardFailed place e)
      return false

/-- Whether a guard, if there is one, says yes. -/
def permits (ev : Evaluator) (services : Services) (m : Instance) (guard : Option Value)
    (ctx : Context) (place : Text) : Eval Bool :=
  match guard with
  | some guard => guardHolds ev services m guard ctx place
  | none => return true

/-- Runs effects in order and counts them. The first failure is logged and ends the run. -/
def runEffects (ev : Evaluator) (services : Services) (m : Instance) (ctx : Context)
    (place : Text) : Nat → List Value → Eval Nat
  | ran, [] => return ran
  | ran, effect :: rest => do
    match ← Eval.attempt (ev.evaluate effect ctx) with
    | .ok _ => runEffects ev services m ctx place (ran + 1) rest
    | .error e =>
      note services m .error "behavior"
        (place ++ ": effect " ++ Text.ofNat (ran + 1) ++ " failed: " ++ e.message)
      Eval.raise e

/-- Takes a transition: runs its effects, then moves to its target. -/
def take (ev : Evaluator) (services : Services) (m : Instance) (ctx : Context) (event : Text)
    (index : Nat) (t : Transition) (rejected : Bool) : Eval Dispatched := do
  let place := event ++ " transition " ++ Text.ofNat index
  let effectContext := { ctx with handlers := m.handlers services }
  let ran ← runEffects ev services m effectContext place 0 t.effects
  let target := t.target.getD m.state
  update m.handle fun m => { m with state := target }
  count m.handle fun s => { s with transitions := s.transitions + 1 }
  note services m .debug "behavior" (event ++ ": " ++ m.state ++ " -> " ++ target)
  return ⟨m.state, target, some index, rejected, ran⟩

/-- Tries transitions in order. -/
def tryTransitions (ev : Evaluator) (services : Services) (m : Instance) (ctx : Context)
    (event : Text) (rejected : Bool) : Nat → List Transition → Eval Dispatched
  | _, [] => do
    if !rejected then
      count m.handle fun s => { s with unmatchedEvents := s.unmatchedEvents + 1 }
      note services m .debug "behavior" (event ++ ": no transition from " ++ m.state)
    return { fromState := m.state, toState := m.state, guardRejected := rejected }
  | index, t :: rest => do
    if t.event ≠ event ∨ !t.sources.accepts m.state then
      tryTransitions ev services m ctx event rejected (index + 1) rest
    else
      let place := event ++ " transition " ++ Text.ofNat index
      if ← permits ev services m t.guard ctx place then
        take ev services m ctx event index t rejected
      else
        count m.handle fun s => { s with guardRejections := s.guardRejections + 1 }
        tryTransitions ev services m ctx event true (index + 1) rest

/-- Has a machine answer an event. -/
def react (ev : Evaluator) (services : Services) (m : Instance) (event : Text) (payload : Value) :
    Eval Dispatched := do
  count m.handle fun s => { s with events := s.events + 1 }
  let ctx := m.context payload (← get).clock
  tryTransitions ev services m ctx event false 0 m.definition.transitions

/-- Processes one event. -/
def process (ev : Evaluator) (services : Services) (handle : Nat) (event : Text) (payload : Value) :
    Eval Dispatched :=
  withMachine handle ⟨[], [], none, false, 0⟩ fun m => do
    record services m (.processed ⟨event, payload⟩)
    react ev services m event payload

/-- Takes the first event off the queue. An empty queue closes the transaction to further
events. -/
def nextPending (handle : Nat) : Eval (Option Occurrence) :=
  withMachine handle none fun m => do
    match m.pending with
    | [] =>
      update handle fun m => { m with busy := false }
      return none
    | o :: rest =>
      update handle fun m => { m with pending := rest }
      return some o

/-- Drops all queued events, each with a warning. -/
def dropPending (services : Services) (m : Instance) : List Occurrence → Eval Unit
  | [] => update m.handle fun m => { m with busy := false, pending := [] }
  | o :: rest => do
    record services m (.dropped o)
    dropPending services m rest

/-- Processes queued events, also those that come in meanwhile, but no more than a number of
them. -/
def drain (ev : Evaluator) (services : Services) (handle : Nat) : Nat → Eval Unit
  | 0 => withMachine handle () fun m => dropPending services m m.pending
  | left + 1 => do
    match ← nextPending handle with
    | none => return ()
    | some o =>
      let _ ← process ev services handle o.event o.payload
      drain ev services handle left

/-- Runs a computation as a transaction of a machine. However it ends, the machine is idle
afterwards and its queue empty. -/
def transaction {α : Type} (handle : Nat) (x : Eval α) : Eval α := do
  update handle fun m => { m with busy := true }
  Eval.andFinally x fun w => w.mapMachine handle fun m => { m with busy := false, pending := [] }

/-- Processes an event and then every declared event that its effects emit. -/
def dispatch (ev : Evaluator) (services : Services) (handle : Nat) (event : Text)
    (payload : Value) : Eval Dispatched :=
  transaction handle do
    let first ← process ev services handle event payload
    drain ev services handle services.maxQueued
    return first

/-- Tells the listener of an event, if there is one. -/
def announce (services : Services) (m : Instance) (o : Occurrence) (fate : Fate) : Eval Unit := do
  if services.listens then
    let _ ← Eval.call [] (.heard m.handle o.event o.payload)
  record services m (.emitted o fate)

/-- Delivers an emitted event. The listener hears every event. A declared one is queued while a
transaction runs, if there is room, and is dispatched on its own otherwise. -/
def deliver (ev : Evaluator) (handle : Nat) (services : Services) (event : Text) (payload : Value) :
    Eval Unit :=
  withMachine handle () fun m => do
    let fate := m.fate services event
    announce services m ⟨event, payload⟩ fate
    match fate with
    | .undeclared | .refused => return ()
    | .queued => update handle fun m => { m with pending := m.pending ++ [⟨event, payload⟩] }
    | .dispatched =>
      let _ ← dispatch ev services handle event payload

/-- The milliseconds between runs of a tick, if it runs at all. -/
def interval (services : Services) (m : Instance) (tick : Tick) : Eval (Option Int) := do
  match tick.interval with
  | .frame => return some services.frameInterval
  | .fixed ms => return some (Double.toInt ms)
  | .config key =>
    let ms := (m.config.get key).toNumber
    if ms > 0.0 then return some (Double.toInt ms)
    else
      note services m .debug "tick"
        (tick.name ++ ": interval @config." ++ key ++ " is not positive, skipped")
      return none

/-- The ticks with their places, higher priorities first and otherwise as declared. -/
def tickOrder (d : Definition) : List (Nat × Tick) :=
  (d.ticks.zipIdx.map fun (tick, i) => (i, tick)).mergeSort fun a b =>
    !(b.2.priority > a.2.priority)

def skipTick (handle : Nat) : Eval Unit :=
  count handle fun s => { s with ticksSkipped := s.ticksSkipped + 1 }

/-- Runs the effects of a tick and notes the time. -/
def performTick (ev : Evaluator) (services : Services) (m : Instance) (ctx : Context) (index : Nat)
    (tick : Tick) : Eval Bool := do
  let _ ← runEffects ev services m { ctx with handlers := m.handlers services }
    ("tick " ++ tick.name) 0 tick.effects
  update m.handle fun m => { m with lastRun := m.lastRun.set index ctx.now }
  count m.handle fun s => { s with ticksRun := s.ticksRun + 1 }
  return true

/-- Runs a tick if it is due, applies in the present state and is not denied. -/
def runTick (ev : Evaluator) (services : Services) (handle : Nat) (now : Int) (index : Nat)
    (tick : Tick) : Eval Bool :=
  withMachine handle false fun m => do
    match ← interval services m tick with
    | none => return false
    | some interval =>
      if now - m.lastRun.getD index now < interval then return false
      else if !tick.appliesIn m.state then
        skipTick handle
        return false
      else
        let ctx := m.context (.map []) now
        if ← permits ev services m tick.guard ctx ("tick " ++ tick.name) then
          performTick ev services m ctx index tick
        else
          skipTick handle
          return false

def runTicks (ev : Evaluator) (services : Services) (handle : Nat) (now : Int) :
    List (Nat × Tick) → Eval Nat
  | [] => return 0
  | (index, tick) :: rest => do
    let ran ← runTick ev services handle now index tick
    let others ← runTicks ev services handle now rest
    return if ran then others + 1 else others

/-- Runs all due ticks and then the events that they emitted; tells how many ticks ran. -/
def runDueTicks (ev : Evaluator) (services : Services) (handle : Nat) (now : Int) : Eval Nat :=
  withMachine handle 0 fun m => do
    if m.definition.ticks.isEmpty then return 0
    transaction handle do
      if m.lastRun.length ≠ m.definition.ticks.length then
        update handle fun m => { m with lastRun := m.definition.ticks.map fun _ => now }
      let ran ← runTicks ev services handle now (tickOrder m.definition)
      drain ev services handle services.maxQueued
      return ran

def runInitialEffects (ev : Evaluator) (services : Services) (handle : Nat) : Eval Unit :=
  withMachine handle () fun m => do
    if m.definition.initialEffects.isEmpty then return ()
    transaction handle do
      let ctx := m.context (.map []) (← get).clock
      let _ ← runEffects ev services m { ctx with handlers := m.handlers services }
        "initial effects" 0 m.definition.initialEffects
      drain ev services handle services.maxQueued

end Machine
end EntityMachines
