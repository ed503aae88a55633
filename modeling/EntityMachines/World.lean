import EntityMachines.Async.Timing
import EntityMachines.Context
import EntityMachines.Error
import EntityMachines.Machine.Definition

/-!
The state of everything that evaluation can reach, and the monad of computations on it.

The surrounding program is a function from the calls it has received so far to its reply to the
last of them. A computation that fails leaves the state it has reached.
-/
namespace EntityMachines

/-- A call of a handler of the surrounding program. -/
inductive Request where
  | set (changes : Table Value)
  | emit (event : Text) (payload : Value)
  | navigate (route : Text) (params : Value)
  | persist (action : Text) (data : Value)
  | notify (message severity : Text)
  | spawn (type : Text) (props : Value)
  | despawn (id : Value)
  | callService (service method : Text) (params : Value)
  | renderUi (slot : Text) (pattern props priority : Value)
  /-- A machine's listener hears an event. -/
  | heard (machine : Nat) (event : Text) (payload : Value)

/-- The name of the effect that a call serves. -/
def Request.name : Request → Text
  | set _ => "set"
  | emit _ _ | heard _ _ _ => "emit"
  | navigate _ _ => "navigate"
  | persist _ _ => "persist"
  | notify _ _ => "notify"
  | spawn _ _ => "spawn"
  | despawn _ => "despawn"
  | callService _ _ _ => "call-service"
  | renderUi _ _ _ _ => "render-ui"

structure Call where
  label : Label
  request : Request

structure Stats where
  events : Nat := 0
  transitions : Nat := 0
  guardRejections : Nat := 0
  guardErrors : Nat := 0
  unmatchedEvents : Nat := 0
  ticksRun : Nat := 0
  ticksSkipped : Nat := 0
deriving DecidableEq, Repr

structure Occurrence where
  event : Text
  payload : Value

/-- What becomes of an event that is emitted to a machine. -/
inductive Fate where
  /-- The definition does not declare the event. -/
  | undeclared
  /-- The event waits for its turn in the transaction that runs. -/
  | queued
  /-- The queue is full. -/
  | refused
  /-- No transaction runs, and the event gets one of its own. -/
  | dispatched
deriving DecidableEq, Repr

inductive Deed where
  | emitted (o : Occurrence) (fate : Fate)
  | processed (o : Occurrence)
  /-- A queued event is given up at the end of a transaction. -/
  | dropped (o : Occurrence)
  /-- A guard fails and counts as one that says no. -/
  | guardFailed (place : Text) (e : Error)

/-- The warning that goes with a deed, if there is one. -/
def Deed.warning? : Deed → Option Text
  | emitted o .refused => some ("queued event " ++ o.event ++ " dropped: queue full")
  | dropped o => some ("queued event " ++ o.event ++ " dropped: limit reached")
  | guardFailed place e => some (place ++ ": guard failed, treated as false: " ++ e.message)
  | _ => none

/-- An entry of the history. -/
inductive Incident where
  /-- A machine, known by its handle and its label in the log, does something. -/
  | deed (machine : Nat) (label : Text) (services : Services) (deed : Deed)
  /-- A closure is called that brings handlers of its own. -/
  | call (handlers : Handlers)
  /-- Changes are applied to a store. -/
  | write (store : StoreRef) (changes : Table Value)

/-- The live state of a behavior that is applied to an entity. -/
structure Instance where
  definition : Definition
  handle : Nat
  store : StoreRef
  state : Text
  config : Value
  singletons : Table Value
  user : Value := .undefined
  /-- A transaction runs, and declared events that are emitted wait for their turn. -/
  busy : Bool := false
  pending : List Occurrence := []
  /-- When each tick ran last, in the order of the definition. -/
  lastRun : List Int := []
  stats : Stats := {}

/-- What a debounce timer does: it emits an event through the handlers of its context. -/
structure DelayedEmit where
  event : Text
  handlers : Handlers

structure World where
  stores : Array Value := #[]
  closures : Array Closure := #[]
  machines : List Instance := []
  /-- The calls of handlers, the latest first. -/
  calls : List Call := []
  /-- What has happened, the latest first. Nothing that runs looks at it. -/
  history : List Incident := []
  respond : List Call → Except Error Value := fun _ => .ok .undefined
  /-- Milliseconds since the epoch on the clock that machines go by. -/
  clock : Int := 0
  /-- The log of the machines. -/
  log : Log := Log.empty 4096
  timing : Timing DelayedEmit := Timing.empty 1024
  random : UInt64 := 0
  /-- Milliseconds that the computation has waited. -/
  elapsed : Nat := 0
  /-- A computation is given up when it would wait beyond this. -/
  deadline : Option Nat := none

/-- The calls that were made since an earlier state, in order. -/
def World.callsSince (w before : World) : List Call :=
  (w.calls.take (w.calls.length - before.calls.length)).reverse

/-- What has happened since an earlier state, in order. -/
def World.incidentsSince (w before : World) : List Incident :=
  (w.history.take (w.history.length - before.history.length)).reverse

inductive Fault where
  | raised (e : Error)
  /-- The computation was given up while it waited. -/
  | abandoned
  /-- The computation did not end within its fuel. -/
  | exhausted

abbrev Eval := EStateM Fault World

namespace Eval

def raise {α : Type} (e : Error) : Eval α := throw (.raised e)

def ofExcept {α : Type} : Except Error α → Eval α
  | .ok a => pure a
  | .error e => raise e

/-- Runs a computation and hands over its error, if it fails with one that has a message. -/
def attempt {α : Type} (x : Eval α) : Eval (Except Error α) := fun w =>
  match x w with
  | .ok a w => .ok (.ok a) w
  | .error (.raised .unnamed) w => .error (.raised .unnamed) w
  | .error (.raised e) w => .ok (.error e) w
  | .error fault w => .error fault w

/-- Runs a computation and hands over how it ended; nothing if it was given up. -/
def settle {α : Type} (x : Eval α) : Eval (Option (Except Error α)) := fun w =>
  match x w with
  | .ok a w => .ok (some (.ok a)) w
  | .error (.raised e) w => .ok (some (.error e)) w
  | .error .abandoned w => .ok none w
  | .error .exhausted w => .error .exhausted w

/-- Runs a computation and then, whether it failed or not, changes the state. -/
def andFinally {α : Type} (x : Eval α) (f : World → World) : Eval α := fun w =>
  match x w with
  | .ok a w => .ok a (f w)
  | .error fault w => .error fault (f w)

/-- Makes a call and takes the reply. -/
def call (label : Label) (request : Request) : Eval Value := do
  modify fun w => { w with calls := ⟨label, request⟩ :: w.calls }
  let w ← get
  ofExcept (w.respond w.calls)

def snapshot (store : StoreRef) : Eval Value :=
  return (← get).stores.getD store (.map [])

def modifyStore (store : StoreRef) (f : Value → Value) : Eval Unit :=
  modify fun w => { w with stores := w.stores.modify store f }

/-- Applies changes to a store and keeps them in the history. -/
def writeStore (store : StoreRef) (changes : Table Value) : Eval Unit := do
  modifyStore store fun data => data.applyChanges changes
  modify fun w => { w with history := .write store changes :: w.history }

/-- A new store; anything but a map leaves it empty. -/
def newStore (data : Value) : Eval StoreRef := do
  let w ← get
  set { w with stores := w.stores.push data.orEmptyMap }
  return w.stores.size

def newClosure (c : Closure) : Eval Value := do
  let w ← get
  set { w with closures := w.closures.push c }
  return .closure w.closures.size

/-- Writes into the log of asynchronous and effect operators. -/
def note (level : Log.Level) (category message : Text) : Eval Unit :=
  modify fun w => { w with timing := w.timing.write level category message }

/-- Waits. A computation that would wait beyond its deadline is given up at the deadline. -/
def wait (ms : Nat) : Eval Unit := do
  let w ← get
  match w.deadline with
  | some deadline =>
    if deadline < w.elapsed + ms then throw .abandoned
    else set { w with elapsed := w.elapsed + ms }
  | none => set { w with elapsed := w.elapsed + ms }

/-- Runs a computation up to a time. There is no outcome if it would wait longer; a stricter
deadline around it stays in force. -/
def within {α : Type} (limit : Nat) (x : Eval α) : Eval (Option α) := fun w =>
  let outer := w.deadline
  let strict := outer.any (· < limit)
  match x { w with deadline := if strict then outer else some limit } with
  | .ok a w => .ok (some a) { w with deadline := outer }
  | .error .abandoned w =>
    if strict then .error .abandoned { w with deadline := outer }
    else .ok none { w with deadline := outer, elapsed := limit }
  | .error fault w => .error fault { w with deadline := outer }

/-- Puts the time waited so far to a given one. -/
def setElapsed (ms : Nat) : Eval Unit := modify fun w => { w with elapsed := ms }

/-- The time at which a computation ends, if it does. -/
def finishTime {α : Type} (x : Eval α) : Eval (Option Nat) := fun w =>
  match x w with
  | .ok _ done | .error (.raised _) done => .ok (some done.elapsed) w
  | .error .abandoned _ => .ok none w
  | .error .exhausted _ => .error .exhausted w

end Eval

/-- The two ways in which an operator reaches back: it has expressions evaluated, and it has
events delivered to machines. -/
structure Evaluator where
  evaluate : Value → Context → Eval Value
  deliver : Nat → Services → Text → Value → Eval Unit

/-- An operator takes its arguments unevaluated. -/
abbrev Operator := Evaluator → Context → List Value → Eval Value

namespace Evaluator

def invokeClosure (ev : Evaluator) (c : Closure) (args : List Value) : Eval Value := do
  if c.captured.handlers ≠ {} then
    modify fun w => { w with history := .call c.captured.handlers :: w.history }
  ev.evaluate c.body (c.captured.child (c.parameters.bind args))

/-- Calls the closure that a value stands for. -/
def invoke (ev : Evaluator) (f : Value) (args : List Value) : Eval Value := do
  match f with
  | .closure id =>
    match (← get).closures[id]? with
    | some c => ev.invokeClosure c args
    | none => Eval.raise (.type (.notInvocable .closure))
  | _ => Eval.raise (.type (.notInvocable f.kind))

def evaluateAll (ev : Evaluator) (ctx : Context) (args : List Value) : Eval (List Value) :=
  args.mapM fun arg => ev.evaluate arg ctx

end Evaluator

namespace Context

/-- The value that a binding reads. Local names come first; the state and the time have no
parts, and what nothing is known of is undefined. -/
def resolve (ctx : Context) (b : Binding) : Eval Value := do
  match ctx.locals.find? b.root with
  | some v => return v.getIn b.path
  | none =>
    if b.root = "entity" then
      match ctx.store with
      | some store => return (← Eval.snapshot store).getIn b.path
      | none => return .undefined
    else if b.root = "payload" then return ctx.payload.getIn b.path
    else if b.root = "state" then return .string ctx.state
    else if b.root = "now" then return Value.ofInt ctx.now
    else if b.root = "user" then return ctx.user.getIn b.path
    else return ((ctx.singletons.find? b.root).getD .undefined).getIn b.path

def resolveText (ctx : Context) (text : Text) : Eval Value :=
  match Binding.ofText? text with
  | some b => ctx.resolve b
  | none => return .undefined

end Context

end EntityMachines
