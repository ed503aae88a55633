import EntityMachines.Machine.Creation
import EntityMachines.Machine.Report
import EntityMachines.Machine.Transaction

/-!
A host owns definitions and machines under handles that count up and are never given out twice,
and connects the machines to the surrounding program. The machine created last is served first.
-/
namespace EntityMachines

structure Host where
  definitions : List (Nat × Definition) := []
  nextDefinition : Nat := 1
  nextInstance : Nat := 1
  /-- Each machine's definition, kept for as long as the machine is there. -/
  kept : List (Nat × Definition) := []
  services : Services := { logs := true }
  world : World := {}

namespace Host

/-- What is done to a host. One that fails leaves the host as far as it has come. -/
abbrev Action := EStateM Fault Host

def perform {α : Type} (x : Eval α) : Action α := fun h =>
  match x h.world with
  | .ok a w => .ok a { h with world := w }
  | .error fault w => .error fault { h with world := w }

def refuse {α : Type} (fault : ArgumentFault) : Action α := throw (.raised (.argument fault))

/-- The machine under a handle, for an activity that needs one. -/
def require (handle : Nat) (activity : Text) : Action Instance := do
  match (← get).world.machine? handle with
  | some m => return m
  | none => refuse (.unknownInstance activity)

def requireDefinition (handle : Nat) (activity : Text) : Action Definition := do
  match (← get).definitions.lookup handle with
  | some d => return d
  | none => refuse (.unknownDefinition activity)

/-- Keeps a definition under the next handle. -/
def storeDefinition (d : Definition) : Action Nat := do
  let h ← get
  set { h with
    definitions := (h.nextDefinition, d) :: h.definitions
    nextDefinition := h.nextDefinition + 1 }
  return h.nextDefinition

/-- Creates a machine and runs its initial effects. A machine whose initial effects fail stays. -/
def create (ev : Evaluator) (definition : Nat) (given seed : Value) : Action Nat := do
  let d ← requireDefinition definition "create_instance"
  let h ← get
  let handle := h.nextInstance
  let m ← perform (Machine.create handle d given seed h.world.clock)
  modify fun h => { h with nextInstance := handle + 1, kept := (handle, d) :: h.kept }
  perform (Machine.note h.services m .info "behavior" ("created in state " ++ m.state))
  perform (Machine.runInitialEffects ev h.services handle)
  return handle

def destroy (handle : Nat) : Action Unit := do
  let _ ← require handle "destroy_instance"
  modify fun h =>
    { h with
      kept := h.kept.filter fun entry => entry.1 ≠ handle
      world := { h.world with
        machines := h.world.machines.filter fun m => m.handle ≠ handle } }

def dispatch (ev : Evaluator) (handle : Nat) (event : Text) (payload : Value) :
    Action Dispatched := do
  let _ ← require handle "dispatch"
  perform (Machine.dispatch ev (← get).services handle event payload)

/-- Runs the due ticks of machines one after another; the first failure ends the pass. -/
def runTicksOf (ev : Evaluator) (now : Int) : List Nat → Action Nat
  | [] => return 0
  | handle :: rest => do
    let ran ← perform (Machine.runDueTicks ev (← get).services handle now)
    let others ← runTicksOf ev now rest
    return ran + others

def runDueTicks (ev : Evaluator) (now : Int) : Action Nat := do
  runTicksOf ev now ((← get).world.machines.map (·.handle))

/-- Whether a ticker can go by a period of so many milliseconds. -/
def checkPeriod (period : Int) : Action Unit :=
  if period ≤ 0 then refuse .tickerPeriod else return ()

/-- One pass of a ticker. Its failure is logged and ends the pass only. -/
def tickerPass (ev : Evaluator) : Action Unit := fun h =>
  match runDueTicks ev h.world.clock h with
  | .error (.raised .unnamed) h => .error (.raised .unnamed) h
  | .error (.raised e) h =>
    let log := h.world.log.write .error "tick" [] ("ticker pass failed: " ++ e.message) 0
    .ok () { h with world := { h.world with log } }
  | .error fault h => .error fault h
  | .ok _ h => .ok () h

def entity (handle : Nat) : Action Value := do
  let m ← require handle "entity_snapshot"
  perform (Eval.snapshot m.store)

def state (handle : Nat) : Action Text := do
  let m ← require handle "current_state"
  return m.state

def statsLines (handle : Nat) : Action (List Text) := do
  let m ← require handle "dump_instance_stats"
  return m.statsLines

def entityText (handle : Nat) : Action Text := do
  let m ← require handle "dump_instance_entity"
  return Report.entityText (← perform (Eval.snapshot m.store))

def updateInstance (handle : Nat) (f : Instance → Instance) : Action Unit :=
  modify fun h => { h with world := h.world.mapMachine handle f }

def setClock (now : Int) : Action Unit :=
  modify fun h => { h with world := { h.world with clock := now } }

/-- Installs handlers of the surrounding program, and whether it listens to events. -/
def install (outlets : Outlets) (observer : Option Label) (listens : Bool) : Action Unit :=
  modify fun h => { h with services := { h.services with outlets, observer, listens } }

def clearLog : Action Unit :=
  modify fun h => { h with world := { h.world with log := h.world.log.clear } }

/-- Drops all definitions and machines, all handlers and the log. Handles go on counting. -/
def clear : Action Unit := do
  install {} none false
  modify fun h =>
    { h with definitions := [], kept := [], world := { h.world with machines := [] } }
  clearLog

end Host
end EntityMachines
