import EntityMachines.Machine.Definition

/-!
What keeps a definition from being fit for a catalogue: a name or a category that catalogues do
not use, and names of states and events that it does not declare.
-/
namespace EntityMachines

inductive Problem where
  | nameOutsideCatalogue (name : Text)
  | unknownCategory (category : Text)
  | noStates
  | undeclaredEvent (event : Text)
  | undeclaredSource (state : Text)
  | undeclaredTarget (state : Text)
  | undeclaredTickState (tick state : Text)
deriving DecidableEq, Repr

def Problem.message : Problem → Text
  | nameOutsideCatalogue name => "Behavior name should start with 'std/' (got: " ++ name ++ ")"
  | unknownCategory category => "Invalid category: " ++ category
  | noStates => "State machine must have at least one state"
  | undeclaredEvent event => "Transition uses undeclared event: " ++ event
  | undeclaredSource state => "Transition from undeclared state: " ++ state
  | undeclaredTarget state => "Transition to undeclared state: " ++ state
  | undeclaredTickState tick state => "Tick " ++ tick ++ " applies to undeclared state: " ++ state

namespace Definition

def transitionProblems (d : Definition) (t : Transition) : List Problem :=
  let sources :=
    match t.sources with
    | .any => []
    | .listed states => states.filter fun s => !d.hasState s
  let targets := t.target.toList.filter fun s => !d.hasState s
  (if d.hasEvent t.event then [] else [.undeclaredEvent t.event])
    ++ sources.map .undeclaredSource ++ targets.map .undeclaredTarget

def tickProblems (d : Definition) (tick : Tick) : List Problem :=
  (tick.appliesTo.filter fun s => !d.hasState s).map (.undeclaredTickState tick.name)

def problems (d : Definition) : List Problem :=
  (if d.name.startsWith catalogueMark then [] else [.nameOutsideCatalogue d.name])
    ++ (if isKnownCategory d.category then [] else [.unknownCategory d.category])
    ++ (if d.states.isEmpty then [.noStates] else [])
    ++ d.transitions.flatMap d.transitionProblems ++ d.ticks.flatMap d.tickProblems

end Definition
end EntityMachines
