import EntityMachines.Value

/-!
Definitions of behaviors: a state machine with guarded transitions, ticks that run by time, the
data that an entity of the behavior holds and the configuration that it takes.
-/
namespace EntityMachines

structure StateDecl where
  name : Text
  isInitial : Bool := false
  isFinal : Bool := false
  description : Text := []

structure EventDecl where
  key : Text
  name : Text := key
  description : Text := []
  payload : Value := .undefined

/-- The states from which a transition leaves. -/
inductive Sources where
  | any
  | listed (states : List Text)

def Sources.accepts (sources : Sources) (state : Text) : Bool :=
  match sources with
  | .any => true
  | .listed states => states.contains state

structure Transition where
  sources : Sources := .any
  /-- A transition without a target stays in the state it leaves from. -/
  target : Option Text := none
  event : Text
  guard : Option Value := none
  effects : List Value := []

/-- How often a tick runs. -/
inductive Interval where
  | frame
  | fixed (ms : Float)
  /-- The milliseconds are an entry of the configuration of each instance. -/
  | config (key : Text)

structure Tick where
  name : Text
  description : Text := []
  priority : Float := 0.0
  interval : Interval := .frame
  /-- The states in which the tick runs; none listed means all. -/
  appliesTo : List Text := []
  guard : Option Value := none
  effects : List Value := []

def Tick.appliesIn (tick : Tick) (state : Text) : Bool :=
  tick.appliesTo.isEmpty || tick.appliesTo.contains state

structure EntityField where
  name : Text
  type : Text := []
  default : Value := .undefined
  required : Bool := false
  description : Text := []

structure DataEntity where
  name : Text
  description : Text := []
  runtime : Bool := false
  singleton : Bool := false
  fields : List EntityField := []

structure ConfigField where
  name : Text
  type : Text := []
  description : Text := []
  default : Value := .undefined
  /-- The values that are allowed; none listed means all. -/
  allowed : List Value := []

structure Definition where
  name : Text
  category : Text := []
  description : Text := []
  suggestedFor : List Text := []
  dataEntities : List DataEntity := []
  initial : Text
  states : List StateDecl
  events : List EventDecl := []
  transitions : List Transition := []
  ticks : List Tick := []
  requiredConfig : List ConfigField := []
  optionalConfig : List ConfigField := []
  initialEffects : List Value := []

namespace Definition

/-- What the names of catalogued behaviors start with. -/
def catalogueMark : Text := "std/"

def stateNames (d : Definition) : List Text := d.states.map (·.name)

def eventKeys (d : Definition) : List Text := d.events.map (·.key)

def hasState (d : Definition) (state : Text) : Bool := d.stateNames.contains state

def hasEvent (d : Definition) (event : Text) : Bool := d.eventKeys.contains event

/-- The data of a new entity: the default of each declared field, or null. -/
def defaultData (d : Definition) : Table Value :=
  Table.ofEntries <| (d.dataEntities.flatMap (·.fields)).map fun f =>
    (f.name, match f.default with | .undefined => .null | v => v)

def categories : List Text :=
  ["ui-interaction", "data-management", "async", "feedback", "game-core", "game-entity",
    "game-ui"].map Text.ofString

def isKnownCategory (category : Text) : Bool := categories.contains category

end Definition

end EntityMachines
