import EntityMachines.Expr
import EntityMachines.Machine.Definition
import EntityMachines.Value.Conversion
import EntityMachines.Value.Reader

/-!
Documents are values that define behaviors. Every document either yields a definition or has a
first fault, in the order in which its parts are read; a nullish member counts as absent.
-/
namespace EntityMachines
namespace Document

/-- Reading a part of a document. -/
abbrev Reading := Except DefinitionFault

def fault {α : Type} (f : DefinitionFault) : Reading α := .error f

def require (holds : Bool) (f : DefinitionFault) : Reading Unit :=
  if holds then return () else fault f

/-- The name of a member of a part, as faults call it. -/
def member (part key : Text) : Text := part ++ "." ++ key

/-- A text, empty if there is none. -/
def text (doc : Value) (part key : Text) : Reading Text :=
  match doc.get key with
  | .undefined | .null => return []
  | .string s => return s
  | _ => fault (.mustBe (member part key) .text)

def nonEmptyText (doc : Value) (part key : Text) : Reading Text := do
  let s ← text doc part key
  if s.isEmpty then fault (.missingText part key) else return s

/-- The items of an array, none if there is no array. -/
def list (doc : Value) (part key : Text) : Reading (List Value) :=
  match doc.get key with
  | .undefined | .null => return []
  | .array items => return items
  | _ => fault (.mustBe (member part key) .list)

def texts (doc : Value) (part key : Text) : Reading (List Text) := do
  (← list doc part key).mapM fun item =>
    match item with
    | .string s => return s
    | _ => fault (.entriesNotTexts (member part key))

def expression? (doc : Value) (key : Text) : Option Value :=
  let e := doc.get key
  if e.isNullish then none else some e

/-- Effects are calls; what they call is not looked at. -/
def effects (doc : Value) (part key : Text) : Reading (List Value) := do
  (← list doc part key).mapM fun effect =>
    if Expr.isCall effect then return effect
    else fault (.entryNotCall (member part key) effect)

def flag (doc : Value) (key : Text) : Bool := (doc.get key).isTruthy

/-- A state is given by its name alone or by a map. -/
def state (doc : Value) : Reading StateDecl := do
  match doc with
  | .string name => if name.isEmpty then fault .emptyStateName else return { name }
  | .map _ =>
    let name ← nonEmptyText doc "state" "name"
    let description ← text doc "state" "description"
    return { name, isInitial := flag doc "isInitial", isFinal := flag doc "isFinal", description }
  | _ => fault (.mustBe "state" .textOrObject)

/-- An event is given by its key alone or by a map; its name is the key unless it has one. -/
def event (doc : Value) : Reading EventDecl := do
  match doc with
  | .string key => return { key }
  | .map _ =>
    let key ← nonEmptyText doc "event" "key"
    let name ← text doc "event" "name"
    let description ← text doc "event" "description"
    let name := if name.isEmpty then key else name
    return { key, name, description, payload := doc.get "payload" }
  | _ => fault (.mustBe "event" .textOrObject)

def sources (doc : Value) (part : Text) : Reading Sources := do
  match doc.get "from" with
  | .undefined | .null => return .any
  | .string s => return if s = "*" then .any else .listed [s]
  | .array _ =>
    let states ← texts doc part "from"
    if states.isEmpty then fault (.emptySources (member part "from")) else return .listed states
  | _ => fault (.mustBe (member part "from") .sources)

def transition (index : Nat) (doc : Value) : Reading Transition := do
  let part := "transition " ++ Text.ofNat index
  require doc.isMap (.mustBe part .object)
  let event ← nonEmptyText doc part "event"
  let sources ← sources doc part
  let target ← text doc part "to"
  let effects ← effects doc part "effects"
  let target := if target.isEmpty then none else some target
  return { sources, target, event, guard := expression? doc "guard", effects }

/-- An interval is a number of milliseconds, or a binding to one entry of the configuration. -/
def interval (doc : Value) (part : Text) : Reading Interval :=
  let subject := member part "interval"
  match doc.get "interval" with
  | .undefined | .null => return .frame
  | .number ms =>
    if ms > 0.0 && ms.isFinite then return .fixed ms
    else fault (.mustBe subject .positiveNumber)
  | .string s =>
    if s = "frame" then return .frame
    else
      match Binding.ofText? s with
      | some b =>
        match b.path with
        | [key] =>
          if b.root = "config" then return .config key else fault (.mustBe subject .interval)
        | _ => fault (.mustBe subject .interval)
      | none => fault (.mustBe subject .interval)
  | _ => fault (.mustBe subject .interval)

def priority (doc : Value) (part : Text) : Reading Float :=
  match doc.get "priority" with
  | .undefined | .null => return 0.0
  | .number x => return x
  | _ => fault (.mustBe (member part "priority") .number)

def tick (index : Nat) (doc : Value) : Reading Tick := do
  let part := "tick " ++ Text.ofNat index
  require doc.isMap (.mustBe part .object)
  let name ← nonEmptyText doc part "name"
  let description ← text doc part "description"
  let priority ← priority doc part
  let interval ← interval doc part
  let appliesTo ← texts doc part "appliesTo"
  let effects ← effects doc part "effects"
  let guard := expression? doc "guard"
  return { name, description, priority, interval, appliesTo, guard, effects }

def entityField (entity : Text) (doc : Value) : Reading EntityField := do
  require doc.isMap (.mustBe ("data entity " ++ entity ++ ": field") .object)
  let name ← nonEmptyText doc "field" "name"
  let type ← text doc "field" "type"
  let description ← text doc "field" "description"
  return { name, type, default := doc.get "default", required := flag doc "required", description }

def dataEntity (doc : Value) : Reading DataEntity := do
  require doc.isMap (.mustBe "data entity" .object)
  let name ← nonEmptyText doc "data entity" "name"
  let description ← text doc "data entity" "description"
  let fields ← (← list doc ("data entity " ++ name) "fields").mapM (entityField name)
  let runtime := flag doc "runtime"
  let singleton := flag doc "singleton"
  return { name, description, runtime, singleton, fields }

def configField (subject : Text) (doc : Value) : Reading ConfigField := do
  require doc.isMap (.entriesNotObjects subject)
  let name ← nonEmptyText doc "config field" "name"
  let type ← text doc "config field" "type"
  let description ← text doc "config field" "description"
  let allowed ← list doc ("config field " ++ name) "enum"
  return { name, type, description, default := doc.get "default", allowed }

def configFields (schema : Value) (key : Text) : Reading (List ConfigField) := do
  let part : Text := "configSchema"
  (← list schema part key).mapM (configField (member part key))

/-- Reads parts that are known by their place. -/
def numbered {α : Type} (read : Nat → Value → Reading α) (docs : List Value) : Reading (List α) :=
  docs.zipIdx.mapM fun (doc, i) => read i doc

/-- The initial state is the one named, else the first one marked, else the first one. -/
def initialState (named : Text) (states : List StateDecl) : Text :=
  if !named.isEmpty then named
  else
    match states.find? (·.isInitial) with
    | some s => s.name
    | none => (states.head?.map (·.name)).getD []

/-- The initial state has to be one of the states. -/
def declaredInitial (named : Text) (states : List StateDecl) : Reading Text := do
  let initial := initialState named states
  require ((states.map (·.name)).contains initial) (.undeclaredInitial initial)
  return initial

/-- Everything but the name. -/
def body (doc : Value) (name : Text) : Reading Definition := do
  let category ← text doc "behavior" "category"
  let description ← text doc "behavior" "description"
  let suggestedFor ← texts doc "behavior" "suggestedFor"
  let dataEntities ← (← list doc "behavior" "dataEntities").mapM dataEntity
  let machine := doc.get "stateMachine"
  require machine.isMap (.mustBe "stateMachine" .object)
  let states ← (← list machine "stateMachine" "states").mapM state
  require (!states.isEmpty) .noStates
  let events ← (← list machine "stateMachine" "events").mapM event
  let transitions ← numbered transition (← list machine "stateMachine" "transitions")
  let initial ← declaredInitial (← text machine "stateMachine" "initial") states
  let ticks ← numbered tick (← list doc "behavior" "ticks")
  let schema := doc.get "configSchema"
  require (schema.isNullish || schema.isMap) (.mustBe "configSchema" .object)
  let requiredConfig ← configFields schema "required"
  let optionalConfig ← configFields schema "optional"
  let initialEffects ← effects doc "behavior" "initialEffects"
  return { name, category, description, suggestedFor, dataEntities, initial, states, events,
           transitions, ticks, requiredConfig, optionalConfig, initialEffects }

end Document

namespace Definition

/-- The definition that a document gives. -/
def ofDocument (doc : Value) : Except Error Definition := do
  if !doc.isMap then throw .notADocument
  let name ← (Document.nonEmptyText doc "behavior" "name").mapError (.definition [])
  (Document.body doc name).mapError (.definition name)

def ofText (t : Text) : Except Error Definition := do ofDocument (← Value.read t)

end Definition
end EntityMachines
