import EntityMachines.Expr

/-!
Contexts are what an expression is evaluated in: the data that bindings read, and the handlers
through which effects leave the expression.

A handler belongs to the surrounding program and is known here by a label only. A change of
entity data is written into a store and then told to an observer; an event goes to the
surrounding program or to the machine whose effects run.
-/
namespace EntityMachines

abbrev StoreRef := Nat

abbrev Label := Text

/-- The handlers that the surrounding program has installed for effects other than changes and
events. -/
structure Outlets where
  navigate : Option Label := none
  persist : Option Label := none
  notify : Option Label := none
  spawn : Option Label := none
  despawn : Option Label := none
  callService : Option Label := none
  renderUi : Option Label := none
deriving DecidableEq, Repr

/-- The label for an effect, if its name is listed. -/
def Label.ifListed (label : Label) (effects : List Text) (effect : Text) : Option Label :=
  if effects.contains effect then some label else none

/-- Handlers for the listed effects, all under one label. -/
def Outlets.ofNames (effects : List Text) (label : Label) : Outlets where
  navigate := label.ifListed effects "navigate"
  persist := label.ifListed effects "persist"
  notify := label.ifListed effects "notify"
  spawn := label.ifListed effects "spawn"
  despawn := label.ifListed effects "despawn"
  callService := label.ifListed effects "call-service"
  renderUi := label.ifListed effects "render-ui"

inductive GuardPolicy where
  /-- A guard that fails counts as one that says no. -/
  | treatAsFalse
  | propagate
deriving DecidableEq, Repr

/-- What the surrounding program gives to a machine. -/
structure Services where
  outlets : Outlets := {}
  observer : Option Label := none
  /-- Every emitted event is told to a listener. -/
  listens : Bool := false
  /-- Activities of the machine are logged. -/
  logs : Bool := false
  guardPolicy : GuardPolicy := .treatAsFalse
  maxQueued : Nat := 64
  frameInterval : Int := 16
deriving DecidableEq, Repr

structure Mutator where
  store : StoreRef
  observer : Option Label
deriving DecidableEq, Repr

inductive Emitter where
  | outside (label : Label)
  | machine (handle : Nat) (services : Services)
deriving DecidableEq, Repr

structure Handlers extends Outlets where
  mutate : Option Mutator := none
  emit : Option Emitter := none
deriving DecidableEq, Repr

namespace Handlers

/-- Handlers for the listed effects, all under one label; changes are written into a store. -/
def ofNames (effects : List Text) (label : Label) (store : StoreRef) : Handlers :=
  { Outlets.ofNames effects label with
    mutate := (label.ifListed effects "set").map fun label => ⟨store, some label⟩
    emit := (label.ifListed effects "emit").map .outside }

/-- Handlers laid over others; where there is none above, the one below stays. -/
def overlay (base top : Handlers) : Handlers where
  navigate := top.navigate <|> base.navigate
  persist := top.persist <|> base.persist
  notify := top.notify <|> base.notify
  spawn := top.spawn <|> base.spawn
  despawn := top.despawn <|> base.despawn
  callService := top.callService <|> base.callService
  renderUi := top.renderUi <|> base.renderUi
  mutate := top.mutate <|> base.mutate
  emit := top.emit <|> base.emit

end Handlers

structure Context where
  store : Option StoreRef := none
  payload : Value := .undefined
  state : Text := []
  /-- Milliseconds since the epoch. -/
  now : Int := 0
  user : Value := .undefined
  singletons : Table Value := []
  locals : Table Value := []
  handlers : Handlers := {}

/-- The context with further local names, over earlier ones of the same name. -/
def Context.child (ctx : Context) (locals : Table Value) : Context :=
  { ctx with locals := Table.overlay ctx.locals locals }

/-- How a closure takes its arguments. -/
inductive Parameters where
  | single (name : Text)
  | positional (names : List Text)
deriving DecidableEq, Repr

structure Closure where
  parameters : Parameters
  body : Value
  captured : Context

/-- The local names of a call. A single parameter takes the first argument; positional ones
take a lone array apart, and those without an argument are undefined. -/
def Parameters.bind (parameters : Parameters) (args : List Value) : Table Value :=
  match parameters with
  | .single name => [(name, args.headD .undefined)]
  | .positional names =>
    let bound :=
      match args with
      | [.array items] => items
      | _ => args
    Table.ofEntries (names.zipIdx.map fun (name, i) => (name, bound.getD i .undefined))

end EntityMachines
