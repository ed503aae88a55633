import EntityMachines.Eval.Arguments
import EntityMachines.Operator
import EntityMachines.Value.Equality

/-!
Effects leave an expression through the handlers of its context. All arguments are evaluated
first; an effect without a handler is skipped, and the log says so.
-/
namespace EntityMachines
namespace Effect

def skipped (op : EffectOp) : Eval Unit :=
  Eval.note .debug "effect" (op.name ++ ": no handler installed, skipped")

/-- The path in the entity that a binding such as `@entity.a.b` names, empty for anything
else. -/
def fieldPath (target : Value) : Text :=
  match target with
  | .string s => if Text.startsWith s "@entity." then s.drop 8 else []
  | _ => []

/-- A target as the log names it. -/
def describe (target : Value) : Text :=
  match target with
  | .string s => s
  | v => v.kind.name

def unsupported (op : EffectOp) (target : Value) : Eval Unit :=
  Eval.note .warn "effect" (op.name ++ " only supports @entity bindings, got: " ++ describe target)

/-- The value that `set` writes: an operation combines the present value with the operand, and
without a known operation the operand replaces it. -/
def combine (operation : Text) (current operand : Value) : Value :=
  if operation = "increment" then .number (current.toNumber + operand.toNumber)
  else if operation = "decrement" then .number (current.toNumber - operand.toNumber)
  else if operation = "multiply" then .number (current.toNumber * operand.toNumber)
  else if operation = "append" then current.push operand
  else if operation = "remove" then
    match current with
    | .array items => .array (items.filter fun item => !item.equal operand)
    | _ => .array []
  else operand

/-- Writes changes into the store and tells the observer. -/
def mutate (m : Mutator) (changes : Table Value) : Eval Unit := do
  Eval.writeStore m.store changes
  if let some label := m.observer then
    let _ ← Eval.call label (.set changes)

/-- Sends an event to the surrounding program or to the machine whose effects run. -/
def send (ev : Evaluator) (emitter : Emitter) (event : Text) (payload : Value) : Eval Unit := do
  match emitter with
  | .outside label =>
    let _ ← Eval.call label (.emit event payload)
  | .machine handle services => ev.deliver handle services event payload

/-- Emits an event whose handler may be missing, for operators that are no effects by name. -/
def emitLater (ev : Evaluator) (handlers : Handlers) (event : Text) : Eval Unit := do
  match handlers.emit with
  | some emitter => send ev emitter event .undefined
  | none => Eval.note .debug "async" ("emit " ++ event ++ ": no handler installed, skipped")

/-- The value of the field that a target names. -/
def currentValue (ctx : Context) (target : Value) : Eval Value :=
  match target with
  | .string s => ctx.resolveText s
  | _ => return .undefined

/-- By how much a number is to change; by one if no amount is given. -/
def amount (ev : Evaluator) (ctx : Context) (args : List Value) : Eval Float :=
  match args[1]? with
  | some arg => Value.toNumber <$> ev.evaluate arg ctx
  | none => return 1.0

/-- The name of the operation of `set`, empty if none is given. -/
def operation (ev : Evaluator) (ctx : Context) (args : List Value) : Eval Text :=
  match args[2]? with
  | some arg => Value.display <$> ev.evaluate arg ctx
  | none => return []

/-- Adds to the number in a field, or subtracts from it. -/
def adjust (op : EffectOp) (change : Float → Float → Float) (ev : Evaluator) (ctx : Context)
    (args : List Value) : Eval Unit := do
  let target ← Operator.argument op.name args 0
  let amount ← amount ev ctx args
  match ctx.handlers.mutate with
  | none => skipped op
  | some m =>
    let field := fieldPath target
    if field.isEmpty then unsupported op target
    else
      let current := (← currentValue ctx target).toNumber
      mutate m [(field, .number (change current amount))]

/-- The message and the severity that `notify` takes from its first argument. -/
def notice (message : Value) : Text × Text :=
  match message with
  | .map _ =>
    let text := message.get "message"
    let severity := message.get "type"
    (if text.isNullish then [] else text.display,
      if severity.isNullish then "info" else severity.display)
  | _ => (message.display, "info")

/-- Calls a handler for its effect alone, or notes that there is none. -/
def perform (op : EffectOp) (handler : Option Label) (request : Request) : Eval Value := do
  match handler with
  | some label =>
    let _ ← Eval.call label request
  | none => skipped op
  return .undefined

def apply (op : EffectOp) (ev : Evaluator) (ctx : Context) (args : List Value) : Eval Value := do
  let required := Operator.required op.name ev ctx args
  let optional := Operator.optional ev ctx args
  match op with
  | .set =>
    let target ← Operator.argument op.name args 0
    let operand ← required 1
    let operation ← operation ev ctx args
    match ctx.handlers.mutate with
    | none => skipped op
    | some m =>
      let field := fieldPath target
      if field.isEmpty then unsupported op target
      else if operation.isEmpty then mutate m [(field, operand)]
      else
        let current ← currentValue ctx target
        mutate m [(field, combine operation current operand)]
    return .undefined
  | .setDynamic =>
    let path ← required 0
    let operand ← required 1
    match ctx.handlers.mutate with
    | none => skipped op
    | some m =>
      match path with
      | .string (b :: rest) => mutate m [(b :: rest, operand)]
      | _ => Eval.note .warn "effect" ("set-dynamic requires a path string, got: " ++ path.display)
    return .undefined
  | .increment =>
    adjust op (· + ·) ev ctx args
    return .undefined
  | .decrement =>
    adjust op (· - ·) ev ctx args
    return .undefined
  | .emit =>
    let event := (← required 0).display
    let payload ← optional 1
    match ctx.handlers.emit with
    | none => skipped op
    | some emitter => send ev emitter event payload
    return .undefined
  | .navigate =>
    let route := (← required 0).display
    perform op ctx.handlers.navigate (.navigate route (← optional 1))
  | .persist =>
    let action := (← required 0).display
    if action ≠ "create" ∧ action ≠ "update" ∧ action ≠ "delete" then
      Eval.raise (.persistAction action)
    else
      let data ← if args.length > 1 then optional 1 else pure ctx.payload
      perform op ctx.handlers.persist (.persist action data)
  | .notify =>
    let (text, severity) := notice (← required 0)
    let explicit ← optional 1
    let severity := if explicit.isNullish then severity else explicit.display
    perform op ctx.handlers.notify (.notify text severity)
  | .spawn =>
    let type := (← required 0).display
    perform op ctx.handlers.spawn (.spawn type (← optional 1))
  | .despawn => perform op ctx.handlers.despawn (.despawn (← optional 0))
  | .callService =>
    let service := (← required 0).display
    let method := (← required 1).display
    let params ← optional 2
    match ctx.handlers.callService with
    | none =>
      skipped op
      return .undefined
    | some label => Eval.call label (.callService service method params)
  | .renderUi =>
    let slot := (← required 0).display
    let pattern ← required 1
    let props ← optional 2
    let priority ← optional 3
    if pattern.isNullish then
      perform op ctx.handlers.renderUi
        (.renderUi slot (.map [("type", .string "clear")]) .undefined priority)
    else perform op ctx.handlers.renderUi (.renderUi slot pattern props priority)

end Effect
end EntityMachines
