import EntityMachines.Eval.Effect
import EntityMachines.Library.Module

/-!
The module `async/`. Waiting is counted, not done: of several computations that start together
each has its own count, and the one with the lowest ends first.
-/
namespace EntityMachines
namespace Library.Async

/-- Whole milliseconds to wait; nothing for anything but a positive number. -/
def millis (ms : Float) : Nat := if ms > 0.0 then (Double.toInt (Double.ceil ms)).toNat else 0

def delay (ev : Evaluator) (ctx : Context) (args : List Value) : Eval Value := do
  Eval.wait (millis (← Operator.required "async/delay" ev ctx args 0).toNumber)
  Operator.optional ev ctx args 1

def timeout (ev : Evaluator) (ctx : Context) (args : List Value) : Eval Value := do
  let effect ← Operator.argument "async/timeout" args 0
  let ms := millis (← Operator.required "async/timeout" ev ctx args 1).toNumber
  match ← Eval.within ((← get).elapsed + ms) (ev.evaluate effect ctx) with
  | some v => return v
  | none => Eval.raise .timeout

/-- Only the last call under a name counts until its timer expires. -/
def debounce (ev : Evaluator) (ctx : Context) (args : List Value) : Eval Value := do
  let event := (← Operator.required "async/debounce" ev ctx args 0).display
  let _ ← Operator.required "async/debounce" ev ctx args 1
  modify fun w => { w with timing := w.timing.debounce event ⟨event, ctx.handlers⟩ none }
  return .undefined

def throttle (ev : Evaluator) (ctx : Context) (args : List Value) : Eval Value := do
  let event := (← Operator.required "async/throttle" ev ctx args 0).display
  let ms := (← Operator.required "async/throttle" ev ctx args 1).toNumber
  let w ← get
  let (fires, timing) := w.timing.throttle event (Double.toInt (Double.ceil ms))
  set { w with timing }
  if fires then Effect.emitLater ev ctx.handlers event
  return .undefined

/-- An entry of the options, with another value in the place of nullish ones. -/
def option (options : Value) (key : Text) (fallback : Value) : Value :=
  let v := options.get key
  if v.isNullish then fallback else v

/-- The pause after an attempt, counted from zero. -/
def pause (backoff : Text) (base : Float) (attempt : Nat) : Float :=
  if backoff = "fixed" then base
  else if backoff = "linear" then base * Float.ofNat (attempt + 1)
  else base * Float.pow 2.0 (Float.ofNat attempt)

/-- Evaluates an effect until it succeeds or no attempts are left. -/
def attempts (ev : Evaluator) (ctx : Context) (effect : Value) (backoff : Text) (base : Float) :
    Nat → Nat → Option Error → Eval Value
  | 0, _, some e => Eval.raise e
  | 0, _, none => return .undefined
  | left + 1, i, _ => do
    match ← Eval.attempt (ev.evaluate effect ctx) with
    | .ok v => return v
    | .error e =>
      Eval.note .debug "async"
        ("async/retry: attempt " ++ Text.ofNat (i + 1) ++ " failed: " ++ e.message)
      if left ≠ 0 then Eval.wait (millis (pause backoff base i))
      attempts ev ctx effect backoff base left (i + 1) (some e)

def retry (ev : Evaluator) (ctx : Context) (args : List Value) : Eval Value := do
  let effect ← Operator.argument "async/retry" args 0
  let options ← Operator.optional ev ctx args 1
  let count := (Double.toInt (option options "attempts" (.number 3.0)).toNumber).toNat
  let backoff := (option options "backoff" (.string "exponential")).display
  let base := (option options "baseDelay" (.number 1000.0)).toNumber
  attempts ev ctx effect backoff base count 0 none

/-- How a computation ended, and when. -/
structure Outcome where
  time : Nat
  result : Except Error Value

/-- Runs computations that start together, each up to a time if one is given. -/
def together (ev : Evaluator) (ctx : Context) (start : Nat) (limit : Option Nat) :
    List Value → Eval (List (Option Outcome))
  | [] => return []
  | effect :: rest => do
    Eval.setElapsed start
    let run := Eval.settle (ev.evaluate effect ctx)
    let result ←
      match limit with
      | some limit => Option.join <$> Eval.within limit run
      | none => run
    let time := (← get).elapsed
    return result.map (⟨time, ·⟩) :: (← together ev ctx start limit rest)

/-- The outcome that comes first in time, and of several at one time the first in order. -/
def earliest? (outcomes : List Outcome) : Option Outcome :=
  outcomes.foldl (fun found o =>
    match found with
    | some f => if o.time < f.time then some o else found
    | none => some o) none

/-- The times at which computations would end, each for itself. -/
def finishTimes (ev : Evaluator) (ctx : Context) : List Value → Eval (List Nat)
  | [] => return []
  | effect :: rest => do
    let time ← Eval.finishTime (ev.evaluate effect ctx)
    return time.toList ++ (← finishTimes ev ctx rest)

/-- The outcome of the first computation to end. The others go no further than that moment. -/
def race (ev : Evaluator) (ctx : Context) (args : List Value) : Eval Value := do
  if args.isEmpty then return .undefined
  let start := (← get).elapsed
  match (← finishTimes ev ctx args).min? with
  | none => throw .abandoned
  | some limit =>
    let outcomes ← together ev ctx start (some limit) args
    Eval.setElapsed limit
    match earliest? (outcomes.filterMap id) with
    | some o => Eval.ofExcept o.result
    | none => throw .abandoned

/-- The values of all computations, or the error of the first one to fail. -/
def all (ev : Evaluator) (ctx : Context) (args : List Value) : Eval Value := do
  let start := (← get).elapsed
  let outcomes ← together ev ctx start none args
  let settled := outcomes.filterMap id
  let failed := settled.filter fun o => match o.result with | .error _ => true | .ok _ => false
  match earliest? failed with
  | some o =>
    Eval.setElapsed o.time
    Eval.ofExcept o.result
  | none =>
    if settled.length < outcomes.length then throw .abandoned
    else
      Eval.setElapsed (settled.foldl (fun t o => max t o.time) start)
      return .array (settled.filterMap fun o => o.result.toOption)

def sequence (ev : Evaluator) (ctx : Context) (args : List Value) : Eval Value :=
  return .array (← ev.evaluateAll ctx args)

def operators : Library :=
  let named : List (String × Operator) := [
    ("async/delay", delay), ("async/timeout", timeout), ("async/debounce", debounce),
    ("async/throttle", throttle), ("async/retry", retry), ("async/race", race),
    ("async/all", all), ("async/sequence", sequence)]
  named.map fun (name, op) => (Text.ofString name, op)

end Library.Async
end EntityMachines
