import EntityMachines.Eval.Effect

/-!
Expiry of debounce timers. A timer emits its event through the handlers of the context in which
it was armed; a failure is logged and keeps no other timer from its turn.
-/
namespace EntityMachines
namespace Timers

/-- Emits the event of a timer. Tells the message of a failure. -/
def act (ev : Evaluator) (action : DelayedEmit) : Eval (Option Text) := do
  match ← Eval.attempt (Effect.emitLater ev action.handlers action.event) with
  | .ok _ => return none
  | .error e => return some e.message

def note (key message : Text) : Eval Unit :=
  modify fun w => { w with timing := w.timing.timerFailed key message }

/-- Lets timers expire until none is left, also those that are armed meanwhile. -/
def settle (ev : Evaluator) : Nat → Eval Unit
  | 0 => throw .exhausted
  | rounds + 1 => do
    let w ← get
    match w.timing.takeTimers with
    | ([], _) => return ()
    | (timers, timing) =>
      set { w with timing }
      Timing.expire (act ev) note timers
      settle ev rounds

end Timers
end EntityMachines
