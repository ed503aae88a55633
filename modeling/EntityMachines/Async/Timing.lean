import EntityMachines.Table
import EntityMachines.Log

/-!
Debouncing and throttling by name. A debounced name has at most one timer, the last one armed;
a throttled name fires again only after its window. Timers expire together, in the order of
their names.
-/
namespace EntityMachines

structure Timer (α : Type) where
  action : α
  /-- Who armed the timer and may drop it again. -/
  owner : Option Nat

structure Timing (α : Type) where
  /-- Milliseconds on the clock that throttling goes by. -/
  now : Int
  timers : Table (Timer α)
  lastFired : Table Int
  log : Log

namespace Timing

variable {α : Type}

def empty (logCapacity : Nat) : Timing α := ⟨0, [], [], Log.empty logCapacity⟩

def write (t : Timing α) (level : Log.Level) (category message : Text) (source : Text := []) :
    Timing α :=
  { t with log := t.log.write level category source message 0 }

/-- Arms a timer in the place of one that waits under the same name. -/
def debounce (t : Timing α) (key : Text) (action : α) (owner : Option Nat) : Timing α :=
  { t with timers := t.timers.insert key ⟨action, owner⟩ }

/-- Whether a name may fire now; if so, its window begins anew. -/
def throttle (t : Timing α) (key : Text) (window : Int) : Bool × Timing α :=
  match t.lastFired.find? key with
  | some last =>
    if t.now - last < window then (false, t)
    else (true, { t with lastFired := t.lastFired.insert key t.now })
  | none => (true, { t with lastFired := t.lastFired.insert key t.now })

def pending (t : Timing α) : Nat := t.timers.length

def forgetOwner (t : Timing α) (owner : Nat) : Timing α :=
  { t with timers := t.timers.filter fun entry => entry.2.owner != some owner }

def clearTimers (t : Timing α) : Timing α := { t with timers := [] }

def clearThrottle (t : Timing α) : Timing α := { t with lastFired := [] }

def reset (t : Timing α) : Timing α :=
  { t with timers := [], lastFired := [], log := t.log.clear }

/-- Takes all waiting timers off the table. -/
def takeTimers (t : Timing α) : List (Text × Timer α) × Timing α := (t.timers, t.clearTimers)

def timerFailed (t : Timing α) (key message : Text) : Timing α :=
  t.write .error "async" ("debounce '" ++ key ++ "' handler failed: " ++ message)

/-- Has timers act in order. The message of one that fails is noted, and no other loses its turn. -/
def expire {m : Type → Type} [Monad m] (act : α → m (Option Text)) (note : Text → Text → m Unit) :
    List (Text × Timer α) → m Unit
  | [] => return ()
  | (key, timer) :: rest => do
    if let some message ← act timer.action then note key message
    expire act note rest

end Timing

end EntityMachines
