import EntityMachines.Machine.Transaction

/-!
Threads that share a machine. One lock is held for the whole of a transaction, and another one for
each look at the queue. What is done under a lock at once is one move; moves of different threads
may come in any order.
-/
namespace EntityMachines

namespace Instance

/-- A transaction begins, and events that are emitted wait from now on. -/
def opened (m : Instance) : Instance := { m with busy := true }

/-- A transaction ends. What still waits is given up. -/
def closed (m : Instance) : Instance := { m with busy := false, pending := [] }

/-- Takes the first event off the queue. An empty queue closes the transaction to further
events. -/
def next (m : Instance) : Option Occurrence × Instance :=
  match m.pending with
  | [] => (none, { m with busy := false })
  | o :: rest => (some o, { m with pending := rest })

def enqueue (m : Instance) (o : Occurrence) : Instance := { m with pending := m.pending ++ [o] }

end Instance

/-- How far a thread has come with a transaction of the machine. -/
inductive Phase where
  | idle
  /-- The thread waits for the lock of the transactions. An event brings its transaction to be
  processed first; ticks and initial effects bring none. -/
  | waiting (services : Services) (first : Option Occurrence)
  | admitted (services : Services) (first : Option Occurrence)
  /-- Guards and effects are evaluated; so many queued events may still be processed. -/
  | working (services : Services) (left : Nat)
  | draining (services : Services) (left : Nat)
  | closing
  | leaving

inductive Move where
  | call (services : Services) (first : Option Occurrence)
  | acquire
  | enter
  | emit (services : Services) (o : Occurrence)
  /-- A guard fails and counts as one that says no. -/
  | excuse (place : Text) (e : Error)
  /-- What is processed comes to its end. -/
  | finish
  /-- A guard or an effect fails, and the transaction with it. -/
  | fail
  | next
  | close
  | release

structure Threads where
  machine : Instance
  phases : List Phase
  /-- The thread that has the lock of the transactions. -/
  holder : Option Nat := none
  /-- The events that threads have called for a transaction with. -/
  called : List Occurrence := []
  /-- What the transactions have begun with, the earliest first. -/
  begun : List (Option Occurrence) := []
  /-- What has been done, the earliest first. During a transaction it is kept with the number of
  this transaction. -/
  deeds : List (Option Nat × Services × Deed) := []

namespace Threads

/-- Threads that have not yet done anything. -/
def start (m : Instance) (count : Nat) : Threads where
  machine := m
  phases := List.replicate count .idle

def turn (s : Threads) (i : Nat) (phase : Phase) : Threads :=
  { s with phases := s.phases.set i phase }

/-- The number of the transaction that takes events into its queue. -/
def current (s : Threads) : Option Nat := if s.machine.busy then some s.begun.length else none

def keep (s : Threads) (services : Services) (deed : Deed) : Threads :=
  { s with deeds := s.deeds ++ [(s.current, services, deed)] }

def enter (s : Threads) (services : Services) (first : Option Occurrence) : Threads :=
  let s := { s with machine := s.machine.opened, begun := s.begun ++ [first] }
  match first with
  | some o => s.keep services (.processed o)
  | none => s

/-- An event is emitted. Whether it waits or the thread dispatches it is decided in one move. -/
def emit (s : Threads) (i : Nat) (services : Services) (o : Occurrence) : Threads :=
  let fate := s.machine.fate services o.event
  let s := s.keep services (.emitted o fate)
  match fate with
  | .undeclared | .refused => s
  | .queued => { s with machine := s.machine.enqueue o }
  | .dispatched => s.turn i (.waiting services (some o))

/-- The next queued event is processed, or dropped if none may be processed any more. -/
def advance (s : Threads) (i : Nat) (services : Services) (left : Nat) : Threads :=
  let s' := { s with machine := s.machine.next.2 }
  match s.machine.next.1, left with
  | none, _ => s'.turn i .closing
  | some o, 0 => s'.keep services (.dropped o)
  | some o, left + 1 => (s'.keep services (.processed o)).turn i (.working services left)

/-- A move of a thread that is in the phase for it. -/
def move (s : Threads) (i : Nat) : Phase → Move → Option Threads
  | .idle, .call services first =>
    some ({ s with called := s.called ++ first.toList }.turn i (.waiting services first))
  | .idle, .emit services o => some (s.emit i services o)
  | .waiting services first, .acquire =>
    if s.holder.isNone then
      some ({ s with holder := some i }.turn i (.admitted services first))
    else none
  | .admitted services first, .enter =>
    some ((s.enter services first).turn i (.working services services.maxQueued))
  | .working _ _, .emit services o => some (s.emit i services o)
  | .working services _, .excuse place e => some (s.keep services (.guardFailed place e))
  | .working services left, .finish => some (s.turn i (.draining services left))
  | .working _ _, .fail => some (s.turn i .closing)
  | .draining services left, .next => some (s.advance i services left)
  | .closing, .close => some ({ s with machine := s.machine.closed }.turn i .leaving)
  | .leaving, .release => some ({ s with holder := none }.turn i .idle)
  | _, _ => none

def step (s : Threads) (entry : Nat × Move) : Option Threads :=
  match s.phases[entry.1]? with
  | some phase => s.move entry.1 phase entry.2
  | none => none

/-- The moves of threads, one after the other. -/
def run (s : Threads) (moves : List (Nat × Move)) : Option Threads := moves.foldlM step s

end Threads
end EntityMachines
