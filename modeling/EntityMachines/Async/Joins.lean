import EntityMachines.Async.Scheduler

/-!
Joins leave effects to the workers of a scheduler and wait for what becomes of them. A join submits
one job for each of its effects; it wants the values of all of them, the outcome of the one that
ends first, or the outcome of a single one within a time. The job that runs a join is blocked as
long as the join is open, and the jobs of the join may run joins of their own.
-/
namespace EntityMachines

/-- What a join wants of its effects. -/
inductive Combinator where
  | all (effects : Nat)
  | race (effects : Nat)
  | timeout
deriving DecidableEq, Repr

namespace Combinator

def name : Combinator → Text
  | all _ => "async/all"
  | race _ => "async/race"
  | timeout => "async/timeout"

def effects : Combinator → Nat
  | all n | race n => n
  | timeout => 1

/-- The first job to settle decides. -/
def takesFirst : Combinator → Bool
  | all _ => false
  | race _ | timeout => true

end Combinator

/-- How far a join has come. -/
inductive Stage where
  | submitting
  | waiting (pending : List Nat)
  /-- A job has settled, and its outcome is going to be taken. -/
  | taking (id : Nat) (pending : List Nat)
  /-- Jobs are given up, one after the other. Then the outcome of another job is taken, or an error
  is thrown. -/
  | releasing (id : Nat) (rest : List Nat) (next : Except Error Nat)
  | ended (answer : Except Error Value)

/-- Gives up jobs, if there are any. -/
def Stage.release : List Nat → Except Error Nat → Stage
  | id :: rest, next => releasing id rest next
  | [], .ok id => taking id []
  | [], .error e => ended (.error e)

structure Join where
  /-- The job that runs the join; there is none if it is run from outside. -/
  caller : Option Nat
  combinator : Combinator
  /-- The jobs of the effects, in the order of the effects. -/
  ids : List Nat := []
  values : List Value := []
  stage : Stage := .submitting

namespace Join

def start (caller : Option Nat) (combinator : Combinator) : Join where
  caller := caller
  combinator := combinator
  stage :=
    match combinator with
    | .all 0 => .ended (.ok (.array []))
    | .race 0 => .ended (.ok .undefined)
    | _ => .submitting

def isOpen (j : Join) : Bool :=
  match j.stage with
  | .ended _ => false
  | _ => true

/-- Another effect has become a job. After the last one the join waits. -/
def submit (j : Join) (id : Nat) : Join :=
  let ids := j.ids ++ [id]
  if ids.length < j.combinator.effects then { j with ids }
  else { j with ids, values := List.replicate ids.length .undefined, stage := .waiting ids }

/-- A job that the join has waited for has settled. Where it decides the join, the others are given
up. -/
def wake (j : Join) (id : Nat) (pending : List Nat) : Join :=
  let others := pending.filter fun other => other ≠ id
  if j.combinator.takesFirst then { j with stage := .release others (.ok id) }
  else { j with stage := .taking id others }

/-- A join takes the outcome of a job. -/
def receive (j : Join) (id : Nat) (pending : List Nat) (outcome : Except Error Value) : Join :=
  if j.combinator.takesFirst then { j with stage := .ended outcome }
  else
    match outcome with
    | .ok v =>
      let values := j.values.set (j.ids.idxOf id) v
      if pending.isEmpty then { j with values, stage := .ended (.ok (.array values)) }
      else { j with values, stage := .waiting pending }
    | .error e => { j with stage := .release pending (.error e) }

/-- What a join does next, unless it has to wait. -/
def go (c : Chronicle Value) (j : Join) : Option (Chronicle Value × Join) :=
  match j.stage with
  | .submitting =>
    (c.step (.submit j.combinator.name)).map fun c' => (c', j.submit c.scheduler.nextId)
  | .waiting pending =>
    (c.scheduler.firstSettled? pending).map fun id => (c, j.wake id pending)
  | .taking id pending =>
    (c.step (.take id)).map fun c' => (c', j.receive id pending (c.scheduler.take id).1)
  | .releasing id rest next =>
    (c.step (.release id)).map fun c' => (c', { j with stage := .release rest next })
  | .ended _ => none

/-- The time of a join is up, and its job has not settled. -/
def expire (s : Scheduler Value) (j : Join) : Option Join :=
  match j.combinator, j.stage with
  | .timeout, .waiting pending =>
    if (s.firstSettled? pending).isNone then
      some { j with stage := .release pending (.error .timeout) }
    else none
  | _, _ => none

end Join

/-- A scheduler and the joins that have been run with it. -/
structure Joins where
  chronicle : Chronicle Value
  joins : List Join := []

inductive JoinMove where
  /-- A worker, or somebody who runs no join, makes a move. -/
  | pool (move : SchedulerMove Value)
  | join (caller : Option Nat) (combinator : Combinator)
  | go (k : Nat)
  | expire (k : Nat)

namespace Joins

def start (count : Nat) : Joins := { chronicle := .start count }

/-- A job that runs an open join. -/
def isBlocked (c : Joins) (id : Nat) : Bool :=
  c.joins.any fun j => j.caller = some id && j.isOpen

/-- A job may run a join while it runs and waits for no other one. -/
def mayJoin (c : Joins) : Option Nat → Bool
  | none => true
  | some id => c.chronicle.scheduler.phase id = .running && !c.isBlocked id

/-- A worker cannot finish a job that is blocked. -/
def holdsUp (c : Joins) : SchedulerMove Value → Bool
  | .finish i _ =>
    match c.chronicle.scheduler.crew[i]? with
    | some (.running id) => c.isBlocked id
    | _ => false
  | _ => false

def step (c : Joins) : JoinMove → Option Joins
  | .pool move =>
    if c.holdsUp move then none
    else (c.chronicle.step move).map fun chronicle => { c with chronicle }
  | .join caller combinator =>
    if c.mayJoin caller then some { c with joins := c.joins ++ [.start caller combinator] }
    else none
  | .go k => do
    let j ← c.joins[k]?
    let (chronicle, j') ← j.go c.chronicle
    return { chronicle, joins := c.joins.set k j' }
  | .expire k => do
    let j ← c.joins[k]?
    let j' ← j.expire c.chronicle.scheduler
    return { c with joins := c.joins.set k j' }

/-- The moves, one after the other. -/
def run (c : Joins) (moves : List JoinMove) : Option Joins := moves.foldlM step c

/-- Somebody takes or releases a job of a join. -/
def meddles (c : Joins) : JoinMove → Bool
  | .pool (.take id) | .pool (.release id) => c.joins.any fun j => j.ids.contains id
  | _ => false

/-- The jobs of the joins are left to them throughout. -/
def discreet (c : Joins) : List JoinMove → Bool
  | [] => true
  | move :: rest => !c.meddles move && (c.step move).all fun c' => c'.discreet rest

end Joins
end EntityMachines
