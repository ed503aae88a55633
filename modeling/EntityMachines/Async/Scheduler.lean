import EntityMachines.Error

/-!
A scheduler runs jobs on workers. What can happen to it are single steps, in any order: a job is
submitted, an idle worker starts the job that waits longest, a worker finishes its job, counts as
idle again, or leaves when the scheduler stops, a result is taken, a job is given up.

A job that is submitted while too few workers are idle brings a worker of its own, so that no
job waits for a job that was submitted before it.
-/
namespace EntityMachines

/-- Where a job stands, by name. -/
inductive JobPhase where
  | queued | running | done | failed | unknown
deriving DecidableEq, Repr

namespace JobPhase

def name : JobPhase → Text
  | queued => "queued"
  | running => "running"
  | done => "done"
  | failed => "failed"
  | unknown => "unknown"

/-- The phases by their number. -/
def ofIndex : Int → JobPhase
  | 0 => queued
  | 1 => running
  | 2 => done
  | 3 => failed
  | _ => unknown

end JobPhase

/-- A settled job has an outcome and a number in the order of finishing. -/
inductive JobStatus (α : Type) where
  | queued
  | running
  | settled (number : Nat) (outcome : Except Error α)

namespace JobStatus

variable {α : Type}

def isQueued : JobStatus α → Bool
  | queued => true
  | _ => false

def isSettled : JobStatus α → Bool
  | settled _ _ => true
  | _ => false

def isRunning : JobStatus α → Bool
  | running => true
  | _ => false

def phase : JobStatus α → JobPhase
  | queued => .queued
  | running => .running
  | settled _ (.ok _) => .done
  | settled _ (.error _) => .failed

/-- What went wrong, if something did. -/
def errorText : JobStatus α → Text
  | settled _ (.error .unnamed) => "unknown exception"
  | settled _ (.error e) => e.message
  | _ => []

end JobStatus

structure Job (α : Type) where
  id : Nat
  name : Text
  status : JobStatus α := .queued
  /-- Nobody wants the result; the job is forgotten once it has finished. -/
  released : Bool := false

structure JobStats where
  submitted : Nat := 0
  started : Nat := 0
  completed : Nat := 0
  failed : Nat := 0
  /-- The workers that were started because too few were idle. -/
  extra : Nat := 0
deriving DecidableEq, Repr

/-- Counts a job that has ended. -/
def JobStats.count {α : Type} (stats : JobStats) : Except Error α → JobStats
  | .ok _ => { stats with completed := stats.completed + 1 }
  | .error _ => { stats with failed := stats.failed + 1 }

/-- What a worker does. -/
inductive Worker where
  /-- It waits for a job, or is going to look for one. -/
  | idle
  | running (id : Nat)
  /-- Its job has finished, but the worker does not count as idle yet. -/
  | resting
  | gone
deriving DecidableEq, Repr

structure Scheduler (α : Type) where
  jobs : List (Job α) := []
  /-- The jobs that wait for a worker, the longest waiting first. -/
  queue : List Nat := []
  nextId : Nat := 1
  nextNumber : Nat := 1
  /-- The workers started so far. -/
  crew : List Worker := []
  /-- How many workers count as idle. -/
  idle : Nat := 0
  /-- Workers leave when there is nothing more to do. -/
  stopping : Bool := false
  stats : JobStats := {}

namespace Scheduler

variable {α : Type}

/-- As many workers as are wanted; if none are, as many as suit the processor. -/
def crewSize (wanted cores : Nat) : Nat :=
  if 0 < wanted then wanted else if cores = 0 then 2 else min cores 4

def withCrew (count : Nat) : Scheduler α :=
  { crew := List.replicate count .idle, idle := count }

def withWorkers (wanted : Nat) (cores : Nat := 4) : Scheduler α := withCrew (crewSize wanted cores)

def workers (s : Scheduler α) : Nat := s.crew.length

def find? (s : Scheduler α) (id : Nat) : Option (Job α) := s.jobs.find? fun job => job.id = id

def mapJob (s : Scheduler α) (id : Nat) (f : Job α → Job α) : Scheduler α :=
  { s with jobs := s.jobs.map fun job => if job.id = id then f job else job }

def forget (s : Scheduler α) (id : Nat) : Scheduler α :=
  { s with jobs := s.jobs.filter fun job => job.id ≠ id }

/-- Another worker, idle at first. -/
def hire (s : Scheduler α) : Scheduler α :=
  { s with
    crew := s.crew ++ [.idle]
    idle := s.idle + 1
    stats := { s.stats with extra := s.stats.extra + 1 } }

/-- A new job, which waits for a worker. -/
def enqueue (s : Scheduler α) (name : Text) : Scheduler α :=
  { s with
    jobs := s.jobs ++ [{ id := s.nextId, name }]
    queue := s.queue ++ [s.nextId]
    nextId := s.nextId + 1
    stats := { s.stats with submitted := s.stats.submitted + 1 } }

/-- Puts a job into the queue, and starts a worker if too few are idle. -/
def submit (s : Scheduler α) (name : Text) : Nat × Scheduler α :=
  let s' := s.enqueue name
  (s.nextId, if s'.idle < s'.queue.length then s'.hire else s')

def setWorker (s : Scheduler α) (i : Nat) (w : Worker) : Scheduler α :=
  { s with crew := s.crew.set i w }

/-- A worker that is idle starts a job. -/
def assign (s : Scheduler α) (i id : Nat) : Scheduler α :=
  { (s.mapJob id fun job => { job with status := .running }).setWorker i (.running id) with
    idle := s.idle - 1
    stats := { s.stats with started := s.stats.started + 1 } }

/-- A worker that is idle starts the job that waits longest. Numbers of jobs that are not known
leave the queue. -/
def start (s : Scheduler α) (i : Nat) : Option Nat × Scheduler α :=
  match s.queue.dropWhile fun id => (s.find? id).isNone with
  | [] => (none, { s with queue := [] })
  | id :: rest => (some id, { s with queue := rest }.assign i id)

/-- A job ends with an outcome; one that was released is forgotten. -/
def settle (s : Scheduler α) (id : Nat) (outcome : Except Error α) : Scheduler α :=
  if (s.find? id).any (·.released) then s.forget id
  else s.mapJob id fun job => { job with status := .settled s.nextNumber outcome }

/-- The job of a worker ends. -/
def finish (s : Scheduler α) (i id : Nat) (outcome : Except Error α) : Scheduler α :=
  { (s.settle id outcome).setWorker i .resting with
    nextNumber := s.nextNumber + 1
    stats := s.stats.count outcome }

/-- A worker whose job has finished counts as idle. -/
def rest (s : Scheduler α) (i : Nat) : Scheduler α :=
  { s.setWorker i .idle with idle := s.idle + 1 }

/-- A worker that is idle leaves for good. -/
def leave (s : Scheduler α) (i : Nat) : Scheduler α :=
  { s.setWorker i .gone with idle := s.idle - 1 }

def stop (s : Scheduler α) : Scheduler α := { s with stopping := true }

/-- The outcome of a job that has settled. -/
def outcome? (s : Scheduler α) (id : Nat) : Option (Except Error α) :=
  match s.find? id with
  | some { status := .settled _ outcome, .. } => some outcome
  | _ => none

/-- Takes the result of a settled job and forgets the job. -/
def take (s : Scheduler α) (id : Nat) : Except Error α × Scheduler α :=
  match s.find? id with
  | none => (.error (.argument (.unknownJob id)), s)
  | some job =>
    match job.status with
    | .settled _ outcome => (outcome, s.forget id)
    | _ => (.error (.unsettledJob id), s)

/-- Gives a job up. One that has not settled goes on, but its result cannot be taken. -/
def release (s : Scheduler α) (id : Nat) : Scheduler α :=
  match s.find? id with
  | none => s
  | some job =>
    if job.status.isSettled then s.forget id
    else s.mapJob id fun job => { job with released := true }

/-- A job that is not known counts as settled. -/
def isSettled (s : Scheduler α) (id : Nat) : Bool :=
  match s.find? id with
  | none => true
  | some job => job.status.isSettled

/-- The number in the order of finishing; unknown jobs come after all others. -/
def number? (s : Scheduler α) (id : Nat) : Option Nat :=
  match s.find? id with
  | some { status := .settled number _, .. } => some number
  | _ => none

/-- Whether one job finished before another. -/
def finishedBefore (s : Scheduler α) (a b : Nat) : Bool :=
  match s.number? a, s.number? b with
  | some m, some n => m < n
  | some _, none => true
  | none, _ => false

/-- The job that settled first among some; of unknown ones the first counts. -/
def firstSettled? (s : Scheduler α) (ids : List Nat) : Option Nat :=
  (ids.filter s.isSettled).foldl
    (fun best id =>
      match best with
      | none => some id
      | some first => if s.finishedBefore id first then some id else some first)
    none

/-- No job waits or runs. -/
def isQuiet (s : Scheduler α) : Bool := s.jobs.all (·.status.isSettled)

def phase (s : Scheduler α) (id : Nat) : JobPhase :=
  match s.find? id with
  | some job => job.status.phase
  | none => .unknown

end Scheduler

/-!
What happens to a scheduler, move by move. Each move is made at once, by a worker or by somebody
who uses the scheduler, and moves may come in any order.
-/

inductive SchedulerMove (α : Type) where
  | submit (name : Text)
  /-- An idle worker looks for a job. -/
  | start (worker : Nat)
  /-- The job of a worker ends. -/
  | finish (worker : Nat) (outcome : Except Error α)
  | rest (worker : Nat)
  | leave (worker : Nat)
  | stop
  | take (id : Nat)
  | release (id : Nat)

/-- What happens to a job. -/
inductive JobEvent (α : Type) where
  | submitted (id : Nat)
  | started (id : Nat)
  | finished (id number : Nat) (outcome : Except Error α)
  /-- The outcome is handed out. -/
  | taken (id : Nat) (outcome : Except Error α)
  | released (id : Nat)

variable {α : Type}

namespace Scheduler

/-- A move that is possible: the scheduler after it, and what happens to a job. -/
def step (s : Scheduler α) : SchedulerMove α → Option (Scheduler α × Option (JobEvent α))
  | .submit name => some ((s.submit name).2, some (.submitted s.nextId))
  | .start i =>
    if s.crew[i]? = some .idle ∧ s.queue ≠ [] then
      some ((s.start i).2, (s.start i).1.map .started)
    else none
  | .finish i outcome =>
    match s.crew[i]? with
    | some (.running id) => some (s.finish i id outcome, some (.finished id s.nextNumber outcome))
    | _ => none
  | .rest i => if s.crew[i]? = some .resting then some (s.rest i, none) else none
  | .leave i =>
    if s.crew[i]? = some .idle ∧ s.stopping = true ∧ s.queue = [] then some (s.leave i, none)
    else none
  | .stop => some (s.stop, none)
  | .take id => some ((s.take id).2, (s.outcome? id).map (.taken id))
  | .release id => some (s.release id, (s.find? id).map fun _ => .released id)

end Scheduler

/-- A scheduler with what has happened to its jobs so far, the earliest first. -/
structure Chronicle (α : Type) where
  scheduler : Scheduler α
  events : List (JobEvent α) := []

namespace Chronicle

/-- Nothing has happened yet. -/
def start (count : Nat) : Chronicle α := { scheduler := .withCrew count }

def step (c : Chronicle α) (move : SchedulerMove α) : Option (Chronicle α) :=
  (c.scheduler.step move).map fun (s, event) => ⟨s, c.events ++ event.toList⟩

/-- The moves, one after the other. -/
def run (c : Chronicle α) (moves : List (SchedulerMove α)) : Option (Chronicle α) :=
  moves.foldlM step c

end Chronicle
end EntityMachines
