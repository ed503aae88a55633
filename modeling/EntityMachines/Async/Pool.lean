import EntityMachines.Async.Scheduler

/-!
A scheduler in virtual time. Of every job it is known how long it runs and how it ends; time
passes only while somebody waits, and jobs start as soon as they are submitted.
-/
namespace EntityMachines

/-- A job that runs until a given time. -/
structure Work (α : Type) where
  id : Nat
  due : Nat
  outcome : Except Error α

structure Pool (α : Type) where
  scheduler : Scheduler α
  /-- The jobs that run, those that end sooner first. -/
  work : List (Work α) := []
  now : Nat := 0

namespace Pool

variable {α : Type}

/-- Puts a job behind those that end no later. -/
def place (w : Work α) : List (Work α) → List (Work α)
  | [] => [w]
  | other :: rest => if w.due < other.due then w :: other :: rest else other :: place w rest

/-- Submits a job, which needs to have something to do. -/
def submit (p : Pool α) (name : Text) (task : Option (Nat × Except Error α)) :
    Except Error (Nat × Pool α) :=
  match task with
  | none => .error (.argument .emptyJob)
  | some (duration, outcome) =>
    let (id, s) := p.scheduler.submit name
    let s := (s.start (s.crew.idxOf .idle)).2
    .ok (id, { p with scheduler := s, work := place ⟨id, p.now + duration, outcome⟩ p.work })

/-- The end of one job, whose worker becomes idle. -/
def settle (s : Scheduler α) (w : Work α) : Scheduler α :=
  let i := s.crew.idxOf (.running w.id)
  (s.finish i w.id w.outcome).rest i

/-- Lets jobs end in order until something holds. No job ends beyond the time that is given; if
one would, all of that time passes. -/
def waitFor (holds : Scheduler α → Bool) (limit : Option Nat) (s : Scheduler α) (now : Nat) :
    List (Work α) → Pool α
  | [] => ⟨s, [], if holds s then now else limit.getD now⟩
  | w :: rest =>
    if holds s then ⟨s, w :: rest, now⟩
    else if limit.any (· < w.due) then ⟨s, w :: rest, limit.getD now⟩
    else waitFor holds limit (settle s w) (max now w.due) rest

/-- Waits until something holds, or for some milliseconds. -/
def wait (p : Pool α) (holds : Scheduler α → Bool) (ms : Option Nat) : Pool α :=
  waitFor holds (ms.map (p.now + ·)) p.scheduler p.now p.work

end Pool
end EntityMachines
