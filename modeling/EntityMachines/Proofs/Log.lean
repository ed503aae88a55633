import EntityMachines.Log
import Mathlib.Data.List.DropRight

/-!
What a log holds after any writing and clearing. The records of a run are numbered from its begin
on, whether they are kept or not. Main statement: of those written since the log was last cleared it
holds the newest ones, as many as there are and fit, so that their numbers are consecutive and the
last of them counts all records written.
-/
namespace EntityMachines
namespace Log

/-- What is done to a log. The number of a record that is yet to be written does not count. -/
inductive Action where
  | write (record : Record)
  | clear
deriving DecidableEq, Repr

namespace Action

/-- The record that is written, if one is. -/
def record? : Action → Option Record
  | write record => some record
  | clear => none

def isWrite (action : Action) : Bool := action.record?.isSome

end Action

def apply (log : Log) : Action → Log
  | .write r => log.write r.level r.category r.source r.message r.time
  | .clear => log.clear

/-- A log of the given capacity after a run. -/
def after (capacity : ℕ) (run : List Action) : Log := run.foldl apply (empty capacity)

/-- All records that are written in a run, in this order and under the numbers that they get. -/
def numbered (run : List Action) : List Record :=
  ((run.filterMap Action.record?).zipIdx 1).map fun (r, n) => { r with number := n }

/-- How many records are written after the last time that the log is cleared. -/
def recent (run : List Action) : ℕ := (run.rtakeWhile Action.isWrite).length

variable {capacity : ℕ} {run : List Action} {log : Log}

@[simp] theorem after_concat (capacity : ℕ) (run : List Action) (action : Action) :
    after capacity (run ++ [action]) = (after capacity run).apply action := by
  simp [after]

@[simp] theorem numbered_write (run : List Action) (r : Record) :
    numbered (run ++ [.write r])
      = numbered run ++ [{ r with number := (numbered run).length + 1 }] := by
  simp [numbered, Action.record?, List.zipIdx_append, Nat.add_comm]

@[simp] theorem numbered_clear (run : List Action) :
    numbered (run ++ [.clear]) = numbered run := by
  have hnone : [Action.clear].filterMap Action.record? = [] := rfl
  simp [numbered, hnone]

@[simp] theorem recent_write (run : List Action) (r : Record) :
    recent (run ++ [.write r]) = recent run + 1 := by
  have hwrite : Action.isWrite (.write r) = true := rfl
  simp [recent, List.rtakeWhile_concat_pos, hwrite]

@[simp] theorem recent_clear (run : List Action) : recent (run ++ [.clear]) = 0 := by
  have hclear : ¬Action.isWrite .clear = true := by decide
  simp [recent, List.rtakeWhile_concat_neg, hclear]

theorem recent_le (run : List Action) : recent run ≤ (numbered run).length := by
  induction run using List.reverseRecOn with
  | nil => simp [recent]
  | append_singleton run action ih =>
    cases action with
    | write r => simpa using ih
    | clear => simp

/-- The numbers of a run count its records. -/
theorem number_numbered (run : List Action) :
    (numbered run).map Record.number = List.range' 1 (numbered run).length := by
  induction run using List.reverseRecOn with
  | nil => rfl
  | append_singleton run action ih =>
    cases action with
    | write r => simp [ih, List.range'_concat, Nat.add_comm 1]
    | clear => simpa using ih

/-- The numbers of so many records at the end of a run. -/
theorem number_rtake {count : ℕ} (h : count ≤ (numbered run).length) :
    ((numbered run).rtake count).map Record.number
      = List.range' ((numbered run).length + 1 - count) count := by
  simp only [List.rtake, List.map_drop, number_numbered, List.drop_range']
  congr 1 <;> omega

/-- How a log stands after a run: it holds the newest records since it was cleared, as many as there
are and fit. -/
structure Holds (limit : ℕ) (run : List Action) (log : Log) : Prop where
  capacity : log.capacity = limit
  written : log.written = (numbered run).length
  records : log.records = (numbered run).rtake (min limit (recent run))

namespace Holds

theorem start (capacity : ℕ) : Holds capacity [] (empty capacity) := by
  constructor <;> simp [empty, numbered]

theorem length_records (h : Holds capacity run log) :
    log.records.length = min capacity (recent run) := by
  have hle := recent_le run
  simp only [h.records, List.rtake, List.length_drop]
  omega

/-- Without its oldest record if it is full, a log has room for one more. -/
theorem room (h : Holds (capacity + 1) run log) :
    (if log.records.length = capacity + 1 then log.records.drop 1 else log.records)
      = (numbered run).rtake (min capacity (recent run)) := by
  have hlength := h.length_records
  have hle := recent_le run
  rw [hlength, h.records]
  unfold List.rtake
  split
  · rw [List.drop_drop]
    congr 1
    omega
  · congr 1
    omega

theorem write (h : Holds capacity run log) (r : Record) :
    Holds capacity (run ++ [.write r]) (log.apply (.write r)) := by
  constructor
  · exact h.capacity
  · simp [apply, Log.write, h.written]
  · simp only [apply, Log.write, h.capacity, h.written, numbered_write, recent_write]
    cases capacity with
    | zero => simp
    | succ capacity =>
      rw [if_neg (Nat.succ_ne_zero capacity), h.room, Nat.succ_min_succ, List.rtake_concat_succ]

theorem clear (h : Holds capacity run log) :
    Holds capacity (run ++ [.clear]) (log.apply .clear) := by
  constructor
  · exact h.capacity
  · simp [apply, Log.clear, h.written]
  · simp [apply, Log.clear]

end Holds

theorem holds_after (capacity : ℕ) (run : List Action) :
    Holds capacity run (after capacity run) := by
  induction run using List.reverseRecOn with
  | nil => exact .start capacity
  | append_singleton run action ih =>
    rw [after_concat]
    cases action with
    | write r => exact ih.write r
    | clear => exact ih.clear

/-- Neither what the log gives up nor what is cleared makes the numbers begin anew. -/
theorem after_keeps_newest (capacity : ℕ) (run : List Action) :
    (after capacity run).records = (numbered run).rtake (min capacity (recent run)) ∧
    (after capacity run).size = min capacity (recent run) ∧
    (after capacity run).size ≤ capacity ∧
    (after capacity run).records.map Record.number
      = List.range' ((numbered run).length + 1 - (after capacity run).size)
        (after capacity run).size := by
  have hholds := holds_after capacity run
  have hsize : (after capacity run).size = min capacity (recent run) := hholds.length_records
  have hle := recent_le run
  refine ⟨hholds.records, hsize, by omega, ?_⟩
  rw [hholds.records, hsize]
  exact number_rtake (by omega)

-- the record that is cleared and the one that is given up have been counted
example (r : Record) :
    (after 2 [.write r, .clear, .write r, .write r, .write r]).records.map Record.number = [3, 4] :=
  rfl

end Log
end EntityMachines
