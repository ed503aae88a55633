import EntityMachines.Proofs.Host.Neighbors
import EntityMachines.Proofs.Machine.Held

/-!
Machines that are removed. What is asked of a host adds a machine under a new handle, removes one or
all of them, or leaves the machines that are there, and the definitions that are kept go along with
them. A machine that is removed is gone for good: nothing can be asked of it, its handle is not given
out again, and the timers that it armed come to nothing.
-/
namespace EntityMachines

open Eval (Keeps Frame)
open Machine (Silent Missing)

/-- The handles of all machines, the latest first, with their definitions. -/
def World.roll (w : World) : List (Nat × Definition) :=
  w.machines.map fun m => (m.handle, m.definition)

theorem World.map_roll (w : World) : w.roll.map (·.1) = w.handles := List.map_map

theorem World.machine?_eq_none {w : World} {a : Nat} : w.machine? a = none ↔ a ∉ w.handles := by
  rw [World.mem_handles, ← Option.isSome_iff_exists, Option.not_isSome_iff_eq_none]

namespace Machine

/-- No machine comes or goes, or gets another definition. -/
def RollKept (w w' : World) : Prop := w'.roll = w.roll

theorem rollKept_frame : MachineFrame RollKept where
  same _ _ _ hm := congrArg (List.map _) hm
  trans h h' := h'.trans h
  write _ _ _ := rfl

theorem rollKept_update (handle : Nat) (w : World) {f : Instance → Instance}
    (hf : ∀ m, (f m).handle = m.handle ∧ (f m).definition = m.definition) :
    RollKept w (w.mapMachine handle f) := by
  unfold RollKept World.roll World.mapMachine
  rw [List.map_map]
  refine List.map_congr_left fun m _ => ?_
  by_cases hm : m.handle = handle
  · simp [hm, hf]
  · simp [hm]

theorem rollKept_transacts (handle : Nat) : Transacts RollKept handle fun _ => True :=
  rollKept_frame.transacts_of_update fun w _ hf => rollKept_update handle w hf

theorem rollKept_respects (n : Nat) :
    (Evaluator.withFuel Library.standard n).Respects RollKept fun _ => True :=
  Transacts.withFuel_respects rollKept_transacts n

end Machine

/-- What is asked of a host: moves, and besides them to keep a definition, and to start afresh. -/
inductive Host.Errand where
  | move (move : Move)
  | store (d : Definition)
  | clear

namespace Host

variable {ev : Evaluator} {h h' : Host} {n a : Nat} {e : Errand}

/-- The host behind an errand. -/
def done (ev : Evaluator) (h : Host) : Errand → Host
  | .move move => h.moved ev move
  | .store d => behind (storeDefinition d) h
  | .clear => behind clear h

/-- The host behind some errands, one after the other. -/
def after (ev : Evaluator) (h : Host) (errands : List Errand) : Host := errands.foldl (done ev) h

/-- The passes of all machines keep what the pass of each does. -/
theorem visited_keeps {R : World → World → Prop} (hR : Frame R) {now : Int}
    (hx : ∀ b, Keeps R (Machine.runDueTicks ev h.services b now)) (order : List Nat) :
    R h.world (h.visited ev now order).world := by
  refine (visited_of_each (I := fun h' => h'.services = h.services ∧ R h.world h'.world)
    (fun h' b hh' => ?_) order ⟨rfl, hR.refl _⟩).2
  rw [visited_singleton, hh'.1]
  exact ⟨rfl, hR.trans hh'.2 (hx b h'.world)⟩

/-- What an errand does to the machines, and with it to the definitions that are kept. -/
inductive Turnover (h h' : Host) : Errand → Prop
  | same {e : Errand} (roll : h'.world.roll = h.world.roll) (kept : h'.kept = h.kept)
      (next : h'.nextInstance = h.nextInstance) : Turnover h h' e
  | joins {definition : Nat} {given seed : Value} (d : Definition)
      (roll : h'.world.roll = (h.nextInstance, d) :: h.world.roll)
      (kept : h'.kept = (h.nextInstance, d) :: h.kept)
      (next : h'.nextInstance = h.nextInstance + 1) :
      Turnover h h' (.move (.create definition given seed))
  | leaves {b : Nat} (roll : h'.world.roll = h.world.roll.filter fun entry => entry.1 ≠ b)
      (kept : h'.kept = h.kept.filter fun entry => entry.1 ≠ b)
      (next : h'.nextInstance = h.nextInstance) : Turnover h h' (.move (.destroy b))
  | cleared (roll : h'.world.roll = []) (kept : h'.kept = [])
      (next : h'.nextInstance = h.nextInstance) : Turnover h h' .clear

theorem roll_without (h : Host) (handle : Nat) :
    (h.without handle).world.roll = h.world.roll.filter fun entry => entry.1 ≠ handle := by
  unfold without World.roll
  rw [List.filter_map]
  rfl

theorem Stepped.turnover {move : Move}
    (hstep : Stepped (Evaluator.withFuel Library.standard n) h move h') :
    Turnover h h' (.move move) := by
  have hrespects := Machine.rollKept_respects n
  have hworld {w : World} (hroll : Machine.RollKept h.world w) :
      Turnover h { h with world := w } (.move move) := .same hroll rfl rfl
  cases hstep with
  | joins log =>
    exact .joins _ ((Machine.rollKept_transacts _).runInitialEffects_keeps hrespects _) rfl rfl
  | leaves b => exact .leaves (roll_without h b) rfl rfl
  | acts event payload =>
    exact hworld ((Machine.rollKept_transacts _).dispatch_keeps hrespects event payload _)
  | passes now order =>
    refine hworld (visited_keeps hrespects.frame (fun b => ?_) order)
    exact (Machine.rollKept_transacts b).runDueTicks_keeps hrespects
      (Machine.MachineFrame.timed_of_update fun w _ hf => Machine.rollKept_update b w hf) now
  | expires rounds => exact hworld (Timers.settle_keeps hrespects _ _)
  | refused | installs | sets | replies => exact .same rfl rfl rfl

theorem turnover (n : Nat) (h : Host) (e : Errand) :
    Turnover h (h.done (Evaluator.withFuel Library.standard n) e) e := by
  cases e with
  | move move => exact (stepped _ h move).turnover
  | store d => exact .same rfl rfl rfl
  | clear => exact .cleared rfl rfl rfl

/-- The definitions that are kept are those of the machines, and the handles of the machines have
been given out. -/
structure Tidy (h : Host) : Prop where
  kept : h.kept = h.world.roll
  given : ∀ b ∈ h.live, b < h.nextInstance

theorem Tidy.handles (hh : h.Tidy) : h.kept.map (·.1) = h.live := by
  rw [hh.kept, World.map_roll]
  rfl

theorem Turnover.tidy (ht : Turnover h h' e) (hh : h.Tidy) : h'.Tidy := by
  have hgiven := hh.given
  unfold live at hgiven
  rw [← World.map_roll, List.forall_mem_map] at hgiven
  have hof {roll : List (Nat × Definition)} (hroll : h'.world.roll = roll) (hkept : h'.kept = roll)
      (hlt : ∀ entry ∈ roll, entry.1 < h'.nextInstance) : h'.Tidy := by
    refine ⟨hkept.trans hroll.symm, ?_⟩
    unfold live
    rw [← World.map_roll, hroll, List.forall_mem_map]
    exact hlt
  cases ht with
  | same roll kept next => exact hof roll (kept.trans hh.kept) (next ▸ hgiven)
  | joins d roll kept next =>
    refine hof roll (hh.kept ▸ kept) ?_
    rw [next, List.forall_mem_cons]
    exact ⟨Nat.lt_succ_self _, fun entry hentry => (hgiven entry hentry).trans (Nat.lt_succ_self _)⟩
  | leaves roll kept next =>
    refine hof roll (hh.kept ▸ kept) fun entry hentry => ?_
    rw [next]
    exact hgiven entry (List.mem_filter.mp hentry).1
  | cleared roll kept next => exact hof roll kept fun _ hentry => absurd hentry List.not_mem_nil

/-- By induction over the errands. -/
theorem Tidy.after (hh : h.Tidy) (errands : List Errand) :
    (h.after (Evaluator.withFuel Library.standard n) errands).Tidy := by
  induction errands generalizing h with
  | nil => exact hh
  | cons e rest ih => exact ih ((turnover n h e).tidy hh)

theorem Turnover.next_le (ht : Turnover h h' e) : h.nextInstance ≤ h'.nextInstance := by
  cases ht with
  | joins d roll kept next => exact next ▸ Nat.le_succ _
  | same _ _ next | leaves _ _ next | cleared _ _ next => exact next.ge

/-- An errand that takes a machine away. -/
inductive Removes (a : Nat) (h : Host) : Errand → Prop
  | destroy {h' : Host} : destroy a h = .ok () h' → Removes a h (.move (.destroy a))
  | clear : a ∈ h.live → Removes a h .clear

theorem Removes.of_live (ha : a ∈ h.live) : Removes a h (.move (.destroy a)) := by
  obtain ⟨m, hm⟩ := World.mem_handles.mp ha
  exact .destroy (Eval.bind_of_ok (require_some hm "destroy_instance"))

/-- There is no machine under a handle that has been given out. -/
structure Gone (a : Nat) (h : Host) : Prop where
  machine : h.world.machine? a = none
  given : a < h.nextInstance

theorem Removes.gone (hr : Removes a h e) (hh : h.Tidy) : (h.done ev e).Gone a := by
  cases hr with
  | clear hlive => exact ⟨rfl, hh.given a hlive⟩
  | @destroy h' hdestroy =>
    cases hm : h.world.machine? a with
    | none =>
      cases hdestroy.symm.trans (Eval.bind_of_error (require_none hm "destroy_instance"))
    | some m =>
      have hdone : h.done ev (.move (.destroy a)) = h.without a :=
        behind_ok (Eval.bind_of_ok (require_some hm "destroy_instance"))
      rw [hdone]
      refine ⟨?_, hh.given a (World.mem_handles.mpr ⟨m, hm⟩)⟩
      exact (World.machine?_filter rfl a).trans (if_pos rfl)

/-- A machine goes only where it is removed. -/
theorem removes_iff (hh : h.Tidy) : Removes a h e ↔
    a ∈ h.live ∧ a ∉ (h.done (Evaluator.withFuel Library.standard n) e).live := by
  constructor
  · intro hr
    refine ⟨?_, World.machine?_eq_none.mp (hr.gone hh).machine⟩
    cases hr with
    | clear hlive => exact hlive
    | destroy hdestroy =>
      by_contra hnone
      have hm := World.machine?_eq_none.mpr hnone
      cases hdestroy.symm.trans (Eval.bind_of_error (require_none hm "destroy_instance"))
  · rintro ⟨hlive, hnone⟩
    unfold live at hnone
    rw [← World.map_roll] at hnone
    have hroll : a ∈ h.world.roll.map (·.1) := by
      rw [World.map_roll]
      exact hlive
    cases turnover n h e with
    | same roll _ _ =>
      rw [roll] at hnone
      exact absurd hroll hnone
    | joins d roll _ _ =>
      rw [roll] at hnone
      exact absurd (List.mem_cons_of_mem _ hroll) hnone
    | cleared roll _ _ => exact .clear hlive
    | @leaves b roll _ _ =>
      obtain rfl : a = b := by
        by_contra hb
        obtain ⟨entry, hentry, rfl⟩ := List.mem_map.mp hroll
        rw [roll] at hnone
        exact hnone (List.mem_map_of_mem (List.mem_filter.mpr ⟨hentry, decide_eq_true hb⟩))
      exact .of_live hlive

/-- An errand leaves a machine that is gone alone, and does not give its handle to another. -/
theorem Gone.silent (hh : h.Gone a) (e : Errand) :
    Silent a h.world (h.done (Evaluator.withFuel Library.standard n) e).world := by
  have hemptied {w : World} (hm : w.machine? a = none) (hhistory : w.history = h.world.history)
      (hcalls : w.calls = h.world.calls) : Silent a h.world w :=
    .of_apart ⟨hm.trans hh.machine.symm, [], hhistory, rfl⟩ hcalls
  cases e with
  | store d => exact .of_same rfl rfl rfl
  | clear => exact hemptied rfl rfl rfl
  | move move =>
    have hstep := stepped (Evaluator.withFuel Library.standard n) h move
    rw [done]
    generalize h.moved (Evaluator.withFuel Library.standard n) move = h' at hstep
    cases hstep with
    | @joins _ _ seed d config log =>
      have hm : (h.joined d config seed log).world.machine? a = none := by
        rw [machine?_joined, if_neg hh.given.ne]
        exact hh.machine
      exact (hemptied hm rfl rfl).trans
        (Machine.missing_runInitialEffects a n h.services hh.given.ne' _ hm)
    | leaves b =>
      refine hemptied ?_ rfl rfl
      rw [World.machine?_filter rfl, hh.machine, ite_self]
    | @acts b m event payload present =>
      have hb : b ≠ a := by
        rintro rfl
        cases hh.machine.symm.trans present
      exact Machine.missing_dispatch a n h.services hb event payload _ hh.machine
    | passes now order =>
      exact visited_keeps (Machine.missing_openFrame a).toFrame
        (fun b => Machine.missing_runDueTicks a n h.services b now) order hh.machine
    | expires rounds => exact Timers.settle_keeps (Machine.missing_respects a n) _ _ hh.machine
    | refused | installs | sets | replies => exact .of_same rfl rfl rfl

/-- By induction over the errands. -/
theorem Gone.after (hh : h.Gone a) (errands : List Errand) :
    (h.after (Evaluator.withFuel Library.standard n) errands).Gone a ∧
      Silent a h.world (h.after (Evaluator.withFuel Library.standard n) errands).world := by
  induction errands generalizing h with
  | nil => exact ⟨hh, .of_same rfl rfl rfl⟩
  | cons e rest ih =>
    have hsilent := hh.silent (n := n) e
    obtain ⟨hgone, hlater⟩ := ih (h := h.done (Evaluator.withFuel Library.standard n) e)
      ⟨hsilent.machine hh.machine, hh.given.trans_le (turnover n h e).next_le⟩
    exact ⟨hgone, hsilent.trans hlater⟩

/-- Nothing can be asked of a handle, and it is not given out. -/
structure Dead (ev : Evaluator) (a : Nat) (h : Host) : Prop where
  dispatch : ∀ event payload, Host.dispatch ev a event payload h
    = .error (.raised (.argument (.unknownInstance "dispatch"))) h
  state : Host.state a h = .error (.raised (.argument (.unknownInstance "current_state"))) h
  entity : Host.entity a h = .error (.raised (.argument (.unknownInstance "entity_snapshot"))) h
  destroy : Host.destroy a h = .error (.raised (.argument (.unknownInstance "destroy_instance"))) h
  create : ∀ definition given seed b h', Host.create ev definition given seed h = .ok b h' → b ≠ a

/-- Whoever gets a handle gets the next one. -/
theorem create_next {definition b : Nat} {given seed : Value}
    (hcreate : create ev definition given seed h = .ok b h') : b = h.nextInstance := by
  rcases begins_or_refused ev definition given seed h with ⟨w, hbegins⟩ | ⟨fault, hrefused⟩
  · obtain ⟨d, -, -, hd, -⟩ := id hbegins
    rw [hbegins.create_eq hd] at hcreate
    cases hr : Machine.runInitialEffects ev h.services h.nextInstance w with
    | ok _ w' =>
      rw [hr] at hcreate
      cases hcreate
      rfl
    | error fault w' =>
      rw [hr] at hcreate
      cases hcreate
  · cases hcreate.symm.trans hrefused

theorem Gone.dead (hh : h.Gone a) (ev : Evaluator) : Dead ev a h where
  dispatch event payload := dispatch_none ev a event payload hh.machine
  state := Eval.bind_of_error (require_none hh.machine "current_state")
  entity := Eval.bind_of_error (require_none hh.machine "entity_snapshot")
  destroy := Eval.bind_of_error (require_none hh.machine "destroy_instance")
  create _ _ _ _ _ hcreate := by
    rw [create_next hcreate]
    exact hh.given.ne'

/-- Whatever is asked of a host that began without machines, the definitions that are kept are those
of the live machines, and a machine that was removed is dead and silent ever after. -/
theorem removed_for_good (n : Nat) {start : Host} (hmachines : start.world.machines = [])
    (hkept : start.kept = []) (before : List Errand) :
    let reached := start.after (Evaluator.withFuel Library.standard n) before
    reached.kept.map (·.1) = reached.live ∧
      ∀ a removal, Removes a reached removal → ∀ later,
        let removed := reached.done (Evaluator.withFuel Library.standard n) removal
        Dead (Evaluator.withFuel Library.standard n) a
            (removed.after (Evaluator.withFuel Library.standard n) later) ∧
          Silent a removed.world
            (removed.after (Evaluator.withFuel Library.standard n) later).world := by
  intro reached
  have hstart : start.Tidy := by
    refine ⟨?_, fun b hb => ?_⟩
    · unfold World.roll
      rw [hkept, hmachines]
      rfl
    · unfold live World.handles at hb
      rw [hmachines] at hb
      cases hb
  have hreached : reached.Tidy := hstart.after before
  refine ⟨hreached.handles, fun a removal hremoves later => ?_⟩
  obtain ⟨hgone, hsilent⟩ := (hremoves.gone hreached).after (n := n) later
  exact ⟨hgone.dead _, hsilent⟩

/-- A machine that sets a timer as it begins. -/
def alarm : Definition where
  name := "alarm"
  initial := "set"
  states := [{ name := "set" }]
  events := [{ key := "RING" }]
  initialEffects := [Expr.call "async/debounce" ["RING", 100]]

def listening : Host := { services := { listens := true } }

/-- The timer of a new machine waits. -/
def armed : Host :=
  listening.after (Evaluator.withFuel Library.standard 4)
    [.store alarm, .move (.create 1 .undefined .undefined)]

/-- The machine is destroyed first, and its timer still waits. -/
def disarmed : Host := armed.done (Evaluator.withFuel Library.standard 4) (.move (.destroy 1))

/-- A timer that would have had its machine process an event comes to nothing. -/
theorem removed_for_good_alarm :
    armed.kept.map (·.1) = armed.live ∧
      (pick Deed.processed? ((armed.done (Evaluator.withFuel Library.standard 4)
        (.move (.expire 1))).world.deedsSince armed.world 1)).length = 1 ∧
      disarmed.world.timing.timers.length = 1 ∧
      Dead (Evaluator.withFuel Library.standard 4) 1
        (disarmed.after (Evaluator.withFuel Library.standard 4) [.move (.expire 1)]) ∧
      Silent 1 disarmed.world
        (disarmed.after (Evaluator.withFuel Library.standard 4) [.move (.expire 1)]).world := by
  have hruns : 1 ∈ armed.live ∧
      (pick Deed.processed? ((armed.done (Evaluator.withFuel Library.standard 4)
        (.move (.expire 1))).world.deedsSince armed.world 1)).length = 1 ∧
      disarmed.world.timing.timers.length = 1 := by decide +kernel
  obtain ⟨hlive, hprocessed, hwaits⟩ := hruns
  have hmachines : listening.world.machines = [] := rfl
  obtain ⟨hkept, hremoved⟩ := removed_for_good 4 hmachines rfl
    [.store alarm, .move (.create 1 .undefined .undefined)]
  exact ⟨hkept, hprocessed, hwaits, hremoved 1 _ (.of_live hlive) _⟩

end Host
end EntityMachines
