import EntityMachines.Proofs.Machine.Activity
import EntityMachines.Proofs.Machine.TickOrder
import EntityMachines.Proofs.Machine.Turns
import EntityMachines.Proofs.Machine.Worklist
import Mathlib.Data.List.Nodup

/-!
A pass over the ticks of a machine. Ticks have their turns by priority, and behind them the events
that they have emitted are processed, while the times of the ticks, and what their intervals depend
on, stay as they are.
-/
namespace EntityMachines
namespace Machine

/-- The times of the ticks of a machine are the same, and so are its definition and its
configuration. -/
def TimesKept (a : Nat) (w w' : World) : Prop :=
  ∀ m, w.machine? a = some m → ∃ m', w'.machine? a = some m' ∧
    m'.definition = m.definition ∧ m'.config = m.config ∧ m'.lastRun = m.lastRun

variable {a : Nat}

theorem TimesKept.trans {w w' w'' : World} (h : TimesKept a w w') (h' : TimesKept a w' w'') :
    TimesKept a w w'' := by
  intro m hm
  obtain ⟨m₁, hm₁, hd₁, hc₁, ht₁⟩ := h m hm
  obtain ⟨m₂, hm₂, hd₂, hc₂, ht₂⟩ := h' m₁ hm₁
  exact ⟨m₂, hm₂, hd₂.trans hd₁, hc₂.trans hc₁, ht₂.trans ht₁⟩

theorem timesKept_frame (a : Nat) : MachineFrame (TimesKept a) where
  same w w' _ hm m h := ⟨m, by rwa [World.machine?_congr hm], rfl, rfl, rfl⟩
  trans := TimesKept.trans
  write _ _ _ m h := ⟨m, h, rfl, rfl, rfl⟩

theorem timesKept_update (a handle : Nat) (w : World) {f : Instance → Instance}
    (hf : ∀ m, (f m).handle = m.handle)
    (hkept : a = handle → ∀ m, (f m).definition = m.definition ∧ (f m).config = m.config ∧
      (f m).lastRun = m.lastRun) :
    TimesKept a w (w.mapMachine handle f) := by
  intro m hm
  by_cases h : a = handle
  · have hmapped : (w.mapMachine handle f).machine? a = some (f m) := by
      rw [World.machine?_mapMachine w handle a hf, if_pos h, hm]
      rfl
    exact ⟨f m, hmapped, hkept h m⟩
  · exact ⟨m, by rw [World.machine?_mapMachine_ne w h hf, hm], rfl, rfl, rfl⟩

theorem timesKept_transacts (a handle : Nat) :
    Transacts (TimesKept a) handle fun _ => True :=
  (timesKept_frame a).transacts
    ((timesKept_frame a).reacts (fun _ _ _ _ h => absurd trivial h)
      (fun w _ => timesKept_update a handle w (fun _ => rfl) fun _ _ => ⟨rfl, rfl, rfl⟩)
      fun w _ _ _ _ _ =>
        timesKept_update a handle w (fun _ => rfl) fun _ _ => ⟨rfl, rfl, rfl⟩)
    fun w _ _ => timesKept_update a handle w (fun _ => rfl) fun _ _ => ⟨rfl, rfl, rfl⟩

/-- The ticks of another machine do not matter. -/
theorem timesKept_timed {handle : Nat} (h : handle ≠ a) : Timed (TimesKept a) handle where
  ran w _ _ := timesKept_update a handle w (fun _ => rfl) fun ha => absurd ha.symm h
  restart w _ := timesKept_update a handle w (fun _ => rfl) fun ha => absurd ha.symm h

theorem timesKept_withFuel (a n : Nat) :
    (Evaluator.withFuel Library.standard n).Respects (TimesKept a) fun _ => True :=
  Transacts.withFuel_respects (timesKept_transacts a) n

end Machine

/-! The turns of the ticks. -/

/-- The times from which a pass goes out. Those that do not fit the definition are given up. -/
def Instance.timesAt (m : Instance) (now : Int) : List Int :=
  if m.lastRun.length ≠ m.definition.ticks.length then m.definition.ticks.map fun _ => now
  else m.lastRun

/-- The world in which the ticks of a machine begin to have their turns. -/
def World.opened (w : World) (m : Instance) (now : Int) : World :=
  let busy := w.mapMachine m.handle fun m => { m with busy := true }
  if m.lastRun.length ≠ m.definition.ticks.length then
    busy.mapMachine m.handle fun m => { m with lastRun := m.definition.ticks.map fun _ => now }
  else busy

namespace Machine

variable {services : Services} {m : Instance} {w w' : World} {now : Int}

/-- A pass of a machine: which ticks run, and in which world they have all had their turns. -/
structure Pass (ev : Evaluator) (services : Services) (m : Instance) (now : Int) (before : World)
    (ran : List (Nat × Tick)) (turned after : World) : Prop where
  turns : Turns ev services { m with busy := true } (m.timesAt now) now (tickOrder m.definition)
    (before.opened m now) ran turned
  declared : ∀ entry ∈ ran, m.definition.ticks[entry.1]? = some entry.2
  /-- A tick runs exactly if it is due, applies in the state in which the pass began, and its guard
  says yes in the world that the turns before its own have left. -/
  chosen : ∀ entry, m.definition.ticks[entry.1]? = some entry.2 →
    ∃ earlier ranEarlier w, earlier ++ [entry] <+: tickOrder m.definition ∧
      Turns ev services { m with busy := true } (m.timesAt now) now earlier (before.opened m now)
        ranEarlier w ∧
      (entry ∈ ran ↔ m.Due services (m.timesAt now) now entry ∧
        entry.2.appliesIn m.state = true ∧
        ∃ w₁, Says ev services { m with busy := true } (m.context (.map []) now)
          ("tick " ++ entry.2.name) entry.2.guard w true w₁)
  order : ran.Pairwise Precedes
  once : (ran.map Prod.fst).Nodup
  /-- Until all ticks have had their turns the machine is in its state and processes nothing. What
  comes in waits, in order. -/
  waiting : ∃ stats pending J, turned.machine? m.handle = some { m with
        busy := true, stats, pending, lastRun := timesAfter now (m.timesAt now) ran } ∧
      turned.history = J.reverse ++ before.history ∧
      pick Deed.taken? (deedsOf m.handle J) = [] ∧
      pending = m.pending ++ pick Deed.queued? (deedsOf m.handle J)
  drains : ∃ drained, drain ev services m.handle services.maxQueued turned = .ok () drained ∧
    after = drained.mapMachine m.handle fun m => { m with busy := false, pending := [] }
  /-- The events that came in are processed in that order, as many as may be, and all that come in
  during this as well. -/
  events : Drained m.definition services.maxQueued m.pending (after.deedsSince before m.handle)
  /-- The times of the ticks that ran are now, and the others are as they were. -/
  times : ∃ m', after.machine? m.handle = some m' ∧ ∀ i, m'.lastRun[i]?
    = if i ∈ ran.map Prod.fst then some now else (m.timesAt now)[i]?

theorem timesAt_length (m : Instance) (now : Int) :
    (m.timesAt now).length = m.definition.ticks.length := by
  unfold Instance.timesAt
  split
  · simp
  next h => simpa using h

theorem getElem?_timesAfter_of_sublist {ran : List (Nat × Tick)}
    (h : ran.Sublist (tickOrder m.definition)) (i : Nat) :
    (timesAfter now (m.timesAt now) ran)[i]?
      = if i ∈ ran.map Prod.fst then some now else (m.timesAt now)[i]? := by
  rw [getElem?_timesAfter]
  split
  next hmem =>
    obtain ⟨entry, hentry, rfl⟩ := List.mem_map.mp hmem
    have htick := mem_tickOrder.mp (h.subset hentry)
    have hlength : entry.1 < (m.timesAt now).length := by
      rw [timesAt_length]
      exact (List.getElem?_eq_some_iff.mp htick).1
    rw [List.getElem?_eq_getElem hlength]
    rfl
  next => rfl

theorem machine?_opened (hm : w.machine? m.handle = some m) (now : Int) :
    (w.opened m now).machine? m.handle
      = some { m with busy := true, lastRun := m.timesAt now } := by
  have hbusy := World.machine?_mapMachine_self hm
    (f := fun m => { m with busy := true }) fun _ => rfl
  unfold World.opened Instance.timesAt
  split
  next => exact World.machine?_mapMachine_self hbusy fun _ => rfl
  next => exact hbusy

theorem opened_history (w : World) (m : Instance) (now : Int) :
    (w.opened m now).history = w.history := by
  unfold World.opened
  dsimp only
  split <;> rfl

/-- A pass is a transaction in which the ticks have their turns before the queue is processed. -/
theorem runDueTicks_eq {ev : Evaluator} (hm : w.machine? m.handle = some m)
    (hticks : m.definition.ticks ≠ []) :
    runDueTicks ev services m.handle now w
      = Eval.andFinally (do
          let ran ← runTicks ev services m.handle now (tickOrder m.definition)
          drain ev services m.handle services.maxQueued
          return ran)
        (fun w => w.mapMachine m.handle fun m => { m with busy := false, pending := [] })
        (w.opened m now) := by
  have hsome : m.definition.ticks.isEmpty = false := by simpa using hticks
  unfold runDueTicks World.opened
  rw [withMachine_some hm, hsome]
  by_cases hlength : m.lastRun.length ≠ m.definition.ticks.length
  · simp only [if_pos hlength]
    rfl
  · simp only [if_neg hlength]
    rfl

/-- A pass in which nothing fails either finds no ticks, or gives each its turn and then processes
what they have emitted. -/
theorem runDueTicks_pass (fuel : Nat) {n : Nat} (hm : w.machine? m.handle = some m)
    (hnan : ∀ t ∈ m.definition.ticks, t.priority.isNaN = false)
    (h : runDueTicks (Evaluator.withFuel Library.standard fuel) services m.handle now w
      = .ok n w') :
    (m.definition.ticks = [] ∧ n = 0 ∧ w' = w) ∨
    ∃ ran turned, n = ran.length ∧
      Pass (Evaluator.withFuel Library.standard fuel) services m now w ran turned w' := by
  by_cases hticks : m.definition.ticks = []
  · left
    unfold runDueTicks at h
    rw [withMachine_some hm, hticks] at h
    cases h
    exact ⟨hticks, rfl, rfl⟩
  right
  rw [runDueTicks_eq hm hticks] at h
  obtain ⟨drained, hx, rfl⟩ := Eval.andFinally_ok h
  obtain ⟨ran, turned, hrun, hrest⟩ := Eval.bind_ok hx
  obtain ⟨_, _, hdrain, hpure⟩ := Eval.bind_ok hrest
  cases hpure
  have hhistory := opened_history w m now
  let acting : Instance := { m with busy := true }
  have hbegin : During acting (w.opened m now) (m.timesAt now) (w.opened m now) :=
    ⟨m.stats, m.pending, [], machine?_opened hm now, rfl, .done _, rfl⟩
  have hev : (Evaluator.withFuel Library.standard fuel).Respects
      (Unmoved (fun _ => ()) acting.handle) fun _ => True := unmoved_withFuel _ m.handle fuel
  obtain ⟨ran, hturns, rfl, stats, pending, J, hturned, hh, hq, ht⟩ :=
    runTicks_turns hev rfl (tickOrder_nodup m.definition) (fun _ _ => rfl) hbegin hrun
  obtain ⟨J', hh', hJ'⟩ :=
    drain_spec (steady_withFuel m.handle fuel) services.maxQueued hturned rfl hdrain
  have hkept := ((timesKept_transacts m.handle m.handle).drain_keeps
    (timesKept_withFuel m.handle fuel) services.maxQueued).of_ok hdrain
  refine ⟨ran, turned, rfl, ?_⟩
  exact {
    turns := hturns
    declared := fun entry hentry => mem_tickOrder.mp (hturns.sublist.subset hentry)
    chosen := by
      intro entry hentry
      have hnodup : (tickOrder m.definition).Nodup := List.Nodup.of_map _ (tickOrder_nodup _)
      obtain ⟨earlier, ranEarlier, w₁, hprefix, hearlier, -, hiff⟩ :=
        hturns.chosen hnodup (mem_tickOrder.mpr hentry)
      exact ⟨earlier, ranEarlier, w₁, hprefix, hearlier, hiff⟩
    order := (tickOrder_pairwise hnan).sublist hturns.sublist
    once := (tickOrder_nodup m.definition).sublist (hturns.sublist.map Prod.fst)
    waiting := by
      have hflow := hq.flow
      rw [ht, List.nil_append] at hflow
      exact ⟨stats, pending, J, hturned, by rw [hh, hhistory], ht, hflow.symm⟩
    drains := ⟨drained, hdrain, rfl⟩
    events := by
      have hgrown : drained.history = (J ++ J').reverse ++ w.history := by
        rw [hh', hh, hhistory, List.reverse_append, List.append_assoc]
      have hclosed : (drained.mapMachine m.handle fun m => { m with busy := false, pending := [] }
          ).incidentsSince w = J ++ J' := World.incidentsSince_eq hgrown
      unfold World.deedsSince
      rw [hclosed, deedsOf_append]
      exact hJ'.after_steady hq ht
    times := by
      obtain ⟨m', hm', -, -, htimes⟩ := hkept _ hturned
      have hclosed := World.machine?_mapMachine_self hm'
        (f := fun m => { m with busy := false, pending := [] }) fun _ => rfl
      refine ⟨_, hclosed, fun i => ?_⟩
      rw [← getElem?_timesAfter_of_sublist hturns.sublist]
      exact congrArg (·[i]?) htimes }

/-- A tick sets the data that the guard of a later one asks for, and this emits an event. One tick
is not due, and one applies only in the state to which the event leads. -/
def greenhouse : Definition where
  name := "greenhouse"
  initial := "shut"
  states := [{ name := "shut" }, { name := "open" }]
  events := [{ key := "HOT" }]
  transitions := [{ event := "HOT", target := some "open" }]
  ticks := [
    { name := "watch", guard := some (.string "@entity.hot"),
      effects := [.array [.string "emit", .string "HOT"]] },
    { name := "heat", priority := 2, interval := .fixed 10,
      effects := [.array [.string "set", .string "@entity.hot", .bool true]] },
    { name := "rest", priority := 2, interval := .fixed 100 },
    { name := "air", priority := 1, appliesTo := ["open"] }]

def greenhouseMachine : Instance := fresh 1 greenhouse (.map []) 0 0

def greenhouseWorld : World := { stores := #[.map []], machines := [greenhouseMachine] }

/-- Of four ticks two run, and the event of the second leads to the other state. -/
theorem greenhouse_pass :
    ∃ ran turned after, ran.length = 2 ∧
      runDueTicks (Evaluator.withFuel Library.standard 4) {} 1 16 greenhouseWorld
        = .ok ran.length after ∧
      Pass (Evaluator.withFuel Library.standard 4) {} greenhouseMachine 16 greenhouseWorld ran
        turned after ∧
      (after.machine? 1).map (fun m => (m.state, m.lastRun))
        = some (("open" : Text), [16, 16, 0, 0]) := by
  have hm : greenhouseWorld.machine? 1 = some greenhouseMachine := rfl
  have hnan : ∀ t ∈ greenhouse.ticks, t.priority.isNaN = false := by decide +kernel
  have horder : tickOrder greenhouse
      = [1, 2, 3, 0].filterMap fun i => greenhouse.ticks[i]?.map fun t => (i, t) := by
    apply tickOrder_unique hnan
    · exact List.perm_append_singleton (0, greenhouse.ticks[0]) ((declaredTicks greenhouse).drop 1)
    · decide +kernel
  have hruns : (match runDueTicks (Evaluator.withFuel Library.standard 4) {} 1 16
        greenhouseWorld with
      | .ok n after => some (n, (after.machine? 1).map fun m => (m.state, m.lastRun))
      | .error _ _ => none) = some (2, some (("open" : Text), [16, 16, 0, 0])) := by
    unfold runDueTicks
    rw [withMachine_some hm, show greenhouseMachine.definition = greenhouse from rfl, horder]
    decide +kernel
  cases hr : runDueTicks (Evaluator.withFuel Library.standard 4) {} 1 16 greenhouseWorld with
  | error fault after =>
    rw [hr] at hruns
    cases hruns
  | ok n after =>
    rw [hr] at hruns
    obtain ⟨hempty, -⟩ | ⟨ran, turned, rfl, hpass⟩ :=
        runDueTicks_pass (m := greenhouseMachine) 4 hm hnan hr
    · cases hempty
    · simp only [Option.some.injEq, Prod.mk.injEq] at hruns
      exact ⟨ran, turned, after, hruns.1, rfl, hpass, hruns.2⟩

end Machine
end EntityMachines
