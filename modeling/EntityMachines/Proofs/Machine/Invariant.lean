import EntityMachines.Machine.Creation
import EntityMachines.Proofs.Machine.Declared
import EntityMachines.Proofs.Machine.Idle
import EntityMachines.Proofs.Value.Paths

/-!
Whatever is done to a machine, and whether it fails or not, the machine stays in a declared state,
is idle, has one time for each tick, and its data are a map.
-/
namespace EntityMachines

namespace Machine

open Eval (Keeps)

variable {α : Type} {ev : Evaluator} {a handle : Nat} {d : Definition} {services : Services}

/-- The machine of a handle is of a definition, in a state that the definition declares, with one
time for each of its ticks and a map for its data. -/
def Sound (a : Nat) (d : Definition) (store : StoreRef) (w : World) : Prop :=
  ∃ m, w.machine? a = some m ∧ m.definition = d ∧ m.store = store ∧ d.hasState m.state = true ∧
    m.lastRun.length = d.ticks.length ∧ (w.stores.getD store (.map [])).isMap = true

def SoundKept (a : Nat) (d : Definition) (store : StoreRef) (w w' : World) : Prop :=
  Sound a d store w → Sound a d store w'

theorem soundKept_write (a : Nat) (d : Definition) (store : StoreRef) (w : World) (other : StoreRef)
    (changes : Table Value) : SoundKept a d store w
      { w with stores := w.stores.modify other fun data => data.applyChanges changes } := by
  rintro ⟨m, hm, hd, hs, hstate, hticks, hmap⟩
  refine ⟨m, hm, hd, hs, hstate, hticks, ?_⟩
  dsimp only
  rw [Array.getD_eq_getD_getElem?] at hmap ⊢
  rw [Array.getElem?_modify]
  split
  next h =>
    subst h
    cases hv : w.stores[other]? with
    | none => rfl
    | some v =>
      rw [hv] at hmap
      exact Value.applyChanges_isMap hmap changes
  next => exact hmap

theorem soundKept_frame (a : Nat) (d : Definition) (store : StoreRef) :
    MachineFrame (SoundKept a d store) where
  same w w' hs hm := by
    rintro ⟨m, hm', h⟩
    refine ⟨m, by rwa [World.machine?_congr hm], ?_⟩
    rwa [hs]
  trans h h' := h' ∘ h
  write := soundKept_write a d store

/-- A change of a machine that leaves it in a declared state and with all its times. -/
theorem soundKept_update (a handle : Nat) (d : Definition) (store : StoreRef) (w : World)
    {f : Instance → Instance}
    (hf : ∀ m, (f m).handle = m.handle ∧ (f m).definition = m.definition ∧ (f m).store = m.store)
    (hgood : a = handle → ∀ m, m.definition = d → d.hasState m.state = true →
      m.lastRun.length = d.ticks.length →
      d.hasState (f m).state = true ∧ (f m).lastRun.length = d.ticks.length) :
    SoundKept a d store w (w.mapMachine handle f) := by
  rintro ⟨m, hm, hd, hs, hstate, hticks, hmap⟩
  have hhandle : ∀ m, (f m).handle = m.handle := fun m => (hf m).1
  by_cases h : a = handle
  · obtain ⟨hstate', hticks'⟩ := hgood h m hd hstate hticks
    subst h
    exact ⟨f m, World.machine?_mapMachine_self hm hhandle, (hf m).2.1.trans hd,
      (hf m).2.2.trans hs, hstate', hticks', hmap⟩
  · exact ⟨m, by rw [World.machine?_mapMachine_ne w h hhandle, hm], hd, hs, hstate, hticks, hmap⟩

/-- What the machine of a handle must be like before its activities count. -/
def Fit (a : Nat) (d : Definition) (m : Instance) : Prop :=
  m.handle = a → m.definition = d ∧ d.hasState m.state = true

theorem soundKept_transacts (hd : d.problems = []) (a handle : Nat) (store : StoreRef) :
    Transacts (SoundKept a d store) handle (Fit a d) := by
  have hsame : ∀ (m : Instance), d.hasState m.state = true → m.lastRun.length = d.ticks.length →
      d.hasState m.state = true ∧ m.lastRun.length = d.ticks.length := fun m h h' => ⟨h, h'⟩
  refine (soundKept_frame a d store).transacts ?_ fun w _ _ =>
    soundKept_update a handle d store w (fun _ => ⟨rfl, rfl, rfl⟩) fun _ m _ => hsame m
  refine (soundKept_frame a d store).reacts ?_
    (fun w _ => soundKept_update a handle d store w (fun _ => ⟨rfl, rfl, rfl⟩) fun _ m _ => hsame m)
    ?_
  · rintro w m w' hm hfit ⟨m', hm', hd', -, hstate, -⟩
    refine absurd (fun ha => ?_) hfit
    have hhandle : m.handle = handle := World.handle_of_machine? hm
    rw [← hhandle, ha] at hm
    cases hm.symm.trans hm'
    exact ⟨hd', hstate⟩
  · intro w m t hhandle hfit ht
    refine soundKept_update a handle d store w (fun _ => ⟨rfl, rfl, rfl⟩) ?_
    intro ha m' _ _ hticks
    obtain ⟨hdef, hstate⟩ := hfit (hhandle.trans ha.symm)
    refine ⟨?_, hticks⟩
    cases htarget : t.target with
    | none => exact hstate
    | some target =>
      rw [hdef] at ht
      exact Definition.target_declared hd ht htarget

theorem soundKept_timed (a handle : Nat) (d : Definition) (store : StoreRef) :
    Timed (SoundKept a d store) handle where
  ran w index now := by
    refine soundKept_update a handle d store w (fun _ => ⟨rfl, rfl, rfl⟩) ?_
    intro _ m _ hstate hticks
    exact ⟨hstate, by simpa using hticks⟩
  restart w now := by
    refine soundKept_update a handle d store w (fun _ => ⟨rfl, rfl, rfl⟩) ?_
    intro _ m hdef hstate _
    exact ⟨hstate, by simp [hdef]⟩

/-- What a surrounding program does to machines. -/
inductive Operation where
  | runInitialEffects (handle : Nat) (services : Services)
  | dispatch (handle : Nat) (services : Services) (event : Text) (payload : Value)
  | runDueTicks (handle : Nat) (services : Services) (now : Int)
  /-- Timers that wait emit their events. -/
  | settle (rounds : Nat)
  /-- Time goes on, and calls are answered in another way from now on. -/
  | change (clock : Int) (respond : List Call → Except Error Value)

/-- The world behind an operation, whether it fails or not. -/
def Operation.run (ev : Evaluator) (w : World) : Operation → World
  | runInitialEffects handle services => (Machine.runInitialEffects ev services handle).after w
  | dispatch handle services event payload =>
    (Machine.dispatch ev services handle event payload).after w
  | runDueTicks handle services now => (Machine.runDueTicks ev services handle now).after w
  | settle rounds => (Timers.settle ev rounds).after w
  | change clock respond => { w with clock, respond }

def runAll (ev : Evaluator) (w : World) (ops : List Operation) : World :=
  ops.foldl (Operation.run ev) w

theorem run_sound (hd : d.problems = []) (store : StoreRef)
    (hev : ev.Respects (SoundKept a d store) fun _ => True) (w : World) (op : Operation) :
    SoundKept a d store w (op.run ev w) := by
  have hR (handle : Nat) := soundKept_transacts hd a handle store
  cases op with
  | runInitialEffects handle services => exact (hR handle).runInitialEffects_keeps hev w
  | dispatch handle services event payload => exact (hR handle).dispatch_keeps hev event payload w
  | runDueTicks handle services now =>
    exact (hR handle).runDueTicks_keeps hev (soundKept_timed a handle d store) now w
  | settle rounds => exact Timers.settle_keeps hev rounds w
  | change clock respond => exact (soundKept_frame a d store).same w _ rfl rfl

theorem run_idle (hev : ev.Respects (IdleKept a) fun _ => True) (w : World) (op : Operation) :
    IdleKept a w (op.run ev w) := by
  cases op with
  | runInitialEffects handle services => exact runInitialEffects_idle hev handle w
  | dispatch handle services event payload => exact dispatch_idle hev handle event payload w
  | runDueTicks handle services now => exact runDueTicks_idle hev handle now w
  | settle rounds => exact Timers.settle_keeps hev rounds w
  | change clock respond => exact (idleKept_frame a).same w _ rfl rfl

/-- A new machine is as it is before anything has happened to it. -/
theorem create_fresh {given seed : Value} {created : Int} {w w' : World} {m : Instance}
    (h : create a d given seed created w = .ok m w') :
    ∃ config, d.configure given = .ok config ∧
      m = fresh a d (.map config) w.stores.size created ∧ w'.machine? a = some m ∧
      w'.stores = w.stores.push (.map (initialData d seed)) := by
  unfold create at h
  cases hconfigure : d.configure given with
  | error e =>
    rw [hconfigure] at h
    cases h
  | ok config =>
    rw [hconfigure] at h
    cases h
    refine ⟨config, rfl, rfl, ?_, rfl⟩
    simp [World.machine?, fresh]

theorem create_sound {given seed : Value} {created : Int} {w w' : World} {m : Instance}
    (hinitial : d.hasState d.initial = true)
    (h : create a d given seed created w = .ok m w') :
    Sound a d m.store w' ∧ ∀ m', w'.machine? a = some m' → m'.Idle := by
  obtain ⟨config, -, rfl, hm, hstores⟩ := create_fresh h
  refine ⟨⟨_, hm, rfl, rfl, hinitial, ?_, ?_⟩, fun m' hm' => ?_⟩
  · simp [fresh]
  · rw [hstores]
    simp [fresh, Value.isMap]
  · cases hm.symm.trans hm'
    exact ⟨rfl, rfl⟩

/-- What holds of a machine that was made from a sound definition, whatever has been done since. -/
structure Reached (a : Nat) (d : Definition) (m : Instance) (w : World) : Prop where
  present : w.machine? a = some m
  definition : m.definition = d
  state : d.hasState m.state = true
  idle : m.Idle
  ticks : m.lastRun.length = d.ticks.length
  data : ∃ entries, Eval.snapshot m.store w = .ok (.map entries) w

/-- Operations may come in any order, be given anything and fail anywhere. -/
theorem reached_of_created (fuel : Nat) {doc given seed : Value} {d : Definition} {created : Int}
    {w w' : World} {m : Instance} (hdoc : Definition.ofDocument doc = .ok d)
    (hproblems : d.problems = []) (hcreate : create a d given seed created w = .ok m w')
    (ops : List Operation) :
    ∃ m', Reached a d m'
      (runAll (Evaluator.withFuel Library.standard fuel) w' ops) := by
  have hsound := Transacts.withFuel_respects
    (fun handle => soundKept_transacts hproblems a handle m.store) fuel
  have hidle := idleKept_withFuel a fuel
  have hrun (w₀ : World) (h : Sound a d m.store w₀ ∧ ∀ m', w₀.machine? a = some m' → m'.Idle) :
      Sound a d m.store (runAll (Evaluator.withFuel Library.standard fuel) w₀ ops) ∧
        ∀ m', (runAll (Evaluator.withFuel Library.standard fuel) w₀ ops).machine? a = some m' →
          m'.Idle := by
    induction ops generalizing w₀ with
    | nil => exact h
    | cons op rest ih =>
      exact ih _ ⟨run_sound hproblems m.store hsound w₀ op h.1, run_idle hidle w₀ op h.2⟩
  obtain ⟨⟨m', hm', hd, hs, hstate, hticks, hmap⟩, hidle'⟩ :=
    hrun w' (create_sound (Definition.initial_declared hdoc) hcreate)
  refine ⟨m', hm', hd, hstate, hidle' m' hm', hticks, ?_⟩
  rw [hs]
  generalize runAll (Evaluator.withFuel Library.standard fuel) w' ops = w'' at hmap
  have hsnapshot : Eval.snapshot m.store w'' = .ok (w''.stores.getD m.store (.map [])) w'' := rfl
  rw [hsnapshot]
  cases hv : w''.stores.getD m.store (.map []) with
  | map entries => exact ⟨entries, rfl⟩
  | undefined | null | bool | number | string | array | closure =>
    rw [hv] at hmap
    cases hmap

def lampDocument : Value := .map [
  ("category", .string "ui-interaction"), ("name", .string "std/lamp"),
  ("stateMachine", .map [
    ("events", .array [.string "TOGGLE"]),
    ("states", .array [.string "off", .string "on"]),
    ("transitions", .array [.map [
      ("event", .string "TOGGLE"), ("from", .string "off"), ("to", .string "on")]])])]

def lamp : Definition where
  name := "std/lamp"
  category := "ui-interaction"
  initial := "off"
  states := [{ name := "off" }, { name := "on" }]
  events := [{ key := "TOGGLE" }]
  transitions := [
    { sources := .listed [Text.ofString "off"], target := some "on", event := "TOGGLE" }]

theorem lamp_reached :
    Definition.ofDocument lampDocument = .ok lamp ∧ lamp.problems = [] ∧
    ∃ m w', create 1 lamp .null .null 0 {} = .ok m w' ∧
      ∃ m', Reached 1 lamp m' (runAll (Evaluator.withFuel Library.standard 3) w'
        [.runInitialEffects 1 {}, .dispatch 1 {} "TOGGLE" .null, .runDueTicks 1 {} 5]) := by
  have hdoc : Definition.ofDocument lampDocument = .ok lamp := by rfl
  have hproblems : lamp.problems = [] := by decide +kernel
  refine ⟨hdoc, hproblems, _, _, rfl, ?_⟩
  exact reached_of_created 3 hdoc hproblems rfl _

end Machine
end EntityMachines
