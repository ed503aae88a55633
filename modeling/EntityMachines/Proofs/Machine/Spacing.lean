import EntityMachines.Proofs.Machine.Invariant
import EntityMachines.Proofs.Machine.Pass
import EntityMachines.Proofs.Numeral.Order
import Mathlib.Data.List.Chain

/-!
The spacing of the runs of a tick. Between two of them there are at least as many whole milliseconds
as its interval has. What an interval has beyond these is lost, so that a tick whose interval is not
whole may run too early.
-/
namespace EntityMachines

/-- The interval of a tick as it is given, in milliseconds. -/
def Instance.spacing? (m : Instance) (services : Services) (tick : Tick) : Option ℚ :=
  match tick.interval with
  | .frame => some services.frameInterval
  | .fixed ms => Double.toRat? ms
  | .config key => Double.toRat? (m.config.get key).toNumber

namespace Machine

variable {ev : Evaluator} {services : Services} {m m₀ : Instance} {w w' w'' : World}
  {now last ms : Int} {i : Nat}

theorem interval_of_spacing {t : Tick} {D : ℚ} (hD : 0 < D)
    (hspacing : m.spacing? services t = some D) (h : m.interval? services t = some ms) :
    ms = ⌊D⌋ := by
  unfold Instance.spacing? at hspacing
  unfold Instance.interval? at h
  cases ht : t.interval with
  | frame =>
    rw [ht] at h hspacing
    cases h
    cases hspacing
    exact (Int.floor_intCast _).symm
  | fixed x =>
    rw [ht] at h hspacing
    cases h
    exact Double.toInt_eq_floor hspacing hD
  | config key =>
    rw [ht] at h hspacing
    dsimp only at h
    split at h
    next =>
      cases h
      exact Double.toInt_eq_floor hspacing hD
    next => cases h

/-- The ticks that run when some have their turns, up to the first that fails. -/
def ranTicks (ev : Evaluator) (services : Services) (handle : Nat) (now : Int) :
    List (Nat × Tick) → World → List Nat
  | [], _ => []
  | (i, t) :: rest, w =>
    match runTick ev services handle now i t w with
    | .ok true w' => i :: ranTicks ev services handle now rest w'
    | .ok false w' => ranTicks ev services handle now rest w'
    | .error _ _ => []

/-- What is told of a pass is how many ticks run. -/
theorem length_ranTicks {order : List (Nat × Tick)} {handle n : Nat}
    (h : runTicks ev services handle now order w = .ok n w') :
    (ranTicks ev services handle now order w).length = n := by
  induction order generalizing w n with
  | nil =>
    cases h
    rfl
  | cons entry rest ih =>
    obtain ⟨b, w₁, hturn, hrest⟩ := Eval.bind_ok h
    obtain ⟨others, w₂, hothers, hn⟩ := Eval.bind_ok hrest
    cases hn
    unfold ranTicks
    rw [hturn]
    cases b with
    | false => exact ih hothers
    | true => exact congrArg (· + 1) (ih hothers)

/-- When a tick of a machine runs in an operation. -/
def Operation.tickTimes (ev : Evaluator) (a i : Nat) (w : World) : Operation → List Int
  | .runDueTicks handle services now =>
    if handle = a then
      match w.machine? a with
      | some m =>
        let ran := ranTicks ev services a now (tickOrder m.definition) (w.opened m now)
        (ran.filter fun j => j == i).map fun _ => now
      | none => []
    else []
  | _ => []

/-- When a tick of a machine runs in operations, one after the other. -/
def tickTimes (ev : Evaluator) (a i : Nat) : World → List Operation → List Int
  | _, [] => []
  | w, op :: rest => op.tickTimes ev a i w ++ tickTimes ev a i (op.run ev w) rest

theorem tickTimes_runDueTicks {a : Nat} (hm : w.machine? a = some m) :
    (Operation.runDueTicks a services now).tickTimes ev a i w
      = ((ranTicks ev services a now (tickOrder m.definition) (w.opened m now)).filter
          fun j => j == i).map fun _ => now := by
  unfold Operation.tickTimes
  simp [hm]

/-- A machine as it was created, but for what events and ticks change, has last run a tick at a
time. -/
def RanLast (m₀ : Instance) (i : Nat) (last : Int) (w : World) : Prop :=
  ∃ m, w.machine? m₀.handle = some m ∧ m.definition = m₀.definition ∧ m.config = m₀.config ∧
    m.lastRun.length = m₀.definition.ticks.length ∧ m.lastRun[i]? = some last

/-- The times at which a tick runs between two worlds. They are some milliseconds apart, and from
the run before. -/
def Strides (m₀ : Instance) (i : Nat) (ms : Int) (w : World) (times : List Int) (w' : World) :
    Prop :=
  ∀ last, RanLast m₀ i last w → (last :: times).IsChain (fun x y => x + ms ≤ y) ∧
    RanLast m₀ i (times.getLastD last) w'

namespace RanLast

theorem kept (h : RanLast m₀ i last w) (hw : TimesKept m₀.handle w w') : RanLast m₀ i last w' := by
  obtain ⟨m, hm, hd, hc, hlength, hlast⟩ := h
  obtain ⟨m', hm', hd', hc', ht⟩ := hw m hm
  rw [← ht] at hlength hlast
  exact ⟨m', hm', hd'.trans hd, hc'.trans hc, hlength, hlast⟩

theorem set (h : RanLast m₀ i last w) (j : Nat) (now : Int) :
    RanLast m₀ i (if j = i then now else last)
      (w.mapMachine m₀.handle fun m => { m with lastRun := m.lastRun.set j now }) := by
  obtain ⟨m, hm, hd, hc, hlength, hlast⟩ := h
  have hset := World.machine?_mapMachine_self hm
    (f := fun m => { m with lastRun := m.lastRun.set j now }) fun _ => rfl
  refine ⟨_, hset, hd, hc, by simpa using hlength, ?_⟩
  dsimp only
  by_cases hj : j = i
  · obtain ⟨hlt, -⟩ := List.getElem?_eq_some_iff.mp hlast
    rw [if_pos hj, hj, List.getElem?_set_self hlt]
  · rw [if_neg hj, List.getElem?_set_ne hj]
    exact hlast

end RanLast

namespace Strides

variable {times times' : List Int}

theorem of_kept (h : TimesKept m₀.handle w w') : Strides m₀ i ms w [] w' :=
  fun _ hlast => ⟨.singleton _, hlast.kept h⟩

theorem append (h : Strides m₀ i ms w times w') (h' : Strides m₀ i ms w' times' w'') :
    Strides m₀ i ms w (times ++ times') w'' := by
  intro last hlast
  obtain ⟨hchain, hlast'⟩ := h last hlast
  obtain ⟨hchain', hlast''⟩ := h' _ hlast'
  clear h h' hlast hlast'
  -- What comes before the later times is the last of the earlier ones, or the run before these.
  induction times generalizing last with
  | nil => exact ⟨hchain', hlast''⟩
  | cons time rest ih =>
    rw [List.getLastD_cons] at hchain' hlast''
    obtain ⟨hfirst, hrest⟩ := List.isChain_cons_cons.mp hchain
    obtain ⟨hall, hend⟩ := ih time hrest hchain' hlast''
    constructor
    · exact List.isChain_cons_cons.mpr ⟨hfirst, hall⟩
    · rwa [List.cons_append, List.getLastD_cons]

end Strides

theorem interval?_congr (h : m.config = m₀.config) (services : Services) (t : Tick) :
    m.interval? services t = m₀.interval? services t := by
  unfold Instance.interval?
  rw [h]

theorem timesKept_counted {a handle : Nat} (w : World) (f : Stats → Stats) :
    TimesKept a w (w.counted handle f) :=
  timesKept_update a handle w (fun _ => rfl) fun _ _ => ⟨rfl, rfl, rfl⟩

section runs

variable (hev : ev.Respects (TimesKept m₀.handle) fun _ => True)

include hev

theorem timesKept_judges (hm : m.handle = m₀.handle) :
    Judges (TimesKept m₀.handle) (fun _ => True) ev services m :=
  ((timesKept_transacts m₀.handle m₀.handle).weighs hev hm).toJudges

/-- A turn without a run changes no times. -/
theorem Turn.kept {times : List Int} {j : Nat} {t : Tick} (hm : m.handle = m₀.handle)
    (h : Turn ev services m times now j t w false w') : TimesKept m₀.handle w w' :=
  h.passes (timesKept_judges hev hm) (fun w _ => (timesKept_frame m₀.handle).same w _ rfl rfl)
    fun w _ => timesKept_counted w _

/-- A tick that runs does so when its interval has passed, and only its own time changes. -/
theorem Turn.strides {t : Tick} {j : Nat} (hm : w.machine? m₀.handle = some m)
    (hms : j = i → ∀ ms', m₀.interval? services t = some ms' → ms ≤ ms')
    (h : Turn ev services m m.lastRun now j t w true w') :
    Strides m₀ i ms w (if j = i then [now] else []) w' := by
  have hhandle := World.handle_of_machine? hm
  intro last hlast
  obtain ⟨m', hm', -, hconfig, -, hbefore⟩ := id hlast
  obtain rfl : m' = m := Option.some.inj (hm'.symm.trans hm)
  obtain ⟨⟨ms', hms', hdue⟩, -⟩ := h.ran_iff.mp rfl
  obtain ⟨w₁, hkept, rfl⟩ := h.runs (timesKept_judges hev hhandle)
  have hafter := (hlast.kept hkept).set j now
  rw [← hhandle] at hafter
  by_cases hj : j = i
  · rw [if_pos hj] at hafter ⊢
    rw [interval?_congr hconfig] at hms'
    have hspaced := hms hj ms' hms'
    have hfound : m'.lastRun.getD j now = last := by simp [List.getD, hj, hbefore]
    rw [hfound] at hdue
    exact ⟨List.isChain_pair.mpr (by omega), hafter.kept (timesKept_counted _ _)⟩
  · rw [if_neg hj] at hafter ⊢
    exact ⟨.singleton _, hafter.kept (timesKept_counted _ _)⟩

theorem runTick_strides {t : Tick} {j : Nat} {b : Bool}
    (hms : j = i → ∀ ms', m₀.interval? services t = some ms' → ms ≤ ms')
    (h : runTick ev services m₀.handle now j t w = .ok b w') :
    Strides m₀ i ms w (if b = true ∧ j = i then [now] else []) w' := by
  intro last hlast
  obtain ⟨m, hm, -⟩ := id hlast
  have hhandle := World.handle_of_machine? hm
  have hturn : Turn ev services m m.lastRun now j t w b w' := by
    rw [← hhandle] at hm h
    exact runTick_turn hm rfl h
  cases b with
  | false => exact Strides.of_kept (hturn.kept hev hhandle) last hlast
  | true => simpa using hturn.strides hev hm hms last hlast

/-- A tick that fails changes no times. -/
theorem runTick_error_strides {t : Tick} {j : Nat} {fault : Fault}
    (h : runTick ev services m₀.handle now j t w = .error fault w') :
    Strides m₀ i ms w [] w' := by
  intro last hlast
  obtain ⟨m, hm, -⟩ := id hlast
  have hhandle := World.handle_of_machine? hm
  have hkept : TimesKept m₀.handle w w' := by
    rw [← hhandle] at hm h
    exact runTick_stops (timesKept_judges hev hhandle) hm h
  exact ⟨.singleton _, hlast.kept hkept⟩

/-- By induction on the ticks that still have their turns. -/
theorem runTicks_strides (services : Services) (now : Int) {order : List (Nat × Tick)}
    (hms : ∀ entry ∈ order, entry.1 = i →
      ∀ ms', m₀.interval? services entry.2 = some ms' → ms ≤ ms') (w : World) :
    Strides m₀ i ms w
      (((ranTicks ev services m₀.handle now order w).filter fun j => j == i).map fun _ => now)
      ((runTicks ev services m₀.handle now order).after w) := by
  induction order generalizing w with
  | nil => exact .of_kept ((timesKept_frame m₀.handle).openFrame.refl w)
  | cons entry rest ih =>
    obtain ⟨j, t⟩ := entry
    have hrest := ih fun entry hmem => hms entry (by simp [hmem])
    unfold ranTicks runTicks
    cases hr : runTick ev services m₀.handle now j t w with
    | error fault w₁ =>
      rw [Eval.after_bind_error hr]
      exact runTick_error_strides hev hr
    | ok b w₁ =>
      have hfirst := runTick_strides hev (hms (j, t) (by simp)) hr
      have hboth := hfirst.append (hrest w₁)
      rw [Eval.after_bind_ok hr, Eval.after_bind_pure]
      cases b with
      | false => simpa using hboth
      | true =>
        by_cases hj : j = i
        · simpa [hj] using hboth
        · simpa [hj] using hboth

/-- Behind the turns of its ticks a pass changes no times. -/
theorem runDueTicks_kept (services : Services) (now : Int) (hm : w.machine? m.handle = some m)
    (hticks : m.definition.ticks ≠ []) :
    TimesKept m₀.handle
      ((runTicks ev services m.handle now (tickOrder m.definition)).after (w.opened m now))
      ((runDueTicks ev services m.handle now).after w) := by
  have hR := (timesKept_transacts m₀.handle m.handle).toReacts.toFrame
  have hdrain (ran : Nat) : Eval.Keeps (TimesKept m₀.handle) (do
      drain ev services m.handle services.maxQueued
      return ran) :=
    hR.bind ((timesKept_transacts m₀.handle m.handle).drain_keeps hev _) fun _ => hR.pure ran
  rw [Eval.after_congr (runDueTicks_eq hm hticks), Eval.after_andFinally]
  exact (hR.after_bind _ hdrain _).trans
    (timesKept_update _ _ _ (fun _ => rfl) fun _ _ => ⟨rfl, rfl, rfl⟩)

theorem runDueTicks_strides {t : Tick} (ht : m₀.definition.ticks[i]? = some t)
    (hms : ∀ ms', m₀.interval? services t = some ms' → ms ≤ ms') (w : World) :
    Strides m₀ i ms w ((Operation.runDueTicks m₀.handle services now).tickTimes ev m₀.handle i w)
      ((runDueTicks ev services m₀.handle now).after w) := by
  intro last hlast
  obtain ⟨m, hm, hd, -, hlength, -⟩ := id hlast
  have hhandle := World.handle_of_machine? hm
  have hticks : m.definition.ticks ≠ [] := by
    intro hnil
    rw [← hd, hnil] at ht
    cases ht
  -- The times have fitted the definition since the machine was created, so none are given up.
  have hbegins : TimesKept m₀.handle w (w.opened m now) := by
    unfold World.opened
    rw [if_neg (by simp [hd, hlength])]
    exact timesKept_update _ _ w (fun _ => rfl) fun _ _ => ⟨rfl, rfl, rfl⟩
  have hturns : ∀ entry ∈ tickOrder m.definition, entry.1 = i →
      ∀ ms', m₀.interval? services entry.2 = some ms' → ms ≤ ms' := by
    rintro ⟨j, t'⟩ hmem rfl
    have hfound := mem_tickOrder.mp hmem
    rw [hd, ht] at hfound
    cases hfound
    exact hms
  have hran := runTicks_strides hev services now hturns (w.opened m now)
  have hdrains := runDueTicks_kept hev services now (hhandle ▸ hm) hticks
  rw [hhandle] at hdrains
  have hall := ((Strides.of_kept hbegins).append hran).append (Strides.of_kept hdrains)
  rw [tickTimes_runDueTicks hm]
  simpa using hall last hlast

end runs

/-- An operation gives a tick of a machine as many milliseconds, if it has its ticks run. -/
def Operation.Spaces (m : Instance) (t : Tick) (D : ℚ) : Operation → Prop
  | .runDueTicks handle services _ => handle = m.handle → m.spacing? services t = some D
  | _ => True

theorem Operation.strides (fuel : Nat) {t : Tick} {D : ℚ} (hD : 0 < D)
    (ht : m₀.definition.ticks[i]? = some t) {op : Operation} (hop : op.Spaces m₀ t D) (w : World) :
    Strides m₀ i ⌊D⌋ w (op.tickTimes (Evaluator.withFuel Library.standard fuel) m₀.handle i w)
      (op.run (Evaluator.withFuel Library.standard fuel) w) := by
  have hev := timesKept_withFuel m₀.handle fuel
  have hR (handle : Nat) := timesKept_transacts m₀.handle handle
  cases op with
  | runInitialEffects handle services => exact .of_kept ((hR handle).runInitialEffects_keeps hev w)
  | dispatch handle services event payload =>
    exact .of_kept ((hR handle).dispatch_keeps hev event payload w)
  | settle rounds => exact .of_kept (Timers.settle_keeps hev rounds w)
  | change clock respond => exact .of_kept ((timesKept_frame m₀.handle).same w _ rfl rfl)
  | runDueTicks handle services now =>
    by_cases h : handle = m₀.handle
    · subst h
      have hms (ms' : Int) (hms' : m₀.interval? services t = some ms') : ⌊D⌋ ≤ ms' :=
        (interval_of_spacing hD (hop rfl) hms').ge
      exact runDueTicks_strides hev ht hms w
    · have hnone : (Operation.runDueTicks handle services now).tickTimes
          (Evaluator.withFuel Library.standard fuel) m₀.handle i w = [] := by
        unfold Operation.tickTimes
        simp [h]
      rw [hnone]
      exact .of_kept ((hR handle).runDueTicks_keeps hev (timesKept_timed h) now w)

theorem runAll_strides (fuel : Nat) {t : Tick} {D : ℚ} (hD : 0 < D)
    (ht : m₀.definition.ticks[i]? = some t) {ops : List Operation}
    (hops : ∀ op ∈ ops, op.Spaces m₀ t D) (w : World) :
    Strides m₀ i ⌊D⌋ w (tickTimes (Evaluator.withFuel Library.standard fuel) m₀.handle i w ops)
      (runAll (Evaluator.withFuel Library.standard fuel) w ops) := by
  induction ops generalizing w with
  | nil => exact .of_kept ((timesKept_frame m₀.handle).openFrame.refl w)
  | cons op rest ih =>
    have hfirst := Operation.strides fuel hD ht (hops op (by simp)) w
    exact hfirst.append (ih (fun op hmem => hops op (by simp [hmem])) _)

/-- Whatever happens to a machine, the runs of a tick are at least as many whole milliseconds apart
as its interval has, and so is the first from the creation of the machine. -/
theorem tickTimes_spaced (fuel : Nat) {a : Nat} {d : Definition} {given seed : Value}
    {created : Int} {t : Tick} {D : ℚ} {ops : List Operation} (hD : 0 < D)
    (hcreate : create a d given seed created w = .ok m w') (ht : d.ticks[i]? = some t)
    (hops : ∀ op ∈ ops, op.Spaces m t D) :
    (created :: tickTimes (Evaluator.withFuel Library.standard fuel) a i w' ops).IsChain
      fun x y => x + ⌊D⌋ ≤ y := by
  obtain ⟨config, -, rfl, hm, -⟩ := create_fresh hcreate
  have hstart : RanLast (fresh a d (.map config) w.stores.size created) i created w' := by
    refine ⟨_, hm, rfl, rfl, by simp [fresh], ?_⟩
    unfold fresh
    rw [List.getElem?_map, ht]
    rfl
  exact (runAll_strides fuel hD ht hops w' created hstart).1

/-- A number of milliseconds that every tick with this interval waits, from the creation of its
machine on and then from run to run. -/
def KeepsSpacing (D : ℚ) : Prop :=
  ∀ (fuel a i : Nat) (d : Definition) (t : Tick) (given seed : Value) (created : Int) (w w' : World)
    (m : Instance) (ops : List Operation),
    create a d given seed created w = .ok m w' → d.ticks[i]? = some t →
    (∀ op ∈ ops, op.Spaces m t D) →
    (created :: tickTimes (Evaluator.withFuel Library.standard fuel) a i w' ops).IsChain
      fun x y : Int => (x : ℚ) + D ≤ y

theorem keepsSpacing_of_whole {n : Int} (hn : 0 < n) : KeepsSpacing n := by
  intro fuel a i d t given seed created w w' m ops hcreate ht hops
  have hD : (0 : ℚ) < n := by exact_mod_cast hn
  have hspaced := tickTimes_spaced fuel hD hcreate ht hops
  rw [Int.floor_intCast] at hspaced
  exact hspaced.imp fun x y h => by exact_mod_cast h

/-- A machine with a single tick. -/
def metronome (interval : Float) : Definition where
  name := "metronome"
  initial := "on"
  states := [{ name := "on" }]
  ticks := [{ name := "beat", interval := .fixed interval }]

def metronomeMachine (interval : Float) : Instance := fresh 1 (metronome interval) (.map []) 0 0

def metronomeWorld (interval : Float) : World :=
  { stores := #[.map []], machines := [metronomeMachine interval] }

theorem create_metronome (interval : Float) :
    create 1 (metronome interval) .null .null 0 {}
      = .ok (metronomeMachine interval) (metronomeWorld interval) := rfl

/-- The tick of a metronome runs when what its interval has in whole milliseconds has passed. -/
theorem tickTimes_metronome (interval : Float) :
    tickTimes (Evaluator.withFuel Library.standard 0) 1 0 (metronomeWorld interval)
      [.runDueTicks 1 {} (Double.toInt interval)] = [Double.toInt interval] := by
  have hm : (metronomeWorld interval).machine? 1 = some (metronomeMachine interval) := rfl
  have horder : tickOrder (metronomeMachine interval).definition
      = declaredTicks (metronome interval) := tickOrder_single rfl
  have hturn : ∃ w, runTick (Evaluator.withFuel Library.standard 0) {} 1 (Double.toInt interval) 0
      { name := "beat", interval := .fixed interval }
      ((metronomeWorld interval).opened (metronomeMachine interval) (Double.toInt interval))
      = .ok true w := by
    have hopened : ((metronomeWorld interval).opened (metronomeMachine interval)
        (Double.toInt interval)).machine? 1
        = some { metronomeMachine interval with busy := true } := rfl
    have hdue : ¬Double.toInt interval - (metronomeMachine interval).lastRun.getD 0
        (Double.toInt interval) < Double.toInt interval := by
      show ¬Double.toInt interval - 0 < Double.toInt interval
      omega
    unfold runTick
    rw [withMachine_some hopened, Eval.bind_of_ok (interval_some rfl _)]
    dsimp only
    rw [if_neg hdue]
    exact ⟨_, rfl⟩
  obtain ⟨w, hturn⟩ := hturn
  have hran : ranTicks (Evaluator.withFuel Library.standard 0) {} 1 (Double.toInt interval)
      (declaredTicks (metronome interval))
      ((metronomeWorld interval).opened (metronomeMachine interval) (Double.toInt interval))
      = [0] := by
    show ranTicks _ _ _ _ [(0, _)] _ = _
    unfold ranTicks
    rw [hturn]
    rfl
  unfold tickTimes
  rw [tickTimes_runDueTicks hm, horder, hran]
  rfl

/-- A metronome whose interval is not whole hurries. -/
theorem whole_of_keepsSpacing {x : Float} {D : ℚ} (hx : Double.toRat? x = some D) (hD : 0 < D)
    (h : KeepsSpacing D) : ∃ n : Int, D = n := by
  have hspaces : ∀ op ∈ [Operation.runDueTicks 1 {} (Double.toInt x)],
      op.Spaces (metronomeMachine x) { name := "beat", interval := .fixed x } D := by
    intro op hop
    obtain rfl := List.mem_singleton.mp hop
    intro _
    exact hx
  have hchain := h 0 1 0 (metronome x) _ .null .null 0 {} _ _ _ (create_metronome x) rfl hspaces
  rw [tickTimes_metronome, Double.toInt_eq_floor hx hD, List.isChain_pair] at hchain
  have hfloor : (⌊D⌋ : ℚ) ≤ D := Int.floor_le D
  refine ⟨⌊D⌋, ?_⟩
  push_cast at hchain
  linarith

end Machine
end EntityMachines
