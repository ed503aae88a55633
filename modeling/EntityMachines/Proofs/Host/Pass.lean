import EntityMachines.Proofs.Host.Creation
import EntityMachines.Proofs.Machine.Spacing

/-!
A pass over the machines of a host. The machines have their passes one after the other, in some
order, and the first that fails ends them all. Main statement: the ticks that are called for have
run behind the pass exactly if nothing fails before a machine that has a tick to run.
-/
namespace EntityMachines

theorem World.mem_handles {w : World} {a : Nat} : a ∈ w.handles ↔ ∃ m, w.machine? a = some m := by
  unfold World.handles World.machine?
  rw [List.mem_map, ← Option.isSome_iff_exists, List.find?_isSome]
  simp

namespace Machine

variable {ev : Evaluator} {services : Services} {m : Instance} {w w' : World} {now : Int}
  {a i : Nat} {t : Tick}

/-- A declared tick of a machine has last run now. -/
def RanNow (a i : Nat) (now : Int) (w : World) : Prop :=
  ∃ m, w.machine? a = some m ∧ i < m.definition.ticks.length ∧ m.lastRun[i]? = some now

/-- In a pass of its machine a tick has its turn: it is due, it applies in the state of the machine,
its guard says yes, and its effects do not fail. -/
def CallsFor (ev : Evaluator) (services : Services) (a i : Nat) (now : Int) (w : World) : Prop :=
  ∃ m t earlier later ran w₁ w₂, w.machine? a = some m ∧
    tickOrder m.definition = earlier ++ (i, t) :: later ∧
    runTicks ev services a now earlier (w.opened m now) = .ok ran w₁ ∧
    Turn ev services { m with busy := true } (m.timesAt now) now i t w₁ true w₂

theorem Says.permits_eq {ctx : Context} {place : Text} {guard : Option Value}
    (h : Says ev services m ctx place guard w true w') :
    permits ev services m guard ctx place w = .ok true w' := by
  generalize hb : true = b at h
  cases h with
  | absent => rfl
  | @value guard v _ _ h =>
    have hattempt : Eval.attempt (ev.evaluate guard ctx) w = .ok (.ok v) w' := by
      unfold Eval.attempt
      rw [h]
    exact Eval.bind_of_ok hattempt
  | failure => cases hb

/-- A tick that has a turn with a run does run. -/
theorem Turn.runTick_eq {times : List Int} {stats : Stats} {pending : List Occurrence}
    {lastRun : List Int} (hm : w.machine? m.handle = some { m with stats, pending, lastRun })
    (htime : lastRun.getD i now = times.getD i now)
    (h : Turn ev services m times now i t w true w') :
    runTick ev services m.handle now i t w = .ok true w' := by
  let m' : Instance := { m with stats, pending, lastRun }
  cases h with
  | @ran w₁ w₂ due applies yes effects =>
    obtain ⟨ms, hms, hpassed⟩ := due
    have hinterval : interval services m' t w = .ok (some ms) w := interval_some hms w
    have hasked : permits ev services m' t.guard (m.context (.map []) now) ("tick " ++ t.name) w
        = .ok true w₁ := by
      rw [permits_label m' m rfl rfl]
      exact yes.permits_eq
    have heffects : runEffects ev services m'
        { m.context (.map []) now with handlers := m.handlers services } ("tick " ++ t.name) 0
        t.effects w₁ = .ok t.effects.length w₂ := by
      rw [runEffects_label m' m rfl]
      exact effects
    unfold runTick
    rw [withMachine_some hm, Eval.bind_of_ok hinterval]
    dsimp only at hpassed ⊢
    rw [htime, if_neg (by omega), if_neg (by simp [applies])]
    refine (Eval.bind_of_ok hasked).trans ?_
    exact Eval.bind_of_ok heffects

theorem ranTicks_cons {b : Bool} (rest : List (Nat × Tick))
    (h : runTick ev services a now i t w = .ok b w') :
    ranTicks ev services a now ((i, t) :: rest) w
      = (if b then [i] else []) ++ ranTicks ev services a now rest w' := by
  rw [ranTicks, h]
  cases b <;> rfl

/-- Ticks that have had their turns do not come into those of the later ones. -/
theorem ranTicks_append {earlier later : List (Nat × Tick)} {n : Nat}
    (h : runTicks ev services a now earlier w = .ok n w') :
    ranTicks ev services a now (earlier ++ later) w
      = ranTicks ev services a now earlier w ++ ranTicks ev services a now later w' := by
  induction earlier generalizing w n with
  | nil =>
    cases h
    rfl
  | cons entry rest ih =>
    obtain ⟨b, w₁, hturn, hrest⟩ := Eval.bind_ok h
    obtain ⟨others, w₂, hothers, hn⟩ := Eval.bind_ok hrest
    cases hn
    rw [List.cons_append, ranTicks_cons _ hturn, ranTicks_cons _ hturn, ih hothers,
      List.append_assoc]

theorem CallsFor.mem_ranTicks (hev : ev.Respects (Unmoved (fun _ => ()) a) fun _ => True)
    (hm : w.machine? a = some m) (h : CallsFor ev services a i now w) :
    i ∈ ranTicks ev services a now (tickOrder m.definition) (w.opened m now) := by
  obtain ⟨m', t, earlier, later, ran, w₁, w₂, hm', horder, hearlier, hturn⟩ := h
  obtain rfl : m' = m := Option.some.inj (hm'.symm.trans hm)
  obtain rfl := World.handle_of_machine? hm
  let acting : Instance := { m' with busy := true }
  have hnodup := tickOrder_nodup m'.definition
  rw [horder, List.map_append, List.map_cons] at hnodup
  have hbegin : During acting (w.opened m' now) (m'.timesAt now) (w.opened m' now) :=
    ⟨m'.stats, m'.pending, [], machine?_opened hm now, rfl, .done _, rfl⟩
  obtain ⟨before, hturns, -, stats, pending, -, hw₁, -⟩ :=
    runTicks_turns (m := acting) hev rfl hnodup.of_append_left (fun _ _ => rfl) hbegin hearlier
  -- The tick has its only turn now, so its time is the one from which the pass went out.
  have hnot : i ∉ before.map Prod.fst := fun hi =>
    (List.nodup_append.mp hnodup).2.2 i (hturns.sublist.map Prod.fst |>.subset hi) i
      List.mem_cons_self rfl
  have htime : (timesAfter now (m'.timesAt now) before).getD i now
      = (m'.timesAt now).getD i now := by
    rw [List.getD_eq_getElem?_getD, getElem?_timesAfter, if_neg hnot,
      List.getD_eq_getElem?_getD]
  rw [horder, ranTicks_append hearlier]
  refine List.mem_append_right _ ?_
  rw [ranTicks_cons later (Turn.runTick_eq (m := acting) hw₁ htime hturn)]
  exact List.mem_cons_self

theorem RanNow.kept (h : RanNow a i now w) (hw : TimesKept a w w') : RanNow a i now w' := by
  obtain ⟨m, hm, hi, hlast⟩ := h
  obtain ⟨m', hm', hd, -, ht⟩ := hw m hm
  exact ⟨m', hm', by rwa [hd], by rwa [ht]⟩

/-- What has run now where the times are the same had done so before. -/
theorem RanNow.of_kept (h : RanNow a i now w') (hw : TimesKept a w w') (ha : a ∈ w.handles) :
    RanNow a i now w := by
  obtain ⟨m, hm⟩ := World.mem_handles.mp ha
  obtain ⟨m', hm', hd, -, ht⟩ := hw m hm
  obtain ⟨m'', hm'', hi, hlast⟩ := h
  obtain rfl : m'' = m' := Option.some.inj (hm''.symm.trans hm')
  exact ⟨m, hm, by rwa [← hd], by rwa [← ht]⟩

section passes

variable (hev : ev.Respects (TimesKept a) fun _ => True)

include hev

/-- Behind a pass of its machine a tick has last run now if it ran in the pass, or before it. -/
theorem ranNow_runDueTicks (hm : w.machine? a = some m) (hi : i < m.definition.ticks.length)
    (h : i ∈ ranTicks ev services a now (tickOrder m.definition) (w.opened m now) ∨
      (m.timesAt now)[i]? = some now) :
    RanNow a i now ((runDueTicks ev services a now).after w) := by
  obtain rfl := World.handle_of_machine? hm
  obtain ⟨t, ht⟩ : ∃ t, m.definition.ticks[i]? = some t := ⟨_, List.getElem?_eq_getElem hi⟩
  have hticks : m.definition.ticks ≠ [] := by
    intro hnil
    rw [hnil] at hi
    cases hi
  obtain ⟨last, hlast⟩ : ∃ last, (m.timesAt now)[i]? = some last :=
    ⟨_, List.getElem?_eq_getElem (by rwa [timesAt_length])⟩
  have hopened : RanLast m i last (w.opened m now) :=
    ⟨_, machine?_opened hm now, rfl, rfl, timesAt_length m now, hlast⟩
  have hms : ∀ entry ∈ tickOrder m.definition, entry.1 = i → ∀ ms,
      m.interval? services entry.2 = some ms → (m.interval? services t).getD 0 ≤ ms := by
    rintro ⟨j, t'⟩ hmem rfl ms hms
    cases ht.symm.trans (mem_tickOrder.mp hmem)
    rw [hms]
    exact le_rfl
  obtain ⟨-, hran⟩ := runTicks_strides hev services now hms (w.opened m now) last hopened
  obtain ⟨m', hm', hd, -, hlength, hnow⟩ := hran.kept (runDueTicks_kept hev services now hm hticks)
  refine ⟨m', hm', by rwa [hd], ?_⟩
  rw [hnow, List.getLastD_eq_getLast?, List.getLast?_map]
  rcases h with hmem | hbefore
  · have hsome : (ranTicks ev services m.handle now (tickOrder m.definition)
        (w.opened m now)).filter (fun j => j == i) ≠ [] :=
      List.ne_nil_of_mem (List.mem_filter.mpr ⟨hmem, beq_self_eq_true i⟩)
    rw [List.getLast?_eq_some_getLast hsome]
    rfl
  · cases hlast.symm.trans hbefore
    cases List.getLast? _ <;> rfl

/-- The passes of other machines change no times. -/
theorem timesKept_runDueTicks {handle : Nat} (h : handle ≠ a) (w : World) :
    TimesKept a w ((runDueTicks ev services handle now).after w) :=
  (timesKept_transacts a handle).runDueTicks_keeps hev (timesKept_timed h) now w

/-- What has run now has done so behind all further passes at this time. -/
theorem RanNow.runDueTicks (h : RanNow a i now w) (handle : Nat) :
    RanNow a i now ((Machine.runDueTicks ev services handle now).after w) := by
  by_cases hhandle : handle = a
  · subst hhandle
    obtain ⟨m, hm, hi, hlast⟩ := h
    refine ranNow_runDueTicks hev hm hi (.inr ?_)
    unfold Instance.timesAt
    split
    · simp [hi]
    · exact hlast
  · exact h.kept (timesKept_runDueTicks hev hhandle w)

/-- A tick that is called for runs in the pass of its machine. -/
theorem CallsFor.ranNow (hunmoved : ev.Respects (Unmoved (fun _ => ()) a) fun _ => True)
    (h : CallsFor ev services a i now w) :
    RanNow a i now ((runDueTicks ev services a now).after w) := by
  obtain ⟨m, t, earlier, later, ran, w₁, w₂, hm, horder, -⟩ := id h
  have hmem : (i, t) ∈ tickOrder m.definition := by
    rw [horder]
    exact List.mem_append_right _ List.mem_cons_self
  obtain ⟨hi, -⟩ := List.getElem?_eq_some_iff.mp (mem_tickOrder.mp hmem)
  exact ranNow_runDueTicks hev hm hi (.inl (h.mem_ranTicks hunmoved hm))

end passes

theorem runDueTicks_handles (fuel : Nat) (services : Services) (handle : Nat) (now : Int) :
    Eval.Keeps HandlesKept
      (runDueTicks (Evaluator.withFuel Library.standard fuel) services handle now) :=
  (handlesKept_transacts handle).runDueTicks_keeps
    (Transacts.withFuel_respects handlesKept_transacts fuel)
    (MachineFrame.timed_of_update fun w _ hf => handlesKept_update handle w fun m => (hf m).1) now

end Machine

namespace Host

open Machine (CallsFor RanNow)

variable {ev : Evaluator} {now : Int} {h : Host} {a i : Nat}

/-- The host behind passes of some machines, one after the other, whatever fails in them. -/
def visited (ev : Evaluator) (now : Int) (order : List Nat) (h : Host) : Host :=
  { h with world :=
      order.foldl (fun w handle => (Machine.runDueTicks ev h.services handle now).after w) h.world }

/-- The host that a pass leaves behind, also if it fails. -/
def passed (ev : Evaluator) (now : Int) (order : List Nat) (h : Host) : Host :=
  match runTicksOf ev now order h with
  | .ok _ h' => h'
  | .error _ h' => h'

/-- Nothing fails in a pass. -/
def Passes (ev : Evaluator) (now : Int) (order : List Nat) (h : Host) : Prop :=
  ∃ ran h', runTicksOf ev now order h = .ok ran h'

theorem visited_append (ev : Evaluator) (now : Int) (earlier later : List Nat) (h : Host) :
    h.visited ev now (earlier ++ later) = (h.visited ev now earlier).visited ev now later := by
  unfold visited
  rw [List.foldl_append]

theorem visited_cons (ev : Evaluator) (now : Int) (handle : Nat) (rest : List Nat) (h : Host) :
    h.visited ev now (handle :: rest) = (h.visited ev now [handle]).visited ev now rest :=
  visited_append ev now [handle] rest h

theorem visited_singleton (ev : Evaluator) (now : Int) (handle : Nat) (h : Host) :
    h.visited ev now [handle]
      = { h with world := (Machine.runDueTicks ev h.services handle now).after h.world } := rfl

/-- A pass ends at its first machine, or goes on behind it. -/
theorem runTicksOf_cons (ev : Evaluator) (now : Int) (handle : Nat) (h : Host) :
    (∃ fault, ∀ rest,
      runTicksOf ev now (handle :: rest) h = .error fault (h.visited ev now [handle])) ∨
    ∃ ran, ∀ rest, runTicksOf ev now (handle :: rest) h
      = (runTicksOf ev now rest >>= fun others => pure (ran + others))
          (h.visited ev now [handle]) := by
  rw [visited_singleton]
  cases hr : Machine.runDueTicks ev h.services handle now h.world with
  | error fault w =>
    rw [Eval.after_error hr]
    exact .inl ⟨fault, fun rest => (get_bind _ h).trans (Eval.bind_of_error (perform_error hr))⟩
  | ok ran w =>
    rw [Eval.after_ok hr]
    exact .inr ⟨ran, fun rest => (get_bind _ h).trans (Eval.bind_of_ok (perform_ok hr))⟩

/-- A pass comes to its end, or to the first machine that fails. -/
theorem runTicksOf_cases (ev : Evaluator) (now : Int) (order : List Nat) (h : Host) :
    (∃ ran, runTicksOf ev now order h = .ok ran (h.visited ev now order)) ∨
    ∃ earlier handle later fault, order = earlier ++ handle :: later ∧ ∀ rest,
      runTicksOf ev now (earlier ++ handle :: rest) h
        = .error fault (h.visited ev now (earlier ++ [handle])) := by
  induction order generalizing h with
  | nil => exact .inl ⟨0, rfl⟩
  | cons first rest ih =>
    rcases runTicksOf_cons ev now first h with ⟨fault, hfails⟩ | ⟨ran, hgoes⟩
    · exact .inr ⟨[], first, rest, fault, rfl, hfails⟩
    · rcases ih (h.visited ev now [first]) with
        ⟨others, hothers⟩ | ⟨earlier, handle, later, fault, rfl, hothers⟩
      · left
        rw [← visited_append] at hothers
        exact ⟨ran + others, (hgoes rest).trans (Eval.bind_of_ok hothers)⟩
      · right
        refine ⟨first :: earlier, handle, later, fault, rfl, fun rest => ?_⟩
        have hfails := hothers rest
        rw [← visited_append] at hfails
        exact (hgoes _).trans (Eval.bind_of_error hfails)

/-- What a pass leaves behind is what the passes of some machines do. -/
theorem passed_eq_visited (ev : Evaluator) (now : Int) (order : List Nat) (h : Host) :
    ∃ before, h.passed ev now order = h.visited ev now before := by
  unfold passed
  rcases runTicksOf_cases ev now order h with
    ⟨ran, hok⟩ | ⟨earlier, handle, later, fault, rfl, hfails⟩
  · exact ⟨order, by rw [hok]⟩
  · exact ⟨earlier ++ [handle], by rw [hfails]⟩

/-- Behind machines that do not fail a pass goes on. -/
theorem Passes.passed_append {earlier : List Nat} (hpasses : Passes ev now earlier h)
    (later : List Nat) :
    h.passed ev now (earlier ++ later) = (h.visited ev now earlier).passed ev now later := by
  induction earlier generalizing h with
  | nil => rfl
  | cons first rest ih =>
    obtain ⟨ran, h', hok⟩ := hpasses
    rcases runTicksOf_cons ev now first h with ⟨fault, hfails⟩ | ⟨n, hgoes⟩
    · cases (hfails rest).symm.trans hok
    · obtain ⟨others, h₁, hothers, -⟩ := Eval.bind_ok ((hgoes rest).symm.trans hok)
      have hnext : h.passed ev now (first :: (rest ++ later))
          = (h.visited ev now [first]).passed ev now (rest ++ later) := by
        unfold passed
        rw [hgoes]
        cases hr : runTicksOf ev now (rest ++ later) (h.visited ev now [first]) with
        | ok m h₂ =>
          rw [Eval.bind_of_ok hr]
          rfl
        | error fault h₂ => rw [Eval.bind_of_error hr]
      rw [List.cons_append, hnext, ih ⟨others, h₁, hothers⟩, ← visited_append]
      rfl

/-- The first machine of a pass has its own, whatever becomes of the others. -/
theorem passed_cons (ev : Evaluator) (now : Int) (first : Nat) (rest : List Nat) (h : Host) :
    ∃ further, h.passed ev now (first :: rest)
      = (h.visited ev now [first]).visited ev now further := by
  rcases runTicksOf_cases ev now (first :: rest) h with
    ⟨ran, hok⟩ | ⟨earlier, handle, later, fault, horder, hfails⟩
  · refine ⟨rest, ?_⟩
    unfold passed
    rw [hok, ← visited_append]
    rfl
  · have hpassed : h.passed ev now (first :: rest) = h.visited ev now (earlier ++ [handle]) := by
      unfold passed
      rw [horder, hfails]
    rw [hpassed]
    cases earlier with
    | nil =>
      cases horder
      exact ⟨[], rfl⟩
    | cons head earlier =>
      cases horder
      exact ⟨earlier ++ [handle], by rw [← visited_append]; rfl⟩

section runs

variable (hev : ev.Respects (Machine.TimesKept a) fun _ => True)

include hev

theorem ranNow_visited (order : List Nat) (hran : RanNow a i now h.world) :
    RanNow a i now (h.visited ev now order).world := by
  induction order generalizing h with
  | nil => exact hran
  | cons handle rest ih =>
    rw [visited_cons]
    exact ih (hran.runDueTicks hev handle)

theorem timesKept_visited {order : List Nat} (ha : a ∉ order) :
    Machine.TimesKept a h.world (h.visited ev now order).world := by
  induction order generalizing h with
  | nil => exact (Machine.timesKept_frame a).same _ _ rfl rfl
  | cons handle rest ih =>
    rw [List.mem_cons, not_or] at ha
    have hrest : Machine.TimesKept a (h.visited ev now [handle]).world
        ((h.visited ev now [handle]).visited ev now rest).world := ih ha.2
    rw [visited_cons]
    exact (Machine.timesKept_runDueTicks hev (Ne.symm ha.1) h.world).trans hrest

end runs

theorem handles_visited (fuel : Nat) (now : Int) (order : List Nat) (h : Host) :
    (h.visited (Evaluator.withFuel Library.standard fuel) now order).live = h.live := by
  induction order generalizing h with
  | nil => rfl
  | cons handle rest ih =>
    rw [visited_cons, ih]
    exact Machine.runDueTicks_handles fuel h.services handle now h.world

/-- Whatever fails in the passes of other machines, a tick that is called for when the turn of its
machine comes has run behind the pass. -/
def Serves (ev : Evaluator) (now : Int) (order : List Nat) (h : Host) : Prop :=
  ∀ earlier a later i, order = earlier ++ a :: later → a ∉ earlier →
    CallsFor ev h.services a i now (h.visited ev now earlier).world →
    RanNow a i now (h.passed ev now order).world

/-- In whatever order the machines have their passes: all are served exactly if nothing fails before
a machine with a tick that is called for and has not yet run at this time. -/
theorem serves_iff (fuel : Nat) (now : Int) (order : List Nat) (h : Host) :
    Serves (Evaluator.withFuel Library.standard fuel) now order h ↔
      ∀ earlier a later i, order = earlier ++ a :: later → a ∉ earlier →
        CallsFor (Evaluator.withFuel Library.standard fuel) h.services a i now
          (h.visited (Evaluator.withFuel Library.standard fuel) now earlier).world →
        ¬RanNow a i now h.world →
        Passes (Evaluator.withFuel Library.standard fuel) now earlier h := by
  have hev (a : Nat) := Machine.timesKept_withFuel a fuel
  constructor
  · intro hserves earlier a later i horder ha hcalls hnot
    rcases runTicksOf_cases (Evaluator.withFuel Library.standard fuel) now earlier h with
      ⟨ran, hok⟩ | ⟨before, handle, behind, fault, rfl, hfails⟩
    · exact ⟨ran, _, hok⟩
    · have hran := hserves _ a later i horder ha hcalls
      have hpassed : h.passed (Evaluator.withFuel Library.standard fuel) now order
          = h.visited (Evaluator.withFuel Library.standard fuel) now (before ++ [handle]) := by
        unfold passed
        rw [horder, List.append_assoc, List.cons_append, hfails]
      rw [hpassed] at hran
      -- The pass has not come to the machine, so its times are those with which the pass began.
      have hother : a ∉ before ++ [handle] := fun hmem => ha (by
        rw [List.append_cons]
        exact List.mem_append_left _ hmem)
      have hlive : a ∈ h.live := by
        obtain ⟨m, hm, -⟩ := id hran
        rw [← handles_visited fuel now (before ++ [handle]) h]
        exact World.mem_handles.mpr ⟨m, hm⟩
      exact absurd (hran.of_kept (timesKept_visited (hev a) hother) hlive) hnot
  · intro hpasses earlier a later i horder ha hcalls
    by_cases hbefore : RanNow a i now h.world
    · obtain ⟨before, hpassed⟩ :=
        passed_eq_visited (Evaluator.withFuel Library.standard fuel) now order h
      rw [hpassed]
      exact ranNow_visited (hev a) before hbefore
    · have hearlier := hpasses earlier a later i horder ha hcalls hbefore
      rw [horder, hearlier.passed_append]
      obtain ⟨further, hpassed⟩ := passed_cons (Evaluator.withFuel Library.standard fuel) now a
        later (h.visited (Evaluator.withFuel Library.standard fuel) now earlier)
      rw [hpassed]
      have hunmoved := Machine.unmoved_withFuel (fun _ => ()) a fuel
      exact ranNow_visited (hev a) further (hcalls.ranNow (hev a) hunmoved)

/-- A machine with a tick in each frame. -/
def beating (effects : List Value) : Definition where
  name := "beating"
  initial := "on"
  states := [{ name := "on" }]
  ticks := [{ name := "beat", effects }]

def frail : Definition := beating [.array [.string "set"]]

/-- A machine whose tick fails, between two others. -/
def ward : Host where
  definitions := [(2, frail), (1, beating [])]
  nextDefinition := 3
  nextInstance := 4
  kept := [(3, beating []), (2, frail), (1, beating [])]
  services := {}
  world := {
    stores := #[.map [], .map [], .map []]
    machines := [Machine.fresh 3 (beating []) (.map []) 2 0, Machine.fresh 2 frail (.map []) 1 0,
      Machine.fresh 1 (beating []) (.map []) 0 0] }

def openWard : Action Nat := do
  let steady ← storeDefinition (beating [])
  let failing ← storeDefinition frail
  let _ ← create (Evaluator.withFuel Library.standard 4) steady .undefined .undefined
  let _ ← create (Evaluator.withFuel Library.standard 4) failing .undefined .undefined
  create (Evaluator.withFuel Library.standard 4) steady .undefined .undefined

/-- The machine that has its pass first has run its tick. -/
def wardBeaten : World :=
  ward.world.mapMachine 3 fun m => { m with lastRun := [16], stats := { ticksRun := 1 } }

theorem tickOrder_beating (effects : List Value) :
    Machine.tickOrder (beating effects) = [(0, { name := "beat", effects })] :=
  Machine.tickOrder_single rfl

theorem runDueTicks_beating {m : Instance} {w : World} {effects : List Value}
    (hm : w.machine? m.handle = some m) (hd : m.definition = beating effects)
    (services : Services) :
    Machine.runDueTicks ev services m.handle now w
      = Eval.andFinally (do
          let ran ← Machine.runTicks ev services m.handle now [(0, { name := "beat", effects })]
          Machine.drain ev services m.handle services.maxQueued
          return ran)
        (fun w => w.mapMachine m.handle fun m => { m with busy := false, pending := [] })
        (w.opened m now) := by
  rw [Machine.runDueTicks_eq hm (by simp [hd, beating]), hd, tickOrder_beating]

theorem ward_beats :
    Machine.runDueTicks (Evaluator.withFuel Library.standard 4) {} 3 16 ward.world
      = .ok 1 wardBeaten :=
  runDueTicks_beating (m := Machine.fresh 3 (beating []) (.map []) 2 0) rfl rfl {}

theorem ward_fails :
    Machine.runDueTicks (Evaluator.withFuel Library.standard 4) {} 2 16 wardBeaten
      = .error (.raised (.missingArgument "set" 1)) wardBeaten :=
  runDueTicks_beating (m := Machine.fresh 2 frail (.map []) 1 0) rfl rfl {}

/-- The tick of the last machine is due. -/
theorem ward_calls :
    CallsFor (Evaluator.withFuel Library.standard 4) {} 1 0 16 wardBeaten := by
  have hdue : Instance.Due { Machine.fresh 1 (beating []) (.map []) 0 0 with busy := true } {} [0]
      16 (0, { name := "beat" }) := ⟨16, rfl, by decide⟩
  exact ⟨Machine.fresh 1 (beating []) (.map []) 0 0, { name := "beat" }, [], [], 0, _, _, rfl,
    tickOrder_beating [], rfl, .ran hdue rfl (.absent _) rfl⟩

/-- The machine in the middle fails, and the last one is not served. -/
theorem ward_starves :
    openWard { services := {} } = .ok 3 ward ∧ ward.live = [3, 2, 1] ∧
      runDueTicks (Evaluator.withFuel Library.standard 4) 16 ward
        = .error (.raised (.missingArgument "set" 1)) { ward with world := wardBeaten } ∧
      ¬Serves (Evaluator.withFuel Library.standard 4) 16 ward.live ward := by
  have hpass : runTicksOf (Evaluator.withFuel Library.standard 4) 16 [3, 2, 1] ward
      = .error (.raised (.missingArgument "set" 1)) { ward with world := wardBeaten } := by
    have hfirst := perform_ok (h := ward) ward_beats
    have hsecond := perform_error (h := { ward with world := wardBeaten }) ward_fails
    refine (get_bind _ _).trans ((Eval.bind_of_ok hfirst).trans (Eval.bind_of_error ?_))
    exact (get_bind _ _).trans (Eval.bind_of_error hsecond)
  refine ⟨rfl, rfl, hpass, fun hserves => ?_⟩
  have hvisited : (ward.visited (Evaluator.withFuel Library.standard 4) 16 [3, 2]).world
      = wardBeaten := by
    exact (congrArg (Eval.after _) (Eval.after_ok ward_beats)).trans (Eval.after_error ward_fails)
  have hran := hserves [3, 2] 1 [] 0 rfl (by decide) (by rw [hvisited]; exact ward_calls)
  have hpassed : ward.passed (Evaluator.withFuel Library.standard 4) 16 ward.live
      = { ward with world := wardBeaten } := by
    change passed _ _ [3, 2, 1] _ = _
    unfold passed
    rw [hpass]
  rw [hpassed] at hran
  obtain ⟨m, hm, -, hlast⟩ := hran
  cases hm
  cases hlast

end Host
end EntityMachines
