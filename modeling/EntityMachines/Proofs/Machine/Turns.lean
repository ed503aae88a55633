import EntityMachines.Proofs.Machine.Choice
import EntityMachines.Proofs.Machine.Drain

/-!
The turns of the ticks of a machine. Each tick has one turn, in the world that the turns before it
have left; the machine keeps its state until all have had theirs, and what they emit waits.
-/
namespace EntityMachines

/-- The milliseconds between runs of a tick, if it runs at all. -/
def Instance.interval? (m : Instance) (services : Services) (tick : Tick) : Option Int :=
  match tick.interval with
  | .frame => some services.frameInterval
  | .fixed ms => some (Double.toInt ms)
  | .config key =>
    let ms := (m.config.get key).toNumber
    if ms > 0.0 then some (Double.toInt ms) else none

/-- The interval of a tick is known, and it has passed since the last run. -/
def Instance.Due (m : Instance) (services : Services) (times : List Int) (now : Int)
    (entry : Nat × Tick) : Prop :=
  ∃ ms, m.interval? services entry.2 = some ms ∧ ms ≤ now - times.getD entry.1 now

namespace Machine

variable {ev : Evaluator} {services : Services} {m : Instance} {w w' : World}
  {now : Int} {times : List Int}

/-- A machine during a pass: but for its counters, its queue and the times of its ticks it is as it
was. -/
def Present (m : Instance) (w : World) : Prop :=
  ∃ stats pending lastRun, w.machine? m.handle = some { m with stats, pending, lastRun }

/-- The turn of a tick, and whether it runs: it is due, it applies in the state of the machine, and
its guard says yes. -/
inductive Turn (ev : Evaluator) (services : Services) (m : Instance) (times : List Int) (now : Int)
    (i : Nat) (t : Tick) (w : World) : Bool → World → Prop
  | ran {w₁ w₂} (due : m.Due services times now (i, t)) (applies : t.appliesIn m.state = true)
      (yes : Says ev services m (m.context (.map []) now) ("tick " ++ t.name) t.guard w true w₁)
      (effects : runEffects ev services m
        { m.context (.map []) now with handlers := m.handlers services } ("tick " ++ t.name) 0
        t.effects w₁ = .ok t.effects.length w₂) :
      Turn ev services m times now i t w true
        ((w₂.mapMachine m.handle fun m => { m with lastRun := m.lastRun.set i now }).counted
          m.handle fun s => { s with ticksRun := s.ticksRun + 1 })
  | waits {log} (early : ¬m.Due services times now (i, t)) :
      Turn ev services m times now i t w false { w with log }
  | elsewhere (due : m.Due services times now (i, t)) (excluded : t.appliesIn m.state = false) :
      Turn ev services m times now i t w false
        (w.counted m.handle fun s => { s with ticksSkipped := s.ticksSkipped + 1 })
  | denied {w₁} (due : m.Due services times now (i, t)) (applies : t.appliesIn m.state = true)
      (no : Says ev services m (m.context (.map []) now) ("tick " ++ t.name) t.guard w false w₁) :
      Turn ev services m times now i t w false
        (w₁.counted m.handle fun s => { s with ticksSkipped := s.ticksSkipped + 1 })

/-- The turns of some ticks, one after the other, and which of them run. -/
inductive Turns (ev : Evaluator) (services : Services) (m : Instance) (times : List Int)
    (now : Int) : List (Nat × Tick) → World → List (Nat × Tick) → World → Prop
  | done (w : World) : Turns ev services m times now [] w [] w
  | runs {i t rest ran} {w w₁ w' : World} (present : Present m w)
      (turn : Turn ev services m times now i t w true w₁)
      (next : Turns ev services m times now rest w₁ ran w') :
      Turns ev services m times now ((i, t) :: rest) w ((i, t) :: ran) w'
  | passes {i t rest ran} {w w₁ w' : World} (present : Present m w)
      (turn : Turn ev services m times now i t w false w₁)
      (next : Turns ev services m times now rest w₁ ran w') :
      Turns ev services m times now ((i, t) :: rest) w ran w'

theorem interval_some {t : Tick} {ms : Int} (h : m.interval? services t = some ms) (w : World) :
    interval services m t w = .ok (some ms) w := by
  unfold Instance.interval? at h
  unfold interval
  cases ht : t.interval with
  | frame =>
    rw [ht] at h
    cases h
    rfl
  | fixed x =>
    rw [ht] at h
    cases h
    rfl
  | config key =>
    rw [ht] at h
    dsimp only at h ⊢
    split at h
    next hpositive =>
      cases h
      rw [if_pos hpositive]
      rfl
    next => cases h

theorem interval_none {t : Tick} (h : m.interval? services t = none) (w : World) :
    ∃ log, interval services m t w = .ok none { w with log } := by
  unfold Instance.interval? at h
  unfold interval
  cases ht : t.interval with
  | frame =>
    rw [ht] at h
    cases h
  | fixed x =>
    rw [ht] at h
    cases h
  | config key =>
    rw [ht] at h
    dsimp only at h ⊢
    split at h
    next => cases h
    next hpositive =>
      rw [if_neg hpositive]
      obtain ⟨log, hnote⟩ := note_ok services m .debug "tick"
        (t.name ++ ": interval @config." ++ key ++ " is not positive, skipped") w
      exact ⟨log, Eval.bind_of_ok hnote⟩

/-- Of a machine, effects only need its name in the log. -/
theorem runEffects_label (m' m : Instance) (h : m'.label = m.label) (ev : Evaluator)
    (services : Services) (ctx : Context) (place : Text) (ran : Nat) (effects : List Value) :
    runEffects ev services m' ctx place ran effects
      = runEffects ev services m ctx place ran effects := by
  have hnote (message : Text) : note services m' .error "behavior" message
      = note services m .error "behavior" message := by
    unfold note
    rw [h]
  induction effects generalizing ran with
  | nil => rfl
  | cons effect rest ih =>
    unfold runEffects
    simp only [ih, hnote]

theorem permits_label (m' m : Instance) (hlabel : m'.label = m.label)
    (hhandle : m'.handle = m.handle) (ev : Evaluator) (services : Services) (guard : Option Value)
    (ctx : Context) (place : Text) :
    permits ev services m' guard ctx place = permits ev services m guard ctx place := by
  unfold permits guardHolds record note
  rw [hlabel, hhandle]

/-- Of the machine, a turn only sees the time of its tick change during a pass. -/
theorem runTick_turn {stats : Stats} {pending : List Occurrence} {lastRun : List Int} {i : Nat}
    {t : Tick} {b : Bool} (hm : w.machine? m.handle = some { m with stats, pending, lastRun })
    (htime : lastRun.getD i now = times.getD i now)
    (h : runTick ev services m.handle now i t w = .ok b w') :
    Turn ev services m times now i t w b w' := by
  let m' : Instance := { m with stats, pending, lastRun }
  unfold runTick at h
  rw [withMachine_some hm] at h
  obtain ⟨found, w₁, hinterval, h⟩ := Eval.bind_ok h
  have hinterval' : interval services m' t w = .ok found w₁ := hinterval
  cases hms : m.interval? services t with
  | none =>
    obtain ⟨log, hnone⟩ := interval_none (m := m') hms w
    cases hnone.symm.trans hinterval'
    cases h
    refine .waits ?_
    rintro ⟨ms, hsome, -⟩
    cases hms.symm.trans hsome
  | some ms =>
    cases (interval_some (m := m') hms w).symm.trans hinterval'
    dsimp only at h
    rw [htime] at h
    split at h
    next hearly =>
      cases h
      have hlog : w = { w with log := w.log } := rfl
      rw [hlog]
      refine .waits ?_
      rintro ⟨ms', hsome, hpassed⟩
      cases hms.symm.trans hsome
      dsimp only at hpassed
      omega
    next hpassed =>
      have hdue : m.Due services times now (i, t) := ⟨ms, hms, by dsimp only; omega⟩
      split at h
      next hexcluded =>
        cases h
        exact .elsewhere hdue (by simpa using hexcluded)
      next happlies =>
        have happlies' : t.appliesIn m.state = true := by simpa using happlies
        obtain ⟨permitted, w₂, hasked, h⟩ := Eval.bind_ok h
        have hasked' : permits ev services m' t.guard (m.context (.map []) now)
            ("tick " ++ t.name) w = .ok permitted w₂ := hasked
        rw [permits_label m' m rfl rfl] at hasked'
        cases permitted with
        | false =>
          cases h
          exact .denied hdue happlies' (permits_ok hasked')
        | true =>
          unfold performTick at h
          obtain ⟨n, w₃, heffects, h⟩ := Eval.bind_ok h
          have heffects' : runEffects ev services m'
              { m.context (.map []) now with handlers := m.handlers services }
              ("tick " ++ t.name) 0 t.effects w₂ = .ok n w₃ := heffects
          rw [runEffects_label m' m rfl] at heffects'
          obtain rfl : n = t.effects.length := by simpa using runEffects_count heffects'
          cases h
          exact .ran hdue happlies' (permits_ok hasked') heffects'

/-- How far a machine has come in a pass. Nothing has been taken off its queue. -/
def During (m : Instance) (before : World) (lastRun : List Int) (w : World) : Prop :=
  ∃ stats pending J, w.machine? m.handle = some { m with stats, pending, lastRun } ∧
    w.history = J.reverse ++ before.history ∧
    Worklist m.definition m.pending (deedsOf m.handle J) pending ∧
    pick Deed.taken? (deedsOf m.handle J) = []

namespace During

variable {before : World} {lastRun : List Int}

theorem present (h : During m before lastRun w) : Present m w := by
  obtain ⟨stats, pending, _, hm, -⟩ := h
  exact ⟨stats, pending, lastRun, hm⟩

theorem unmoved {β : Type} {f : Stats → β} (h : During m before lastRun w) (hb : m.busy = true)
    (hw : Unmoved f m.handle w w') : During m before lastRun w' := by
  obtain ⟨stats, pending, J, hm, hh, hq, ht⟩ := h
  obtain ⟨stats', pending', J', hm', -, hh', hq', ht'⟩ := hw _ hm hb
  refine ⟨stats', pending', J ++ J', hm', ?_, ?_, ?_⟩
  · rw [hh', hh, List.reverse_append, List.append_assoc]
  · rw [deedsOf_append]
    exact hq.append hq'
  · rw [deedsOf_append, pick_append, ht, ht']
    rfl

theorem counted (h : During m before lastRun w) (g : Stats → Stats) :
    During m before lastRun (w.counted m.handle g) := by
  obtain ⟨stats, pending, J, hm, hh, hq, ht⟩ := h
  have hm' := World.machine?_mapMachine_self hm
    (f := fun m => { m with stats := g m.stats }) fun _ => rfl
  exact ⟨g stats, pending, J, hm', hh, hq, ht⟩

theorem timed (h : During m before lastRun w) (i : Nat) (now : Int) :
    During m before (lastRun.set i now)
      (w.mapMachine m.handle fun m => { m with lastRun := m.lastRun.set i now }) := by
  obtain ⟨stats, pending, J, hm, hh, hq, ht⟩ := h
  have hm' := World.machine?_mapMachine_self hm
    (f := fun m => { m with lastRun := m.lastRun.set i now }) fun _ => rfl
  exact ⟨stats, pending, J, hm', hh, hq, ht⟩

end During

/-- The times behind a pass: the ticks that ran have done so now. -/
def timesAfter (now : Int) (lastRun : List Int) (ran : List (Nat × Tick)) : List Int :=
  ran.foldl (fun times entry => times.set entry.1 now) lastRun

theorem timesAfter_cons (now : Int) (lastRun : List Int) (entry : Nat × Tick)
    (ran : List (Nat × Tick)) :
    timesAfter now lastRun (entry :: ran) = timesAfter now (lastRun.set entry.1 now) ran := rfl

theorem getElem?_timesAfter (now : Int) (lastRun : List Int) (ran : List (Nat × Tick)) (i : Nat) :
    (timesAfter now lastRun ran)[i]?
      = if i ∈ ran.map Prod.fst then lastRun[i]?.map fun _ => now else lastRun[i]? := by
  induction ran generalizing lastRun with
  | nil => simp [timesAfter]
  | cons entry rest ih =>
    rw [timesAfter_cons, ih, List.getElem?_set]
    by_cases h : entry.1 = i
    · subst h
      by_cases hlength : entry.1 < lastRun.length
      · simp [hlength]
      · simp [hlength]
    · have hmem : i ∈ (entry :: rest).map Prod.fst ↔ i ∈ rest.map Prod.fst := by
        rw [List.map_cons, List.mem_cons]
        exact or_iff_right (Ne.symm h)
      simp only [if_neg h, hmem]

section judged

variable {R : World → World → Prop} (hR : Judges R (fun _ => True) ev services m)

include hR

/-- A turn with a run asks the guard and runs the effects; then the time is set and the run is
counted. -/
theorem Turn.runs {i : Nat} {t : Tick} (h : Turn ev services m times now i t w true w') :
    ∃ w₁, R w w₁ ∧ w' =
      (w₁.mapMachine m.handle fun m => { m with lastRun := m.lastRun.set i now }).counted m.handle
        fun s => { s with ticksRun := s.ticksRun + 1 } := by
  cases h with
  | ran _ _ yes effects =>
    have hrun := (hR.runEffects_keeps trivial _ _ _).of_ok effects
    exact ⟨_, hR.respects.frame.trans (yes.keeps hR trivial) hrun, rfl⟩

theorem Turn.passes (hlog : ∀ w log, R w { w with log })
    (hcount : ∀ w f, R w (w.counted m.handle f)) {i : Nat} {t : Tick}
    (h : Turn ev services m times now i t w false w') : R w w' := by
  cases h with
  | waits => exact hlog w _
  | elsewhere => exact hcount w _
  | denied _ _ no => exact hR.respects.frame.trans (no.keeps hR trivial) (hcount _ _)

/-- A tick that fails does so in its guard or in its effects. -/
theorem runTick_stops {i : Nat} {t : Tick} {fault : Fault} (hm : w.machine? m.handle = some m)
    (h : runTick ev services m.handle now i t w = .error fault w') : R w w' := by
  have htrans {w₁ w₂ w₃ : World} : R w₁ w₂ → R w₂ w₃ → R w₁ w₃ := hR.respects.frame.trans
  unfold runTick at h
  rw [withMachine_some hm] at h
  rcases Eval.bind_error h with hinterval | ⟨found, w₁, hinterval, h⟩
  · exact (hR.interval_keeps t).of_error hinterval
  have hknown := (hR.interval_keeps t).of_ok hinterval
  cases found with
  | none => cases h
  | some ms =>
    dsimp only at h
    split at h
    next => cases h
    split at h
    next => cases h
    rcases Eval.bind_error h with hasked | ⟨permitted, w₂, hasked, h⟩
    · exact htrans hknown ((hR.permits_keeps trivial _ _).of_error hasked)
    have hanswered := htrans hknown ((hR.permits_keeps trivial _ _).of_ok hasked)
    cases permitted with
    | false => cases h
    | true =>
      rcases Eval.bind_error h with heffects | ⟨_, _, -, h⟩
      · exact htrans hanswered ((hR.runEffects_keeps trivial _ _ _).of_error heffects)
      · cases h

end judged

section

variable {before : World} {lastRun : List Int}
  (hev : ev.Respects (Unmoved (fun _ => ()) m.handle) fun _ => True) (hb : m.busy = true)

include hev hb

theorem Turn.during {i : Nat} {t : Tick} {b : Bool} (h : Turn ev services m times now i t w b w')
    (hw : During m before lastRun w) :
    During m before (if b then lastRun.set i now else lastRun) w' := by
  have hjudges : Judges (Unmoved (fun _ => ()) m.handle) (fun _ => True) ev services m :=
    Unmoved.judges hev fun _ => rfl
  cases b with
  | true =>
    obtain ⟨w₁, hran, rfl⟩ := h.runs hjudges
    exact ((hw.unmoved hb hran).timed i now).counted _
  | false =>
    refine hw.unmoved hb (h.passes hjudges (fun _ _ => ?_) fun _ _ => Unmoved.of_count _ fun _ => rfl)
    exact Unmoved.of_held (Held.of_apart (Apart.of_machines rfl rfl))

/-- By induction on the ticks that still have their turns. Their own times are those from which the
pass began, since every tick has only one turn. -/
theorem runTicks_turns {order : List (Nat × Tick)} {n : Nat}
    (hnodup : (order.map Prod.fst).Nodup)
    (htimes : ∀ entry ∈ order, lastRun.getD entry.1 now = times.getD entry.1 now)
    (hw : During m before lastRun w)
    (h : runTicks ev services m.handle now order w = .ok n w') :
    ∃ ran, Turns ev services m times now order w ran w' ∧ n = ran.length ∧
      During m before (timesAfter now lastRun ran) w' := by
  induction order generalizing w lastRun n with
  | nil =>
    cases h
    exact ⟨[], .done _, rfl, hw⟩
  | cons entry rest ih =>
    obtain ⟨i, t⟩ := entry
    rw [List.map_cons, List.nodup_cons] at hnodup
    obtain ⟨hfirst, hnodup⟩ := hnodup
    unfold runTicks at h
    obtain ⟨b, w₁, hturn, h⟩ := Eval.bind_ok h
    obtain ⟨others, w₂, hothers, h⟩ := Eval.bind_ok h
    cases h
    have hrest (entry : Nat × Tick) (hmem : entry ∈ rest) :
        lastRun.getD entry.1 now = times.getD entry.1 now := htimes entry (by simp [hmem])
    obtain ⟨stats, pending, _, hm, -⟩ := id hw
    have hturn' : Turn ev services m times now i t w b w₁ :=
      runTick_turn hm (htimes (i, t) (by simp)) hturn
    have hw₁ := hturn'.during hev hb hw
    cases b with
    | false =>
      obtain ⟨ran, hturns, hn, hafter⟩ := ih hnodup hrest hw₁ hothers
      exact ⟨ran, .passes hw.present hturn' hturns, hn, hafter⟩
    | true =>
      have hset (entry : Nat × Tick) (hmem : entry ∈ rest) :
          (lastRun.set i now).getD entry.1 now = times.getD entry.1 now := by
        have hne : i ≠ entry.1 := by
          intro hi
          have hplace : i ∈ rest.map Prod.fst := by
            rw [hi]
            exact List.mem_map_of_mem hmem
          exact hfirst hplace
        rw [← hrest entry hmem]
        simp [List.getD_eq_getElem?_getD, List.getElem?_set_ne hne]
      obtain ⟨ran, hturns, hn, hafter⟩ := ih hnodup hset hw₁ hothers
      exact ⟨(i, t) :: ran, .runs hw.present hturn' hturns, congrArg (· + 1) hn, hafter⟩

end

theorem Turn.ran_iff {i : Nat} {t : Tick} {b : Bool}
    (h : Turn ev services m times now i t w b w') :
    b = true ↔ m.Due services times now (i, t) ∧ t.appliesIn m.state = true ∧
      ∃ w₁, Says ev services m (m.context (.map []) now) ("tick " ++ t.name) t.guard w true w₁ := by
  cases h with
  | ran due applies yes => exact ⟨fun _ => ⟨due, applies, _, yes⟩, fun _ => rfl⟩
  | waits early => simp [early]
  | elsewhere _ excluded => simp [excluded]
  | denied _ _ no =>
    constructor
    · simp
    · rintro ⟨-, -, _, yes⟩
      exact no.unique yes

theorem Turns.sublist {order ran : List (Nat × Tick)}
    (h : Turns ev services m times now order w ran w') : ran.Sublist order := by
  induction h with
  | done => exact .slnil
  | runs _ _ _ ih => exact ih.cons_cons _
  | passes _ _ _ ih => exact ih.cons _

/-- Whether a tick runs is settled in the world that the turns before its own have left. -/
theorem Turns.chosen {order ran : List (Nat × Tick)} {entry : Nat × Tick}
    (h : Turns ev services m times now order w ran w') (hnodup : order.Nodup)
    (hentry : entry ∈ order) :
    ∃ earlier ranEarlier w₁, earlier ++ [entry] <+: order ∧
      Turns ev services m times now earlier w ranEarlier w₁ ∧ Present m w₁ ∧
      (entry ∈ ran ↔ m.Due services times now entry ∧ entry.2.appliesIn m.state = true ∧
        ∃ w₂, Says ev services m (m.context (.map []) now) ("tick " ++ entry.2.name)
          entry.2.guard w₁ true w₂) := by
  induction h with
  | done => cases hentry
  | @runs i t rest ran w _ _ present turn next ih =>
    rw [List.nodup_cons] at hnodup
    obtain ⟨hfirst, hnodup⟩ := hnodup
    rcases List.mem_cons.mp hentry with rfl | hmem
    · refine ⟨[], [], w, by simp, .done w, present, ?_⟩
      rw [← turn.ran_iff]
      simp
    · obtain ⟨earlier, ranEarlier, w₁, hprefix, hturns, hpresent, hiff⟩ := ih hnodup hmem
      refine ⟨(i, t) :: earlier, (i, t) :: ranEarlier, w₁, by simpa using hprefix,
        .runs present turn hturns, hpresent, ?_⟩
      rw [← hiff, List.mem_cons]
      exact or_iff_right fun heq => hfirst (heq ▸ hmem)
  | @passes i t rest ran w _ _ present turn next ih =>
    rw [List.nodup_cons] at hnodup
    obtain ⟨hfirst, hnodup⟩ := hnodup
    rcases List.mem_cons.mp hentry with rfl | hmem
    · refine ⟨[], [], w, by simp, .done w, present, ?_⟩
      rw [← turn.ran_iff]
      have hnone : (i, t) ∉ ran := fun hran => hfirst (next.sublist.subset hran)
      simp [hnone]
    · obtain ⟨earlier, ranEarlier, w₁, hprefix, hturns, hpresent, hiff⟩ := ih hnodup hmem
      exact ⟨(i, t) :: earlier, ranEarlier, w₁, by simpa using hprefix,
        .passes present turn hturns, hpresent, hiff⟩

end Machine
end EntityMachines
