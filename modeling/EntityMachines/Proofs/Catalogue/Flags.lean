import EntityMachines.Catalogue
import EntityMachines.Proofs.Host.Neighbors
import EntityMachines.Proofs.Machine.Indicators

/-!
Busy flags. The machines that wait for something show it in their data, and an entity that has been
damaged cannot be damaged again until its timer lets it go. Main statement: as long as no handler
fails, the flags of a machine agree with its state, whatever is done to its host and whatever other
machines there are.
-/
namespace EntityMachines
namespace Catalogue
namespace Health

/-- A damaged entity cannot be damaged again until its timer lets it go. -/
def Safe (state : Text) (data : Value) : Prop :=
  state = "Damaged" → data.get "isInvulnerable" = .bool true

/-- What an event comes to. -/
inductive Outcome (s : Scene) (event : Text) (s' : Scene) : Prop
  /-- The machine stays where it is. -/
  | stays (state : s'.state = s.state)
      (flag : s'.data.get "isInvulnerable" = s.data.get "isInvulnerable") (queue : s'.queue = [])
      (alive : event = "DIE" → s.state ≠ "Damaged")
  | lives (state : s'.state = "Alive") (queue : s'.queue = [])
  | hit (event : event = "DAMAGE") (before : s.state = "Alive")
      (flag : s'.data.get "isInvulnerable" = .bool true) (queue : s'.queue = [])
  /-- The last blow has the machine process its death next. -/
  | falls {payload} (event : event = "DAMAGE") (before : s.state = "Alive")
      (state : s'.state = "Damaged") (queue : s'.queue = [⟨"DIE", payload⟩])
  | dies (state : s'.state = "Dead") (queue : s'.queue.length ≤ 1)
  | returns {payload} (state : s'.state = "Alive") (queue : s'.queue = [⟨"INIT", payload⟩])

variable {actor : Actor} {n : Nat} {s : Scene} {event : Text} {payload : Value} {now : Int}
  {timers : Table (Timer DelayedEmit)}

/-- A blow leaves the entity invulnerable, or with its death to come. -/
theorem performs_blow (hd : actor.machine.definition = health)
    (hlimit : 1 ≤ actor.services.maxQueued) (hs : s.Within timers) (hqueue : s.queue = [])
    (hstate : s.state = "Alive") :
    actor.PerformsAll (n + 5) (actor.stage s payload now)
      (health.transitions.get ⟨1, by decide⟩).effects s
      (fun s' => ({ s' with state := "Damaged" } : Scene).Within timers ∧
        Outcome s "DAMAGE" { s' with state := "Damaged" }) fun _ => True := by
  have hctx := actor.acts_stage s payload now
  refine Actor.PerformsAll.append [_, _] [_]
    (Expr.performsAll_of_spares "isInvulnerable" true 5
      (by decide +kernel) hctx hs.busy n (fun s₁ hs₁ => ?_) fun _ _ => trivial)
  have hwithin : s₁.Within timers := hs₁.within hs
  have hqueue₁ : s₁.queue = [] := (hs₁.queue rfl).trans hqueue
  refine .either hctx (Evaluator.plain_of_isPlain 4 (by decide +kernel) n) ?_ ?_
  · refine .emit hctx hwithin.busy (.literal rfl rfl) nofun (fun payload => ?_) fun _ => trivial
    rw [Actor.post_of_empty (hd ▸ rfl) hlimit hqueue₁]
    exact ⟨⟨hwithin.busy, hwithin.timers⟩, .falls rfl hstate rfl rfl⟩
  · refine .sequence (Expr.performs_of_flags "isInvulnerable" true
      (by decide +kernel) hctx (fun data hdata => ?_) fun _ _ => trivial)
    refine Expr.performsAll_of_spares "isInvulnerable" true 3
      (by decide +kernel) hctx (s := { s₁ with data }) hwithin.busy n (fun s' hs' => ?_)
      fun _ _ => trivial
    exact ⟨hs'.within ⟨hwithin.busy, hwithin.timers⟩, .hit rfl hstate (hs'.data.trans hdata)
      ((hs'.queue rfl).trans hqueue₁)⟩

/-- Death is announced by an event of any name, which may be one of the entity's own. -/
theorem performs_death (hs : s.Within timers) (hqueue : s.queue = []) :
    actor.PerformsAll (n + 5) (actor.stage s payload now)
      (health.transitions.get ⟨4, by decide⟩).effects s
      (fun s' => ({ s' with state := "Dead" } : Scene).Within timers ∧
        Outcome s event { s' with state := "Dead" }) fun _ => True := by
  have hctx := actor.acts_stage s payload now
  refine Actor.PerformsAll.append [_] [_, _]
    (Expr.performsAll_of_spares [] true 5
      (by decide +kernel) hctx hs.busy n (fun s₁ hs₁ => ?_) fun _ _ => trivial)
  have hwithin : s₁.Within timers := hs₁.within hs
  have hqueue₁ : s₁.queue = [] := (hs₁.queue rfl).trans hqueue
  have hdeath : Evaluator.Plain (n + 4) (.string "@config.onDeath") :=
    Evaluator.plain_of_isPlain 4 rfl n
  obtain ⟨v, hv⟩ := hdeath (actor.stage s payload now) s₁.data
  refine .emit hctx hwithin.busy hv (Evaluator.plain_of_all 4 (by decide +kernel) n)
    (fun payload => ?_) fun _ => trivial
  have hpost : (actor.post s₁ ⟨v.display, payload⟩).Within timers ∧
      (actor.post s₁ ⟨v.display, payload⟩).queue.length ≤ 1 := by
    unfold Actor.post
    split
    · exact ⟨⟨hwithin.busy, hwithin.timers⟩, by simp [hqueue₁]⟩
    · exact ⟨hwithin, by simp [hqueue₁]⟩
  refine Expr.performsAll_of_spares [] true 5
    (by decide +kernel) hctx hpost.1.busy n (fun s' hs' => ?_) fun _ _ => trivial
  exact ⟨hs'.within hpost.1, .dies rfl ((hs'.queue rfl).symm ▸ hpost.2)⟩

theorem answers (hd : actor.machine.definition = health) (hlimit : 1 ≤ actor.services.maxQueued)
    (hs : s.Within timers) (hqueue : s.queue = []) :
    actor.Answers (n + 5) s event payload now (fun s' => s'.Within timers ∧ Outcome s event s')
      fun _ => True := by
  have hctx := actor.acts_stage s payload now
  refine Actor.answers_of_plain hd (by decide +kernel)
    (fun hdenied => ⟨hs, .stays rfl rfl hqueue ?_⟩) fun t ht hsuits _ => ?_
  · rintro rfl hstate
    have hdeath := hdenied (health.transitions.get ⟨4, by decide⟩) (List.get_mem _ _)
      ⟨rfl, by rw [hstate]; decide⟩
    exact hdeath.guarded rfl
  · obtain ⟨rfl, hstate⟩ := hsuits
    simp only [health, List.mem_cons, List.not_mem_nil, or_false] at ht
    rcases ht with rfl | rfl | rfl | rfl | rfl | rfl
    · refine Expr.performsAll_of_spares [] true 5
        (by decide +kernel) hctx hs.busy n (fun s' hs' => ?_) fun _ _ => trivial
      exact ⟨hs'.within hs, .lives rfl ((hs'.queue rfl).trans hqueue)⟩
    · exact performs_blow hd hlimit hs hqueue
        (List.mem_singleton.mp (List.contains_iff_mem.mp hstate))
    · refine Expr.performsAll_of_spares [] true 5
        (by decide +kernel) hctx hs.busy n (fun s' hs' => ?_) fun _ _ => trivial
      exact ⟨hs'.within hs, .lives rfl ((hs'.queue rfl).trans hqueue)⟩
    · refine Expr.performsAll_of_spares "isInvulnerable" true 5
        (by decide +kernel) hctx hs.busy n (fun s' hs' => ?_) fun _ _ => trivial
      exact ⟨hs'.within hs, .stays rfl hs'.data ((hs'.queue rfl).trans hqueue)
        fun hdie => absurd hdie (by decide)⟩
    · exact performs_death hs hqueue
    · refine .emit hctx hs.busy (.literal rfl rfl) nofun (fun payload => ?_) fun _ => trivial
      rw [Actor.post_of_empty (hd ▸ rfl) hlimit hqueue]
      exact ⟨⟨hs.busy, hs.timers⟩, .returns rfl rfl⟩

/-- What is still queued cannot damage the entity. -/
inductive Settling (s : Scene) : Prop
  | done (queue : s.queue = []) (safe : Safe s.state s.data)
  | dead (queue : s.queue.length ≤ 1) (state : s.state = "Dead")
  | waits {o} (queue : s.queue = [o]) (event : o.event = "INIT" ∨ o.event = "INVULNERABILITY_END")
      (safe : Safe s.state s.data)

theorem Settling.safe (h : Settling s) : Safe s.state s.data := by
  cases h with
  | done _ safe | waits _ _ safe => exact safe
  | dead _ state =>
    intro hdamaged
    cases state.symm.trans hdamaged

/-- Only the last blow leaves the entity damaged without its timer, with its death to come. -/
theorem Outcome.settling {s' : Scene} (h : Outcome s event s')
    (hsafe : event = "DIE" ∧ s.state = "Damaged" ∨ Safe s.state s.data) :
    Settling s' ∨ event = "DAMAGE" ∧ s.state = "Alive" ∧ s'.state = "Damaged" ∧
      ∃ payload, s'.queue = [⟨"DIE", payload⟩] := by
  have hother {state : Text} (hstate : s'.state = state) (hne : state ≠ "Damaged") :
      Safe s'.state s'.data := fun hdamaged => absurd (hstate.symm.trans hdamaged) hne
  cases h with
  | stays state flag queue alive =>
    obtain ⟨hdie, hstate⟩ | hsafe := hsafe
    · exact absurd hstate (alive hdie)
    · refine .inl (.done queue fun hdamaged => ?_)
      rw [flag]
      exact hsafe (state.symm.trans hdamaged)
  | lives state queue => exact .inl (.done queue (hother state (by decide)))
  | hit _ _ flag queue => exact .inl (.done queue fun _ => flag)
  | falls event before state queue => exact .inr ⟨event, before, state, _, queue⟩
  | dies state queue => exact .inl (.dead queue state)
  | returns state queue => exact .inl (.waits queue (.inl rfl) (hother state (by decide)))

/-- The timer emits the event that leads out of the damaged state. -/
theorem beats (hd : actor.machine.definition = health) (hlimit : 1 ≤ actor.services.maxQueued)
    (hs : s.Within timers) (hqueue : s.queue = []) (hsafe : Safe s.state s.data) :
    actor.Beats (n + 5) s (health.ticks.get ⟨0, by decide⟩) now
      (fun s' => s'.Within timers ∧ Settling s') fun _ => True := by
  have hguard : (health.ticks.get ⟨0, by decide⟩).guard.all (Evaluator.isPlain 5) = true := by
    decide +kernel
  refine ⟨Actor.exists_permitted hguard n, ⟨hs, .done hqueue hsafe⟩, fun _ _ => ?_⟩
  refine .emit (actor.acts_stage s (.map []) now) hs.busy (.literal rfl rfl) nofun
    (fun payload => ?_) fun _ => trivial
  rw [Actor.post_of_empty (hd ▸ rfl) hlimit hqueue]
  exact ⟨⟨hs.busy, hs.timers⟩, .waits rfl (.inr rfl) hsafe⟩

section endures

variable (hcalm : actor.calm) (hd : actor.machine.definition = health)
  (hlimit : 1 ≤ actor.services.maxQueued)

include hcalm hd hlimit

theorem settles (hwithin : s.Within timers) (hs : Settling s) (left : Nat) :
    actor.Settles (n + 5) (fun _ => Safe) timers left s := by
  refine Actor.drains_of_invariant (I := fun s => s.Within timers ∧ Settling s)
    (fun s hs => ⟨⟨rfl, rfl, hs.2.safe⟩, hs.1.timers⟩) ?_ ⟨hwithin, hs⟩ left
  rintro s o rest now ⟨hwithin, hs⟩ hqueue
  have hrest : rest = [] ∧ (s.state = "Dead" ∨
      (o.event = "INIT" ∨ o.event = "INVULNERABILITY_END")) := by
    cases hs with
    | done queue => cases hqueue.symm.trans queue
    | dead queue state =>
      rw [hqueue, List.length_cons] at queue
      exact ⟨List.eq_nil_of_length_eq_zero (by omega), .inl state⟩
    | waits queue event =>
      cases hqueue.symm.trans queue
      exact ⟨rfl, .inr event⟩
  obtain ⟨rfl, hharmless⟩ := hrest
  refine (answers (s := { s with queue := [] }) hd hlimit ⟨hwithin.busy, hwithin.timers⟩ rfl).mono
    (fun s' hs' => ⟨hs'.1, ?_⟩) fun hwild => absurd hcalm hwild
  obtain hsettling | ⟨hblow, hstate, -⟩ := hs'.2.settling (.inr hs.safe)
  · exact hsettling
  · obtain hdead | hinit | hend := hharmless
    · exact absurd (hdead.symm.trans hstate) (by decide)
    · exact absurd (hinit.symm.trans hblow) (by decide)
    · exact absurd (hend.symm.trans hblow) (by decide)

theorem settles_of_outcome {s' : Scene} (hwithin : s'.Within timers) (hs : Outcome s event s')
    (hsafe : Safe s.state s.data) :
    actor.Settles (n + 5) (fun _ => Safe) timers actor.services.maxQueued s' := by
  obtain hsettling | ⟨-, -, hstate, payload, hqueue⟩ := hs.settling (.inr hsafe)
  · exact settles hcalm hd hlimit hwithin hsettling _
  · obtain ⟨left, hleft⟩ := Nat.exists_eq_succ_of_ne_zero (Nat.one_le_iff_ne_zero.mp hlimit)
    rw [hleft]
    unfold Actor.Settles Actor.Drains
    rw [hqueue]
    intro now
    refine (answers (s := { s' with queue := [] }) hd hlimit ⟨hwithin.busy, hwithin.timers⟩
      rfl).mono (fun s'' hs'' => ?_) fun hwild => absurd hcalm hwild
    obtain hsettling | ⟨hdie, -⟩ := hs''.2.settling (.inl ⟨rfl, hstate⟩)
    · exact settles hcalm hd hlimit hs''.1 hsettling left
    · exact absurd (show Text.ofString "DIE" = "DAMAGE" from hdie) (by decide)

theorem endures : actor.Endures (n + 5) fun _ => Safe := by
  refine Actor.endures_of_settles hcalm (fun s event payload now hs => ?_) fun s now hs => ?_
  · exact (answers (s := { s with busy := true }) hd hlimit ⟨rfl, rfl⟩ hs.queue).mono
      (fun s' hs' => settles_of_outcome hcalm hd hlimit hs'.1 hs'.2 hs.property) fun _ _ => id
  · rw [hd, Machine.tickOrder_single rfl]
    exact (beats (s := { s with busy := true }) hd hlimit ⟨rfl, rfl⟩ hs.queue hs.property).mono
      (fun s' hs' => settles hcalm hd hlimit hs'.1 hs'.2 _) fun _ _ => id

end endures

end Health

/-- The flags of machines that wait for something, and the states that they mark. -/
def indicated : List (Definition × Indicator) :=
  [(loading, ⟨"isLoading", "Loading"⟩), (fetch, ⟨"isFetching", "Fetching"⟩),
    (submit, ⟨"isSubmitting", "Submitting"⟩), (poll, ⟨"isPolling", "Polling"⟩)]

theorem indicated_fits : indicated.all (fun entry => entry.2.fits 5 entry.1) = true := by
  decide +kernel

/-- No two definitions with flags have one name, and none of them is that of health. -/
theorem indicated_names :
    (indicated.map fun entry => entry.1.name).Nodup ∧
      health.name ∉ indicated.map fun entry => entry.1.name := by
  decide +kernel

theorem indicated_unique {d : Definition} {i j : Indicator} (hi : (d, i) ∈ indicated)
    (hj : (d, j) ∈ indicated) : i = j :=
  congrArg Prod.snd (List.inj_on_of_nodup_map indicated_names.1 hi hj rfl)

theorem health_not_indicated {i : Indicator} : (health, i) ∉ indicated := fun hi =>
  indicated_names.2 (List.mem_map_of_mem (f := fun entry => entry.1.name) hi)

/-- A definition of a machine that waits for something and shows it. -/
def ShowsState (d : Definition) : Prop := d = health ∨ ∃ i, (d, i) ∈ indicated

/-- The flags of a machine agree with its state. -/
structure Marked (d : Definition) (state : Text) (data : Value) : Prop where
  flags : ∀ i, (d, i) ∈ indicated → (data.get i.flag = .bool true ↔ state = i.state)
  safe : d = health → Health.Safe state data

theorem marked_of_holds {d : Definition} {i : Indicator} {state : Text} {data : Value}
    (hi : (d, i) ∈ indicated) (h : i.Holds state data) : Marked d state data where
  flags j hj := by
    rw [indicated_unique hj hi, h]
    simp
  safe hd := absurd (hd ▸ hi) health_not_indicated

theorem marked_of_safe {state : Text} {data : Value} (h : Health.Safe state data) :
    Marked health state data where
  flags _ hi := absurd hi health_not_indicated
  safe _ := h

/-- The flags of a new machine agree with its state because of a property that it keeps. -/
theorem exists_kept {d : Definition} (hshows : ShowsState d) {seed : Value}
    (hseed : ∀ i, (d, i) ∈ indicated → ∀ entry ∈ seed.entries, entry.1 ≠ i.flag) :
    d.initialEffects = [] ∧ ∃ P : Definition → Text → Value → Prop,
      P d d.initial (.map (Machine.initialData d seed)) ∧
      (∀ state data, P d state data → Marked d state data) ∧
      ∀ (actor : Actor) (n : Nat), actor.calm → 1 ≤ actor.services.maxQueued →
        actor.machine.definition = d → actor.Endures (n + 5) P := by
  obtain rfl | ⟨i, hi⟩ := hshows
  · exact ⟨rfl, fun _ => Health.Safe, fun hdamaged => absurd hdamaged (by decide),
      fun _ _ => marked_of_safe, fun actor n hcalm hlimit hd => Health.endures hcalm hd hlimit⟩
  · have hfits : i.fits 5 d = true := List.all_eq_true.mp indicated_fits _ hi
    exact ⟨Indicator.initialEffects_of_fits hfits, fun _ => i.Holds,
      Indicator.holds_initially hfits (hseed i hi), fun _ _ => marked_of_holds hi,
      fun actor n hcalm _ hd => Indicator.endures 3 hcalm (hd ▸ hfits)⟩

/-- Whatever has been done to a host before a machine that waits for something is created, and
whatever is done to it afterwards: as long as the machine stays and no handler fails, its flags agree
with its state. -/
theorem flags_mark_states (fuel : Nat) {start h h₁ : Host} (hnew : start.New)
    (before : List Host.Move)
    (hreached : start.run (Evaluator.withFuel Library.standard (fuel + 5)) before = h)
    (hcalm : h.world.Calm) (hlimit : 1 ≤ h.services.maxQueued) {definition a : Nat}
    {given seed : Value} {d : Definition} (hd : h.definitions.lookup definition = some d)
    (hshows : ShowsState d)
    (hseed : ∀ i, (d, i) ∈ indicated → ∀ entry ∈ seed.entries, entry.1 ≠ i.flag)
    (hcreate : Host.create (Evaluator.withFuel Library.standard (fuel + 5)) definition given seed h
      = .ok a h₁) (moves : List Host.Move) (hmoves : ∀ move ∈ moves, move.Spares a) :
    ∃ state data,
      (h₁.run (Evaluator.withFuel Library.standard (fuel + 5)) moves).state? a = some state ∧
      (h₁.run (Evaluator.withFuel Library.standard (fuel + 5)) moves).data? a = some data ∧
      (∀ i, (d, i) ∈ indicated → (data.get i.flag = .bool true ↔ state = i.state)) ∧
      (d = health → state = "Damaged" → data.get "isInvulnerable" = .bool true) := by
  have horderly : h.Orderly := hreached ▸ hnew.orderly.run (n := fuel + 5) before
  obtain ⟨hinitial, P, hP, hmarks, hkept⟩ := exists_kept hshows hseed
  obtain ⟨config, store, now, -, hharbors⟩ := horderly.harbors hcalm hd hinitial hP hcreate
  obtain ⟨⟨s, hrests, hw⟩, -, -, -⟩ := hharbors.run (n := fuel + 5) (fun services hsame =>
    hkept ⟨Machine.fresh a d (.map config) store now, services, True⟩ fuel trivial (hsame ▸ hlimit)
      rfl) hmoves
  have hmarked : Marked d s.state s.data := hmarks _ _ hrests.property
  exact ⟨s.state, s.data, Host.state?_of_stands hw, Host.data?_of_stands hw, hmarked.flags,
    hmarked.safe⟩

/-- A host that knows machines that load, and others. -/
def depot : Host := { definitions := [(1, loading), (2, notification)] }

/-- Another machine comes to a host in which one loads, and all have their turns. -/
def delivery : List Host.Move :=
  [.create 2 (.map []) (.map []), .dispatch 1 "START" (.map []), .runDueTicks 16]

theorem flags_mark_delivery :
    ∃ h₁, Host.create (Evaluator.withFuel Library.standard 5) 1 (.map []) (.map []) depot
      = .ok 1 h₁ ∧
    ∃ state data,
      (h₁.run (Evaluator.withFuel Library.standard 5) delivery).state? 1 = some state ∧
      (h₁.run (Evaluator.withFuel Library.standard 5) delivery).data? 1 = some data ∧
      (∀ i, (loading, i) ∈ indicated → (data.get i.flag = .bool true ↔ state = i.state)) ∧
      (loading = health → state = "Damaged" → data.get "isInvulnerable" = .bool true) := by
  obtain ⟨log, hcreate⟩ := Host.create_of_configure (Evaluator.withFuel Library.standard 5) depot 1
    (.map []) (.map []) (d := loading) rfl rfl rfl
  refine ⟨_, hcreate, flags_mark_states 0 ⟨rfl, rfl, rfl⟩ [] rfl (fun _ => ⟨_, rfl⟩) (by decide) rfl
    (.inr ⟨_, List.mem_cons_self⟩) (fun _ _ _ hentry => absurd hentry List.not_mem_nil) hcreate
    delivery ?_⟩
  simp only [delivery, List.forall_mem_cons, List.not_mem_nil, false_implies, implies_true, and_true]
  exact ⟨trivial, trivial, trivial⟩

end Catalogue
end EntityMachines
