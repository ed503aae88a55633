import EntityMachines.Proofs.Machine.Choice
import EntityMachines.Proofs.Machine.Drain
import EntityMachines.Proofs.Machine.Effects
import EntityMachines.Proofs.Machine.TickOrder

/-!
From effects to transactions. What the effects of the transitions do to a scene decides what an
event does to it, and so what the queue does and what a dispatch or a pass of ticks leaves behind.
Guards have to come to a value here; no such machine fails to ask one.
-/
namespace EntityMachines

/-- A scene within a transaction, with these timers. -/
structure Scene.Within (timers : Table (Timer DelayedEmit)) (s : Scene) : Prop where
  busy : s.busy = true
  timers : s.timers = timers

namespace Actor

open Evaluator (Reads)
open Machine (Says FailsToSay Declined Choice)

variable {actor : Actor} {n : Nat} {s : Scene} {w w' : World} {event : Text} {payload : Value}
  {now : Int} {Q E : Scene → Prop}

/-- The context in which guards are asked. -/
def context (actor : Actor) (s : Scene) (payload : Value) (now : Int) : Context :=
  (actor.cast s {} []).context payload now

/-- The context in which effects run. -/
def stage (actor : Actor) (s : Scene) (payload : Value) (now : Int) : Context :=
  { actor.context s payload now with handlers := actor.handlers }

theorem acts_stage (actor : Actor) (s : Scene) (payload : Value) (now : Int) :
    actor.Acts (actor.stage s payload now) :=
  ⟨rfl, rfl⟩

/-- The answer that a guard gives in a scene. -/
def Asked (actor : Actor) (n : Nat) (s : Scene) (payload : Value) (now : Int)
    (guard : Option Value) (b : Bool) : Prop :=
  match guard with
  | none => b = true
  | some guard => ∃ v, Reads n (actor.context s payload now) s.data guard v ∧ v.isTruthy = b

/-- What has no guard is not denied. -/
theorem Asked.guarded {guard : Option Value} (h : actor.Asked n s payload now guard false) :
    guard ≠ none := by
  rintro rfl
  cases h

/-- A guard has one answer in a scene. -/
theorem Asked.unique {guard : Option Value} {b b' : Bool}
    (h : actor.Asked n s payload now guard b) (h' : actor.Asked n s payload now guard b') :
    b = b' := by
  cases guard with
  | none => exact (show b = true from h).trans (show b' = true from h').symm
  | some guard =>
    obtain ⟨v, hv, rfl⟩ := h
    obtain ⟨v', hv', rfl⟩ := h'
    let w : World := { stores := Array.replicate (actor.store + 1) s.data }
    have hw : (actor.context s payload now).Sees s.data w :=
      ⟨actor.store, rfl, by simp [w]⟩
    cases (hv w hw).symm.trans (hv' w hw)
    rfl

theorem exists_asked {guard : Option Value} {levels : Nat}
    (h : guard.all (Evaluator.isPlain levels) = true) (n : Nat) :
    ∃ b, actor.Asked (n + levels) s payload now guard b := by
  cases guard with
  | none => exact ⟨true, rfl⟩
  | some guard =>
    obtain ⟨v, hv⟩ := Evaluator.plain_of_isPlain levels h n (actor.context s payload now) s.data
    exact ⟨_, v, hv, rfl⟩

/-- How a machine answers an event: the effects of every transition that may be taken end in the
scenes of a kind, and so does doing nothing where all are denied. -/
structure Answers (actor : Actor) (n : Nat) (s : Scene) (event : Text) (payload : Value)
    (now : Int) (Q E : Scene → Prop) : Prop where
  decides : ∀ t ∈ actor.machine.definition.transitions, t.Suits event s.state →
    ∃ b, actor.Asked n s payload now t.guard b
  declined : (∀ t ∈ actor.machine.definition.transitions, t.Suits event s.state →
    actor.Asked n s payload now t.guard false) → Q s
  taken : ∀ t ∈ actor.machine.definition.transitions, t.Suits event s.state →
    actor.Asked n s payload now t.guard true →
    actor.PerformsAll n (actor.stage s payload now) t.effects s
      (fun s' => Q { s' with state := t.target.getD s.state }) E

theorem Answers.mono {Q' E' : Scene → Prop} (h : actor.Answers n s event payload now Q E)
    (hQ : ∀ s, Q s → Q' s) (hE : ¬actor.calm → ∀ s, E s → E' s) :
    actor.Answers n s event payload now Q' E' where
  decides := h.decides
  declined hdenied := hQ s (h.declined hdenied)
  taken t ht hsuits hasked := (h.taken t ht hsuits hasked).mono (fun _ => hQ _) hE

/-- What declines an event has no transition for it that is free to be taken anywhere. -/
theorem ne_of_denied {ts : List Transition} (hdenied : ∀ t ∈ ts, t.Suits event s.state →
      actor.Asked n s payload now t.guard false) {t : Transition} (ht : t ∈ ts)
    (hany : t.sources = .any) (hguard : t.guard = none) : event ≠ t.event := fun hevent =>
  (hdenied t ht ⟨hevent.symm, by rw [hany]; rfl⟩).guarded hguard

/-- A machine answers by what its transitions do, if all their guards are plain. -/
theorem answers_of_plain {d : Definition} {levels : Nat} (hd : actor.machine.definition = d)
    (hguards : d.transitions.all (fun t => t.guard.all (Evaluator.isPlain levels)) = true)
    (hdeclined : (∀ t ∈ d.transitions, t.Suits event s.state →
      actor.Asked (n + levels) s payload now t.guard false) → Q s)
    (htaken : ∀ t ∈ d.transitions, t.Suits event s.state →
      actor.Asked (n + levels) s payload now t.guard true →
      actor.PerformsAll (n + levels) (actor.stage s payload now) t.effects s
        (fun s' => Q { s' with state := t.target.getD s.state }) E) :
    actor.Answers (n + levels) s event payload now Q E := by
  subst hd
  exact ⟨fun t ht _ => exists_asked (List.all_eq_true.mp hguards t ht) n, hdeclined, htaken⟩

theorem PerformsAll.runEffects {ctx : Context} {effects : List Value}
    (h : actor.PerformsAll n ctx effects s Q E) (m : Instance) (place : Text) (ran : Nat) :
    actor.Does (Machine.runEffects (Evaluator.withFuel Library.standard n) actor.services m ctx
      place ran effects) s (fun _ => Q) E := by
  induction effects generalizing s ran with
  | nil => exact Does.pure h
  | cons effect rest ih =>
    unfold Machine.runEffects
    refine Does.bind (P := fun outcome s' =>
      (∀ v, outcome = .ok v → actor.PerformsAll n ctx rest s' Q E) ∧
        ∀ e, outcome = .error e → ¬actor.calm ∧ E s') ?_ ?_
    · refine Does.attempt (Does.mono h (fun _ s' hs' => ?_) fun _ _ => id) fun hwild s hE => ?_
      · refine ⟨fun _ _ => hs', fun _ herror => ?_⟩
        cases herror
      · refine ⟨fun _ => ⟨fun _ hok => ?_, fun _ _ => ⟨hwild, hE⟩⟩, hE⟩
        cases hok
    · rintro outcome s' ⟨hok, herror⟩
      cases outcome with
      | ok v => exact ih (hok v rfl) (ran + 1)
      | error e =>
        obtain ⟨hwild, hE⟩ := herror e rfl
        exact Does.follow (Does.log ⟨rfl, rfl⟩) (Does.raise hwild hE)

section choice

variable {guard : Option Value} {place : Text} {b : Bool} {stats : Stats} {lastRun : List Int}

theorem Asked.accords {b' : Bool} (hw : actor.Stands s w) (h : actor.Asked n s payload now guard b)
    (hgiven : Says (Evaluator.withFuel Library.standard n) actor.services
      (actor.cast s stats lastRun) (actor.context s payload now) place guard w b' w') :
    b' = b ∧ w' = w := by
  cases hgiven with
  | absent => exact ⟨h.symm, rfl⟩
  | value hv =>
    obtain ⟨v, hreads, rfl⟩ := h
    cases hv.symm.trans (hreads w ⟨actor.store, rfl, hw.data⟩)
    exact ⟨rfl, rfl⟩
  | failure hv =>
    obtain ⟨v, hreads, rfl⟩ := h
    cases hv.symm.trans (hreads w ⟨actor.store, rfl, hw.data⟩)

theorem Asked.not_fails {fault : Fault} (hw : actor.Stands s w)
    (h : actor.Asked n s payload now guard b)
    (hfails : FailsToSay (Evaluator.withFuel Library.standard n) actor.services
      (actor.cast s stats lastRun) (actor.context s payload now) guard w fault w') : False := by
  cases hfails with
  | uncaught hv _ | propagated hv _ =>
    obtain ⟨v, hreads, rfl⟩ := h
    cases hv.symm.trans (hreads w ⟨actor.store, rfl, hw.data⟩)

/-- To be denied changes nothing that can be seen. -/
theorem stands_of_declined {candidates : List (Transition × Nat)}
    (hasked : ∀ entry ∈ candidates, ∃ b, actor.Asked n s payload now entry.1.guard b)
    (hw : actor.Stands s w)
    (h : Declined (Evaluator.withFuel Library.standard n) actor.services
      (actor.cast s stats lastRun) (actor.context s payload now) event candidates w w') :
    actor.Stands s w' ∧ actor.Elsewhere w w' ∧
      ∀ entry ∈ candidates, actor.Asked n s payload now entry.1.guard false := by
  induction h with
  | nil w => exact ⟨hw, .refl w, fun entry hentry => nomatch hentry⟩
  | @cons t i rest w w₁ w₂ no next ih =>
    rw [List.forall_mem_cons] at hasked ⊢
    obtain ⟨⟨b, hb⟩, hrest⟩ := hasked
    obtain ⟨rfl, rfl⟩ := hb.accords hw no
    obtain ⟨hstands, helsewhere, hdenied⟩ := ih hrest (hw.counted _)
    exact ⟨hstands, (Elsewhere.counted w₁ _).trans helsewhere, hb, hdenied⟩

theorem mem_candidates {ts : List Transition} {t : Transition} :
    (∃ i, (t, i) ∈ Transition.candidates event s.state ts) ↔ t ∈ ts ∧ t.Suits event s.state := by
  rw [List.mem_iff_getElem?]
  simp only [Transition.mem_candidates, exists_and_right]

/-- The event ends as the choice of a transition lets it. -/
theorem Answers.ends (h : actor.Answers n s event payload now Q E) (hw : actor.Stands s w)
    {r : EStateM.Result Fault World Dispatched}
    (hchoice : Choice (Evaluator.withFuel Library.standard n) actor.services
      (actor.cast s stats lastRun) (actor.context s payload now) event
      actor.machine.definition.transitions w r) : actor.Ends (fun _ => Q) E w r := by
  have hasked {ts : List Transition} (hts : ∀ t ∈ ts, t ∈ actor.machine.definition.transitions) :
      ∀ entry ∈ Transition.candidates event s.state ts,
        ∃ b, actor.Asked n s payload now entry.1.guard b := by
    intro entry hentry
    obtain ⟨hmem, hsuits⟩ := mem_candidates.mp ⟨entry.2, hentry⟩
    exact h.decides entry.1 (hts entry.1 hmem) hsuits
  have htake {i : Nat} : ∀ t ∈ actor.machine.definition.transitions.take i,
      t ∈ actor.machine.definition.transitions := fun t => List.mem_of_mem_take
  cases hchoice with
  | @unmatched log unsuited =>
    have hQ : Q s := h.declined fun t ht hsuits => by
      obtain ⟨i, hi⟩ := mem_candidates.mpr ⟨ht, hsuits⟩
      exact absurd (unsuited ▸ hi) List.not_mem_nil
    let counted := w.counted actor.handle fun s => { s with
      unmatchedEvents := s.unmatchedEvents + 1 }
    have hcounted : actor.Stands s counted := hw.counted _
    have hunseen : counted.Unseen { counted with log } := .of_same rfl rfl rfl rfl rfl
    exact .done (hcounted.of_unseen hunseen)
      ((Elsewhere.counted w (fun s => { s with unmatchedEvents := s.unmatchedEvents + 1 })).trans
        (.of_unseen hunseen)) hQ
  | rejected suited declined =>
    obtain ⟨hlater, helsewhere, hdenied⟩ := stands_of_declined (hasked fun _ => id) hw declined
    have hQ : Q s := h.declined fun t ht hsuits => by
      obtain ⟨i, hi⟩ := mem_candidates.mpr ⟨ht, hsuits⟩
      exact hdenied (t, i) hi
    exact .done hlater helsewhere hQ
  | @taken i t w₁ w₂ w₃ log ht suits before yes effects =>
    have hmem := List.mem_of_getElem? ht
    obtain ⟨hlater, helsewhere, -⟩ := stands_of_declined (hasked htake) hw before
    obtain ⟨b, hb⟩ := h.decides t hmem suits
    obtain ⟨rfl, rfl⟩ := hb.accords hlater yes
    have hran := (h.taken t hmem suits hb).runEffects (actor.cast s stats lastRun)
      (event ++ " transition " ++ Text.ofNat i) 0 w₂ hlater
    cases hran.of_eq effects with
    | @done _ s' _ stands further hQ =>
      exact .done (stands.moved (t.target.getD s.state) log)
        ((helsewhere.trans further).trans (.moved w₃ (t.target.getD s.state) log)) hQ
  | @effectFails i t w₁ w₂ fault w₃ ht suits before yes fails =>
    have hmem := List.mem_of_getElem? ht
    obtain ⟨hlater, helsewhere, -⟩ := stands_of_declined (hasked htake) hw before
    obtain ⟨b, hb⟩ := h.decides t hmem suits
    obtain ⟨rfl, rfl⟩ := hb.accords hlater yes
    have hran := (h.taken t hmem suits hb).runEffects (actor.cast s stats lastRun)
      (event ++ " transition " ++ Text.ofNat i) 0 w₂ hlater
    cases hran.of_eq fails with
    | failed wild stands further hE => exact .failed wild stands (helsewhere.trans further) hE
  | @guardFails i t w₁ fault w₂ ht suits before fails =>
    obtain ⟨hlater, -, -⟩ := stands_of_declined (hasked htake) hw before
    obtain ⟨b, hb⟩ := h.decides t (List.mem_of_getElem? ht) suits
    exact (hb.not_fails hlater fails).elim

end choice

theorem Answers.process
    (h : ∀ now, actor.Answers n s event payload now Q E) :
    actor.Does (Machine.process (Evaluator.withFuel Library.standard n) actor.services actor.handle
      event payload) s (fun _ => Q) E := by
  intro w hw
  obtain ⟨stats, lastRun, hm⟩ := hw.machine
  let recorded := w.recorded actor.services (actor.cast s stats lastRun)
    (.processed ⟨event, payload⟩)
  have hunseen : w.Unseen recorded := .of_same rfl rfl rfl rfl rfl
  have hstarted := (hw.of_unseen hunseen).counted fun s => { s with events := s.events + 1 }
  refine ((h w.clock).ends hstarted (Machine.process_choice hm payload)).behind ?_
  exact (Elsewhere.of_unseen hunseen).trans (.counted recorded _)

/-- The queue is processed in order, as long as the machine may process events; what is left is
dropped. Scenes count as they are at rest. -/
def Drains (actor : Actor) (n : Nat) : Nat → Scene → (Scene → Prop) → (Scene → Prop) → Prop
  | 0, s, Q, _ => Q s.rest
  | left + 1, s, Q, E =>
    match s.queue with
    | [] => Q s.rest
    | o :: rest => ∀ now, actor.Answers n { s with queue := rest } o.event o.payload now
      (fun s' => Drains actor n left s' Q E) (fun s' => E s'.rest)

theorem drains_nil (hqueue : s.queue = []) (h : Q s.rest) (left : Nat) :
    actor.Drains n left s Q E := by
  cases left with
  | zero => exact h
  | succ left =>
    unfold Drains
    rw [hqueue]
    exact h

/-- What every queued event preserves holds behind the drain. -/
theorem drains_of_invariant {I : Scene → Prop} (hrest : ∀ s, I s → Q s.rest)
    (hnext : ∀ s o rest now, I s → s.queue = o :: rest →
      actor.Answers n { s with queue := rest } o.event o.payload now I (fun s' => E s'.rest))
    (h : I s) (left : Nat) : actor.Drains n left s Q E := by
  induction left generalizing s with
  | zero => exact hrest s h
  | succ left ih =>
    unfold Drains
    cases hqueue : s.queue with
    | nil => exact hrest s h
    | cons o rest =>
      intro now
      exact (hnext s o rest now h hqueue).mono (fun _ => ih) fun _ _ => id

/-- The answer that the guard of a tick gives in a scene. Closures may be made on the way to it. -/
def Permitted (actor : Actor) (n : Nat) (s : Scene) (now : Int) (guard : Option Value) (b : Bool) :
    Prop :=
  match guard with
  | none => b = true
  | some guard => ∃ v, v.isTruthy = b ∧ actor.Does ((Evaluator.withFuel Library.standard n).evaluate
      guard (actor.context s (.map []) now)) s (fun u s' => u = v ∧ s' = s) fun _ => False

theorem Asked.permitted {guard : Option Value} {b : Bool}
    (h : actor.Asked n s (.map []) now guard b) : actor.Permitted n s now guard b := by
  cases guard with
  | none => exact h
  | some guard =>
    obtain ⟨v, hv, hb⟩ := h
    exact ⟨v, hb, Does.ofGives rfl hv ⟨rfl, rfl⟩⟩

theorem exists_permitted {guard : Option Value} {levels : Nat}
    (h : guard.all (Evaluator.isPlain levels) = true) (n : Nat) :
    ∃ b, actor.Permitted (n + levels) s now guard b :=
  (exists_asked h n).imp fun _ => Asked.permitted

/-- A tick runs its effects, unless it has to be skipped. -/
structure Beats (actor : Actor) (n : Nat) (s : Scene) (tick : Tick) (now : Int)
    (Q E : Scene → Prop) : Prop where
  decides : ∃ b, actor.Permitted n s now tick.guard b
  skipped : Q s
  taken : tick.appliesIn s.state → actor.Permitted n s now tick.guard true →
    actor.PerformsAll n (actor.stage s (.map []) now) tick.effects s Q E

/-- Ticks have their turns one after another. -/
def BeatsAll (actor : Actor) (n : Nat) (now : Int) :
    List (Nat × Tick) → Scene → (Scene → Prop) → (Scene → Prop) → Prop
  | [], s, Q, _ => Q s
  | (_, tick) :: rest, s, Q, E =>
    actor.Beats n s tick now (fun s' => BeatsAll actor n now rest s' Q E) E

theorem Beats.mono {tick : Tick} {Q' E' : Scene → Prop} (h : actor.Beats n s tick now Q E)
    (hQ : ∀ s, Q s → Q' s) (hE : ¬actor.calm → ∀ s, E s → E' s) :
    actor.Beats n s tick now Q' E' where
  decides := h.decides
  skipped := hQ s h.skipped
  taken happlies hasked := (h.taken happlies hasked).mono hQ hE

theorem BeatsAll.mono {ticks : List (Nat × Tick)} {Q' E' : Scene → Prop}
    (h : actor.BeatsAll n now ticks s Q E) (hQ : ∀ s, Q s → Q' s)
    (hE : ¬actor.calm → ∀ s, E s → E' s) : actor.BeatsAll n now ticks s Q' E' := by
  induction ticks generalizing s with
  | nil => exact hQ s h
  | cons entry rest ih => exact Beats.mono h (fun _ => ih) hE

/-- What every tick preserves holds behind them all. -/
theorem beatsAll_of_invariant {ticks : List (Nat × Tick)} {I : Scene → Prop}
    (hticks : ∀ entry ∈ ticks, ∀ s, I s → actor.Beats n s entry.2 now I E) (h : I s)
    (hQ : ∀ s, I s → Q s) : actor.BeatsAll n now ticks s Q E := by
  induction ticks generalizing s with
  | nil => exact hQ s h
  | cons entry rest ih =>
    rw [List.forall_mem_cons] at hticks
    exact (hticks.1 s h).mono (fun _ => ih hticks.2) fun _ _ => id

namespace Does

variable {α : Type}

theorem dropPending {m : Instance} (hm : m.handle = actor.handle) (os : List Occurrence)
    {Q : Unit → Scene → Prop} (h : Q () s.rest) :
    actor.Does (Machine.dropPending actor.services m os) s Q E := by
  induction os with
  | nil =>
    unfold Machine.dropPending
    rw [hm]
    exact update (fun m => { m with busy := false, pending := [] }) s.rest (fun _ => rfl)
      (fun stats lastRun => ⟨stats, lastRun, rfl⟩) rfl rfl h
  | cons o rest ih => exact follow (a := ()) (record ⟨rfl, rfl⟩) ih

theorem drain (left : Nat) (h : actor.Drains n left s Q E) :
    actor.Does (Machine.drain (Evaluator.withFuel Library.standard n) actor.services actor.handle
      left) s (fun _ s' => Q s'.rest) (fun s' => E s'.rest) := by
  induction left generalizing s with
  | zero =>
    unfold Machine.drain
    refine withMachine fun stats lastRun => ?_
    exact dropPending (Q := fun _ s' => Q s'.rest) (m := actor.cast s stats lastRun) rfl _ h
  | succ left ih =>
    unfold Machine.drain
    unfold Drains at h
    cases hqueue : s.queue with
    | nil =>
      rw [hqueue] at h
      refine follow (a := none) (t := { s with busy := false }) ?_ (pure h)
      unfold Machine.nextPending
      refine withMachine fun stats lastRun => ?_
      rw [show (actor.cast s stats lastRun).pending = [] from hqueue]
      refine follow (a := ()) ?_ (pure ⟨rfl, rfl⟩)
      exact update (fun m => { m with busy := false }) { s with busy := false } (fun _ => rfl)
        (fun stats lastRun => ⟨stats, lastRun, rfl⟩) rfl rfl ⟨rfl, rfl⟩
    | cons o rest =>
      rw [hqueue] at h
      refine follow (a := some o) (t := { s with queue := rest }) ?_
        (bind (Answers.process h) fun _ _ hrest => ih hrest)
      unfold Machine.nextPending
      refine withMachine fun stats lastRun => ?_
      rw [show (actor.cast s stats lastRun).pending = o :: rest from hqueue]
      refine follow (a := ()) ?_ (pure ⟨rfl, rfl⟩)
      exact update (fun m => { m with pending := rest }) { s with queue := rest } (fun _ => rfl)
        (fun stats lastRun => ⟨stats, lastRun, rfl⟩) rfl rfl ⟨rfl, rfl⟩

/-- However it ends, the machine is at rest behind a transaction. -/
theorem transaction {x : Eval α} {Q : α → Scene → Prop}
    (hx : actor.Does x { s with busy := true } (fun a s' => Q a s'.rest) (fun s' => E s'.rest)) :
    actor.Does (Machine.transaction actor.handle x) s Q E := by
  refine follow (a := ()) (t := { s with busy := true }) ?_ ?_
  · exact update (fun m => { m with busy := true }) { s with busy := true } (fun _ => rfl)
      (fun stats lastRun => ⟨stats, lastRun, rfl⟩) rfl rfl ⟨rfl, rfl⟩
  · intro w hw
    have hrest {s' : Scene} {w' : World} (hw' : actor.Stands s' w') : actor.Stands s'.rest
        (w'.mapMachine actor.handle fun m => { m with busy := false, pending := [] }) :=
      hw'.update _ _ (fun _ => rfl) (fun stats lastRun => ⟨stats, lastRun, rfl⟩) rfl rfl
    have hend := hx w hw
    unfold Eval.andFinally
    cases hr : x w with
    | ok a w' =>
      rw [hr] at hend
      cases hend with
      | done stands elsewhere h =>
        exact .done (hrest stands) (elsewhere.trans (.update w' _ fun _ => rfl)) h
    | error fault w' =>
      rw [hr] at hend
      cases hend with
      | failed wild stands elsewhere h =>
        exact .failed wild (hrest stands) (elsewhere.trans (.update w' _ fun _ => rfl)) h

theorem dispatch (h : ∀ now, actor.Answers n { s with busy := true } event payload now
      (fun s' => actor.Drains n actor.services.maxQueued s' Q E) (fun s' => E s'.rest)) :
    actor.Does (Machine.dispatch (Evaluator.withFuel Library.standard n) actor.services actor.handle
      event payload) s (fun _ => Q) E := by
  refine transaction (bind (Answers.process h) fun first s' hs' => ?_)
  exact bind (drain _ hs') fun _ _ hQ => pure hQ

/-- What is emitted while the machine is at rest is dispatched on its own, if it is declared. -/
theorem deliver_idle (hidle : s.busy = false)
    (hskip : actor.machine.definition.hasEvent event = false → Q s) (hfails : ¬actor.calm → E s)
    (h : actor.Does (Machine.dispatch (Evaluator.withFuel Library.standard n) actor.services
      actor.handle event payload) s (fun _ => Q) E) :
    actor.Does (Machine.deliver (Evaluator.withFuel Library.standard n) actor.handle actor.services
      event payload) s (fun _ => Q) E := by
  unfold Machine.deliver
  refine withMachine fun stats lastRun => ?_
  refine follow (announce hfails) ?_
  have hmachine : (actor.cast s stats lastRun).busy = false := hidle
  have hdeclared : (actor.cast s stats lastRun).definition = actor.machine.definition := rfl
  unfold Instance.fate
  rw [hmachine, hdeclared]
  cases hevent : actor.machine.definition.hasEvent event with
  | false => exact pure (hskip hevent)
  | true => exact bind h fun _ _ hQ => pure hQ

theorem interval {m : Instance} (tick : Tick) {Q : Option Int → Scene → Prop}
    (h : ∀ interval, Q interval s) : actor.Does (Machine.interval actor.services m tick) s Q E := by
  unfold Machine.interval
  cases tick.interval with
  | frame => exact pure (h _)
  | fixed ms => exact pure (h _)
  | config key =>
    dsimp only
    split
    · exact pure (h _)
    · exact follow (a := ()) (log ⟨rfl, rfl⟩) (pure (h _))

theorem permits {guard : Option Value} {b : Bool} {stats : Stats} {lastRun : List Int}
    (h : actor.Permitted n s now guard b) (place : Text) {Q : Bool → Scene → Prop} (hQ : Q b s) :
    actor.Does (Machine.permits (Evaluator.withFuel Library.standard n) actor.services
      (actor.cast s stats lastRun) guard (actor.context s (.map []) now) place) s Q E := by
  cases guard with
  | none =>
    cases (h : b = true)
    exact pure hQ
  | some guard =>
    obtain ⟨v, rfl, hv⟩ := h
    refine bind (P := fun outcome s' => outcome = .ok v ∧ s' = s) ?_ ?_
    · refine attempt (F := fun _ => False) (hv.mono ?_ fun _ _ => id) fun _ _ hF => hF.elim
      rintro _ _ ⟨rfl, rfl⟩
      exact ⟨rfl, rfl⟩
    · rintro _ _ ⟨rfl, rfl⟩
      exact pure hQ

theorem runTick {tick : Tick} (i : Nat) (h : actor.Beats n s tick now Q E) :
    actor.Does (Machine.runTick (Evaluator.withFuel Library.standard n) actor.services actor.handle
      now i tick) s (fun _ => Q) E := by
  have hskip : actor.Does (Machine.skipTick actor.handle >>= fun _ => (return false : Eval Bool)) s
      (fun _ => Q) E :=
    follow (a := ()) (count ⟨rfl, rfl⟩) (pure h.skipped)
  unfold Machine.runTick
  refine withMachine fun stats lastRun => ?_
  refine pass (interval tick fun _ => rfl) fun interval => ?_
  cases interval with
  | none => exact pure h.skipped
  | some interval =>
    dsimp only
    split
    · exact pure h.skipped
    · split
      · exact hskip
      next hstate =>
        have happlies : tick.appliesIn s.state = true := by
          unfold cast at hstate
          simpa using hstate
        obtain ⟨b, hb⟩ := h.decides
        refine follow (permits hb _ ⟨rfl, rfl⟩) ?_
        cases b with
        | false => exact hskip
        | true =>
          have hran := (h.taken happlies hb).runEffects (actor.cast s stats lastRun)
            ("tick " ++ tick.name) 0
          refine bind hran fun _ s' hs' => ?_
          refine follow (a := ()) ?_ (follow (a := ()) (count ⟨rfl, rfl⟩) (pure hs'))
          exact update (fun m => { m with lastRun := m.lastRun.set i now }) s' (fun _ => rfl)
            (fun stats lastRun => ⟨stats, _, rfl⟩) rfl rfl ⟨rfl, rfl⟩

theorem runTicks {ticks : List (Nat × Tick)} (h : actor.BeatsAll n now ticks s Q E) :
    actor.Does (Machine.runTicks (Evaluator.withFuel Library.standard n) actor.services actor.handle
      now ticks) s (fun _ => Q) E := by
  induction ticks generalizing s with
  | nil => exact pure h
  | cons entry rest ih =>
    refine bind (runTick entry.1 h) fun ran s' hs' => ?_
    exact bind (ih hs') fun others s'' hQ => pure hQ

theorem runDueTicks (hnone : actor.machine.definition.ticks = [] → Q s)
    (h : actor.BeatsAll n now (Machine.tickOrder actor.machine.definition) { s with busy := true }
      (fun s' => actor.Drains n actor.services.maxQueued s' Q E) (fun s' => E s'.rest)) :
    actor.Does (Machine.runDueTicks (Evaluator.withFuel Library.standard n) actor.services
      actor.handle now) s (fun _ => Q) E := by
  unfold Machine.runDueTicks
  refine withMachine fun stats lastRun => ?_
  split
  next hticks => exact pure (hnone (List.isEmpty_iff.mp hticks))
  next =>
    have hpass : actor.Does (do
        let ran ← Machine.runTicks (Evaluator.withFuel Library.standard n) actor.services
          actor.handle now (Machine.tickOrder actor.machine.definition)
        Machine.drain (Evaluator.withFuel Library.standard n) actor.services actor.handle
          actor.services.maxQueued
        return ran) { s with busy := true } (fun _ s' => Q s'.rest) (fun s' => E s'.rest) :=
      bind (runTicks h) fun _ _ hs' => bind (drain _ hs') fun _ _ hQ => pure hQ
    refine transaction ?_
    split
    · refine follow (a := ()) ?_ hpass
      exact update (fun m => { m with lastRun := m.definition.ticks.map fun _ => now })
        { s with busy := true } (fun _ => rfl) (fun stats lastRun => ⟨stats, _, rfl⟩) rfl rfl
        ⟨rfl, rfl⟩
    · exact hpass

end Does

/-- A scene in which a machine is at rest, and a property holds of it with its data. -/
structure Rests (actor : Actor) (P : Definition → Text → Value → Prop) (s : Scene) : Prop where
  busy : s.busy = false
  queue : s.queue = []
  property : P actor.machine.definition s.state s.data

/-- A machine keeps a property whatever it is made to do, and leaves the timers alone. -/
structure Endures (actor : Actor) (n : Nat) (P : Definition → Text → Value → Prop) : Prop where
  dispatch : ∀ s, actor.Rests P s → ∀ event payload,
    actor.Does (Machine.dispatch (Evaluator.withFuel Library.standard n) actor.services
      actor.handle event payload) s (fun _ s' => actor.Rests P s' ∧ s'.timers = s.timers)
      fun s' => actor.Rests P s' ∧ s'.timers = s.timers
  runDueTicks : ∀ s, actor.Rests P s → ∀ now,
    actor.Does (Machine.runDueTicks (Evaluator.withFuel Library.standard n) actor.services
      actor.handle now) s (fun _ s' => actor.Rests P s' ∧ s'.timers = s.timers)
      fun s' => actor.Rests P s' ∧ s'.timers = s.timers

/-- What is queued in a scene has the machine rest with a property, and leaves the timers alone. -/
def Settles (actor : Actor) (n : Nat) (P : Definition → Text → Value → Prop)
    (timers : Table (Timer DelayedEmit)) (left : Nat) (s : Scene) : Prop :=
  actor.Drains n left s (fun s' => actor.Rests P s' ∧ s'.timers = timers)
    fun s' => actor.Rests P s' ∧ s'.timers = timers

section endures

variable {P : Definition → Text → Value → Prop} (hcalm : actor.calm)

include hcalm

/-- A property lasts if the queue never leaves the machine at rest without it. -/
theorem endures_of_settles
    (hanswers : ∀ s event payload now, actor.Rests P s →
      actor.Answers n { s with busy := true } event payload now
        (actor.Settles n P s.timers actor.services.maxQueued) fun _ => True)
    (hbeats : ∀ s now, actor.Rests P s →
      actor.BeatsAll n now (Machine.tickOrder actor.machine.definition) { s with busy := true }
        (actor.Settles n P s.timers actor.services.maxQueued) fun _ => True) :
    actor.Endures n P where
  dispatch s hs event payload := Does.dispatch fun now =>
    (hanswers s event payload now hs).mono (fun _ => id) fun hwild => absurd hcalm hwild
  runDueTicks s hs now := Does.runDueTicks (fun _ => ⟨hs, rfl⟩)
    ((hbeats s now hs).mono (fun _ => id) fun hwild => absurd hcalm hwild)

/-- What every transition and every tick preserves, if nothing fails. -/
theorem endures_of_steps
    (hanswers : ∀ s event payload now, s.busy = true →
      P actor.machine.definition s.state s.data → actor.Answers n s event payload now
        (fun s' => s'.Within s.timers ∧ P actor.machine.definition s'.state s'.data) fun _ => True)
    (hticks : ∀ tick ∈ actor.machine.definition.ticks, ∀ s now, s.busy = true →
      P actor.machine.definition s.state s.data → actor.Beats n s tick now
        (fun s' => s'.Within s.timers ∧ P actor.machine.definition s'.state s'.data) fun _ => True) :
    actor.Endures n P := by
  let I (timers : Table (Timer DelayedEmit)) (s : Scene) : Prop :=
    s.Within timers ∧ P actor.machine.definition s.state s.data
  have hsettles {timers : Table (Timer DelayedEmit)} {s : Scene} (hs : I timers s) (left : Nat) :
      actor.Settles n P timers left s := by
    refine drains_of_invariant (I := I timers)
      (fun s hs => ⟨⟨rfl, rfl, hs.2⟩, hs.1.timers⟩) ?_ hs left
    rintro s o rest now ⟨hwithin, hs⟩ -
    exact (hanswers { s with queue := rest } o.event o.payload now hwithin.busy hs).mono
      (fun s' hs' => hwithin.timers ▸ hs') fun hwild => absurd hcalm hwild
  refine endures_of_settles hcalm (fun s event payload now hs => ?_) fun s now hs => ?_
  · exact (hanswers { s with busy := true } event payload now rfl hs.property).mono
      (fun s' hs' => hsettles hs' _) fun _ _ => id
  · refine beatsAll_of_invariant (I := I s.timers) ?_ ⟨⟨rfl, rfl⟩, hs.property⟩
      fun s' hs' => hsettles hs' _
    rintro entry hentry s' ⟨hwithin, hs'⟩
    have htick := List.mem_of_getElem? (Machine.mem_tickOrder.mp hentry)
    exact (hticks entry.2 htick s' now hwithin.busy hs').mono (fun s'' hs'' => hwithin.timers ▸ hs'')
      fun _ _ => id

end endures

end Actor
end EntityMachines
