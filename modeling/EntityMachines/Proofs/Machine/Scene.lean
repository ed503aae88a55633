import EntityMachines.Proofs.Evaluation.Reads
import EntityMachines.Proofs.Host.Creation

/-!
What the effects of a machine can see and change: where the machine stands, its data and the timers
that wait. A computation that a machine runs is judged by the scenes in which it ends, one kind for
its success and one for its failure. It fails only if the surrounding program answers a call with an
error.
-/
namespace EntityMachines

/-- The surrounding program answers no call with an error. -/
def World.Calm (w : World) : Prop := ∀ calls, ∃ v, w.respond calls = .ok v

/-- The closures that a later world has besides do nothing when they are called. -/
def World.MakesInert (w later : World) : Prop :=
  ∀ c ∈ later.closures, c ∈ w.closures ∨ Expr.Inert c.body

theorem World.MakesInert.of_eq {w later : World} (h : later.closures = w.closures) : w.MakesInert later :=
  fun _ hc => .inl (h ▸ hc)

theorem World.MakesInert.trans {w w' w'' : World} (h : w.MakesInert w') (h' : w'.MakesInert w'') :
    w.MakesInert w'' := fun c hc => (h' c hc).elim (h c) .inr

/-- A later world that a machine cannot tell from an earlier one. -/
structure World.Unseen (w later : World) : Prop where
  machines : later.machines = w.machines
  stores : later.stores = w.stores
  timers : later.timing.timers = w.timing.timers
  respond : later.respond = w.respond
  closures : w.MakesInert later

/-- What does not concern machines, data, timers, replies and closures cannot be seen. -/
theorem World.Unseen.of_same {w later : World} (machines : later.machines = w.machines)
    (stores : later.stores = w.stores) (timing : later.timing.timers = w.timing.timers)
    (respond : later.respond = w.respond) (closures : later.closures = w.closures) :
    w.Unseen later :=
  ⟨machines, stores, timing, respond, .of_eq closures⟩

theorem World.Unseen.refl (w : World) : w.Unseen w := .of_same rfl rfl rfl rfl rfl

theorem World.Unseen.trans {w w' w'' : World} (h : w.Unseen w') (h' : w'.Unseen w'') :
    w.Unseen w'' where
  machines := h'.machines.trans h.machines
  stores := h'.stores.trans h.stores
  timers := h'.timers.trans h.timers
  respond := h'.respond.trans h.respond
  closures := h.closures.trans h'.closures

theorem Context.Sees.of_unseen {ctx : Context} {data : Value} {w w' : World} (hw : ctx.Sees data w)
    (h : w.Unseen w') : ctx.Sees data w' := by
  obtain ⟨store, hstore, hdata⟩ := hw
  exact ⟨store, hstore, h.stores ▸ hdata⟩

/-- How a machine stands, with its data and the timers. -/
structure Scene where
  state : Text
  busy : Bool
  queue : List Occurrence
  data : Value
  timers : Table (Timer DelayedEmit)

/-- A scene when the machine's transaction is over. -/
def Scene.rest (s : Scene) : Scene := { s with busy := false, queue := [] }

/-- A machine that acts, with what the surrounding program gives it. -/
structure Actor where
  machine : Instance
  services : Services
  /-- Handlers of the surrounding program do not fail. -/
  calm : Prop

namespace Actor

variable {α β : Type}

def handle (actor : Actor) : Nat := actor.machine.handle

def store (actor : Actor) : StoreRef := actor.machine.store

/-- The machine as it is in a scene. -/
def cast (actor : Actor) (s : Scene) (stats : Stats) (lastRun : List Int) : Instance :=
  { actor.machine with state := s.state, busy := s.busy, pending := s.queue, stats, lastRun }

/-- The world around an actor shows a scene. -/
structure Stands (actor : Actor) (s : Scene) (w : World) : Prop where
  machine : ∃ stats lastRun, w.machine? actor.handle = some (actor.cast s stats lastRun)
  data : w.stores[actor.store]? = some s.data
  timers : w.timing.timers = s.timers
  calm : actor.calm → w.Calm

/-- Other machines and their data are as they were, and no closure has been made that could change
them. -/
structure Elsewhere (actor : Actor) (w later : World) : Prop where
  handles : later.handles = w.handles
  machines : ∀ a, a ≠ actor.handle → later.machine? a = w.machine? a
  stores : ∀ store : StoreRef, store ≠ actor.store → later.stores[store]? = w.stores[store]?
  respond : later.respond = w.respond
  closures : w.MakesInert later

/-- How a computation may end that begins in a world. -/
inductive Ends (actor : Actor) (Q : α → Scene → Prop) (E : Scene → Prop) (w : World) :
    EStateM.Result Fault World α → Prop
  | done {a s later} (stands : actor.Stands s later) (elsewhere : actor.Elsewhere w later)
      (h : Q a s) : Ends actor Q E w (.ok a later)
  | failed {e s later} (wild : ¬actor.calm) (stands : actor.Stands s later)
      (elsewhere : actor.Elsewhere w later) (h : E s) : Ends actor Q E w (.error (.raised e) later)

/-- From a scene on a computation ends in scenes of given kinds, and elsewhere it changes nothing. -/
def Does (actor : Actor) (x : Eval α) (s : Scene) (Q : α → Scene → Prop) (E : Scene → Prop) :
    Prop :=
  ∀ w, actor.Stands s w → actor.Ends Q E w (x w)

variable {actor : Actor} {s s' : Scene} {w w' w'' : World} {Q : α → Scene → Prop}
  {E : Scene → Prop}

theorem Elsewhere.refl (w : World) : actor.Elsewhere w w :=
  ⟨rfl, fun _ _ => rfl, fun _ _ => rfl, rfl, .of_eq rfl⟩

theorem Elsewhere.trans (h : actor.Elsewhere w w') (h' : actor.Elsewhere w' w'') :
    actor.Elsewhere w w'' where
  handles := h'.handles.trans h.handles
  machines a ha := (h'.machines a ha).trans (h.machines a ha)
  stores store hstore := (h'.stores store hstore).trans (h.stores store hstore)
  respond := h'.respond.trans h.respond
  closures := h.closures.trans h'.closures

theorem Elsewhere.of_unseen (h : w.Unseen w') : actor.Elsewhere w w' where
  handles := by
    unfold World.handles
    rw [h.machines]
  machines a _ := World.machine?_congr h.machines a
  stores store _ := by rw [h.stores]
  respond := h.respond
  closures := h.closures

theorem Stands.of_unseen (hw : actor.Stands s w) (h : w.Unseen w') : actor.Stands s w' where
  machine := by
    rw [World.machine?_congr h.machines]
    exact hw.machine
  data := by
    rw [h.stores]
    exact hw.data
  timers := h.timers.trans hw.timers
  calm hcalm := by
    unfold World.Calm
    rw [h.respond]
    exact hw.calm hcalm

theorem Stands.update (hw : actor.Stands s w) (f : Instance → Instance) (s' : Scene)
    (hf : ∀ m, (f m).handle = m.handle)
    (hcast : ∀ stats lastRun, ∃ stats' lastRun',
      f (actor.cast s stats lastRun) = actor.cast s' stats' lastRun')
    (hdata : s'.data = s.data) (htimers : s'.timers = s.timers) :
    actor.Stands s' (w.mapMachine actor.handle f) where
  machine := by
    obtain ⟨stats, lastRun, hm⟩ := hw.machine
    obtain ⟨stats', lastRun', heq⟩ := hcast stats lastRun
    refine ⟨stats', lastRun', ?_⟩
    rw [World.machine?_mapMachine_self hm hf, heq]
  data := by
    rw [hdata]
    exact hw.data
  timers := by
    rw [htimers]
    exact hw.timers
  calm := hw.calm

theorem Elsewhere.update (w : World) (f : Instance → Instance)
    (hf : ∀ m, (f m).handle = m.handle) : actor.Elsewhere w (w.mapMachine actor.handle f) where
  handles := Machine.handlesKept_update actor.handle w hf
  machines _ ha := World.machine?_mapMachine_ne w ha hf
  stores _ _ := rfl
  respond := rfl
  closures := .of_eq rfl

theorem Stands.counted (hw : actor.Stands s w) (f : Stats → Stats) :
    actor.Stands s (w.counted actor.handle f) :=
  hw.update (fun m => { m with stats := f m.stats }) s (fun _ => rfl)
    (fun stats lastRun => ⟨f stats, lastRun, rfl⟩) rfl rfl

theorem Elsewhere.counted (w : World) (f : Stats → Stats) :
    actor.Elsewhere w (w.counted actor.handle f) :=
  .update w (fun m => { m with stats := f m.stats }) fun _ => rfl

/-- The machine has moved to a state, and that is logged. -/
theorem Stands.moved (hw : actor.Stands s w) (target : Text) (log : Log) :
    actor.Stands { s with state := target }
      { w.mapMachine actor.handle (fun m => m.moved target) with log } := by
  have hmoved := hw.update (fun m => m.moved target) { s with state := target } (fun _ => rfl)
    (fun stats lastRun => ⟨_, lastRun, rfl⟩) rfl rfl
  exact hmoved.of_unseen (.of_same rfl rfl rfl rfl rfl)

theorem Elsewhere.moved (w : World) (target : Text) (log : Log) :
    actor.Elsewhere w { w.mapMachine actor.handle (fun m => m.moved target) with log } :=
  (Elsewhere.update w (fun m => m.moved target) fun _ => rfl).trans
    (.of_unseen (.of_same rfl rfl rfl rfl rfl))

theorem Ends.mono {Q' : α → Scene → Prop} {E' : Scene → Prop}
    {r : EStateM.Result Fault World α} (h : actor.Ends Q E w r) (hQ : ∀ a s, Q a s → Q' a s)
    (hE : ¬actor.calm → ∀ s, E s → E' s) : actor.Ends Q' E' w r := by
  cases h with
  | done stands elsewhere h => exact .done stands elsewhere (hQ _ _ h)
  | failed wild stands elsewhere h => exact .failed wild stands elsewhere (hE wild _ h)

theorem Ends.of_eq {r r' : EStateM.Result Fault World α} (h : actor.Ends Q E w r) (hr : r = r') :
    actor.Ends Q E w r' :=
  hr ▸ h

/-- Whether it fails or not, the computation ends in a scene of one kind. -/
theorem Ends.after {x : Eval α} {I : Scene → Prop} (h : actor.Ends (fun _ => I) I w (x w)) :
    ∃ s, actor.Stands s (x.after w) ∧ actor.Elsewhere w (x.after w) ∧ I s := by
  unfold Eval.after
  cases hr : x w with
  | ok a later =>
    rw [hr] at h
    cases h with
    | done stands elsewhere h => exact ⟨_, stands, elsewhere, h⟩
  | error fault later =>
    rw [hr] at h
    cases h with
    | failed wild stands elsewhere h => exact ⟨_, stands, elsewhere, h⟩

/-- What begins where another computation has ended. -/
theorem Ends.behind {r : EStateM.Result Fault World α} (h : actor.Ends Q E w' r)
    (hw : actor.Elsewhere w w') : actor.Ends Q E w r := by
  cases h with
  | done stands elsewhere h => exact .done stands (hw.trans elsewhere) h
  | failed wild stands elsewhere h => exact .failed wild stands (hw.trans elsewhere) h

namespace Does

theorem mono {x : Eval α} {Q' : α → Scene → Prop} {E' : Scene → Prop}
    (hx : actor.Does x s Q E) (hQ : ∀ a s, Q a s → Q' a s)
    (hE : ¬actor.calm → ∀ s, E s → E' s) : actor.Does x s Q' E' := fun w hw =>
  (hx w hw).mono hQ hE

theorem pure {a : α} (h : Q a s) : actor.Does (pure a) s Q E := fun w hw =>
  .done hw (.refl w) h

theorem bind {x : Eval α} {f : α → Eval β} {P : α → Scene → Prop} {Q : β → Scene → Prop}
    (hx : actor.Does x s P E) (hf : ∀ a s', P a s' → actor.Does (f a) s' Q E) :
    actor.Does (x >>= f) s Q E := by
  intro w hw
  have hfirst := hx w hw
  cases hr : x w with
  | ok a w₁ =>
    rw [hr] at hfirst
    rw [Eval.bind_of_ok hr]
    cases hfirst with
    | done stands elsewhere h => exact (hf a _ h w₁ stands).behind elsewhere
  | error fault w₁ =>
    rw [hr] at hfirst
    rw [Eval.bind_of_error hr]
    cases hfirst with
    | failed wild stands elsewhere h => exact .failed wild stands elsewhere h

/-- The first computation comes to a known value in a known scene. -/
theorem follow {x : Eval α} {a : α} {t : Scene} {f : α → Eval β} {Q : β → Scene → Prop}
    (hx : actor.Does x s (fun b s' => b = a ∧ s' = t) E) (hf : actor.Does (f a) t Q E) :
    actor.Does (x >>= f) s Q E := by
  refine hx.bind ?_
  rintro _ _ ⟨rfl, rfl⟩
  exact hf

/-- The first computation leaves the scene alone, and what it comes to does not matter. -/
theorem pass {x : Eval α} {f : α → Eval β} {Q : β → Scene → Prop}
    (hx : actor.Does x s (fun _ s' => s' = s) E) (hf : ∀ a, actor.Does (f a) s Q E) :
    actor.Does (x >>= f) s Q E := by
  refine hx.bind ?_
  rintro a _ rfl
  exact hf a

theorem ofGives {ctx : Context} {x : Eval α} {a : α} (hctx : ctx.store = some actor.store)
    (hx : Evaluator.Gives ctx s.data x a) (h : Q a s) : actor.Does x s Q E := by
  intro w hw
  rw [hx w ⟨actor.store, hctx, hw.data⟩]
  exact .done hw (.refl w) h

/-- What the machine cannot see may happen at any time. -/
theorem unseen {x : Eval α} {a : α} (hx : ∀ w, ∃ later, x w = .ok a later ∧ w.Unseen later)
    (h : Q a s) : actor.Does x s Q E := by
  intro w hw
  obtain ⟨later, hr, hunseen⟩ := hx w
  rw [hr]
  exact .done (hw.of_unseen hunseen) (.of_unseen hunseen) h

theorem note {level : Log.Level} {category message : Text} {Q : Unit → Scene → Prop}
    (h : Q () s) : actor.Does (Eval.note level category message) s Q E :=
  unseen (fun _ => ⟨_, rfl, .of_same rfl rfl rfl rfl rfl⟩) h

theorem log {m : Instance} {services : Services} {level : Log.Level} {category message : Text}
    {Q : Unit → Scene → Prop} (h : Q () s) :
    actor.Does (Machine.note services m level category message) s Q E := by
  refine unseen (fun w => ?_) h
  obtain ⟨log, hnote⟩ := Machine.note_ok services m level category message w
  exact ⟨_, hnote, .of_same rfl rfl rfl rfl rfl⟩

theorem record {m : Instance} {services : Services} {d : Deed} {Q : Unit → Scene → Prop}
    (h : Q () s) : actor.Does (Machine.record services m d) s Q E :=
  unseen (fun w => ⟨_, Machine.record_eq services m d w, .of_same rfl rfl rfl rfl rfl⟩) h

theorem call {label : Label} {request : Request} {Q : Value → Scene → Prop} (h : ∀ v, Q v s)
    (hfails : ¬actor.calm → E s) : actor.Does (Eval.call label request) s Q E := by
  intro w hw
  let later : World := { w with calls := ⟨label, request⟩ :: w.calls }
  have hunseen : w.Unseen later := .of_same rfl rfl rfl rfl rfl
  have hcall : Eval.call label request w = Eval.ofExcept (w.respond later.calls) later := rfl
  rw [hcall]
  cases hreply : w.respond later.calls with
  | ok v => exact .done (hw.of_unseen hunseen) (.of_unseen hunseen) (h v)
  | error e =>
    have hwild : ¬actor.calm := by
      intro hcalm
      obtain ⟨v, hv⟩ := hw.calm hcalm later.calls
      cases hreply.symm.trans hv
    exact .failed hwild (hw.of_unseen hunseen) (.of_unseen hunseen) (hfails hwild)

/-- An attempt hands over a failure, unless that has no message. -/
theorem attempt {x : Eval α} {F : Scene → Prop} {Q : Except Error α → Scene → Prop}
    (hx : actor.Does x s (fun a => Q (.ok a)) F)
    (hF : ¬actor.calm → ∀ s, F s → (∀ e, Q (.error e) s) ∧ E s) :
    actor.Does (Eval.attempt x) s Q E := by
  intro w hw
  have hend := hx w hw
  rcases Eval.attempt_cases x w with ⟨a, w', hr, ha⟩ | ⟨e, w', hr, ha⟩ | ⟨fault, w', hr, ha⟩
  · rw [ha]
    rw [hr] at hend
    cases hend with
    | done stands elsewhere h => exact .done stands elsewhere h
  · rw [ha]
    rw [hr] at hend
    cases hend with
    | failed wild stands elsewhere h => exact .done stands elsewhere ((hF wild _ h).1 e)
  · rw [ha]
    rw [hr] at hend
    cases hend with
    | failed wild stands elsewhere h => exact .failed wild stands elsewhere (hF wild _ h).2

theorem withMachine {default : α} {f : Instance → Eval α}
    (h : ∀ stats lastRun, actor.Does (f (actor.cast s stats lastRun)) s Q E) :
    actor.Does (Machine.withMachine actor.handle default f) s Q E := by
  intro w hw
  obtain ⟨stats, lastRun, hm⟩ := hw.machine
  rw [Machine.withMachine_some hm]
  exact h stats lastRun w hw

/-- A change of the machine is one of the scene, as far as it shows there. -/
theorem update (f : Instance → Instance) (s' : Scene) (hf : ∀ m, (f m).handle = m.handle)
    (hcast : ∀ stats lastRun, ∃ stats' lastRun',
      f (actor.cast s stats lastRun) = actor.cast s' stats' lastRun')
    (hdata : s'.data = s.data) (htimers : s'.timers = s.timers) {Q : Unit → Scene → Prop}
    (h : Q () s') : actor.Does (Machine.update actor.handle f) s Q E := fun w hw =>
  .done (hw.update f s' hf hcast hdata htimers) (.update w f hf) h

theorem count {f : Stats → Stats} {Q : Unit → Scene → Prop} (h : Q () s) :
    actor.Does (Machine.count actor.handle f) s Q E := fun w hw =>
  .done (hw.counted f) (.counted w f) h

end Does

end Actor
end EntityMachines
