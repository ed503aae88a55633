import EntityMachines.Proofs.Evaluation.Library
import EntityMachines.Proofs.Machine.Lookup

/-!
What machines do keeps a relation if evaluation does and if the few changes do that a machine
makes by itself. These changes are listed once, in groups: those by which a machine answers an
event, those by which it runs its queue, and those of the times of its ticks.
-/
namespace EntityMachines
namespace Machine

open Eval (Keeps Frame OpenFrame)

variable {α : Type} {R : World → World → Prop} {handle : Nat} {Q : Instance → Prop}
  {ev : Evaluator} {services : Services} {m : Instance}

/-- A relation that a machine keeps by itself while it answers an event. Nothing is asked of a
machine that is not as `Q` says. -/
structure Stirs (R : World → World → Prop) (handle : Nat) (Q : Instance → Prop) : Prop
    extends Frame R where
  vacuous : ∀ w m w', w.machine? handle = some m → ¬Q m → R w w'
  count : ∀ w (f : Stats → Stats), R w (w.mapMachine handle fun m => { m with stats := f m.stats })
  log : ∀ w level category label message, level ≠ .warn →
    R w { w with log := w.log.write level category label message 0 }
  guardFailed : ∀ m services place e, m.handle = handle →
    Keeps R (record services m (.guardFailed place e))
  move : ∀ w m t, m.handle = handle → Q m → t ∈ m.definition.transitions →
    R w (w.mapMachine handle fun m' => { m' with state := t.target.getD m.state })

/-- A relation that a machine also keeps by itself while it runs its queue and takes in events. -/
structure Serves (R : World → World → Prop) (handle : Nat) (Q : Instance → Prop) : Prop
    extends Stirs R handle Q where
  processed : ∀ m services o, m.handle = handle → Keeps R (record services m (.processed o))
  dropped : ∀ m services o, m.handle = handle → Keeps R (record services m (.dropped o))
  announced : ∀ m services o fate, m.handle = handle → Keeps R (announce services m o fate)
  queue : ∀ w (busy : Instance → Bool) (pending : Instance → List Occurrence),
    R w (w.mapMachine handle fun m => { m with busy := busy m, pending := pending m })

/-- A relation that evaluation keeps with all its effects, and a machine while it answers an
event. -/
structure Reacts (R : World → World → Prop) (handle : Nat) (Q : Instance → Prop) : Prop
    extends OpenFrame R, Stirs R handle Q

/-- A relation that evaluation keeps with all its effects, and a machine while it runs its queue. -/
structure Transacts (R : World → World → Prop) (handle : Nat) (Q : Instance → Prop) : Prop
    extends Reacts R handle Q, Serves R handle Q

/-- Handlers of one kind: none, and those of a machine that is as `Q` says. -/
class Grants (H : Handlers → Prop) (handle : Nat) (Q : Instance → Prop) : Prop where
  none : H {}
  own : ∀ m services, m.handle = handle → Q m → H (m.handlers services)

instance : Grants (fun _ => True) handle Q := ⟨trivial, fun _ _ _ _ => trivial⟩

/-- A relation that a machine keeps when it notes the times of its ticks. -/
structure Timed (R : World → World → Prop) (handle : Nat) : Prop where
  ran : ∀ w index now,
    R w (w.mapMachine handle fun m => { m with lastRun := m.lastRun.set index now })
  restart : ∀ w now,
    R w (w.mapMachine handle fun m =>
      { m with lastRun := m.definition.ticks.map fun _ => now })

/-- A relation to which nothing of the world matters but its stores and machines. -/
structure MachineFrame (R : World → World → Prop) : Prop where
  same : ∀ w w', w'.stores = w.stores → w'.machines = w.machines → R w w'
  trans : ∀ {a b c}, R a b → R b c → R a c
  write : ∀ w store (changes : Table Value),
    R w { w with stores := w.stores.modify store fun data => data.applyChanges changes }

namespace MachineFrame

variable (hR : MachineFrame R)

include hR

theorem openFrame : OpenFrame R where
  refl w := hR.same w _ rfl rfl
  trans := hR.trans
  capture w _ := hR.same w _ rfl rfl
  timing w _ _ := hR.same w _ rfl rfl
  arm w _ := hR.same w _ rfl rfl
  random w _ := hR.same w _ rfl rfl
  clock w _ _ := hR.same w _ rfl rfl
  write w store changes := hR.trans (hR.write w store changes) (hR.same _ _ rfl rfl)
  request w _ _ _ := hR.same w _ rfl rfl
  closure w _ := hR.same w _ rfl rfl

theorem record_keeps (services : Services) (m : Instance) (d : Deed) :
    Keeps R (record services m d) := by
  have hlog (message : Text) : Keeps R (note services m .warn "behavior" message) := by
    unfold note
    refine Keeps.ite (fun _ => ?_) fun _ => hR.openFrame.pure _
    exact Keeps.modify fun w => hR.same w _ rfl rfl
  unfold record
  refine hR.openFrame.bind (Keeps.modify fun w => hR.same w _ rfl rfl) fun _ => ?_
  cases d.warning? with
  | none => exact hR.openFrame.pure _
  | some message => exact hlog message

theorem announce_keeps (services : Services) (m : Instance) (o : Occurrence) (fate : Fate) :
    Keeps R (announce services m o fate) := by
  have hcall (request : Request) : Keeps R (Eval.call [] request) :=
    hR.openFrame.bind (Keeps.modify fun w => hR.same w _ rfl rfl) fun _ =>
      hR.openFrame.bind hR.openFrame.get fun _ => hR.openFrame.ofExcept _
  have hrecord := hR.record_keeps services m (.emitted o fate)
  unfold announce
  exact Keeps.ite (fun _ => hR.openFrame.bind (hcall _) fun _ => hrecord) fun _ => hrecord

theorem reacts (hvacuous : ∀ w m w', w.machine? handle = some m → ¬Q m → R w w')
    (hcount : ∀ w (f : Stats → Stats),
      R w (w.mapMachine handle fun m => { m with stats := f m.stats }))
    (hmove : ∀ w m t, m.handle = handle → Q m → t ∈ m.definition.transitions →
      R w (w.mapMachine handle fun m' => { m' with state := t.target.getD m.state })) :
    Reacts R handle Q where
  toOpenFrame := hR.openFrame
  vacuous := hvacuous
  count := hcount
  log w _ _ _ _ _ := hR.same w _ rfl rfl
  guardFailed m services _ _ _ := hR.record_keeps services m _
  move := hmove

theorem transacts (hreacts : Reacts R handle Q)
    (hqueue : ∀ w (busy : Instance → Bool) (pending : Instance → List Occurrence),
      R w (w.mapMachine handle fun m => { m with busy := busy m, pending := pending m })) :
    Transacts R handle Q where
  toReacts := hreacts
  processed m services _ _ := hR.record_keeps services m _
  dropped m services _ _ := hR.record_keeps services m _
  announced m services o fate _ := hR.announce_keeps services m o fate
  queue := hqueue

section update

variable (hupdate : ∀ w (f : Instance → Instance),
  (∀ m, (f m).handle = m.handle ∧ (f m).definition = m.definition) → R w (w.mapMachine handle f))

include hupdate

/-- It is enough that every change of one machine keeps the relation, if the machine stays what
it is. -/
theorem transacts_of_update : Transacts R handle fun _ => True :=
  hR.transacts
    (hR.reacts (fun _ _ _ _ h => absurd trivial h)
      (fun w _ => hupdate w _ fun _ => ⟨rfl, rfl⟩)
      (fun w _ _ _ _ _ => hupdate w _ fun _ => ⟨rfl, rfl⟩))
    fun w _ _ => hupdate w _ fun _ => ⟨rfl, rfl⟩

omit hR in
theorem timed_of_update : Timed R handle where
  ran w _ _ := hupdate w _ fun _ => ⟨rfl, rfl⟩
  restart w _ := hupdate w _ fun _ => ⟨rfl, rfl⟩

end update

end MachineFrame

theorem Stirs.withMachine (hR : Stirs R handle Q) (default : α) {f : Instance → Eval α}
    (hf : ∀ m, m.handle = handle → Q m → Keeps R (f m)) :
    Keeps R (withMachine handle default f) := by
  intro w
  unfold Machine.withMachine
  rw [Eval.after_get_bind]
  cases hm : w.machine? handle with
  | none => exact hR.refl w
  | some m =>
    by_cases hq : Q m
    · exact hf m (World.handle_of_machine? hm) hq w
    · exact hR.vacuous w m _ hm hq

/-- A relation that is kept while a machine evaluates guards and effects: it evaluates expressions
under handlers of one kind, and keeps, counts and logs what goes wrong. -/
structure Judges (R : World → World → Prop) (H : Handlers → Prop) (ev : Evaluator)
    (services : Services) (m : Instance) : Prop where
  respects : ev.Respects R H
  guardErrors :
    Keeps R (Machine.count m.handle fun s => { s with guardErrors := s.guardErrors + 1 })
  note : ∀ {level : Log.Level}, level ≠ .warn → ∀ category message,
    Keeps R (Machine.note services m level category message)
  guardFailed : ∀ place e, Keeps R (record services m (.guardFailed place e))

/-- A relation that is also kept while a machine looks for a transition, with all that it counts
meanwhile. -/
structure Weighs (R : World → World → Prop) (H : Handlers → Prop) (ev : Evaluator)
    (services : Services) (m : Instance) : Prop extends Judges R H ev services m where
  count : ∀ f : Stats → Stats, (∀ s, (f s).transitions = s.transitions) →
    Keeps R (Machine.count m.handle f)

/-- A relation that a machine keeps while its ticks have their turns. -/
structure Paces (R : World → World → Prop) (ev : Evaluator) (services : Services) (handle : Nat) :
    Prop extends Eval.Frame R where
  judges : ∀ w m, w.machine? handle = some m → (∀ w', R w w') ∨
    ∃ H, H {} ∧ H (m.handlers services) ∧ Judges R H ev services m
  ran : ∀ index now, Keeps R (update handle fun m => { m with lastRun := m.lastRun.set index now })
  counted : Keeps R (count handle fun s => { s with ticksRun := s.ticksRun + 1 })
  skipped : Keeps R (skipTick handle)

namespace Judges

variable {H : Handlers → Prop} {ctx : Context} (hR : Judges R H ev services m)
  (hctx : H ctx.handlers)

include hR hctx

theorem guardHolds_keeps (guard : Value) (place : Text) :
    Keeps R (guardHolds ev services m guard ctx place) := by
  have hframe := hR.respects.frame
  unfold guardHolds
  refine hframe.bind (Keeps.attempt (hR.respects.evaluate guard ctx hctx)) fun outcome => ?_
  cases outcome with
  | ok v => exact hframe.pure _
  | error e =>
    refine hframe.bind hR.guardErrors fun _ => ?_
    cases services.guardPolicy with
    | propagate => exact hframe.raise e
    | treatAsFalse => exact hframe.bind (hR.guardFailed place e) fun _ => hframe.pure _

theorem permits_keeps (guard : Option Value) (place : Text) :
    Keeps R (permits ev services m guard ctx place) := by
  cases guard with
  | some guard => exact hR.guardHolds_keeps hctx guard place
  | none => exact hR.respects.frame.pure true

theorem runEffects_keeps (place : Text) (effects : List Value) (ran : Nat) :
    Keeps R (runEffects ev services m ctx place ran effects) := by
  have hframe := hR.respects.frame
  induction effects generalizing ran with
  | nil => exact hframe.pure _
  | cons effect rest ih =>
    unfold runEffects
    refine hframe.bind (Keeps.attempt (hR.respects.evaluate effect ctx hctx)) fun outcome => ?_
    cases outcome with
    | ok v => exact ih (ran + 1)
    | error e => exact hframe.bind (hR.note (by decide) _ _) fun _ => hframe.raise e

omit hctx in
theorem interval_keeps (tick : Tick) : Keeps R (interval services m tick) := by
  have hframe := hR.respects.frame
  unfold interval
  split
  · exact hframe.pure _
  · exact hframe.pure _
  · refine Keeps.ite (fun _ => hframe.pure _) fun _ => ?_
    exact hframe.bind (hR.note (by decide) _ _) fun _ => hframe.pure _

end Judges

namespace Paces

variable (hR : Paces R ev services handle)

include hR

theorem performTick_keeps {H : Handlers → Prop} (hm : m.handle = handle)
    (hjudges : Judges R H ev services m) (hown : H (m.handlers services)) (ctx : Context)
    (index : Nat) (tick : Tick) : Keeps R (performTick ev services m ctx index tick) := by
  unfold performTick
  refine hR.bind (hjudges.runEffects_keeps hown _ _ _) fun _ => ?_
  rw [hm]
  exact hR.bind (hR.ran index ctx.now) fun _ => hR.bind hR.counted fun _ => hR.pure _

theorem runTick_keeps (now : Int) (index : Nat) (tick : Tick) :
    Keeps R (runTick ev services handle now index tick) := by
  have hskip : Keeps R (do skipTick handle; return false) :=
    hR.bind hR.skipped fun _ => hR.pure _
  intro w
  unfold runTick withMachine
  rw [Eval.after_get_bind]
  cases hm : w.machine? handle with
  | none => exact hR.refl w
  | some m =>
    obtain hvacuous | ⟨H, hnone, hown, hjudges⟩ := hR.judges w m hm
    · exact hvacuous _
    · refine hR.bind (hjudges.interval_keeps tick) (fun due => ?_) w
      cases due with
      | none => exact hR.pure _
      | some due =>
        refine Keeps.ite (fun _ => hR.pure _) fun _ => Keeps.ite (fun _ => hskip) fun _ => ?_
        refine hR.bind (hjudges.permits_keeps hnone tick.guard _) fun permitted => ?_
        refine Keeps.ite (fun _ => ?_) fun _ => hskip
        exact hR.performTick_keeps (World.handle_of_machine? hm) hjudges hown _ index tick

theorem runTicks_keeps (now : Int) (ticks : List (Nat × Tick)) :
    Keeps R (runTicks ev services handle now ticks) := by
  induction ticks with
  | nil => exact hR.pure _
  | cons entry rest ih =>
    unfold runTicks
    exact hR.bind (hR.runTick_keeps now entry.1 entry.2) fun ran =>
      hR.bind ih fun others => hR.pure _

end Paces

namespace Stirs

variable {H : Handlers → Prop} (hR : Stirs R handle Q) (hev : ev.Respects R H)
  (hm : m.handle = handle)

section own

include hR

theorem note_keeps (services : Services) (m : Instance) {level : Log.Level} (hl : level ≠ .warn)
    (category message : Text) : Keeps R (note services m level category message) := by
  unfold note
  refine Keeps.ite (fun _ => ?_) fun _ => hR.pure _
  exact Keeps.modify fun w => hR.log w level category _ message hl

include hm

theorem count_keeps (f : Stats → Stats) : Keeps R (Machine.count m.handle f) := by
  rw [hm]
  exact Keeps.modify fun w => hR.count w f

end own

include hR hev hm

theorem weighs : Weighs R H ev services m where
  respects := hev
  guardErrors := hR.count_keeps hm _
  count f _ := hR.count_keeps hm f
  note hl category message := hR.note_keeps services m hl category message
  guardFailed place e := hR.guardFailed m services place e hm

variable [Grants H handle Q] (hq : Q m)

include hq

theorem take_keeps (ctx : Context) (event : Text) (index : Nat) {t : Transition}
    (ht : t ∈ m.definition.transitions) (rejected : Bool) :
    Keeps R (take ev services m ctx event index t rejected) := by
  have hmove : Keeps R
      (update m.handle fun m' => { m' with state := t.target.getD m.state }) := by
    rw [hm]
    exact Keeps.modify fun w => hR.move w m t hm hq ht
  unfold take
  refine hR.bind ((hR.weighs hev hm).runEffects_keeps (Grants.own m services hm hq) _ _ _)
    fun ran => ?_
  refine hR.bind hmove fun _ => ?_
  refine hR.bind (hR.count_keeps hm _) fun _ => ?_
  exact hR.bind (hR.note_keeps services m (by decide) _ _) fun _ => hR.pure _

theorem tryTransitions_keeps {ctx : Context} (hctx : H ctx.handlers) (event : Text)
    (ts : List Transition) (hts : ∀ t ∈ ts, t ∈ m.definition.transitions) (rejected : Bool) (index : Nat) :
    Keeps R (tryTransitions ev services m ctx event rejected index ts) := by
  induction ts generalizing rejected index with
  | nil =>
    unfold tryTransitions
    refine Keeps.ite (fun _ => ?_) fun _ => hR.pure _
    refine hR.bind (hR.count_keeps hm _) fun _ => ?_
    exact hR.bind (hR.note_keeps services m (by decide) _ _) fun _ => hR.pure _
  | cons t rest ih =>
    have hrest : ∀ t ∈ rest, t ∈ m.definition.transitions := fun t h => hts t (by simp [h])
    unfold tryTransitions
    refine Keeps.ite (fun _ => ih hrest rejected (index + 1)) fun _ => ?_
    refine hR.bind ((hR.weighs hev hm).permits_keeps hctx t.guard _) fun permitted => ?_
    refine Keeps.ite (fun _ => ?_) fun _ => ?_
    · exact hR.take_keeps hev hm hq ctx event index (hts t (by simp)) rejected
    · exact hR.bind (hR.count_keeps hm _) fun _ => ih hrest true (index + 1)

theorem react_keeps (event : Text) (payload : Value) :
    Keeps R (react ev services m event payload) := by
  unfold react
  refine hR.bind (hR.count_keeps hm _) fun _ => hR.bind hR.get fun w => ?_
  have hnone : H {} := Grants.none handle Q
  exact hR.tryTransitions_keeps hev hm hq hnone event _ (fun t h => h) false 0

omit hm hq in
theorem paces (hT : Timed R handle) : Paces R ev services handle where
  toFrame := hR.toFrame
  judges w m hm := by
    have hhandle := World.handle_of_machine? hm
    by_cases hq : Q m
    · exact .inr ⟨H, Grants.none handle Q, Grants.own m services hhandle hq,
        (hR.weighs hev hhandle).toJudges⟩
    · exact .inl fun w' => hR.vacuous w m w' hm hq
  ran index now := Keeps.modify fun w => hT.ran w index now
  counted := Keeps.modify fun w => hR.count w fun s => { s with ticksRun := s.ticksRun + 1 }
  skipped := Keeps.modify fun w => hR.count w fun s => { s with ticksSkipped := s.ticksSkipped + 1 }

end Stirs

theorem Transacts.weaken (hR : Transacts R handle Q) {R' : World → World → Prop}
    (htrans : ∀ {a b c}, R' a b → R' b c → R' a c) (h : ∀ {w w'}, R w w' → R' w w') :
    Transacts R' handle Q where
  toOpenFrame := hR.toOpenFrame.weaken htrans h
  vacuous w m w' hm hq := h (hR.vacuous w m w' hm hq)
  count w f := h (hR.count w f)
  log w level category label message hl := h (hR.log w level category label message hl)
  guardFailed m services place e hm w := h (hR.guardFailed m services place e hm w)
  move w m t hm hq ht := h (hR.move w m t hm hq ht)
  processed m services o hm w := h (hR.processed m services o hm w)
  dropped m services o hm w := h (hR.dropped m services o hm w)
  announced m services o fate hm w := h (hR.announced m services o fate hm w)
  queue w busy pending := h (hR.queue w busy pending)

namespace Serves

variable {H : Handlers → Prop} (hR : Serves R handle Q) (hev : ev.Respects R H)

include hR

theorem process_keeps [Grants H handle Q] (hev : ev.Respects R H) (event : Text)
    (payload : Value) : Keeps R (process ev services handle event payload) :=
  hR.withMachine _ fun m hm hq =>
    hR.bind (hR.processed m services _ hm) fun _ => hR.react_keeps hev hm hq event payload

theorem nextPending_keeps : Keeps R (nextPending handle) := by
  refine hR.withMachine none fun m hm hq => ?_
  cases m.pending with
  | nil =>
    have hclose : Keeps R (update handle fun m => { m with busy := false }) :=
      Keeps.modify fun w => hR.queue w (fun _ => false) fun m => m.pending
    exact hR.bind hclose fun _ => hR.pure _
  | cons o rest =>
    have hpop : Keeps R (update handle fun m => { m with pending := rest }) :=
      Keeps.modify fun w => hR.queue w (fun m => m.busy) fun _ => rest
    exact hR.bind hpop fun _ => hR.pure _

theorem dropPending_keeps (hm : m.handle = handle) (os : List Occurrence) :
    Keeps R (dropPending services m os) := by
  induction os with
  | nil =>
    unfold dropPending
    rw [hm]
    exact Keeps.modify fun w => hR.queue w (fun _ => false) fun _ => []
  | cons o rest ih =>
    unfold dropPending
    exact hR.bind (hR.dropped m services o hm) fun _ => ih

theorem transaction_keeps {x : Eval α} (hx : Keeps R x) : Keeps R (transaction handle x) := by
  have hopen : Keeps R (update handle fun m => { m with busy := true }) :=
    Keeps.modify fun w => hR.queue w (fun _ => true) fun m => m.pending
  have hclose : ∀ w, R w (w.mapMachine handle fun m => { m with busy := false, pending := [] }) :=
    fun w => hR.queue w (fun _ => false) fun _ => []
  exact hR.bind hopen fun _ => hR.andFinally hx hclose

variable [Grants H handle Q]

include hev

theorem drain_keeps (left : Nat) : Keeps R (drain ev services handle left) := by
  induction left with
  | zero => exact hR.withMachine () fun m hm _ => hR.dropPending_keeps hm m.pending
  | succ left ih =>
    unfold drain
    refine hR.bind hR.nextPending_keeps fun next => ?_
    cases next with
    | none => exact hR.pure _
    | some o =>
      exact hR.bind (hR.process_keeps hev o.event o.payload) fun _ => ih

theorem dispatch_keeps (event : Text) (payload : Value) :
    Keeps R (dispatch ev services handle event payload) := by
  refine hR.transaction_keeps ?_
  exact hR.bind (hR.process_keeps hev event payload) fun _ =>
    hR.bind (hR.drain_keeps hev _) fun _ => hR.pure _

theorem deliver_keeps (event : Text) (payload : Value) :
    Keeps R (deliver ev handle services event payload) := by
  refine hR.withMachine () fun m hm _ => ?_
  refine hR.bind (hR.announced m services _ _ hm) fun _ => ?_
  cases m.fate services event with
  | undeclared | refused => exact hR.pure _
  | queued =>
    exact Keeps.modify fun w =>
      hR.queue w (fun m => m.busy) fun m => m.pending ++ [⟨event, payload⟩]
  | dispatched => exact hR.bind (hR.dispatch_keeps hev event payload) fun _ => hR.pure _

theorem runDueTicks_keeps (hT : Timed R handle) (now : Int) :
    Keeps R (runDueTicks ev services handle now) := by
  refine hR.withMachine 0 fun m hm hq => Keeps.ite (fun _ => hR.pure _) fun _ => ?_
  refine hR.transaction_keeps ?_
  have hrest : Keeps R (do
      let ran ← runTicks ev services handle now (tickOrder m.definition)
      drain ev services handle services.maxQueued
      return ran) :=
    hR.bind ((hR.paces hev hT).runTicks_keeps now _) fun _ =>
      hR.bind (hR.drain_keeps hev _) fun _ => hR.pure _
  refine Keeps.ite (fun _ => ?_) fun _ => hrest
  exact hR.bind (Keeps.modify fun w => hT.restart w now) fun _ => hrest

theorem runInitialEffects_keeps : Keeps R (runInitialEffects ev services handle) := by
  refine hR.withMachine () fun m hm hq => Keeps.ite (fun _ => hR.pure _) fun _ => ?_
  refine hR.transaction_keeps (hR.bind hR.get fun w => ?_)
  exact hR.bind ((hR.weighs hev hm).runEffects_keeps (Grants.own m services hm hq) _ _ _)
    fun _ => hR.drain_keeps hev _

end Serves

/-- What all machines keep whatever they do, evaluation keeps. -/
theorem Transacts.withFuel_respects (hR : ∀ handle, Transacts R handle Q) (n : Nat) :
    (Evaluator.withFuel Library.standard n).Respects R fun _ => True :=
  Evaluator.withFuel_respects (hR 0).toOpenFrame
    (fun _ hev handle _ event payload => (hR handle).deliver_keeps hev event payload) n

end Machine
end EntityMachines
