import EntityMachines.Proofs.Evaluation.Reads
import EntityMachines.Proofs.Machine.History
import EntityMachines.Proofs.Table

/-!
Machines that live side by side. A machine and its store are out of reach of all others, unless a
closure or a timer brings handlers of the machine; then no other machine changes the two, whatever
its definition says, and none gets hold of such handlers.
-/
namespace EntityMachines

open Eval (Keeps Frame)

/-- Handlers that change another store, and send events to another machine. -/
structure Handlers.Spares (a : Nat) (store : StoreRef) (hs : Handlers) : Prop where
  mutate : ∀ m, hs.mutate = some m → m.store ≠ store
  emit : ∀ services, hs.emit ≠ some (.machine a services)

theorem Handlers.Spares.none (a : Nat) (store : StoreRef) : Spares a store {} where
  mutate _ h := absurd h.symm (Option.some_ne_none _)
  emit _ h := Option.some_ne_none _ h.symm

/-- Nothing but the machine of a handle can get at a store, or send events to the machine. -/
structure World.Shields (w : World) (a : Nat) (store : StoreRef) : Prop where
  machines : ∀ b m, b ≠ a → w.machine? b = some m → m.store ≠ store
  closures : ∀ c ∈ w.closures, Expr.Inert c.body ∨ c.captured.handlers.Spares a store
  timers : ∀ entry ∈ w.timing.timers, entry.2.action.handlers.Spares a store

namespace World

variable {a b : Nat} {store : StoreRef} {w w' w'' : World}

theorem Shields.congr (h : w.Shields a store) (hmachines : w'.machines = w.machines)
    (hclosures : w'.closures = w.closures)
    (htimers : ∀ entry ∈ w'.timing.timers, entry ∈ w.timing.timers) : w'.Shields a store where
  machines b m hb hm := h.machines b m hb ((machine?_congr hmachines b).symm.trans hm)
  closures c hc := h.closures c (hclosures ▸ hc)
  timers entry hentry := h.timers entry (htimers entry hentry)

/-- A machine and its store are as they were, and as well shielded. -/
structure Spared (a : Nat) (store : StoreRef) (w w' : World) : Prop where
  shields : w'.Shields a store
  machine : w'.machine? a = w.machine? a
  data : w'.stores[store]? = w.stores[store]?
  respond : w'.respond = w.respond

/-- What is shielded is spared. -/
def Respected (a : Nat) (store : StoreRef) (w w' : World) : Prop :=
  w.Shields a store → w.Spared a store w'

theorem Respected.of_same (hmachines : w'.machines = w.machines) (hstores : w'.stores = w.stores)
    (hclosures : w'.closures = w.closures)
    (htimers : ∀ entry ∈ w'.timing.timers, entry ∈ w.timing.timers)
    (hrespond : w'.respond = w.respond) : w.Respected a store w' := fun h =>
  ⟨h.congr hmachines hclosures htimers, machine?_congr hmachines a, by rw [hstores], hrespond⟩

theorem Respected.trans (h : w.Respected a store w') (h' : w'.Respected a store w'') :
    w.Respected a store w'' := fun hw =>
  have hfirst := h hw
  have hlast := h' hfirst.shields
  ⟨hlast.shields, hlast.machine.trans hfirst.machine, hlast.data.trans hfirst.data,
    hlast.respond.trans hfirst.respond⟩

theorem respected_frame (a : Nat) (store : StoreRef) : Frame (Respected a store) where
  refl _ := .of_same rfl rfl rfl (fun _ => id) rfl
  trans := .trans
  timing _ _ ht := .of_same rfl rfl rfl ht rfl
  random _ _ := .of_same rfl rfl rfl (fun _ => id) rfl
  clock _ _ _ := .of_same rfl rfl rfl (fun _ => id) rfl

theorem Respected.write (w : World) {other : StoreRef} (hother : other ≠ store)
    (changes : Table Value) (history : List Incident) : w.Respected a store { w with
      stores := w.stores.modify other fun data => data.applyChanges changes
      history } := by
  intro h
  refine ⟨h.congr rfl rfl fun _ => id, rfl, ?_, rfl⟩
  show (w.stores.modify other _)[store]? = _
  rw [Array.getElem?_modify, if_neg hother]

theorem Respected.capture (w : World) {c : Closure} (hc : c.captured.handlers.Spares a store) :
    w.Respected a store { w with closures := w.closures.push c } := by
  intro h
  refine ⟨⟨h.machines, fun c' hc' => ?_, h.timers⟩, rfl, rfl, rfl⟩
  rcases Array.mem_push.mp hc' with hold | rfl
  · exact h.closures c' hold
  · exact .inr hc

theorem Respected.arm (w : World) (key : Text) {hs : Handlers} (hhs : hs.Spares a store) :
    w.Respected a store { w with timing := w.timing.debounce key ⟨key, hs⟩ none } := by
  intro h
  refine ⟨⟨h.machines, h.closures, fun entry hentry => ?_⟩, rfl, rfl, rfl⟩
  rcases Table.mem_insert hentry with hold | rfl
  · exact h.timers entry hold
  · exact hhs

/-- Another machine may become what it likes, as long as it keeps its handle and its store. -/
theorem Respected.update (w : World) (hb : b ≠ a) {f : Instance → Instance}
    (hf : ∀ m, (f m).handle = m.handle ∧ (f m).store = m.store) :
    w.Respected a store (w.mapMachine b f) := by
  intro h
  refine ⟨⟨fun c m hc hm => ?_, h.closures, h.timers⟩,
    machine?_mapMachine_ne w hb.symm fun m => (hf m).1, rfl, rfl⟩
  rw [machine?_mapMachine w b c fun m => (hf m).1] at hm
  split at hm
  · obtain ⟨m', hm', rfl⟩ := Option.map_eq_some_iff.mp hm
    rw [(hf m').2]
    exact h.machines c m' hc hm'
  · exact h.machines c m hc hm

end World

namespace Machine

open World (Respected Shields respected_frame)

variable {a b : Nat} {store : StoreRef}

theorem respected_call (label : Label) (request : Request) :
    Keeps (Respected a store) (Eval.call label request) :=
  (respected_frame a store).bind
    (Keeps.modify fun _ => .of_same rfl rfl rfl (fun _ => id) rfl) fun _ =>
    (respected_frame a store).bind (respected_frame a store).get fun _ =>
      (respected_frame a store).ofExcept _

theorem respected_record (m : Instance) (services : Services) (d : Deed) :
    Keeps (Respected a store) (record services m d) := by
  intro w
  rw [Eval.after_ok (record_eq services m d w)]
  exact .of_same rfl rfl rfl (fun _ => id) rfl

/-- Another machine does nothing by itself that reaches a shielded one. -/
theorem respected_serves (hb : b ≠ a) :
    Serves (Respected a store) b fun m => m.store ≠ store where
  toFrame := respected_frame a store
  vacuous _ m _ hm hstore hw := absurd (hw.machines b m hb hm) hstore
  count w _ := .update w hb fun _ => ⟨rfl, rfl⟩
  log _ _ _ _ _ _ := .of_same rfl rfl rfl (fun _ => id) rfl
  guardFailed m services _ _ _ := respected_record m services _
  move w _ _ _ _ _ := .update w hb fun _ => ⟨rfl, rfl⟩
  processed m services _ _ := respected_record m services _
  dropped m services _ _ := respected_record m services _
  announced m services o fate _ := by
    have hrecord : Keeps (Respected a store) (record services m (.emitted o fate)) :=
      respected_record m services _
    unfold announce
    exact Keeps.ite (fun _ => (respected_frame a store).bind (respected_call _ _) fun _ => hrecord)
      fun _ => hrecord
  queue w _ _ := .update w hb fun _ => ⟨rfl, rfl⟩

theorem respected_timed (hb : b ≠ a) : Timed (Respected a store) b where
  ran w _ _ := .update w hb fun _ => ⟨rfl, rfl⟩
  restart w _ := .update w hb fun _ => ⟨rfl, rfl⟩

theorem spares_grants (hb : b ≠ a) (store : StoreRef) :
    Grants (Handlers.Spares a store) b fun m => m.store ≠ store where
  none := .none a store
  own m services hhandle hstore := by
    refine ⟨fun mutator hmutator => ?_, fun other hemit => ?_⟩
    · cases hmutator
      exact hstore
    · cases hemit
      exact hb hhandle.symm

end Machine

namespace Evaluator

open World (Respected respected_frame)

variable {a : Nat} {store : StoreRef}

theorem respects_of_spares {ev : Evaluator}
    (hevaluate : ∀ e ctx, ctx.handlers.Spares a store → Keeps (Respected a store) (ev.evaluate e ctx))
    (hinert : ∀ e, Expr.Inert e → ∀ ctx, Keeps (Respected a store) (ev.evaluate e ctx))
    (hdeliver : ∀ b, b ≠ a → ∀ services event payload,
      Keeps (Respected a store) (ev.deliver b services event payload)) :
    ev.Respects (Respected a store) (Handlers.Spares a store) where
  frame := respected_frame a store
  evaluate := hevaluate
  invoke w c args hc := by
    intro hw
    have hbody : Keeps (Respected a store)
        (ev.evaluate c.body (c.captured.child (c.parameters.bind args))) := by
      rcases hw.closures c hc with hquiet | hspares
      · exact hinert c.body hquiet _
      · exact hevaluate _ _ hspares
    have hinvoke : Keeps (Respected a store) (ev.invokeClosure c args) := by
      unfold invokeClosure
      refine Keeps.ite (fun _ => ?_) fun _ => hbody
      exact (respected_frame a store).bind
        (Keeps.modify fun _ => .of_same rfl rfl rfl (fun _ => id) rfl) fun _ => hbody
    exact hinvoke w hw
  outgoing hs hhs := {
    mutate := by
      intro m hm changes
      unfold Effect.mutate
      have hwrite : Keeps (Respected a store) (Eval.writeStore m.store changes) := fun w =>
        .write w (hhs.mutate m hm) changes _
      refine (respected_frame a store).bind hwrite fun _ => ?_
      cases m.observer with
      | none => exact (respected_frame a store).pure _
      | some label =>
        exact (respected_frame a store).bind (Machine.respected_call label _) fun _ =>
          (respected_frame a store).pure _
    send := by
      intro emitter hemitter event payload
      cases emitter with
      | outside label =>
        exact (respected_frame a store).bind (Machine.respected_call label _) fun _ =>
          (respected_frame a store).pure _
      | machine b services =>
        refine hdeliver b (fun hb => ?_) services event payload
        exact hhs.emit services (hb ▸ hemitter)
    call := fun _ label request _ => Machine.respected_call label request }
  capture w _ hc := .capture w hc
  arm w key _ hhs := .arm w key hhs

/-- By induction on the depth, evaluation under handlers that spare a machine respects it. -/
theorem withFuel_spares (a : Nat) (store : StoreRef) (n : Nat) :
    (withFuel Library.standard n).Respects (Respected a store) (Handlers.Spares a store) := by
  induction n with
  | zero =>
    exact respects_of_spares (fun _ _ _ => (respected_frame a store).throw _)
      (fun _ _ _ => (respected_frame a store).throw _)
      fun _ _ _ _ _ => (respected_frame a store).throw _
  | succ n ih =>
    refine respects_of_spares (fun e ctx hctx => step_keeps ih hctx e)
      (fun e he ctx => he _ (respected_frame a store) (n + 1) ctx) fun b hb services event payload => ?_
    have := Machine.spares_grants hb store
    exact (Machine.respected_serves hb).deliver_keeps ih event payload

end Evaluator

namespace Machine

open World (Respected)

variable {a b : Nat} (hb : b ≠ a) (store : StoreRef) (n : Nat) (services : Services)

include hb

theorem respected_dispatch (event : Text) (payload : Value) : Keeps (Respected a store)
    (dispatch (Evaluator.withFuel Library.standard n) services b event payload) :=
  have := spares_grants hb store
  (respected_serves hb).dispatch_keeps (Evaluator.withFuel_spares a store n) event payload

theorem respected_runDueTicks (now : Int) : Keeps (Respected a store)
    (runDueTicks (Evaluator.withFuel Library.standard n) services b now) :=
  have := spares_grants hb store
  (respected_serves hb).runDueTicks_keeps (Evaluator.withFuel_spares a store n)
    (respected_timed hb) now

theorem respected_runInitialEffects : Keeps (Respected a store)
    (runInitialEffects (Evaluator.withFuel Library.standard n) services b) :=
  have := spares_grants hb store
  (respected_serves hb).runInitialEffects_keeps (Evaluator.withFuel_spares a store n)

end Machine

/-- Timers that expire leave a shielded machine alone. -/
theorem Timers.respected_settle (a : Nat) (store : StoreRef) (n rounds : Nat) :
    Keeps (World.Respected a store) (settle (Evaluator.withFuel Library.standard n) rounds) := by
  refine settle_keeps_of (Evaluator.withFuel_spares a store n) (fun w w' => ?_) rounds
  by_cases hw : w.Shields a store
  · exact .inr hw.timers
  · exact .inl fun h => absurd h hw

end EntityMachines
