import EntityMachines.Proofs.Host.Moves
import EntityMachines.Proofs.Machine.Neighbors

/-!
A machine among others. In a host that was empty once nothing gets hold of the handlers of a machine
to come, so that a new machine keeps a property throughout a run if it keeps it by itself, whatever
other machines there are and whatever they are made to do.
-/
namespace EntityMachines

open Eval (Keeps)
open World (Respected)

namespace Machine

/-- No store comes or goes. -/
def StoresKept (w w' : World) : Prop := w'.stores.size = w.stores.size

theorem storesKept_frame : MachineFrame StoresKept where
  same _ _ hstores _ := congrArg Array.size hstores
  trans h h' := h'.trans h
  write _ _ _ := Array.size_modify

theorem storesKept_transacts (handle : Nat) : Transacts StoresKept handle fun _ => True :=
  storesKept_frame.transacts_of_update fun _ _ _ => rfl

theorem storesKept_respects (n : Nat) :
    (Evaluator.withFuel Library.standard n).Respects StoresKept fun _ => True :=
  Transacts.withFuel_respects storesKept_transacts n

theorem handlesKept_respects (n : Nat) :
    (Evaluator.withFuel Library.standard n).Respects HandlesKept fun _ => True :=
  Transacts.withFuel_respects handlesKept_transacts n

/-- What the machine of a handle does without machines or stores to come or go, and without
others to notice. -/
structure OwnDoing (b : Nat) {α : Type} (x : Eval α) : Prop where
  handles : Keeps HandlesKept x
  stores : Keeps StoresKept x
  respected : ∀ a store, b ≠ a → Keeps (Respected a store) x

variable {n b : Nat} {services : Services}

theorem ownDoing_dispatch (event : Text) (payload : Value) : OwnDoing b
    (dispatch (Evaluator.withFuel Library.standard n) services b event payload) where
  handles := (handlesKept_transacts b).dispatch_keeps (handlesKept_respects n) event payload
  stores := (storesKept_transacts b).dispatch_keeps (storesKept_respects n) event payload
  respected _ store hb := respected_dispatch hb store n services event payload

theorem ownDoing_runDueTicks (now : Int) : OwnDoing b
    (runDueTicks (Evaluator.withFuel Library.standard n) services b now) where
  handles := runDueTicks_handles n services b now
  stores := (storesKept_transacts b).runDueTicks_keeps (storesKept_respects n)
    (MachineFrame.timed_of_update fun _ _ _ => rfl) now
  respected _ store hb := respected_runDueTicks hb store n services now

theorem ownDoing_runInitialEffects : OwnDoing b
    (runInitialEffects (Evaluator.withFuel Library.standard n) services b) where
  handles := runInitialEffects_handles n services b
  stores := (storesKept_transacts b).runInitialEffects_keeps (storesKept_respects n)
  respected _ store hb := respected_runInitialEffects hb store n services

end Machine

namespace Host

open Machine (OwnDoing)

variable {h : Host} {n definition : Nat} {given seed : Value} {w : World}

/-- What holds behind the pass of each machine holds behind those of several. -/
theorem visited_of_each {I : Host → Prop} {ev : Evaluator} {now : Int}
    (hstep : ∀ h b, I h → I (h.visited ev now [b])) (order : List Nat) (hh : I h) :
    I (h.visited ev now order) := by
  induction order generalizing h with
  | nil => exact hh
  | cons b rest ih =>
    rw [visited_cons]
    exact ih (hstep h b hh)

/-- There are no machines yet, nor anything that machines leave behind. -/
structure New (h : Host) : Prop where
  machines : h.world.machines = []
  closures : h.world.closures = #[]
  timers : h.world.timing.timers = []

/-- Nothing that there is gets at a machine to come, or at its store. -/
structure Orderly (h : Host) : Prop where
  older : ∀ b m, h.world.machine? b = some m → b < h.nextInstance
  shields : ∀ a store, h.nextInstance ≤ a → h.world.stores.size ≤ store → h.world.Shields a store

theorem New.orderly (hnew : h.New) : h.Orderly := by
  have hnone (b : Nat) (m : Instance) : h.world.machine? b ≠ some m := by
    unfold World.machine?
    rw [hnew.machines]
    exact nofun
  refine ⟨fun b m hm => absurd hm (hnone b m), fun a store _ _ =>
    ⟨fun b m _ hm => absurd hm (hnone b m), fun c hc => ?_, fun entry hentry => ?_⟩⟩
  · rw [hnew.closures] at hc
    exact absurd hc (Array.not_mem_empty c)
  · rw [hnew.timers] at hentry
    exact absurd hentry List.not_mem_nil

theorem Orderly.congr {h' : Host} (hh : h.Orderly) (hmachines : h'.world.machines = h.world.machines)
    (hstores : h'.world.stores = h.world.stores) (hclosures : h'.world.closures = h.world.closures)
    (htimers : h'.world.timing = h.world.timing) (hnext : h'.nextInstance = h.nextInstance) :
    h'.Orderly where
  older b m hm := by
    rw [hnext]
    exact hh.older b m ((World.machine?_congr hmachines b).symm.trans hm)
  shields a store ha hstore := by
    rw [hnext] at ha
    rw [hstores] at hstore
    exact (hh.shields a store ha hstore).congr hmachines hclosures fun _ h => htimers ▸ h

/-- A new machine has a store of its own. -/
theorem shields_joined {a : Nat} {store : StoreRef} (hh : h.world.Shields a store)
    (hnew : h.nextInstance ≠ a → h.world.stores.size ≠ store) (d : Definition)
    (config : Table Value) (seed : Value) (log : Log) :
    (h.joined d config seed log).world.Shields a store := by
  refine ⟨fun b m hb hm => ?_, hh.closures, hh.timers⟩
  rw [machine?_joined] at hm
  split at hm
  next heq =>
    cases hm
    exact hnew (heq ▸ hb)
  next => exact hh.machines b m hb hm

/-- Whatever leaves machines and stores to come out of reach. -/
theorem Orderly.after {α : Type} {x : Eval α} (hh : h.Orderly) (hhandles : Keeps Machine.HandlesKept x)
    (hstores : Keeps Machine.StoresKept x)
    (hrespected : ∀ a store, h.nextInstance ≤ a → Keeps (Respected a store) x) :
    Orderly { h with world := x.after h.world } where
  older b m hm := by
    have hlive : b ∈ h.world.handles := hhandles h.world ▸ World.mem_handles.mpr ⟨m, hm⟩
    obtain ⟨m', hm'⟩ := World.mem_handles.mp hlive
    exact hh.older b m' hm'
  shields a store ha hstore := by
    rw [hstores h.world] at hstore
    exact (hrespected a store ha h.world (hh.shields a store ha hstore)).shields

theorem Orderly.own {α : Type} {b : Nat} {x : Eval α} (hh : h.Orderly) (hx : OwnDoing b x)
    (hnone : h.world.machine? b = none → x.after h.world = h.world) :
    Orderly { h with world := x.after h.world } := by
  cases hm : h.world.machine? b with
  | none =>
    rw [hnone hm]
    exact hh
  | some m =>
    refine hh.after hx.handles hx.stores fun a store ha => hx.respected a store ?_
    exact ((hh.older b m hm).trans_le ha).ne

theorem Orderly.visited (hh : h.Orderly) (now : Int) (order : List Nat) :
    (h.visited (Evaluator.withFuel Library.standard n) now order).Orderly := by
  refine visited_of_each (fun h b hh => ?_) order hh
  rw [visited_singleton]
  exact hh.own (Machine.ownDoing_runDueTicks now) fun hm =>
    Eval.after_ok (Machine.withMachine_none hm _ _)

theorem Orderly.joined (hh : h.Orderly) (d : Definition) (config : Table Value) (seed : Value)
    (log : Log) : (h.joined d config seed log).Orderly where
  older b m hm := by
    show b < h.nextInstance + 1
    rw [machine?_joined] at hm
    split at hm
    next heq => exact heq ▸ Nat.lt_succ_self _
    next => exact (hh.older b m hm).trans (Nat.lt_succ_self _)
  shields a store ha hstore := by
    have hsize : h.world.stores.size < store := by
      have hpushed : (h.world.stores.push (.map (Machine.initialData d seed))).size ≤ store := hstore
      rwa [Array.size_push] at hpushed
    exact shields_joined (hh.shields a store (Nat.le_of_succ_le ha) hsize.le) (fun _ => hsize.ne)
      d config seed log

/-- Whatever is done to it, a host stays orderly. -/
theorem Orderly.step {move : Move} {h' : Host} (hh : h.Orderly)
    (hstep : Stepped (Evaluator.withFuel Library.standard n) h move h') : h'.Orderly := by
  cases hstep with
  | refused => exact hh
  | joins log =>
    exact (hh.joined _ _ _ log).own Machine.ownDoing_runInitialEffects fun hm =>
      Eval.after_ok (Machine.withMachine_none hm _ _)
  | leaves b =>
    refine ⟨fun b m hm => hh.older b m (World.machine?_of_filter rfl hm),
      fun a store ha hstore => ?_⟩
    have hshields := hh.shields a store ha hstore
    exact ⟨fun b m hb hm => hshields.machines b m hb (World.machine?_of_filter rfl hm),
      hshields.closures, hshields.timers⟩
  | acts event payload present =>
    exact hh.own (Machine.ownDoing_dispatch event payload) fun hnone =>
      absurd (hnone.symm.trans present) (Option.some_ne_none _).symm
  | passes now order => exact hh.visited now order
  | expires rounds =>
    exact hh.after (Timers.settle_keeps (Machine.handlesKept_respects n) _)
      (Timers.settle_keeps (Machine.storesKept_respects n) _)
      fun a store _ => Timers.respected_settle a store n _
  | installs | sets | replies => exact hh.congr rfl rfl rfl rfl rfl

/-- By induction over the moves. -/
theorem Orderly.run (hh : h.Orderly) (moves : List Move) :
    (h.run (Evaluator.withFuel Library.standard n) moves).Orderly := by
  induction moves generalizing h with
  | nil => exact hh
  | cons move rest ih => exact ih (hh.step (stepped _ h move))

/-- The machine stays there, and the surrounding program does not fail. -/
def Move.Spares (a : Nat) : Move → Prop
  | .destroy handle => handle ≠ a
  | .reply respond => ∀ calls, ∃ v, respond calls = .ok v
  | .create _ _ _ | .dispatch _ _ _ | .runDueTicks _ | .install _ _ _ | .setClock _ | .expire _ => True

/-- A machine with a property lives in a host, out of reach of all others. -/
structure Harbors (m : Instance) (P : Definition → Text → Value → Prop) (limit : Nat) (h : Host) :
    Prop where
  stands : ∃ s, (Actor.mk m h.services True).Rests P s ∧
    (Actor.mk m h.services True).Stands s h.world
  shields : h.world.Shields m.handle m.store
  older : m.handle < h.nextInstance
  limit : h.services.maxQueued = limit

section harbors

variable {m : Instance} {P : Definition → Text → Value → Prop} {limit : Nat}

theorem Harbors.calm (hh : h.Harbors m P limit) : h.world.Calm := by
  obtain ⟨s, -, hw⟩ := hh.stands
  exact hw.calm trivial

/-- What the machine does by itself. -/
theorem Harbors.own {α : Type} {x : Eval α} (hh : h.Harbors m P limit)
    (hx : ∀ s, (Actor.mk m h.services True).Rests P s → (Actor.mk m h.services True).Does x s
      (fun _ s' => (Actor.mk m h.services True).Rests P s' ∧ s'.timers = s.timers)
      fun s' => (Actor.mk m h.services True).Rests P s' ∧ s'.timers = s.timers) :
    Harbors m P limit { h with world := x.after h.world } := by
  obtain ⟨s, hs, hw⟩ := hh.stands
  obtain ⟨s', hlater, helsewhere, hs', htimers⟩ := (hx s hs h.world hw).after
  refine ⟨⟨s', hs', hlater⟩, ⟨fun b m' hb hm' => ?_, fun c hc => ?_, ?_⟩, hh.older, hh.limit⟩
  · exact hh.shields.machines b m' hb ((helsewhere.machines b hb).symm.trans hm')
  · exact (helsewhere.closures c hc).elim (hh.shields.closures c) .inl
  · have hsame : (x.after h.world).timing.timers = h.world.timing.timers :=
      hlater.timers.trans (htimers.trans hw.timers.symm)
    rw [hsame]
    exact hh.shields.timers

/-- What leaves the machine and its data as they are. -/
theorem Harbors.aside {h' : Host} (hh : h.Harbors m P limit)
    (hmachine : h'.world.machine? m.handle = h.world.machine? m.handle)
    (hdata : h'.world.stores[m.store]? = h.world.stores[m.store]?) (hcalm : h'.world.Calm)
    (hshields : h'.world.Shields m.handle m.store)
    (hlimit : h'.services.maxQueued = h.services.maxQueued)
    (hnext : h.nextInstance ≤ h'.nextInstance) : h'.Harbors m P limit := by
  obtain ⟨s, hs, hw⟩ := hh.stands
  obtain ⟨stats, lastRun, hm⟩ := hw.machine
  exact ⟨⟨{ s with timers := h'.world.timing.timers }, ⟨hs.busy, hs.queue, hs.property⟩,
    ⟨⟨stats, lastRun, hmachine.trans hm⟩, hdata.trans hw.data, rfl, fun _ => hcalm⟩⟩, hshields,
    hh.older.trans_le hnext, hlimit.trans hh.limit⟩

theorem Harbors.respected {α : Type} {x : Eval α} (hh : h.Harbors m P limit)
    (hx : Keeps (Respected m.handle m.store) x) :
    Harbors m P limit { h with world := x.after h.world } := by
  have hspared := hx h.world hh.shields
  refine hh.aside hspared.machine hspared.data ?_ hspared.shields rfl le_rfl
  unfold World.Calm
  rw [hspared.respond]
  exact hh.calm

theorem Harbors.store_lt (hh : h.Harbors m P limit) : m.store < h.world.stores.size := by
  obtain ⟨s, -, hw⟩ := hh.stands
  exact (Array.getElem?_eq_some_iff.mp hw.data).1

theorem Harbors.joined (hh : h.Harbors m P limit) (d : Definition) (config : Table Value)
    (seed : Value) (log : Log) : (h.joined d config seed log).Harbors m P limit := by
  have hstore := hh.store_lt
  refine hh.aside ?_ ?_ hh.calm
    (shields_joined hh.shields (fun _ => hstore.ne') d config seed log) rfl (Nat.le_succ _)
  · rw [machine?_joined, if_neg hh.older.ne]
  · show (h.world.stores.push _)[m.store]? = _
    rw [Array.getElem?_push_lt hstore, Array.getElem?_eq_getElem hstore]

/-- A machine that keeps a property by itself keeps it whatever is done to its host. -/
theorem Harbors.step {move : Move} {h' : Host} (hh : h.Harbors m P limit)
    (hP : ∀ services, services.maxQueued = limit → (Actor.mk m services True).Endures n P)
    (hmove : move.Spares m.handle)
    (hstep : Stepped (Evaluator.withFuel Library.standard n) h move h') :
    h'.Harbors m P limit := by
  cases hstep with
  | refused => exact hh
  | joins log =>
    exact (hh.joined _ _ _ log).respected
      (Machine.respected_runInitialEffects hh.older.ne' m.store n h.services)
  | leaves b =>
    refine hh.aside ?_ rfl hh.calm ⟨fun b m' hb hm' => ?_, hh.shields.closures, hh.shields.timers⟩
      rfl le_rfl
    · rw [World.machine?_filter rfl, if_neg fun hsame => hmove hsame.symm]
    · exact hh.shields.machines b m' hb (World.machine?_of_filter rfl hm')
  | @acts b _ event payload =>
    by_cases hb : b = m.handle
    · subst hb
      exact hh.own fun s hs => (hP h.services hh.limit).dispatch s hs event payload
    · exact hh.respected (Machine.respected_dispatch hb m.store n h.services event payload)
  | passes now order =>
    refine visited_of_each (fun h b hh => ?_) order hh
    rw [visited_singleton]
    by_cases hb : b = m.handle
    · subst hb
      exact hh.own fun s hs => (hP h.services hh.limit).runDueTicks s hs now
    · exact hh.respected (Machine.respected_runDueTicks hb m.store n h.services now)
  | expires rounds => exact hh.respected (Timers.respected_settle m.handle m.store n _)
  | installs | sets =>
    exact hh.aside rfl rfl hh.calm (hh.shields.congr rfl rfl fun _ => id) rfl le_rfl
  | replies => exact hh.aside rfl rfl hmove (hh.shields.congr rfl rfl fun _ => id) rfl le_rfl

/-- By induction over the moves. -/
theorem Harbors.run (hh : h.Harbors m P limit)
    (hP : ∀ services, services.maxQueued = limit → (Actor.mk m services True).Endures n P)
    {moves : List Move} (hmoves : ∀ move ∈ moves, move.Spares m.handle) :
    (h.run (Evaluator.withFuel Library.standard n) moves).Harbors m P limit := by
  induction moves generalizing h with
  | nil => exact hh
  | cons move rest ih =>
    rw [List.forall_mem_cons] at hmoves
    exact ih (hh.step hP hmoves.1 (stepped _ h move)) hmoves.2

/-- A new machine in an orderly host is out of reach of all that is there. -/
theorem Orderly.harbors (hh : h.Orderly) (hcalm : h.world.Calm) {h₁ : Host} {a : Nat}
    {d : Definition} {ev : Evaluator} (hd : h.definitions.lookup definition = some d)
    (hinitial : d.initialEffects = []) (hP : P d d.initial (.map (Machine.initialData d seed)))
    (hcreate : create ev definition given seed h = .ok a h₁) :
    ∃ config store now, d.configure given = .ok config ∧
      h₁.Harbors (Machine.fresh a d (.map config) store now) P h.services.maxQueued := by
  obtain ⟨config, log, hconfig, rfl, rfl⟩ := create_joined hd hinitial hcreate
  refine ⟨config, h.world.stores.size, h.world.clock, hconfig, ?_, ?_, Nat.lt_succ_self _, rfl⟩
  · refine ⟨_, ?_, joined_stands h d config seed log fun _ => hcalm⟩
    exact ⟨rfl, rfl, hP⟩
  · exact shields_joined (hh.shields h.nextInstance h.world.stores.size le_rfl le_rfl)
      (fun hne => absurd rfl hne) d config seed log

end harbors

end Host
end EntityMachines
