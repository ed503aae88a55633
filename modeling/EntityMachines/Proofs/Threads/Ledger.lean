import EntityMachines.Proofs.Threads.Locks

/-!
The books of threads that share a machine. Every event that a thread has called with, and every
declared event that was emitted, is either processed or lost, or waits still: in the queue, or with
a thread that is going to begin a transaction with it.
-/
namespace EntityMachines

/-- The event that gets a transaction of its own. -/
def Deed.dispatched? : Deed → Option Occurrence
  | emitted o .dispatched => some o
  | _ => none

theorem pick_singleton (kind : Deed → Option Occurrence) (entry : Services × Deed) :
    pick kind [entry] = (kind entry.2).toList := by
  cases h : kind entry.2 with
  | none => exact pick_cons_none h
  | some o => exact pick_cons_some h

namespace Threads

/-- All that has been done, in whatever transaction. -/
def done (s : Threads) : List (Services × Deed) := s.deeds.map Prod.snd

/-- The events with which threads are going to begin transactions. -/
def carried (s : Threads) : List Occurrence := s.phases.flatMap Phase.carried

/-- Nothing that has been called for or emitted goes astray. -/
structure Ledger (s : Threads) : Prop where
  once : (s.called ++ pick (Deed.declared? s.machine.definition) s.done).Perm
    (pick Deed.taken? s.done ++ pick Deed.refused? s.done ++ s.machine.pending ++ s.carried)
  /-- A declared event that is emitted is queued, or dispatched, or refused. -/
  routed : (pick (Deed.declared? s.machine.definition) s.done).Perm
    (pick Deed.queued? s.done ++ pick Deed.dispatched? s.done ++ pick Deed.refused? s.done)
  /-- An event that is dispatched begins a transaction, as one does that is called with. -/
  own : (s.called ++ pick Deed.dispatched? s.done).Perm
    (s.begun.flatMap Option.toList ++ s.carried)

variable {s s' : Threads} {i : Nat} {p : Phase}

theorem done_keep (s : Threads) (services : Services) (d : Deed) :
    (s.keep services d).done = s.done ++ [(services, d)] := by
  unfold done keep
  rw [List.map_append]
  rfl

/-- When a thread goes on, the event that it carries is the only one that changes. -/
theorem count_carried_set [BEq Occurrence] (h : s.phases[i]? = some p) (q : Phase)
    (o : Occurrence) :
    ((s.phases.set i q).flatMap Phase.carried).count o + p.carried.count o
      = s.carried.count o + q.carried.count o := by
  unfold carried
  rw [List.count_flatMap, List.count_flatMap]
  exact sum_set_phases h q (List.count o ∘ Phase.carried)

section Balance

variable [BEq Occurrence]

/-- The books of one event. -/
structure Balance (s : Threads) (o : Occurrence) : Prop where
  once : s.called.count o + (pick (Deed.declared? s.machine.definition) s.done).count o
    = (pick Deed.taken? s.done).count o + (pick Deed.refused? s.done).count o
      + s.machine.pending.count o + s.carried.count o
  routed : (pick (Deed.declared? s.machine.definition) s.done).count o
    = (pick Deed.queued? s.done).count o + (pick Deed.dispatched? s.done).count o
      + (pick Deed.refused? s.done).count o
  own : s.called.count o + (pick Deed.dispatched? s.done).count o
    = (s.begun.flatMap Option.toList).count o + s.carried.count o

namespace Balance

variable {o : Occurrence} {q : Phase}

/-- Threads that carry the same events and have done the same have the same books. -/
theorem same (hs : Balance s o) (hcalled : s'.called = s.called) (hdone : s'.done = s.done)
    (hbegun : s'.begun = s.begun) (hmachine : s'.machine.definition = s.machine.definition)
    (hpending : s'.machine.pending = s.machine.pending)
    (hcarried : s'.carried.count o = s.carried.count o) : Balance s' o := by
  constructor
  · rw [hcalled, hdone, hmachine, hpending, hcarried]
    exact hs.once
  · rw [hdone, hmachine]
    exact hs.routed
  · rw [hcalled, hdone, hbegun, hcarried]
    exact hs.own

theorem carried_eq (hphase : s.phases[i]? = some p) (hq : q.carried = p.carried) :
    ((s.phases.set i q).flatMap Phase.carried).count o = s.carried.count o := by
  have h := count_carried_set hphase q o
  rw [hq] at h
  omega

/-- One more deed is done. -/
theorem add (hs : Balance s o) {services : Services} {d : Deed} (hcalled : s'.called = s.called)
    (hdone : s'.done = s.done ++ [(services, d)])
    (hmachine : s'.machine.definition = s.machine.definition)
    (honce : (d.declared? s.machine.definition).toList.count o + s.machine.pending.count o
        + s.carried.count o
      = d.taken?.toList.count o + d.refused?.toList.count o + s'.machine.pending.count o
        + s'.carried.count o)
    (hrouted : (d.declared? s.machine.definition).toList.count o
      = d.queued?.toList.count o + d.dispatched?.toList.count o + d.refused?.toList.count o)
    (hown : d.dispatched?.toList.count o + (s.begun.flatMap Option.toList).count o
        + s.carried.count o
      = (s'.begun.flatMap Option.toList).count o + s'.carried.count o) : Balance s' o := by
  obtain ⟨h₁, h₂, h₃⟩ := hs
  constructor
  · rw [hcalled, hdone, hmachine]
    simp only [pick_append, pick_singleton, List.count_append]
    omega
  · rw [hdone, hmachine]
    simp only [pick_append, pick_singleton, List.count_append]
    omega
  · rw [hcalled, hdone]
    simp only [pick_append, pick_singleton, List.count_append]
    omega

theorem call (hs : Balance s o) {services : Services} {first : Option Occurrence}
    (hphase : s.phases[i]? = some .idle) :
    Balance ({ s with called := s.called ++ first.toList }.turn i (.waiting services first)) o := by
  have hcarried := count_carried_set hphase (.waiting services first) o
  obtain ⟨honce, hrouted, hown⟩ := hs
  constructor <;>
    simp [turn, done, carried, Phase.carried] at hcarried honce hrouted hown ⊢ <;>
    omega

theorem enter (hs : Balance s o) {services : Services} {first : Option Occurrence}
    (hphase : s.phases[i]? = some (.admitted services first)) :
    Balance ((s.enter services first).turn i (.working services services.maxQueued)) o := by
  have hcarried := count_carried_set hphase (.working services services.maxQueued) o
  cases first with
  | none =>
    obtain ⟨honce, hrouted, hown⟩ := hs
    constructor <;>
      simp [Threads.enter, turn, done, carried, Phase.carried, Instance.opened]
        at hcarried honce hrouted hown ⊢ <;>
      omega
  | some a =>
    refine hs.add rfl (done_keep _ services (.processed a)) rfl ?_ rfl ?_
    · simp [Threads.enter, turn, keep, carried, Phase.carried, Instance.opened, Deed.declared?,
        Deed.taken?, Deed.refused?] at hcarried ⊢
      omega
    · simp [Threads.enter, turn, keep, carried, Phase.carried, Deed.dispatched?] at hcarried ⊢
      omega

theorem emits (hs : Balance s o) {services : Services} {a : Occurrence}
    (hphase : s.phases[i]? = some p)
    (hmay : p = .idle ∨ ∃ services left, p = .working services left)
    (h : Emits s i services a s') : Balance s' o := by
  cases h with
  | undeclared h =>
    refine hs.add rfl (done_keep ..) rfl ?_ ?_ ?_ <;>
      simp [Deed.declared?, Deed.queued?, Deed.taken?, Deed.refused?, Deed.dispatched?, keep,
        carried, h]
  | queued h hbusy hroom =>
    refine hs.add rfl (done_keep ..) rfl ?_ ?_ ?_ <;>
      simp [Deed.declared?, Deed.queued?, Deed.taken?, Deed.refused?, Deed.dispatched?, keep,
        carried, h, Instance.enqueue]
    omega
  | refused h hbusy hfull =>
    refine hs.add rfl (done_keep ..) rfl ?_ ?_ ?_ <;>
      simp [Deed.declared?, Deed.queued?, Deed.taken?, Deed.refused?, Deed.dispatched?, keep,
        carried, h]
  | dispatched h hfree =>
    have hcarried := count_carried_set hphase (.waiting services (some a)) o
    have hp : p.carried = [] := by
      rcases hmay with rfl | ⟨services, left, rfl⟩ <;> rfl
    rw [hp] at hcarried
    refine hs.add rfl (done_keep ..) rfl ?_ ?_ ?_ <;>
      simp [Deed.declared?, Deed.queued?, Deed.taken?, Deed.refused?, Deed.dispatched?, keep, turn,
        carried, Phase.carried, h] at hcarried ⊢ <;>
      omega

theorem process (hs : Balance s o) {services : Services} {left : Nat} {a : Occurrence}
    {rest : List Occurrence} (hphase : s.phases[i]? = some (.draining services (left + 1)))
    (hfirst : s.machine.pending = a :: rest) :
    Balance (({ s with machine := { s.machine with pending := rest } }.keep services
      (.processed a)).turn i (.working services left)) o := by
  have hcarried := count_carried_set hphase (.working services left) o
  refine hs.add rfl (done_keep ..) rfl ?_ ?_ ?_ <;>
    simp [Deed.declared?, Deed.queued?, Deed.taken?, Deed.refused?, Deed.dispatched?, keep, turn,
      carried, Phase.carried, hfirst, List.count_cons] at hcarried ⊢ <;>
    omega

theorem drop (hs : Balance s o) {services : Services} {a : Occurrence} {rest : List Occurrence}
    (hfirst : s.machine.pending = a :: rest) :
    Balance ({ s with machine := { s.machine with pending := rest } }.keep services
      (.dropped a)) o := by
  refine hs.add rfl (done_keep ..) rfl ?_ ?_ ?_ <;>
    simp [Deed.declared?, Deed.queued?, Deed.taken?, Deed.refused?, Deed.dispatched?, keep,
      carried, hfirst, List.count_cons]
  omega

theorem step {move : Move} (hs : Balance s o) (hlocked : Locked s) (hmove : move ≠ .fail)
    (h : Step s i move s') : Balance s' o := by
  cases h with
  | call hphase => exact hs.call hphase
  | acquire hphase => exact hs.same rfl rfl rfl rfl rfl (carried_eq hphase rfl)
  | enter hphase => exact hs.enter hphase
  | emit hphase hmay hemits => exact hs.emits hphase hmay hemits
  | excuse =>
    refine hs.add rfl (done_keep ..) rfl ?_ ?_ ?_ <;>
      simp [Deed.declared?, Deed.queued?, Deed.taken?, Deed.refused?, Deed.dispatched?, keep,
        carried]
  | finish hphase => exact hs.same rfl rfl rfl rfl rfl (carried_eq hphase rfl)
  | fail => exact absurd rfl hmove
  | stop hphase hempty => exact hs.same rfl rfl rfl rfl rfl (carried_eq hphase rfl)
  | process hphase hfirst => exact hs.process hphase hfirst
  | drop _ hfirst => exact hs.drop hfirst
  | close hphase =>
    obtain ⟨-, hempty⟩ := hlocked.empty_of_inside hphase rfl rfl
    exact hs.same rfl rfl rfl rfl hempty.symm (carried_eq hphase rfl)
  | release hphase => exact hs.same rfl rfl rfl rfl rfl (carried_eq hphase rfl)

end Balance

end Balance

theorem ledger_iff [BEq Occurrence] [LawfulBEq Occurrence] :
    Ledger s ↔ ∀ o, Balance s o := by
  constructor
  · intro hs o
    obtain ⟨honce, hrouted, hown⟩ := hs
    rw [List.perm_iff_count] at honce hrouted hown
    have h₁ := honce o
    have h₂ := hrouted o
    have h₃ := hown o
    simp only [List.count_append] at h₁ h₂ h₃
    exact ⟨h₁, h₂, h₃⟩
  · intro hs
    constructor <;>
      rw [List.perm_iff_count] <;>
      intro o <;>
      simp only [List.count_append]
    · exact (hs o).once
    · exact (hs o).routed
    · exact (hs o).own

namespace Ledger

theorem start {m : Instance} (h : m.Idle) (count : Nat) : Ledger (start m count) := by
  have hcarried : (Threads.start m count).carried = [] := by
    simp [carried, Threads.start, Phase.carried]
  constructor
  · rw [hcarried, show (Threads.start m count).machine.pending = [] from h.pending]
    exact List.Perm.refl _
  · exact List.Perm.refl _
  · rw [hcarried]
    exact List.Perm.refl _

theorem step {move : Move} (hs : Ledger s) (hlocked : Locked s) (hmove : move ≠ .fail)
    (h : Step s i move s') : Ledger s' := by
  classical
  rw [ledger_iff] at hs ⊢
  intro o
  exact (hs o).step hlocked hmove h

end Ledger

end Threads
end EntityMachines
