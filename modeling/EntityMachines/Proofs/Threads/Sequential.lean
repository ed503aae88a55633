import EntityMachines.Proofs.Machine.Worklist
import EntityMachines.Proofs.Threads.Ledger
import EntityMachines.Proofs.Threads.Locks

/-!
A machine that works alone is one of threads: a transaction that ends well and loses nothing is a
run of one thread, in which the same is done in the same order.
-/
namespace EntityMachines
namespace Threads

variable {s s' s'' : Threads} {i : Nat} {services : Services} {o : Occurrence}

/-- Moves that do not fail lead from one state to another. -/
def Goes (s s' : Threads) : Prop :=
  ∃ moves : List (Nat × Move), (∀ entry ∈ moves, entry.2 ≠ .fail) ∧ s.run moves = some s'

namespace Goes

theorem refl (s : Threads) : Goes s s := ⟨[], by simp, rfl⟩

theorem trans (h : Goes s s') (h' : Goes s' s'') : Goes s s'' := by
  obtain ⟨moves, hmoves, hrun⟩ := h
  obtain ⟨moves', hmoves', hrun'⟩ := h'
  refine ⟨moves ++ moves', List.forall_mem_append.mpr ⟨hmoves, hmoves'⟩, ?_⟩
  unfold run at hrun hrun' ⊢
  rw [List.foldlM_append, hrun]
  exact hrun'

theorem of_step {move : Move} (h : s.step (i, move) = some s') (hmove : move ≠ .fail) :
    Goes s s' := by
  refine ⟨[(i, move)], by simpa using hmove, ?_⟩
  unfold run
  rw [List.foldlM_cons, h]
  rfl

end Goes

/-- A thread that works for a transaction while nobody else does, and what has been done by then. -/
structure Works (s : Threads) (services : Services) (left : Nat) (q : List Occurrence)
    (deeds : List Deed) : Prop where
  busy : s.machine.busy = true
  phases : s.phases = [.working services left]
  pending : s.machine.pending = q
  done : s.done.map Prod.snd = deeds

namespace Works

variable {left : Nat} {q : List Occurrence} {deeds : List Deed}

theorem phase (hs : Works s services left q deeds) :
    s.phases[0]? = some (.working services left) := by
  rw [hs.phases]
  rfl

theorem keep (hs : Works s services left q deeds) (services' : Services) (d : Deed) :
    Works (s.keep services' d) services left q (deeds ++ [d]) where
  busy := hs.busy
  phases := hs.phases
  pending := hs.pending
  done := by rw [done_keep, List.map_append, hs.done]; rfl

theorem enqueue (hs : Works s services left q deeds) (o : Occurrence) :
    Works { s with machine := s.machine.enqueue o } services left (q ++ [o]) deeds where
  busy := hs.busy
  phases := hs.phases
  pending := by rw [← hs.pending]; rfl
  done := hs.done

/-- The thread looks at the queue and takes the first event. -/
theorem next (hs : Works s services (left + 1) (o :: q) deeds) :
    ∃ s', Goes s s' ∧ Works s' services left q (deeds ++ [.processed o]) ∧
      s'.machine.definition = s.machine.definition := by
  obtain ⟨machine, phases, holder, called, begun, all⟩ := s
  obtain ⟨hbusy, hphases, hpending, rfl⟩ := hs
  cases machine
  dsimp only at hbusy hphases hpending
  subst hbusy hphases hpending
  refine ⟨_, ⟨[(0, .finish), (0, .next)], by simp, rfl⟩, ⟨rfl, rfl, rfl, ?_⟩, rfl⟩
  change ((all ++ [(_, services, Deed.processed o)]).map Prod.snd).map Prod.snd = _
  rw [List.map_append, List.map_append]
  rfl

/-- The thread finds the queue empty and ends its transaction. -/
theorem ends (hs : Works s services left [] deeds) :
    ∃ s', Goes s s' ∧ s'.AtRest ∧ s'.done.map Prod.snd = deeds := by
  obtain ⟨machine, phases, holder, called, begun, all⟩ := s
  obtain ⟨hbusy, hphases, hpending, rfl⟩ := hs
  cases machine
  dsimp only at hbusy hphases hpending
  subst hbusy hphases hpending
  have hrest : ∀ p ∈ [Phase.idle], p = .idle := by simp
  exact ⟨_, ⟨[(0, .finish), (0, .next), (0, .close), (0, .release)], by simp, rfl⟩, hrest, rfl⟩

end Works

/-- The deeds of a thread that works, by induction on what its queue takes. -/
theorem goes_of_worklist {d : Definition} {q q' : List Occurrence} {ds : List (Services × Deed)}
    (h : Worklist d q ds q') {left : Nat} {deeds : List Deed}
    (hs : Works s services left q deeds) (hdefinition : s.machine.definition = d)
    (hleft : (pick Deed.processed? ds).length ≤ left) (hlost : pick Deed.lost? ds = []) :
    ∃ s' left', Goes s s' ∧ Works s' services left' q' (deeds ++ ds.map Prod.snd) := by
  induction h generalizing s left deeds with
  | done q =>
    rw [List.map_nil, List.append_nil]
    exact ⟨s, left, .refl s, hs⟩
  | @undeclared q q' services' o ds h rest ih =>
    rw [pick_cons_none rfl] at hleft hlost
    have hstep : s.step (0, .emit services' o)
        = some (s.keep services' (.emitted o .undeclared)) := by
      rw [step_eq hs.phase, move, emit_undeclared]
      simp [Instance.fate, hdefinition, h]
    obtain ⟨s', left', hgoes, hworks⟩ := ih (hs.keep services' _) hdefinition hleft hlost
    rw [List.append_assoc] at hworks
    exact ⟨s', left', (Goes.of_step hstep (by simp)).trans hgoes, hworks⟩
  | @queued q q' services' o ds h hroom rest ih =>
    rw [pick_cons_none rfl] at hleft hlost
    have hstep : s.step (0, .emit services' o) = some
        { s.keep services' (.emitted o .queued) with machine := s.machine.enqueue o } := by
      have hfull : ¬services'.maxQueued ≤ s.machine.pending.length := by
        rw [hs.pending]
        omega
      rw [step_eq hs.phase, move, emit_queued]
      simp [Instance.fate, hdefinition, h, hs.busy, hfull]
    obtain ⟨s', left', hgoes, hworks⟩ :=
      ih ((hs.keep services' _).enqueue o) hdefinition hleft hlost
    rw [List.append_assoc] at hworks
    exact ⟨s', left', (Goes.of_step hstep (by simp)).trans hgoes, hworks⟩
  | refused h hfull rest ih =>
    rw [pick_cons_some rfl] at hlost
    cases hlost
  | @guardFailed q q' services' place e ds rest ih =>
    rw [pick_cons_none rfl] at hleft hlost
    have hstep : s.step (0, .excuse place e) = some (s.keep services (.guardFailed place e)) := by
      rw [step_eq hs.phase]
      rfl
    obtain ⟨s', left', hgoes, hworks⟩ := ih (hs.keep services _) hdefinition hleft hlost
    rw [List.append_assoc] at hworks
    exact ⟨s', left', (Goes.of_step hstep (by simp)).trans hgoes, hworks⟩
  | @processed q q' services' o ds rest ih =>
    rw [pick_cons_some rfl] at hleft
    rw [pick_cons_none rfl] at hlost
    cases left with
    | zero => cases hleft
    | succ left =>
      obtain ⟨s₁, hfirst, hs₁, hdefinition₁⟩ := hs.next
      obtain ⟨s', left', hgoes, hworks⟩ :=
        ih hs₁ (hdefinition₁.trans hdefinition) (Nat.le_of_succ_le_succ hleft) hlost
      rw [List.append_assoc] at hworks
      exact ⟨s', left', hfirst.trans hgoes, hworks⟩
  | dropped rest ih =>
    rw [pick_cons_some rfl] at hlost
    cases hlost

/-- A thread that is alone begins a transaction. -/
theorem start_works {m : Instance} (h : m.Idle) (services : Services)
    (first : Option Occurrence) :
    ∃ s, Goes (start m 1) s ∧
      Works s services services.maxQueued [] (first.toList.map Deed.processed) ∧
      s.machine.definition = m.definition := by
  cases first with
  | none =>
    exact ⟨_, ⟨[(0, .call services none), (0, .acquire), (0, .enter)], by simp, rfl⟩,
      ⟨rfl, rfl, h.pending, rfl⟩, rfl⟩
  | some o =>
    exact ⟨_, ⟨[(0, .call services (some o)), (0, .acquire), (0, .enter)], by simp, rfl⟩,
      ⟨rfl, rfl, h.pending, rfl⟩, rfl⟩

/-- What a machine has done for a transaction is what a thread does that is alone with it. -/
def Alone (m : Instance) (before after : World) : Prop :=
  pick Deed.lost? (after.deedsSince before m.handle) = [] →
    ∃ s, Goes (start m 1) s ∧ s.AtRest ∧
      s.done.map Prod.snd = (after.deedsSince before m.handle).map Prod.snd

theorem alone_of_worked {m : Instance} (first : Option Occurrence) {before after : World}
    (hidle : m.Idle) (h : Machine.Worked m services first.toList before after) :
    Alone m before after := by
  intro hlost
  obtain ⟨ds, hdeeds, hworklist⟩ := h.worklist
  have hbounded := h.bounded
  rw [hdeeds, pick_append, pick_map_processed, List.length_append] at hbounded
  rw [hdeeds, pick_append] at hlost
  obtain ⟨s₁, hgoes₁, hworks₁, hdefinition⟩ := start_works hidle services first
  obtain ⟨s₂, left, hgoes₂, hworks₂⟩ := goes_of_worklist hworklist hworks₁ hdefinition
    (by omega) (List.append_eq_nil_iff.mp hlost).2
  obtain ⟨s₃, hgoes₃, hrest, hdone⟩ := hworks₂.ends
  refine ⟨s₃, (hgoes₁.trans hgoes₂).trans hgoes₃, hrest, ?_⟩
  rw [hdone, hdeeds, List.map_append, List.map_map]
  rfl

/-- Dispatches, passes of ticks and initial effects are runs of a thread. -/
theorem transaction_alone (fuel : Nat) (services : Services) {w : World} {m : Instance}
    (hm : w.machine? m.handle = some m) (hidle : m.Idle) :
    let ev := Evaluator.withFuel Library.standard fuel
    (∀ event payload r after,
      Machine.dispatch ev services m.handle event payload w = .ok r after → Alone m w after) ∧
    (∀ now ran after,
      Machine.runDueTicks ev services m.handle now w = .ok ran after → Alone m w after) ∧
    ∀ after, Machine.runInitialEffects ev services m.handle w = .ok () after →
      Alone m w after := by
  intro ev
  have hsteady := Machine.steady_withFuel m.handle fuel
  have hacc := Machine.Transacts.withFuel_respects Machine.accounted_transacts fuel
  constructor
  · intro event payload r after h
    exact alone_of_worked (some ⟨event, payload⟩) hidle
      (Machine.dispatch_worked hsteady hacc hm hidle h)
  · constructor
    · intro now ran after h
      exact alone_of_worked none hidle (Machine.runDueTicks_worked hsteady hacc hm hidle h)
    · intro after h
      exact alone_of_worked none hidle
        (Machine.runInitialEffects_worked hsteady hacc hm hidle h)

end Threads
end EntityMachines
