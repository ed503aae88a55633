import EntityMachines.Proofs.Threads.Steps

/-!
What the two locks are for. A thread that is inside has the lock of the transactions, and no other
thread is; the machine takes events into its queue exactly while the thread inside looks at the
queue again, and when it does not its queue is empty.
-/
namespace EntityMachines
namespace Threads

variable {s s' : Threads} {i j : Nat} {p q : Phase}

structure Locked (s : Threads) : Prop where
  inside : ∀ j p, s.phases[j]? = some p → p.inside = true →
    s.holder = some j ∧ s.machine.busy = p.drains
  held : ∀ j, s.holder = some j → ∃ p, s.phases[j]? = some p ∧ p.inside = true
  free : s.holder = none → s.machine.busy = false
  empty : s.machine.busy = false → s.machine.pending = []

namespace Locked

theorem start {m : Instance} (h : m.Idle) (count : Nat) : Locked (start m count) where
  inside j p hj hp := by
    have hidle : p = .idle := (List.mem_replicate.mp (List.mem_of_getElem? hj)).2
    subst hidle
    cases hp
  held j hj := by cases hj
  free _ := h.busy
  empty _ := h.pending

/-- No thread changes its phase. -/
theorem same (hs : Locked s) (hphases : s'.phases = s.phases) (hholder : s'.holder = s.holder)
    (hbusy : s'.machine.busy = s.machine.busy)
    (hempty : s'.machine.busy = false → s'.machine.pending = []) : Locked s' where
  inside j p hj hp := by
    rw [hphases] at hj
    rw [hholder, hbusy]
    exact hs.inside j p hj hp
  held j hj := by
    rw [hholder] at hj
    rw [hphases]
    exact hs.held j hj
  free hnone := by
    rw [hholder] at hnone
    rw [hbusy]
    exact hs.free hnone
  empty := hempty

/-- A thread outside stays there. -/
theorem outside (hs : Locked s) (hphase : s.phases[i]? = some p) (hp : p.inside = false)
    (hq : q.inside = false) (hphases : s'.phases = s.phases.set i q)
    (hholder : s'.holder = s.holder) (hmachine : s'.machine = s.machine) : Locked s' where
  inside j r hj hr := by
    rw [hphases, getElem?_set_phases hphase] at hj
    rw [hholder, hmachine]
    split at hj
    next =>
      cases hj
      cases hq.symm.trans hr
    next => exact hs.inside j r hj hr
  held j hj := by
    rw [hholder] at hj
    obtain ⟨r, hr, hinside⟩ := hs.held j hj
    have hij : i ≠ j := by
      rintro rfl
      cases hphase.symm.trans hr
      cases hp.symm.trans hinside
    refine ⟨r, ?_, hinside⟩
    rw [hphases, getElem?_set_phases hphase, if_neg hij]
    exact hr
  free hnone := by
    rw [hholder] at hnone
    rw [hmachine]
    exact hs.free hnone
  empty := by
    rw [hmachine]
    exact hs.empty

/-- The thread inside goes on. -/
theorem own (hs : Locked s) (hphase : s.phases[i]? = some p) (hp : p.inside = true)
    (hq : q.inside = true) (hphases : s'.phases = s.phases.set i q)
    (hholder : s'.holder = s.holder) (hbusy : s'.machine.busy = q.drains)
    (hempty : s'.machine.busy = false → s'.machine.pending = []) : Locked s' := by
  obtain ⟨hi, -⟩ := hs.inside i p hphase hp
  constructor
  case inside =>
    intro j r hj hr
    rw [hphases, getElem?_set_phases hphase] at hj
    rw [hholder, hbusy]
    split at hj
    next hij =>
      cases hj
      exact ⟨hij ▸ hi, rfl⟩
    next hij =>
      obtain ⟨hother, -⟩ := hs.inside j r hj hr
      cases hi.symm.trans hother
      exact absurd rfl hij
  case held =>
    intro j hj
    rw [hholder] at hj
    cases hi.symm.trans hj
    exact ⟨q, by rw [hphases, getElem?_set_phases hphase, if_pos rfl], hq⟩
  case free =>
    intro hnone
    rw [hholder, hi] at hnone
    cases hnone
  case empty => exact hempty

theorem acquire (hs : Locked s) {services : Services} {first : Option Occurrence}
    (hphase : s.phases[i]? = some (.waiting services first)) (hfree : s.holder = none) :
    Locked ({ s with holder := some i }.turn i (.admitted services first)) where
  inside j r hj hr := by
    change (s.phases.set i (.admitted services first))[j]? = some r at hj
    rw [getElem?_set_phases hphase] at hj
    split at hj
    next hij =>
      cases hj
      exact ⟨congrArg some hij, hs.free hfree⟩
    next =>
      obtain ⟨hother, -⟩ := hs.inside j r hj hr
      cases hfree.symm.trans hother
  held j hj := by
    cases hj
    exact ⟨.admitted services first, (getElem?_set_phases hphase _ i).trans (if_pos rfl), rfl⟩
  free hnone := by cases hnone
  empty := hs.empty

theorem release (hs : Locked s) (hphase : s.phases[i]? = some .leaving) :
    Locked ({ s with holder := none }.turn i .idle) := by
  obtain ⟨hi, hbusy⟩ := hs.inside i .leaving hphase rfl
  constructor
  case inside =>
    intro j r hj hr
    change (s.phases.set i .idle)[j]? = some r at hj
    rw [getElem?_set_phases hphase] at hj
    split at hj
    next =>
      cases hj
      cases hr
    next hij =>
      obtain ⟨hother, -⟩ := hs.inside j r hj hr
      cases hi.symm.trans hother
      exact absurd rfl hij
  case held =>
    intro j hj
    cases hj
  case free =>
    intro _
    exact hbusy
  case empty => exact hs.empty

/-- A machine that is not busy when an event is emitted has no thread that works. -/
theorem idle_of_free (hs : Locked s) (hphase : s.phases[i]? = some p)
    (hmay : p = .idle ∨ ∃ services left, p = .working services left)
    (hfree : s.machine.busy = false) : p = .idle := by
  rcases hmay with rfl | ⟨services, left, rfl⟩
  · rfl
  · obtain ⟨-, hbusy⟩ := hs.inside i _ hphase rfl
    cases hfree.symm.trans hbusy

theorem emits (hs : Locked s) {services : Services} {o : Occurrence}
    (hphase : s.phases[i]? = some p)
    (hmay : p = .idle ∨ ∃ services left, p = .working services left)
    (h : Emits s i services o s') : Locked s' := by
  cases h with
  | undeclared => exact hs.same rfl rfl rfl hs.empty
  | refused => exact hs.same rfl rfl rfl hs.empty
  | queued _ hbusy =>
    refine hs.same rfl rfl rfl fun hfree => ?_
    cases hbusy.symm.trans hfree
  | dispatched _ hfree =>
    obtain rfl := hs.idle_of_free hphase hmay hfree
    exact hs.outside hphase rfl rfl rfl rfl rfl

theorem step {move : Move} (hs : Locked s) (hmove : move ≠ .fail) (h : Step s i move s') :
    Locked s' := by
  cases h with
  | call hphase => exact hs.outside hphase rfl rfl rfl rfl rfl
  | acquire hphase hfree => exact hs.acquire hphase hfree
  | @enter services first hphase =>
    cases first with
    | none => exact hs.own (q := .working services _) hphase rfl rfl rfl rfl rfl nofun
    | some o => exact hs.own (q := .working services _) hphase rfl rfl rfl rfl rfl nofun
  | emit hphase hmay hemits => exact hs.emits hphase hmay hemits
  | excuse => exact hs.same rfl rfl rfl hs.empty
  | finish hphase =>
    obtain ⟨-, hbusy⟩ := hs.inside i _ hphase rfl
    exact hs.own hphase rfl rfl rfl rfl hbusy hs.empty
  | fail => exact absurd rfl hmove
  | stop hphase hempty => exact hs.own hphase rfl rfl rfl rfl rfl fun _ => hempty
  | process hphase hfirst =>
    obtain ⟨-, hbusy⟩ := hs.inside i _ hphase rfl
    exact hs.own hphase rfl rfl rfl rfl hbusy fun h => by cases hbusy.symm.trans h
  | drop hphase hfirst =>
    obtain ⟨-, hbusy⟩ := hs.inside i _ hphase rfl
    exact hs.same rfl rfl rfl fun h => by cases hbusy.symm.trans h
  | close hphase =>
    obtain ⟨-, hbusy⟩ := hs.inside i _ hphase rfl
    exact hs.own hphase rfl rfl rfl rfl rfl fun _ => rfl
  | release hphase => exact hs.release hphase

/-- Guards and effects of the machine are evaluated in one thread at a time. -/
theorem alone (hs : Locked s) (hi : s.phases[i]? = some p) (hj : s.phases[j]? = some q)
    (hp : p.inside = true) (hq : q.inside = true) : i = j := by
  obtain ⟨hholder, -⟩ := hs.inside i p hi hp
  obtain ⟨hholder', -⟩ := hs.inside j q hj hq
  cases hholder.symm.trans hholder'
  rfl

/-- Nothing is left in the queue of a transaction whose thread does not look at it again, and
nothing comes into it. -/
theorem empty_of_inside (hs : Locked s) (hi : s.phases[i]? = some p) (hp : p.inside = true)
    (hstopped : p.drains = false) : s.machine.busy = false ∧ s.machine.pending = [] := by
  obtain ⟨-, hbusy⟩ := hs.inside i p hi hp
  rw [hstopped] at hbusy
  exact ⟨hbusy, hs.empty hbusy⟩

/-- An event waits only in the queue of a transaction whose thread looks at the queue again. -/
theorem drains_of_pending (hs : Locked s) (h : s.machine.pending ≠ []) :
    ∃ (i : Nat) (p : Phase), s.phases[i]? = some p ∧ p.drains = true := by
  have hbusy : s.machine.busy = true := by
    cases hb : s.machine.busy with
    | false => exact absurd (hs.empty hb) h
    | true => rfl
  cases hholder : s.holder with
  | none => cases hbusy.symm.trans (hs.free hholder)
  | some i =>
    obtain ⟨p, hphase, hinside⟩ := hs.held i hholder
    obtain ⟨-, hdrains⟩ := hs.inside i p hphase hinside
    exact ⟨i, p, hphase, hdrains.symm.trans hbusy⟩

end Locked

end Threads

/-!
Threads that are left alone come to rest. While one of them is not idle some thread can go on, and
each move brings them nearer to the end of their transactions.
-/

/-- The thread only goes on with what it has begun. -/
def Move.quiet : Move → Bool
  | acquire | enter | finish | next | close | release => true
  | _ => false

/-- How many moves a thread is away from the end of its transaction if no event waits. -/
def Phase.remaining : Phase → Nat
  | idle => 0
  | leaving => 1
  | closing => 2
  | draining _ _ => 3
  | working _ _ => 4
  | admitted _ _ => 5
  | waiting _ _ => 6

namespace Threads

variable {s s' : Threads} {i : Nat} {p q : Phase}

/-- An event that waits takes two moves. -/
def remaining (s : Threads) : Nat :=
  (s.phases.map Phase.remaining).sum + 2 * s.machine.pending.length

def AtRest (s : Threads) : Prop := ∀ p ∈ s.phases, p = .idle

theorem Locked.goes_on (hs : Locked s) (h : ¬s.AtRest) :
    ∃ i move, Move.quiet move = true ∧ (s.step (i, move)).isSome = true := by
  cases hholder : s.holder with
  | none =>
    -- Nobody has the lock, so that a thread that is not idle waits for it.
    simp only [AtRest, Classical.not_forall] at h
    obtain ⟨p, hp, hidle⟩ := h
    obtain ⟨i, hi⟩ := List.mem_iff_getElem?.mp hp
    cases p with
    | idle => exact absurd rfl hidle
    | waiting services first =>
      refine ⟨i, .acquire, rfl, ?_⟩
      rw [step_eq hi]
      simp [move, hholder]
    | _ =>
      obtain ⟨hheld, -⟩ := hs.inside i _ hi rfl
      cases hholder.symm.trans hheld
  | some i =>
    obtain ⟨p, hi, hinside⟩ := hs.held i hholder
    cases p with
    | idle => cases hinside
    | waiting => cases hinside
    | admitted => exact ⟨i, .enter, rfl, by rw [step_eq hi]; rfl⟩
    | working => exact ⟨i, .finish, rfl, by rw [step_eq hi]; rfl⟩
    | draining => exact ⟨i, .next, rfl, by rw [step_eq hi]; rfl⟩
    | closing => exact ⟨i, .close, rfl, by rw [step_eq hi]; rfl⟩
    | leaving => exact ⟨i, .release, rfl, by rw [step_eq hi]; rfl⟩

theorem remaining_lt_of (hphase : s.phases[i]? = some p) (hphases : s'.phases = s.phases.set i q)
    (h : 2 * s'.machine.pending.length + q.remaining
      < 2 * s.machine.pending.length + p.remaining) : s'.remaining < s.remaining := by
  have hsum := sum_set_phases hphase q Phase.remaining
  unfold remaining
  rw [hphases]
  omega

/-- A thread that goes on does so towards its end. -/
theorem remaining_lt {move : Move} (hquiet : move.quiet = true) (h : Step s i move s') :
    s'.remaining < s.remaining := by
  cases h with
  | call => cases hquiet
  | acquire hphase => exact remaining_lt_of hphase rfl (Nat.lt_succ_self _)
  | @enter services first hphase =>
    cases first with
    | none => exact remaining_lt_of hphase rfl (Nat.lt_succ_self _)
    | some o => exact remaining_lt_of hphase rfl (Nat.lt_succ_self _)
  | emit => cases hquiet
  | excuse => cases hquiet
  | finish hphase => exact remaining_lt_of hphase rfl (Nat.lt_succ_self _)
  | fail => cases hquiet
  | stop hphase => exact remaining_lt_of hphase rfl (Nat.lt_succ_self _)
  | @process services left o rest hphase hfirst =>
    refine remaining_lt_of (q := .working services left) hphase rfl ?_
    rw [hfirst]
    change 2 * rest.length + 4 < 2 * (rest.length + 1) + 3
    omega
  | @drop services o rest _ hfirst =>
    change (s.phases.map Phase.remaining).sum + 2 * rest.length < s.remaining
    unfold remaining
    rw [hfirst, List.length_cons]
    omega
  | close hphase =>
    refine remaining_lt_of (q := .leaving) hphase rfl ?_
    change 2 * 0 + 1 < 2 * s.machine.pending.length + 2
    omega
  | release hphase => exact remaining_lt_of hphase rfl (Nat.lt_succ_self _)

theorem length_add_remaining {moves : List (Nat × Move)}
    (hquiet : ∀ entry ∈ moves, entry.2.quiet = true) (h : s.run moves = some s') :
    moves.length + s'.remaining ≤ s.remaining := by
  induction moves generalizing s with
  | nil =>
    cases h
    simp
  | cons entry rest ih =>
    obtain ⟨s₁, hfirst, -, hrest⟩ := run_cons h
    have hlt := remaining_lt (hquiet entry List.mem_cons_self) hfirst
    have hle := ih (fun e he => hquiet e (List.mem_cons_of_mem entry he)) hrest
    rw [List.length_cons]
    omega

end Threads
end EntityMachines
