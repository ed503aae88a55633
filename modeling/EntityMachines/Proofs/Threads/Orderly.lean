import EntityMachines.Machine.Creation
import EntityMachines.Proofs.Threads.Ledger
import EntityMachines.Proofs.Threads.Locks
import Mathlib.Data.List.Basic

/-!
The transactions of threads that share a machine, one by one. Each of them processes the event with
which it begins and then those that come into its queue, first in, first out; what a transaction
leaves waiting is never left to another one.
-/
namespace EntityMachines
namespace Threads

variable {s s' : Threads} {i n : Nat} {p : Phase}

/-- What has been done during a transaction. -/
def round (s : Threads) (n : Nat) : List (Services × Deed) :=
  s.deeds.filterMap fun entry => if entry.1 = some n then some entry.2 else none

/-- The events that wait in the queue of a transaction. -/
def waiting (s : Threads) (n : Nat) : List Occurrence :=
  if s.current = some n then s.machine.pending else []

structure Rounds (s : Threads) : Prop where
  busy : s.machine.busy = true → 0 < s.begun.length
  numbered : ∀ entry ∈ s.deeds, ∀ n, entry.1 = some n → 0 < n ∧ n ≤ s.begun.length
  /-- Events come into the queue of a transaction only. -/
  queued : ∀ entry ∈ s.deeds, ∀ o, entry.2.2.queued? = some o → entry.1 ≠ none
  fifo : ∀ k first, s.begun[k]? = some first →
    first.toList ++ pick Deed.queued? (s.round (k + 1))
      = pick Deed.taken? (s.round (k + 1)) ++ s.waiting (k + 1)

theorem mem_done_of_mem_round {entry : Services × Deed} (h : entry ∈ s.round n) :
    entry ∈ s.done := by
  obtain ⟨numbered, hmem, hsome⟩ := List.mem_filterMap.mp h
  split at hsome
  next =>
    cases hsome
    exact List.mem_map_of_mem hmem
  next => cases hsome

theorem current_busy (h : s.machine.busy = true) : s.current = some s.begun.length := if_pos h

theorem current_free (h : s.machine.busy = false) : s.current = none := by
  unfold current
  rw [h]
  rfl

theorem waiting_free (h : s.machine.busy = false) (n : Nat) : s.waiting n = [] := by
  unfold waiting
  rw [current_free h]
  rfl

theorem waiting_nil (h : s.machine.pending = []) (n : Nat) : s.waiting n = [] := by
  unfold waiting
  rw [h, ite_self]

theorem round_append {entry : Option Nat × Services × Deed}
    (h : s'.deeds = s.deeds ++ [entry]) (n : Nat) :
    s'.round n = s.round n ++ if entry.1 = some n then [entry.2] else [] := by
  unfold round
  rw [h, List.filterMap_append]
  split
  next hn => simp [hn]
  next hn => simp [hn]

section enter

variable (s) (services : Services) (first : Option Occurrence)

theorem enter_begun : (s.enter services first).begun = s.begun ++ [first] := by
  cases first <;> rfl

theorem enter_deeds :
    (s.enter services first).deeds = s.deeds
      ++ first.toList.map fun o => (some (s.begun.length + 1), services, .processed o) := by
  cases first with
  | none => exact (List.append_nil _).symm
  | some o => simp [enter, keep, current, Instance.opened]

theorem round_enter (n : Nat) :
    (s.enter services first).round n = s.round n
      ++ if n = s.begun.length + 1 then first.toList.map fun o => (services, .processed o)
        else [] := by
  unfold round
  rw [enter_deeds, List.filterMap_append]
  by_cases hn : n = s.begun.length + 1
  · cases first <;> simp [hn]
  · have hother : ¬s.begun.length + 1 = n := by omega
    cases first <;> simp [hn, hother]

end enter

namespace Rounds

theorem start {m : Instance} (h : m.Idle) (count : Nat) : Rounds (start m count) where
  busy hbusy := by cases h.busy.symm.trans hbusy
  numbered entry he := by cases he
  queued entry he := by cases he
  fifo k first hk := by cases hk

/-- Nothing is done, and nothing comes into the queue or leaves it. -/
theorem same (hs : Rounds s) (hdeeds : s'.deeds = s.deeds) (hbegun : s'.begun = s.begun)
    (hbusy : s'.machine.busy = true → s.machine.busy = true)
    (hwaiting : ∀ n, s'.waiting n = s.waiting n) : Rounds s' where
  busy h := by
    rw [hbegun]
    exact hs.busy (hbusy h)
  numbered := by
    rw [hdeeds, hbegun]
    exact hs.numbered
  queued := by
    rw [hdeeds]
    exact hs.queued
  fifo k first hk := by
    have hround : s'.round (k + 1) = s.round (k + 1) := by
      unfold round
      rw [hdeeds]
    rw [hbegun] at hk
    rw [hround, hwaiting]
    exact hs.fifo k first hk

/-- One more deed is done in the transaction that runs, if one does. -/
theorem add (hs : Rounds s) {services : Services} {d : Deed}
    (hdeeds : s'.deeds = s.deeds ++ [(s.current, services, d)]) (hbegun : s'.begun = s.begun)
    (hbusy : s'.machine.busy = s.machine.busy)
    (hqueued : ∀ o, d.queued? = some o → s.machine.busy = true)
    (hflow : s.machine.pending ++ d.queued?.toList = d.taken?.toList ++ s'.machine.pending) :
    Rounds s' := by
  have hcurrent : s'.current = s.current := by
    unfold current
    rw [hbusy, hbegun]
  constructor
  case busy =>
    rw [hbusy, hbegun]
    exact hs.busy
  case numbered =>
    rw [hdeeds, hbegun]
    intro entry he n hn
    rcases List.mem_append.mp he with hold | hnew
    · exact hs.numbered entry hold n hn
    · obtain rfl := List.mem_singleton.mp hnew
      cases hb : s.machine.busy with
      | false => cases (current_free hb).symm.trans hn
      | true =>
        cases (current_busy hb).symm.trans hn
        exact ⟨hs.busy hb, Nat.le_refl _⟩
  case queued =>
    rw [hdeeds]
    intro entry he o ho
    rcases List.mem_append.mp he with hold | hnew
    · exact hs.queued entry hold o ho
    · obtain rfl := List.mem_singleton.mp hnew
      have hsome : s.current ≠ none := by
        rw [current_busy (hqueued o ho)]
        exact Option.some_ne_none _
      exact hsome
  case fifo =>
    intro k first hk
    rw [hbegun] at hk
    have hfifo := hs.fifo k first hk
    rw [round_append hdeeds]
    unfold waiting at hfifo ⊢
    rw [hcurrent]
    split
    next hn =>
      rw [if_pos hn] at hfifo
      rw [pick_append, pick_append, pick_singleton, pick_singleton, ← List.append_assoc, hfifo,
        List.append_assoc, List.append_assoc, hflow]
    next hn =>
      rw [if_neg hn] at hfifo
      rw [List.append_nil]
      exact hfifo

/-- The next transaction has not done anything. -/
theorem round_next (hs : Rounds s) : s.round (s.begun.length + 1) = [] := by
  refine List.filterMap_eq_nil_iff.mpr fun entry he => if_neg fun hn => ?_
  obtain ⟨-, hle⟩ := hs.numbered entry he _ hn
  omega

/-- A transaction that begins has a number of its own, and nothing has come into its queue. -/
theorem enter (hs : Rounds s) (services : Services) (first : Option Occurrence)
    (hfree : s.machine.busy = false) (hempty : s.machine.pending = []) :
    Rounds (s.enter services first) := by
  have hlength : (s.enter services first).begun.length = s.begun.length + 1 := by
    rw [enter_begun, List.length_append, List.length_singleton]
  have hwaiting (n : Nat) : (s.enter services first).waiting n = [] := by
    refine waiting_nil ?_ n
    cases first <;> exact hempty
  constructor
  case busy =>
    intro _
    omega
  case numbered =>
    rw [enter_deeds, hlength]
    intro entry he n hn
    rcases List.mem_append.mp he with hold | hnew
    · obtain ⟨hpos, hle⟩ := hs.numbered entry hold n hn
      omega
    · obtain ⟨o, -, rfl⟩ := List.mem_map.mp hnew
      cases hn
      omega
  case queued =>
    rw [enter_deeds]
    intro entry he o ho
    rcases List.mem_append.mp he with hold | hnew
    · exact hs.queued entry hold o ho
    · obtain ⟨o', -, rfl⟩ := List.mem_map.mp hnew
      cases ho
  case fifo =>
    intro k first' hk
    rw [round_enter, hwaiting, List.append_nil]
    rw [enter_begun] at hk
    by_cases hlt : k < s.begun.length
    · rw [List.getElem?_append_left hlt] at hk
      have hfifo := hs.fifo k first' hk
      rw [waiting_free hfree, List.append_nil] at hfifo
      rw [if_neg (by omega), List.append_nil]
      exact hfifo
    · have hlast : k = s.begun.length := by
        have h := (List.getElem?_eq_some_iff.mp hk).1
        rw [List.length_append, List.length_singleton] at h
        omega
      subst hlast
      cases (List.getElem?_concat_length).symm.trans hk
      rw [hs.round_next, if_pos rfl, List.nil_append]
      cases first <;> rfl

theorem emits (hs : Rounds s) {services : Services} {o : Occurrence}
    (h : Emits s i services o s') : Rounds s' := by
  cases h with
  | undeclared => exact hs.add rfl rfl rfl nofun (List.append_nil _)
  | queued _ hbusy => exact hs.add rfl rfl rfl (fun _ _ => hbusy) rfl
  | refused => exact hs.add rfl rfl rfl nofun (List.append_nil _)
  | dispatched => exact hs.add rfl rfl rfl nofun (List.append_nil _)

theorem step {move : Move} (hs : Rounds s) (hlocked : Locked s) (hmove : move ≠ .fail)
    (h : Step s i move s') : Rounds s' := by
  cases h with
  | call => exact hs.same rfl rfl id fun _ => rfl
  | acquire => exact hs.same rfl rfl id fun _ => rfl
  | enter hphase =>
    obtain ⟨hfree, hempty⟩ := hlocked.empty_of_inside hphase rfl rfl
    exact (hs.enter _ _ hfree hempty).same rfl rfl id fun _ => rfl
  | emit _ _ hemits => exact hs.emits hemits
  | excuse => exact hs.add rfl rfl rfl nofun (List.append_nil _)
  | finish => exact hs.same rfl rfl id fun _ => rfl
  | fail => exact absurd rfl hmove
  | stop _ hempty =>
    exact hs.same rfl rfl nofun fun n => (waiting_free rfl n).trans (waiting_nil hempty n).symm
  | process _ hfirst => exact hs.add rfl rfl rfl nofun ((List.append_nil _).trans hfirst)
  | drop _ hfirst => exact hs.add rfl rfl rfl nofun ((List.append_nil _).trans hfirst)
  | close hphase =>
    obtain ⟨hfree, -⟩ := hlocked.empty_of_inside hphase rfl rfl
    exact hs.same rfl rfl nofun fun n => (waiting_free rfl n).trans (waiting_free hfree n).symm
  | release => exact hs.same rfl rfl id fun _ => rfl

end Rounds

end Threads
end EntityMachines

/-!
No event is lost or doubled between threads that share a machine, in whatever order they come, as
long as nothing fails and the limits of the queue are not reached.
-/
namespace EntityMachines
namespace Threads

variable {s s' : Threads} {i : Nat}

/-- A limit decides what becomes of an event: there is no room for it in the queue, or no more
events of the queue may be processed. -/
def atLimit (s : Threads) : Nat × Move → Bool
  | (_, .emit services o) =>
    s.machine.definition.hasEvent o.event && s.machine.busy
      && decide (services.maxQueued ≤ s.machine.pending.length)
  | (i, .next) =>
    match s.phases[i]? with
    | some (.draining _ 0) => !s.machine.pending.isEmpty
    | _ => false
  | _ => false

/-- No limit of the queue is reached by the moves. -/
def roomy (s : Threads) : List (Nat × Move) → Bool
  | [] => true
  | entry :: rest => !s.atLimit entry && (s.step entry).all fun s' => s'.roomy rest

theorem lost_keep {services : Services} {d : Deed} (h : d.lost? = none) :
    pick Deed.lost? (s.keep services d).done = pick Deed.lost? s.done := by
  rw [done_keep, pick_append, pick_singleton, h]
  exact List.append_nil _

theorem lost_step {move : Move} (hroom : s.atLimit (i, move) = false) (h : Step s i move s') :
    pick Deed.lost? s'.done = pick Deed.lost? s.done := by
  cases h with
  | @enter services first hphase =>
    cases first with
    | none => rfl
    | some o => exact lost_keep (d := .processed o) rfl
  | emit hphase hmay hemits =>
    cases hemits with
    | undeclared => exact lost_keep rfl
    | queued => exact lost_keep rfl
    | refused h hbusy hfull => simp [atLimit, h, hbusy, hfull] at hroom
    | dispatched => exact lost_keep rfl
  | excuse => exact lost_keep rfl
  | process => exact lost_keep rfl
  | drop hphase hfirst => simp [atLimit, hphase, hfirst] at hroom
  | _ => rfl

/-- What is not lost is not given up. -/
theorem lost_run {moves : List (Nat × Move)} (hroom : s.roomy moves = true)
    (h : s.run moves = some s') : pick Deed.lost? s'.done = pick Deed.lost? s.done := by
  induction moves generalizing s with
  | nil =>
    cases h
    rfl
  | cons entry rest ih =>
    obtain ⟨s₁, hfirst, hstep, hrest⟩ := run_cons h
    simp only [roomy, hstep, Bool.and_eq_true, Bool.not_eq_true', Option.all_some] at hroom
    obtain ⟨hlimit, hroom⟩ := hroom
    exact (ih hroom hrest).trans (lost_step hlimit hfirst)

theorem refused_of_lost {ds : List (Services × Deed)} (h : pick Deed.lost? ds = []) :
    pick Deed.refused? ds = [] := by
  have hnil := (lost_perm ds).symm
  rw [h] at hnil
  exact (List.append_eq_nil_iff.mp hnil.eq_nil).2

/-- An event that leaves the queue is processed unless it is lost. -/
theorem taken_of_lost {ds : List (Services × Deed)} (h : pick Deed.lost? ds = []) :
    pick Deed.taken? ds = pick Deed.processed? ds := by
  refine List.filterMap_congr fun entry he => ?_
  have hkept : entry.2.lost? = none := List.filterMap_eq_nil_iff.mp h entry he
  obtain ⟨services, d⟩ := entry
  cases d with
  | dropped o => cases hkept
  | _ => rfl

/-- What threads make of the events of a machine that they share. -/
structure Orderly (d : Definition) (s : Threads) : Prop where
  /-- Every event that was called with, and every declared event that was emitted, has been
  processed once unless it waits still. -/
  once : (s.called ++ pick (Deed.declared? d) s.done).Perm
    (pick Deed.processed? s.done ++ s.machine.pending ++ s.carried)
  /-- What is emitted comes into a queue or is dispatched. -/
  routed : (pick (Deed.declared? d) s.done).Perm
    (pick Deed.queued? s.done ++ pick Deed.dispatched? s.done)
  /-- What is dispatched begins a transaction of its own. -/
  own : (s.called ++ pick Deed.dispatched? s.done).Perm
    (s.begun.flatMap Option.toList ++ s.carried)
  /-- What comes into a queue does so during a transaction. -/
  in_flight : ∀ entry ∈ s.deeds, ∀ o, entry.2.2.queued? = some o →
    ∃ k first, s.begun[k]? = some first ∧ entry.1 = some (k + 1)
  /-- A transaction processes the event with which it begins, and then those that have come into its
  queue, in order. -/
  in_order : ∀ k first, s.begun[k]? = some first →
    first.toList ++ pick Deed.queued? (s.round (k + 1))
      = pick Deed.processed? (s.round (k + 1)) ++ s.waiting (k + 1)
  /-- No two threads process events at a time. -/
  alone : ∀ (i j : Nat) services left services' left',
    s.phases[i]? = some (Phase.working services left) →
    s.phases[j]? = some (Phase.working services' left') → i = j
  /-- While an event waits in the queue there is a thread that looks at the queue again. -/
  watched : s.machine.pending ≠ [] → s.machine.busy = true ∧
    ∃ (i : Nat) (p : Phase), s.phases[i]? = some p ∧ p.drains = true
  /-- When the thread that has the lock no longer looks at the queue, the queue is empty and closed
  to events. -/
  stopped : ∀ (i : Nat) (p : Phase), s.phases[i]? = some p → p.inside = true →
    p.drains = false → s.machine.busy = false ∧ s.machine.pending = []
  /-- Threads that are left alone come to rest. -/
  settles : ∀ more s', (∀ entry ∈ more, Move.quiet entry.2 = true) → s.run more = some s' →
    more.length ≤ s.remaining ∧
      (s'.AtRest ∨ ∃ i move, Move.quiet move = true ∧ (s'.step (i, move)).isSome = true)
  /-- At rest all events have been processed. -/
  complete : s.AtRest → s.machine.pending = [] ∧
    (pick Deed.processed? s.done).Perm (s.called ++ pick (Deed.declared? d) s.done)

/-- What holds between any two moves unless something fails. -/
structure Sound (d : Definition) (s : Threads) : Prop where
  locked : Locked s
  ledger : Ledger s
  rounds : Rounds s
  definition : s.machine.definition = d

namespace Sound

variable {d : Definition} {moves : List (Nat × Move)}

theorem start {m : Instance} (h : m.Idle) (count : Nat) : Sound m.definition (start m count) where
  locked := .start h count
  ledger := .start h count
  rounds := .start h count
  definition := rfl

theorem step {move : Move} (hs : Sound d s) (hmove : move ≠ .fail) (h : Step s i move s') :
    Sound d s' where
  locked := hs.locked.step hmove h
  ledger := hs.ledger.step hs.locked hmove h
  rounds := hs.rounds.step hs.locked hmove h
  definition := h.definition.trans hs.definition

theorem run (hs : Sound d s) (hmoves : ∀ entry ∈ moves, entry.2 ≠ .fail)
    (h : s.run moves = some s') : Sound d s' :=
  run_keeps step hmoves hs h

theorem settles (hs : Sound d s) (hquiet : ∀ entry ∈ moves, Move.quiet entry.2 = true)
    (h : s.run moves = some s') :
    moves.length ≤ s.remaining ∧
      (s'.AtRest ∨ ∃ i move, Move.quiet move = true ∧ (s'.step (i, move)).isSome = true) := by
  have hmoves : ∀ entry ∈ moves, entry.2 ≠ .fail := by
    intro entry he heq
    have hq := hquiet entry he
    rw [heq] at hq
    cases hq
  have hbound := length_add_remaining hquiet h
  constructor
  · omega
  · by_cases hrest : s'.AtRest
    · exact .inl hrest
    · exact .inr ((hs.run hmoves h).locked.goes_on hrest)

theorem carried_of_atRest (h : s.AtRest) : s.carried = [] := by
  refine List.flatMap_eq_nil_iff.mpr fun p hp => ?_
  rw [h p hp]
  rfl

theorem pending_of_atRest (hs : Sound d s) (h : s.AtRest) : s.machine.pending = [] := by
  by_contra hpending
  obtain ⟨i, p, hphase, hdrains⟩ := hs.locked.drains_of_pending hpending
  rw [h p (List.mem_of_getElem? hphase)] at hdrains
  cases hdrains

theorem orderly (hs : Sound d s) (hlost : pick Deed.lost? s.done = []) : Orderly d s := by
  have hrefused := refused_of_lost hlost
  have htaken := taken_of_lost hlost
  have honce : (s.called ++ pick (Deed.declared? d) s.done).Perm
      (pick Deed.processed? s.done ++ s.machine.pending ++ s.carried) := by
    have h := hs.ledger.once
    rwa [hs.definition, hrefused, htaken, List.append_nil] at h
  constructor
  case once => exact honce
  case routed =>
    have h := hs.ledger.routed
    rwa [hs.definition, hrefused, List.append_nil] at h
  case own => exact hs.ledger.own
  case in_flight =>
    intro entry he o ho
    obtain ⟨n, hn⟩ := Option.ne_none_iff_exists'.mp (hs.rounds.queued entry he o ho)
    obtain ⟨hpos, hle⟩ := hs.rounds.numbered entry he n hn
    have hk : n - 1 < s.begun.length := by omega
    refine ⟨n - 1, s.begun[n - 1], List.getElem?_eq_getElem hk, ?_⟩
    rw [hn, Nat.sub_add_cancel hpos]
  case in_order =>
    intro k first hk
    have hround : pick Deed.lost? (s.round (k + 1)) = [] := by
      rw [pick, List.filterMap_eq_nil_iff] at hlost ⊢
      exact fun entry he => hlost entry (mem_done_of_mem_round he)
    rw [← taken_of_lost hround]
    exact hs.rounds.fifo k first hk
  case alone =>
    intro i j services left services' left' hi hj
    exact hs.locked.alone hi hj rfl rfl
  case watched =>
    intro hpending
    refine ⟨?_, hs.locked.drains_of_pending hpending⟩
    cases hb : s.machine.busy with
    | true => rfl
    | false => exact absurd (hs.locked.empty hb) hpending
  case stopped =>
    intro i p hi hp hdrains
    exact hs.locked.empty_of_inside hi hp hdrains
  case settles =>
    intro more s' hquiet h
    exact hs.settles hquiet h
  case complete =>
    intro hrest
    have hpending := hs.pending_of_atRest hrest
    rw [hpending, carried_of_atRest hrest, List.append_nil, List.append_nil] at honce
    exact ⟨hpending, honce.symm⟩

end Sound

/-- However any number of threads call for transactions of a machine and emit events to it, all of
its events are processed once and one at a time, unless something fails or a limit of the queue is
reached. -/
theorem run_orderly {m : Instance} (hidle : m.Idle) (count : Nat) {moves : List (Nat × Move)}
    (hmoves : ∀ entry ∈ moves, entry.2 ≠ .fail) (hroom : (start m count).roomy moves = true)
    (h : (start m count).run moves = some s) : Orderly m.definition s := by
  have hsound : Sound m.definition s := (Sound.start hidle count).run hmoves h
  have hlost : pick Deed.lost? s.done = [] := lost_run hroom h
  exact hsound.orderly hlost

/-- A bell that takes every stroke. -/
def bell : Definition where
  name := "bell"
  initial := "up"
  states := [{ name := "up" }]
  events := [{ key := "STROKE" }]

def bellMachine : Instance := Machine.fresh 1 bell (.map []) 0 0

def stroke : Occurrence := ⟨"STROKE", .undefined⟩

/-- The bell is struck three times: by a call, by an event that comes while the call is answered,
and by one that comes when its thread has looked at the queue for the last time. -/
def strokes : List (Nat × Move) :=
  [(0, .call {} (some stroke)), (0, .acquire), (0, .enter), (1, .emit {} stroke), (0, .finish),
    (0, .next), (0, .finish), (0, .next), (2, .emit {} stroke), (0, .close), (0, .release),
    (2, .acquire), (2, .enter), (2, .finish), (2, .next), (2, .close), (2, .release)]

theorem strokes_orderly :
    bellMachine.Idle ∧ (∀ entry ∈ strokes, entry.2 ≠ .fail) ∧
    (start bellMachine 3).roomy strokes = true ∧
    ∃ s, (start bellMachine 3).run strokes = some s ∧ Orderly bell s ∧ s.AtRest ∧
      pick Deed.processed? s.done = [stroke, stroke, stroke] := by
  have hidle : bellMachine.Idle := ⟨rfl, rfl⟩
  have hmoves : ∀ entry ∈ strokes, entry.2 ≠ .fail := by simp [strokes]
  have hroom : (start bellMachine 3).roomy strokes = true := by decide +kernel
  have hrest : ∀ p ∈ [Phase.idle, .idle, .idle], p = .idle := by simp
  exact ⟨hidle, hmoves, hroom, _, rfl, run_orderly hidle 3 hmoves hroom rfl, hrest, rfl⟩

end Threads
end EntityMachines
