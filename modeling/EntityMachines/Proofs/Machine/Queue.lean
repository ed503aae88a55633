import EntityMachines.Proofs.Machine.Lookup

/-!
The queue of a machine as a specification: what its deeds may be while events wait, and what they
leave waiting. Events leave the queue in the order in which they came in.
-/
namespace EntityMachines

/-- What the machine of a handle does, with the services under which it does it. -/
def Incident.deedOf? (handle : Nat) : Incident → Option (Services × Deed)
  | deed machine _ services d => if machine = handle then some (services, d) else none
  | call _ | write _ _ => none

def deedsOf (handle : Nat) (J : List Incident) : List (Services × Deed) :=
  J.filterMap (Incident.deedOf? handle)

theorem deedsOf_append (handle : Nat) (J J' : List Incident) :
    deedsOf handle (J ++ J') = deedsOf handle J ++ deedsOf handle J' :=
  List.filterMap_append

theorem deedsOf_cons_own {handle : Nat} {m : Instance} (h : m.handle = handle)
    (services : Services) (d : Deed) (J : List Incident) :
    deedsOf handle (.deed m.handle m.label services d :: J) = (services, d) :: deedsOf handle J :=
  List.filterMap_cons_some (if_pos h)

theorem deedsOf_cons_other {handle : Nat} {m : Instance} (h : m.handle ≠ handle)
    (services : Services) (d : Deed) (J : List Incident) :
    deedsOf handle (.deed m.handle m.label services d :: J) = deedsOf handle J :=
  List.filterMap_cons_none (if_neg h)

namespace Deed

def queued? : Deed → Option Occurrence
  | emitted o .queued => some o
  | _ => none

def refused? : Deed → Option Occurrence
  | emitted o .refused => some o
  | _ => none

def processed? : Deed → Option Occurrence
  | processed o => some o
  | _ => none

def dropped? : Deed → Option Occurrence
  | dropped o => some o
  | _ => none

/-- The event of a deed that takes it off the queue. -/
def taken? : Deed → Option Occurrence
  | processed o | dropped o => some o
  | _ => none

/-- The event of a deed by which it is lost: there is no room for it, or it is given up. -/
def lost? : Deed → Option Occurrence
  | emitted o .refused | dropped o => some o
  | _ => none

/-- The event that is emitted, if the definition declares it. -/
def declared? (d : Definition) : Deed → Option Occurrence
  | emitted o _ => if d.hasEvent o.event then some o else none
  | _ => none

end Deed

/-- The events that deeds of one kind are about, in order. -/
def pick (kind : Deed → Option Occurrence) (ds : List (Services × Deed)) : List Occurrence :=
  ds.filterMap fun entry => kind entry.2

section pick

variable {kind : Deed → Option Occurrence} {services : Services} {o : Occurrence}
  {ds ds' : List (Services × Deed)}

@[simp] theorem pick_nil : pick kind [] = [] := rfl

theorem pick_append : pick kind (ds ++ ds') = pick kind ds ++ pick kind ds' :=
  List.filterMap_append

@[simp] theorem pick_cons_some {d : Deed} (h : kind d = some o) :
    pick kind ((services, d) :: ds) = o :: pick kind ds :=
  List.filterMap_cons_some h

@[simp] theorem pick_cons_none {d : Deed} (h : kind d = none) :
    pick kind ((services, d) :: ds) = pick kind ds :=
  List.filterMap_cons_none h

theorem pick_map_processed (services : Services) (os : List Occurrence) :
    pick Deed.processed? (os.map fun o => (services, .processed o)) = os := by
  induction os with
  | nil => rfl
  | cons o rest ih => rw [List.map_cons, pick_cons_some rfl, ih]

theorem pick_map_none (h : ∀ o, kind (.processed o) = none) (services : Services)
    (os : List Occurrence) : pick kind (os.map fun o => (services, .processed o)) = [] := by
  induction os with
  | nil => rfl
  | cons o rest ih => rw [List.map_cons, pick_cons_none (h o), ih]

/-- What is lost is dropped or refused. -/
theorem lost_perm (ds : List (Services × Deed)) :
    (pick Deed.lost? ds).Perm (pick Deed.dropped? ds ++ pick Deed.refused? ds) := by
  induction ds with
  | nil => exact List.Perm.refl _
  | cons entry rest ih =>
    obtain ⟨services, d⟩ := entry
    cases d with
    | emitted o fate =>
      cases fate with
      | refused =>
        rw [pick_cons_some rfl, pick_cons_none rfl, pick_cons_some rfl]
        exact (ih.cons o).trans List.perm_middle.symm
      | undeclared | queued | dispatched =>
        rwa [pick_cons_none rfl, pick_cons_none rfl, pick_cons_none rfl]
    | dropped o =>
      rw [pick_cons_some rfl, pick_cons_some rfl, pick_cons_none rfl]
      exact ih.cons o
    | processed o => rwa [pick_cons_none rfl, pick_cons_none rfl, pick_cons_none rfl]
    | guardFailed place e => rwa [pick_cons_none rfl, pick_cons_none rfl, pick_cons_none rfl]

end pick

/-- Deeds of a machine whose transaction runs take one queue to another. An undeclared event goes
no further, a declared one waits if there is room, and the first that waits is the next to be
processed or dropped. -/
inductive Worklist (d : Definition) :
    List Occurrence → List (Services × Deed) → List Occurrence → Prop where
  | done (q : List Occurrence) : Worklist d q [] q
  | undeclared {q q' services o ds} (h : ¬d.hasEvent o.event) (rest : Worklist d q ds q') :
      Worklist d q ((services, .emitted o .undeclared) :: ds) q'
  | queued {q q' services o ds} (h : d.hasEvent o.event) (hroom : q.length < services.maxQueued)
      (rest : Worklist d (q ++ [o]) ds q') :
      Worklist d q ((services, .emitted o .queued) :: ds) q'
  | refused {q q' services o ds} (h : d.hasEvent o.event)
      (hfull : services.maxQueued ≤ q.length) (rest : Worklist d q ds q') :
      Worklist d q ((services, .emitted o .refused) :: ds) q'
  | guardFailed {q q' services place e ds} (rest : Worklist d q ds q') :
      Worklist d q ((services, .guardFailed place e) :: ds) q'
  | processed {q q' services o ds} (rest : Worklist d q ds q') :
      Worklist d (o :: q) ((services, .processed o) :: ds) q'
  | dropped {q q' services o ds} (rest : Worklist d q ds q') :
      Worklist d (o :: q) ((services, .dropped o) :: ds) q'

namespace Worklist

variable {d : Definition} {q q' q'' : List Occurrence} {ds ds' : List (Services × Deed)}

theorem append (h : Worklist d q ds q') (h' : Worklist d q' ds' q'') :
    Worklist d q (ds ++ ds') q'' := by
  induction h with
  | done => exact h'
  | undeclared h _ ih => exact .undeclared h (ih h')
  | queued h hroom _ ih => exact .queued h hroom (ih h')
  | refused h hfull _ ih => exact .refused h hfull (ih h')
  | guardFailed _ ih => exact .guardFailed (ih h')
  | processed _ ih => exact .processed (ih h')
  | dropped _ ih => exact .dropped (ih h')

/-- First in, first out: what waited and what came in is what was taken and what still waits. -/
theorem flow (h : Worklist d q ds q') : q ++ pick Deed.queued? ds = pick Deed.taken? ds ++ q' := by
  induction h with
  | done q => simp
  | undeclared h _ ih => rwa [pick_cons_none rfl, pick_cons_none rfl]
  | queued h hroom _ ih =>
    rw [pick_cons_some rfl, pick_cons_none rfl, ← ih, List.append_assoc]
    rfl
  | refused h hfull _ ih => rwa [pick_cons_none rfl, pick_cons_none rfl]
  | guardFailed _ ih => rwa [pick_cons_none rfl, pick_cons_none rfl]
  | processed _ ih => rw [pick_cons_none rfl, pick_cons_some rfl, List.cons_append, ih]; rfl
  | dropped _ ih => rw [pick_cons_none rfl, pick_cons_some rfl, List.cons_append, ih]; rfl

/-- A declared event that is emitted either comes into the queue or is refused. -/
theorem declared_perm (h : Worklist d q ds q') :
    (pick (Deed.declared? d) ds).Perm (pick Deed.queued? ds ++ pick Deed.refused? ds) := by
  induction h with
  | done q => exact List.Perm.refl _
  | undeclared h _ ih =>
    rwa [pick_cons_none (if_neg h), pick_cons_none rfl, pick_cons_none rfl]
  | queued h hroom _ ih =>
    rw [pick_cons_some (if_pos h), pick_cons_some rfl, pick_cons_none rfl]
    exact ih.cons _
  | refused h hfull _ ih =>
    rw [pick_cons_some (if_pos h), pick_cons_none rfl, pick_cons_some rfl]
    exact (ih.cons _).trans List.perm_middle.symm
  | guardFailed _ ih => rwa [pick_cons_none rfl, pick_cons_none rfl, pick_cons_none rfl]
  | processed _ ih => rwa [pick_cons_none rfl, pick_cons_none rfl, pick_cons_none rfl]
  | dropped _ ih => rwa [pick_cons_none rfl, pick_cons_none rfl, pick_cons_none rfl]

/-- Only declared events come into the queue. -/
theorem declared_of_queued (h : Worklist d q ds q') :
    ∀ o ∈ pick Deed.queued? ds, d.hasEvent o.event = true := by
  intro o ho
  have hmem : o ∈ pick (Deed.declared? d) ds :=
    h.declared_perm.mem_iff.mpr (List.mem_append_left _ ho)
  obtain ⟨⟨services, deed⟩, -, hdeed⟩ := List.mem_filterMap.mp hmem
  unfold Deed.declared? at hdeed
  split at hdeed
  · split at hdeed
    next hevent => cases hdeed; exact hevent
    next => cases hdeed
  · cases hdeed

end Worklist

/-- Deeds that empty a queue: as many of the events as are allowed are processed, first those that
wait, then those that come in, and all others are dropped. -/
structure Drained (d : Definition) (limit : Nat) (q : List Occurrence)
    (ds : List (Services × Deed)) : Prop where
  worklist : Worklist d q ds []
  processed : pick Deed.processed? ds = (q ++ pick Deed.queued? ds).take limit
  dropped : pick Deed.dropped? ds = (q ++ pick Deed.queued? ds).drop limit

namespace Drained

variable {d : Definition} {limit : Nat} {q q' : List Occurrence} {ds ds' : List (Services × Deed)}

theorem nil (d : Definition) (limit : Nat) : Drained d limit [] [] where
  worklist := .done []
  processed := by simp
  dropped := by simp

theorem drop (services : Services) (o : Occurrence) (h : Drained d 0 q ds) :
    Drained d 0 (o :: q) ((services, .dropped o) :: ds) where
  worklist := .dropped h.worklist
  processed := by
    have hp := h.processed
    rw [List.take_zero] at hp ⊢
    rwa [pick_cons_none rfl]
  dropped := by
    have hd := h.dropped
    rw [List.drop_zero] at hd ⊢
    rw [pick_cons_some rfl, hd, pick_cons_none rfl, List.cons_append]

theorem pick_of_taken {kind : Deed → Option Occurrence}
    (hkind : ∀ d : Deed, d.taken? = none → kind d = none) (h : pick Deed.taken? ds = []) :
    pick kind ds = [] := by
  have hnone : ∀ entry ∈ ds, entry.2.taken? = none := List.filterMap_eq_nil_iff.mp h
  exact List.filterMap_eq_nil_iff.mpr fun entry he => hkind entry.2 (hnone entry he)

/-- Deeds that take nothing off the queue may come first. -/
theorem after_steady (hq : Worklist d q ds q') (ht : pick Deed.taken? ds = [])
    (h : Drained d limit q' ds') : Drained d limit q (ds ++ ds') := by
  have hflow : q ++ pick Deed.queued? ds = q' := by
    rw [hq.flow, ht, List.nil_append]
  have hp : pick Deed.processed? ds = [] := pick_of_taken (by intro d hd; cases d <;> trivial) ht
  have hd : pick Deed.dropped? ds = [] := pick_of_taken (by intro d hd; cases d <;> trivial) ht
  refine ⟨hq.append h.worklist, ?_, ?_⟩
  · rw [pick_append, hp, List.nil_append, h.processed, pick_append, ← List.append_assoc, hflow]
  · rw [pick_append, hd, List.nil_append, h.dropped, pick_append, ← List.append_assoc, hflow]

theorem process (services : Services) (o : Occurrence) (h : Drained d limit q ds) :
    Drained d (limit + 1) (o :: q) ((services, .processed o) :: ds) where
  worklist := .processed h.worklist
  processed := by
    rw [pick_cons_some rfl, h.processed, pick_cons_none rfl, List.cons_append, List.take_succ_cons]
  dropped := by
    rw [pick_cons_none rfl, h.dropped, pick_cons_none rfl, List.cons_append, List.drop_succ_cons]

/-- No more events are processed than are allowed. -/
theorem processed_length (h : Drained d limit q ds) :
    (pick Deed.processed? ds).length ≤ limit := by
  rw [h.processed, List.length_take]
  omega

/-- Every declared event that comes in is processed or lost, and only once. -/
theorem declared_perm (h : Drained d limit [] ds) :
    (pick (Deed.declared? d) ds).Perm (pick Deed.processed? ds ++ pick Deed.lost? ds) := by
  have hsplit : pick Deed.queued? ds = pick Deed.processed? ds ++ pick Deed.dropped? ds := by
    rw [h.processed, h.dropped, List.nil_append, List.take_append_drop]
  have hperm := h.worklist.declared_perm
  rw [hsplit, List.append_assoc] at hperm
  exact hperm.trans ((lost_perm ds).symm.append_left _)

/-- Only declared events are processed. -/
theorem declared_of_processed (h : Drained d limit [] ds) :
    ∀ o ∈ pick Deed.processed? ds, d.hasEvent o.event = true := by
  intro o ho
  rw [h.processed] at ho
  exact h.worklist.declared_of_queued o (List.mem_of_mem_take ho)

end Drained
end EntityMachines
