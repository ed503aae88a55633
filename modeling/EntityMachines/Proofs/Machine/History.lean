import EntityMachines.Proofs.Machine.Activity

/-!
The history agrees with what can be seen from outside: the warnings in the log are those of the
deeds in it, listeners hear the events that it says are emitted, and what the stores hold is what
was written into them.
-/
namespace EntityMachines

/-- A record of the log before it is numbered. -/
structure Log.Draft where
  level : Log.Level
  category : Text
  source : Text
  message : Text
deriving DecidableEq, Repr

def Log.writeAll (log : Log) (ds : List Log.Draft) : Log :=
  ds.foldl (fun log d => log.write d.level d.category d.source d.message 0) log

theorem Log.writeAll_append (log : Log) (ds ds' : List Log.Draft) :
    log.writeAll (ds ++ ds') = (log.writeAll ds).writeAll ds' :=
  List.foldl_append

namespace Incident

/-- The warning that a deed leaves in the log, if there is one. -/
def warning? : Incident → Option Log.Draft
  | deed _ label services d =>
    if services.logs then d.warning?.map fun message => ⟨.warn, "behavior", label, message⟩
    else none
  | call _ | write _ _ => none

/-- The event that a listener hears, and the machine to which it is emitted. -/
def hearing? : Incident → Option (Nat × Occurrence)
  | deed machine _ services (.emitted o _) => if services.listens then some (machine, o) else none
  | _ => none

end Incident

namespace World

theorem incidentsSince_eq {w w' : World} {J : List Incident}
    (h : w'.history = J.reverse ++ w.history) : w'.incidentsSince w = J := by
  unfold incidentsSince
  rw [h, List.length_append, Nat.add_sub_cancel, List.take_left, List.reverse_reverse]

theorem callsSince_eq {w w' : World} {C : List Call} (h : w'.calls = C.reverse ++ w.calls) :
    w'.callsSince w = C := by
  unfold callsSince
  rw [h, List.length_append, Nat.add_sub_cancel, List.take_left, List.reverse_reverse]

/-- No listener failed that was told of an event since an earlier state. -/
def ListenersAnswered (w w' : World) : Prop :=
  ∀ newer call older, w'.calls = newer ++ call :: older → w.calls.length ≤ older.length →
    call.request.hearing? ≠ none → ∃ v, w'.respond (call :: older) = .ok v

/-- What happened between two states, with the calls that were made and the records that were
written meanwhile. -/
structure Account (w w' : World) (J : List Incident) (C : List Call) (D : List Log.Draft) :
    Prop where
  history : w'.history = J.reverse ++ w.history
  calls : w'.calls = C.reverse ++ w.calls
  respond : w'.respond = w.respond
  log : w'.log = w.log.writeAll D
  warned : D.filter (fun d => d.level = .warn) = J.filterMap Incident.warning?
  heard : ListenersAnswered w w' →
    C.filterMap (fun c => c.request.hearing?) = J.filterMap Incident.hearing?

/-- Nothing happens between two states without an account of it. -/
def Accounted (w w' : World) : Prop := ∃ J C D, Account w w' J C D

theorem Account.of_eq {w w' : World} (hh : w'.history = w.history) (hc : w'.calls = w.calls)
    (hr : w'.respond = w.respond) (hl : w'.log = w.log) : Accounted w w' :=
  ⟨[], [], [], hh, hc, hr, hl, rfl, fun _ => rfl⟩

theorem Account.trans {a b c : World} {J J' : List Incident} {C C' : List Call}
    {D D' : List Log.Draft} (h : Account a b J C D) (h' : Account b c J' C' D') :
    Account a c (J ++ J') (C ++ C') (D ++ D') where
  history := by rw [h'.history, h.history, List.reverse_append, List.append_assoc]
  calls := by rw [h'.calls, h.calls, List.reverse_append, List.append_assoc]
  respond := h'.respond.trans h.respond
  log := by rw [h'.log, h.log, Log.writeAll_append]
  warned := by rw [List.filter_append, h.warned, h'.warned, List.filterMap_append]
  heard := by
    intro hans
    have hab : ListenersAnswered a b := by
      intro newer call older hb hlen hcall
      rw [← h'.respond]
      refine hans (C'.reverse ++ newer) call older ?_ hlen hcall
      rw [h'.calls, hb, List.append_assoc]
    have hbc : ListenersAnswered b c := by
      intro newer call older hc hlen hcall
      refine hans newer call older hc (Nat.le_trans ?_ hlen) hcall
      rw [h.calls, List.length_append]
      omega
    rw [List.filterMap_append, h.heard hab, h'.heard hbc, List.filterMap_append]

theorem Accounted.trans {a b c : World} (h : Accounted a b) (h' : Accounted b c) :
    Accounted a c := by
  obtain ⟨J, C, D, h⟩ := h
  obtain ⟨J', C', D', h'⟩ := h'
  exact ⟨_, _, _, h.trans h'⟩

/-- Any one call that is no message to a listener leaves the account even. -/
theorem Accounted.request (w : World) (label : Label) {request : Request}
    (h : request.hearing? = none) :
    Accounted w { w with calls := ⟨label, request⟩ :: w.calls } := by
  refine ⟨[], [⟨label, request⟩], [], rfl, rfl, rfl, rfl, rfl, fun _ => ?_⟩
  simp [h]

theorem Accounted.openFrame : Eval.OpenFrame Accounted where
  refl _ := Account.of_eq rfl rfl rfl rfl
  trans := Accounted.trans
  capture _ _ := Account.of_eq rfl rfl rfl rfl
  timing _ _ _ := Account.of_eq rfl rfl rfl rfl
  arm _ _ := Account.of_eq rfl rfl rfl rfl
  random _ _ := Account.of_eq rfl rfl rfl rfl
  clock _ _ _ := Account.of_eq rfl rfl rfl rfl
  write _ store changes := ⟨[.write store changes], [], [], rfl, rfl, rfl, rfl, rfl, fun _ => rfl⟩
  request w label _ h := Accounted.request w label h
  closure _ hs := ⟨[.call hs], [], [], rfl, rfl, rfl, rfl, rfl, fun _ => rfl⟩

end World

namespace Machine

open World

/-- What is left behind when a deed is kept: the deed, and its warning in the log. -/
theorem record_eq (services : Services) (m : Instance) (d : Deed) (w : World) :
    record services m d w = .ok () { w with
      history := .deed m.handle m.label services d :: w.history
      log := w.log.writeAll (Incident.deed m.handle m.label services d).warning?.toList } := by
  unfold record Incident.warning? note
  dsimp only
  cases d.warning? with
  | none => cases services.logs <;> rfl
  | some message => cases services.logs <;> rfl

private theorem warned_warning? (i : Incident) :
    i.warning?.toList.filter (fun d => d.level = .warn) = [i].filterMap Incident.warning? := by
  cases hw : i.warning? with
  | none => simp [hw]
  | some draft =>
    have hlevel : draft.level = .warn := by
      unfold Incident.warning? at hw
      split at hw
      · split at hw
        · obtain ⟨message, -, rfl⟩ := Option.map_eq_some_iff.mp hw
          rfl
        · cases hw
      all_goals cases hw
    simp [hw, hlevel]

theorem record_accounted (services : Services) (m : Instance) (d : Deed)
    (hd : (Incident.deed m.handle m.label services d).hearing? = none) :
    Eval.Keeps Accounted (record services m d) := by
  intro w
  rw [Eval.after_ok (record_eq services m d w)]
  generalize Incident.deed m.handle m.label services d = i at hd
  refine ⟨[i], [], i.warning?.toList, rfl, rfl, rfl, rfl, warned_warning? i, fun _ => ?_⟩
  simp [hd]

/-- A listener that fails keeps its event out of the history. -/
theorem announce_accounted (services : Services) (m : Instance) (o : Occurrence) (fate : Fate) :
    Eval.Keeps Accounted (announce services m o fate) := by
  cases hl : services.listens with
  | false =>
    unfold announce
    simp only [hl, Bool.false_eq_true, if_false]
    exact record_accounted services m _ (by simp [Incident.hearing?, hl])
  | true =>
    intro w
    let call : Call := ⟨[], .heard m.handle o.event o.payload⟩
    let told : World := { w with calls := call :: w.calls }
    let kept : Incident := .deed m.handle m.label services (.emitted o fate)
    have hkept : kept.hearing? = some (m.handle, o) := by simp [kept, Incident.hearing?, hl]
    unfold announce
    simp only [hl, if_true]
    have hcall : Eval.call [] (.heard m.handle o.event o.payload) w
        = Eval.ofExcept (w.respond (call :: w.calls)) told := rfl
    cases hr : w.respond (call :: w.calls) with
    | error e =>
      rw [hr] at hcall
      rw [Eval.after_bind_error hcall]
      refine ⟨[], [call], [], rfl, rfl, rfl, rfl, rfl, fun hans => ?_⟩
      obtain ⟨v, hv⟩ := hans [] call w.calls rfl (Nat.le_refl _) (by simp [call, Request.hearing?])
      rw [show told.respond (call :: w.calls) = .error e from hr] at hv
      cases hv
    | ok v =>
      rw [hr] at hcall
      rw [Eval.after_bind_ok hcall, Eval.after_ok (record_eq services m _ told)]
      refine ⟨[kept], [call], kept.warning?.toList, rfl, rfl, rfl, rfl, ?_, fun _ => ?_⟩
      · exact warned_warning? kept
      · simp [hkept, call, Request.hearing?]

/-- Nothing that machines do happens without an account of it. -/
theorem accounted_transacts (handle : Nat) : Transacts Accounted handle fun _ => True where
  toOpenFrame := Accounted.openFrame
  vacuous _ _ _ _ h := absurd trivial h
  count _ _ := Account.of_eq rfl rfl rfl rfl
  log w level category label message h := by
    refine ⟨[], [], [⟨level, category, label, message⟩], rfl, rfl, rfl, rfl, ?_, fun _ => rfl⟩
    simp [h]
  guardFailed m services place e _ := record_accounted services m _ rfl
  move _ _ _ _ _ _ := Account.of_eq rfl rfl rfl rfl
  processed m services _ _ := record_accounted services m _ rfl
  dropped m services _ _ := record_accounted services m _ rfl
  announced m services o fate _ := announce_accounted services m o fate
  queue _ _ _ := Account.of_eq rfl rfl rfl rfl

theorem accounted_timed (handle : Nat) : Timed Accounted handle where
  ran _ _ _ := Account.of_eq rfl rfl rfl rfl
  restart _ _ := Account.of_eq rfl rfl rfl rfl

end Machine

/-!
Whatever machines do, a store changes by the writes that the history keeps, applied in order, and
by nothing else.
-/

/-- The changes that are applied to a store. -/
def Incident.changesTo? (store : StoreRef) : Incident → Option (Table Value)
  | write target changes => if target = store then some changes else none
  | deed _ _ _ _ | call _ => none

/-- All that was written into a store since an earlier state, in order. -/
def World.writesSince (w before : World) (store : StoreRef) : List (Table Value) :=
  (w.incidentsSince before).filterMap (Incident.changesTo? store)

namespace Machine

open Eval (Keeps OpenFrame)

/-- Every store holds what the writes since then make of it. -/
def Written (w w' : World) : Prop :=
  ∃ J : List Incident, w'.history = J.reverse ++ w.history ∧ ∀ store : StoreRef, w'.stores[store]?
    = w.stores[store]?.map fun data =>
        (J.filterMap (Incident.changesTo? store)).foldl Value.applyChanges data

namespace Written

variable {w w' w'' : World}

theorem trans (h : Written w w') (h' : Written w' w'') : Written w w'' := by
  obtain ⟨J, hJ, hstores⟩ := h
  obtain ⟨J', hJ', hstores'⟩ := h'
  refine ⟨J ++ J', by rw [hJ', hJ, List.reverse_append, List.append_assoc], fun store => ?_⟩
  rw [hstores', hstores, Option.map_map, List.filterMap_append]
  simp only [Function.comp_def, List.foldl_append]

/-- Nothing is written. -/
theorem of_stores (J : List Incident) (hh : w'.history = J.reverse ++ w.history)
    (hJ : ∀ store, J.filterMap (Incident.changesTo? store) = []) (hs : w'.stores = w.stores) :
    Written w w' := by
  refine ⟨J, hh, fun store => ?_⟩
  rw [hs, hJ store]
  simp

theorem of_same (hh : w'.history = w.history) (hs : w'.stores = w.stores) : Written w w' :=
  of_stores [] hh (fun _ => rfl) hs

theorem write (w : World) (store : StoreRef) (changes : Table Value) :
    Written w { w with
      stores := w.stores.modify store fun data => data.applyChanges changes
      history := .write store changes :: w.history } := by
  refine ⟨[.write store changes], rfl, fun other => ?_⟩
  dsimp only
  rw [Array.getElem?_modify]
  by_cases h : store = other
  · simp [Incident.changesTo?, h]
  · simp [Incident.changesTo?, h]

theorem openFrame : OpenFrame Written where
  refl _ := of_same rfl rfl
  trans := trans
  capture _ _ := of_same rfl rfl
  timing _ _ _ := of_same rfl rfl
  arm _ _ := of_same rfl rfl
  random _ _ := of_same rfl rfl
  clock _ _ _ := of_same rfl rfl
  write := write
  request _ _ _ _ := of_same rfl rfl
  closure _ hs := of_stores [.call hs] rfl (fun _ => rfl) rfl

theorem record_keeps (services : Services) (m : Instance) (d : Deed) :
    Keeps Written (record services m d) := by
  intro w
  rw [Eval.after_ok (record_eq services m d w)]
  exact of_stores [.deed m.handle m.label services d] rfl (fun _ => rfl) rfl

theorem announce_keeps (services : Services) (m : Instance) (o : Occurrence) (fate : Fate) :
    Keeps Written (announce services m o fate) := by
  have hcall (request : Request) : Keeps Written (Eval.call [] request) :=
    openFrame.bind (Keeps.modify fun _ => of_same rfl rfl) fun _ =>
      openFrame.bind openFrame.get fun _ => openFrame.ofExcept _
  unfold announce
  exact Keeps.ite (fun _ => openFrame.bind (hcall _) fun _ => record_keeps services m _)
    fun _ => record_keeps services m _

theorem transacts (handle : Nat) : Transacts Written handle fun _ => True where
  toOpenFrame := openFrame
  vacuous _ _ _ _ h := absurd trivial h
  count _ _ := of_same rfl rfl
  log _ _ _ _ _ _ := of_same rfl rfl
  guardFailed m services _ _ _ := record_keeps services m _
  move _ _ _ _ _ _ := of_same rfl rfl
  processed m services _ _ := record_keeps services m _
  dropped m services _ _ := record_keeps services m _
  announced m services o fate _ := announce_keeps services m o fate
  queue _ _ _ := of_same rfl rfl

/-- The data in a store are those of before with all that was written since then. -/
theorem data (h : Written w w') (store : StoreRef) : w'.stores[store]?
    = w.stores[store]?.map fun data => (w'.writesSince w store).foldl Value.applyChanges data := by
  obtain ⟨J, hJ, hstores⟩ := h
  rw [hstores store]
  unfold World.writesSince
  rw [World.incidentsSince_eq hJ]

end Written

end Machine
end EntityMachines
