import EntityMachines.Proofs.Machine.Failure
import EntityMachines.Proofs.Machine.Held

/-!
A transaction is a bounded worklist. What comes into the queue is processed in the order in which
it came, up to a number, and the rest is dropped with a warning for each event. While the machine
looks for a transition it stays in its state: it counts, it evaluates guards, and its queue can only
grow.
-/
namespace EntityMachines
namespace Machine

open Eval (Keeps OpenFrame)

/-- A machine whose transaction runs has taken no transition. It stays as it is, but for what is
counted of it, and what waits has grown as the history says. Some of what is counted is the same as
before. -/
def Unmoved {β : Type} (f : Stats → β) (a : Nat) (w w' : World) : Prop :=
  ∀ m, w.machine? a = some m → m.busy = true →
    ∃ stats pending J, w'.machine? a = some { m with stats, pending } ∧
      f stats = f m.stats ∧ w'.history = J.reverse ++ w.history ∧
      Worklist m.definition m.pending (deedsOf a J) pending ∧ pick Deed.taken? (deedsOf a J) = []

variable {β : Type} {f : Stats → β} {a : Nat} {ev : Evaluator} {services : Services} {m : Instance}

namespace Unmoved

variable {w w' w'' : World}

theorem trans (h : Unmoved f a w w') (h' : Unmoved f a w' w'') : Unmoved f a w w'' := by
  intro m hm hb
  obtain ⟨stats, pending, J, hm', hs, hh, hq, ht⟩ := h m hm hb
  obtain ⟨stats', pending', J', hm'', hs', hh', hq', ht'⟩ := h' _ hm' hb
  refine ⟨stats', pending', J ++ J', hm'', hs'.trans hs, ?_, ?_, ?_⟩
  · rw [hh', hh, List.reverse_append, List.append_assoc]
  · rw [deedsOf_append]
    exact hq.append hq'
  · rw [deedsOf_append, pick_append, ht, ht']
    rfl

theorem of_held (h : Held a w w') : Unmoved f a w w' := by
  intro m hm hb
  obtain ⟨pending, J, hm', hh, hq, ht⟩ := h m hm hb
  exact ⟨m.stats, pending, J, hm', rfl, hh, hq, ht⟩

theorem openFrame (f : Stats → β) (a : Nat) : OpenFrame (Unmoved f a) :=
  (Held.openFrame a).weaken trans of_held

theorem of_count (handle : Nat) {g : Stats → Stats} (hg : ∀ s, f (g s) = f s) :
    Unmoved f a w (w.counted handle g) := by
  by_cases h : a = handle
  · subst h
    intro m hm _
    have hmapped := World.machine?_mapMachine_self hm
      (f := fun m => { m with stats := g m.stats }) fun _ => rfl
    exact ⟨g m.stats, m.pending, [], hmapped, hg m.stats, rfl, .done _, rfl⟩
  · have hother : ∀ m : Instance, ({ m with stats := g m.stats } : Instance).handle = m.handle :=
      fun _ => rfl
    exact of_held (Held.of_apart (Apart.of_update h hother))

end Unmoved

theorem count_unmoved (handle : Nat) {g : Stats → Stats} (hg : ∀ s, f (g s) = f s) :
    Keeps (Unmoved f a) (count handle g) := fun _ => Unmoved.of_count handle hg

theorem note_unmoved (services : Services) (m : Instance) (level : Log.Level)
    (category message : Text) : Keeps (Unmoved f a) (note services m level category message) := by
  intro w
  obtain ⟨log, hnote⟩ := note_ok services m level category message w
  rw [Eval.after_ok hnote]
  exact Unmoved.of_held (Held.of_apart (Apart.of_machines rfl rfl))

theorem Unmoved.of_guardFailed (services : Services) (m : Instance) (place : Text) (e : Error)
    (w : World) : Unmoved f a w (w.recorded services m (.guardFailed place e)) := by
  by_cases h : m.handle = a
  · intro m₀ hm₀ _
    have hJ : deedsOf a [.deed m.handle m.label services (.guardFailed place e)]
        = [(services, .guardFailed place e)] := deedsOf_cons_own h services _ []
    refine ⟨m₀.stats, m₀.pending, [.deed m.handle m.label services (.guardFailed place e)], hm₀,
      rfl, rfl, ?_, ?_⟩
    · rw [hJ]
      exact .guardFailed (.done _)
    · rw [hJ]
      rfl
  · exact Unmoved.of_held (Held.of_apart (Apart.of_deed h rfl rfl))

theorem guardFailed_unmoved (services : Services) (m : Instance) (place : Text) (e : Error) :
    Keeps (Unmoved f a) (record services m (.guardFailed place e)) := by
  intro w
  rw [Eval.after_ok (record_eq services m _ w)]
  exact Unmoved.of_guardFailed services m place e w

theorem unmoved_withFuel (f : Stats → β) (a n : Nat) :
    (Evaluator.withFuel Library.standard n).Respects (Unmoved f a) fun _ => True :=
  (held_withFuel a n).mono (Unmoved.openFrame f a).toFrame fun _ _ => Unmoved.of_held

theorem Unmoved.judges (hev : ev.Respects (Unmoved f a) fun _ => True)
    (hf : ∀ s, f { s with guardErrors := s.guardErrors + 1 } = f s) :
    Judges (Unmoved f a) (fun _ => True) ev services m where
  respects := hev
  guardErrors := count_unmoved m.handle hf
  note _ category message := note_unmoved services m _ category message
  guardFailed place e := guardFailed_unmoved services m place e

theorem Unmoved.weighs (hev : ev.Respects (Unmoved Stats.transitions a) fun _ => True) :
    Weighs (Unmoved Stats.transitions a) (fun _ => True) ev services m where
  toJudges := Unmoved.judges hev fun _ => rfl
  count _ hf := count_unmoved m.handle hf

end Machine

/-!
A machine may also take transitions and run ticks; what matters to its queue stays as it is, and
the queue can still only grow.
-/

namespace Machine

open Eval (OpenFrame)

/-- A machine whose transaction runs goes on running it, and what waits has grown as the history
says. -/
def Steady (a : Nat) (w w' : World) : Prop :=
  ∀ m, w.machine? a = some m → m.busy = true →
    ∃ m' J, w'.machine? a = some m' ∧ m'.definition = m.definition ∧ m'.busy = true ∧
      w'.history = J.reverse ++ w.history ∧
      Worklist m.definition m.pending (deedsOf a J) m'.pending ∧
      pick Deed.taken? (deedsOf a J) = []

namespace Steady

variable {a : Nat} {w w' w'' : World}

theorem trans (h : Steady a w w') (h' : Steady a w' w'') : Steady a w w'' := by
  intro m hm hb
  obtain ⟨m', J, hm', hd', hb', hh', hq', ht'⟩ := h m hm hb
  obtain ⟨m'', J', hm'', hd'', hb'', hh'', hq'', ht''⟩ := h' m' hm' hb'
  refine ⟨m'', J ++ J', hm'', hd''.trans hd', hb'', ?_, ?_, ?_⟩
  · rw [hh'', hh', List.reverse_append, List.append_assoc]
  · rw [hd'] at hq''
    rw [deedsOf_append]
    exact hq'.append hq''
  · rw [deedsOf_append, pick_append, ht', ht'']
    rfl

theorem of_unmoved {β : Type} {f : Stats → β} (h : Unmoved f a w w') : Steady a w w' := by
  intro m hm hb
  obtain ⟨stats, pending, J, hm', -, hh, hq, ht⟩ := h m hm hb
  exact ⟨{ m with stats, pending }, J, hm', rfl, hb, hh, hq, ht⟩

/-- A change of the machine that its queue does not notice. -/
theorem of_update {f : Instance → Instance}
    (hf : ∀ m, (f m).handle = m.handle ∧ (f m).definition = m.definition ∧
      (f m).busy = m.busy ∧ (f m).pending = m.pending) :
    Steady a w (w.mapMachine a f) := by
  intro m hm hb
  obtain ⟨-, hd, hb', hp⟩ := hf m
  have hm' : (w.mapMachine a f).machine? a = some (f m) :=
    World.machine?_mapMachine_self hm fun m => (hf m).1
  refine ⟨f m, [], hm', hd, hb'.trans hb, rfl, ?_, rfl⟩
  rw [hp]
  exact .done _

theorem openFrame (a : Nat) : OpenFrame (Steady a) :=
  (Unmoved.openFrame Stats.transitions a).weaken trans of_unmoved

end Steady

theorem steady_reacts (a : Nat) : Reacts (Steady a) a fun _ => True where
  toOpenFrame := Steady.openFrame a
  vacuous _ _ _ _ h := absurd trivial h
  count _ _ := Steady.of_update fun _ => ⟨rfl, rfl, rfl, rfl⟩
  log _ _ _ _ _ _ := Steady.of_unmoved
    (Unmoved.of_held (f := Stats.transitions) (Held.of_apart (Apart.of_machines rfl rfl)))
  guardFailed m services place e _ w := Steady.of_unmoved
    (guardFailed_unmoved (f := Stats.transitions) services m place e w)
  move _ _ _ _ _ _ := Steady.of_update fun _ => ⟨rfl, rfl, rfl, rfl⟩

theorem steady_timed (a : Nat) : Timed (Steady a) a where
  ran _ _ _ := Steady.of_update fun _ => ⟨rfl, rfl, rfl, rfl⟩
  restart _ _ := Steady.of_update fun _ => ⟨rfl, rfl, rfl, rfl⟩

theorem steady_withFuel (a n : Nat) :
    (Evaluator.withFuel Library.standard n).Respects (Steady a) fun _ => True :=
  (unmoved_withFuel Stats.transitions a n).mono (Steady.openFrame a).toFrame
    fun _ _ => Steady.of_unmoved

end Machine

/-! A transaction as a worklist. -/

namespace Machine

open Eval (Keeps)

variable {α : Type} {ev : Evaluator} {a : Nat} {services : Services} {m : Instance}

/-- What a machine has done since it began to process an event: behind that, its queue has only
grown. -/
def Began (a : Nat) (services : Services) (o : Occurrence) (d : Definition)
    (queue queue' : List Occurrence) (w w' : World) : Prop :=
  ∃ J ds, w'.history = J.reverse ++ w.history ∧ deedsOf a J = (services, .processed o) :: ds ∧
    Worklist d queue ds queue' ∧ pick Deed.taken? ds = []

namespace Began

variable {o : Occurrence} {d : Definition} {queue queue' : List Occurrence} {w w₁ w' : World}

theorem intro {J : List Incident} (hm : m.handle = a)
    (hh : w₁.history = .deed m.handle m.label services (.processed o) :: w.history)
    (hh' : w'.history = J.reverse ++ w₁.history) (hq : Worklist d queue (deedsOf a J) queue')
    (ht : pick Deed.taken? (deedsOf a J) = []) : Began a services o d queue queue' w w' := by
  refine ⟨.deed m.handle m.label services (.processed o) :: J, deedsOf a J, ?_,
    deedsOf_cons_own hm services _ J, hq, ht⟩
  rw [hh', hh, List.reverse_cons, List.append_assoc]
  rfl

/-- The event that it began with is the only one that it has taken off its queue. -/
theorem deeds (h : Began a services o d queue queue' w w') :
    ∃ J, w'.history = J.reverse ++ w.history ∧ Worklist d (o :: queue) (deedsOf a J) queue' ∧
      pick Deed.processed? (deedsOf a J) = [o] ∧ pick Deed.dropped? (deedsOf a J) = [] := by
  obtain ⟨J, ds, hh, hds, hq, ht⟩ := h
  refine ⟨J, hh, ?_, ?_, ?_⟩
  · rw [hds]
    exact .processed hq
  · rw [hds, pick_cons_some rfl, Drained.pick_of_taken (by intro d hd; cases d <;> trivial) ht]
  · rw [hds, pick_cons_none rfl, Drained.pick_of_taken (by intro d hd; cases d <;> trivial) ht]

end Began

theorem Unmoved.began {β : Type} {f : Stats → β} {o : Occurrence} {w w₁ w' : World}
    (h : Unmoved f a w₁ w') (hm : w₁.machine? a = some m) (hb : m.busy = true)
    (hh : w₁.history = .deed m.handle m.label services (.processed o) :: w.history) :
    ∃ stats pending, w'.machine? a = some { m with stats, pending } ∧ f stats = f m.stats ∧
      Began a services o m.definition m.pending pending w w' := by
  obtain ⟨stats, pending, J, hm', hs, hh', hq, ht⟩ := h m hm hb
  exact ⟨stats, pending, hm', hs, .intro (World.handle_of_machine? hm) hh hh' hq ht⟩

theorem nextPending_nil {w : World} (hm : w.machine? a = some m) (hq : m.pending = []) :
    nextPending a w = .ok none (w.mapMachine a fun m => { m with busy := false }) := by
  unfold nextPending
  rw [withMachine_some hm, hq]
  rfl

theorem nextPending_cons {w : World} {o : Occurrence} {rest : List Occurrence}
    (hm : w.machine? a = some m) (hq : m.pending = o :: rest) :
    nextPending a w = .ok (some o) (w.mapMachine a fun m => { m with pending := rest }) := by
  unfold nextPending
  rw [withMachine_some hm, hq]
  rfl

theorem dropPending_spec (services : Services) (hm : m.handle = a) (d : Definition)
    (os : List Occurrence) (w : World) :
    ∃ w' J, dropPending services m os w = .ok () w' ∧ w'.history = J.reverse ++ w.history ∧
      Drained d 0 os (deedsOf a J) := by
  induction os generalizing w with
  | nil => exact ⟨_, [], rfl, rfl, .nil d 0⟩
  | cons o rest ih =>
    unfold dropPending
    simp only [Bind.bind, EStateM.bind, record_eq]
    obtain ⟨w', J, hr, hh, hJ⟩ := ih _
    refine ⟨w', .deed m.handle m.label services (.dropped o) :: J, hr, ?_, ?_⟩
    · rw [hh, List.reverse_cons, List.append_assoc]
      rfl
    · rw [deedsOf_cons_own hm]
      exact hJ.drop services o

section

variable (hev : ev.Respects (Steady a) fun _ => True)

include hev

/-- What a machine does to its queue while it answers an event stands behind the event. -/
theorem process_spec {w w' : World} {event : Text} {payload : Value} {r : Dispatched}
    (hm : w.machine? a = some m) (hb : m.busy = true)
    (h : process ev services a event payload w = .ok r w') :
    ∃ m', w'.machine? a = some m' ∧ m'.definition = m.definition ∧ m'.busy = true ∧
      Began a services ⟨event, payload⟩ m.definition m.pending m'.pending w w' := by
  have hhandle : m.handle = a := World.handle_of_machine? hm
  rw [process_eq hm] at h
  have hsteady : Keeps (Steady a) (react ev services m event payload) :=
    (steady_reacts a).react_keeps hev hhandle trivial event payload
  obtain ⟨m', J, hm', hd, hb', hh, hq, ht⟩ := hsteady.of_ok h m hm hb
  exact ⟨m', hm', hd, hb', .intro hhandle rfl hh hq ht⟩

/-- A drain by induction on how many events may still be processed. -/
theorem drain_spec (left : Nat) {w w' : World} {m : Instance} (hm : w.machine? a = some m)
    (hb : m.busy = true) (h : drain ev services a left w = .ok () w') :
    ∃ J, w'.history = J.reverse ++ w.history ∧
      Drained m.definition left m.pending (deedsOf a J) := by
  induction left generalizing w m with
  | zero =>
    unfold drain at h
    rw [withMachine_some hm] at h
    obtain ⟨w₁, J, hr, hh, hJ⟩ :=
      dropPending_spec services (World.handle_of_machine? hm) m.definition m.pending w
    cases hr.symm.trans h
    exact ⟨J, hh, hJ⟩
  | succ left ih =>
    unfold drain at h
    obtain ⟨next, w₁, hnext, hrest⟩ := Eval.bind_ok h
    cases hq : m.pending with
    | nil =>
      cases (nextPending_nil hm hq).symm.trans hnext
      cases hrest
      exact ⟨[], rfl, .nil _ _⟩
    | cons o rest =>
      cases (nextPending_cons hm hq).symm.trans hnext
      obtain ⟨r, w₂, hprocess, hdrain⟩ := Eval.bind_ok hrest
      have hm₁ := World.machine?_mapMachine_self hm
        (f := fun m => { m with pending := rest }) fun _ => rfl
      obtain ⟨m₂, hm₂, hd, hb₂, J, ds, hh, hJ, hsteady, ht⟩ := process_spec hev hm₁ hb hprocess
      obtain ⟨J', hh', hJ'⟩ := ih hm₂ hb₂ hdrain
      refine ⟨J ++ J', ?_, ?_⟩
      · rw [hh', hh, List.reverse_append, List.append_assoc]
        rfl
      · rw [deedsOf_append, hJ, List.cons_append]
        rw [hd] at hJ'
        exact (hJ'.after_steady hsteady ht).process services o

end

end Machine
end EntityMachines
