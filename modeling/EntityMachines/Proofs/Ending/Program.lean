import EntityMachines.Machine.Transaction
import EntityMachines.Proofs.Evaluation.Keeps

/-!
Programs, as all expressions that can come to be evaluated, and computations that follow others: one
follows another if it gives up or ends as the other does. While a program runs nothing but its
expressions gets into the world to be evaluated later.
-/
namespace EntityMachines

/-- Expressions together with what is written in them. -/
structure Program where
  texts : List Value
  closed : ∀ items, .array items ∈ texts → ∀ item ∈ items, item ∈ texts

namespace Program

def Races (P : Program) : Prop := ∃ args, Expr.call "async/race" args ∈ P.texts

/-- The guards and effects of all transitions belong to the program. -/
def Reacts (P : Program) (d : Definition) : Prop :=
  ∀ t ∈ d.transitions, (∀ guard, t.guard = some guard → guard ∈ P.texts) ∧
    ∀ effect ∈ t.effects, effect ∈ P.texts

/-- What is kept in the world to be evaluated later belongs to the program. A deadline is there only
where computations may be cut off. -/
structure Runs (P : Program) (cut : Prop) (w : World) : Prop where
  body : ∀ c ∈ w.closures, c.body ∈ P.texts
  reaction : ∀ m ∈ w.machines, P.Reacts m.definition
  deadline : w.deadline ≠ none → cut

variable {α β : Type}

/-- An end of a computation: with a value of some kind or with a fault, and it is cut off only where
computations may be. -/
def Ends (P : Program) (cut : Prop) (V : α → Prop) : EStateM.Result Fault World α → Prop
  | .ok a w => V a ∧ P.Runs cut w
  | .error fault w => (fault = .abandoned → cut) ∧ P.Runs cut w

/-- The first computation gives up, or both end alike. -/
def Follows (P : Program) (cut : Prop) (V : α → Prop) (x y : Eval α) : Prop :=
  ∀ w, P.Runs cut w → (∃ later, x w = .error .exhausted later) ∨ (x w = y w ∧ P.Ends cut V (y w))

/-- Any value. -/
def Any (_ : α) : Prop := True

variable {P : Program} {cut : Prop}

theorem Runs.withDeadline {cut' : Prop} {w : World} (hw : P.Runs cut w) {deadline : Option Nat}
    (h : deadline ≠ none → cut') : P.Runs cut' { w with deadline } :=
  ⟨hw.body, hw.reaction, h⟩

/-- Nothing but closures, machines and the deadline is of any matter. -/
theorem Runs.congr {w w' : World} (hw : P.Runs cut w) (hclosures : w'.closures = w.closures)
    (hmachines : w'.machines = w.machines) (hdeadline : w'.deadline = w.deadline) :
    P.Runs cut w' :=
  ⟨hclosures ▸ hw.body, hmachines ▸ hw.reaction, hdeadline ▸ hw.deadline⟩

namespace Follows

variable {V : α → Prop} {U : β → Prop} {x y : Eval α}

theorem pure {a : α} (h : V a) : P.Follows cut V (pure a) (pure a) :=
  fun _ hw => .inr ⟨rfl, h, hw⟩

theorem throw {fault : Fault} (h : fault = .abandoned → cut) :
    P.Follows cut V (throw fault) (throw fault) :=
  fun _ hw => .inr ⟨rfl, h, hw⟩

theorem raise (e : Error) : P.Follows cut V (Eval.raise e) (Eval.raise e) := throw nofun

theorem exhausted (y : Eval α) : P.Follows cut V (MonadExcept.throw .exhausted) y :=
  fun w _ => .inl ⟨w, rfl⟩

theorem mono {V' : α → Prop} (hx : P.Follows cut V x y) (h : ∀ a, V a → V' a) :
    P.Follows cut V' x y := by
  intro w hw
  refine (hx w hw).imp_right fun hend => ⟨hend.1, ?_⟩
  have hends := hend.2
  cases hy : y w with
  | ok a later =>
    rw [hy] at hends
    exact ⟨h a hends.1, hends.2⟩
  | error fault later => rwa [hy] at hends

theorem any (hx : P.Follows cut V x y) : P.Follows cut Any x y := hx.mono fun _ _ => trivial

theorem bind {f g : α → Eval β} (hx : P.Follows cut V x y)
    (hf : ∀ a, V a → P.Follows cut U (f a) (g a)) : P.Follows cut U (x >>= f) (y >>= g) := by
  intro w hw
  rcases hx w hw with ⟨later, hgiven⟩ | ⟨heq, hends⟩
  · exact .inl ⟨later, Eval.bind_of_error hgiven⟩
  · cases hy : y w with
    | ok a w₁ =>
      rw [hy] at heq hends
      rw [Eval.bind_of_ok heq, Eval.bind_of_ok hy]
      exact hf a hends.1 w₁ hends.2
    | error fault later =>
      rw [hy] at heq hends
      rw [Eval.bind_of_error heq, Eval.bind_of_error hy]
      exact .inr ⟨rfl, hends⟩

theorem map (f : α → β) (hx : P.Follows cut V x y) : P.Follows cut Any (f <$> x) (f <$> y) := by
  rw [map_eq_pure_bind, map_eq_pure_bind]
  exact hx.bind fun _ _ => pure trivial

theorem ite {p : Prop} [Decidable p] {x' y' : Eval α} (hx : p → P.Follows cut V x y)
    (hx' : ¬p → P.Follows cut V x' y') :
    P.Follows cut V (if p then x else x') (if p then y else y') := by
  split
  next h => exact hx h
  next h => exact hx' h

theorem ofExcept (r : Except Error α) :
    P.Follows cut Any (Eval.ofExcept r) (Eval.ofExcept r) := by
  cases r with
  | ok a => exact pure trivial
  | error e => exact raise e

theorem get : P.Follows cut (P.Runs cut) get get := fun _ hw => .inr ⟨rfl, hw, hw⟩

theorem set {w : World} (h : P.Runs cut w) : P.Follows cut Any (set w) (set w) :=
  fun _ _ => .inr ⟨rfl, trivial, h⟩

theorem modify {f : World → World} (h : ∀ w, P.Runs cut w → P.Runs cut (f w)) :
    P.Follows cut Any (modify f) (modify f) := fun w hw => .inr ⟨rfl, trivial, h w hw⟩

theorem mapM {f g : α → Eval β} {as : List α} (h : ∀ a ∈ as, P.Follows cut U (f a) (g a)) :
    P.Follows cut Any (as.mapM f) (as.mapM g) := by
  induction as with
  | nil => exact pure trivial
  | cons a as ih =>
    obtain ⟨ha, has⟩ := List.forall_mem_cons.mp h
    rw [List.mapM_cons, List.mapM_cons]
    exact ha.bind fun _ _ => (ih has).bind fun _ _ => pure trivial

theorem attempt (hx : P.Follows cut V x y) :
    P.Follows cut Any (Eval.attempt x) (Eval.attempt y) := by
  intro w hw
  unfold Eval.attempt
  rcases hx w hw with ⟨later, hgiven⟩ | ⟨heq, hends⟩
  · exact .inl ⟨later, by rw [hgiven]⟩
  · rw [heq]
    refine .inr ⟨rfl, ?_⟩
    cases hy : y w with
    | ok a later =>
      rw [hy] at hends
      exact ⟨trivial, hends.2⟩
    | error fault later =>
      rw [hy] at hends
      cases fault with
      | raised e =>
        cases e
        case unnamed => exact ⟨nofun, hends.2⟩
        all_goals exact ⟨trivial, hends.2⟩
      | abandoned => exact hends
      | exhausted => exact hends

/-- A computation without an outcome has been cut off. -/
theorem settle (hx : P.Follows cut V x y) :
    P.Follows cut (fun outcome => outcome = none → cut) (Eval.settle x) (Eval.settle y) := by
  intro w hw
  unfold Eval.settle
  rcases hx w hw with ⟨later, hgiven⟩ | ⟨heq, hends⟩
  · exact .inl ⟨later, by rw [hgiven]⟩
  · rw [heq]
    refine .inr ⟨rfl, ?_⟩
    cases hy : y w with
    | ok a later =>
      rw [hy] at hends
      exact ⟨nofun, hends.2⟩
    | error fault later =>
      rw [hy] at hends
      cases fault with
      | raised e => exact ⟨nofun, hends.2⟩
      | abandoned => exact ⟨fun _ => hends.1 rfl, hends.2⟩
      | exhausted => exact ⟨nofun, hends.2⟩

theorem finishTime (hx : P.Follows cut V x y) :
    P.Follows cut Any (Eval.finishTime x) (Eval.finishTime y) := by
  intro w hw
  unfold Eval.finishTime
  rcases hx w hw with ⟨later, hgiven⟩ | ⟨heq, hends⟩
  · exact .inl ⟨w, by rw [hgiven]⟩
  · rw [heq]
    refine .inr ⟨rfl, ?_⟩
    cases y w with
    | ok a later => exact ⟨trivial, hw⟩
    | error fault later =>
      cases fault with
      | raised e => exact ⟨trivial, hw⟩
      | abandoned => exact ⟨trivial, hw⟩
      | exhausted => exact ⟨nofun, hw⟩

/-- Under a time limit computations may be cut off; beyond it a stricter deadline has to be there
already. -/
theorem within (limit : Nat) (hx : P.Follows True V x y) :
    P.Follows cut Any (Eval.within limit x) (Eval.within limit y) := by
  intro w hw
  unfold Eval.within
  dsimp only
  generalize hstrict : w.deadline.any (· < limit) = strict
  generalize hinner : { w with deadline := if strict then w.deadline else some limit } = inner
  have hruns : P.Runs True inner := hinner ▸ hw.withDeadline fun _ => trivial
  have hrestored {later : World} (hlater : P.Runs True later) :
      P.Runs cut { later with deadline := w.deadline } := hlater.withDeadline hw.deadline
  rcases hx inner hruns with ⟨later, hgiven⟩ | ⟨heq, hends⟩
  · exact .inl ⟨_, by rw [hgiven]⟩
  · rw [heq]
    refine .inr ⟨rfl, ?_⟩
    cases hy : y inner with
    | ok a later =>
      rw [hy] at hends
      exact ⟨trivial, hrestored hends.2⟩
    | error fault later =>
      rw [hy] at hends
      cases fault with
      | raised e => exact ⟨nofun, hrestored hends.2⟩
      | exhausted => exact ⟨nofun, hrestored hends.2⟩
      | abandoned =>
        cases strict with
        | true =>
          have hdeadline : w.deadline ≠ none := fun hnone => by
            rw [hnone] at hstrict
            cases hstrict
          exact ⟨fun _ => hw.deadline hdeadline, hrestored hends.2⟩
        | false => exact ⟨trivial, (hrestored hends.2).congr rfl rfl rfl⟩

theorem andFinally {f : World → World} (hx : P.Follows cut V x y)
    (hf : ∀ w, P.Runs cut w → P.Runs cut (f w)) :
    P.Follows cut V (Eval.andFinally x f) (Eval.andFinally y f) := by
  intro w hw
  unfold Eval.andFinally
  rcases hx w hw with ⟨later, hgiven⟩ | ⟨heq, hends⟩
  · exact .inl ⟨f later, by rw [hgiven]⟩
  · rw [heq]
    refine .inr ⟨rfl, ?_⟩
    cases hy : y w with
    | ok a later =>
      rw [hy] at hends
      exact ⟨hends.1, hf later hends.2⟩
    | error fault later =>
      rw [hy] at hends
      exact ⟨hends.1, hf later hends.2⟩

end Follows

/-! What is done to the world beside evaluation. -/

theorem wait_follows (ms : Nat) : P.Follows cut Any (Eval.wait ms) (Eval.wait ms) := by
  unfold Eval.wait
  refine Follows.get.bind fun w hw => ?_
  split
  next deadline hdeadline =>
    have hcut : cut := hw.deadline (by rw [hdeadline]; exact nofun)
    exact .ite (fun _ => .throw fun _ => hcut) fun _ => .set (hw.congr rfl rfl rfl)
  next => exact .set (hw.congr rfl rfl rfl)

theorem note_follows (level : Log.Level) (category message : Text) :
    P.Follows cut Any (Eval.note level category message) (Eval.note level category message) :=
  .modify fun _ hw => hw.congr rfl rfl rfl

theorem setElapsed_follows (ms : Nat) :
    P.Follows cut Any (Eval.setElapsed ms) (Eval.setElapsed ms) :=
  .modify fun _ hw => hw.congr rfl rfl rfl

theorem call_follows (label : Label) (request : Request) :
    P.Follows cut Any (Eval.call label request) (Eval.call label request) :=
  Follows.bind (.modify fun _ hw => hw.congr rfl rfl rfl) fun _ _ =>
    Follows.get.bind fun _ _ => .ofExcept _

theorem snapshot_follows (store : StoreRef) :
    P.Follows cut Any (Eval.snapshot store) (Eval.snapshot store) :=
  Follows.get.bind fun _ _ => .pure trivial

theorem writeStore_follows (store : StoreRef) (changes : Table Value) :
    P.Follows cut Any (Eval.writeStore store changes) (Eval.writeStore store changes) :=
  Follows.bind (.modify fun _ hw => hw.congr rfl rfl rfl) fun _ _ =>
    .modify fun _ hw => hw.congr rfl rfl rfl

theorem newClosure_follows {c : Closure} (h : c.body ∈ P.texts) :
    P.Follows cut Any (Eval.newClosure c) (Eval.newClosure c) := by
  refine Follows.get.bind fun w hw => Follows.bind (.set ⟨?_, hw.reaction, hw.deadline⟩) fun _ _ =>
    .pure trivial
  intro c' hc'
  rcases Array.mem_push.mp hc' with hold | rfl
  · exact hw.body c' hold
  · exact h

end Program

/-- An evaluator imitates another in a program if it follows it on all its expressions, under a time
limit too. A race may end with all its runners cut off. -/
structure Evaluator.Imitates (P : Program) (cut : Prop) (ev ev' : Evaluator) : Prop where
  evaluate : ∀ e ∈ P.texts, ∀ ctx,
    P.Follows cut Program.Any (ev.evaluate e ctx) (ev'.evaluate e ctx)
  limited : ∀ e ∈ P.texts, ∀ ctx,
    P.Follows True Program.Any (ev.evaluate e ctx) (ev'.evaluate e ctx)
  deliver : ∀ handle services event payload,
    P.Follows cut Program.Any (ev.deliver handle services event payload)
      (ev'.deliver handle services event payload)
  race : P.Races → cut

/-!
Deliveries to machines follow one another where evaluation does. What a machine has evaluated are the
guards and effects of its transitions; its definition stays the same in all that it does.
-/

open Program (Any Follows)

variable {P : Program} {cut : Prop}

theorem Program.Runs.mapMachine {w : World} (hw : P.Runs cut w) (handle : Nat)
    {f : Instance → Instance} (hf : ∀ m, (f m).definition = m.definition) :
    P.Runs cut (w.mapMachine handle f) := by
  refine ⟨hw.body, fun m hm => ?_, hw.deadline⟩
  obtain ⟨m, hmem, rfl⟩ := List.mem_map.mp hm
  have hreacts := hw.reaction m hmem
  split
  · rwa [hf]
  · exact hreacts

namespace Machine

theorem update_follows (handle : Nat) {f : Instance → Instance}
    (hf : ∀ m, (f m).definition = m.definition) :
    P.Follows cut Any (update handle f) (update handle f) :=
  .modify fun _ hw => hw.mapMachine handle hf

theorem count_follows (handle : Nat) (f : Stats → Stats) :
    P.Follows cut Any (count handle f) (count handle f) := update_follows handle fun _ => rfl

theorem withMachine_follows {α : Type} (handle : Nat) (default : α) {f g : Instance → Eval α}
    (h : ∀ m, P.Reacts m.definition → P.Follows cut Any (f m) (g m)) :
    P.Follows cut Any (withMachine handle default f) (withMachine handle default g) := by
  unfold withMachine
  refine Follows.get.bind fun w hw => ?_
  split
  next m hm => exact h m (hw.reaction m (List.mem_of_find?_eq_some hm))
  next => exact .pure trivial

theorem note_follows (services : Services) (m : Instance) (level : Log.Level)
    (category message : Text) :
    P.Follows cut Any (note services m level category message)
      (note services m level category message) :=
  .ite (fun _ => .modify fun _ hw => hw.congr rfl rfl rfl) fun _ => .pure trivial

theorem record_follows (services : Services) (m : Instance) (deed : Deed) :
    P.Follows cut Any (record services m deed) (record services m deed) := by
  unfold record
  refine Follows.bind (.modify fun _ hw => hw.congr rfl rfl rfl) fun _ _ => ?_
  split
  · exact note_follows services m _ _ _
  · exact .pure trivial

theorem nextPending_follows (handle : Nat) :
    P.Follows cut Any (nextPending handle) (nextPending handle) := by
  refine withMachine_follows handle none fun m _ => ?_
  split
  · exact Follows.bind (update_follows handle fun _ => rfl) fun _ _ => .pure trivial
  · exact Follows.bind (update_follows handle fun _ => rfl) fun _ _ => .pure trivial

theorem dropPending_follows (services : Services) (m : Instance) (pending : List Occurrence) :
    P.Follows cut Any (dropPending services m pending) (dropPending services m pending) := by
  induction pending with
  | nil => exact update_follows m.handle fun _ => rfl
  | cons o rest ih => exact (record_follows services m _).bind fun _ _ => ih

theorem transaction_follows {α : Type} (handle : Nat) {x y : Eval α}
    (h : P.Follows cut Any x y) :
    P.Follows cut Any (transaction handle x) (transaction handle y) :=
  Follows.bind (update_follows handle fun _ => rfl) fun _ _ =>
    h.andFinally fun _ hw => hw.mapMachine handle fun _ => rfl

theorem announce_follows (services : Services) (m : Instance) (o : Occurrence) (fate : Fate) :
    P.Follows cut Any (announce services m o fate) (announce services m o fate) := by
  unfold announce
  exact .ite (fun _ => (P.call_follows _ _).bind fun _ _ => record_follows services m _) fun _ =>
    record_follows services m _

section evaluation

variable {ev ev' : Evaluator} (hev : ∀ e ∈ P.texts, ∀ ctx,
  P.Follows cut Any (ev.evaluate e ctx) (ev'.evaluate e ctx))

include hev

theorem guardHolds_follows (services : Services) (m : Instance) {guard : Value}
    (hguard : guard ∈ P.texts) (ctx : Context) (place : Text) :
    P.Follows cut Any (guardHolds ev services m guard ctx place)
      (guardHolds ev' services m guard ctx place) := by
  unfold guardHolds
  refine (hev guard hguard ctx).attempt.bind fun outcome _ => ?_
  cases outcome with
  | ok v => exact .pure trivial
  | error e =>
    refine (count_follows m.handle _).bind fun _ _ => ?_
    split
    · exact .raise _
    · exact (record_follows services m _).bind fun _ _ => .pure trivial

theorem permits_follows (services : Services) (m : Instance) {guard : Option Value}
    (hguard : ∀ g, guard = some g → g ∈ P.texts) (ctx : Context) (place : Text) :
    P.Follows cut Any (permits ev services m guard ctx place)
      (permits ev' services m guard ctx place) := by
  cases guard with
  | none => exact .pure trivial
  | some guard => exact guardHolds_follows hev services m (hguard guard rfl) ctx place

theorem runEffects_follows (services : Services) (m : Instance) (ctx : Context) (place : Text)
    {effects : List Value} (heffects : ∀ effect ∈ effects, effect ∈ P.texts) (ran : Nat) :
    P.Follows cut Any (runEffects ev services m ctx place ran effects)
      (runEffects ev' services m ctx place ran effects) := by
  induction effects generalizing ran with
  | nil => exact .pure trivial
  | cons effect rest ih =>
    obtain ⟨heffect, hrest⟩ := List.forall_mem_cons.mp heffects
    unfold runEffects
    refine (hev effect heffect ctx).attempt.bind fun outcome _ => ?_
    cases outcome with
    | ok v => exact ih hrest _
    | error e => exact (note_follows services m _ _ _).bind fun _ _ => .raise e

theorem take_follows (services : Services) (m : Instance) (ctx : Context) (event : Text)
    (index : Nat) {t : Transition} (ht : ∀ effect ∈ t.effects, effect ∈ P.texts)
    (rejected : Bool) :
    P.Follows cut Any (take ev services m ctx event index t rejected)
      (take ev' services m ctx event index t rejected) := by
  unfold take
  refine (runEffects_follows hev services m _ _ ht 0).bind fun _ _ => ?_
  exact Follows.bind (update_follows m.handle fun _ => rfl) fun _ _ =>
    (count_follows m.handle _).bind fun _ _ =>
      (note_follows services m _ _ _).bind fun _ _ => .pure trivial

theorem tryTransitions_follows (services : Services) (m : Instance) (ctx : Context) (event : Text)
    {ts : List Transition} (hts : ∀ t ∈ ts, (∀ guard, t.guard = some guard → guard ∈ P.texts) ∧
      ∀ effect ∈ t.effects, effect ∈ P.texts) (rejected : Bool) (index : Nat) :
    P.Follows cut Any (tryTransitions ev services m ctx event rejected index ts)
      (tryTransitions ev' services m ctx event rejected index ts) := by
  induction ts generalizing rejected index with
  | nil =>
    unfold tryTransitions
    refine .ite (fun _ => ?_) fun _ => .pure trivial
    exact (count_follows m.handle _).bind fun _ _ =>
      (note_follows services m _ _ _).bind fun _ _ => .pure trivial
  | cons t rest ih =>
    obtain ⟨⟨hguard, heffects⟩, hrest⟩ := List.forall_mem_cons.mp hts
    unfold tryTransitions
    refine .ite (fun _ => ih hrest _ _) fun _ => ?_
    refine (permits_follows hev services m hguard ctx _).bind fun _ _ => .ite (fun _ => ?_) fun _ => ?_
    · exact take_follows hev services m ctx event index heffects rejected
    · exact (count_follows m.handle _).bind fun _ _ => ih hrest _ _

theorem process_follows (services : Services) (handle : Nat) (event : Text) (payload : Value) :
    P.Follows cut Any (process ev services handle event payload)
      (process ev' services handle event payload) := by
  refine withMachine_follows handle _ fun m hm => (record_follows services m _).bind fun _ _ => ?_
  exact (count_follows m.handle _).bind fun _ _ => Follows.get.bind fun _ _ =>
    tryTransitions_follows hev services m _ event hm false 0

theorem drain_follows (services : Services) (handle : Nat) (left : Nat) :
    P.Follows cut Any (drain ev services handle left) (drain ev' services handle left) := by
  induction left with
  | zero => exact withMachine_follows handle () fun m _ => dropPending_follows services m _
  | succ left ih =>
    unfold drain
    refine (nextPending_follows handle).bind fun o? _ => ?_
    split
    · exact .pure trivial
    · exact (process_follows hev services handle _ _).bind fun _ _ => ih

theorem dispatch_follows (services : Services) (handle : Nat) (event : Text) (payload : Value) :
    P.Follows cut Any (dispatch ev services handle event payload)
      (dispatch ev' services handle event payload) :=
  transaction_follows handle <|
    (process_follows hev services handle event payload).bind fun _ _ =>
      (drain_follows hev services handle _).bind fun _ _ => .pure trivial

theorem deliver_follows (handle : Nat) (services : Services) (event : Text) (payload : Value) :
    P.Follows cut Any (deliver ev handle services event payload)
      (deliver ev' handle services event payload) := by
  refine withMachine_follows handle () fun m _ =>
    (announce_follows services m _ _).bind fun _ _ => ?_
  split
  · exact .pure trivial
  · exact .pure trivial
  · exact update_follows handle fun _ => rfl
  · exact (dispatch_follows hev services handle event payload).bind fun _ _ => .pure trivial

end evaluation

end Machine
end EntityMachines
