import EntityMachines.Proofs.Machine.Reaction
import EntityMachines.Proofs.Table
import EntityMachines.Proofs.Value.Paths

/-!
Flags that mark a state. A field of the data tells whether a machine is in a certain state, if every
transition that enters or leaves the state sets the field first, and nothing else writes it. Whether
a definition is of this form can be computed from its effects.
-/
namespace EntityMachines

/-- Between two scenes of a transaction neither the machine nor a field of its data has changed, and
nothing was queued where that is forbidden. -/
structure Scene.Spared (field : Text) (quiet : Bool) (s s' : Scene) : Prop where
  state : s'.state = s.state
  busy : s'.busy = s.busy
  queue : quiet = true → s'.queue = s.queue
  data : s'.data.get field = s.data.get field
  timers : s'.timers = s.timers

namespace Scene

variable {field : Text} {quiet : Bool} {s s' s'' : Scene}

theorem Spared.refl : s.Spared field quiet s := ⟨rfl, rfl, fun _ => rfl, rfl, rfl⟩

theorem Spared.trans (h : s.Spared field quiet s') (h' : s'.Spared field quiet s'') :
    s.Spared field quiet s'' where
  state := h'.state.trans h.state
  busy := h'.busy.trans h.busy
  queue hquiet := (h'.queue hquiet).trans (h.queue hquiet)
  data := h'.data.trans h.data
  timers := h'.timers.trans h.timers

/-- Also with the state that the transition leads to. -/
theorem Spared.within {timers : Table (Timer DelayedEmit)} (h : s.Spared field quiet s')
    (hs : s.Within timers) {state : Text} : ({ s' with state } : Scene).Within timers :=
  ⟨h.busy.trans hs.busy, h.timers.trans hs.timers⟩

end Scene

namespace Expr

open Evaluator (isPlain)

/-- Whether a change is made to another field of the data. -/
def writesBeside (field : Text) (target : Value) : Bool :=
  !(Effect.fieldPath target).isEmpty &&
    match Path.ofText (Effect.fieldPath target) with
    | key :: _ => key != field
    | [] => false

/-- Whether an effect leaves a field of the data alone by its form, and is plain but for what it
does to other fields and to the surrounding program. -/
def spares (field : Text) (quiet : Bool) : Nat → Value → Bool
  | levels + 1, .array (.string name :: e :: args) =>
    if name = "set" then
      match args with
      | [operand] => writesBeside field e && isPlain levels operand
      | _ => false
    else if name = "when" then
      match args with
      | [body] => isPlain levels e && spares field quiet levels body
      | _ => false
    else
      (e :: args).all (isPlain levels) &&
        (name == "emit" && !quiet || name == "notify" || name == "render-ui" && !args.isEmpty)
  | _, _ => false

/-- An effect leaves a field of the data and the state alone, also where it fails. -/
def Spares (levels : Nat) (field : Text) (quiet : Bool) (e : Value) : Prop :=
  ∀ (actor : Actor) (ctx : Context) (s : Scene), actor.Acts ctx → s.busy = true →
    actor.Performs levels ctx e s (s.Spared field quiet) (s.Spared field quiet)

variable {field : Text} {quiet : Bool} {levels n : Nat} {e : Value} {args : List Value}

theorem Spares.set {target operand : Value} (htarget : writesBeside field target = true)
    (hoperand : Evaluator.Plain n operand) :
    Spares (n + 1) field quiet (call "set" [target, operand]) := by
  intro actor ctx s hctx hbusy
  obtain ⟨v, hv⟩ := hoperand ctx s.data
  unfold writesBeside at htarget
  rw [Bool.and_eq_true, Bool.not_eq_true', List.isEmpty_eq_false_iff] at htarget
  obtain ⟨hfield, hpath⟩ := htarget
  have hspared : s.Spared field quiet (s.write [(Effect.fieldPath target, v)]) := by
    refine ⟨rfl, rfl, fun _ => rfl, ?_, rfl⟩
    show (s.data.applyChanges [(Effect.fieldPath target, v)]).get field = s.data.get field
    rw [Value.applyChanges_single]
    split at hpath
    next heq =>
      rw [heq]
      exact s.data.get_put_of_ne _ (bne_iff_ne.mp hpath)
    next => cases hpath
  exact .set hctx rfl hfield hv hspared fun _ => hspared

theorem Spares.emit (hargs : ∀ arg ∈ e :: args, Evaluator.Plain (n + 1) arg) :
    Spares (n + 2) field false (call "emit" (e :: args)) := by
  intro actor ctx s hctx hbusy
  obtain ⟨v, hv⟩ := hargs e List.mem_cons_self ctx s.data
  refine .emit hctx hbusy hv (fun arg harg => hargs arg (List.mem_cons_of_mem e harg))
    (fun payload => ?_) fun _ => .refl
  unfold Actor.post
  split
  · exact ⟨rfl, rfl, nofun, rfl, rfl⟩
  · exact .refl

theorem Spares.notify (hargs : ∀ arg ∈ e :: args, Evaluator.Plain n arg) :
    Spares (n + 1) field quiet (call "notify" (e :: args)) := fun _ _ _ hctx _ =>
  .notify hctx (hargs e List.mem_cons_self)
    (fun arg harg => hargs arg (List.mem_cons_of_mem e harg)) .refl fun _ => .refl

theorem Spares.renderUi {slot pattern : Value}
    (hargs : ∀ arg ∈ slot :: pattern :: args, Evaluator.Plain n arg) :
    Spares (n + 1) field quiet (call "render-ui" (slot :: pattern :: args)) := fun _ _ _ hctx _ =>
  .renderUi hctx (hargs slot (by simp)) (hargs pattern (by simp))
    (fun arg harg => hargs arg (by simp [harg])) .refl fun _ => .refl

theorem Spares.when {c : Value} (hc : Evaluator.Plain n c) (h : Spares n field quiet e) :
    Spares (n + 1) field quiet (call "when" [c, e]) := by
  intro actor ctx s hctx hbusy
  obtain ⟨v, hv⟩ := hc ctx s.data
  exact .when hctx hv (fun _ => h actor ctx s hctx hbusy) fun _ => .refl

theorem spares_sound (h : spares field quiet levels e = true) (n : Nat) :
    Spares (n + levels) field quiet e := by
  induction levels generalizing e with
  | zero => cases h
  | succ levels ih =>
    unfold spares at h
    split at h
    next hlevels =>
      cases hlevels
      split at h
      next hname =>
        subst hname
        split at h
        · rw [Bool.and_eq_true] at h
          exact .set h.1 (Evaluator.plain_of_isPlain _ h.2 n)
        · cases h
      next =>
        split at h
        next hname =>
          subst hname
          split at h
          · rw [Bool.and_eq_true] at h
            exact .when (Evaluator.plain_of_isPlain _ h.1 n) (ih h.2)
          · cases h
        next =>
          simp only [Bool.and_eq_true, Bool.or_eq_true, beq_iff_eq, Bool.not_eq_true'] at h
          obtain ⟨hargs, hname⟩ := h
          have hplain := Evaluator.plain_of_all _ hargs n
          obtain (⟨rfl, rfl⟩ | rfl) | ⟨rfl, hlength⟩ := hname
          · cases levels with
            | zero => cases hargs
            | succ levels => exact .emit hplain
          · exact .notify hplain
          · obtain ⟨pattern, rest, rfl⟩ := List.exists_cons_of_ne_nil
              (List.isEmpty_eq_false_iff.mp hlength)
            exact .renderUi hplain
    next => cases h

theorem performsAll_of_spares (field : Text) (quiet : Bool) (levels : Nat) {actor : Actor}
    {ctx : Context} {s : Scene} {es : List Value}
    (hes : es.all (spares field quiet levels) = true) (hctx : actor.Acts ctx)
    (hbusy : s.busy = true) (n : Nat) {Q E : Scene → Prop}
    (hQ : ∀ s', s.Spared field quiet s' → Q s') (hE : ∀ s', s.Spared field quiet s' → E s') :
    actor.PerformsAll (n + levels) ctx es s Q E := by
  induction es generalizing s with
  | nil => exact hQ s .refl
  | cons e rest ih =>
    rw [List.all_cons, Bool.and_eq_true] at hes
    have hfirst := spares_sound hes.1 n actor ctx s hctx hbusy
    refine Actor.Does.mono hfirst (fun _ s' hs' => ?_) fun _ => hE
    exact ih hes.2 (hs'.busy.trans hbusy) (fun s'' hs'' => hQ s'' (hs'.trans hs''))
      fun s'' hs'' => hE s'' (hs'.trans hs'')

/-- What an effect writes into a field, if that is a literal truth value. -/
def flags? (field : Text) : Value → Option Bool
  | .array [.string name, target, .bool b] =>
    if name = "set" ∧ Effect.fieldPath target ≠ [] ∧ Path.ofText (Effect.fieldPath target) = [field]
    then some b else none
  | _ => none

theorem performs_of_flags (field : Text) (b : Bool) (h : flags? field e = some b) {actor : Actor}
    {ctx : Context} {s : Scene} (hctx : actor.Acts ctx) {Q E : Scene → Prop}
    (hQ : ∀ data, data.get field = .bool b → Q { s with data })
    (hE : ∀ data, data.get field = .bool b → E { s with data }) :
    actor.Performs (n + 2) ctx e s Q E := by
  unfold flags? at h
  split at h
  next name target b' =>
    split at h
    next hform =>
      cases h
      obtain ⟨rfl, hne, hpath⟩ := hform
      have hflag : (s.write [(Effect.fieldPath target, .bool b)]).data.get field = .bool b := by
        show (s.data.applyChanges [(Effect.fieldPath target, .bool b)]).get field = .bool b
        rw [Value.applyChanges_single, hpath]
        exact Value.get_put_self _ _ _
      exact .set hctx rfl hne (.literal rfl rfl) (hQ _ hflag) fun _ => hE _ hflag
    next => cases h
  next => cases h

end Expr

/-- A field of the data that is true exactly in a state. -/
structure Indicator where
  flag : Text
  state : Text

namespace Indicator

open Evaluator (isPlain)

variable {i : Indicator} {levels : Nat} {d : Definition}

def Holds (i : Indicator) (state : Text) (data : Value) : Prop :=
  data.get i.flag = .bool (decide (state = i.state))

/-- Whether a transition neither enters nor leaves the state. -/
def passedBy (i : Indicator) (t : Transition) : Bool :=
  match t.target, t.sources with
  | none, _ => true
  | some _, .any => false
  | some target, .listed sources =>
    sources.all fun source => decide (source = i.state) == decide (target = i.state)

/-- Whether a transition enters and leaves the state only as it sets the flag. -/
def keptBy (i : Indicator) (levels : Nat) (t : Transition) : Bool :=
  match t.effects.head?.bind (Expr.flags? i.flag) with
  | some b =>
    t.target.any (fun state => b == decide (state = i.state)) &&
      t.effects.tail.all (Expr.spares i.flag false levels)
  | none => t.effects.all (Expr.spares i.flag false levels) && i.passedBy t

/-- Whether a definition keeps an indicator, by the form of its effects. -/
def fits (i : Indicator) (levels : Nat) (d : Definition) : Bool :=
  d.transitions.all (fun t => t.guard.all (isPlain levels) && i.keptBy levels t) &&
    d.ticks.all (fun tick => tick.guard.all (isPlain levels) &&
      tick.effects.all (Expr.spares i.flag false levels)) &&
    d.initialEffects.isEmpty &&
    match d.defaultData.find? i.flag with
    | some (.bool b) => b == decide (d.initial = i.state)
    | _ => false

variable {actor : Actor} {n : Nat} {s : Scene} {ctx : Context}

theorem passedBy_sound {t : Transition} (h : i.passedBy t = true) {state : Text}
    (hstate : t.sources.accepts state = true) :
    decide (t.target.getD state = i.state) = decide (state = i.state) := by
  unfold passedBy at h
  split at h
  next htarget =>
    rw [htarget]
    rfl
  next => cases h
  next target sources htarget hsources =>
    rw [hsources] at hstate
    rw [htarget]
    exact (beq_iff_eq.mp (List.all_eq_true.mp h state (List.contains_iff_mem.mp hstate))).symm

theorem performs_of_keptBy {t : Transition} (h : i.keptBy (levels + 2) t = true)
    (hctx : actor.Acts ctx) (hbusy : s.busy = true) (hstate : t.sources.accepts s.state = true)
    (hs : i.Holds s.state s.data) :
    actor.PerformsAll (n + (levels + 2)) ctx t.effects s
      (fun s' => ({ s' with state := t.target.getD s.state } : Scene).Within s.timers ∧
        i.Holds (t.target.getD s.state) s'.data) (fun _ => True) := by
  unfold keptBy at h
  split at h
  next b hflags =>
    obtain ⟨e, hhead, hb⟩ := Option.bind_eq_some_iff.mp hflags
    rw [Bool.and_eq_true] at h
    obtain ⟨htarget, hrest⟩ := h
    obtain ⟨target, hsome, hmarks⟩ := (Option.any_eq_true _ _).mp htarget
    rw [← List.cons_head?_tail hhead]
    refine Expr.performs_of_flags i.flag b hb hctx (fun data hdata => ?_) fun _ _ => trivial
    refine Expr.performsAll_of_spares _ _ _ hrest hctx (s := { s with data }) hbusy n
      (fun s' hs' => ⟨hs'.within ⟨hbusy, rfl⟩, ?_⟩) fun _ _ => trivial
    have hflag : s'.data.get i.flag = .bool b := hs'.data.trans hdata
    unfold Holds
    rw [hflag, hsome, Option.getD_some, beq_iff_eq.mp hmarks]
  next =>
    rw [Bool.and_eq_true] at h
    refine Expr.performsAll_of_spares _ _ _ h.1 hctx hbusy n
      (fun s' hs' => ⟨hs'.within ⟨hbusy, rfl⟩, ?_⟩) fun _ _ => trivial
    unfold Holds
    rw [hs'.data, hs, passedBy_sound h.2 hstate]

/-- A new machine shows its state, if its seed does not touch the flag. -/
theorem holds_initially (hfits : i.fits levels d = true) {seed : Value}
    (hseed : ∀ entry ∈ seed.entries, entry.1 ≠ i.flag) :
    i.Holds d.initial (.map (Machine.initialData d seed)) := by
  unfold fits at hfits
  simp only [Bool.and_eq_true] at hfits
  obtain ⟨-, hdefault⟩ := hfits
  have hsame : (Machine.initialData d seed).find? i.flag = d.defaultData.find? i.flag :=
    Table.find?_overlay_of_ne hseed d.defaultData
  split at hdefault
  next b hb =>
    show ((Machine.initialData d seed).find? i.flag).getD .undefined = _
    rw [hsame, hb, beq_iff_eq.mp hdefault]
    rfl
  next => cases hdefault

theorem initialEffects_of_fits (hfits : i.fits levels d = true) : d.initialEffects = [] := by
  unfold fits at hfits
  simp only [Bool.and_eq_true] at hfits
  exact List.isEmpty_iff.mp hfits.1.2

/-- A machine whose definition is of this form keeps its indicator, if nothing fails. -/
theorem endures (levels : Nat) (hcalm : actor.calm)
    (hfits : i.fits (levels + 2) actor.machine.definition = true) :
    actor.Endures (n + (levels + 2)) fun _ => i.Holds := by
  unfold fits at hfits
  simp only [Bool.and_eq_true, List.all_eq_true] at hfits
  obtain ⟨⟨⟨htransitions, hticks⟩, -⟩, -⟩ := hfits
  refine Actor.endures_of_steps hcalm (fun s event payload now hbusy hs => ?_)
    fun tick htick s now hbusy hs => ?_
  · exact {
      decides := fun t ht _ => Actor.exists_asked (htransitions t ht).1 n
      declined := fun _ => ⟨⟨hbusy, rfl⟩, hs⟩
      taken := fun t ht hsuits _ =>
        performs_of_keptBy (htransitions t ht).2 (actor.acts_stage s payload now) hbusy hsuits.2 hs }
  · have hspare : tick.effects.all (Expr.spares i.flag false (levels + 2)) = true :=
      List.all_eq_true.mpr (hticks tick htick).2
    refine ⟨Actor.exists_permitted (hticks tick htick).1 n, ⟨⟨hbusy, rfl⟩, hs⟩, fun _ _ => ?_⟩
    refine Expr.performsAll_of_spares _ _ _ hspare (actor.acts_stage s (.map []) now) hbusy n
      (fun s' hs' => ⟨hs'.within ⟨hbusy, rfl⟩, ?_⟩) fun _ _ => trivial
    unfold Holds
    rw [hs'.data, hs'.state]
    exact hs

end Indicator
end EntityMachines
