import EntityMachines.Proofs.Lockstep.Sealed

/-!
Without handlers evaluation is free of effects. The asynchronous operators, which run computations
alongside each other and put events off, have a way of their own to go without handlers; with them
every operator keeps a run sealed.
-/
namespace EntityMachines

namespace Library.Async

/-- The outcome that comes first is one of them. -/
theorem earliest?_mem {outcomes : List Outcome} {o : Outcome} (h : earliest? outcomes = some o) :
    o ∈ outcomes := by
  unfold earliest? at h
  revert o
  apply List.foldlRecOn (motive := fun found => ∀ {o : Outcome}, found = some o → o ∈ outcomes)
  · intro o h
    cases h
  · intro found hfound first hfirst o h
    cases found with
    | none =>
      cases h
      exact hfirst
    | some best =>
      dsimp only at h
      split at h
      · cases h
        exact hfirst
      · exact hfound h

end Library.Async

namespace Lockstep
namespace Argued

open Eval (Yields)
open Library.Async (Outcome earliest? earliest?_mem)

variable {start : World} {known : Nat → Prop} {ev : Evaluator} {ctx : Context} {args : List Value}
  (h : Argued start known ev ctx args)

include h

theorem delay : Yields (Sealed start known) (Known known) (Library.Async.delay ev ctx args) :=
  (h.required _ 0).bind fun _ _ => (Yields.wait sealed_lasting _).bind fun _ _ => h.optional 1

theorem timeout :
    Yields (Sealed start known) (Known known) (Library.Async.timeout ev ctx args) := by
  refine (argument _ args 0).bind fun effect heffect => (h.required _ 1).bind fun ms _ => ?_
  refine Yields.get.bind fun w _ => ?_
  refine (Yields.within sealed_lasting _ (h.evaluates effect heffect)).bind
    fun outcome houtcome => ?_
  cases outcome with
  | some v => exact .pure (houtcome v rfl)
  | none => exact .raise _

/-- A timer that is armed without handlers is silent. -/
theorem debounce :
    Yields (Sealed start known) (Known known) (Library.Async.debounce ev ctx args) := by
  refine (h.required _ 0).bind fun event _ => (h.required _ 1).bind fun ms _ => ?_
  refine Yields.bind (Yields.modify fun w hw => ?_) fun _ _ => undefined
  exact hw.debounce ⟨event.display, ctx.handlers⟩ h.handlers

theorem emitLater (event : Text) :
    Yields (Sealed start known) (fun _ => True) (Effect.emitLater ev ctx.handlers event) := by
  rw [h.handlers]
  exact Yields.note sealed_lasting _ _ _

theorem throttle :
    Yields (Sealed start known) (Known known) (Library.Async.throttle ev ctx args) := by
  refine (h.required _ 0).bind fun event _ => (h.required _ 1).bind fun ms _ => ?_
  apply Yields.get_bind
  intro w hw
  have hlater := sealed_lasting.throttle event.display (Double.toInt (Double.ceil ms.toNumber)) hw
  have hrest : Yields (Sealed start known) (Known known) (do
      if (w.timing.throttle event.display (Double.toInt (Double.ceil ms.toNumber))).1 then
        Effect.emitLater ev ctx.handlers event.display
      return .undefined) := by
    apply Yields.ite
    · intro _
      exact (h.emitLater _).bind fun _ _ => undefined
    · intro _
      exact undefined
  exact hrest _ hlater

theorem attempts {effect : Value} (heffect : effect ∈ args) (backoff : Text) (base : Float)
    (left i : Nat) (last : Option Error) :
    Yields (Sealed start known) (Known known)
      (Library.Async.attempts ev ctx effect backoff base left i last) := by
  induction left generalizing i last with
  | zero =>
    cases last with
    | none => exact undefined
    | some e => exact .raise e
  | succ left ih =>
    refine (h.evaluates effect heffect).attempt.bind fun outcome houtcome => ?_
    cases outcome with
    | ok v => exact .pure (houtcome v rfl)
    | error e =>
      refine (Yields.note sealed_lasting _ _ _).bind fun _ _ => ?_
      apply Yields.ite
      · intro _
        exact (Yields.wait sealed_lasting _).bind fun _ _ => ih _ _
      · intro _
        exact ih _ _

theorem retry : Yields (Sealed start known) (Known known) (Library.Async.retry ev ctx args) :=
  (argument _ args 0).bind fun _ heffect => (h.optional 1).bind fun _ _ =>
    h.attempts heffect _ _ _ _ _

/-- The values of computations that run together are known. -/
theorem together (begun : Nat) (limit : Option Nat) {effects : List Value}
    (heffects : ∀ e ∈ effects, e ∈ args) :
    Yields (Sealed start known)
      (fun outcomes => ∀ o, some o ∈ outcomes → ∀ v, o.result = .ok v → Known known v)
      (Library.Async.together ev ctx begun limit effects) := by
  induction effects with
  | nil => exact .pure fun o ho => nomatch ho
  | cons effect rest ih =>
    rw [List.forall_mem_cons] at heffects
    have hrun := (h.evaluates effect heffects.1).settle
    have hrest (result : Option (Except Error Value))
        (hvalue : ∀ v, result = some (.ok v) → Known known v) :
        Yields (Sealed start known)
          (fun outcomes => ∀ o, some o ∈ outcomes → ∀ v, o.result = .ok v → Known known v) (do
            let time := (← get).elapsed
            return result.map (⟨time, ·⟩) ::
              (← Library.Async.together ev ctx begun limit rest)) := by
      refine Yields.get.bind fun w _ => (ih heffects.2).bind fun outcomes houtcomes => .pure ?_
      intro o ho v hv
      rcases List.mem_cons.mp ho with hfirst | hlater
      · obtain ⟨r, hr, rfl⟩ := Option.map_eq_some_iff.mp hfirst.symm
        apply hvalue
        rw [hr, ← hv]
      · exact houtcomes o hlater v hv
    apply (Yields.setElapsed sealed_lasting begun).bind
    intro _ _
    cases limit with
    | none => exact hrun.bind hrest
    | some limit =>
      have hjoined := (Yields.within sealed_lasting limit hrun).map
        (U := fun outcome => ∀ v, outcome = some (.ok v) → Known known v) (f := Option.join) <| by
          intro outcome houtcome v hv
          exact houtcome (some (.ok v)) (Option.join_eq_some_iff.mp hv) v rfl
      exact hjoined.bind hrest

omit h in
theorem finishTimes {effects : List Value} :
    Yields (Sealed start known) (fun _ => True) (Library.Async.finishTimes ev ctx effects) := by
  induction effects with
  | nil => exact .pure trivial
  | cons effect rest ih =>
    exact (Yields.finishTime _).bind fun time _ => ih.bind fun times _ => .pure trivial

theorem race : Yields (Sealed start known) (Known known) (Library.Async.race ev ctx args) := by
  unfold Library.Async.race
  apply Yields.ite
  · intro _
    exact undefined
  · intro _
    refine Yields.get.bind fun w _ => finishTimes.bind fun times _ => ?_
    cases times.min? with
    | none => exact .throw _
    | some limit =>
      refine (h.together w.elapsed (some limit) fun _ he => he).bind fun outcomes houtcomes => ?_
      refine (Yields.setElapsed sealed_lasting limit).bind fun _ _ => ?_
      cases hfirst : earliest? (outcomes.filterMap id) with
      | none => exact .throw _
      | some o =>
        have ho : some o ∈ outcomes := by simpa using earliest?_mem hfirst
        dsimp only
        cases hresult : o.result with
        | ok v => exact .pure (houtcomes o ho v hresult)
        | error e => exact .raise e

theorem all : Yields (Sealed start known) (Known known) (Library.Async.all ev ctx args) := by
  refine Yields.get.bind fun w _ => ?_
  refine (h.together w.elapsed none fun _ he => he).bind fun outcomes houtcomes => ?_
  dsimp only
  split
  next o hfirst =>
    refine (Yields.setElapsed sealed_lasting _).bind fun _ _ => ?_
    have ho : some o ∈ outcomes := by
      have hfailed := (List.mem_filter.mp (earliest?_mem hfirst)).1
      simpa using hfailed
    cases hresult : o.result with
    | ok v => exact .pure (houtcomes o ho v hresult)
    | error e => exact .raise e
  next =>
    apply Yields.ite
    · intro _
      exact .throw _
    · intro _
      refine (Yields.setElapsed sealed_lasting _).bind fun _ _ => .pure (known_array ?_)
      intro v hv
      obtain ⟨o, ho, hok⟩ := List.mem_filterMap.mp hv
      have ho : some o ∈ outcomes := by simpa using ho
      cases hresult : o.result with
      | ok u =>
        rw [hresult] at hok
        cases hok
        exact houtcomes o ho v hresult
      | error e =>
        rw [hresult] at hok
        cases hok

theorem sequence :
    Yields (Sealed start known) (Known known) (Library.Async.sequence ev ctx args) := by
  have hall : ∀ effects, (∀ e ∈ effects, e ∈ args) →
      Yields (Sealed start known) (fun vs => ∀ v ∈ vs, Known known v)
        (ev.evaluateAll ctx effects) := by
    intro effects heffects
    unfold Evaluator.evaluateAll
    induction effects with
    | nil => exact .pure fun v hv => nomatch hv
    | cons effect rest ih =>
      rw [List.forall_mem_cons] at heffects
      rw [List.mapM_cons]
      refine (h.evaluates effect heffects.1).bind fun v hv => (ih heffects.2).bind fun vs hvs => ?_
      exact .pure (List.forall_mem_cons.mpr ⟨hv, hvs⟩)
  exact (hall args fun _ he => he).bind fun vs hvs => .pure (known_array hvs)

end Argued

theorem alone_regular (start : World) (known : Nat → Prop) (name : Text) :
    (alone start known).Regular name where
  draws _ := by
    constructor
    · intro w w' hworlds
      rw [hworlds.1]
    · intro w w' n hworlds
      obtain ⟨rfl, hw⟩ := hworlds
      exact ⟨rfl, { hw.unaffected with }, hw.fresh, hw.closures, hw.armed⟩
  async _ := by
    simp only [Library.Async.operators, List.map_cons, List.map_nil, List.forall_mem_cons,
      List.not_mem_nil, false_implies, implies_true, and_true]
    exact ⟨serves_alone fun _ _ _ h => h.delay, serves_alone fun _ _ _ h => h.timeout,
      serves_alone fun _ _ _ h => h.debounce, serves_alone fun _ _ _ h => h.throttle,
      serves_alone fun _ _ _ h => h.retry, serves_alone fun _ _ _ h => h.race,
      serves_alone fun _ _ _ h => h.all, serves_alone fun _ _ _ h => h.sequence⟩
  effect _ op := serves_alone fun _ _ _ h => h.effect op

/-- Evaluation of a sealed expression keeps the world sealed and gives a known value. -/
theorem sealed_withFuel {start : World} {known : Nat → Prop} (fuel : Nat) {e : Value}
    {ctx : Context} (h : SealedIn start known e ctx) :
    Eval.Yields (Sealed start known) (Known known)
      ((Evaluator.withFuel Library.standard fuel).evaluate e ctx) :=
  agrees_alone_iff.mp (withFuel (fun name _ => alone_regular start known name) fuel ⟨rfl, h⟩)

end Lockstep

/-- A closure is reached from some closures: it is one of them, or it stands in the body of one
that is reached or in the data around it. -/
inductive World.Reaches (w : World) (roots : Nat → Prop) : Nat → Prop
  | root {id : Nat} (h : roots id) : Reaches w roots id
  | body {id place : Nat} {k : Closure} (reached : Reaches w roots place)
      (made : w.closures[place]? = some k) (h : k.body.Holds id) : Reaches w roots id
  | captured {id place : Nat} {k : Closure} (reached : Reaches w roots place)
      (made : w.closures[place]? = some k) (h : k.captured.Carries w id) : Reaches w roots id

/-- No closure that is reached brings handlers of its own. -/
def World.Unhandled (w : World) (roots : Nat → Prop) : Prop :=
  ∀ id k, w.Reaches roots id → w.closures[id]? = some k → k.captured.handlers = {}

/-- A delayed event that is not emitted when its time comes; a note in the log is all there is. -/
def DelayedEmit.Silent (action : DelayedEmit) : Prop :=
  ∀ ev w, ∃ message, Timers.act ev action w
    = .ok none { w with timing := w.timing.write .debug "async" message }

/-- Evaluation without effects, whether it fails or not. -/
structure Eval.EffectFree (x : Eval Value) (w : World) : Prop where
  unaffected : w.Unaffected (Eval.after x w)
  value : ∀ v later, x w = .ok v later → later.Unhandled v.Holds
  timers : ∃ armed : List DelayedEmit,
    (Eval.after x w).timing.timers = Timing.arm w.timing.timers armed
      ∧ ∀ action ∈ armed, action.Silent

theorem DelayedEmit.silent_of_unhandled {action : DelayedEmit} (h : action.handlers = {}) :
    action.Silent := by
  intro ev w
  refine ⟨"emit " ++ action.event ++ ": no handler installed, skipped", ?_⟩
  unfold Timers.act
  rw [h]
  rfl

namespace Lockstep

variable {start : World}

theorem Sealed.value {known : Nat → Prop} {later : World} (h : Sealed start known later) {v : Value}
    (hv : Known known v) : later.Unhandled v.Holds := by
  have hcarries (ctx : Context) (id : Nat) (hid : ctx.Carries later id) : ctx.Carries start id := by
    cases hid with
    | payload hid => exact .payload hid
    | user hid => exact .user hid
    | singletons entry hentry hid => exact .singletons entry hentry hid
    | locals entry hentry hid => exact .locals entry hentry hid
    | entity store hstore hid =>
      rw [h.unaffected.stores] at hid
      exact .entity store hstore hid
  have hknown : ∀ id, later.Reaches v.Holds id → known id := by
    intro id hid
    induction hid with
    | root hid => exact hv _ hid
    | body _ hmade hid ih => exact (h.closures _ _ ih hmade).expression _ hid
    | captured _ hmade hid ih => exact (h.closures _ _ ih hmade).data _ (hcarries _ _ hid)
  intro id k hid hk
  exact (h.closures id k (hknown id hid) hk).handlers

/-- What is reached from an expression and the data around it, and what is made from now on. -/
def around (start : World) (e : Value) (ctx : Context) (id : Nat) : Prop :=
  start.Reaches (fun id => e.Holds id ∨ ctx.Carries start id) id ∨ start.closures.size ≤ id

theorem sealed_start {e : Value} {ctx : Context}
    (h : start.Unhandled fun id => e.Holds id ∨ ctx.Carries start id) :
    Sealed start (around start e ctx) start where
  unaffected := ⟨rfl, rfl, rfl, rfl, rfl⟩
  fresh id hid := .inr hid
  closures id k hid hk := by
    have hreached : start.Reaches (fun id => e.Holds id ∨ ctx.Carries start id) id := by
      rcases hid with hreached | hsize
      · exact hreached
      · rw [Array.getElem?_eq_none hsize] at hk
        cases hk
    constructor
    · exact h id k hreached hk
    · exact fun other hother => .inl (.body hreached hk hother)
    · exact fun other hother => .inl (.captured hreached hk hother)
  armed := ⟨[], rfl, fun action haction => nomatch haction⟩

end Lockstep

namespace Evaluator

/-- Without handlers evaluation is free of effects: if the context has none and no closure around
the expression brings any, neither an effect nor an asynchronous operator gets anywhere. -/
theorem effectFree_of_unhandled (fuel : Nat) {e : Value} {ctx : Context} {w : World}
    (hhandlers : ctx.handlers = {})
    (hclosures : w.Unhandled fun id => e.Holds id ∨ ctx.Carries w id) :
    Eval.EffectFree ((withFuel Library.standard fuel).evaluate e ctx) w := by
  have hsealed : Lockstep.SealedIn w (Lockstep.around w e ctx) e ctx := by
    constructor
    · exact hhandlers
    · exact fun id hid => .inl (.root (.inl hid))
    · exact fun id hid => .inl (.root (.inr hid))
  have hend := Lockstep.sealed_withFuel fuel hsealed w (Lockstep.sealed_start hclosures)
  have hlater : Lockstep.Sealed w (Lockstep.around w e ctx)
      (Eval.after ((withFuel Library.standard fuel).evaluate e ctx) w) := by
    unfold Eval.after
    generalize (withFuel Library.standard fuel).evaluate e ctx w = result at hend ⊢
    cases hend with
    | ok _ hworld => exact hworld
    | error hworld => exact hworld
  constructor
  · exact hlater.unaffected
  · intro v later hv
    rw [hv] at hend
    cases hend with
    | ok hvalue hworld => exact hworld.value hvalue
  · obtain ⟨armed, htimers, hsilent⟩ := hlater.armed
    exact ⟨armed, htimers, fun action haction =>
      DelayedEmit.silent_of_unhandled (hsilent action haction)⟩

/-- A visit to each item of the payload, by a closure that the payload holds. -/
def rounds : Value := Expr.call "map" [.string "@payload.items", .string "@payload.visit"]

def roundsIn : Context where
  store := some 0
  payload := .map [("items", .array [1, 2]), ("visit", .closure 0)]

/-- The visitor changes the entity, emits an event and goes on to another closure. -/
def visitor : Closure where
  parameters := .single "x"
  body := Expr.call "do" [Expr.call "increment" [.string "@entity.hp", .string "@x"],
    Expr.call "emit" ["visited"], Expr.call "array/map" [.array [1], .string "@later"]]
  captured := { store := some 0, locals := [("later", .closure 1)] }

/-- That one puts an event off. -/
def keeper : Closure := ⟨.single "x", Expr.call "async/debounce" ["saved", 5], {}⟩

/-- A world with a third closure, which has handlers and is out of reach. -/
def visited : World where
  stores := #[.map [("hp", 10)]]
  closures := #[visitor, keeper,
    ⟨.single "x", .string "@x", { handlers := Handlers.ofNames ["set"] "log" 0 }⟩]

theorem visited_unhandled :
    visited.Unhandled fun id => rounds.Holds id ∨ roundsIn.Carries visited id := by
  have hentity (id : Nat) : ¬ (visited.stores.getD 0 (.map [])).Holds id := by
    simp [visited, Value.Holds, Value.parts, Value.partsOfEntries]
  have hreached : ∀ id,
      visited.Reaches (fun id => rounds.Holds id ∨ roundsIn.Carries visited id) id →
      id = 0 ∨ id = 1 := by
    intro id hid
    induction hid with
    | @root id h =>
      rcases h with h | h
      · simp [rounds, Expr.call, Value.Holds, Value.parts, Value.partsOfItems] at h
      · cases h with
        | payload h =>
          simp [roundsIn, Value.Holds, Value.parts, Value.partsOfItems, Value.partsOfEntries] at h
          exact .inl h
        | user h => exact absurd h (Value.not_holds_undefined id)
        | singletons _ hentry | locals _ hentry => cases hentry
        | entity _ hstore h =>
          cases hstore
          exact absurd h (hentity id)
    | body _ hmade h ih =>
      rcases ih with rfl | rfl
      · obtain rfl : visitor = _ := Option.some.inj hmade
        simp [visitor, Expr.call, Value.Holds, Value.parts, Value.partsOfItems] at h
      · obtain rfl : keeper = _ := Option.some.inj hmade
        simp [keeper, Expr.call, Value.Holds, Value.parts, Value.partsOfItems] at h
    | @captured id _ _ _ hmade h ih =>
      rcases ih with rfl | rfl
      · cases hmade
        cases h with
        | payload h | user h => exact absurd h (Value.not_holds_undefined _)
        | singletons _ hentry => cases hentry
        | locals entry hentry h =>
          rw [List.mem_singleton.mp hentry] at h
          exact .inr (Value.holds_closure.mp h)
        | entity _ hstore h =>
          cases hstore
          exact absurd h (hentity id)
      · cases hmade
        cases h with
        | payload h | user h => exact absurd h (Value.not_holds_undefined _)
        | singletons _ hentry | locals _ hentry => cases hentry
        | entity _ hstore => cases hstore
  intro id k hid hk
  rcases hreached id hid with rfl | rfl
  · cases hk
    rfl
  · cases hk
    rfl

theorem rounds_effectFree :
    roundsIn.handlers = {}
      ∧ visited.Unhandled (fun id => rounds.Holds id ∨ roundsIn.Carries visited id)
      ∧ Eval.EffectFree ((withFuel Library.standard 9).evaluate rounds roundsIn) visited :=
  ⟨rfl, visited_unhandled, effectFree_of_unhandled 9 rfl visited_unhandled⟩

end Evaluator
end EntityMachines
