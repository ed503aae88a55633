import EntityMachines.Library
import EntityMachines.Proofs.Ending.Operators

/-!
The operators of the standard library follow as the core operators do. Among computations that start
together one without an outcome has been cut off.
-/
namespace EntityMachines

open Program (Any Follows)

/-- Each operator of a library, called in a program, follows itself with another evaluator. -/
def Library.Follows (P : Program) (cut : Prop) (ev ev' : Evaluator) (library : Library) : Prop :=
  ∀ entry ∈ library, ∀ ctx args, Expr.call entry.1 args ∈ P.texts →
    P.Follows cut Any (entry.2 ev ctx args) (entry.2 ev' ctx args)

variable {P : Program} {cut : Prop} {ev ev' : Evaluator} {ctx : Context} {args : List Value}

theorem Library.Follows.append {l l' : Library} (hl : l.Follows P cut ev ev')
    (hl' : l'.Follows P cut ev ev') : Library.Follows P cut ev ev' (l ++ l') := by
  intro entry hentry
  exact (List.mem_append.mp hentry).elim (hl entry) (hl' entry)

theorem Program.arguments_mem {op : Text} (h : Expr.call op args ∈ P.texts) :
    ∀ arg ∈ args, arg ∈ P.texts :=
  fun arg harg => P.closed _ h arg (List.mem_cons_of_mem _ harg)

namespace Evaluator.Imitates

variable (hev : Imitates P cut ev ev')

include hev

theorem ofTotal (functions : List (String × (Arguments → Value))) :
    (Library.ofTotal functions).Follows P cut ev ev' := by
  intro entry hentry ctx args hcall
  obtain ⟨⟨name, f⟩, -, rfl⟩ := List.mem_map.mp hentry
  exact hev.ofValues (P.arguments_mem hcall) _

theorem ofPartial (functions : List (String × (Arguments → Except Error Value))) :
    (Library.ofPartial functions).Follows P cut ev ev' := by
  intro entry hentry ctx args hcall
  obtain ⟨⟨name, f⟩, -, rfl⟩ := List.mem_map.mp hentry
  exact hev.ofValues (P.arguments_mem hcall) f

theorem ofCalling {functions : List (String × (Evaluator → Arguments → Eval Value))}
    (hf : ∀ f ∈ functions, ∀ vs, P.Follows cut Any (f.2 ev vs) (f.2 ev' vs)) :
    (Library.ofCalling functions).Follows P cut ev ev' := by
  intro entry hentry ctx args hcall
  obtain ⟨f, hmem, rfl⟩ := List.mem_map.mp hentry
  exact hev.ofValuesWith (P.arguments_mem hcall) (hf f hmem)

section values

theorem array_reduce (f : Value) (items : List Value) (acc : Value) :
    P.Follows cut Any (Library.Array.reduce ev f acc items)
      (Library.Array.reduce ev' f acc items) := by
  induction items generalizing acc with
  | nil => exact .pure trivial
  | cons item rest ih =>
    unfold Library.Array.reduce
    exact (hev.invoke f [acc, item]).bind fun v _ => ih v

theorem array_partition (f : Value) (items : List Value) :
    P.Follows cut Any (Library.Array.partition ev f items)
      (Library.Array.partition ev' f items) := by
  induction items with
  | nil => exact .pure trivial
  | cons item rest ih =>
    unfold Library.Array.partition
    refine (hev.holds f item).bind fun _ _ => .ite (fun _ => ?_) fun _ => ?_
    · exact ih.bind fun _ _ => .pure trivial
    · exact ih.bind fun _ _ => .pure trivial

theorem array_every (f : Value) (items : List Value) :
    P.Follows cut Any (Library.Array.calling.every ev f items)
      (Library.Array.calling.every ev' f items) := by
  induction items with
  | nil => exact .pure trivial
  | cons item rest ih =>
    unfold Library.Array.calling.every
    exact (hev.holds f item).bind fun _ _ => .ite (fun _ => ih) fun _ => .pure trivial

theorem array_calling : Library.Array.calling.Follows P cut ev ev' := by
  have hwith (name : String) (g : Evaluator → Value → Arguments → Eval Value) (vs : Arguments)
      (hg : ∀ f, P.Follows cut Any (g ev f vs) (g ev' f vs)) :
      P.Follows cut Any ((Library.Array.withLambda name g).2 ev vs)
        ((Library.Array.withLambda name g).2 ev' vs) :=
    (Operator.lambdaAt_follows _ vs 1).bind fun f _ => hg f
  refine hev.ofCalling ?_
  simp only [List.forall_mem_cons, List.not_mem_nil, false_implies, implies_true, and_true]
  refine ⟨fun vs => hwith _ _ vs fun f => ?_, fun vs => hwith _ _ vs fun f => ?_,
    fun vs => hwith _ _ vs fun f => ?_, fun vs => hwith _ _ vs fun f => ?_,
    fun vs => hwith _ _ vs fun f => ?_, fun vs => hwith _ _ vs fun f => ?_,
    fun vs => hwith _ _ vs fun f => ?_, fun vs => hwith _ _ vs fun f => ?_,
    fun vs => hwith _ _ vs fun f => ?_, fun vs => ?_, fun vs => ?_⟩
  · exact (hev.findItem f _ 0).bind fun _ _ => .pure trivial
  · refine (hev.findItem f _ 0).bind fun found _ => ?_
    split
    · exact .pure trivial
    · exact .pure trivial
  · exact (hev.filterItems f _).bind fun _ _ => .pure trivial
  · exact (hev.array_partition f _).bind fun _ _ => .pure trivial
  · exact (hev.mapItems f _).bind fun _ _ => .pure trivial
  · exact hev.array_reduce f _ _
  · exact (hev.array_every f _).bind fun _ _ => .pure trivial
  · exact (hev.findItem f _ 0).bind fun _ _ => .pure trivial
  · exact (hev.array_partition f _).bind fun _ _ => .pure trivial
  · refine .ite (fun _ => .pure trivial) fun _ => ?_
    exact (Operator.lambdaAt_follows _ vs 1).bind fun f _ =>
      (hev.filterItems f _).bind fun _ _ => .pure trivial
  · exact Follows.get.bind fun _ _ => .pure trivial

theorem object_mapValues (f : Value) (entries : List (Text × Value)) :
    P.Follows cut Any (Library.Object.mapValues ev f entries)
      (Library.Object.mapValues ev' f entries) := by
  induction entries with
  | nil => exact .pure trivial
  | cons entry rest ih =>
    unfold Library.Object.mapValues
    exact (hev.invoke f [entry.2]).bind fun _ _ => ih.bind fun _ _ => .pure trivial

theorem object_mapKeys (f : Value) (entries : List (Text × Value)) (renamed : Table Value) :
    P.Follows cut Any (Library.Object.mapKeys ev f renamed entries)
      (Library.Object.mapKeys ev' f renamed entries) := by
  induction entries generalizing renamed with
  | nil => exact .pure trivial
  | cons entry rest ih =>
    unfold Library.Object.mapKeys
    exact (hev.invoke f [.string entry.1]).bind fun _ _ => ih _

theorem object_filterEntries (f : Value) (entries : List (Text × Value)) :
    P.Follows cut Any (Library.Object.filterEntries ev f entries)
      (Library.Object.filterEntries ev' f entries) := by
  induction entries with
  | nil => exact .pure trivial
  | cons entry rest ih =>
    unfold Library.Object.filterEntries
    refine (hev.invoke f [.string entry.1, entry.2]).bind fun _ _ => ?_
    exact .ite (fun _ => ih.bind fun _ _ => .pure trivial) fun _ => ih

theorem object_calling : Library.Object.calling.Follows P cut ev ev' := by
  refine hev.ofCalling ?_
  simp only [List.forall_mem_cons, List.not_mem_nil, false_implies, implies_true, and_true]
  refine ⟨fun vs => ?_, fun vs => ?_, fun vs => ?_⟩
  · exact (Operator.lambdaAt_follows _ vs 1).bind fun f _ =>
      (hev.object_mapValues f _).bind fun _ _ => .pure trivial
  · exact (Operator.lambdaAt_follows _ vs 1).bind fun f _ =>
      (hev.object_mapKeys f _ []).bind fun _ _ => .pure trivial
  · exact (Operator.lambdaAt_follows _ vs 1).bind fun f _ =>
      (hev.object_filterEntries f _).bind fun _ _ => .pure trivial

theorem math_random : Library.Math.random.Follows P cut ev ev' := by
  have hset {w : World} (hw : P.Runs cut w) (random : UInt64) : P.Runs cut { w with random } :=
    hw.congr rfl rfl rfl
  have hdraw : P.Follows cut Any Library.Math.draw Library.Math.draw :=
    Follows.get.bind fun _ _ => Follows.bind (.modify fun _ hw => hset hw _) fun _ _ => .pure trivial
  refine hev.ofCalling ?_
  simp only [List.forall_mem_cons, List.not_mem_nil, false_implies, implies_true, and_true]
  refine ⟨fun vs => ?_, fun vs => ?_, fun vs => ?_⟩
  · exact hdraw.bind fun _ _ => .pure trivial
  · exact hdraw.bind fun _ _ => .pure trivial
  · exact Follows.bind (.modify fun _ hw => hset hw _) fun _ _ => .pure trivial

end values

section async

variable (hargs : ∀ arg ∈ args, arg ∈ P.texts)

include hargs

theorem async_delay :
    P.Follows cut Any (Library.Async.delay ev ctx args) (Library.Async.delay ev' ctx args) :=
  (hev.required hargs _ 0).bind fun _ _ => (P.wait_follows _).bind fun _ _ => hev.optional hargs 1

theorem async_timeout :
    P.Follows cut Any (Library.Async.timeout ev ctx args) (Library.Async.timeout ev' ctx args) := by
  unfold Library.Async.timeout
  refine (Operator.argument_follows hargs _ 0).bind fun effect heffect =>
    (hev.required hargs _ 1).bind fun _ _ => Follows.get.bind fun _ _ => ?_
  refine (Follows.within _ (hev.limited effect heffect ctx)).bind fun _ _ => ?_
  split
  · exact .pure trivial
  · exact .raise _

theorem async_debounce :
    P.Follows cut Any (Library.Async.debounce ev ctx args)
      (Library.Async.debounce ev' ctx args) :=
  (hev.required hargs _ 0).bind fun _ _ => (hev.required hargs _ 1).bind fun _ _ =>
    Follows.bind (.modify fun _ hw => hw.congr rfl rfl rfl) fun _ _ => .pure trivial

theorem async_throttle :
    P.Follows cut Any (Library.Async.throttle ev ctx args)
      (Library.Async.throttle ev' ctx args) := by
  unfold Library.Async.throttle
  refine (hev.required hargs _ 0).bind fun _ _ => (hev.required hargs _ 1).bind fun _ _ =>
    Follows.get.bind fun w hw => ?_
  refine Follows.bind (.set (hw.congr rfl rfl rfl)) fun _ _ => ?_
  exact .ite (fun _ => (hev.emitLater _ _).bind fun _ _ => .pure trivial) fun _ => .pure trivial

omit hargs in
theorem async_attempts {effect : Value} (heffect : effect ∈ P.texts) (ctx : Context)
    (backoff : Text) (base : Float) (left i : Nat) (last : Option Error) :
    P.Follows cut Any (Library.Async.attempts ev ctx effect backoff base left i last)
      (Library.Async.attempts ev' ctx effect backoff base left i last) := by
  induction left generalizing i last with
  | zero =>
    cases last with
    | none => exact .pure trivial
    | some e => exact .raise e
  | succ left ih =>
    unfold Library.Async.attempts
    refine (hev.evaluate effect heffect ctx).attempt.bind fun outcome _ => ?_
    cases outcome with
    | ok v => exact .pure trivial
    | error e =>
      refine (P.note_follows _ _ _).bind fun _ _ => .ite (fun _ => ?_) fun _ => ih _ _
      exact (P.wait_follows _).bind fun _ _ => ih _ _

theorem async_retry :
    P.Follows cut Any (Library.Async.retry ev ctx args) (Library.Async.retry ev' ctx args) :=
  (Operator.argument_follows hargs _ 0).bind fun _ heffect =>
    (hev.optional hargs 1).bind fun _ _ => hev.async_attempts heffect ctx _ _ _ 0 none

theorem async_together (start : Nat) (limit : Option Nat) :
    P.Follows cut (fun outcomes => limit = none → none ∈ outcomes → cut)
      (Library.Async.together ev ctx start limit args)
      (Library.Async.together ev' ctx start limit args) := by
  induction args with
  | nil => exact .pure nofun
  | cons effect rest ih =>
    obtain ⟨heffect, hrest⟩ := List.forall_mem_cons.mp hargs
    unfold Library.Async.together
    refine (P.setElapsed_follows start).bind fun _ _ => ?_
    cases limit with
    | some limit =>
      have hrun : P.Follows cut Any
          (Eval.within limit (Eval.settle (ev.evaluate effect ctx)))
          (Eval.within limit (Eval.settle (ev'.evaluate effect ctx))) :=
        (hev.limited effect heffect ctx).settle.within limit
      exact (hrun.map _).bind fun _ _ => Follows.get.bind fun _ _ =>
        (ih hrest).bind fun _ _ => .pure nofun
    | none =>
      refine (hev.evaluate effect heffect ctx).settle.bind fun result hresult =>
        Follows.get.bind fun _ _ => (ih hrest).bind fun outcomes houtcomes => .pure fun _ hnone => ?_
      rcases List.mem_cons.mp hnone with hfirst | hlater
      · exact hresult (Option.map_eq_none_iff.mp hfirst.symm)
      · exact houtcomes rfl hlater

theorem async_finishTimes :
    P.Follows cut Any (Library.Async.finishTimes ev ctx args)
      (Library.Async.finishTimes ev' ctx args) := by
  induction args with
  | nil => exact .pure trivial
  | cons effect rest ih =>
    obtain ⟨heffect, hrest⟩ := List.forall_mem_cons.mp hargs
    unfold Library.Async.finishTimes
    exact (hev.evaluate effect heffect ctx).finishTime.bind fun _ _ =>
      (ih hrest).bind fun _ _ => .pure trivial

theorem async_race (hcut : cut) :
    P.Follows cut Any (Library.Async.race ev ctx args) (Library.Async.race ev' ctx args) := by
  unfold Library.Async.race
  refine .ite (fun _ => .pure trivial) fun _ => Follows.get.bind fun _ _ =>
    (hev.async_finishTimes hargs).bind fun times _ => ?_
  split
  · exact .throw fun _ => hcut
  · refine (hev.async_together hargs _ _).bind fun outcomes _ =>
      (P.setElapsed_follows _).bind fun _ _ => ?_
    split
    · exact .ofExcept _
    · exact .throw fun _ => hcut

theorem async_all :
    P.Follows cut Any (Library.Async.all ev ctx args) (Library.Async.all ev' ctx args) := by
  unfold Library.Async.all
  refine Follows.get.bind fun _ _ =>
    (hev.async_together hargs _ none).bind fun outcomes houtcomes => ?_
  dsimp only
  split
  · exact (P.setElapsed_follows _).bind fun _ _ => .ofExcept _
  · refine .ite (fun hfewer => .throw fun _ => houtcomes rfl ?_) fun _ => ?_
    · obtain ⟨outcome, houtcome, hnone⟩ :=
        List.length_filterMap_lt_length_iff_exists.mp hfewer
      exact (show outcome = none from hnone) ▸ houtcome
    · exact (P.setElapsed_follows _).bind fun _ _ => .pure trivial

theorem async_sequence :
    P.Follows cut Any (Library.Async.sequence ev ctx args) (Library.Async.sequence ev' ctx args) :=
  (hev.evaluateAll hargs).bind fun _ _ => .pure trivial

omit hargs in
theorem async_operators : Library.Async.operators.Follows P cut ev ev' := by
  have hmem {op : Text} {args : List Value} (h : Expr.call op args ∈ P.texts) :=
    P.arguments_mem h
  simp only [Library.Follows, Library.Async.operators, List.map_cons, List.map_nil,
    List.forall_mem_cons, List.not_mem_nil, false_implies, implies_true, and_true]
  exact ⟨fun _ _ h => hev.async_delay (hmem h), fun _ _ h => hev.async_timeout (hmem h),
    fun _ _ h => hev.async_debounce (hmem h), fun _ _ h => hev.async_throttle (hmem h),
    fun _ _ h => hev.async_retry (hmem h),
    fun _ args h => hev.async_race (hmem h) (hev.race ⟨args, h⟩),
    fun _ _ h => hev.async_all (hmem h), fun _ _ h => hev.async_sequence (hmem h)⟩

end async

theorem time_contextuals : Library.Time.contextuals.Follows P cut ev ev' := by
  intro entry hentry ctx args hcall
  obtain ⟨⟨name, f⟩, -, rfl⟩ := List.mem_map.mp hentry
  exact (hev.evaluateAll (P.arguments_mem hcall)).bind fun _ _ => .pure trivial

theorem validate_operators : Library.Validate.operators.Follows P cut ev ev' := by
  refine .append ?_ (hev.ofTotal _)
  intro entry hentry ctx args hcall
  obtain ⟨⟨name, rule⟩, -, rfl⟩ := List.mem_map.mp hentry
  exact hev.ofValues (P.arguments_mem hcall) _

theorem standard : Library.standard.Follows P cut ev ev' := by
  have hmath : Library.Math.operators.Follows P cut ev ev' :=
    .append (.append (hev.ofTotal _) (hev.ofPartial _)) hev.math_random
  have hstrings : Library.Strings.operators.Follows P cut ev ev' :=
    .append (hev.ofTotal _) (hev.ofPartial _)
  have harray : Library.Array.operators.Follows P cut ev ev' :=
    .append (hev.ofTotal _) hev.array_calling
  have hobject : Library.Object.operators.Follows P cut ev ev' :=
    .append (.append (hev.ofTotal _) (hev.ofPartial _)) hev.object_calling
  have htime : Library.Time.operators.Follows P cut ev ev' :=
    .append (hev.ofTotal _) hev.time_contextuals
  have hformat : Library.Format.operators.Follows P cut ev ev' := hev.ofTotal _
  have hvalues := ((hmath.append hstrings).append harray).append hobject
  have hrest := (hvalues.append htime).append hformat
  exact (hrest.append hev.validate_operators).append hev.async_operators

/-- One step on top of an evaluator that imitates another follows a step on top of the other. -/
theorem step {e : Value} (he : e ∈ P.texts) (ctx : Context) :
    P.Follows cut Any (Evaluator.step Library.standard ev e ctx)
      (Evaluator.step Library.standard ev' e ctx) := by
  unfold Evaluator.step
  split
  next op args =>
    have hcall : Expr.call op args ∈ P.texts := he
    cases hop : Evaluator.operator? Library.standard op with
    | none => exact .raise _
    | some apply =>
      unfold Evaluator.operator? at hop
      cases hcore : CoreOp.ofName? op with
      | some core =>
        rw [hcore] at hop
        cases hop
        exact hev.core (P.arguments_mem hcall) core
      | none =>
        rw [hcore] at hop
        obtain ⟨before, behind, heq, -⟩ := List.lookup_eq_some_iff.mp hop
        have hmem : (op, apply) ∈ Library.standard := by rw [heq]; simp
        exact hev.standard _ hmem ctx args hcall
  next => exact .ite (fun _ => ctx.resolveText_follows _) fun _ => .pure trivial
  next => exact .pure trivial

end Evaluator.Imitates
end EntityMachines
