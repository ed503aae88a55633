import EntityMachines.Proofs.Library.Object
import EntityMachines.Proofs.Numeral.Order

/-!
Operators of the core that a module has a second time. The core takes its arguments one by one, the
modules take theirs all evaluated. Main statements: on the arguments that an operator of the core
uses, both come to the same numbers unless a number is to be kept within bounds that are crossed,
and both do the same to the items of arrays, whatever the closures that they call do.
-/
namespace EntityMachines

/-! Arithmetic. -/

namespace Arithmetic

open Numeral (rank)

/-- The two are one number, or neither is a number. -/
def SameNumber (x y : Float) : Prop := (x == y) = true ∨ x.isNaN = true ∧ y.isNaN = true

theorem SameNumber.refl (x : Float) : SameNumber x x := by
  cases hx : x.isNaN with
  | false => exact .inl ((Numeral.beq_iff x x).mpr ⟨hx, hx, rfl⟩)
  | true => exact .inr ⟨hx, hx⟩

theorem sameNumber_iff_rank {x y : Float} (hx : x.isNaN = false) (hy : y.isNaN = false) :
    SameNumber x y ↔ rank x = rank y := by
  constructor
  · rintro (hequal | ⟨hnan, -⟩)
    · exact ((Numeral.beq_iff x y).mp hequal).2.2
    · exact absurd (hx.symm.trans hnan) Bool.false_ne_true
  · exact fun hrank => .inl ((Numeral.beq_iff x y).mpr ⟨hx, hy, hrank⟩)

theorem isNaN_choice (a b : Float) (p : Prop) [Decidable p] :
    (if a.isNaN || b.isNaN then Double.nan else if p then b else a).isNaN
      = (a.isNaN || b.isNaN) := by
  split
  next h =>
    rw [h]
    decide
  next h =>
    obtain ⟨ha, hb⟩ := Bool.or_eq_false_iff.mp (Bool.eq_false_iff.mpr h)
    rw [ha, hb]
    split
    · exact hb
    · exact ha

theorem min_isNaN (a b : Float) : (min a b).isNaN = (a.isNaN || b.isNaN) := isNaN_choice a b _

theorem max_isNaN (a b : Float) : (max a b).isNaN = (a.isNaN || b.isNaN) := isNaN_choice a b _

theorem rank_min {a b : Float} (ha : a.isNaN = false) (hb : b.isNaN = false) :
    rank (min a b) = Min.min (rank a) (rank b) := by
  unfold min
  rw [ha, hb, if_neg (by decide)]
  split
  next h => exact (min_eq_right ((Numeral.lt_iff_rank hb ha).mp h).le).symm
  next h => exact (min_eq_left (not_lt.mp (mt (Numeral.lt_iff_rank hb ha).mpr h))).symm

theorem rank_max {a b : Float} (ha : a.isNaN = false) (hb : b.isNaN = false) :
    rank (max a b) = Max.max (rank a) (rank b) := by
  unfold max
  rw [ha, hb, if_neg (by decide)]
  split
  next h => exact (max_eq_right ((Numeral.lt_iff_rank ha hb).mp h).le).symm
  next h => exact (max_eq_left (not_lt.mp (mt (Numeral.lt_iff_rank ha hb).mpr h))).symm

/-- It does not matter which bound comes first unless the bounds are crossed. -/
theorem max_min_eq_iff {α : Type} [LinearOrder α] (a low high : α) :
    Max.max low (Min.min high a) = Min.min (Max.max a low) high ↔ low ≤ high := by
  constructor
  · intro h
    calc low ≤ Max.max low (Min.min high a) := le_max_left _ _
      _ = Min.min (Max.max a low) high := h
      _ ≤ high := min_le_right _ _
  · intro h
    rw [max_min_distrib_left, max_eq_right h, max_comm low a, min_comm]

theorem fold_eq (ev : Evaluator) (ctx : Context) (f : Float → Float → Float) (start : Float)
    (es : List Value) : fold ev ctx f start es = (do
      return .number ((← ev.evaluateAll ctx es).foldl (fun acc v => f acc v.toNumber) start)) := by
  induction es generalizing start with
  | nil => rfl
  | cons e rest ih =>
    simp only [fold, ih, Operator.evaluateAll_cons, bind_assoc, pure_bind, List.foldl_cons]

theorem clamp_same_iff (x low high : Float) :
    SameNumber (clamp x low high) (Library.Math.clamp x low high) ↔
      ¬(high < low ∧ x.isNaN = false) := by
  have hcore : (clamp x low high).isNaN = (low.isNaN || (high.isNaN || x.isNaN)) := by
    rw [clamp, max_isNaN, min_isNaN]
  have hmath : (Library.Math.clamp x low high).isNaN = (clamp x low high).isNaN := by
    rw [hcore, Library.Math.clamp, min_isNaN, max_isNaN, Bool.or_assoc, Bool.or_comm,
      Bool.or_assoc]
  cases hnumber : (clamp x low high).isNaN with
  | false =>
    rw [hcore, Bool.or_eq_false_iff, Bool.or_eq_false_iff] at hnumber
    obtain ⟨hlow, hhigh, hx⟩ := hnumber
    have hclamped : (clamp x low high).isNaN = false := by rw [hcore, hlow, hhigh, hx]; rfl
    have hmin : (min high x).isNaN = false := by rw [min_isNaN, hhigh, hx]; rfl
    have hmax : (max x low).isNaN = false := by rw [max_isNaN, hx, hlow]; rfl
    rw [sameNumber_iff_rank hclamped (hmath.trans hclamped), clamp, Library.Math.clamp,
      rank_max hlow hmin, rank_min hhigh hx, rank_min hmax hhigh, rank_max hx hlow, max_min_eq_iff,
      Numeral.lt_iff_rank hhigh hlow]
    exact ⟨fun hle hcrossed => hle.not_gt hcrossed.1, fun h => not_lt.mp fun hlt => h ⟨hlt, hx⟩⟩
  | true =>
    -- where a number is missing the answer is missing, too, and no bounds are crossed
    refine iff_of_true (.inr ⟨hnumber, hmath.trans hnumber⟩) fun ⟨hcrossed, hx⟩ => ?_
    obtain ⟨hhigh, hlow⟩ := Numeral.isNaN_of_lt hcrossed
    rw [hcore, hlow, hhigh, hx] at hnumber
    cases hnumber

end Arithmetic

namespace Library

open Arithmetic (SameNumber)

variable {name : Text}

/-- An operator of the core that takes its arguments as they come makes of their values what a
function makes of all of them. -/
theorem Makes.ofCore (op : CoreOp) (args : List Value) {f : Arguments → Value}
    (hop : ∀ ev ctx es, es.length = args.length →
      op.apply ev ctx es = (do return f (← ev.evaluateAll ctx es))) :
    Makes op.name args (f args) := by
  intro n ctx es w later hargs
  rw [Evaluator.evaluate_core, hop _ _ _ (Operator.length_evaluateAll hargs).symm]
  exact Eval.bind_of_ok hargs

theorem makes_fold {op : ArithmeticOp} {f : Float → Float → Float} {start : Float}
    (hop : ∀ ev ctx es, Arithmetic.apply op ev ctx es = Arithmetic.fold ev ctx f start es)
    (args : List Value) :
    Makes op.name args (.number (args.foldl (fun acc v => f acc v.toNumber) start)) := by
  refine .ofCore (.arithmetic op) args
    (f := fun args => .number (args.foldl (fun acc v => f acc v.toNumber) start)) ?_
  intro ev ctx es _
  exact (hop ev ctx es).trans (Arithmetic.fold_eq ev ctx f start es)

theorem makes_unary {op : ArithmeticOp} {f : Float → Float}
    (hop : ∀ ev ctx es, Arithmetic.apply op ev ctx es = do
      let x ← (do return (← Operator.required op.name ev ctx es 0).toNumber : Eval Float)
      return .number (f x)) (v : Value) :
    Makes op.name [v] (.number (f v.toNumber)) := by
  refine .ofCore (.arithmetic op) [v]
    (f := fun args => .number (f (args.nth 0).toNumber)) ?_
  intro ev ctx es hlength
  obtain ⟨e, rfl⟩ := List.length_eq_one_iff.mp hlength
  show Arithmetic.apply op ev ctx [e] = _
  simp only [hop, Operator.required_zero, Operator.evaluateAll_cons, Operator.evaluateAll_nil,
    bind_assoc, pure_bind]
  rfl

theorem makes_modulo (a b : Value) :
    Makes ArithmeticOp.modulo.name [a, b] (.number (Double.remainder a.toNumber b.toNumber)) := by
  refine .ofCore (.arithmetic .modulo) [a, b]
    (f := fun args => .number (Double.remainder (args.nth 0).toNumber (args.nth 1).toNumber)) ?_
  intro ev ctx es hlength
  obtain ⟨x, y, rfl⟩ := List.length_eq_two.mp hlength
  simp only [CoreOp.apply, Arithmetic.apply, Operator.required_zero, Operator.required_one,
    Operator.evaluateAll_cons, Operator.evaluateAll_nil, bind_assoc, pure_bind]
  rfl

theorem makes_clamp (a b c : Value) :
    Makes ArithmeticOp.clamp.name [a, b, c]
      (.number (Arithmetic.clamp a.toNumber b.toNumber c.toNumber)) := by
  refine .ofCore (.arithmetic .clamp) [a, b, c]
    (f := fun args => .number (Arithmetic.clamp (args.nth 0).toNumber (args.nth 1).toNumber
      (args.nth 2).toNumber)) ?_
  intro ev ctx es hlength
  obtain ⟨x, y, z, rfl⟩ := List.length_eq_three.mp hlength
  simp only [CoreOp.apply, Arithmetic.apply, Operator.required_zero, Operator.required_one,
    Operator.required_two, Operator.evaluateAll_cons, Operator.evaluateAll_nil, bind_assoc,
    pure_bind]
  rfl

theorem makes_ofNumber {f : Float → Float} (hop : Evaluator.operator? standard name
    = some (Operator.ofValues fun args => .ok (Math.ofNumber f args))) (v : Value) :
    Makes name [v] (.number (f v.toNumber)) := by
  have hvalue : Math.ofNumber f [v] = .number (f v.toNumber) :=
    congrArg (fun x => Value.number (f x)) (Arguments.number_eq [v] 0)
  rw [← hvalue]
  exact .ofTotal hop

theorem makes_round_plain (v : Value) :
    Makes "math/round" [v] (.number (Arithmetic.round v.toNumber)) := by
  have hplain (x : Float) : Math.roundTo x 0.0 = Arithmetic.round x := if_pos (by decide)
  have hvalue : Math.ofNumbers Math.roundTo [v] = .number (Arithmetic.round v.toNumber) :=
    congrArg Value.number ((hplain _).trans (congrArg Arithmetic.round
      (Arguments.number_eq [v] 0)))
  rw [← hvalue]
  exact .ofTotal (operator?_of_place 5 rfl)

theorem makes_mod (a b : Value) :
    Makes "math/mod" [a, b] (.number (Double.remainder a.toNumber b.toNumber)) := by
  have hvalue : Math.ofNumbers Double.remainder [a, b]
      = .number (Double.remainder a.toNumber b.toNumber) :=
    congrArg₂ (fun x y => Value.number (Double.remainder x y)) (Arguments.number_eq [a, b] 0)
      (Arguments.number_eq [a, b] 1)
  rw [← hvalue]
  exact .ofTotal (operator?_of_place 8 rfl)

theorem makes_math_clamp (a b c : Value) :
    Makes "math/clamp" [a, b, c] (.number (Math.clamp a.toNumber b.toNumber c.toNumber)) := by
  refine .ofValues (operator?_of_place 12 rfl) ?_
  show Except.ok (Value.number (Math.clamp (Arguments.number [a, b, c] 0)
    (Arguments.number [a, b, c] 1) (Arguments.number [a, b, c] 2))) = _
  simp only [Arguments.number_eq]
  rfl

/-- The operators of the core that have a counterpart in the module `math/`, with the number of
their arguments where it is fixed. -/
def arithmeticCounterparts : List (ArithmeticOp × String × Option ℕ) :=
  [(.abs, "math/abs", some 1), (.min, "math/min", none), (.max, "math/max", none),
    (.floor, "math/floor", some 1), (.ceil, "math/ceil", some 1), (.round, "math/round", some 1),
    (.modulo, "math/mod", some 2), (.clamp, "math/clamp", some 3)]

/-- Two operators make the same number of the arguments. -/
def BothMake (one other : Text) (args : List Value) : Prop :=
  ∃ x, Makes one args (.number x) ∧ Makes other args (.number x)

/-- There is a number to be kept within bounds of which the greatest is below the least. -/
def Crossed (args : Arguments) : Prop :=
  (args.nth 2).toNumber < (args.nth 1).toNumber ∧ (args.nth 0).toNumber.isNaN = false

theorem agrees_of_unary {op : ArithmeticOp} {f : Float → Float}
    (hcore : ∀ ev ctx es, Arithmetic.apply op ev ctx es = do
      let x ← (do return (← Operator.required op.name ev ctx es 0).toNumber : Eval Float)
      return .number (f x))
    (hmath : Evaluator.operator? standard name
      = some (Operator.ofValues fun args => .ok (Math.ofNumber f args))) (v : Value) :
    BothMake op.name name [v] :=
  ⟨_, makes_unary hcore v, makes_ofNumber hmath v⟩

theorem agrees_of_ne_clamp {op : ArithmeticOp} {name : String} {arity : Option ℕ}
    (h : (op, name, arity) ∈ arithmeticCounterparts) (hne : op ≠ .clamp) (args : List Value)
    (hargs : ∀ k ∈ arity, args.length = k) : BothMake op.name name args := by
  simp only [arithmeticCounterparts, List.mem_cons, Prod.mk.injEq, List.not_mem_nil,
    or_false] at h
  obtain h | h | h | h | h | h | h | h := h <;> obtain ⟨rfl, rfl, rfl⟩ := h
  · obtain ⟨v, rfl⟩ := List.length_eq_one_iff.mp (hargs 1 rfl)
    exact agrees_of_unary (f := Float.abs) (fun _ _ _ => rfl) (operator?_of_place 0 rfl) v
  · exact ⟨_, makes_fold (fun _ _ _ => rfl) args, .ofTotal (operator?_of_place 1 rfl)⟩
  · exact ⟨_, makes_fold (fun _ _ _ => rfl) args, .ofTotal (operator?_of_place 2 rfl)⟩
  · obtain ⟨v, rfl⟩ := List.length_eq_one_iff.mp (hargs 1 rfl)
    exact agrees_of_unary (f := Double.floor) (fun _ _ _ => rfl) (operator?_of_place 3 rfl) v
  · obtain ⟨v, rfl⟩ := List.length_eq_one_iff.mp (hargs 1 rfl)
    exact agrees_of_unary (f := Double.ceil) (fun _ _ _ => rfl) (operator?_of_place 4 rfl) v
  · obtain ⟨v, rfl⟩ := List.length_eq_one_iff.mp (hargs 1 rfl)
    exact ⟨_, makes_unary (fun _ _ _ => rfl) v, makes_round_plain v⟩
  · obtain ⟨a, b, rfl⟩ := List.length_eq_two.mp (hargs 2 rfl)
    exact ⟨_, makes_modulo a b, makes_mod a b⟩
  · exact absurd rfl hne

theorem arithmetic_agrees_iff {op : ArithmeticOp} {name : String} {arity : Option ℕ}
    (h : (op, name, arity) ∈ arithmeticCounterparts) (args : List Value)
    (hargs : ∀ k ∈ arity, args.length = k) :
    ∃ x y, Makes op.name args (.number x) ∧ Makes name args (.number y) ∧
      (SameNumber x y ↔ (op = .clamp → ¬Crossed args)) := by
  by_cases hop : op = .clamp
  · subst hop
    obtain ⟨rfl, rfl⟩ : name = "math/clamp" ∧ arity = some 3 := by
      simpa [arithmeticCounterparts] using h
    obtain ⟨a, b, c, rfl⟩ := List.length_eq_three.mp (hargs 3 rfl)
    refine ⟨_, _, makes_clamp a b c, makes_math_clamp a b c, ?_⟩
    rw [Arithmetic.clamp_same_iff]
    exact ⟨fun hkept _ => hkept, fun hkept => hkept rfl⟩
  · obtain ⟨x, hcore, hmath⟩ := agrees_of_ne_clamp h hop args hargs
    exact ⟨x, x, hcore, hmath, iff_of_true (.refl x) fun heq => absurd heq hop⟩

/-- A text, a missing bound and a truth value are numbers, too. -/
theorem arithmetic_agrees_of_lenient :
    (ArithmeticOp.clamp, "math/clamp", some 3) ∈ arithmeticCounterparts ∧
    ∃ x y, Makes ArithmeticOp.clamp.name [.string "7px", .undefined, .bool true] (.number x) ∧
      Makes "math/clamp" [.string "7px", .undefined, .bool true] (.number y) ∧ SameNumber x y := by
  have hmem : (ArithmeticOp.clamp, "math/clamp", some 3) ∈ arithmeticCounterparts := by
    simp [arithmeticCounterparts]
  have hkept : ¬Crossed [.string "7px", .undefined, .bool true] := by
    intro h
    exact absurd h.1 (by decide)
  obtain ⟨x, y, hcore, hmath, hsame⟩ :=
    arithmetic_agrees_iff hmem [.string "7px", .undefined, .bool true] (by decide)
  exact ⟨hmem, x, y, hcore, hmath, hsame.mpr fun _ => hkept⟩

/-- Where the bounds are crossed, the one operator keeps to the least and the other to the
greatest number allowed. -/
theorem crossed_bounds_told_apart :
    Makes ArithmeticOp.clamp.name [.number 5.0, .number 10.0, .number 0.0] (.number 10.0) ∧
    Makes "math/clamp" [.number 5.0, .number 10.0, .number 0.0] (.number 0.0) ∧
    ¬SameNumber 10.0 0.0 := by
  refine ⟨?_, ?_, ?_⟩
  · exact makes_clamp (.number 5.0) (.number 10.0) (.number 0.0)
  · exact makes_math_clamp (.number 5.0) (.number 10.0) (.number 0.0)
  · unfold SameNumber
    decide

/-!
Arrays. Computations are alike where they end with the same value in the same world, or fail there
in the same way but for the name of the operator that finds no closure.
-/

section alike

variable {α β : Type} {one other : Text}

/-- Two failures are one, or each of two operators needs a closure and gets the same other value. -/
inductive SameFault (one other : Text) : Fault → Fault → Prop
  | refl (fault : Fault) : SameFault one other fault fault
  | notLambda (got : Kind) : SameFault one other (.raised (.type (.notLambda one got)))
      (.raised (.type (.notLambda other got)))

inductive SameEnd (one other : Text) : EStateM.Result Fault World α →
    EStateM.Result Fault World α → Prop
  | ok (a : α) (w : World) : SameEnd one other (.ok a w) (.ok a w)
  | error {fault fault' : Fault} (h : SameFault one other fault fault') (w : World) :
      SameEnd one other (.error fault w) (.error fault' w)

def Alike (one other : Text) (x y : Eval α) : Prop := ∀ w, SameEnd one other (x w) (y w)

namespace Alike

theorem refl (x : Eval α) : Alike one other x x := by
  intro w
  cases x w with
  | ok a later => exact .ok a later
  | error fault later => exact .error (.refl fault) later

theorem bind {x y : Eval α} {f g : α → Eval β} (hx : Alike one other x y)
    (hf : ∀ a, Alike one other (f a) (g a)) : Alike one other (x >>= f) (y >>= g) := by
  intro w
  have h := hx w
  generalize hxw : x w = ending, hyw : y w = ending' at h
  cases h with
  | ok a later =>
    rw [Eval.bind_of_ok hxw, Eval.bind_of_ok hyw]
    exact hf a later
  | error hfault later =>
    rw [Eval.bind_of_error hxw, Eval.bind_of_error hyw]
    exact .error hfault later

theorem requiredClosure (f : Value) :
    Alike one other (Operator.requiredClosure one f) (Operator.requiredClosure other f) := by
  cases f with
  | closure c => exact .refl _
  | undefined | null | bool | number | string | array | map =>
    exact fun w => .error (.notLambda _) w

end Alike

end alike

/-- What an operator does that goes through items with a closure: the expression for the items is
evaluated before the one for the closure, and nothing is done to any item until both have come to
a value and the second to a closure. -/
def overItems (op : Text) (walk : Evaluator → Value → List Value → Eval Value) (ev : Evaluator)
    (ctx : Context) (source lambda : Value) : Eval Value := do
  let v ← ev.evaluate source ctx
  let f ← Operator.requiredClosure op (← ev.evaluate lambda ctx)
  walk ev f v.items

theorem overItems_alike (one other : Text) (walk : Evaluator → Value → List Value → Eval Value)
    (ev : Evaluator) (ctx : Context) (source lambda : Value) :
    Alike one other (overItems one walk ev ctx source lambda)
      (overItems other walk ev ctx source lambda) :=
  .bind (.refl _) fun _ => .bind (.refl _) fun f => .bind (.requiredClosure f) fun _ => .refl _

section counterparts

variable {op : CollectionOp} {ev : Evaluator} {ctx : Context} {es : List Value}
  {walk : Evaluator → Value → List Value → Eval Value}

theorem collection_overItems
    (hop : ∀ source lambda, Collection.apply op ev ctx [source, lambda] = do
      let items := (← Operator.required op.name ev ctx [source, lambda] 0).items
      walk ev (← Operator.requiredLambda op.name ev ctx [source, lambda] 1) items)
    (source lambda : Value) :
    Collection.apply op ev ctx [source, lambda]
      = overItems op.name walk ev ctx source lambda := by
  simp only [hop, overItems, Operator.requiredLambda, Operator.required_zero,
    Operator.required_one, bind_assoc]

theorem ofValuesWith_overItems {f : Evaluator → Arguments → Eval Value}
    (hf : ∀ ev v u, f ev [v, u] = do walk ev (← Operator.requiredClosure name u) v.items)
    (source lambda : Value) :
    Operator.ofValuesWith f ev ctx [source, lambda]
      = overItems name walk ev ctx source lambda := by
  simp only [Operator.ofValuesWith, overItems, hf, Operator.evaluateAll_cons,
    Operator.evaluateAll_nil, bind_assoc, pure_bind]

theorem collection_one {f : Value → Value}
    (hop : ∀ e, Collection.apply op ev ctx [e] = do
      return f (← Operator.required op.name ev ctx [e] 0)) (e : Value) :
    Collection.apply op ev ctx [e] = do
      let args : Arguments ← ev.evaluateAll ctx [e]
      return f (args.nth 0) := by
  simp only [hop, Operator.required_zero, Operator.evaluateAll_cons, Operator.evaluateAll_nil,
    bind_assoc, pure_bind]
  rfl

theorem collection_two {f : Value → Value → Value}
    (hop : ∀ a b, Collection.apply op ev ctx [a, b] = do
      let v ← Operator.required op.name ev ctx [a, b] 0
      return f v (← Operator.required op.name ev ctx [a, b] 1)) (a b : Value) :
    Collection.apply op ev ctx [a, b] = do
      let args : Arguments ← ev.evaluateAll ctx [a, b]
      return f (args.nth 0) (args.nth 1) := by
  simp only [hop, Operator.required_zero, Operator.required_one, Operator.evaluateAll_cons,
    Operator.evaluateAll_nil, bind_assoc, pure_bind]
  rfl

theorem concat_eq (ev : Evaluator) (ctx : Context) (es : List Value) :
    Collection.concat ev ctx es = do
      return (← ev.evaluateAll ctx es).flatMap Value.items := by
  induction es with
  | nil => rfl
  | cons e rest ih =>
    simp only [Collection.concat, ih, Operator.evaluateAll_cons, bind_assoc, pure_bind,
      List.flatMap_cons]

/-- Two calls are alike to any depth if the two operators are alike with every evaluator. -/
theorem alike_of_apply {other : Operator} (hother : Evaluator.operator? standard name = some other)
    (h : ∀ ev, Alike op.name name (Collection.apply op ev ctx es) (other ev ctx es)) (n : ℕ) :
    Alike op.name name ((Evaluator.withFuel standard n).evaluate (Expr.call op.name es) ctx)
      ((Evaluator.withFuel standard n).evaluate (Expr.call name es) ctx) := by
  cases n with
  | zero => exact .refl _
  | succ n =>
    rw [Evaluator.evaluate_call hother, show op.name = (CoreOp.collection op).name from rfl,
      Evaluator.evaluate_core]
    exact h _

theorem alike_of_walk {f : Evaluator → Arguments → Eval Value}
    (walk : Evaluator → Value → List Value → Eval Value)
    (hother : Evaluator.operator? standard name = some (Operator.ofValuesWith f))
    (hf : ∀ ev v u, f ev [v, u] = do walk ev (← Operator.requiredClosure name u) v.items)
    (hop : ∀ ev ctx source lambda, Collection.apply op ev ctx [source, lambda] = do
      let items := (← Operator.required op.name ev ctx [source, lambda] 0).items
      walk ev (← Operator.requiredLambda op.name ev ctx [source, lambda] 1) items)
    (hes : es.length = 2) (n : ℕ) (ctx : Context) :
    Alike op.name name ((Evaluator.withFuel standard n).evaluate (Expr.call op.name es) ctx)
      ((Evaluator.withFuel standard n).evaluate (Expr.call name es) ctx) := by
  obtain ⟨source, lambda, rfl⟩ := List.length_eq_two.mp hes
  refine alike_of_apply hother (fun ev => ?_) n
  rw [collection_overItems (hop ev ctx), ofValuesWith_overItems hf]
  exact overItems_alike op.name name walk ev ctx source lambda

theorem alike_of_values {f : Arguments → Value}
    (hother : Evaluator.operator? standard name
      = some (Operator.ofValues fun args => .ok (f args)))
    (hop : ∀ ev, Collection.apply op ev ctx es = do return f (← ev.evaluateAll ctx es)) (n : ℕ) :
    Alike op.name name ((Evaluator.withFuel standard n).evaluate (Expr.call op.name es) ctx)
      ((Evaluator.withFuel standard n).evaluate (Expr.call name es) ctx) := by
  refine alike_of_apply hother (fun ev => ?_) n
  rw [hop]
  exact .refl _

/-- The operators of the core on arrays that have a counterpart in the module `array/`, with the
number of arguments that they use where it is fixed. -/
def collectionCounterparts : List (CollectionOp × String × Option ℕ) :=
  [(.map, "array/map", some 2), (.filter, "array/filter", some 2), (.find, "array/find", some 2),
    (.count, "array/count", some 2), (.first, "array/first", some 1), (.last, "array/last", some 1),
    (.nth, "array/nth", some 2), (.includes, "array/includes", some 2),
    (.concat, "array/concat", none)]

theorem collection_agrees {op : CollectionOp} {name : String} {arity : Option ℕ}
    (h : (op, name, arity) ∈ collectionCounterparts) (es : List Value)
    (hes : ∀ k ∈ arity, es.length = k) (n : ℕ) (ctx : Context) :
    Alike op.name name ((Evaluator.withFuel standard n).evaluate (Expr.call op.name es) ctx)
      ((Evaluator.withFuel standard n).evaluate (Expr.call name es) ctx) := by
  simp only [collectionCounterparts, List.mem_cons, Prod.mk.injEq, List.not_mem_nil,
    or_false] at h
  obtain h | h | h | h | h | h | h | h | h := h <;> obtain ⟨rfl, rfl, rfl⟩ := h
  · exact alike_of_walk (fun ev f items => return .array (← Collection.mapItems ev f items))
      (operator?_of_place 75 rfl) (fun _ _ _ => rfl) (fun _ _ _ _ => rfl) (hes 2 rfl) n ctx
  · exact alike_of_walk (fun ev f items => return .array (← Collection.filterItems ev f items))
      (operator?_of_place 73 rfl) (fun _ _ _ => rfl) (fun _ _ _ _ => rfl) (hes 2 rfl) n ctx
  · exact alike_of_walk
      (fun ev f items => return ((← Collection.findItem ev f 0 items).map (·.2)).getD .undefined)
      (operator?_of_place 71 rfl) (fun _ _ _ => rfl) (fun _ _ _ _ => rfl) (hes 2 rfl) n ctx
  · exact alike_of_walk
      (fun ev f items => return Value.ofNat (← Collection.filterItems ev f items).length)
      (operator?_of_place 80 rfl) (fun _ _ _ => rfl) (fun _ _ _ _ => rfl) (hes 2 rfl) n ctx
  · obtain ⟨e, rfl⟩ := List.length_eq_one_iff.mp (hes 1 rfl)
    exact alike_of_values (operator?_of_place 45 rfl)
      (fun _ => collection_one (f := fun v => v.items.headD .undefined) (fun _ => rfl) e) n
  · obtain ⟨e, rfl⟩ := List.length_eq_one_iff.mp (hes 1 rfl)
    exact alike_of_values (operator?_of_place 46 rfl)
      (fun _ => collection_one (f := fun v => v.items.getLastD .undefined) (fun _ => rfl) e) n
  · obtain ⟨a, b, rfl⟩ := List.length_eq_two.mp (hes 2 rfl)
    refine alike_of_values (operator?_of_place 47 rfl) (fun ev => ?_) n
    rw [collection_two (f := fun v u => (Collection.item? v.items u.toNumber).getD .undefined)
      (fun _ _ => rfl)]
    simp only [Arguments.number_eq]
    rfl
  · obtain ⟨a, b, rfl⟩ := List.length_eq_two.mp (hes 2 rfl)
    exact alike_of_values (operator?_of_place 60 rfl)
      (fun _ => collection_two (f := fun v u => .bool (u.occursIn v.items)) (fun _ _ => rfl) a b) n
  · refine alike_of_values (operator?_of_place 49 rfl) (fun ev => ?_) n
    show (do return .array (← Collection.concat ev ctx es) : Eval Value) = _
    rw [concat_eq]
    simp only [bind_assoc, pure_bind]

/-- The closure that is called for the items lets the world know of each. -/
theorem map_agrees_of_emitting :
    (CollectionOp.map, "array/map", some 2) ∈ collectionCounterparts ∧
    ∀ (n : ℕ) (ctx : Context),
      Alike CollectionOp.map.name "array/map"
        ((Evaluator.withFuel standard n).evaluate (Expr.call CollectionOp.map.name
          [.array [.number 1.0, .null], Expr.call "fn" [.string "x",
            Expr.call "emit" [.string "seen", .string "@x"]]]) ctx)
        ((Evaluator.withFuel standard n).evaluate (Expr.call "array/map"
          [.array [.number 1.0, .null], Expr.call "fn" [.string "x",
            Expr.call "emit" [.string "seen", .string "@x"]]]) ctx) := by
  have hmem : (CollectionOp.map, "array/map", some 2) ∈ collectionCounterparts :=
    List.mem_cons_self
  exact ⟨hmem, fun n ctx => collection_agrees hmem _ (by simp) n ctx⟩

end counterparts

end Library
end EntityMachines
