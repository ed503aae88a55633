import EntityMachines.Proofs.Evaluation.Reads

/-!
Plain expressions come to a value whatever the data around them are, and do nothing else. They are
put together from operators that only read and cannot fail, each with as many arguments as it
needs.
-/
namespace EntityMachines

/-- How many arguments an operator needs to come to a value, if that is all it does. -/
def CoreOp.needs? : CoreOp → Option Nat
  | arithmetic .add | arithmetic .multiply | arithmetic .min | arithmetic .max => some 0
  | arithmetic .subtract => some 1
  | arithmetic .abs | arithmetic .floor | arithmetic .ceil | arithmetic .round => some 1
  | arithmetic .divide | arithmetic .modulo => some 2
  | arithmetic .clamp => some 3
  | comparison _ => some 2
  | logic .and | logic .or => some 0
  | logic .not => some 1
  | logic .choose => some 2
  | control _ | collection _ | effect _ => none

theorem CoreOp.name_of_ofName? {name : Text} {op : CoreOp} (h : ofName? name = some op) :
    op.name = name := by
  obtain ⟨before, after, heq, -⟩ := List.lookup_eq_some_iff.mp h
  have hmem : (name, op) ∈ table := by simp [heq]
  obtain ⟨op', -, hentry⟩ := List.mem_map.mp hmem
  cases hentry
  rfl

namespace Evaluator

/-- An expression that only reads and cannot fail, within so many levels. -/
def Plain (levels : Nat) (e : Value) : Prop := ∀ ctx data, ∃ v, Reads levels ctx data e v

variable {n : Nat} {e : Value} {es : List Value}

/-- An operator comes to a value whenever its arguments do and there are enough of them. -/
def Total (needed : Nat) (op : Operator) : Prop :=
  ∀ {n ctx data es}, needed ≤ es.length → (∀ e ∈ es, ∃ v, Reads n ctx data e v) →
    ∃ v, Gives ctx data (op (withFuel Library.standard n) ctx es) v

theorem arithmetic_total {op : ArithmeticOp} {needed : Nat}
    (hop : (CoreOp.arithmetic op).needs? = some needed) : Total needed (Arithmetic.apply op) := by
  intro n ctx data es hlength hes
  have hfold (f : Float → Float → Float) (acc : Float) :
      ∃ v, Gives ctx data (Arithmetic.fold (withFuel Library.standard n) ctx f acc es) v := by
    obtain ⟨vs, hvs⟩ := exists_readsAll hes
    exact ⟨_, hvs.fold f acc⟩
  have hoperand (i : Nat) (hi : i < es.length) : ∃ x : Float, Gives ctx data
      (return (← Operator.required op.name (withFuel Library.standard n) ctx es i).toNumber) x := by
    obtain ⟨v, hv⟩ := exists_required op.name hes hi
    exact ⟨_, hv.bind (.pure _)⟩
  cases op with
  | add | multiply | min | max => exact hfold _ _
  | subtract =>
    cases hop
    obtain ⟨x, hx⟩ := hoperand 0 hlength
    obtain ⟨y, hy⟩ := exists_optional hes 1
    by_cases hone : es.length = 1
    · refine ⟨.number (-x), hx.bind ?_⟩
      rw [if_pos hone]
      exact .pure _
    · refine ⟨.number (x - y.toNumber), hx.bind ?_⟩
      rw [if_neg hone]
      exact hy.bind (.pure _)
  | abs | floor | ceil | round =>
    cases hop
    obtain ⟨x, hx⟩ := hoperand 0 hlength
    exact ⟨_, hx.bind (.pure _)⟩
  | divide | modulo =>
    cases hop
    obtain ⟨x, hx⟩ := hoperand 0 (by omega)
    obtain ⟨y, hy⟩ := hoperand 1 hlength
    exact ⟨_, hx.bind (hy.bind (.pure _))⟩
  | clamp =>
    cases hop
    obtain ⟨x, hx⟩ := hoperand 0 (by omega)
    obtain ⟨low, hlow⟩ := hoperand 1 (by omega)
    obtain ⟨high, hhigh⟩ := hoperand 2 hlength
    exact ⟨_, hx.bind (hlow.bind (hhigh.bind (.pure _)))⟩

theorem comparison_total (op : ComparisonOp) : Total 2 (Comparison.apply op) := by
  intro n ctx data es hlength hes
  obtain ⟨x, hx⟩ := exists_required op.name hes (by omega : 0 < es.length)
  obtain ⟨y, hy⟩ := exists_required op.name hes (by omega : 1 < es.length)
  exact ⟨_, hx.bind (hy.bind (.pure _))⟩

theorem logic_total {op : LogicOp} {needed : Nat} (hop : (CoreOp.logic op).needs? = some needed) :
    Total needed (Logic.apply op) := by
  intro n ctx data es hlength hes
  obtain ⟨vs, hvs⟩ := exists_readsAll hes
  cases op with
  | and => exact ⟨_, hvs.all.bind (.pure _)⟩
  | or => exact ⟨_, hvs.any.bind (.pure _)⟩
  | not =>
    cases hop
    obtain ⟨x, hx⟩ := exists_required LogicOp.not.name hes hlength
    exact ⟨_, hx.bind (.pure _)⟩
  | choose =>
    cases hop
    obtain ⟨x, hx⟩ := exists_required LogicOp.choose.name hes (by omega : 0 < es.length)
    by_cases htruthy : x.isTruthy
    · obtain ⟨y, hy⟩ := exists_required LogicOp.choose.name hes hlength
      refine ⟨y, hx.bind ?_⟩
      rw [if_pos htruthy]
      exact hy
    · obtain ⟨y, hy⟩ := exists_optional hes 2
      refine ⟨y, hx.bind ?_⟩
      rw [if_neg htruthy]
      exact hy

theorem core_total {op : CoreOp} {needed : Nat} (hop : op.needs? = some needed) :
    Total needed op.apply := by
  cases op with
  | arithmetic op => exact arithmetic_total hop
  | comparison op =>
    cases hop
    exact comparison_total op
  | logic op => exact logic_total hop
  | control | collection | effect => cases hop

theorem ofTotal_total (f : Arguments → Value) :
    Total 0 (Operator.ofValues fun args => .ok (f args)) := by
  intro n ctx data es _ hes
  obtain ⟨vs, hvs⟩ := exists_readsAll hes
  exact ⟨_, hvs.gives.bind (.pure _)⟩

theorem contextual_total (f : Float → Arguments → Value) :
    Total 0 (Library.Time.contextual f) := by
  intro n ctx data es _ hes
  obtain ⟨vs, hvs⟩ := exists_readsAll hes
  exact ⟨_, hvs.gives.bind (.pure _)⟩

theorem Plain.leaf (h : Expr.isCall e = false) : Plain (n + 1) e := fun _ _ => exists_reads_leaf h

theorem Plain.leaves (h : (es.any Expr.isCall) = false) : ∀ e ∈ es, Plain (n + 1) e := by
  intro e he
  have hall := List.any_eq_false.mp h
  exact .leaf (by simpa using hall e he)

theorem Plain.core (op : CoreOp) {needed : Nat} (hop : op.needs? = some needed)
    (hlength : needed ≤ es.length) (hes : ∀ e ∈ es, Plain n e) :
    Plain (n + 1) (Expr.call op.name es) := by
  intro ctx data
  obtain ⟨v, hv⟩ := core_total hop hlength fun e he => hes e he ctx data
  refine ⟨v, ?_⟩
  unfold Reads
  rw [evaluate_core]
  exact hv

theorem Plain.library {name : Text} {op : Operator}
    (hop : operator? Library.standard name = some op) (htotal : Total 0 op)
    (hes : ∀ e ∈ es, Plain n e) : Plain (n + 1) (Expr.call name es) := by
  intro ctx data
  obtain ⟨v, hv⟩ := htotal (Nat.zero_le _) fun e he => hes e he ctx data
  refine ⟨v, ?_⟩
  unfold Reads
  rw [evaluate_call hop]
  exact hv

section library

/-! The operators of the library that the catalogue computes with. -/

theorem Plain.max (hes : ∀ e ∈ es, Plain n e) : Plain (n + 1) (Expr.call "math/max" es) :=
  .library (Library.operator?_of_place 2 rfl) (ofTotal_total _) hes

theorem Plain.min (hes : ∀ e ∈ es, Plain n e) : Plain (n + 1) (Expr.call "math/min" es) :=
  .library (Library.operator?_of_place 1 rfl) (ofTotal_total _) hes

theorem Plain.ceil (hes : ∀ e ∈ es, Plain n e) : Plain (n + 1) (Expr.call "math/ceil" es) :=
  .library (Library.operator?_of_place 4 rfl) (ofTotal_total _) hes

theorem Plain.textLength (hes : ∀ e ∈ es, Plain n e) : Plain (n + 1) (Expr.call "str/len" es) :=
  .library (Library.operator?_of_place 17 rfl) (ofTotal_total _) hes

theorem Plain.withEntry (hes : ∀ e ∈ es, Plain n e) :
    Plain (n + 1) (Expr.call "object/set" es) :=
  .library (Library.operator?_of_place 87 rfl) (ofTotal_total _) hes

theorem Plain.appended (hes : ∀ e ∈ es, Plain n e) :
    Plain (n + 1) (Expr.call "array/append" es) :=
  .library (Library.operator?_of_place 50 rfl) (ofTotal_total _) hes

theorem Plain.merged (hes : ∀ e ∈ es, Plain n e) :
    Plain (n + 1) (Expr.call "object/merge" es) :=
  .library (Library.operator?_of_place 89 rfl) (ofTotal_total _) hes

theorem Plain.picked (hes : ∀ e ∈ es, Plain n e) :
    Plain (n + 1) (Expr.call "object/pick" es) :=
  .library (Library.operator?_of_place 91 rfl) (ofTotal_total _) hes

theorem Plain.time (hes : ∀ e ∈ es, Plain n e) : Plain (n + 1) (Expr.call "time/now" es) :=
  .library (Library.operator?_of_place 121 rfl) (contextual_total _) hes

/-- Whether an operator of the library is one of these. -/
def isPlainOperator (name : Text) : Bool :=
  ["math/max", "math/min", "math/ceil", "str/len", "object/set", "array/append", "object/merge",
    "object/pick", "time/now"].any (Text.ofString · == name)

theorem Plain.ofOperator {name : Text} (hname : isPlainOperator name = true)
    (hes : ∀ e ∈ es, Plain n e) : Plain (n + 1) (Expr.call name es) := by
  unfold isPlainOperator at hname
  simp only [List.any_cons, List.any_nil, Bool.or_false, Bool.or_eq_true, beq_iff_eq] at hname
  obtain rfl | rfl | rfl | rfl | rfl | rfl | rfl | rfl | rfl := hname
  · exact .max hes
  · exact .min hes
  · exact .ceil hes
  · exact .textLength hes
  · exact .withEntry hes
  · exact .appended hes
  · exact .merged hes
  · exact .picked hes
  · exact .time hes

end library

/-- Whether an expression is plain by its form. -/
def isPlain : Nat → Value → Bool
  | 0, _ => false
  | levels + 1, .array (.string name :: args) =>
    args.all (isPlain levels) &&
      match CoreOp.ofName? name with
      | some op => op.needs?.any (· ≤ args.length)
      | none => isPlainOperator name
  | _ + 1, _ => true

theorem plain_of_isPlain (levels : Nat) (h : isPlain levels e = true) (n : Nat) :
    Plain (n + levels) e := by
  induction levels generalizing e with
  | zero => cases h
  | succ levels ih =>
    unfold isPlain at h
    split at h
    next => contradiction
    next hlevels =>
      cases hlevels
      rw [Bool.and_eq_true, List.all_eq_true] at h
      obtain ⟨hargs, hname⟩ := h
      have hplain := fun arg harg => ih (hargs arg harg)
      split at hname
      next op hop =>
        obtain ⟨needed, hneeds, hlength⟩ := (Option.any_eq_true _ _).mp hname
        rw [← CoreOp.name_of_ofName? hop]
        exact .core op hneeds (of_decide_eq_true hlength) hplain
      next => exact .ofOperator hname hplain
    next hform =>
      refine .leaf ?_
      unfold Expr.isCall
      split
      · exact absurd rfl (hform _ _)
      · rfl

theorem plain_of_all (levels : Nat) (h : es.all (isPlain levels) = true) (n : Nat) :
    ∀ e ∈ es, Plain (n + levels) e := fun e he =>
  plain_of_isPlain levels (List.all_eq_true.mp h e he) n

end Evaluator
end EntityMachines
