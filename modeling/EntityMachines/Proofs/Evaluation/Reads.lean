import EntityMachines.Evaluator
import EntityMachines.Proofs.Evaluation.Keeps
import EntityMachines.Proofs.Evaluation.Operators
import EntityMachines.Proofs.Expr.Nodes
import EntityMachines.Proofs.Lockstep.Reading
import Mathlib.Data.List.Forall2
import Mathlib.Data.List.Nodup

/-!
Expressions that only read. Where the data of an entity are known, such an expression comes to a
value, and the world stays as it is. Main statement: an expression that is put together from
operators without effects, each with as many arguments as it needs, always comes to a value.

An operator is found under its name, since no two operators have one name.
-/
namespace EntityMachines

/-- A number by which texts are told apart: texts of different numbers are different. -/
def Text.code (t : Text) : Nat := t.foldl (fun n b => 256 * n + b.toNat) 0

theorem Text.ofString_eq : ofString = fun s => s.toByteArray.data.toList := by
  funext s
  rw [← String.utf8Encode_toList, List.utf8Encode, List.data_toByteArray]
  rfl

namespace Library

/-- The names of all operators, the core ones first. -/
def allNames : List Text := CoreOp.table.map (·.1) ++ standard.map (·.1)

/-- None of the numbers has its bit in `seen`, and none comes twice. -/
def distinct (seen : Nat) : List Nat → Bool
  | [] => true
  | n :: rest => !seen.testBit n && distinct (seen ||| 1 <<< n) rest

theorem nodup_of_distinct {seen : Nat} {codes : List Nat} (h : distinct seen codes = true) :
    codes.Nodup ∧ ∀ n ∈ codes, seen.testBit n = false := by
  induction codes generalizing seen with
  | nil => exact ⟨List.nodup_nil, fun n hn => nomatch hn⟩
  | cons n codes ih =>
    obtain ⟨hnew, hrest⟩ := Bool.and_eq_true_iff.mp h
    obtain ⟨hnodup, hunseen⟩ := ih hrest
    have hlater : ∀ m ∈ codes, seen.testBit m = false ∧ n ≠ m := by
      intro m hm
      have hbit := hunseen m hm
      rw [Nat.testBit_or, Nat.one_shiftLeft, Nat.testBit_two_pow, Bool.or_eq_false_iff] at hbit
      exact ⟨hbit.1, of_decide_eq_false hbit.2⟩
    refine ⟨List.nodup_cons.mpr ⟨fun hn => (hlater n hn).2 rfl, hnodup⟩, ?_⟩
    exact List.forall_mem_cons.mpr ⟨by simpa using hnew, fun m hm => (hlater m hm).1⟩

theorem allNames_nodup : allNames.Nodup := by
  -- for this modulus no two remainders are equal; strings are decoded much slower than encoded
  have hcodes : distinct 0 (allNames.map fun name => name.code % 131071) = true := by
    unfold allNames standard Math.operators Math.total Math.demanding Math.random
      Strings.operators Strings.total Strings.demanding Array.operators Array.total Array.calling
      Object.operators Object.total Object.paths Object.calling Time.operators Time.total
      Time.contextuals Format.operators Format.total Validate.operators Async.operators ofTotal
      ofPartial ofCalling
    rw [Text.ofString_eq]
    decide +kernel
  exact (nodup_of_distinct hcodes).1.of_map

variable {name : Text} {op : Operator}

theorem operator?_of_mem (hop : (name, op) ∈ standard) :
    Evaluator.operator? standard name = some op := by
  obtain ⟨-, hnodup, hforeign⟩ := List.nodup_append.mp allNames_nodup
  have hname : name ∈ standard.map (·.1) := List.mem_map_of_mem hop
  have hcore : CoreOp.ofName? name = none := by
    unfold CoreOp.ofName?
    rw [List.lookup_eq_none_iff]
    intro entry hentry
    exact bne_iff_ne.mpr (hforeign _ (List.mem_map_of_mem hentry) name hname).symm
  unfold Evaluator.operator? find?
  rw [hcore]
  obtain ⟨before, behind, hsplit⟩ := List.append_of_mem hop
  dsimp only
  rw [List.lookup_eq_some_iff]
  refine ⟨before, behind, hsplit, fun entry hentry => ?_⟩
  rw [hsplit, List.map_append, List.nodup_append] at hnodup
  have hne := hnodup.2.2 entry.1 (List.mem_map_of_mem hentry) name List.mem_cons_self
  exact bne_iff_ne.mpr hne.symm

theorem operator?_of_place (i : Nat) (hop : standard[i]? = some (name, op)) :
    Evaluator.operator? standard name = some op :=
  operator?_of_mem (List.mem_of_getElem? hop)

end Library

/-!
Arguments. An operator that takes each of its arguments once, from left to right, does what one does
that has all of them evaluated before it looks at any.
-/

/-- A missing number is zero, as anything is that does not count as a number. -/
theorem Arguments.number_eq (args : Arguments) (i : Nat) :
    args.number i = (args.nth i).toNumber := by
  unfold number
  cases args.nth i <;> rfl

namespace Operator

variable (op : Text) (ev : Evaluator) (ctx : Context) (a b c : Value) (rest : List Value)

theorem required_zero : required op ev ctx (a :: rest) 0 = ev.evaluate a ctx := rfl

theorem required_one : required op ev ctx (a :: b :: rest) 1 = ev.evaluate b ctx := rfl

theorem required_two : required op ev ctx (a :: b :: c :: rest) 2 = ev.evaluate c ctx := rfl

theorem evaluateAll_nil : ev.evaluateAll ctx [] = pure [] := rfl

theorem evaluateAll_cons : ev.evaluateAll ctx (a :: rest) = do
    let v ← ev.evaluate a ctx
    return v :: (← ev.evaluateAll ctx rest) := List.mapM_cons

variable {ev ctx} {args es : List Value}

/-- As many values come of expressions as there are expressions. -/
theorem length_evaluateAll {w later : World} (h : ev.evaluateAll ctx es w = .ok args later) :
    args.length = es.length := by
  induction es generalizing args w with
  | nil =>
    cases h
    rfl
  | cons e rest ih =>
    rw [evaluateAll_cons] at h
    obtain ⟨v, w₁, -, h⟩ := Eval.bind_ok h
    obtain ⟨vs, w₂, hrest, h⟩ := Eval.bind_ok h
    cases h
    rw [List.length_cons, List.length_cons, ih hrest]

end Operator

/-! Expressions over known data. -/

/-- The entity around an expression has the given data. -/
def Context.Sees (ctx : Context) (data : Value) (w : World) : Prop :=
  ∃ store, ctx.store = some store ∧ w.stores[store]? = some data

/-- What a binding reads where the entity has the given data. -/
def Context.readIn (ctx : Context) (data : Value) (text : Text) : Value :=
  { ctx with store := some 0 }.reading { stores := #[data] } text

theorem Context.reading_eq_readIn {ctx : Context} {data : Value} {w : World}
    (hw : ctx.Sees data w) (text : Text) : ctx.reading w text = ctx.readIn data text := by
  obtain ⟨store, hstore, hdata⟩ := hw
  have hroot (name : Text) : ctx.root w name
      = { ctx with store := some 0 }.root { stores := #[data] } name := by
    unfold root
    rw [hstore]
    simp [Array.getD_eq_getD_getElem?, hdata]
  unfold readIn reading readAt
  simp only [hroot]

theorem Context.readIn_local {ctx : Context} {data v : Value} {text : Text} {b : Binding}
    (hb : Binding.ofText? text = some b) (hv : ctx.locals.find? b.root = some v) :
    ctx.readIn data text = v.getIn b.path := by
  unfold readIn reading readAt
  rw [hb]
  dsimp only
  rw [hv]

/-- Where no local name hides it, the entity is read. -/
theorem Context.readIn_entity {ctx : Context} {data : Value} {text : Text} {b : Binding}
    (hb : Binding.ofText? text = some b) (hroot : b.root = "entity")
    (hlocals : ctx.locals.find? "entity" = none) : ctx.readIn data text = data.getIn b.path := by
  unfold readIn reading readAt
  rw [hb]
  dsimp only
  rw [hroot, hlocals]
  rfl

theorem CoreOp.ofName?_name (op : CoreOp) : CoreOp.ofName? op.name = some op := by
  have hall : ∀ op ∈ CoreOp.all, CoreOp.ofName? op.name = some op := by decide +kernel
  refine hall op ?_
  cases op with
  | arithmetic op => cases op <;> decide
  | comparison op => cases op <;> decide
  | logic op => cases op <;> decide
  | control op => cases op <;> decide
  | collection op => cases op <;> decide
  | effect op => cases op <;> decide

namespace Evaluator

/-- A computation comes to a value and leaves the world as it is, wherever the entity has the
given data. -/
def Gives {α : Type} (ctx : Context) (data : Value) (x : Eval α) (a : α) : Prop :=
  ∀ w, ctx.Sees data w → x w = .ok a w

/-- An expression comes to a value within so many levels. -/
def Reads (levels : Nat) (ctx : Context) (data e v : Value) : Prop :=
  Gives ctx data ((withFuel Library.standard levels).evaluate e ctx) v

def ReadsAll (levels : Nat) (ctx : Context) (data : Value) (es vs : List Value) : Prop :=
  List.Forall₂ (Reads levels ctx data) es vs

variable {α β : Type} {levels n : Nat} {ctx : Context} {data e v : Value} {es vs : List Value}

namespace Gives

theorem pure (a : α) : Gives ctx data (pure a) a := fun _ _ => rfl

theorem bind {x : Eval α} {a : α} {f : α → Eval β} {b : β} (hx : Gives ctx data x a)
    (hf : Gives ctx data (f a) b) : Gives ctx data (x >>= f) b := fun w hw =>
  (Eval.bind_of_ok (hx w hw)).trans (hf w hw)

end Gives

theorem evaluate_call {name : Text} {op : Operator} (hop : operator? Library.standard name = some op)
    (args : List Value) (ctx : Context) :
    (withFuel Library.standard (n + 1)).evaluate (Expr.call name args) ctx
      = op (withFuel Library.standard n) ctx args := by
  show step Library.standard (withFuel Library.standard n) (Expr.call name args) ctx = _
  unfold step Expr.call
  dsimp only
  rw [hop]

theorem evaluate_core (op : CoreOp) (args : List Value) (ctx : Context) :
    (withFuel Library.standard (n + 1)).evaluate (Expr.call op.name args) ctx
      = op.apply (withFuel Library.standard n) ctx args := by
  refine evaluate_call ?_ args ctx
  unfold operator?
  rw [CoreOp.ofName?_name]

/-- A single local name is bound before the body is evaluated. -/
theorem evaluate_bindName (name : Text) (e body : Value) (ctx : Context) :
    (withFuel Library.standard (n + 1)).evaluate
        (Expr.call "let" [.array [.array [.string name, e]], body]) ctx
      = (withFuel Library.standard n).evaluate e ctx >>= fun v =>
          (withFuel Library.standard n).evaluate body
            (ctx.child [(Binding.bareName name, v)]) := by
  have hbound : Control.apply .bind (withFuel Library.standard n) ctx
      [.array [.array [.string name, e]], body] = (do
        let bound ← Control.bindNames (withFuel Library.standard n) ctx [] [.array [.string name, e]]
        Control.sequence (withFuel Library.standard n) (ctx.child bound) .undefined [body]) := rfl
  have hnames : Control.bindNames (withFuel Library.standard n) ctx [] [.array [.string name, e]]
      = (do
        let v ← (withFuel Library.standard n).evaluate e ctx
        return [(Binding.bareName name, v)]) := rfl
  have hbody (v : Value) : Control.sequence (withFuel Library.standard n)
      (ctx.child [(Binding.bareName name, v)]) .undefined [body]
        = (withFuel Library.standard n).evaluate body (ctx.child [(Binding.bareName name, v)]) :=
    bind_pure _
  rw [show ("let" : Text) = (CoreOp.control .bind).name from rfl, evaluate_core]
  show Control.apply .bind _ ctx _ = _
  rw [hbound, hnames, bind_assoc]
  simp only [pure_bind, hbody]

theorem Reads.literal (hcall : Expr.isCall e = false) (hbinding : Expr.isBinding e = false) :
    Reads (n + 1) ctx data e e := by
  intro w _
  show step Library.standard (withFuel Library.standard n) e ctx w = .ok e w
  unfold step
  split
  next => cases hcall
  next => rw [if_neg (by simp [hbinding])]; rfl
  next => rfl

theorem Reads.binding {text : Text} (htext : Expr.isBinding (.string text) = true) :
    Reads (n + 1) ctx data (.string text) (ctx.readIn data text) := by
  intro w hw
  have hstep : (withFuel Library.standard (n + 1)).evaluate (.string text) ctx w
      = (if Expr.isBinding (.string text) then ctx.resolveText text
        else return .string text : Eval Value) w := rfl
  rw [hstep, if_pos htext, Context.resolveText_eq, Context.reading_eq_readIn hw]

theorem exists_reads_leaf (hcall : Expr.isCall e = false) : ∃ v, Reads (n + 1) ctx data e v := by
  cases hbinding : Expr.isBinding e with
  | false => exact ⟨e, .literal hcall hbinding⟩
  | true =>
    cases e with
    | string text => exact ⟨_, .binding hbinding⟩
    | undefined | null | bool | number | array | map | closure => cases hbinding

theorem exists_readsAll (h : ∀ e ∈ es, ∃ v, Reads n ctx data e v) :
    ∃ vs, ReadsAll n ctx data es vs := by
  induction es with
  | nil => exact ⟨[], .nil⟩
  | cons e rest ih =>
    obtain ⟨v, hv⟩ := h e List.mem_cons_self
    obtain ⟨vs, hvs⟩ := ih fun e he => h e (List.mem_cons_of_mem _ he)
    exact ⟨v :: vs, .cons hv hvs⟩

section arguments

variable {op : Text} {i : Nat}

theorem required_gives (hi : es[i]? = some e) (he : Reads n ctx data e v) :
    Gives ctx data (Operator.required op (withFuel Library.standard n) ctx es i) v := by
  have harg : Gives ctx data (Operator.argument op es i) e := by
    unfold Operator.argument
    rw [hi]
    exact .pure e
  exact harg.bind he

theorem optional_gives (hi : es[i]? = some e) (he : Reads n ctx data e v) :
    Gives ctx data (Operator.optional (withFuel Library.standard n) ctx es i) v := by
  unfold Operator.optional
  rw [hi]
  exact he

theorem exists_required (op : Text) (h : ∀ e ∈ es, ∃ v, Reads n ctx data e v) (hi : i < es.length) :
    ∃ v, Gives ctx data (Operator.required op (withFuel Library.standard n) ctx es i) v := by
  obtain ⟨v, hv⟩ := h es[i] (List.getElem_mem hi)
  exact ⟨v, required_gives (List.getElem?_eq_getElem hi) hv⟩

theorem exists_optional (h : ∀ e ∈ es, ∃ v, Reads n ctx data e v) (i : Nat) :
    ∃ v, Gives ctx data (Operator.optional (withFuel Library.standard n) ctx es i) v := by
  by_cases hi : i < es.length
  · obtain ⟨v, hv⟩ := h es[i] (List.getElem_mem hi)
    exact ⟨v, optional_gives (List.getElem?_eq_getElem hi) hv⟩
  · refine ⟨.undefined, ?_⟩
    unfold Operator.optional
    rw [List.getElem?_eq_none (Nat.not_lt.mp hi)]
    exact .pure _

theorem ReadsAll.gives (h : ReadsAll n ctx data es vs) :
    Gives ctx data ((withFuel Library.standard n).evaluateAll ctx es) vs := by
  unfold evaluateAll
  induction h with
  | nil => exact .pure []
  | cons hv _ ih =>
    rw [List.mapM_cons]
    exact hv.bind (ih.bind (.pure _))

end arguments

section families

theorem ReadsAll.fold (h : ReadsAll n ctx data es vs) (f : Float → Float → Float) (acc : Float) :
    Gives ctx data (Arithmetic.fold (withFuel Library.standard n) ctx f acc es)
      (.number (vs.foldl (fun acc v => f acc v.toNumber) acc)) := by
  induction h generalizing acc with
  | nil => exact .pure _
  | cons hv _ ih => exact hv.bind (ih _)

theorem ReadsAll.all (h : ReadsAll n ctx data es vs) :
    Gives ctx data (Logic.all (withFuel Library.standard n) ctx es) (vs.all Value.isTruthy) := by
  induction h with
  | nil => exact .pure true
  | @cons e v es vs hv _ ih =>
    refine hv.bind ?_
    cases htruthy : v.isTruthy with
    | true =>
      rw [if_pos rfl, List.all_cons, htruthy, Bool.true_and]
      exact ih
    | false =>
      rw [if_neg Bool.false_ne_true, List.all_cons, htruthy, Bool.false_and]
      exact .pure false

theorem ReadsAll.any (h : ReadsAll n ctx data es vs) :
    Gives ctx data (Logic.any (withFuel Library.standard n) ctx es) (vs.any Value.isTruthy) := by
  induction h with
  | nil => exact .pure false
  | @cons e v es vs hv _ ih =>
    refine hv.bind ?_
    cases htruthy : v.isTruthy with
    | true =>
      rw [if_pos rfl, List.any_cons, htruthy, Bool.true_or]
      exact .pure true
    | false =>
      rw [if_neg Bool.false_ne_true, List.any_cons, htruthy, Bool.false_or]
      exact ih

theorem Reads.comparison (op : ComparisonOp) {a b x y : Value} (ha : Reads n ctx data a x)
    (hb : Reads n ctx data b y) :
    Reads (n + 1) ctx data (Expr.call op.name [a, b]) (.bool (Comparison.decide op x y)) := by
  unfold Reads
  rw [show op.name = (CoreOp.comparison op).name from rfl, evaluate_core]
  exact (required_gives rfl ha).bind ((required_gives rfl hb).bind (.pure _))

theorem Reads.not (he : Reads n ctx data e v) :
    Reads (n + 1) ctx data (Expr.call "not" [e]) (.bool !v.isTruthy) := by
  unfold Reads
  rw [show ("not" : Text) = (CoreOp.logic .not).name from rfl, evaluate_core]
  exact (required_gives rfl he).bind (.pure _)

theorem Reads.or (h : ReadsAll n ctx data es vs) :
    Reads (n + 1) ctx data (Expr.call "or" es) (.bool (vs.any Value.isTruthy)) := by
  unfold Reads
  rw [show ("or" : Text) = (CoreOp.logic .or).name from rfl, evaluate_core]
  exact h.any.bind (.pure _)

theorem Reads.and (h : ReadsAll n ctx data es vs) :
    Reads (n + 1) ctx data (Expr.call "and" es) (.bool (vs.all Value.isTruthy)) := by
  unfold Reads
  rw [show ("and" : Text) = (CoreOp.logic .and).name from rfl, evaluate_core]
  exact h.all.bind (.pure _)

theorem Reads.sum (h : ReadsAll n ctx data es vs) : Reads (n + 1) ctx data (Expr.call "+" es)
    (.number (vs.foldl (fun acc v => acc + v.toNumber) 0.0)) := by
  unfold Reads
  rw [show ("+" : Text) = (CoreOp.arithmetic .add).name from rfl, evaluate_core]
  exact h.fold (· + ·) 0.0

theorem Reads.difference {a b x y : Value} (ha : Reads n ctx data a x) (hb : Reads n ctx data b y) :
    Reads (n + 1) ctx data (Expr.call "-" [a, b]) (.number (x.toNumber - y.toNumber)) := by
  unfold Reads
  rw [show ("-" : Text) = (CoreOp.arithmetic .subtract).name from rfl, evaluate_core]
  refine Gives.bind (a := x.toNumber) ((required_gives rfl ha).bind (.pure _)) ?_
  exact (optional_gives rfl hb).bind (.pure _)

theorem Reads.quotient {a b x y : Value} (ha : Reads n ctx data a x) (hb : Reads n ctx data b y) :
    Reads (n + 1) ctx data (Expr.call "/" [a, b])
      (.number (Arithmetic.divide x.toNumber y.toNumber)) := by
  unfold Reads
  rw [show ("/" : Text) = (CoreOp.arithmetic .divide).name from rfl, evaluate_core]
  refine Gives.bind (a := x.toNumber) ((required_gives rfl ha).bind (.pure _)) ?_
  exact Gives.bind (a := y.toNumber) ((required_gives rfl hb).bind (.pure _)) (.pure _)

/-- The branch that is not taken may be anything. -/
theorem Reads.choose {c a b u : Value} (hc : Reads n ctx data c u)
    (hbranch : Reads n ctx data (if u.isTruthy then a else b) v) :
    Reads (n + 1) ctx data (Expr.call "if" [c, a, b]) v := by
  unfold Reads
  rw [show ("if" : Text) = (CoreOp.logic .choose).name from rfl, evaluate_core]
  refine (required_gives rfl hc).bind ?_
  cases htruthy : u.isTruthy with
  | true =>
    rw [htruthy, if_pos rfl] at hbranch
    rw [if_pos rfl]
    exact required_gives rfl hbranch
  | false =>
    rw [htruthy, if_neg Bool.false_ne_true] at hbranch
    rw [if_neg Bool.false_ne_true]
    exact optional_gives rfl hbranch

theorem Reads.ofTotal {name : Text} {f : Arguments → Value}
    (hop : operator? Library.standard name = some (Operator.ofValues fun args => .ok (f args)))
    (h : ReadsAll n ctx data es vs) : Reads (n + 1) ctx data (Expr.call name es) (f vs) := by
  unfold Reads
  rw [evaluate_call hop]
  exact h.gives.bind (.pure _)

theorem Reads.append {source : Value} {items : List Value}
    (hsource : Reads n ctx data source (.array items)) (hv : Reads n ctx data e v) :
    Reads (n + 1) ctx data (Expr.call "array/append" [source, e]) (.array (items ++ [v])) :=
  .ofTotal (f := fun args => .array (Library.Array.items args ++ [args.nth 1]))
    (Library.operator?_of_place 50 rfl) (.cons hsource (.cons hv .nil))

end families

end Evaluator

/-!
Inert expressions. They do nothing to the world, whatever the context is and whether they come to a
value there or not, so that a closure over one does no harm, wherever it is called.
-/

open Eval (Keeps Frame)

/-- An expression whose evaluation does nothing to the world, in any context and to any depth. -/
def Expr.Inert (e : Value) : Prop :=
  ∀ R, Frame R → ∀ n ctx, Keeps R ((Evaluator.withFuel Library.standard n).evaluate e ctx)

namespace Expr.Inert

variable {R : World → World → Prop} {n : Nat} {ctx : Context} {e : Value} {es : List Value}

theorem leaf (h : isCall e = false) : Inert e := by
  intro R hR n ctx
  cases n with
  | zero => exact hR.throw _
  | succ n =>
    show Keeps R (Evaluator.step Library.standard (Evaluator.withFuel Library.standard n) e ctx)
    unfold Evaluator.step
    split
    next => cases h
    next => exact Keeps.ite (fun _ => Evaluator.Respects.resolveText hR ctx _) fun _ => hR.pure _
    next => exact hR.pure _

/-- A core operator is inert if it is so with evaluators to any depth. -/
theorem core (op : CoreOp) (h : ∀ R, Frame R → ∀ n ctx,
    Keeps R (op.apply (Evaluator.withFuel Library.standard n) ctx es)) : Inert (call op.name es) := by
  intro R hR n ctx
  cases n with
  | zero => exact hR.throw _
  | succ n =>
    rw [Evaluator.evaluate_core]
    exact h R hR n ctx

theorem required (hR : Frame R) (hes : ∀ e ∈ es, Inert e) (op : Text) (i : Nat) :
    Keeps R (Operator.required op (Evaluator.withFuel Library.standard n) ctx es i) := by
  unfold Operator.required Operator.argument
  cases hi : es[i]? with
  | none => exact fun w => hR.refl w
  | some e => exact hes e (List.mem_of_getElem? hi) R hR n ctx

theorem comparison (op : ComparisonOp) (hes : ∀ e ∈ es, Inert e) : Inert (call op.name es) :=
  .core (.comparison op) fun _ hR _ _ =>
    hR.bind (required hR hes _ 0) fun _ => hR.bind (required hR hes _ 1) fun _ => hR.pure _

theorem all (hR : Frame R) (hes : ∀ e ∈ es, Inert e) :
    Keeps R (Logic.all (Evaluator.withFuel Library.standard n) ctx es) := by
  induction es with
  | nil => exact hR.pure true
  | cons e rest ih =>
    rw [List.forall_mem_cons] at hes
    exact hR.bind (hes.1 R hR n ctx) fun v => Keeps.ite (fun _ => ih hes.2) fun _ => hR.pure false

theorem and (hes : ∀ e ∈ es, Inert e) : Inert (call "and" es) :=
  .core (.logic .and) fun _ hR _ _ => hR.bind (all hR hes) fun _ => hR.pure _

end Expr.Inert
end EntityMachines
