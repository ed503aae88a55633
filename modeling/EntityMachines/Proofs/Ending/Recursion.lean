import EntityMachines.Proofs.Ending.Library
import EntityMachines.Proofs.Ending.Program
import EntityMachines.Proofs.Evaluation.Reads
import EntityMachines.Proofs.Expr.Nodes
import EntityMachines.Proofs.Value.Parts

/-!
The end of evaluation. Nothing is evaluated but expressions that are written, in the expression at
hand, in the closures around it or in the machines that its events reach, so that a descent that
goes on must come back to one of them. Main statement: evaluation ends unless an expression is
evaluated within its own evaluation more often than it is written.
-/
namespace EntityMachines

theorem Expr.item_mem_nodes {e item : Value} {items : List Value} (h : .array items ∈ nodes e)
    (hitem : item ∈ items) : item ∈ nodes e := by
  induction e using Value.inductionOn with
  | array others ih =>
    rw [nodes_array] at h
    rcases List.mem_cons.mp h with hself | hbelow
    · cases hself
      exact mem_nodes_of_item hitem (self_mem_nodes item)
    · obtain ⟨other, hother, hnode⟩ := List.mem_flatMap.mp hbelow
      exact mem_nodes_of_item hother (ih other hother hnode)
  | undefined | null | bool | number | string | map | closure => cases List.mem_singleton.mp h

def Definition.written (d : Definition) : List Value :=
  d.transitions.flatMap fun t => (t.guard.toList ++ t.effects).flatMap Expr.nodes

/-- The expressions in the closures and machines of a world, each as often as it is written. -/
def World.written (w : World) : List Value :=
  w.closures.toList.flatMap (fun c => Expr.nodes c.body)
    ++ w.machines.flatMap fun m => m.definition.written

theorem World.written_closed {w : World} {items : List Value} (h : .array items ∈ w.written)
    {item : Value} (hitem : item ∈ items) : item ∈ w.written := by
  rcases List.mem_append.mp h with hbody | hreaction
  · obtain ⟨c, hc, hnode⟩ := List.mem_flatMap.mp hbody
    exact List.mem_append_left _ (List.mem_flatMap.mpr ⟨c, hc, Expr.item_mem_nodes hnode hitem⟩)
  · obtain ⟨m, hm, hm'⟩ := List.mem_flatMap.mp hreaction
    obtain ⟨t, ht, ht'⟩ := List.mem_flatMap.mp hm'
    obtain ⟨e, he, hnode⟩ := List.mem_flatMap.mp ht'
    exact List.mem_append_right _ (List.mem_flatMap.mpr ⟨m, hm, List.mem_flatMap.mpr ⟨t, ht,
      List.mem_flatMap.mpr ⟨e, he, Expr.item_mem_nodes hnode hitem⟩⟩⟩)

/-- All that is written when an expression is evaluated. -/
def Program.of (e : Value) (w : World) : Program where
  texts := Expr.nodes e ++ w.written
  closed _ h _ hitem := (List.mem_append.mp h).elim
    (fun hnode => List.mem_append_left _ (Expr.item_mem_nodes hnode hitem))
    fun hwritten => List.mem_append_right _ (World.written_closed hwritten hitem)

theorem Program.of_runs (e : Value) (w : World) {cut : Prop} (h : w.deadline ≠ none → cut) :
    (Program.of e w).Runs cut w where
  body c hc := List.mem_append_right _ (List.mem_append_left _
    (List.mem_flatMap.mpr ⟨c, Array.mem_toList_iff.mpr hc, Expr.self_mem_nodes c.body⟩))
  reaction m hm t ht := by
    have hwritten (e' : Value) (he' : e' ∈ t.guard.toList ++ t.effects) :
        e' ∈ (Program.of e w).texts :=
      List.mem_append_right _ (List.mem_append_right _ (List.mem_flatMap.mpr ⟨m, hm,
        List.mem_flatMap.mpr ⟨t, ht, List.mem_flatMap.mpr ⟨e', he', Expr.self_mem_nodes e'⟩⟩⟩))
    refine ⟨fun guard hguard => hwritten guard ?_, fun effect heffect => hwritten effect ?_⟩
    · exact List.mem_append_left _ (Option.mem_toList.mpr hguard)
    · exact List.mem_append_right _ heffect
  deadline := h

/-- Whether a computation is given up for lack of levels. -/
def Eval.givesUp {α : Type} (x : Eval α) (w : World) : Bool :=
  match x w with
  | .error .exhausted _ => true
  | _ => false

namespace Evaluator

/-- Machines have guards and effects evaluated. It is only in these that events are emitted. -/
def ofEvaluate (evaluate : Value → Context → Eval Value) : Evaluator where
  evaluate
  deliver := Machine.deliver { evaluate, deliver := fun _ _ _ _ => Eval.raise .unnamed }

/-- Evaluation that is given up where it recurs. Of all that is written, what is not waiting is
evaluated around the present expression. For what is not written there is no evaluation. -/
def unlessRecurring (written : List Value) : Nat → List Value → Value → Context → Eval Value
  | 0, _, e, _ => if e ∈ written then throw .exhausted else Eval.raise .unnamed
  | n + 1, waiting, e, ctx =>
    if e ∈ waiting then
      step Library.standard (ofEvaluate (unlessRecurring written n (waiting.erase e))) e ctx
    else if e ∈ written then throw .exhausted
    else Eval.raise .unnamed

/-- An expression comes to be evaluated within its own evaluation more often than it is written. -/
def Recurs (e : Value) (ctx : Context) (w : World) : Prop :=
  let written := (Program.of e w).texts
  (unlessRecurring written written.length written e ctx).givesUp w = true

open Program (Any Follows)

/-- Two levels are enough for each expression that waits: one for its evaluation and one for the
delivery of an event that it emits. -/
theorem unlessRecurring_follows (P : Program) (n : Nat) {waiting : List Value} {levels : Nat}
    (hlength : waiting.length ≤ n) (hlevels : 2 * waiting.length ≤ levels) {cut : Prop}
    (hcut : P.Races → cut) {e : Value} (he : e ∈ P.texts) (ctx : Context) :
    P.Follows cut Any (unlessRecurring P.texts n waiting e ctx)
      ((withFuel Library.standard levels).evaluate e ctx) := by
  induction n generalizing waiting levels cut e ctx with
  | zero =>
    unfold unlessRecurring
    rw [if_pos he]
    exact .exhausted _
  | succ n ih =>
    unfold unlessRecurring
    by_cases hwaiting : e ∈ waiting
    · rw [if_pos hwaiting]
      have hpos : 0 < waiting.length := List.length_pos_of_mem hwaiting
      obtain ⟨levels, rfl⟩ : ∃ m, levels = m + 2 := ⟨levels - 2, by omega⟩
      have herase : (waiting.erase e).length = waiting.length - 1 :=
        List.length_erase_of_mem hwaiting
      have hrest : (waiting.erase e).length ≤ n := by omega
      have himitates : Imitates P cut
          (ofEvaluate (unlessRecurring P.texts n (waiting.erase e)))
          (withFuel Library.standard (levels + 1)) := {
        evaluate := fun e he ctx => ih hrest (by omega) hcut he ctx
        limited := fun e he ctx => ih hrest (by omega) (fun _ => trivial) he ctx
        deliver := Machine.deliver_follows fun e he ctx => ih hrest (by omega) hcut he ctx
        race := hcut }
      exact himitates.step he ctx
    · rw [if_neg hwaiting, if_pos he]
      exact .exhausted _

/-- Each row of a table is handed to a closure that hands every entry to another one. -/
def turned : Value :=
  Expr.call "let" [
    .array [.array [.string "not", Expr.call "fn" [.string "x", Expr.call "not" [.string "@x"]]]],
    Expr.call "map" [.array [.array [.bool true], .array [.bool false, .bool true]],
      Expr.call "fn" [.string "row", Expr.call "map" [.string "@row", .string "@not"]]]]

section selfApplication

def applyToItself (name : Text) : Value := Expr.call "map" [.string name, .string name]

/-- A closure that applies what it is given to itself is given itself. -/
def selfApplication : Value :=
  Expr.call "let" [.array [.array [.string "f", Expr.call "fn" [.string "x", applyToItself "@x"]]],
    applyToItself "@f"]

/-- The world once the closure has been made. -/
def selfApplying : World := { closures := #[⟨.single "x", applyToItself "@x", {}⟩] }

variable {name : Text} {ctx : Context} {n : Nat}

/-- The closure is called in a context in which its name reads the closure again. -/
theorem applyToItself_exhausted
    (hread : ∀ m, (withFuel Library.standard (m + 1)).evaluate (.string name) ctx selfApplying
      = .ok (.closure 0) selfApplying) :
    (withFuel Library.standard n).evaluate (applyToItself name) ctx selfApplying
      = .error .exhausted selfApplying := by
  induction n generalizing name ctx with
  | zero => rfl
  | succ n ih =>
    have hmap : (withFuel Library.standard (n + 1)).evaluate (applyToItself name) ctx
        = Collection.apply .map (withFuel Library.standard n) ctx [.string name, .string name] :=
      evaluate_core (.collection .map) _ _
    rw [hmap]
    unfold Collection.apply
    cases n with
    | zero => rfl
    | succ n =>
      have hitem : Operator.required "map" (withFuel Library.standard (n + 1)) ctx
          [.string name, .string name] 0 selfApplying = .ok (.closure 0) selfApplying := hread n
      have hlambda : Operator.requiredLambda "map" (withFuel Library.standard (n + 1)) ctx
          [.string name, .string name] 1 selfApplying = .ok (.closure 0) selfApplying :=
        Eval.bind_of_ok (hread n)
      have hbody : (withFuel Library.standard (n + 1)).evaluate (applyToItself "@x")
          (({} : Context).child [("x", .closure 0)]) selfApplying
            = .error .exhausted selfApplying := ih fun _ => rfl
      have hcall : (withFuel Library.standard (n + 1)).invoke (.closure 0) [.closure 0] selfApplying
          = .error .exhausted selfApplying := hbody
      have hitems : Collection.mapItems (withFuel Library.standard (n + 1)) (.closure 0)
          [.closure 0] selfApplying = .error .exhausted selfApplying := Eval.bind_of_error hcall
      exact (Eval.bind_of_ok hitem).trans ((Eval.bind_of_ok hlambda).trans
        (Eval.bind_of_error hitems))

end selfApplication

end Evaluator
end EntityMachines
