import EntityMachines.Machine.Check
import EntityMachines.Machine.Document

/-!
Definitions that are read from documents begin in a declared state, and those without problems
lead to declared states only.
-/
namespace EntityMachines
namespace Document

/-- Whatever a reading gives is as a predicate says. -/
def Yields {α : Type} (P : α → Prop) (x : Reading α) : Prop := ∀ v, x = .ok v → P v

namespace Yields

variable {α β : Type} {P : β → Prop} {Q : α → Prop} {x : Reading α} {f : α → Reading β}

theorem bind_of (hx : Yields Q x) (hf : ∀ a, Q a → Yields P (f a)) : Yields P (x >>= f) := by
  intro v h
  cases hr : x with
  | error e =>
    rw [hr] at h
    cases h
  | ok a =>
    rw [hr] at h
    exact hf a (hx a hr) v h

theorem bind (hf : ∀ a, Yields P (f a)) : Yields P (x >>= f) :=
  bind_of (fun _ _ => trivial) fun a (_ : True) => hf a

theorem pure {v : β} (h : P v) : Yields P (pure v) := by
  intro u hu
  cases hu
  exact h

end Yields

theorem declaredInitial_declared (named : Text) (states : List StateDecl) :
    Yields (fun initial => (states.map (·.name)).contains initial = true)
      (declaredInitial named states) := by
  intro initial h
  unfold declaredInitial require at h
  dsimp only at h
  split at h
  next hdeclared =>
    cases h
    exact hdeclared
  next => cases h

theorem body_initial_declared (doc : Value) (name : Text) :
    Yields (fun d => d.hasState d.initial = true) (body doc name) := by
  unfold body
  dsimp only
  iterate 7 refine Yields.bind fun _ => ?_
  refine Yields.bind fun states => ?_
  iterate 6 refine Yields.bind fun _ => ?_
  refine Yields.bind_of (declaredInitial_declared _ states) fun initial hinitial => ?_
  iterate 6 refine Yields.bind fun _ => ?_
  exact Yields.pure hinitial

end Document

namespace Definition

/-- A document is none, or its name or the rest of it is at fault, or it gives a definition. -/
theorem ofDocument_cases (doc : Value) :
    ofDocument doc = .error .notADocument ∨
    (∃ owner fault, ofDocument doc = .error (.definition owner fault)) ∨
    ∃ name d, Document.nonEmptyText doc "behavior" "name" = .ok name ∧
      Document.body doc name = .ok d ∧ ofDocument doc = .ok d := by
  unfold ofDocument
  split
  · exact .inl rfl
  · cases hname : Document.nonEmptyText doc "behavior" "name" with
    | error fault => exact .inr (.inl ⟨[], fault, rfl⟩)
    | ok name =>
      cases hbody : Document.body doc name with
      | error fault => exact .inr (.inl ⟨name, fault, congrArg (Except.mapError _) hbody⟩)
      | ok d => exact .inr (.inr ⟨name, d, rfl, hbody, congrArg (Except.mapError _) hbody⟩)

theorem initial_declared {doc : Value} {d : Definition} (h : ofDocument doc = .ok d) :
    d.hasState d.initial = true := by
  rcases ofDocument_cases doc with hnone | ⟨owner, fault, hfault⟩ | ⟨name, d', -, hbody, hok⟩
  · cases hnone.symm.trans h
  · cases hfault.symm.trans h
  · cases hok.symm.trans h
    exact Document.body_initial_declared doc name d hbody

/-- A transition of a definition without problems leads to a declared state, or nowhere. -/
theorem target_declared {d : Definition} (h : d.problems = []) {t : Transition}
    (ht : t ∈ d.transitions) {state : Text} (hstate : t.target = some state) :
    d.hasState state = true := by
  unfold problems at h
  have hflat := (List.append_eq_nil_iff.mp (List.append_eq_nil_iff.mp h).1).2
  have hproblems : d.transitionProblems t = [] := List.flatMap_eq_nil_iff.mp hflat t ht
  unfold transitionProblems at hproblems
  have htargets := List.map_eq_nil_iff.mp (List.append_eq_nil_iff.mp hproblems).2
  rw [hstate] at htargets
  have hnot := List.filter_eq_nil_iff.mp htargets state (by simp)
  simpa using hnot

end Definition
end EntityMachines
