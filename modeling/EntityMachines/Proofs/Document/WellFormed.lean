import EntityMachines.Proofs.Expr.Nodes
import EntityMachines.Proofs.Machine.Declared

/-!
The definitions that documents give are well-formed, and a document that gives none is refused for
a fault that it has itself.
-/
namespace EntityMachines

/-- The states that a transition lists; one that leaves from any state lists none. -/
def Sources.listing : Sources → List Text
  | any => []
  | listed states => states

def StateDecl.WellFormed (s : StateDecl) : Prop := s.name ≠ []

/-- An event that is given by an empty key alone has nothing else. -/
def EventDecl.WellFormed (e : EventDecl) : Prop := e.key ≠ [] ∧ e.name ≠ [] ∨ e = { key := [] }

/-- What is run is a call of an operator. -/
def Effects.WellFormed (effects : List Value) : Prop :=
  ∀ e ∈ effects, ∃ op args, e = Expr.call op args

def Guard.WellFormed (guard : Option Value) : Prop := ∀ g, guard = some g → g.isNullish = false

structure Transition.WellFormed (t : Transition) : Prop where
  event : t.event ≠ []
  sources : t.sources.listing ≠ [] ↔ t.sources ≠ .any
  target : ∀ state, t.target = some state → state ≠ []
  guard : Guard.WellFormed t.guard
  effects : Effects.WellFormed t.effects

def Interval.WellFormed : Interval → Prop
  | frame => True
  | fixed ms => ms.isFinite = true ∧ ms > 0.0
  | config key => (46 : Byte) ∉ key

structure Tick.WellFormed (t : Tick) : Prop where
  name : t.name ≠ []
  interval : t.interval.WellFormed
  guard : Guard.WellFormed t.guard
  effects : Effects.WellFormed t.effects

structure DataEntity.WellFormed (d : DataEntity) : Prop where
  name : d.name ≠ []
  fields : ∀ f ∈ d.fields, f.name ≠ []

def ConfigField.WellFormed (f : ConfigField) : Prop := f.name ≠ []

structure Definition.WellFormed (d : Definition) : Prop where
  name : d.name ≠ []
  dataEntities : ∀ e ∈ d.dataEntities, e.WellFormed
  nonempty : d.states ≠ []
  states : ∀ s ∈ d.states, s.WellFormed
  initial : d.hasState d.initial = true
  events : ∀ e ∈ d.events, e.WellFormed
  transitions : ∀ t ∈ d.transitions, t.WellFormed
  ticks : ∀ t ∈ d.ticks, t.WellFormed
  requiredConfig : ∀ f ∈ d.requiredConfig, f.WellFormed
  optionalConfig : ∀ f ∈ d.optionalConfig, f.WellFormed
  initialEffects : Effects.WellFormed d.initialEffects

/-- The errors that say what is wrong with a document. -/
def Error.Refuses : Error → Prop
  | .notADocument | .definition _ _ => True
  | _ => False

namespace Document

namespace Yields

variable {α β : Type} {P : α → Prop}

theorem fault (f : DefinitionFault) : Yields P (fault f) := by
  intro v h
  cases h

theorem mapM {read : β → Reading α} (hread : ∀ doc, Yields P (read doc)) (docs : List β) :
    Yields (fun vs => ∀ v ∈ vs, P v) (docs.mapM read) := by
  induction docs with
  | nil => exact Yields.pure (by simp)
  | cons doc rest ih =>
    rw [List.mapM_cons]
    refine Yields.bind_of (hread doc) fun v hv => Yields.bind_of ih fun vs hvs => Yields.pure ?_
    intro u hu
    rcases List.mem_cons.mp hu with rfl | hu
    · exact hv
    · exact hvs u hu

theorem numbered {read : Nat → Value → Reading α} (hread : ∀ i doc, Yields P (read i doc))
    (docs : List Value) : Yields (fun vs => ∀ v ∈ vs, P v) (Document.numbered read docs) := by
  unfold Document.numbered
  exact Yields.mapM (fun entry => hread entry.2 entry.1) docs.zipIdx

end Yields

theorem nonEmptyText_yields (doc : Value) (part key : Text) :
    Yields (· ≠ []) (nonEmptyText doc part key) := by
  unfold nonEmptyText
  refine Yields.bind fun s => ?_
  split
  next => exact Yields.fault _
  next h => exact Yields.pure (by simpa using h)

theorem effects_yields (doc : Value) (part key : Text) :
    Yields Effects.WellFormed (effects doc part key) := by
  unfold effects
  refine Yields.bind fun docs => Yields.mapM (fun effect => ?_) docs
  split
  next h =>
    refine Yields.pure ?_
    unfold Expr.isCall at h
    split at h
    next op args => exact ⟨op, args, rfl⟩
    next => cases h
  next => exact Yields.fault _

theorem expression?_wellFormed (doc : Value) (key : Text) :
    Guard.WellFormed (expression? doc key) := by
  intro g h
  unfold expression? at h
  dsimp only at h
  split at h
  next => cases h
  next hnullish =>
    cases h
    simpa using hnullish

theorem require_yields (holds : Bool) (f : DefinitionFault) :
    Yields (fun _ => holds = true) (require holds f) := by
  unfold require
  split
  next h => exact Yields.pure h
  next => exact Yields.fault f

theorem state_yields (doc : Value) : Yields StateDecl.WellFormed (state doc) := by
  unfold state
  split
  next name =>
    split
    next => exact Yields.fault _
    next h => exact Yields.pure (by simpa [StateDecl.WellFormed] using h)
  next =>
    refine Yields.bind_of (nonEmptyText_yields _ _ _) fun name hname => ?_
    exact Yields.bind fun _ => Yields.pure hname
  next => exact Yields.fault _

theorem event_yields (doc : Value) : Yields EventDecl.WellFormed (event doc) := by
  unfold event
  split
  next key =>
    refine Yields.pure ?_
    by_cases h : key = []
    · exact .inr (by rw [h])
    · exact .inl ⟨h, h⟩
  next =>
    refine Yields.bind_of (nonEmptyText_yields _ _ _) fun key hkey => ?_
    refine Yields.bind fun name => Yields.bind fun description => Yields.pure (.inl ⟨hkey, ?_⟩)
    dsimp only
    split
    next => exact hkey
    next h => simpa using h
  next => exact Yields.fault _

theorem sources_yields (doc : Value) (part : Text) :
    Yields (fun s => s.listing ≠ [] ↔ s ≠ .any) (sources doc part) := by
  have hany : Sources.any.listing ≠ [] ↔ Sources.any ≠ .any := by simp [Sources.listing]
  have hlisted {states : List Text} (h : states ≠ []) :
      (Sources.listed states).listing ≠ [] ↔ Sources.listed states ≠ .any := by
    simpa [Sources.listing] using h
  unfold sources
  split
  next => exact Yields.pure hany
  next => exact Yields.pure hany
  next s =>
    refine Yields.pure ?_
    split
    next => exact hany
    next => exact hlisted (by simp)
  next =>
    refine Yields.bind fun states => ?_
    split
    next => exact Yields.fault _
    next h => exact Yields.pure (hlisted (by simpa using h))
  next => exact Yields.fault _

theorem transition_yields (index : Nat) (doc : Value) :
    Yields Transition.WellFormed (transition index doc) := by
  unfold transition
  dsimp only
  refine Yields.bind fun _ => ?_
  refine Yields.bind_of (nonEmptyText_yields _ _ _) fun event hevent => ?_
  refine Yields.bind_of (sources_yields _ _) fun sources hsources => ?_
  refine Yields.bind fun target => ?_
  refine Yields.bind_of (effects_yields _ _ _) fun effects heffects => Yields.pure ?_
  refine ⟨hevent, hsources, ?_, expression?_wellFormed _ _, heffects⟩
  intro state h
  dsimp only at h
  split at h
  next => cases h
  next hempty =>
    cases h
    simpa using hempty

theorem interval_yields (doc : Value) (part : Text) :
    Yields Interval.WellFormed (interval doc part) := by
  unfold interval
  dsimp only
  split
  next => exact Yields.pure trivial
  next => exact Yields.pure trivial
  next ms =>
    split
    next h =>
      rw [Bool.and_eq_true, decide_eq_true_iff] at h
      exact Yields.pure ⟨h.2, h.1⟩
    next => exact Yields.fault _
  next s =>
    split
    next => exact Yields.pure trivial
    next =>
      split
      next b hb =>
        split
        next key hpath =>
          split
          next =>
            have hkey : key ∈ b.path := by
              rw [hpath]
              exact List.mem_singleton_self key
            exact Yields.pure (Binding.dot_not_mem hb hkey)
          next => exact Yields.fault _
        next => exact Yields.fault _
      next => exact Yields.fault _
  next => exact Yields.fault _

theorem tick_yields (index : Nat) (doc : Value) : Yields Tick.WellFormed (tick index doc) := by
  unfold tick
  dsimp only
  refine Yields.bind fun _ => ?_
  refine Yields.bind_of (nonEmptyText_yields _ _ _) fun name hname => ?_
  refine Yields.bind fun description => Yields.bind fun priority => ?_
  refine Yields.bind_of (interval_yields _ _) fun interval hinterval => ?_
  refine Yields.bind fun appliesTo => ?_
  refine Yields.bind_of (effects_yields _ _ _) fun effects heffects => ?_
  exact Yields.pure ⟨hname, hinterval, expression?_wellFormed _ _, heffects⟩

theorem entityField_yields (entity : Text) (doc : Value) :
    Yields (fun f => f.name ≠ []) (entityField entity doc) := by
  unfold entityField
  refine Yields.bind fun _ => ?_
  refine Yields.bind_of (nonEmptyText_yields _ _ _) fun name hname => ?_
  exact Yields.bind fun _ => Yields.bind fun _ => Yields.pure hname

theorem dataEntity_yields (doc : Value) : Yields DataEntity.WellFormed (dataEntity doc) := by
  unfold dataEntity
  refine Yields.bind fun _ => ?_
  refine Yields.bind_of (nonEmptyText_yields _ _ _) fun name hname => ?_
  refine Yields.bind fun _ => Yields.bind fun docs => ?_
  refine Yields.bind_of (Yields.mapM (entityField_yields name) docs) fun fields hfields => ?_
  exact Yields.pure ⟨hname, hfields⟩

theorem configField_yields (subject : Text) (doc : Value) :
    Yields ConfigField.WellFormed (configField subject doc) := by
  unfold configField
  refine Yields.bind fun _ => ?_
  refine Yields.bind_of (nonEmptyText_yields _ _ _) fun name hname => ?_
  exact Yields.bind fun _ => Yields.bind fun _ => Yields.bind fun _ => Yields.pure hname

theorem configFields_yields (schema : Value) (key : Text) :
    Yields (fun fs => ∀ f ∈ fs, f.WellFormed) (configFields schema key) := by
  unfold configFields
  exact Yields.bind fun docs => Yields.mapM (configField_yields _) docs

theorem body_yields (doc : Value) {name : Text} (hname : name ≠ []) :
    Yields Definition.WellFormed (body doc name) := by
  unfold body
  dsimp only
  refine Yields.bind fun category => Yields.bind fun description => ?_
  refine Yields.bind fun suggestedFor => Yields.bind fun entityDocs => ?_
  refine Yields.bind_of (Yields.mapM dataEntity_yields entityDocs) fun entities hentities => ?_
  refine Yields.bind fun _ => Yields.bind fun stateDocs => ?_
  refine Yields.bind_of (Yields.mapM state_yields stateDocs) fun states hstates => ?_
  refine Yields.bind_of (require_yields _ _) fun _ hnonempty => ?_
  refine Yields.bind fun eventDocs => ?_
  refine Yields.bind_of (Yields.mapM event_yields eventDocs) fun events hevents => ?_
  refine Yields.bind fun transitionDocs => ?_
  refine Yields.bind_of (Yields.numbered transition_yields transitionDocs)
    fun transitions htransitions => ?_
  refine Yields.bind fun named => ?_
  refine Yields.bind_of (declaredInitial_declared named states) fun initial hinitial => ?_
  refine Yields.bind fun tickDocs => ?_
  refine Yields.bind_of (Yields.numbered tick_yields tickDocs) fun ticks hticks => ?_
  refine Yields.bind fun _ => ?_
  refine Yields.bind_of (configFields_yields _ _) fun required hrequired => ?_
  refine Yields.bind_of (configFields_yields _ _) fun optional hoptional => ?_
  refine Yields.bind_of (effects_yields _ _ _) fun initialEffects heffects => Yields.pure ?_
  exact {
    name := hname
    dataEntities := hentities
    nonempty := by simpa using hnonempty
    states := hstates
    initial := hinitial
    events := hevents
    transitions := htransitions
    ticks := hticks
    requiredConfig := hrequired
    optionalConfig := hoptional
    initialEffects := heffects }

end Document

namespace Definition

/-- What a document gives is well-formed. -/
theorem wellFormed_of_ofDocument {doc : Value} {d : Definition} (h : ofDocument doc = .ok d) :
    d.WellFormed := by
  rcases ofDocument_cases doc with hnone | ⟨owner, fault, hfault⟩ | ⟨name, d', hname, hbody, hok⟩
  · cases hnone.symm.trans h
  · cases hfault.symm.trans h
  · cases hok.symm.trans h
    have hname := Document.nonEmptyText_yields doc "behavior" "name" name hname
    exact Document.body_yields doc hname d hbody

/-- A document that gives no definition is refused. -/
theorem refuses_of_ofDocument {doc : Value} {e : Error} (h : ofDocument doc = .error e) :
    e.Refuses := by
  rcases ofDocument_cases doc with hnone | ⟨owner, fault, hfault⟩ | ⟨name, d, -, -, hok⟩
  · cases hnone.symm.trans h
    trivial
  · cases hfault.symm.trans h
    trivial
  · cases hok.symm.trans h

end Definition
end EntityMachines
