import EntityMachines.Proofs.Document.WellFormed

/-!
Definitions can be written as documents, and reading a written one gives the definition back if it
is well-formed. Main statement: documents give the well-formed definitions and no others, and a
document that gives none is refused for a fault of its own.
-/
namespace EntityMachines

namespace Value

/-- The array of some texts. -/
def ofTexts (texts : List Text) : Value := array (texts.map string)

end Value

def StateDecl.toDocument (s : StateDecl) : Value :=
  .map [("description", .string s.description), ("isFinal", .bool s.isFinal),
    ("isInitial", .bool s.isInitial), ("name", .string s.name)]

/-- The event without a key can be given by its key alone and not by a map. -/
def EventDecl.toDocument (e : EventDecl) : Value :=
  if e.key.isEmpty then .string e.key
  else .map [("description", .string e.description), ("key", .string e.key),
    ("name", .string e.name), ("payload", e.payload)]

def Sources.toDocument : Sources → Value
  | any => .undefined
  | listed states => .ofTexts states

def Transition.toDocument (t : Transition) : Value :=
  .map [("effects", .array t.effects), ("event", .string t.event),
    ("from", t.sources.toDocument), ("guard", t.guard.getD .undefined),
    ("to", .string (t.target.getD []))]

def Interval.toDocument : Interval → Value
  | frame => .undefined
  | fixed ms => .number ms
  | config key => .string ("@config." ++ key)

def Tick.toDocument (t : Tick) : Value :=
  .map [("appliesTo", .ofTexts t.appliesTo), ("description", .string t.description),
    ("effects", .array t.effects), ("guard", t.guard.getD .undefined),
    ("interval", t.interval.toDocument), ("name", .string t.name),
    ("priority", .number t.priority)]

def EntityField.toDocument (f : EntityField) : Value :=
  .map [("default", f.default), ("description", .string f.description), ("name", .string f.name),
    ("required", .bool f.required), ("type", .string f.type)]

def DataEntity.toDocument (d : DataEntity) : Value :=
  .map [("description", .string d.description),
    ("fields", .array (d.fields.map EntityField.toDocument)), ("name", .string d.name),
    ("runtime", .bool d.runtime), ("singleton", .bool d.singleton)]

def ConfigField.toDocument (f : ConfigField) : Value :=
  .map [("default", f.default), ("description", .string f.description),
    ("enum", .array f.allowed), ("name", .string f.name), ("type", .string f.type)]

namespace Definition

def machineDocument (d : Definition) : Value :=
  .map [("events", .array (d.events.map EventDecl.toDocument)), ("initial", .string d.initial),
    ("states", .array (d.states.map StateDecl.toDocument)),
    ("transitions", .array (d.transitions.map Transition.toDocument))]

def schemaDocument (d : Definition) : Value :=
  .map [("optional", .array (d.optionalConfig.map ConfigField.toDocument)),
    ("required", .array (d.requiredConfig.map ConfigField.toDocument))]

def toDocument (d : Definition) : Value :=
  .map [("category", .string d.category), ("configSchema", d.schemaDocument),
    ("dataEntities", .array (d.dataEntities.map DataEntity.toDocument)),
    ("description", .string d.description), ("initialEffects", .array d.initialEffects),
    ("name", .string d.name), ("stateMachine", d.machineDocument),
    ("suggestedFor", .ofTexts d.suggestedFor),
    ("ticks", .array (d.ticks.map Tick.toDocument))]

end Definition

/-- A key without dots is the whole path of the binding to it. -/
theorem Binding.ofText?_config {key : Text} (h : (46 : Byte) ∉ key) :
    ofText? ("@config." ++ key) = some ⟨"config", [key], "@config." ++ key⟩ := by
  have hsome : Text.ofString "config" ≠ [] := by decide
  have hroot : (46 : Byte) ∉ Text.ofString "config" := by decide
  rw [ofText?_eq_some_iff]
  exact ⟨rfl, rfl, hsome, List.forall_mem_cons.mpr ⟨hroot, List.forall_mem_singleton.mpr h⟩⟩

namespace Document

section Reading

variable {α β : Type}

theorem bind_of_ok {x : Reading α} {f : α → Reading β} {a : α} {r : Reading β}
    (hx : x = .ok a) (hf : f a = r) : (x >>= f) = r := by
  rw [hx]
  exact hf

theorem mapM_map {read : β → Reading α} {write : α → β} {vs : List α}
    (h : ∀ v ∈ vs, read (write v) = .ok v) : (vs.map write).mapM read = .ok vs := by
  induction vs with
  | nil => rfl
  | cons v vs ih =>
    rw [List.map_cons, List.mapM_cons]
    refine bind_of_ok (h v (List.mem_cons_self ..)) ?_
    exact bind_of_ok (ih fun u hu => h u (List.mem_cons_of_mem v hu)) rfl

theorem mapM_self {read : α → Reading α} {vs : List α} (h : ∀ v ∈ vs, read v = .ok v) :
    vs.mapM read = .ok vs := by
  have hmap : (vs.map id).mapM read = .ok vs := mapM_map h
  rwa [List.map_id] at hmap

theorem numbered_map {read : Nat → Value → Reading α} {write : α → Value} {vs : List α}
    (h : ∀ v ∈ vs, ∀ i, read i (write v) = .ok v) : numbered read (vs.map write) = .ok vs := by
  -- The places count from any number on, for the induction.
  have hfrom (k : Nat) :
      ((vs.map write).zipIdx k).mapM (fun entry => read entry.2 entry.1) = .ok vs := by
    induction vs generalizing k with
    | nil => rfl
    | cons v vs ih =>
      rw [List.map_cons, List.zipIdx_cons, List.mapM_cons]
      refine bind_of_ok (h v (List.mem_cons_self ..) k) ?_
      exact bind_of_ok (ih (fun u hu => h u (List.mem_cons_of_mem v hu)) (k + 1)) rfl
  exact hfrom 0

variable {doc : Value} {part key : Text}

theorem text_of_get {s : Text} (h : doc.get key = .string s) : text doc part key = .ok s := by
  unfold text
  rw [h]
  rfl

theorem nonEmptyText_of_get {s : Text} (h : doc.get key = .string s) (hs : s ≠ []) :
    nonEmptyText doc part key = .ok s := by
  have hempty : ¬s.isEmpty = true := by simpa using hs
  unfold nonEmptyText
  exact bind_of_ok (text_of_get h) (if_neg hempty)

theorem list_of_get {items : List Value} (h : doc.get key = .array items) :
    list doc part key = .ok items := by
  unfold list
  rw [h]
  rfl

theorem texts_of_get {ts : List Text} (h : doc.get key = .ofTexts ts) :
    texts doc part key = .ok ts := by
  unfold texts
  exact bind_of_ok (list_of_get h) (mapM_map fun t _ => rfl)

theorem effects_of_get {es : List Value} (h : doc.get key = .array es)
    (hes : Effects.WellFormed es) : effects doc part key = .ok es := by
  unfold effects
  refine bind_of_ok (list_of_get h) ?_
  refine mapM_self fun e he => ?_
  obtain ⟨op, args, rfl⟩ := hes e he
  rfl

theorem expression?_of_get {guard : Option Value} (h : doc.get key = guard.getD .undefined)
    (hguard : Guard.WellFormed guard) : expression? doc key = guard := by
  unfold expression?
  rw [h]
  cases guard with
  | none => rfl
  | some g => simp [hguard g rfl]

theorem flag_of_get {b : Bool} (h : doc.get key = .bool b) : flag doc key = b := by
  unfold flag
  rw [h]
  rfl

theorem require_of {holds : Bool} (h : holds = true) (f : DefinitionFault) :
    require holds f = .ok () := if_pos h

end Reading

theorem state_toDocument {s : StateDecl} (h : s.WellFormed) : state s.toDocument = .ok s := by
  unfold state
  refine bind_of_ok (nonEmptyText_of_get rfl h) ?_
  refine bind_of_ok (text_of_get rfl) ?_
  rw [flag_of_get rfl, flag_of_get rfl]
  rfl

theorem event_toDocument {e : EventDecl} (h : e.WellFormed) : event e.toDocument = .ok e := by
  rcases h with ⟨hkey, hname⟩ | rfl
  · have hdoc : ¬e.key.isEmpty = true := by simpa using hkey
    have hnamed : ¬e.name.isEmpty = true := by simpa using hname
    unfold EventDecl.toDocument
    rw [if_neg hdoc]
    unfold event
    refine bind_of_ok (nonEmptyText_of_get rfl hkey) ?_
    refine bind_of_ok (text_of_get rfl) (bind_of_ok (text_of_get rfl) ?_)
    dsimp only
    rw [if_neg hnamed]
    rfl
  · rfl

theorem sources_of_get {doc : Value} {s : Sources} (part : Text)
    (h : doc.get "from" = s.toDocument) (hs : s.listing ≠ [] ↔ s ≠ .any) :
    sources doc part = .ok s := by
  cases s with
  | any =>
    unfold sources
    rw [h]
    rfl
  | listed states =>
    have hstates : ¬states.isEmpty = true := by simpa [Sources.listing] using hs
    have htexts : texts doc part "from" = .ok states := texts_of_get h
    unfold sources
    rw [h]
    refine bind_of_ok htexts ?_
    rw [if_neg hstates]
    rfl

theorem transition_toDocument {t : Transition} (h : t.WellFormed) (index : Nat) :
    transition index t.toDocument = .ok t := by
  have htarget : (if (t.target.getD []).isEmpty then none else some (t.target.getD [])) =
      t.target := by
    cases ht : t.target with
    | none => rfl
    | some state => simp [h.target state ht]
  unfold transition
  refine bind_of_ok (require_of rfl _) ?_
  refine bind_of_ok (nonEmptyText_of_get rfl h.event) ?_
  refine bind_of_ok (sources_of_get _ rfl h.sources) ?_
  refine bind_of_ok (text_of_get rfl) ?_
  refine bind_of_ok (effects_of_get rfl h.effects) ?_
  have hguard : expression? t.toDocument "guard" = t.guard := expression?_of_get rfl h.guard
  dsimp only
  rw [htarget, hguard]
  rfl

theorem interval_of_get {doc : Value} {i : Interval} (part : Text)
    (h : doc.get "interval" = i.toDocument) (hi : i.WellFormed) :
    interval doc part = .ok i := by
  cases i with
  | frame =>
    unfold interval
    rw [h]
    rfl
  | fixed ms =>
    have hms : (decide (ms > 0.0) && ms.isFinite) = true := by simp [hi.1, hi.2]
    unfold interval
    rw [h]
    exact if_pos hms
  | config key =>
    have hframe : ¬(Text.ofString "@config." ++ key) = Text.ofString "frame" := by
      intro h
      cases congrArg List.head? h
    unfold interval
    rw [h]
    dsimp only [Interval.toDocument]
    rw [if_neg hframe, Binding.ofText?_config hi]
    rfl

theorem tick_toDocument {t : Tick} (h : t.WellFormed) (index : Nat) :
    tick index t.toDocument = .ok t := by
  have hpriority : priority t.toDocument ("tick " ++ Text.ofNat index) = .ok t.priority := rfl
  unfold tick
  refine bind_of_ok (require_of rfl _) ?_
  refine bind_of_ok (nonEmptyText_of_get rfl h.name) ?_
  refine bind_of_ok (text_of_get rfl) ?_
  refine bind_of_ok hpriority ?_
  refine bind_of_ok (interval_of_get _ rfl h.interval) ?_
  refine bind_of_ok (texts_of_get rfl) ?_
  refine bind_of_ok (effects_of_get rfl h.effects) ?_
  have hguard : expression? t.toDocument "guard" = t.guard := expression?_of_get rfl h.guard
  dsimp only
  rw [hguard]
  rfl

theorem entityField_toDocument {f : EntityField} (h : f.name ≠ []) (entity : Text) :
    entityField entity f.toDocument = .ok f := by
  unfold entityField
  refine bind_of_ok (require_of rfl _) ?_
  refine bind_of_ok (nonEmptyText_of_get rfl h) ?_
  refine bind_of_ok (text_of_get rfl) (bind_of_ok (text_of_get rfl) ?_)
  rw [flag_of_get rfl]
  rfl

theorem dataEntity_toDocument {d : DataEntity} (h : d.WellFormed) :
    dataEntity d.toDocument = .ok d := by
  unfold dataEntity
  refine bind_of_ok (require_of rfl _) ?_
  refine bind_of_ok (nonEmptyText_of_get rfl h.name) ?_
  refine bind_of_ok (text_of_get rfl) ?_
  refine bind_of_ok (list_of_get rfl) ?_
  refine bind_of_ok (mapM_map fun f hf => entityField_toDocument (h.fields f hf) _) ?_
  dsimp only
  rw [flag_of_get rfl, flag_of_get rfl]
  rfl

theorem configField_toDocument {f : ConfigField} (h : f.WellFormed) (subject : Text) :
    configField subject f.toDocument = .ok f := by
  unfold configField
  refine bind_of_ok (require_of rfl _) ?_
  refine bind_of_ok (nonEmptyText_of_get rfl h) ?_
  refine bind_of_ok (text_of_get rfl) (bind_of_ok (text_of_get rfl) ?_)
  exact bind_of_ok (list_of_get rfl) rfl

theorem configFields_of_get {schema : Value} {key : Text} {fs : List ConfigField}
    (h : schema.get key = .array (fs.map ConfigField.toDocument)) (hfs : ∀ f ∈ fs, f.WellFormed) :
    configFields schema key = .ok fs := by
  unfold configFields
  refine bind_of_ok (list_of_get h) ?_
  exact mapM_map fun f hf => configField_toDocument (hfs f hf) _

/-- A declared initial state that is named is the initial state. -/
theorem declaredInitial_of_declared {named : Text} {states : List StateDecl}
    (hstates : ∀ s ∈ states, s.WellFormed)
    (h : (states.map (·.name)).contains named = true) :
    declaredInitial named states = .ok named := by
  have hnamed : (!named.isEmpty) = true := by
    rw [List.contains_iff_mem, List.mem_map] at h
    obtain ⟨s, hs, rfl⟩ := h
    have hname : s.name ≠ [] := hstates s hs
    simpa using hname
  unfold declaredInitial initialState
  rw [if_pos hnamed]
  exact bind_of_ok (require_of h _) rfl

theorem body_toDocument {d : Definition} (h : d.WellFormed) :
    body d.toDocument d.name = .ok d := by
  have hnonempty : (!d.states.isEmpty) = true := by simpa using h.nonempty
  unfold body
  refine bind_of_ok (text_of_get rfl) (bind_of_ok (text_of_get rfl) ?_)
  refine bind_of_ok (texts_of_get rfl) ?_
  refine bind_of_ok (list_of_get rfl) ?_
  refine bind_of_ok (mapM_map fun e he => dataEntity_toDocument (h.dataEntities e he)) ?_
  refine bind_of_ok (require_of rfl _) ?_
  refine bind_of_ok (list_of_get rfl) ?_
  refine bind_of_ok (mapM_map fun s hs => state_toDocument (h.states s hs)) ?_
  refine bind_of_ok (require_of hnonempty _) ?_
  refine bind_of_ok (list_of_get rfl) ?_
  refine bind_of_ok (mapM_map fun e he => event_toDocument (h.events e he)) ?_
  refine bind_of_ok (list_of_get rfl) ?_
  refine bind_of_ok (numbered_map fun t ht => transition_toDocument (h.transitions t ht)) ?_
  refine bind_of_ok (text_of_get rfl) ?_
  refine bind_of_ok (declaredInitial_of_declared h.states h.initial) ?_
  refine bind_of_ok (list_of_get rfl) ?_
  refine bind_of_ok (numbered_map fun t ht => tick_toDocument (h.ticks t ht)) ?_
  refine bind_of_ok (require_of rfl _) ?_
  refine bind_of_ok (configFields_of_get rfl h.requiredConfig) ?_
  refine bind_of_ok (configFields_of_get rfl h.optionalConfig) ?_
  exact bind_of_ok (effects_of_get rfl h.initialEffects) rfl

end Document

namespace Definition

/-- A well-formed definition is given by the document that it is written as. -/
theorem ofDocument_toDocument {d : Definition} (h : d.WellFormed) :
    ofDocument d.toDocument = .ok d := by
  have hname : Document.nonEmptyText d.toDocument "behavior" "name" = .ok d.name :=
    Document.nonEmptyText_of_get rfl h.name
  unfold ofDocument
  rw [hname]
  exact congrArg (Except.mapError _) (Document.body_toDocument h)

/-- Documents give the well-formed definitions and no others, and every other document is
refused. -/
theorem documents_give_wellFormed :
    (∀ doc, (∃ d, ofDocument doc = .ok d ∧ d.WellFormed) ∨
      ∃ e, ofDocument doc = .error e ∧ e.Refuses) ∧
    ∀ d : Definition, d.WellFormed ↔ ∃ doc, ofDocument doc = .ok d := by
  constructor
  · intro doc
    cases h : ofDocument doc with
    | ok d => exact .inl ⟨d, rfl, wellFormed_of_ofDocument h⟩
    | error e => exact .inr ⟨e, rfl, refuses_of_ofDocument h⟩
  · intro d
    constructor
    · intro h
      exact ⟨d.toDocument, ofDocument_toDocument h⟩
    · rintro ⟨doc, h⟩
      exact wellFormed_of_ofDocument h

end Definition
end EntityMachines
