import EntityMachines.Proofs.Evaluation.Reads
import EntityMachines.Proofs.Expr.Nodes

/-!
Effects that change a field of the entity. They write into the entity, but take the present value
from the binding. Main statements: in a context they start from what the entity holds, for all fields
and arguments, exactly if no local name hides the entity there; and a binding and its parts stand for
one another, whatever dots there are, so that a `set` writes at the path at which its target reads.
-/
namespace EntityMachines

namespace Effect

/-- The operations of `set` that start from the present value. -/
def combining : List Text := ["increment", "decrement", "multiply", "append", "remove"]

/-- A binding of a field of the entity. -/
def target (p : Text) : Text := "@entity." ++ p

theorem ofText?_target (p : Text) :
    Binding.ofText? (target p) = some ⟨"entity", Path.ofText p, target p⟩ := by
  have hsome : Text.ofString "entity" ≠ [] := by decide
  have hroot : (46 : Byte) ∉ Text.ofString "entity" := by decide
  have hwritten := congrArg (Text.ofString "@entity." ++ ·) (Path.toText_ofText p)
  rw [Binding.ofText?_eq_some_iff]
  refine ⟨rfl, ?_, hsome, List.forall_mem_cons.mpr ⟨hroot, fun key => ?_⟩⟩
  · rw [Path.toText, Text.join_cons _ _ (Path.ofText_ne_nil p)]
    exact hwritten.symm
  · exact Text.not_mem_of_mem_splitByte

/-- A call that changes a field by its value is ready to do so: its arguments have come to an
operation and an operand, and the world is as they have left it. -/
inductive Ready (ev : Evaluator) (ctx : Context) (p : Text) (w : World) :
    Value → Text → Value → World → Prop
  | set {x o operand named : Value} {between before : World}
      (operand_given : ev.evaluate x ctx w = .ok operand between)
      (operation_given : ev.evaluate o ctx between = .ok named before)
      (combines : named.display ∈ combining) :
      Ready ev ctx p w (Expr.call "set" [.string (target p), x, o]) named.display operand before
  | increment {x operand : Value} {before : World}
      (operand_given : ev.evaluate x ctx w = .ok operand before) :
      Ready ev ctx p w (Expr.call "increment" [.string (target p), x]) "increment" operand before
  | decrement {x operand : Value} {before : World}
      (operand_given : ev.evaluate x ctx w = .ok operand before) :
      Ready ev ctx p w (Expr.call "decrement" [.string (target p), x]) "decrement" operand before

/-- The world behind one change of a field, of which the observer has been told. -/
def amended (m : Mutator) (p : Text) (new : Value) (w : World) : World :=
  { w with
    stores := w.stores.modify m.store fun data => data.assocIn (Path.ofText p) new
    history := .write m.store [(p, new)] :: w.history
    calls := (m.observer.map fun label => ⟨label, .set [(p, new)]⟩).toList ++ w.calls }

/-- One change has been made, and nothing comes of it; or the observer has failed that was told. -/
inductive Amends (m : Mutator) (p : Text) (new : Value) (before : World) :
    EStateM.Result Fault World Value → Prop
  | done : Amends m p new before (.ok .undefined (amended m p new before))
  | refused {label : Label} {failure : Error} (observed : m.observer = some label) :
      Amends m p new before (.error (.raised failure) (amended m p new before))

variable {ctx : Context} {m : Mutator} {p operation : Text} {e operand : Value} {n : Nat}
  {w before : World}

theorem bind_congr_left {α β : Type} {x y : Eval α} {w w' : World} (f : α → Eval β)
    (h : x w = y w') : (x >>= f) w = (y >>= f) w' := by
  simp [bind, EStateM.bind, h]

theorem mutate_amends (m : Mutator) (p : Text) (new : Value) (before : World) :
    Amends m p new before ((mutate m [(p, new)] >>= fun _ => pure Value.undefined) before) := by
  obtain ⟨store, observer⟩ := m
  cases observer with
  | none => exact .done
  | some label =>
    let told := amended ⟨store, some label⟩ p new before
    have hmutate : mutate ⟨store, some label⟩ [(p, new)] before
        = (Eval.ofExcept (told.respond told.calls) >>= fun _ => pure ()) told := rfl
    rw [bind_congr_left _ hmutate]
    cases told.respond told.calls with
    | ok reply => exact .done
    | error failure => exact .refused rfl

theorem Amends.after {new : Value} {x : Eval Value} (h : Amends m p new before (x w)) :
    x.after w = amended m p new before := by
  unfold Eval.after
  generalize x w = result at h ⊢
  cases h <;> rfl

/-- The reading of a binding is its value, and changes nothing. -/
theorem currentValue_target (ctx : Context) (p : Text) (w : World) :
    currentValue ctx (.string (target p)) w = .ok (ctx.reading w (target p)) w := by
  show ctx.resolveText (target p) w = _
  rw [Context.resolveText_eq]

/-- What a `set` writes: the operand, or the present value combined with it. -/
def newValue (operation : Text) (current operand : Value) : Value :=
  if operation.isEmpty then operand else combine operation current operand

theorem mem_combining_ne_nil (h : operation ∈ combining) : operation.isEmpty = false := by
  unfold combining at h
  simp only [List.mem_cons, List.not_mem_nil, or_false] at h
  rcases h with rfl | rfl | rfl | rfl | rfl <;> rfl

theorem newValue_of_combining (h : operation ∈ combining) (current operand : Value) :
    newValue operation current operand = combine operation current operand := by
  unfold newValue
  rw [mem_combining_ne_nil h, if_neg Bool.false_ne_true]

section evaluation

variable {x : Value} {ev : Evaluator}

theorem operation_of_ok {o named : Value} {between : World} (rest : List Value)
    (ho : ev.evaluate o ctx between = .ok named before) :
    Effect.operation ev ctx (.string (target p) :: x :: o :: rest) between
      = .ok named.display before := by
  show (Value.display <$> ev.evaluate o ctx) between = _
  rw [map_eq_pure_bind]
  exact Eval.bind_of_ok ho

theorem apply_set {rest : List Value} {between : World} (hmutate : ctx.handlers.mutate = some m)
    (hp : p ≠ []) (hx : ev.evaluate x ctx w = .ok operand between)
    (hop : Effect.operation ev ctx (.string (target p) :: x :: rest) between
      = .ok operation before) :
    apply .set ev ctx (.string (target p) :: x :: rest) w
      = (do
        mutate m [(p, newValue operation (ctx.reading before (target p)) operand)]
        return .undefined : Eval Value) before := by
  have hset : apply .set ev ctx (.string (target p) :: x :: rest) w = (do
      let operand ← ev.evaluate x ctx
      let operation ← Effect.operation ev ctx (.string (target p) :: x :: rest)
      if p.isEmpty then unsupported .set (.string (target p))
      else if operation.isEmpty then mutate m [(p, operand)]
      else
        let current ← currentValue ctx (.string (target p))
        mutate m [(p, combine operation current operand)]
      return .undefined : Eval Value) w := by
    unfold apply
    rw [hmutate]
    rfl
  rw [hset, Eval.bind_of_ok hx, Eval.bind_of_ok hop, if_neg (by simpa using hp)]
  unfold newValue
  split
  next => rfl
  next => exact Eval.bind_of_ok (currentValue_target ctx p before)

theorem apply_adjust (op : EffectOp) (change : Float → Float → Float)
    (hmutate : ctx.handlers.mutate = some m) (hp : p ≠ [])
    (hx : ev.evaluate x ctx w = .ok operand before) :
    adjust op change ev ctx [.string (target p), x] w
      = mutate m [(p, .number (change (ctx.reading before (target p)).toNumber operand.toNumber))]
        before := by
  have hamount : amount ev ctx [.string (target p), x] w = .ok operand.toNumber before := by
    show (Value.toNumber <$> ev.evaluate x ctx) w = _
    rw [map_eq_pure_bind]
    exact Eval.bind_of_ok hx
  have hadjust : adjust op change ev ctx [.string (target p), x] w = (do
      let amount ← amount ev ctx [.string (target p), x]
      if p.isEmpty then unsupported op (.string (target p))
      else
        let current := (← currentValue ctx (.string (target p))).toNumber
        mutate m [(p, .number (change current amount))] : Eval Unit) w := by
    unfold adjust
    rw [hmutate]
    rfl
  rw [hadjust, Eval.bind_of_ok hamount, if_neg (by simpa using hp),
    Eval.bind_of_ok (currentValue_target ctx p before)]

end evaluation

/-- What the effects do: they read the binding and write the field. -/
theorem evaluate_ready (hmutate : ctx.handlers.mutate = some m) (hp : p ≠ [])
    (h : Ready (Evaluator.withFuel Library.standard n) ctx p w e operation operand before) :
    (Evaluator.withFuel Library.standard (n + 1)).evaluate e ctx w
      = (do
        mutate m [(p, combine operation (ctx.reading before (target p)) operand)]
        return .undefined : Eval Value) before := by
  cases h with
  | set hx ho hnamed =>
    rw [show ("set" : Text) = (CoreOp.effect .set).name from rfl, Evaluator.evaluate_core,
      ← newValue_of_combining hnamed]
    exact apply_set hmutate hp hx (operation_of_ok [] ho)
  | increment hx =>
    rw [show ("increment" : Text) = (CoreOp.effect .increment).name from rfl,
      Evaluator.evaluate_core]
    have hadjust := apply_adjust .increment (· + ·) hmutate hp hx
    exact bind_congr_left _ hadjust
  | decrement hx =>
    rw [show ("decrement" : Text) = (CoreOp.effect .decrement).name from rfl,
      Evaluator.evaluate_core]
    have hadjust := apply_adjust .decrement (· - ·) hmutate hp hx
    exact bind_congr_left _ hadjust

theorem ready_amends (hmutate : ctx.handlers.mutate = some m) (hp : p ≠ [])
    (h : Ready (Evaluator.withFuel Library.standard n) ctx p w e operation operand before) :
    Amends m p (combine operation (ctx.reading before (target p)) operand) before
      ((Evaluator.withFuel Library.standard (n + 1)).evaluate e ctx w) := by
  rw [evaluate_ready hmutate hp h]
  exact mutate_amends m p _ before

/-- Without a local name in the way, a binding of a field reads the entity. -/
theorem reading_target {store : StoreRef} {data : Value} (hstore : ctx.store = some store)
    (hdata : w.stores[store]? = some data) (hlocal : ctx.locals.find? "entity" = none) (p : Text) :
    ctx.reading w (target p) = data.getIn (Path.ofText p) := by
  rw [Context.reading_eq_readIn ⟨store, hstore, hdata⟩]
  exact Context.readIn_entity (ofText?_target p) rfl hlocal

theorem reading_hidden {v : Value} (hlocal : ctx.locals.find? "entity" = some v) (p : Text)
    (w : World) : ctx.reading w (target p) = v.getIn (Path.ofText p) := by
  unfold Context.reading Context.readAt
  rw [ofText?_target]
  dsimp only
  rw [hlocal]

/-- A binding of the changed field reads the new value, or what a local name that hides the entity
has at the same path. -/
theorem resolveText_amended {new data : Value} (hdata : before.stores[m.store]? = some data)
    {reader : Context} (hstore : reader.store = some m.store) :
    reader.resolveText (target p) (amended m p new before)
      = .ok (match reader.locals.find? "entity" with
          | none => new
          | some v => v.getIn (Path.ofText p)) (amended m p new before) := by
  have hlater : (amended m p new before).stores[m.store]?
      = some (data.assocIn (Path.ofText p) new) := by
    simp [amended, Array.getElem?_modify, hdata]
  rw [Context.resolveText_eq]
  cases hlocal : reader.locals.find? "entity" with
  | none => rw [reading_target hstore hlater hlocal, Value.getIn_assocIn_self]
  | some v => rw [reading_hidden hlocal]

/-- What has been written is read wherever no local name is in the way. -/
theorem evaluate_amended {new data : Value} (hdata : before.stores[m.store]? = some data)
    {reader : Context} (hstore : reader.store = some m.store)
    (hlocal : reader.locals.find? "entity" = none) :
    (Evaluator.withFuel Library.standard (n + 1)).evaluate (.string (target p)) reader
        (amended m p new before) = .ok new (amended m p new before) := by
  have hread : reader.resolveText (target p) (amended m p new before) = _ :=
    resolveText_amended hdata hstore
  rw [hlocal] at hread
  exact hread

/-- All calls that change a field by its value start from what the entity holds there when their
arguments have been evaluated, and change the field once; what they write is read afterwards. -/
def ReadsItsCell (ctx : Context) (m : Mutator) : Prop :=
  ∀ (n : Nat) (p : Text) (w before : World) (e operand data : Value) (operation : Text),
    p ≠ [] → before.stores[m.store]? = some data →
    Ready (Evaluator.withFuel Library.standard n) ctx p w e operation operand before →
      let new := combine operation (data.getIn (Path.ofText p)) operand
      Amends m p new before ((Evaluator.withFuel Library.standard (n + 1)).evaluate e ctx w) ∧
        ∀ (k : Nat) (reader : Context), reader.store = some m.store →
          reader.locals.find? "entity" = none →
            (Evaluator.withFuel Library.standard (k + 1)).evaluate (.string (target p)) reader
              (amended m p new before) = .ok new (amended m p new before)

/-- Appending to a longer array gives a longer array. -/
theorem append_ne (v operand : Value) {items : List Value} (h : v.items.length < items.length) :
    combine "append" (.array items) operand ≠ combine "append" v operand := by
  intro heq
  have hlength := congrArg (fun u => u.items.length) heq
  cases v with
  | array others =>
    have hsame : (items ++ [operand]).length = (others ++ [operand]).length := hlength
    rw [List.length_append, List.length_append] at hsame
    exact absurd (Nat.add_right_cancel hsame) (Nat.ne_of_gt h)
  | _ =>
    have hone : (items ++ [operand]).length = 1 := hlength
    rw [List.length_append] at hone
    simp at hone
    rw [hone] at h
    exact Nat.not_lt_zero _ h

theorem readsItsCell_iff (hstore : ctx.store = some m.store)
    (hmutate : ctx.handlers.mutate = some m) :
    ReadsItsCell ctx m ↔ ctx.locals.find? "entity" = none := by
  constructor
  · intro hreads
    cases hlocal : ctx.locals.find? "entity" with
    | none => rfl
    | some v =>
      let hidden := (v.getIn (Path.ofText "a")).items
      let longer : List Value := .null :: hidden
      let data : Value := .map [("a", .array longer)]
      let w : World := { stores := Array.replicate (m.store + 1) data }
      have hdata : w.stores[m.store]? = some data := by simp [w]
      have hready : Ready (Evaluator.withFuel Library.standard 1) ctx "a" w
          (Expr.call "set" [.string (target "a"), .null, .string "append"])
          (Value.display (.string "append")) .null w :=
        .set rfl rfl (by decide)
      obtain ⟨hamends, -⟩ := hreads 1 "a" w w _ .null data _ (by decide) hdata hready
      have hactual := ready_amends hmutate (by decide) hready
      have hwritten := congrArg World.history (hamends.after.symm.trans hactual.after)
      rw [reading_hidden hlocal] at hwritten
      simp only [amended, List.cons.injEq, Incident.write.injEq, Prod.mk.injEq, and_true, true_and]
        at hwritten
      exact absurd hwritten (append_ne _ _ (Nat.lt_succ_self _))
  · intro hlocal n p w before e operand data operation hp hdata hready
    have hamends := ready_amends hmutate hp hready
    rw [reading_target hstore hdata hlocal] at hamends
    exact ⟨hamends, fun k reader hreader hfree => evaluate_amended hdata hreader hfree⟩

/-- A context over the first store, which writes into it. -/
def writing : Context := { store := some 0, handlers := { mutate := some ⟨0, none⟩ } }

theorem readsItsCell_writing :
    ReadsItsCell (writing.child [("item", .null)]) ⟨0, none⟩ :=
  (readsItsCell_iff rfl rfl).mpr rfl

/-- An entity with one tag. -/
def tagged : World := { stores := #[.map [("tags", .array [.string "a"])]] }

/-- The context within a `let` that binds the name of the entity. -/
def shadowed : Context := writing.child [("entity", .map [("tags", .array [.string "b"])])]

def addTag : Value := Expr.call "set" [.string (target "tags"), .string "c", .string "append"]

theorem addTag_ready (n : Nat) :
    Ready (Evaluator.withFuel Library.standard (n + 1)) shadowed "tags" tagged addTag "append"
      (.string "c") tagged := by
  have happend : (Evaluator.withFuel Library.standard (n + 1)).evaluate (.string "append") shadowed
      tagged = .ok (.string "append") tagged := rfl
  exact .set rfl happend (by decide)

theorem addTag_hidden (n : Nat) :
    (Evaluator.withFuel Library.standard (n + 2)).evaluate addTag shadowed tagged
      = .ok .undefined
        (amended ⟨0, none⟩ "tags" (.array [.string "b", .string "c"]) tagged) := by
  have hnew : combine "append" (shadowed.reading tagged (target "tags")) (.string "c")
      = .array [.string "b", .string "c"] := by
    rw [reading_hidden (v := .map [("tags", .array [.string "b"])]) rfl]
    rfl
  rw [evaluate_ready (m := ⟨0, none⟩) rfl (by decide) (addTag_ready n), hnew]
  rfl

/-- What is appended to is the list of the local entity, not the one that is written. -/
theorem hidden_tags_misread :
    (Evaluator.withFuel Library.standard 3).evaluate
        (Expr.call "let" [
          .array [.array [.string "entity", .map [("tags", .array [.string "b"])]]], addTag])
        writing tagged
      = .ok .undefined
        (amended ⟨0, none⟩ "tags" (.array [.string "b", .string "c"]) tagged) ∧
    ¬ReadsItsCell shadowed ⟨0, none⟩ := by
  refine ⟨?_, fun hreads => ?_⟩
  · rw [Evaluator.evaluate_bindName]
    have hbound : (Evaluator.withFuel Library.standard 2).evaluate
        (.map [("tags", .array [.string "b"])]) writing tagged
          = .ok (.map [("tags", .array [.string "b"])]) tagged := rfl
    exact (Eval.bind_of_ok hbound).trans (addTag_hidden 0)
  · obtain ⟨hamends, -⟩ := hreads 1 "tags" tagged tagged _ (.string "c")
      (.map [("tags", .array [.string "a"])]) _ (by decide) rfl (addTag_ready 0)
    have hclaimed : combine "append"
        ((Value.map [("tags", .array [.string "a"])]).getIn (Path.ofText "tags")) (.string "c")
          = .array [.string "a", .string "c"] := rfl
    have hwritten := congrArg World.history (hamends.after.symm.trans
      (Eval.after_ok (addTag_hidden 0)))
    rw [hclaimed] at hwritten
    simp only [amended, List.cons.injEq, Incident.write.injEq, Prod.mk.injEq, Value.array.injEq,
      Value.string.injEq, and_true, true_and] at hwritten
    exact absurd hwritten (by decide)

/-! The target of an effect and the field that it names. -/

theorem fieldPath_target (p : Text) : fieldPath (.string (target p)) = p := by
  have hstart : Text.startsWith (target p) "@entity." = true :=
    Text.startsWith_iff.mpr (List.prefix_append _ p)
  unfold fieldPath
  dsimp only
  rw [if_pos hstart]
  rfl

/-- A text that names a field is a binding of it. -/
theorem eq_target_of_fieldPath {t : Text} (h : fieldPath (.string t) ≠ []) :
    t = target (fieldPath (.string t)) := by
  unfold fieldPath at h ⊢
  dsimp only at h ⊢
  split
  next hstart =>
    obtain ⟨field, rfl⟩ := Text.startsWith_iff.mp hstart
    rfl
  next hstart =>
    rw [if_neg hstart] at h
    exact absurd rfl h

/-- Each `set` with a text as its target makes one change, of the field that the text names, and the
text is then resolved to the new value, or to what a local name that hides the entity has at the same
path. -/
def WritesWhereRead (t : Text) : Prop :=
  ∀ (n : Nat) (ctx : Context) (m : Mutator) (x operand : Value) (rest : List Value)
    (operation : Text) (w between before : World),
    ctx.handlers.mutate = some m →
    (Evaluator.withFuel Library.standard n).evaluate x ctx w = .ok operand between →
    Effect.operation (Evaluator.withFuel Library.standard n) ctx (.string t :: x :: rest) between
      = .ok operation before →
    let field := fieldPath (.string t)
    let new := newValue operation (ctx.reading before t) operand
    Amends m field new before ((Evaluator.withFuel Library.standard (n + 1)).evaluate
      (Expr.call "set" (.string t :: x :: rest)) ctx w) ∧
    ∀ (reader : Context) (data : Value), before.stores[m.store]? = some data →
      reader.store = some m.store →
      reader.resolveText t (amended m field new before)
        = .ok (match reader.locals.find? "entity" with
            | none => new
            | some v => v.getIn (Path.ofText field)) (amended m field new before)

theorem writesWhereRead_target (hp : p ≠ []) : WritesWhereRead (target p) := by
  intro n ctx m x operand rest operation w between before hmutate hx hop
  simp only [fieldPath_target]
  constructor
  · have hcall := Evaluator.evaluate_core (n := n) (.effect .set)
      (.string (target p) :: x :: rest) ctx
    have hset := apply_set hmutate hp hx hop
    rw [show ("set" : Text) = (CoreOp.effect .set).name from rfl, hcall]
    show Amends _ _ _ _ (apply .set _ ctx _ w)
    rw [hset]
    exact mutate_amends m p _ before
  · intro reader data hdata hstore
    exact resolveText_amended hdata hstore

theorem text_and_parts_interchange (t : Text) :
    Path.toText (Path.ofText t) = t ∧ (∀ key ∈ Path.ofText t, (46 : Byte) ∉ key) ∧
    (∀ path : Path, path ≠ [] → (∀ key ∈ path, (46 : Byte) ∉ key) →
      Path.ofText (Path.toText path) = path) ∧
    ((Binding.ofText? t).isSome = true ↔ 2 ≤ t.length ∧ t[0]? = some 64 ∧ t[1]? ≠ some 46) ∧
    (∀ b, Binding.ofText? t = some b →
      b.written = t ∧ 64 :: Path.toText (b.root :: b.path) = t) ∧
    (fieldPath (.string t) ≠ [] →
      Binding.ofText? t = some ⟨"entity", Path.ofText (fieldPath (.string t)), t⟩ ∧
      WritesWhereRead t) := by
  refine ⟨Path.toText_ofText t, fun key => Text.not_mem_of_mem_splitByte,
    fun path => Path.ofText_toText, Binding.isSome_ofText?_iff, ?_, ?_⟩
  · intro b hb
    obtain ⟨hwritten, ht, -, -⟩ := Binding.ofText?_eq_some_iff.mp hb
    exact ⟨hwritten, ht.symm⟩
  · intro hfield
    have ht := eq_target_of_fieldPath hfield
    generalize fieldPath (.string t) = p at hfield ht
    subst ht
    exact ⟨ofText?_target p, writesWhereRead_target hfield⟩

/-- A field whose path begins and ends with an empty key. -/
theorem text_and_parts_interchange_dots :
    fieldPath (.string "@entity..a.") = ".a." ∧
    Binding.ofText? "@entity..a." = some ⟨"entity", ["", "a", ""], "@entity..a."⟩ ∧
    Path.ofText (Path.toText ["", "a", ""]) = ["", "a", ""] ∧
    Amends ⟨0, none⟩ ".a." (.bool true) tagged
      ((Evaluator.withFuel Library.standard 2).evaluate
        (Expr.call "set" [.string "@entity..a.", .bool true]) writing tagged) ∧
    writing.resolveText "@entity..a." (amended ⟨0, none⟩ ".a." (.bool true) tagged)
      = .ok (.bool true) (amended ⟨0, none⟩ ".a." (.bool true) tagged) := by
  have hfield : fieldPath (.string "@entity..a.") = ".a." := by decide
  obtain ⟨-, -, hjoin, -, -, htarget⟩ := text_and_parts_interchange "@entity..a."
  obtain ⟨hbinding, hwrites⟩ := htarget (by rw [hfield]; decide)
  rw [hfield] at hbinding
  have hset := hwrites 1 writing ⟨0, none⟩ (.bool true) (.bool true) [] [] tagged tagged tagged
    rfl rfl rfl
  simp only [hfield] at hset
  obtain ⟨hamends, hread⟩ := hset
  exact ⟨hfield, hbinding, hjoin ["", "a", ""] (List.cons_ne_nil _ _) (by decide), hamends,
    hread writing _ rfl rfl⟩

end Effect
end EntityMachines
