import EntityMachines.Catalogue
import EntityMachines.Proofs.Host.Moves
import EntityMachines.Proofs.Machine.Indicators
import EntityMachines.Proofs.Numeral.Whole

/-!
Undoing. A history keeps a number of entries and no more, and what is undone can be redone at once,
so that the history is as it was; meanwhile the two actions of the entry are asked for.
-/
namespace EntityMachines
namespace Catalogue
namespace Undo

open Double (toRat?)
open Evaluator (Reads)

/-- A way in which an entry is moved, from one stack to the other one. One of its actions is asked
for then. -/
structure Way where
  event : Text
  key : Text
  other : Text
  action : Text
  content : Text

/-- An entry is undone. -/
def back : Way := ⟨"UNDO", "undoStack", "redoStack", "reverseAction", "reverseData"⟩

/-- An entry is redone. -/
def forth : Way := ⟨"REDO", "redoStack", "undoStack", "action", "data"⟩

/-- What an entry records to be asked for. -/
def Way.told (way : Way) (entry : Value) : Occurrence :=
  ⟨(entry.getIn [way.action]).display, entry.getIn [way.content]⟩

/-- The actions of an entry are no events of a history. -/
def Foreign (entry : Value) : Prop :=
  undo.hasEvent (back.told entry).event = false ∧ undo.hasEvent (forth.told entry).event = false

/-- The entries of a history, those that can be undone and those that can be redone. The latest
ones come first. -/
structure Stacks where
  past : List Value
  future : List Value

namespace Stacks

def entries (t : Stacks) : List Value := t.past ++ t.future

/-- The stacks behind an event, if at most so many entries are to be kept. -/
def next (limit : Nat) (t : Stacks) (event : Text) (payload : Value) : Stacks :=
  if event = "PUSH" then ⟨(payload :: t.past).take limit, []⟩
  else if event = back.event then ⟨t.past.tail, t.past.head?.toList ++ t.future⟩
  else if event = forth.event then ⟨t.future.head?.toList ++ t.past, t.future.tail⟩
  else if event = "CLEAR" then ⟨[], []⟩
  else t

variable {t : Stacks} {limit : Nat}

/-- What is there behind an event was pushed by it, or was there before. -/
theorem entries_next (limit : Nat) (t : Stacks) (event : Text) (payload : Value) :
    (event = "PUSH" ∧ t.next limit event payload = ⟨(payload :: t.past).take limit, []⟩) ∨
      ∃ kept, kept.Sublist t.entries ∧ (t.next limit event payload).entries.Perm kept := by
  unfold next entries
  split
  next hevent => exact .inl ⟨hevent, rfl⟩
  next =>
    refine .inr ?_
    split
    · refine ⟨_, .refl _, ?_⟩
      cases t.past with
      | nil => exact .refl _
      | cons entry rest => exact List.perm_middle
    · split
      · refine ⟨_, .refl _, ?_⟩
        cases t.future with
        | nil => exact .refl _
        | cons entry rest => exact List.perm_middle.symm
      · split
        · exact ⟨_, List.nil_sublist _, .refl _⟩
        · exact ⟨_, .refl _, .refl _⟩

theorem length_next_le (h : t.entries.length ≤ limit) (event : Text) (payload : Value) :
    (t.next limit event payload).entries.length ≤ limit := by
  rcases entries_next limit t event payload with ⟨-, hpush⟩ | ⟨kept, hkept, hsame⟩
  · rw [hpush]
    unfold entries
    rw [List.append_nil]
    exact List.length_take_le _ _
  · rw [hsame.length_eq]
    exact hkept.length_le.trans h

theorem forall_next {P : Value → Prop} (h : ∀ entry ∈ t.entries, P entry) {event : Text}
    {payload : Value} (hpush : event = "PUSH" → P payload) :
    ∀ entry ∈ (t.next limit event payload).entries, P entry := by
  intro entry hentry
  rcases entries_next limit t event payload with ⟨hevent, hnext⟩ | ⟨kept, hkept, hsame⟩
  · rw [hnext] at hentry
    unfold entries at hentry
    rw [List.append_nil] at hentry
    rcases List.mem_cons.mp (List.mem_of_mem_take hentry) with rfl | hpast
    · exact hpush hevent
    · exact h entry (List.mem_append_left _ hpast)
  · exact h entry (hkept.subset (hsame.subset hentry))

end Stacks

/-- The stacks that data tell. -/
structure Tells (t : Stacks) (data : Value) : Prop where
  past : data.get "undoStack" = .array t.past
  future : data.get "redoStack" = .array t.future

/-- A machine that keeps a history of so many entries, in a program that does not fail. -/
structure Governs (limit : Nat) (actor : Actor) : Prop where
  definition : actor.machine.definition = undo
  config : ∃ config, actor.machine.singletons.find? "config" = some config ∧
    (config.get "maxHistory").IsWhole limit
  calm : actor.calm

/-- A field of the data, as it is named in expressions. -/
structure Names (text field : Text) : Prop where
  path : Effect.fieldPath (.string text) = field
  single : Path.ofText field = [field]
  nonempty : field ≠ []
  binding : Binding.ofText? text = some ⟨"entity", [field], text⟩

/-- The transition by which an entry is moved. -/
def Way.transition (way : Way) : Transition where
  event := way.event
  guard := some (Expr.call ">" [Expr.call "array/len" [.string ("@entity." ++ way.key)], 0])
  effects := [
    Expr.call "let" [
      .array [.array ["action", Expr.call "array/first" [.string ("@entity." ++ way.key)]]],
      Expr.call "do" [
        Expr.call "set" [.string ("@entity." ++ way.key),
          Expr.call "array/slice" [.string ("@entity." ++ way.key), 1]],
        Expr.call "set" [.string ("@entity." ++ way.other),
          Expr.call "array/prepend" [.string ("@entity." ++ way.other), "@action"]],
        Expr.call "emit" [.string ("@action." ++ way.action), .string ("@action." ++ way.content)]]]]

/-- A way in which a history moves its entries. -/
structure Way.Fits (way : Way) : Prop where
  source : Names ("@entity." ++ way.key) way.key
  target : Names ("@entity." ++ way.other) way.other
  apart : way.key ≠ way.other
  action : Binding.ofText? ("@action." ++ way.action)
    = some ⟨"action", [way.action], "@action." ++ way.action⟩
  content : Binding.ofText? ("@action." ++ way.content)
    = some ⟨"action", [way.content], "@action." ++ way.content⟩
  only : ∃ i, ∀ state, Transition.candidates way.event state undo.transitions
    = [(way.transition, i)]

theorem names_past : Names "@entity.undoStack" "undoStack" := by
  constructor <;> decide

theorem names_future : Names "@entity.redoStack" "redoStack" := by
  constructor <;> decide

theorem fits_back : back.Fits :=
  ⟨names_past, names_future, by decide, by decide, by decide, 1, fun _ => rfl⟩

theorem fits_forth : forth.Fits :=
  ⟨names_future, names_past, by decide, by decide, by decide, 2, fun _ => rfl⟩

section readings

variable {n : Nat} {ctx : Context} {data : Value} {binding field : Text} {items : List Value}

theorem reads_stack (hnames : Names binding field) (hlocals : ctx.locals.find? "entity" = none)
    (h : data.get field = .array items) : Reads (n + 1) ctx data (.string binding) (.array items) := by
  have hreads : ctx.readIn data binding = data.getIn [field] :=
    Context.readIn_entity hnames.binding rfl hlocals
  rw [← h, ← Value.getIn_single, ← hreads]
  exact .binding (Binding.isBinding hnames.binding)

/-- A part of the entry that is moved. -/
theorem reads_part {entry : Value} {path : Path}
    (hbinding : Binding.ofText? binding = some ⟨"action", path, binding⟩)
    (hlocals : ctx.locals.find? "action" = some entry) :
    Reads (n + 1) ctx data (.string binding) (entry.getIn path) := by
  have hreads : ctx.readIn data binding = entry.getIn path := Context.readIn_local hbinding hlocals
  rw [← hreads]
  exact .binding (Binding.isBinding hbinding)

theorem reads_first (hstack : Reads n ctx data (.string binding) (.array items)) :
    Reads (n + 1) ctx data (Expr.call "array/first" [.string binding]) (items.headD .undefined) :=
  .ofTotal (f := fun args => (Library.Array.items args).headD .undefined)
    (Library.operator?_of_place 45 rfl) (.cons hstack .nil)

/-- A part of an array, from one place to another. -/
def cut (args : Arguments) : Value :=
  .array (Items.slice (Library.Array.items args) (args.number 1)
    (Library.Array.optionalNumber (args.nth 2)))

theorem operator?_slice : Evaluator.operator? Library.standard "array/slice"
    = some (Operator.ofValues fun args => .ok (cut args)) :=
  Library.operator?_of_place 48 rfl

theorem reads_rest {e : Value} {x : Float} {k : ℕ}
    (hstack : Reads n ctx data (.string binding) (.array items)) (he : Reads n ctx data e (.number x))
    (hx : toRat? x = some (k : ℚ)) : Reads (n + 1) ctx data
      (Expr.call "array/slice" [.string binding, e]) (.array (items.drop k)) := by
  have hcut : cut [.array items, .number x] = .array (Items.slice items x none) := rfl
  rw [← Items.slice_drop items hx, ← hcut]
  exact .ofTotal (f := cut) operator?_slice (.cons hstack (.cons he .nil))

theorem reads_added {e v : Value} (hstack : Reads n ctx data (.string binding) (.array items))
    (hv : Reads n ctx data e v) :
    Reads (n + 1) ctx data (Expr.call "array/prepend" [.string binding, e]) (.array (v :: items)) :=
  .ofTotal (f := fun args => .array (args.nth 1 :: Library.Array.items args))
    (Library.operator?_of_place 51 rfl) (.cons hstack (.cons hv .nil))

theorem reads_kept {source first last : Value} {x y : Float} {limit : ℕ}
    (hsource : Reads n ctx data source (.array items)) (hfirst : Reads n ctx data first (.number x))
    (hlast : Reads n ctx data last (.number y)) (hx : toRat? x = some ((0 : ℕ) : ℚ))
    (hy : toRat? y = some (limit : ℚ)) : Reads (n + 1) ctx data
      (Expr.call "array/slice" [source, first, last]) (.array (items.take limit)) := by
  have hcut : cut [.array items, .number x, .number y] = .array (Items.slice items x (some y)) := rfl
  rw [← Items.slice_take items hx hy, ← hcut]
  exact .ofTotal (f := cut) operator?_slice
    (.cons hsource (.cons hfirst (.cons hlast .nil)))

/-- Whether there is an entry to be undone or redone. -/
theorem asked_any {actor : Actor} {s : Scene} {payload : Value} {now : Int}
    (hnames : Names binding field) (h : s.data.get field = .array items) :
    actor.Asked (n + 3) s payload now
      (some (Expr.call ">" [Expr.call "array/len" [.string binding], 0])) (!items.isEmpty) := by
  have hlength : Reads (n + 2) (actor.context s payload now) s.data
      (Expr.call "array/len" [.string binding]) (Value.ofNat items.length) :=
    .ofTotal (f := fun args => Value.ofNat (Library.Array.length (args.nth 0)))
      (Library.operator?_of_place 43 rfl)
      (.cons (reads_stack hnames rfl h) .nil)
  refine ⟨_, .comparison .greater hlength (.literal rfl rfl), ?_⟩
  rw [Bool.eq_iff_iff]
  refine (Comparison.decide_positive items.length).trans ?_
  cases items <;> simp

end readings

section effects

variable {limit n : Nat} {actor : Actor} {s : Scene} {t : Stacks} {payload : Value} {now : Int}
  {way : Way} {event : Text} {entry : Value} {items others : List Value}

/-- An entry has been moved if there was one. -/
structure Moved (way : Way) (items others : List Value) (d : Dispatched) (s : Scene)
    (os : List Occurrence) : Prop where
  fires : d.transition ≠ none ↔ items ≠ []
  queue : s.queue = []
  source : s.data.get way.key = .array items.tail
  target : s.data.get way.other = .array (items.head?.toList ++ others)
  told : os = items.head?.toList.map way.told

theorem voices_effect (hway : way.Fits) (hcalm : actor.calm)
    (hsource : s.data.get way.key = .array (entry :: items))
    (htarget : s.data.get way.other = .array others)
    (hforeign : actor.machine.definition.hasEvent (way.told entry).event = false)
    {effect : Value} (heffect : way.transition.effects = [effect]) :
    actor.Voices ((Evaluator.withFuel Library.standard (n + 5)).evaluate effect
        (actor.stage s payload now)) s
      fun _ s' os => s'.queue = s.queue ∧ s'.data.get way.key = .array items ∧
        s'.data.get way.other = .array (entry :: others) ∧ os = [way.told entry] := by
  have hctx := actor.acts_stage s payload now
  let child := (actor.stage s payload now).child [("action", entry)]
  have hchild : actor.Acts child := hctx.child [("action", entry)]
  have hone : toRat? (Float.ofNat 1) = some ((1 : ℕ) : ℚ) := Double.toRat?_ofNat (by decide)
  let s₁ := s.write [(way.key, .array items)]
  have hsource₁ : s₁.data.get way.key = .array items := by
    show (s.data.applyChanges [(way.key, _)]).get way.key = _
    rw [Value.applyChanges_single, hway.source.single]
    exact s.data.get_put_self _ _
  have htarget₁ : s₁.data.get way.other = .array others := by
    show (s.data.applyChanges [(way.key, _)]).get way.other = _
    rw [Value.applyChanges_single, hway.source.single]
    exact (s.data.get_put_of_ne _ hway.apart).trans htarget
  let s₂ := s₁.write [(way.other, .array (entry :: others))]
  have hsource₂ : s₂.data.get way.key = .array items := by
    show (s₁.data.applyChanges [(way.other, _)]).get way.key = _
    rw [Value.applyChanges_single, hway.target.single]
    exact (s₁.data.get_put_of_ne _ hway.apart.symm).trans hsource₁
  have htarget₂ : s₂.data.get way.other = .array (entry :: others) := by
    show (s₁.data.applyChanges [(way.other, _)]).get way.other = _
    rw [Value.applyChanges_single, hway.target.single]
    exact s₁.data.get_put_self _ _
  have hfirst : Reads (n + 4) (actor.stage s payload now) s.data
      (Expr.call "array/first" [.string ("@entity." ++ way.key)]) entry :=
    reads_first (reads_stack hway.source rfl hsource)
  have hrest : Reads (n + 2) child s.data
      (Expr.call "array/slice" [.string ("@entity." ++ way.key), 1]) (.array items) :=
    reads_rest (reads_stack hway.source rfl hsource) (.literal rfl rfl) hone
  have haction : Binding.ofText? "@action" = some ⟨"action", [], "@action"⟩ := rfl
  have hadded : Reads (n + 2) child s₁.data
      (Expr.call "array/prepend" [.string ("@entity." ++ way.other), "@action"])
      (.array (entry.getIn [] :: others)) :=
    reads_added (reads_stack hway.target rfl htarget₁) (reads_part haction rfl)
  rw [Value.getIn_nil] at hadded
  cases heffect
  refine .bindName hctx hfirst (.sequence ?_)
  refine .sequence_cons (t := s₁)
    (.set hcalm hchild hway.source.path hway.source.nonempty hrest) fun _ => ?_
  refine .sequence_cons (t := s₂)
    (.set hcalm hchild hway.target.path hway.target.nonempty hadded) fun _ => ?_
  refine .sequence_last ((Actor.Voices.emit hcalm hchild hforeign (reads_part hway.action rfl)
    (reads_part hway.content rfl)).mono ?_)
  rintro _ _ _ ⟨rfl, rfl⟩
  exact ⟨rfl, hsource₂, htarget₂, rfl⟩

/-- The entry on top is moved and its action asked for; where there is none, nothing is done. -/
theorem voices_move (n : Nat) (payload : Value) (hway : way.Fits) (hcalm : actor.calm)
    (hdefinition : actor.machine.definition = undo) (hqueue : s.queue = [])
    (hsource : s.data.get way.key = .array items) (htarget : s.data.get way.other = .array others)
    (hforeign : ∀ entry ∈ items, undo.hasEvent (way.told entry).event = false) :
    actor.Voices (Machine.dispatch (Evaluator.withFuel Library.standard (n + 5)) actor.services
      actor.handle way.event payload) s (Moved way items others) := by
  obtain ⟨i, honly⟩ := hway.only
  have hone : Transition.candidates way.event s.state actor.machine.definition.transitions
      = [(way.transition, i)] := by
    rw [hdefinition, honly]
  have hasked (now : Int) : actor.Asked (n + 5) { s with busy := true } payload now
      way.transition.guard (!items.isEmpty) := asked_any (n := n + 2) hway.source hsource
  have hmoved : actor.Voices (Machine.process (Evaluator.withFuel Library.standard (n + 5))
      actor.services actor.handle way.event payload) { s with busy := true }
      fun d s' os => (d.transition = if !items.isEmpty then some i else none) ∧
        (s'.queue = [] ∧ s'.data.get way.key = .array items.tail ∧
          s'.data.get way.other = .array (items.head?.toList ++ others) ∧
          os = items.head?.toList.map way.told) := by
    refine .process hone hasked rfl (fun hnone => ?_) fun hsome now => ?_
    · rw [Bool.not_eq_false', List.isEmpty_iff] at hnone
      subst hnone
      exact ⟨hqueue, hsource, htarget, rfl⟩
    · cases items with
      | nil => cases hsome
      | cons entry rest =>
        have hentry := hforeign entry List.mem_cons_self
        rw [← hdefinition] at hentry
        refine (voices_effect (s := { s with busy := true }) hway hcalm hsource htarget hentry
          rfl).mono fun _ s' os hs' => ?_
        exact ⟨hs'.1.trans hqueue, hs'.2.1, hs'.2.2.1, hs'.2.2.2⟩
  refine .dispatch (hmoved.mono ?_)
  rintro d s' os ⟨hd, hqueue', hsource', htarget', htold⟩
  refine ⟨hqueue', ?_, rfl, hsource', htarget', htold⟩
  rw [hd]
  cases items <;> simp

end effects

/-- A transaction in which nothing is queued, and the stacks meanwhile. -/
structure Shows (t : Stacks) (s : Scene) : Prop where
  queue : s.queue = []
  tells : Tells t s.data

section writes

variable {limit n : Nat} {actor : Actor} {s₀ s : Scene} {t : Stacks} {payload : Value} {now : Int}
  {event : Text} {es : List Value} {data : Value} {Q E : Scene → Prop}

theorem tells_past (h : Tells t data) (items : List Value) :
    Tells { t with past := items } (data.applyChanges [("undoStack", .array items)]) where
  past := by
    rw [Value.applyChanges_single, names_past.single]
    exact data.get_put_self _ _
  future := by
    rw [Value.applyChanges_single, names_past.single]
    exact (data.get_put_of_ne _ (by decide)).trans h.future

theorem tells_future (h : Tells t data) (items : List Value) :
    Tells { t with future := items } (data.applyChanges [("redoStack", .array items)]) where
  past := by
    rw [Value.applyChanges_single, names_future.single]
    exact (data.get_put_of_ne _ (by decide)).trans h.past
  future := by
    rw [Value.applyChanges_single, names_future.single]
    exact data.get_put_self _ _

theorem reads_limit (hp : Governs limit actor) (s₀ : Scene) (payload : Value) (now : Int) :
    ∃ max : Float, toRat? max = some (limit : ℚ) ∧ ∀ n data,
      Reads (n + 1) (actor.stage s₀ payload now) data "@config.maxHistory" (.number max) := by
  obtain ⟨config, hconfig, max, hmax, hwhole⟩ := hp.config
  refine ⟨max, by rw [hwhole, Int.cast_natCast], fun n data => ?_⟩
  have hreads : (actor.stage s₀ payload now).readIn data "@config.maxHistory"
      = ((actor.machine.singletons.find? "config").getD .undefined).getIn ["maxHistory"] := rfl
  rw [hconfig, Option.getD_some, Value.getIn_single, hmax] at hreads
  rw [← hreads]
  exact .binding rfl

theorem plain_template (hes : ∀ e ∈ es, Evaluator.Plain n e) :
    Evaluator.Plain (n + 1) (Expr.call "str/template" es) :=
  .library (Library.operator?_of_place 40 rfl)
    (Evaluator.ofTotal_total _) hes

theorem performs_clear (hp : Governs limit actor) (hs : Shows t s)
    (h : ∀ s', Shows { t with future := [] } s' → actor.PerformsAll (n + 2)
      (actor.stage s₀ payload now) es s' Q E) :
    actor.PerformsAll (n + 2) (actor.stage s₀ payload now)
      (Expr.call "set" ["@entity.redoStack", .array []] :: es) s Q E :=
  .set (actor.acts_stage s₀ payload now) names_future.path names_future.nonempty
    (.literal rfl rfl) (h _ ⟨hs.queue, tells_future hs.tells []⟩) fun hwild => absurd hp.calm hwild

/-- What is pushed goes on top, and what does not fit any more is forgotten. -/
theorem performs_push (hp : Governs limit actor) (hs : Shows t s) :
    actor.PerformsAll (n + 5) (actor.stage s₀ payload now)
      (undo.transitions.get ⟨0, by decide⟩).effects s (Shows (t.next limit "PUSH" payload)) E := by
  have hctx := actor.acts_stage s₀ payload now
  have hfails {E : Scene → Prop} {s : Scene} (hwild : ¬actor.calm) : E s := absurd hp.calm hwild
  obtain ⟨max, hmax, hlimit⟩ := reads_limit hp s₀ payload now
  have hzero : toRat? (Float.ofNat 0) = some ((0 : ℕ) : ℚ) := Double.toRat?_ofNat (by decide)
  have hpayload : Reads (n + 2) (actor.stage s₀ payload now) s.data "@payload" payload := by
    have hreads : (actor.stage s₀ payload now).readIn s.data "@payload" = payload.getIn [] := rfl
    rw [Value.getIn_nil] at hreads
    exact hreads ▸ .binding rfl
  have hkept : Reads (n + 4) (actor.stage s₀ payload now) s.data
      (Expr.call "array/slice" [
        Expr.call "array/prepend" ["@entity.undoStack", "@payload"], 0, "@config.maxHistory"])
      (.array ((payload :: t.past).take limit)) :=
    reads_kept (reads_added (reads_stack names_past rfl hs.tells.past) hpayload)
      (.literal rfl rfl) (hlimit (n + 2) s.data) hzero hmax
  refine .set hctx names_past.path names_past.nonempty hkept ?_ hfails
  refine performs_clear (n := n + 3) hp ⟨hs.queue, tells_past hs.tells _⟩ fun s' hs' => ?_
  obtain ⟨toast, htoast⟩ := Evaluator.Plain.leaf (n := n + 3) (e := "@config.showToast") rfl
    (actor.stage s₀ payload now) s'.data
  refine .when hctx htoast (fun _ => ?_) fun _ => hs'
  refine .notify hctx (plain_template (n := n + 2) (.leaves rfl)) (.leaves rfl) hs' hfails

/-- How a history answers what does not move an entry. -/
theorem answers (hp : Governs limit actor) (hs : Shows t s) (hback : event ≠ back.event)
    (hforth : event ≠ forth.event) :
    actor.Answers (n + 5) s event payload now (Shows (t.next limit event payload)) E := by
  have hd := hp.definition
  have hother : ∀ transition ∈ undo.transitions, transition.event = event →
      transition = undo.transitions.get ⟨0, by decide⟩ ∨
        transition = undo.transitions.get ⟨3, by decide⟩ := by
    intro transition hmem hevent
    simp only [undo, List.mem_cons, List.not_mem_nil, or_false] at hmem
    rcases hmem with rfl | rfl | rfl | rfl
    · exact .inl rfl
    · exact absurd hevent.symm hback
    · exact absurd hevent.symm hforth
    · exact .inr rfl
  refine ⟨fun transition hmem hsuits => ?_, fun hdenied => ?_, fun transition hmem hsuits _ => ?_⟩
  · rcases hother transition (hd ▸ hmem) hsuits.1 with rfl | rfl <;> exact ⟨true, rfl⟩
  · rw [hd] at hdenied
    have hpush : event ≠ "PUSH" := Actor.ne_of_denied hdenied
      (List.get_mem undo.transitions ⟨0, by decide⟩) rfl rfl
    have hclear : event ≠ "CLEAR" := Actor.ne_of_denied hdenied
      (List.get_mem undo.transitions ⟨3, by decide⟩) rfl rfl
    have hsame : t.next limit event payload = t := by
      unfold Stacks.next
      rw [if_neg hpush, if_neg hback, if_neg hforth, if_neg hclear]
    rw [hsame]
    exact hs
  · have hevent := hsuits.1
    rcases hother transition (hd ▸ hmem) hevent with rfl | rfl
    · subst hevent
      exact (performs_push hp hs).mono (fun _ hs' => ⟨hs'.queue, hs'.tells⟩) fun _ _ => id
    · subst hevent
      refine .set (actor.acts_stage s payload now) names_past.path names_past.nonempty
        (.literal rfl rfl) ?_ fun hwild => absurd hp.calm hwild
      exact performs_clear (n := n + 3) hp ⟨hs.queue, tells_past hs.tells []⟩
        fun s' hs' => ⟨hs'.queue, hs'.tells⟩

/-- A dispatch comes to what its event comes to. -/
theorem dispatches (hp : Governs limit actor) (hs : Shows t s)
    (hforeign : ∀ entry ∈ t.entries, Foreign entry) :
    actor.Does (Machine.dispatch (Evaluator.withFuel Library.standard (n + 5)) actor.services
      actor.handle event payload) s (fun _ => Shows (t.next limit event payload))
      (Shows (t.next limit event payload)) := by
  by_cases hback : event = back.event
  · subst hback
    refine ((voices_move n payload fits_back hp.calm hp.definition hs.queue hs.tells.past
      hs.tells.future fun entry hentry => (hforeign entry (List.mem_append_left _ hentry)).1).mono ?_).does
    exact fun _ _ _ hmoved => ⟨hmoved.queue, hmoved.source, hmoved.target⟩
  by_cases hforth : event = forth.event
  · subst hforth
    refine ((voices_move n payload fits_forth hp.calm hp.definition hs.queue hs.tells.future
      hs.tells.past fun entry hentry => (hforeign entry (List.mem_append_right _ hentry)).2).mono ?_).does
    exact fun _ _ _ hmoved => ⟨hmoved.queue, hmoved.target, hmoved.source⟩
  · have hbusy : Shows t { s with busy := true } := ⟨hs.queue, hs.tells⟩
    exact Actor.Does.dispatch fun now => (answers (E := fun _ => True) hp hbusy hback hforth).mono
      (fun s' hs' => Actor.drains_nil hs'.queue ⟨rfl, hs'.tells⟩ _) fun hwild => absurd hp.calm hwild

end writes

/-- The stacks of a machine of a host. -/
def Displays (h : Host) (a : Nat) (t : Stacks) : Prop := ∃ data, h.data? a = some data ∧ Tells t data

/-- A move fires if there is an entry to be moved, and the opposite move at once brings the stacks
back to what they were. The two emit what that entry records. -/
def TakenBack (ev : Evaluator) (a : Nat) (h : Host) (t : Stacks) (way opposite : Way)
    (last : Option Value) : Prop :=
  ∀ p q, ∃ d h', Host.dispatch ev a way.event p h = .ok d h' ∧
    (d.transition ≠ none ↔ last ≠ none) ∧ ∀ entry ∈ last, ∃ d' h'',
      Host.dispatch ev a opposite.event q h' = .ok d' h'' ∧ Displays h'' a t ∧
        h''.world.emittedSince h.world a = [way.told entry, opposite.told entry]

section hosts

variable {limit : Nat} {actor : Actor} {s : Scene} {t : Stacks} {h h₁ : Host}

theorem takenBack (fuel : Nat) {way opposite : Way} {items others : List Value}
    (hway : way.Fits) (hopposite : opposite.Fits) (hkey : opposite.key = way.other)
    (hother : opposite.other = way.key) (hcalm : actor.calm)
    (hdefinition : actor.machine.definition = undo) (hservices : actor.services = h.services)
    (hw : actor.Stands s h.world) (hqueue : s.queue = [])
    (hsource : s.data.get way.key = .array items) (htarget : s.data.get way.other = .array others)
    (hforeign : ∀ entry ∈ items, undo.hasEvent (way.told entry).event = false ∧
      undo.hasEvent (opposite.told entry).event = false)
    (hforeign' : ∀ entry ∈ others, undo.hasEvent (opposite.told entry).event = false)
    (htells : ∀ data, data.get way.key = .array items → data.get way.other = .array others →
      Tells t data) :
    TakenBack (Evaluator.withFuel Library.standard (fuel + 5)) actor.handle h t way opposite
      items.head? := by
  intro p q
  obtain ⟨d, h', s', os, hr, hw', hservices', hos, hmoved⟩ := Host.dispatch_voices hservices hw
    (voices_move fuel p hway hcalm hdefinition hqueue hsource htarget
      fun entry hentry => (hforeign entry hentry).1)
  refine ⟨d, h', hr, ?_, ?_⟩
  · rw [hmoved.fires]
    cases items <;> simp
  intro entry hentry
  obtain ⟨rest, rfl⟩ : ∃ rest, items = entry :: rest := by
    cases items with
    | nil => cases hentry
    | cons first rest => exact ⟨rest, by rw [Option.some.inj hentry]⟩
  have hsource' : s'.data.get opposite.key = .array (entry :: others) := by
    rw [hkey]
    exact hmoved.target
  have htarget' : s'.data.get opposite.other = .array rest := by
    rw [hother]
    exact hmoved.source
  have hboth : ∀ entry' ∈ entry :: others, undo.hasEvent (opposite.told entry').event = false := by
    rw [List.forall_mem_cons]
    exact ⟨(hforeign entry List.mem_cons_self).2, hforeign'⟩
  obtain ⟨d', h'', s'', os', hr', hw'', -, hos', hmoved'⟩ := Host.dispatch_voices hservices' hw'
    (voices_move fuel q hopposite hcalm hdefinition hmoved.queue hsource' htarget'
      hboth)
  refine ⟨d', h'', hr', ⟨s''.data, Host.data?_of_stands hw'', htells _ ?_ ?_⟩, ?_⟩
  · rw [← hother]
    exact hmoved'.target
  · rw [← hkey]
    exact hmoved'.source
  · rw [(hos.trans hos').since, hmoved.told, hmoved'.told]
    rfl

/-- What holds of the stacks of a machine behind some events. -/
structure Keeps (limit : Nat) (actor : Actor) (os : List Occurrence) (t : Stacks) (s : Scene)
    (h : Host) : Prop where
  stands : actor.Stands s h.world
  services : actor.services = h.services
  shows : Shows t s
  bounded : t.entries.length ≤ limit
  foreign : ∀ entry ∈ t.entries, Foreign entry
  pushed : ∀ last ∈ os.getLast?, last.event = "PUSH" → t.future = []

/-- By induction over the events, from the last one on. -/
theorem exists_keeps (fuel : Nat) (hp : Governs limit actor) {os : List Occurrence}
    (hos : ∀ o ∈ os, o.event = "PUSH" → Foreign o.payload) (hfirst : Keeps limit actor [] t s h) :
    ∃ t' s', Keeps limit actor os t' s'
      (h.dispatched (Evaluator.withFuel Library.standard (fuel + 5)) actor.handle os) := by
  induction os using List.reverseRecOn with
  | nil => exact ⟨t, s, hfirst⟩
  | append_singleton os o ih =>
    rw [List.forall_mem_append, List.forall_mem_singleton] at hos
    obtain ⟨t', s', hkept⟩ := ih hos.1
    have hmoved : h.dispatched (Evaluator.withFuel Library.standard (fuel + 5)) actor.handle (os ++ [o])
        = (h.dispatched (Evaluator.withFuel Library.standard (fuel + 5)) actor.handle os).moved
          (Evaluator.withFuel Library.standard (fuel + 5)) (.dispatch actor.handle o.event o.payload) := by
      unfold Host.dispatched
      rw [List.map_append]
      exact Host.run_concat _ _ _ _
    obtain ⟨s'', hw, hshows, hservices⟩ := Host.dispatch_stands hkept.services hkept.stands
      (dispatches (n := fuel) hp hkept.shows hkept.foreign)
    rw [hmoved]
    refine ⟨t'.next limit o.event o.payload, s'', hw, hservices, hshows,
      Stacks.length_next_le hkept.bounded _ _, Stacks.forall_next hkept.foreign hos.2, ?_⟩
    intro last hlast hpush
    rw [List.getLast?_concat, Option.mem_some_iff] at hlast
    subst hlast
    rw [hpush]
    rfl

/-- A new history, whatever has been pushed, undone, redone and forgotten: it keeps no more entries
than it may, nothing can be redone behind what is pushed, and the two moves take each other back. -/
theorem keeps_history (fuel : Nat) {definition a : Nat} {given seed : Value} {config : Table Value}
    (hd : h.definitions.lookup definition = some undo)
    (hconfig : undo.configure given = .ok config)
    (hlimit : ((Value.map config).get "maxHistory").IsWhole limit)
    (hseed : ∀ entry ∈ seed.entries, entry.1 ≠ "undoStack" ∧ entry.1 ≠ "redoStack")
    (hcalm : h.world.Calm)
    (hcreate : Host.create (Evaluator.withFuel Library.standard (fuel + 5)) definition given seed h
      = .ok a h₁) {os : List Occurrence} (hos : ∀ o ∈ os, o.event = "PUSH" → Foreign o.payload) :
    let reached := h₁.dispatched (Evaluator.withFuel Library.standard (fuel + 5)) a os
    ∃ t, Displays reached a t ∧ t.past.length + t.future.length ≤ limit ∧
      (∀ last ∈ os.getLast?, last.event = "PUSH" → t.future = []) ∧
      TakenBack (Evaluator.withFuel Library.standard (fuel + 5)) a reached t back forth t.past.head? ∧
      TakenBack (Evaluator.withFuel Library.standard (fuel + 5)) a reached t forth back
        t.future.head? := by
  obtain ⟨config', store, now, hconfig', hstands⟩ := Host.create_stands hd rfl hcreate
  obtain rfl : config = config' := Except.ok.inj (hconfig.symm.trans hconfig')
  let actor : Actor := ⟨Machine.fresh a undo (.map config) store now, h₁.services, True⟩
  have hp : Governs limit actor := ⟨rfl, ⟨.map config, rfl, hlimit⟩, trivial⟩
  have hdefault (key : Text) (hkey : ∀ entry ∈ seed.entries, entry.1 ≠ key) :
      (Value.map (Machine.initialData undo seed)).get key
        = (Value.map undo.defaultData).get key :=
    congrArg (·.getD .undefined) (Table.find?_overlay_of_ne hkey undo.defaultData)
  have hempty : Tells ⟨[], []⟩ (.map (Machine.initialData undo seed)) :=
    ⟨hdefault "undoStack" fun entry hentry => (hseed entry hentry).1,
      hdefault "redoStack" fun entry hentry => (hseed entry hentry).2⟩
  have hfirst : Keeps limit actor [] ⟨[], []⟩ _ h₁ :=
    ⟨hstands True fun _ => hcalm, rfl, ⟨rfl, hempty⟩, Nat.zero_le _,
      fun _ hentry => absurd hentry List.not_mem_nil, fun _ hlast => nomatch hlast⟩
  obtain ⟨t, s, hkept⟩ := exists_keeps fuel hp hos hfirst
  have hforeign := hkept.foreign
  unfold Stacks.entries at hforeign
  rw [List.forall_mem_append] at hforeign
  obtain ⟨hpast, hfuture⟩ := hforeign
  have htells := hkept.shows.tells
  refine ⟨t, ⟨s.data, Host.data?_of_stands hkept.stands, htells⟩, ?_, hkept.pushed, ?_, ?_⟩
  · rw [← List.length_append]
    exact hkept.bounded
  · exact takenBack fuel fits_back fits_forth rfl rfl hp.calm rfl hkept.services hkept.stands
      hkept.shows.queue htells.past htells.future hpast (fun entry hentry => (hfuture entry hentry).2)
      fun _ hback hforth => ⟨hback, hforth⟩
  · exact takenBack fuel fits_forth fits_back rfl rfl hp.calm rfl hkept.services hkept.stands
      hkept.shows.queue htells.future htells.past (fun entry hentry => (hfuture entry hentry).symm)
      (fun entry hentry => (hpast entry hentry).1) fun _ hforth hback => ⟨hback, hforth⟩

/-- A host that knows histories. -/
def archive : Host := { definitions := [(1, undo)] }

def record (name : Text) : Occurrence :=
  ⟨"PUSH", .map [("action", .string name), ("reverseAction", .string (name ++ "_BACK"))]⟩

/-- A history of two entries at most, behind three that were pushed and one that was undone. -/
theorem keeps_history_short : ∃ h₁, Host.create (Evaluator.withFuel Library.standard 5) 1
      (.map [("maxHistory", 2)]) (.map []) archive = .ok 1 h₁ ∧
    let reached := h₁.dispatched (Evaluator.withFuel Library.standard 5) 1
      [record "a", record "b", record "c", ⟨"UNDO", .map []⟩]
    ∃ t, Displays reached 1 t ∧ t.past.length + t.future.length ≤ 2 ∧
      TakenBack (Evaluator.withFuel Library.standard 5) 1 reached t forth back t.future.head? := by
  have hconfig : undo.configure (.map [("maxHistory", 2)])
      = .ok (undo.configDefaults.overlay [("maxHistory", 2)]) := rfl
  have hlimit : ((Value.map (undo.configDefaults.overlay [("maxHistory", 2)])).get
      "maxHistory").IsWhole (2 : ℕ) :=
    ⟨Float.ofNat 2, rfl, by rw [Double.toRat?_ofNat (by decide), Int.cast_natCast]⟩
  obtain ⟨log, hcreate⟩ := Host.create_of_configure (Evaluator.withFuel Library.standard 5) archive 1
    (.map [("maxHistory", 2)]) (.map []) rfl hconfig rfl
  have hforeign : ∀ o ∈ [record "a", record "b", record "c", ⟨"UNDO", .map []⟩],
      o.event = "PUSH" → Foreign o.payload := by
    simp only [List.forall_mem_cons, List.not_mem_nil, false_implies, implies_true, and_true]
    refine ⟨fun _ => ?_, fun _ => ?_, fun _ => ?_, fun h => absurd h (by decide)⟩ <;>
      constructor <;> decide
  obtain ⟨t, hdisplays, hbounded, -, -, hforth⟩ := keeps_history 0 rfl hconfig hlimit
    (fun _ hentry => absurd hentry List.not_mem_nil) (fun _ => ⟨_, rfl⟩) hcreate hforeign
  exact ⟨_, hcreate, t, hdisplays, hbounded, hforth⟩

end hosts

end Undo
end Catalogue
end EntityMachines
