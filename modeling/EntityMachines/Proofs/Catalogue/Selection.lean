import EntityMachines.Catalogue
import EntityMachines.Proofs.Host.Moves
import EntityMachines.Proofs.Machine.Indicators
import EntityMachines.Proofs.Numeral.Order

/-!
Selections. What is selected follows the events of a list, whether or not handlers fail, and stays
within the limits of its configuration until one of three things happens: an item is selected a
second time, too many items are selected at once, or an item is added beyond a limit that is not
whole.
-/
namespace EntityMachines
namespace Catalogue
namespace Selection

open Evaluator (Reads Plain)

/-- What the configuration says about a selection. -/
structure Policy where
  mode : Value
  max : Value

def Policy.ofConfig (config : Value) : Policy := ⟨config.get "mode", config.get "maxSelection"⟩

namespace Policy

def single (p : Policy) : Bool := p.mode.equal "single"

def multi (p : Policy) : Bool := p.mode.equal "multi"

/-- Whether another item may be added. -/
def hasRoom (p : Policy) (selected : List Value) : Bool :=
  !p.max.isTruthy || Comparison.decide .less (Value.ofNat selected.length) p.max

def add (p : Policy) (selected : List Value) (id : Value) : List Value :=
  if p.hasRoom selected then selected ++ [id] else selected

/-- What is selected behind an event. -/
def next (p : Policy) (selected : List Value) (event : Text) (payload : Value) : List Value :=
  let id := payload.getIn ["id"]
  let others := selected.filter fun item => !item.equal id
  if event = "INIT" ∨ event = "CLEAR" then []
  else if event = "SELECT" then if p.single then [id] else p.add selected id
  else if event = "DESELECT" then others
  else if event = "TOGGLE" then
    if id.occursIn selected then others else if p.single then [id] else p.add selected id
  else if event = "SELECT_ALL" then if p.multi then (payload.getIn ["ids"]).items else selected
  else selected

section next

variable (p : Policy) (selected : List Value) (payload : Value)

theorem next_init : p.next selected "INIT" payload = [] := rfl

theorem next_clear : p.next selected "CLEAR" payload = [] := rfl

theorem next_select : p.next selected "SELECT" payload =
    if p.single then [payload.getIn ["id"]] else p.add selected (payload.getIn ["id"]) := rfl

theorem next_deselect : p.next selected "DESELECT" payload
    = selected.filter fun item => !item.equal (payload.getIn ["id"]) := rfl

theorem next_toggle : p.next selected "TOGGLE" payload =
    if (payload.getIn ["id"]).occursIn selected then
      selected.filter fun item => !item.equal (payload.getIn ["id"])
    else if p.single then [payload.getIn ["id"]] else p.add selected (payload.getIn ["id"]) := rfl

theorem next_all : p.next selected "SELECT_ALL" payload =
    if p.multi then (payload.getIn ["ids"]).items else selected := rfl

end next

end Policy

/-- The limit of a selection of several items, if it has one. -/
def Policy.limit? (p : Policy) : Option ℚ :=
  match p.max with
  | .number x => (Double.toRat? x).filter (0 < ·)
  | _ => none

/-- No item equals another one. -/
def Distinct (items : List Value) : Prop := items.Pairwise fun a b => a.equal b = false

/-- A selection within its limits. -/
structure Respects (p : Policy) (selected : List Value) : Prop where
  single : p.single → selected.length ≤ 1
  multi : p.multi → ∀ q ∈ p.limit?, (selected.length : ℚ) ≤ q
  distinct : Distinct selected

/-- An event that is out of place. -/
inductive Offends (p : Policy) (selected : List Value) (event : Text) (payload : Value) : Prop
  /-- An item is selected a second time. -/
  | again (cause : event = "SELECT") (several : p.single = false)
      (room : p.hasRoom selected = true) (id : (payload.getIn ["id"]).occursIn selected = true)
  /-- More items are selected at once than are allowed. -/
  | excess {q} (cause : event = "SELECT_ALL") (several : p.multi = true) (limit : q ∈ p.limit?)
      (ids : q < (payload.getIn ["ids"]).items.length)
  /-- An item is added where there is room only for a part of it. -/
  | beyond {q} (several : p.multi = true) (limit : q ∈ p.limit?)
      (room : p.hasRoom selected = true) (overfull : q < selected.length + 1)
      (added : event = "SELECT" ∨
        event = "TOGGLE" ∧ (payload.getIn ["id"]).occursIn selected = false)

/-- Where everything is selected at once, the items are given as an array without repetition. -/
def Proper (event : Text) (payload : Value) : Prop :=
  event = "SELECT_ALL" →
    ∃ ids, payload.getIn ["ids"] = .array ids ∧ Distinct ids

section limits

variable {p : Policy} {selected : List Value} {event : Text} {payload : Value}

theorem Policy.not_multi_of_single (h : p.single = true) : p.multi = false := by
  unfold single at h
  unfold multi
  cases hmode : p.mode with
  | string mode =>
    rw [hmode] at h
    have hsingle : mode = "single" := beq_iff_eq.mp h
    rw [hsingle]
    decide
  | undefined | null | bool | number | array | map | closure => rfl

theorem Policy.limit_pos {q : ℚ} (hq : q ∈ p.limit?) : 0 < q := by
  unfold limit? at hq
  split at hq
  · exact of_decide_eq_true (Option.mem_filter_iff.mp hq).2
  · cases hq

theorem respects_nil : Respects p [] where
  single _ := Nat.zero_le 1
  multi _ q hq := by simpa using (Policy.limit_pos hq).le
  distinct := .nil

theorem respects_single (h : p.single = true) (id : Value) : Respects p [id] where
  single _ := le_rfl
  multi hmulti := absurd (Policy.not_multi_of_single h ▸ hmulti) Bool.false_ne_true
  distinct := List.pairwise_singleton _ id

theorem Respects.sublist {others : List Value} (h : Respects p selected)
    (hsub : others.Sublist selected) : Respects p others where
  single hsingle := hsub.length_le.trans (h.single hsingle)
  multi hmulti q hq := le_trans (by exact_mod_cast hsub.length_le) (h.multi hmulti q hq)
  distinct := h.distinct.sublist hsub

/-- Where there is room, the item added has to be new and within the limit. -/
theorem respects_add_iff (h : Respects p selected) (hseveral : p.single = false) (id : Value) :
    Respects p (p.add selected id) ↔ (p.hasRoom selected = true → id.occursIn selected = false ∧
      (p.multi → ∀ q ∈ p.limit?, (selected.length : ℚ) + 1 ≤ q)) := by
  have hnew : id.occursIn selected = false ↔ ∀ a ∈ selected, a.equal id = false := by
    unfold Value.occursIn
    simp
  unfold Policy.add
  cases hroom : p.hasRoom selected with
  | false => simpa using h
  | true =>
    rw [if_pos rfl, hnew]
    have hlength : ((selected ++ [id]).length : ℚ) = selected.length + 1 := by simp
    constructor
    · rintro ⟨-, hmulti, hdistinct⟩ -
      refine ⟨fun a ha => ?_, fun hp q hq => hlength ▸ hmulti hp q hq⟩
      exact (List.pairwise_append.mp hdistinct).2.2 a ha id (List.mem_singleton_self id)
    · intro hfits
      obtain ⟨hfresh, hmulti⟩ := hfits rfl
      refine ⟨fun hsingle => absurd (hseveral ▸ hsingle) Bool.false_ne_true,
        fun hp q hq => hlength ▸ hmulti hp q hq, ?_⟩
      refine List.pairwise_append.mpr ⟨h.distinct, List.pairwise_singleton _ id, ?_⟩
      intro a ha b hb
      rw [List.mem_singleton.mp hb]
      exact hfresh a ha

theorem Offends.cause (h : Offends p selected event payload) :
    event = "SELECT" ∨ event = "TOGGLE" ∨ event = "SELECT_ALL" := by
  cases h with
  | again event => exact .inl event
  | excess event => exact .inr (.inr event)
  | beyond _ _ _ _ added => exact added.imp id fun h => .inl h.1

/-- To select a single item is never out of place. -/
theorem Offends.several (h : Offends p selected event payload) : p.single = false := by
  refine eq_false_of_ne_true fun hsingle => ?_
  have hmulti := Policy.not_multi_of_single hsingle
  cases h with
  | again _ several => exact Bool.false_ne_true (several.symm.trans hsingle)
  | excess _ several | beyond several => exact Bool.false_ne_true (hmulti.symm.trans several)

theorem respects_single_iff (hsingle : p.single = true) (item : Value) :
    Respects p [item] ↔ ¬Offends p selected event payload :=
  iff_of_true (respects_single hsingle item) fun ho =>
    Bool.false_ne_true (ho.several.symm.trans hsingle)

theorem respects_select_iff (h : Respects p selected) :
    Respects p (p.next selected "SELECT" payload)
      ↔ ¬Offends p selected "SELECT" payload := by
  rw [Policy.next_select]
  cases hsingle : p.single with
  | true => exact respects_single_iff hsingle _
  | false =>
    rw [if_neg Bool.false_ne_true, respects_add_iff h hsingle]
    constructor
    · rintro hfits (⟨-, -, room, id⟩ | ⟨event⟩ | ⟨several, limit, room, overfull⟩)
      · exact Bool.false_ne_true ((hfits room).1.symm.trans id)
      · exact absurd event (by decide)
      · exact absurd overfull (not_lt.mpr ((hfits room).2 several _ limit))
    · intro hno room
      refine ⟨eq_false_of_ne_true fun hid => hno (.again rfl hsingle room hid), ?_⟩
      exact fun several q limit => not_lt.mp fun overfull =>
        hno (.beyond several limit room overfull (.inl rfl))

theorem respects_toggle_iff (h : Respects p selected) :
    Respects p (p.next selected "TOGGLE" payload)
      ↔ ¬Offends p selected "TOGGLE" payload := by
  rw [Policy.next_toggle]
  cases hid : (payload.getIn ["id"]).occursIn selected with
  | true =>
    refine iff_of_true (h.sublist List.filter_sublist) ?_
    rintro (⟨event⟩ | ⟨event⟩ | ⟨-, -, -, -, event | ⟨-, fresh⟩⟩)
    · exact absurd event (by decide)
    · exact absurd event (by decide)
    · exact absurd event (by decide)
    · exact Bool.false_ne_true (fresh.symm.trans hid)
  | false =>
    rw [if_neg Bool.false_ne_true]
    cases hsingle : p.single with
    | true => exact respects_single_iff hsingle _
    | false =>
      rw [if_neg Bool.false_ne_true, respects_add_iff h hsingle]
      constructor
      · rintro hfits (⟨event⟩ | ⟨event⟩ | ⟨several, limit, room, overfull⟩)
        · exact absurd event (by decide)
        · exact absurd event (by decide)
        · exact absurd overfull (not_lt.mpr ((hfits room).2 several _ limit))
      · intro hno room
        exact ⟨hid, fun several q limit => not_lt.mp fun overfull =>
          hno (.beyond several limit room overfull (.inr ⟨rfl, hid⟩))⟩

theorem respects_all_iff (h : Respects p selected)
    (ho : Proper "SELECT_ALL" payload) :
    Respects p (p.next selected "SELECT_ALL" payload)
      ↔ ¬Offends p selected "SELECT_ALL" payload := by
  cases hmulti : p.multi with
  | true =>
    obtain ⟨ids, hids, hdistinct⟩ := ho rfl
    have hitems : (payload.getIn ["ids"]).items = ids := by
      rw [hids]
      rfl
    rw [Policy.next_all, hmulti, if_pos rfl, hitems]
    constructor
    · rintro hrespects (⟨event⟩ | ⟨-, several, limit, excess⟩ | ⟨-, -, -, -, event | ⟨event, -⟩⟩)
      · exact absurd event (by decide)
      · have hlimit := hrespects.multi several _ limit
        rw [hitems] at excess
        exact absurd excess (not_lt.mpr hlimit)
      · exact absurd event (by decide)
      · exact absurd event (by decide)
    · intro hno
      refine ⟨fun hsingle => ?_, fun several q limit => not_lt.mp fun excess => ?_, hdistinct⟩
      · exact absurd ((Policy.not_multi_of_single hsingle).symm.trans hmulti) Bool.false_ne_true
      · refine hno (.excess rfl several limit ?_)
        rw [hitems]
        exact excess
  | false =>
    rw [Policy.next_all, hmulti, if_neg Bool.false_ne_true]
    refine iff_of_true h ?_
    rintro (⟨event⟩ | ⟨-, several⟩ | ⟨several⟩)
    · exact absurd event (by decide)
    · exact Bool.false_ne_true (hmulti.symm.trans several)
    · exact Bool.false_ne_true (hmulti.symm.trans several)

theorem respects_next_iff (h : Respects p selected) (ho : Proper event payload) :
    Respects p (p.next selected event payload) ↔ ¬Offends p selected event payload := by
  by_cases hselect : event = "SELECT"
  · subst hselect
    exact respects_select_iff h
  by_cases htoggle : event = "TOGGLE"
  · subst htoggle
    exact respects_toggle_iff h
  by_cases hall : event = "SELECT_ALL"
  · subst hall
    exact respects_all_iff h ho
  refine iff_of_true ?_ fun hoffends => ?_
  · simp only [Policy.next, hselect, htoggle, hall, if_false]
    split
    · exact respects_nil
    · split
      · exact h.sublist List.filter_sublist
      · exact h
  · rcases hoffends.cause with cause | cause | cause
    · exact hselect cause
    · exact htoggle cause
    · exact hall cause

end limits

/-- The selection that data tell. -/
def Tells (selected : List Value) (data : Value) : Prop := data.get "selected" = .array selected

/-- A transaction in which nothing is queued, and what is selected meanwhile. -/
structure Shows (selected : List Value) (s : Scene) : Prop where
  busy : s.busy = true
  queue : s.queue = []
  tells : Tells selected s.data

/-- A machine that makes a selection under a policy. -/
structure Governs (p : Policy) (actor : Actor) : Prop where
  definition : actor.machine.definition = selection
  config : ∃ config, actor.machine.singletons.find? "config" = some config ∧
    p = Policy.ofConfig config

section readings

variable {p : Policy} {actor : Actor} {n : Nat} {s₀ s : Scene} {payload : Value} {now : Int}
  {selected : List Value}

theorem reads_selected (hs : Tells selected s.data) :
    Reads (n + 1) (actor.stage s₀ payload now) s.data "@entity.selected" (.array selected) := by
  have hreads : (actor.stage s₀ payload now).readIn s.data "@entity.selected"
      = s.data.getIn ["selected"] := rfl
  rw [← show s.data.get "selected" = .array selected from hs, ← Value.getIn_single, ← hreads]
  exact .binding rfl

theorem reads_id : Reads (n + 1) (actor.stage s₀ payload now) s.data "@payload.id"
    (payload.getIn ["id"]) := .binding rfl

theorem reads_ids : Reads (n + 1) (actor.stage s₀ payload now) s.data "@payload.ids"
    (payload.getIn ["ids"]) := .binding rfl

theorem readIn_mode (hp : Governs p actor) (s₀ : Scene) (payload : Value) (now : Int)
    (handlers : Handlers) (data : Value) :
    { actor.context s₀ payload now with handlers }.readIn data "@config.mode" = p.mode := by
  obtain ⟨config, hconfig, rfl⟩ := hp.config
  have hreads : { actor.context s₀ payload now with handlers }.readIn data "@config.mode"
      = ((actor.machine.singletons.find? "config").getD .undefined).getIn ["mode"] := rfl
  rw [hreads, hconfig, Option.getD_some, Value.getIn_single]
  rfl

theorem reads_mode (hp : Governs p actor) :
    Reads (n + 1) (actor.stage s₀ payload now) s.data "@config.mode" p.mode := by
  rw [← readIn_mode hp s₀ payload now actor.handlers s.data]
  exact .binding rfl

theorem reads_max (hp : Governs p actor) :
    Reads (n + 1) (actor.stage s₀ payload now) s.data "@config.maxSelection" p.max := by
  obtain ⟨config, hconfig, rfl⟩ := hp.config
  have hreads : (actor.stage s₀ payload now).readIn s.data "@config.maxSelection"
      = ((actor.machine.singletons.find? "config").getD .undefined).getIn ["maxSelection"] := rfl
  rw [hconfig, Option.getD_some, Value.getIn_single] at hreads
  unfold Policy.ofConfig
  rw [← hreads]
  exact .binding rfl

theorem reads_single (hp : Governs p actor) : Reads (n + 2) (actor.stage s₀ payload now) s.data
    (Expr.call "=" ["@config.mode", "single"]) (.bool p.single) :=
  .comparison .equal (reads_mode hp) (.literal rfl rfl)

/-- Everything can be selected at once only where several items can. -/
theorem asked_multi (hp : Governs p actor) : actor.Asked (n + 2) s payload now
    (some (Expr.call "=" ["@config.mode", "multi"])) p.multi := by
  have hmode : Reads (n + 1) (actor.context s payload now) s.data "@config.mode" p.mode := by
    rw [← readIn_mode hp s payload now {} s.data]
    exact .binding rfl
  exact ⟨_, .comparison .equal hmode (.literal rfl rfl), rfl⟩

theorem reads_unlimited (hp : Governs p actor) : Reads (n + 2) (actor.stage s₀ payload now) s.data
    (Expr.call "not" ["@config.maxSelection"]) (.bool !p.max.isTruthy) :=
  .not (reads_max hp)

theorem reads_below (hp : Governs p actor) (hs : Tells selected s.data) :
    Reads (n + 3) (actor.stage s₀ payload now) s.data
      (Expr.call "<" [Expr.call "array/len" ["@entity.selected"], "@config.maxSelection"])
      (.bool (Comparison.decide .less (Value.ofNat selected.length) p.max)) := by
  have hlength : Reads (n + 2) (actor.stage s₀ payload now) s.data
      (Expr.call "array/len" ["@entity.selected"]) (Value.ofNat selected.length) :=
    .ofTotal (f := fun args => Value.ofNat (Library.Array.length (args.nth 0)))
      (Library.operator?_of_place 43 rfl) (.cons (reads_selected hs) .nil)
  exact .comparison .less hlength (reads_max hp)

theorem reads_room (hp : Governs p actor) (hs : Tells selected s.data) :
    Reads (n + 4) (actor.stage s₀ payload now) s.data
      (Expr.call "or" [Expr.call "not" ["@config.maxSelection"],
        Expr.call "<" [Expr.call "array/len" ["@entity.selected"], "@config.maxSelection"]])
      (.bool (p.hasRoom selected)) := by
  have hany : p.hasRoom selected = List.any [.bool !p.max.isTruthy,
      .bool (Comparison.decide .less (Value.ofNat selected.length) p.max)] Value.isTruthy := by
    rw [List.any_cons, List.any_cons, List.any_nil, Bool.or_false]
    rfl
  rw [hany]
  exact .or (.cons (reads_unlimited hp) (.cons (reads_below hp hs) .nil))

/-- Where one item takes the place of another, there is always room. -/
theorem reads_place (hp : Governs p actor) (hs : Tells selected s.data) :
    Reads (n + 4) (actor.stage s₀ payload now) s.data
      (Expr.call "or" [Expr.call "=" ["@config.mode", "single"],
        Expr.call "not" ["@config.maxSelection"],
        Expr.call "<" [Expr.call "array/len" ["@entity.selected"], "@config.maxSelection"]])
      (.bool (p.single || p.hasRoom selected)) := by
  have hany : (p.single || p.hasRoom selected) = List.any [.bool p.single, .bool !p.max.isTruthy,
      .bool (Comparison.decide .less (Value.ofNat selected.length) p.max)] Value.isTruthy := by
    rw [List.any_cons, List.any_cons, List.any_cons, List.any_nil, Bool.or_false]
    rfl
  rw [hany]
  exact .or (.cons (reads_single hp) (.cons (reads_unlimited hp) (.cons (reads_below hp hs) .nil)))

theorem reads_added (hs : Tells selected s.data) : Reads (n + 2) (actor.stage s₀ payload now) s.data
    (Expr.call "array/append" ["@entity.selected", "@payload.id"])
    (.array (selected ++ [payload.getIn ["id"]])) :=
  (reads_selected hs).append reads_id

theorem reads_alone : Reads (n + 2) (actor.stage s₀ payload now) s.data
    (Expr.call "array/append" [.array [], "@payload.id"]) (.array [payload.getIn ["id"]]) :=
  (Reads.literal rfl rfl).append reads_id

theorem reads_chosen (hp : Governs p actor) (hs : Tells selected s.data) :
    Reads (n + 3) (actor.stage s₀ payload now) s.data
      (Expr.call "if" [
        Expr.call "=" ["@config.mode", "single"],
        Expr.call "array/append" [.array [], "@payload.id"],
        Expr.call "array/append" ["@entity.selected", "@payload.id"]])
      (.array (if p.single then [payload.getIn ["id"]] else selected ++ [payload.getIn ["id"]])) := by
  refine .choose (reads_single hp) ?_
  cases p.single with
  | true => exact reads_alone
  | false => exact reads_added hs

theorem reads_includes (hs : Tells selected s.data) :
    Reads (n + 2) (actor.stage s₀ payload now) s.data
      (Expr.call "array/includes" ["@entity.selected", "@payload.id"])
      (.bool ((payload.getIn ["id"]).occursIn selected)) :=
  .ofTotal (f := fun args => .bool ((args.nth 1).occursIn (Library.Array.items args)))
    (Library.operator?_of_place 60 rfl) (.cons (reads_selected hs) (.cons reads_id .nil))

end readings

section effects

variable {p : Policy} {actor : Actor} {n : Nat} {s₀ s : Scene} {payload : Value} {now : Int}
  {selected : List Value} {e operand : Value}

/-- An effect that writes a selection. -/
theorem performs_write {items : List Value} {Q : Scene → Prop} (hs : Shows selected s)
    (hoperand : actor.Does ((Evaluator.withFuel Library.standard n).evaluate operand
      (actor.stage s₀ payload now)) s (fun u s' => u = .array items ∧ s' = s) (Shows items))
    (hQ : ∀ s', Shows items s' → Q s') :
    actor.Performs (n + 1) (actor.stage s₀ payload now)
      (Expr.call "set" ["@entity.selected", operand]) s Q (Shows items) := by
  have hwritten : Shows items (s.write [("selected", .array items)]) :=
    ⟨hs.busy, hs.queue, s.data.get_put_self _ _⟩
  exact .setTo (actor.acts_stage s₀ payload now) rfl (by decide) hoperand (hQ _ hwritten)
    fun _ => hwritten

/-- What does not write the selection leaves it as it is. -/
theorem performsAll_beside (es : List Value)
    (hes : es.all (Expr.spares "selected" true 3) = true) (hs : Shows selected s) :
    actor.PerformsAll (n + 3) (actor.stage s₀ payload now) es s (Shows selected)
      (Shows selected) := by
  have hspared (s' : Scene) (hs' : s.Spared "selected" true s') : Shows selected s' :=
    ⟨hs'.busy.trans hs.busy, (hs'.queue rfl).trans hs.queue, hs'.data.trans hs.tells⟩
  exact Expr.performsAll_of_spares _ _ _ hes (actor.acts_stage s₀ payload now) hs.busy n hspared
    hspared

/-- The items that are not the one of an event. -/
theorem performs_remove (hs : Shows selected s) :
    actor.Performs (n + 4) (actor.stage s₀ payload now)
      (Expr.call "set" ["@entity.selected",
        Expr.call "array/filter" ["@entity.selected",
          Expr.call "fn" ["id", Expr.call "!=" ["@id", "@payload.id"]]]]) s
      (Shows (selected.filter fun item => !item.equal (payload.getIn ["id"])))
      (Shows (selected.filter fun item => !item.equal (payload.getIn ["id"]))) := by
  have hctx := actor.acts_stage s₀ payload now
  have hinert : Expr.Inert (Expr.call "!=" ["@id", "@payload.id"]) := by
    refine .comparison .notEqual ?_
    simp only [List.forall_mem_cons, List.not_mem_nil, false_implies, implies_true, and_true]
    exact ⟨.leaf rfl, .leaf rfl⟩
  refine performs_write hs (Actor.Does.filter hctx.store hinert (reads_selected hs.tells)
    fun item => ?_) fun _ => id
  have hitem : ((actor.stage s₀ payload now).child [("id", item)]).readIn s.data "@id"
      = item.getIn [] := rfl
  have hid : ((actor.stage s₀ payload now).child [("id", item)]).readIn s.data "@payload.id"
      = payload.getIn ["id"] := rfl
  refine .comparison .notEqual ?_ ?_
  · rw [← Value.getIn_nil item, ← hitem]
    exact .binding rfl
  · rw [← hid]
    exact .binding rfl

theorem performs_select (hp : Governs p actor) (hs : Shows selected s) :
    actor.Performs (n + 6) (actor.stage s₀ payload now)
      (Expr.call "if" [
        Expr.call "=" ["@config.mode", "single"],
        Expr.call "do" [
          Expr.call "set" ["@entity.selected",
            Expr.call "array/append" [.array [], "@payload.id"]],
          Expr.call "set" ["@entity.lastSelected", "@payload.id"]],
        Expr.call "if" [
          Expr.call "or" [
            Expr.call "not" ["@config.maxSelection"],
            Expr.call "<" [Expr.call "array/len" ["@entity.selected"], "@config.maxSelection"]],
          Expr.call "do" [
            Expr.call "set" ["@entity.selected",
              Expr.call "array/append" ["@entity.selected", "@payload.id"]],
            Expr.call "set" ["@entity.lastSelected", "@payload.id"]],
          Expr.call "notify" ["Maximum selection reached", "warning"]]]) s
      (Shows (p.next selected "SELECT" payload)) (Shows (p.next selected "SELECT" payload)) := by
  have hctx := actor.acts_stage s₀ payload now
  refine .choose hctx (reads_single hp) ?_
  rw [Policy.next_select]
  cases hsingle : p.single with
  | true =>
    refine .sequence (performs_write hs (.ofReads hctx reads_alone ⟨rfl, rfl⟩) fun s' hs' => ?_)
    exact performsAll_beside (n := n + 1) _ (by decide +kernel) hs'
  | false =>
    refine .choose hctx (reads_room hp hs.tells) ?_
    rw [if_neg Bool.false_ne_true, Policy.add]
    cases hroom : p.hasRoom selected with
    | true =>
      refine .sequence (performs_write hs (.ofReads hctx (reads_added hs.tells) ⟨rfl, rfl⟩)
        fun s' hs' => ?_)
      exact performsAll_beside _ (by decide +kernel) hs'
    | false =>
      exact performsAll_beside (n := n + 1) [_] (by decide +kernel) hs

theorem performs_toggle (hp : Governs p actor) (hs : Shows selected s) :
    actor.Performs (n + 6) (actor.stage s₀ payload now)
      (Expr.call "if" [
        Expr.call "array/includes" ["@entity.selected", "@payload.id"],
        Expr.call "set" ["@entity.selected",
          Expr.call "array/filter" ["@entity.selected",
            Expr.call "fn" ["id", Expr.call "!=" ["@id", "@payload.id"]]]],
        Expr.call "if" [
          Expr.call "or" [
            Expr.call "=" ["@config.mode", "single"],
            Expr.call "not" ["@config.maxSelection"],
            Expr.call "<" [Expr.call "array/len" ["@entity.selected"], "@config.maxSelection"]],
          Expr.call "set" ["@entity.selected",
            Expr.call "if" [
              Expr.call "=" ["@config.mode", "single"],
              Expr.call "array/append" [.array [], "@payload.id"],
              Expr.call "array/append" ["@entity.selected", "@payload.id"]]],
          Expr.call "notify" ["Maximum selection reached", "warning"]]]) s
      (Shows (p.next selected "TOGGLE" payload)) (Shows (p.next selected "TOGGLE" payload)) := by
  have hctx := actor.acts_stage s₀ payload now
  refine .choose hctx (reads_includes hs.tells) ?_
  rw [Policy.next_toggle]
  cases hid : (payload.getIn ["id"]).occursIn selected with
  | true => exact performs_remove (n := n + 1) hs
  | false =>
    refine .choose hctx (reads_place hp hs.tells) ?_
    rw [if_neg Bool.false_ne_true]
    have hwritten : actor.Performs (n + 5) (actor.stage s₀ payload now) _ s _ _ :=
      performs_write hs (.ofReads hctx (reads_chosen hp hs.tells) ⟨rfl, rfl⟩) fun _ => id
    cases hsingle : p.single with
    | true =>
      rw [hsingle] at hwritten
      exact hwritten
    | false =>
      rw [if_neg Bool.false_ne_true, Policy.add]
      rw [hsingle] at hwritten
      cases hroom : p.hasRoom selected with
      | true => exact hwritten
      | false => exact performsAll_beside (n := n + 1) [_] (by decide +kernel) hs

/-- The selection stays as it is where every transition is denied. -/
theorem next_of_denied (hp : Governs p actor) {event : Text}
    (hdenied : ∀ t ∈ selection.transitions, t.Suits event s.state →
      actor.Asked (n + 6) s payload now t.guard false) :
    p.next selected event payload = selected := by
  have hinit : event ≠ "INIT" := Actor.ne_of_denied hdenied
    (List.get_mem selection.transitions ⟨0, by decide⟩) rfl rfl
  have hselect : event ≠ "SELECT" := Actor.ne_of_denied hdenied
    (List.get_mem selection.transitions ⟨1, by decide⟩) rfl rfl
  have hdeselect : event ≠ "DESELECT" := Actor.ne_of_denied hdenied
    (List.get_mem selection.transitions ⟨2, by decide⟩) rfl rfl
  have htoggle : event ≠ "TOGGLE" := Actor.ne_of_denied hdenied
    (List.get_mem selection.transitions ⟨3, by decide⟩) rfl rfl
  have hclear : event ≠ "CLEAR" := Actor.ne_of_denied hdenied
    (List.get_mem selection.transitions ⟨5, by decide⟩) rfl rfl
  simp only [Policy.next, hinit, hclear, hselect, hdeselect, htoggle, or_self, if_false]
  by_cases hall : event = "SELECT_ALL"
  · have hmulti : p.multi = false := (asked_multi (n := n + 4) hp).unique
      (hdenied (selection.transitions.get ⟨4, by decide⟩) (List.get_mem _ _) ⟨hall.symm, rfl⟩)
    rw [if_pos hall, hmulti, if_neg Bool.false_ne_true]
  · rw [if_neg hall]

/-- What a transition that is taken writes. -/
theorem performs_next (hp : Governs p actor) (hs : Shows selected s) {t : Transition}
    (ht : t ∈ selection.transitions)
    (hids : t.event = "SELECT_ALL" → ∃ ids, payload.getIn ["ids"] = .array ids)
    (hasked : actor.Asked (n + 6) s payload now t.guard true) :
    actor.PerformsAll (n + 6) (actor.stage s payload now) t.effects s
      (Shows (p.next selected t.event payload)) (Shows (p.next selected t.event payload)) := by
  have hctx := actor.acts_stage s payload now
  simp only [selection, List.mem_cons, List.not_mem_nil, or_false] at ht
  rcases ht with rfl | rfl | rfl | rfl | rfl | rfl
  · refine performs_write hs (.ofReads hctx (.literal rfl rfl) ⟨rfl, rfl⟩) fun s' hs' => ?_
    exact performsAll_beside (n := n + 3) _ (by decide +kernel) hs'
  · exact performs_select hp hs
  · exact performs_remove (n := n + 2) hs
  · exact performs_toggle hp hs
  · obtain ⟨ids, hpayload⟩ := hids rfl
    have hmulti : p.multi = true := (asked_multi (n := n + 4) hp).unique hasked
    rw [Policy.next_all, hmulti, if_pos rfl, hpayload]
    exact performs_write hs (.ofReads hctx (hpayload ▸ reads_ids) ⟨rfl, rfl⟩) fun _ => id
  · refine performs_write hs (.ofReads hctx (.literal rfl rfl) ⟨rfl, rfl⟩) fun s' hs' => ?_
    exact performsAll_beside (n := n + 3) _ (by decide +kernel) hs'

theorem answers (hp : Governs p actor) (hs : Shows selected s) {event : Text}
    (hids : event = "SELECT_ALL" → ∃ ids, payload.getIn ["ids"] = .array ids) :
    actor.Answers (n + 6) s event payload now (Shows (p.next selected event payload))
      (Shows (p.next selected event payload)) := by
  refine Actor.answers_of_plain hp.definition (by decide +kernel) (fun hdenied => ?_)
    fun t ht hsuits hasked => ?_
  · rw [next_of_denied hp hdenied]
    exact hs
  · obtain ⟨rfl, -⟩ := hsuits
    exact (performs_next hp hs ht hids hasked).mono
      (fun _ hs' => ⟨hs'.busy, hs'.queue, hs'.tells⟩) fun _ _ => id

/-- A dispatch comes to what its event comes to, also where handlers fail. -/
theorem dispatches (hp : Governs p actor) (hqueue : s.queue = []) (hs : Tells selected s.data)
    {event : Text} (hids : event = "SELECT_ALL" → ∃ ids, payload.getIn ["ids"] = .array ids) :
    actor.Does (Machine.dispatch (Evaluator.withFuel Library.standard (n + 6)) actor.services
      actor.handle event payload) s
      (fun _ s' => s'.queue = [] ∧ Tells (p.next selected event payload) s'.data)
      (fun s' => s'.queue = [] ∧ Tells (p.next selected event payload) s'.data) := by
  have hbusy : Shows selected { s with busy := true } := ⟨rfl, hqueue, hs⟩
  exact Actor.Does.dispatch fun now => (answers hp hbusy hids).mono
    (fun s' hs' => Actor.drains_nil hs'.queue ⟨rfl, hs'.tells⟩ _) fun _ s' hs' => ⟨rfl, hs'.tells⟩

end effects

section hosts

variable {p : Policy} {actor : Actor} {s : Scene} {h h₁ : Host} {selected : List Value}

/-- What is selected by a machine of a host. -/
def Selects (h : Host) (a : Nat) (selected : List Value) : Prop :=
  ∃ data, h.data? a = some data ∧ Tells selected data

theorem selects_iff (hw : actor.Stands s h.world) (hs : Tells selected s.data)
    {items : List Value} : Selects h actor.handle items ↔ items = selected := by
  constructor
  · rintro ⟨data, hdata, hitems⟩
    cases hdata.symm.trans (Host.data?_of_stands hw)
    exact Value.array.inj (hitems.symm.trans hs)
  · rintro rfl
    exact ⟨s.data, Host.data?_of_stands hw, hs⟩

/-- A new selection stays within its limits, whether or not handlers fail, exactly if no event that
it is sent is out of place. -/
theorem limits_hold_iff (fuel : Nat) {definition a : Nat} {given seed : Value}
    {config : Table Value} (hd : h.definitions.lookup definition = some selection)
    (hconfig : selection.configure given = .ok config)
    (hseed : ∀ entry ∈ seed.entries, entry.1 ≠ "selected")
    (hcreate : Host.create (Evaluator.withFuel Library.standard (fuel + 6)) definition given seed h
      = .ok a h₁) {os : List Occurrence} (hos : ∀ o ∈ os, Proper o.event o.payload) :
    (∀ before, before <+: os → ∃ selected,
        Selects (h₁.dispatched (Evaluator.withFuel Library.standard (fuel + 6)) a before) a selected ∧
          Respects (.ofConfig (.map config)) selected) ↔
      ∀ before (o : Occurrence), before ++ [o] <+: os → ¬∃ selected,
        Selects (h₁.dispatched (Evaluator.withFuel Library.standard (fuel + 6)) a before) a selected ∧
          Offends (.ofConfig (.map config)) selected o.event o.payload := by
  obtain ⟨config', store, now, hconfig', hstands⟩ := Host.create_stands hd rfl hcreate
  obtain rfl : config = config' := Except.ok.inj (hconfig.symm.trans hconfig')
  let actor : Actor := ⟨Machine.fresh a selection (.map config) store now, h₁.services, False⟩
  let p : Policy := .ofConfig (.map config)
  have hp : Governs p actor := ⟨rfl, .map config, rfl, rfl⟩
  have hnone : (Value.map (Machine.initialData selection seed)).get "selected" = .array [] :=
    congrArg (·.getD .undefined) (Table.find?_overlay_of_ne hseed selection.defaultData)
  have hthere {h : Host} {s : Scene} {selected : List Value} (hw : actor.Stands s h.world)
      (hs : Tells selected s.data) (P : List Value → Prop) :
      (∃ selected, Selects h a selected ∧ P selected) ↔ P selected := by
    have hselects {items : List Value} : Selects h a items ↔ items = selected := selects_iff hw hs
    simp only [hselects, exists_eq_left]
  refine Host.throughout_iff (R := fun h => ∃ s selected, actor.Stands s h.world ∧ s.queue = [] ∧
      Tells selected s.data ∧ actor.services = h.services)
    (P := fun h => ∃ selected, Selects h a selected ∧ Respects p selected)
    (O := fun h o => ∃ selected, Selects h a selected ∧ Offends p selected o.event o.payload)
    ?_ ⟨_, [], hstands False False.elim, rfl, hnone, rfl⟩ ?_
  · rintro h o ho ⟨s, selected, hw, hqueue, hs, hservices⟩ hrespects
    have hproper := hos o ho
    obtain ⟨s', hw', ⟨hqueue', hs'⟩, hservices'⟩ := Host.dispatch_stands hservices hw
      (dispatches (n := fuel) hp hqueue hs fun hall => (hproper hall).imp fun _ => And.left)
    refine ⟨⟨s', _, hw', hqueue', hs', hservices'⟩, ?_⟩
    refine (hthere hw' hs' _).trans (.trans ?_ (not_congr (hthere hw hs _)).symm)
    exact respects_next_iff ((hthere hw hs _).mp hrespects) hproper
  · exact (hthere (hstands False False.elim) hnone _).mpr respects_nil

/-- A host that knows selections. -/
def shelf : Host := { definitions := [(1, selection)] }

def pick (id : Text) : Occurrence := ⟨"SELECT", .map [("id", .string id)]⟩

/-- A selection of one item is within its limits whatever is picked. -/
theorem limits_hold_single : ∃ h₁, Host.create (Evaluator.withFuel Library.standard 6) 1 (.map [])
      (.map []) shelf = .ok 1 h₁ ∧ ∀ before, before <+: [pick "a", pick "b", pick "b"] →
        ∃ selected, Selects (h₁.dispatched (Evaluator.withFuel Library.standard 6) 1 before) 1
          selected ∧ Respects (.ofConfig (.map selection.configDefaults)) selected := by
  have hconfig : selection.configure (.map []) = .ok selection.configDefaults := rfl
  obtain ⟨log, hcreate⟩ := Host.create_of_configure (Evaluator.withFuel Library.standard 6) shelf 1
    (.map []) (.map []) rfl hconfig rfl
  refine ⟨_, hcreate, (limits_hold_iff 0 rfl hconfig
    (fun _ hentry => absurd hentry List.not_mem_nil) hcreate ?_).mpr ?_⟩
  · intro o ho hall
    simp only [List.mem_cons, List.not_mem_nil, or_false] at ho
    rcases ho with rfl | rfl | rfl <;> exact absurd hall (by decide)
  · rintro before o - ⟨selected, -, hoffends⟩
    have hsingle : (Policy.ofConfig (.map selection.configDefaults)).single = true := by decide
    exact Bool.false_ne_true (hoffends.several.symm.trans hsingle)

/-- One item is picked two times where several may be selected. -/
def twice : Host :=
  (shelf.moved (Evaluator.withFuel Library.standard 6)
    (.create 1 (.map [("mode", .string "multi")]) (.map []))).dispatched
      (Evaluator.withFuel Library.standard 6) 1 [pick "a", pick "a"]

theorem twice_repeats : (twice.data? 1).any (fun data => match (data.get "selected").items with
      | [first, second] => first.equal second
      | _ => false) = true ∧ ¬∃ selected, Selects twice 1 selected ∧ Distinct selected := by
  have hrepeats : (twice.data? 1).any (fun data => match (data.get "selected").items with
      | [first, second] => first.equal second
      | _ => false) = true := by decide +kernel
  refine ⟨hrepeats, ?_⟩
  rintro ⟨selected, ⟨data, hdata, hselected⟩, hdistinct⟩
  have hitems : (data.get "selected").items = selected := by
    rw [show data.get "selected" = .array selected from hselected]
    rfl
  rw [hdata, Option.any_some, hitems] at hrepeats
  split at hrepeats
  · have hdiffer := (List.pairwise_pair.mp hdistinct).symm.trans hrepeats
    cases hdiffer
  · cases hrepeats

end hosts

end Selection
end Catalogue
end EntityMachines
