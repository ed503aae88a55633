import EntityMachines.Catalogue
import EntityMachines.Proofs.Host.Neighbors
import EntityMachines.Proofs.Machine.Indicators
import EntityMachines.Proofs.Numeral.Whole

/-!
Notifications. They are visible exactly when there is something to show, and never more are shown
than may be. Notifications go away one by one, with time or because newer ones need the room; the
state follows the last of them through an event that waits in the queue.
-/
namespace EntityMachines
namespace Catalogue
namespace Notification

open Double (toRat?)
open Evaluator (Reads)

/-- The data show some notifications. -/
def Tells (shown : List Value) (data : Value) : Prop := data.get "notifications" = .array shown

/-- A machine that shows so many notifications at most, in a program that does not fail. -/
structure Governs (limit : Nat) (actor : Actor) : Prop where
  definition : actor.machine.definition = notification
  config : ∃ config, actor.machine.singletons.find? "config" = some config ∧
    (config.get "maxVisible").IsWhole limit
  limit : 1 ≤ limit
  queues : 1 ≤ actor.services.maxQueued
  calm : actor.calm

/-- Something is shown or the machine hides, and there is room for all that is shown. -/
def Fits (limit : Nat) (state : Text) (data : Value) : Prop :=
  ∃ shown, Tells shown data ∧ shown.length ≤ limit ∧ (state = "Hidden" ↔ shown = [])

/-- A transaction in which nothing is queued. -/
structure Shows (limit : Nat) (timers : Table (Timer DelayedEmit)) (shown : List Value)
    (s : Scene) : Prop where
  busy : s.busy = true
  queue : s.queue = []
  timers : s.timers = timers
  tells : Tells shown s.data
  room : shown.length ≤ limit

/-- What an event or a tick comes to. -/
inductive Outcome (limit : Nat) (timers : Table (Timer DelayedEmit)) (s : Scene) : Prop
  | settled {shown} (shows : Shows limit timers shown s) (state : s.state = "Hidden" ↔ shown = [])
  /-- Nothing is shown any more, and the machine has to hide next. -/
  | clears {payload} (busy : s.busy = true) (queue : s.queue = [⟨"HIDE", payload⟩])
      (same : s.timers = timers) (tells : Tells [] s.data)

/-- Whether the time of a notification is over. -/
def expired (now : Int) (item : Value) : Bool :=
  [item.getIn ["expiresAt"], .bool (Comparison.decide .lessEqual (item.getIn ["expiresAt"])
    (Value.ofInt now))].all Value.isTruthy

/-- The notification that an event asks for. -/
def entry : Value :=
  Expr.call "object/merge" [
    Expr.call "object/pick" ["@payload",
      Expr.call "array/append" [
        Expr.call "array/append" [Expr.call "array/append" [.array [], "type"], "message"],
        "title"]],
    Expr.call "object/set" [
      Expr.call "object/set" [.map [], "id", "@id"],
      "expiresAt",
      Expr.call "if" [
        Expr.call ">" ["@config.autoDismissMs", 0],
        Expr.call "+" ["@now", "@config.autoDismissMs"],
        .null]]]

/-- The condition under which a tick lets a notification go. -/
def lapsed : Value := Expr.call "and" ["@n.expiresAt", Expr.call "<=" ["@n.expiresAt", "@now"]]

/-- The condition under which an event lets a notification go. -/
def meant : Value := Expr.call "=" ["@n.id", "@payload.id"]

/-- What lets notifications go. -/
def prune (condition : Value) : List Value := [
  Expr.call "set" ["@entity.notifications",
    Expr.call "array/reject" ["@entity.notifications", Expr.call "fn" ["n", condition]]],
  Expr.call "when" [Expr.call "array/empty?" ["@entity.notifications"], Expr.call "emit" ["HIDE"]]]

theorem inert_meant : Expr.Inert meant := by
  refine .comparison .equal ?_
  simp only [List.forall_mem_cons, List.not_mem_nil, false_implies, implies_true, and_true]
  exact ⟨.leaf rfl, .leaf rfl⟩

theorem inert_lapsed : Expr.Inert lapsed := by
  refine .and ?_
  simp only [List.forall_mem_cons, List.not_mem_nil, false_implies, implies_true, and_true]
  refine ⟨.leaf rfl, .comparison .lessEqual ?_⟩
  simp only [List.forall_mem_cons, List.not_mem_nil, false_implies, implies_true, and_true]
  exact ⟨.leaf rfl, .leaf rfl⟩

section readings

variable {n limit : Nat} {ctx : Context} {data e v : Value} {shown : List Value} {x : Float}

theorem reads_shown (hlocals : ctx.locals.find? "entity" = none) (h : Tells shown data) :
    Reads (n + 1) ctx data "@entity.notifications" (.array shown) := by
  have hbinding : Binding.ofText? "@entity.notifications"
      = some ⟨"entity", ["notifications"], "@entity.notifications"⟩ := by decide
  have hreads : ctx.readIn data "@entity.notifications" = data.getIn ["notifications"] :=
    Context.readIn_entity hbinding rfl hlocals
  rw [← show data.get "notifications" = .array shown from h, ← Value.getIn_single, ← hreads]
  exact .binding rfl

theorem reads_empty (h : Reads n ctx data e (.array shown)) :
    Reads (n + 1) ctx data (Expr.call "array/empty?" [e]) (.bool shown.isEmpty) :=
  .ofTotal (f := fun args => .bool (Library.Array.isEmpty (args.nth 0)))
    (Library.operator?_of_place 44 rfl) (.cons h .nil)

/-- The items at the end of an array. -/
def latest (args : Arguments) : Value :=
  .array (Items.takeLast (Library.Array.items args) (Items.count (args.number 1)))

theorem operator?_takeLast : Evaluator.operator? Library.standard "array/takeLast"
    = some (Operator.ofValues fun args => .ok (latest args)) :=
  Library.operator?_of_place 69 rfl

theorem reads_latest {last : Value} (h : Reads n ctx data e (.array shown))
    (hlast : Reads n ctx data last (.number x)) : Reads (n + 1) ctx data
      (Expr.call "array/takeLast" [e, last]) (.array (Items.takeLast shown (Items.count x))) := by
  have hlatest : latest [.array shown, .number x]
      = .array (Items.takeLast shown (Items.count x)) := rfl
  rw [← hlatest]
  exact .ofTotal (f := latest) operator?_takeLast (.cons h (.cons hlast .nil))

theorem reads_meant (actor : Actor) (s : Scene) (payload : Value) (now : Int) (item : Value) :
    Reads (n + 2) ((actor.stage s payload now).child [("n", item)]) data meant
      (.bool ((item.getIn ["id"]).equal (payload.getIn ["id"]))) := by
  have hitem : ((actor.stage s payload now).child [("n", item)]).readIn data "@n.id"
      = item.getIn ["id"] := rfl
  have hid : ((actor.stage s payload now).child [("n", item)]).readIn data "@payload.id"
      = payload.getIn ["id"] := rfl
  refine .comparison .equal ?_ ?_
  · rw [← hitem]
    exact .binding rfl
  · rw [← hid]
    exact .binding rfl

/-- The context may have handlers or not. -/
theorem reads_lapsed (actor : Actor) (s : Scene) (now : Int) (handlers : Handlers) (item : Value) :
    Reads (n + 3) (({ actor.context s (.map []) now with handlers } : Context).child [("n", item)])
      data lapsed (.bool (expired now item)) := by
  let ctx : Context := ({ actor.context s (.map []) now with handlers } : Context).child [("n", item)]
  have hitem : ctx.readIn data "@n.expiresAt" = item.getIn ["expiresAt"] := rfl
  have hnow : ctx.readIn data "@now" = Value.ofInt now := rfl
  have hexpires (k : Nat) : Reads (k + 1) ctx data "@n.expiresAt" (item.getIn ["expiresAt"]) :=
    hitem ▸ .binding rfl
  have htime : Reads (n + 1) ctx data "@now" (Value.ofInt now) := hnow ▸ .binding rfl
  exact .and (.cons (hexpires (n + 1)) (.cons (.comparison .lessEqual (hexpires n) htime) .nil))

end readings

/-- Some of the items at the end are kept, and no more than may be. -/
theorem length_takeLast {x : Float} {limit : Nat} (hx : toRat? x = some (limit : ℚ))
    (hlimit : 1 ≤ limit) (items : List Value) (v : Value) :
    1 ≤ (Items.takeLast (items ++ [v]) (Items.count x)).length ∧
      (Items.takeLast (items ++ [v]) (Items.count x)).length ≤ limit := by
  obtain ⟨hlow, hhigh⟩ := Items.count_bounds hx hlimit
  unfold Items.takeLast
  rw [List.length_drop, List.length_append, List.length_singleton]
  omega

section effects

variable {n limit : Nat} {actor : Actor} {s₀ s : Scene} {payload : Value} {now : Int}
  {timers : Table (Timer DelayedEmit)} {shown : List Value} {Q E : Scene → Prop}

theorem tells_write (data : Value) (items : List Value) :
    Tells items (data.applyChanges [("notifications", .array items)]) := by
  unfold Tells
  rw [Value.applyChanges_single]
  exact data.get_put_self _ _

theorem reads_limit (hp : Governs limit actor) (s₀ : Scene) (payload : Value) (now : Int) :
    ∃ max : Float, toRat? max = some (limit : ℚ) ∧ ∀ n data locals,
      Reads (n + 1) ((actor.stage s₀ payload now).child [("id", locals)]) data
        "@config.maxVisible" (.number max) := by
  obtain ⟨config, hconfig, max, hmax, hwhole⟩ := hp.config
  refine ⟨max, by rw [hwhole, Int.cast_natCast], fun n data locals => ?_⟩
  have hreads : ((actor.stage s₀ payload now).child [("id", locals)]).readIn data
      "@config.maxVisible"
      = ((actor.machine.singletons.find? "config").getD .undefined).getIn ["maxVisible"] := rfl
  rw [hconfig, Option.getD_some, Value.getIn_single, hmax] at hreads
  rw [← hreads]
  exact .binding rfl

/-- Where the last notification goes, the machine has to hide. -/
theorem performs_prune (hp : Governs limit actor) (hs : Shows limit timers shown s)
    (hstate : s.state ≠ "Hidden") {condition : Value} (hinert : Expr.Inert condition)
    {goes : Value → Bool} (hgoes : ∀ item, Reads (n + 3)
      ((actor.stage s₀ payload now).child [("n", item)]) s.data condition (.bool (goes item))) :
    actor.PerformsAll (n + 5) (actor.stage s₀ payload now) (prune condition) s
      (fun s' => s'.state = s.state ∧ Outcome limit timers s') E := by
  have hctx := actor.acts_stage s₀ payload now
  have hfails {s : Scene} (hwild : ¬actor.calm) : E s := absurd hp.calm hwild
  let rest : List Value := shown.filter fun item => !goes item
  let s₁ : Scene := s.write [("notifications", .array rest)]
  have hs₁ : Shows limit timers rest s₁ :=
    ⟨hs.busy, hs.queue, hs.timers, tells_write s.data rest,
      (List.length_filter_le _ shown).trans hs.room⟩
  refine .setTo hctx rfl (by decide) (Actor.Does.reject hctx.store hinert (reads_shown rfl hs.tells)
    hgoes) ?_ hfails
  refine .when hctx (reads_empty (n := n + 3) (reads_shown rfl hs₁.tells)) (fun hempty => ?_)
    fun hempty => ?_
  · have hnone : rest = [] := List.isEmpty_iff.mp hempty
    refine .emit hctx hs₁.busy (.literal rfl rfl) nofun (fun payload => ?_) hfails
    have hevent : actor.machine.definition.hasEvent "HIDE" = true := by
      rw [hp.definition]
      rfl
    have hposted : actor.post s₁ ⟨"HIDE", payload⟩ = { s₁ with queue := [⟨"HIDE", payload⟩] } :=
      Actor.post_of_empty hevent hp.queues hs₁.queue
    show (actor.post s₁ _).state = s.state ∧ Outcome limit timers (actor.post s₁ _)
    rw [show (Value.string "HIDE").display = "HIDE" from rfl, hposted]
    exact ⟨rfl, .clears hs₁.busy rfl hs₁.timers (hnone ▸ hs₁.tells)⟩
  · have hsome : rest ≠ [] := fun hnone => by
      rw [show rest.isEmpty = true from List.isEmpty_iff.mpr hnone] at hempty
      cases hempty
    exact ⟨rfl, .settled hs₁ (iff_of_false hstate hsome)⟩

/-- What is to be shown is shown, and in its place older notifications may go. -/
theorem performs_show (hp : Governs limit actor) (hs : Shows limit timers shown s) :
    actor.PerformsAll (n + 11) (actor.stage s₀ payload now)
      (notification.transitions.get ⟨0, by decide⟩).effects s
      (fun s' => Outcome limit timers { s' with state := "Visible" }) E := by
  have hctx := actor.acts_stage s₀ payload now
  have hfails {s : Scene} (hwild : ¬actor.calm) : E s := absurd hp.calm hwild
  obtain ⟨max, hmax, hlimit⟩ := reads_limit hp s₀ payload now
  obtain ⟨id, hid⟩ := Evaluator.plain_of_isPlain 2
    (e := Expr.call "+" ["@entity.currentId", 1]) (by decide +kernel) (n + 8)
    (actor.stage s₀ payload now) s.data
  let child := (actor.stage s₀ payload now).child [("id", id)]
  have hchild : actor.Acts child := hctx.child [("id", id)]
  obtain ⟨u, hu⟩ := Evaluator.Plain.leaf (n := n + 7) (e := "@id") rfl child s.data
  let s₁ : Scene := s.write [("currentId", u)]
  have htells : Tells shown s₁.data := by
    show (s.data.applyChanges [("currentId", u)]).get "notifications" = .array shown
    rw [Value.applyChanges_single]
    exact (s.data.get_put_of_ne _ (by decide)).trans hs.tells
  obtain ⟨v, hv⟩ := Evaluator.plain_of_isPlain 6 (e := entry) (by decide +kernel) n child s₁.data
  let items : List Value := Items.takeLast (shown ++ [v]) (Items.count max)
  have hitems : Reads (n + 8) child s₁.data (Expr.call "array/takeLast" [
      Expr.call "array/append" ["@entity.notifications", entry], "@config.maxVisible"])
      (.array items) :=
    reads_latest ((reads_shown rfl htells).append hv) (hlimit (n + 6) s₁.data id)
  obtain ⟨hsome, hroom⟩ := length_takeLast hmax hp.limit shown v
  have hcurrent : Effect.fieldPath "@entity.currentId" = "currentId" := rfl
  have hnotifications : Effect.fieldPath "@entity.notifications" = "notifications" := rfl
  refine .bindName hctx hid (.sequence ?_)
  refine .set hchild hcurrent (by decide) hu ?_ hfails
  refine .set hchild hnotifications (by decide) hitems ?_ hfails
  have hvisible : ("Visible" : Text) ≠ "Hidden" := by decide
  exact .settled ⟨hs.busy, hs.queue, hs.timers, tells_write s₁.data items, hroom⟩
    (iff_of_false hvisible (List.ne_nil_of_length_pos hsome))

/-- How a machine answers events while it shows what it should. -/
theorem answers (hp : Governs limit actor) (hs : Shows limit timers shown s)
    (hstate : s.state = "Hidden" ↔ shown = []) {event : Text} :
    actor.Answers (n + 11) s event payload now (Outcome limit timers) E := by
  refine Actor.answers_of_plain hp.definition rfl (fun _ => .settled hs hstate)
    fun t ht hsuits _ => ?_
  obtain ⟨-, hsources⟩ := hsuits
  simp only [notification, List.mem_cons, List.not_mem_nil, or_false] at ht
  rcases ht with rfl | rfl | rfl
  · exact performs_show hp hs
  · have hvisible : s.state = "Visible" :=
      List.mem_singleton.mp (List.contains_iff_mem.mp hsources)
    have hstays : s.state ≠ "Hidden" := by
      rw [hvisible]
      decide
    refine (performs_prune (n := n + 6) (E := E) hp hs hstays inert_meant
      fun item => reads_meant actor s payload now item).mono (fun s' hs' => ?_) fun _ _ => id
    obtain ⟨hsame, houtcome⟩ := hs'
    show Outcome limit timers { s' with state := s.state }
    rw [← hsame]
    exact houtcome
  · refine .set (actor.acts_stage s payload now) rfl (by decide) (.literal rfl rfl) ?_
      fun hwild => absurd hp.calm hwild
    exact .settled ⟨hs.busy, hs.queue, hs.timers, tells_write s.data [], Nat.zero_le _⟩
      (iff_of_true rfl rfl)

/-- The event that waits has the machine hide. -/
theorem answers_hide (hp : Governs limit actor) (hbusy : s.busy = true) (hqueue : s.queue = [])
    (htimers : s.timers = timers) :
    actor.Answers (n + 11) s "HIDE" payload now
      (fun s' => Shows limit timers [] s' ∧ s'.state = "Hidden") E := by
  refine Actor.answers_of_plain hp.definition rfl (fun hdenied => ?_) fun t ht hsuits _ => ?_
  · exact absurd rfl (Actor.ne_of_denied hdenied
      (List.get_mem notification.transitions ⟨2, by decide⟩) rfl rfl)
  · obtain ⟨hevent, -⟩ := hsuits
    simp only [notification, List.mem_cons, List.not_mem_nil, or_false] at ht
    rcases ht with rfl | rfl | rfl
    · exact absurd hevent (by decide)
    · exact absurd hevent (by decide)
    · refine .set (actor.acts_stage s payload now) rfl (by decide) (.literal rfl rfl) ?_
        fun hwild => absurd hp.calm hwild
      exact ⟨⟨hbusy, hqueue, htimers, tells_write s.data [], Nat.zero_le _⟩, rfl⟩

/-- A tick lets those notifications go whose time is over. -/
theorem beats (hp : Governs limit actor) (hs : Shows limit timers shown s)
    (hstate : s.state = "Hidden" ↔ shown = []) :
    actor.Beats (n + 11) s (notification.ticks.get ⟨0, by decide⟩) now (Outcome limit timers) E := by
  refine ⟨⟨shown.any (expired now), .bool (shown.any (expired now)), rfl, ?_⟩, .settled hs hstate,
    fun happlies _ => ?_⟩
  · exact Actor.Does.someItem (n := n + 9) rfl inert_lapsed (reads_shown rfl hs.tells)
      fun item => reads_lapsed (n := n + 7) actor s now {} item
  · have hvisible : s.state = "Visible" :=
      List.mem_singleton.mp (List.contains_iff_mem.mp happlies)
    have hstays : s.state ≠ "Hidden" := by
      rw [hvisible]
      decide
    exact (performs_prune (n := n + 6) hp hs hstays inert_lapsed
      fun item => reads_lapsed actor s now actor.handlers item).mono (fun _ hs' => hs'.2) fun _ _ => id

section endures

variable (hp : Governs limit actor)

include hp

/-- By the time the queue is empty, the state has followed the last notification. -/
theorem settles (hs : Outcome limit timers s) :
    actor.Settles (n + 11) (fun _ => Fits limit) timers actor.services.maxQueued s := by
  have hfits {shown : List Value} {s' : Scene} (hs' : Shows limit timers shown s')
      (hstate : s'.state = "Hidden" ↔ shown = []) :
      actor.Rests (fun _ => Fits limit) s'.rest ∧ s'.rest.timers = timers :=
    ⟨⟨rfl, rfl, shown, hs'.tells, hs'.room, hstate⟩, hs'.timers⟩
  cases hs with
  | settled shows state => exact Actor.drains_nil shows.queue (hfits shows state) _
  | @clears payload busy queue same tells =>
    obtain ⟨left, hleft⟩ := Nat.exists_eq_succ_of_ne_zero (Nat.one_le_iff_ne_zero.mp hp.queues)
    rw [hleft]
    unfold Actor.Settles Actor.Drains
    rw [queue]
    intro now
    refine (answers_hide (E := fun _ => True) (s := { s with queue := [] }) hp busy rfl same).mono
      (fun s' hs' => ?_) fun hwild => absurd hp.calm hwild
    exact Actor.drains_nil hs'.1.queue (hfits hs'.1 (iff_of_true hs'.2 rfl)) left

theorem endures : actor.Endures (n + 11) fun _ => Fits limit := by
  refine Actor.endures_of_settles hp.calm (fun s event payload now hs => ?_) fun s now hs => ?_
  · obtain ⟨-, hqueue, shown, htells, hroom, hstate⟩ := hs
    have hshows : Shows limit s.timers shown { s with busy := true } :=
      ⟨rfl, hqueue, rfl, htells, hroom⟩
    exact (answers hp hshows hstate).mono (fun s' hs' => settles hp hs') fun _ _ => id
  · obtain ⟨-, hqueue, shown, htells, hroom, hstate⟩ := hs
    have hshows : Shows limit s.timers shown { s with busy := true } :=
      ⟨rfl, hqueue, rfl, htells, hroom⟩
    rw [hp.definition, Machine.tickOrder_single rfl]
    exact (beats hp hshows hstate).mono (fun s' hs' => settles hp hs') fun _ _ => id

end endures

end effects

section hosts

variable {limit : Nat} {start h h₁ : Host}

/-- A machine of a host is visible exactly when it has something to show, and there is room for all
that it shows. -/
def Displays (limit a : Nat) (h : Host) : Prop :=
  ∃ state data, h.state? a = some state ∧ h.data? a = some data ∧ Fits limit state data

/-- Whatever has been done to a host before a machine for notifications is created, and whatever is
done to it afterwards: as long as the machine stays and no handler fails, it is visible exactly when
it has something to show. -/
theorem visible_throughout (fuel : Nat) (hnew : start.New) (before : List Host.Move)
    (hreached : start.run (Evaluator.withFuel Library.standard (fuel + 11)) before = h)
    (hcalm : h.world.Calm) (hqueues : 1 ≤ h.services.maxQueued) {definition a : Nat}
    {given seed : Value} {config : Table Value}
    (hd : h.definitions.lookup definition = some notification)
    (hconfig : notification.configure given = .ok config)
    (hlimit : ((Value.map config).get "maxVisible").IsWhole limit) (hone : 1 ≤ limit)
    (hseed : ∀ entry ∈ seed.entries, entry.1 ≠ "notifications")
    (hcreate : Host.create (Evaluator.withFuel Library.standard (fuel + 11)) definition given seed h
      = .ok a h₁) (moves : List Host.Move) (hmoves : ∀ move ∈ moves, move.Spares a) :
    Displays limit a (h₁.run (Evaluator.withFuel Library.standard (fuel + 11)) moves) := by
  have horderly : h.Orderly := hreached ▸ hnew.orderly.run (n := fuel + 11) before
  have hdefault : (Value.map (Machine.initialData notification seed)).get "notifications"
      = (Value.map notification.defaultData).get "notifications" :=
    congrArg (·.getD .undefined) (Table.find?_overlay_of_ne hseed notification.defaultData)
  have hfits : Fits limit notification.initial (.map (Machine.initialData notification seed)) :=
    ⟨[], hdefault, Nat.zero_le _, iff_of_true rfl rfl⟩
  obtain ⟨config', store, now, hconfig', hharbors⟩ := horderly.harbors (P := fun _ => Fits limit)
    hcalm hd rfl hfits hcreate
  obtain rfl : config = config' := Except.ok.inj (hconfig.symm.trans hconfig')
  obtain ⟨⟨s, hrests, hw⟩, -, -, -⟩ := hharbors.run (n := fuel + 11) (fun services hsame =>
    endures (n := fuel) ⟨rfl, ⟨.map config, rfl, hlimit⟩, hone, hsame ▸ hqueues, trivial⟩) hmoves
  exact ⟨s.state, s.data, Host.state?_of_stands hw, Host.data?_of_stands hw, hrests.property⟩

/-- A host that knows notifications. -/
def board : Host := { definitions := [(1, notification)] }

def message (text : Text) : Host.Move := .dispatch 1 "SHOW" (.map [("message", .string text)])

/-- Three notifications where there is room for two, one of which goes, and then the other one. -/
theorem visible_shortly : ∃ h₁, Host.create (Evaluator.withFuel Library.standard 11) 1
      (.map [("maxVisible", 2)]) (.map []) board = .ok 1 h₁ ∧
    Displays 2 1 (h₁.run (Evaluator.withFuel Library.standard 11)
      [message "a", message "b", message "c", .dispatch 1 "DISMISS" (.map [("id", 2)]),
        .setClock 5000, .runDueTicks 5000]) := by
  have hconfig : notification.configure (.map [("maxVisible", 2)])
      = .ok (notification.configDefaults.overlay [("maxVisible", 2)]) := rfl
  have hlimit : ((Value.map (notification.configDefaults.overlay [("maxVisible", 2)])).get
      "maxVisible").IsWhole (2 : ℕ) :=
    ⟨Float.ofNat 2, rfl, by rw [Double.toRat?_ofNat (by decide), Int.cast_natCast]⟩
  obtain ⟨log, hcreate⟩ := Host.create_of_configure (Evaluator.withFuel Library.standard 11) board 1
    (.map [("maxVisible", 2)]) (.map []) rfl hconfig rfl
  refine ⟨_, hcreate, visible_throughout 0 ⟨rfl, rfl, rfl⟩ [] rfl (fun _ => ⟨_, rfl⟩) (by decide) rfl
    hconfig hlimit (by decide) (fun _ hentry => absurd hentry List.not_mem_nil) hcreate _ ?_⟩
  simp only [List.forall_mem_cons, List.not_mem_nil, false_implies, implies_true, and_true]
  exact ⟨trivial, trivial, trivial, trivial, trivial, trivial⟩

end hosts

end Notification
end Catalogue
end EntityMachines
