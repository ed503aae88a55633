import EntityMachines.Catalogue
import EntityMachines.Proofs.Host.Moves
import EntityMachines.Proofs.Machine.Indicators

/-!
Search boxes. A box that searches says so in its data, until it is initialized again in the middle
of a search: then its flag goes down while its state stays. What ends a search is a timer, and all
boxes of a host share one name for it.
-/
namespace EntityMachines
namespace Catalogue
namespace Search

variable {actor : Actor} {n : Nat} {s s' : Scene} {event : Text} {payload : Value} {now : Int}

/-- The timer that is to end the search of a box. -/
def completion (actor : Actor) : Timer DelayedEmit := ⟨⟨"SEARCH_COMPLETE", actor.handlers⟩, none⟩

/-- What an event comes to. -/
inductive Outcome (actor : Actor) (s : Scene) (event : Text) (s' : Scene) : Prop
  /-- The box stays as it is, but perhaps for its term. -/
  | stays (state : s'.state = s.state)
      (flag : s'.data.get "isSearching" = s.data.get "isSearching") (timers : s'.timers = s.timers)
      (moot : event ≠ "INIT" ∧
        (s.state = "Searching" → event ≠ "SEARCH" ∧ event ≠ "SEARCH_COMPLETE"))
  /-- A box that searches or not is initialized and stays in its state. -/
  | reset (event : event = "INIT") (state : s'.state = s.state)
      (flag : s'.data.get "isSearching" = .bool false) (timers : s'.timers = s.timers)
  | begins (event : event = "SEARCH") (state : s'.state = "Searching")
      (flag : s'.data.get "isSearching" = .bool true)
      (timers : s'.timers = s.timers.insert "SEARCH_COMPLETE" (completion actor))
  | goesOn (event : event = "SEARCH") (before : s.state = "Searching") (state : s'.state = s.state)
      (flag : s'.data.get "isSearching" = s.data.get "isSearching")
      (timers : s'.timers = s.timers.insert "SEARCH_COMPLETE" (completion actor))
  | ends (event : event = "SEARCH_COMPLETE" ∨ event = "CLEAR_SEARCH") (state : s'.state = "Idle")
      (flag : s'.data.get "isSearching" = .bool false) (timers : s'.timers = s.timers)

/-- What comes before the flag leaves the flag alone, and the timers, also where it fails. -/
theorem performs_beside (hbusy : s.busy = true) {e : Value} {rest : List Value} {Q : Scene → Prop}
    (he : Expr.spares "isSearching" true 4 e = true)
    (hrest : ∀ s₁, s.Spared "isSearching" true s₁ →
      actor.PerformsAll (n + 4) (actor.stage s payload now) rest s₁ Q
        fun s' => s'.state = s.state ∧ s'.timers = s.timers) :
    actor.PerformsAll (n + 4) (actor.stage s payload now) (e :: rest) s Q
      fun s' => s'.state = s.state ∧ s'.timers = s.timers := by
  refine Actor.PerformsAll.append [e] _ ?_
  exact Expr.performsAll_of_spares _ _ _ (by simpa using he) (actor.acts_stage s payload now) hbusy n
    hrest fun s' hs' => ⟨hs'.state, hs'.timers⟩

/-- The timer is armed as a box searches. -/
theorem performs_arm {s₁ : Scene} {Q E : Scene → Prop} (htimers : s₁.timers = s.timers)
    (hQ : (s₁.arm "SEARCH_COMPLETE" actor.handlers).timers
        = s.timers.insert "SEARCH_COMPLETE" (completion actor) →
      Q (s₁.arm "SEARCH_COMPLETE" actor.handlers)) :
    actor.PerformsAll (n + 4) (actor.stage s payload now)
      [Expr.call "async/debounce" ["SEARCH_COMPLETE", "@config.debounceMs"]] s₁ Q E := by
  refine .debounce (actor.acts_stage s payload now) (.literal rfl rfl) (.leaf rfl) (hQ ?_)
  rw [← htimers]
  rfl

theorem answers (hd : actor.machine.definition = search) (hbusy : s.busy = true)
    (hqueue : s.queue = []) :
    actor.Answers (n + 4) s event payload now (fun s' => s'.queue = [] ∧ Outcome actor s event s')
      (fun s' => s'.state = s.state ∧ s'.timers = s.timers) := by
  have hctx := actor.acts_stage s payload now
  refine Actor.answers_of_plain hd (by decide +kernel)
    (fun hdenied => ⟨hqueue, .stays rfl rfl rfl ?_⟩) fun t ht hsuits _ => ?_
  · have hfree (t : Transition) (ht : t ∈ search.transitions) (hsuits : t.Suits event s.state) :
        t.guard ≠ none := (hdenied t ht hsuits).guarded
    refine ⟨Actor.ne_of_denied hdenied (List.get_mem search.transitions ⟨0, by decide⟩) rfl rfl,
      fun hstate => ⟨?_, ?_⟩⟩
    · rintro rfl
      exact hfree (search.transitions.get ⟨3, by decide⟩) (List.get_mem _ _)
        ⟨rfl, by rw [hstate]; decide⟩ rfl
    · rintro rfl
      exact hfree (search.transitions.get ⟨4, by decide⟩) (List.get_mem _ _)
        ⟨rfl, by rw [hstate]; decide⟩ rfl
  · obtain ⟨rfl, hstate⟩ := hsuits
    simp only [search, List.mem_cons, List.not_mem_nil, or_false] at ht
    rcases ht with rfl | rfl | rfl | rfl | rfl | rfl
    · refine performs_beside hbusy (by decide +kernel) fun s₁ hs₁ => ?_
      refine Expr.performs_of_flags "isSearching" false
        (by decide +kernel) hctx (fun data hdata => ?_) fun _ _ => ⟨hs₁.state, hs₁.timers⟩
      refine Expr.performsAll_of_spares "isSearching" true 4
        (by decide +kernel) hctx (s := { s₁ with data }) (hs₁.busy.trans hbusy) n
        (fun s' hs' => ?_) fun s' hs' => ⟨hs'.state.trans hs₁.state, hs'.timers.trans hs₁.timers⟩
      exact ⟨(hs'.queue rfl).trans ((hs₁.queue rfl).trans hqueue),
        .reset rfl rfl (hs'.data.trans hdata) (hs'.timers.trans hs₁.timers)⟩
    · refine performs_beside hbusy (by decide +kernel) fun s₁ hs₁ => ?_
      refine Expr.performs_of_flags "isSearching" true
        (by decide +kernel) hctx (fun data hdata => ?_) fun _ _ => ⟨hs₁.state, hs₁.timers⟩
      exact performs_arm hs₁.timers fun harmed =>
        ⟨(hs₁.queue rfl).trans hqueue, .begins rfl rfl hdata harmed⟩
    · refine performs_beside hbusy (by decide +kernel) fun s₁ hs₁ => ?_
      refine ⟨(hs₁.queue rfl).trans hqueue,
        .stays rfl hs₁.data hs₁.timers ⟨by decide, fun hsearching => ?_⟩⟩
      rw [hsearching] at hstate
      exact absurd hstate (by decide)
    · refine performs_beside hbusy (by decide +kernel) fun s₁ hs₁ => ?_
      have hsearching : s.state = "Searching" :=
        List.mem_singleton.mp (List.contains_iff_mem.mp hstate)
      exact performs_arm hs₁.timers fun harmed =>
        ⟨(hs₁.queue rfl).trans hqueue, .goesOn rfl hsearching rfl hs₁.data harmed⟩
    · refine Expr.performs_of_flags "isSearching" false
        (by decide +kernel) hctx (fun data hdata => ?_) fun _ _ => ⟨rfl, rfl⟩
      exact ⟨hqueue, .ends (.inl rfl) rfl hdata rfl⟩
    · refine performs_beside hbusy (by decide +kernel) fun s₁ hs₁ => ?_
      refine Expr.performs_of_flags "isSearching" false
        (by decide +kernel) hctx (fun data hdata => ?_) fun _ _ => ⟨hs₁.state, hs₁.timers⟩
      exact ⟨(hs₁.queue rfl).trans hqueue, .ends (.inr rfl) rfl hdata hs₁.timers⟩

/-- A dispatch comes to what its event comes to, as nothing is queued by it. -/
theorem dispatches (hd : actor.machine.definition = search) (hqueue : s.queue = []) (event : Text)
    (payload : Value) :
    actor.Does (Machine.dispatch (Evaluator.withFuel Library.standard (n + 4)) actor.services
      actor.handle event payload) s
      (fun _ s' => s'.busy = false ∧ s'.queue = [] ∧ Outcome actor s event s')
      (fun s' => s'.busy = false ∧ s'.queue = [] ∧ s'.state = s.state ∧ s'.timers = s.timers) := by
  refine Actor.Does.dispatch fun now => ?_
  refine (answers (s := { s with busy := true }) hd rfl hqueue).mono
    (fun s' hs' => Actor.drains_nil hs'.1 ⟨rfl, rfl, ?_⟩ _) fun _ s' hs' => ⟨rfl, rfl, hs'⟩
  cases hs'.2 with
  | stays state flag timers moot => exact .stays state flag timers moot
  | reset event state flag timers => exact .reset event state flag timers
  | begins event state flag timers => exact .begins event state flag timers
  | goesOn event before state flag timers => exact .goesOn event before state flag timers
  | ends event state flag timers => exact .ends event state flag timers

/-- The flag of a box agrees with its state. -/
def Marks (state : Text) (data : Value) : Prop :=
  data.get "isSearching" = .bool true ↔ state = "Searching"

/-- Only to initialize a box that searches parts its flag from its state. -/
theorem Outcome.marks_iff (h : Outcome actor s event s') (hs : Marks s.state s.data) :
    Marks s'.state s'.data ↔ ¬(event = "INIT" ∧ s.state = "Searching") := by
  have hother {e : Text} (hevent : event = e) (hne : e ≠ "INIT") :
      ¬(event = "INIT" ∧ s.state = "Searching") := fun hinit =>
    hne (hevent.symm.trans hinit.1)
  unfold Marks at hs ⊢
  cases h with
  | stays state flag timers moot =>
    rw [state, flag]
    exact iff_of_true hs fun hinit => moot.1 hinit.1
  | reset event state flag timers =>
    rw [state, flag]
    simp [event]
  | begins event state flag timers =>
    rw [state, flag]
    exact iff_of_true (by simp) (hother event (by decide))
  | goesOn event before state flag timers =>
    rw [state, flag]
    exact iff_of_true hs (hother event (by decide))
  | ends event state flag timers =>
    rw [state, flag]
    refine iff_of_true (by simp; decide) ?_
    exact event.elim (hother · (by decide)) (hother · (by decide))

/-- The box under a handle searches. -/
def Searches (h : Host) (a : Nat) : Prop := h.state? a = some ("Searching" : Text)

instance (h : Host) (a : Nat) : Decidable (Searches h a) := inferInstanceAs (Decidable (_ = _))

section single

/-- The data of a box that is there tell whether it searches. -/
def Agrees (a : Nat) (h : Host) : Prop :=
  ∃ state data, h.state? a = some state ∧ h.data? a = some data ∧ Marks state data

variable {h h₁ : Host}

theorem agrees_iff (hw : actor.Stands s h.world) :
    Agrees actor.handle h ↔ Marks s.state s.data := by
  constructor
  · rintro ⟨state, data, hstate, hdata, hmarks⟩
    cases hstate.symm.trans (Host.state?_of_stands hw)
    cases hdata.symm.trans (Host.data?_of_stands hw)
    exact hmarks
  · exact fun hmarks => ⟨_, _, Host.state?_of_stands hw, Host.data?_of_stands hw, hmarks⟩

theorem searches_iff (hw : actor.Stands s h.world) :
    Searches h actor.handle ↔ s.state = "Searching" := by
  unfold Searches
  rw [Host.state?_of_stands hw, Option.some.injEq]

/-- The flag of a box tells whether it searches, however the box is configured and whatever it is
sent, exactly if it is never initialized in the middle of a search. -/
theorem flag_agrees_iff (fuel : Nat) {definition a : Nat} {given seed : Value}
    (hd : h.definitions.lookup definition = some search)
    (hseed : ∀ entry ∈ seed.entries, entry.1 ≠ "isSearching") (hcalm : h.world.Calm)
    (hcreate : Host.create (Evaluator.withFuel Library.standard (fuel + 4)) definition given seed h
      = .ok a h₁) (os : List Occurrence) :
    (∀ before, before <+: os → Agrees a
        (h₁.dispatched (Evaluator.withFuel Library.standard (fuel + 4)) a before)) ↔
      ∀ before (o : Occurrence), before ++ [o] <+: os → ¬(o.event = "INIT" ∧
        Searches (h₁.dispatched (Evaluator.withFuel Library.standard (fuel + 4)) a before) a) := by
  obtain ⟨config, store, now, -, hstands⟩ := Host.create_stands hd rfl hcreate
  let actor : Actor := ⟨Machine.fresh a search (.map config) store now, h₁.services, True⟩
  have hflag : (Value.map (Machine.initialData search seed)).get "isSearching" = .bool false :=
    congrArg (·.getD .undefined) (Table.find?_overlay_of_ne hseed search.defaultData)
  refine Host.throughout_iff (O := fun h o => o.event = "INIT" ∧ Searches h a)
    (R := fun h => ∃ s, actor.Stands s h.world ∧ s.queue = [] ∧ actor.services = h.services)
    ?_ ⟨_, hstands True fun _ => hcalm, rfl, rfl⟩ ?_
  · rintro h o - ⟨s, hw, hqueue, hservices⟩ hagrees
    have hanswered : actor.Does (Machine.dispatch (Evaluator.withFuel Library.standard (fuel + 4))
        actor.services actor.handle o.event o.payload) s
        (fun _ s' => s'.queue = [] ∧ Outcome actor s o.event s')
        (fun s' => s'.queue = [] ∧ Outcome actor s o.event s') :=
      (dispatches rfl hqueue o.event o.payload).mono (fun _ s' hs' => hs'.2)
        fun hwild => absurd trivial hwild
    obtain ⟨s', hw', ⟨hqueue', houtcome⟩, hservices'⟩ := Host.dispatch_stands hservices hw hanswered
    refine ⟨⟨s', hw', hqueue', hservices'⟩, (agrees_iff hw').trans ?_⟩
    have hsearches : Searches h a ↔ s.state = "Searching" := searches_iff hw
    rw [hsearches]
    exact houtcome.marks_iff ((agrees_iff hw).mp hagrees)
  · have hw : actor.Stands _ h₁.world := hstands True fun _ => hcalm
    refine (agrees_iff hw).mpr ?_
    unfold Marks
    rw [hflag]
    exact iff_of_false (by simp) (show search.initial ≠ "Searching" by decide)

/-- A host that knows search boxes. -/
def desk : Host := { definitions := [(1, search)] }

/-- A term is typed into a box. -/
def typed (term : Text) : Occurrence := ⟨"SEARCH", .map [("term", .string term)]⟩

theorem flag_agrees_typed : ∃ h₁, Host.create (Evaluator.withFuel Library.standard 4) 1 (.map [])
      (.map []) desk = .ok 1 h₁ ∧ ∀ before, before <+: [typed "ab"] → Agrees 1
        (h₁.dispatched (Evaluator.withFuel Library.standard 4) 1 before) := by
  obtain ⟨log, hcreate⟩ := Host.create_of_configure (Evaluator.withFuel Library.standard 4) desk 1
    (.map []) (.map []) rfl rfl rfl
  refine ⟨_, hcreate, (flag_agrees_iff 0 rfl (fun _ hentry => absurd hentry List.not_mem_nil)
    (fun _ => ⟨_, rfl⟩) hcreate [typed "ab"]).mpr ?_⟩
  rintro before o hprefix ⟨hinit, -⟩
  have hmem : o ∈ [typed "ab"] := hprefix.subset (by simp)
  rw [List.mem_singleton.mp hmem] at hinit
  exact absurd hinit (by decide)

/-- A box that is initialized in the middle of a search, on a host of its own. -/
def interrupted : Host :=
  (desk.moved (Evaluator.withFuel Library.standard 4) (.create 1 (.map []) (.map []))).dispatched
    (Evaluator.withFuel Library.standard 4) 1 [typed "ab", ⟨"INIT", .map []⟩]

theorem interrupted_disagrees : Searches interrupted 1 ∧
    (interrupted.data? 1).all (fun data => !(data.get "isSearching").isTruthy) = true ∧
    ¬Agrees 1 interrupted := by
  have hparted : Searches interrupted 1 ∧
      (interrupted.data? 1).all (fun data => !(data.get "isSearching").isTruthy) = true := by
    decide +kernel
  obtain ⟨hsearching, hflag⟩ := hparted
  refine ⟨hsearching, hflag, ?_⟩
  rintro ⟨state, data, hstate, hdata, hmarks⟩
  have htrue := hmarks.mpr (Option.some.inj (hstate.symm.trans hsearching))
  rw [hdata, Option.all_some, htrue] at hflag
  cases hflag

end single

section several

/-! Any number of boxes on a host, with other machines around them. -/

/-- Under a handle there is a box, if there is anything. -/
def IsBox (h : Host) (a : Nat) : Prop := ∀ m, h.world.machine? a = some m → m.definition = search

/-- No timer waits. -/
def Settled (h : Host) : Prop := h.world.timing.timers = []

instance (h : Host) : Decidable (Settled h) := decidable_of_iff _ List.isEmpty_iff

/-- A move that has to do with boxes only, or with the surrounding program. -/
def Concerns (start : Host) : Host.Move → Prop
  | .create definition _ _ => start.definitions.lookup definition = some search
  | .dispatch a _ _ => IsBox start a
  | .runDueTicks _ => False
  | .destroy _ | .install _ _ _ | .setClock _ | .reply _ | .expire _ => True

/-- The box that holds the timer behind a move: the one that was the last to search or to go on
searching, until the timer acts. -/
def holder (ev : Evaluator) (h : Host) (last : Option Nat) : Host.Move → Option Nat
  | .dispatch a event payload =>
    match h.dispatch ev a event payload with
    | .ok _ h' => if event = "SEARCH" ∧ Searches h' a then some a else last
    | .error _ _ => last
  | .expire _ => none
  | .create _ _ _ | .destroy _ | .runDueTicks _ | .install _ _ _ | .setClock _ | .reply _ => last

/-- The box that holds the timer behind some moves. -/
def lastHolder (ev : Evaluator) (h : Host) (last : Option Nat) : List Host.Move → Option Nat
  | [] => last
  | move :: rest => lastHolder ev (h.moved ev move) (holder ev h last move) rest

/-- What waits is the timer of the box that holds it. -/
inductive Waits : Option Nat → Table (Timer DelayedEmit) → Prop
  | nothing : Waits none []
  | timer {a services handlers} (hemit : handlers.emit = some (.machine a services)) :
    Waits (some a) [("SEARCH_COMPLETE", ⟨⟨"SEARCH_COMPLETE", handlers⟩, none⟩)]

/-- A host that has come to where it is by moves that concern boxes only. -/
structure Serves (start h : Host) (last : Option Nat) : Prop where
  definitions : h.definitions = start.definitions
  populated : h.world.Populated fun _ _ _ => True
  boxes : ∀ a, IsBox start a → IsBox h a
  waits : Waits last h.world.timing.timers
  holds : ∀ a, last = some a → IsBox start a

variable {h start : Host} {last : Option Nat}

theorem Waits.eq_nil {timers : Table (Timer DelayedEmit)} (h : Waits none timers) :
    timers = [] := by
  cases h
  rfl

/-- A box that arms the timer holds it, whoever held it before. -/
theorem Waits.insert {timers : Table (Timer DelayedEmit)} (h : Waits last timers) :
    Waits (some actor.handle) (timers.insert "SEARCH_COMPLETE" (completion actor)) := by
  cases h with
  | nothing => exact .timer rfl
  | timer => exact .timer rfl

theorem Outcome.timers_eq (h : Outcome actor s event s') : s'.timers =
    if event = "SEARCH" ∧ s'.state = "Searching"
    then s.timers.insert "SEARCH_COMPLETE" (completion actor) else s.timers := by
  cases h with
  | stays state flag timers moot =>
    rw [if_neg fun hsearch => (moot.2 (state.symm.trans hsearch.2)).1 hsearch.1, timers]
  | reset event state flag timers =>
    rw [if_neg fun hsearch => absurd (event.symm.trans hsearch.1) (by decide), timers]
  | begins event state flag timers => rw [if_pos ⟨event, state⟩, timers]
  | goesOn event before state flag timers => rw [if_pos ⟨event, state.trans before⟩, timers]
  | ends event state flag timers =>
    rw [if_neg fun hsearch => absurd (state.symm.trans hsearch.2) (by decide), timers]

/-- When the timer acts, its box does not search any longer. -/
theorem Outcome.completed (h : Outcome actor s "SEARCH_COMPLETE" s') :
    s'.state ≠ "Searching" := by
  cases h with
  | stays state flag timers moot =>
    exact fun hstate => (moot.2 (state.symm.trans hstate)).2 rfl
  | reset event | begins event | goesOn event => exact absurd event (by decide)
  | ends event state => exact fun hstate => absurd (state.symm.trans hstate) (by decide)

/-- A box has acted in the host and is at rest. -/
theorem Serves.later {last' : Option Nat} {w : World} {m : Instance} (hh : Serves start h last)
    (hm : h.world.machine? actor.handle = some m) (hactor : actor.machine = m)
    (hstands : actor.Stands s w) (helsewhere : actor.Elsewhere h.world w)
    (hrests : s.busy = false ∧ s.queue = []) (hwaits : Waits last' s.timers)
    (hholds : ∀ a, last' = some a → IsBox start a) :
    Serves start { h with world := w } last' where
  definitions := hh.definitions
  populated := hh.populated.later hm (hactor ▸ rfl) hstands helsewhere
    ⟨hrests.1, hrests.2, trivial⟩
  boxes a ha m' hm' := by
    by_cases hself : a = actor.handle
    · subst hself
      obtain ⟨stats, lastRun, hcast⟩ := hstands.machine
      cases hm'.symm.trans hcast
      exact (congrArg Instance.definition hactor).trans (hh.boxes _ ha m hm)
    · exact hh.boxes a ha m' ((helsewhere.machines a hself).symm.trans hm')
  waits := by
    rw [hstands.timers]
    exact hwaits
  holds := hholds

variable {ev : Evaluator} {a : Nat}

theorem holder_of_ok {event : Text} {payload : Value} {d : Dispatched} {h' : Host}
    (hx : h.dispatch ev a event payload = .ok d h') :
    holder ev h last (.dispatch a event payload)
      = if event = "SEARCH" ∧ Searches h' a then some a else last := by
  simp only [holder, hx]

theorem holder_of_error {event : Text} {payload : Value} {fault : Fault} {h' : Host}
    (hx : h.dispatch ev a event payload = .error fault h') :
    holder ev h last (.dispatch a event payload) = last := by
  simp only [holder, hx]

theorem Serves.dispatch (hh : Serves start h last) (hbox : IsBox start a) (event : Text)
    (payload : Value) :
    Serves start (h.moved (Evaluator.withFuel Library.standard (n + 4)) (.dispatch a event payload))
      (holder (Evaluator.withFuel Library.standard (n + 4)) h last (.dispatch a event payload)) := by
  cases hm : h.world.machine? a with
  | none =>
    rw [Host.moved, Host.behind_dispatch_none _ _ _ _ hm,
      holder_of_error (Host.dispatch_none _ _ _ _ hm)]
    exact hh
  | some m =>
    obtain rfl : (Actor.mk m h.services False).handle = a := World.handle_of_machine? hm
    obtain ⟨data, -, hstands⟩ := hh.populated.stands hm h.services False False.elim
    have hends := dispatches (n := n) (hh.boxes _ hbox m hm) rfl event payload _ hstands
    have hdispatch := Host.dispatch_eq (Evaluator.withFuel Library.standard (n + 4)) _ event payload
      h hm
    rw [Host.moved]
    generalize hr : Machine.dispatch (Evaluator.withFuel Library.standard (n + 4)) h.services
      (Actor.mk m h.services False).handle event payload h.world = r at hends
    cases hends with
    | @done d s' w' stands elsewhere hs' =>
      obtain ⟨hbusy, hqueue, houtcome⟩ := hs'
      have hok := hdispatch.trans (Host.perform_ok hr)
      rw [Host.behind_ok hok, holder_of_ok hok]
      refine hh.later hm rfl stands elsewhere ⟨hbusy, hqueue⟩ ?_ fun b hb => ?_
      · simp only [searches_iff (h := { h with world := w' }) stands, houtcome.timers_eq]
        split
        · exact hh.waits.insert
        · exact hh.waits
      · split at hb
        · exact Option.some.inj hb ▸ hbox
        · exact hh.holds b hb
    | @failed e s' w' wild stands elsewhere hs' =>
      obtain ⟨hbusy, hqueue, -, htimers⟩ := hs'
      have hfails := hdispatch.trans (Host.perform_error hr)
      rw [Host.behind_error hfails, holder_of_error hfails]
      exact hh.later hm rfl stands elsewhere ⟨hbusy, hqueue⟩ (htimers ▸ hh.waits) hh.holds

theorem Serves.create (hh : Serves start h last) {definition : Nat}
    (hbox : start.definitions.lookup definition = some search) (given seed : Value) :
    Serves start (h.moved ev (.create definition given seed)) last := by
  have hsearch : h.definitions.lookup definition = some search := hh.definitions ▸ hbox
  rw [Host.moved]
  rcases Host.create_joins ev definition given seed h
      (fun d hd => Option.some.inj (hsearch.symm.trans hd) ▸ rfl) with
    ⟨fault, hrefused⟩ | ⟨d, config, log, hd, -, hcreated⟩
  · rw [Host.behind_error hrefused]
    exact hh
  · rw [Host.behind_ok hcreated]
    refine ⟨hh.definitions, hh.populated.create ⟨rfl, rfl⟩ rfl trivial rfl rfl, ?_, hh.waits,
      hh.holds⟩
    intro a ha m hm
    rw [Host.machine?_joined] at hm
    split at hm
    · cases hm
      exact Option.some.inj (hd.symm.trans hsearch)
    · exact hh.boxes a ha m hm

theorem Serves.destroy (hh : Serves start h last) (handle : Nat) :
    Serves start (h.moved ev (.destroy handle)) last := by
  rw [Host.moved]
  rcases Host.behind_destroy handle h with hsame | hgone
  · rw [hsame]
    exact hh
  · rw [hgone]
    refine ⟨hh.definitions, hh.populated.destroy rfl rfl, fun a ha m hm => ?_, hh.waits, hh.holds⟩
    rw [World.machine?_filter rfl] at hm
    split at hm
    · cases hm
    · exact hh.boxes a ha m hm

/-- A host in another world in which nothing waits and the machines are the same. -/
theorem Serves.quiet {w : World} (hh : Serves start h last) (hmachines : w.machines = h.world.machines)
    (hstores : w.stores = h.world.stores) (htimers : w.timing.timers = []) :
    Serves start { h with world := w } none where
  definitions := hh.definitions
  populated := hh.populated.congr hmachines hstores
  boxes a ha m hm := hh.boxes a ha m ((World.machine?_congr hmachines a).symm.trans hm)
  waits := by
    rw [htimers]
    exact .nothing
  holds _ := nofun

theorem searches_congr {w : World} (h : Host) (hw : w.machine? a = h.world.machine? a) :
    Searches { h with world := w } a ↔ Searches h a := by
  unfold Searches Host.state?
  rw [hw]

/-- What the timer emits completes the search of a box, unless that fails. -/
theorem completes (hd : actor.machine.definition = search) (hidle : s.busy = false)
    (hqueue : s.queue = []) (htimers : s.timers = []) (payload : Value) {w : World}
    (hw : actor.Stands s w) :
    ∃ s', actor.Stands s' ((Machine.deliver (Evaluator.withFuel Library.standard (n + 4))
        actor.handle actor.services "SEARCH_COMPLETE" payload).after w) ∧
      actor.Elsewhere w ((Machine.deliver (Evaluator.withFuel Library.standard (n + 4))
        actor.handle actor.services "SEARCH_COMPLETE" payload).after w) ∧
      (s'.busy = false ∧ s'.queue = []) ∧ s'.timers = [] ∧
        (actor.calm → s'.state ≠ "Searching") := by
  refine (Actor.Does.deliver_idle hidle (fun hundeclared => ?_) (fun hwild => ?_)
    ((dispatches hd hqueue _ _).mono (fun _ s' hs' => ?_) fun hwild s' hs' => ?_) w hw).after
  · rw [hd] at hundeclared
    exact absurd hundeclared (by decide)
  · exact ⟨⟨hidle, hqueue⟩, htimers, fun hcalm => absurd hcalm hwild⟩
  · obtain ⟨hbusy', hqueue', houtcome⟩ := hs'
    refine ⟨⟨hbusy', hqueue'⟩, ?_, fun _ => houtcome.completed⟩
    rw [houtcome.timers_eq, if_neg fun hsearch => absurd hsearch.1 (by decide), htimers]
  · exact ⟨⟨hs'.1, hs'.2.1⟩, hs'.2.2.2.trans htimers, fun hcalm => absurd hcalm hwild⟩

/-- When the timer acts, the box that holds it completes its search, and no other box does. -/
theorem Serves.expire (hh : Serves start h last) (rounds : Nat) :
    Serves start (h.moved (Evaluator.withFuel Library.standard (n + 5)) (.expire rounds)) none ∧
      (h.world.Calm → ∀ b, Searches (h.moved (Evaluator.withFuel Library.standard (n + 5))
        (.expire rounds)) b ↔ Searches h b ∧ last ≠ some b) := by
  rw [Host.moved, Host.behind_perform]
  generalize htimers : h.world.timing.timers = timers
  have hwaits : Waits last timers := htimers ▸ hh.waits
  cases hwaits with
  | nothing =>
    rw [Eval.after_ok (Timers.settle_of_nil htimers rounds)]
    exact ⟨hh, fun _ b => by simp⟩
  | @timer a services handlers hemit =>
    let taken : World := { h.world with timing := h.world.timing.clearTimers }
    have hsend : Effect.emitLater (Evaluator.withFuel Library.standard (n + 5)) handlers
        "SEARCH_COMPLETE" = Machine.deliver (Evaluator.withFuel Library.standard (n + 4)) a services
          "SEARCH_COMPLETE" .undefined := by
      unfold Effect.emitLater
      rw [hemit]
      rfl
    have hunseen := fun hempty => Timers.settle_single
      (Evaluator.withFuel Library.standard (n + 5)) htimers hempty rounds
    rw [hsend] at hunseen
    generalize (Timers.settle (Evaluator.withFuel Library.standard (n + 5)) (rounds + 1)).after
      h.world = expired at hunseen
    cases hm : h.world.machine? a with
    | none =>
      have hgone : taken.machine? a = none := hm
      have hnobody : (Machine.deliver (Evaluator.withFuel Library.standard (n + 4)) a services
          "SEARCH_COMPLETE" .undefined).after taken = taken :=
        Eval.after_ok (Machine.withMachine_none hgone _ _)
      rw [hnobody] at hunseen
      have hsame : taken.Unseen expired := hunseen rfl
      refine ⟨hh.quiet hsame.machines hsame.stores hsame.timers, fun _ b => ?_⟩
      rw [searches_congr h (World.machine?_congr hsame.machines b), iff_self_and]
      rintro hsearches hb
      cases hb
      unfold Searches Host.state? at hsearches
      rw [hm] at hsearches
      cases hsearches
    | some m =>
      let actor : Actor := ⟨m, services, h.world.Calm⟩
      obtain rfl : actor.handle = a := World.handle_of_machine? hm
      have hpopulated : taken.Populated fun _ _ _ => True := hh.populated.congr rfl rfl
      obtain ⟨data, -, hstands⟩ := hpopulated.stands (w := taken) hm services h.world.Calm id
      have hd : actor.machine.definition = search := hh.boxes _ (hh.holds _ rfl) m hm
      obtain ⟨s', hw', helsewhere, hrests, hempty, hstate⟩ :=
        completes (n := n) hd rfl rfl rfl .undefined hstands
      have hsame := hunseen (hw'.timers.trans hempty)
      have hlast : actor.Stands s' expired := hw'.of_unseen hsame
      have htaken : actor.Elsewhere h.world taken :=
        ⟨rfl, fun _ _ => rfl, fun _ _ => rfl, rfl, .of_eq rfl⟩
      have hothers : actor.Elsewhere h.world expired :=
        htaken.trans (helsewhere.trans (.of_unseen hsame))
      have hnobody (b : Nat) (hb : none = some b) : IsBox start b := by
        cases hb
      refine ⟨hh.later hm rfl hlast hothers hrests (hempty ▸ .nothing) hnobody, fun hcalm b => ?_⟩
      by_cases hb : b = actor.handle
      · subst hb
        rw [searches_iff hlast]
        exact iff_of_false (hstate hcalm) fun hnot => hnot.2 rfl
      · rw [searches_congr h (hothers.machines b hb)]
        have hother : some actor.handle ≠ some b := fun h => hb (Option.some.inj h).symm
        exact (and_iff_left hother).symm

theorem Serves.moved {move : Host.Move} (hmove : Concerns start move) (hh : Serves start h last) :
    Serves start (h.moved (Evaluator.withFuel Library.standard (n + 5)) move)
      (holder (Evaluator.withFuel Library.standard (n + 5)) h last move) := by
  cases move with
  | create definition given seed => exact hh.create hmove given seed
  | destroy handle => exact hh.destroy handle
  | dispatch a event payload => exact hh.dispatch (n := n + 1) hmove event payload
  | runDueTicks now => exact hmove.elim
  | expire rounds => exact (hh.expire rounds).1
  | install outlets observer listens =>
    exact ⟨hh.definitions, hh.populated, hh.boxes, hh.waits, hh.holds⟩
  | setClock now | reply respond =>
    exact ⟨hh.definitions, hh.populated.congr rfl rfl, hh.boxes, hh.waits, hh.holds⟩

/-- By induction over the moves. -/
theorem Serves.run {moves : List Host.Move} (hmoves : ∀ move ∈ moves, Concerns start move)
    (hh : Serves start h last) :
    Serves start (h.run (Evaluator.withFuel Library.standard (n + 5)) moves)
      (lastHolder (Evaluator.withFuel Library.standard (n + 5)) h last moves) := by
  induction moves generalizing h last with
  | nil => exact hh
  | cons move rest ih =>
    rw [List.forall_mem_cons] at hmoves
    exact ih hmoves.2 (hh.moved hmoves.1)

/-- Whatever the boxes of a host have been sent, behind the expiry of all timers those search that
searched before, but for the box that held the timer. -/
theorem searches_after_expiry_iff (fuel rounds : Nat)
    (hidle : start.world.Populated fun _ _ _ => True) (htimers : start.world.timing.timers = [])
    {moves : List Host.Move} (hmoves : ∀ move ∈ moves, Concerns start move)
    (hcalm : (start.run (Evaluator.withFuel Library.standard (fuel + 5)) moves).world.Calm) :
    Settled ((start.run (Evaluator.withFuel Library.standard (fuel + 5)) moves).moved
        (Evaluator.withFuel Library.standard (fuel + 5)) (.expire rounds)) ∧
      ∀ a, Searches ((start.run (Evaluator.withFuel Library.standard (fuel + 5)) moves).moved
        (Evaluator.withFuel Library.standard (fuel + 5)) (.expire rounds)) a ↔
          Searches (start.run (Evaluator.withFuel Library.standard (fuel + 5)) moves) a ∧
            lastHolder (Evaluator.withFuel Library.standard (fuel + 5)) start none moves
              ≠ some a := by
  have hstart : Serves start start none :=
    ⟨rfl, hidle, fun _ => id, htimers ▸ .nothing, fun _ => nofun⟩
  obtain ⟨hexpired, hsearches⟩ := (hstart.run (n := fuel) hmoves).expire (n := fuel) rounds
  exact ⟨hexpired.waits.eq_nil, hsearches hcalm⟩

/-- Two boxes that search at the same time, and a surrounding program that does not fail. -/
def pair : List Host.Move :=
  [.create 1 (.map []) (.map []), .create 1 (.map []) (.map []),
    .dispatch 1 "SEARCH" (.map [("term", .string "ab")]),
    .dispatch 2 "SEARCH" (.map [("term", .string "cd")])] ++ [.reply fun _ => .ok .undefined]

/-- Behind the expiry of the timer that both boxes have armed. -/
def expired : Host :=
  (desk.run (Evaluator.withFuel Library.standard 5) pair).moved
    (Evaluator.withFuel Library.standard 5) (.expire 1)

theorem pair_expires : Settled expired ∧ Searches expired 1 ∧ ¬Searches expired 2 := by
  have hmoves : ∀ move ∈ pair, Concerns desk move := by
    simp only [pair, List.cons_append, List.nil_append, List.mem_cons, List.not_mem_nil, or_false,
      forall_eq_or_imp, forall_eq]
    exact ⟨rfl, rfl, nofun, nofun, trivial⟩
  have hcalm : (desk.run (Evaluator.withFuel Library.standard (0 + 5)) pair).world.Calm := by
    unfold pair
    rw [Host.run_concat]
    exact fun _ => ⟨.undefined, rfl⟩
  obtain ⟨hsettled, hsearches⟩ := searches_after_expiry_iff 0 1 (.of_empty rfl) rfl hmoves hcalm
  have hpair : (Searches (desk.run (Evaluator.withFuel Library.standard (0 + 5)) pair) 1 ∧
      lastHolder (Evaluator.withFuel Library.standard (0 + 5)) desk none pair ≠ some 1) ∧
      lastHolder (Evaluator.withFuel Library.standard (0 + 5)) desk none pair = some 2 := by
    decide +kernel
  exact ⟨hsettled, (hsearches 1).mpr hpair.1, fun h => ((hsearches 2).mp h).2 hpair.2⟩

/-- The box that searched first is left searching, and no timer is left that could end that. -/
theorem first_of_pair_stuck : Settled expired ∧ Searches expired 1 := by
  decide +kernel

end several

end Search
end Catalogue
end EntityMachines
