import EntityMachines.Eval.Arguments

/-!
Computations that keep a relation between the world they start in and the world they leave,
whether they fail or not. What evaluation does to the world by itself is listed once, as the
fields of a frame; all that operators are put together from keeps a frame.
-/
namespace EntityMachines

/-- Throttling leaves the timers alone. -/
theorem Timing.throttle_timers {α : Type} (t : Timing α) (key : Text) (window : Int) :
    (t.throttle key window).2.timers = t.timers := by
  unfold throttle
  split
  · split <;> rfl
  · rfl

namespace Eval

variable {α β : Type}

/-- The world in which a computation ends. -/
def after (x : Eval α) (w : World) : World :=
  match x w with
  | .ok _ w' => w'
  | .error _ w' => w'

theorem after_congr {x y : Eval α} {w w' : World} (h : x w = y w') : after x w = after y w' := by
  unfold after
  rw [h]

theorem after_get_bind (f : World → Eval α) (w : World) :
    after (get >>= f) w = after (f w) w := rfl

theorem after_set_bind (f : Unit → Eval α) (w w' : World) :
    after (set w' >>= f) w = after (f ()) w' := rfl

section bind

/-! Of a bind nothing depends on what the state is. -/

variable {σ : Type} {x : EStateM Fault σ α} {f : α → EStateM Fault σ β} {w w' : σ} {fault : Fault}

theorem bind_of_ok {a : α} (h : x w = .ok a w') : (x >>= f) w = f a w' := by
  simp [bind, EStateM.bind, h]

theorem bind_of_error (h : x w = .error fault w') : (x >>= f) w = .error fault w' := by
  simp [bind, EStateM.bind, h]

theorem bind_ok {b : β} (h : (x >>= f) w = .ok b w') :
    ∃ a w₁, x w = .ok a w₁ ∧ f a w₁ = .ok b w' := by
  simp only [bind, EStateM.bind] at h
  cases hr : x w with
  | ok a w₁ =>
    rw [hr] at h
    exact ⟨a, w₁, rfl, h⟩
  | error fault w₁ =>
    rw [hr] at h
    cases h

/-- A failure comes from the first computation, or from the second after the first. -/
theorem bind_error (h : (x >>= f) w = .error fault w') :
    x w = .error fault w' ∨ ∃ a w₁, x w = .ok a w₁ ∧ f a w₁ = .error fault w' := by
  simp only [bind, EStateM.bind] at h
  cases hr : x w with
  | ok a w₁ =>
    rw [hr] at h
    exact .inr ⟨a, w₁, rfl, h⟩
  | error fault₁ w₁ =>
    rw [hr] at h
    cases h
    exact .inl rfl

end bind

section attempt

variable {x : Eval α} {w w' : World}

theorem attempt_of_ok {a : α} (h : x w = .ok a w') : attempt x w = .ok (.ok a) w' := by
  unfold attempt
  rw [h]

theorem attempt_of_raised {e : Error} (h : x w = .error (.raised e) w') (hnamed : e ≠ .unnamed) :
    attempt x w = .ok (.error e) w' := by
  unfold attempt
  rw [h]
  cases e with
  | unnamed => exact absurd rfl hnamed
  | _ => rfl

end attempt

theorem after_bind_ok {x : Eval α} {f : α → Eval β} {w w' : World} {a : α}
    (h : x w = .ok a w') : after (x >>= f) w = after (f a) w' := by
  simp [after, bind, EStateM.bind, h]

theorem after_bind_error {x : Eval α} {f : α → Eval β} {w w' : World} {fault : Fault}
    (h : x w = .error fault w') : after (x >>= f) w = w' := by
  simp [after, bind, EStateM.bind, h]

theorem after_bind_pure (x : Eval α) (f : α → β) (w : World) :
    after (x >>= fun a => pure (f a)) w = after x w := by
  simp only [after, bind, EStateM.bind]
  cases x w <;> rfl

theorem after_ok {x : Eval α} {w w' : World} {a : α} (h : x w = .ok a w') : after x w = w' := by
  simp [after, h]

theorem after_error {x : Eval α} {w w' : World} {fault : Fault} (h : x w = .error fault w') :
    after x w = w' := by
  simp [after, h]

theorem after_andFinally (x : Eval α) (f : World → World) (w : World) :
    (andFinally x f).after w = f (x.after w) := by
  unfold after andFinally
  cases x w <;> rfl

theorem andFinally_ok {x : Eval α} {f : World → World} {w w' : World} {a : α}
    (h : andFinally x f w = .ok a w') : ∃ w₁, x w = .ok a w₁ ∧ w' = f w₁ := by
  unfold andFinally at h
  cases hr : x w with
  | ok a₁ w₁ =>
    rw [hr] at h
    cases h
    exact ⟨w₁, rfl, rfl⟩
  | error fault w₁ =>
    rw [hr] at h
    cases h

theorem andFinally_error {x : Eval α} {f : World → World} {w w' : World} {fault : Fault}
    (h : andFinally x f w = .error fault w') : ∃ w₁, x w = .error fault w₁ ∧ w' = f w₁ := by
  unfold andFinally at h
  cases hr : x w with
  | ok a w₁ =>
    rw [hr] at h
    cases h
  | error fault₁ w₁ =>
    rw [hr] at h
    cases h
    exact ⟨w₁, rfl, rfl⟩

/-- An attempt hands over how the computation ended, or ends as it did. -/
theorem attempt_cases (x : Eval α) (w : World) :
    (∃ a w', x w = .ok a w' ∧ attempt x w = .ok (.ok a) w') ∨
    (∃ e w', x w = .error (.raised e) w' ∧ attempt x w = .ok (.error e) w') ∨
    (∃ fault w', x w = .error fault w' ∧ attempt x w = .error fault w') := by
  unfold attempt
  cases hr : x w with
  | ok a w' => exact .inl ⟨a, w', rfl, rfl⟩
  | error fault w' =>
    cases fault with
    | raised e =>
      cases e
      case unnamed => exact .inr (.inr ⟨_, w', rfl, rfl⟩)
      all_goals exact .inr (.inl ⟨_, w', rfl, rfl⟩)
    | abandoned => exact .inr (.inr ⟨_, w', rfl, rfl⟩)
    | exhausted => exact .inr (.inr ⟨_, w', rfl, rfl⟩)

/-- Wherever a computation starts, the world it leaves is related to the one it started in. -/
def Keeps (R : World → World → Prop) (x : Eval α) : Prop := ∀ w, R w (after x w)

namespace Keeps

variable {R : World → World → Prop}

theorem of_ok {x : Eval α} (hx : Keeps R x) {w w' : World} {a : α} (h : x w = .ok a w') :
    R w w' := by
  have hw := hx w
  rwa [after_ok h] at hw

theorem of_error {x : Eval α} (hx : Keeps R x) {w w' : World} {fault : Fault}
    (h : x w = .error fault w') : R w w' := by
  have hw := hx w
  rwa [after_error h] at hw

theorem modify {f : World → World} (hf : ∀ w, R w (f w)) : Keeps R (modify f) := hf

theorem ite {p : Prop} [Decidable p] {x y : Eval α} (hx : p → Keeps R x) (hy : ¬p → Keeps R y) :
    Keeps R (if p then x else y) := by
  split
  next h => exact hx h
  next h => exact hy h

theorem attempt {x : Eval α} (hx : Keeps R x) : Keeps R (Eval.attempt x) := by
  intro w
  have h := hx w
  rcases Eval.attempt_cases x w with ⟨a, w', hr, ha⟩ | ⟨e, w', hr, ha⟩ | ⟨fault, w', hr, ha⟩
  · rwa [after_ok ha, ← after_ok hr]
  · rwa [after_ok ha, ← after_error hr]
  · rwa [after_error ha, ← after_error hr]

theorem settle {x : Eval α} (hx : Keeps R x) : Keeps R (Eval.settle x) := by
  intro w
  have h := hx w
  unfold after at h
  unfold after Eval.settle
  cases hr : x w with
  | ok a w' => simpa only [hr] using h
  | error fault w' =>
    rw [hr] at h
    cases fault <;> exact h

end Keeps

/-- A relation that evaluation keeps as long as no effect leaves it, no closure is made and no timer
armed. -/
structure Frame (R : World → World → Prop) : Prop where
  refl : ∀ w, R w w
  trans : ∀ {a b c}, R a b → R b c → R a c
  timing : ∀ w (t : Timing DelayedEmit), (∀ entry ∈ t.timers, entry ∈ w.timing.timers) →
    R w { w with timing := t }
  random : ∀ w n, R w { w with random := n }
  clock : ∀ w t d, R w { w with elapsed := t, deadline := d }

namespace Frame

variable {R : World → World → Prop} (hR : Frame R)

include hR

theorem pure (a : α) : Keeps R (pure a : Eval α) := fun w => hR.refl w

theorem throw (fault : Fault) : Keeps R (throw fault : Eval α) := fun w => hR.refl w

theorem raise (e : Error) : Keeps R (Eval.raise e : Eval α) := hR.throw _

theorem ofExcept (r : Except Error α) : Keeps R (Eval.ofExcept r) := by
  cases r with
  | ok a => exact hR.pure a
  | error e => exact hR.raise e

/-- From a given world on, the first computation may be known better than everywhere. -/
theorem bind_at {x : Eval α} {f : α → Eval β} {w : World} (hx : R w (after x w))
    (hf : ∀ a, Keeps R (f a)) : R w (after (x >>= f) w) := by
  cases h : x w with
  | ok a w' =>
    rw [after_bind_ok h]
    rw [after_ok h] at hx
    exact hR.trans hx (hf a w')
  | error fault w' =>
    rw [after_bind_error h]
    rwa [after_error h] at hx

/-- What a computation leaves to a second one is kept by this. -/
theorem after_bind (x : Eval α) {f : α → Eval β} (hf : ∀ a, Keeps R (f a)) (w : World) :
    R (after x w) (after (x >>= f) w) := by
  cases h : x w with
  | ok a w' =>
    rw [after_bind_ok h, after_ok h]
    exact hf a w'
  | error fault w' =>
    rw [after_bind_error h, after_error h]
    exact hR.refl w'

theorem bind {x : Eval α} {f : α → Eval β} (hx : Keeps R x) (hf : ∀ a, Keeps R (f a)) :
    Keeps R (x >>= f) := fun w => hR.bind_at (hx w) hf

theorem map {x : Eval α} (f : α → β) (hx : Keeps R x) : Keeps R (f <$> x) := by
  rw [map_eq_pure_bind]
  exact hR.bind hx fun a => hR.pure (f a)

theorem get : Keeps R get := fun w => hR.refl w

theorem mapM {f : α → Eval β} (hf : ∀ a, Keeps R (f a)) (as : List α) : Keeps R (as.mapM f) := by
  induction as with
  | nil => exact hR.pure []
  | cons a as ih =>
    rw [List.mapM_cons]
    exact hR.bind (hf a) fun b => hR.bind ih fun bs => hR.pure (b :: bs)

/-- The deadline that is in force meanwhile, and the time that is waited, count for nothing. -/
theorem within {x : Eval α} (limit : Nat) (hx : Keeps R x) : Keeps R (Eval.within limit x) := by
  intro w
  have hclock (w' : World) (d : Option Nat) : R w' { w' with deadline := d } :=
    hR.clock w' w'.elapsed d
  unfold after Eval.within
  dsimp only
  generalize w.deadline.any (· < limit) = strict
  have h := hR.trans (hclock w (if strict then w.deadline else some limit)) (hx _)
  unfold after at h
  cases hr : x { w with deadline := if strict then w.deadline else some limit } with
  | ok a w' =>
    rw [hr] at h
    exact hR.trans h (hclock w' w.deadline)
  | error fault w' =>
    rw [hr] at h
    have hend := hR.trans h (hclock w' w.deadline)
    cases fault with
    | raised e => exact hend
    | exhausted => exact hend
    | abandoned =>
      cases strict with
      | true => exact hend
      | false => exact hR.trans h (hR.clock w' limit w.deadline)

theorem andFinally {x : Eval α} {f : World → World} (hx : Keeps R x) (hf : ∀ w, R w (f w)) :
    Keeps R (Eval.andFinally x f) := by
  intro w
  rw [after_andFinally]
  exact hR.trans (hx w) (hf _)

/-- The world of a computation that is only timed is given up. -/
theorem finishTime (x : Eval α) : Keeps R (Eval.finishTime x) := by
  intro w
  unfold after Eval.finishTime
  cases x w with
  | ok a w' => exact hR.refl w
  | error fault w' => cases fault <;> exact hR.refl w

theorem setElapsed (ms : Nat) : Keeps R (Eval.setElapsed ms) :=
  Keeps.modify fun w => hR.clock w ms w.deadline

theorem wait (ms : Nat) : Keeps R (Eval.wait ms) := by
  intro w
  have hclock : R w { w with elapsed := w.elapsed + ms } := hR.clock w _ w.deadline
  unfold Eval.wait
  rw [after_get_bind]
  split
  · split
    · exact hR.refl w
    · exact hclock
  · exact hclock

theorem note (level : Log.Level) (category message : Text) :
    Keeps R (Eval.note level category message) :=
  Keeps.modify fun w => hR.timing w _ fun _ => id

theorem snapshot (store : StoreRef) : Keeps R (Eval.snapshot store) := fun w => hR.refl w

end Frame
end Eval
end EntityMachines

/-!
Computations under an invariant. Wherever one starts under it, it ends under it, whether it fails
or not, and a value it gives has a property of its own.
-/
namespace EntityMachines
namespace Eval

variable {α β : Type} {I : World → Prop} {V : α → Prop} {U : β → Prop}

/-- An ending under the invariant, with a value that has the property or with a fault. -/
inductive Ends (I : World → Prop) (V : α → Prop) : EStateM.Result Fault World α → Prop
  | ok {a : α} {w : World} (value : V a) (world : I w) : Ends I V (.ok a w)
  | error {fault : Fault} {w : World} (world : I w) : Ends I V (.error fault w)

def Yields (I : World → Prop) (V : α → Prop) (x : Eval α) : Prop := ∀ w, I w → Ends I V (x w)

/-- An invariant that outlasts waiting and what is noted or counted meanwhile. -/
structure Lasting (I : World → Prop) : Prop where
  clock : ∀ {w} (elapsed : Nat) (deadline : Option Nat), I w → I { w with elapsed, deadline }
  note : ∀ {w} (level : Log.Level) (category message : Text), I w →
    I { w with timing := w.timing.write level category message }
  throttle : ∀ {w} (key : Text) (window : Int), I w →
    I { w with timing := (w.timing.throttle key window).2 }

namespace Yields

theorem pure {a : α} (h : V a) : Yields I V (pure a) := fun _ hw => .ok h hw

theorem throw (fault : Fault) : Yields I V (throw fault) := fun _ hw => .error hw

theorem raise (e : Error) : Yields I V (Eval.raise e) := throw _

theorem bind {x : Eval α} {f : α → Eval β} (hx : Yields I V x) (hf : ∀ a, V a → Yields I U (f a)) :
    Yields I U (x >>= f) := by
  intro w hw
  have hend := hx w hw
  cases hr : x w with
  | ok a later =>
    rw [hr] at hend
    obtain ⟨ha, hlater⟩ := hend
    rw [bind_of_ok hr]
    exact hf a ha later hlater
  | error fault later =>
    rw [hr] at hend
    cases hend with
    | error hlater =>
      rw [bind_of_error hr]
      exact .error hlater

theorem ite {p : Prop} [Decidable p] {x y : Eval α} (hx : p → Yields I V x)
    (hy : ¬p → Yields I V y) : Yields I V (if p then x else y) := by
  split
  next h => exact hx h
  next h => exact hy h

theorem get : Yields I I get := fun _ hw => .ok hw hw

theorem modify {f : World → World} (hf : ∀ w, I w → I (f w)) :
    Yields I (fun _ => True) (modify f) := fun w hw => .ok trivial (hf w hw)

/-- What a computation depends on may be taken from the world it starts in. -/
theorem get_bind {f : World → Eval β} (hf : ∀ w, I w → Ends I U (f w w)) :
    Yields I U (MonadState.get >>= f) := hf

theorem map {f : α → β} {x : Eval α} (hx : Yields I V x) (hf : ∀ a, V a → U (f a)) :
    Yields I U (f <$> x) := by
  rw [map_eq_pure_bind]
  exact hx.bind fun a ha => pure (hf a ha)

/-- The outcome of an attempt: a value with the property, or any error. -/
theorem attempt {x : Eval α} (hx : Yields I V x) :
    Yields I (fun outcome => ∀ a, outcome = .ok a → V a) (Eval.attempt x) := by
  intro w hw
  have hend := hx w hw
  rcases attempt_cases x w with ⟨a, later, hr, ha⟩ | ⟨e, later, hr, ha⟩ | ⟨fault, later, hr, ha⟩
  · rw [hr] at hend
    rw [ha]
    cases hend with
    | ok hvalue hlater =>
      constructor
      · intro b hb
        cases hb
        exact hvalue
      · exact hlater
  · rw [hr] at hend
    rw [ha]
    cases hend with
    | error hlater => exact .ok (fun a h => nomatch h) hlater
  · rw [hr] at hend
    rw [ha]
    cases hend with
    | error hlater => exact .error hlater

theorem settle {x : Eval α} (hx : Yields I V x) :
    Yields I (fun outcome => ∀ a, outcome = some (.ok a) → V a) (Eval.settle x) := by
  intro w hw
  have hend := hx w hw
  unfold Eval.settle
  generalize x w = result at hend ⊢
  cases hend with
  | ok hvalue hlater =>
    constructor
    · intro b hb
      cases hb
      exact hvalue
    · exact hlater
  | @error fault later hlater =>
    cases fault with
    | raised e => exact .ok (fun a h => nomatch h) hlater
    | abandoned => exact .ok (fun a h => nomatch h) hlater
    | exhausted => exact .error hlater

/-- A computation that is only timed leaves the world as it was. -/
theorem finishTime (x : Eval α) : Yields I (fun _ => True) (Eval.finishTime x) := by
  intro w hw
  unfold Eval.finishTime
  cases x w with
  | ok a later => exact .ok trivial hw
  | error fault later =>
    cases fault with
    | raised e => exact .ok trivial hw
    | abandoned => exact .ok trivial hw
    | exhausted => exact .error hw

variable (hI : Lasting I)

include hI

theorem setElapsed (ms : Nat) : Yields I (fun _ => True) (Eval.setElapsed ms) :=
  modify fun w hw => hI.clock ms w.deadline hw

theorem wait (ms : Nat) : Yields I (fun _ => True) (Eval.wait ms) := by
  apply get_bind
  intro w hw
  have hlater : I { w with elapsed := w.elapsed + ms } := hI.clock _ w.deadline hw
  cases hdeadline : w.deadline with
  | none =>
    rw [hdeadline] at hlater
    exact .ok trivial hlater
  | some deadline =>
    rw [hdeadline] at hlater
    dsimp only
    split
    · exact .error hw
    · exact .ok trivial hlater

theorem note (level : Log.Level) (category message : Text) :
    Yields I (fun _ => True) (Eval.note level category message) :=
  modify fun _ hw => hI.note level category message hw

theorem within (limit : Nat) {x : Eval α} (hx : Yields I V x) :
    Yields I (fun outcome => ∀ a, outcome = some a → V a) (Eval.within limit x) := by
  intro w hw
  unfold Eval.within
  dsimp only
  generalize w.deadline.any (· < limit) = strict
  have hstart : I { w with deadline := if strict then w.deadline else some limit } :=
    hI.clock w.elapsed _ hw
  have hend := hx _ hstart
  generalize x { w with deadline := if strict then w.deadline else some limit } = result at hend ⊢
  cases hend with
  | @ok a later hvalue hlater =>
    have hrestored := hI.clock later.elapsed w.deadline hlater
    constructor
    · intro b hb
      cases hb
      exact hvalue
    · exact hrestored
  | @error fault later hlater =>
    have hrestored := hI.clock later.elapsed w.deadline hlater
    cases fault with
    | raised e => exact .error hrestored
    | exhausted => exact .error hrestored
    | abandoned =>
      cases strict with
      | true => exact .error hrestored
      | false => exact .ok (fun a h => nomatch h) (hI.clock limit w.deadline hlater)

end Yields
end Eval
end EntityMachines

/-!
Computations that end in one way. Wherever one starts under an invariant, it comes to the same value
or to the same fault, and ends under the invariant again.
-/
namespace EntityMachines
namespace Eval

variable {α β : Type} {I : World → Prop}

/-- How a computation ends, whatever world it leaves. -/
def outcome (x : Eval α) (w : World) : Except Fault α :=
  match x w with
  | .ok a _ => .ok a
  | .error fault _ => .error fault

theorem outcome_congr {x y : Eval α} {w w' : World} (h : x w = y w') :
    outcome x w = outcome y w' := by
  unfold outcome
  rw [h]

/-- Under an invariant a computation ends in one way wherever it starts, and again under it. -/
def Settles (I : World → Prop) (x : Eval α) (r : Except Fault α) : Prop :=
  ∀ w, I w → outcome x w = r ∧ I (after x w)

namespace Settles

theorem pure (a : α) : Settles I (pure a) (.ok a) := fun _ hw => ⟨rfl, hw⟩

theorem bind {x : Eval α} {r : Except Fault α} {f : α → Eval β} {s : α → Except Fault β}
    (hx : Settles I x r) (hf : ∀ a, Settles I (f a) (s a)) : Settles I (x >>= f) (r >>= s) := by
  intro w hw
  obtain ⟨rfl, hafter⟩ := hx w hw
  unfold outcome after at *
  cases hxw : x w with
  | ok a w₁ =>
    rw [hxw] at hafter
    rw [bind_of_ok hxw]
    exact hf a w₁ hafter
  | error fault w₁ =>
    rw [hxw] at hafter
    rw [bind_of_error hxw]
    exact ⟨rfl, hafter⟩

theorem map {x : Eval α} {r : Except Fault α} (hx : Settles I x r) (f : α → β) :
    Settles I (do return f (← x)) (r.map f) := by
  have hbind := hx.bind fun a => Settles.pure (I := I) (f a)
  cases r with
  | ok a => exact hbind
  | error fault => exact hbind

/-- Item by item, if the computation for each item settles. -/
theorem mapM {f : α → Eval β} {r : α → Except Fault β} {xs : List α}
    (h : ∀ x ∈ xs, Settles I (f x) (r x)) : Settles I (xs.mapM f) (xs.mapM r) := by
  induction xs with
  | nil => exact .pure []
  | cons x xs ih =>
    rw [List.forall_mem_cons] at h
    rw [List.mapM_cons, List.mapM_cons]
    exact h.1.bind fun b => (ih h.2).bind fun bs => .pure (b :: bs)

end Settles
end Eval
end EntityMachines
