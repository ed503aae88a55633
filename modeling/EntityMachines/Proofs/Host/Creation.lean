import EntityMachines.Host
import EntityMachines.Proofs.Machine.Answer

/-!
Creating a machine succeeds or leaves the live machines as they were, as long as the initial
effects do not fail. If they do, the machine stays.
-/
namespace EntityMachines

/-- The handles of all machines, the latest first. -/
def World.handles (w : World) : List Nat := w.machines.map (·.handle)

namespace Machine

/-- No machine comes or goes. -/
def HandlesKept (w w' : World) : Prop := w'.handles = w.handles

theorem handlesKept_frame : MachineFrame HandlesKept where
  same w w' _ hm := by
    unfold HandlesKept World.handles
    rw [hm]
  trans h h' := h'.trans h
  write _ _ _ := rfl

theorem handlesKept_update (handle : Nat) (w : World) {f : Instance → Instance}
    (hf : ∀ m, (f m).handle = m.handle) : HandlesKept w (w.mapMachine handle f) := by
  unfold HandlesKept World.handles World.mapMachine
  rw [List.map_map]
  exact List.map_congr_left fun m _ => World.handle_change hf handle m

/-- Machines neither create nor destroy machines. -/
theorem handlesKept_transacts (handle : Nat) : Transacts HandlesKept handle fun _ => True :=
  handlesKept_frame.transacts_of_update fun w _ hf =>
    handlesKept_update handle w fun m => (hf m).1

theorem runInitialEffects_handles (fuel : Nat) (services : Services) (handle : Nat) :
    Eval.Keeps HandlesKept
      (runInitialEffects (Evaluator.withFuel Library.standard fuel) services handle) :=
  (handlesKept_transacts handle).runInitialEffects_keeps
    (Transacts.withFuel_respects handlesKept_transacts fuel)

theorem create_cases (handle : Nat) (d : Definition) (given seed : Value) (created : Int)
    (w : World) :
    (∃ e, create handle d given seed created w = .error (.raised (.behavior e)) w) ∨
    ∃ m w', create handle d given seed created w = .ok m w' ∧ w'.handles = handle :: w.handles := by
  unfold create
  cases d.configure given with
  | error e => exact .inl ⟨e, rfl⟩
  | ok config => exact .inr ⟨_, _, rfl, rfl⟩

end Machine

namespace Host

variable {definition : Nat} {given seed : Value} {h : Host}

/-- The handles of the live machines. -/
def live (h : Host) : List Nat := h.world.handles

/-- A creation yields a new live machine, or it fails and leaves the live machines as they
were. -/
def Atomic (h : Host) : EStateM.Result Fault Host Nat → Prop
  | .ok handle h' => h'.live = handle :: h.live
  | .error _ h' => h'.live = h.live

/-- A new machine comes to its initial effects in this world. -/
def Begins (definition : Nat) (given seed : Value) (h : Host) (w : World) : Prop :=
  ∃ d m w₀, h.definitions.lookup definition = some d ∧
    Machine.create h.nextInstance d given seed h.world.clock h.world = .ok m w₀ ∧
    Machine.note h.services m .info "behavior" ("created in state " ++ m.state) w₀ = .ok () w

theorem get_bind {α : Type} (g : Host → Action α) (h : Host) : (get >>= g) h = g h h := rfl

theorem perform_ok {α : Type} {x : Eval α} {a : α} {w : World} (hx : x h.world = .ok a w) :
    perform x h = .ok a { h with world := w } := by
  unfold perform
  rw [hx]

theorem perform_error {α : Type} {x : Eval α} {fault : Fault} {w : World}
    (hx : x h.world = .error fault w) : perform x h = .error fault { h with world := w } := by
  unfold perform
  rw [hx]

theorem requireDefinition_some {d : Definition} (hd : h.definitions.lookup definition = some d)
    (activity : Text) : requireDefinition definition activity h = .ok d h := by
  unfold requireDefinition
  rw [get_bind, hd]
  rfl

theorem requireDefinition_none (hd : h.definitions.lookup definition = none) (activity : Text) :
    requireDefinition definition activity h
      = .error (.raised (.argument (.unknownDefinition activity))) h := by
  unfold requireDefinition
  rw [get_bind, hd]
  rfl

/-- A creation that does not come to initial effects changes nothing. -/
theorem begins_or_refused (ev : Evaluator) (definition : Nat) (given seed : Value) (h : Host) :
    (∃ w, Begins definition given seed h w) ∨
    ∃ fault, create ev definition given seed h = .error fault h := by
  cases hd : h.definitions.lookup definition with
  | none => exact .inr ⟨_, Eval.bind_of_error (requireDefinition_none hd "create_instance")⟩
  | some d =>
    rcases Machine.create_cases h.nextInstance d given seed h.world.clock h.world with
      ⟨e, hrefused⟩ | ⟨m, w, hcreated, -⟩
    · refine .inr ⟨.raised (.behavior e), ?_⟩
      unfold create
      rw [Eval.bind_of_ok (requireDefinition_some hd "create_instance"), get_bind]
      exact Eval.bind_of_error (perform_error hrefused)
    · obtain ⟨log, hnote⟩ := Machine.note_ok h.services m .info "behavior"
        ("created in state " ++ m.state) w
      exact .inl ⟨{ w with log }, d, m, w, hd, hcreated, hnote⟩

theorem Begins.handles {w : World} (hb : Begins definition given seed h w) :
    w.handles = h.nextInstance :: h.live := by
  obtain ⟨d, m, w₀, -, hcreated, hnote⟩ := hb
  have hnoted : Machine.HandlesKept w₀ w :=
    ((Machine.handlesKept_transacts m.handle).note_keeps h.services m (by decide) _ _).of_ok hnote
  rcases Machine.create_cases h.nextInstance d given seed h.world.clock h.world with
    ⟨e, hrefused⟩ | ⟨m', w', hcreated', hhandles⟩
  · cases hrefused.symm.trans hcreated
  · cases hcreated'.symm.trans hcreated
    exact hnoted.trans hhandles

/-- The host that has given out a handle to a machine, in a given world. -/
def handedOut (h : Host) (d : Definition) (w : World) : Host :=
  { h with
    nextInstance := h.nextInstance + 1
    kept := (h.nextInstance, d) :: h.kept
    world := w }

/-- Behind a creation that comes to initial effects stands how they end. -/
theorem Begins.create_eq {w : World} (hb : Begins definition given seed h w) {d : Definition}
    (hd : h.definitions.lookup definition = some d) (ev : Evaluator) :
    create ev definition given seed h
      = match Machine.runInitialEffects ev h.services h.nextInstance w with
        | .ok _ w' => .ok h.nextInstance (h.handedOut d w')
        | .error fault w' => .error fault (h.handedOut d w') := by
  obtain ⟨d', m, w₀, hd', hcreated, hnote⟩ := hb
  cases hd.symm.trans hd'
  have hmodify (f : Host → Host) (g : Unit → Action Nat) (h : Host) :
      (modify f >>= g) h = g () (f h) := rfl
  unfold create
  rw [Eval.bind_of_ok (requireDefinition_some hd "create_instance"), get_bind,
    Eval.bind_of_ok (perform_ok hcreated), hmodify, Eval.bind_of_ok (perform_ok hnote)]
  cases hr : Machine.runInitialEffects ev h.services h.nextInstance w with
  | ok _ w' => exact Eval.bind_of_ok (perform_ok hr)
  | error fault w' => exact Eval.bind_of_error (perform_error hr)

/-- A machine whose initial effects fail stays, though its creation fails. -/
theorem Begins.stays {fuel : Nat} {w w' : World} {fault : Fault}
    (hb : Begins definition given seed h w)
    (hfail : Machine.runInitialEffects (Evaluator.withFuel Library.standard fuel) h.services
      h.nextInstance w = .error fault w') :
    ∃ h', create (Evaluator.withFuel Library.standard fuel) definition given seed h
        = .error fault h' ∧ h'.live = h.nextInstance :: h.live := by
  have hkept := Machine.runInitialEffects_handles fuel h.services h.nextInstance w
  rw [Eval.after_error hfail] at hkept
  obtain ⟨d, -, -, hd, -⟩ := id hb
  refine ⟨h.handedOut d w', ?_, hkept.trans hb.handles⟩
  rw [hb.create_eq hd, hfail]

/-- Creation is atomic exactly where initial effects do not fail. -/
theorem create_atomic_iff (fuel definition : Nat) (given seed : Value) (h : Host) :
    Atomic h (create (Evaluator.withFuel Library.standard fuel) definition given seed h) ↔
      ∀ w, Begins definition given seed h w →
        ∃ w', Machine.runInitialEffects (Evaluator.withFuel Library.standard fuel) h.services
          h.nextInstance w = .ok () w' := by
  constructor
  · intro hatomic w hb
    cases hr : Machine.runInitialEffects (Evaluator.withFuel Library.standard fuel) h.services
        h.nextInstance w with
    | ok _ w' => exact ⟨w', rfl⟩
    | error fault w' =>
      obtain ⟨h', hcreate, hlive⟩ := hb.stays hr
      rw [hcreate] at hatomic
      exact absurd (hlive.symm.trans hatomic) (List.cons_ne_self _ _)
  · intro hsucceeds
    rcases begins_or_refused (Evaluator.withFuel Library.standard fuel) definition given seed h with
      ⟨w, hb⟩ | ⟨fault, hrefused⟩
    · obtain ⟨w', hr⟩ := hsucceeds w hb
      have hkept := (Machine.runInitialEffects_handles fuel h.services h.nextInstance).of_ok hr
      obtain ⟨d, -, -, hd, -⟩ := id hb
      rw [hb.create_eq hd, hr]
      exact hkept.trans hb.handles
    · rw [hrefused]
      exact rfl

def faulty : Definition where
  name := "faulty"
  initial := "idle"
  states := [{ name := "idle" }]
  initialEffects := [.array [.string "set"]]

/-- The creation fails, and the machine is there all the same. -/
theorem faulty_stays :
    ∃ h fault h', storeDefinition faulty { services := {} } = .ok 1 h ∧ h.live = [] ∧
      create (Evaluator.withFuel Library.standard 4) 1 .undefined .undefined h = .error fault h' ∧
      h'.live = [1] ∧ state 1 h' = .ok "idle" h' ∧
      ¬Atomic h (create (Evaluator.withFuel Library.standard 4) 1 .undefined .undefined h) := by
  refine ⟨_, _, _, rfl, rfl, rfl, rfl, rfl, fun hatomic => ?_⟩
  have hlive : [1] = ([] : List Nat) := hatomic
  cases hlive

end Host
end EntityMachines
