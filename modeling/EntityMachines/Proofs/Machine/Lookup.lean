import EntityMachines.Machine.Transaction

/-! The machine under a handle, before and after machines are changed. -/
namespace EntityMachines
namespace World

theorem handle_of_machine? {w : World} {handle : Nat} {m : Instance}
    (h : w.machine? handle = some m) : m.handle = handle := by
  have hm := List.find?_some h
  simpa using hm

theorem machine?_congr {w w' : World} (h : w'.machines = w.machines) (handle : Nat) :
    w'.machine? handle = w.machine? handle := by
  unfold machine?
  rw [h]

theorem handle_change {f : Instance → Instance} (hf : ∀ m, (f m).handle = m.handle) (handle : Nat)
    (m : Instance) : (if m.handle = handle then f m else m).handle = m.handle := by
  split
  · exact hf m
  · rfl

/-- What is done to the machine of a handle leaves the machines of other handles as they are. -/
theorem machine?_mapMachine (w : World) (handle a : Nat) {f : Instance → Instance}
    (hf : ∀ m, (f m).handle = m.handle) :
    (w.mapMachine handle f).machine? a
      = if a = handle then (w.machine? a).map f else w.machine? a := by
  have hfind : (w.mapMachine handle f).machine? a
      = (w.machine? a).map fun m => if m.handle = handle then f m else m := by
    unfold machine? mapMachine
    rw [List.find?_map]
    simp only [Function.comp_def, handle_change hf]
  rw [hfind]
  cases hm : w.machine? a with
  | none => simp
  | some m =>
    have hma : m.handle = a := handle_of_machine? hm
    by_cases h : a = handle
    · simp [hma, h]
    · simp [hma, h]

theorem machine?_mapMachine_self {w : World} {handle : Nat} {m : Instance} {f : Instance → Instance}
    (hm : w.machine? handle = some m) (hf : ∀ m, (f m).handle = m.handle) :
    (w.mapMachine handle f).machine? handle = some (f m) := by
  rw [machine?_mapMachine w handle handle hf, if_pos rfl, hm]
  rfl

theorem machine?_mapMachine_ne (w : World) {handle a : Nat} {f : Instance → Instance}
    (h : a ≠ handle) (hf : ∀ m, (f m).handle = m.handle) :
    (w.mapMachine handle f).machine? a = w.machine? a := by
  rw [machine?_mapMachine w handle a hf, if_neg h]

/-- Two changes of the machine of a handle are one. -/
theorem mapMachine_mapMachine (w : World) (handle : Nat) {f : Instance → Instance}
    (hf : ∀ m, (f m).handle = m.handle) (g : Instance → Instance) :
    (w.mapMachine handle f).mapMachine handle g = w.mapMachine handle fun m => g (f m) := by
  unfold mapMachine
  dsimp only
  rw [List.map_map]
  congr 1
  refine List.map_congr_left fun m _ => ?_
  by_cases h : m.handle = handle
  · simp [h, hf]
  · simp [h]

end World

theorem Machine.withMachine_some {α : Type} {w : World} {handle : Nat} {m : Instance}
    (h : w.machine? handle = some m) (default : α) (f : Instance → Eval α) :
    withMachine handle default f w = f m w := by
  have hget (g : World → Eval α) : (get >>= g) w = g w w := rfl
  unfold withMachine
  rw [hget, h]

theorem Machine.withMachine_none {α : Type} {w : World} {handle : Nat}
    (h : w.machine? handle = none) (default : α) (f : Instance → Eval α) :
    withMachine handle default f w = .ok default w := by
  have hget (g : World → Eval α) : (get >>= g) w = g w w := rfl
  unfold withMachine
  rw [hget, h]
  rfl

end EntityMachines
