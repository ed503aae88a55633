import EntityMachines.Proofs.Lockstep.Basic
import EntityMachines.Proofs.Value.Paths

/-!
What bindings read. Reading changes nothing and depends on the stores alone; a local name that is
bound on both sides hides whatever was there before, and other names read as they did.
-/
namespace EntityMachines

/-- Of a key over two tables, the last entry on top counts, on both sides or on neither. -/
theorem Table.find?_overlay_onValues {α β : Type} (f : α → β) (base : Table α) (base' : Table β)
    (top : Table α) (key : Text) :
    (∃ entry ∈ top, (overlay base top).find? key = some entry.2
      ∧ (overlay base' (onValues f top)).find? key = some (f entry.2)) ∨
    ((overlay base top).find? key = base.find? key
      ∧ (overlay base' (onValues f top)).find? key = base'.find? key) := by
  unfold overlay
  induction top generalizing base base' with
  | nil => exact .inr ⟨rfl, rfl⟩
  | cons entry rest ih =>
    rw [onValues_cons, List.foldl_cons, List.foldl_cons]
    rcases ih (base.insert entry.1 entry.2) (base'.insert entry.1 (f entry.2)) with
      ⟨found, hfound, hleft, hright⟩ | ⟨hleft, hright⟩
    · exact .inl ⟨found, List.mem_cons_of_mem _ hfound, hleft, hright⟩
    · by_cases hkey : entry.1 = key
      · subst hkey
        rw [find?_insert_self] at hleft hright
        exact .inl ⟨entry, List.mem_cons_self, hleft, hright⟩
      · rw [find?_insert_of_ne _ _ hkey] at hleft hright
        exact .inr ⟨hleft, hright⟩

theorem Value.Holds.of_getIn {v : Value} {path : Path} {id : Nat} (h : (v.getIn path).Holds id) :
    v.Holds id := by
  have hf : Equivariant fun args => .ok ((args.nth 0).getIn path) :=
    Equivariant.of_total fun ρ _ args => by simp
  obtain ⟨arg, harg, hid⟩ : ∃ arg ∈ [v], arg.Holds id := hf.holds_of_result rfl h
  rwa [List.mem_singleton.mp harg] at hid

theorem Table.mem_of_find? {α : Type} {t : Table α} {key : Text} {x : α}
    (h : t.find? key = some x) : ∃ entry ∈ t, entry.2 = x := by
  induction t with
  | nil => cases h
  | cons entry rest ih =>
    rw [find?] at h
    split at h
    · cases h
      exact ⟨entry, List.mem_cons_self, rfl⟩
    · obtain ⟨found, hfound, hx⟩ := ih h
      exact ⟨found, List.mem_cons_of_mem _ hfound, hx⟩

theorem Correspondence.values.getIn {R : Correspondence} {v u : Value} (h : R.values v u)
    (path : Path) : R.values (v.getIn path) (u.getIn path) :=
  Correspondence.ofFunction (f := fun args => (args.nth 0).getIn path) (fun ρ _ args => by simp)
    (Correspondence.lists_singleton h)

namespace Context

/-- The value of a root without regard to local names. -/
def root (ctx : Context) (w : World) (name : Text) : Value :=
  if name = "entity" then
    match ctx.store with
    | some store => w.stores.getD store (.map [])
    | none => .undefined
  else if name = "payload" then ctx.payload
  else if name = "user" then ctx.user
  else (ctx.singletons.find? name).getD .undefined

/-- The value that a binding reads in a world. -/
def readAt (ctx : Context) (w : World) (b : Binding) : Value :=
  match ctx.locals.find? b.root with
  | some v => v.getIn b.path
  | none =>
    if b.root = "state" then .string ctx.state
    else if b.root = "now" then Value.ofInt ctx.now
    else (ctx.root w b.root).getIn b.path

def reading (ctx : Context) (w : World) (text : Text) : Value :=
  match Binding.ofText? text with
  | some b => ctx.readAt w b
  | none => .undefined

theorem resolve_eq (ctx : Context) (b : Binding) (w : World) :
    ctx.resolve b w = .ok (ctx.readAt w b) w := by
  unfold resolve readAt root
  cases ctx.locals.find? b.root with
  | some v => rfl
  | none =>
    dsimp only
    by_cases hentity : b.root = "entity"
    · have hstate : b.root ≠ "state" := by rw [hentity]; decide
      have hnow : b.root ≠ "now" := by rw [hentity]; decide
      rw [if_pos hentity, if_neg hstate, if_neg hnow, if_pos hentity]
      cases ctx.store with
      | some store => rfl
      | none => rw [Value.getIn_undefined]; rfl
    · rw [if_neg hentity, if_neg hentity]
      by_cases hpayload : b.root = "payload"
      · have hstate : b.root ≠ "state" := by rw [hpayload]; decide
        have hnow : b.root ≠ "now" := by rw [hpayload]; decide
        rw [if_pos hpayload, if_neg hstate, if_neg hnow, if_pos hpayload]
        rfl
      · rw [if_neg hpayload, if_neg hpayload]
        by_cases hstate : b.root = "state"
        · rw [if_pos hstate, if_pos hstate]
          rfl
        · rw [if_neg hstate, if_neg hstate]
          by_cases hnow : b.root = "now"
          · rw [if_pos hnow, if_pos hnow]
            rfl
          · rw [if_neg hnow, if_neg hnow]
            by_cases huser : b.root = "user"
            · rw [if_pos huser, if_pos huser]
              rfl
            · rw [if_neg huser, if_neg huser]
              rfl

theorem resolveText_eq (ctx : Context) (text : Text) (w : World) :
    ctx.resolveText text w = .ok (ctx.reading w text) w := by
  unfold resolveText reading
  cases Binding.ofText? text with
  | some b => exact resolve_eq ctx b w
  | none => rfl

theorem reading_of_stores (ctx : Context) {w w₁ : World} (h : w₁.stores = w.stores) (text : Text) :
    ctx.reading w₁ text = ctx.reading w text := by
  unfold reading readAt root
  rw [h]

/-- A closure stands in the data around an expression: in the payload, the user, a singleton, a
local name, or the entity. -/
inductive Carries (ctx : Context) (w : World) (id : Nat) : Prop
  | payload (h : ctx.payload.Holds id)
  | user (h : ctx.user.Holds id)
  | singletons (entry : Text × Value) (hentry : entry ∈ ctx.singletons) (h : entry.2.Holds id)
  | locals (entry : Text × Value) (hentry : entry ∈ ctx.locals) (h : entry.2.Holds id)
  | entity (store : StoreRef) (hstore : ctx.store = some store)
      (h : (w.stores.getD store (.map [])).Holds id)

/-- What is read comes from the data. -/
theorem carries_of_reading {ctx : Context} {w : World} {text : Text} {id : Nat}
    (h : (ctx.reading w text).Holds id) : ctx.Carries w id := by
  have hroot (name : Text) (hname : (ctx.root w name).Holds id) : ctx.Carries w id := by
    unfold root at hname
    split at hname
    · cases hstore : ctx.store with
      | some store =>
        rw [hstore] at hname
        exact .entity store hstore hname
      | none =>
        rw [hstore] at hname
        exact nomatch hname
    · split at hname
      · exact .payload hname
      · split at hname
        · exact .user hname
        · cases hfind : ctx.singletons.find? name with
          | some v =>
            rw [hfind] at hname
            obtain ⟨entry, hentry, rfl⟩ := Table.mem_of_find? hfind
            exact .singletons entry hentry hname
          | none =>
            rw [hfind] at hname
            exact nomatch hname
  unfold Context.reading readAt at h
  cases hb : Binding.ofText? text with
  | none =>
    rw [hb] at h
    exact nomatch h
  | some b =>
    rw [hb] at h
    dsimp only at h
    cases hfind : ctx.locals.find? b.root with
    | some v =>
      rw [hfind] at h
      obtain ⟨entry, hentry, rfl⟩ := Table.mem_of_find? hfind
      exact .locals entry hentry h.of_getIn
    | none =>
      rw [hfind] at h
      dsimp only at h
      split at h
      · exact nomatch h
      · split at h
        · exact nomatch h
        · exact hroot b.root h.of_getIn

/-- No data of a context holds a closure. -/
structure HoldsData (ctx : Context) (w : World) : Prop where
  payload : ∀ id, ¬ ctx.payload.Holds id
  user : ∀ id, ¬ ctx.user.Holds id
  singletons : ∀ entry ∈ ctx.singletons, ∀ id, ¬ entry.2.Holds id
  locals : ∀ entry ∈ ctx.locals, ∀ id, ¬ entry.2.Holds id
  entity : ∀ store ∈ ctx.store, ∀ id, ¬ (w.stores.getD store (.map [])).Holds id

theorem HoldsData.reading {ctx : Context} {w : World} (h : ctx.HoldsData w) (text : Text)
    (id : Nat) : ¬ (ctx.reading w text).Holds id := by
  intro hid
  cases carries_of_reading hid with
  | payload hid => exact h.payload id hid
  | user hid => exact h.user id hid
  | singletons entry hentry hid => exact h.singletons entry hentry id hid
  | locals entry hentry hid => exact h.locals entry hentry id hid
  | entity store hstore hid => exact h.entity store hstore id hid

/-- Related names bound on both sides leave related whatever a text reads. -/
theorem reading_child {R : Correspondence} {c d : Context} {w w' : World} {text : Text}
    (h : R.values (c.reading w text) (d.reading w' text)) {bound bound' : Table Value}
    (hbound : R.tables bound bound') :
    R.values ((c.child bound).reading w text) ((d.child bound').reading w' text) := by
  obtain ⟨rfl, hknown⟩ := hbound
  unfold reading at h ⊢
  cases hb : Binding.ofText? text with
  | none => exact Correspondence.values_undefined
  | some b =>
    rw [hb] at h
    dsimp only at h ⊢
    unfold readAt at h ⊢
    rcases Table.find?_overlay_onValues (Value.rename R.rename) c.locals d.locals bound b.root with
      ⟨entry, hentry, hleft, hright⟩ | ⟨hleft, hright⟩
    · have hleft' : (c.child bound).locals.find? b.root = some entry.2 := hleft
      have hright' : (d.child (Table.onValues (Value.rename R.rename) bound)).locals.find? b.root
          = some (entry.2.rename R.rename) := hright
      rw [hleft', hright']
      exact Correspondence.values.getIn ⟨rfl, hknown entry hentry⟩ b.path
    · have hleft' : (c.child bound).locals.find? b.root = c.locals.find? b.root := hleft
      have hright' : (d.child (Table.onValues (Value.rename R.rename) bound)).locals.find? b.root
          = d.locals.find? b.root := hright
      rw [hleft', hright']
      exact h

end Context
end EntityMachines
