import EntityMachines.Machine.Creation
import EntityMachines.Proofs.Document.Written
import EntityMachines.Proofs.Table

/-!
What a configuration has to do with its schema. Main statement: a configuration that was accepted
has all that is required and given and the declared defaults elsewhere, its optional fields have
values that are allowed, and it is accepted again as it is; its required fields have allowed values
exactly if those that were given for them are allowed, since nothing refuses others.
-/
namespace EntityMachines

def ConfigField.PresentIn (f : ConfigField) (config : Table Value) : Prop :=
  ∃ v, config.find? f.name = some v ∧ v.isNullish = false

/-- Where values are listed for the field, it has one of them, a nullish value or none. -/
def ConfigField.AllowedIn (f : ConfigField) (config : Table Value) : Prop :=
  f.allowed ≠ [] → ∀ v, config.find? f.name = some v → v.isNullish = false →
    v.occursIn f.allowed = true

namespace Definition

/-- The configuration is as the schema of the definition says, for what was given. -/
structure Satisfies (d : Definition) (given : Value) (config : Table Value) : Prop where
  required : ∀ f ∈ d.requiredConfig, f.PresentIn config
  allowed : ∀ f ∈ d.requiredConfig ++ d.optionalConfig, f.AllowedIn config
  kept : ∀ key v, given.find? key = some v → config.find? key = some v
  /-- Of several fields with one name the last with a default counts. -/
  default : ∀ before f after, d.optionalConfig = before ++ f :: after → f.default ≠ .undefined →
    (∀ g ∈ after, g.name = f.name → g.default = .undefined) → given.find? f.name = none →
    config.find? f.name = some f.default
  stable : d.configure (.map config) = .ok config

theorem configured?_eq_some {config : Table Value} {name : Text} {v : Value} :
    configured? config name = some v ↔ config.find? name = some v ∧ v.isNullish = false := by
  unfold configured?
  cases config.find? name with
  | none => simp
  | some u =>
    by_cases hu : u.isNullish = true
    · simp only [hu, if_true]
      constructor
      · intro h
        cases h
      · rintro ⟨h, hv⟩
        cases h
        cases hu.symm.trans hv
    · simp only [hu, Bool.false_eq_true, if_false]
      constructor
      · intro h
        cases h
        exact ⟨rfl, by simpa using hu⟩
      · rintro ⟨h, -⟩
        exact h

theorem checkRequired_ok {d : Definition} {config : Table Value} {f : ConfigField} :
    d.checkRequired config f = .ok () ↔ f.PresentIn config := by
  have hpresent : (configured? config f.name).isSome = true ↔ f.PresentIn config := by
    unfold ConfigField.PresentIn
    simp only [Option.isSome_iff_exists, configured?_eq_some]
  unfold checkRequired
  split
  next h => exact iff_of_true rfl (hpresent.mp h)
  next h =>
    refine iff_of_false ?_ fun hf => h (hpresent.mpr hf)
    intro hok
    cases hok

theorem checkAllowed_ok {d : Definition} {config : Table Value} {f : ConfigField} :
    d.checkAllowed config f = .ok () ↔ f.AllowedIn config := by
  unfold checkAllowed
  split
  next h =>
    have hnone : f.allowed = [] := by simpa using h
    exact iff_of_true rfl fun hsome => absurd hnone hsome
  next h =>
    have hsome : f.allowed ≠ [] := by simpa using h
    split
    next hconfigured =>
      refine iff_of_true rfl fun _ v hv hnullish => ?_
      cases hconfigured.symm.trans (configured?_eq_some.mpr ⟨hv, hnullish⟩)
    next v hconfigured =>
      obtain ⟨hv, hnullish⟩ := configured?_eq_some.mp hconfigured
      split
      next hoccurs =>
        refine iff_of_true rfl fun _ u hu _ => ?_
        cases hv.symm.trans hu
        exact hoccurs
      next hoccurs =>
        refine iff_of_false ?_ fun hf => hoccurs (hf hsome v hv hnullish)
        intro hok
        cases hok

theorem forM_ok {check : ConfigField → Except BehaviorFault Unit} {fields : List ConfigField} :
    fields.forM check = .ok () ↔ ∀ f ∈ fields, check f = .ok () := by
  induction fields with
  | nil => exact iff_of_true rfl (by simp)
  | cons f fields ih =>
    rw [List.forall_mem_cons, ← ih]
    change (check f >>= fun _ => fields.forM check) = .ok () ↔ _
    cases check f with
    | ok => exact (and_iff_right rfl).symm
    | error e =>
      refine iff_of_false ?_ fun h => ?_
      · intro h
        cases h
      · cases h.1

/-- A configuration is the given entries over the defaults, if it has what is required and its
optional fields have values that are allowed. -/
theorem configure_ok_iff {d : Definition} {given : Value} {config : Table Value} :
    d.configure given = .ok config ↔
      config = d.configDefaults.overlay given.entries ∧
      (∀ f ∈ d.requiredConfig, f.PresentIn config) ∧
      ∀ f ∈ d.optionalConfig, f.AllowedIn config := by
  unfold configure
  dsimp only
  generalize d.configDefaults.overlay given.entries = resolved
  have hrequired : d.requiredConfig.forM (d.checkRequired resolved) = .ok () ↔
      ∀ f ∈ d.requiredConfig, f.PresentIn resolved := by simp only [forM_ok, checkRequired_ok]
  have hallowed : d.optionalConfig.forM (d.checkAllowed resolved) = .ok () ↔
      ∀ f ∈ d.optionalConfig, f.AllowedIn resolved := by simp only [forM_ok, checkAllowed_ok]
  constructor
  · intro h
    cases hr : d.requiredConfig.forM (d.checkRequired resolved) with
    | error e =>
      rw [hr] at h
      cases h
    | ok =>
      rw [hr] at h
      cases ha : d.optionalConfig.forM (d.checkAllowed resolved) with
      | error e =>
        rw [ha] at h
        cases h
      | ok =>
        rw [ha] at h
        cases h
        exact ⟨rfl, hrequired.mp hr, hallowed.mp ha⟩
  · rintro ⟨rfl, hr, ha⟩
    rw [hrequired.mpr hr, hallowed.mpr ha]
    rfl

theorem configDefaults_ordered (d : Definition) : d.configDefaults.Ordered :=
  Table.ordered_ofEntries _

/-- The last field with a name that has a default gives the default of that name. -/
theorem find?_configDefaults {d : Definition} {before after : List ConfigField} {f : ConfigField}
    (hfields : d.optionalConfig = before ++ f :: after) (hf : f.default ≠ .undefined)
    (hlast : ∀ g ∈ after, g.name = f.name → g.default = .undefined) :
    d.configDefaults.find? f.name = some f.default := by
  unfold configDefaults
  rw [hfields, List.filterMap_append, List.filterMap_cons]
  split
  next h =>
    split at h
    next hnone => exact absurd hnone hf
    next => cases h
  next entry h =>
    split at h
    next => cases h
    next =>
      cases h
      refine Table.find?_ofEntries_of_last fun entry hentry => ?_
      obtain ⟨g, hg, hdefault⟩ := List.mem_filterMap.mp hentry
      intro hname
      split at hdefault
      next => cases hdefault
      next hsome =>
        cases hdefault
        exact hsome (hlast g hg hname)

/-- The configuration again is no other configuration. -/
theorem configure_configured {d : Definition} {given : Value} {config : Table Value}
    (hgiven : given.entries.Ordered) (h : d.configure given = .ok config) :
    d.configure (.map config) = .ok config := by
  obtain ⟨hconfig, hchecks⟩ := configure_ok_iff.mp h
  refine configure_ok_iff.mpr ⟨?_, hchecks⟩
  change config = d.configDefaults.overlay config
  rw [hconfig, Table.overlay_overlay d.configDefaults_ordered hgiven]

/-- An accepted configuration satisfies its schema exactly if the required fields for which values
are listed have one of them. -/
theorem satisfies_iff {d : Definition} {given : Value} {config : Table Value}
    (hgiven : given.entries.Ordered) (h : d.configure given = .ok config) :
    d.Satisfies given config ↔ ∀ f ∈ d.requiredConfig, f.AllowedIn config := by
  obtain ⟨hconfig, hrequired, hoptional⟩ := configure_ok_iff.mp h
  have hfind (key : Text) :
      config.find? key = (given.find? key).or (d.configDefaults.find? key) := by
    rw [hconfig, Table.find?_overlay hgiven]
    rfl
  constructor
  · intro hsatisfies f hf
    exact hsatisfies.allowed f (List.mem_append_left _ hf)
  · intro hallowed
    constructor
    case required => exact hrequired
    case allowed =>
      intro f hf
      rcases List.mem_append.mp hf with hf | hf
      · exact hallowed f hf
      · exact hoptional f hf
    case kept =>
      intro key v hv
      rw [hfind, hv]
      rfl
    case default =>
      intro before f after hfields hf hlast hnone
      rw [hfind, hnone]
      exact find?_configDefaults hfields hf hlast
    case stable => exact configure_configured hgiven h

/-- A thermostat has to be told its mode, and its unit may be changed. -/
def thermostat : Definition where
  name := "std/Thermostat"
  initial := "on"
  states := [{ name := "on" }]
  requiredConfig := [{ name := "mode", allowed := [.string "cool", .string "heat"] }]
  optionalConfig := [{ name := "unit", default := .string "C" },
    { name := "unit", default := .string "F", allowed := [.string "C", .string "F"] }]

def heated : Value := .map [("mode", .string "heat"), ("room", .null)]

def heatedConfig : Table Value :=
  [("mode", .string "heat"), ("room", .null), ("unit", .string "F")]

theorem thermostat_satisfied :
    heated.entries.Ordered ∧ thermostat.configure heated = .ok heatedConfig ∧
      thermostat.Satisfies heated heatedConfig := by
  have hgiven : heated.entries.Ordered := List.pairwise_pair.mpr (by decide)
  have hconfigure : thermostat.configure heated = .ok heatedConfig := rfl
  refine ⟨hgiven, hconfigure, (satisfies_iff hgiven hconfigure).mpr ?_⟩
  intro f hf
  cases List.mem_singleton.mp hf
  intro _ v hv _
  cases hv
  rfl

/-- A mode that is not allowed is accepted. -/
theorem thermostat_misled :
    ∃ doc d given config, ofDocument doc = .ok d ∧ given.entries.Ordered ∧
      d.configure given = .ok config ∧ ¬d.Satisfies given config := by
  refine ⟨thermostat.toDocument, thermostat, .map [("mode", .string "off")],
    [("mode", .string "off"), ("unit", .string "F")], rfl, List.pairwise_singleton _ _, rfl, ?_⟩
  intro h
  have hmode : ConfigField.AllowedIn _ _ := h.allowed _ List.mem_cons_self
  have hoccurs := hmode (by decide) _ rfl rfl
  cases hoccurs

end Definition
end EntityMachines
