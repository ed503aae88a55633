import EntityMachines.Library
import EntityMachines.Proofs.Value.Renaming
import Mathlib.Data.List.InsertIdx

/-!
Operators on values that call no closure do not depend on the numbers under which closures are
kept.
-/
namespace EntityMachines
namespace Library

open Value (rename)

/-- All operators of a library evaluate their arguments and compute with the values alone. -/
def ByValue (library : Library) : Prop :=
  ∀ entry ∈ library, ∃ f, Equivariant f ∧ entry.2 = Operator.ofValues f

theorem ByValue.append {l l' : Library} (hl : ByValue l) (hl' : ByValue l') : ByValue (l ++ l') :=
  fun entry hentry => (List.mem_append.mp hentry).elim (hl entry) (hl' entry)

theorem ByValue.ofPartial {functions : List (String × (Arguments → Except Error Value))}
    (h : ∀ f ∈ functions, Equivariant f.2) : ByValue (ofPartial functions) := by
  intro entry hentry
  obtain ⟨f, hf, rfl⟩ := List.mem_map.mp hentry
  exact ⟨f.2, h f hf, rfl⟩

theorem ByValue.ofTotal {functions : List (String × (Arguments → Value))}
    (h : ∀ ρ : Nat → Nat, ρ.Injective → ∀ args, ∀ f ∈ functions,
      f.2 (args.map (rename ρ)) = (f.2 args).rename ρ) : ByValue (ofTotal functions) := by
  intro entry hentry
  obtain ⟨f, hf, rfl⟩ := List.mem_map.mp hentry
  exact ⟨_, Equivariant.of_total fun ρ hρ args => h ρ hρ args f hf, rfl⟩

variable {ρ : Nat → Nat}

@[simp] theorem headD_rename (items : List Value) :
    (items.map (rename ρ)).headD .undefined = (items.headD .undefined).rename ρ := by
  cases items <;> rfl

@[simp] theorem getLastD_rename (items : List Value) :
    (items.map (rename ρ)).getLastD .undefined = (items.getLastD .undefined).rename ρ := by
  rw [List.getLastD_eq_getLast?, List.getLastD_eq_getLast?, List.getLast?_map]
  cases items.getLast? <;> rfl

@[simp] theorem getD_rename (v? : Option Value) :
    (v?.map (rename ρ)).getD .undefined = (v?.getD .undefined).rename ρ := by
  cases v? <;> rfl

@[simp] theorem item?_rename (items : List Value) (place : Float) :
    Collection.item? (items.map (rename ρ)) place
      = (Collection.item? items place).map (rename ρ) := by
  unfold Collection.item?
  rw [List.length_map]
  split <;> simp

section arrays

@[simp] theorem Array.items_rename (args : Arguments) :
    Array.items (args.map (rename ρ)) = (Array.items args).map (rename ρ) := by
  simp [Array.items]

@[simp] theorem Array.placeOf_rename (args : Arguments) :
    Array.placeOf (args.map (rename ρ)) = Array.placeOf args := by
  simp [Array.placeOf]

@[simp] theorem Array.length_rename (v : Value) : Array.length (v.rename ρ) = Array.length v := by
  cases v <;> simp [Array.length]

@[simp] theorem Array.isEmpty_rename (v : Value) :
    Array.isEmpty (v.rename ρ) = Array.isEmpty v := by
  cases v <;> simp [Array.isEmpty]

@[simp] theorem Array.optionalNumber_rename (v : Value) :
    Array.optionalNumber (v.rename ρ) = Array.optionalNumber v := by
  cases v <;> rfl

theorem Array.removeFirst_rename (hρ : ρ.Injective) (items : List Value) (v : Value) :
    Array.removeFirst (items.map (rename ρ)) (v.rename ρ)
      = (Array.removeFirst items v).map (rename ρ) := by
  unfold Array.removeFirst
  rw [Items.indexOf?_rename hρ]
  cases Items.indexOf? items v with
  | none => rfl
  | some i => exact List.eraseIdx_map _ _ _

theorem Array.flatMap_items_rename (args : Arguments) :
    (args.map (rename ρ)).flatMap Value.items = (args.flatMap Value.items).map (rename ρ) := by
  simp [List.flatMap_map, List.map_flatMap]

theorem Array.groups_rename (groups : Table (List Value)) :
    (Table.onValues (List.map (rename ρ)) groups).map (fun group => (group.1, Value.array group.2))
      = Table.onValues (rename ρ) (groups.map fun group => (group.1, Value.array group.2)) := by
  simp [Table.onValues]

theorem Array.total_byValue : ByValue Array.total := by
  refine ByValue.ofTotal fun ρ hρ args => ?_
  simp only [List.forall_mem_cons, List.not_mem_nil, false_implies, implies_true, and_true]
  simp [Items.slice_map, Items.takeLast_map, Items.dropLast_map, Items.indexOf?_rename hρ,
    Items.unique_rename hρ, Items.sort_rename, Items.flatten_rename, Items.zip_rename,
    Items.groupBy_rename, Value.occursIn_rename hρ, Array.removeFirst_rename hρ,
    Array.flatMap_items_rename, Array.groups_rename, List.map_insertIdx, List.eraseIdx_map]
  cases Items.indexOf? (Array.items args) (args.nth 1) <;> rfl

end arrays

section maps

@[simp] theorem Object.path_rename (args : Arguments) :
    Object.path (args.map (rename ρ)) = Object.path args := by
  simp [Object.path]

theorem Object.getOr_rename (v fallback : Value) (path : Path) :
    Object.getOr (v.rename ρ) path (fallback.rename ρ)
      = (Object.getOr v path fallback).rename ρ := by
  unfold Object.getOr
  rw [Value.isNullish_rename, Value.getIn_rename]
  split
  · rfl
  · cases v.getIn path <;> simp

theorem Object.has_rename (v : Value) (path : Path) :
    Object.has (v.rename ρ) path = Object.has v path := by
  induction path generalizing v with
  | nil => cases v <;> rfl
  | cons key rest ih =>
    unfold Object.has
    rw [Value.find?_rename]
    cases v.find? key with
    | none => rfl
    | some next => exact ih next

theorem Object.ofPairs_rename (pairs : List Value) :
    Object.ofPairs (pairs.map (rename ρ)) = Table.onValues (rename ρ) (Object.ofPairs pairs) := by
  unfold Object.ofPairs
  rw [← Table.ofEntries_onValues, List.filterMap_map, List.map_filterMap]
  congr 2
  funext pair
  cases pair with
  | array items => cases items <;> simp
  | _ => simp

theorem Object.pick_rename (entries : Table Value) (keys : List Value) :
    Object.pick (Table.onValues (rename ρ) entries) (keys.map (rename ρ))
      = Table.onValues (rename ρ) (Object.pick entries keys) := by
  unfold Object.pick
  rw [← Table.ofEntries_onValues, List.filterMap_map, List.map_filterMap]
  congr 2
  funext key
  simp only [Function.comp_apply, Value.display_rename, Table.find?_onValues]
  cases entries.find? key.display <;> rfl

theorem Object.without_rename (entries : Table Value) (keys : List Value) :
    Object.without (Table.onValues (rename ρ) entries) (keys.map (rename ρ))
      = Table.onValues (rename ρ) (Object.without entries keys) := by
  unfold Object.without Table.onValues
  rw [List.filter_map]
  simp [Function.comp_def]

theorem Object.mergeAll_rename (args : Arguments) :
    Object.mergeAll (args.map (rename ρ)) = Table.onValues (rename ρ) (Object.mergeAll args) := by
  have hfold (merged : Table Value) :
      (args.map (rename ρ)).foldl (fun merged v => Table.overlay merged v.entries)
          (Table.onValues (rename ρ) merged)
        = Table.onValues (rename ρ)
          (args.foldl (fun merged v => Table.overlay merged v.entries) merged) := by
    induction args generalizing merged with
    | nil => rfl
    | cons arg rest ih =>
      rw [List.map_cons, List.foldl_cons, List.foldl_cons, Value.entries_rename,
        Table.overlay_onValues, ih]
  exact hfold []

theorem Object.deepMergeAll_rename (args : Arguments) :
    Object.deepMergeAll (args.map (rename ρ))
      = Table.onValues (rename ρ) (Object.deepMergeAll args) := by
  have hfold (merged : Table Value) :
      (args.map (rename ρ)).foldl (fun merged v => Value.deepMerge merged v.entries)
          (Table.onValues (rename ρ) merged)
        = Table.onValues (rename ρ)
          (args.foldl (fun merged v => Value.deepMerge merged v.entries) merged) := by
    induction args generalizing merged with
    | nil => rfl
    | cons arg rest ih =>
      rw [List.map_cons, List.foldl_cons, List.foldl_cons, Value.entries_rename,
        Value.deepMerge_rename, ih]
  exact hfold []

theorem Object.pairs_rename (entries : Table Value) :
    (Table.onValues (rename ρ) entries).map (fun entry => Value.array [.string entry.1, entry.2])
      = (entries.map fun entry => Value.array [.string entry.1, entry.2]).map (rename ρ) := by
  simp [Table.onValues]

theorem Object.total_byValue : ByValue Object.total := by
  refine ByValue.ofTotal fun ρ hρ args => ?_
  simp only [List.forall_mem_cons, List.not_mem_nil, false_implies, implies_true, and_true]
  simp [Object.getOr_rename, Object.has_rename, Object.ofPairs_rename, Object.pick_rename,
    Object.without_rename, Object.mergeAll_rename, Object.deepMergeAll_rename,
    Object.pairs_rename, Value.equal_rename hρ]

theorem Object.paths_byValue : ByValue Object.paths := by
  have hjoin : Equivariant Object.joinPath := by
    intro ρ _ args
    unfold Object.joinPath
    rw [List.isEmpty_map, List.length_map]
    simp only [Arguments.text_rename]
    split <;> rfl
  refine ByValue.ofPartial ?_
  simp only [List.forall_mem_cons, List.not_mem_nil, false_implies, implies_true, and_true]
  exact ⟨hjoin, hjoin⟩

end maps

section scalars

theorem Math.orDefault_rename (v fallback : Value) :
    Math.orDefault (v.rename ρ) (fallback.rename ρ) = (Math.orDefault v fallback).rename ρ := by
  cases v with
  | number x =>
    simp only [Value.rename_number, Math.orDefault]
    split <;> rfl
  | _ => simp [Math.orDefault]

theorem Math.total_byValue : ByValue Math.total := by
  refine ByValue.ofTotal fun ρ hρ args => ?_
  simp only [List.forall_mem_cons, List.not_mem_nil, false_implies, implies_true, and_true]
  simp [Math.ofNumber, Math.ofNumbers, Math.orDefault_rename, List.foldl_map]

theorem Math.demanding_byValue : ByValue Math.demanding := by
  refine ByValue.ofPartial ?_
  simp only [List.forall_mem_cons, List.not_mem_nil, false_implies, implies_true, and_true]
  constructor
  · intro ρ _ args
    simp only [Arguments.require_rename, Arguments.number_rename]
    cases args.require "math/clamp" 3 <;> rfl
  · intro ρ _ args
    simp only [Arguments.require_rename, Arguments.number_rename]
    cases args.require "math/map" 5 <;> rfl

@[simp] theorem Strings.length_rename (v : Value) :
    Strings.length (v.rename ρ) = Strings.length v := by
  cases v <;> simp [Strings.length]

@[simp] theorem Strings.optionalNumber_rename (v : Value) :
    Strings.optionalNumber (v.rename ρ) = Strings.optionalNumber v := by
  cases v <;> rfl

theorem Strings.split_rename (v : Value) (delimiter : Text) :
    Strings.split (v.rename ρ) delimiter = (Strings.split v delimiter).rename ρ := by
  unfold Strings.split
  rw [Value.isNullish_rename, Value.display_rename]
  split <;> simp

@[simp] theorem Strings.join_rename (v : Value) (delimiter : Text) :
    Strings.join (v.rename ρ) delimiter = Strings.join v delimiter := by
  cases v with
  | array items => simp [Strings.join, Function.comp_def]
  | _ => rfl

@[simp] theorem Strings.fillTemplate_rename (vars : Value) (fuel : Nat) (t : Text) :
    Strings.fillTemplate (vars.rename ρ) fuel t = Strings.fillTemplate vars fuel t := by
  induction fuel generalizing t with
  | zero => rfl
  | succ fuel ih =>
    cases t with
    | nil => rfl
    | cons b rest =>
      simp only [Strings.fillTemplate, ih, Value.get_rename]
      cases vars.get (rest.takeWhile Text.isWordByte) with
      | array items =>
        have hdisplay := Value.display_rename (ρ := ρ) (.array items)
        rw [Value.rename_array] at hdisplay ⊢
        dsimp only
        rw [hdisplay]
      | _ => rfl

theorem Strings.orDefault_rename (v fallback : Value) :
    Strings.orDefault (v.rename ρ) (fallback.rename ρ)
      = (Strings.orDefault v fallback).rename ρ := by
  cases v with
  | string s => cases s <;> rfl
  | _ => simp [Strings.orDefault]

theorem Strings.ask_rename (f : Text → Text → Bool) (args : Arguments) :
    Strings.ask f (args.map (rename ρ)) = (Strings.ask f args).rename ρ := by
  unfold Strings.ask
  rw [Arguments.nth_rename, Value.isNullish_rename, Arguments.text_rename, Arguments.text_rename]
  split <;> rfl

theorem Strings.total_byValue : ByValue Strings.total := by
  refine ByValue.ofTotal fun ρ hρ args => ?_
  simp only [List.forall_mem_cons, List.not_mem_nil, false_implies, implies_true, and_true]
  simp [Strings.ofText, Strings.split_rename, Strings.orDefault_rename, Strings.ask_rename]

theorem Strings.demanding_byValue : ByValue Strings.demanding := by
  refine ByValue.ofPartial ?_
  simp only [List.forall_mem_cons, List.not_mem_nil, false_implies, implies_true, and_true]
  intro ρ _ args
  simp only [Arguments.text_rename, Arguments.number_rename, Strings.replicate]
  split <;> rfl

@[simp] theorem Time.timeAt_rename (args : Arguments) (i : Nat) :
    Time.timeAt (args.map (rename ρ)) i = Time.timeAt args i := by
  simp [Time.timeAt]

@[simp] theorem Time.periodAt_rename (args : Arguments) (i : Nat) :
    Time.periodAt (args.map (rename ρ)) i = Time.periodAt args i := by
  simp [Time.periodAt]

theorem Time.parse_rename (args : Arguments) :
    (match Arguments.nth (args.map (rename ρ)) 0 with
      | .number x => Value.number x
      | _ => .number (Time.parse (Arguments.text (args.map (rename ρ)) 0)))
      = rename ρ (match args.nth 0 with
        | .number x => Value.number x
        | _ => .number (Time.parse (args.text 0))) := by
  rw [Arguments.nth_rename, Arguments.text_rename]
  cases args.nth 0 <;> simp

theorem Time.total_byValue : ByValue Time.total := by
  refine ByValue.ofTotal fun ρ hρ args => ?_
  simp only [List.forall_mem_cons, List.not_mem_nil, false_implies, implies_true, and_true]
  refine ⟨Time.parse_rename args, ?_⟩
  simp [Time.field]

@[simp] theorem Format.number_rename (x : Float) (options : Value) :
    Format.number x (options.rename ρ) = Format.number x options := by
  simp [Format.number]

theorem Format.orInput_rename (input : Value) (t? : Option Text) :
    Format.orInput (input.rename ρ) t? = (Format.orInput input t?).rename ρ := by
  cases t? <;> rfl

theorem Format.operators_byValue : ByValue Format.operators := by
  refine ByValue.ofTotal fun ρ hρ args => ?_
  simp only [List.forall_mem_cons, List.not_mem_nil, false_implies, implies_true, and_true]
  simp [Format.orInput_rename, Function.comp_def]

end scalars

section rules

open Validate (rules keeps)

theorem Validate.length?_rename (v : Value) :
    Validate.length? (v.rename ρ) = Validate.length? v := by
  cases v <;> simp [Validate.length?]

/-- Rules do not depend on the numbers of closures. -/
theorem Validate.rules_rename (hρ : ρ.Injective) (v : Value) (args : Arguments) :
    ∀ rule ∈ rules, rule.2 (v.rename ρ) (args.map (rename ρ)) = rule.2 v args := by
  simp only [rules, List.forall_mem_cons, List.not_mem_nil, false_implies, implies_true, and_true,
    Value.equal_rename hρ, Arguments.nth_rename, Arguments.number_rename, Arguments.text_rename,
    Value.items_rename, Value.occursIn_rename hρ, Validate.lengthHolds, Validate.length?_rename,
    Value.isMap_rename, true_and]
  and_intros
  all_goals cases v <;> rfl

theorem Validate.keeps_rename (hρ : ρ.Injective) (v rule : Value) :
    keeps (v.rename ρ) (rule.rename ρ) = keeps v rule := by
  unfold keeps
  rw [Value.items_rename]
  cases rule.items with
  | nil => rfl
  | cons name args =>
    simp only [List.map_cons, Value.display_rename]
    cases hlookup : rules.lookup name.display with
    | none => rfl
    | some holds =>
      obtain ⟨before, behind, heq, -⟩ := List.lookup_eq_some_iff.mp hlookup
      have hmem : (name.display, holds) ∈ rules := by simp [heq]
      exact Validate.rules_rename hρ v args _ hmem

theorem Validate.failures_rename (hρ : ρ.Injective) (subject : Value) (fields : Table Value) :
    Validate.failures (subject.rename ρ) (Table.onValues (rename ρ) fields)
      = Validate.failures subject fields := by
  simp [Validate.failures, Table.onValues, List.flatMap_map, List.filter_map, Function.comp_def,
    Validate.keeps_rename hρ]

theorem Validate.operators_byValue : ByValue Validate.operators := by
  refine ByValue.append ?_ (ByValue.ofTotal fun ρ hρ args => ?_)
  · intro entry hentry
    obtain ⟨rule, hrule, rfl⟩ := List.mem_map.mp hentry
    refine ⟨_, Equivariant.of_total fun ρ hρ args => ?_, rfl⟩
    rw [Arguments.nth_rename, ← List.map_drop, Validate.rules_rename hρ _ _ rule hrule]
    rfl
  · simp only [List.forall_mem_cons, List.not_mem_nil, false_implies, implies_true, and_true]
    simp [Validate.check, Validate.failures_rename hρ]

end rules

end Library
end EntityMachines
