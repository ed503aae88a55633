import EntityMachines.Eval.Arguments
import EntityMachines.Proofs.Value.Parts
import EntityMachines.Value.Items
import EntityMachines.Value.Path
import EntityMachines.Value.Printer

/-!
Closures under other numbers. What is computed from values without calling a closure does not
depend on the numbers under which closures are kept: it commutes with every renaming of them. So
it has no closures of its own either; those in the result come from the arguments.
-/
namespace EntityMachines

/-- A table with other values under the same keys. -/
def Table.onValues {α β : Type} (f : α → β) (t : Table α) : Table β :=
  t.map fun entry => (entry.1, f entry.2)

namespace Table

variable {α β : Type} (f : α → β)

@[simp] theorem onValues_nil : onValues f [] = [] := rfl

@[simp] theorem onValues_cons (entry : Text × α) (t : Table α) :
    onValues f (entry :: t) = (entry.1, f entry.2) :: onValues f t := rfl

@[simp] theorem onValues_isEmpty (t : Table α) : (onValues f t).isEmpty = t.isEmpty := by
  cases t <;> rfl

@[simp] theorem keys_onValues (t : Table α) : (onValues f t).keys = t.keys := by
  simp [keys, onValues]

@[simp] theorem values_onValues (t : Table α) : (onValues f t).values = t.values.map f := by
  simp [values, onValues]

@[simp] theorem find?_onValues (t : Table α) (key : Text) :
    (onValues f t).find? key = (t.find? key).map f := by
  induction t with
  | nil => rfl
  | cons entry rest ih =>
    rw [onValues_cons, find?, find?, ih]
    split <;> rfl

@[simp] theorem insert_onValues (t : Table α) (key : Text) (x : α) :
    (onValues f t).insert key (f x) = onValues f (t.insert key x) := by
  induction t with
  | nil => rfl
  | cons entry rest ih =>
    rw [onValues_cons, insert, insert]
    by_cases hsame : entry.1 == key
    · simp [hsame]
    · by_cases hbefore : Text.before key entry.1
      · simp [hsame, hbefore]
      · simp [hsame, hbefore, ih]

@[simp] theorem overlay_onValues (base top : Table α) :
    overlay (onValues f base) (onValues f top) = onValues f (overlay base top) := by
  unfold overlay
  induction top generalizing base with
  | nil => rfl
  | cons entry rest ih =>
    rw [onValues_cons, List.foldl_cons, List.foldl_cons, insert_onValues, ih]

theorem ofEntries_onValues (entries : List (Text × α)) :
    ofEntries (entries.map fun entry => (entry.1, f entry.2)) = onValues f (ofEntries entries) :=
  overlay_onValues f [] entries

end Table

namespace Value

mutual

/-- The value with its closures under other numbers. -/
def rename (ρ : Nat → Nat) : Value → Value
  | array items => array (renameItems ρ items)
  | map entries => map (renameEntries ρ entries)
  | closure id => closure (ρ id)
  | v => v

def renameItems (ρ : Nat → Nat) : List Value → List Value
  | [] => []
  | item :: rest => rename ρ item :: renameItems ρ rest

def renameEntries (ρ : Nat → Nat) : List (Text × Value) → List (Text × Value)
  | [] => []
  | (key, item) :: rest => (key, rename ρ item) :: renameEntries ρ rest

end

variable {ρ : Nat → Nat}

theorem renameItems_eq_map (items : List Value) : renameItems ρ items = items.map (rename ρ) := by
  induction items with
  | nil => rfl
  | cons item rest ih => rw [renameItems, ih, List.map_cons]

theorem renameEntries_eq_onValues (entries : List (Text × Value)) :
    renameEntries ρ entries = Table.onValues (rename ρ) entries := by
  induction entries with
  | nil => rfl
  | cons entry rest ih => rw [renameEntries, ih, Table.onValues_cons]

@[simp] theorem rename_undefined : rename ρ undefined = undefined := rfl

@[simp] theorem rename_null : rename ρ null = null := rfl

@[simp] theorem rename_bool (b : Bool) : rename ρ (bool b) = bool b := rfl

@[simp] theorem rename_number (x : Float) : rename ρ (number x) = number x := rfl

@[simp] theorem rename_ofNat (n : Nat) : rename ρ (ofNat n) = ofNat n := rfl

@[simp] theorem rename_string (s : Text) : rename ρ (string s) = string s := rfl

@[simp] theorem rename_closure (id : Nat) : rename ρ (closure id) = closure (ρ id) := rfl

@[simp] theorem rename_array (items : List Value) :
    rename ρ (array items) = array (items.map (rename ρ)) := by
  rw [rename, renameItems_eq_map]

@[simp] theorem rename_map (entries : List (Text × Value)) :
    rename ρ (map entries) = map (Table.onValues (rename ρ) entries) := by
  rw [rename, renameEntries_eq_onValues]

/-- The closures that a value holds, at any depth. -/
def Holds (v : Value) (id : Nat) : Prop := closure id ∈ v.parts

theorem holds_array {items : List Value} {id : Nat} :
    (array items).Holds id ↔ ∃ item ∈ items, item.Holds id := by
  simp [Holds, mem_parts_array]

theorem holds_map {entries : List (Text × Value)} {id : Nat} :
    (map entries).Holds id ↔ ∃ entry ∈ entries, entry.2.Holds id := by
  simp [Holds, mem_parts_map]

theorem not_holds_undefined (id : Nat) : ¬undefined.Holds id := by
  intro h
  cases List.mem_singleton.mp h

theorem holds_closure {id other : Nat} : (closure id).Holds other ↔ other = id := by
  simp [Holds, parts]

theorem map_eq_self_iff {α : Type} {f : α → α} {l : List α} : l.map f = l ↔ ∀ a ∈ l, f a = a := by
  simpa using List.map_inj_left (f := f) (g := id) (l := l)

/-- A renaming leaves a value as it is if it leaves the numbers of its closures, and only then. -/
theorem rename_eq_self_iff {v : Value} : v.rename ρ = v ↔ ∀ id, v.Holds id → ρ id = id := by
  induction v using Value.inductionOn with
  | undefined | null | bool | number | string => simp [Holds, parts]
  | closure id => simp [holds_closure]
  | array items ih =>
    simp only [rename_array, array.injEq, holds_array, map_eq_self_iff]
    constructor
    · rintro h id ⟨item, hitem, hid⟩
      exact (ih item hitem).mp (h item hitem) id hid
    · intro h item hitem
      exact (ih item hitem).mpr fun id hid => h id ⟨item, hitem, hid⟩
  | map entries ih =>
    simp only [rename_map, map.injEq, holds_map, Table.onValues, map_eq_self_iff]
    constructor
    · rintro h id ⟨entry, hentry, hid⟩
      exact (ih entry hentry).mp (congrArg Prod.snd (h entry hentry)) id hid
    · intro h entry hentry
      exact Prod.ext rfl ((ih entry hentry).mpr fun id hid => h id ⟨entry, hentry, hid⟩)

section readings

variable (v : Value)

@[simp] theorem kind_rename : (v.rename ρ).kind = v.kind := by cases v <;> rfl

@[simp] theorem isNullish_rename : (v.rename ρ).isNullish = v.isNullish := by cases v <;> rfl

@[simp] theorem isMap_rename : (v.rename ρ).isMap = v.isMap := by cases v <;> rfl

@[simp] theorem isTruthy_rename : (v.rename ρ).isTruthy = v.isTruthy := by cases v <;> rfl

@[simp] theorem toNumber_rename : (v.rename ρ).toNumber = v.toNumber := by cases v <;> rfl

@[simp] theorem entries_rename : (v.rename ρ).entries = Table.onValues (rename ρ) v.entries := by
  cases v <;> simp [entries]

@[simp] theorem items_rename : (v.rename ρ).items = v.items.map (rename ρ) := by
  cases v <;> simp [items]

@[simp] theorem find?_rename (key : Text) :
    (v.rename ρ).find? key = (v.find? key).map (rename ρ) := by
  simp [find?]

@[simp] theorem get_rename (key : Text) : (v.rename ρ).get key = (v.get key).rename ρ := by
  rw [get, get, find?_rename]
  cases v.find? key <;> rfl

@[simp] theorem put_rename (key : Text) (item : Value) :
    (v.rename ρ).put key (item.rename ρ) = (v.put key item).rename ρ := by
  simp [put]

@[simp] theorem orEmptyMap_rename : (v.rename ρ).orEmptyMap = v.orEmptyMap.rename ρ := by
  unfold orEmptyMap
  rw [isMap_rename]
  split <;> simp

@[simp] theorem displayItem_rename : (v.rename ρ).displayItem = v.displayItem := by
  induction v using Value.inductionOn with
  | undefined | null | bool | number | string | closure => rfl
  | map entries => rw [rename_map, displayItem, displayItem]
  | array items ih =>
    have hrest (rest : List Value)
        (hrest : ∀ item ∈ rest, (item.rename ρ).displayItem = item.displayItem) :
        displayRest (rest.map (rename ρ)) = displayRest rest := by
      induction rest with
      | nil => rfl
      | cons item rest ihrest =>
        rw [List.map_cons, displayRest, displayRest, hrest item List.mem_cons_self,
          ihrest fun item hitem => hrest item (List.mem_cons_of_mem _ hitem)]
    rw [rename_array]
    cases items with
    | nil => rfl
    | cons item rest =>
      rw [List.map_cons, displayItem, displayItem, ih item List.mem_cons_self,
        hrest rest fun item hitem => ih item (List.mem_cons_of_mem _ hitem)]

@[simp] theorem display_rename : (v.rename ρ).display = v.display := by
  have hitem := displayItem_rename (ρ := ρ) v
  cases v <;> first | rfl | exact hitem

@[simp] theorem comparable_rename : (v.rename ρ).comparable = v.comparable := by
  have hdisplay := display_rename (ρ := ρ) v
  cases v <;> first | rfl | exact congrArg string hdisplay

@[simp] theorem getIn_rename (path : Path) :
    (v.rename ρ).getIn path = (v.getIn path).rename ρ := by
  induction path generalizing v with
  | nil => cases v <;> simp [getIn]
  | cons key path ih =>
    cases v with
    | map entries =>
      have hget := get_rename (ρ := ρ) (map entries) key
      rw [rename_map] at hget ⊢
      rw [getIn, getIn, hget, ih]
    | _ => simp [getIn]

@[simp] theorem assocIn_rename (path : Path) (item : Value) :
    (v.rename ρ).assocIn path (item.rename ρ) = (v.assocIn path item).rename ρ := by
  induction path generalizing v with
  | nil => rfl
  | cons key path ih => rw [assocIn, assocIn, get_rename, ih, put_rename]

/-- Closures are printed alike, whatever their numbers. -/
@[simp] theorem write_rename (form : Form) : (v.rename ρ).write form = v.write form := by
  induction v using Value.inductionOn with
  | undefined | null | bool | number | string | closure => rfl
  | array items ih =>
    have hitems (first : Bool) :
        writeItems form first (items.map (rename ρ)) = writeItems form first items := by
      induction items generalizing first with
      | nil => rfl
      | cons item rest ihrest =>
        rw [List.map_cons, writeItems, writeItems, ih item List.mem_cons_self,
          ihrest fun item hitem => ih item (List.mem_cons_of_mem _ hitem)]
    rw [rename_array, write, write, hitems]
  | map entries ih =>
    have hentries (first : Bool) :
        writeEntries form first (Table.onValues (rename ρ) entries)
          = writeEntries form first entries := by
      induction entries generalizing first with
      | nil => rfl
      | cons entry rest ihrest =>
        have hshows : form.shows (entry.2.rename ρ) = form.shows entry.2 := by
          cases entry.2 <;> rfl
        have hrest (first : Bool) :=
          ihrest (fun entry hentry => ih entry (List.mem_cons_of_mem _ hentry)) first
        rw [Table.onValues_cons, writeEntries, writeEntries, hshows, ih entry List.mem_cons_self,
          hrest, hrest]
    rw [rename_map, write, write, hentries]

end readings

/-- Values are equal exactly if they are so under other numbers, where no two become one. -/
theorem equal_rename (hρ : ρ.Injective) (v u : Value) :
    (v.rename ρ).equal (u.rename ρ) = v.equal u := by
  induction v using Value.inductionOn generalizing u with
  | undefined | null | bool | number | string => cases u <;> simp [equal]
  | closure id =>
    cases u with
    | closure other =>
      rw [rename_closure, rename_closure, equal, equal, Bool.eq_iff_iff, beq_iff_eq, beq_iff_eq]
      exact hρ.eq_iff
    | _ => simp [equal]
  | array items ih =>
    cases u with
    | array others =>
      simp only [rename_array, equal]
      induction items generalizing others with
      | nil => cases others <;> rfl
      | cons item rest ihrest =>
        cases others with
        | nil => rfl
        | cons other others =>
          rw [List.map_cons, List.map_cons, equalItems, equalItems, ih item List.mem_cons_self,
            ihrest fun item hitem => ih item (List.mem_cons_of_mem _ hitem)]
    | _ => simp [equal]
  | map entries ih =>
    cases u with
    | map others =>
      simp only [rename_map, equal]
      induction entries generalizing others with
      | nil => cases others <;> rfl
      | cons entry rest ihrest =>
        cases others with
        | nil => rfl
        | cons other others =>
          rw [Table.onValues_cons, Table.onValues_cons, equalEntries, equalEntries,
            ih entry List.mem_cons_self,
            ihrest fun entry hentry => ih entry (List.mem_cons_of_mem _ hentry)]
    | _ => simp [equal]

theorem occursIn_rename (hρ : ρ.Injective) (v : Value) (items : List Value) :
    (v.rename ρ).occursIn (items.map (rename ρ)) = v.occursIn items := by
  simp [occursIn, List.any_map, Function.comp_def, equal_rename hρ]

mutual

theorem mergeOver_rename (existing : Option Value) (incoming : Value) :
    mergeOver (existing.map (rename ρ)) (incoming.rename ρ)
      = (mergeOver existing incoming).rename ρ := by
  cases incoming with
  | map entries =>
    rw [rename_map]
    cases existing with
    | none => simp [mergeOver]
    | some base =>
      cases base with
      | map base => simp [mergeOver, deepMerge_rename base entries]
      | _ => simp [mergeOver]
  | _ => simp [mergeOver]

theorem deepMerge_rename (base entries : List (Text × Value)) :
    deepMerge (Table.onValues (rename ρ) base) (Table.onValues (rename ρ) entries)
      = Table.onValues (rename ρ) (deepMerge base entries) := by
  match entries with
  | [] => rfl
  | (key, incoming) :: rest =>
    rw [Table.onValues_cons, deepMerge, deepMerge, Table.find?_onValues,
      mergeOver_rename (Table.find? base key) incoming, Table.insert_onValues,
      deepMerge_rename _ rest]

end

end Value

namespace Arguments

variable {ρ : Nat → Nat} (args : Arguments) (i : Nat)

@[simp] theorem nth_rename :
    Arguments.nth (args.map (Value.rename ρ)) i = (args.nth i).rename ρ := by
  unfold nth
  rw [List.getD_eq_getElem?_getD, List.getD_eq_getElem?_getD, List.getElem?_map]
  cases args[i]? <;> rfl

@[simp] theorem number_rename (fallback : Float) :
    Arguments.number (args.map (Value.rename ρ)) i fallback = args.number i fallback := by
  unfold number
  rw [nth_rename]
  cases args.nth i <;> rfl

@[simp] theorem text_rename (fallback : Text) :
    Arguments.text (args.map (Value.rename ρ)) i fallback = args.text i fallback := by
  simp [text]

@[simp] theorem require_rename (op : Text) (count : Nat) :
    Arguments.require op (args.map (Value.rename ρ)) count = args.require op count := by
  simp [require]

end Arguments
/-- A function on arguments that does not depend on the numbers under which closures are kept. -/
def Equivariant (f : Arguments → Except Error Value) : Prop :=
  ∀ ρ : Nat → Nat, ρ.Injective → ∀ args,
    f (args.map (Value.rename ρ)) = (f args).map (Value.rename ρ)

namespace Equivariant

theorem of_total {f : Arguments → Value}
    (h : ∀ ρ : Nat → Nat, ρ.Injective → ∀ args, f (args.map (Value.rename ρ)) = (f args).rename ρ) :
    Equivariant fun args => .ok (f args) :=
  fun ρ hρ args => congrArg Except.ok (h ρ hρ args)

/-- One number in the place of another one, and the other way round. -/
def exchange (i j : Nat) (k : Nat) : Nat := if k = i then j else if k = j then i else k

theorem exchange_injective (i j : Nat) : (exchange i j).Injective := by
  intro a b h
  unfold exchange at h
  grind

theorem exists_fresh (values : List Value) : ∃ n, ∀ id, Value.closure id ∈ values → id < n := by
  induction values with
  | nil => exact ⟨0, fun id h => nomatch h⟩
  | cons v rest ih =>
    obtain ⟨n, hn⟩ := ih
    cases v with
    | closure other =>
      refine ⟨max n (other + 1), fun id h => ?_⟩
      rcases List.mem_cons.mp h with hsame | hrest
      · cases hsame
        omega
      · have := hn id hrest
        omega
    | _ =>
      refine ⟨n, fun id h => ?_⟩
      rcases List.mem_cons.mp h with hsame | hrest
      · cases hsame
      · exact hn id hrest

/-- A closure in the result that was in no argument could be exchanged for one that is nowhere.
The arguments would stay the same, and the result would not. -/
theorem holds_of_result {f : Arguments → Except Error Value} (h : Equivariant f)
    {args : Arguments} {v : Value} (hf : f args = .ok v) {id : Nat} (hid : v.Holds id) :
    ∃ arg ∈ args, arg.Holds id := by
  refine Classical.byContradiction fun hnone => ?_
  obtain ⟨fresh, hfresh⟩ := exists_fresh ((Value.array args).parts ++ v.parts)
  have hargs : args.map (Value.rename (exchange id fresh)) = args := by
    refine Value.map_eq_self_iff.mpr fun arg harg => Value.rename_eq_self_iff.mpr fun k hk => ?_
    have hne : k ≠ id := fun heq => hnone ⟨arg, harg, heq ▸ hk⟩
    have hlt : k < fresh :=
      hfresh k (List.mem_append_left _ (Value.mem_parts_of_item harg hk))
    unfold exchange
    rw [if_neg hne, if_neg (Nat.ne_of_lt hlt)]
  have hresult := h (exchange id fresh) (exchange_injective id fresh) args
  rw [hargs, hf] at hresult
  have hsame : v.rename (exchange id fresh) = v := (Except.ok.inj hresult).symm
  have hfixed : exchange id fresh id = id := Value.rename_eq_self_iff.mp hsame id hid
  have hlt : id < fresh := hfresh id (List.mem_append_right _ hid)
  unfold exchange at hfixed
  rw [if_pos rfl] at hfixed
  omega

end Equivariant

/-! Operations on the items of arrays. -/

namespace Items

open Value (rename)

variable {ρ : Nat → Nat}

theorem slice_map {α β : Type} (f : α → β) (items : List α) (start : Float) (stop : Option Float) :
    slice (items.map f) start stop = (slice items start stop).map f := by
  simp [slice, List.map_take, List.map_drop]

theorem takeLast_map {α β : Type} (f : α → β) (items : List α) (n : Nat) :
    takeLast (items.map f) n = (takeLast items n).map f := by
  simp [takeLast, List.map_drop]

theorem dropLast_map {α β : Type} (f : α → β) (items : List α) (n : Nat) :
    dropLast (items.map f) n = (dropLast items n).map f := by
  simp [dropLast, List.map_take]

theorem indexOf?_rename (hρ : ρ.Injective) (items : List Value) (v : Value) :
    indexOf? (items.map (rename ρ)) (v.rename ρ) = indexOf? items v := by
  simp [indexOf?, Function.comp_def, Value.equal_rename hρ]

theorem unique_rename (hρ : ρ.Injective) (items : List Value) :
    unique (items.map (rename ρ)) = (unique items).map (rename ρ) := by
  have hfold (kept : List Value) :
      (items.map (rename ρ)).foldl
          (fun kept item => if item.occursIn kept then kept else kept ++ [item])
          (kept.map (rename ρ))
        = (items.foldl (fun kept item => if item.occursIn kept then kept else kept ++ [item])
          kept).map (rename ρ) := by
    induction items generalizing kept with
    | nil => rfl
    | cons item rest ih =>
      rw [List.map_cons, List.foldl_cons, List.foldl_cons, Value.occursIn_rename hρ]
      split
      · exact ih kept
      · rw [← ih, List.map_append, List.map_singleton]
  exact hfold []

@[simp] theorem sortKey_rename (key : Text) (item : Value) :
    sortKey key (item.rename ρ) = (sortKey key item).rename ρ := by
  unfold sortKey
  split
  · rfl
  · exact Value.get_rename item key

@[simp] theorem order_rename (a b : Value) : order (a.rename ρ) (b.rename ρ) = order a b := by
  simp [order]

theorem sort_rename (items : List Value) (key : Text) (descending : Bool) :
    sort (items.map (rename ρ)) key descending = (sort items key descending).map (rename ρ) := by
  unfold sort
  refine (List.map_mergeSort fun a _ b _ => ?_).symm
  simp [mayPrecede]

theorem flatten_rename (items : List Value) :
    flatten (items.map (rename ρ)) = (flatten items).map (rename ρ) := by
  unfold flatten
  rw [List.flatMap_map, List.map_flatMap]
  congr 1
  funext item
  cases item <;> simp

theorem zip_rename (items others : List Value) :
    zip (items.map (rename ρ)) (others.map (rename ρ)) = (zip items others).map (rename ρ) := by
  simp [zip, List.zip_map]

@[simp] theorem numericField?_rename (key : Text) (item : Value) :
    numericField? key (item.rename ρ) = numericField? key item := by
  unfold numericField?
  rw [sortKey_rename]
  cases sortKey key item <;> simp

@[simp] theorem sum_rename (items : List Value) (key : Text) :
    sum (items.map (rename ρ)) key = sum items key := by
  simp [sum, List.foldl_map]

@[simp] theorem average_rename (items : List Value) (key : Text) :
    average (items.map (rename ρ)) key = average items key := by
  simp [average]

@[simp] theorem least_rename (items : List Value) (key : Text) :
    least (items.map (rename ρ)) key = least items key := by
  simp [least, List.foldl_map]

@[simp] theorem greatest_rename (items : List Value) (key : Text) :
    greatest (items.map (rename ρ)) key = greatest items key := by
  simp [greatest, List.foldl_map]

@[simp] theorem groupName_rename (key : Text) (item : Value) :
    groupName key (item.rename ρ) = groupName key item := by
  simp [groupName]

theorem groupBy_rename (items : List Value) (key : Text) :
    groupBy (items.map (rename ρ)) key
      = Table.onValues (List.map (rename ρ)) (groupBy items key) := by
  have hfold (groups : Table (List Value)) :
      (items.map (rename ρ)).foldl (fun groups item =>
          groups.insert (groupName key item)
            ((groups.find? (groupName key item)).getD [] ++ [item]))
          (Table.onValues (List.map (rename ρ)) groups)
        = Table.onValues (List.map (rename ρ)) (items.foldl (fun groups item =>
          groups.insert (groupName key item)
            ((groups.find? (groupName key item)).getD [] ++ [item])) groups) := by
    induction items generalizing groups with
    | nil => rfl
    | cons item rest ih =>
      have hgroup : ((groups.find? (groupName key item)).map (List.map (rename ρ))).getD []
            ++ [item.rename ρ]
          = ((groups.find? (groupName key item)).getD [] ++ [item]).map (rename ρ) := by
        cases groups.find? (groupName key item) <;> simp
      rw [List.map_cons, List.foldl_cons, List.foldl_cons, groupName_rename, Table.find?_onValues,
        hgroup, Table.insert_onValues, ih]
  exact hfold []

end Items
end EntityMachines
