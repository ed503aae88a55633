import EntityMachines.Value.Printer
import EntityMachines.Proofs.Value.Parts

/-!
The strict form of a value is what plain JSON can say of it. Values of the strict kind are their
own strict form, and for them both written forms agree.
-/
namespace EntityMachines
namespace Value

mutual

/-- Undefined members of maps are left out; what else JSON has no word for is null. -/
def strictForm : Value → Value
  | undefined | closure _ => null
  | number x => if x.isFinite then number x else null
  | array items => array (strictItems items)
  | map entries => map (strictEntries entries)
  | v => v

def strictItems : List Value → List Value
  | [] => []
  | item :: rest => strictForm item :: strictItems rest

def strictEntries : List (Text × Value) → List (Text × Value)
  | [] => []
  | (key, item) :: rest =>
    if item.kind = .undefined then strictEntries rest
    else (key, strictForm item) :: strictEntries rest

end

/-- Made only of null, booleans, finite numbers, strings, arrays and maps. -/
inductive Plain : Value → Prop
  | null : Plain null
  | bool (b : Bool) : Plain (bool b)
  | number {x : Float} (finite : x.isFinite = true) : Plain (number x)
  | string (s : Text) : Plain (string s)
  | array {items : List Value} (items_plain : ∀ item ∈ items, Plain item) : Plain (array items)
  | map {entries : List (Text × Value)} (items_plain : ∀ entry ∈ entries, Plain entry.2) :
      Plain (map entries)

/-- Every map in a value is a table. -/
def Tabular (v : Value) : Prop := ∀ m, map m ∈ v.parts → Table.Ordered m

theorem Tabular.item {items : List Value} (h : Tabular (array items)) {item : Value}
    (hitem : item ∈ items) : Tabular item :=
  fun m hm => h m (mem_parts_of_item hitem hm)

theorem Tabular.member {entries : List (Text × Value)} (h : Tabular (map entries))
    {entry : Text × Value} (hentry : entry ∈ entries) : Tabular entry.2 :=
  fun m hm => h m (mem_parts_of_member hentry hm)

theorem Tabular.ordered {entries : List (Text × Value)} (h : Tabular (map entries)) :
    Table.Ordered entries :=
  h entries (mem_parts_map.mpr (.inl rfl))

@[simp] theorem strictItems_eq_map (items : List Value) :
    strictItems items = items.map strictForm := by
  induction items with
  | nil => rfl
  | cons item rest ih => rw [strictItems, ih, List.map_cons]

@[simp] theorem strictEntries_eq_map (entries : List (Text × Value)) :
    strictEntries entries = (entries.filter fun entry => entry.2.kind ≠ .undefined).map
      fun entry => (entry.1, entry.2.strictForm) := by
  induction entries with
  | nil => rfl
  | cons entry rest ih =>
    obtain ⟨key, item⟩ := entry
    rw [strictEntries, ih]
    by_cases hundefined : item.kind = .undefined
    · simp [hundefined]
    · simp [hundefined]

/-- What is in the strict form is the strict form of something in the value. -/
theorem mem_parts_strictForm (v : Value) {u : Value} (h : u ∈ v.strictForm.parts) :
    ∃ w ∈ v.parts, u = w.strictForm := by
  induction v using Value.inductionOn with
  | undefined | null | bool | string | closure =>
    exact ⟨_, List.mem_singleton.mpr rfl, List.mem_singleton.mp h⟩
  | number x =>
    refine ⟨number x, List.mem_singleton.mpr rfl, ?_⟩
    rw [strictForm] at h ⊢
    by_cases hfinite : x.isFinite = true
    · rw [if_pos hfinite] at h ⊢
      exact List.mem_singleton.mp h
    · rw [if_neg hfinite] at h ⊢
      exact List.mem_singleton.mp h
  | array items ih =>
    rw [strictForm, strictItems_eq_map] at h
    rcases mem_parts_array.mp h with rfl | ⟨_, hitem, hu⟩
    · exact ⟨array items, mem_parts_array.mpr (.inl rfl), by rw [strictForm, strictItems_eq_map]⟩
    · obtain ⟨item, hmem, rfl⟩ := List.mem_map.mp hitem
      obtain ⟨w, hw, rfl⟩ := ih item hmem hu
      exact ⟨w, mem_parts_of_item hmem hw, rfl⟩
  | map entries ih =>
    rw [strictForm, strictEntries_eq_map] at h
    rcases mem_parts_map.mp h with rfl | ⟨_, hentry, hu⟩
    · exact ⟨map entries, mem_parts_map.mpr (.inl rfl), by rw [strictForm, strictEntries_eq_map]⟩
    · obtain ⟨entry, hfilter, rfl⟩ := List.mem_map.mp hentry
      have hmem : entry ∈ entries := (List.mem_filter.mp hfilter).1
      obtain ⟨w, hw, rfl⟩ := ih entry hmem hu
      exact ⟨w, mem_parts_of_member hmem hw, rfl⟩

theorem eq_number_of_strictForm {w : Value} {x : Float} (h : number x = w.strictForm) :
    w = number x := by
  cases w with
  | number y =>
    unfold strictForm at h
    split at h
    · cases h
      rfl
    · cases h
  | _ => simp [strictForm] at h

theorem eq_map_of_strictForm {w : Value} {m : List (Text × Value)} (h : map m = w.strictForm) :
    ∃ entries, w = map entries ∧ m = strictEntries entries := by
  cases w with
  | map entries =>
    rw [strictForm] at h
    cases h
    exact ⟨entries, rfl, rfl⟩
  | number y =>
    unfold strictForm at h
    split at h <;> cases h
  | _ => simp [strictForm] at h

theorem Tabular.strictForm {v : Value} (h : Tabular v) : Tabular v.strictForm := by
  intro m hm
  obtain ⟨w, hw, hmap⟩ := mem_parts_strictForm v hm
  obtain ⟨entries, rfl, rfl⟩ := eq_map_of_strictForm hmap
  have hordered : Table.Ordered entries := h entries hw
  rw [strictEntries_eq_map]
  exact (hordered.filter _).map _ fun _ _ hbefore => hbefore

theorem strictForm_plain (v : Value) : Plain v.strictForm := by
  induction v using Value.inductionOn with
  | undefined | null | closure => exact .null
  | bool b => exact .bool b
  | string s => exact .string s
  | number x =>
    unfold strictForm
    split
    next hfinite => exact .number hfinite
    next => exact .null
  | array items ih =>
    rw [strictForm, strictItems_eq_map]
    refine .array fun u hu => ?_
    obtain ⟨item, hitem, rfl⟩ := List.mem_map.mp hu
    exact ih item hitem
  | map entries ih =>
    rw [strictForm, strictEntries_eq_map]
    refine .map fun u hu => ?_
    obtain ⟨entry, hentry, rfl⟩ := List.mem_map.mp hu
    exact ih entry ((List.mem_filter.mp hentry).1)

theorem Plain.kind_ne_undefined {v : Value} (h : Plain v) : v.kind ≠ .undefined := by
  cases h <;> exact Kind.noConfusion

theorem strictForm_of_plain {v : Value} (h : Plain v) : v.strictForm = v := by
  induction h with
  | null | bool | string => rfl
  | number hfinite => rw [strictForm, if_pos hfinite]
  | @array items _ ih =>
    rw [strictForm, strictItems_eq_map, List.map_congr_left ih, List.map_id']
  | @map entries hplain ih =>
    have hshown : entries.filter (fun entry => entry.2.kind ≠ .undefined) = entries :=
      List.filter_eq_self.mpr fun entry hentry =>
        decide_eq_true (hplain entry hentry).kind_ne_undefined
    have hsame : ∀ entry ∈ entries, (entry.1, entry.2.strictForm) = entry := fun entry hentry => by
      rw [ih entry hentry]
    rw [strictForm, strictEntries_eq_map, hshown, List.map_congr_left hsame, List.map_id']

theorem strict_shows {v : Value} (h : v.kind ≠ .undefined) : strict.shows v = true := by
  cases v with
  | undefined => exact absurd rfl h
  | _ => rfl

theorem strict_hides {v : Value} (h : v.kind = .undefined) : strict.shows v = false := by
  cases v with
  | undefined => rfl
  | _ => cases h

/-- The strict form is written as the value itself is in plain JSON. -/
theorem toJson_strictForm (v : Value) : v.strictForm.toJson = v.toJson := by
  unfold toJson
  induction v using Value.inductionOn with
  | undefined | null | bool | string | closure => rfl
  | number x =>
    rw [strictForm]
    split
    · rfl
    next hbeyond => rw [write, write, if_neg hbeyond]; rfl
  | array items ih =>
    have hitems (first : Bool) :
        writeItems strict first (items.map strictForm) = writeItems strict first items := by
      induction items generalizing first with
      | nil => rfl
      | cons item rest ihrest =>
        rw [List.map_cons, writeItems, writeItems, ih item List.mem_cons_self,
          ihrest fun item hitem => ih item (List.mem_cons_of_mem _ hitem)]
    rw [strictForm, strictItems_eq_map, write, write, hitems]
  | map entries ih =>
    have hentries (first : Bool) :
        writeEntries strict first (strictEntries entries) = writeEntries strict first entries := by
      induction entries generalizing first with
      | nil => rfl
      | cons entry rest ihrest =>
        obtain ⟨key, item⟩ := entry
        have hrest (first : Bool) := ihrest (fun e he => ih e (List.mem_cons_of_mem _ he)) first
        rw [strictEntries]
        by_cases hundefined : item.kind = .undefined
        · rw [if_pos hundefined, hrest, writeEntries, if_neg (by simp [strict_hides hundefined])]
        · have hstrict := strict_shows (strictForm_plain item).kind_ne_undefined
          have hitem : write strict item.strictForm = write strict item :=
            ih (key, item) List.mem_cons_self
          rw [if_neg hundefined, writeEntries, writeEntries, if_pos hstrict,
            if_pos (strict_shows hundefined), hitem, hrest]
    rw [strictForm, write, write, hentries]

theorem writeItems_congr {form form' : Form} {items : List Value}
    (h : ∀ item ∈ items, write form item = write form' item) (first : Bool) :
    writeItems form first items = writeItems form' first items := by
  induction items generalizing first with
  | nil => rfl
  | cons item rest ih =>
    have hrest := ih fun item hitem => h item (List.mem_cons_of_mem _ hitem)
    rw [writeItems, writeItems, h item List.mem_cons_self, hrest]

theorem writeEntries_congr {form form' : Form} {entries : List (Text × Value)}
    (h : ∀ entry ∈ entries, form.shows entry.2 = form'.shows entry.2
      ∧ write form entry.2 = write form' entry.2) (first : Bool) :
    writeEntries form first entries = writeEntries form' first entries := by
  induction entries generalizing first with
  | nil => rfl
  | cons entry rest ih =>
    obtain ⟨hshows, hwrite⟩ := h entry List.mem_cons_self
    have hrest := ih fun entry hentry => h entry (List.mem_cons_of_mem _ hentry)
    rw [writeEntries, writeEntries, hshows, hwrite, hrest, hrest]

theorem print_of_plain {v : Value} (h : Plain v) : v.print = v.toJson := by
  unfold print toJson
  induction h with
  | null | bool | string => rfl
  | number hfinite => rw [write, write, if_pos hfinite, if_pos hfinite]
  | array _ ih => rw [write, write, writeItems_congr ih]
  | map hplain ih =>
    rw [write, write, writeEntries_congr fun entry hentry => ⟨?_, ih entry hentry⟩]
    have hfull : full.shows entry.2 = true := by cases entry.2 <;> rfl
    rw [hfull, strict_shows (hplain entry hentry).kind_ne_undefined]

end Value
end EntityMachines
