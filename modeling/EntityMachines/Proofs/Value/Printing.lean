import EntityMachines.Proofs.Numeral.Spelling
import EntityMachines.Proofs.Value.Equality
import EntityMachines.Proofs.Value.RoundTrip

/-!
The printed form of values. Main statement: equality is a proper equality, and values in which all
numbers are numbers and which hold no closures are equal exactly if they are printed alike.
-/
namespace EntityMachines
namespace Value

open List (Forall₂)
open Numeral (plain beq_iff write_eq_iff)
open Reader (Closed closed_cons closed_nil quoted_append readQuoted_quoted)

/-- All numbers in the value are numbers, and there are no closures in it. -/
structure IsData (v : Value) : Prop where
  numeric : v.IsNumeric
  no_closure : ∀ id, closure id ∉ v.parts

section data

variable {items : List Value} {entries : List (Text × Value)}

theorem IsData.item (h : IsData (array items)) {item : Value} (hitem : item ∈ items) :
    IsData item :=
  ⟨isNumeric_array.mp h.numeric item hitem,
    fun id hid => h.no_closure id (mem_parts_of_item hitem hid)⟩

theorem IsData.member (h : IsData (map entries)) {entry : Text × Value} (hentry : entry ∈ entries) :
    IsData entry.2 :=
  ⟨isNumeric_map.mp h.numeric entry hentry,
    fun id hid => h.no_closure id (mem_parts_of_member hentry hid)⟩

theorem IsData.number {x : Float} (h : IsData (number x)) : x.isNaN = false :=
  h.numeric x (List.mem_singleton.mpr rfl)

theorem not_isData_closure (id : Nat) : ¬IsData (closure id) :=
  fun h => h.no_closure id (List.mem_singleton.mpr rfl)

end data

/-! Items and entries are printed in a row with commas between them. -/

def joined (first : Bool) : List Text → Text
  | [] => []
  | t :: rest => (if first then [] else [44]) ++ t ++ joined false rest

def printEntry (entry : Text × Value) : Text := quoted entry.1 ++ 58 :: entry.2.print

section written

variable (rest : Text)

theorem print_number (x : Float) : (number x).print = plain.write x := by
  unfold print
  rw [write]
  split <;> rfl

theorem writeItems_eq_joined (first : Bool) (items : List Value) :
    writeItems full first items = joined first (items.map print) := by
  induction items generalizing first with
  | nil => rfl
  | cons item items ih => rw [writeItems, ih, List.map_cons, joined, print]

theorem full_shows (v : Value) : full.shows v = true := by
  cases v <;> rfl

theorem writeEntries_eq_joined (first : Bool) (entries : List (Text × Value)) :
    writeEntries full first entries = joined first (entries.map printEntry) := by
  induction entries generalizing first with
  | nil => rfl
  | cons entry entries ih =>
    rw [writeEntries, if_pos (full_shows entry.2), ih, List.map_cons, joined, printEntry, print]
    simp only [List.append_assoc]

theorem print_array (items : List Value) :
    (array items).print ++ rest = 91 :: (joined true (items.map print) ++ 93 :: rest) := by
  unfold print
  rw [write, writeItems_eq_joined, List.cons_append, List.append_assoc]
  rfl

theorem print_map (entries : List (Text × Value)) :
    (map entries).print ++ rest = 123 :: (joined true (entries.map printEntry) ++ 125 :: rest) := by
  unfold print
  rw [write, writeEntries_eq_joined, List.cons_append, List.append_assoc]
  rfl

end written

theorem print_eq_of_equal {u v : Value} (h : u.equal v = true) : u.print = v.print := by
  induction u using inductionOn generalizing v with
  | undefined | null | closure i => cases v <;> first | rfl | cases h
  | bool b | string s =>
    cases v <;> simp only [equal, beq_iff_eq, Bool.false_eq_true] at h
    rw [h]
  | number x =>
    cases v with
    | number y =>
      have hxy := (beq_iff x y).mp h
      rw [print_number, print_number]
      exact (write_eq_iff hxy.1 hxy.2.1).mpr h
    | _ => cases h
  | array xs ih =>
    cases v with
    | array ys =>
      have hmap : xs.map print = ys.map print :=
        map_eq_of_forall₂ (fun x hx y => ih x hx) (equal_array_iff.mp h)
      rw [← List.append_nil (array xs).print, print_array, hmap, ← print_array, List.append_nil]
    | _ => cases h
  | map m ih =>
    cases v with
    | map n =>
      have hmap : m.map printEntry = n.map printEntry := by
        refine map_eq_of_forall₂ (fun entry hentry other halike => ?_) (equal_map_iff.mp h)
        rw [printEntry, printEntry, halike.1, ih entry hentry halike.2]
      rw [← List.append_nil (map m).print, print_map, hmap, ← print_map, List.append_nil]
    | _ => cases h

/-!
Printed values are told from each other by their first bytes, and each ends where a separator or a
closing bracket follows.
-/

/-- The bytes that follow a value inside another one. -/
def closes (b : Byte) : Bool := b == 44 || b == 93 || b == 125

/-- The kind of the values whose printed form begins with a byte. -/
def leadKind (b : Byte) : Kind :=
  if b = 117 then .undefined
  else if b = 110 then .null
  else if b = 116 ∨ b = 102 then .boolean
  else if b = 34 then .string
  else if b = 91 then .array
  else if b = 123 then .map
  else .number

/-- The text does not begin as something that follows a value. -/
def Opens (t : Text) : Prop := ∃ b rest, t = b :: rest ∧ closes b = false

section numbers

variable {x y : Float}

theorem not_closes_write (h : x.isNaN = false) : ∀ b ∈ plain.write x, closes b = false := by
  rcases Numeral.isFinite_or_write_eq h with hfinite | ⟨s, hs⟩
  · have hbyte : ∀ b : Byte, Reader.isNumberByte b = true → closes b = false :=
      Reader.forall_byte (by decide +kernel)
    exact fun b hb => hbyte b ((Numeral.write_isToken hfinite).bytes b hb)
  · rw [hs]
    cases s <;> decide +kernel

theorem write_begins (h : x.isNaN = false) :
    ∃ b rest, plain.write x = b :: rest ∧ leadKind b = .number ∧ closes b = false := by
  have hnumber : ∀ b : Byte, (b == 45 || b.isDigit) = true →
      leadKind b = .number ∧ closes b = false := Reader.forall_byte (by decide +kernel)
  rcases Numeral.isFinite_or_write_eq h with hfinite | ⟨s, hs⟩
  · obtain ⟨b, rest, htoken, hb⟩ := (Numeral.write_isToken hfinite).begins
    refine ⟨b, rest, htoken, hnumber b ?_⟩
    rcases hb with rfl | hdigit
    · rfl
    · rw [hdigit, Bool.or_true]
  · rw [hs]
    cases s with
    | positive => exact ⟨73, _, rfl, rfl, rfl⟩
    | negative => exact ⟨45, _, rfl, rfl, rfl⟩

theorem write_split (hx : x.isNaN = false) (hy : y.isNaN = false) {s t : Text} (hs : Closed s)
    (ht : Closed t) (h : plain.write x ++ s = plain.write y ++ t) :
    plain.write x = plain.write y ∧ s = t := by
  let p : Byte → Bool := fun b => !closes b
  have hbytes (z : Float) (hz : z.isNaN = false) : ∀ b ∈ plain.write z, p b = true := fun b hb => by
    show (!closes b) = true
    rw [not_closes_write hz b hb]
    rfl
  obtain ⟨htake, hdrop⟩ := Reader.span_append (hbytes x hx) (hs.head_eq_false rfl rfl rfl)
  obtain ⟨htake', hdrop'⟩ := Reader.span_append (hbytes y hy) (ht.head_eq_false rfl rfl rfl)
  rw [h] at htake hdrop
  exact ⟨htake.symm.trans htake', hdrop.symm.trans hdrop'⟩

end numbers

section splitting

variable {u v : Value} {s t : Text}

theorem print_begins (h : IsData v) :
    ∃ b rest, v.print = b :: rest ∧ leadKind b = v.kind ∧ closes b = false := by
  cases v with
  | undefined => exact ⟨117, _, rfl, rfl, rfl⟩
  | null => exact ⟨110, _, rfl, rfl, rfl⟩
  | bool b =>
    cases b with
    | true => exact ⟨116, _, rfl, rfl, rfl⟩
    | false => exact ⟨102, _, rfl, rfl, rfl⟩
  | number x =>
    rw [print_number]
    exact write_begins h.number
  | string s => exact ⟨34, _, rfl, rfl, rfl⟩
  | array items => exact ⟨91, _, rfl, rfl, rfl⟩
  | map entries => exact ⟨123, _, rfl, rfl, rfl⟩
  | closure id => exact absurd h (not_isData_closure id)

theorem opens_print (h : IsData v) : Opens v.print := by
  obtain ⟨b, rest, hprint, -, hcloses⟩ := print_begins h
  exact ⟨b, rest, hprint, hcloses⟩

theorem opens_printEntry (entry : Text × Value) : Opens (printEntry entry) := ⟨34, _, rfl, rfl⟩

theorem kind_eq_of_print (hu : IsData u) (hv : IsData v) (h : u.print ++ s = v.print ++ t) :
    v.kind = u.kind := by
  obtain ⟨b, rest, hprint, hkind, -⟩ := print_begins hu
  obtain ⟨c, rest', hprint', hkind', -⟩ := print_begins hv
  rw [hprint, hprint'] at h
  rw [← hkind, ← hkind', (List.cons.inj h).1]

theorem quoted_split {a b : Text} (h : quoted a ++ s = quoted b ++ t) : a = b ∧ s = t := by
  rw [quoted_append, quoted_append, List.cons.injEq] at h
  have ha := readQuoted_quoted s a
  have hb := readQuoted_quoted t b
  dsimp only at ha hb
  rw [h.2] at ha
  cases ha.symm.trans hb
  exact ⟨rfl, rfl⟩

section joined

variable {α : Type} {text : α → Text} {R : α → α → Prop} {close : Byte} {as bs : List α}

theorem joined_cons (first : Bool) (part : Text) (parts : List Text) (rest : Text) :
    joined first (part :: parts) ++ rest
      = (if first then [] else [44]) ++ (part ++ (joined false parts ++ rest)) := by
  rw [joined, List.append_assoc, List.append_assoc]

theorem joined_cons_ne (hclose : close = 93 ∨ close = 125) {part : Text} (hpart : Opens part)
    (first : Bool) (parts : List Text) (rest : Text) :
    joined first (part :: parts) ++ rest ≠ close :: t := by
  intro h
  rw [joined_cons] at h
  cases first with
  | false =>
    have hcomma : 44 = close := (List.cons.inj h).1
    rcases hclose with rfl | rfl <;> exact absurd hcomma (by decide)
  | true =>
    obtain ⟨b, tail, rfl, hopens⟩ := hpart
    obtain rfl : b = close := (List.cons.inj h).1
    rcases hclose with rfl | rfl <;> cases hopens

theorem closed_joined (hclose : close = 93 ∨ close = 125) (parts : List Text) (s : Text) :
    Closed (joined false parts ++ close :: s) := by
  cases parts with
  | nil => exact closed_cons (.inr hclose)
  | cons part parts => exact closed_cons (.inl rfl)

/-- If parts can be told from each other where they are closed, then rows of them can. -/
theorem joined_split (hclose : close = 93 ∨ close = 125) (has : ∀ a ∈ as, Opens (text a))
    (hbs : ∀ b ∈ bs, Opens (text b))
    (h : ∀ a ∈ as, ∀ b ∈ bs, ∀ s t, Closed s → Closed t → text a ++ s = text b ++ t →
      R a b ∧ s = t) (first : Bool)
    (heq : joined first (as.map text) ++ close :: s = joined first (bs.map text) ++ close :: t) :
    Forall₂ R as bs ∧ s = t := by
  induction as generalizing bs first with
  | nil =>
    cases bs with
    | nil => exact ⟨.nil, (List.cons.inj heq).2⟩
    | cons b bs =>
      exact absurd heq.symm (joined_cons_ne hclose (hbs b List.mem_cons_self) first _ _)
  | cons a as ih =>
    obtain ⟨hopens, has⟩ := List.forall_mem_cons.mp has
    cases bs with
    | nil => exact absurd heq (joined_cons_ne hclose hopens first _ _)
    | cons b bs =>
      rw [List.map_cons, List.map_cons, joined_cons, joined_cons] at heq
      obtain ⟨hab, hrest⟩ := h a List.mem_cons_self b List.mem_cons_self _ _
        (closed_joined hclose _ s) (closed_joined hclose _ t) (List.append_cancel_left heq)
      obtain ⟨htail, hst⟩ := ih has (fun b hb => hbs b (List.mem_cons_of_mem _ hb))
        (fun a ha b hb => h a (List.mem_cons_of_mem _ ha) b (List.mem_cons_of_mem _ hb)) false hrest
      exact ⟨.cons hab htail, hst⟩

end joined

/-- A printed value in front of what closes it can be split off in one way. -/
theorem print_split (hu : IsData u) (hv : IsData v) (hs : Closed s) (ht : Closed t)
    (h : u.print ++ s = v.print ++ t) : u.equal v = true ∧ s = t := by
  have hkind := kind_eq_of_print hu hv h
  induction u using inductionOn generalizing v s t with
  | undefined | null =>
    cases v <;> cases hkind
    exact ⟨rfl, List.append_cancel_left h⟩
  | bool b =>
    cases v with
    | bool c =>
      have hsame : b = c := by
        cases b <;> cases c <;> first | rfl | exact absurd (List.cons.inj h).1 (by decide)
      subst hsame
      exact ⟨beq_self_eq_true b, List.append_cancel_left h⟩
    | _ => cases hkind
  | number x =>
    cases v with
    | number y =>
      rw [print_number, print_number] at h
      obtain ⟨hwrite, hst⟩ := write_split hu.number hv.number hs ht h
      exact ⟨(write_eq_iff hu.number hv.number).mp hwrite, hst⟩
    | _ => cases hkind
  | string a =>
    cases v with
    | string b =>
      obtain ⟨rfl, hst⟩ := quoted_split h
      exact ⟨beq_self_eq_true a, hst⟩
    | _ => cases hkind
  | array xs ih =>
    cases v with
    | array ys =>
      rw [print_array, print_array] at h
      rw [equal_array_iff]
      refine joined_split (.inl rfl) (fun x hx => opens_print (hu.item hx))
        (fun y hy => opens_print (hv.item hy)) (fun x hx y hy s t hs ht hxy => ?_) true
        (List.cons.inj h).2
      exact ih x hx (hu.item hx) (hv.item hy) hs ht hxy
        (kind_eq_of_print (hu.item hx) (hv.item hy) hxy)
    | _ => cases hkind
  | map m ih =>
    cases v with
    | map n =>
      rw [print_map, print_map] at h
      rw [equal_map_iff]
      refine joined_split (.inr rfl) (fun entry _ => opens_printEntry entry)
        (fun entry _ => opens_printEntry entry) (fun a ha b hb s t hs ht hab => ?_) true
        (List.cons.inj h).2
      rw [printEntry, printEntry, List.append_assoc, List.append_assoc] at hab
      obtain ⟨hkey, hbehind⟩ := quoted_split hab
      have hitem := (List.cons.inj hbehind).2
      obtain ⟨hequal, hst⟩ := ih a ha (hu.member ha) (hv.member hb) hs ht hitem
        (kind_eq_of_print (hu.member ha) (hv.member hb) hitem)
      exact ⟨⟨hkey, hequal⟩, hst⟩
    | _ => cases hkind
  | closure id => exact absurd hu (not_isData_closure id)

theorem equal_iff_print (hu : IsData u) (hv : IsData v) :
    u.equal v = true ↔ u.print = v.print := by
  refine ⟨print_eq_of_equal, fun h => ?_⟩
  exact (print_split hu hv closed_nil closed_nil (by rw [h])).1

end splitting

theorem equal_is_equality :
    (∀ u v : Value, u.equal v = v.equal u) ∧
    (∀ u v w : Value, u.equal v = true → v.equal w = true → u.equal w = true) ∧
    (∀ v : Value, v.equal v = true ↔ IsNumeric v) ∧
    (∀ m n : Table Value, m.Ordered → n.Ordered →
      ((map m).equal (map n) = true ↔ m.length = n.length ∧
        ∀ entry ∈ m, ∃ y, n.find? entry.1 = some y ∧ entry.2.equal y = true)) ∧
    ∀ u v : Value, IsData u → IsData v → (u.equal v = true ↔ u.print = v.print) :=
  ⟨equal_comm, fun _ _ _ => equal_trans, equal_self_iff, fun _ _ => equal_map_iff_find?,
    fun _ _ => equal_iff_print⟩

/-- A value with things in it that only the full form can write. -/
def balance (x : Float) : Value :=
  map [("k", array [undefined, number Double.infinity, string [10, 34]]), ("l", number x)]

theorem balance_ordered (x : Float) : Table.Ordered (balance x).entries :=
  List.pairwise_pair.mpr (show Text.before "k" "l" = true by decide)

theorem balance_isData {x : Float} (h : x.isNaN = false) : IsData (balance x) := by
  constructor
  · intro y hy
    simp only [balance, parts, partsOfItems, partsOfEntries, List.cons_append, List.nil_append,
      List.mem_cons, List.not_mem_nil, or_false, Value.number.injEq, reduceCtorEq, false_or] at hy
    rcases hy with rfl | rfl
    · decide
    · exact h
  · intro id hid
    simp [balance, parts, partsOfItems, partsOfEntries] at hid

/-- Zero has two signs and one printed form. -/
theorem equal_is_equality_zero :
    (balance 0.0).equal (balance (-0.0)) = true ∧ (balance 0.0).equal (balance 0.0) = true ∧
      (balance 0.0).print = (balance (-0.0)).print := by
  obtain ⟨hcomm, htrans, -, hmap, hprint⟩ := equal_is_equality
  have hsame : (balance 0.0).equal (balance (-0.0)) = true := by
    refine (hmap _ _ (balance_ordered 0.0) (balance_ordered (-0.0))).mpr ⟨rfl, ?_⟩
    refine List.forall_mem_cons.mpr ⟨⟨_, rfl, by decide +kernel⟩, ?_⟩
    exact List.forall_mem_singleton.mpr ⟨_, rfl, by decide +kernel⟩
  refine ⟨hsame, htrans _ _ _ hsame ((hcomm _ _).trans hsame), ?_⟩
  exact (hprint _ _ (balance_isData rfl) (balance_isData rfl)).mp hsame

end Value
end EntityMachines
