import EntityMachines.Proofs.Library.Object
import EntityMachines.Proofs.Lockstep.Retained
import EntityMachines.Proofs.Table
import Mathlib.Data.List.Induction

/-!
Operators that split an array. Groups are kept in a table by name, and items join the group of
their name one after the other; a closure deals items out to two sides by its answers. Main
statement: no item is lost or taken twice, each part keeps the order of the items, and a closure
without effects deals them out in one way however often it is asked.
-/
namespace EntityMachines

open scoped List

/-- The items of one name among those of all others. -/
theorem Table.Ordered.find?_append_perm {α : Type} {t : Table (List α)} (h : t.Ordered)
    (key : Text) :
    ((t.find? key).getD [] ++ (t.filter fun entry => entry.1 != key).flatMap (·.2)).Perm
      (t.flatMap (·.2)) := by
  induction t with
  | nil => exact .refl _
  | cons entry rest ih =>
    obtain ⟨k, group⟩ := entry
    obtain ⟨hafter, hrest⟩ := List.pairwise_cons.mp h
    by_cases hkey : k = key
    · subst hkey
      have hothers : rest.filter (fun entry => entry.1 != k) = rest :=
        List.filter_eq_self.mpr fun entry hentry =>
          bne_iff_ne.mpr (Text.ne_of_before (hafter entry hentry)).symm
      rw [find?_cons_self, List.filter_cons_of_neg (by simp), hothers]
      exact .refl _
    · rw [find?_cons_of_ne hkey, List.filter_cons_of_pos (by simpa using hkey), List.flatMap_cons,
        List.flatMap_cons]
      exact (List.perm_append_comm_assoc _ _ _).trans ((ih hrest).append_left group)

namespace Items

variable (xs : List Value) (key : Text)

/-- The items of a group by its name. -/
def members (name : Text) : List Value := xs.filter fun item => groupName key item == name

/-- One more item joins the group of its name, behind those that are there. -/
theorem groupBy_concat (x : Value) :
    groupBy (xs ++ [x]) key = (groupBy xs key).insert (groupName key x)
      (((groupBy xs key).find? (groupName key x)).getD [] ++ [x]) := by
  unfold groupBy
  rw [List.foldl_append]
  rfl

theorem members_concat (x : Value) (name : Text) :
    members (xs ++ [x]) key name
      = members xs key name ++ if groupName key x = name then [x] else [] := by
  unfold members
  rw [List.filter_append, List.filter_singleton]
  simp [beq_iff_eq]

theorem groupBy_ordered : (groupBy xs key).Ordered := by
  induction xs using List.reverseRecOn with
  | nil => exact List.Pairwise.nil
  | append_singleton xs x ih =>
    rw [groupBy_concat]
    exact ih.insert _ _

/-- Names that no item has have no group. -/
theorem find?_groupBy (name : Text) :
    (groupBy xs key).find? name
      = if members xs key name = [] then none else some (members xs key name) := by
  induction xs using List.reverseRecOn with
  | nil => rfl
  | append_singleton xs x ih =>
    rw [groupBy_concat, members_concat]
    by_cases hname : groupName key x = name
    · have hfound : ((groupBy xs key).find? name).getD [] = members xs key name := by
        rw [ih]
        by_cases hnone : members xs key name = []
        · rw [if_pos hnone, hnone]
          rfl
        · rw [if_neg hnone]
          rfl
      rw [if_pos hname, hname, Table.find?_insert_self, hfound, if_neg (by simp)]
    · rw [if_neg hname, List.append_nil, Table.find?_insert_of_ne _ _ hname, ih]

/-- The groups are those of the names that some items have. -/
theorem mem_groupBy {name : Text} {group : List Value} :
    (name, group) ∈ groupBy xs key ↔ group ≠ [] ∧ group = members xs key name := by
  rw [← (groupBy_ordered xs key).find?_eq_some_iff, find?_groupBy]
  split <;> grind

theorem groupBy_perm : ((groupBy xs key).flatMap (·.2)).Perm xs := by
  induction xs using List.reverseRecOn with
  | nil => exact .refl _
  | append_singleton xs x ih =>
    let found := ((groupBy xs key).find? (groupName key x)).getD []
    let others := (groupBy xs key).filter fun entry => entry.1 != groupName key x
    have hordered := groupBy_ordered xs key
    rw [groupBy_concat]
    calc
      ((groupBy xs key).insert (groupName key x) (found ++ [x])).flatMap (·.2)
        ~ (found ++ [x]) ++ others.flatMap (·.2) :=
          (Table.insert_perm hordered _ _).flatMap_right _
      _ ~ (found ++ others.flatMap (·.2)) ++ [x] := by
          rw [List.append_assoc, List.append_assoc]
          exact List.perm_append_comm.append_left found
      _ ~ (groupBy xs key).flatMap (·.2) ++ [x] :=
          (hordered.find?_append_perm _).append_right [x]
      _ ~ xs ++ [x] := ih.append_right [x]

/-- The groups of some items by the text of a field. Each item is in one group, the one of its name;
no group is empty, and in each the items are in the order in which they came. -/
structure Grouped (groups : Table (List Value)) : Prop where
  ordered : groups.Ordered
  mem_iff : ∀ {name : Text} {group : List Value}, (name, group) ∈ groups ↔
    group ≠ [] ∧ group = xs.filter fun item => groupName key item == name
  unique : ∀ item ∈ xs, ∃! entry, entry ∈ groups ∧ item ∈ entry.2
  perm : (groups.flatMap (·.2)).Perm xs

theorem groupBy_grouped : Grouped xs key (groupBy xs key) where
  ordered := groupBy_ordered xs key
  mem_iff := mem_groupBy xs key
  unique item hitem := by
    have hmember : item ∈ members xs key (groupName key item) :=
      List.mem_filter.mpr ⟨hitem, beq_self_eq_true _⟩
    have hgroup := (mem_groupBy xs key).mpr ⟨List.ne_nil_of_mem hmember, rfl⟩
    refine ⟨(groupName key item, members xs key (groupName key item)), ⟨hgroup, hmember⟩, ?_⟩
    rintro ⟨name, group⟩ ⟨hentry, hin⟩
    obtain ⟨-, rfl⟩ := (mem_groupBy xs key).mp hentry
    have hname : groupName key item = name := beq_iff_eq.mp (List.mem_filter.mp hin).2
    rw [hname]
  perm := groupBy_perm xs key

end Items

/-- The items with one of the answers. -/
def chosen {α : Type} (xs : List α) (answers : List Bool) (answer : Bool) : List α :=
  ((xs.zip answers).filter (·.2 == answer)).map (·.1)

/-- A list is made up of two others, each in the order it had. -/
inductive Interleaved {α : Type} : List α → List α → List α → Prop
  | nil : Interleaved [] [] []
  | left (x : α) {one other all : List α} (h : Interleaved one other all) :
      Interleaved (x :: one) other (x :: all)
  | right (x : α) {one other all : List α} (h : Interleaved one other all) :
      Interleaved one (x :: other) (x :: all)

theorem chosen_cons {α : Type} (x : α) (xs : List α) (said : Bool) (answers : List Bool)
    (answer : Bool) :
    chosen (x :: xs) (said :: answers) answer
      = if said = answer then x :: chosen xs answers answer else chosen xs answers answer := by
  unfold chosen
  rw [List.zip_cons_cons, List.filter_cons]
  simp only [beq_iff_eq]
  split
  · rw [List.map_cons]
  · rfl

theorem interleaved_chosen {α : Type} {xs : List α} {answers : List Bool}
    (h : answers.length = xs.length) :
    Interleaved (chosen xs answers true) (chosen xs answers false) xs := by
  induction xs generalizing answers with
  | nil => exact .nil
  | cons x xs ih =>
    cases answers with
    | nil => cases h
    | cons said answers =>
      have hrest := ih (Nat.succ.inj h)
      rw [chosen_cons, chosen_cons]
      cases said with
      | true => exact hrest.left x
      | false => exact hrest.right x

theorem Eval.length_of_mapM {α β : Type} {f : α → Eval β} {xs : List α} {ys : List β}
    {w later : World} (h : xs.mapM f w = .ok ys later) : ys.length = xs.length := by
  induction xs generalizing ys w with
  | nil =>
    cases h
    rfl
  | cons x xs ih =>
    rw [List.mapM_cons] at h
    obtain ⟨y, w₁, -, h⟩ := Eval.bind_ok h
    obtain ⟨rest, w₂, hrest, h⟩ := Eval.bind_ok h
    cases h
    rw [List.length_cons, List.length_cons, ih hrest]

namespace Library.Array

variable (ev : Evaluator) (f : Value) (xs : List Value)

/-- The closure is asked about each item once, in order, and then the items are dealt out. -/
theorem partition_eq :
    partition ev f xs = do
      let answers ← xs.mapM (Collection.holds ev f)
      return (chosen xs answers true, chosen xs answers false) := by
  induction xs with
  | nil => rfl
  | cons x xs ih =>
    rw [partition, List.mapM_cons, ih]
    simp only [bind_assoc, pure_bind]
    congr 1
    funext said
    cases said with
    | true => simp [chosen_cons]
    | false => simp [chosen_cons]

theorem filterItems_eq :
    Collection.filterItems ev f xs = do
      let answers ← xs.mapM (Collection.holds ev f)
      return chosen xs answers true := by
  induction xs with
  | nil => rfl
  | cons x xs ih =>
    rw [Collection.filterItems, List.mapM_cons, ih]
    simp only [bind_assoc, pure_bind]
    congr 1
    funext said
    cases said with
    | true => simp [chosen_cons]
    | false => simp [chosen_cons]

end Library.Array

/-- The two sides of some items for a closure without effects. -/
def Closure.split (k : Closure) (ev : Evaluator) (w : World) (xs : List Value) :
    Except Fault (List Value × List Value) :=
  (xs.mapM (k.verdict ev w)).map fun answers => (chosen xs answers true, chosen xs answers false)

namespace Library

open Evaluator (withFuel)

/-- An operator asks a closure about each item of an array, once and in order, and gives what it
makes of the items with a yes and those with a no; when the closure fails, so does the operator. -/
def Deals (name : Text) (shape : List Value → List Value → Value) : Prop :=
  ∀ (n : Nat) (ctx : Context) (es xs : List Value) (id : Nat) (w v : World),
    (withFuel standard n).evaluateAll ctx es w = .ok [.array xs, .closure id] v →
      (withFuel standard (n + 1)).evaluate (Expr.call name es) ctx w = (do
        let answers ← xs.mapM (Collection.holds (withFuel standard n) (.closure id))
        return shape (chosen xs answers true) (chosen xs answers false)) v

/-- Wherever its arguments come to some items and to one and the same closure, with all that there
was in a first world retained, a call of an operator ends in one way, and retains what there is. -/
def Repeats (name : Text) (w : World) (k : Closure) (xs : List Value) (n : Nat)
    (result : Except Fault Value) : Prop :=
  ∀ (ctx : Context) (es : List Value) (id : Nat) (u v : World),
    (withFuel standard n).evaluateAll ctx es u = .ok [.array xs, .closure id] v →
    w.Retains v → v.closures[id]? = some k →
      Eval.outcome ((withFuel standard (n + 1)).evaluate (Expr.call name es) ctx) u = result ∧
      v.Retains (Eval.after ((withFuel standard (n + 1)).evaluate (Expr.call name es) ctx) u)

namespace Deals

variable {name : Text} {shape : List Value → List Value → Value}

/-- An operator deals items out if it does so with a closure. -/
theorem ofLambda {name : String} {f : Evaluator → Value → Arguments → Eval Value}
    (hop : Evaluator.operator? standard (Text.ofString name)
      = some (Operator.ofValuesWith (Array.withLambda name f).2))
    (hf : ∀ ev xs id, f ev (.closure id) [.array xs, .closure id] = do
      let answers ← xs.mapM (Collection.holds ev (.closure id))
      return shape (chosen xs answers true) (chosen xs answers false)) :
    Deals (Text.ofString name) shape := by
  intro n ctx es xs id w v hargs
  rw [Evaluator.evaluate_call hop, ← hf]
  exact Eval.bind_of_ok hargs

/-- The sides do not depend on when a closure without effects is asked. -/
theorem repeats (h : Deals name shape) {w : World} {k : Closure} {xs : List Value}
    (hk : k.Effectless w xs) (n : Nat) :
    Repeats name w k xs n ((k.split (withFuel standard n) w xs).map fun sides =>
      shape sides.1 sides.2) := by
  intro ctx es id u v hargs hv hid
  have hasked := Eval.Settles.mapM fun item hitem => hk.settles hv hid hitem n
  have hcall := h n ctx es xs id u v hargs
  have hend := hasked.map (fun answers => shape (chosen xs answers true) (chosen xs answers false))
    v (.refl v)
  rw [Eval.after_congr hcall, Eval.outcome_congr hcall]
  refine ⟨hend.1.trans ?_, hend.2⟩
  unfold Closure.split
  cases xs.mapM (k.verdict (withFuel standard n) w) with
  | ok answers => rfl
  | error fault => rfl

end Deals

namespace Array

theorem deals_partition :
    Deals "array/partition" fun matching others => .array [.array matching, .array others] :=
  .ofLambda (operator?_of_place 79 rfl) fun ev xs id => by
    show (partition ev (.closure id) xs >>= _) = _
    rw [partition_eq]
    simp only [bind_assoc, pure_bind]

theorem deals_filter : Deals "array/filter" fun matching _ => .array matching :=
  .ofLambda (operator?_of_place 73 rfl) fun ev xs id => by
    show (Collection.filterItems ev (.closure id) xs >>= _) = _
    rw [filterItems_eq]
    simp only [bind_assoc, pure_bind]

theorem deals_reject : Deals "array/reject" fun _ others => .array others :=
  .ofLambda (operator?_of_place 74 rfl) fun ev xs id => by
    show (partition ev (.closure id) xs >>= _) = _
    rw [partition_eq]
    simp only [bind_assoc, pure_bind]

theorem makes_groupBy (xs : List Value) (key : Value) :
    Makes "array/groupBy" [.array xs, key]
      (.map (Table.onValues .array (Items.groupBy xs (Object.segment key)))) :=
  .ofTotal (f := fun args =>
    .map (Table.onValues .array (Items.groupBy (items args) (args.text 1))))
    (operator?_of_place 66 rfl)

/-- Items are grouped by the text of a field, and dealt out by the answers of a closure; from one
world on, a closure without effects deals them out in one way to all operators that ask it. -/
theorem splits_conserve :
    (∀ (xs : List Value) (key : Value), ∃ groups : Table (List Value),
      Makes "array/groupBy" [.array xs, key] (.map (Table.onValues .array groups)) ∧
      Items.Grouped xs (Object.segment key) groups) ∧
    (∀ (key : Text) (item : Value), Items.groupName key item =
      (if (item.get key).isNullish then "undefined" else (item.get key).display : Text)) ∧
    Deals "array/partition" (fun matching others => .array [.array matching, .array others]) ∧
    Deals "array/filter" (fun matching _ => .array matching) ∧
    Deals "array/reject" (fun _ others => .array others) ∧
    (∀ (ev : Evaluator) (f : Value) (xs : List Value) (w later : World) (answers : List Bool),
      xs.mapM (Collection.holds ev f) w = .ok answers later →
        Interleaved (chosen xs answers true) (chosen xs answers false) xs) ∧
    ∀ (w : World) (k : Closure) (xs : List Value) (n : Nat), k.Effectless w xs →
      ∃ split : Except Fault (List Value × List Value),
        Repeats "array/partition" w k xs n (split.map fun s => .array [.array s.1, .array s.2]) ∧
        Repeats "array/filter" w k xs n (split.map fun s => .array s.1) ∧
        Repeats "array/reject" w k xs n (split.map fun s => .array s.2) := by
  refine ⟨fun xs key => ⟨_, makes_groupBy xs key, Items.groupBy_grouped xs _⟩, fun _ _ => rfl,
    deals_partition, deals_filter, deals_reject,
    fun ev f xs w later answers h => interleaved_chosen (Eval.length_of_mapM h),
    fun w k xs n hk => ⟨k.split (withFuel standard n) w xs, ?_⟩⟩
  exact ⟨deals_partition.repeats hk n, deals_filter.repeats hk n, deals_reject.repeats hk n⟩

/-- Tasks in two teams, of which one has no name, and one task without a team. -/
def tasks : List Value :=
  [.map [("done", .bool true), ("team", .number 1)], .map [("done", .bool false), ("team", "1")],
    .map [("done", .bool true), ("team", .null)], .map []]

/-- A closure that asks whether a task is done. -/
def whetherDone : Closure := ⟨.single "task", .string "@task.done", {}⟩

def asking : World := { closures := #[whetherDone] }

/-- A later world, in which the closure goes by another number too. -/
def askingAgain : World := { closures := #[whetherDone, whetherDone] }

/-- The context of a question, for which the closure goes by a number. -/
def askedBy (id : Nat) : Context where
  locals := [("ask", .closure id), ("tasks", .array tasks)]

def question : List Value := [.string "@tasks", .string "@ask"]

def answer (name : Text) (id : Nat) (w : World) : Except Fault Value :=
  Eval.outcome ((withFuel standard 4).evaluate (Expr.call name question) (askedBy id)) w

theorem whetherDone_effectless : whetherDone.Effectless asking tasks where
  plain op hop := by
    have hnone : Expr.operators whetherDone.body = [] := rfl
    rw [hnone] at hop
    cases hop
  harmless id hid := by
    exfalso
    induction hid with
    | root h =>
      rcases h with h | h | ⟨item, hitem, h⟩
      · simp [whetherDone, Value.Holds, Value.parts] at h
      · cases h with
        | payload h | user h => exact Value.not_holds_undefined _ h
        | singletons _ hentry | locals _ hentry => cases hentry
        | entity _ hstore => cases hstore
      · simp only [tasks, List.mem_cons, List.not_mem_nil, or_false] at hitem
        rcases hitem with rfl | rfl | rfl | rfl
        all_goals simp [Value.Holds, Value.parts, Value.partsOfEntries] at h
    | body _ _ _ ih | captured _ _ _ ih => exact ih

theorem asking_retained : asking.Retains askingAgain where
  stores := rfl
  closures {id k} hk := by
    obtain ⟨hlt, rfl⟩ := Array.getElem?_eq_some_iff.mp hk
    obtain rfl : id = 0 := Nat.lt_one_iff.mp hlt
    rfl

theorem tasks_split :
    (∃ groups : Table (List Value),
      Makes "array/groupBy" [.array tasks, .string "team"]
        (.map (Table.onValues .array groups)) ∧
      (Text.ofString "1", tasks.take 2) ∈ groups ∧
      (Text.ofString "undefined", tasks.drop 2) ∈ groups) ∧
    whetherDone.Effectless asking tasks ∧ asking.Retains askingAgain ∧
    answer "array/partition" 0 asking
      = .ok (.array [.array [tasks[0], tasks[2]], .array [tasks[1], tasks[3]]]) ∧
    answer "array/filter" 1 askingAgain = .ok (.array [tasks[0], tasks[2]]) ∧
    answer "array/reject" 1 askingAgain = .ok (.array [tasks[1], tasks[3]]) := by
  obtain ⟨hgroups, -, -, -, -, -, hrepeats⟩ := splits_conserve
  obtain ⟨groups, hmakes, hgrouped⟩ := hgroups tasks (.string "team")
  obtain ⟨split, hpartition, hfilter, hreject⟩ :=
    hrepeats asking whetherDone tasks 3 whetherDone_effectless
  have hfirst := (hpartition (askedBy 0) question 0 asking asking rfl (.refl asking) rfl).1
  have hyes := (hfilter (askedBy 1) question 1 askingAgain askingAgain rfl asking_retained rfl).1
  have hno := (hreject (askedBy 1) question 1 askingAgain askingAgain rfl asking_retained rfl).1
  have hdealt : answer "array/partition" 0 asking
      = .ok (.array [.array [tasks[0], tasks[2]], .array [tasks[1], tasks[3]]]) := rfl
  refine ⟨⟨groups, hmakes, hgrouped.mem_iff.mpr ⟨List.cons_ne_nil _ _, rfl⟩,
    hgrouped.mem_iff.mpr ⟨List.cons_ne_nil _ _, rfl⟩⟩, whetherDone_effectless, asking_retained,
    hdealt, ?_⟩
  cases split with
  | ok sides =>
    have hsame := Except.ok.inj (hdealt.symm.trans hfirst)
    simp only [Value.array.injEq, List.cons.injEq, and_true] at hsame
    rw [hsame.1, hsame.2]
    exact ⟨hyes, hno⟩
  | error fault => cases hdealt.symm.trans hfirst

end Array
end Library
end EntityMachines
