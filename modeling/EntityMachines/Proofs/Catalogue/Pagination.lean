import EntityMachines.Catalogue
import EntityMachines.Proofs.Host.Moves
import EntityMachines.Proofs.Machine.Indicators
import EntityMachines.Proofs.Numeral.Whole

/-!
Pagination. The page shown exists, among the pages that it takes to show all items, until one of
three things happens: the total shrinks, a handler stops a new page size halfway, or a page is
turned to that exists only because a quotient was rounded.
-/
namespace EntityMachines
namespace Catalogue
namespace Pagination

open Double (toRat?)
open Evaluator (Reads)

/-- The numbers of a pagination. -/
structure Pages where
  page : Float
  size : Float
  total : Float

namespace Pages

/-- The last page, as it is computed. -/
def last (p : Pages) : Float := Double.ceil (Arithmetic.divide p.total p.size)

/-- The numbers behind an event. The page size is given a default at first. -/
def next (usual : Float) (p : Pages) (event : Text) (payload : Value) : Pages :=
  if event = "INIT" then { p with page := Float.ofNat 1, size := usual }
  else if event = "NEXT_PAGE" then
    if Comparison.decide .less (.number p.page) (.number p.last) then
      { p with page := 0.0 + p.page + Float.ofNat 1 }
    else p
  else if event = "PREV_PAGE" then
    if Comparison.decide .greater (.number p.page) 1 then { p with page := p.page - Float.ofNat 1 }
    else p
  else if event = "GO_TO_PAGE" then
    match payload.getIn ["page"] with
    | .number page =>
      if Comparison.decide .greaterEqual (.number page) 1 &&
          Comparison.decide .lessEqual (.number page) (.number p.last) then { p with page }
      else p
    | _ => p
  else if event = "SET_PAGE_SIZE" then
    match payload.getIn ["size"] with
    | .number size => { p with page := Float.ofNat 1, size }
    | _ => p
  else if event = "SET_TOTAL" then
    match payload.getIn ["total"] with
    | .number total => { p with total }
    | _ => p
  else p

/-- The numbers behind an event if the handler fails that is told of the first of two changes. -/
def halfway (usual : Float) (p : Pages) (event : Text) (payload : Value) : Pages :=
  if event = "INIT" then { p with page := Float.ofNat 1 }
  else if event = "SET_PAGE_SIZE" then
    match payload.getIn ["size"] with
    | .number size => { p with size }
    | _ => p
  else p.next usual event payload

/-- The numbers are whole, a page has a size, and no number of items is negative. -/
structure Counts (p : Pages) (k s t : ℤ) : Prop where
  page : toRat? p.page = some (k : ℚ)
  size : toRat? p.size = some (s : ℚ)
  total : toRat? p.total = some (t : ℚ)
  size_pos : 1 ≤ s
  total_nonneg : 0 ≤ t

/-- The page is one of those that it takes to show all items; without any there is one page. -/
def Exist (p : Pages) : Prop :=
  ∃ k s t, p.Counts k s t ∧ 1 ≤ k ∧ k ≤ max 1 ⌈(t / s : ℚ)⌉

end Pages

/-- Where an event needs a number, it is given a whole one; pages have a size, and no number of
items is negative. -/
structure Proper (event : Text) (payload : Value) : Prop where
  page : event = "GO_TO_PAGE" → ∃ n, (payload.getIn ["page"]).IsWhole n
  size : event = "SET_PAGE_SIZE" → ∃ n, 1 ≤ n ∧ (payload.getIn ["size"]).IsWhole n
  total : event = "SET_TOTAL" → ∃ n, 0 ≤ n ∧ (payload.getIn ["total"]).IsWhole n

/-- An event behind which the page does not exist, also if no handler fails. -/
inductive Strays (usual : Float) (p : Pages) (event : Text) (payload : Value) : Prop
  /-- The page is beyond the last one of a smaller total. -/
  | shrinks {total} (cause : event = "SET_TOTAL") (number : payload.getIn ["total"] = .number total)
      (beyond : ¬{ p with total : Pages }.Exist)
  /-- There are more pages than a mantissa can count, and the page is one that exists only because
  the quotient was rounded. -/
  | rounded {k s t} (cause : event = "NEXT_PAGE" ∨ event = "GO_TO_PAGE") (counts : p.Counts k s t)
      (many : (2 ^ 53 : ℚ) < t / s) (beyond : ¬(p.next usual event payload).Exist)

section numbers

variable {p : Pages} {k s t : ℤ} {usual : Float} {event : Text} {payload : Value}

theorem toRat?_one : toRat? (Float.ofNat 1) = some ((1 : ℤ) : ℚ) := by
  rw [Double.toRat?_ofNat (by decide), Nat.cast_one, Int.cast_one]

namespace Pages

theorem counts_ofNat {k s t : ℕ} (hk : k ≤ 2 ^ 53) (hs : s ≤ 2 ^ 53) (ht : t ≤ 2 ^ 53)
    (hpos : 1 ≤ s) : Counts ⟨Float.ofNat k, Float.ofNat s, Float.ofNat t⟩ k s t where
  page := by rw [Double.toRat?_ofNat hk, Int.cast_natCast]
  size := by rw [Double.toRat?_ofNat hs, Int.cast_natCast]
  total := by rw [Double.toRat?_ofNat ht, Int.cast_natCast]
  size_pos := by exact_mod_cast hpos
  total_nonneg := Int.natCast_nonneg t

/-- The last page as it is computed is a whole number, and it is not beyond the last page unless
there are more pages than a mantissa can count. -/
theorem Counts.exists_last (h : p.Counts k s t) : ∃ c : ℤ, toRat? p.last = some (c : ℚ) ∧
    ((t / s : ℚ) ≤ 2 ^ 53 → c ≤ ⌈(t / s : ℚ)⌉) := by
  have hsize : (1 : ℚ) ≤ s := by exact_mod_cast h.size_pos
  have htotal : (0 : ℚ) ≤ t := by exact_mod_cast h.total_nonneg
  have hrounds := Arithmetic.divide_rounds h.total h.size (by positivity)
  obtain ⟨q, hq, hlow, -⟩ := hrounds.exists_between Double.toRat?_zero h.total (by positivity)
    (div_le_self htotal hsize)
  refine ⟨⌈q⌉, Double.toRat?_ceil hq, fun hfew => Int.ceil_le.mpr ?_⟩
  have hceil : ⌈(t / s : ℚ)⌉ ≤ 2 ^ 53 := Int.ceil_le.mpr (by exact_mod_cast hfew)
  have hnonneg : 0 ≤ ⌈(t / s : ℚ)⌉ := Int.ceil_nonneg (by positivity)
  have hdouble := Double.toRat?_ofInt (n := ⌈(t / s : ℚ)⌉) (by omega)
  exact hrounds.le hq hdouble (Int.le_ceil _)

theorem Counts.unique {k' s' t' : ℤ} (h : p.Counts k s t) (h' : p.Counts k' s' t') :
    k = k' ∧ s = s' ∧ t = t' := by
  have hsame {x : Float} {m n : ℤ} (hm : toRat? x = some (m : ℚ)) (hn : toRat? x = some (n : ℚ)) :
      m = n := by exact_mod_cast Option.some.inj (hm.symm.trans hn)
  exact ⟨hsame h.page h'.page, hsame h.size h'.size, hsame h.total h'.total⟩

/-- The first page always exists. -/
theorem Counts.exist_first (h : p.Counts k s t) : { p with page := Float.ofNat 1 : Pages }.Exist :=
  ⟨1, s, t, { h with page := toRat?_one }, le_rfl, le_max_left _ _⟩

/-- A page of a few exists if it is not beyond the last one as that is computed. -/
theorem Counts.exist_of_le {x : Float} {m : ℤ} (h : p.Counts k s t) (hx : toRat? x = some (m : ℚ))
    (hpos : 1 ≤ m) {c : ℤ} (hlast : toRat? p.last = some (c : ℚ)) (hle : m ≤ c)
    (hfew : (t / s : ℚ) ≤ 2 ^ 53) : { p with page := x : Pages }.Exist := by
  obtain ⟨c', hc', hceil⟩ := h.exists_last
  have hsame : c = c' := by exact_mod_cast Option.some.inj (hlast.symm.trans hc')
  exact ⟨m, s, t, { h with page := hx }, hpos,
    (hle.trans (hsame ▸ hceil hfew)).trans (le_max_right _ _)⟩

section next

variable (usual p payload)

theorem next_init : p.next usual "INIT" payload = { p with page := Float.ofNat 1, size := usual } :=
  rfl

theorem next_forward : p.next usual "NEXT_PAGE" payload =
    if Comparison.decide .less (.number p.page) (.number p.last) then
      { p with page := 0.0 + p.page + Float.ofNat 1 }
    else p := rfl

theorem next_back : p.next usual "PREV_PAGE" payload =
    if Comparison.decide .greater (.number p.page) 1 then { p with page := p.page - Float.ofNat 1 }
    else p := rfl

theorem next_jump {page : Float} (h : payload.getIn ["page"] = .number page) :
    p.next usual "GO_TO_PAGE" payload =
      if Comparison.decide .greaterEqual (.number page) 1 &&
          Comparison.decide .lessEqual (.number page) (.number p.last) then { p with page }
      else p := by
  unfold next
  rw [h]
  rfl

theorem next_size {size : Float} (h : payload.getIn ["size"] = .number size) :
    p.next usual "SET_PAGE_SIZE" payload = { p with page := Float.ofNat 1, size } := by
  unfold next
  rw [h]
  rfl

theorem next_total {total : Float} (h : payload.getIn ["total"] = .number total) :
    p.next usual "SET_TOTAL" payload = { p with total } := by
  unfold next
  rw [h]
  rfl

theorem halfway_size {size : Float} (h : payload.getIn ["size"] = .number size) :
    p.halfway usual "SET_PAGE_SIZE" payload = { p with size } := by
  unfold halfway
  rw [h]
  rfl

end next

/-- A page forward exists, unless there are too many. -/
theorem exist_forward (hk : 1 ≤ k) (h : p.Counts k s t)
    (hexist : p.Exist) (hfew : (t / s : ℚ) ≤ 2 ^ 53) :
    (p.next usual "NEXT_PAGE" payload).Exist := by
  rw [next_forward]
  split
  next hless =>
    obtain ⟨c, hc, -⟩ := h.exists_last
    have hlt : k < c := by exact_mod_cast (Comparison.decide_less h.page hc).mp hless
    have hsame : toRat? (0.0 + p.page) = some (k : ℚ) := by
      have hsum := Double.add_rounds Double.toRat?_zero h.page
      rw [zero_add] at hsum
      exact hsum.exact h.page
    have hrounds : Double.Rounds (0.0 + p.page + Float.ofNat 1) ((k + 1 : ℤ) : ℚ) := by
      rw [Int.cast_add]
      exact Double.add_rounds hsame toRat?_one
    obtain ⟨q, hq, hlow, hhigh⟩ := hrounds.exists_between h.page hc (by exact_mod_cast (by omega))
      (by exact_mod_cast hlt)
    obtain ⟨m, rfl⟩ := hrounds.exists_whole hq
    have hlow' : k ≤ m := by exact_mod_cast hlow
    exact h.exist_of_le hq (hk.trans hlow') hc (by exact_mod_cast hhigh) hfew
  next => exact hexist

/-- A page back exists. -/
theorem exist_back (h : p.Exist) : (p.next usual "PREV_PAGE" payload).Exist := by
  obtain ⟨k, s, t, hcounts, hk, hle⟩ := h
  rw [next_back]
  split
  next hgreater =>
    have hlt : 1 < k := by exact_mod_cast (Comparison.decide_greater hcounts.page toRat?_one).mp hgreater
    have hrounds : Double.Rounds (p.page - Float.ofNat 1) ((k - 1 : ℤ) : ℚ) := by
      rw [Int.cast_sub]
      exact Double.sub_rounds hcounts.page toRat?_one
    obtain ⟨q, hq, hlow, hhigh⟩ := hrounds.exists_between toRat?_one hcounts.page
      (by exact_mod_cast (by omega)) (by exact_mod_cast (by omega))
    obtain ⟨m, rfl⟩ := hrounds.exists_whole hq
    exact ⟨m, s, t, { hcounts with page := hq }, by exact_mod_cast hlow,
      le_trans (by exact_mod_cast hhigh) hle⟩
  next => exact ⟨k, s, t, hcounts, hk, hle⟩

theorem exist_jump (h : p.Counts k s t) (hexist : p.Exist) {n : ℤ}
    (hn : (payload.getIn ["page"]).IsWhole n) (hfew : (t / s : ℚ) ≤ 2 ^ 53) :
    (p.next usual "GO_TO_PAGE" payload).Exist := by
  obtain ⟨x, hpage, hx⟩ := hn
  rw [next_jump p usual payload hpage]
  split
  next hguard =>
    obtain ⟨c, hc, -⟩ := h.exists_last
    obtain ⟨hlow, hhigh⟩ := Bool.and_eq_true_iff.mp hguard
    have hpos : 1 ≤ n := by exact_mod_cast (Comparison.decide_greaterEqual hx toRat?_one).mp hlow
    have hle : n ≤ c := by exact_mod_cast (Comparison.decide_lessEqual hx hc).mp hhigh
    exact h.exist_of_le hx hpos hc hle hfew
  next => exact hexist

end Pages

theorem Strays.cause (h : Strays usual p event payload) :
    event = "SET_TOTAL" ∨ event = "NEXT_PAGE" ∨ event = "GO_TO_PAGE" := by
  cases h with
  | shrinks cause => exact .inl cause
  | rounded cause => exact .inr cause

/-- Where pages are turned, rounding is the only way to one that does not exist. -/
theorem exist_turned_iff (hcounts : p.Counts k s t)
    (hcause : event = "NEXT_PAGE" ∨ event = "GO_TO_PAGE")
    (hfew : (t / s : ℚ) ≤ 2 ^ 53 → (p.next usual event payload).Exist) :
    (p.next usual event payload).Exist ↔ ¬Strays usual p event payload := by
  constructor
  · rintro hexist (⟨rfl, -, -⟩ | ⟨-, -, -, hbeyond⟩)
    · rcases hcause with hcause | hcause <;> exact absurd hcause (by decide)
    · exact hbeyond hexist
  · intro hno
    by_contra hbeyond
    exact hno (.rounded hcause hcounts (not_le.mp (mt hfew hbeyond)) hbeyond)

/-- An existing page is left for another one, unless the event is out of place. -/
theorem exist_next_iff (h : p.Exist) (husual : ∃ n : ℤ, 1 ≤ n ∧ toRat? usual = some (n : ℚ))
    (hproper : Proper event payload) :
    (p.next usual event payload).Exist ↔ ¬Strays usual p event payload := by
  obtain ⟨k, s, t, hcounts, hk, hle⟩ := h
  have hexist : p.Exist := ⟨k, s, t, hcounts, hk, hle⟩
  by_cases hforward : event = "NEXT_PAGE"
  · subst hforward
    exact exist_turned_iff hcounts (.inl rfl) (Pages.exist_forward hk hcounts hexist)
  by_cases hjump : event = "GO_TO_PAGE"
  · obtain ⟨n, hn⟩ := hproper.page hjump
    subst hjump
    exact exist_turned_iff hcounts (.inr rfl) (Pages.exist_jump hcounts hexist hn)
  by_cases htotal : event = "SET_TOTAL"
  · obtain ⟨n, -, total, hnumber, -⟩ := hproper.total htotal
    subst htotal
    rw [Pages.next_total p usual payload hnumber]
    constructor
    · rintro hexist (⟨-, hnumber', hbeyond⟩ | ⟨hcause | hcause⟩)
      · cases hnumber.symm.trans hnumber'
        exact hbeyond hexist
      · exact absurd hcause (by decide)
      · exact absurd hcause (by decide)
    · exact fun hno => not_not.mp fun hbeyond => hno (.shrinks rfl hnumber hbeyond)
  refine iff_of_true ?_ fun hstrays => ?_
  · by_cases hinit : event = "INIT"
    · obtain ⟨n, hn, husual⟩ := husual
      subst hinit
      have hdefault : { p with size := usual : Pages }.Counts k n t :=
        { hcounts with size := husual, size_pos := hn }
      exact hdefault.exist_first
    by_cases hback : event = "PREV_PAGE"
    · subst hback
      exact Pages.exist_back hexist
    by_cases hsize : event = "SET_PAGE_SIZE"
    · obtain ⟨n, hn, size, hnumber, hwhole⟩ := hproper.size hsize
      subst hsize
      rw [Pages.next_size p usual payload hnumber]
      have hresized : { p with size : Pages }.Counts k n t :=
        { hcounts with size := hwhole, size_pos := hn }
      exact hresized.exist_first
    · simpa only [Pages.next, hinit, hforward, hback, hjump, hsize, htotal, if_false] using hexist
  · rcases hstrays.cause with hcause | hcause | hcause
    · exact htotal hcause
    · exact hforward hcause
    · exact hjump hcause

end numbers

/-- The numbers that data tell. -/
structure Tells (p : Pages) (data : Value) : Prop where
  page : data.get "page" = .number p.page
  size : data.get "pageSize" = .number p.size
  total : data.get "totalItems" = .number p.total

/-- A transaction in which nothing is queued, and the numbers meanwhile. -/
structure Shows (p : Pages) (s : Scene) : Prop where
  busy : s.busy = true
  queue : s.queue = []
  tells : Tells p s.data

/-- A machine that keeps a pagination of a usual page size. -/
structure Governs (usual : Float) (actor : Actor) : Prop where
  definition : actor.machine.definition = pagination
  config : ∃ config, actor.machine.singletons.find? "config" = some config ∧
    config.get "defaultPageSize" = .number usual

namespace Tells

variable {p : Pages} {data : Value}

theorem unique {p' : Pages} (h : Tells p data) (h' : Tells p' data) : p = p' := by
  obtain ⟨page, size, total⟩ := p
  obtain ⟨page', size', total'⟩ := p'
  cases h.page.symm.trans h'.page
  cases h.size.symm.trans h'.size
  cases h.total.symm.trans h'.total
  rfl

theorem writePage (h : Tells p data) (page : Float) :
    Tells { p with page } (data.applyChanges [("page", .number page)]) :=
  ⟨data.get_put_self _ _, (data.get_put_of_ne _ (by decide)).trans h.size,
    (data.get_put_of_ne _ (by decide)).trans h.total⟩

theorem writeSize (h : Tells p data) (size : Float) :
    Tells { p with size } (data.applyChanges [("pageSize", .number size)]) :=
  ⟨(data.get_put_of_ne _ (by decide)).trans h.page, data.get_put_self _ _,
    (data.get_put_of_ne _ (by decide)).trans h.total⟩

theorem writeTotal (h : Tells p data) (total : Float) :
    Tells { p with total } (data.applyChanges [("totalItems", .number total)]) :=
  ⟨(data.get_put_of_ne _ (by decide)).trans h.page,
    (data.get_put_of_ne _ (by decide)).trans h.size, data.get_put_self _ _⟩

end Tells

section readings

variable {p : Pages} {actor : Actor} {n : Nat} {s₀ : Scene} {data payload : Value} {now : Int}
  {handlers : Handlers} {usual : Float}

theorem reads_page (h : Tells p data) : Reads (n + 1)
    { actor.context s₀ payload now with handlers } data "@entity.page" (.number p.page) := by
  rw [← h.page, ← Value.getIn_single]
  exact .binding rfl

theorem reads_size (h : Tells p data) : Reads (n + 1)
    { actor.context s₀ payload now with handlers } data "@entity.pageSize" (.number p.size) := by
  rw [← h.size, ← Value.getIn_single]
  exact .binding rfl

theorem reads_total (h : Tells p data) : Reads (n + 1)
    { actor.context s₀ payload now with handlers } data "@entity.totalItems" (.number p.total) := by
  rw [← h.total, ← Value.getIn_single]
  exact .binding rfl

theorem reads_usual (hp : Governs usual actor) : Reads (n + 1)
    { actor.context s₀ payload now with handlers } data "@config.defaultPageSize"
      (.number usual) := by
  obtain ⟨config, hconfig, husual⟩ := hp.config
  have hreads : { actor.context s₀ payload now with handlers }.readIn data "@config.defaultPageSize"
      = ((actor.machine.singletons.find? "config").getD .undefined).getIn ["defaultPageSize"] := rfl
  rw [hconfig, Option.getD_some, Value.getIn_single, husual] at hreads
  rw [← hreads]
  exact .binding rfl

theorem reads_last (h : Tells p data) : Reads (n + 3)
    { actor.context s₀ payload now with handlers } data
      (Expr.call "math/ceil" [Expr.call "/" ["@entity.totalItems", "@entity.pageSize"]])
      (.number p.last) := by
  have hquotient : Reads (n + 2) { actor.context s₀ payload now with handlers } data
      (Expr.call "/" ["@entity.totalItems", "@entity.pageSize"])
      (.number (Arithmetic.divide p.total p.size)) :=
    .quotient (x := .number p.total) (y := .number p.size) (reads_total h) (reads_size h)
  have hceil : Reads (n + 3) { actor.context s₀ payload now with handlers } data
      (Expr.call "math/ceil" [Expr.call "/" ["@entity.totalItems", "@entity.pageSize"]])
      (Library.Math.ofNumber Double.ceil [.number (Arithmetic.divide p.total p.size)]) :=
    .ofTotal (f := Library.Math.ofNumber Double.ceil) (Library.operator?_of_place 4 rfl)
      (.cons hquotient .nil)
  exact hceil

theorem reads_forward (h : Tells p data) : Reads (n + 2)
    { actor.context s₀ payload now with handlers } data (Expr.call "+" ["@entity.page", 1])
      (.number (0.0 + p.page + Float.ofNat 1)) := by
  have hpage : (Value.number p.page).toNumber = p.page := rfl
  have hone : (1 : Value).toNumber = Float.ofNat 1 := rfl
  have hsum : 0.0 + p.page + Float.ofNat 1
      = [.number p.page, 1].foldl (fun acc (v : Value) => acc + v.toNumber) 0.0 := by
    rw [List.foldl_cons, List.foldl_cons, List.foldl_nil, hpage, hone]
  rw [hsum]
  exact .sum (.cons (reads_page h) (.cons (.literal rfl rfl) .nil))

theorem reads_back (h : Tells p data) : Reads (n + 2)
    { actor.context s₀ payload now with handlers } data (Expr.call "-" ["@entity.page", 1])
      (.number (p.page - Float.ofNat 1)) :=
  .difference (x := .number p.page) (y := 1) (reads_page h) (.literal rfl rfl)

theorem asked_forward {s : Scene} (h : Tells p s.data) : actor.Asked (n + 4) s payload now
    (some (Expr.call "<" ["@entity.page",
      Expr.call "math/ceil" [Expr.call "/" ["@entity.totalItems", "@entity.pageSize"]]]))
    (Comparison.decide .less (.number p.page) (.number p.last)) :=
  ⟨.bool _, .comparison .less (reads_page h) (reads_last h), rfl⟩

theorem asked_back {s : Scene} (h : Tells p s.data) : actor.Asked (n + 2) s payload now
    (some (Expr.call ">" ["@entity.page", 1])) (Comparison.decide .greater (.number p.page) 1) :=
  ⟨.bool _, .comparison .greater (reads_page h) (.literal rfl rfl), rfl⟩

theorem asked_jump {s : Scene} (h : Tells p s.data) {page : Float}
    (hpage : payload.getIn ["page"] = .number page) : actor.Asked (n + 5) s payload now
    (some (Expr.call "and" [Expr.call ">=" ["@payload.page", 1],
      Expr.call "<=" ["@payload.page",
        Expr.call "math/ceil" [Expr.call "/" ["@entity.totalItems", "@entity.pageSize"]]]]))
    (Comparison.decide .greaterEqual (.number page) 1 &&
      Comparison.decide .lessEqual (.number page) (.number p.last)) := by
  have hreads (levels : Nat) : Reads (levels + 1) (actor.context s payload now) s.data
      "@payload.page" (.number page) := by
    rw [← hpage]
    exact .binding rfl
  have hlow : Reads (n + 4) (actor.context s payload now) s.data
      (Expr.call ">=" ["@payload.page", 1])
      (.bool (Comparison.decide .greaterEqual (.number page) 1)) :=
    .comparison .greaterEqual (hreads _) (.literal rfl rfl)
  have hhigh : Reads (n + 4) (actor.context s payload now) s.data
      (Expr.call "<=" ["@payload.page",
        Expr.call "math/ceil" [Expr.call "/" ["@entity.totalItems", "@entity.pageSize"]]])
      (.bool (Comparison.decide .lessEqual (.number page) (.number p.last))) :=
    .comparison .lessEqual (hreads _) (reads_last h)
  refine ⟨_, .and (.cons hlow (.cons hhigh .nil)), ?_⟩
  simp only [List.all_cons, List.all_nil, Bool.and_true]
  rfl

end readings

section effects

variable {p p' : Pages} {actor : Actor} {n : Nat} {s₀ s : Scene} {payload operand target : Value}
  {now : Int} {usual x : Float} {field : Text} {Q E : Scene → Prop}

/-- An effect that writes a number. -/
theorem performs_write (hs : Shows p s) (hfield : Effect.fieldPath target = field)
    (hne : field ≠ [])
    (hoperand : Reads n (actor.stage s₀ payload now) s.data operand (.number x))
    (hwrite : Tells p' (s.data.applyChanges [(field, .number x)]))
    (hQ : ∀ s', Shows p' s' → Q s') (hE : ∀ s', Shows p' s' → E s') :
    actor.Performs (n + 1) (actor.stage s₀ payload now) (Expr.call "set" [target, operand]) s Q E :=
  have hwritten : Shows p' (s.write [(field, .number x)]) := ⟨hs.busy, hs.queue, hwrite⟩
  .set (actor.acts_stage s₀ payload now) hfield hne hoperand (hQ _ hwritten) fun _ => hE _ hwritten

/-- The pages stay as they are where every transition is denied. -/
theorem next_of_denied (hs : Tells p s.data) {event : Text} (hproper : Proper event payload)
    (hdenied : ∀ t ∈ pagination.transitions, t.Suits event s.state →
      actor.Asked (n + 5) s payload now t.guard false) : p.next usual event payload = p := by
  have hinit : event ≠ "INIT" := Actor.ne_of_denied hdenied
    (List.get_mem pagination.transitions ⟨0, by decide⟩) rfl rfl
  have hsize : event ≠ "SET_PAGE_SIZE" := Actor.ne_of_denied hdenied
    (List.get_mem pagination.transitions ⟨4, by decide⟩) rfl rfl
  have htotal : event ≠ "SET_TOTAL" := Actor.ne_of_denied hdenied
    (List.get_mem pagination.transitions ⟨5, by decide⟩) rfl rfl
  by_cases hforward : event = "NEXT_PAGE"
  · subst hforward
    have hguard := (asked_forward (n := n + 1) hs).unique
      (hdenied (pagination.transitions.get ⟨1, by decide⟩) (List.get_mem _ _) ⟨rfl, rfl⟩)
    rw [Pages.next_forward, hguard, if_neg Bool.false_ne_true]
  by_cases hback : event = "PREV_PAGE"
  · subst hback
    have hguard := (asked_back (n := n + 3) hs).unique
      (hdenied (pagination.transitions.get ⟨2, by decide⟩) (List.get_mem _ _) ⟨rfl, rfl⟩)
    rw [Pages.next_back, hguard, if_neg Bool.false_ne_true]
  by_cases hjump : event = "GO_TO_PAGE"
  · obtain ⟨-, page, hpage, -⟩ := hproper.page hjump
    subst hjump
    have hguard := (asked_jump (n := n) hs hpage).unique
      (hdenied (pagination.transitions.get ⟨3, by decide⟩) (List.get_mem _ _) ⟨rfl, rfl⟩)
    rw [Pages.next_jump p usual payload hpage, hguard, if_neg Bool.false_ne_true]
  simp only [Pages.next, hinit, hforward, hback, hjump, hsize, htotal, if_false]

/-- What a transition that is taken writes. -/
theorem performs_next (hp : Governs usual actor) (hs : Shows p s) {t : Transition}
    (ht : t ∈ pagination.transitions) (hproper : Proper t.event payload)
    (hasked : actor.Asked (n + 5) s payload now t.guard true) :
    actor.PerformsAll (n + 5) (actor.stage s payload now) t.effects s
      (Shows (p.next usual t.event payload)) fun s' =>
        Shows (p.next usual t.event payload) s' ∨ Shows (p.halfway usual t.event payload) s' := by
  simp only [pagination, List.mem_cons, List.not_mem_nil, or_false] at ht
  rcases ht with rfl | rfl | rfl | rfl | rfl | rfl
  · refine performs_write hs rfl (by decide) (.literal rfl rfl) (hs.tells.writePage _)
      (fun s' hs' => ?_) fun _ => .inr
    exact performs_write hs' rfl (by decide) (reads_usual hp) (hs'.tells.writeSize usual)
      (fun _ => id) fun _ => .inl
  · have hguard := (asked_forward (n := n + 1) hs.tells).unique hasked
    rw [Pages.next_forward, hguard, if_pos rfl]
    exact performs_write hs rfl (by decide) (reads_forward (n := n + 2) hs.tells)
      (hs.tells.writePage _) (fun _ => id) fun _ => .inl
  · have hguard := (asked_back (n := n + 3) hs.tells).unique hasked
    rw [Pages.next_back, hguard, if_pos rfl]
    exact performs_write hs rfl (by decide) (reads_back (n := n + 2) hs.tells)
      (hs.tells.writePage _) (fun _ => id) fun _ => .inl
  · obtain ⟨-, page, hpage, -⟩ := hproper.page rfl
    have hguard := (asked_jump (n := n) hs.tells hpage).unique hasked
    rw [Pages.next_jump p usual payload hpage, hguard, if_pos rfl]
    refine performs_write hs rfl (by decide) ?_ (hs.tells.writePage _) (fun _ => id) fun _ => .inl
    rw [← hpage]
    exact .binding rfl
  · obtain ⟨-, -, size, hsize, -⟩ := hproper.size rfl
    have hreads : Reads (n + 4) (actor.stage s payload now) s.data "@payload.size"
        (.number size) := by
      rw [← hsize]
      exact .binding rfl
    rw [Pages.next_size p usual payload hsize, Pages.halfway_size p usual payload hsize]
    refine performs_write hs rfl (by decide) hreads (hs.tells.writeSize size)
      (fun s' hs' => ?_) fun _ => .inr
    exact performs_write hs' rfl (by decide) (.literal rfl rfl) (hs'.tells.writePage _)
      (fun _ => id) fun _ => .inl
  · obtain ⟨-, -, total, htotal, -⟩ := hproper.total rfl
    have hreads : Reads (n + 4) (actor.stage s payload now) s.data "@payload.total"
        (.number total) := by
      rw [← htotal]
      exact .binding rfl
    rw [Pages.next_total p usual payload htotal]
    exact performs_write hs rfl (by decide) hreads (hs.tells.writeTotal total) (fun _ => id)
      fun _ => .inl

theorem answers (hp : Governs usual actor) (hs : Shows p s) {event : Text}
    (hproper : Proper event payload) :
    actor.Answers (n + 5) s event payload now (Shows (p.next usual event payload))
      fun s' => Shows (p.next usual event payload) s' ∨ Shows (p.halfway usual event payload) s' := by
  refine Actor.answers_of_plain hp.definition (by decide +kernel) (fun hdenied => ?_)
    fun t ht hsuits hasked => ?_
  · rw [next_of_denied hs.tells hproper hdenied]
    exact hs
  · obtain ⟨rfl, -⟩ := hsuits
    exact (performs_next hp hs ht hproper hasked).mono
      (fun _ hs' => ⟨hs'.busy, hs'.queue, hs'.tells⟩) fun _ _ => id

/-- A dispatch comes to what its event comes to, or stops halfway. -/
theorem dispatches (hp : Governs usual actor) (hqueue : s.queue = []) (hs : Tells p s.data)
    {event : Text} (hproper : Proper event payload) :
    actor.Does (Machine.dispatch (Evaluator.withFuel Library.standard (n + 5)) actor.services
      actor.handle event payload) s
      (fun _ s' => s'.queue = [] ∧ Tells (p.next usual event payload) s'.data)
      (fun s' => s'.queue = [] ∧ (Tells (p.next usual event payload) s'.data ∨
        Tells (p.halfway usual event payload) s'.data)) := by
  have hbusy : Shows p { s with busy := true } := ⟨rfl, hqueue, hs⟩
  refine Actor.Does.dispatch fun now => (answers hp hbusy hproper).mono
    (fun s' hs' => Actor.drains_nil hs'.queue ⟨rfl, hs'.tells⟩ _) fun _ s' hs' => ?_
  exact ⟨rfl, hs'.imp (fun hs' => hs'.tells) fun hs' => hs'.tells⟩

end effects

/-- The numbers of a machine of a host. -/
def Displays (h : Host) (a : Nat) (p : Pages) : Prop := ∃ data, h.data? a = some data ∧ Tells p data

/-- An event that leaves a page behind that does not exist. -/
inductive Offends (usual : Float) (ev : Evaluator) (a : Nat) (h : Host) (o : Occurrence) : Prop
  | strays {p} (displays : Displays h a p) (strays : Strays usual p o.event o.payload)
  /-- The handler fails that is told of another page size, and the page is kept that is beyond the
  last one of that size. -/
  | halts {p size fault h'} (cause : o.event = "SET_PAGE_SIZE") (displays : Displays h a p)
      (number : o.payload.getIn ["size"] = .number size)
      (fails : Host.dispatch ev a o.event o.payload h = .error fault h')
      (left : Displays h' a { p with size }) (beyond : ¬{ p with size : Pages }.Exist)

section hosts

variable {p : Pages} {usual : Float} {actor : Actor} {s : Scene} {h h₁ : Host} {ev : Evaluator}
  {a : Nat} {o : Occurrence}

theorem displays_iff (hw : actor.Stands s h.world) (hs : Tells p s.data) {p' : Pages} :
    Displays h actor.handle p' ↔ p' = p := by
  constructor
  · rintro ⟨data, hdata, htells⟩
    cases hdata.symm.trans (Host.data?_of_stands hw)
    exact htells.unique hs
  · rintro rfl
    exact ⟨s.data, Host.data?_of_stands hw, hs⟩

/-- What an event leaves behind that runs to its end. -/
theorem exist_behind_iff (hdisplays : ∀ p', Displays h a p' ↔ p' = p)
    (hnext : (p.next usual o.event o.payload).Exist ↔ ¬Strays usual p o.event o.payload)
    (hends : ∀ fault h', Host.dispatch ev a o.event o.payload h = .error fault h' →
      ∀ p', Displays h' a p' → p' = p.next usual o.event o.payload) :
    (p.next usual o.event o.payload).Exist ↔ ¬Offends usual ev a h o := by
  refine hnext.trans (not_congr ⟨fun hstrays => .strays ((hdisplays p).mpr rfl) hstrays, ?_⟩)
  rintro (⟨hshown, hstrays⟩ | ⟨hcause, hshown, hnumber, hfails, hleft, hbeyond⟩)
  · rwa [(hdisplays _).mp hshown] at hstrays
  · rw [hends _ _ hfails _ hleft] at hbeyond
    exact not_not.mp (mt hnext.mpr hbeyond)

/-- What an event leaves behind that stops halfway. -/
theorem exist_halfway_iff (hdisplays : ∀ p', Displays h a p' ↔ p' = p) (hexist : p.Exist)
    (hnext : (p.next usual o.event o.payload).Exist ↔ ¬Strays usual p o.event o.payload)
    {fault : Fault} {h' : Host}
    (hfails : Host.dispatch ev a o.event o.payload h = .error fault h')
    (hleft : ∀ p', Displays h' a p' ↔ p' = p.halfway usual o.event o.payload)
    (hproper : Proper o.event o.payload) :
    (p.halfway usual o.event o.payload).Exist ↔ ¬Offends usual ev a h o := by
  by_cases hsize : o.event = "SET_PAGE_SIZE"
  · obtain ⟨n, -, size, hnumber, -⟩ := hproper.size hsize
    have hhalfway : p.halfway usual o.event o.payload = { p with size } := by
      rw [hsize]
      exact Pages.halfway_size p usual o.payload hnumber
    have hstays : ¬Strays usual p o.event o.payload := fun hstrays => by
      have hcause := hstrays.cause
      rw [hsize] at hcause
      exact absurd hcause (by decide)
    rw [hhalfway] at hleft ⊢
    constructor
    · rintro hkept (⟨hshown, hstrays⟩ | ⟨-, hshown, hnumber', -, -, hbeyond⟩)
      · rw [(hdisplays _).mp hshown] at hstrays
        exact hstays hstrays
      · cases hnumber.symm.trans hnumber'
        rw [(hdisplays _).mp hshown] at hbeyond
        exact hbeyond hkept
    · intro hno
      by_contra hbeyond
      exact hno (.halts hsize ((hdisplays p).mpr rfl) hnumber hfails ((hleft _).mpr rfl) hbeyond)
  by_cases hinit : o.event = "INIT"
  · have hhalfway : p.halfway usual o.event o.payload = { p with page := Float.ofNat 1 } := by
      rw [hinit]
      rfl
    rw [hhalfway]
    obtain ⟨k, s, t, hcounts, -⟩ := hexist
    refine iff_of_true hcounts.exist_first ?_
    rintro (⟨-, hstrays⟩ | ⟨hcause, -⟩)
    · have hcause := hstrays.cause
      rw [hinit] at hcause
      exact absurd hcause (by decide)
    · exact hsize hcause
  · have hhalfway : p.halfway usual o.event o.payload = p.next usual o.event o.payload := by
      simp only [Pages.halfway, hsize, hinit, if_false]
    rw [hhalfway] at hleft ⊢
    refine exist_behind_iff hdisplays hnext fun fault' h'' hfails' p' hshown => ?_
    cases hfails.symm.trans hfails'
    exact (hleft p').mp hshown

/-- The page of a new pagination exists behind every event, exactly if no event finds the
pagination such that it leaves a page that does not. -/
theorem page_exists_iff (fuel : Nat) {definition a : Nat} {given seed : Value}
    {config : Table Value} {usual : Float} (hd : h.definitions.lookup definition = some pagination)
    (hconfig : pagination.configure given = .ok config)
    (husual : (Value.map config).get "defaultPageSize" = .number usual)
    (hwhole : ∃ n : ℤ, 1 ≤ n ∧ toRat? usual = some (n : ℚ))
    (hseed : ∀ entry ∈ seed.entries,
      entry.1 ≠ "page" ∧ entry.1 ≠ "pageSize" ∧ entry.1 ≠ "totalItems")
    (hcreate : Host.create (Evaluator.withFuel Library.standard (fuel + 5)) definition given seed h
      = .ok a h₁) {os : List Occurrence} (hos : ∀ o ∈ os, Proper o.event o.payload) :
    (∀ before, before <+: os → ∃ p,
        Displays (h₁.dispatched (Evaluator.withFuel Library.standard (fuel + 5)) a before) a p ∧
          p.Exist) ↔
      ∀ before o, before ++ [o] <+: os →
        ¬Offends usual (Evaluator.withFuel Library.standard (fuel + 5)) a
          (h₁.dispatched (Evaluator.withFuel Library.standard (fuel + 5)) a before) o := by
  obtain ⟨config', store, now, hconfig', hstands⟩ := Host.create_stands hd rfl hcreate
  obtain rfl : config = config' := Except.ok.inj (hconfig.symm.trans hconfig')
  let actor : Actor := ⟨Machine.fresh a pagination (.map config) store now, h₁.services, False⟩
  have hp : Governs usual actor := ⟨rfl, .map config, rfl, husual⟩
  have hdefault (key : Text) (hkey : ∀ entry ∈ seed.entries, entry.1 ≠ key) :
      (Value.map (Machine.initialData pagination seed)).get key
        = (Value.map pagination.defaultData).get key :=
    congrArg (·.getD .undefined) (Table.find?_overlay_of_ne hkey pagination.defaultData)
  let first : Pages := ⟨Float.ofNat 1, Float.ofNat 20, Float.ofNat 0⟩
  have hfirst : Tells first (.map (Machine.initialData pagination seed)) :=
    ⟨hdefault "page" fun entry hentry => (hseed entry hentry).1,
      hdefault "pageSize" fun entry hentry => (hseed entry hentry).2.1,
      hdefault "totalItems" fun entry hentry => (hseed entry hentry).2.2⟩
  have hcounts : first.Counts (1 : ℕ) (20 : ℕ) (0 : ℕ) :=
    Pages.counts_ofNat (by decide) (by decide) (by decide) (by decide)
  have hthere {h : Host} {s : Scene} {p : Pages} (hw : actor.Stands s h.world)
      (hs : Tells p s.data) (P : Pages → Prop) : (∃ p, Displays h a p ∧ P p) ↔ P p := by
    have hdisplays {p' : Pages} : Displays h a p' ↔ p' = p := displays_iff hw hs
    simp only [hdisplays, exists_eq_left]
  refine Host.throughout_iff (R := fun h => ∃ s p, actor.Stands s h.world ∧ s.queue = [] ∧
      Tells p s.data ∧ actor.services = h.services)
    (P := fun h => ∃ p, Displays h a p ∧ p.Exist)
    (O := Offends usual (Evaluator.withFuel Library.standard (fuel + 5)) a)
    ?_ ⟨_, first, hstands False False.elim, rfl, hfirst, rfl⟩ ?_
  · rintro h o ho ⟨s, p, hw, hqueue, hs, hservices⟩ hexists
    have hexist := (hthere hw hs _).mp hexists
    have hproper := hos o ho
    have hnext : (p.next usual o.event o.payload).Exist ↔ ¬Strays usual p o.event o.payload :=
      exist_next_iff hexist hwhole hproper
    have hdisplays (p' : Pages) : Displays h a p' ↔ p' = p := displays_iff hw hs
    have hevent (h' : Host) (x : Host.behind (Host.dispatch
        (Evaluator.withFuel Library.standard (fuel + 5)) a o.event o.payload) h = h') :
        h.moved (Evaluator.withFuel Library.standard (fuel + 5))
          (.dispatch a o.event o.payload) = h' := x
    rcases Host.dispatch_ends hservices hw (dispatches (n := fuel) hp hqueue hs hproper) with
      ⟨d, h', s', hr, hw', hservices', hqueue', hs'⟩ |
      ⟨fault, h', s', hr, hw', hservices', hqueue', hs' | hs'⟩
    · rw [hevent h' (Host.behind_ok hr)]
      refine ⟨⟨s', _, hw', hqueue', hs', hservices'⟩, (hthere hw' hs' _).trans ?_⟩
      refine exist_behind_iff hdisplays hnext fun fault h'' hfails => ?_
      cases hr.symm.trans hfails
    · rw [hevent h' (Host.behind_error hr)]
      refine ⟨⟨s', _, hw', hqueue', hs', hservices'⟩, (hthere hw' hs' _).trans ?_⟩
      refine exist_behind_iff hdisplays hnext fun fault' h'' hfails p' hshown => ?_
      cases hr.symm.trans hfails
      exact (displays_iff hw' hs').mp hshown
    · rw [hevent h' (Host.behind_error hr)]
      refine ⟨⟨s', _, hw', hqueue', hs', hservices'⟩, (hthere hw' hs' _).trans ?_⟩
      exact exist_halfway_iff hdisplays hexist hnext hr (fun _ => displays_iff hw' hs') hproper
  · exact (hthere (hstands False False.elim) hfirst _).mpr hcounts.exist_first

/-- A host that knows paginations. -/
def library : Host := { definitions := [(1, pagination)] }

def total (n : Nat) : Occurrence := ⟨"SET_TOTAL", .map [("total", Value.ofNat n)]⟩

def turn (event : Text) : Occurrence := ⟨event, .map []⟩

theorem proper_total (n : Nat) (hn : n ≤ 2 ^ 53) : Proper (total n).event (total n).payload where
  page h := absurd h (show ("SET_TOTAL" : Text) ≠ "GO_TO_PAGE" by decide)
  size h := absurd h (show ("SET_TOTAL" : Text) ≠ "SET_PAGE_SIZE" by decide)
  total _ := ⟨n, Int.natCast_nonneg n, Float.ofNat n, rfl, Double.toRat?_ofNat hn⟩

theorem Offends.cause (ho : Offends usual ev a h o) : o.event = "SET_TOTAL" ∨
    o.event = "NEXT_PAGE" ∨ o.event = "GO_TO_PAGE" ∨ o.event = "SET_PAGE_SIZE" := by
  cases ho with
  | strays _ hstrays => rcases hstrays.cause with h | h | h <;> simp only [h, true_or, or_true]
  | halts hcause => simp only [hcause, or_true]

/-- Pages that are turned back exist whatever the total is at first. -/
theorem page_exists_turned : ∃ h₁, Host.create (Evaluator.withFuel Library.standard 5) 1 (.map [])
      (.map []) library = .ok 1 h₁ ∧
    ∀ before, before <+: [total 100, turn "PREV_PAGE", turn "INIT"] → ∃ p,
      Displays (h₁.dispatched (Evaluator.withFuel Library.standard 5) 1 before) 1 p ∧ p.Exist := by
  have hconfig : pagination.configure (.map []) = .ok pagination.configDefaults := rfl
  obtain ⟨log, hcreate⟩ := Host.create_of_configure (Evaluator.withFuel Library.standard 5) library 1
    (.map []) (.map []) rfl hconfig rfl
  refine ⟨_, hcreate, (page_exists_iff 0 rfl hconfig rfl ⟨20, by decide,
    Double.toRat?_ofNat (by decide)⟩ (fun _ hentry => absurd hentry List.not_mem_nil) hcreate
    ?_).mpr ?_⟩
  · intro o ho
    simp only [List.mem_cons, List.not_mem_nil, or_false] at ho
    rcases ho with rfl | rfl | rfl
    · exact proper_total 100 (by decide)
    · exact ⟨fun h => absurd h (by decide), fun h => absurd h (by decide),
        fun h => absurd h (by decide)⟩
    · exact ⟨fun h => absurd h (by decide), fun h => absurd h (by decide),
        fun h => absurd h (by decide)⟩
  · intro before o hprefix hoffends
    have hturned : ∀ o ∈ [turn "PREV_PAGE", turn "INIT"], ¬(o.event = "SET_TOTAL" ∨
        o.event = "NEXT_PAGE" ∨ o.event = "GO_TO_PAGE" ∨ o.event = "SET_PAGE_SIZE") := by decide
    cases before with
    | cons first rest =>
      obtain ⟨-, hrest⟩ := List.cons_prefix_cons.mp hprefix
      exact hturned o (hrest.subset (by simp)) hoffends.cause
    | nil =>
      obtain ⟨rfl, -⟩ := List.cons_prefix_cons.mp hprefix
      have hnew : Tells ⟨Float.ofNat 1, Float.ofNat 20, Float.ofNat 0⟩
          (.map (Machine.initialData pagination (.map []))) := ⟨rfl, rfl, rfl⟩
      have hcounts : Pages.Counts ⟨Float.ofNat 1, Float.ofNat 20, Float.ofNat 100⟩ (1 : ℕ) (20 : ℕ)
          (100 : ℕ) := Pages.counts_ofNat (by decide) (by decide) (by decide) (by decide)
      rcases hoffends with ⟨⟨data, hdata, htells⟩, hstrays⟩ | hcause
      · cases hdata
        obtain rfl := htells.unique hnew
        cases hstrays with
        | shrinks _ hnumber hbeyond =>
          obtain rfl := Value.number.inj hnumber
          exact hbeyond hcounts.exist_first
        | rounded hcause => rcases hcause with hcause | hcause <;> exact absurd hcause (by decide)
      · exact absurd hcause (by decide)

/-- The last page is shown as the total shrinks. -/
def shrunk : Host :=
  (library.moved (Evaluator.withFuel Library.standard 5) (.create 1 (.map []) (.map []))).dispatched
    (Evaluator.withFuel Library.standard 5) 1 [total 100, turn "NEXT_PAGE", total 0]

theorem shrunk_strays : (shrunk.data? 1).any (fun data =>
      match data.get "page", data.get "totalItems" with
      | .number page, .number total => toRat? page == some 2 && toRat? total == some 0
      | _, _ => false) = true ∧ ¬∃ p, Displays shrunk 1 p ∧ p.Exist := by
  have hbeyond : (shrunk.data? 1).any (fun data =>
      match data.get "page", data.get "totalItems" with
      | .number page, .number total => toRat? page == some 2 && toRat? total == some 0
      | _, _ => false) = true := by decide +kernel
  refine ⟨hbeyond, ?_⟩
  rintro ⟨p, ⟨data, hdata, htells⟩, k, s, t, hcounts, -, hle⟩
  rw [hdata, Option.any_some, htells.page, htells.total] at hbeyond
  obtain ⟨hpage, htotal⟩ := Bool.and_eq_true_iff.mp hbeyond
  rw [beq_iff_eq, hcounts.page] at hpage
  rw [beq_iff_eq, hcounts.total] at htotal
  obtain rfl : k = 2 := by exact_mod_cast Option.some.inj hpage
  obtain rfl : t = 0 := by exact_mod_cast Option.some.inj htotal
  rw [Int.cast_zero, zero_div, Int.ceil_zero] at hle
  exact absurd hle (by decide)

end hosts

end Pagination
end Catalogue
end EntityMachines
