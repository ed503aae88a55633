import EntityMachines.Proofs.Library.Object
import EntityMachines.Proofs.Library.Time
import EntityMachines.Proofs.Numeral.Whole
import EntityMachines.Proofs.Numeral.Spelling
import EntityMachines.Proofs.Text

/-!
Lengths of time that are told in parts, each a whole number of a unit. Main statement: a length of
time is told in two parts at most, which stand for no more than it, unless days, hours and minutes
are told, or the number of days has been rounded up.
-/
namespace EntityMachines
namespace Calendar

open Double

/-- The units of a length of time, from the longest to the shortest. -/
inductive Measure where
  | day | hour | minute | second
deriving DecidableEq

namespace Measure

def millis : Measure → ℤ
  | day => msPerDay
  | hour => msPerHour
  | minute => msPerMinute
  | second => msPerSecond

def suffix : Measure → Byte
  | day => 100
  | hour => 104
  | minute => 109
  | second => 115

variable (u : Measure)

theorem millis_bounds : 1000 ≤ u.millis ∧ u.millis ≤ 86400000 := by
  cases u <;> decide

theorem suffix_injective : Function.Injective suffix := by
  intro u v h
  cases u <;> cases v <;> first | rfl | cases h

theorem suffix_ne_blank : u.suffix ≠ 32 := by
  cases u <;> decide

theorem toRat?_millis : toRat? (msOf u.millis) = some (u.millis : ℚ) := by
  have hbounds := u.millis_bounds
  exact toRat?_ofInt (by omega)

end Measure

/-- A whole number of a unit, as a double. -/
structure Part where
  unit : Measure
  count : Float
  number : ℕ
  whole : toRat? count = some (number : ℚ)

namespace Part

def text (p : Part) : Text := Numeral.plain.write p.count ++ [p.unit.suffix]

def millis (p : Part) : ℤ := p.number * p.unit.millis

theorem not_mem_text (p : Part) : (32 : Byte) ∉ p.text := by
  have htoken := Numeral.write_isToken (isFinite_of_toRat? p.whole)
  unfold text
  rw [List.mem_append, List.mem_singleton, not_or]
  refine ⟨fun hblank => ?_, p.unit.suffix_ne_blank.symm⟩
  exact absurd (htoken.bytes 32 hblank) (by decide)

/-- A part can be read off its text. -/
theorem eq_of_text_eq {p p' : Part} (h : p.text = p'.text) :
    p.unit = p'.unit ∧ p.number = p'.number := by
  obtain ⟨hcount, hsuffix⟩ := List.append_inj' h rfl
  refine ⟨Measure.suffix_injective (List.singleton_inj.mp hsuffix), ?_⟩
  rw [Numeral.write_eq_iff (not_isNaN p.whole) (not_isNaN p'.whole), beq_iff p.whole p'.whole]
    at hcount
  exact_mod_cast hcount

end Part

/-- A text is told in one part or two, from the longer unit to the shorter, which stand for no more
than some milliseconds. -/
def Brief (t : Text) (n : ℤ) : Prop :=
  ∃ parts : List Part, t = Text.join " " (parts.map Part.text) ∧
    parts ≠ [] ∧ parts.length ≤ 2 ∧
    (parts.map Part.unit).Sublist [.day, .hour, .minute, .second] ∧
    (parts.map Part.millis).sum ≤ n

theorem map_text_inj {parts others : List Part} (hparts : parts ≠ []) (hothers : others ≠ [])
    (h : Text.join " " (parts.map Part.text) = Text.join " " (others.map Part.text)) :
    parts.map (fun p => (p.unit, p.number)) = others.map fun p => (p.unit, p.number) := by
  have hblank (l : List Part) : ∀ t ∈ l.map Part.text, (32 : Byte) ∉ t := by
    intro t ht
    obtain ⟨p, -, rfl⟩ := List.mem_map.mp ht
    exact p.not_mem_text
  have hsplit {l : List Part} (hl : l ≠ []) :
      Text.splitByte 32 (Text.join " " (l.map Part.text)) = l.map Part.text :=
    Text.splitByte_join (by simpa using hl) (hblank l)
  have htexts : parts.map Part.text = others.map Part.text := by
    rw [← hsplit hparts, h, hsplit hothers]
  clear h hparts hothers
  induction parts generalizing others with
  | nil =>
    obtain rfl := List.map_eq_nil_iff.mp htexts.symm
    rfl
  | cons p parts ih =>
    cases others with
    | nil => cases htexts
    | cons p' others =>
      obtain ⟨hfirst, hrest⟩ := List.cons.inj htexts
      obtain ⟨hunit, hnumber⟩ := Part.eq_of_text_eq hfirst
      rw [List.map_cons, List.map_cons, hunit, hnumber, ih hrest]

/-- Whether a text is brief can be seen from the parts that it is put together from. -/
theorem brief_iff {parts : List Part} (hparts : parts ≠ []) (n : ℤ) :
    Brief (Text.join " " (parts.map Part.text)) n ↔ parts.length ≤ 2 ∧
      (parts.map Part.unit).Sublist [.day, .hour, .minute, .second] ∧
      (parts.map Part.millis).sum ≤ n := by
  constructor
  · rintro ⟨others, htext, hothers, hfew, horder, htotal⟩
    have hsame := map_text_inj hparts hothers htext
    have hunits := congrArg (List.map Prod.fst) hsame
    have hmillis := congrArg (List.map fun key => (key.2 : ℤ) * key.1.millis) hsame
    rw [List.map_map, List.map_map] at hunits hmillis
    change parts.map Part.unit = others.map Part.unit at hunits
    change parts.map Part.millis = others.map Part.millis at hmillis
    have hlength : parts.length = others.length := by simpa using congrArg List.length hsame
    rw [hunits, hmillis, hlength]
    exact ⟨hfew, horder, htotal⟩
  · rintro ⟨hfew, horder, htotal⟩
    exact ⟨parts, rfl, hparts, hfew, horder, htotal⟩

/-! The parts that are told, one unit after the other. -/

/-- One unit is told, as often as it is in the milliseconds that are left. -/
def tell (u : Measure) (state : Float × List Text) : Float × List Text :=
  if state.1 >= msOf u.millis then
    (remainder state.1 (msOf u.millis),
      state.2 ++ [Numeral.plain.write (floor (state.1 / msOf u.millis)) ++ [u.suffix]])
  else state

theorem durationParts_eq (ms : Float) : durationParts ms =
    let state := tell .minute (tell .hour (tell .day (ms, [])))
    if state.2.length < 2 then (tell .second state).2 else state.2 := (rfl)

variable {x ms : Float} {state : Float × List Text} {n k : ℤ} {u : Measure}

/-- The parts of one unit among some milliseconds: one where they are enough for it, else none. The
number of units is the right one unless it is large. -/
structure Amount (u : Measure) (n : ℤ) (told : List Part) (k : ℤ) : Prop where
  units : told.map Part.unit = if u.millis ≤ n then [u] else []
  millis : (told.map Part.millis).sum = if u.millis ≤ n then k * u.millis else 0
  exact : n / u.millis < 2 ^ 26 → k = n / u.millis

/-- A number of units is whole, and a quotient that is not too large is not rounded up. -/
theorem exists_count (hms : toRat? ms = some (n : ℚ)) (hn : 0 ≤ n) (u : Measure) :
    ∃ k : ℕ, toRat? (floor (ms / msOf u.millis)) = some (k : ℚ) ∧
      (n / u.millis < 2 ^ 26 → (k : ℤ) = n / u.millis) := by
  obtain ⟨hge, hle⟩ := u.millis_bounds
  have hquotient : 0 ≤ n / u.millis := Int.ediv_nonneg hn (by omega)
  have hnonneg : (0 : ℚ) ≤ n := by exact_mod_cast hn
  have hunit : (1 : ℚ) ≤ u.millis := by exact_mod_cast (by omega : (1 : ℤ) ≤ u.millis)
  have hrounds := div_rounds hms u.toRat?_millis (by positivity)
  obtain ⟨q, hq, hpos, -⟩ := hrounds.exists_between toRat?_zero hms (by positivity)
    (div_le_self hnonneg hunit)
  have hfloor := toRat?_floor hq
  lift ⌊q⌋ to ℕ using Int.floor_nonneg.mpr hpos with k hk
  refine ⟨k, by simpa using hfloor, fun hfew => ?_⟩
  have hexact := toRat?_floor_div (j := 27) hms u.toRat?_millis (by omega) (by omega) (by decide)
    (by omega) (by omega)
  rw [hexact, Option.some_inj] at hfloor
  exact_mod_cast hfloor.symm

/-- The telling of one unit adds its parts and leaves the remainder. -/
theorem exists_amount (hms : toRat? state.1 = some (n : ℚ)) (hn : 0 ≤ n) (u : Measure) :
    ∃ told k, Amount u n told k ∧ (tell u state).2 = state.2 ++ told.map Part.text ∧
      toRat? (tell u state).1 = some ((n % u.millis : ℤ) : ℚ) ∧
      toRat? (floor (state.1 / msOf u.millis)) = some (k : ℚ) := by
  have hbounds := u.millis_bounds
  have hge : state.1 >= msOf u.millis ↔ u.millis ≤ n :=
    (le_iff u.toRat?_millis hms).trans Int.cast_le
  obtain ⟨k, hcount, hexact⟩ := exists_count hms hn u
  by_cases htell : u.millis ≤ n
  · let p : Part := ⟨u, floor (state.1 / msOf u.millis), k, hcount⟩
    have hstep : tell u state = (remainder state.1 (msOf u.millis), state.2 ++ [p.text]) :=
      if_pos (hge.mpr htell)
    have hsum : ([p].map Part.millis).sum = k * u.millis := List.sum_singleton
    rw [hstep]
    exact ⟨[p], k, ⟨(if_pos htell).symm, hsum.trans (if_pos htell).symm, hexact⟩, rfl,
      toRat?_remainder_whole hms u.toRat?_millis hn (by omega), hcount⟩
  · have hstep : tell u state = state := if_neg (mt hge.mp htell)
    rw [hstep, Int.emod_eq_of_lt hn (not_le.mp htell)]
    exact ⟨[], k, ⟨(if_neg htell).symm, (if_neg htell).symm, hexact⟩,
      (List.append_nil state.2).symm, hms, hcount⟩

namespace Amount

variable {told : List Part}

theorem cases (h : Amount u n told k) :
    u.millis ≤ n ∧ told.length = 1 ∧ (told.map Part.millis).sum = k * u.millis ∨
      n < u.millis ∧ told.length = 0 ∧ (told.map Part.millis).sum = 0 := by
  have hunits := h.units
  have hmillis := h.millis
  rw [← List.length_map Part.unit]
  rcases le_or_gt u.millis n with hle | hgt
  · rw [if_pos hle] at hunits hmillis
    exact .inl ⟨hle, by rw [hunits]; rfl, hmillis⟩
  · rw [if_neg hgt.not_ge] at hunits hmillis
    exact .inr ⟨hgt, by rw [hunits]; rfl, hmillis⟩

theorem sublist (h : Amount u n told k) : (told.map Part.unit).Sublist [u] := by
  rw [h.units]
  split
  · exact List.Sublist.refl _
  · exact List.nil_sublist _

/-- Few units are all that there are, up to the remainder. -/
theorem millis_eq (h : Amount u n told k) (hn : 0 ≤ n) (hfew : n / u.millis < 2 ^ 26) :
    (told.map Part.millis).sum = n - n % u.millis := by
  rcases h.cases with ⟨-, -, hmillis⟩ | ⟨hlt, -, hmillis⟩
  · have hdivmod := Int.ediv_mul_add_emod n u.millis
    rw [hmillis, h.exact hfew]
    omega
  · rw [hmillis, Int.emod_eq_of_lt hn hlt, Int.sub_self]

end Amount

/-! A whole length of time. -/

/-- There are days, and hours and minutes behind them. -/
def IsThreefold (n : ℤ) : Prop :=
  msPerDay ≤ n ∧ msPerHour ≤ n % msPerDay ∧ msPerMinute ≤ n % msPerHour

instance (n : ℤ) : Decidable (IsThreefold n) := inferInstanceAs (Decidable (_ ∧ _))

/-- The parts of all units, each among what the longer ones leave. -/
structure Account (n : ℤ) (days hours minutes seconds : List Part) (k : ℤ) : Prop where
  days : Amount .day n days k
  hours : ∃ j, Amount .hour (n % 86400000) hours j
  minutes : ∃ j, Amount .minute (n % 86400000 % 3600000) minutes j
  seconds : ∃ j, Amount .second (n % 86400000 % 3600000 % 60000) seconds j

/-- Seconds are told where fewer than two parts come before them. -/
def chosen (days hours minutes seconds : List Part) : List Part :=
  if (days ++ hours ++ minutes).length < 2 then days ++ hours ++ minutes ++ seconds
  else days ++ hours ++ minutes

theorem exists_account (hms : toRat? ms = some (n : ℚ)) (hn : 0 ≤ n) :
    ∃ days hours minutes seconds k, Account n days hours minutes seconds k ∧
      durationParts ms = (chosen days hours minutes seconds).map Part.text ∧
      toRat? (floor (ms / msOf msPerDay)) = some (k : ℚ) := by
  have hstart : toRat? (ms, ([] : List Text)).1 = some (n : ℚ) := hms
  obtain ⟨days, k, hdays, hdayTexts, hrest, hcount⟩ := exists_amount hstart hn .day
  obtain ⟨hours, _, hhours, hhourTexts, hrest, -⟩ :=
    exists_amount hrest (Int.emod_nonneg _ (by decide)) .hour
  obtain ⟨minutes, _, hminutes, hminuteTexts, hrest, -⟩ :=
    exists_amount hrest (Int.emod_nonneg _ (by decide)) .minute
  obtain ⟨seconds, _, hseconds, hsecondTexts, -⟩ :=
    exists_amount hrest (Int.emod_nonneg _ (by decide)) .second
  rw [hhourTexts, hdayTexts, List.nil_append, ← List.map_append, ← List.map_append] at hminuteTexts
  rw [hminuteTexts, ← List.map_append] at hsecondTexts
  refine ⟨days, hours, minutes, seconds, k, ⟨hdays, ⟨_, hhours⟩, ⟨_, hminutes⟩, ⟨_, hseconds⟩⟩, ?_,
    hcount⟩
  rw [durationParts_eq]
  dsimp only
  rw [hsecondTexts, hminuteTexts, List.length_map, ← apply_ite (List.map Part.text)]
  rfl

namespace Account

variable {days hours minutes seconds : List Part}

theorem sublist (h : Account n days hours minutes seconds k) :
    ((chosen days hours minutes seconds).map Part.unit).Sublist [.day, .hour, .minute, .second] := by
  obtain ⟨hdays, ⟨_, hhours⟩, ⟨_, hminutes⟩, ⟨_, hseconds⟩⟩ := h
  have hthree : ((days ++ hours ++ minutes).map Part.unit).Sublist [.day, .hour, .minute] := by
    rw [List.map_append, List.map_append]
    exact (hdays.sublist.append hhours.sublist).append hminutes.sublist
  unfold chosen
  split
  · rw [List.map_append]
    exact hthree.append hseconds.sublist
  · exact hthree.trans (List.sublist_append_left _ [Measure.second])

theorem length_le_iff (h : Account n days hours minutes seconds k) :
    (chosen days hours minutes seconds).length ≤ 2 ↔ ¬IsThreefold n := by
  obtain ⟨hdays, ⟨_, hhours⟩, ⟨_, hminutes⟩, ⟨_, hseconds⟩⟩ := h
  have hday := hdays.cases
  have hhour := hhours.cases
  have hminute := hminutes.cases
  have hsecond := hseconds.cases
  have hthree : (days ++ hours ++ minutes).length = days.length + hours.length + minutes.length := by
    rw [List.length_append, List.length_append]
  unfold IsThreefold chosen
  simp only [Measure.millis, msPerDay, msPerHour, msPerMinute] at *
  split
  · rw [List.length_append]
    omega
  · omega

/-- All units but the days are counted exactly. -/
theorem sum_le_iff (h : Account n days hours minutes seconds k) (hn : 0 ≤ n) :
    ((chosen days hours minutes seconds).map Part.millis).sum ≤ n ↔ k ≤ n / msPerDay := by
  obtain ⟨hdays, ⟨_, hhours⟩, ⟨_, hminutes⟩, ⟨_, hseconds⟩⟩ := h
  have hday := hdays.cases
  have hexact := hdays.exact
  have hhour : (hours.map Part.millis).sum = n % 86400000 - n % 86400000 % 3600000 :=
    hhours.millis_eq (by omega) (by simp only [Measure.millis, msPerHour]; omega)
  have hminute : (minutes.map Part.millis).sum
      = n % 86400000 % 3600000 - n % 86400000 % 3600000 % 60000 :=
    hminutes.millis_eq (by omega) (by simp only [Measure.millis, msPerMinute]; omega)
  have hsecond : (seconds.map Part.millis).sum
      = n % 86400000 % 3600000 % 60000 - n % 86400000 % 3600000 % 60000 % 1000 :=
    hseconds.millis_eq (by omega) (by simp only [Measure.millis, msPerSecond]; omega)
  have hthree : ((days ++ hours ++ minutes).map Part.millis).sum = (days.map Part.millis).sum
      + (hours.map Part.millis).sum + (minutes.map Part.millis).sum := by
    rw [List.map_append, List.map_append, List.sum_append, List.sum_append]
  unfold chosen
  simp only [Measure.millis, msPerDay] at *
  split
  · rw [List.map_append, List.sum_append]
    omega
  · omega

end Account

/-- The double that the days are counted with has been rounded up to a whole number. -/
def Overcounts (x : Float) (n : ℤ) : Prop :=
  ∃ k : ℤ, toRat? (floor (x.abs / msOf msPerDay)) = some (k : ℚ) ∧ n / msPerDay < k

theorem overcounts_iff (hcount : toRat? (floor (x.abs / msOf msPerDay)) = some (k : ℚ)) (n : ℤ) :
    Overcounts x n ↔ n / msPerDay < k := by
  refine ⟨fun ⟨k', hcount', hlt⟩ => ?_, fun hlt => ⟨k, hcount, hlt⟩⟩
  rw [hcount, Option.some_inj, Int.cast_inj] at hcount'
  rwa [hcount']

/-- No time at all, in seconds. -/
def noTime : Part := ⟨.second, 0.0, 0, toRat?_zero⟩

theorem text_noTime : noTime.text = "0s" := by decide +kernel

theorem toRat?_abs_whole (hx : toRat? x = some (n : ℚ)) : toRat? x.abs = some ((|n| : ℤ) : ℚ) := by
  rw [toRat?_abs hx, Int.cast_abs]

/-- Each length of time is told in parts, of which there are three if it is threefold, and which
stand for too much if the days are counted too high. -/
theorem exists_parts (hx : toRat? x = some (n : ℚ)) :
    ∃ parts : List Part, parts ≠ [] ∧ durationText x = Text.join " " (parts.map Part.text) ∧
      (parts.map Part.unit).Sublist [.day, .hour, .minute, .second] ∧
      (parts.length ≤ 2 ↔ ¬IsThreefold |n|) ∧
      ((parts.map Part.millis).sum ≤ |n| ↔ ¬Overcounts x |n|) := by
  have hn : 0 ≤ |n| := abs_nonneg n
  obtain ⟨days, hours, minutes, seconds, k, haccount, hparts, hcount⟩ :=
    exists_account (toRat?_abs_whole hx) hn
  have hfew := haccount.length_le_iff
  have horder := haccount.sublist
  have htotal := haccount.sum_le_iff hn
  rw [← not_lt (a := |n| / msPerDay), ← overcounts_iff hcount] at htotal
  generalize chosen days hours minutes seconds = told at hparts hfew horder htotal
  rcases eq_or_ne told [] with rfl | hsome
  · refine ⟨[noTime], List.cons_ne_nil _ _, ?_, List.singleton_sublist.mpr (by decide), ?_, ?_⟩
    · unfold durationText
      rw [hparts]
      exact text_noTime.symm
    · exact iff_of_true (by decide) (hfew.mp (by decide))
    · exact iff_of_true hn (htotal.mp hn)
  · refine ⟨told, hsome, ?_, horder, hfew, htotal⟩
    unfold durationText
    dsimp only
    rw [hparts, if_neg (by simpa using hsome)]

end Calendar

namespace Library.Time

open Calendar Double

variable {x : Float} {n : ℤ}

/-- A length of time that is not too long is counted exactly. -/
theorem not_overcounts (hx : toRat? x = some (n : ℚ)) (hn : |n| ≤ 2 ^ 52) : ¬Overcounts x |n| := by
  obtain ⟨_, _, _, _, k, haccount, -, hcount⟩ := exists_account (toRat?_abs_whole hx) (abs_nonneg n)
  have hexact : k = |n| / msPerDay :=
    haccount.days.exact (by simp only [Measure.millis, msPerDay]; omega)
  rw [overcounts_iff hcount, hexact]
  exact lt_irrefl _

theorem makes_duration (x : Float) :
    Makes "time/duration" [.number x] (.string (durationText x)) :=
  .ofTotal (f := fun args => .string (durationText (args.number 0))) (operator?_of_place 120 rfl)

theorem duration_brief_iff (hx : toRat? x = some (n : ℚ)) :
    Makes "time/duration" [.number x] (.string (durationText x)) ∧
    (Brief (durationText x) |n| ↔ ¬IsThreefold |n| ∧ ¬Overcounts x |n|) ∧
    (|n| ≤ 2 ^ 52 → ¬Overcounts x |n|) := by
  obtain ⟨parts, hsome, htext, horder, hfew, htotal⟩ := exists_parts hx
  refine ⟨makes_duration x, ?_, not_overcounts hx⟩
  rw [htext, brief_iff hsome, hfew, htotal]
  tauto

/-- A day and two hours before now. -/
theorem duration_brief_yesterday :
    toRat? (ofInt (-93600000)) = some ((-93600000 : ℤ) : ℚ) ∧ ¬IsThreefold 93600000 ∧
    Brief (durationText (ofInt (-93600000))) 93600000 := by
  have hx : toRat? (ofInt (-93600000)) = some ((-93600000 : ℤ) : ℚ) := toRat?_ofInt (by decide)
  have htwo : ¬IsThreefold 93600000 := by decide
  obtain ⟨-, hbrief, hexact⟩ := duration_brief_iff hx
  exact ⟨hx, htwo, hbrief.mpr ⟨htwo, hexact (by decide)⟩⟩

/-- A day, an hour, a minute and a second are told in three parts. -/
theorem day_hour_minute_told :
    durationText (ofInt 90061000) = "1d 1h 1m" ∧
    ¬Brief (durationText (ofInt 90061000)) 90061000 := by
  have hx : toRat? (ofInt 90061000) = some ((90061000 : ℤ) : ℚ) := toRat?_ofInt (by decide)
  obtain ⟨parts, hsome, htext, -, hfew, -⟩ := exists_parts hx
  refine ⟨by decide +kernel, fun hbrief => ?_⟩
  rw [htext, brief_iff hsome] at hbrief
  exact hfew.mp hbrief.1 (by decide)

end Library.Time
end EntityMachines
