import EntityMachines.Library.Time
import EntityMachines.Proofs.Calendar.Periods
import EntityMachines.Proofs.Numeral.Whole

/-!
The calendar on times that are doubles. Whole milliseconds of all years that have dates are doubles,
so that nothing is lost between times and dates. Main statements: times and dates are the same in
the same order, the periods of a unit are laid out along all times, and two times are told to be in
one period exactly if it begins at one time for both, but for weeks.
-/
namespace EntityMachines

namespace Calendar

/-- The year of a time is one that dates are told in. -/
def Dated (t : ℤ) : Prop := -32767 ≤ (Fields.ofMillis t).year ∧ (Fields.ofMillis t).year ≤ 32767

instance (t : ℤ) : Decidable (Dated t) := inferInstanceAs (Decidable (_ ∧ _))

variable {u : Period} {s t : ℤ}

namespace Dated

/-- Dated times are far from the whole numbers that no double holds. -/
theorem natAbs_add_le (h : Dated t) : t.natAbs + 2 ^ 40 ≤ 2 ^ 50 := by
  have hstart := Period.first_index_le .year t
  have hend := Period.lt_first_index_succ .year t
  have hyears : -32767 ≤ Period.year.index t ∧ Period.year.index t + 1 ≤ 32768 :=
    ⟨h.1, Int.add_le_add_right h.2 1⟩
  have hleast := (Period.first_strictMono .year).monotone hyears.1
  have hgreatest := (Period.first_strictMono .year).monotone hyears.2
  have hfrom : Period.first .year (-32767) = -1096193779200000 := by decide
  have hto : Period.first .year 32768 = 971890963200000 := by decide
  omega

theorem natAbs_le (h : Dated t) : t.natAbs ≤ 2 ^ 50 := by
  have hfar := h.natAbs_add_le
  omega

/-- So are the periods of dated times, up to the first time behind them. -/
theorem natAbs_period_le (h : Dated t) (hfirst : startOf t u ≤ s) (hlast : s ≤ endOf t u + 1) :
    s.natAbs ≤ 2 ^ 50 := by
  have hfar := h.natAbs_add_le
  have hlength := u.first_succ_le (u.index t)
  have hle := startOf_le t u
  have hge := le_endOf t u
  rw [startOf_eq] at hfirst hle
  rw [endOf_eq] at hlast hge
  omega

theorem natAbs_startOf_le (h : Dated t) (u : Period) : (startOf t u).natAbs ≤ 2 ^ 50 := by
  have hle := startOf_le t u
  have hge := le_endOf t u
  exact h.natAbs_period_le le_rfl (by omega)

end Dated

end Calendar

namespace Library.Time

open Calendar Double

variable {u : Period} {a b s t : ℤ}

/-- Whole milliseconds are not lost in a double. -/
theorem toRat?_time (h : t.natAbs ≤ 2 ^ 50) : toRat? (ofInt t) = some (t : ℚ) :=
  toRat?_ofInt (by omega)

theorem isFinite_ofInt (h : t.natAbs ≤ 2 ^ 50) : (ofInt t).isFinite = true :=
  isFinite_of_toRat? (toRat?_time h)

theorem millis_ofInt (h : t.natAbs ≤ 2 ^ 50) : millis (ofInt t) = t := by
  have hfloor : toRat? (floor (ofInt t)) = some (t : ℚ) := by
    rw [toRat?_floor (toRat?_time h), Int.floor_intCast]
  exact toInt_of_whole hfloor

theorem withMillis_ofInt (h : t.natAbs ≤ 2 ^ 50) (f : ℤ → Float) :
    withMillis (ofInt t) f = f t := by
  unfold withMillis
  rw [if_pos (isFinite_ofInt h), millis_ofInt h]

theorem ofInt_inj (ha : a.natAbs ≤ 2 ^ 50) (hb : b.natAbs ≤ 2 ^ 50) :
    ofInt a = ofInt b ↔ a = b := by
  refine ⟨fun h => ?_, congrArg ofInt⟩
  have hsame : toRat? (ofInt a) = toRat? (ofInt b) := congrArg toRat? h
  rw [toRat?_time ha, toRat?_time hb] at hsame
  exact_mod_cast Option.some.inj hsame

theorem bound_startOf (h : t.natAbs ≤ 2 ^ 50) (u : Period) :
    bound startOf (ofInt t) (some u) = ofInt (startOf t u) := by
  unfold bound
  rw [withMillis_ofInt h]
  cases u <;> rfl

theorem bound_endOf (h : t.natAbs ≤ 2 ^ 50) (u : Period) :
    bound endOf (ofInt t) (some u) = ofInt (endOf t u) := by
  unfold bound
  rw [withMillis_ofInt h]
  cases u <;> rfl

/-! Two times beside each other. -/

theorem isSame_week (ha : a.natAbs ≤ 2 ^ 50) (hb : b.natAbs ≤ 2 ^ 50) :
    isSame (ofInt a) (ofInt b) (some .week) = true ↔ a = b := by
  show (ofInt a == ofInt b) = true ↔ a = b
  rw [beq_iff (toRat?_time ha) (toRat?_time hb), Int.cast_inj]

/-- Minutes are counted by a division of doubles. -/
theorem toRat?_minutes (h : t.natAbs ≤ 2 ^ 50) :
    toRat? (floor (ofInt t / msOf msPerMinute)) = some ((t / 60000 : ℤ) : ℚ) := by
  have hfew : (t / 60000).natAbs < 2 ^ 36 := by omega
  exact toRat?_floor_div (j := 16) (toRat?_time h) (toRat?_ofInt (by decide)) (by decide)
    (by decide) (by decide) (by omega) (by omega)

theorem toDate_eq_iff :
    (Fields.ofMillis a).toDate = (Fields.ofMillis b).toDate ↔ a / 86400000 = b / 86400000 := by
  rw [← Fields.toDays_ofMillis, ← Fields.toDays_ofMillis]
  refine ⟨congrArg Date.toDays, fun h => ?_⟩
  exact (Fields.ofMillis_valid a).date.eq_of_toDays_eq (Fields.ofMillis_valid b).date h

/-- Two times are told to be in one period by its number. -/
theorem isSame_iff (ha : a.natAbs ≤ 2 ^ 50) (hb : b.natAbs ≤ 2 ^ 50)
    (hu : u ∈ [.year, .month, .day, .hour, .minute]) :
    isSame (ofInt a) (ofInt b) (some u) = true ↔ u.index a = u.index b := by
  have hfields (same : Fields → Fields → Bool) :
      ((ofInt a).isFinite && (ofInt b).isFinite
        && same (Fields.ofMillis (millis (ofInt a))) (Fields.ofMillis (millis (ofInt b))))
      = same (Fields.ofMillis a) (Fields.ofMillis b) := by
    rw [isFinite_ofInt ha, isFinite_ofInt hb, millis_ofInt ha, millis_ofInt hb]
    rfl
  cases u with
  | year => exact (Bool.eq_iff_iff.mp (hfields fun f g => f.year == g.year)).trans beq_iff_eq
  | month =>
    refine (Bool.eq_iff_iff.mp (hfields fun f g => f.year == g.year && f.month == g.month)).trans ?_
    have hyear := Period.year_bounds (Fields.ofMillis_valid a).date
    have hyear' := Period.year_bounds (Fields.ofMillis_valid b).date
    rw [Bool.and_eq_true, beq_iff_eq, beq_iff_eq]
    show _ ↔ (Fields.ofMillis a).monthNumber = (Fields.ofMillis b).monthNumber
    unfold Date.monthNumber at hyear hyear' ⊢
    omega
  | day =>
    refine (Bool.eq_iff_iff.mp (hfields fun f g => f.toDate == g.toDate)).trans ?_
    exact beq_iff_eq.trans toDate_eq_iff
  | hour =>
    refine (Bool.eq_iff_iff.mp
      (hfields fun f g => f.toDate == g.toDate && f.hour == g.hour)).trans ?_
    rw [Bool.and_eq_true, beq_iff_eq, beq_iff_eq, toDate_eq_iff]
    show _ ∧ a % 86400000 / 3600000 = b % 86400000 / 3600000 ↔ a / 3600000 = b / 3600000
    omega
  | minute => exact (beq_iff (toRat?_minutes ha) (toRat?_minutes hb)).trans Int.cast_inj
  | week => exact absurd hu (by decide)
  | second => exact absurd hu (by decide)
  | ms => exact absurd hu (by decide)

/-! Times and dates. -/

theorem times_are_dates :
    (∀ t : ℤ, (Fields.ofMillis t).Valid ∧ (Fields.ofMillis t).toMillis = t) ∧
    (∀ f : Fields, f.Valid → Fields.ofMillis f.toMillis = f) ∧
    (∀ s t : ℤ, s < t → (Fields.ofMillis s).parts < (Fields.ofMillis t).parts) ∧
    Fields.ofMillis 0 = ⟨⟨1970, 1, 1⟩, 0, 0, 0, 0⟩ ∧ weekdayOf 0 = 4 ∧
    (∀ t : ℤ, (0 ≤ weekdayOf t ∧ weekdayOf t ≤ 6) ∧
      weekdayOf (t + msPerDay) = (weekdayOf t + 1) % 7 ∧
      ∀ s : ℤ, (Fields.ofMillis s).toDate = (Fields.ofMillis t).toDate →
        weekdayOf s = weekdayOf t) ∧
    (∀ (f : Fields) (k : ℤ), Fields.toMillis { f with month := f.month + 12 * k }
      = Fields.toMillis { f with year := f.year + k }) ∧
    (∀ f : Fields, 1 ≤ f.month → f.month ≤ 12 →
      Fields.toMillis { f with day := f.day + daysInMonth f.year f.month }
        = Fields.toMillis { f with month := f.month + 1 }) ∧
    ∀ t : ℤ, Dated t → toRat? (ofInt t) = some (t : ℚ) ∧
      ∀ f : ℤ → Float, withMillis (ofInt t) f = f t := by
  refine ⟨fun t => ⟨Fields.ofMillis_valid t, Fields.toMillis_ofMillis t⟩,
    fun f h => h.ofMillis_toMillis, fun s t h => Fields.parts_ofMillis_lt h, rfl, rfl,
    fun t => ⟨weekdayOf_bounds t, weekdayOf_next_day t, fun s => weekdayOf_of_toDate_eq⟩,
    Fields.toMillis_carry_months, Fields.toMillis_carry_days, fun t h => ?_⟩
  exact ⟨toRat?_time h.natAbs_le, withMillis_ofInt h.natAbs_le⟩

/-- The last millisecond of a leap day. -/
def leapDay : Fields := ⟨⟨2000, 2, 29⟩, 23, 59, 59, 999⟩

theorem leapDay_is_time :
    leapDay.Valid ∧ Fields.ofMillis leapDay.toMillis = leapDay ∧
    (Fields.ofMillis leapDay.toMillis).parts < (Fields.ofMillis (leapDay.toMillis + 1)).parts ∧
    weekdayOf (leapDay.toMillis - 86399999) = weekdayOf leapDay.toMillis ∧
    Fields.toMillis { leapDay with day := 29 + 29 } = Fields.toMillis { leapDay with month := 3 } ∧
    Dated leapDay.toMillis ∧
    toRat? (ofInt leapDay.toMillis) = some ((leapDay.toMillis : ℤ) : ℚ) := by
  have hvalid : leapDay.Valid := by
    refine ⟨⟨?_, ?_, ?_, ?_⟩, ?_, ?_, ?_, ?_⟩ <;> decide
  have hdated : Dated leapDay.toMillis := by decide
  obtain ⟨-, hback, horder, -, -, hweek, -, hcarry, hdouble⟩ := times_are_dates
  exact ⟨hvalid, hback leapDay hvalid, horder _ _ (lt_add_one _),
    (hweek leapDay.toMillis).2.2 (leapDay.toMillis - 86399999) (by decide),
    hcarry leapDay (by decide) (by decide), hdated, (hdouble _ hdated).1⟩

/-! The periods of a unit. -/

theorem periods_tile (u : Period) {t : ℤ} (h : Dated t) :
    startOf t u ≤ t ∧ t ≤ endOf t u ∧
    (∀ s : ℤ, startOf t u ≤ s → s ≤ endOf t u →
      bound startOf (ofInt s) (some u) = ofInt (startOf t u) ∧
      bound endOf (ofInt s) (some u) = ofInt (endOf t u)) ∧
    bound startOf (ofInt (endOf t u + 1)) (some u) = ofInt (endOf t u + 1) ∧
    bound startOf (bound startOf (ofInt t) (some u)) (some u) = bound startOf (ofInt t) (some u) ∧
    bound endOf (bound endOf (ofInt t) (some u)) (some u) = bound endOf (ofInt t) (some u) ∧
    ∀ s : ℤ, startOf t u ≤ s → s ≤ endOf t u + 1 → toRat? (ofInt s) = some (s : ℚ) := by
  have hle := startOf_le t u
  have hge := le_endOf t u
  have hsmall {s : ℤ} (hfirst : startOf t u ≤ s) (hlast : s ≤ endOf t u + 1) :
      s.natAbs ≤ 2 ^ 50 := h.natAbs_period_le hfirst hlast
  have hperiod (s : ℤ) (hfirst : startOf t u ≤ s) (hlast : s ≤ endOf t u) :
      bound startOf (ofInt s) (some u) = ofInt (startOf t u) ∧
        bound endOf (ofInt s) (some u) = ofInt (endOf t u) := by
    have hindex := index_eq_of_mem hfirst hlast
    have hs := hsmall hfirst (by omega)
    rw [bound_startOf hs, bound_endOf hs, startOf_eq, startOf_eq, endOf_eq, endOf_eq, hindex]
    exact ⟨rfl, rfl⟩
  obtain ⟨hstart, hend⟩ := hperiod t hle hge
  refine ⟨hle, hge, hperiod, ?_, ?_, ?_, fun s hfirst hlast => toRat?_time (hsmall hfirst hlast)⟩
  · rw [bound_startOf (hsmall (by omega) le_rfl), startOf_endOf_succ]
  · rw [hstart]
    exact (hperiod _ le_rfl (hle.trans hge)).1
  · rw [hend]
    exact (hperiod _ (hle.trans hge) le_rfl).2

/-- The week of the epoch began in another year. -/
theorem epoch_week :
    Dated 0 ∧ (Fields.ofMillis (startOf 0 .week)).toDate = ⟨1969, 12, 28⟩ ∧
    bound startOf (ofInt 0) (some .week) = ofInt (startOf 0 .week) ∧
    bound startOf (ofInt (-1)) (some .week) = ofInt (startOf 0 .week) := by
  have hdated : Dated 0 := by decide
  obtain ⟨-, -, hperiod, -⟩ := periods_tile .week hdated
  exact ⟨hdated, by decide, (hperiod 0 (by decide) (by decide)).1,
    (hperiod (-1) (by decide) (by decide)).1⟩

/-! Times in one period. -/

theorem isSame_agrees_iff {a b : ℤ} (ha : Dated a) (hb : Dated b) {u : Period}
    (hu : u ∈ [.year, .month, .week, .day, .hour, .minute]) :
    (isSame (ofInt a) (ofInt b) (some u) = true ↔
      bound startOf (ofInt a) (some u) = bound startOf (ofInt b) (some u)) ↔
    (u = .week → a ≠ b → startOf a .week ≠ startOf b .week) := by
  rw [bound_startOf ha.natAbs_le, bound_startOf hb.natAbs_le,
    ofInt_inj (ha.natAbs_startOf_le u) (hb.natAbs_startOf_le u)]
  by_cases hweek : u = .week
  · subst hweek
    rw [isSame_week ha.natAbs_le hb.natAbs_le]
    constructor
    · intro hsame _ hne hstart
      exact hne (hsame.mpr hstart)
    · intro hdiffer
      refine ⟨congrArg (startOf · .week), fun hstart => ?_⟩
      by_contra hne
      exact hdiffer rfl hne hstart
  · have hrest : u ∈ [.year, .month, .day, .hour, .minute] := by
      cases u <;> simp_all
    rw [isSame_iff ha.natAbs_le hb.natAbs_le hrest, startOf_eq_iff]
    exact ⟨fun _ h => absurd h hweek, fun _ => Iff.rfl⟩

/-- A Thursday and the Sunday behind it are in two weeks. -/
theorem isSame_agrees_sunday :
    Dated 0 ∧ Dated 259200000 ∧
    (isSame (ofInt 0) (ofInt 259200000) (some .week) = true ↔
      bound startOf (ofInt 0) (some .week) = bound startOf (ofInt 259200000) (some .week)) := by
  have hfrom : Dated 0 := by decide
  have hto : Dated 259200000 := by decide
  have hdiffer : startOf 0 .week ≠ startOf 259200000 .week := by decide
  exact ⟨hfrom, hto, (isSame_agrees_iff hfrom hto (by decide)).mpr fun _ _ => hdiffer⟩

/-- A Thursday and the Friday behind it are in one week, but are not told to be. -/
theorem thursday_friday_told_apart :
    Dated 0 ∧ Dated 86400000 ∧
    ¬(isSame (ofInt 0) (ofInt 86400000) (some .week) = true ↔
      bound startOf (ofInt 0) (some .week) = bound startOf (ofInt 86400000) (some .week)) := by
  refine ⟨by decide, by decide, fun hsame => ?_⟩
  have hstart : bound startOf (ofInt 0) (some .week)
      = bound startOf (ofInt 86400000) (some .week) := by
    rw [bound_startOf (by decide), bound_startOf (by decide)]
    exact congrArg ofInt (by decide)
  have heq := (isSame_week (by decide) (by decide)).mp (hsame.mpr hstart)
  exact absurd heq (by decide)

end Library.Time
end EntityMachines
