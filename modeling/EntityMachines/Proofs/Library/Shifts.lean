import EntityMachines.Proofs.Calendar.Periods
import EntityMachines.Proofs.Library.Object
import EntityMachines.Proofs.Library.Time

/-!
The operators that move a time by an amount of periods, on times and amounts that are doubles.
Amounts that fit a word of 32 bits move a dated time without loss. Main statement: amounts add up,
and to subtract an amount undoes its addition, for months and years on days that each month has.
-/
namespace EntityMachines
namespace Library.Time

open Calendar Double

variable {t n m : ℤ} {x y : Float} {u : Period}

/-- A whole number of a word of 32 bits. -/
def FitsWord (n : ℤ) : Prop := -2 ^ 31 ≤ n ∧ n < 2 ^ 31

instance (n : ℤ) : Decidable (FitsWord n) := inferInstanceAs (Decidable (_ ∧ _))

/-- A double is a whole time of a year that dates are told in. -/
def IsDated (x : Float) : Prop := ∃ s : ℤ, x = ofInt s ∧ Dated s

theorem add_calendar (ht : t.natAbs ≤ 2 ^ 50) (hx : toRat? x = some (n : ℚ))
    (hu : u ∈ [.year, .month, .week, .day]) :
    add (ofInt t) x (some u) = ofInt (addDays t u n) := by
  unfold add
  rw [isFinite_ofInt ht, isFinite_of_toRat? hx, toInt_of_whole hx, millis_ofInt ht]
  simp only [List.mem_cons, List.not_mem_nil, or_false] at hu
  rcases hu with rfl | rfl | rfl | rfl <;> rfl

/-- The periods of the clock are added as doubles, of which none is rounded. -/
theorem add_unit (ht : t.natAbs ≤ 2 ^ 50) (hn : n.natAbs ≤ 2 ^ 30) {unit : ℤ}
    (hunit : unit ∈ [msPerHour, msPerMinute, msPerSecond]) :
    ofInt t + ofInt n * msOf unit = ofInt (t + n * unit) := by
  have hfactor : unit.natAbs ≤ 3600000 ∧ unit ≠ 0 ∧ ofInt 0 * msOf unit = 0.0 := by
    simp only [List.mem_cons, List.not_mem_nil, or_false] at hunit
    rcases hunit with rfl | rfl | rfl <;> exact ⟨by decide, by decide, rfl⟩
  obtain ⟨hsmall, hne, hzero⟩ := hfactor
  have hproduct : (n * unit).natAbs ≤ 2 ^ 30 * 3600000 := by
    rw [Int.natAbs_mul]
    exact Nat.mul_le_mul hn hsmall
  have hcast : ((n * unit : ℤ) : ℚ) = n * unit := Int.cast_mul n unit
  have hrounds := mul_rounds (toRat?_ofInt (n := n) (by omega)) (toRat?_ofInt (n := unit) (by omega))
  refine ofInt_add (by omega) (hrounds.exact (hcast ▸ toRat?_ofInt (by omega)) |>.trans ?_) ?_
    (by omega)
  · rw [hcast]
  · intro hnone
    rw [(Int.mul_eq_zero.mp hnone).resolve_right hne]
    exact hzero

theorem add_clock (ht : t.natAbs ≤ 2 ^ 50) (hx : toRat? x = some (n : ℚ)) (hn : n.natAbs ≤ 2 ^ 30)
    (hu : u ∈ [.hour, .minute, .second, .ms]) :
    add (ofInt t) x (some u) = ofInt (shifted t u n) := by
  unfold add
  rw [isFinite_ofInt ht, isFinite_of_toRat? hx, toInt_of_whole hx]
  simp only [List.mem_cons, List.not_mem_nil, or_false] at hu
  rcases hu with rfl | rfl | rfl | rfl
  · exact add_unit ht hn (by decide)
  · exact add_unit ht hn (by decide)
  · exact add_unit ht hn (by decide)
  · exact ofInt_add (by omega) (toRat?_ofInt (by omega)) (fun h => by rw [h]; rfl) (by omega)

/-- A time is moved as the calendar says. -/
theorem add_eq_shifted (ht : t.natAbs ≤ 2 ^ 50) (hx : toRat? x = some (n : ℚ))
    (hn : FitsWord (7 * n)) (u : Period) : add (ofInt t) x (some u) = ofInt (shifted t u n) := by
  have hfew : n.natAbs ≤ 2 ^ 30 := by
    unfold FitsWord at hn
    omega
  cases u with
  | year => exact add_calendar ht hx (by decide)
  | month => exact add_calendar ht hx (by decide)
  | week => exact add_calendar ht hx (by decide)
  | day => exact add_calendar ht hx (by decide)
  | hour => exact add_clock ht hx hfew (by decide)
  | minute => exact add_clock ht hx hfew (by decide)
  | second => exact add_clock ht hx hfew (by decide)
  | ms => exact add_clock ht hx hfew (by decide)

/-- What a time is moved to is no other time where it is dated. -/
theorem dated_shifted (ht : t.natAbs ≤ 2 ^ 50) (hx : toRat? x = some (n : ℚ))
    (hn : FitsWord (7 * n)) (h : IsDated (add (ofInt t) x (some u))) : Dated (shifted t u n) := by
  obtain ⟨s, hs, hdated⟩ := h
  have hsmall := hdated.natAbs_le
  have hvalue : toRat? (ofInt (shifted t u n)) = some (s : ℚ) := by
    rw [← add_eq_shifted ht hx hn, hs, toRat?_time hsmall]
  rwa [eq_of_toRat?_ofInt hvalue (by omega)]

theorem toRat?_sum (hx : toRat? x = some (n : ℚ)) (hy : toRat? y = some (m : ℚ))
    (h : FitsWord (7 * (n + m))) : toRat? (x + y) = some ((n + m : ℤ) : ℚ) := by
  unfold FitsWord at h
  rw [(add_rounds hx hy).exact (y := ofInt (n + m)) ?_, Int.cast_add]
  rw [← Int.cast_add]
  exact toRat?_ofInt (by omega)

section operators

variable {name : Text}

theorem makes_add (hname : Period.ofText? name = some u) (a x : Float) :
    Makes "time/add" [.number a, .number x, .string name] (.number (add a x (some u))) := by
  rw [← hname]
  exact .ofTotal (f := fun args => .number (add (timeAt args 0) (args.number 1) (periodAt args 2)))
    (operator?_of_place 111 rfl)

theorem makes_subtract (hname : Period.ofText? name = some u) (a x : Float) :
    Makes "time/subtract" [.number a, .number x, .string name] (.number (add a (-x) (some u))) := by
  rw [← hname]
  exact .ofTotal (f := fun args => .number (add (timeAt args 0) (-args.number 1) (periodAt args 2)))
    (operator?_of_place 112 rfl)

theorem shifts_add_up (ht : Dated t) (hname : Period.ofText? name = some u)
    (hx : toRat? x = some (n : ℚ)) (hy : toRat? y = some (m : ℚ))
    (hfits : ∀ k ∈ [n, m, n + m], FitsWord (7 * k))
    (hdated : IsDated (add (ofInt t) x (some u)))
    (hday : u = .month ∨ u = .year → (Fields.ofMillis t).day ≤ 28) :
    add (add (ofInt t) x (some u)) y (some u) = add (ofInt t) (x + y) (some u) ∧
    (∃ v, Makes "time/add" [.number (ofInt t), .number x, .string name] v ∧
      Makes "time/add" [v, .number y, .string name]
        (.number (add (ofInt t) (x + y) (some u))) ∧
      Makes "time/subtract" [v, .number x, .string name] (.number (ofInt t))) ∧
    ∃ s, add (ofInt t) x (some u) = ofInt s ∧ Dated s ∧
      (u = .month ∨ u = .year → (Fields.ofMillis s).day = (Fields.ofMillis t).day ∧
        (Fields.ofMillis s).timeOfDay = (Fields.ofMillis t).timeOfDay) := by
  obtain ⟨hn, hm, hnm⟩ : FitsWord (7 * n) ∧ FitsWord (7 * m) ∧ FitsWord (7 * (n + m)) :=
    ⟨hfits n (by simp), hfits m (by simp), hfits (n + m) (by simp)⟩
  have hlater := dated_shifted ht.natAbs_le hx hn hdated
  have hfirst := add_eq_shifted ht.natAbs_le hx hn u
  have hboth : add (add (ofInt t) x (some u)) y (some u) = add (ofInt t) (x + y) (some u) := by
    rw [hfirst, add_eq_shifted hlater.natAbs_le hy hm, shifted_shifted hday,
      add_eq_shifted ht.natAbs_le (toRat?_sum hx hy hnm) hnm]
  have hopposite : toRat? (-x) = some ((-n : ℤ) : ℚ) := by
    rw [toRat?_neg hx, Int.cast_neg]
  have hback : add (add (ofInt t) x (some u)) (-x) (some u) = ofInt t := by
    have hfits : FitsWord (7 * -n) := by
      unfold FitsWord at hn ⊢
      omega
    rw [hfirst, add_eq_shifted hlater.natAbs_le hopposite hfits, shifted_shifted hday,
      Int.add_right_neg, shifted_zero]
  have hadd := makes_add hname (add (ofInt t) x (some u)) y
  have hsubtract := makes_subtract hname (add (ofInt t) x (some u)) x
  rw [hboth] at hadd
  rw [hback] at hsubtract
  exact ⟨hboth, ⟨_, makes_add hname (ofInt t) x, hadd, hsubtract⟩, shifted t u n, hfirst, hlater,
    fun hu => shifted_keeps_day hu (hday hu) n⟩

/-- The end of a twenty-eighth of February, thirteen months later and then fourteen months
earlier. -/
theorem shifts_add_up_february :
    ∃ t : ℤ, Fields.ofMillis t = ⟨⟨2019, 2, 28⟩, 23, 59, 59, 999⟩ ∧
    add (add (ofInt t) (ofInt 13) (some .month)) (ofInt (-14)) (some .month)
      = add (ofInt t) (ofInt 13 + ofInt (-14)) (some .month) ∧
    ∃ v, Makes "time/add" [.number (ofInt t), .number (ofInt 13), .string "month"] v ∧
      Makes "time/subtract" [v, .number (ofInt 13), .string "month"] (.number (ofInt t)) := by
  have hdated : Dated 1551398399999 := by decide
  have hx : toRat? (ofInt 13) = some ((13 : ℤ) : ℚ) := toRat?_ofInt (by decide)
  have hy : toRat? (ofInt (-14)) = some ((-14 : ℤ) : ℚ) := toRat?_ofInt (by decide)
  have hlater : IsDated (add (ofInt 1551398399999) (ofInt 13) (some .month)) :=
    ⟨_, add_eq_shifted hdated.natAbs_le hx (by decide) .month, by decide⟩
  have hname : Period.ofText? "month" = some .month := rfl
  obtain ⟨hsum, ⟨v, hadd, -, hsubtract⟩, -⟩ := shifts_add_up hdated hname hx hy (by decide) hlater
    fun _ => by decide
  exact ⟨1551398399999, by decide, hsum, v, hadd, hsubtract⟩

end operators

end Library.Time
end EntityMachines
