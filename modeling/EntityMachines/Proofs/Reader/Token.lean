import EntityMachines.Proofs.Numeral.Token
import EntityMachines.Proofs.Reader.Parse

/-!
Numbers and words are tokens: their bytes are taken together, and what they mean depends on nothing
else.
-/
namespace EntityMachines
namespace Reader

/-- Nothing comes behind, or the line ends. -/
def Quiet (s : Text) : Prop := ∀ b ∈ s.head?, b = 10

theorem Quiet.append {s u : Text} (hs : Quiet s) (hu : Quiet u) : Quiet (s ++ u) := by
  cases s with
  | nil => exact hu
  | cons b rest => exact hs

theorem quiet_line (s : Text) : Quiet (10 :: s) := fun _ hb => (Option.some.inj hb).symm

/-- A run of bytes is not made longer by what is put behind the text. -/
theorem takeWhile_append_of {p : Byte → Bool} (hline : p 10 = false) {t s : Text}
    (h : t.dropWhile p = [] → Quiet s) :
    (t ++ s).takeWhile p = t.takeWhile p ∧ (t ++ s).dropWhile p = t.dropWhile p ++ s := by
  by_cases hrest : t.dropWhile p = []
  · have hwhole : t.takeWhile p = t := by
      have h := List.takeWhile_append_dropWhile (p := p) (l := t)
      rwa [hrest, List.append_nil] at h
    have hall : ∀ b ∈ t, p b = true := by
      have h := List.all_takeWhile (p := p) (l := t)
      rw [hwhole] at h
      exact List.all_eq_true.mp h
    obtain ⟨htake, hdrop⟩ := span_append hall fun b hb => (h hrest b hb).symm ▸ hline
    exact ⟨htake.trans hwhole.symm, by rw [hdrop, hrest, List.nil_append]⟩
  · have hsplit : (t.takeWhile p).length ≠ t.length := by
      intro hlength
      have hwhole := congrArg List.length (List.takeWhile_append_dropWhile (p := p) (l := t))
      rw [List.length_append] at hwhole
      exact hrest (List.eq_nil_of_length_eq_zero (by omega))
    rw [List.takeWhile_append, if_neg hsplit, List.dropWhile_append,
      if_neg (by simpa using hrest)]
    exact ⟨rfl, rfl⟩

/-- The end of a line ends every run of other bytes. -/
theorem getLast?_dropWhile {p : Byte → Bool} (hline : p 10 = false) {t : Text}
    (h : t.getLast? = some 10) : (t.dropWhile p).getLast? = some 10 := by
  induction t with
  | nil => cases h
  | cons b rest ih =>
    cases hb : p b with
    | false => rwa [List.dropWhile_cons_of_neg (by simp [hb])]
    | true =>
      rw [List.dropWhile_cons_of_pos hb]
      cases rest with
      | nil =>
        obtain rfl : b = 10 := Option.some.inj h
        rw [hline] at hb
        cases hb
      | cons c tail => exact ih (by rwa [List.getLast?_cons_cons] at h)

/-- A reader takes the bytes of one class from the front, and asks for nothing else. -/
structure TakesRun (p : Byte → Bool) (f : Parse Value) : Prop where
  begins : ∀ {t v rest}, f t = .ok (v, rest) → t.takeWhile p ≠ []
  leaves : ∀ {t v rest}, f t = .ok (v, rest) → rest = t.dropWhile p
  depends : ∀ {t v rest}, f t = .ok (v, rest) → ∀ {t'}, t'.takeWhile p = t.takeWhile p →
    f t' = .ok (v, t'.dropWhile p)
  fault : ∀ {t failure}, f t = .error failure → failure.fault ≠ .truncatedCodeUnit

theorem readNumber_takesRun : TakesRun isNumberByte readNumber where
  begins {t v rest} h hnone := by
    unfold readNumber at h
    dsimp only at h
    rw [hnone] at h
    split at h
    next hscan => cases hscan
    next =>
      split at h
      · cases h
      · cases h
  leaves {t v rest} h := by
    unfold readNumber at h
    dsimp only at h
    split at h
    · split at h
      · cases h
      · cases h
        rfl
    · split at h
      · cases h
      · cases h
  depends {t v rest} h t' htoken := by
    unfold readNumber at h ⊢
    dsimp only at h ⊢
    rw [htoken]
    split at h
    next =>
      split at h
      · cases h
      next hrange =>
        cases h
        exact if_neg hrange
    next =>
      split at h
      · cases h
      · cases h
  fault {t failure} h := by
    unfold readNumber at h
    dsimp only at h
    split at h
    · split at h
      · cases h
        exact nofun
      · cases h
    · split at h
      · cases h
        exact nofun
      · cases h
        exact nofun

theorem readWord_takesRun : TakesRun Byte.isAlpha readWord where
  begins {t v rest} h hnone := by
    unfold readWord at h
    dsimp only at h
    rw [hnone] at h
    cases h
  leaves {t v rest} h := by
    unfold readWord at h
    dsimp only at h
    split at h
    · cases h
      rfl
    split at h
    · cases h
      rfl
    split at h
    · cases h
      rfl
    split at h
    · cases h
    · cases h
  depends {t v rest} h t' hword := by
    unfold readWord at h ⊢
    dsimp only at h ⊢
    rw [hword]
    split at h
    next htrue =>
      cases h
      exact if_pos htrue
    next htrue =>
      rw [if_neg htrue]
      split at h
      next hfalse =>
        cases h
        exact if_pos hfalse
      next hfalse =>
        rw [if_neg hfalse]
        split at h
        next hnull =>
          cases h
          exact if_pos hnull
        next =>
          split at h
          · cases h
          · cases h
  fault {t failure} h := by
    unfold readWord at h
    dsimp only at h
    split at h
    · cases h
    split at h
    · cases h
    split at h
    · cases h
    split at h
    · cases h
      exact nofun
    · cases h
      exact nofun

end Reader
end EntityMachines
