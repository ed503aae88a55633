import EntityMachines.Proofs.Reader.Extension

/-!
Values one after another. The reading of a text that is cut where a line ends is the reading of its
front, and behind it that of the rest.
-/
namespace EntityMachines
namespace Reader

open Parse

/-! Reading all values without fuel. -/

def all (t : Text) : Result (List Value) := readMany (t.length + 1) [] t

theorem skipBlank_idem (inComment : Bool) (t : Text) :
    skipBlank false (skipBlank inComment t) = skipBlank inComment t := by
  cases h : skipBlank inComment t with
  | nil => rfl
  | cons b rest => exact skipBlank_visible (isVisible_of_skipBlank h)

theorem value_skipBlank (t : Text) : value (skipBlank false t) = value t := by
  rw [value_eq]
  unfold valueStep
  unfold andThen visible
  rw [skipBlank_idem]

/-- No value begins where there is nothing. -/
theorem skipBlank_ne_nil {t rest : Text} {v : Value} (h : value t = .ok (v, rest)) :
    skipBlank false t ≠ [] := by
  intro hnil
  rw [← value_skipBlank, hnil] at h
  cases h

section many

variable {fuel : Nat} {acc : List Value} {t rest : Text} {v : Value}

theorem readMany_blank (h : skipBlank false t = []) : readMany fuel acc t = .ok acc.reverse := by
  cases fuel with
  | zero => rfl
  | succ fuel =>
    unfold readMany
    rw [h]

theorem readMany_succ (h : skipBlank false t ≠ []) : readMany (fuel + 1) acc t =
    match value t with
    | .error failure => .error failure
    | .ok (v, rest) => readMany fuel (v :: acc) rest := by
  rw [← value_skipBlank, readMany.eq_def]
  cases hskip : skipBlank false t with
  | nil => exact absurd hskip h
  | cons b tail => rfl

theorem readMany_error {failure : ReadFailure} (hskip : skipBlank false t ≠ [])
    (h : value t = .error failure) : readMany (fuel + 1) acc t = .error failure := by
  rw [readMany_succ hskip, h]

theorem readMany_value (h : value t = .ok (v, rest)) :
    readMany (fuel + 1) acc t = readMany fuel (v :: acc) rest := by
  rw [readMany_succ (skipBlank_ne_nil h), h]

/-- The values read before only stand in front. -/
theorem readMany_acc (fuel : Nat) (acc : List Value) (t : Text) :
    readMany fuel acc t = (readMany fuel [] t).map (acc.reverse ++ ·) := by
  induction fuel generalizing acc t with
  | zero => simp [readMany, Except.map]
  | succ fuel ih =>
    by_cases hskip : skipBlank false t = []
    · rw [readMany_blank hskip, readMany_blank hskip]
      simp [Except.map]
    cases hr : value t with
    | error failure =>
      rw [readMany_error hskip hr, readMany_error hskip hr]
      rfl
    | ok result =>
      obtain ⟨v, rest⟩ := result
      rw [readMany_value hr, readMany_value hr, ih (v :: acc), ih [v]]
      cases readMany fuel [] rest with
      | error failure => rfl
      | ok vs => simp [Except.map]

theorem readMany_fuel (h : t.length < fuel) : readMany (fuel + 1) acc t = readMany fuel acc t := by
  induction fuel generalizing acc t with
  | zero => omega
  | succ fuel ih =>
    by_cases hskip : skipBlank false t = []
    · rw [readMany_blank hskip, readMany_blank hskip]
    cases hr : value t with
    | error failure => rw [readMany_error hskip hr, readMany_error hskip hr]
    | ok result =>
      obtain ⟨v, rest⟩ := result
      have hlength := length_of_value hr
      rw [readMany_value hr, readMany_value hr, ih (by omega)]

theorem readMany_eq (h : t.length < fuel) :
    readMany fuel acc t = (all t).map (acc.reverse ++ ·) := by
  rw [readMany_acc]
  exact congrArg _ (eq_of_fuel (f := fun fuel => readMany fuel [] t)
    (fun _ hfuel => readMany_fuel hfuel) h)

end many

theorem all_blank {t : Text} (h : skipBlank false t = []) : all t = .ok [] := readMany_blank h

theorem all_error {t : Text} {failure : ReadFailure} (hskip : skipBlank false t ≠ [])
    (h : value t = .error failure) : all t = .error failure := readMany_error hskip h

theorem all_value {t rest : Text} {v : Value} (h : value t = .ok (v, rest)) :
    all t = (all rest).map (v :: ·) := by
  unfold all
  rw [readMany_value h]
  exact readMany_eq (length_of_value h)

/-! Texts cut where a line ends. -/

/-- The place between two texts is the end of a line, before its last byte or behind it. -/
def Cut (t s : Text) : Prop := (∀ b ∈ t.getLast?, b = 10) ∨ Quiet s

/-- No comment goes on from one line to the next. -/
theorem skipBlank_quiet {s : Text} (h : Quiet s) (inComment : Bool) :
    skipBlank inComment s = skipBlank false s := by
  cases s with
  | nil => rfl
  | cons b rest =>
    obtain rfl : b = 10 := h b rfl
    rfl

theorem Cut.rest {t rest s : Text} (hsuffix : rest <:+ t) (hcut : Cut t s) : Cut rest s := by
  refine hcut.imp_left fun h b hb => h b ?_
  obtain ⟨before, rfl⟩ := hsuffix
  rw [Option.mem_def] at hb
  rw [Option.mem_def, List.getLast?_append, hb]
  rfl

theorem skipBlank_append_blank {inComment : Bool} {t s : Text} (h : skipBlank inComment t = [])
    (hcut : Cut t s) (hend : t = [] → skipBlank inComment s = skipBlank false s) :
    skipBlank inComment (t ++ s) = skipBlank false s := by
  induction t generalizing inComment with
  | nil => exact hend rfl
  | cons b rest ih =>
    obtain ⟨behind, hline, hskip⟩ | ⟨-, hskip⟩ := skipBlank_cons inComment b
    · rw [hskip] at h
      rw [List.cons_append, hskip]
      refine ih h (hcut.rest (List.suffix_cons b rest)) ?_
      rintro rfl
      rcases hcut with hlast | hquiet
      · rw [hline (hlast b rfl)]
      · exact skipBlank_quiet hquiet behind
    · rw [hskip] at h
      cases h

/-- What stands before the first visible byte is not read. -/
theorem all_congr {t t' : Text} (h : skipBlank false t = skipBlank false t') : all t = all t' := by
  by_cases hskip : skipBlank false t = []
  · rw [all_blank hskip, all_blank (h ▸ hskip)]
  · have hvalue : value t = value t' := by rw [← value_skipBlank t, h, value_skipBlank]
    cases hr : value t with
    | error failure => rw [all_error hskip hr, all_error (h ▸ hskip) (hvalue.symm.trans hr)]
    | ok result =>
      obtain ⟨v, rest⟩ := result
      rw [all_value hr, all_value (hvalue.symm.trans hr)]

/-- By induction over the values of the front. -/
theorem all_append {t s : Text} {vs : List Value} (h : all t = .ok vs) (hcut : Cut t s) :
    all (t ++ s) = (all s).map (vs ++ ·) := by
  by_cases hskip : skipBlank false t = []
  · rw [all_blank hskip] at h
    cases h
    rw [all_congr (skipBlank_append_blank hskip hcut fun _ => rfl)]
    cases all s with
    | error failure => rfl
    | ok vs => rfl
  cases hr : value t with
  | error failure =>
    rw [all_error hskip hr] at h
    cases h
  | ok result =>
    obtain ⟨v, rest⟩ := result
    have hfirm := (readers_firm t).1
    have hquiet : rest = [] → Quiet s := by
      rintro rfl
      refine hcut.resolve_left fun hlast => ?_
      cases ht : t.getLast? with
      | none =>
        rw [List.getLast?_eq_none_iff.mp ht] at hskip
        exact hskip rfl
      | some b =>
        obtain rfl := hlast b ht
        cases hfirm.ends hr ht
    rw [all_value hr] at h
    rw [all_value (hfirm.append hr hquiet)]
    cases hrest : all rest with
    | error failure =>
      rw [hrest] at h
      cases h
    | ok us =>
      rw [hrest] at h
      cases h
      have hlength := length_of_value hr
      rw [all_append hrest (hcut.rest (hfirm.leaves hr))]
      cases all s with
      | error failure => rfl
      | ok vs => rfl
termination_by t.length

theorem all_eq_error {t : Text} {failure : ReadFailure} (h : all t = .error failure) :
    skipBlank false t ≠ [] ∧ (value t = .error failure ∨
      ∃ v rest, value t = .ok (v, rest) ∧ all rest = .error failure) := by
  by_cases hskip : skipBlank false t = []
  · rw [all_blank hskip] at h
    cases h
  refine ⟨hskip, ?_⟩
  cases hr : value t with
  | error failure' =>
    rw [all_error hskip hr] at h
    cases h
    exact .inl rfl
  | ok result =>
    obtain ⟨v, rest⟩ := result
    rw [all_value hr] at h
    cases hrest : all rest with
    | error failure' =>
      rw [hrest] at h
      cases h
      exact .inr ⟨v, rest, rfl, hrest⟩
    | ok vs =>
      rw [hrest] at h
      cases h

theorem all_remaining {t : Text} {failure : ReadFailure} (h : all t = .error failure)
    (hfault : failure.fault = .truncatedCodeUnit) : failure.remaining ≤ t.length := by
  obtain ⟨-, hfirst | ⟨v, rest, hfirst, hrest⟩⟩ := all_eq_error h
  · exact (readers_firm t).1.remaining hfirst hfault
  · have hlength := length_of_value hfirst
    exact Nat.le_trans (all_remaining hrest hfault) (Nat.le_of_lt hlength)
termination_by t.length

/-- What is wrong with a text stays wrong. -/
theorem all_lasts {t : Text} {failure : ReadFailure} (h : all t = .error failure)
    (hfinal : failure.Final t) (s : Text) : ∃ failure', all (t ++ s) = .error failure' := by
  have hfirm := (readers_firm t).1
  obtain ⟨hskip, hfirst | ⟨v, rest, hfirst, hrest⟩⟩ := all_eq_error h
  · obtain ⟨failure', hfails⟩ := hfirm.lasts hfirst hfinal s
    refine ⟨failure', all_error ?_ hfails⟩
    rw [skipBlank_append hskip]
    exact List.append_ne_nil_of_left_ne_nil hskip s
  · have hlength := length_of_value hfirst
    have hmiddle := hfirm.final_rest hfirst hfinal (all_remaining hrest)
    obtain ⟨failure', hfails⟩ := all_lasts hrest hmiddle s
    refine ⟨failure', ?_⟩
    rw [all_value (hfirm.append hfirst fun hnil => absurd hnil hmiddle.ne_nil), hfails]
    rfl
termination_by t.length

/-- Behind a cut a readable text goes on with its other values, or the front lacks something. -/
theorem all_cut {t s : Text} {vs : List Value} (h : all (t ++ s) = .ok vs)
    (hend : t.getLast? = some 10) :
    (∃ us ws, all t = .ok us ∧ all s = .ok ws ∧ vs = us ++ ws) ∨
      ∃ failure, all t = .error failure ∧ failure.fault.isIncomplete = true := by
  cases ht : all t with
  | ok us =>
    have hline : ∀ b ∈ t.getLast?, b = 10 := fun b hb => Option.some.inj (hb.symm.trans hend)
    rw [all_append ht (.inl hline)] at h
    cases hs : all s with
    | error failure =>
      rw [hs] at h
      cases h
    | ok ws =>
      rw [hs] at h
      cases h
      exact .inl ⟨us, ws, rfl, rfl, rfl⟩
  | error failure =>
    refine .inr ⟨failure, rfl, ?_⟩
    cases hincomplete : failure.fault.isIncomplete with
    | true => rfl
    | false =>
      obtain ⟨failure', hfails⟩ := all_lasts ht (.inl ⟨hincomplete, hend⟩) s
      cases hfails.symm.trans h

end Reader

namespace Value

theorem readAll_eq_ok {t : Text} {vs : List Value} :
    readAll t = .ok vs ↔ Reader.all t = .ok vs := by
  unfold readAll Reader.all
  cases Reader.readMany (t.length + 1) [] t with
  | error failure => exact ⟨nofun, nofun⟩
  | ok us =>
    exact ⟨fun h => congrArg _ (Except.ok.inj h), fun h => congrArg _ (Except.ok.inj h)⟩

/-- A text that cannot be read is reported with its first fault. -/
theorem readAll_eq_error {t : Text} {e : Error} : readAll t = .error e ↔
    ∃ failure, Reader.all t = .error failure ∧ e = Reader.locate t failure := by
  unfold readAll Reader.all
  cases Reader.readMany (t.length + 1) [] t with
  | error failure =>
    refine ⟨fun h => ⟨failure, rfl, (Except.error.inj h).symm⟩, ?_⟩
    rintro ⟨failure', hfails, rfl⟩
    cases hfails
    rfl
  | ok us => exact ⟨nofun, nofun⟩

/-- A text that can be read may be cut at the end of any line: before the cut are some of its first
values, or more text is asked for. -/
theorem readAll_cut {t p : Text} {vs : List Value} (h : readAll t = .ok vs) (hfront : p <+: t)
    (hend : p.getLast? = some 10) :
    (∃ us, readAll p = .ok us ∧ us <+: vs) ∨
      ∃ line column fault, readAll p = .error (.parse line column fault) ∧
        fault.isIncomplete = true := by
  obtain ⟨s, rfl⟩ := hfront
  rw [readAll_eq_ok] at h
  obtain ⟨us, ws, hus, -, rfl⟩ | ⟨failure, hfails, hincomplete⟩ := Reader.all_cut h hend
  · exact .inl ⟨us, readAll_eq_ok.mpr hus, List.prefix_append us ws⟩
  · exact .inr ⟨_, _, failure.fault, readAll_eq_error.mpr ⟨failure, hfails, rfl⟩, hincomplete⟩

/-- Cut within an array and behind a comment. -/
theorem readAll_cut_nested :
    readAll (Text.ofString "null [;[\ntrue]") = .ok [.null, .array [.bool true]] ∧
      ((∃ us, readAll (Text.ofString "null [;[\n") = .ok us ∧
          us <+: [.null, .array [.bool true]]) ∨
        ∃ line column fault, readAll (Text.ofString "null [;[\n")
          = .error (.parse line column fault) ∧ fault.isIncomplete = true) := by
  have htext : Text.ofString "null [;[\ntrue]"
      = [110, 117, 108, 108, 32, 91, 59, 91, 10, 116, 114, 117, 101, 93] := by decide
  have hread : readAll (Text.ofString "null [;[\ntrue]") = .ok [.null, .array [.bool true]] := by
    rw [htext]
    rfl
  exact ⟨hread, readAll_cut hread ⟨Text.ofString "true]", by decide⟩ (by decide)⟩

end Value
end EntityMachines
