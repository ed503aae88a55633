import EntityMachines.Proofs.Reader.Fuel

/-!
Texts that go on. What a reader has taken from the front of a text it takes from every longer one,
if the text does not end within a token; and what is wrong with a text stays wrong.
-/
namespace EntityMachines

/-- The text breaks off within the digits of an escape, and not all that is there are digits. -/
def ReadFailure.Garbled (failure : ReadFailure) (t : Text) : Prop :=
  failure.fault = .truncatedCodeUnit ∧
    ∃ b ∈ t.drop (t.length - failure.remaining), b.hexDigit? = none

/-- A failure that is not repaired by what comes behind the text: it is no lack of text, and no
token stands at the end. -/
def ReadFailure.Final (failure : ReadFailure) (t : Text) : Prop :=
  failure.fault.isIncomplete = false ∧ t.getLast? = some 10 ∨ failure.Garbled t

/-- Only text is lacking, whatever stands at the end. -/
def ParseFault.Soft (fault : ParseFault) : Prop :=
  fault.isIncomplete = true ∧ fault ≠ .truncatedCodeUnit

instance (fault : ParseFault) : Decidable fault.Soft := inferInstanceAs (Decidable (_ ∧ _))

namespace ReadFailure

theorem not_final_of_soft {failure : ReadFailure} (h : failure.fault.Soft) (t : Text) :
    ¬failure.Final t := by
  rintro (⟨hhard, -⟩ | ⟨hfault, -⟩)
  · rw [h.1] at hhard
    cases hhard
  · exact h.2 hfault

theorem Final.ne_nil {failure : ReadFailure} {t : Text} (h : failure.Final t) : t ≠ [] := by
  rintro rfl
  rcases h with ⟨-, hlast⟩ | ⟨-, b, hb, -⟩
  · cases hlast
  · rw [List.drop_nil] at hb
    cases hb

/-- What is garbled stands behind the place of the failure. -/
theorem garbled_of_suffix {failure : ReadFailure} {t rest : Text} (hsuffix : rest <:+ t)
    (hremaining : failure.fault = .truncatedCodeUnit → failure.remaining ≤ rest.length) :
    failure.Garbled t ↔ failure.Garbled rest := by
  obtain ⟨before, rfl⟩ := hsuffix
  refine and_congr_right fun hfault => ?_
  have hplace : (before ++ rest).length - failure.remaining
      = before.length + (rest.length - failure.remaining) := by
    have h := hremaining hfault
    rw [List.length_append]
    omega
  rw [hplace, List.drop_length_add_append]

end ReadFailure

namespace Reader

open Parse

/-- At a text a reader does not change its mind when more text comes behind. -/
structure Firm {α : Type} (f : Parse α) (t : Text) : Prop where
  leaves : ∀ {a rest}, f t = .ok (a, rest) → rest <:+ t
  append : ∀ {a rest}, f t = .ok (a, rest) → ∀ {s}, (rest = [] → Quiet s) →
    f (t ++ s) = .ok (a, rest ++ s)
  /-- The end of a line is not part of anything. -/
  ends : ∀ {a rest}, f t = .ok (a, rest) → t.getLast? = some 10 → rest.getLast? = some 10
  remaining : ∀ {failure}, f t = .error failure → failure.fault = .truncatedCodeUnit →
    failure.remaining ≤ t.length
  lasts : ∀ {failure}, f t = .error failure → failure.Final t →
    ∀ s, ∃ failure', f (t ++ s) = .error failure'

variable {α β : Type}

theorem Firm.of_soft {f : Parse α} {t : Text} {failure : ReadFailure} (h : f t = .error failure)
    (hsoft : failure.fault.Soft) : Firm f t where
  leaves hr := nomatch h.symm.trans hr
  append hr := nomatch h.symm.trans hr
  ends hr := nomatch h.symm.trans hr
  remaining hr hfault := by
    cases h.symm.trans hr
    exact absurd hfault hsoft.2
  lasts hr hfinal := by
    cases h.symm.trans hr
    exact absurd hfinal (ReadFailure.not_final_of_soft hsoft t)

/-- A failure behind what has been read is as final there. -/
theorem Firm.final_rest {f : Parse α} {t rest : Text} {a : α} {failure : ReadFailure}
    (hf : Firm f t) (hr : f t = .ok (a, rest)) (hfinal : failure.Final t)
    (hremaining : failure.fault = .truncatedCodeUnit → failure.remaining ≤ rest.length) :
    failure.Final rest :=
  hfinal.imp (fun hhard => ⟨hhard.1, hf.ends hr hhard.2⟩)
    (ReadFailure.garbled_of_suffix (hf.leaves hr) hremaining).mp

theorem Firm.andThen {f : Parse α} {k : α → Parse β} {t : Text} (hf : Firm f t)
    (hk : ∀ {a rest}, f t = .ok (a, rest) → Firm (k a) rest) : Firm (andThen f k) t where
  leaves h := by
    obtain ⟨a, middle, hfirst, hsecond⟩ := andThen_eq_ok h
    exact ((hk hfirst).leaves hsecond).trans (hf.leaves hfirst)
  append {b rest} h s hquiet := by
    obtain ⟨a, middle, hfirst, hsecond⟩ := andThen_eq_ok h
    have hmiddle : middle = [] → Quiet s := by
      rintro rfl
      exact hquiet (List.suffix_nil.mp ((hk hfirst).leaves hsecond))
    rw [andThen_ok (hf.append hfirst hmiddle)]
    exact (hk hfirst).append hsecond hquiet
  ends h hlast := by
    obtain ⟨a, middle, hfirst, hsecond⟩ := andThen_eq_ok h
    exact (hk hfirst).ends hsecond (hf.ends hfirst hlast)
  remaining h hfault := by
    rcases andThen_eq_error h with hfirst | ⟨a, middle, hfirst, hsecond⟩
    · exact hf.remaining hfirst hfault
    · exact Nat.le_trans ((hk hfirst).remaining hsecond hfault) (hf.leaves hfirst).length_le
  lasts {failure} h hfinal s := by
    rcases andThen_eq_error h with hfirst | ⟨a, middle, hfirst, hsecond⟩
    · obtain ⟨failure', hfails⟩ := hf.lasts hfirst hfinal s
      exact ⟨failure', andThen_error hfails⟩
    · have hmiddle := hf.final_rest hfirst hfinal ((hk hfirst).remaining hsecond)
      rw [andThen_ok (hf.append hfirst fun hnil => absurd hnil hmiddle.ne_nil)]
      exact (hk hfirst).lasts hsecond hmiddle s

theorem Firm.done (a : α) (t : Text) : Firm (done a) t where
  leaves h := Leaves.done a h
  append h s _ := by
    cases h
    rfl
  ends h hlast := by
    cases h
    exact hlast
  remaining h := nomatch h
  lasts h := nomatch h

/-- A reader that goes on as another does behind a part of the text. -/
theorem Firm.behind {f g : Parse α} {t t' : Text} (hsuffix : t' <:+ t)
    (hend : t.getLast? = some 10 → t' ≠ []) (h : ∀ s, f (t ++ s) = g (t' ++ s)) (hg : Firm g t') :
    Firm f t := by
  have hsame : f t = g t' := by simpa using h []
  have hlast (hline : t.getLast? = some 10) : t'.getLast? = some 10 := by
    obtain ⟨before, rfl⟩ := hsuffix
    rw [List.getLast?_append] at hline
    cases t' with
    | nil => exact absurd rfl (hend (by simpa using hline))
    | cons b rest => simpa using hline
  refine ⟨fun hr => ?_, fun hr s hquiet => ?_, fun hr hline => ?_, fun hr hfault => ?_,
    fun hr hfinal s => ?_⟩
  · exact (hg.leaves (hsame ▸ hr)).trans hsuffix
  · exact (h s).trans (hg.append (hsame ▸ hr) hquiet)
  · exact hg.ends (hsame ▸ hr) (hlast hline)
  · exact Nat.le_trans (hg.remaining (hsame ▸ hr) hfault) hsuffix.length_le
  · rw [hsame] at hr
    rw [h s]
    exact hg.lasts hr (hfinal.imp (fun hhard => ⟨hhard.1, hlast hhard.2⟩)
      (ReadFailure.garbled_of_suffix hsuffix (hg.remaining hr)).mp) s

/-- What is wrong whatever comes. -/
theorem Firm.of_wrong {f : Parse α} {t : Text}
    (h : ∀ s, ∃ failure, f (t ++ s) = .error failure ∧ failure.fault ≠ .truncatedCodeUnit) :
    Firm f t := by
  obtain ⟨failure, hfails, hfault⟩ := h []
  rw [List.append_nil] at hfails
  refine ⟨fun hr => ?_, fun hr => ?_, fun hr => ?_, fun hr htruncated => ?_, fun _ _ s => ?_⟩
  · exact nomatch hfails.symm.trans hr
  · exact nomatch hfails.symm.trans hr
  · exact nomatch hfails.symm.trans hr
  · cases hfails.symm.trans hr
    exact absurd htruncated hfault
  · obtain ⟨failure', hfails', -⟩ := h s
    exact ⟨failure', hfails'⟩

theorem Firm.failAt (fault : ParseFault) (hfault : fault ≠ .truncatedCodeUnit)
    (left : Text → Text) (t : Text) : Firm (fun t => failAt fault (left t) : Parse α) t :=
  .of_wrong fun _ => ⟨_, rfl, hfault⟩

/-- A byte and what it leads to. A byte that is the whole of a last line is a case of its own, since
nothing is left of the line behind it. -/
theorem Firm.byte_andThen {missing : ParseFault} {k : Byte → Parse β} {t : Text}
    (hmissing : missing.Soft) (hk : ∀ {b rest}, t = b :: rest → Firm (k b) rest)
    (hline : t = [10] → Firm (Parse.andThen (byte missing) k) [10]) :
    Firm (Parse.andThen (byte missing) k) t := by
  cases t with
  | nil =>
    have hfails : Parse.andThen (byte missing) k [] = .error ⟨missing, 0⟩ := rfl
    exact .of_soft hfails hmissing
  | cons b rest =>
    by_cases hone : b :: rest = [10]
    · rw [hone]
      exact hline hone
    · refine Firm.behind (List.suffix_cons b rest) ?_ (fun _ => rfl) (hk rfl)
      rintro hlast rfl
      exact hone (congrArg (· :: []) (Option.some.inj hlast))

section visible

theorem skipBlank_append {inComment : Bool} {t s : Text} (h : skipBlank inComment t ≠ []) :
    skipBlank inComment (t ++ s) = skipBlank inComment t ++ s := by
  induction t generalizing inComment with
  | nil => exact absurd rfl h
  | cons b rest ih =>
    obtain ⟨behind, -, hskip⟩ | ⟨-, hskip⟩ := skipBlank_cons inComment b
    · rw [hskip] at h
      rw [List.cons_append, hskip, hskip, ih h]
    · rw [List.cons_append, hskip, hskip, List.cons_append]

theorem skipBlank_append_cons {inComment : Bool} {t rest : Text} {b : Byte}
    (h : skipBlank inComment t = b :: rest) (s : Text) :
    skipBlank inComment (t ++ s) = b :: (rest ++ s) := by
  rw [skipBlank_append (by rw [h]; exact List.cons_ne_nil b rest), h, List.cons_append]

theorem isVisible_of_skipBlank {inComment : Bool} {t rest : Text} {b : Byte}
    (h : skipBlank inComment t = b :: rest) : IsVisible b := by
  induction t generalizing inComment with
  | nil => cases h
  | cons c tail ih =>
    obtain ⟨behind, -, hskip⟩ | ⟨hvisible, hskip⟩ := skipBlank_cons inComment c
    · exact ih ((hskip tail).symm.trans h)
    · cases (hskip tail).symm.trans h
      exact hvisible

/-- A visible byte is not the end of a line. -/
theorem getLast?_of_skipBlank {t rest : Text} {b : Byte} (h : skipBlank false t = b :: rest)
    (hlast : t.getLast? = some 10) : rest.getLast? = some 10 := by
  obtain ⟨before, ht⟩ := skipBlank_suffix false t
  rw [h] at ht
  rw [← ht, List.getLast?_append] at hlast
  cases rest with
  | nil =>
    obtain rfl : b = 10 := Option.some.inj hlast
    exact absurd (isVisible_of_skipBlank h).1 (by decide)
  | cons c tail => simpa using hlast

theorem visible_firm {missing : ParseFault} (hmissing : missing.Soft) (t : Text) :
    Firm (visible missing) t where
  leaves h := visible_leaves missing h
  append h s _ := by
    rw [visible_eq_ok] at h ⊢
    exact skipBlank_append_cons h s
  ends h hlast := getLast?_of_skipBlank (visible_eq_ok.mp h) hlast
  remaining h hfault := by
    obtain ⟨-, rfl⟩ := visible_eq_error h
    exact absurd hfault hmissing.2
  lasts h hfinal := by
    obtain ⟨-, rfl⟩ := visible_eq_error h
    exact absurd hfinal (ReadFailure.not_final_of_soft hmissing t)

theorem expect_firm {wanted : Byte} {missing wrong : ParseFault} {after : Parse α} {t : Text}
    (hmissing : missing.Soft) (hwrong : wrong ≠ .truncatedCodeUnit)
    (h : ∀ {rest}, skipBlank false t = wanted :: rest → Firm after rest) :
    Firm (expect wanted missing wrong after) t := by
  refine (visible_firm hmissing t).andThen fun {b rest} hb => ?_
  split
  next heq =>
    subst heq
    exact h (visible_eq_ok.mp hb)
  next => exact Firm.failAt wrong hwrong (b :: ·) rest

theorem separated_firm {close : Byte} {v : Value} {missing wrong : ParseFault}
    {more : Parse Value} {t : Text} (hmissing : missing.Soft)
    (hwrong : wrong ≠ .truncatedCodeUnit)
    (h : ∀ {rest : Text}, rest.length < t.length → Firm more rest) :
    Firm (separated close v missing wrong more) t := by
  refine (visible_firm hmissing t).andThen fun {b rest} hb => ?_
  split
  · exact Firm.done v rest
  split
  · exact h (length_of_visible hb)
  · exact Firm.failAt wrong hwrong (b :: ·) rest

theorem closedOr_append {close b : Byte} {v : Value} {first : Parse Value} {t rest : Text}
    (h : skipBlank false t = b :: rest) (s : Text) : closedOr close v first (t ++ s)
      = if b = close then .ok (v, rest ++ s) else first (b :: rest ++ s) := by
  unfold closedOr
  rw [skipBlank_append_cons h]
  rfl

theorem closedOr_firm {close : Byte} {v : Value} {first : Parse Value} {t : Text}
    (hnil : ∃ failure, first [] = .error failure ∧ failure.fault.Soft)
    (h : ∀ {t' : Text}, t'.length ≤ t.length → Firm first t') :
    Firm (closedOr close v first) t := by
  have hsuffix := skipBlank_suffix false t
  cases hskip : skipBlank false t with
  | nil =>
    obtain ⟨failure, hfails, hsoft⟩ := hnil
    have hsame : closedOr close v first t = first [] := by
      unfold closedOr
      rw [hskip]
    exact .of_soft (hsame.trans hfails) hsoft
  | cons b rest =>
    rw [hskip] at hsuffix
    by_cases hclose : b = close
    · refine Firm.behind (g := Parse.done v) ((List.suffix_cons b rest).trans hsuffix) ?_
        (fun s => (closedOr_append hskip s).trans (if_pos hclose)) (Firm.done v rest)
      rintro hlast rfl
      exact nomatch getLast?_of_skipBlank hskip hlast
    · exact Firm.behind hsuffix (fun _ => List.cons_ne_nil b rest)
        (fun s => (closedOr_append hskip s).trans (if_neg hclose)) (h hsuffix.length_le)

end visible

section quoted

theorem exists_codeUnit?_iff {a b c d : Byte} :
    (∃ unit, codeUnit? a b c d = some unit) ↔ ∀ x ∈ [a, b, c, d], x.hexDigit? ≠ none := by
  unfold codeUnit?
  simp only [List.forall_mem_cons, Option.ne_none_iff_exists', List.not_mem_nil, false_implies,
    implies_true, and_true]
  constructor
  · rintro ⟨unit, h⟩
    simp only [Option.bind_eq_bind, Option.bind_eq_some_iff] at h
    obtain ⟨a', ha, b', hb, c', hc, d', hd, -⟩ := h
    exact ⟨⟨a', ha⟩, ⟨b', hb⟩, ⟨c', hc⟩, ⟨d', hd⟩⟩
  · rintro ⟨⟨a', ha⟩, ⟨b', hb⟩, ⟨c', hc⟩, ⟨d', hd⟩⟩
    rw [ha, hb, hc, hd]
    exact ⟨_, rfl⟩

theorem codeUnit_eq_ok {t rest : Text} {unit : Nat} (h : codeUnit t = .ok (unit, rest)) :
    ∃ a b c d, t = a :: b :: c :: d :: rest ∧ codeUnit? a b c d = some unit := by
  unfold codeUnit readCodeUnit at h
  split at h
  next a b c d tail =>
    split at h
    next unit' hunit =>
      cases h
      exact ⟨a, b, c, d, rfl, hunit⟩
    next => cases h
  next => cases h

/-- What is no digit where a digit has to stand is an error, whatever its name. -/
theorem codeUnit_error_of {t : Text} {b : Byte} (hb : b ∈ t.take 4) (hhex : b.hexDigit? = none) :
    ∃ failure, codeUnit t = .error failure := by
  cases hread : codeUnit t with
  | error failure => exact ⟨failure, rfl⟩
  | ok result =>
    obtain ⟨unit, rest⟩ := result
    obtain ⟨a₁, a₂, a₃, a₄, rfl, hunit⟩ := codeUnit_eq_ok hread
    exact absurd hhex (exists_codeUnit?_iff.mp ⟨_, hunit⟩ b hb)

theorem codeUnit_eq_error {t : Text} {failure : ReadFailure} (h : codeUnit t = .error failure) :
    failure.remaining = t.length ∧
      (failure.fault = .truncatedCodeUnit ∧ t.length < 4 ∨
        failure.fault = .invalidCodeUnit ∧ ∃ a b c d rest, t = a :: b :: c :: d :: rest ∧
          codeUnit? a b c d = none) := by
  unfold codeUnit readCodeUnit at h
  split at h
  next a b c d tail =>
    split at h
    next => cases h
    next hunit =>
      cases h
      exact ⟨rfl, .inr ⟨rfl, a, b, c, d, tail, rfl, hunit⟩⟩
  next hshort =>
    cases h
    refine ⟨rfl, .inl ⟨rfl, ?_⟩⟩
    match t with
    | [] | [_] | [_, _] | [_, _, _] => simp
    | a :: b :: c :: d :: tail => exact absurd rfl (hshort a b c d tail)

theorem codeUnit_firm (t : Text) : Firm codeUnit t where
  leaves h := codeUnit_leaves h
  append h s _ := by
    obtain ⟨a, b, c, d, rfl, hunit⟩ := codeUnit_eq_ok h
    exact codeUnit_ok (by simp only [List.cons_append, readCodeUnit, hunit])
  ends {unit rest} h hlast := by
    obtain ⟨a, b, c, d, rfl, hunit⟩ := codeUnit_eq_ok h
    cases rest with
    | nil =>
      obtain rfl : d = 10 := Option.some.inj hlast
      exact absurd rfl (exists_codeUnit?_iff.mp ⟨_, hunit⟩ 10 (by simp))
    | cons e tail => simpa using hlast
  remaining h _ := Nat.le_of_eq (codeUnit_eq_error h).1
  lasts {failure} h hfinal s := by
    obtain ⟨hremaining, ⟨hfault, hlength⟩ | ⟨hfault, a, b, c, d, rest, rfl, hunit⟩⟩ :=
      codeUnit_eq_error h
    · obtain ⟨hhard, -⟩ | ⟨-, b, hb, hhex⟩ := hfinal
      · rw [hfault] at hhard
        cases hhard
      · rw [hremaining, Nat.sub_self, List.drop_zero] at hb
        refine codeUnit_error_of ?_ hhex
        rw [List.take_append, List.take_of_length_le (Nat.le_of_lt hlength)]
        exact List.mem_append_left _ hb
    · exact ⟨_, codeUnit_error (by simp only [List.cons_append, readCodeUnit, hunit]; rfl)⟩

theorem quotedText_nil (acc : Text) :
    quotedText acc [] = .error ⟨.unterminatedString, 0⟩ := rfl

theorem quotedText_slash (acc : Text) :
    quotedText acc [92] = .error ⟨.unterminatedEscape, 0⟩ := rfl

/-- Whether the other half of a pair comes next is open where the text ends before its letter, and
nowhere else. -/
theorem escape_ahead (t : Text) : t = [] ∨ t = [92] ∨ (∃ rest, t = 92 :: 117 :: rest) ∨
    ∀ s, Text.startsWith (t ++ s) [92, 117] = false := by
  match t with
  | [] => exact .inl rfl
  | [b] =>
    by_cases hb : b = 92
    · exact .inr (.inl (congrArg (· :: []) hb))
    · exact .inr (.inr (.inr fun s => by simp [Text.startsWith, List.isPrefixOf, Ne.symm hb]))
  | b :: c :: rest =>
    by_cases h : b = 92 ∧ c = 117
    · obtain ⟨rfl, rfl⟩ := h
      exact .inr (.inr (.inl ⟨rest, rfl⟩))
    · refine .inr (.inr (.inr fun s => ?_))
      simp only [Text.startsWith, List.cons_append, List.isPrefixOf, Bool.and_true,
        Bool.and_eq_false_iff, beq_eq_false_iff_ne]
      exact (Decidable.not_and_iff_or_not.mp h).imp Ne.symm Ne.symm

theorem unitEnd_pair {more : Text → Parse Text} {acc : Text} {unit : Nat}
    (hhigh : isHighSurrogate unit = true) (rest : Text) :
    unitEnd more acc unit (92 :: 117 :: rest)
      = andThen codeUnit (fun next => more ((utf8Pair unit next).reverse ++ acc)) rest :=
  if_pos (by simp [hhigh, Text.startsWith])

theorem unitEnd_single {more : Text → Parse Text} {acc : Text} {unit : Nat} {t : Text}
    (h : isHighSurrogate unit = true → Text.startsWith t [92, 117] = false) :
    unitEnd more acc unit t = more ((utf8 unit).reverse ++ acc) t := by
  refine if_neg fun hpair => ?_
  rw [Bool.and_eq_true] at hpair
  rw [h hpair.1] at hpair
  cases hpair.2

theorem unitEnd_firm {acc : Text} {unit : Nat} {t : Text}
    (h : ∀ acc, ∀ t' : Text, t'.length ≤ t.length → Firm (quotedText acc) t') :
    Firm (unitEnd quotedText acc unit) t := by
  have hsingle (hnone : ∀ s, isHighSurrogate unit = true →
      Text.startsWith (t ++ s) [92, 117] = false) : Firm (unitEnd quotedText acc unit) t :=
    Firm.behind List.suffix_rfl (by rintro hlast rfl; cases hlast)
      (fun s => unitEnd_single (hnone s)) (h _ t (Nat.le_refl _))
  by_cases hhigh : isHighSurrogate unit = true
  · obtain rfl | rfl | ⟨rest, rfl⟩ | hnone := escape_ahead t
    · exact .of_soft ((unitEnd_single fun _ => rfl).trans (quotedText_nil _)) (by decide)
    · exact .of_soft ((unitEnd_single fun _ => rfl).trans (quotedText_slash _)) (by decide)
    · refine Firm.behind ((List.suffix_cons 117 rest).trans (List.suffix_cons 92 _)) ?_
        (fun s => unitEnd_pair hhigh (rest ++ s)) ((codeUnit_firm rest).andThen fun hunit => ?_)
      · rintro hlast rfl
        cases hlast
      · refine h _ _ (Nat.le_trans (codeUnit_leaves hunit).length_le ?_)
        simp only [List.length_cons]
        omega
    · exact hsingle fun s _ => hnone s
  · exact hsingle fun s hs => absurd hs hhigh

theorem escaped_firm {acc : Text} {letter : Byte} {t : Text}
    (h : ∀ acc, ∀ t' : Text, t'.length ≤ t.length → Firm (quotedText acc) t') :
    Firm (escaped quotedText acc letter) t := by
  unfold escaped
  split
  · exact h _ t (Nat.le_refl _)
  split
  · refine (codeUnit_firm t).andThen fun hunit => unitEnd_firm fun acc t' ht' => h acc t' ?_
    exact Nat.le_trans ht' (codeUnit_leaves hunit).length_le
  · exact Firm.failAt .unknownEscape nofun id t

theorem escape_firm {acc t : Text}
    (h : ∀ acc, ∀ t' : Text, t'.length < t.length → Firm (quotedText acc) t') :
    Firm (andThen (byte .unterminatedEscape) (escaped quotedText acc)) t := by
  refine Firm.byte_andThen (by decide) (fun {letter rest} ht => ?_) fun _ =>
    .of_wrong fun _ => ⟨_, rfl, nofun⟩
  subst ht
  exact escaped_firm fun acc t' ht' => h acc t' (Nat.lt_succ_of_le ht')

theorem quotedText_firm (acc t : Text) : Firm (quotedText acc) t := by
  have ih (acc : Text) (t' : Text) (ht' : t'.length < t.length) : Firm (quotedText acc) t' :=
    quotedText_firm acc t'
  rw [quotedText_eq]
  refine Firm.byte_andThen (by decide) (fun {b rest} ht => ?_) fun _ =>
    .of_soft (quotedText_nil (10 :: acc)) (by decide)
  subst ht
  split
  · exact Firm.done _ rest
  split
  · exact escape_firm fun acc t' ht' => ih acc t' (Nat.lt_succ_of_lt ht')
  · exact ih _ rest (by simp)
termination_by t.length

end quoted

section values

/-- A run of bytes that has begun. -/
theorem TakesRun.firm {p : Byte → Bool} {f : Parse Value} (hf : TakesRun p f)
    (hline : p 10 = false) (b : Byte) (t : Text) : Firm (fun t => f (b :: t)) t where
  leaves h := hf.leaves_suffix b h
  append {v rest} h s hquiet := by
    obtain ⟨hb, hrest⟩ := hf.leaves_tail h
    obtain ⟨htake, hdrop⟩ := takeWhile_append_of (s := s) hline (hrest ▸ hquiet)
    have htoken : (b :: (t ++ s)).takeWhile p = (b :: t).takeWhile p := by
      rw [List.takeWhile_cons_of_pos hb, List.takeWhile_cons_of_pos hb, htake]
    rw [hf.depends h htoken, List.dropWhile_cons_of_pos hb, hdrop, hrest]
  ends h hlast := by
    rw [(hf.leaves_tail h).2]
    exact getLast?_dropWhile hline hlast
  remaining h hfault := absurd hfault (hf.fault h)
  lasts {failure} h hfinal s := by
    have hlast : t.getLast? = some 10 := hfinal.elim (·.2) fun hbad => absurd hbad.1 (hf.fault h)
    cases hlonger : f (b :: (t ++ s)) with
    | error failure' => exact ⟨failure', rfl⟩
    | ok result =>
      -- the run has ended before the end of the line, so that it is the same run
      obtain ⟨v, rest⟩ := result
      have hb := (hf.leaves_tail hlonger).1
      have hends := getLast?_dropWhile hline hlast
      have htake := (takeWhile_append_of (s := s) hline
        fun hnil => nomatch (hnil ▸ hends : ([] : Text).getLast? = some 10)).1
      have htoken : (b :: t).takeWhile p = (b :: (t ++ s)).takeWhile p := by
        rw [List.takeWhile_cons_of_pos hb, List.takeWhile_cons_of_pos hb, htake]
      cases h.symm.trans (hf.depends hlonger htoken)

theorem valueFrom_firm {b : Byte} {t : Text}
    (h : ∀ t' : Text, t'.length ≤ t.length → Firm (items []) t' ∧ Firm (entries []) t') :
    Firm (valueFrom (items []) (entries []) b) t := by
  unfold valueFrom
  split
  · exact closedOr_firm ⟨⟨.endOfInput, 0⟩, rfl, by decide⟩ fun ht' => (h _ ht').1
  split
  · exact closedOr_firm ⟨⟨.unterminatedObject, 0⟩, rfl, by decide⟩ fun ht' => (h _ ht').2
  split
  · exact (quotedText_firm [] t).andThen fun {s rest} _ => Firm.done _ rest
  split
  · exact Firm.failAt (.strayBracket b) nofun (b :: ·) t
  split
  · exact readNumber_takesRun.firm (by decide) b t
  · exact readWord_takesRun.firm (by decide) b t

theorem readKey_firm (t : Text) : Firm readKey t := by
  rw [readKey_eq]
  refine expect_firm (by decide) nofun fun {rest} _ => (quotedText_firm [] rest).andThen ?_
  intro key rest _
  exact expect_firm (by decide) nofun fun {rest} _ => Firm.done key rest

/-- By induction over what is left of the text. -/
theorem readers_firm (t : Text) :
    Firm value t ∧ (∀ acc, Firm (items acc) t) ∧ ∀ acc, Firm (entries acc) t := by
  refine reading_induction (fun t ih => ?_) (fun acc t hvalue ih => ?_)
    (fun acc t hvalue ih => ?_) t
  · rw [value_eq]
    refine (visible_firm (by decide) t).andThen fun hb => valueFrom_firm fun t' ht' => ?_
    exact ih t' (Nat.lt_of_le_of_lt ht' (length_of_visible hb))
  · rw [items_eq]
    refine hvalue.andThen fun hitem => separated_firm (by decide) nofun fun hrest => ih _ _ ?_
    exact Nat.lt_of_lt_of_le hrest (value_leaves hitem).length_le
  · rw [entries_eq]
    refine (readKey_firm t).andThen fun hkey => ?_
    have hrest := length_of_readKey hkey
    refine (hvalue _ hrest).andThen fun hitem => separated_firm (by decide) nofun fun hmore => ?_
    have := (value_leaves hitem).length_le
    exact ih _ _ (by omega)

end values

end Reader
end EntityMachines
