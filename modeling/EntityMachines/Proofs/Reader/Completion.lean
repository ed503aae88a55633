import EntityMachines.Proofs.Reader.Sequence

/-!
Texts that lack their end. Where a reader asks for more text there is one that it can be given, but
for an escape that breaks off behind something that is no digit.
-/
namespace EntityMachines
namespace Reader

open Parse

variable {α β : Type}

/-- Some text behind another one makes it whole. -/
def Mendable (f : Parse α) (t : Text) : Prop :=
  ∃ s a, ∀ u, Quiet u → f (t ++ (s ++ u)) = .ok (a, u)

/-- Something can be read that begins on a new line. -/
def Ready (f : Parse α) : Prop :=
  ∃ s a, Quiet s ∧ ∀ u, Quiet u → f (s ++ u) = .ok (a, u)

/-- If text is lacking and none is garbled then there is some that can be put behind it. -/
def Mends (f : Parse α) (t : Text) : Prop :=
  ∀ failure, f t = .error failure → failure.fault.isIncomplete = true → ¬failure.Garbled t →
    Mendable f t

section rules

theorem Mendable.done (a : α) : Mendable (done a) [] := ⟨[], a, fun _ _ => rfl⟩

theorem Ready.done (a : α) : Ready (done a) := ⟨[], a, nofun, fun _ _ => rfl⟩

theorem Ready.andThen {f : Parse α} {k : α → Parse β} (hf : Ready f) (hk : ∀ a, Ready (k a)) :
    Ready (andThen f k) := by
  obtain ⟨s, a, hs, hfirst⟩ := hf
  obtain ⟨s', b, hs', hsecond⟩ := hk a
  refine ⟨s ++ s', b, hs.append hs', fun u hu => ?_⟩
  rw [List.append_assoc, andThen_ok (hfirst _ (hs'.append hu)), hsecond u hu]

theorem Mends.of_ok {f : Parse α} {t rest : Text} {a : α} (h : f t = .ok (a, rest)) : Mends f t :=
  fun _ hfails => nomatch h.symm.trans hfails

theorem Mends.failAt (fault : ParseFault) (hfault : fault.isIncomplete = false)
    (left : Text → Text) (t : Text) : Mends (fun t => failAt fault (left t) : Parse α) t := by
  intro failure h hincomplete
  cases h
  rw [hfault] at hincomplete
  cases hincomplete

/-- A reader that goes on as another does behind a part of the text. -/
theorem Mends.behind {f g : Parse α} {t t' : Text} (hsuffix : t' <:+ t)
    (h : ∀ s, f (t ++ s) = g (t' ++ s)) (hfirm : Firm g t') (hg : Mends g t') : Mends f t := by
  intro failure hfails hincomplete hclear
  have hsame : f t = g t' := by simpa using h []
  rw [hsame] at hfails
  have hgarbled := ReadFailure.garbled_of_suffix hsuffix (hfirm.remaining hfails)
  obtain ⟨s, a, hs⟩ := hg failure hfails hincomplete (fun hbad => hclear (hgarbled.mpr hbad))
  exact ⟨s, a, fun u hu => (h _).trans (hs u hu)⟩

/-- If the first reader lacks text, the second is given some on a new line; the second may lack
text behind the first one, which then ends before it or with the line. -/
theorem Mends.andThen {f : Parse α} {k : α → Parse β} {t : Text} (hfirm : Firm f t)
    (hf : Mends f t) (hready : ∀ a, Ready (k a))
    (hk : ∀ {a rest}, f t = .ok (a, rest) → Firm (k a) rest ∧ Mends (k a) rest) :
    Mends (andThen f k) t := by
  intro failure h hincomplete hclear
  rcases andThen_eq_error h with hfirst | ⟨a, rest, hfirst, hsecond⟩
  · obtain ⟨s, a, hs⟩ := hf failure hfirst hincomplete hclear
    obtain ⟨s', b, hs', hnext⟩ := hready a
    refine ⟨s ++ s', b, fun u hu => ?_⟩
    rw [List.append_assoc, andThen_ok (hs _ (hs'.append hu)), hnext u hu]
  · by_cases hrest : rest = []
    · subst hrest
      obtain ⟨s, b, hs, hnext⟩ := hready a
      refine ⟨s, b, fun u hu => ?_⟩
      rw [andThen_ok (hfirm.append hfirst fun _ => hs.append hu)]
      exact hnext u hu
    · have hgarbled := ReadFailure.garbled_of_suffix (hfirm.leaves hfirst)
        ((hk hfirst).1.remaining hsecond)
      obtain ⟨s, b, hs⟩ := (hk hfirst).2 failure hsecond hincomplete
        fun hbad => hclear (hgarbled.mpr hbad)
      refine ⟨s, b, fun u hu => ?_⟩
      rw [andThen_ok (hfirm.append hfirst fun hnil => absurd hnil hrest)]
      exact hs u hu

theorem Mends.byte_andThen {missing : ParseFault} {k : Byte → Parse β} {t : Text} (b : Byte)
    (hb : Mendable (k b) []) (hk : ∀ {b rest}, t = b :: rest → Firm (k b) rest ∧ Mends (k b) rest) :
    Mends (Parse.andThen (byte missing) k) t := by
  cases t with
  | nil =>
    obtain ⟨s, a, hs⟩ := hb
    exact fun _ _ _ _ => ⟨b :: s, a, hs⟩
  | cons c rest =>
    exact Mends.behind (List.suffix_cons c rest) (fun _ => rfl) (hk rfl).1 (hk rfl).2

/-- The next visible byte on a new line. -/
theorem skipBlank_line {t : Text} {b : Byte} (hblank : skipBlank false t = []) (hb : IsVisible b)
    (s : Text) : skipBlank false (t ++ 10 :: b :: s) = b :: s := by
  rw [skipBlank_append_blank hblank (.inr (quiet_line _)) fun _ => rfl]
  exact skipBlank_visible hb

theorem visible_line {missing : ParseFault} {t : Text} {b : Byte} (hblank : skipBlank false t = [])
    (hb : IsVisible b) (s : Text) : visible missing (t ++ 10 :: b :: s) = .ok (b, s) :=
  visible_eq_ok.mpr (skipBlank_line hblank hb s)

theorem Ready.visible_andThen {missing : ParseFault} {k : Byte → Parse β} {b : Byte}
    (hb : IsVisible b) (hk : Mendable (k b) []) : Ready (Parse.andThen (visible missing) k) := by
  obtain ⟨s, a, hs⟩ := hk
  refine ⟨10 :: b :: s, a, quiet_line _, fun u hu => ?_⟩
  exact (andThen_ok (visible_line (t := []) rfl hb (s ++ u))).trans (hs u hu)

theorem Mends.visible_andThen {missing : ParseFault} {k : Byte → Parse β} {t : Text} {b : Byte}
    (hb : IsVisible b) (hmissing : Mendable (k b) [])
    (hk : ∀ {b rest}, skipBlank false t = b :: rest → Firm (k b) rest ∧ Mends (k b) rest) :
    Mends (Parse.andThen (visible missing) k) t := by
  cases hskip : skipBlank false t with
  | nil =>
    obtain ⟨s, a, hs⟩ := hmissing
    refine fun _ _ _ _ => ⟨10 :: b :: s, a, fun u hu => ?_⟩
    exact (andThen_ok (visible_line hskip hb (s ++ u))).trans (hs u hu)
  | cons c rest =>
    have hsuffix := skipBlank_suffix false t
    rw [hskip] at hsuffix
    refine Mends.behind ((List.suffix_cons c rest).trans hsuffix) (fun s => ?_) (hk hskip).1
      (hk hskip).2
    refine andThen_ok (visible_eq_ok.mpr ?_)
    exact skipBlank_append_cons hskip s

theorem expect_ready {wanted : Byte} {missing wrong : ParseFault} {after : Parse α}
    (hvisible : IsVisible wanted) (h : Mendable after []) :
    Ready (expect wanted missing wrong after) :=
  Ready.visible_andThen hvisible (by rwa [if_pos rfl])

/-- A reader that does not change its mind, and that can be given what it lacks. -/
def Sound (f : Parse α) (t : Text) : Prop := Firm f t ∧ Mends f t

theorem failAt_sound (fault : ParseFault) (hfault : fault.isIncomplete = false)
    (left : Text → Text) (t : Text) : Sound (fun t => failAt fault (left t) : Parse α) t := by
  refine ⟨Firm.failAt fault ?_ left t, Mends.failAt fault hfault left t⟩
  rintro rfl
  cases hfault

theorem done_sound (a : α) (t : Text) : Sound (done a) t := ⟨Firm.done a t, Mends.of_ok rfl⟩

theorem expect_mends {wanted : Byte} {missing wrong : ParseFault} {after : Parse α} {t : Text}
    (hvisible : IsVisible wanted) (hwrong : wrong.isIncomplete = false) (hafter : Mendable after [])
    (h : ∀ {rest}, skipBlank false t = wanted :: rest → Sound after rest) :
    Mends (expect wanted missing wrong after) t := by
  refine Mends.visible_andThen hvisible (by rwa [if_pos rfl]) fun {b rest} hb => ?_
  by_cases heq : b = wanted
  · subst heq
    rw [if_pos rfl]
    exact h hb
  · rw [if_neg heq]
    exact failAt_sound wrong hwrong (b :: ·) rest

theorem separated_ready {close : Byte} {v : Value} {missing wrong : ParseFault}
    {more : Parse Value} (hclose : IsVisible close) :
    Ready (separated close v missing wrong more) :=
  Ready.visible_andThen hclose (by rw [if_pos rfl]; exact Mendable.done v)

theorem separated_mends {close : Byte} {v : Value} {missing wrong : ParseFault}
    {more : Parse Value} {t : Text} (hclose : IsVisible close) (hwrong : wrong.isIncomplete = false)
    (h : ∀ {rest : Text}, rest.length < t.length → Sound more rest) :
    Mends (separated close v missing wrong more) t := by
  refine Mends.visible_andThen hclose (by rw [if_pos rfl]; exact Mendable.done v) ?_
  intro b rest hb
  split
  · exact done_sound v rest
  split
  · exact h (length_of_skipBlank hb)
  · exact failAt_sound wrong hwrong (b :: ·) rest

theorem closedOr_mends {close : Byte} {v : Value} {first : Parse Value} {t : Text}
    (hclose : IsVisible close) (h : ∀ {t' : Text}, t'.length ≤ t.length → Sound first t') :
    Mends (closedOr close v first) t := by
  have hsuffix := skipBlank_suffix false t
  cases hskip : skipBlank false t with
  | nil =>
    refine fun _ _ _ _ => ⟨[10, close], v, fun u _ => ?_⟩
    change closedOr close v first (t ++ 10 :: close :: u) = .ok (v, u)
    unfold closedOr
    rw [skipBlank_line hskip hclose]
    exact if_pos rfl
  | cons b rest =>
    rw [hskip] at hsuffix
    by_cases hb : b = close
    · have hclosed : closedOr close v first (t ++ []) = .ok (v, rest ++ []) :=
        (closedOr_append hskip []).trans (if_pos hb)
      rw [List.append_nil] at hclosed
      exact Mends.of_ok hclosed
    · have hfirst := h hsuffix.length_le
      exact Mends.behind hsuffix (fun s => (closedOr_append hskip s).trans (if_neg hb)) hfirst.1
        hfirst.2

end rules

section quoted

theorem exists_filled {t : Text} (h : t.length < 4) :
    ∃ a b c d, t ++ List.replicate (4 - t.length) 48 = [a, b, c, d] := by
  match t with
  | [] | [_] | [_, _] | [_, _, _] => exact ⟨_, _, _, _, rfl⟩
  | _ :: _ :: _ :: _ :: rest =>
    simp only [List.length_cons] at h
    omega

/-- Fewer than four digits are filled up with zeros. -/
theorem codeUnit_mends (t : Text) : Mends codeUnit t := by
  intro failure h hincomplete hclear
  obtain ⟨hremaining, ⟨hfault, hlength⟩ | ⟨hfault, -⟩⟩ := codeUnit_eq_error h
  · have hdigits : ∀ x ∈ t, x.hexDigit? ≠ none := by
      refine fun x hx hnone => hclear ⟨hfault, x, ?_, hnone⟩
      rwa [hremaining, Nat.sub_self, List.drop_zero]
    obtain ⟨a, b, c, d, hfour⟩ := exists_filled hlength
    have hfilled : ∀ x ∈ t ++ List.replicate (4 - t.length) 48, x.hexDigit? ≠ none := by
      intro x hx
      rcases List.mem_append.mp hx with hx | hx
      · exact hdigits x hx
      · rw [List.eq_of_mem_replicate hx]
        decide
    rw [hfour] at hfilled
    obtain ⟨unit, hunit⟩ := exists_codeUnit?_iff.mpr hfilled
    refine ⟨List.replicate (4 - t.length) 48, unit, fun u _ => ?_⟩
    rw [← List.append_assoc, hfour]
    exact codeUnit_ok (by simp only [List.cons_append, readCodeUnit, hunit])
  · rw [hfault] at hincomplete
    cases hincomplete

theorem quotedText_quote (acc u : Text) : quotedText acc (34 :: u) = .ok (acc.reverse, u) := by
  rw [quotedText_eq]
  rfl

theorem quotedText_newline (acc u : Text) :
    quotedText acc (92 :: 110 :: 34 :: u) = .ok ((10 :: acc).reverse, u) := by
  rw [quotedText_eq]
  exact quotedText_quote (10 :: acc) u

theorem quotedText_mendable (acc : Text) : Mendable (quotedText acc) [] :=
  ⟨[34], acc.reverse, fun u _ => quotedText_quote acc u⟩

theorem quotedText_line (acc u : Text) :
    quotedText acc (10 :: 34 :: u) = .ok ((10 :: acc).reverse, u) := by
  rw [quotedText_eq]
  exact quotedText_quote (10 :: acc) u

theorem quotedText_ready (acc : Text) : Ready (quotedText acc) :=
  ⟨[10, 34], _, quiet_line _, fun u _ => quotedText_line acc u⟩

theorem unitEnd_ready (acc : Text) (unit : Nat) : Ready (unitEnd quotedText acc unit) :=
  ⟨[10, 34], _, quiet_line _, fun u _ => (unitEnd_single fun _ => rfl).trans (quotedText_line _ u)⟩

theorem unitEnd_mends {acc : Text} {unit : Nat} {t : Text}
    (h : ∀ acc, ∀ t' : Text, t'.length ≤ t.length → Mends (quotedText acc) t') :
    Mends (unitEnd quotedText acc unit) t := by
  have hsingle (hnone : ∀ s, isHighSurrogate unit = true →
      Text.startsWith (t ++ s) [92, 117] = false) : Mends (unitEnd quotedText acc unit) t :=
    Mends.behind List.suffix_rfl (fun s => unitEnd_single (hnone s)) (quotedText_firm _ t)
      (h _ t (Nat.le_refl _))
  by_cases hhigh : isHighSurrogate unit = true
  · obtain rfl | rfl | ⟨rest, rfl⟩ | hnone := escape_ahead t
    · exact fun _ _ _ _ => ⟨[34], _, fun u _ =>
        (unitEnd_single fun _ => rfl).trans (quotedText_quote _ u)⟩
    · refine fun _ _ _ _ => ⟨[110, 34], _, fun u _ =>
        (unitEnd_single fun _ => rfl).trans (quotedText_newline _ u)⟩
    · refine Mends.behind ((List.suffix_cons 117 rest).trans (List.suffix_cons 92 _))
        (fun s => unitEnd_pair hhigh (rest ++ s))
        ((codeUnit_firm rest).andThen fun _ => quotedText_firm _ _)
        ((codeUnit_mends rest).andThen (codeUnit_firm rest) (fun _ => quotedText_ready _) ?_)
      intro unit rest' hunit
      refine ⟨quotedText_firm _ _, h _ _ (Nat.le_trans (codeUnit_leaves hunit).length_le ?_)⟩
      simp only [List.length_cons]
      omega
    · exact hsingle fun s _ => hnone s
  · exact hsingle fun s hs => absurd hs hhigh

theorem escaped_sound {acc : Text} {letter : Byte} {t : Text}
    (h : ∀ acc, ∀ t' : Text, t'.length ≤ t.length → Mends (quotedText acc) t') :
    Sound (escaped quotedText acc letter) t := by
  refine ⟨escaped_firm fun acc t' _ => quotedText_firm acc t', ?_⟩
  unfold escaped
  split
  · exact h _ t (Nat.le_refl _)
  split
  · refine (codeUnit_mends t).andThen (codeUnit_firm t) (unitEnd_ready acc) fun hunit => ?_
    refine ⟨unitEnd_firm fun acc t' _ => quotedText_firm acc t', unitEnd_mends fun acc t' ht' => ?_⟩
    exact h acc t' (Nat.le_trans ht' (codeUnit_leaves hunit).length_le)
  · exact Mends.failAt .unknownEscape rfl id t

theorem quotedText_mends (acc t : Text) : Mends (quotedText acc) t := by
  have ih (acc : Text) (t' : Text) (ht' : t'.length < t.length) : Mends (quotedText acc) t' :=
    quotedText_mends acc t'
  rw [quotedText_eq]
  refine Mends.byte_andThen 34 (Mendable.done _) fun {b rest} ht => ?_
  subst ht
  split
  · exact done_sound _ rest
  split
  · refine ⟨escape_firm fun acc t' _ => quotedText_firm acc t',
      Mends.byte_andThen 110 (quotedText_mendable (10 :: acc)) fun {letter rest'} ht' => ?_⟩
    subst ht'
    refine escaped_sound fun acc t' ht' => ih acc t' ?_
    simp only [List.length_cons]
    omega
  · exact ⟨quotedText_firm _ rest, ih _ rest (by simp)⟩
termination_by t.length

end quoted

section values

/-- Only a lone sign lacks something. -/
theorem readNumber_mends (b : Byte) (t : Text) : Mends (fun t => readNumber (b :: t)) t := by
  intro failure h hincomplete
  have hsign : (b :: t).dropWhile isNumberByte = [] ∧ (b :: t).takeWhile isNumberByte = [45] := by
    unfold readNumber at h
    dsimp only at h
    split at h
    · split at h
      · cases h
        cases hincomplete
      · cases h
    · split at h
      next hlone => simpa using hlone
      next =>
        cases h
        cases hincomplete
  have hone := List.takeWhile_append_dropWhile (p := isNumberByte) (l := b :: t)
  rw [hsign.1, hsign.2] at hone
  cases hone
  have hzero : readNumber [45, 48] = .ok (.number (-0), []) := rfl
  refine fun _ => ⟨[48], .number (-0), fun u hu => ?_⟩
  obtain ⟨htake, hdrop⟩ := takeWhile_append_of (p := isNumberByte) (t := [45, 48]) (s := u) rfl
    fun _ => hu
  have hlonger := readNumber_takesRun.depends hzero htake
  rw [hdrop] at hlonger
  exact hlonger

theorem readWord_mends (b : Byte) (t : Text) : Mends (fun t => readWord (b :: t)) t := by
  intro failure h hincomplete
  unfold readWord at h
  dsimp only at h
  split at h
  · cases h
  split at h
  · cases h
  split at h
  · cases h
  split at h
  · cases h
    cases hincomplete
  · cases h
    cases hincomplete

theorem valueFrom_sound {b : Byte} {t : Text}
    (h : ∀ t' : Text, t'.length ≤ t.length → Mends (items []) t' ∧ Mends (entries []) t') :
    Sound (valueFrom (items []) (entries []) b) t := by
  have hfirm (t : Text) := readers_firm t
  refine ⟨valueFrom_firm fun t' _ => ⟨(hfirm t').2.1 [], (hfirm t').2.2 []⟩, ?_⟩
  unfold valueFrom
  split
  · exact closedOr_mends (by decide) fun ht' => ⟨(hfirm _).2.1 [], (h _ ht').1⟩
  split
  · exact closedOr_mends (by decide) fun ht' => ⟨(hfirm _).2.2 [], (h _ ht').2⟩
  split
  · exact (quotedText_mends [] t).andThen (quotedText_firm [] t) (fun _ => Ready.done _)
      fun {s rest} _ => done_sound _ rest
  split
  · exact Mends.failAt (.strayBracket b) rfl (b :: ·) t
  split
  · exact readNumber_mends b t
  · exact readWord_mends b t

theorem value_ready : Ready value := by
  rw [value_eq]
  exact Ready.visible_andThen (b := 91) (by decide) ⟨[93], .array [], fun _ _ => rfl⟩

theorem readKey_mends (t : Text) : Mends readKey t := by
  rw [readKey_eq]
  have hcolon (key : Text) {rest : Text} :
      Sound (expect 58 .unterminatedObject .objectColon (done key)) rest :=
    ⟨expect_firm (by decide) nofun fun {rest} _ => Firm.done key rest,
      expect_mends (by decide) rfl (Mendable.done key) fun {rest} _ => done_sound key rest⟩
  refine expect_mends (by decide) rfl ⟨[34, 58], [], fun u _ => ?_⟩ fun {rest} _ => ⟨?_, ?_⟩
  · exact andThen_ok (quotedText_quote [] (58 :: u))
  · exact (quotedText_firm [] rest).andThen fun {key _} _ => (hcolon key).1
  · exact (quotedText_mends [] rest).andThen (quotedText_firm [] rest)
      (fun key => expect_ready (by decide) (Mendable.done key)) fun {key _} _ => hcolon key

/-- By induction over what is left of the text. -/
theorem readers_mend (t : Text) :
    Mends value t ∧ (∀ acc, Mends (items acc) t) ∧ ∀ acc, Mends (entries acc) t := by
  have hfirm (t : Text) := readers_firm t
  refine reading_induction (fun t ih => ?_) (fun acc t hvalue ih => ?_)
    (fun acc t hvalue ih => ?_) t
  · rw [value_eq]
    refine Mends.visible_andThen (b := 91) (by decide) ⟨[93], .array [], fun _ _ => rfl⟩ ?_
    intro b rest hb
    exact valueFrom_sound fun t' ht' => ih t' (Nat.lt_of_le_of_lt ht' (length_of_skipBlank hb))
  · rw [items_eq]
    refine hvalue.andThen (hfirm t).1 (fun _ => separated_ready (by decide)) fun hitem => ?_
    refine ⟨separated_firm (by decide) nofun fun _ => (hfirm _).2.1 _,
      separated_mends (by decide) rfl fun hrest => ⟨(hfirm _).2.1 _, ih _ _ ?_⟩⟩
    exact Nat.lt_of_lt_of_le hrest (value_leaves hitem).length_le
  · rw [entries_eq]
    have hmember (key : Text) {t' : Text} (ht' : t'.length < t.length) {item : Value}
        {rest : Text} (hitem : value t' = .ok (item, rest)) :
        Sound (separated 125 (.map (acc.insert key item)) .unterminatedObject .objectSeparator
          (entries (acc.insert key item))) rest := by
      refine ⟨separated_firm (by decide) nofun fun _ => (hfirm _).2.2 _,
        separated_mends (by decide) rfl fun hrest => ⟨(hfirm _).2.2 _, ih _ _ ?_⟩⟩
      have := (value_leaves hitem).length_le
      omega
    refine (readKey_mends t).andThen (readKey_firm t)
      (fun _ => value_ready.andThen fun _ => separated_ready (by decide)) fun hkey => ?_
    have hrest := length_of_readKey hkey
    exact ⟨(hfirm _).1.andThen fun hitem => (hmember _ hrest hitem).1,
      (hvalue _ hrest).andThen (hfirm _).1 (fun _ => separated_ready (by decide)) (hmember _ hrest)⟩

end values

/-- What is lacking at the end of a text is lacking in its last value. -/
theorem all_mends {t : Text} {failure : ReadFailure} (h : all t = .error failure)
    (hincomplete : failure.fault.isIncomplete = true) (hclear : ¬failure.Garbled t) :
    ∃ s vs, all (t ++ s) = .ok vs := by
  obtain ⟨-, hfirst | ⟨v, rest, hfirst, hrest⟩⟩ := all_eq_error h
  · obtain ⟨s, v, hs⟩ := (readers_mend t).1 failure hfirst hincomplete hclear
    refine ⟨s, [v], ?_⟩
    have hvalue := hs [] nofun
    rw [List.append_nil] at hvalue
    exact all_value hvalue
  · have hfirm := (readers_firm t).1
    have hlength := length_of_value hfirst
    have hgarbled := ReadFailure.garbled_of_suffix (hfirm.leaves hfirst) (all_remaining hrest)
    obtain ⟨s, vs, hs⟩ := all_mends hrest hincomplete fun hbad => hclear (hgarbled.mpr hbad)
    refine ⟨s, v :: vs, ?_⟩
    rw [all_value (hfirm.append hfirst ?_), hs]
    · rfl
    · rintro rfl
      cases hrest
termination_by t.length

end Reader

namespace Value

/-- The text ends within an escape, and not all that is there of its four digits are digits. -/
def Garbled (t : Text) : Prop :=
  ∃ failure, Reader.all t = .error failure ∧ failure.Garbled t

/-- Where more text is asked for there is some that helps, unless an escape is garbled. -/
theorem readAll_completable_iff {t : Text} {line column : Nat} {fault : ParseFault}
    (h : readAll t = .error (.parse line column fault)) (hincomplete : fault.isIncomplete = true) :
    (∃ s vs, readAll (t ++ s) = .ok vs) ↔ ¬Garbled t := by
  obtain ⟨failure, hfails, heq⟩ := readAll_eq_error.mp h
  obtain rfl : fault = failure.fault := by
    cases heq
    rfl
  constructor
  · rintro ⟨s, vs, hs⟩ ⟨failure', hfails', hgarbled⟩
    obtain ⟨failure'', hfails''⟩ := Reader.all_lasts hfails' (.inr hgarbled) s
    cases hfails''.symm.trans (readAll_eq_ok.mp hs)
  · intro hclear
    obtain ⟨s, vs, hs⟩ := Reader.all_mends hfails hincomplete
      fun hgarbled => hclear ⟨failure, hfails, hgarbled⟩
    exact ⟨s, vs, readAll_eq_ok.mpr hs⟩

/-- An escape that breaks off behind two digits. -/
theorem readAll_completable_escape :
    readAll (Text.ofString "\"\\u00") = .error (.parse 1 4 .truncatedCodeUnit) ∧
      ParseFault.truncatedCodeUnit.isIncomplete = true ∧
      ((∃ s vs, readAll (Text.ofString "\"\\u00" ++ s) = .ok vs)
        ↔ ¬Garbled (Text.ofString "\"\\u00")) := by
  have htext : Text.ofString "\"\\u00" = [34, 92, 117, 48, 48] := by decide
  have hread : readAll (Text.ofString "\"\\u00") = .error (.parse 1 4 .truncatedCodeUnit) := by
    rw [htext]
    rfl
  exact ⟨hread, rfl, readAll_completable_iff hread rfl⟩

/-- More text is asked for behind a letter where a digit has to stand, and none helps. -/
theorem readAll_incomplete_garbled :
    readAll (Text.ofString "\"\\uZ") = .error (.parse 1 4 .truncatedCodeUnit) ∧
      ParseFault.truncatedCodeUnit.isIncomplete = true ∧
      ∀ s, ¬∃ vs, readAll (Text.ofString "\"\\uZ" ++ s) = .ok vs := by
  have htext : Text.ofString "\"\\uZ" = [34, 92, 117, 90] := by decide
  have hfails : Reader.all (Text.ofString "\"\\uZ") = .error ⟨.truncatedCodeUnit, 1⟩ := by
    rw [htext]
    rfl
  have hgarbled : ReadFailure.Garbled ⟨.truncatedCodeUnit, 1⟩ (Text.ofString "\"\\uZ") :=
    ⟨rfl, 90, by decide, rfl⟩
  refine ⟨readAll_eq_error.mpr ⟨_, hfails, by rw [htext]; rfl⟩, rfl, ?_⟩
  rintro s ⟨vs, hs⟩
  obtain ⟨failure, hfails'⟩ := Reader.all_lasts hfails (.inr hgarbled) s
  cases hfails'.symm.trans (readAll_eq_ok.mp hs)

end Value
end EntityMachines
