import EntityMachines.Proofs.Reader.Extension

/-!
Escaped code units in quoted texts. Units that are escaped directly one behind another form a run,
which stands for characters in UTF-16. The reader looks one unit ahead behind the first half of a
pair and does not look again at a unit it has taken so. Main statement: a quoted text is read as
its runs say exactly if no second half of a pair stands behind an even number of first halves.
-/
namespace EntityMachines
namespace Reader

open Parse

/-- The parts a quoted text is written in. -/
inductive Piece where
  | raw (b : Byte) (h : b ≠ 34 ∧ b ≠ 92)
  | short (letter b : Byte) (h : shortEscape? letter = some b)
  | unicode (a b c d : Byte) (unit : Nat) (h : codeUnit? a b c d = some unit)

def Piece.source : Piece → Text
  | raw b _ => [b]
  | short letter _ _ => [92, letter]
  | unicode a b c d _ _ => [92, 117, a, b, c, d]

/-- A byte, or escaped code units with nothing between them. -/
inductive Run where
  | byte (b : Byte)
  | units (us : List Nat)

namespace Run

def addUnit (unit : Nat) : List Run → List Run
  | units us :: rest => units (unit :: us) :: rest
  | rest => units [unit] :: rest

/-- Whether code units come first. -/
def leads : List Run → Bool
  | units _ :: _ => true
  | _ => false

/-- The runs of code units are as long as can be. -/
def ofPieces : List Piece → List Run
  | [] => []
  | .raw b _ :: rest => byte b :: ofPieces rest
  | .short _ b _ :: rest => byte b :: ofPieces rest
  | .unicode _ _ _ _ unit _ :: rest => addUnit unit (ofPieces rest)

end Run

namespace Utf16

/-- The code points of code units; what is no half of a pair stands for itself. -/
def decode : List Nat → List Nat
  | high :: low :: rest =>
    if isHighSurrogate high && isLowSurrogate low then
      (0x10000 + (high - 0xD800) * 1024 + (low - 0xDC00)) :: decode rest
    else high :: decode (low :: rest)
  | us => us

/-- The bytes of a character. Half of a pair, which is no character, has the three bytes that the
scheme gives for its number. -/
def encode (cp : Nat) : Text :=
  if h : cp.isValidChar then String.utf8EncodeChar (Char.ofNatAux cp h)
  else [0xED, UInt8.ofNat (0x80 + cp / 64 % 64), UInt8.ofNat (0x80 + cp % 64)]

/-- The bytes of what code units stand for. -/
def text (us : List Nat) : Text := (decode us).flatMap encode

/-- The bytes as they are read: a unit behind the first half of a pair is taken with it. -/
def joined : List Nat → Text
  | u :: v :: rest =>
    if isHighSurrogate u then utf8Pair u v ++ joined rest else utf8 u ++ joined (v :: rest)
  | us => us.flatMap utf8

/-- The number of pairs that are missed because their first half is taken with another one. -/
def missed : List Nat → Nat
  | u :: v :: rest =>
    if isHighSurrogate u then
      (if isHighSurrogate v && rest.head?.any isLowSurrogate then 1 else 0) + missed rest
    else missed (v :: rest)
  | _ => 0

/-- The number of first halves at the end of a list of code units. -/
def openings (us : List Nat) : Nat := (us.reverse.takeWhile isHighSurrogate).length

/-- A second half stands behind no first half or behind an odd number of them. -/
def Aligned (us : List Nat) : Prop :=
  ∀ before low after, us = before ++ low :: after → isLowSurrogate low = true →
    openings before % 2 = 0 → openings before = 0

theorem utf8_eq_encode {cp : Nat} (h : cp < 0x110000) : utf8 cp = encode cp := by
  unfold utf8 encode
  by_cases hvalid : cp.isValidChar
  · rw [dif_pos hvalid]
    have hvalue : (Char.ofNatAux cp hvalid).val.toNat = cp := rfl
    unfold String.utf8EncodeChar
    rw [hvalue]
    dsimp only
    -- Below its bound each leading part is smaller than the modulus taken in the library.
    by_cases hone : cp < 0x80
    · rw [if_pos hone, if_pos (show cp ≤ 127 by omega)]
    rw [if_neg hone, if_neg (show ¬cp ≤ 127 by omega)]
    by_cases htwo : cp < 0x800
    · have hlead : cp / 64 % 32 = cp / 64 := by omega
      rw [if_pos htwo, if_pos (show cp ≤ 2047 by omega), hlead, Nat.add_comm 192, Nat.add_comm 128]
    rw [if_neg htwo, if_neg (show ¬cp ≤ 2047 by omega)]
    by_cases hthree : cp < 0x10000
    · have hlead : cp / 4096 % 16 = cp / 4096 := by omega
      rw [if_pos hthree, if_pos (show cp ≤ 65535 by omega), hlead, Nat.add_comm 224,
        Nat.add_comm 128, Nat.add_comm 128]
    · have hlead : cp / 262144 % 8 = cp / 262144 := by omega
      rw [if_neg hthree, if_neg (show ¬cp ≤ 65535 by omega), hlead, Nat.add_comm 240,
        Nat.add_comm 128, Nat.add_comm 128, Nat.add_comm 128]
  · rw [dif_neg hvalid]
    have hhalf : 0xD800 ≤ cp ∧ cp ≤ 0xDFFF := by
      unfold Nat.isValidChar at hvalid
      omega
    have hlead : UInt8.ofNat (0xE0 + cp / 4096) = 0xED := by
      rw [show 0xE0 + cp / 4096 = 0xED by omega]
      rfl
    rw [if_neg (by omega), if_neg (by omega), if_pos (by omega), hlead]

section aligned

variable {u v : Nat} {us rest : List Nat}

theorem openings_append (us before : List Nat) : openings (us ++ before) =
    if openings before = before.length then before.length + openings us else openings before := by
  unfold openings
  rw [List.reverse_append, List.takeWhile_append, List.length_reverse]
  split
  · rw [List.length_append, List.length_reverse]
  · rfl

theorem openings_le (us : List Nat) : openings us ≤ us.length := by
  have hle := (List.takeWhile_sublist isHighSurrogate (l := us.reverse)).length_le
  rwa [List.length_reverse] at hle

theorem openings_single (u : Nat) : openings [u] = if isHighSurrogate u then 1 else 0 := by
  unfold openings
  rw [List.reverse_singleton, List.takeWhile_cons]
  split <;> rfl

theorem openings_cons (u : Nat) (before : List Nat) : openings (u :: before) =
    if openings before = before.length ∧ isHighSurrogate u = true then before.length + 1
    else openings before := by
  rw [← List.singleton_append, openings_append, openings_single]
  grind

theorem aligned_cons : Aligned (u :: us) ↔ ∀ before low after, us = before ++ low :: after →
    isLowSurrogate low = true → openings (u :: before) % 2 = 0 → openings (u :: before) = 0 := by
  refine ⟨fun h before low after hus => h (u :: before) low after (by rw [hus, List.cons_append]),
    fun h before low after heq hlow hparity => ?_⟩
  cases before with
  | nil => rfl
  | cons first before =>
    obtain ⟨rfl, hus⟩ := List.cons.inj heq
    exact h before low after hus hlow hparity

theorem aligned_cons_of_other (hu : isHighSurrogate u = false) :
    Aligned (u :: us) ↔ Aligned us := by
  have hsame (before : List Nat) : openings (u :: before) = openings before := by
    rw [openings_cons, if_neg (by simp [hu])]
  rw [aligned_cons]
  simp only [hsame]
  rfl

theorem openings_cons_cons (hu : isHighSurrogate u = true) (v : Nat) (before : List Nat) :
    openings (u :: v :: before) =
      if openings before = before.length ∧ isHighSurrogate v = true then before.length + 2
      else openings before := by
  have hle := openings_le before
  rw [openings_cons, openings_cons]
  by_cases hall : openings before = before.length ∧ isHighSurrogate v = true
  · rw [if_pos hall, if_pos ⟨rfl, hu⟩, if_pos hall]
    rfl
  · rw [if_neg hall, if_neg, if_neg hall]
    rintro ⟨hall, -⟩
    rw [List.length_cons] at hall
    omega

/-- The unit behind a first half is taken with it, whether it makes a pair or not. -/
theorem aligned_behind_first (hu : isHighSurrogate u = true) : Aligned (u :: v :: rest) ↔
    ∀ before low after, rest = before ++ low :: after → isLowSurrogate low = true →
      openings (u :: v :: before) % 2 = 0 → openings (u :: v :: before) = 0 := by
  have hsingle : openings [u] = 1 := by rw [openings_single, if_pos hu]
  rw [aligned_cons]
  refine ⟨fun h before low after hrest => h (v :: before) low after (by rw [hrest]; rfl),
    fun h before low after heq hlow hparity => ?_⟩
  cases before with
  | nil => rw [hsingle] at hparity; cases hparity
  | cons first before =>
    obtain ⟨rfl, hrest⟩ := List.cons.inj heq
    exact h before low after hrest hlow hparity

/-- Behind a first half and the unit taken with it everything is as at the beginning, unless the
pair of that unit begins there. -/
theorem aligned_cons_cons (hu : isHighSurrogate u = true) : Aligned (u :: v :: rest) ↔
    ¬(isHighSurrogate v = true ∧ rest.head?.any isLowSurrogate = true) ∧ Aligned rest := by
  rw [aligned_behind_first hu]
  constructor
  · intro h
    refine ⟨?_, fun before low after hrest hlow hparity => ?_⟩
    · rintro ⟨hv, hhead⟩
      cases rest with
      | nil => cases hhead
      | cons low after =>
        have hnone := h [] low after rfl hhead
        rw [openings_cons_cons hu, if_pos ⟨rfl, hv⟩] at hnone
        cases hnone rfl
    · have hnone := h before low after hrest hlow
      rw [openings_cons_cons hu] at hnone
      split at hnone <;> omega
  · rintro ⟨hhead, h⟩ before low after hrest hlow hparity
    have hnone := h before low after hrest hlow
    rw [openings_cons_cons hu] at hparity ⊢
    cases before with
    | nil =>
      have hv : ¬isHighSurrogate v = true := fun hv => hhead ⟨hv, by rw [hrest]; exact hlow⟩
      rw [if_neg fun hboth => hv hboth.2]
      rfl
    | cons first before =>
      have hlength : (first :: before).length = before.length + 1 := rfl
      split at hparity <;> split <;> omega

theorem missed_eq_zero_iff (us : List Nat) : missed us = 0 ↔ Aligned us := by
  fun_induction missed us with
  | case1 u v rest hu ih => rw [aligned_cons_cons hu, ← ih]; grind
  | case2 u v rest hu ih => rw [aligned_cons_of_other (by simpa using hu), ih]
  | case3 us hus =>
    refine iff_of_true rfl fun before low after heq _ _ => ?_
    cases before with
    | nil => rfl
    | cons first before =>
      cases before with
      | nil => exact absurd heq (hus first low after)
      | cons second before => exact absurd heq (hus first second _)

end aligned

section joined

variable {u v : Nat} {rest : List Nat}

theorem not_low_of_high (h : isHighSurrogate u = true) : isLowSurrogate u = false := by
  unfold isHighSurrogate at h
  unfold isLowSurrogate
  grind

/-- A unit that makes no pair with the next one is encoded on its own. -/
theorem text_cons_alone
    (h : ¬(isHighSurrogate u = true ∧ rest.head?.any isLowSurrogate = true)) :
    text (u :: rest) = encode u ++ text rest := by
  have hdecode : decode (u :: rest) = u :: decode rest := by
    cases rest with
    | nil => rfl
    | cons v rest =>
      rw [decode, if_neg]
      rwa [Bool.and_eq_true]
  rw [text, hdecode, List.flatMap_cons, text]

theorem text_pair (hu : isHighSurrogate u = true) (hv : isLowSurrogate v = true) :
    text (u :: v :: rest) = utf8Pair u v ++ text rest := by
  have hbound : 0x10000 + (u - 0xD800) * 1024 + (v - 0xDC00) < 0x110000 := by
    unfold isHighSurrogate at hu
    unfold isLowSurrogate at hv
    grind
  unfold utf8Pair
  rw [text, decode, if_pos (by rw [hu, hv]; rfl), if_pos hv, List.flatMap_cons,
    utf8_eq_encode hbound, text]

theorem length_encode_half (h : isHighSurrogate u = true ∨ isLowSurrogate u = true) :
    (encode u).length = 3 := by
  have hhalf : 0xD800 ≤ u ∧ u ≤ 0xDFFF := by
    unfold isHighSurrogate isLowSurrogate at h
    grind
  have hvalid : ¬u.isValidChar := by
    unfold Nat.isValidChar
    omega
  unfold encode
  rw [dif_neg hvalid]
  rfl

theorem length_utf8Pair (u : Nat) (hv : isLowSurrogate v = true) : (utf8Pair u v).length = 4 := by
  unfold utf8Pair
  rw [if_pos hv]
  unfold utf8
  rw [if_neg (by omega), if_neg (by omega), if_neg (by omega)]
  rfl

theorem joined_cons_of_other (hu : isHighSurrogate u = false) (rest : List Nat) :
    joined (u :: rest) = utf8 u ++ joined rest := by
  cases rest with
  | nil => simp [joined]
  | cons v rest => rw [joined, if_neg (by simp [hu])]

/-- For every pair that is missed two bytes more are read. -/
theorem joined_text (us : List Nat) (h : ∀ u ∈ us, u < 0x110000) :
    (missed us = 0 → joined us = text us) ∧
      (joined us).length = (text us).length + 2 * missed us := by
  fun_induction missed us with
  | case1 u v rest hu ih =>
    obtain ⟨hubound, hv, hrest⟩ : u < 0x110000 ∧ v < 0x110000 ∧ ∀ u ∈ rest, u < 0x110000 := by
      simpa using h
    obtain ⟨hequal, hlength⟩ := ih hrest
    have hjoined : joined (u :: v :: rest) = utf8Pair u v ++ joined rest := by
      rw [joined, if_pos hu]
    rw [hjoined]
    by_cases hlow : isLowSurrogate v = true
    · have hhigh : ¬isHighSurrogate v = true := fun hhigh => by
        rw [not_low_of_high hhigh] at hlow
        cases hlow
      rw [text_pair hu hlow, if_neg (by simp [hhigh]), Nat.zero_add]
      refine ⟨fun hnone => by rw [hequal hnone], ?_⟩
      rw [List.length_append, List.length_append, hlength]
      omega
    · have hapart : utf8Pair u v = encode u ++ encode v := by
        unfold utf8Pair
        rw [if_neg hlow, utf8_eq_encode hubound, utf8_eq_encode hv]
      have hfirst : text (u :: v :: rest) = encode u ++ text (v :: rest) :=
        text_cons_alone fun hboth => hlow hboth.2
      rw [hapart, hfirst]
      by_cases hpair : isHighSurrogate v = true ∧ rest.head?.any isLowSurrogate = true
      · rw [if_pos (by rwa [Bool.and_eq_true])]
        refine ⟨fun hnone => absurd hnone (by omega), ?_⟩
        cases rest with
        | nil => cases hpair.2
        | cons w rest =>
          have hw : isLowSurrogate w = true := hpair.2
          have hwhigh : ¬isHighSurrogate w = true := fun hhigh => by
            rw [not_low_of_high hhigh] at hw
            cases hw
          rw [text_cons_alone fun hboth => hwhigh hboth.1] at hlength
          rw [text_pair hpair.1 hw]
          simp only [List.length_append, hlength, length_utf8Pair v hw,
            length_encode_half (.inl hpair.1), length_encode_half (.inr hw)]
          omega
      · rw [if_neg (by rwa [Bool.and_eq_true]), Nat.zero_add, text_cons_alone hpair]
        refine ⟨fun hnone => by rw [hequal hnone, List.append_assoc], ?_⟩
        simp only [List.length_append, hlength]
        omega
  | case2 u v rest hu ih =>
    obtain ⟨hubound, hrest⟩ := List.forall_mem_cons.mp h
    obtain ⟨hequal, hlength⟩ := ih hrest
    have hother : isHighSurrogate u = false := by simpa using hu
    rw [joined_cons_of_other hother, text_cons_alone fun hboth => hu hboth.1, utf8_eq_encode hubound]
    refine ⟨fun hnone => by rw [hequal hnone], ?_⟩
    rw [List.length_append, List.length_append, hlength]
    omega
  | case3 us hus =>
    have hsame : joined us = text us := by
      cases us with
      | nil => rfl
      | cons u rest =>
        cases rest with
        | nil => simpa [joined, text, decode] using utf8_eq_encode (h u List.mem_cons_self)
        | cons v rest => exact absurd rfl (hus u v rest)
    exact ⟨fun _ => hsame, by rw [hsame]; rfl⟩

end joined

end Utf16

namespace Run

/-- The bytes that a run stands for. -/
def text : Run → Text
  | byte b => [b]
  | units us => Utf16.text us

/-- The bytes that a run is read as. -/
def joined : Run → Text
  | byte b => [b]
  | units us => Utf16.joined us

def missed : Run → Nat
  | byte _ => 0
  | units us => Utf16.missed us

def Bounded (run : Run) : Prop := ∀ us, run = units us → ∀ u ∈ us, u < 0x110000

variable {run : Run} {runs : List Run}

theorem joined_text (h : run.Bounded) :
    (run.missed = 0 → run.joined = run.text) ∧
      run.joined.length = run.text.length + 2 * run.missed := by
  cases run with
  | byte b => exact ⟨fun _ => rfl, rfl⟩
  | units us => exact Utf16.joined_text us (h us rfl)

/-- What is read in place of a pair is longer, so that no two differences make up for each other. -/
theorem flatMap_joined_iff (h : ∀ run ∈ runs, run.Bounded) :
    runs.flatMap joined = runs.flatMap text ↔ ∀ run ∈ runs, run.missed = 0 := by
  have hlength : (runs.flatMap joined).length
      = (runs.flatMap text).length + 2 * (runs.map missed).sum := by
    induction runs with
    | nil => rfl
    | cons run runs ih =>
      obtain ⟨hrun, hruns⟩ := List.forall_mem_cons.mp h
      have hfirst := (joined_text hrun).2
      have hrest := ih hruns
      simp only [List.flatMap_cons, List.length_append, List.map_cons, List.sum_cons]
      omega
  constructor
  · intro heq
    rw [heq] at hlength
    have hsum : (runs.map missed).sum = 0 := by omega
    rw [List.sum_eq_zero_iff_forall_eq_nat] at hsum
    exact fun run hrun => hsum _ (List.mem_map_of_mem hrun)
  · intro hnone
    have hsame : ∀ run ∈ runs, run.joined = run.text := fun run hrun =>
      (joined_text (h run hrun)).1 (hnone run hrun)
    rw [List.flatMap_def, List.flatMap_def, List.map_congr_left hsame]

theorem addUnit_bounded {u : Nat} (hu : u < 0x110000) (h : ∀ run ∈ runs, run.Bounded) :
    ∀ run ∈ addUnit u runs, run.Bounded := by
  have hsingle : (units [u]).Bounded := by
    rintro us ⟨⟩ v hv
    rwa [List.mem_singleton.mp hv]
  match runs with
  | units us :: rest =>
    obtain ⟨hfirst, hrest⟩ := List.forall_mem_cons.mp h
    refine List.forall_mem_cons.mpr ⟨?_, hrest⟩
    rintro us' ⟨⟩
    exact List.forall_mem_cons.mpr ⟨hu, hfirst us rfl⟩
  | [] | byte _ :: _ => exact List.forall_mem_cons.mpr ⟨hsingle, h⟩

theorem flatMap_joined_addUnit {u : Nat} (h : (isHighSurrogate u && leads runs) = false) :
    (addUnit u runs).flatMap joined = utf8 u ++ runs.flatMap joined := by
  have hsingle : Utf16.joined [u] = utf8 u := List.append_nil _
  match runs with
  | units us :: rest =>
    have hu : isHighSurrogate u = false := (Bool.and_true _).symm.trans h
    rw [addUnit, List.flatMap_cons, List.flatMap_cons, joined, joined,
      Utf16.joined_cons_of_other hu, List.append_assoc]
  | [] | byte _ :: _ =>
    rw [← hsingle]
    rfl

theorem flatMap_joined_addUnit_addUnit {u : Nat} (hu : isHighSurrogate u = true) (v : Nat)
    (runs : List Run) : (addUnit u (addUnit v runs)).flatMap joined
      = utf8Pair u v ++ runs.flatMap joined := by
  have hpair (us : List Nat) : Utf16.joined (u :: v :: us) = utf8Pair u v ++ Utf16.joined us := by
    rw [Utf16.joined, if_pos hu]
  match runs with
  | units us :: rest =>
    rw [addUnit, addUnit, List.flatMap_cons, List.flatMap_cons, joined, joined, hpair,
      List.append_assoc]
  | [] | byte _ :: _ =>
    have hlone : Utf16.joined [u, v] = utf8Pair u v := (hpair []).trans (List.append_nil _)
    rw [← hlone]
    rfl

end Run

section reading

variable {u : Nat}

theorem codeUnit?_lt {a b c d : Byte} (h : codeUnit? a b c d = some u) : u < 0x110000 := by
  have hdigit (b : Byte) (n : Nat) (hb : b.hexDigit? = some n) : n < 16 := by
    unfold Byte.hexDigit? Byte.isDigit at hb
    grind [UInt8.le_iff_toNat_le]
  unfold codeUnit? at h
  simp only [Option.bind_eq_bind, Option.bind_eq_some_iff, Option.pure_def, Option.some.injEq] at h
  obtain ⟨i, hi, j, hj, k, hk, l, hl, rfl⟩ := h
  have := hdigit a i hi
  have := hdigit b j hj
  have := hdigit c k hk
  have := hdigit d l hl
  omega

theorem Run.ofPieces_bounded (pieces : List Piece) : ∀ run ∈ ofPieces pieces, run.Bounded := by
  induction pieces with
  | nil => exact List.forall_mem_nil _
  | cons piece rest ih =>
    have hbyte (b : Byte) : (byte b).Bounded := by rintro us ⟨⟩
    cases piece with
    | raw b h => exact List.forall_mem_cons.mpr ⟨hbyte b, ih⟩
    | short letter b h => exact List.forall_mem_cons.mpr ⟨hbyte b, ih⟩
    | unicode a b c d unit h => exact addUnit_bounded (codeUnit?_lt h) ih

variable (acc t : Text)

theorem quotedText_close : quotedText acc (34 :: t) = .ok (acc.reverse, t) := by
  rw [quotedText_eq]
  rfl

theorem quotedText_raw {b : Byte} (h : b ≠ 34 ∧ b ≠ 92) :
    quotedText acc (b :: t) = quotedText (b :: acc) t := by
  rw [quotedText_eq]
  simp [quotedStep, andThen, byte, h.1, h.2]

theorem quotedText_short {letter b : Byte} (h : shortEscape? letter = some b) :
    quotedText acc (92 :: letter :: t) = quotedText (b :: acc) t := by
  rw [quotedText_eq]
  simp [quotedStep, andThen, byte, escaped, h]

theorem quotedText_unicode {a b c d : Byte} (h : codeUnit? a b c d = some u) :
    quotedText acc (92 :: 117 :: a :: b :: c :: d :: t) = unitEnd quotedText acc u t := by
  have hletter : shortEscape? 117 = none := rfl
  have hread : readCodeUnit (a :: b :: c :: d :: t) = .ok u := by simp only [readCodeUnit, h]
  have hescape : escaped quotedText acc 117 = andThen codeUnit (unitEnd quotedText acc) := by
    unfold escaped
    rw [hletter]
    rfl
  rw [quotedText_eq]
  show escaped quotedText acc 117 (a :: b :: c :: d :: t) = _
  rw [hescape, andThen_ok (codeUnit_ok hread)]
  rfl

theorem unitEnd_taken {a b c d : Byte} {v : Nat} (hu : isHighSurrogate u = true)
    (h : codeUnit? a b c d = some v) :
    unitEnd quotedText acc u (92 :: 117 :: a :: b :: c :: d :: t)
      = quotedText ((utf8Pair u v).reverse ++ acc) t := by
  have hread : readCodeUnit (a :: b :: c :: d :: t) = .ok v := by simp only [readCodeUnit, h]
  rw [unitEnd_pair hu, andThen_ok (codeUnit_ok hread)]
  rfl

/-- A written text up to its closing quote. -/
def quoted (pieces : List Piece) (rest : Text) : Text := pieces.flatMap Piece.source ++ 34 :: rest

theorem startsWith_quoted (pieces : List Piece) (rest : Text) :
    Text.startsWith (quoted pieces rest) [92, 117] = Run.leads (Run.ofPieces pieces) := by
  match pieces with
  | [] => rfl
  | .raw b h :: pieces =>
    have hb : (92 == b) = false := beq_eq_false_iff_ne.mpr h.2.symm
    show (92 == b && _) = false
    rw [hb, Bool.false_and]
  | .short letter b h :: pieces =>
    have hletter : (117 == letter) = false := by
      refine beq_eq_false_iff_ne.mpr ?_
      rintro rfl
      cases h
    show (92 == 92 && (117 == letter && _)) = false
    rw [hletter, Bool.false_and, Bool.and_false]
  | .unicode a b c d u h :: pieces =>
    have hleads : Run.leads (Run.addUnit u (Run.ofPieces pieces)) = true := by
      unfold Run.addUnit
      split <;> rfl
    exact hleads.symm

theorem quotedText_quoted (pieces : List Piece) (acc rest : Text) :
    quotedText acc (quoted pieces rest)
      = .ok (acc.reverse ++ (Run.ofPieces pieces).flatMap Run.joined, rest) := by
  match pieces with
  | [] =>
    rw [Run.ofPieces, List.flatMap_nil, List.append_nil]
    exact quotedText_close acc rest
  | .raw b h :: pieces =>
    have hread : quotedText acc (quoted (.raw b h :: pieces) rest)
        = quotedText (b :: acc) (quoted pieces rest) := quotedText_raw acc _ h
    rw [hread, quotedText_quoted, Run.ofPieces, List.flatMap_cons]
    simp [Run.joined]
  | .short letter b h :: pieces =>
    have hread : quotedText acc (quoted (.short letter b h :: pieces) rest)
        = quotedText (b :: acc) (quoted pieces rest) := quotedText_short acc _ h
    rw [hread, quotedText_quoted, Run.ofPieces, List.flatMap_cons]
    simp [Run.joined]
  | .unicode a b c d u h :: pieces =>
    have hread : quotedText acc (quoted (.unicode a b c d u h :: pieces) rest)
        = unitEnd quotedText acc u (quoted pieces rest) := quotedText_unicode acc _ h
    rw [hread, Run.ofPieces]
    by_cases htaken : (isHighSurrogate u && Run.leads (Run.ofPieces pieces)) = true
    · obtain ⟨hu, hleads⟩ := Bool.and_eq_true_iff.mp htaken
      match pieces with
      | [] | .raw _ _ :: _ | .short _ _ _ :: _ => cases hleads
      | .unicode a b c d v h :: pieces =>
        have hpair : unitEnd quotedText acc u (quoted (.unicode a b c d v h :: pieces) rest)
            = quotedText ((utf8Pair u v).reverse ++ acc) (quoted pieces rest) :=
          unitEnd_taken acc _ hu h
        rw [hpair, quotedText_quoted, Run.ofPieces, Run.flatMap_joined_addUnit_addUnit hu]
        simp
    · rw [Bool.not_eq_true] at htaken
      have hsingle : isHighSurrogate u = true →
          Text.startsWith (quoted pieces rest) [92, 117] = false := fun hu => by
        rwa [startsWith_quoted, ← Bool.true_and (Run.leads _), ← hu]
      rw [unitEnd_single hsingle, quotedText_quoted, Run.flatMap_joined_addUnit htaken]
      simp

/-- A written text is always read up to its closing quote; what comes of it is right exactly where
the pairs of each run are found. -/
theorem readQuoted_unicode_iff (pieces : List Piece) (rest : Text) :
    ∃ s, readQuoted (quoted pieces rest).length [] (quoted pieces rest) = .ok (s, rest) ∧
      (s = (Run.ofPieces pieces).flatMap Run.text ↔
        ∀ us, Run.units us ∈ Run.ofPieces pieces → Utf16.Aligned us) := by
  refine ⟨_, quotedText_quoted pieces [] rest, ?_⟩
  rw [List.reverse_nil, List.nil_append, Run.flatMap_joined_iff (Run.ofPieces_bounded pieces)]
  constructor
  · intro h us hus
    exact (Utf16.missed_eq_zero_iff us).mp (h _ hus)
  · intro h run hrun
    cases run with
    | byte b => rfl
    | units us => exact (Utf16.missed_eq_zero_iff us).mpr (h us hrun)

/-- First half, first half, second half. -/
def twoFirstHalves : List Piece :=
  [.unicode 'D' '8' '0' '0' 0xD800 rfl, .unicode 'D' '8' '0' '0' 0xD800 rfl,
    .unicode 'D' 'C' '0' '0' 0xDC00 rfl]

theorem twoFirstHalves_misread :
    let t := quoted twoFirstHalves []
    t = Text.ofString "\\uD800\\uD800\\uDC00\"" ∧
    readQuoted t.length [] t = .ok ([0xED, 0xA0, 0x80, 0xED, 0xA0, 0x80, 0xED, 0xB0, 0x80], []) ∧
    (Run.ofPieces twoFirstHalves).flatMap Run.text = [0xED, 0xA0, 0x80, 0xF0, 0x90, 0x80, 0x80] ∧
    readQuoted t.length [] t ≠ .ok ((Run.ofPieces twoFirstHalves).flatMap Run.text, []) := by
  have hread : readQuoted (quoted twoFirstHalves []).length [] (quoted twoFirstHalves [])
      = .ok ([0xED, 0xA0, 0x80, 0xED, 0xA0, 0x80, 0xED, 0xB0, 0x80], []) := rfl
  have htext : (Run.ofPieces twoFirstHalves).flatMap Run.text
      = [0xED, 0xA0, 0x80, 0xF0, 0x90, 0x80, 0x80] := by decide
  refine ⟨by decide, hread, htext, fun h => ?_⟩
  rw [hread, htext] at h
  cases h

end reading

end Reader
end EntityMachines
