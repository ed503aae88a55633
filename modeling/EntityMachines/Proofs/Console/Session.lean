import EntityMachines.Console
import EntityMachines.Proofs.Document.WellFormed
import EntityMachines.Proofs.Reader.Sequence

/-!
A session that is given the lines of a script. It shows what the script shows, wherever the lines
end: what can be read of them is evaluated, and the rest waits for the next line.
-/
namespace EntityMachines
namespace Console

/-! The lines of a text. -/

theorem flatMap_splitByte (t : Text) : (Text.splitByte 10 t).flatMap endLine = endLine t := by
  induction t with
  | nil => rfl
  | cons b rest ih =>
    obtain ⟨part, parts, hrest, hsplit⟩ := Text.splitByte_cons 10 b rest
    rw [hrest, List.flatMap_cons] at ih
    rw [hsplit]
    split
    next hline =>
      rw [beq_iff_eq.mp hline, List.flatMap_cons, List.flatMap_cons, ih]
      rfl
    next =>
      rw [List.flatMap_cons]
      exact congrArg (b :: ·) ih

/-- The lines hold the whole text; only its end may have been missing from the last one. -/
theorem flatMap_lines (t : Text) :
    (lines t).flatMap endLine = t ∨ (lines t).flatMap endLine = endLine t := by
  have hwhole := flatMap_splitByte t
  rw [← List.reverse_reverse (Text.splitByte 10 t)] at hwhole
  unfold lines
  cases hsplit : (Text.splitByte 10 t).reverse with
  | nil =>
    rw [hsplit] at hwhole
    exact .inr hwhole
  | cons last others =>
    rw [hsplit] at hwhole
    dsimp only
    split
    next hempty =>
      refine .inl ?_
      rw [List.isEmpty_iff.mp hempty, List.reverse_cons, List.flatMap_append] at hwhole
      exact List.append_cancel_right hwhole
    next => exact .inr hwhole

/-- The end of the last line does not matter. -/
theorem all_lines {t : Text} {vs : List Value} (h : Reader.all t = .ok vs) :
    Reader.all ((lines t).flatMap endLine) = .ok vs := by
  rcases flatMap_lines t with hlines | hlines
  · rw [hlines, h]
  · rw [hlines]
    refine (Reader.all_append h (.inr (Reader.quiet_line []))).trans ?_
    rw [Reader.all_blank rfl]
    simp [Except.map]

/-- A command is not the beginning of a script. -/
theorem command_unreadable {line s : Text} (h : line ∈ quitCommands ∨ line = catalogueCommand) :
    ∃ failure, Reader.all (line ++ s) = .error failure := by
  have hcolon : ∃ rest, line = 58 :: rest := by
    simp only [quitCommands, List.map_cons, List.map_nil, List.mem_cons, List.not_mem_nil, or_false]
      at h
    rcases h with (rfl | rfl | rfl) | rfl
    · exact ⟨[113], by decide⟩
    · exact ⟨Text.ofString "quit", by decide⟩
    · exact ⟨Text.ofString "exit", by decide⟩
    · exact ⟨Text.ofString "behaviors", by decide⟩
  obtain ⟨rest, rfl⟩ := hcolon
  have hvalue : Reader.value (58 :: rest ++ s)
      = .error ⟨.unexpectedByte 58, (58 :: rest ++ s).length⟩ := by
    rw [Reader.value_eq]
    rfl
  exact ⟨_, Reader.all_error (List.cons_ne_nil 58 (rest ++ s)) hvalue⟩

/-! Evaluation of expressions one part after another. -/

section evaluate

variable {ev : Evaluator} {now : Int}

theorem evaluate_ok {out : Text} {e v : Value} {rest : List Value} {w after : World}
    (h : ev.evaluate e (context now) { w with elapsed := 0, deadline := none } = .ok v after) :
    evaluate ev now out (e :: rest) w
      = evaluate ev now (out ++ echoes w after ++ endLine v.print) rest after := by
  rw [evaluate, h]

theorem evaluate_error {out : Text} {e : Value} {fault : Fault} {rest : List Value}
    {w after : World}
    (h : ev.evaluate e (context now) { w with elapsed := 0, deadline := none }
      = .error fault after) :
    evaluate ev now out (e :: rest) w = (out ++ echoes w after, some fault, after) := by
  rw [evaluate, h]

/-- What was shown before only stands in front. -/
theorem evaluate_out (out : Text) (es : List Value) (w : World) : evaluate ev now out es w
    = (out ++ (evaluate ev now [] es w).1, (evaluate ev now [] es w).2) := by
  induction es generalizing out w with
  | nil => simp [evaluate]
  | cons e rest ih =>
    cases hr : ev.evaluate e (context now) { w with elapsed := 0, deadline := none } with
    | ok v after =>
      rw [evaluate_ok hr, evaluate_ok hr, ih, ih ([] ++ _ ++ _)]
      simp
    | error fault after =>
      rw [evaluate_error hr, evaluate_error hr]
      simp

/-- Expressions that do not fail may be evaluated in two parts. -/
theorem evaluate_append {out : Text} {es es' : List Value} {w after : World}
    (h : evaluate ev now [] (es ++ es') w = (out, none, after)) :
    ∃ first middle second, evaluate ev now [] es w = (first, none, middle) ∧
      evaluate ev now [] es' middle = (second, none, after) ∧ out = first ++ second := by
  induction es generalizing out w with
  | nil => exact ⟨[], w, out, rfl, h, rfl⟩
  | cons e rest ih =>
    cases hr : ev.evaluate e (context now) { w with elapsed := 0, deadline := none } with
    | ok v next =>
      rw [List.cons_append, evaluate_ok hr, evaluate_out] at h
      cases hlater : evaluate ev now [] (rest ++ es') next with
      | mk later outcome =>
        rw [hlater] at h
        cases h
        obtain ⟨first, middle, second, hfirst, hsecond, rfl⟩ := ih hlater
        refine ⟨[] ++ echoes w next ++ endLine v.print ++ first, middle, second, ?_, hsecond, ?_⟩
        · rw [evaluate_ok hr, evaluate_out, hfirst]
        · rw [List.append_assoc _ first second]
    | error fault next =>
      rw [List.cons_append, evaluate_error hr] at h
      cases h

end evaluate

/-! A session turn by turn. -/

/-- What asks for a line, and what is shown for it. -/
structure Turn where
  prompt : Text
  reply : Shown

def Turn.out (turn : Turn) : Text := turn.prompt ++ turn.reply.out

section session

variable (ev : Evaluator) (now : Int)

def turns (c : Console) : List Text → List Turn
  | [] => []
  | line :: rest =>
    match takeLine ev now c line with
    | (reply, none) => [⟨c.prompt, reply⟩]
    | (reply, some next) => ⟨c.prompt, reply⟩ :: turns next rest

/-- The session behind its last line, if no line has ended it. -/
def left (c : Console) : List Text → Option Console
  | [] => some c
  | line :: rest =>
    match takeLine ev now c line with
    | (_, none) => none
    | (_, some next) => left next rest

def closing : Option Console → Text
  | none => []
  | some c => c.prompt ++ atEnd

theorem session_eq (shown : Shown) (c : Console) (lines : List Text) :
    session ev now shown c lines
      = ⟨shown.out ++ (turns ev now c lines).flatMap Turn.out ++ closing (left ev now c lines),
        shown.err ++ (turns ev now c lines).flatMap (·.reply.err)⟩ := by
  induction lines generalizing shown c with
  | nil => simp [session, turns, left, closing]
  | cons line rest ih =>
    unfold session turns left
    cases takeLine ev now c line with
    | mk reply next =>
      cases next with
      | none => simp [closing, Turn.out]
      | some next => simp [ih, Turn.out]

end session

section turn

variable {ev : Evaluator} {now : Int} {c : Console} {line : Text}

/-- A line is text, and no command, behind others that wait and where it is none of them. -/
def IsText (c : Console) (line : Text) : Prop :=
  c.buffer = [] → line ∉ quitCommands ∧ line ≠ catalogueCommand

theorem isText_of_read {s : Text} {vs : List Value}
    (h : Reader.all (c.buffer ++ (endLine line ++ s)) = .ok vs) : IsText c line := by
  intro hbuffer
  rw [hbuffer, List.nil_append, endLine, List.append_assoc] at h
  rw [← not_or]
  intro hcommand
  obtain ⟨failure, hfails⟩ := command_unreadable (s := ([10] : Text) ++ s) hcommand
  cases hfails.symm.trans h

theorem IsText.not_command (h : IsText c line) :
    ¬(c.buffer.isEmpty && quitCommands.contains line) = true ∧
      ¬(c.buffer.isEmpty && line == catalogueCommand) = true := by
  simp only [Bool.and_eq_true, List.isEmpty_iff, List.contains_iff_mem, beq_iff_eq, not_and]
  exact ⟨fun hempty => (h hempty).1, fun hempty => (h hempty).2⟩

theorem takeLine_waits (htext : IsText c line) {failure : ReadFailure}
    (h : Reader.all (c.buffer ++ endLine line) = .error failure)
    (hincomplete : failure.fault.isIncomplete = true) :
    takeLine ev now c line = ({}, some { c with buffer := c.buffer ++ endLine line }) := by
  have hread : Value.readAll (c.buffer ++ endLine line) = .error (Reader.locate _ failure) :=
    Value.readAll_eq_error.mpr ⟨failure, h, rfl⟩
  unfold takeLine
  rw [if_neg htext.not_command.1, if_neg htext.not_command.2]
  dsimp only
  rw [hread]
  exact if_pos hincomplete

theorem takeLine_shows (htext : IsText c line) {exprs : List Value} {out : Text} {world : World}
    (h : Reader.all (c.buffer ++ endLine line) = .ok exprs)
    (heval : evaluate ev now [] exprs c.world = (out, none, world)) :
    takeLine ev now c line = ({ out }, some { world, buffer := [] }) := by
  unfold takeLine
  rw [if_neg htext.not_command.1, if_neg htext.not_command.2]
  dsimp only
  rw [Value.readAll_eq_ok.mpr h]
  dsimp only
  rw [heval]

/-- By induction over the lines. What waits could not be read yet, and together with the lines to
come it can. -/
theorem turns_of_readable {lines : List Text} {exprs : List Value} {out : Text} {world : World}
    (hwaits : c.buffer = [] ∨ ∃ failure, Reader.all c.buffer = .error failure)
    (hread : Reader.all (c.buffer ++ lines.flatMap endLine) = .ok exprs)
    (heval : evaluate ev now [] exprs c.world = (out, none, world)) :
    left ev now c lines = some { world, buffer := [] } ∧
      (turns ev now c lines).flatMap (·.reply.out) = out ∧
      (turns ev now c lines).flatMap (·.reply.err) = [] := by
  induction lines generalizing c exprs out with
  | nil =>
    rw [List.flatMap_nil, List.append_nil] at hread
    obtain hbuffer | ⟨failure, hfails⟩ := hwaits
    · rw [hbuffer, Reader.all_blank rfl] at hread
      cases hread
      cases heval
      exact ⟨by rw [left, ← hbuffer], rfl, rfl⟩
    · cases hfails.symm.trans hread
  | cons line rest ih =>
    rw [List.flatMap_cons] at hread
    have htext : IsText c line := isText_of_read hread
    rw [← List.append_assoc] at hread
    have hend : (c.buffer ++ endLine line).getLast? = some 10 := by simp [endLine]
    unfold left turns
    obtain ⟨us, ws, hus, hws, rfl⟩ | ⟨failure, hfails, hincomplete⟩ := Reader.all_cut hread hend
    · obtain ⟨first, middle, second, hfirst, hsecond, rfl⟩ := evaluate_append heval
      rw [takeLine_shows htext hus hfirst]
      obtain ⟨hleft, hout, herr⟩ := ih (c := ⟨middle, []⟩) (.inl rfl) hws hsecond
      exact ⟨hleft, by rw [List.flatMap_cons, hout], by rw [List.flatMap_cons, herr]; rfl⟩
    · rw [takeLine_waits htext hfails hincomplete]
      obtain ⟨hleft, hout, herr⟩ := ih (c := { c with buffer := c.buffer ++ endLine line })
        (.inr ⟨failure, hfails⟩) hread heval
      exact ⟨hleft, by rw [List.flatMap_cons, hout]; rfl, by rw [List.flatMap_cons, herr]; rfl⟩

end turn

/-- A script whose expressions can be read and do not fail, and its lines in a session. Apart from
what asks for the lines the two show the same, and they end in the same state. -/
theorem session_shows_script {ev : Evaluator} {now : Int} {source : Text} {exprs : List Value}
    {out : Text} {world : World} (hread : Value.readAll source = .ok exprs)
    (heval : evaluate ev now [] exprs start = (out, none, world)) :
    script ev now source = ({ out }, true) ∧
      session ev now {} {} (lines source)
        = { out := (turns ev now {} (lines source)).flatMap Turn.out
              ++ prompt { world, buffer := [] } ++ atEnd } ∧
      (turns ev now {} (lines source)).flatMap (·.reply.out) = out ∧
      left ev now {} (lines source) = some { world, buffer := [] } := by
  have hlines := all_lines (Value.readAll_eq_ok.mp hread)
  obtain ⟨hleft, hout, herr⟩ := turns_of_readable (c := {}) (.inl rfl) hlines heval
  refine ⟨?_, ?_, hout, hleft⟩
  · unfold script
    rw [hread]
    dsimp only
    rw [heval]
  · rw [session_eq, hleft, herr]
    simp [closing]

/-- An array and a text in it that go on over the lines; one of these reads as a command. -/
def interrupted : Text := Text.ofString "[\"notify\",\n\"a\n:q\n\"] true"

def interruption : List Value :=
  [.array [.string (Text.ofString "notify"), .string (Text.ofString "a\n:q\n")], .bool true]

/-- Levels enough for a call with no others in it. -/
def shallow : Evaluator := .withFuel Library.standard 2

theorem interrupted_shown :
    Value.readAll interrupted = .ok interruption ∧
      ∃ out world, evaluate shallow 0 [] interruption start = (out, none, world) ∧
        out = Text.ofString "; notify [info] a\n:q\n\nundefined\ntrue\n" ∧
        script shallow 0 interrupted = ({ out }, true) ∧
        session shallow 0 {} {} (lines interrupted)
          = { out := (turns shallow 0 {} (lines interrupted)).flatMap Turn.out
                ++ prompt { world, buffer := [] } ++ atEnd } ∧
        (turns shallow 0 {} (lines interrupted)).flatMap (·.reply.out) = out ∧
        left shallow 0 {} (lines interrupted) = some { world, buffer := [] } := by
  have htext : interrupted = [91, 34, 110, 111, 116, 105, 102, 121, 34, 44, 10, 34, 97, 10, 58, 113,
      10, 34, 93, 32, 116, 114, 117, 101] := by decide
  have hread : Value.readAll interrupted = .ok interruption := by
    rw [htext]
    rfl
  have hout : (evaluate shallow 0 [] interruption start).1
      = Text.ofString "; notify [info] a\n:q\n\nundefined\ntrue\n" := by decide +kernel
  have hnone : (evaluate shallow 0 [] interruption start).2.1 = none := by rfl
  obtain ⟨⟨out, fault, world⟩, heval⟩ : ∃ r, evaluate shallow 0 [] interruption start = r :=
    ⟨_, rfl⟩
  rw [heval] at hout hnone
  obtain rfl : fault = none := hnone
  exact ⟨hread, out, world, heval, hout, session_shows_script hread heval⟩

end Console
end EntityMachines
