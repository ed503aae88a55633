import EntityMachines.Proofs.Evaluation.Reads
import EntityMachines.Library.Async

/-!
Attempts that are repeated. Each one is made in the world that the failed one before it has left,
where only the log is longer and time has passed. Main statement: an effect is evaluated until it
comes to a value or has failed as often as the options allow, and then its value or its last error
is the answer.
-/
namespace EntityMachines

namespace Eval

/-- A pause ends before the computation would be given up. -/
def Fits (w : World) (ms : Nat) : Prop := ∀ limit, w.deadline = some limit → w.elapsed + ms ≤ limit

theorem wait_of_fits {w : World} {ms : Nat} (h : Fits w ms) :
    wait ms w = .ok () { w with elapsed := w.elapsed + ms } := by
  have hget : (get : Eval World) w = .ok w w := rfl
  unfold wait
  rw [bind_of_ok hget]
  cases hdeadline : w.deadline with
  | none => rfl
  | some limit =>
    dsimp only
    rw [if_neg (Nat.not_lt.mpr (h limit hdeadline))]
    rfl

end Eval

namespace Library.Async

/-- The whole part of the number of attempts that the options ask for. -/
def planned (options : Value) : Int :=
  Double.toInt (option options "attempts" (.number 3.0)).toNumber

/-- The pause behind each failed attempt but the last. -/
def pauseOf (options : Value) (i : Nat) : Nat :=
  millis (pause (option options "backoff" (.string "exponential")).display
    (option options "baseDelay" (.number 1000.0)).toNumber i)

def failureText (i : Nat) (e : Error) : Text :=
  "async/retry: attempt " ++ Text.ofNat (i + 1) ++ " failed: " ++ e.message

/-- The log tells of a failed attempt. -/
def logged (w : World) (i : Nat) (e : Error) : World :=
  { w with timing := w.timing.write .debug "async" (failureText i e) }

/-- So many attempts have failed one after the other with errors that have a message. The next one
is made in the last of the worlds. -/
inductive Fails (x : Eval Value) (pauses : Nat → Nat) (start : World) : Nat → World → Prop
  | none : Fails x pauses start 0 start
  | another {i : Nat} {w later : World} {e : Error} (before : Fails x pauses start i w)
      (failure : x w = .error (.raised e) later) (named : e ≠ .unnamed)
      (fits : Eval.Fits later (pauses i)) :
      Fails x pauses start (i + 1)
        { logged later i e with elapsed := later.elapsed + pauses i }

/-- A number that goes up by one with every evaluation and does not look at log and time. -/
structure Tallies (x : Eval Value) (meter : World → Nat) : Prop where
  evaluation : ∀ w, meter (x.after w) = meter w + 1
  log : ∀ w timing elapsed, meter { w with timing, elapsed } = meter w

section course

variable {x : Eval Value} {pauses : Nat → Nat} {start w : World} {k : Nat}

theorem Tallies.fails {meter : World → Nat} (h : Tallies x meter)
    (hfails : Fails x pauses start k w) : meter w = meter start + k := by
  induction hfails with
  | none => rfl
  | @another i w later e _ hfailure _ _ ih =>
    have hafter := h.evaluation w
    rw [Eval.after_error hfailure, ih] at hafter
    have hlog := h.log later (logged later i e).timing (later.elapsed + pauses i)
    exact hlog.trans hafter

/-- What a failed attempt has left is there in the next one. -/
theorem Fails.seen (h : Fails x pauses start (k + 1) w) : ∃ before, Fails x pauses start k before ∧
    w = { x.after before with timing := w.timing, elapsed := w.elapsed } := by
  cases h with
  | another before hfailure =>
    refine ⟨_, before, ?_⟩
    rw [Eval.after_error hfailure]
    rfl

end course

section attempts

variable {ev : Evaluator} {ctx : Context} {effect options : Value} {start w later : World}
  {k n : Nat}

/-- Evaluation of the effect, with so many attempts left after so many. -/
abbrev attemptsOf (ev : Evaluator) (ctx : Context) (effect options : Value) (left i : Nat)
    (last : Option Error) : Eval Value :=
  attempts ev ctx effect (option options "backoff" (.string "exponential")).display
    (option options "baseDelay" (.number 1000.0)).toNumber left i last

theorem attemptsOf_ok {last : Option Error} {left i : Nat} {v : Value}
    (h : ev.evaluate effect ctx w = .ok v later) :
    attemptsOf ev ctx effect options (left + 1) i last w = .ok v later :=
  Eval.bind_of_ok (Eval.attempt_of_ok h)

theorem attemptsOf_more {last : Option Error} {left i : Nat} {e : Error}
    (h : ev.evaluate effect ctx w = .error (.raised e) later) (he : e ≠ .unnamed)
    (hfits : Eval.Fits later (pauseOf options i)) :
    attemptsOf ev ctx effect options (left + 1 + 1) i last w
      = attemptsOf ev ctx effect options (left + 1) (i + 1) (some e)
        { logged later i e with elapsed := later.elapsed + pauseOf options i } := by
  have hfailed : attemptsOf ev ctx effect options (left + 1 + 1) i last w
      = (Eval.wait (pauseOf options i) >>= fun _ =>
          attemptsOf ev ctx effect options (left + 1) (i + 1) (some e)) (logged later i e) :=
    Eval.bind_of_ok (Eval.attempt_of_raised h he)
  have hwait : Eval.wait (pauseOf options i) (logged later i e) = _ := Eval.wait_of_fits hfits
  rw [hfailed, Eval.bind_of_ok hwait]
  rfl

theorem attemptsOf_last {last : Option Error} {i : Nat} {e : Error}
    (h : ev.evaluate effect ctx w = .error (.raised e) later) (he : e ≠ .unnamed) :
    attemptsOf ev ctx effect options (0 + 1) i last w = .error (.raised e) (logged later i e) :=
  Eval.bind_of_ok (Eval.attempt_of_raised h he)

/-- Failed attempts use up as many of those that are left. -/
theorem attemptsOf_fails (h : Fails (ev.evaluate effect ctx) (pauseOf options) start k w)
    (hk : k < n) : ∃ last, attemptsOf ev ctx effect options n 0 none start
      = attemptsOf ev ctx effect options (n - k) k last w := by
  induction h with
  | none => exact ⟨none, rfl⟩
  | @another i w later e _ hfailure hnamed hfits ih =>
    obtain ⟨last, hstart⟩ := ih (by omega)
    obtain ⟨left, hleft⟩ : ∃ left, n - i = left + 1 + 1 := ⟨n - i - 2, by omega⟩
    have hrest : n - (i + 1) = left + 1 := by omega
    refine ⟨some e, hstart.trans ?_⟩
    rw [hleft, hrest, attemptsOf_more hfailure hnamed hfits]

theorem attemptsOf_succeeds {v : Value}
    (h : Fails (ev.evaluate effect ctx) (pauseOf options) start k w) (hk : k < n)
    (hv : ev.evaluate effect ctx w = .ok v later) :
    attemptsOf ev ctx effect options n 0 none start = .ok v later := by
  obtain ⟨last, hstart⟩ := attemptsOf_fails h hk
  obtain ⟨left, hleft⟩ : ∃ left, n - k = left + 1 := ⟨n - k - 1, by omega⟩
  rw [hstart, hleft]
  exact attemptsOf_ok hv

theorem attemptsOf_gives_up {e : Error}
    (h : Fails (ev.evaluate effect ctx) (pauseOf options) start k w) (hk : k + 1 = n)
    (he : ev.evaluate effect ctx w = .error (.raised e) later) (hnamed : e ≠ .unnamed) :
    attemptsOf ev ctx effect options n 0 none start = .error (.raised e) (logged later k e) := by
  obtain ⟨last, hstart⟩ := attemptsOf_fails h (by omega : k < n)
  have hleft : n - k = 0 + 1 := by omega
  rw [hstart, hleft, attemptsOf_last he hnamed]

end attempts

/-- Attempts go on until one succeeds or there have been as many as allowed, as long as failures
have messages and pauses are not cut off. -/
theorem exists_course (x : Eval Value) (pauses : Nat → Nat) (start : World) {n : Nat} (hn : 0 < n)
    (h : ∀ k w, Fails x pauses start k w → k < n → (∃ v later, x w = .ok v later) ∨
      ∃ e later, x w = .error (.raised e) later ∧ e ≠ .unnamed ∧ Eval.Fits later (pauses k)) :
    (∃ k w v later, Fails x pauses start k w ∧ k < n ∧ x w = .ok v later) ∨
      ∃ k w e later, Fails x pauses start k w ∧ k + 1 = n ∧ x w = .error (.raised e) later ∧
        e ≠ .unnamed := by
  by_contra hnone
  rw [not_or] at hnone
  obtain ⟨hfailing, hmore⟩ := hnone
  have hall : ∀ k < n, ∃ w, Fails x pauses start k w := by
    intro k hk
    induction k with
    | zero => exact ⟨start, .none⟩
    | succ k ih =>
      obtain ⟨w, hw⟩ := ih (by omega)
      rcases h k w hw (by omega) with ⟨v, later, hv⟩ | ⟨e, later, he, hnamed, hfits⟩
      · exact absurd ⟨k, w, v, later, hw, by omega, hv⟩ hfailing
      · exact ⟨_, .another hw he hnamed hfits⟩
  obtain ⟨w, hw⟩ := hall (n - 1) (by omega)
  rcases h (n - 1) w hw (by omega) with ⟨v, later, hv⟩ | ⟨e, later, he, hnamed, -⟩
  · exact hfailing ⟨n - 1, w, v, later, hw, by omega, hv⟩
  · exact hmore ⟨n - 1, w, e, later, hw, by omega, he, hnamed⟩

theorem retry_eq {ev : Evaluator} {ctx : Context} {effect options : Value} {rest : List Value}
    {w start : World}
    (hoptions : Operator.optional ev ctx (effect :: rest) 1 w = .ok options start) :
    retry ev ctx (effect :: rest) w
      = attemptsOf ev ctx effect options (planned options).toNat 0 none start :=
  Eval.bind_of_ok hoptions

theorem evaluate_retry (m : Nat) (ctx : Context) (args : List Value) :
    (Evaluator.withFuel standard (m + 1)).evaluate (Expr.call "async/retry" args) ctx
      = retry (Evaluator.withFuel standard m) ctx args :=
  Evaluator.evaluate_call (operator?_of_place 163 rfl) args ctx

/-- A service that fails twice before it answers. -/
def flaky : World where
  respond calls := if calls.length < 3 then .error (.outside "transient") else .ok (.string "ok")

def client : Context := { handlers := { callService := some "host" } }

def fetch : Value := Expr.call "call-service" [.string "api", .string "get"]

def thrice : Value := .map [("attempts", 3), ("backoff", .string "fixed"), ("baseDelay", 10)]

theorem evaluate_fetch (w : World) :
    (Evaluator.withFuel standard 2).evaluate fetch client w
      = Eval.call "host" (.callService "api" "get" .undefined) w :=
  congrFun (Evaluator.evaluate_core (.effect .callService) [.string "api", .string "get"] client) w

theorem tallies_fetch :
    Tallies ((Evaluator.withFuel standard 2).evaluate fetch client) (·.calls.length) where
  evaluation w := by
    rw [Eval.after_congr (evaluate_fetch w)]
    let called : World :=
      { w with calls := ⟨"host", .callService "api" "get" .undefined⟩ :: w.calls }
    have hcall : Eval.call "host" (.callService "api" "get" .undefined) w
        = Eval.ofExcept (w.respond called.calls) called := rfl
    rw [Eval.after_congr hcall]
    cases w.respond called.calls <;> rfl
  log _ _ _ := rfl

end Library.Async
end EntityMachines
