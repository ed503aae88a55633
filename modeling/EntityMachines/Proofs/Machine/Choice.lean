import EntityMachines.Proofs.Machine.Answer

/-!
Which transition an event takes. Those for the event that leave from the present state are the
candidates; they are asked in order, and the first whose guard says yes when its turn comes is
taken. A guard that fails counts as one that says no, if it is so by policy.
-/
namespace EntityMachines

instance (t : Transition) (event state : Text) : Decidable (t.Suits event state) :=
  inferInstanceAs (Decidable (_ ∧ _))

/-- The transitions for an event that leave from a state, with their places, in order. -/
def Transition.candidates (event state : Text) (ts : List Transition) : List (Transition × Nat) :=
  ts.zipIdx.filter fun entry => entry.1.Suits event state

theorem Transition.candidates_concat (event state : Text) (ts : List Transition) (t : Transition) :
    candidates event state (ts ++ [t]) = candidates event state ts
      ++ if t.Suits event state then [(t, ts.length)] else [] := by
  unfold candidates
  rw [List.zipIdx_append, List.filter_append]
  by_cases h : t.Suits event state
  · simp [h]
  · simp [h]

theorem Transition.mem_candidates {event state : Text} {ts : List Transition} {t : Transition}
    {i : Nat} :
    (t, i) ∈ candidates event state ts ↔ ts[i]? = some t ∧ t.Suits event state := by
  unfold candidates
  rw [List.mem_filter, List.mem_zipIdx_iff_getElem?, decide_eq_true_eq]

/-- Before the only candidate there is none. -/
theorem Transition.candidates_take_of_single {event state : Text} {ts : List Transition}
    {t : Transition} {i : Nat} (hone : candidates event state ts = [(t, i)]) :
    candidates event state (ts.take i) = [] := by
  refine List.eq_nil_iff_forall_not_mem.mpr ?_
  rintro ⟨t', i'⟩ hentry
  obtain ⟨hplace, hsuits⟩ := mem_candidates.mp hentry
  rw [List.getElem?_take] at hplace
  split at hplace
  next hlt =>
    have hmem := mem_candidates.mpr ⟨hplace, hsuits⟩
    rw [hone, List.mem_singleton] at hmem
    exact Nat.ne_of_lt hlt (Prod.mk.inj hmem).2
  next => cases hplace

namespace Machine

variable {ev : Evaluator} {services : Services} {m : Instance} {ctx : Context} {event : Text}

/-- All candidates have been asked in order, and each has said no. -/
inductive Declined (ev : Evaluator) (services : Services) (m : Instance) (ctx : Context)
    (event : Text) : List (Transition × Nat) → World → World → Prop
  | nil (w : World) : Declined ev services m ctx event [] w w
  | cons {t i rest w w₁ w₂}
      (no : Says ev services m ctx (event ++ " transition " ++ Text.ofNat i) t.guard w false w₁)
      (next : Declined ev services m ctx event rest
        (w₁.counted m.handle fun s => { s with guardRejections := s.guardRejections + 1 }) w₂) :
      Declined ev services m ctx event ((t, i) :: rest) w w₂

theorem Declined.concat {candidates : List (Transition × Nat)} {t : Transition} {i : Nat}
    {w w₁ w₂ : World} (h : Declined ev services m ctx event candidates w w₁)
    (no : Says ev services m ctx (event ++ " transition " ++ Text.ofNat i) t.guard w₁ false w₂) :
    Declined ev services m ctx event (candidates ++ [(t, i)]) w
      (w₂.counted m.handle fun s => { s with guardRejections := s.guardRejections + 1 }) := by
  induction h with
  | nil => exact .cons no (.nil _)
  | cons no' _ ih => exact .cons no' (ih no)

theorem Declined.keeps {R : World → World → Prop} {H : Handlers → Prop}
    (hR : Judges R H ev services m) (hctx : H ctx.handlers)
    (hcount : Eval.Keeps R
      (count m.handle fun s => { s with guardRejections := s.guardRejections + 1 }))
    {candidates : List (Transition × Nat)} {w w' : World}
    (h : Declined ev services m ctx event candidates w w') : R w w' := by
  have hframe := hR.respects.frame
  induction h with
  | nil => exact hframe.refl _
  | @cons t i rest w w₁ w₂ no _ ih =>
    exact hframe.trans (no.keeps hR hctx) (hframe.trans (hcount w₁) ih)

/-- What becomes of an event that a machine answers by some transitions. -/
inductive Choice (ev : Evaluator) (services : Services) (m : Instance) (ctx : Context)
    (event : Text) (ts : List Transition) (w : World) :
    EStateM.Result Fault World Dispatched → Prop
  /-- No transition is for the event. -/
  | unmatched {log} (unsuited : Transition.candidates event m.state ts = []) :
      Choice ev services m ctx event ts w (.ok ⟨m.state, m.state, none, false, 0⟩
        { w.counted m.handle (fun s => { s with unmatchedEvents := s.unmatchedEvents + 1 }) with
          log })
  /-- All that are for the event are denied, and no effect runs. -/
  | rejected {w₁} (suited : Transition.candidates event m.state ts ≠ [])
      (declined : Declined ev services m ctx event (Transition.candidates event m.state ts) w w₁) :
      Choice ev services m ctx event ts w (.ok ⟨m.state, m.state, none, true, 0⟩ w₁)
  /-- The first that is not denied is taken. -/
  | taken {i t w₁ w₂ w₃ log} (ht : ts[i]? = some t) (suits : t.Suits event m.state)
      (before : Declined ev services m ctx event
        (Transition.candidates event m.state (ts.take i)) w w₁)
      (yes : Says ev services m ctx (event ++ " transition " ++ Text.ofNat i) t.guard w₁ true w₂)
      (effects : runEffects ev services m { ctx with handlers := m.handlers services }
        (event ++ " transition " ++ Text.ofNat i) 0 t.effects w₂ = .ok t.effects.length w₃) :
      Choice ev services m ctx event ts w
        (.ok ⟨m.state, t.target.getD m.state, some i,
            !(Transition.candidates event m.state (ts.take i)).isEmpty, t.effects.length⟩
          { w₃.mapMachine m.handle (fun m' => m'.moved (t.target.getD m.state)) with log })
  /-- One of its effects fails. -/
  | effectFails {i t w₁ w₂ fault w₃} (ht : ts[i]? = some t) (suits : t.Suits event m.state)
      (before : Declined ev services m ctx event
        (Transition.candidates event m.state (ts.take i)) w w₁)
      (yes : Says ev services m ctx (event ++ " transition " ++ Text.ofNat i) t.guard w₁ true w₂)
      (fails : runEffects ev services m { ctx with handlers := m.handlers services }
        (event ++ " transition " ++ Text.ofNat i) 0 t.effects w₂ = .error fault w₃) :
      Choice ev services m ctx event ts w (.error fault w₃)
  /-- A guard fails and is no answer. -/
  | guardFails {i t w₁ fault w₂} (ht : ts[i]? = some t) (suits : t.Suits event m.state)
      (before : Declined ev services m ctx event
        (Transition.candidates event m.state (ts.take i)) w w₁)
      (fails : FailsToSay ev services m ctx t.guard w₁ fault w₂) :
      Choice ev services m ctx event ts w (.error fault w₂)

theorem runEffects_count {place : Text} {effects : List Value} {ran n : Nat} {w w' : World}
    (h : runEffects ev services m ctx place ran effects w = .ok n w') :
    n = ran + effects.length := by
  induction effects generalizing ran w with
  | nil =>
    cases h
    rfl
  | cons effect rest ih =>
    unfold runEffects at h
    obtain ⟨outcome, w₁, -, h⟩ := Eval.bind_ok h
    cases outcome with
    | ok v =>
      have hn := ih h
      rw [List.length_cons]
      omega
    | error e =>
      obtain ⟨log, hnote⟩ := note_ok services m .error "behavior"
        (place ++ ": effect " ++ Text.ofNat (ran + 1) ++ " failed: " ++ e.message) w₁
      obtain ⟨_, w₂, hok, h⟩ := Eval.bind_ok h
      cases h

/-- A transition that may be taken is taken, unless one of its effects fails. -/
theorem take_choice {ts : List Transition} {i : Nat} {t : Transition} {w w₁ w₂ : World}
    (ht : ts[i]? = some t) (suits : t.Suits event m.state)
    (before : Declined ev services m ctx event (Transition.candidates event m.state (ts.take i))
      w w₁)
    (yes : Says ev services m ctx (event ++ " transition " ++ Text.ofNat i) t.guard w₁ true w₂) :
    Choice ev services m ctx event ts w (take ev services m ctx event i t
      (!(Transition.candidates event m.state (ts.take i)).isEmpty) w₂) := by
  rcases take_cases ev services m ctx event i t
    (!(Transition.candidates event m.state (ts.take i)).isEmpty) w₂ with
    ⟨fault, w₃, hran, htaken⟩ | ⟨ran, w₃, log, hran, htaken⟩
  · rw [htaken]
    exact .effectFails ht suits before yes hran
  · obtain rfl : ran = t.effects.length := by simpa using runEffects_count hran
    rw [htaken]
    exact .taken ht suits before yes hran

/-- No transition is left to be tried. -/
theorem untaken_choice {ts : List Transition} {w w₁ : World}
    (h : Declined ev services m ctx event (Transition.candidates event m.state ts) w w₁) :
    Choice ev services m ctx event ts w (tryTransitions ev services m ctx event
      (!(Transition.candidates event m.state ts).isEmpty) ts.length [] w₁) := by
  cases hts : Transition.candidates event m.state ts with
  | nil =>
    rw [hts] at h
    cases h
    obtain ⟨log, hnote⟩ := note_ok services m .debug "behavior"
      (event ++ ": no transition from " ++ m.state)
      (w.counted m.handle fun s => { s with unmatchedEvents := s.unmatchedEvents + 1 })
    have hlast : tryTransitions ev services m ctx event false ts.length [] w
        = .ok ⟨m.state, m.state, none, false, 0⟩
          { w.counted m.handle (fun s => { s with unmatchedEvents := s.unmatchedEvents + 1 })
            with log } := Eval.bind_of_ok hnote
    exact hlast ▸ .unmatched hts
  | cons entry rest =>
    exact .rejected (by simp [hts]) h

/-- By induction on the transitions that are still to be tried. Those before them that were for the
event have been denied. -/
theorem tryTransitions_choice {w w₁ : World} (ts before : List Transition)
    (h : Declined ev services m ctx event (Transition.candidates event m.state before) w w₁) :
    Choice ev services m ctx event (before ++ ts) w
      (tryTransitions ev services m ctx event
        (!(Transition.candidates event m.state before).isEmpty) before.length ts w₁) := by
  induction ts generalizing before w₁ with
  | nil =>
    rw [List.append_nil]
    exact untaken_choice h
  | cons t rest ih =>
    have hall : before ++ t :: rest = before ++ [t] ++ rest := by simp
    have hlength : (before ++ [t]).length = before.length + 1 := by simp
    have hplace : (before ++ t :: rest)[before.length]? = some t := by simp
    have htake : (before ++ t :: rest).take before.length = before := by simp
    unfold tryTransitions
    split
    next hskip =>
      have hunsuited : ¬t.Suits event m.state := by
        rintro ⟨hevent, hstate⟩
        simp [hevent, hstate] at hskip
      have hcandidates : Transition.candidates event m.state (before ++ [t])
          = Transition.candidates event m.state before := by
        rw [Transition.candidates_concat, if_neg hunsuited, List.append_nil]
      have hrest := ih (before ++ [t]) (by rwa [hcandidates])
      rwa [← hall, hcandidates, hlength] at hrest
    next happlies =>
      have hsuits : t.Suits event m.state := by simpa [Transition.Suits] using happlies
      cases hasked : permits ev services m t.guard ctx
          (event ++ " transition " ++ Text.ofNat before.length) w₁ with
      | error fault w₂ =>
        rw [Eval.bind_of_error hasked]
        exact .guardFails hplace hsuits (by rwa [htake]) (permits_error hasked)
      | ok permitted w₂ =>
        rw [Eval.bind_of_ok hasked]
        cases permitted with
        | true =>
          rw [if_pos rfl]
          have hchoice := take_choice hplace hsuits (by rwa [htake]) (permits_ok hasked)
          rwa [htake] at hchoice
        | false =>
          rw [if_neg (by simp)]
          have hcandidates : Transition.candidates event m.state (before ++ [t])
              = Transition.candidates event m.state before ++ [(t, before.length)] := by
            rw [Transition.candidates_concat, if_pos hsuits]
          have hdeclined := h.concat (permits_ok hasked)
          have hrest := ih (before ++ [t]) (by rwa [hcandidates])
          have hsome : (!(Transition.candidates event m.state (before ++ [t])).isEmpty) = true := by
            simp [hcandidates]
          rwa [← hall, hsome, hlength] at hrest

theorem process_choice {w : World} {handle : Nat} (hm : w.machine? handle = some m)
    (payload : Value) :
    Choice ev services m (m.context payload w.clock) event m.definition.transitions
      ((w.recorded services m (.processed ⟨event, payload⟩)).counted m.handle
        fun s => { s with events := s.events + 1 })
      (process ev services handle event payload w) := by
  rw [process_eq hm]
  exact tryTransitions_choice m.definition.transitions [] (.nil _)

end Machine
end EntityMachines
