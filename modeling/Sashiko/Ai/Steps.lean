import Sashiko.Ai.Session

/-! What one pass of the session loop can do. The four back edges of the loop are listed
once; every invariant of a run is derived from that list. -/

namespace Sashiko

variable {σ T π : Type} {R : SessionRunner} {L : LlmSession σ T} {P : Provider π}

/-- The state after an answer that sends the loop round again. -/
inductive Again (R : SessionRunner) (L : LlmSession σ T) (s : RunState σ) (sent : AiRequest) :
    Except AnyhowError AiResponse → RunState σ → Prop
  | transient (e : AnyhowError) (hclass : e.classifyAiError ≠ .fatal)
      (hle : satAdd usizeMax s.transientRetries 1 ≤ R.maxTransientRetries) :
      Again R L s sent (.error e)
        (RunState.giveTurnBack
          { s with transientRetries := satAdd usizeMax s.transientRetries 1 })
  | feedback (e : AnyhowError) (feedback : String) (session : σ)
      (hclass : e.classifyAiError = .fatal)
      (hhook : L.handleProviderError s.session e s.providerErrorRetries
        ((sent.tools.map (!·.isEmpty)).getD false) = (.retryWithFeedback feedback, session))
      (hle : satAdd usizeMax s.providerErrorRetries 1 ≤ R.maxProviderErrorRetries) :
      Again R L s sent (.error e)
        (RunState.giveTurnBack (RunState.push
          { s with
            session := session
            providerErrorRetries := satAdd usizeMax s.providerErrorRetries 1 }
          [userMessage feedback]))
  | toolRound (resp : AiResponse) (results : List (String × Json)) (session : σ)
      (htrunc : resp.truncated = false) (hcalls : resp.calls ≠ []) (hturn : s.turns ≠ R.maxTurns)
      (hrun : L.callTools s.session resp.calls = (.ok results, session)) :
      Again R L s sent (.ok resp)
        (RunState.push
          { (s.countUsage resp.usage).push [assistantMessage resp] with session := session }
          (results.map toolMessage))
  | rejected (resp : AiResponse) (violation : String) (session : σ)
      (htrunc : resp.truncated = false) (hfinal : resp.calls = [] ∨ s.turns = R.maxTurns)
      (hreject : L.validate s.session resp = (.error (.formatViolation violation), session))
      (hlt : s.validationAttempts + 1 < R.maxValidationAttempts) :
      Again R L s sent (.ok resp)
        (RunState.giveTurnBack (RunState.push
          { (s.countUsage resp.usage).push [assistantMessage resp] with
            session := session
            rejected := (s.countUsage resp.usage).rejected ++ [sent]
            validationAttempts := (s.countUsage resp.usage).validationAttempts + 1 }
          [userMessage (L.formatValidationFeedback session violation)]))

theorem again_of_afterTransient {s s' : RunState σ} {sent : AiRequest} {e : AnyhowError}
    (hclass : e.classifyAiError ≠ .fatal)
    (h : (afterTransient R s e : Pass σ T) = .again s') : Again R L s sent (.error e) s' := by
  simp only [afterTransient] at h
  split at h
  · cases h
  · rename_i hle
    cases h
    exact .transient e hclass (not_lt.mp hle)

theorem again_of_afterFatal {s s' : RunState σ} {sent : AiRequest} {e : AnyhowError}
    (hclass : e.classifyAiError = .fatal) (h : afterFatal R L s sent e = .again s') :
    Again R L s sent (.error e) s' := by
  simp only [afterFatal] at h
  split at h
  · rename_i feedback session hhook
    split at h
    · cases h
    · rename_i hle
      cases h
      exact .feedback e feedback session hclass hhook (not_lt.mp hle)
  · cases h

theorem again_of_afterResponse {s s' : RunState σ} {sent : AiRequest} {resp : AiResponse}
    (h : afterResponse R L s sent resp = .again s') : Again R L s sent (.ok resp) s' := by
  simp only [afterResponse] at h
  split at h
  · cases h
  rename_i htrunc
  rw [Bool.not_eq_true] at htrunc
  split at h
  · rename_i hround
    simp only [afterToolCalls, RunState.push_session, RunState.countUsage_session] at h
    split at h
    · cases h
    · rename_i results session hrun
      cases h
      exact .toolRound resp results session htrunc hround.1 (by simpa using hround.2) hrun
  · rename_i hround
    have hfinal : resp.calls = [] ∨ s.turns = R.maxTurns := by
      by_cases hc : resp.calls = []
      · exact Or.inl hc
      · exact Or.inr (by simpa [hc] using hround)
    simp only [validateResponse, RunState.push_session, RunState.countUsage_session] at h
    split at h
    · cases h
    · rename_i violation session hreject
      simp only [afterRejection] at h
      split at h
      · cases h
      · rename_i hlt
        simp only [RunState.push_validationAttempts, RunState.countUsage_validationAttempts,
          not_le] at hlt
        cases h
        exact .rejected resp violation session htrunc hfinal hreject hlt
    · cases h

/-- The inversion lemma of the loop body. -/
theorem again_of_afterAnswer {s s' : RunState σ} {sent : AiRequest}
    {answer : Except AnyhowError AiResponse} (h : afterAnswer R L s sent answer = .again s') :
    Again R L s sent answer s' := by
  cases answer with
  | ok resp => exact again_of_afterResponse h
  | error e =>
    simp only [afterAnswer] at h
    cases hclass : e.classifyAiError with
    | fatal => exact again_of_afterFatal hclass (by simpa [hclass] using h)
    | rateLimit d => exact again_of_afterTransient (by simp [hclass]) (by simpa [hclass] using h)
    | transient d => exact again_of_afterTransient (by simp [hclass]) (by simpa [hclass] using h)

theorem afterAnswer_of_again {s s' : RunState σ} {sent : AiRequest}
    {answer : Except AnyhowError AiResponse} (h : Again R L s sent answer s') :
    afterAnswer R L s sent answer = .again s' := by
  cases h with
  | transient e hclass hle =>
    cases hc : e.classifyAiError with
    | fatal => exact absurd hc hclass
    | rateLimit d => simp [afterAnswer, hc, afterTransient, not_lt.mpr hle]
    | transient d => simp [afterAnswer, hc, afterTransient, not_lt.mpr hle]
  | feedback e feedback session hclass hhook hle =>
    simp only [afterAnswer, hclass, afterFatal, hhook]
    rw [if_neg (not_lt.mpr hle)]
  | toolRound resp results session htrunc hcalls hturn hrun =>
    simp [afterAnswer, afterResponse, htrunc, hcalls, hturn, afterToolCalls, hrun]
  | rejected resp violation session htrunc hfinal hreject hlt =>
    have hround : ¬ (resp.calls ≠ [] ∧ s.turns ≠ R.maxTurns) := fun hc =>
      hfinal.elim hc.1 hc.2
    simp only [afterAnswer, afterResponse, htrunc, Bool.false_eq_true, if_false,
      RunState.push_turns, RunState.countUsage_turns, if_neg hround, validateResponse,
      RunState.push_session, RunState.countUsage_session, hreject, afterRejection,
      RunState.push_validationAttempts, RunState.countUsage_validationAttempts,
      if_neg (not_le.mpr hlt), RunState.push_rejected]

section finalTurnHead

variable (R) (s : RunState σ)

theorem finalTurnHead_eq : finalTurnHead R s =
    if pushesFinalTurnPrompt R s then
      { s.push [userMessage finalTurnPrompt] with pushedFinalTurnPrompt := true }
    else s := rfl

@[simp] theorem finalTurnHead_turns : (finalTurnHead R s).turns = s.turns := by
  rw [finalTurnHead_eq]; split_ifs <;> rfl

@[simp] theorem finalTurnHead_session : (finalTurnHead R s).session = s.session := by
  rw [finalTurnHead_eq]; split_ifs <;> rfl

@[simp] theorem finalTurnHead_validationAttempts :
    (finalTurnHead R s).validationAttempts = s.validationAttempts := by
  rw [finalTurnHead_eq]; split_ifs <;> rfl

@[simp] theorem finalTurnHead_transientRetries :
    (finalTurnHead R s).transientRetries = s.transientRetries := by
  rw [finalTurnHead_eq]; split_ifs <;> rfl

@[simp] theorem finalTurnHead_providerErrorRetries :
    (finalTurnHead R s).providerErrorRetries = s.providerErrorRetries := by
  rw [finalTurnHead_eq]; split_ifs <;> rfl

@[simp] theorem finalTurnHead_usage : (finalTurnHead R s).usage = s.usage := by
  rw [finalTurnHead_eq]; split_ifs <;> rfl

theorem finalTurnHead_history : (finalTurnHead R s).history =
    s.history ++ if pushesFinalTurnPrompt R s then [userMessage finalTurnPrompt] else [] := by
  rw [finalTurnHead_eq]; split_ifs <;> simp

end finalTurnHead

/-- A turn that is given back can be taken again. -/
theorem beginTurn_giveTurnBack {s : RunState σ} (h : s.turns ≤ usizeMax) :
    (beginTurn s.giveTurnBack).turns = max s.turns 1 := by
  simp only [beginTurn_turns, RunState.giveTurnBack_turns, satAdd]
  have : 1 ≤ usizeMax := by decide
  omega

section Passes

variable (R L P)

/-- The answer the provider gives to the pass that starts in `s`. -/
def answerTo (r : Run σ T π) (s : RunState σ) : Except AnyhowError AiResponse :=
  (P.generateContent r.provider (buildRequest R L (finalTurnHead R s))).1

/-- The call made by that pass. -/
def callFrom (r : Run σ T π) (s : RunState σ) : Call :=
  ⟨s.turns, pushesFinalTurnPrompt R s, buildRequest R L (finalTurnHead R s), answerTo R L P r s⟩

@[simp] theorem sendTurn_calls (r : Run σ T π) (s : RunState σ) :
    (sendTurn R L P r s).calls = r.calls ++ [callFrom R L P r s] := rfl

@[simp] theorem sendTurn_status (r : Run σ T π) (s : RunState σ) :
    (sendTurn R L P r s).status = afterAnswer R L (finalTurnHead R s)
      (buildRequest R L (finalTurnHead R s)) (answerTo R L P r s) := rfl

theorem loopPass_returned {r : Run σ T π} {result : Except AnyhowError (SessionResult T)}
    {forgotten : List AiRequest} (h : r.status = .returned result forgotten) :
    loopPass R L P r = r := by
  simp [loopPass, h]

theorem loopPass_exceeded {r : Run σ T π} {s : RunState σ} (h : r.status = .again s)
    (hmax : R.maxTurns < (beginTurn s).turns) :
    loopPass R L P r = { r with status := .returned (.error ((beginTurn s).makeFailure
      s!"Session exceeded max turns limit ({R.maxTurns})")) [] } := by
  rw [loopPass, h]
  exact if_pos hmax

theorem loopPass_sends {r : Run σ T π} {s : RunState σ} (h : r.status = .again s)
    (hmax : (beginTurn s).turns ≤ R.maxTurns) :
    loopPass R L P r = sendTurn R L P r (beginTurn s) := by
  rw [loopPass, h]
  exact if_neg (not_lt.mpr hmax)

theorem runFor_zero (provider : π) (session : σ) :
    runFor R L P provider session 0 = startRun L provider session := rfl

theorem runFor_succ (provider : π) (session : σ) (n : ℕ) :
    runFor R L P provider session (n + 1) =
      loopPass R L P (runFor R L P provider session n) :=
  Function.iterate_succ_apply' _ _ _

end Passes

/-- An invariant of runs: it holds of the first state, a pass that sends a request keeps it and
so does giving up for lack of turns. -/
theorem runFor_invariant {I : Run σ T π → Prop} {provider : π} {session : σ}
    (hstart : I (startRun L provider session))
    (hexceeded : ∀ r s, I r → r.status = .again s → R.maxTurns < (beginTurn s).turns →
      I { r with status := .returned (.error ((beginTurn s).makeFailure
        s!"Session exceeded max turns limit ({R.maxTurns})")) [] })
    (hsend : ∀ r s, I r → r.status = .again s → (beginTurn s).turns ≤ R.maxTurns →
      I (sendTurn R L P r (beginTurn s))) (n : ℕ) :
    I (runFor R L P provider session n) := by
  induction n with
  | zero => exact hstart
  | succ n ih =>
    rw [runFor_succ]
    cases hst : (runFor R L P provider session n).status with
    | returned result forgotten => rwa [loopPass_returned R L P hst]
    | again s =>
      rcases lt_or_ge R.maxTurns (beginTurn s).turns with hmax | hmax
      · rw [loopPass_exceeded R L P hst hmax]
        exact hexceeded _ s ih hst hmax
      · rw [loopPass_sends R L P hst hmax]
        exact hsend _ s ih hst hmax

end Sashiko
