import Mathlib.Data.List.Nodup
import Sashiko.Ai.Pairing

/-! What a run tells its provider to forget when it gives up. -/

namespace Sashiko

variable {σ T π : Type} {R : SessionRunner} {L : LlmSession σ T} {P : Provider π}

/-! ### The rejected answers -/

section Rejected

variable (R L P)

/-- The answer asks for tools, and these are run. -/
def runsTools (s : RunState σ) (resp : AiResponse) : Bool :=
  resp.calls ≠ [] ∧ s.turns ≠ R.maxTurns

/-- The answer is cut off, or validation does not accept it. -/
def rejectsAnswer (s : RunState σ) : Except AnyhowError AiResponse → Bool
  | .error _ => false
  | .ok resp => resp.truncated || (!runsTools R s resp && !(L.validate s.session resp).1.isOk)

/-- The request that the next pass sends, where its answer is rejected. -/
def rejectedBy (r : Run σ T π) : List AiRequest :=
  match r.status with
  | .returned _ _ => []
  | .again s =>
    if (beginTurn s).turns ≤ R.maxTurns ∧
        rejectsAnswer R L (beginTurn s) (answerTo R L P r (beginTurn s)) = true then
      [buildRequest R L (finalTurnHead R (beginTurn s))]
    else []

/-- The requests of the first `n` passes whose answers are rejected, in order. -/
def rejectedRequests (provider : π) (session : σ) (n : ℕ) : List AiRequest :=
  (List.range n).flatMap fun k => rejectedBy R L P (runFor R L P provider session k)

theorem rejectedRequests_succ (provider : π) (session : σ) (n : ℕ) :
    rejectedRequests R L P provider session (n + 1) =
      rejectedRequests R L P provider session n ++
        rejectedBy R L P (runFor R L P provider session n) := by
  rw [rejectedRequests, List.range_succ, List.flatMap_append, List.flatMap_singleton]
  rfl

end Rejected

theorem rejectedBy_again {r : Run σ T π} {s : RunState σ} (h : r.status = .again s)
    (hmax : (beginTurn s).turns ≤ R.maxTurns) :
    rejectedBy R L P r =
      if rejectsAnswer R L (finalTurnHead R (beginTurn s)) (answerTo R L P r (beginTurn s)) = true
      then [buildRequest R L (finalTurnHead R (beginTurn s))] else [] := by
  have hhead : rejectsAnswer R L (finalTurnHead R (beginTurn s)) =
      rejectsAnswer R L (beginTurn s) := by
    funext answer
    cases answer with
    | error e => rfl
    | ok resp => simp only [rejectsAnswer, runsTools, finalTurnHead_turns, finalTurnHead_session]
  rw [rejectedBy, h, hhead]
  simp only [hmax, true_and]

theorem rejectedBy_exceeded {r : Run σ T π} {s : RunState σ} (h : r.status = .again s)
    (hmax : R.maxTurns < (beginTurn s).turns) : rejectedBy R L P r = [] := by
  rw [rejectedBy, h]
  exact if_neg fun hle => absurd hle.1 (not_le.mpr hmax)

theorem rejectedBy_returned {r : Run σ T π} {result : Except AnyhowError (SessionResult T)}
    {forgotten : List AiRequest} (h : r.status = .returned result forgotten) :
    rejectedBy R L P r = [] := by
  rw [rejectedBy, h]

/-! ### The ways out of the loop -/

/-- How an answer ends the run, and what is then forgotten. -/
inductive Exit (R : SessionRunner) (L : LlmSession σ T) (s : RunState σ) (sent : AiRequest) :
    Except AnyhowError AiResponse → Except AnyhowError (SessionResult T) → List AiRequest → Prop
  | retriesExhausted (e failure : AnyhowError) (hclass : e.classifyAiError ≠ .fatal) :
      Exit R L s sent (.error e) (.error failure) []
  | providerError (e failure : AnyhowError) (hclass : e.classifyAiError = .fatal) :
      Exit R L s sent (.error e) (.error failure) s.rejected
  | rejected (resp : AiResponse) (failure : AnyhowError)
      (hreject : rejectsAnswer R L s (.ok resp) = true) :
      Exit R L s sent (.ok resp) (.error failure) (s.rejected ++ [sent])
  | accepted (resp : AiResponse) (result : SessionResult T) :
      Exit R L s sent (.ok resp) (.ok result) []
  | toolsFailed (resp : AiResponse) (failure e : AnyhowError) (htrunc : resp.truncated = false)
      (hround : runsTools R s resp = true)
      (hfail : (L.callTools s.session resp.calls).1 = .error e) :
      Exit R L s sent (.ok resp) (.error failure) []
  | fatal (resp : AiResponse) (failure : AnyhowError) (err : String)
      (htrunc : resp.truncated = false) (hround : runsTools R s resp = false)
      (hfatal : (L.validate s.session resp).1 = .error (.fatal err)) :
      Exit R L s sent (.ok resp) (.error failure) []

section Exits

variable {s : RunState σ} {sent : AiRequest} {result : Except AnyhowError (SessionResult T)}
  {forgotten : List AiRequest}

@[simp] theorem countUsage_rejected (u : Option AiUsage) :
    (s.countUsage u).rejected = s.rejected := by
  cases u <;> rfl

theorem exit_of_afterTransient {e : AnyhowError} (hclass : e.classifyAiError ≠ .fatal)
    (h : (afterTransient R s e : Pass σ T) = .returned result forgotten) :
    Exit R L s sent (.error e) result forgotten := by
  simp only [afterTransient] at h
  split at h
  · cases h
    exact .retriesExhausted e _ hclass
  · cases h

theorem exit_of_afterFatal {e : AnyhowError} (hclass : e.classifyAiError = .fatal)
    (h : afterFatal R L s sent e = .returned result forgotten) :
    Exit R L s sent (.error e) result forgotten := by
  simp only [afterFatal] at h
  split at h
  · split at h
    · cases h
      exact .providerError e _ hclass
    · cases h
  · cases h
    exact .providerError e _ hclass

theorem exit_of_validateResponse {resp : AiResponse} {s' : RunState σ}
    (hsession : s'.session = s.session) (hrejected : s'.rejected = s.rejected)
    (htrunc : resp.truncated = false) (hround : runsTools R s resp = false)
    (h : validateResponse R L s' sent resp = .returned result forgotten) :
    Exit R L s sent (.ok resp) result forgotten := by
  rw [validateResponse, hsession] at h
  split at h
  · cases h
    exact .accepted resp _
  · rename_i violation session hreject
    simp only [afterRejection] at h
    split at h
    · cases h
      rw [hrejected]
      refine .rejected resp _ ?_
      rw [rejectsAnswer, hround, hreject]
      simp only [Except.isOk, Except.toBool, Bool.not_false, Bool.and_self, Bool.or_true]
    · cases h
  · rename_i err session hfatal
    cases h
    exact .fatal resp _ err htrunc hround (by rw [hfatal])

theorem exit_of_afterResponse {resp : AiResponse}
    (h : afterResponse R L s sent resp = .returned result forgotten) :
    Exit R L s sent (.ok resp) result forgotten := by
  simp only [afterResponse] at h
  split at h
  · rename_i htrunc
    cases h
    exact .rejected resp _ (by rw [rejectsAnswer, htrunc, Bool.true_or])
  rename_i htrunc
  rw [Bool.not_eq_true] at htrunc
  split at h
  · rename_i hround
    simp only [afterToolCalls, RunState.push_session, RunState.countUsage_session] at h
    split at h
    · rename_i e session hfail
      cases h
      refine .toolsFailed resp _ e htrunc ?_ (by rw [hfail])
      simpa [runsTools] using hround
    · cases h
  · rename_i hround
    exact exit_of_validateResponse (by simp) (by simp) htrunc
      (decide_eq_false (by simpa using hround)) h

/-- The inversion lemma of a pass that ends the run. -/
theorem exit_of_afterAnswer {answer : Except AnyhowError AiResponse}
    (h : afterAnswer R L s sent answer = .returned result forgotten) :
    Exit R L s sent answer result forgotten := by
  cases answer with
  | ok resp => exact exit_of_afterResponse h
  | error e =>
    simp only [afterAnswer] at h
    cases hclass : e.classifyAiError with
    | fatal => exact exit_of_afterFatal hclass (by simpa [hclass] using h)
    | rateLimit d => exact exit_of_afterTransient (by simp [hclass]) (by simpa [hclass] using h)
    | transient d => exact exit_of_afterTransient (by simp [hclass]) (by simpa [hclass] using h)

end Exits

/-! ### The invariant of the loop -/

/-- Between two passes: the rejected requests are kept in order, each shorter than the history,
and only a run that was never given a turn can run out of turns. -/
structure KeepsRejected (R : SessionRunner) (rejected : List AiRequest) (s : RunState σ) :
    Prop where
  kept : s.rejected = rejected
  once : s.rejected.Nodup
  shorter : ∀ request ∈ s.rejected, request.messages.length < s.history.length
  turns : s.turns < R.maxTurns ∨ s.rejected = []

section Step

variable {s s' : RunState σ} {rejected : List AiRequest} {answer : Except AnyhowError AiResponse}

@[simp] theorem finalTurnHead_rejected : (finalTurnHead R s).rejected = s.rejected := by
  rw [finalTurnHead_eq]; split_ifs <;> rfl

theorem length_le_finalTurnHead : s.history.length ≤ (finalTurnHead R s).history.length := by
  rw [finalTurnHead_history, List.length_append]
  exact Nat.le_add_right _ _

/-- A request is longer than the ones rejected before it. -/
theorem KeepsRejected.sent_fresh (h : KeepsRejected R rejected s) :
    buildRequest R L (finalTurnHead R (beginTurn s)) ∉ s.rejected := fun hmem =>
  absurd (h.shorter _ hmem) (not_lt.mpr (length_le_finalTurnHead (R := R) (s := beginTurn s)))

theorem KeepsRejected.once_sent (h : KeepsRejected R rejected s) :
    (s.rejected ++ [buildRequest R L (finalTurnHead R (beginTurn s))]).Nodup := by
  refine List.nodup_append.mpr ⟨h.once, List.nodup_singleton _, fun x hx y hy heq => ?_⟩
  rw [heq, List.mem_singleton.mp hy] at hx
  exact h.sent_fresh hx

theorem KeepsRejected.again (h : KeepsRejected R rejected s)
    (hmax : (beginTurn s).turns ≤ R.maxTurns)
    (hagain : Again R L (finalTurnHead R (beginTurn s))
      (buildRequest R L (finalTurnHead R (beginTurn s))) answer s') :
    KeepsRejected R (rejected ++
      if rejectsAnswer R L (finalTurnHead R (beginTurn s)) answer = true then
        [buildRequest R L (finalTurnHead R (beginTurn s))] else []) s' := by
  have hone : 1 ≤ (beginTurn s).turns := by
    rw [beginTurn_turns, satAdd]
    exact le_min (Nat.le_add_left _ _) (by decide)
  have hhead := length_le_finalTurnHead (R := R) (s := beginTurn s)
  have hlen : s.history.length = (beginTurn s).history.length := rfl
  cases hagain with
  | transient e hclass hle =>
    rw [rejectsAnswer, if_neg Bool.false_ne_true, List.append_nil]
    refine ⟨by simpa using h.kept, by simpa using h.once, fun request hrequest => ?_, .inl ?_⟩
    · exact (h.shorter request (by simpa using hrequest)).trans_le hhead
    · simp only [RunState.giveTurnBack_turns, finalTurnHead_turns]
      omega
  | feedback e feedback session hclass hhook hle =>
    rw [rejectsAnswer, if_neg Bool.false_ne_true, List.append_nil]
    refine ⟨by simpa using h.kept, by simpa using h.once, fun request hrequest => ?_, .inl ?_⟩
    · have hshort := h.shorter request (by simpa using hrequest)
      simp only [RunState.giveTurnBack_history, RunState.push_history, List.length_append]
      omega
    · simp only [RunState.giveTurnBack_turns, RunState.push_turns, finalTurnHead_turns]
      omega
  | toolRound resp results session htrunc hcalls hturn hrun =>
    have hruns : runsTools R (finalTurnHead R (beginTurn s)) resp = true :=
      decide_eq_true ⟨hcalls, hturn⟩
    rw [rejectsAnswer, htrunc, hruns, if_neg (by simp), List.append_nil]
    refine ⟨by simpa using h.kept, by simpa using h.once, fun request hrequest => ?_, .inl ?_⟩
    · have hshort := h.shorter request (by simpa using hrequest)
      simp only [RunState.push_history, RunState.countUsage_history, List.length_append]
      omega
    · simp only [RunState.push_turns, RunState.countUsage_turns, finalTurnHead_turns] at hturn ⊢
      omega
  | rejected resp violation session htrunc hfinal hreject hlt =>
    have hruns : runsTools R (finalTurnHead R (beginTurn s)) resp = false :=
      decide_eq_false fun hc => hfinal.elim hc.1 hc.2
    have hrejects : rejectsAnswer R L (finalTurnHead R (beginTurn s)) (.ok resp) = true := by
      rw [rejectsAnswer, hruns, hreject]
      exact Bool.or_true _
    rw [if_pos hrejects]
    refine ⟨?_, ?_, fun request hrequest => ?_, .inl ?_⟩
    · simp [h.kept]
    · simpa using h.once_sent (L := L)
    · simp only [RunState.giveTurnBack_rejected, RunState.push_rejected, countUsage_rejected,
        finalTurnHead_rejected, beginTurn_rejected, List.mem_append, List.mem_singleton]
        at hrequest
      simp only [RunState.giveTurnBack_history, RunState.push_history,
        RunState.countUsage_history, List.length_append, List.length_singleton]
      rcases hrequest with hold | rfl
      · have hshort := h.shorter request hold
        omega
      · change (finalTurnHead R (beginTurn s)).history.length < _
        omega
    · simp only [RunState.giveTurnBack_turns, RunState.push_turns, RunState.countUsage_turns,
        finalTurnHead_turns]
      omega

theorem KeepsRejected.exceeded (h : KeepsRejected R rejected s)
    (hmax : R.maxTurns < (beginTurn s).turns) : rejected = [] := by
  rcases h.turns with hturns | hnil
  · rw [beginTurn_turns, satAdd] at hmax
    exact absurd hmax (not_lt.mpr ((min_le_left _ _).trans hturns))
  · rw [← h.kept, hnil]

end Step

theorem keepsRejected_runFor (provider : π) (session : σ) (n : ℕ) {s : RunState σ}
    (h : (runFor R L P provider session n).status = .again s) :
    KeepsRejected R (rejectedRequests R L P provider session n) s := by
  induction n generalizing s with
  | zero =>
    cases h
    exact ⟨rfl, List.nodup_nil, fun request hrequest => absurd hrequest List.not_mem_nil,
      .inr rfl⟩
  | succ n ih =>
    rw [runFor_succ] at h
    rw [rejectedRequests_succ]
    cases hprev : (runFor R L P provider session n).status with
    | returned result forgotten =>
      rw [loopPass_returned R L P hprev, hprev] at h
      cases h
    | again s' =>
      rcases lt_or_ge R.maxTurns (beginTurn s').turns with hmax | hmax
      · rw [loopPass_exceeded R L P hprev hmax] at h
        cases h
      · rw [loopPass_sends R L P hprev hmax, sendTurn_status] at h
        rw [rejectedBy_again hprev hmax]
        exact (ih hprev).again hmax (again_of_afterAnswer h)

/-! ### What is forgotten -/

/-- The run ended on a rate limit or a transient error, its retries used up. -/
def RetriesExhausted (r : Run σ T π) : Prop :=
  ∃ c ∈ r.calls.getLast?, ∃ e : AnyhowError, c.answer = .error e ∧ e.classifyAiError ≠ .fatal

/-- What the provider of a run that has returned was told to forget: nothing on success, and on
giving up every rejected request, once. -/
structure ForgetsRejected (R : SessionRunner) (L : LlmSession σ T) (P : Provider π) (provider : π)
    (session : σ) (n : ℕ) (result : Except AnyhowError (SessionResult T))
    (forgotten : List AiRequest) : Prop where
  ok : ∀ output, result = .ok output → forgotten = []
  once : forgotten.Nodup
  rejected : ∀ e, result = .error e → ¬RetriesExhausted (runFor R L P provider session n) →
    ∀ request, request ∈ forgotten ↔ request ∈ rejectedRequests R L P provider session n

section Dropped

variable (R L P)

/-- The pass after `n` passes gives up without forgetting: validation fails for good, or a batch
of tool calls fails once an answer was rejected. -/
def DropsRejected (provider : π) (session : σ) (n : ℕ) : Prop :=
  ∃ s resp, (runFor R L P provider session n).status = .again s ∧
    (beginTurn s).turns ≤ R.maxTurns ∧
    answerTo R L P (runFor R L P provider session n) (beginTurn s) = .ok resp ∧
    resp.truncated = false ∧
    ((runsTools R (beginTurn s) resp = false ∧
        ∃ err, (L.validate s.session resp).1 = .error (.fatal err)) ∨
      (runsTools R (beginTurn s) resp = true ∧
        rejectedRequests R L P provider session n ≠ [] ∧
        ∃ e, (L.callTools s.session resp.calls).1 = .error e))

end Dropped

theorem retriesExhausted_sendTurn {r : Run σ T π} {s : RunState σ} :
    RetriesExhausted (sendTurn R L P r s) ↔
      ∃ e, answerTo R L P r s = .error e ∧ e.classifyAiError ≠ .fatal := by
  simp only [RetriesExhausted, sendTurn_calls, List.getLast?_concat, Option.mem_some_iff,
    exists_eq_left', callFrom]

/-- What a pass that ends the run forgets. -/
theorem forgetsRejected_exit {provider : π} {session : σ} {n : ℕ} {s : RunState σ}
    {result : Except AnyhowError (SessionResult T)} {forgotten : List AiRequest}
    (hprev : (runFor R L P provider session n).status = .again s)
    (hmax : (beginTurn s).turns ≤ R.maxTurns)
    (hdrops : ¬DropsRejected R L P provider session n)
    (hexit : Exit R L (finalTurnHead R (beginTurn s))
      (buildRequest R L (finalTurnHead R (beginTurn s)))
      (answerTo R L P (runFor R L P provider session n) (beginTurn s)) result forgotten) :
    ForgetsRejected R L P provider session (n + 1) result forgotten := by
  have hkeeps := keepsRejected_runFor provider session n hprev
  have hrejected := rejectedRequests_succ R L P provider session n
  rw [rejectedBy_again hprev hmax] at hrejected
  have hrun : runFor R L P provider session (n + 1) =
      sendTurn R L P (runFor R L P provider session n) (beginTurn s) := by
    rw [runFor_succ, loopPass_sends R L P hprev hmax]
  generalize hanswer : answerTo R L P (runFor R L P provider session n) (beginTurn s) = answer
    at hexit hrejected
  cases hexit with
  | retriesExhausted e failure hclass =>
    refine ⟨nofun, List.nodup_nil, fun _ _ hnot => absurd ?_ hnot⟩
    rw [hrun, retriesExhausted_sendTurn]
    exact ⟨e, hanswer, hclass⟩
  | providerError e failure hclass =>
    rw [rejectsAnswer, if_neg Bool.false_ne_true, List.append_nil] at hrejected
    rw [finalTurnHead_rejected, beginTurn_rejected]
    refine ⟨nofun, hkeeps.once, fun _ _ _ request => ?_⟩
    rw [hrejected, hkeeps.kept]
  | rejected resp failure hreject =>
    rw [if_pos hreject] at hrejected
    rw [finalTurnHead_rejected, beginTurn_rejected]
    refine ⟨nofun, hkeeps.once_sent, fun _ _ _ request => ?_⟩
    rw [hrejected, hkeeps.kept]
  | accepted resp result => exact ⟨fun _ _ => rfl, List.nodup_nil, nofun⟩
  | toolsFailed resp failure e htrunc hround hfail =>
    refine ⟨nofun, List.nodup_nil, fun _ _ _ request => ?_⟩
    rw [rejectsAnswer, htrunc, hround, if_neg (by simp), List.append_nil] at hrejected
    have hnone : rejectedRequests R L P provider session n = [] := by
      by_contra hsome
      refine hdrops ⟨s, resp, hprev, hmax, hanswer, htrunc, .inr ⟨?_, hsome, e, ?_⟩⟩
      · rwa [runsTools, finalTurnHead_turns] at hround
      · rwa [finalTurnHead_session] at hfail
    rw [hrejected, hnone]
  | fatal resp failure err htrunc hround hfatal =>
    refine absurd ⟨s, resp, hprev, hmax, hanswer, htrunc, .inl ⟨?_, err, ?_⟩⟩ hdrops
    · rwa [runsTools, finalTurnHead_turns] at hround
    · rwa [finalTurnHead_session] at hfatal

theorem forgetsRejected_runFor {provider : π} {session : σ}
    (hdrops : ∀ n, ¬DropsRejected R L P provider session n) (n : ℕ)
    {result : Except AnyhowError (SessionResult T)} {forgotten : List AiRequest}
    (h : (runFor R L P provider session n).status = .returned result forgotten) :
    ForgetsRejected R L P provider session n result forgotten := by
  induction n with
  | zero => cases h
  | succ n ih =>
    cases hprev : (runFor R L P provider session n).status with
    | returned result' forgotten' =>
      have hsame : runFor R L P provider session (n + 1) = runFor R L P provider session n := by
        rw [runFor_succ, loopPass_returned R L P hprev]
      obtain ⟨hok, honce, hrejected⟩ := ih (hsame ▸ h)
      refine ⟨hok, honce, fun e he hnot request => ?_⟩
      rw [rejectedRequests_succ, rejectedBy_returned hprev, List.append_nil]
      exact hrejected e he (hsame ▸ hnot) request
    | again s =>
      have hpass := h
      rw [runFor_succ] at hpass
      rcases lt_or_ge R.maxTurns (beginTurn s).turns with hmax | hmax
      · rw [loopPass_exceeded R L P hprev hmax] at hpass
        cases hpass
        refine ⟨nofun, List.nodup_nil, fun _ _ _ request => ?_⟩
        rw [rejectedRequests_succ, rejectedBy_exceeded hprev hmax,
          (keepsRejected_runFor provider session n hprev).exceeded hmax, List.append_nil]
      · rw [loopPass_sends R L P hprev hmax, sendTurn_status] at hpass
        exact forgetsRejected_exit hprev hmax (hdrops n) (exit_of_afterAnswer hpass)

/-- A pass that drops the rejected requests ends the run with an error and forgets nothing. -/
theorem not_forgetsRejected_of_drops {provider : π} {session : σ} {n : ℕ}
    (h : DropsRejected R L P provider session n) :
    ∃ e, (runFor R L P provider session (n + 1)).status = .returned (.error e) [] ∧
      ¬ForgetsRejected R L P provider session (n + 1) (.error e) [] := by
  obtain ⟨s, resp, hprev, hmax, hanswer, htrunc, hcase⟩ := h
  have hrun : runFor R L P provider session (n + 1) =
      sendTurn R L P (runFor R L P provider session n) (beginTurn s) := by
    rw [runFor_succ, loopPass_sends R L P hprev hmax]
  have hrejected := rejectedRequests_succ R L P provider session n
  rw [rejectedBy_again hprev hmax, hanswer] at hrejected
  have hretries : ¬RetriesExhausted (runFor R L P provider session (n + 1)) := by
    rw [hrun, retriesExhausted_sendTurn, hanswer]
    rintro ⟨e, he, -⟩
    cases he
  have hsome : rejectedRequests R L P provider session (n + 1) ≠ [] →
      ∀ e, ¬ForgetsRejected R L P provider session (n + 1) (.error e) [] := fun hne e hforgets => by
    obtain ⟨request, hrequest⟩ := List.exists_mem_of_ne_nil _ hne
    exact absurd ((hforgets.rejected e rfl hretries request).mpr hrequest) List.not_mem_nil
  rw [hrun, sendTurn_status, hanswer, afterAnswer, afterResponse, htrunc,
    if_neg Bool.false_ne_true]
  rcases hcase with ⟨hround, err, hfatal⟩ | ⟨hround, hne, e, hfail⟩
  · have hnot : ¬(resp.calls ≠ [] ∧ (finalTurnHead R (beginTurn s)).turns ≠ R.maxTurns) := by
      rw [finalTurnHead_turns]
      exact of_decide_eq_false hround
    have hruns : runsTools R (finalTurnHead R (beginTurn s)) resp = false := decide_eq_false hnot
    have hrejects : rejectsAnswer R L (finalTurnHead R (beginTurn s)) (.ok resp) = true := by
      rw [rejectsAnswer, hruns, finalTurnHead_session, beginTurn_session, hfatal]
      exact Bool.or_true _
    rw [if_pos hrejects] at hrejected
    simp only [RunState.push_turns, RunState.countUsage_turns, if_neg hnot, validateResponse,
      RunState.push_session, RunState.countUsage_session, finalTurnHead_session, beginTurn_session]
    obtain ⟨outcome, session', hvalidate⟩ : ∃ outcome session',
        L.validate s.session resp = (outcome, session') := ⟨_, _, rfl⟩
    rw [hvalidate] at hfatal ⊢
    obtain rfl : outcome = .error (.fatal err) := hfatal
    exact ⟨_, rfl, hsome (by simp [hrejected]) _⟩
  · have hyes : resp.calls ≠ [] ∧ (finalTurnHead R (beginTurn s)).turns ≠ R.maxTurns := by
      rw [finalTurnHead_turns]
      exact of_decide_eq_true hround
    simp only [RunState.push_turns, RunState.countUsage_turns, if_pos hyes, afterToolCalls,
      RunState.push_session, RunState.countUsage_session, finalTurnHead_session, beginTurn_session]
    obtain ⟨outcome, session', hcall⟩ : ∃ outcome session',
        L.callTools s.session resp.calls = (outcome, session') := ⟨_, _, rfl⟩
    rw [hcall] at hfail ⊢
    obtain rfl : outcome = .error e := hfail
    exact ⟨_, rfl, hsome (by simp [hrejected, hne]) _⟩

/-- A run forgets what it should exactly when it never gives up on a fatal validation error, nor
on a failed tool round after a rejection. -/
theorem forgetsRejected_iff (R : SessionRunner) (L : LlmSession σ T) (P : Provider π)
    (provider : π) (session : σ) :
    (∀ n result forgotten, (runFor R L P provider session n).status = .returned result forgotten →
      ForgetsRejected R L P provider session n result forgotten) ↔
    ∀ n, ¬DropsRejected R L P provider session n := by
  refine ⟨fun h n hdrops => ?_, fun h n result forgotten => forgetsRejected_runFor h n⟩
  obtain ⟨e, hst, hnot⟩ := not_forgetsRejected_of_drops hdrops
  exact hnot (h _ _ _ hst)

/-- A session without tools, in which a batch of tool calls fails. -/
def toollessSession : LlmSession Unit String :=
  { rejectingSession with
    tools := fun _ => none
    callTools := fun s _ =>
      (.error (.new (.text "Tool execution requested but no toolbox available")), s) }

/-- A model that answers in prose and then asks for a tool. -/
def wanderingProvider : Provider Bool where
  generateContent asked _ :=
    (.ok ⟨some "let me look", none, none,
      if asked then some [⟨"call_1", "ok_tool", .obj [], none⟩] else none, none, false⟩, true)

/-- The first answer is rejected, the second ends the run, and nothing is forgotten. -/
theorem toollessSession_forgets_nothing :
    ¬∀ n result forgotten,
      (runFor SessionRunner.new toollessSession wanderingProvider false () n).status =
          .returned result forgotten →
        ForgetsRejected SessionRunner.new toollessSession wanderingProvider false () n result
          forgotten := fun h => by
  have hdrops : DropsRejected SessionRunner.new toollessSession wanderingProvider false () 1 :=
    ⟨_, _, rfl, by decide, rfl, rfl, .inr ⟨rfl, by decide, _, rfl⟩⟩
  obtain ⟨e, hst, hnot⟩ := not_forgetsRejected_of_drops hdrops
  exact hnot (h _ _ _ hst)

end Sashiko
