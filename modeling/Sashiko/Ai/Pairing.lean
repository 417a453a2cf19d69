import Sashiko.Ai.Steps
import Sashiko.Lib.Settled

/-! Tool calls and their results in the requests a session sends. A request is well paired when
every assistant message with tool calls is followed at once by one tool message per call. The
loop keeps this except in one branch: an answer to the final turn whose calls are ignored and
whose text is then rejected is followed by the validation feedback instead. -/

namespace Sashiko

/-- A user or an assistant message ends the answers to the calls before it. -/
def AiMessage.speaks (m : AiMessage) : Bool := m.role = .user ∨ m.role = .assistant

def AiMessage.owes (m : AiMessage) : Option (List (AiRole × Option String)) :=
  if m.role = .assistant ∧ m.calls ≠ [] then some (m.calls.map fun c => (.tool, some c.id))
  else none

def AiMessage.answerKey (m : AiMessage) : AiRole × Option String := (m.role, m.toolCallId)

/-- Every assistant message with tool calls is followed, before any other user or assistant
message, by exactly one tool message per call, in call order, carrying that call's id. -/
def WellPaired (messages : List AiMessage) : Prop :=
  Settled AiMessage.speaks AiMessage.owes AiMessage.answerKey messages

instance : DecidablePred WellPaired := fun messages =>
  decidableSettled AiMessage.speaks AiMessage.owes AiMessage.answerKey messages

/-- What `run` relies on: one result per call, in call order. -/
def LlmSession.AnswersCalls {σ T : Type} (L : LlmSession σ T) : Prop :=
  ∀ s calls results s', L.callTools s calls = (.ok results, s') →
    results.map Prod.fst = calls.map ToolCall.id

theorem defaultCallTools_ids {σ : Type}
    (callTool : σ → String → Json → Except AnyhowError Json × σ) (s s' : σ)
    (calls : List ToolCall) (results : List (String × Json))
    (h : defaultCallTools callTool s calls = (.ok results, s')) :
    results.map Prod.fst = calls.map ToolCall.id := by
  induction calls generalizing s results with
  | nil =>
    simp only [defaultCallTools, Prod.mk.injEq, Except.ok.injEq] at h
    rw [← h.1]
    rfl
  | cons call rest ih =>
    simp only [defaultCallTools] at h
    split at h
    · rename_i tail s'' htail
      simp only [Prod.mk.injEq, Except.ok.injEq] at h
      rw [← h.1, List.map_cons, List.map_cons, ih _ _ (by rw [htail, h.2])]
    · simp at h

theorem wellPaired_userMessage (text : String) : WellPaired [userMessage text] :=
  settled_of_owes_none fun x hx => by
    rw [List.mem_singleton.mp hx]
    rfl

theorem startsSpeaking_userMessage (text : String) :
    StartsSpeaking AiMessage.speaks [userMessage text] := rfl

theorem startsSpeaking_assistantMessage (resp : AiResponse) (rest : List AiMessage) :
    StartsSpeaking AiMessage.speaks (assistantMessage resp :: rest) := rfl

theorem owes_assistantMessage {resp : AiResponse} (h : resp.calls ≠ []) :
    (assistantMessage resp).owes = some (resp.calls.map fun c => (.tool, some c.id)) := by
  unfold AiMessage.owes
  exact if_pos ⟨rfl, h⟩

theorem owes_assistantMessage_nil {resp : AiResponse} (h : resp.calls = []) :
    (assistantMessage resp).owes = none := by
  unfold AiMessage.owes
  exact if_neg fun hm => hm.2 h

theorem wellPaired_toolRound {resp : AiResponse} {results : List (String × Json)}
    (hcalls : resp.calls ≠ []) (hids : results.map Prod.fst = resp.calls.map ToolCall.id) :
    WellPaired (assistantMessage resp :: results.map toolMessage) := by
  refine settled_cons_answers (owes_assistantMessage hcalls) ?_ ?_ ?_
  · intro x hx
    obtain ⟨r, -, rfl⟩ := List.mem_map.mp hx
    rfl
  · intro x hx
    obtain ⟨r, -, rfl⟩ := List.mem_map.mp hx
    rfl
  · have h := congrArg (List.map fun i => (AiRole.tool, some i)) hids
    simpa [List.map_map, Function.comp_def, AiMessage.answerKey, toolMessage] using h

section

variable {σ T π : Type} (R : SessionRunner) (L : LlmSession σ T) (P : Provider π)

/-- The branch that breaks the pairing: the answer of the final turn carries tool calls, which
are ignored, and its text is rejected with attempts left. -/
def RetriesUnanswered (r : Run σ T π) : Prop :=
  ∃ s resp violation session, r.status = .again s ∧
    (beginTurn s).turns = R.maxTurns ∧ answerTo R L P r (beginTurn s) = .ok resp ∧
    resp.truncated = false ∧ resp.calls ≠ [] ∧
    L.validate s.session resp = (.error (.formatViolation violation), session) ∧
    s.validationAttempts + 1 < R.maxValidationAttempts

variable {R L P}

theorem wellPaired_finalTurnHead (s : RunState σ) :
    WellPaired (finalTurnHead R s).history ↔ WellPaired s.history := by
  rw [finalTurnHead_history]
  split_ifs
  · rw [WellPaired, settled_append (startsSpeaking_userMessage _)]
    exact and_iff_left (wellPaired_userMessage _)
  · rw [List.append_nil]

/-- A back edge other than the bad branch keeps the history well paired. -/
theorem wellPaired_again (hL : L.AnswersCalls) {s s' : RunState σ} {sent : AiRequest}
    {answer : Except AnyhowError AiResponse} (h : Again R L s sent answer s')
    (hs : WellPaired s.history)
    (hok : ∀ resp violation session, answer = .ok resp → s.turns = R.maxTurns →
      resp.truncated = false → resp.calls ≠ [] →
      L.validate s.session resp = (.error (.formatViolation violation), session) →
      ¬ s.validationAttempts + 1 < R.maxValidationAttempts) :
    WellPaired s'.history := by
  cases h with
  | transient e hclass hle => exact hs
  | feedback e feedback session hclass hhook hle =>
    exact (settled_append (startsSpeaking_userMessage _) _).mpr ⟨hs, wellPaired_userMessage _⟩
  | toolRound resp results session htrunc hcalls hturn hrun =>
    simp only [RunState.push_history, RunState.countUsage_history, List.append_assoc,
      List.singleton_append]
    exact (settled_append (startsSpeaking_assistantMessage resp _) _).mpr
      ⟨hs, wellPaired_toolRound hcalls (hL _ _ _ _ hrun)⟩
  | rejected resp violation session htrunc hfinal hreject hlt =>
    have hcalls : resp.calls = [] := by
      by_contra hne
      exact hok resp violation session rfl (hfinal.resolve_left hne) htrunc hne hreject hlt
    simp only [RunState.giveTurnBack_history, RunState.push_history, RunState.countUsage_history,
      List.append_assoc, List.singleton_append]
    refine (settled_append (startsSpeaking_assistantMessage resp _) _).mpr ⟨hs, ?_⟩
    refine settled_of_owes_none fun x hx => ?_
    rcases List.mem_pair.mp hx with rfl | rfl
    · exact owes_assistantMessage_nil hcalls
    · rfl

/-- Requests sent so far and the history of the next one are well paired. -/
def PairedRun (r : Run σ T π) : Prop :=
  (∀ c ∈ r.calls, WellPaired c.request.messages) ∧
    ∀ s, r.status = .again s → WellPaired s.history

theorem pairedRun_start (provider : π) (session : σ) :
    PairedRun (startRun L provider session) := by
  refine ⟨fun c hc => by simp [startRun] at hc, fun s hs => ?_⟩
  cases hs
  exact wellPaired_userMessage _

theorem pairedRun_calls_loopPass {r : Run σ T π} (hr : PairedRun r) :
    ∀ c ∈ (loopPass R L P r).calls, WellPaired c.request.messages := by
  cases hst : r.status with
  | returned result forgotten => rw [loopPass_returned R L P hst]; exact hr.1
  | again s =>
    rcases lt_or_ge R.maxTurns (beginTurn s).turns with hmax | hmax
    · rw [loopPass_exceeded R L P hst hmax]; exact hr.1
    · rw [loopPass_sends R L P hst hmax]
      intro c hc
      rcases List.mem_append.mp hc with hc | hc
      · exact hr.1 c hc
      · rw [List.mem_singleton.mp hc]
        exact (wellPaired_finalTurnHead (beginTurn s)).mpr (hr.2 s hst)

theorem pairedRun_loopPass (hL : L.AnswersCalls) {r : Run σ T π} (hr : PairedRun r)
    (hok : ¬ RetriesUnanswered R L P r) : PairedRun (loopPass R L P r) := by
  refine ⟨pairedRun_calls_loopPass hr, fun s' hs' => ?_⟩
  cases hst : r.status with
  | returned result forgotten =>
    rw [loopPass_returned R L P hst, hst] at hs'
    cases hs'
  | again s =>
    rcases lt_or_ge R.maxTurns (beginTurn s).turns with hmax | hmax
    · rw [loopPass_exceeded R L P hst hmax] at hs'
      cases hs'
    · rw [loopPass_sends R L P hst hmax, sendTurn_status] at hs'
      refine wellPaired_again hL (again_of_afterAnswer hs')
        ((wellPaired_finalTurnHead (beginTurn s)).mpr (hr.2 s hst)) ?_
      intro resp violation session hans hturn htrunc hcalls hreject hlt
      rw [finalTurnHead_turns] at hturn
      rw [finalTurnHead_session] at hreject
      rw [finalTurnHead_validationAttempts] at hlt
      exact hok ⟨s, resp, violation, session, hst, hturn, hans, htrunc, hcalls, hreject, hlt⟩

/-- After the bad branch the loop goes on with a history that is not well paired. -/
theorem unpaired_of_retriesUnanswered {r : Run σ T π} (h : RetriesUnanswered R L P r) :
    ∃ s', (loopPass R L P r).status = .again s' ∧ (beginTurn s').turns ≤ R.maxTurns ∧
      ¬ WellPaired s'.history := by
  obtain ⟨s, resp, violation, session, hst, hturn, hans, htrunc, hcalls, hreject, hlt⟩ := h
  have hagain := @Again.rejected σ T R L (finalTurnHead R (beginTurn s))
    (buildRequest R L (finalTurnHead R (beginTurn s))) resp violation session htrunc
    (Or.inr (by rw [finalTurnHead_turns, hturn])) (by rw [finalTurnHead_session]; exact hreject)
    (by rw [finalTurnHead_validationAttempts]; exact hlt)
  have hpos : 1 ≤ (beginTurn s).turns := by
    have : 1 ≤ usizeMax := by decide
    simp only [beginTurn_turns, satAdd]
    omega
  rw [loopPass_sends R L P hst hturn.le, sendTurn_status, hans]
  refine ⟨_, afterAnswer_of_again hagain, ?_, ?_⟩
  · rw [beginTurn_giveTurnBack] <;>
      simp only [RunState.push_turns, RunState.countUsage_turns, finalTurnHead_turns]
    · omega
    · rw [hturn]
      exact R.maxTurns_le
  · simp only [RunState.giveTurnBack_history, RunState.push_history, RunState.countUsage_history,
      List.append_assoc, List.singleton_append]
    intro hp
    have h := ((settled_append (startsSpeaking_assistantMessage resp _) _).mp hp).2
    refine not_settled_of_interrupted (owes_assistantMessage hcalls) ?_ rfl h
    simpa using hcalls

theorem calls_loopPass_subset (r : Run σ T π) : ∀ c ∈ r.calls, c ∈ (loopPass R L P r).calls := by
  intro c hc
  cases hst : r.status with
  | returned result forgotten => rwa [loopPass_returned R L P hst]
  | again s =>
    rcases lt_or_ge R.maxTurns (beginTurn s).turns with hmax | hmax
    · rwa [loopPass_exceeded R L P hst hmax]
    · rw [loopPass_sends R L P hst hmax]
      exact List.mem_append_left _ hc

theorem calls_runFor_mono (provider : π) (session : σ) {m n : ℕ} (hmn : m ≤ n) :
    ∀ c ∈ (runFor R L P provider session m).calls,
      c ∈ (runFor R L P provider session n).calls := by
  induction n, hmn using Nat.le_induction with
  | base => exact fun c hc => hc
  | succ n _ ih =>
    intro c hc
    rw [runFor_succ]
    exact calls_loopPass_subset _ c (ih c hc)

/-- The next request after the bad branch is sent and is not well paired. -/
theorem unpaired_request_of_retriesUnanswered {r : Run σ T π}
    (h : RetriesUnanswered R L P r) :
    ∃ c ∈ (loopPass R L P (loopPass R L P r)).calls, ¬ WellPaired c.request.messages := by
  obtain ⟨s', hst, hmax, hbad⟩ := unpaired_of_retriesUnanswered h
  refine ⟨callFrom R L P (loopPass R L P r) (beginTurn s'), ?_, ?_⟩
  · rw [loopPass_sends R L P hst hmax, sendTurn_calls]
    exact List.mem_append_right _ (List.mem_singleton_self _)
  · exact fun hp => hbad ((wellPaired_finalTurnHead (beginTurn s')).mp hp)

theorem pairedRun_runFor (hL : L.AnswersCalls) (provider : π) (session : σ) (n : ℕ)
    (hok : ∀ k < n, ¬ RetriesUnanswered R L P (runFor R L P provider session k)) :
    PairedRun (runFor R L P provider session n) := by
  induction n with
  | zero => exact pairedRun_start provider session
  | succ n ih =>
    rw [runFor_succ]
    exact pairedRun_loopPass hL (ih fun k hk => hok k (hk.trans n.lt_succ_self))
      (hok n n.lt_succ_self)

/-- The requests of the first `n + 1` passes are all well paired exactly when none of the first
`n` passes takes the bad branch. -/
theorem requests_wellPaired_iff (hL : L.AnswersCalls) (provider : π) (session : σ) (n : ℕ) :
    (∀ c ∈ (runFor R L P provider session (n + 1)).calls, WellPaired c.request.messages) ↔
      ∀ k < n, ¬ RetriesUnanswered R L P (runFor R L P provider session k) := by
  constructor
  · intro h k hk hbad
    obtain ⟨c, hc, hnot⟩ := unpaired_request_of_retriesUnanswered hbad
    rw [← runFor_succ, ← runFor_succ] at hc
    exact hnot (h c (calls_runFor_mono provider session (by omega) c hc))
  · intro hok
    rw [runFor_succ]
    exact pairedRun_calls_loopPass (pairedRun_runFor hL provider session n hok)

end

/-- A session that rejects every answer and runs any tool. -/
def rejectingSession : LlmSession Unit String where
  systemPrompt _ := "system"
  initialUserPrompt _ := "user"
  logUserPrompt _ := "user"
  formatValidationFeedback _ violation := violation
  tools _ := some [⟨"ok_tool", "ok", .obj []⟩]
  temperature _ := none
  responseFormat _ := none
  contextTag _ := none
  reasoningEffort _ := none
  callTools s calls := (.ok (calls.map fun c => (c.id, .str "success")), s)
  validate s _ := (.error (.formatViolation "not json"), s)
  handleProviderError s _ _ _ := (.fail, s)

theorem rejectingSession_answersCalls : rejectingSession.AnswersCalls := by
  intro s calls results s' h
  simp only [rejectingSession, Prod.mk.injEq, Except.ok.injEq] at h
  rw [← h.1, List.map_map]
  rfl

/-- A model that asks for the same tool in every answer. -/
def callingProvider : Provider Unit where
  generateContent p _ :=
    (.ok ⟨some "let me look", none, none, some [⟨"call_1", "ok_tool", .obj [], none⟩], none, false⟩,
      p)

/-- `with_max_turns(2)`. -/
def twoTurns : SessionRunner := { SessionRunner.new with maxTurns := 2, maxTurns_le := by decide }

theorem requests_wellPaired_iff_callingProvider :
    (∀ c ∈ (runFor twoTurns rejectingSession callingProvider () () 3).calls,
        WellPaired c.request.messages) ↔
      ∀ k < 2, ¬ RetriesUnanswered twoTurns rejectingSession callingProvider
        (runFor twoTurns rejectingSession callingProvider () () k) :=
  requests_wellPaired_iff rejectingSession_answersCalls () () 2

/-- The third request replays the ignored call of the second answer without a result. -/
theorem callingProvider_unpaired_request :
    rejectingSession.AnswersCalls ∧
      ¬ ∀ c ∈ (runFor twoTurns rejectingSession callingProvider () () 3).calls,
        WellPaired c.request.messages := by
  refine ⟨rejectingSession_answersCalls, ?_⟩
  decide

end Sashiko
