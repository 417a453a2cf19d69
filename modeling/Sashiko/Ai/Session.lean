import Sashiko.Ai.Message
import Mathlib.Logic.Function.Iterate

/-! `ai/session.rs`: the conversation loop of `SessionRunner::run`. The provider and the
session are state machines of their own, so that any behaviour of either is covered. One
pass of the loop sends at most one request. -/

namespace Sashiko

inductive ValidationError where
  | formatViolation (violation : String)
  | fatal (err : String)
  deriving DecidableEq, Repr

inductive ErrorAction where
  | retryWithFeedback (feedback : String)
  | fail
  deriving DecidableEq, Repr

structure SessionResult (T : Type) where
  output : T
  history : List AiMessage
  usage : AiUsage
  deriving DecidableEq, Repr

/-- The `LlmSession` trait over a session state `σ` and an output type `T`. A `&mut self`
method returns the state it leaves. -/
structure LlmSession (σ T : Type) where
  systemPrompt : σ → String
  initialUserPrompt : σ → String
  logUserPrompt : σ → String
  formatValidationFeedback : σ → String → String
  tools : σ → Option (List AiTool)
  temperature : σ → Option (BitVec 32)
  responseFormat : σ → Option AiResponseFormat
  contextTag : σ → Option String
  reasoningEffort : σ → Option ReasoningEffort
  callTools : σ → List ToolCall → Except AnyhowError (List (String × Json)) × σ
  validate : σ → AiResponse → Except ValidationError T × σ
  handleProviderError : σ → AnyhowError → ℕ → Bool → ErrorAction × σ

/-- The trait's own `call_tools`: one call after the other, an error becoming the result. -/
def defaultCallTools {σ : Type} (callTool : σ → String → Json → Except AnyhowError Json × σ) :
    σ → List ToolCall → Except AnyhowError (List (String × Json)) × σ
  | s, [] => (.ok [], s)
  | s, call :: rest =>
    let (res, s) := callTool s call.functionName call.arguments
    let res := match res with
      | .ok val => val
      | .error e => .obj [("error", .str e.message)]
    match defaultCallTools callTool s rest with
    | (.ok results, s) => (.ok ((call.id, res) :: results), s)
    | (.error e, s) => (.error e, s)

/-- An `AiProvider` with the state `π` it keeps between calls. -/
structure Provider (π : Type) where
  generateContent : π → AiRequest → Except AnyhowError AiResponse × π

/-- The four limits, each a `usize`. -/
structure SessionRunner where
  maxTurns : ℕ
  maxValidationAttempts : ℕ
  maxTransientRetries : ℕ
  maxProviderErrorRetries : ℕ
  maxTurns_le : maxTurns ≤ usizeMax
  maxValidationAttempts_le : maxValidationAttempts ≤ usizeMax
  maxTransientRetries_le : maxTransientRetries ≤ usizeMax
  maxProviderErrorRetries_le : maxProviderErrorRetries ≤ usizeMax

/-- `SessionRunner::new`. -/
def SessionRunner.new : SessionRunner :=
  ⟨15, 3, 5, 3, by decide, by decide, by decide, by decide⟩

/-- The local variables of `run`. -/
structure RunState (σ : Type) where
  session : σ
  history : List AiMessage
  logHistory : List AiMessage
  turns : ℕ
  validationAttempts : ℕ
  rejected : List AiRequest
  transientRetries : ℕ
  providerErrorRetries : ℕ
  pushedFinalTurnPrompt : Bool
  totalPromptTokens : ℕ
  totalCompletionTokens : ℕ
  totalCachedTokens : ℕ

def userMessage (text : String) : AiMessage :=
  ⟨.user, some text, none, none, none, none⟩

def assistantMessage (resp : AiResponse) : AiMessage :=
  ⟨.assistant, resp.content, resp.thought, resp.thoughtSignature, resp.toolCalls, none⟩

def toolMessage (result : String × Json) : AiMessage :=
  let content := match result.2 with
    | .str s => s
    | other => other.render
  ⟨.tool, some content, none, none, none, some result.1⟩

def finalTurnPrompt : String :=
  "TURN BUDGET EXHAUSTED: You have reached the maximum allowed investigation turns. " ++
  "Do NOT call any tools. Synthesize your final JSON verdict now based on the evidence " ++
  "gathered so far."

namespace RunState

variable {σ : Type}

/-- Every message is pushed on both histories. -/
@[simps] def push (s : RunState σ) (msgs : List AiMessage) : RunState σ :=
  { s with history := s.history ++ msgs, logHistory := s.logHistory ++ msgs }

def countUsage (s : RunState σ) (usage : Option AiUsage) : RunState σ :=
  match usage with
  | none => s
  | some u => { s with
      totalPromptTokens := satAdd usizeMax s.totalPromptTokens u.promptTokens
      totalCompletionTokens := satAdd usizeMax s.totalCompletionTokens u.completionTokens
      totalCachedTokens := satAdd usizeMax s.totalCachedTokens (u.cachedTokens.getD 0) }

section countUsage

variable (s : RunState σ) (u : Option AiUsage)

@[simp] theorem countUsage_session : (s.countUsage u).session = s.session := by cases u <;> rfl
@[simp] theorem countUsage_history : (s.countUsage u).history = s.history := by cases u <;> rfl
@[simp] theorem countUsage_turns : (s.countUsage u).turns = s.turns := by cases u <;> rfl
@[simp] theorem countUsage_validationAttempts :
    (s.countUsage u).validationAttempts = s.validationAttempts := by cases u <;> rfl
@[simp] theorem countUsage_transientRetries :
    (s.countUsage u).transientRetries = s.transientRetries := by cases u <;> rfl
@[simp] theorem countUsage_providerErrorRetries :
    (s.countUsage u).providerErrorRetries = s.providerErrorRetries := by cases u <;> rfl
@[simp] theorem countUsage_pushedFinalTurnPrompt :
    (s.countUsage u).pushedFinalTurnPrompt = s.pushedFinalTurnPrompt := by cases u <;> rfl

end countUsage

def usage (s : RunState σ) : AiUsage :=
  ⟨s.totalPromptTokens, s.totalCompletionTokens,
    satAdd usizeMax s.totalPromptTokens s.totalCompletionTokens, some s.totalCachedTokens⟩

def failure (s : RunState σ) (message : String) : SessionFailure :=
  ⟨message, s.logHistory, s.usage⟩

/-- The closure `make_failure`. -/
def makeFailure (s : RunState σ) (message : String) : AnyhowError :=
  .new (.session (s.failure message))

/-- `turns = turns.saturating_sub(1)`. -/
@[simps] def giveTurnBack (s : RunState σ) : RunState σ := { s with turns := s.turns - 1 }

end RunState

/-- What one pass of the loop comes to: another pass, or a return with the requests the
provider was told to forget. -/
inductive Pass (σ T : Type) where
  | again (s : RunState σ)
  | returned (result : Except AnyhowError (SessionResult T)) (forgotten : List AiRequest)

section Loop

variable {σ T π : Type} (R : SessionRunner) (L : LlmSession σ T)

def initialState (session : σ) : RunState σ where
  session := session
  history := [userMessage (L.initialUserPrompt session)]
  logHistory := [userMessage (L.logUserPrompt session)]
  turns := 0
  validationAttempts := 0
  rejected := []
  transientRetries := 0
  providerErrorRetries := 0
  pushedFinalTurnPrompt := false
  totalPromptTokens := 0
  totalCompletionTokens := 0
  totalCachedTokens := 0

/-- `turns = turns.saturating_add(1)`. -/
@[simps] def beginTurn (s : RunState σ) : RunState σ :=
  { s with turns := satAdd usizeMax s.turns 1 }

/-- `is_final_turn && turns > 1 && !pushed_final_turn_prompt`. -/
def pushesFinalTurnPrompt (s : RunState σ) : Bool :=
  s.turns = R.maxTurns ∧ 1 < s.turns ∧ ¬ s.pushedFinalTurnPrompt

def finalTurnHead (s : RunState σ) : RunState σ :=
  if pushesFinalTurnPrompt R s then
    { s.push [userMessage finalTurnPrompt] with pushedFinalTurnPrompt := true }
  else s

def buildRequest (s : RunState σ) : AiRequest where
  system := some (L.systemPrompt s.session)
  messages := s.history
  tools := if s.turns = R.maxTurns then none else L.tools s.session
  temperature := L.temperature s.session
  responseFormat := L.responseFormat s.session
  contextTag := L.contextTag s.session
  reasoningEffort := L.reasoningEffort s.session

def afterTransient (s : RunState σ) (e : AnyhowError) : Pass σ T :=
  let s := { s with transientRetries := satAdd usizeMax s.transientRetries 1 }
  if R.maxTransientRetries < s.transientRetries then
    .returned (.error (s.makeFailure
      (s!"Session failed after {R.maxTransientRetries} transient/rate-limit errors. " ++
        s!"Last error: {e.message}"))) []
  else .again s.giveTurnBack

def afterFatal (s : RunState σ) (sent : AiRequest) (e : AnyhowError) : Pass σ T :=
  let hasActiveTools := (sent.tools.map (!·.isEmpty)).getD false
  match L.handleProviderError s.session e s.providerErrorRetries hasActiveTools with
  | (.retryWithFeedback feedback, session) =>
    let s := { s with
      session := session
      providerErrorRetries := satAdd usizeMax s.providerErrorRetries 1 }
    if R.maxProviderErrorRetries < s.providerErrorRetries then
      .returned (.error (s.makeFailure
        (s!"Session failed after {R.maxProviderErrorRetries} provider error retries. " ++
          s!"Last error: {e.message}"))) s.rejected
    else .again (s.push [userMessage feedback]).giveTurnBack
  | (.fail, _) => .returned (.error (e.context (.session (s.failure e.message)))) s.rejected

def afterToolCalls (s : RunState σ) (calls : List ToolCall) : Pass σ T :=
  match L.callTools s.session calls with
  | (.error e, _) => .returned (.error (e.context (.session (s.failure e.message)))) []
  | (.ok results, session) => .again ({ s with session := session }.push (results.map toolMessage))

def afterRejection (s : RunState σ) (sent : AiRequest) (violation : String) : Pass σ T :=
  let s := { s with
    rejected := s.rejected ++ [sent]
    validationAttempts := s.validationAttempts + 1 }
  if R.maxValidationAttempts ≤ s.validationAttempts then
    .returned (.error (s.makeFailure
      (s!"Failed to generate valid response after {R.maxValidationAttempts} validation " ++
        s!"attempts. Last violation: {violation}"))) s.rejected
  else
    .again (s.push [userMessage (L.formatValidationFeedback s.session violation)]).giveTurnBack

def validateResponse (s : RunState σ) (sent : AiRequest) (resp : AiResponse) : Pass σ T :=
  match L.validate s.session resp with
  | (.ok output, _) => .returned (.ok ⟨output, s.logHistory, s.usage⟩) []
  | (.error (.formatViolation violation), session) =>
    afterRejection R L { s with session := session } sent violation
  | (.error (.fatal err), _) =>
    .returned (.error (s.makeFailure s!"Fatal validation error: {err}")) []

/-- A truncated answer ends the run before its usage is counted. Tool calls on the final turn
are ignored, but the assistant message that carries them is already pushed. -/
def afterResponse (s : RunState σ) (sent : AiRequest) (resp : AiResponse) : Pass σ T :=
  if resp.truncated then
    .returned (.error (s.makeFailure
      "LLM output was truncated by provider (e.g. hit max tokens)")) (s.rejected ++ [sent])
  else
    let s := (s.countUsage resp.usage).push [assistantMessage resp]
    if resp.calls ≠ [] ∧ s.turns ≠ R.maxTurns then afterToolCalls L s resp.calls
    else validateResponse R L s sent resp

def afterAnswer (s : RunState σ) (sent : AiRequest) :
    Except AnyhowError AiResponse → Pass σ T
  | .ok resp => afterResponse R L s sent resp
  | .error e => match e.classifyAiError with
    | .rateLimit _ | .transient _ => afterTransient R s e
    | .fatal => afterFatal R L s sent e

/-- One call of `generate_content`: the turn counter it was sent at, whether the final turn
prompt was pushed for it, the request and what came back. -/
structure Call where
  turn : ℕ
  pushedPrompt : Bool
  request : AiRequest
  answer : Except AnyhowError AiResponse

/-- A run in progress, with the calls made so far. -/
structure Run (σ T π : Type) where
  provider : π
  calls : List Call
  status : Pass σ T

variable (P : Provider π)

def sendTurn (r : Run σ T π) (s : RunState σ) : Run σ T π :=
  let head := finalTurnHead R s
  let sent := buildRequest R L head
  let (answer, provider) := P.generateContent r.provider sent
  { provider := provider
    calls := r.calls ++ [⟨s.turns, pushesFinalTurnPrompt R s, sent, answer⟩]
    status := afterAnswer R L head sent answer }

def loopPass (r : Run σ T π) : Run σ T π :=
  match r.status with
  | .returned _ _ => r
  | .again s =>
    let s := beginTurn s
    if R.maxTurns < s.turns then
      { r with status := .returned (.error (s.makeFailure
          s!"Session exceeded max turns limit ({R.maxTurns})")) [] }
    else sendTurn R L P r s

def startRun (provider : π) (session : σ) : Run σ T π :=
  ⟨provider, [], .again (initialState L session)⟩

/-- The run after `n` passes of the loop. -/
def runFor (provider : π) (session : σ) (n : ℕ) : Run σ T π :=
  (loopPass R L P)^[n] (startRun L provider session)

end Loop

end Sashiko
