import Sashiko.Json
import Sashiko.Lib.Saturating

/-! The conversation types of `ai/mod.rs`, and the outcome types that travel inside an
error: a failed session or workflow attaches what it had done so far. -/

namespace Sashiko

def u32Max : ℕ := 2 ^ 32 - 1

inductive AiRole where
  | system | user | assistant | tool
  deriving DecidableEq, Repr

structure ToolCall where
  id : String
  functionName : String
  arguments : Json
  thoughtSignature : Option String
  deriving DecidableEq, Repr

structure AiMessage where
  role : AiRole
  content : Option String
  thought : Option String
  thoughtSignature : Option String
  toolCalls : Option (List ToolCall)
  toolCallId : Option String
  deriving DecidableEq, Repr

/-- `tool_calls` with an absent list read as an empty one. -/
def AiMessage.calls (m : AiMessage) : List ToolCall := m.toolCalls.getD []

inductive AiResponseFormat where
  | text
  | json (schema : Option Json)
  deriving DecidableEq, Repr

structure AiTool where
  name : String
  description : String
  parameters : Json
  deriving DecidableEq, Repr

inductive ReasoningEffort where
  | low | medium | high
  deriving DecidableEq, Repr

/-- The temperature is the bit pattern of the `f32`. -/
structure AiRequest where
  system : Option String
  messages : List AiMessage
  tools : Option (List AiTool)
  temperature : Option (BitVec 32)
  responseFormat : Option AiResponseFormat
  contextTag : Option String
  reasoningEffort : Option ReasoningEffort
  deriving DecidableEq, Repr

structure AiUsage where
  promptTokens : ℕ
  completionTokens : ℕ
  totalTokens : ℕ
  cachedTokens : Option ℕ
  deriving DecidableEq, Repr

structure AiResponse where
  content : Option String
  thought : Option String
  thoughtSignature : Option String
  toolCalls : Option (List ToolCall)
  usage : Option AiUsage
  truncated : Bool
  deriving DecidableEq, Repr

def AiResponse.calls (r : AiResponse) : List ToolCall := r.toolCalls.getD []

/-- The retry delays are in seconds. -/
inductive AiErrorClass where
  | fatal
  | rateLimit (retryAfter : ℕ)
  | transient (retryAfter : ℕ)
  deriving DecidableEq, Repr

structure SessionFailure where
  message : String
  history : List AiMessage
  usage : AiUsage
  deriving DecidableEq, Repr

structure StageRunRecord where
  name : String
  skipped : Bool
  turns : ℕ
  tokensIn : ℕ
  tokensOut : ℕ
  tokensCached : ℕ
  historyStart : ℕ
  historyEnd : ℕ
  deriving DecidableEq, Repr

structure WorkflowOutcome where
  tokensIn : ℕ
  tokensOut : ℕ
  tokensCached : ℕ
  history : List AiMessage
  stageRuns : List StageRunRecord
  earlyExit : Bool
  earlyExitReason : Option String
  deriving DecidableEq, Repr

structure WorkflowFailure where
  message : String
  outcome : WorkflowOutcome
  deriving DecidableEq, Repr

/-- One link of an `anyhow::Error` chain. `provider` stands for the typed provider errors that
`classify_ai_error` recognises, with the class it reads off them. -/
inductive ErrorLayer where
  | text (display : String)
  | provider (display : String) (errClass : AiErrorClass)
  | session (failure : SessionFailure)
  | workflow (failure : WorkflowFailure)
  deriving DecidableEq, Repr

/-- An error chain is never empty: `outer` is what is displayed. -/
structure AnyhowError where
  outer : ErrorLayer
  inner : List ErrorLayer
  deriving DecidableEq, Repr

def ErrorLayer.display : ErrorLayer → String
  | .text d => d
  | .provider d _ => d
  | .session f => f.message
  | .workflow f => f.message

namespace AnyhowError

def new (layer : ErrorLayer) : AnyhowError := ⟨layer, []⟩

/-- `err.context(..)`. -/
def context (e : AnyhowError) (layer : ErrorLayer) : AnyhowError := ⟨layer, e.outer :: e.inner⟩

def layers (e : AnyhowError) : List ErrorLayer := e.outer :: e.inner

/-- `err.to_string()`. -/
def message (e : AnyhowError) : String := e.outer.display

/-- `err.downcast_ref::<SessionFailure>()`: the outermost one. -/
def sessionFailure (e : AnyhowError) : Option SessionFailure :=
  e.layers.findSome? fun
    | .session f => some f
    | _ => none

/-- `err.downcast_ref::<WorkflowFailure>()`: the outermost one. -/
def workflowFailure (e : AnyhowError) : Option WorkflowFailure :=
  e.layers.findSome? fun
    | .workflow f => some f
    | _ => none

/-- An error that carries no typed provider error is fatal. -/
def classifyAiError (e : AnyhowError) : AiErrorClass :=
  (e.layers.findSome? fun
    | .provider _ c => some c
    | _ => none).getD .fatal

@[simp] theorem sessionFailure_new (f : SessionFailure) :
    (new (.session f)).sessionFailure = some f := rfl

@[simp] theorem sessionFailure_context (e : AnyhowError) (f : SessionFailure) :
    (e.context (.session f)).sessionFailure = some f := rfl

@[simp] theorem workflowFailure_context (e : AnyhowError) (f : WorkflowFailure) :
    (e.context (.workflow f)).workflowFailure = some f := rfl

end AnyhowError

end Sashiko
