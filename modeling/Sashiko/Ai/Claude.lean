import Sashiko.Ai.Message

/-! `ai/claude.rs`: a conversation translated for the Claude API and its answers translated back. -/

namespace Sashiko

structure CacheControl where
  cacheType : String
  deriving DecidableEq, Repr

inductive ClaudeContent where
  | text (text : String) (cacheControl : Option CacheControl)
  | thinking (thinking signature : String) (cacheControl : Option CacheControl)
  | toolUse (id name : String) (input : Json)
  | toolResult (toolUseId content : String) (isError : Option Bool)
      (cacheControl : Option CacheControl)
  deriving DecidableEq, Repr

structure ClaudeMessage where
  role : String
  content : List ClaudeContent
  deriving DecidableEq, Repr

structure SystemBlock where
  blockType : String
  text : String
  cacheControl : Option CacheControl
  deriving DecidableEq, Repr

structure ClaudeTool where
  name : String
  description : String
  inputSchema : Json
  cacheControl : Option CacheControl
  deriving DecidableEq, Repr

structure ClaudeRequest where
  model : String
  messages : List ClaudeMessage
  maxTokens : ℕ
  system : Option (List SystemBlock)
  tools : Option (List ClaudeTool)
  /-- `ThinkingConfig::thinking_type` -/
  thinking : Option String
  /-- `OutputConfig::effort` -/
  outputConfig : Option String
  deriving DecidableEq, Repr

structure ClaudeUsage where
  inputTokens : ℕ
  outputTokens : ℕ
  cacheCreationInputTokens : Option ℕ
  cacheReadInputTokens : Option ℕ
  deriving DecidableEq, Repr

structure ClaudeResponse where
  id : String
  content : List ClaudeContent
  stopReason : Option String
  usage : ClaudeUsage
  deriving DecidableEq, Repr

/-! ### Requests -/

def AiResponseFormat.formatJsonSchemaInstruction : AiResponseFormat → Option String
  | .json (some schema) =>
    some ("RESPONSE FORMAT: You MUST respond with ONLY a valid JSON object matching this " ++
      "schema: " ++ schema.render ++
      ". Do not include any explanation, markdown, or code fences — output raw JSON.")
  | .json none =>
    some ("RESPONSE FORMAT: You MUST respond with ONLY a valid JSON object. Do not include any " ++
      "explanation, markdown, or code fences — output raw JSON.")
  | .text => none

def textBlock (text : String) : SystemBlock := ⟨"text", text, none⟩

def addInstruction (blocks : List SystemBlock) (instruction : String) : List SystemBlock :=
  match blocks.getLast? with
  | some last =>
    if last.blockType = "text" then
      blocks.dropLast ++ [{ last with text := last.text ++ "\n\n" ++ instruction }]
    else blocks ++ [textBlock instruction]
  | none => [textBlock instruction]

def assistantContent (msg : AiMessage) : List ClaudeContent :=
  (msg.content.map fun text => ClaudeContent.text text none).toList ++
    (match msg.thought, msg.thoughtSignature with
      | some thinking, some signature => [ClaudeContent.thinking thinking signature none]
      | _, _ => []) ++
    msg.calls.map fun call => .toolUse call.id call.functionName call.arguments

/-- What one message adds to the system blocks and to the messages. -/
def translateMessage (msg : AiMessage) : Except String (List SystemBlock × List ClaudeMessage) :=
  match msg.role with
  | .system => .ok ((msg.content.map textBlock).toList, [])
  | .user => .ok ([], [⟨"user", [.text (msg.content.getD "") none]⟩])
  | .assistant => .ok ([], [⟨"assistant", assistantContent msg⟩])
  | .tool =>
    match msg.toolCallId with
    | none => .error "Tool message missing tool_call_id"
    | some id => .ok ([], [⟨"user", [.toolResult id (msg.content.getD "\x7b\x7d") none none]⟩])

def translateMessages : List AiMessage → Except String (List SystemBlock × List ClaudeMessage)
  | [] => .ok ([], [])
  | msg :: rest => do
    let (blocks, messages) ← translateMessage msg
    let (moreBlocks, moreMessages) ← translateMessages rest
    .ok (blocks ++ moreBlocks, messages ++ moreMessages)

def ephemeral : Option CacheControl := some ⟨"ephemeral"⟩

def ClaudeContent.mark : ClaudeContent → ClaudeContent
  | .text words _ => .text words ephemeral
  | .thinking thought signature _ => .thinking thought signature ephemeral
  | .toolUse id name input => .toolUse id name input
  | .toolResult toolUseId content isError _ => .toolResult toolUseId content isError ephemeral

/-- `if let Some(last) = xs.last_mut()` -/
def modifyLast {α : Type} (f : α → α) (xs : List α) : List α :=
  match xs.getLast? with
  | some last => xs.dropLast ++ [f last]
  | none => xs

def applyCacheControl (request : ClaudeRequest) : ClaudeRequest :=
  { request with
    system := request.system.map (modifyLast fun b => { b with cacheControl := ephemeral })
    tools := request.tools.map (modifyLast fun t => { t with cacheControl := ephemeral })
    messages := modifyLast (fun m => { m with content := modifyLast .mark m.content })
      request.messages }

def translateAiRequest (request : AiRequest) (enableCaching : Bool) (maxTokens : ℕ)
    (thinking effort : Option String) : Except String ClaudeRequest := do
  let systemBlocks := (request.system.map textBlock).toList
  let systemBlocks :=
    match request.responseFormat.bind AiResponseFormat.formatJsonSchemaInstruction with
    | some instruction => addInstruction systemBlocks instruction
    | none => systemBlocks
  let (moreBlocks, messages) ← translateMessages request.messages
  let systemBlocks := systemBlocks ++ moreBlocks
  let claudeRequest : ClaudeRequest :=
    { model := ""
      messages := messages
      maxTokens := maxTokens
      system := if systemBlocks = [] then none else some systemBlocks
      tools := request.tools.map fun tools =>
        tools.map fun tool => ⟨tool.name, tool.description, tool.parameters, none⟩
      thinking := thinking
      outputConfig := effort }
  .ok (if enableCaching then applyCacheControl claudeRequest else claudeRequest)

/-! ### Answers -/

/-- What has been gathered from the blocks of an answer. -/
structure AnswerParts where
  content : String
  thought : String
  thoughtSignature : String
  toolCalls : List ToolCall

def AnswerParts.absorb (parts : AnswerParts) : ClaudeContent → AnswerParts
  | .text text _ => { parts with content := parts.content ++ text }
  | .thinking thinking signature _ =>
    { parts with
      thought := parts.thought ++ thinking
      thoughtSignature := parts.thoughtSignature ++ signature }
  | .toolUse id name input =>
    { parts with toolCalls := parts.toolCalls ++ [⟨id, name, input, none⟩] }
  | .toolResult _ _ _ _ => parts

def nonEmpty (text : String) : Option String := if text = "" then none else some text

/-- Counts of tokens are `u32`. -/
def addU32 (a b : ℕ) : ℕ := (a + b) % 2 ^ 32

def ClaudeUsage.toAiUsage (usage : ClaudeUsage) : AiUsage :=
  let cacheRead := usage.cacheReadInputTokens.getD 0
  let cacheWrite := usage.cacheCreationInputTokens.getD 0
  let totalInput := addU32 (addU32 usage.inputTokens cacheRead) cacheWrite
  { promptTokens := totalInput
    completionTokens := usage.outputTokens
    totalTokens := addU32 totalInput usage.outputTokens
    cachedTokens := if 0 < cacheRead then some cacheRead else none }

def translateAiResponse (resp : ClaudeResponse) : AiResponse :=
  let parts := resp.content.foldl AnswerParts.absorb ⟨"", "", "", []⟩
  { content := nonEmpty parts.content
    thought := nonEmpty parts.thought
    thoughtSignature := nonEmpty parts.thoughtSignature
    toolCalls := if parts.toolCalls = [] then none else some parts.toolCalls
    usage := some resp.usage.toAiUsage
    truncated := resp.stopReason = some "max_tokens" }

end Sashiko
