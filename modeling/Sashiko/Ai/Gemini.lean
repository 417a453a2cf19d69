import Mathlib.Algebra.GroupWithZero.Nat
import Sashiko.Ai.Message

/-! `ai/gemini.rs`: a conversation translated for the Gemini API, its answers translated back, and
the loop that fetches an answer which arrives in several pieces. -/

namespace Sashiko.Gemini

structure FunctionCall where
  id : Option String
  name : String
  args : Json
  deriving DecidableEq, Repr

structure FunctionResponse where
  id : Option String
  name : String
  response : Json
  deriving DecidableEq, Repr

inductive Part where
  | text (text : String) (thoughtSignature : Option String) (thought : Bool)
  | functionCall (call : FunctionCall) (thoughtSignature : Option String)
  | functionResponse (response : FunctionResponse)
  | thoughtSignature (thoughtSignature : String) (thought : Bool)
  deriving DecidableEq, Repr

structure Content where
  role : String
  parts : List Part
  deriving DecidableEq, Repr

structure FunctionDeclaration where
  name : String
  description : String
  parameters : Json
  deriving DecidableEq, Repr

structure Tool where
  functionDeclarations : List FunctionDeclaration
  deriving DecidableEq, Repr

structure ThinkingConfig where
  includeThoughts : Bool
  thinkingLevel : Option String
  deriving DecidableEq, Repr

structure GenerationConfig where
  responseMimeType : Option String
  responseSchema : Option Json
  temperature : Option (BitVec 32)
  maxOutputTokens : Option ℕ
  thinkingConfig : Option ThinkingConfig
  deriving DecidableEq, Repr

structure GenerateContentRequest where
  contents : List Content
  tools : Option (List Tool)
  systemInstruction : Option Content
  generationConfig : Option GenerationConfig
  continuationToken : Option String
  deriving DecidableEq, Repr

structure PromptFeedback where
  blockReason : Option String
  deriving DecidableEq, Repr

structure Candidate where
  content : Content
  finishReason : Option String
  continuationToken : Option String
  deriving DecidableEq, Repr

structure UsageMetadata where
  promptTokenCount : ℕ
  candidatesTokenCount : Option ℕ
  totalTokenCount : ℕ
  cachedContentTokenCount : Option ℕ
  thoughtsTokenCount : Option ℕ
  deriving DecidableEq, Repr

structure GenerateContentResponse where
  candidates : Option (List Candidate)
  promptFeedback : Option PromptFeedback
  usageMetadata : Option UsageMetadata
  deriving DecidableEq, Repr

/-- A text, unless it is empty. -/
def nonEmpty (text : Option String) : Option String := text.filter (· ≠ "")

/-! ### Requests -/

/-- What the messages so far have become. -/
structure Translation where
  contents : List Content
  systemInstruction : Option Content
  callIdToName : List (String × String)

def instruction (text : String) : Content := ⟨"user", [.text text none false]⟩

/-- A part joins the last turn if that is a user turn, and starts a user turn otherwise. -/
def pushUserPart (contents : List Content) (part : Part) : List Content :=
  match contents.getLast? with
  | some last =>
    if last.role = "user" then contents.dropLast ++ [{ last with parts := last.parts ++ [part] }]
    else contents ++ [⟨"user", [part]⟩]
  | none => [⟨"user", [part]⟩]

/-- A call that Gemini gave no id goes by the name of its function and is sent back without one. -/
def callId (call : ToolCall) : Option String :=
  if call.id ≠ "" ∧ call.id ≠ call.functionName then some call.id else none

def callPart (call : ToolCall) (signature : Option String) : Part :=
  .functionCall ⟨callId call, call.functionName, call.arguments⟩ signature

/-- A pending signature goes to the first call that has none of its own. -/
def callParts : Option String → List ToolCall → List Part
  | _, [] => []
  | pending, call :: calls =>
    match nonEmpty call.thoughtSignature with
    | some signature => callPart call (some signature) :: callParts pending calls
    | none => callPart call pending :: callParts none calls

def callNeedsSig (msg : AiMessage) : Bool :=
  msg.calls.any fun call => call.thoughtSignature.getD "" = ""

/-- The text takes the signature, unless a call needs it. -/
def textPart (msg : AiMessage) : Option Part :=
  msg.content.map fun text =>
    .text text (if callNeedsSig msg then none else nonEmpty msg.thoughtSignature) false

def pendingSignature (msg : AiMessage) : Option String :=
  if msg.content.isSome && !callNeedsSig msg then none else nonEmpty msg.thoughtSignature

def signaturePart (msg : AiMessage) : Option Part :=
  (pendingSignature msg).map fun signature => .text "" (some signature) false

def assistantParts (msg : AiMessage) : List Part :=
  let parts := (textPart msg).toList ++ callParts (pendingSignature msg) msg.calls
  if parts = [] then (signaturePart msg).toList else parts

/-- A later call under the same id hides an earlier one. -/
def rememberCalls (callIdToName : List (String × String)) (calls : List ToolCall) :
    List (String × String) :=
  calls.foldl (fun names call =>
    match callId call with
    | some id => (id, call.functionName) :: names
    | none => names) callIdToName

section Requests

-- `serde_json::from_str::<Value>`, `none` for an error.
variable (fromStr : String → Option Json)

def responsePayload (content : Option String) : Json :=
  match content with
  | some raw =>
    match fromStr raw with
    | some (.obj fields) => .obj fields
    | _ => .obj [("output", .str raw)]
  | none => .obj []

def functionResponse (callIdToName : List (String × String)) (rawId : String)
    (content : Option String) : FunctionResponse :=
  match callIdToName.lookup rawId with
  | some name => ⟨some rawId, name, responsePayload fromStr content⟩
  | none => ⟨none, rawId, responsePayload fromStr content⟩

def translateMessage (t : Translation) (msg : AiMessage) : Except String Translation :=
  match msg.role with
  | .system =>
    match msg.content, t.systemInstruction with
    | some content, none => .ok { t with systemInstruction := some (instruction content) }
    | _, _ => .ok t
  | .user =>
    .ok { t with contents := pushUserPart t.contents (.text (msg.content.getD "") none false) }
  | .assistant =>
    .ok { t with
      contents :=
        if assistantParts msg = [] then t.contents
        else t.contents ++ [⟨"model", assistantParts msg⟩]
      callIdToName := rememberCalls t.callIdToName msg.calls }
  | .tool =>
    match msg.toolCallId with
    | none => .error "Tool message missing tool_call_id"
    | some rawId =>
      .ok { t with
        contents := pushUserPart t.contents
          (.functionResponse (functionResponse fromStr t.callIdToName rawId msg.content)) }

def translateMessages (system : Option String) (messages : List AiMessage) :
    Except String Translation :=
  messages.foldlM (translateMessage fromStr) ⟨[], system.map instruction, []⟩

-- `str::to_uppercase`
variable (toUppercase : String → String)

mutual
/-- The types of a schema are written in capitals. -/
def normalizeSchema : Json → Json
  | .obj fields => .obj (normalizeFields fields)
  | .arr items => .arr (normalizeItems items)
  | other => other
def normalizeItems : List Json → List Json
  | [] => []
  | item :: items => normalizeSchema item :: normalizeItems items
def normalizeFields : List (String × Json) → List (String × Json)
  | [] => []
  | (key, .str s) :: fields =>
    (key, .str (if key = "type" then toUppercase s else s)) :: normalizeFields fields
  | (key, value) :: fields => (key, normalizeSchema value) :: normalizeFields fields
end

def asGeminiThinkingLevel : ReasoningEffort → String
  | .low => "LOW"
  | .medium => "MEDIUM"
  | .high => "HIGH"

/-- `str::to_ascii_uppercase` -/
def asciiUpper (s : String) : String := String.ofList (s.toList.map Char.toUpper)

def translateAiRequestWithOptions (request : AiRequest) (defaultThinkingLevel : Option String)
    (maxOutputTokens : Option ℕ) : Except String GenerateContentRequest := do
  let t ← translateMessages fromStr request.system request.messages
  .ok
    { contents := t.contents
      tools := request.tools.map fun tools => [⟨tools.map fun tool =>
        ⟨tool.name, tool.description, normalizeSchema toUppercase tool.parameters⟩⟩]
      systemInstruction := t.systemInstruction
      generationConfig := some
        { responseMimeType := request.responseFormat.map fun
            | .text => "text/plain"
            | .json _ => "application/json"
          responseSchema := request.responseFormat.bind fun
            | .text => none
            | .json schema => schema.map (normalizeSchema toUppercase)
          temperature := request.temperature
          maxOutputTokens := maxOutputTokens.filter (0 < ·)
          thinkingConfig := some
            { includeThoughts := true
              thinkingLevel := (request.reasoningEffort.map asGeminiThinkingLevel).or
                ((nonEmpty (defaultThinkingLevel.map rustTrim)).map asciiUpper) } }
      continuationToken := none }

end Requests

/-! ### Answers -/

section Answers

-- The integer that a number printed as a float is turned into, if it is one and fits.
variable (integral : String → Option Int)

mutual
def normalizeJsonNumbers : Json → Json
  | .float text => (integral text).elim (.float text) .int
  | .arr items => .arr (normalizeNumbersItems items)
  | .obj fields => .obj (normalizeNumbersFields fields)
  | other => other
def normalizeNumbersItems : List Json → List Json
  | [] => []
  | item :: items => normalizeJsonNumbers item :: normalizeNumbersItems items
def normalizeNumbersFields : List (String × Json) → List (String × Json)
  | [] => []
  | (key, value) :: fields => (key, normalizeJsonNumbers value) :: normalizeNumbersFields fields
end

/-- What has been gathered from the parts of an answer. -/
structure Gathered where
  content : String
  thought : String
  lastThoughtSignature : Option String
  toolCalls : List ToolCall

/-- A signature before a call belongs to the call, if that has none of its own. -/
def Gathered.absorb (g : Gathered) : Part → Gathered
  | .text text signature thought =>
    { g with
      lastThoughtSignature := (nonEmpty signature).or g.lastThoughtSignature
      content := if thought then g.content else g.content ++ text
      thought := if thought then g.thought ++ text else g.thought }
  | .functionCall call signature =>
    { g with
      lastThoughtSignature := none
      toolCalls := g.toolCalls ++
        [⟨(nonEmpty call.id).getD call.name, call.name, normalizeJsonNumbers integral call.args,
          (nonEmpty signature).or g.lastThoughtSignature⟩] }
  | .thoughtSignature signature _ =>
    { g with lastThoughtSignature := (nonEmpty (some signature)).or g.lastThoughtSignature }
  | .functionResponse _ => g

def gather (parts : List Part) : Gathered :=
  parts.foldl (Gathered.absorb integral) ⟨"", "", none, []⟩

def u32Add (a b : ℕ) : ℕ := satAdd u32Max a b

def UsageMetadata.outputTokenCount (usage : UsageMetadata) : ℕ :=
  u32Add (usage.candidatesTokenCount.getD 0) (usage.thoughtsTokenCount.getD 0)

def UsageMetadata.toAiUsage (usage : UsageMetadata) : AiUsage :=
  { promptTokens := usage.promptTokenCount
    completionTokens := usage.outputTokenCount
    totalTokens := usage.totalTokenCount
    cachedTokens := usage.cachedContentTokenCount }

def GenerateContentResponse.blockReason (resp : GenerateContentResponse) : Option String :=
  resp.promptFeedback.bind (·.blockReason)

def GenerateContentResponse.candidate (resp : GenerateContentResponse) : Option Candidate :=
  resp.candidates.bind List.head?

def blockedReasons : List String :=
  ["SAFETY", "RECITATION", "OTHER", "BLOCKLIST", "PROHIBITED_CONTENT"]

def failedCallReasons : List String := ["MALFORMED_FUNCTION_CALL", "UNEXPECTED_TOOL_CALL"]

def answerOf (candidate : Candidate) (usage : Option UsageMetadata) : AiResponse :=
  let g := gather integral candidate.content.parts
  { content := nonEmpty (some g.content)
    thought := nonEmpty (some g.thought)
    thoughtSignature := if g.toolCalls = [] then g.lastThoughtSignature else none
    toolCalls := if g.toolCalls = [] then none else some g.toolCalls
    usage := usage.map UsageMetadata.toAiUsage
    truncated := candidate.finishReason = some "MAX_TOKENS" ∨
      candidate.finishReason = some "CONTINUATION" }

def translateAiResponse (resp : GenerateContentResponse) : Except String AiResponse :=
  match resp.blockReason with
  | some reason =>
    .error ("Gemini request blocked by prompt feedback (reason: " ++ reason ++ ")")
  | none =>
    match resp.candidate with
    | none => .error "No candidates returned from Gemini"
    | some candidate =>
      let finishReason := candidate.finishReason.getD ""
      if blockedReasons.contains finishReason then
        .error ("Gemini candidate blocked (finish reason: " ++ finishReason ++ ")")
      else if failedCallReasons.contains finishReason then
        .error ("Gemini candidate failed tool call (finish reason: " ++ finishReason ++ ")")
      else .ok (answerOf integral candidate resp.usageMetadata)

end Answers

/-! ### Answers in several pieces -/

def maxContinuationHops : ℕ := 16

/-- The token under which an answer that is not complete goes on. -/
def GenerateContentResponse.offeredToken (resp : GenerateContentResponse) : Option String :=
  resp.candidate.bind fun candidate =>
    if candidate.finishReason = some "CONTINUATION" then candidate.continuationToken.map rustTrim
    else none

def nextContinuationToken (resp : GenerateContentResponse) (lastSentToken : Option String) :
    Option String :=
  if resp.blockReason.isSome then none
  else resp.offeredToken.filter fun token => token ≠ "" ∧ lastSentToken ≠ some token

def sumOptionalU32 : Option ℕ → Option ℕ → Option ℕ
  | some a, some b => some (u32Add a b)
  | a, b => a.or b

def UsageMetadata.add (acc next : UsageMetadata) : UsageMetadata :=
  { promptTokenCount := u32Add acc.promptTokenCount next.promptTokenCount
    candidatesTokenCount := sumOptionalU32 acc.candidatesTokenCount next.candidatesTokenCount
    totalTokenCount := u32Add acc.totalTokenCount next.totalTokenCount
    cachedContentTokenCount :=
      sumOptionalU32 acc.cachedContentTokenCount next.cachedContentTokenCount
    thoughtsTokenCount := sumOptionalU32 acc.thoughtsTokenCount next.thoughtsTokenCount }

def mergeCandidates (acc next : Option (List Candidate)) : Option (List Candidate) :=
  match next with
  | some (nextCand :: _) =>
    match acc with
    | some (accCand :: others) =>
      some ({ nextCand with
        content :=
          { accCand.content with
            parts := accCand.content.parts ++ nextCand.content.parts } } :: others)
    | _ => some [nextCand]
  | _ => acc

def mergeUsage : Option UsageMetadata → Option UsageMetadata → Option UsageMetadata
  | some acc, some next => some (acc.add next)
  | acc, next => acc.or next

def mergeContinuationResponse (acc next : GenerateContentResponse) : GenerateContentResponse :=
  { candidates := mergeCandidates acc.candidates next.candidates
    promptFeedback := if next.blockReason.isSome then next.promptFeedback else acc.promptFeedback
    usageMetadata := mergeUsage acc.usageMetadata next.usageMetadata }

section Fetching

-- `generate_content_single`: one request and what comes back.
variable {π : Type} (generateContentSingle :
  GenerateContentRequest → π → Except AnyhowError GenerateContentResponse × π)

def continueContent : ℕ → GenerateContentRequest → GenerateContentResponse → π →
    Except AnyhowError GenerateContentResponse × π
  | 0, _, acc, server => (.ok acc, server)
  | hops + 1, request, acc, server =>
    match nextContinuationToken acc request.continuationToken with
    | none => (.ok acc, server)
    | some token =>
      match generateContentSingle { request with continuationToken := some token } server with
      | (.error e, server') => (.error e, server')
      | (.ok next, server') =>
        continueContent hops { request with continuationToken := some token }
          (mergeContinuationResponse acc next) server'

def generateContent (request : GenerateContentRequest) (server : π) :
    Except AnyhowError GenerateContentResponse × π :=
  match generateContentSingle request server with
  | (.error e, server') => (.error e, server')
  | (.ok acc, server') =>
    continueContent generateContentSingle maxContinuationHops request acc server'

/-! ### All pieces are kept -/

/-- Requests that were answered, one after the other, with their answers. -/
inductive Fetched : π → List (GenerateContentRequest × GenerateContentResponse) → π → Prop
  | nil (server : π) : Fetched server [] server
  | cons {server server' server'' : π} {request : GenerateContentRequest}
      {resp : GenerateContentResponse}
      {rest : List (GenerateContentRequest × GenerateContentResponse)}
      (hsent : generateContentSingle request server = (.ok resp, server'))
      (hrest : Fetched server' rest server'') : Fetched server ((request, resp) :: rest) server''

end Fetching

def GenerateContentResponse.parts (resp : GenerateContentResponse) : List Part :=
  (resp.candidate.map fun candidate => candidate.content.parts).getD []

/-- A count of tokens, zero if there is no usage. -/
def GenerateContentResponse.count (f : UsageMetadata → ℕ) (resp : GenerateContentResponse) : ℕ :=
  (resp.usageMetadata.map f).getD 0

theorem parts_mergeContinuationResponse (acc next : GenerateContentResponse) :
    (mergeContinuationResponse acc next).parts = acc.parts ++ next.parts := by
  obtain ⟨accCands, accFeedback, accUsage⟩ := acc
  obtain ⟨nextCands, nextFeedback, nextUsage⟩ := next
  cases nextCands with
  | none => exact (List.append_nil _).symm
  | some nextCands =>
    cases nextCands with
    | nil => exact (List.append_nil _).symm
    | cons nextCand nextCands =>
      cases accCands with
      | none => rfl
      | some accCands => cases accCands <;> rfl

/-- What is counted saturates as the counts it is made of do. -/
def Counts (f : UsageMetadata → ℕ) : Prop :=
  ∀ a b, min (f (a.add b)) u32Max = min (f a + f b) u32Max

theorem counts_promptTokenCount : Counts UsageMetadata.promptTokenCount := fun a b => by
  simp only [UsageMetadata.add, u32Add, satAdd]
  omega

theorem counts_totalTokenCount : Counts UsageMetadata.totalTokenCount := fun a b => by
  simp only [UsageMetadata.add, u32Add, satAdd]
  omega

theorem min_sumOptionalU32 (a b : Option ℕ) :
    min ((sumOptionalU32 a b).getD 0) u32Max = min (a.getD 0 + b.getD 0) u32Max := by
  cases a <;> cases b <;> simp [sumOptionalU32, u32Add, satAdd]

theorem counts_outputTokenCount : Counts UsageMetadata.outputTokenCount := fun a b => by
  have hcandidates := min_sumOptionalU32 a.candidatesTokenCount b.candidatesTokenCount
  have hthoughts := min_sumOptionalU32 a.thoughtsTokenCount b.thoughtsTokenCount
  simp only [UsageMetadata.outputTokenCount, UsageMetadata.add, u32Add, satAdd]
  omega

theorem count_mergeContinuationResponse {f : UsageMetadata → ℕ} (hf : Counts f)
    (acc next : GenerateContentResponse) :
    min ((mergeContinuationResponse acc next).count f) u32Max =
      min (acc.count f + next.count f) u32Max := by
  obtain ⟨accCands, accFeedback, accUsage⟩ := acc
  obtain ⟨nextCands, nextFeedback, nextUsage⟩ := next
  cases accUsage <;> cases nextUsage
  case some.some accUsage nextUsage => exact hf accUsage nextUsage
  all_goals
    simp [GenerateContentResponse.count, mergeContinuationResponse, mergeUsage]

theorem offeredToken_mergeContinuationResponse (acc next : GenerateContentResponse) :
    (mergeContinuationResponse acc next).offeredToken = next.offeredToken ∨
      (mergeContinuationResponse acc next).offeredToken = acc.offeredToken := by
  obtain ⟨accCands, accFeedback, accUsage⟩ := acc
  obtain ⟨nextCands, nextFeedback, nextUsage⟩ := next
  cases nextCands with
  | none => exact .inr rfl
  | some nextCands =>
    cases nextCands with
    | nil => exact .inr rfl
    | cons nextCand nextCands =>
      refine .inl ?_
      cases accCands with
      | none => rfl
      | some accCands => cases accCands <;> rfl

theorem nextContinuationToken_eq_some {resp : GenerateContentResponse} {last : Option String}
    {token : String} (h : nextContinuationToken resp last = some token) :
    resp.offeredToken = some token ∧ last ≠ some token := by
  unfold nextContinuationToken at h
  split_ifs at h
  obtain ⟨hoffered, hnew⟩ := Option.filter_eq_some_iff.mp h
  exact ⟨hoffered, (of_decide_eq_true hnew).2⟩

/-- The token of the last request that was sent. -/
def lastToken (request : GenerateContentRequest)
    (exchanges : List (GenerateContentRequest × GenerateContentResponse)) : Option String :=
  (exchanges.getLast?.map fun e => e.1.continuationToken).getD request.continuationToken

theorem lastToken_cons (request : GenerateContentRequest)
    (e : GenerateContentRequest × GenerateContentResponse)
    (exchanges : List (GenerateContentRequest × GenerateContentResponse)) :
    lastToken request (e :: exchanges) = lastToken e.1 exchanges := by
  unfold lastToken
  rw [List.getLast?_cons]
  cases exchanges.getLast? <;> rfl

/-- A request goes on where the answer before it stopped, under a token that is new. -/
def GoesOn (a b : GenerateContentRequest × GenerateContentResponse) : Prop :=
  a.2.offeredToken = b.1.continuationToken ∧ a.1.continuationToken ≠ b.1.continuationToken

/-- The counts that a session is billed for. -/
def billedCounts : List (UsageMetadata → ℕ) :=
  [UsageMetadata.promptTokenCount, UsageMetadata.outputTokenCount, UsageMetadata.totalTokenCount]

theorem counts_of_billed {f : UsageMetadata → ℕ} (hf : f ∈ billedCounts) : Counts f := by
  simp only [billedCounts, List.mem_cons, List.not_mem_nil, or_false] at hf
  rcases hf with rfl | rfl | rfl
  · exact counts_promptTokenCount
  · exact counts_outputTokenCount
  · exact counts_totalTokenCount

section Pieces

variable {π : Type} {generateContentSingle :
  GenerateContentRequest → π → Except AnyhowError GenerateContentResponse × π}

/-- What the loop has done when it ends without an error. -/
structure Continued (generateContentSingle :
    GenerateContentRequest → π → Except AnyhowError GenerateContentResponse × π) (hops : ℕ)
    (first : GenerateContentRequest × GenerateContentResponse) (acc : GenerateContentResponse)
    (server : π) (exchanges : List (GenerateContentRequest × GenerateContentResponse))
    (result : GenerateContentResponse) (server' : π) : Prop where
  fetched : Fetched generateContentSingle server exchanges server'
  length_le : exchanges.length ≤ hops
  requests : ∀ e ∈ exchanges, { e.1 with continuationToken := none } =
    { first.1 with continuationToken := none }
  goesOn : (first :: exchanges).IsChain GoesOn
  parts : result.parts = acc.parts ++ exchanges.flatMap (·.2.parts)
  count : ∀ f ∈ billedCounts, min (result.count f) u32Max =
    min (acc.count f + (exchanges.map (·.2.count f)).sum) u32Max
  done : exchanges.length < hops →
    nextContinuationToken result (lastToken first.1 exchanges) = none

theorem continued_continueContent {hops : ℕ} {request : GenerateContentRequest}
    {last acc result : GenerateContentResponse} {server server' : π}
    (hlast : ∀ token, nextContinuationToken acc request.continuationToken = some token →
      last.offeredToken = some token)
    (h : continueContent generateContentSingle hops request acc server = (.ok result, server')) :
    ∃ exchanges, Continued generateContentSingle hops (request, last) acc server exchanges result
      server' := by
  induction hops generalizing request last acc server with
  | zero =>
    cases h
    exact ⟨[], .nil _, Nat.le_refl _, fun e he => absurd he List.not_mem_nil, .singleton _,
      (List.append_nil _).symm, fun f hf => rfl, fun hlt => absurd hlt (Nat.not_lt_zero _)⟩
  | succ hops ih =>
    unfold continueContent at h
    split at h
    · rename_i hstop
      cases h
      exact ⟨[], .nil _, Nat.zero_le _, fun e he => absurd he List.not_mem_nil, .singleton _,
        (List.append_nil _).symm, fun f hf => rfl, fun _ => hstop⟩
    · rename_i token htoken
      obtain ⟨hoffered, hnew⟩ := nextContinuationToken_eq_some htoken
      split at h
      · cases h
      · rename_i next server₁ hsent
        have hnext : ∀ t, nextContinuationToken (mergeContinuationResponse acc next) (some token) =
            some t → next.offeredToken = some t := by
          intro t ht
          obtain ⟨hmerged, hne⟩ := nextContinuationToken_eq_some ht
          rcases offeredToken_mergeContinuationResponse acc next with hsame | hsame
          · rw [← hsame, hmerged]
          · rw [hsame, hoffered] at hmerged
            exact absurd hmerged hne
        obtain ⟨exchanges, hrest⟩ := ih hnext h
        refine ⟨({ request with continuationToken := some token }, next) :: exchanges,
          .cons hsent hrest.fetched, Nat.succ_le_succ hrest.length_le, ?_, ?_, ?_, ?_, ?_⟩
        · intro e he
          rcases List.mem_cons.mp he with rfl | he
          · rfl
          · exact hrest.requests e he
        · exact .cons_cons ⟨hlast token htoken, hnew⟩ hrest.goesOn
        · rw [hrest.parts, parts_mergeContinuationResponse, List.append_assoc]
          rfl
        · intro f hf
          have hmerge := count_mergeContinuationResponse (counts_of_billed hf) acc next
          have hcount := hrest.count f hf
          rw [List.map_cons, List.sum_cons]
          dsimp only at *
          omega
        · intro hlt
          rw [lastToken_cons]
          exact hrest.done (Nat.lt_of_succ_lt_succ hlt)

/-- An answer that arrives in pieces is put together from all of them: at most 17 requests that
differ in their tokens only, every part in order, every token counted. -/
theorem generateContent_whole {request : GenerateContentRequest}
    {result : GenerateContentResponse} {server server' : π}
    (h : generateContent generateContentSingle request server = (.ok result, server')) :
    ∃ resp exchanges, Fetched generateContentSingle server ((request, resp) :: exchanges) server' ∧
      exchanges.length ≤ maxContinuationHops ∧
      (∀ e ∈ exchanges, { e.1 with continuationToken := none } =
        { request with continuationToken := none }) ∧
      ((request, resp) :: exchanges).IsChain GoesOn ∧
      result.parts = resp.parts ++ exchanges.flatMap (·.2.parts) ∧
      (∀ f ∈ billedCounts, min (result.count f) u32Max =
        min (resp.count f + (exchanges.map (·.2.count f)).sum) u32Max) ∧
      (exchanges.length < maxContinuationHops →
        nextContinuationToken result (lastToken request exchanges) = none) := by
  unfold generateContent at h
  split at h
  · cases h
  · rename_i resp server₁ hsent
    obtain ⟨exchanges, hcontinued⟩ := @continued_continueContent π generateContentSingle _ request
      resp resp result server₁ server' (fun token ht => (nextContinuationToken_eq_some ht).1) h
    exact ⟨resp, exchanges, .cons hsent hcontinued.fetched, hcontinued.length_le,
      hcontinued.requests, hcontinued.goesOn, hcontinued.parts, hcontinued.count,
      hcontinued.done⟩

end Pieces

/-- A server that has its answers ready. -/
def readyServer (_ : GenerateContentRequest) : List GenerateContentResponse →
    Except AnyhowError GenerateContentResponse × List GenerateContentResponse
  | [] => (.error (.new (.text "Gemini API error")), [])
  | resp :: rest => (.ok resp, rest)

def onePiece (text finishReason : String) (token : Option String) : GenerateContentResponse :=
  ⟨some [⟨⟨"model", [.text text none false]⟩, some finishReason, token⟩], none,
    some ⟨10, some 5, 15, none, none⟩⟩

def firstPiece : GenerateContentResponse := onePiece "The lock is " "CONTINUATION" (some "t1 ")

def secondPiece : GenerateContentResponse := onePiece "taken twice." "STOP" none

def bareRequest : GenerateContentRequest := ⟨[], none, none, none, none⟩

theorem generateContent_whole_two : ∃ resp exchanges,
    Fetched readyServer [firstPiece, secondPiece] ((bareRequest, resp) :: exchanges) [] ∧
      [Part.text "The lock is " none false, .text "taken twice." none false] =
        resp.parts ++ exchanges.flatMap (·.2.parts) := by
  have hrun : generateContent readyServer bareRequest [firstPiece, secondPiece] =
      (.ok (mergeContinuationResponse firstPiece secondPiece), []) := by decide
  obtain ⟨resp, exchanges, hfetched, -, -, -, hparts, -⟩ := generateContent_whole hrun
  exact ⟨resp, exchanges, hfetched, hparts⟩

end Sashiko.Gemini
