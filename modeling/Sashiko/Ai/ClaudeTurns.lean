import Sashiko.Ai.Claude
import Sashiko.Ai.Pairing

/-! What is sent back to Claude. The texts, calls and results of a conversation arrive in order
and every result answers the next call that waits. An assistant turn comes back as it was sent
unless it had both a thinking block and a text block: the text is then put first. -/

namespace Sashiko

/-! ### One turn -/

/-- A block without its cache mark, which is no part of a turn. -/
def ClaudeContent.bare : ClaudeContent → ClaudeContent
  | .text words _ => .text words none
  | .thinking thought signature _ => .thinking thought signature none
  | .toolUse id name input => .toolUse id name input
  | .toolResult toolUseId content isError _ => .toolResult toolUseId content isError none

/-- The blocks of a turn in the order the API uses. -/
def turnContent (thinking : Option (String × String)) (text : Option String)
    (uses : List ToolCall) : List ClaudeContent :=
  (thinking.map fun t => ClaudeContent.thinking t.1 t.2 none).toList ++
    (text.map fun words => ClaudeContent.text words none).toList ++
    uses.map fun call => .toolUse call.id call.functionName call.arguments

theorem AnswerParts.absorb_bare (parts : AnswerParts) (block : ClaudeContent) :
    parts.absorb block.bare = parts.absorb block := by
  cases block <;> rfl

theorem AnswerParts.foldl_bare (blocks : List ClaudeContent) (parts : AnswerParts) :
    (blocks.map ClaudeContent.bare).foldl AnswerParts.absorb parts =
      blocks.foldl AnswerParts.absorb parts := by
  simp only [List.foldl_map, AnswerParts.absorb_bare]

/-- A call as the decoder makes it: without a signature of its own. -/
def ToolCall.unsigned (call : ToolCall) : ToolCall := { call with thoughtSignature := none }

theorem AnswerParts.foldl_uses (uses : List ToolCall) (parts : AnswerParts) :
    (uses.map fun call => ClaudeContent.toolUse call.id call.functionName call.arguments).foldl
        AnswerParts.absorb parts =
      { parts with toolCalls := parts.toolCalls ++ uses.map ToolCall.unsigned } := by
  induction uses generalizing parts with
  | nil => simp
  | cons call uses ih =>
    rw [List.map_cons, List.foldl_cons, ih]
    simp [AnswerParts.absorb, ToolCall.unsigned]

theorem parts_turnContent (thinking : Option (String × String)) (text : Option String)
    (uses : List ToolCall) :
    (turnContent thinking text uses).foldl AnswerParts.absorb ⟨"", "", "", []⟩ =
      ⟨text.getD "", (thinking.map Prod.fst).getD "", (thinking.map Prod.snd).getD "",
        uses.map ToolCall.unsigned⟩ := by
  unfold turnContent
  rw [List.foldl_append, List.foldl_append, AnswerParts.foldl_uses]
  cases thinking <;> cases text <;> simp [AnswerParts.absorb]

theorem nonEmpty_getD {text : Option String} (h : ∀ t ∈ text, t ≠ "") :
    nonEmpty (text.getD "") = text := by
  cases text with
  | none => rfl
  | some t => exact if_neg (h t rfl)

/-- What the session makes of a turn, read back by the encoder: the text comes first. -/
theorem assistantContent_of_turn {resp : ClaudeResponse} {thinking : Option (String × String)}
    {text : Option String} {uses : List ToolCall}
    (hturn : resp.content.map ClaudeContent.bare = turnContent thinking text uses)
    (hthinking : ∀ t ∈ thinking, t.1 ≠ "" ∧ t.2 ≠ "") (htext : ∀ words ∈ text, words ≠ "") :
    assistantContent (assistantMessage (translateAiResponse resp)) =
      (text.map fun words => ClaudeContent.text words none).toList ++
        (thinking.map fun t => ClaudeContent.thinking t.1 t.2 none).toList ++
        uses.map fun call => .toolUse call.id call.functionName call.arguments := by
  have hparts : resp.content.foldl AnswerParts.absorb ⟨"", "", "", []⟩ =
      ⟨text.getD "", (thinking.map Prod.fst).getD "", (thinking.map Prod.snd).getD "",
        uses.map ToolCall.unsigned⟩ := by
    rw [← AnswerParts.foldl_bare, hturn, parts_turnContent]
  have hthought : ∀ t ∈ thinking.map Prod.fst, t ≠ "" := by
    intro t ht
    obtain ⟨pair, hpair, rfl⟩ := Option.map_eq_some_iff.mp ht
    exact (hthinking pair hpair).1
  have hsignature : ∀ t ∈ thinking.map Prod.snd, t ≠ "" := by
    intro t ht
    obtain ⟨pair, hpair, rfl⟩ := Option.map_eq_some_iff.mp ht
    exact (hthinking pair hpair).2
  have hcalls : (if uses.map ToolCall.unsigned = [] then none
      else some (uses.map ToolCall.unsigned)).getD [] = uses.map ToolCall.unsigned := by
    split_ifs with hnil
    · exact hnil.symm
    · rfl
  simp only [assistantContent, assistantMessage, AiMessage.calls, translateAiResponse, hparts,
    nonEmpty_getD htext, nonEmpty_getD hthought, nonEmpty_getD hsignature, hcalls, List.map_map]
  congr 1
  cases thinking <;> rfl

/-- Text and thinking block change places. -/
theorem assistantContent_eq_turn_iff {resp : ClaudeResponse}
    {thinking : Option (String × String)} {text : Option String} {uses : List ToolCall}
    (hturn : resp.content.map ClaudeContent.bare = turnContent thinking text uses)
    (hthinking : ∀ t ∈ thinking, t.1 ≠ "" ∧ t.2 ≠ "") (htext : ∀ words ∈ text, words ≠ "") :
    assistantContent (assistantMessage (translateAiResponse resp)) =
      turnContent thinking text uses ↔ thinking = none ∨ text = none := by
  rw [assistantContent_of_turn hturn hthinking htext, turnContent]
  cases thinking <;> cases text <;> simp

theorem translateMessages_assistant (resp : AiResponse) :
    translateMessages [assistantMessage resp] =
      .ok ([], [⟨"assistant", assistantContent (assistantMessage resp)⟩]) := rfl

/-- Without caching the messages of the request are the translated ones. -/
theorem messages_translateAiRequest (request : AiRequest) (maxTokens : ℕ)
    (thinking effort : Option String) :
    (translateAiRequest request false maxTokens thinking effort).map (·.messages) =
      (translateMessages request.messages).map Prod.snd := by
  unfold translateAiRequest
  cases translateMessages request.messages <;> rfl

/-! ### A conversation -/

inductive TurnItem where
  | text (words : String)
  | call (id name : String) (input : Json)
  | result (callId content : String)
  deriving DecidableEq, Repr

/-- What a message says, calls or answers. A thought is not part of this. -/
def AiMessage.items (msg : AiMessage) : List TurnItem :=
  match msg.role with
  | .tool =>
    match msg.toolCallId, msg.content with
    | some id, some content => [.result id content]
    | _, _ => []
  | _ => (msg.content.map TurnItem.text).toList ++
      msg.calls.map fun call => .call call.id call.functionName call.arguments

def ClaudeContent.items : ClaudeContent → List TurnItem
  | .text words _ => [.text words]
  | .thinking _ _ _ => []
  | .toolUse id name input => [.call id name input]
  | .toolResult toolUseId content _ _ => [.result toolUseId content]

def ClaudeMessage.items (msg : ClaudeMessage) : List TurnItem :=
  msg.content.flatMap ClaudeContent.items

def ClaudeRequest.items (request : ClaudeRequest) : List TurnItem :=
  request.messages.flatMap ClaudeMessage.items

/-- The calls that still wait for a result after an item: a result names the first of them, a
text ends the answers. -/
def answerNext (waiting : List String) : TurnItem → Option (List String)
  | .text _ => some []
  | .call id _ _ => some (waiting ++ [id])
  | .result id _ =>
    match waiting with
    | next :: rest => if next = id then some rest else none
    | [] => none

/-- Every result names the call it answers. -/
def ResultsNameCalls (items : List TurnItem) : Prop := (items.foldlM answerNext []).isSome

instance : DecidablePred ResultsNameCalls := fun items =>
  inferInstanceAs (Decidable ((items.foldlM answerNext []).isSome = true))

theorem flatMap_modifyLast {α β : Type} {f : α → α} {g : α → List β} (h : ∀ x, g (f x) = g x)
    (xs : List α) : (modifyLast f xs).flatMap g = xs.flatMap g := by
  unfold modifyLast
  cases hlast : xs.getLast? with
  | none => rfl
  | some last =>
    obtain ⟨front, rfl⟩ := List.getLast?_eq_some_iff.mp hlast
    simp [h]

@[simp] theorem ClaudeContent.items_mark (block : ClaudeContent) :
    block.mark.items = block.items := by
  cases block <;> rfl

/-- Marking for the cache says nothing new. -/
@[simp] theorem items_applyCacheControl (request : ClaudeRequest) :
    (applyCacheControl request).items = request.items :=
  flatMap_modifyLast (f := fun m : ClaudeMessage =>
      { m with content := modifyLast ClaudeContent.mark m.content }) (g := ClaudeMessage.items)
    (fun m => flatMap_modifyLast ClaudeContent.items_mark m.content) request.messages

/-- The messages that `run` builds. -/
def AiMessage.FromRun (msg : AiMessage) : Prop :=
  (∃ text, msg = userMessage text) ∨ (∃ resp, msg = assistantMessage resp) ∨
    ∃ result, msg = toolMessage result

theorem items_assistantContent (msg : AiMessage) :
    (assistantContent msg).flatMap ClaudeContent.items =
      (msg.content.map TurnItem.text).toList ++
        msg.calls.map fun call => .call call.id call.functionName call.arguments := by
  have huses : (msg.calls.map fun call =>
      ClaudeContent.toolUse call.id call.functionName call.arguments).flatMap
        ClaudeContent.items =
      msg.calls.map fun call => .call call.id call.functionName call.arguments := by
    rw [List.flatMap_map, List.map_eq_flatMap]
    rfl
  unfold assistantContent
  rw [List.flatMap_append, List.flatMap_append, huses]
  congr 1
  cases msg.content <;> cases msg.thought <;> cases msg.thoughtSignature <;> rfl

theorem translateMessage_of_fromRun {msg : AiMessage} (h : msg.FromRun) :
    ∃ blocks message, translateMessage msg = .ok (blocks, [message]) ∧
      message.items = msg.items := by
  rcases h with ⟨text, rfl⟩ | ⟨resp, rfl⟩ | ⟨result, rfl⟩
  · exact ⟨_, _, rfl, rfl⟩
  · exact ⟨_, _, rfl, items_assistantContent _⟩
  · exact ⟨_, _, rfl, rfl⟩

/-- Everything a run has built is translated, item for item. -/
theorem translateMessages_of_fromRun {messages : List AiMessage}
    (h : ∀ msg ∈ messages, msg.FromRun) :
    ∃ blocks translated, translateMessages messages = .ok (blocks, translated) ∧
      translated.flatMap ClaudeMessage.items = messages.flatMap AiMessage.items := by
  induction messages with
  | nil => exact ⟨[], [], rfl, rfl⟩
  | cons msg rest ih =>
    obtain ⟨hmsg, hrest⟩ := List.forall_mem_cons.mp h
    obtain ⟨blocks, message, htranslate, hitems⟩ := translateMessage_of_fromRun hmsg
    obtain ⟨moreBlocks, more, hmore, hmoreItems⟩ := ih hrest
    refine ⟨blocks ++ moreBlocks, [message] ++ more, ?_, ?_⟩
    · simp only [translateMessages, htranslate, hmore]
      rfl
    · rw [List.flatMap_append, List.flatMap_singleton, List.flatMap_cons, hitems, hmoreItems]

theorem translateAiRequest_of_fromRun {request : AiRequest}
    (h : ∀ msg ∈ request.messages, msg.FromRun) (enableCaching : Bool) (maxTokens : ℕ)
    (thinking effort : Option String) :
    ∃ translated, translateAiRequest request enableCaching maxTokens thinking effort =
        .ok translated ∧ translated.items = request.messages.flatMap AiMessage.items := by
  obtain ⟨blocks, messages, htranslate, hitems⟩ := translateMessages_of_fromRun h
  unfold translateAiRequest
  rw [htranslate]
  refine ⟨_, rfl, ?_⟩
  cases enableCaching
  · exact hitems
  · exact (items_applyCacheControl _).trans hitems

/-! ### A conversation as `run` builds it -/

/-- A conversation in which every call that ought to be answered has been. -/
structure Answered (messages : List AiMessage) : Prop where
  fromRun : ∀ msg ∈ messages, msg.FromRun
  named : (messages.flatMap AiMessage.items).foldlM answerNext [] = some []

theorem ResultsNameCalls.of_answered {messages : List AiMessage} (h : Answered messages) :
    ResultsNameCalls (messages.flatMap AiMessage.items) := by
  rw [ResultsNameCalls, h.named]
  rfl

theorem Answered.append {messages more : List AiMessage} (h : Answered messages)
    (hfrom : ∀ msg ∈ more, msg.FromRun)
    (hnamed : (more.flatMap AiMessage.items).foldlM answerNext [] = some []) :
    Answered (messages ++ more) where
  fromRun := List.forall_mem_append.mpr ⟨h.fromRun, hfrom⟩
  named := by
    rw [List.flatMap_append, List.foldlM_append, h.named]
    exact hnamed

theorem answered_userMessage (text : String) : Answered [userMessage text] where
  fromRun := by
    intro msg hmsg
    exact .inl ⟨text, List.mem_singleton.mp hmsg⟩
  named := rfl

theorem Answered.userMessage {messages : List AiMessage} (h : Answered messages)
    (text : String) : Answered (messages ++ [userMessage text]) :=
  h.append (answered_userMessage text).fromRun (answered_userMessage text).named

theorem foldlM_calls (calls : List ToolCall) (waiting : List String) :
    (calls.map fun call => TurnItem.call call.id call.functionName call.arguments).foldlM
      answerNext waiting = some (waiting ++ calls.map ToolCall.id) := by
  induction calls generalizing waiting with
  | nil => simp
  | cons call calls ih =>
    rw [List.map_cons, List.foldlM_cons]
    exact (ih _).trans (by simp)

theorem foldlM_assistantMessage (resp : AiResponse) :
    (assistantMessage resp).items.foldlM answerNext [] =
      some (resp.calls.map ToolCall.id) := by
  have hitems : (assistantMessage resp).items = (resp.content.map TurnItem.text).toList ++
      resp.calls.map fun call => .call call.id call.functionName call.arguments := rfl
  rw [hitems, List.foldlM_append]
  cases resp.content <;> exact foldlM_calls _ _

theorem foldlM_results (results : List (String × Json)) :
    ((results.map toolMessage).flatMap AiMessage.items).foldlM answerNext
      (results.map Prod.fst) = some [] := by
  induction results with
  | nil => rfl
  | cons result results ih =>
    simp only [List.map_cons, List.flatMap_cons]
    have hitems : ∃ content, (toolMessage result).items = [.result result.1 content] := ⟨_, rfl⟩
    obtain ⟨content, hcontent⟩ := hitems
    rw [hcontent, List.singleton_append, List.foldlM_cons, answerNext, if_pos rfl]
    exact ih

/-- A whole round: the answer, then one result per call. -/
theorem Answered.toolRound {messages : List AiMessage} {resp : AiResponse}
    {results : List (String × Json)} (h : Answered messages)
    (hids : results.map Prod.fst = resp.calls.map ToolCall.id) :
    Answered (messages ++ (assistantMessage resp :: results.map toolMessage)) := by
  refine h.append ?_ ?_
  · intro msg hmsg
    rcases List.mem_cons.mp hmsg with rfl | hmsg
    · exact .inr (.inl ⟨resp, rfl⟩)
    · obtain ⟨result, -, rfl⟩ := List.mem_map.mp hmsg
      exact .inr (.inr ⟨result, rfl⟩)
  · rw [List.flatMap_cons, List.foldlM_append, foldlM_assistantMessage, ← hids]
    exact foldlM_results results

/-- A rejected answer, its calls unanswered, then what was wrong with it. -/
theorem Answered.rejected {messages : List AiMessage} (h : Answered messages)
    (resp : AiResponse) (text : String) :
    Answered (messages ++ [assistantMessage resp, Sashiko.userMessage text]) := by
  refine h.append ?_ ?_
  · intro msg hmsg
    rcases List.mem_pair.mp hmsg with rfl | rfl
    · exact .inr (.inl ⟨resp, rfl⟩)
    · exact .inl ⟨text, rfl⟩
  · rw [List.flatMap_cons, List.foldlM_append, foldlM_assistantMessage]
    rfl

section

variable {σ T π : Type} {R : SessionRunner} {L : LlmSession σ T} {P : Provider π}

theorem answered_finalTurnHead {s : RunState σ} (h : Answered s.history) :
    Answered (finalTurnHead R s).history := by
  rw [finalTurnHead_history]
  split_ifs
  · exact h.userMessage _
  · rwa [List.append_nil]

theorem answered_again (hL : L.AnswersCalls) {s s' : RunState σ} {sent : AiRequest}
    {answer : Except AnyhowError AiResponse} (h : Again R L s sent answer s')
    (hs : Answered s.history) : Answered s'.history := by
  cases h with
  | transient e hclass hle => exact hs
  | feedback e feedback session hclass hhook hle => exact hs.userMessage feedback
  | toolRound resp results session htrunc hcalls hturn hrun =>
    simp only [RunState.push_history, RunState.countUsage_history, List.append_assoc,
      List.singleton_append]
    exact hs.toolRound (hL _ _ _ _ hrun)
  | rejected resp violation session htrunc hfinal hreject hlt =>
    simp only [RunState.giveTurnBack_history, RunState.push_history, RunState.countUsage_history,
      List.append_assoc, List.singleton_append]
    exact hs.rejected resp _

/-- Every request of a run holds an answered conversation. -/
theorem answered_runFor (hL : L.AnswersCalls) (provider : π) (session : σ) (n : ℕ) :
    ∀ c ∈ (runFor R L P provider session n).calls, Answered c.request.messages := by
  have hinv : (∀ c ∈ (runFor R L P provider session n).calls, Answered c.request.messages) ∧
      ∀ s, (runFor R L P provider session n).status = .again s → Answered s.history := by
    refine runFor_invariant
      (I := fun r => (∀ c ∈ r.calls, Answered c.request.messages) ∧
        ∀ s, r.status = .again s → Answered s.history) ?_ ?_ ?_ n
    · refine ⟨fun c hc => by simp [startRun] at hc, fun s hs => ?_⟩
      cases hs
      exact answered_userMessage _
    · exact fun r s hr _ _ => ⟨hr.1, fun s' hs' => by cases hs'⟩
    · intro r s hr hst hmax
      have hhead : Answered (finalTurnHead R (beginTurn s)).history :=
        answered_finalTurnHead (hr.2 s hst)
      refine ⟨fun c hc => ?_, fun s' hs' => ?_⟩
      · rcases List.mem_append.mp hc with hc | hc
        · exact hr.1 c hc
        · rw [List.mem_singleton.mp hc]
          exact hhead
      · rw [sendTurn_status] at hs'
        exact answered_again hL (again_of_afterAnswer hs') hhead
  exact hinv.1

/-- An answer comes back as the same turn exactly when it lacks a thinking block or a text
block; everything said, called and answered in a run arrives in order in every case, each
result with the id of its call. -/
theorem claude_turns_replayed_iff (hL : L.AnswersCalls) :
    (∀ (resp : ClaudeResponse) (thinking : Option (String × String)) (text : Option String)
        (uses : List ToolCall),
      resp.content.map ClaudeContent.bare = turnContent thinking text uses →
      (∀ t ∈ thinking, t.1 ≠ "" ∧ t.2 ≠ "") → (∀ words ∈ text, words ≠ "") →
      ∀ (request : AiRequest) (maxTokens : ℕ) (mode effort : Option String),
        (translateAiRequest
            { request with messages := [assistantMessage (translateAiResponse resp)] }
            false maxTokens mode effort).map (·.messages) =
          .ok [⟨"assistant", turnContent thinking text uses⟩] ↔
        thinking = none ∨ text = none) ∧
    ∀ (provider : π) (session : σ) (n : ℕ), ∀ c ∈ (runFor R L P provider session n).calls,
      ∀ (enableCaching : Bool) (maxTokens : ℕ) (mode effort : Option String),
        ∃ translated, translateAiRequest c.request enableCaching maxTokens mode effort =
            .ok translated ∧
          translated.items = c.request.messages.flatMap AiMessage.items ∧
          ResultsNameCalls translated.items := by
  refine ⟨?_, ?_⟩
  · intro resp thinking text uses hturn hthinking htext request maxTokens mode effort
    rw [messages_translateAiRequest, translateMessages_assistant,
      ← assistantContent_eq_turn_iff hturn hthinking htext]
    simp [Except.map]
  · intro provider session n c hc enableCaching maxTokens mode effort
    have hanswered := answered_runFor hL provider session n c hc
    obtain ⟨translated, htranslate, hitems⟩ :=
      translateAiRequest_of_fromRun hanswered.fromRun enableCaching maxTokens mode effort
    refine ⟨translated, htranslate, hitems, ?_⟩
    rw [hitems]
    exact .of_answered hanswered

end

def claudeAnswer (content : List ClaudeContent) : ClaudeResponse :=
  ⟨"msg_1", content, some "tool_use", ⟨10, 5, none, none⟩⟩

def emptyRequest : AiRequest := ⟨none, [], none, none, none, none, none⟩

/-- A thought and a call come back as they were, and so does a run that ignores a call. -/
theorem claude_turns_replayed_thought :
    (translateAiRequest
        { emptyRequest with
          messages := [assistantMessage (translateAiResponse (claudeAnswer
            [.thinking "The lock is taken twice." "sig" none,
              .toolUse "call_1" "read_files" (.obj [])]))] }
        false 4096 (some "adaptive") none).map (·.messages) =
      .ok [⟨"assistant", [.thinking "The lock is taken twice." "sig" none,
        .toolUse "call_1" "read_files" (.obj [])]⟩] ∧
    ∀ c ∈ (runFor twoTurns rejectingSession callingProvider () () 3).calls,
      ∃ translated, translateAiRequest c.request true 4096 none none = .ok translated ∧
        translated.items = c.request.messages.flatMap AiMessage.items ∧
        ResultsNameCalls translated.items :=
  have h := @claude_turns_replayed_iff Unit String Unit twoTurns rejectingSession callingProvider
    rejectingSession_answersCalls
  ⟨(h.1 (claudeAnswer [.thinking "The lock is taken twice." "sig" none,
        .toolUse "call_1" "read_files" (.obj [])])
      (some ("The lock is taken twice.", "sig")) none
      [⟨"call_1", "read_files", .obj [], none⟩] rfl (by simp) (by simp) emptyRequest 4096
      (some "adaptive") none).mpr (.inr rfl),
    fun c hc => h.2 () () 3 c hc true 4096 none none⟩

/-- A thought followed by a text comes back with the text first. -/
theorem claude_turn_thought_after_text :
    (translateAiRequest
        { emptyRequest with
          messages := [assistantMessage (translateAiResponse (claudeAnswer
            [.thinking "The lock is taken twice." "sig" none, .text "Let me look." none,
              .toolUse "call_1" "read_files" (.obj [])]))] }
        false 4096 (some "adaptive") none).map (·.messages) ≠
      .ok [⟨"assistant", [.thinking "The lock is taken twice." "sig" none,
        .text "Let me look." none, .toolUse "call_1" "read_files" (.obj [])]⟩] := by
  decide

end Sashiko
