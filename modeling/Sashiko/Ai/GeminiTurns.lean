import Mathlib.Data.List.Chain
import Sashiko.Ai.ClaudeTurns
import Sashiko.Ai.Gemini

/-! What is sent to Gemini. User and model turns alternate in every request of a run, all that was
said, called and answered is in them, and a turn of results answers the calls of the turn before. -/

namespace Sashiko.Gemini

/-! ### Turns -/

/-- The id and the name by which a call or a result is known to Gemini. -/
def Part.callKey? : Part → Option (Option String × String)
  | .functionCall call _ => some (call.id, call.name)
  | _ => none

def Part.responseKey? : Part → Option (Option String × String)
  | .functionResponse response => some (response.id, response.name)
  | _ => none

def Content.callKeys (c : Content) : List (Option String × String) :=
  c.parts.filterMap Part.callKey?

def Content.responseKeys (c : Content) : List (Option String × String) :=
  c.parts.filterMap Part.responseKey?

/-- User and model turns alternate, the user begins, and nobody says nothing. -/
structure Alternates (contents : List Content) : Prop where
  apart : contents.IsChain fun a b => a.role ≠ b.role
  first : ∀ c ∈ contents.head?, c.role = "user"
  roles : ∀ c ∈ contents, c.role = "user" ∨ c.role = "model"
  spoken : ∀ c ∈ contents, c.parts ≠ []

/-- The results of a turn, if there are any, answer the calls of the turn before, one by one. -/
structure AnswersCalls (contents : List Content) : Prop where
  first : ∀ c ∈ contents.head?, c.responseKeys = []
  chain : contents.IsChain fun a b => b.responseKeys = [] ∨ b.responseKeys = a.callKeys

def EndsInUser (contents : List Content) : Prop := ∃ c ∈ contents.getLast?, c.role = "user"

theorem pushUserPart_concat_user (front : List Content) (parts : List Part) (part : Part) :
    pushUserPart (front ++ [⟨"user", parts⟩]) part = front ++ [⟨"user", parts ++ [part]⟩] := by
  rw [pushUserPart, List.getLast?_concat]
  simp

theorem pushUserPart_concat_model (front : List Content) (parts : List Part) (part : Part) :
    pushUserPart (front ++ [⟨"model", parts⟩]) part =
      front ++ [⟨"model", parts⟩] ++ [⟨"user", [part]⟩] := by
  rw [pushUserPart, List.getLast?_concat]
  simp

theorem model_ne_user : "model" ≠ "user" := by decide

theorem alternates_nil : Alternates [] :=
  ⟨List.isChain_nil, by simp, by simp, by simp⟩

/-- The last turn may say more. -/
theorem Alternates.more {front : List Content} {role : String} {parts : List Part}
    (h : Alternates (front ++ [⟨role, parts⟩])) (part : Part) :
    Alternates (front ++ [⟨role, parts ++ [part]⟩]) where
  apart := by
    obtain ⟨hfront, -, hlast⟩ := List.isChain_append.mp h.apart
    refine List.isChain_append.mpr ⟨hfront, List.isChain_singleton _, ?_⟩
    simpa using hlast
  first := by
    have hfirst := h.first
    cases front <;> simpa using hfirst
  roles := by
    have hroles := h.roles
    simp only [List.forall_mem_append, List.forall_mem_singleton] at hroles ⊢
    exact hroles
  spoken := by
    have hspoken := h.spoken
    simp only [List.forall_mem_append, List.forall_mem_singleton] at hspoken ⊢
    exact ⟨hspoken.1, List.concat_ne_nil _ _⟩

theorem Alternates.concat {contents : List Content} {c : Content} (h : Alternates contents)
    (hrole : c.role = "user" ∨ c.role = "model") (hparts : c.parts ≠ [])
    (hlast : ∀ last ∈ contents.getLast?, last.role ≠ c.role)
    (hfirst : contents = [] → c.role = "user") : Alternates (contents ++ [c]) where
  apart := List.isChain_append.mpr
    ⟨h.apart, List.isChain_singleton c, by simpa using hlast⟩
  first := by
    cases contents with
    | nil => simpa using hfirst rfl
    | cons a contents => simpa using h.first a rfl
  roles := List.forall_mem_append.mpr ⟨h.roles, List.forall_mem_singleton.mpr hrole⟩
  spoken := List.forall_mem_append.mpr ⟨h.spoken, List.forall_mem_singleton.mpr hparts⟩

/-- What a part that joins or starts a user turn leaves. -/
theorem pushUserPart_cases {contents : List Content} (h : Alternates contents) (part : Part) :
    (∃ front parts, contents = front ++ [⟨"user", parts⟩] ∧
      pushUserPart contents part = front ++ [⟨"user", parts ++ [part]⟩]) ∨
    ((∀ last ∈ contents.getLast?, last.role = "model") ∧
      pushUserPart contents part = contents ++ [⟨"user", [part]⟩]) := by
  rcases contents.eq_nil_or_concat' with rfl | ⟨front, ⟨role, parts⟩, rfl⟩
  · exact .inr ⟨by simp, rfl⟩
  · rcases h.roles ⟨role, parts⟩ (by simp) with hrole | hrole
    · obtain rfl : role = "user" := hrole
      exact .inl ⟨front, parts, rfl, pushUserPart_concat_user front parts part⟩
    · obtain rfl : role = "model" := hrole
      exact .inr ⟨by simp, pushUserPart_concat_model front parts part⟩

theorem Alternates.pushUserPart {contents : List Content} (h : Alternates contents)
    (part : Part) :
    Alternates (pushUserPart contents part) ∧ EndsInUser (Gemini.pushUserPart contents part) := by
  rcases pushUserPart_cases h part with ⟨front, parts, rfl, hpush⟩ | ⟨hlast, hpush⟩
  · rw [hpush]
    exact ⟨h.more part, ⟨_, List.getLast?_concat .., rfl⟩⟩
  · rw [hpush]
    refine ⟨h.concat (.inl rfl) (List.cons_ne_nil _ _) (fun last hl => ?_) fun _ => rfl,
      ⟨_, List.getLast?_concat .., rfl⟩⟩
    rw [hlast last hl]
    exact model_ne_user

theorem Alternates.pushModel {contents : List Content} (h : Alternates contents)
    (huser : EndsInUser contents) {parts : List Part} (hparts : parts ≠ []) :
    Alternates (contents ++ [⟨"model", parts⟩]) := by
  obtain ⟨last, hlast, hrole⟩ := huser
  refine h.concat (.inr rfl) hparts (fun c hc => ?_) fun hnil => ?_
  · rw [Option.mem_unique hc hlast, hrole]
    exact model_ne_user.symm
  · rw [hnil] at hlast
    cases hlast

theorem AnswersCalls.concat {contents : List Content} {c : Content} (h : AnswersCalls contents)
    (hlast : ∀ last ∈ contents.getLast?, c.responseKeys = [] ∨ c.responseKeys = last.callKeys)
    (hfirst : contents = [] → c.responseKeys = []) : AnswersCalls (contents ++ [c]) where
  first := by
    cases contents with
    | nil => simpa using hfirst rfl
    | cons a contents => simpa using h.first a rfl
  chain := List.isChain_append.mpr ⟨h.chain, List.isChain_singleton c, by simpa using hlast⟩

/-- A text changes no results. -/
theorem AnswersCalls.pushText {contents : List Content} (halt : Alternates contents)
    (h : AnswersCalls contents) (text : String) :
    AnswersCalls (pushUserPart contents (.text text none false)) := by
  rcases pushUserPart_cases halt (.text text none false) with
    ⟨front, parts, rfl, hpush⟩ | ⟨-, hpush⟩
  · rw [hpush]
    have hkeys : (⟨"user", parts ++ [.text text none false]⟩ : Content).responseKeys =
        (⟨"user", parts⟩ : Content).responseKeys := by
      rw [Content.responseKeys, List.filterMap_append]
      exact List.append_nil _
    obtain ⟨hfront, -, hlast⟩ := List.isChain_append.mp h.chain
    have hfirst : ∀ c ∈ front.head?, c.responseKeys = [] := by
      intro c hc
      refine h.first c ?_
      rw [List.head?_append, Option.mem_def.mp hc]
      rfl
    refine AnswersCalls.concat ⟨hfirst, hfront⟩ (fun last hl => ?_) fun hnil => ?_
    · rw [hkeys]
      exact hlast last hl ⟨"user", parts⟩ rfl
    · rw [hkeys]
      subst hnil
      exact h.first _ rfl
  · rw [hpush]
    exact h.concat (fun last hl => .inl rfl) fun _ => rfl

/-! ### Calls and their results -/

def callKey (call : ToolCall) : Option String × String := (callId call, call.functionName)

def responseKey (callIdToName : List (String × String)) (rawId : String) :
    Option String × String :=
  match callIdToName.lookup rawId with
  | some name => (some rawId, name)
  | none => (none, rawId)

/-- Calls under one id call one function, and no id is empty. -/
structure ConsistentIds (calls : List ToolCall) : Prop where
  same : ∀ c ∈ calls, ∀ c' ∈ calls, c.id = c'.id → c.functionName = c'.functionName
  ne_empty : ∀ c ∈ calls, c.id ≠ ""

/-- The names are those of the calls that have an id of their own. -/
structure Remembers (callIdToName : List (String × String)) (calls : List ToolCall) : Prop where
  called : ∀ id name, callIdToName.lookup id = some name →
    ∃ c ∈ calls, callId c = some id ∧ c.functionName = name
  known : ∀ c ∈ calls, ∀ id, callId c = some id → ∃ name, callIdToName.lookup id = some name

theorem callId_eq_some {call : ToolCall} {id : String} (h : callId call = some id) :
    call.id = id ∧ id ≠ "" ∧ id ≠ call.functionName := by
  unfold callId at h
  split_ifs at h with hown
  cases h
  exact ⟨rfl, hown⟩

theorem ConsistentIds.mono {calls more : List ToolCall} (h : ConsistentIds more)
    (hsub : calls ⊆ more) : ConsistentIds calls :=
  ⟨fun c hc c' hc' => h.same c (hsub hc) c' (hsub hc'), fun c hc => h.ne_empty c (hsub hc)⟩

theorem Remembers.cons {names : List (String × String)} {calls : List ToolCall}
    (h : Remembers names calls) {call : ToolCall} {id : String} (hid : callId call = some id) :
    Remembers ((id, call.functionName) :: names) (calls ++ [call]) where
  called id' name hlookup := by
    by_cases heq : id' = id
    · subst heq
      rw [List.lookup_cons_self] at hlookup
      exact ⟨call, by simp, hid, Option.some.inj hlookup⟩
    · rw [List.lookup_cons, beq_false_of_ne heq] at hlookup
      obtain ⟨c, hc, hcalled⟩ := h.called id' name hlookup
      exact ⟨c, List.mem_append_left _ hc, hcalled⟩
  known c hc id' hid' := by
    by_cases heq : id' = id
    · exact ⟨call.functionName, heq ▸ List.lookup_cons_self⟩
    · rw [List.lookup_cons, beq_false_of_ne heq]
      rcases List.mem_append.mp hc with hc | hc
      · exact h.known c hc id' hid'
      · rw [List.mem_singleton.mp hc, hid] at hid'
        exact absurd (Option.some.inj hid').symm heq

theorem Remembers.skip {names : List (String × String)} {calls : List ToolCall}
    (h : Remembers names calls) {call : ToolCall} (hid : callId call = none) :
    Remembers names (calls ++ [call]) where
  called id name hlookup := by
    obtain ⟨c, hc, hcalled⟩ := h.called id name hlookup
    exact ⟨c, List.mem_append_left _ hc, hcalled⟩
  known c hc id hid' := by
    rcases List.mem_append.mp hc with hc | hc
    · exact h.known c hc id hid'
    · rw [List.mem_singleton.mp hc, hid] at hid'
      cases hid'

theorem Remembers.rememberCalls {names : List (String × String)} {calls : List ToolCall}
    (h : Remembers names calls) (more : List ToolCall) :
    Remembers (rememberCalls names more) (calls ++ more) := by
  induction more generalizing names calls with
  | nil => rwa [List.append_nil]
  | cons call more ih =>
    rw [Gemini.rememberCalls, List.foldl_cons, ← List.singleton_append, ← List.append_assoc]
    cases hid : callId call with
    | some id => exact ih (h.cons hid)
    | none => exact ih (h.skip hid)

/-- A result is known by the key of the call whose id it names. -/
theorem Remembers.responseKey_eq {names : List (String × String)} {calls : List ToolCall}
    (h : Remembers names calls) (hids : ConsistentIds calls) {call : ToolCall}
    (hcall : call ∈ calls) : responseKey names call.id = callKey call := by
  unfold responseKey callKey
  cases hid : callId call with
  | some id =>
    obtain ⟨rfl, -⟩ := callId_eq_some hid
    obtain ⟨name, hname⟩ := h.known call hcall _ hid
    obtain ⟨c, hc, hcid, rfl⟩ := h.called _ name hname
    rw [hname, hids.same c hc call hcall (callId_eq_some hcid).1]
  | none =>
    have hname : call.id = call.functionName := by
      by_contra hne
      rw [callId, if_pos ⟨hids.ne_empty call hcall, hne⟩] at hid
      cases hid
    cases hlookup : names.lookup call.id with
    | none => rw [← hname]
    | some name =>
      obtain ⟨c, hc, hcid, rfl⟩ := h.called _ name hlookup
      obtain ⟨hsame, -, hne⟩ := callId_eq_some hcid
      rw [hids.same c hc call hcall hsame] at hne
      exact absurd hname hne

theorem filterMap_callParts {β : Type} (f : Part → Option β) (g : ToolCall → β)
    (h : ∀ call signature, f (callPart call signature) = some (g call)) (pending : Option String)
    (calls : List ToolCall) : (callParts pending calls).filterMap f = calls.map g := by
  induction calls generalizing pending with
  | nil => rfl
  | cons call calls ih =>
    unfold callParts
    cases nonEmpty call.thoughtSignature <;> simp [h, ih]

theorem filterMap_callParts_none {β : Type} (f : Part → Option β)
    (h : ∀ call signature, f (callPart call signature) = none) (pending : Option String)
    (calls : List ToolCall) : (callParts pending calls).filterMap f = [] := by
  induction calls generalizing pending with
  | nil => rfl
  | cons call calls ih =>
    unfold callParts
    cases nonEmpty call.thoughtSignature <;> simp [h, ih]

/-- A turn of the model is a text, if there is one, and then its calls. -/
theorem assistantParts_eq (msg : AiMessage) : ∃ (text : Option Part) (pending : Option String),
    assistantParts msg = text.toList ++ callParts pending msg.calls ∧
      (text = none → msg.content = none) ∧
      ∀ part ∈ text, ∃ signature, part = Part.text (msg.content.getD "") signature false := by
  by_cases hnil : (textPart msg).toList ++ callParts (pendingSignature msg) msg.calls = []
  · obtain ⟨htext, hcalls⟩ := List.append_eq_nil_iff.mp hnil
    have hcontent : msg.content = none :=
      Option.map_eq_none_iff.mp (Option.toList_eq_nil_iff.mp htext)
    refine ⟨signaturePart msg, pendingSignature msg, ?_, fun _ => hcontent, fun part hpart => ?_⟩
    · rw [hcalls, List.append_nil]
      exact if_pos hnil
    · obtain ⟨signature, -, rfl⟩ := Option.map_eq_some_iff.mp hpart
      rw [hcontent]
      exact ⟨some signature, rfl⟩
  · refine ⟨_, _, if_neg hnil, Option.map_eq_none_iff.mp, fun part hpart => ?_⟩
    obtain ⟨text, htext, rfl⟩ := Option.map_eq_some_iff.mp hpart
    rw [htext]
    exact ⟨_, rfl⟩

theorem assistantParts_ne_nil {msg : AiMessage} (h : msg.calls ≠ []) : assistantParts msg ≠ [] := by
  obtain ⟨text, pending, hparts, -⟩ := assistantParts_eq msg
  intro hnil
  have hkeys := filterMap_callParts Part.callKey? callKey (fun _ _ => rfl) pending msg.calls
  rw [(List.append_eq_nil_iff.mp (hparts.symm.trans hnil)).2] at hkeys
  exact h (List.map_eq_nil_iff.mp hkeys.symm)

theorem callKeys_assistantParts (msg : AiMessage) :
    (⟨"model", assistantParts msg⟩ : Content).callKeys = msg.calls.map callKey := by
  obtain ⟨text, pending, hparts, -, htext⟩ := assistantParts_eq msg
  rw [Content.callKeys, hparts, List.filterMap_append,
    filterMap_callParts Part.callKey? callKey fun _ _ => rfl]
  cases text with
  | none => rfl
  | some part =>
    obtain ⟨signature, rfl⟩ := htext part rfl
    rfl

theorem responseKeys_assistantParts (msg : AiMessage) :
    (⟨"model", assistantParts msg⟩ : Content).responseKeys = [] := by
  obtain ⟨text, pending, hparts, -, htext⟩ := assistantParts_eq msg
  rw [Content.responseKeys, hparts, List.filterMap_append,
    filterMap_callParts_none Part.responseKey? fun _ _ => rfl]
  cases text with
  | none => rfl
  | some part =>
    obtain ⟨signature, rfl⟩ := htext part rfl
    rfl

/-! ### Nothing is lost -/

/-- What is said, called or answered. An empty text says nothing. -/
inductive Item where
  | text (words : String)
  | call (id : Option String) (name : String) (args : Json)
  | result (response : Json)
  deriving DecidableEq, Repr

def textItem (words : String) : List Item := if words = "" then [] else [.text words]

def callItem (call : ToolCall) : Item := .call (callId call) call.functionName call.arguments

def Part.items : Part → List Item
  | .text words _ _ => textItem words
  | .functionCall call _ => [.call call.id call.name call.args]
  | .functionResponse response => [.result response.response]
  | .thoughtSignature _ _ => []

def contentItems (contents : List Content) : List Item :=
  contents.flatMap fun c => c.parts.flatMap Part.items

section Conversation

variable (fromStr : String → Option Json)

def messageItems (msg : AiMessage) : List Item :=
  match msg.role with
  | .system => []
  | .user => textItem (msg.content.getD "")
  | .assistant => textItem (msg.content.getD "") ++ msg.calls.map callItem
  | .tool => [.result (responsePayload fromStr msg.content)]

theorem contentItems_pushUserPart (contents : List Content) (part : Part) :
    contentItems (pushUserPart contents part) = contentItems contents ++ part.items := by
  rcases contents.eq_nil_or_concat' with rfl | ⟨front, ⟨role, parts⟩, rfl⟩
  · simp [pushUserPart, contentItems]
  · rw [pushUserPart, List.getLast?_concat]
    dsimp only
    split_ifs <;> simp [contentItems]

theorem flatMap_callParts (pending : Option String) (calls : List ToolCall) :
    (callParts pending calls).flatMap Part.items = calls.map callItem := by
  induction calls generalizing pending with
  | nil => rfl
  | cons call calls ih =>
    unfold callParts
    cases nonEmpty call.thoughtSignature with
    | none => exact congrArg (callItem call :: ·) (ih none)
    | some signature => exact congrArg (callItem call :: ·) (ih pending)

theorem flatMap_assistantParts (msg : AiMessage) :
    (assistantParts msg).flatMap Part.items =
      textItem (msg.content.getD "") ++ msg.calls.map callItem := by
  obtain ⟨text, pending, hparts, hnone, htext⟩ := assistantParts_eq msg
  rw [hparts, List.flatMap_append, flatMap_callParts]
  cases text with
  | none =>
    rw [hnone rfl]
    rfl
  | some part =>
    obtain ⟨signature, rfl⟩ := htext part rfl
    simp [Part.items]

variable {fromStr}

theorem contentItems_translateMessage {t t' : Translation} {msg : AiMessage}
    (h : translateMessage fromStr t msg = .ok t') :
    contentItems t'.contents = contentItems t.contents ++ messageItems fromStr msg := by
  unfold translateMessage at h
  unfold messageItems
  cases hrole : msg.role with
  | system =>
    rw [hrole] at h
    dsimp only at h
    split at h <;> cases h <;> simp
  | user =>
    rw [hrole] at h
    cases h
    exact contentItems_pushUserPart _ _
  | assistant =>
    rw [hrole] at h
    cases h
    dsimp only
    rw [← flatMap_assistantParts]
    split_ifs with hnil
    · simp [hnil]
    · simp [contentItems]
  | tool =>
    rw [hrole] at h
    dsimp only at h
    split at h
    · cases h
    · cases h
      refine (contentItems_pushUserPart _ _).trans ?_
      unfold functionResponse
      split <;> rfl

/-- Everything said, called and answered is sent, in order. -/
theorem contentItems_translateMessages {system : Option String} {messages : List AiMessage}
    {t : Translation} (h : translateMessages fromStr system messages = .ok t) :
    contentItems t.contents = messages.flatMap (messageItems fromStr) := by
  have hfold : ∀ (messages : List AiMessage) (t₀ t : Translation),
      messages.foldlM (translateMessage fromStr) t₀ = .ok t →
        contentItems t.contents =
          contentItems t₀.contents ++ messages.flatMap (messageItems fromStr) := by
    intro messages
    induction messages with
    | nil =>
      intro t₀ t h
      cases h
      simp
    | cons msg messages ih =>
      intro t₀ t h
      rw [List.foldlM_cons] at h
      cases hstep : translateMessage fromStr t₀ msg with
      | error e =>
        rw [hstep] at h
        cases h
      | ok t₁ =>
        rw [hstep] at h
        rw [ih t₁ t h, contentItems_translateMessage hstep, List.append_assoc, List.flatMap_cons]
  exact hfold messages _ t h

end Conversation

/-! ### A conversation as a run builds it -/

section Translated

variable {fromStr : String → Option Json} {system : Option String} {messages : List AiMessage}
  {t : Translation}

/-- A conversation that has become turns of user and model. -/
structure Translated (fromStr : String → Option Json) (system : Option String)
    (messages : List AiMessage) (t : Translation) : Prop where
  translated : translateMessages fromStr system messages = .ok t
  alternates : Alternates t.contents
  remembers : Remembers t.callIdToName (messages.flatMap AiMessage.calls)
  answers : ConsistentIds (messages.flatMap AiMessage.calls) → AnswersCalls t.contents

theorem translateMessages_append (h : translateMessages fromStr system messages = .ok t)
    (more : List AiMessage) : translateMessages fromStr system (messages ++ more) =
      more.foldlM (translateMessage fromStr) t := by
  unfold translateMessages at h ⊢
  rw [List.foldlM_append, h]
  rfl

theorem translated_nil (fromStr : String → Option Json) (system : Option String) :
    Translated fromStr system [] ⟨[], system.map instruction, []⟩ where
  translated := rfl
  alternates := alternates_nil
  remembers :=
    ⟨fun _ _ h => absurd h (Option.some_ne_none _).symm, fun _ hc => absurd hc List.not_mem_nil⟩
  answers _ := ⟨fun _ hc => absurd hc (Option.not_mem_none _), List.isChain_nil⟩

theorem Translated.userMessage (h : Translated fromStr system messages t) (text : String) :
    ∃ t', Translated fromStr system (messages ++ [userMessage text]) t' ∧
      EndsInUser t'.contents := by
  obtain ⟨halternates, hends⟩ := h.alternates.pushUserPart (.text text none false)
  refine ⟨{ t with contents := pushUserPart t.contents (.text text none false) }, ⟨?_, ?_, ?_, ?_⟩,
    hends⟩
  · rw [translateMessages_append h.translated]
    rfl
  · exact halternates
  · rw [List.flatMap_append]
    exact (List.append_nil _).symm ▸ h.remembers
  · intro hids
    refine AnswersCalls.pushText h.alternates (h.answers (hids.mono ?_)) text
    rw [List.flatMap_append]
    exact List.subset_append_left _ _

theorem Translated.assistantMessage (h : Translated fromStr system messages t)
    (hends : EndsInUser t.contents) (resp : AiResponse) :
    Translated fromStr system (messages ++ [assistantMessage resp])
      { t with
        contents :=
          if assistantParts (assistantMessage resp) = [] then t.contents
          else t.contents ++ [⟨"model", assistantParts (assistantMessage resp)⟩]
        callIdToName := rememberCalls t.callIdToName resp.calls } where
  translated := by
    rw [translateMessages_append h.translated]
    rfl
  alternates := by
    dsimp only
    split_ifs with hnil
    · exact h.alternates
    · exact h.alternates.pushModel hends hnil
  remembers := by
    rw [List.flatMap_append, List.flatMap_singleton]
    exact h.remembers.rememberCalls _
  answers hids := by
    rw [List.flatMap_append, List.flatMap_singleton] at hids
    have hanswers := h.answers (hids.mono (List.subset_append_left _ _))
    dsimp only
    split_ifs
    · exact hanswers
    · exact hanswers.concat (fun _ _ => .inl (responseKeys_assistantParts _))
        fun _ => responseKeys_assistantParts _

def resultPart (fromStr : String → Option Json) (callIdToName : List (String × String))
    (result : String × Json) : Part :=
  .functionResponse (functionResponse fromStr callIdToName result.1 (toolMessage result).content)

theorem responseKey?_resultPart (names : List (String × String)) (result : String × Json) :
    (resultPart fromStr names result).responseKey? = some (responseKey names result.1) := by
  unfold resultPart functionResponse responseKey
  cases names.lookup result.1 <;> rfl

theorem foldlM_toolMessages (results : List (String × Json)) {front : List Content}
    {parts : List Part} (ht : t.contents = front ++ [⟨"user", parts⟩]) :
    (results.map toolMessage).foldlM (translateMessage fromStr) t = .ok
      { t with contents :=
          front ++ [⟨"user", parts ++ results.map (resultPart fromStr t.callIdToName)⟩] } := by
  induction results generalizing t parts with
  | nil =>
    rw [List.map_nil, List.map_nil, List.append_nil, ← ht]
    rfl
  | cons result results ih =>
    have hstep : translateMessage fromStr t (toolMessage result) = .ok
        { t with contents :=
            front ++ [⟨"user", parts ++ [resultPart fromStr t.callIdToName result]⟩] } := by
      rw [← pushUserPart_concat_user, ← ht]
      rfl
    rw [List.map_cons, List.foldlM_cons, hstep]
    refine (ih rfl).trans ?_
    rw [List.map_cons, List.append_assoc, List.singleton_append]

/-- All results of a round are in one turn, which answers the calls of the turn before. -/
theorem Translated.toolRound (h : Translated fromStr system messages t)
    (hends : EndsInUser t.contents) {resp : AiResponse} {results : List (String × Json)}
    (hcalls : resp.calls ≠ []) (hids : results.map Prod.fst = resp.calls.map ToolCall.id) :
    ∃ t', Translated fromStr system
        (messages ++ (Sashiko.assistantMessage resp :: results.map toolMessage)) t' ∧
      EndsInUser t'.contents := by
  have hmodel := h.assistantMessage hends resp
  rw [if_neg (@assistantParts_ne_nil (Sashiko.assistantMessage resp) hcalls)] at hmodel
  set names := rememberCalls t.callIdToName resp.calls
  set model : Content := ⟨"model", assistantParts (Sashiko.assistantMessage resp)⟩
  obtain ⟨result, rest, rfl⟩ : ∃ r rs, results = r :: rs := by
    refine List.exists_cons_of_ne_nil fun hnil => hcalls ?_
    rw [hnil] at hids
    exact List.map_eq_nil_iff.mp hids.symm
  generalize hresults : result :: rest = results at hids ⊢
  have hassoc : messages ++ (Sashiko.assistantMessage resp :: results.map toolMessage) =
      messages ++ [Sashiko.assistantMessage resp] ++ results.map toolMessage := by simp
  have hspoken : (messages ++ [Sashiko.assistantMessage resp] ++ results.map toolMessage).flatMap
      AiMessage.calls = (messages ++ [Sashiko.assistantMessage resp]).flatMap AiMessage.calls := by
    rw [List.flatMap_append, List.append_right_eq_self, List.flatMap_eq_nil_iff]
    intro msg hmsg
    obtain ⟨r, -, rfl⟩ := List.mem_map.mp hmsg
    rfl
  set answered := results.map (resultPart fromStr names) with hanswered
  rw [hassoc]
  refine ⟨{ t with
      contents := t.contents ++ [model] ++ [⟨"user", answered⟩], callIdToName := names },
    ⟨?_, ?_, ?_, fun hconsistent => ?_⟩, ⟨_, List.getLast?_concat .., rfl⟩⟩
  · rw [translateMessages_append hmodel.translated, hanswered, ← hresults, List.map_cons,
      List.foldlM_cons]
    let first : Translation := { t with
      contents := t.contents ++ [model] ++ [⟨"user", [resultPart fromStr names result]⟩]
      callIdToName := names }
    have hstep : translateMessage fromStr
        { t with contents := t.contents ++ [model], callIdToName := names } (toolMessage result) =
        .ok first := by
      dsimp only [first]
      rw [← pushUserPart_concat_model]
      rfl
    rw [hstep]
    exact @foldlM_toolMessages fromStr first rest (t.contents ++ [model]) _ rfl
  · refine hmodel.alternates.concat (.inl rfl) ?_ (fun last hlast => ?_) fun _ => rfl
    · rw [hanswered, ← hresults]
      exact List.cons_ne_nil _ _
    · rw [List.getLast?_concat] at hlast
      rw [← Option.some.inj hlast]
      exact model_ne_user
  · rw [hspoken]
    exact hmodel.remembers
  · rw [hspoken] at hconsistent
    refine (hmodel.answers hconsistent).concat (fun last hlast => .inr ?_)
      fun hnil => absurd hnil (List.concat_ne_nil _ _)
    rw [List.getLast?_concat] at hlast
    rw [← Option.some.inj hlast, callKeys_assistantParts]
    have hkeys : (⟨"user", answered⟩ : Content).responseKeys =
        (results.map Prod.fst).map (responseKey names) := by
      rw [Content.responseKeys, hanswered, List.filterMap_map, List.map_map,
        ← List.filterMap_eq_map]
      exact List.filterMap_congr fun r _ => responseKey?_resultPart names r
    rw [hkeys, hids, List.map_map]
    refine List.map_congr_left fun call hcall => hmodel.remembers.responseKey_eq hconsistent ?_
    rw [List.flatMap_append, List.flatMap_singleton]
    exact List.mem_append_right _ hcall

/-- A rejected answer and what was wrong with it. -/
theorem Translated.rejected (h : Translated fromStr system messages t)
    (hends : EndsInUser t.contents) (resp : AiResponse) (text : String) :
    ∃ t', Translated fromStr system
        (messages ++ [Sashiko.assistantMessage resp, Sashiko.userMessage text]) t' ∧
      EndsInUser t'.contents := by
  have hassoc : messages ++ [Sashiko.assistantMessage resp, Sashiko.userMessage text] =
      messages ++ [Sashiko.assistantMessage resp] ++ [Sashiko.userMessage text] := by simp
  rw [hassoc]
  exact (h.assistantMessage hends resp).userMessage text

end Translated

section

variable {σ T π : Type} {R : SessionRunner} {L : LlmSession σ T} {P : Provider π}
  {fromStr : String → Option Json}

/-- The conversation is translated, whatever the system prompt is, and the user spoke last. -/
def Ready (fromStr : String → Option Json) (messages : List AiMessage) : Prop :=
  ∀ system, ∃ t, Translated fromStr system messages t ∧ EndsInUser t.contents

theorem ready_userMessage (fromStr : String → Option Json) (text : String) :
    Ready fromStr [userMessage text] := fun system =>
  (translated_nil fromStr system).userMessage text

theorem Ready.userMessage {messages : List AiMessage} (h : Ready fromStr messages)
    (text : String) : Ready fromStr (messages ++ [userMessage text]) := fun system => by
  obtain ⟨t, ht, -⟩ := h system
  exact ht.userMessage text

theorem ready_finalTurnHead {s : RunState σ} (h : Ready fromStr s.history) :
    Ready fromStr (finalTurnHead R s).history := by
  rw [finalTurnHead_history]
  split_ifs
  · exact h.userMessage _
  · rwa [List.append_nil]

theorem ready_again (hL : L.AnswersCalls) {s s' : RunState σ} {sent : AiRequest}
    {answer : Except AnyhowError AiResponse} (h : Again R L s sent answer s')
    (hs : Ready fromStr s.history) : Ready fromStr s'.history := by
  cases h with
  | transient e hclass hle => exact hs
  | feedback e feedback session hclass hhook hle => exact hs.userMessage feedback
  | toolRound resp results session htrunc hcalls hturn hrun =>
    simp only [RunState.push_history, RunState.countUsage_history, List.append_assoc,
      List.singleton_append]
    intro system
    obtain ⟨t, ht, hends⟩ := hs system
    exact ht.toolRound hends hcalls (hL _ _ _ _ hrun)
  | rejected resp violation session htrunc hfinal hreject hlt =>
    simp only [RunState.giveTurnBack_history, RunState.push_history, RunState.countUsage_history,
      List.append_assoc, List.singleton_append]
    intro system
    obtain ⟨t, ht, hends⟩ := hs system
    exact ht.rejected hends resp _

/-- Every request of a run holds a conversation that is ready. -/
theorem ready_runFor (hL : L.AnswersCalls) (fromStr : String → Option Json) (provider : π)
    (session : σ) (n : ℕ) :
    ∀ c ∈ (runFor R L P provider session n).calls, Ready fromStr c.request.messages := by
  have hinv : (∀ c ∈ (runFor R L P provider session n).calls, Ready fromStr c.request.messages) ∧
      ∀ s, (runFor R L P provider session n).status = .again s → Ready fromStr s.history := by
    refine runFor_invariant
      (I := fun r => (∀ c ∈ r.calls, Ready fromStr c.request.messages) ∧
        ∀ s, r.status = .again s → Ready fromStr s.history) ?_ ?_ ?_ n
    · refine ⟨fun c hc => by simp [startRun] at hc, fun s hs => ?_⟩
      cases hs
      exact ready_userMessage fromStr _
    · exact fun r s hr _ _ => ⟨hr.1, fun s' hs' => by cases hs'⟩
    · intro r s hr hst hmax
      have hhead : Ready fromStr (finalTurnHead R (beginTurn s)).history :=
        ready_finalTurnHead (hr.2 s hst)
      refine ⟨fun c hc => ?_, fun s' hs' => ?_⟩
      · rcases List.mem_append.mp hc with hc | hc
        · exact hr.1 c hc
        · rw [List.mem_singleton.mp hc]
          exact hhead
      · rw [sendTurn_status] at hs'
        exact ready_again hL (again_of_afterAnswer hs') hhead
  exact hinv.1

/-- In every request of a run user and model take turns, all that was said, called and answered is
there in order, and each turn of results answers the calls before it by id and name. -/
theorem gemini_requests_alternate (hL : L.AnswersCalls) (fromStr : String → Option Json)
    (toUppercase : String → String) (provider : π) (session : σ) (n : ℕ) :
    ∀ c ∈ (runFor R L P provider session n).calls, ∀ level maxTokens, ∃ translated,
      translateAiRequestWithOptions fromStr toUppercase c.request level maxTokens =
          .ok translated ∧
        Alternates translated.contents ∧ EndsInUser translated.contents ∧
        contentItems translated.contents = c.request.messages.flatMap (messageItems fromStr) ∧
        (ConsistentIds (c.request.messages.flatMap AiMessage.calls) →
          Gemini.AnswersCalls translated.contents) := by
  intro c hc level maxTokens
  obtain ⟨t, ht, hends⟩ := ready_runFor hL fromStr provider session n c hc c.request.system
  unfold translateAiRequestWithOptions
  rw [ht.translated]
  exact ⟨_, rfl, ht.alternates, hends, contentItems_translateMessages ht.translated, ht.answers⟩

end

/-- The three requests of a run that ignores a call and rejects the answer. -/
theorem gemini_requests_alternate_ignored :
    (runFor twoTurns rejectingSession callingProvider () () 3).calls.length = 3 ∧
      ∀ c ∈ (runFor twoTurns rejectingSession callingProvider () () 3).calls, ∃ translated,
        translateAiRequestWithOptions (fun _ => none) id c.request none (some 4096) =
            .ok translated ∧
          Alternates translated.contents ∧ EndsInUser translated.contents := by
  refine ⟨by decide, fun c hc => ?_⟩
  obtain ⟨translated, htranslated, halternates, hends, -⟩ :=
    gemini_requests_alternate rejectingSession_answersCalls (fun _ => none) id () () 3 c hc none
      (some 4096)
  exact ⟨translated, htranslated, halternates, hends⟩

/-! ### One turn, sent back -/

/-- A turn of the model as Gemini sends it. A text beside calls has no signature, and a text that
is empty is there for its signature. -/
structure ModelTurn where
  thoughts : List String
  text : Option (String × Option String)
  calls : List (FunctionCall × Option String)
  text_signature : ∀ t ∈ text, t.2 ≠ some "" ∧ (calls ≠ [] → t.2 = none)
  text_says : ∀ t ∈ text, t.1 = "" → t.2 ≠ none
  call_signature : ∀ c ∈ calls, c.2 ≠ some ""
  call_id : ∀ c ∈ calls, c.1.id ≠ some "" ∧ c.1.id ≠ some c.1.name

def ModelTurn.textParts (turn : ModelTurn) : List Part :=
  (turn.text.map fun t => Part.text t.1 t.2 false).toList

def ModelTurn.parts (turn : ModelTurn) : List Part :=
  turn.thoughts.map (fun thought => Part.text thought none true) ++ turn.textParts ++
    turn.calls.map fun c => Part.functionCall c.1 c.2

section Replay

variable (integral : String → Option Int)

/-- The parts that are sent back: all but the thoughts. -/
def ModelTurn.replayed (turn : ModelTurn) : List Part :=
  turn.textParts ++ turn.calls.map fun c =>
    Part.functionCall { c.1 with args := normalizeJsonNumbers integral c.1.args } c.2

end Replay

/-- Two calls, of which the first has an id and a signature. -/
def signedTurn : ModelTurn where
  thoughts := ["Where is the lock taken?"]
  text := some ("Let me look.", none)
  calls := [(⟨some "call_1", "read_files", .obj []⟩, some "sig"),
    (⟨none, "git_log", .obj []⟩, none)]
  text_signature := by simp
  text_says := by simp
  call_signature := by simp
  call_id := by simp

example : assistantParts (assistantMessage (answerOf (fun _ => none)
      ⟨⟨"model", signedTurn.parts⟩, some "STOP", none⟩ none)) =
    [.text "Let me look." none false,
      .functionCall ⟨some "call_1", "read_files", .obj []⟩ (some "sig"),
      .functionCall ⟨none, "git_log", .obj []⟩ none] := by decide

end Sashiko.Gemini
