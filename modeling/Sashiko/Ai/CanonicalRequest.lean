import Sashiko.Ai.Message
import Mathlib.Data.List.Basic

/-! `ai/cache.rs`: the text under which the response cache keeps a request. It holds no zero
byte, so that a key can be read apart into its identity and its request. -/

namespace Sashiko

/-! ### Requests as JSON -/

/-- A field that is skipped when there is nothing in it. -/
def optionalField (name : String) (value : Option Json) : List (String × Json) :=
  (value.map (name, ·)).toList

def orNull (value : Option Json) : Json := value.getD .null

def AiRole.toJson : AiRole → Json
  | system => .str "system"
  | user => .str "user"
  | assistant => .str "assistant"
  | tool => .str "tool"

def ToolCall.toJson (call : ToolCall) : Json :=
  .obj ([("arguments", call.arguments), ("function_name", .str call.functionName),
    ("id", .str call.id)] ++ optionalField "thought_signature" (call.thoughtSignature.map .str))

def AiMessage.toJson (m : AiMessage) : Json :=
  .obj ([("content", orNull (m.content.map .str)), ("role", m.role.toJson)] ++
    optionalField "thought" (m.thought.map .str) ++
    optionalField "thought_signature" (m.thoughtSignature.map .str) ++
    optionalField "tool_call_id" (m.toolCallId.map .str) ++
    optionalField "tool_calls" (m.toolCalls.map fun calls => .arr (calls.map ToolCall.toJson)))

def AiTool.toJson (tool : AiTool) : Json :=
  .obj [("description", .str tool.description), ("name", .str tool.name),
    ("parameters", tool.parameters)]

def AiResponseFormat.toJson : AiResponseFormat → Json
  | text => .str "text"
  | json schema => .obj [("json", .obj (optionalField "schema" schema))]

def ReasoningEffort.toJson : ReasoningEffort → Json
  | low => .str "low"
  | medium => .str "medium"
  | high => .str "high"

/-- What the cache takes from its libraries: the replacement of the first date of a prompt, the
number that a temperature becomes, and the digest of a text. -/
structure CacheParts where
  replacePromptDate : String → String
  temperature : BitVec 32 → Json
  sha256 : String → String

/-- The entries stand in the order of their keys. -/
def AiRequest.fields (X : CacheParts) (r : AiRequest) : List (String × Json) :=
  optionalField "context_tag" (r.contextTag.map .str) ++
    [("messages", .arr (r.messages.map AiMessage.toJson))] ++
    optionalField "reasoning_effort" (r.reasoningEffort.map ReasoningEffort.toJson) ++
    optionalField "response_format" (r.responseFormat.map AiResponseFormat.toJson) ++
    optionalField "system" (r.system.map .str) ++
    optionalField "temperature" (r.temperature.map X.temperature) ++
    optionalField "tools" (r.tools.map fun tools => .arr (tools.map AiTool.toJson))

def AiRequest.toJson (X : CacheParts) (r : AiRequest) : Json := .obj (r.fields X)

/-! ### The canonical form -/

mutual
/-- `scrub_thought_signatures` -/
def scrubThoughtSignatures : Json → Json
  | .obj fields => .obj (scrubFields fields)
  | .arr items => .arr (scrubItems items)
  | .null => .null
  | .bool b => .bool b
  | .int n => .int n
  | .float text => .float text
  | .str s => .str s
def scrubItems : List Json → List Json
  | [] => []
  | x :: xs => scrubThoughtSignatures x :: scrubItems xs
def scrubFields : List (String × Json) → List (String × Json)
  | [] => []
  | (k, x) :: xs =>
    if k = "thought_signature" ∨ k = "thoughtSignature" then scrubFields xs
    else (k, scrubThoughtSignatures x) :: scrubFields xs
end

section Canonical

variable (X : CacheParts)

def replaceSystemDate (field : String × Json) : String × Json :=
  if field.1 = "system" then
    match field.2 with
    | .str text => ("system", .str (X.replacePromptDate text))
    | value => ("system", value)
  else field

def canonicalRequest (r : AiRequest) : Json :=
  scrubThoughtSignatures
    (.obj (((r.fields X).filter (·.1 ≠ "context_tag")).map (replaceSystemDate X)))

def canonicalRequestJson (r : AiRequest) : String := (canonicalRequest X r).render

def computeCacheKeyForIdentity (identity canonical : String) : String :=
  X.sha256 (identity ++ "\x00" ++ canonical)

/-- The efforts whose answers a resumed run takes for the request. -/
def candidateEfforts (r : AiRequest) : List (Option ReasoningEffort) :=
  [r.reasoningEffort, none, some .low, some .medium, some .high].eraseDups

def candidateCanonicals (r : AiRequest) : List String :=
  (candidateEfforts r).map fun effort =>
    canonicalRequestJson X { r with reasoningEffort := effort }

end Canonical

/-! ### What the canonical form leaves out -/

section Erased

variable (X : CacheParts)

def AiMessage.unsigned (m : AiMessage) : AiMessage :=
  { m with
    thoughtSignature := none
    toolCalls := m.toolCalls.map fun calls => calls.map ({ · with thoughtSignature := none }) }

/-- The request without its context tag, its thought signatures and the date of its prompt. -/
def AiRequest.erased (r : AiRequest) : AiRequest :=
  { r with
    contextTag := none
    system := r.system.map X.replacePromptDate
    messages := r.messages.map AiMessage.unsigned }

theorem optionalField_none (name : String) : optionalField name none = [] := rfl

theorem filter_optionalField_of_ne {name key : String} (h : name ≠ key) (value : Option Json) :
    (optionalField name value).filter (·.1 ≠ key) = optionalField name value := by
  cases value with
  | none => rfl
  | some v => exact List.filter_cons_of_pos (by simpa using h)

theorem filter_optionalField_self (name : String) (value : Option Json) :
    (optionalField name value).filter (·.1 ≠ name) = [] := by
  cases value with
  | none => rfl
  | some v => exact List.filter_cons_of_neg (by simp)

theorem replaceSystemDate_optionalField {name : String} (h : name ≠ "system")
    (value : Option Json) :
    (optionalField name value).map (replaceSystemDate X) = optionalField name value := by
  cases value with
  | none => rfl
  | some v => exact congrArg ([·]) (if_neg h)

theorem replaceSystemDate_system (system : Option String) :
    (optionalField "system" (system.map .str)).map (replaceSystemDate X) =
      optionalField "system" ((system.map X.replacePromptDate).map .str) := by
  cases system with
  | none => rfl
  | some text => rfl

theorem scrubFields_append (fields fields' : List (String × Json)) :
    scrubFields (fields ++ fields') = scrubFields fields ++ scrubFields fields' := by
  induction fields with
  | nil => rfl
  | cons field fields ih =>
    rw [List.cons_append, scrubFields, scrubFields, ih]
    split_ifs
    · rfl
    · rfl

theorem scrubItems_eq_map (items : List Json) :
    scrubItems items = items.map scrubThoughtSignatures := by
  induction items with
  | nil => rfl
  | cons item items ih => rw [scrubItems, ih, List.map_cons]

theorem scrubFields_signature (value : Option Json) :
    scrubFields (optionalField "thought_signature" value) = [] := by
  cases value with
  | none => rfl
  | some v => exact if_pos (.inl rfl)

theorem scrub_toolCall (call : ToolCall) :
    scrubThoughtSignatures call.toJson =
      scrubThoughtSignatures { call with thoughtSignature := none }.toJson := by
  rw [ToolCall.toJson, ToolCall.toJson, scrubThoughtSignatures, scrubThoughtSignatures,
    scrubFields_append, scrubFields_append, scrubFields_signature, scrubFields_signature]

theorem scrub_message (m : AiMessage) :
    scrubThoughtSignatures m.toJson = scrubThoughtSignatures m.unsigned.toJson := by
  have hcalls : scrubFields (optionalField "tool_calls"
      (m.toolCalls.map fun calls => .arr (calls.map ToolCall.toJson))) =
        scrubFields (optionalField "tool_calls"
          (m.unsigned.toolCalls.map fun calls => .arr (calls.map ToolCall.toJson))) := by
    rw [AiMessage.unsigned]
    cases m.toolCalls with
    | none => rfl
    | some calls =>
      have hscrub : scrubThoughtSignatures ∘ ToolCall.toJson = scrubThoughtSignatures ∘
          ToolCall.toJson ∘ ({ · with thoughtSignature := none }) := funext scrub_toolCall
      simp only [optionalField, Option.map_some, Option.toList_some, scrubFields,
        scrubThoughtSignatures, scrubItems_eq_map, List.map_map, hscrub]
  rw [AiMessage.toJson, AiMessage.toJson, scrubThoughtSignatures, scrubThoughtSignatures]
  simp only [scrubFields_append, hcalls, scrubFields_signature]
  rfl

/-- The canonical form leaves out the context tag, the thought signatures and the date. -/
theorem canonicalRequest_eq (r : AiRequest) :
    canonicalRequest X r = scrubThoughtSignatures ((r.erased X).toJson X) := by
  have hscrub : scrubThoughtSignatures ∘ AiMessage.toJson =
      scrubThoughtSignatures ∘ AiMessage.toJson ∘ AiMessage.unsigned := funext scrub_message
  have hmessages : scrubFields [("messages", .arr (r.messages.map AiMessage.toJson))] =
      scrubFields
        [("messages", .arr ((r.messages.map AiMessage.unsigned).map AiMessage.toJson))] := by
    simp only [scrubFields, scrubThoughtSignatures, scrubItems_eq_map, List.map_map, hscrub]
  have hfields : ((r.fields X).filter (·.1 ≠ "context_tag")).map (replaceSystemDate X) =
      [("messages", .arr (r.messages.map AiMessage.toJson))] ++
        optionalField "reasoning_effort" (r.reasoningEffort.map ReasoningEffort.toJson) ++
        optionalField "response_format" (r.responseFormat.map AiResponseFormat.toJson) ++
        optionalField "system" ((r.system.map X.replacePromptDate).map .str) ++
        optionalField "temperature" (r.temperature.map X.temperature) ++
        optionalField "tools" (r.tools.map fun tools => .arr (tools.map AiTool.toJson)) := by
    have hfirst : ([("messages", .arr (r.messages.map AiMessage.toJson))] :
        List (String × Json)).filter (·.1 ≠ "context_tag") =
          [("messages", .arr (r.messages.map AiMessage.toJson))] := rfl
    rw [AiRequest.fields]
    simp (disch := decide) only [List.filter_append, List.map_append, filter_optionalField_self,
      filter_optionalField_of_ne, replaceSystemDate_optionalField, replaceSystemDate_system, hfirst,
      List.nil_append]
    rfl
  rw [canonicalRequest, hfields, AiRequest.toJson, AiRequest.fields, AiRequest.erased]
  simp only [scrubThoughtSignatures, scrubFields_append, hmessages, Option.map_none,
    optionalField_none, List.nil_append]

/-- Requests that differ in these alone have the same canonical form. -/
theorem canonicalRequestJson_congr {r r' : AiRequest} (h : r.erased X = r'.erased X) :
    canonicalRequestJson X r = canonicalRequestJson X r' := by
  rw [canonicalRequestJson, canonicalRequestJson, canonicalRequest_eq, canonicalRequest_eq, h]

end Erased

/-! ### No zero byte -/

def zeroByte : Char := Char.ofNat 0

mutual
/-- The numbers print without a zero byte. -/
def Json.Printable : Json → Prop
  | .float text => zeroByte ∉ text.toList
  | .arr items => PrintableItems items
  | .obj fields => PrintableFields fields
  | .null => True
  | .bool _ => True
  | .int _ => True
  | .str _ => True
def PrintableItems : List Json → Prop
  | [] => True
  | x :: xs => x.Printable ∧ PrintableItems xs
def PrintableFields : List (String × Json) → Prop
  | [] => True
  | (_, x) :: xs => x.Printable ∧ PrintableFields xs
end

theorem printableItems_iff {items : List Json} :
    PrintableItems items ↔ ∀ item ∈ items, item.Printable := by
  induction items with
  | nil => simp [PrintableItems]
  | cons item items ih => rw [PrintableItems, ih, List.forall_mem_cons]

theorem printableFields_iff {fields : List (String × Json)} :
    PrintableFields fields ↔ ∀ field ∈ fields, field.2.Printable := by
  induction fields with
  | nil => simp [PrintableFields]
  | cons field fields ih => rw [PrintableFields, ih, List.forall_mem_cons]

theorem hexDigit_ne_zeroByte (n : ℕ) : Json.hexDigit n ≠ zeroByte := by
  have hdigits : "0123456789abcdef".toList.all (· ≠ zeroByte) = true := by decide
  rw [Json.hexDigit, List.getD_eq_getElem?_getD]
  cases hget : "0123456789abcdef".toList[n]? with
  | none => decide
  | some c =>
    exact of_decide_eq_true (List.all_eq_true.mp hdigits c (List.mem_of_getElem? hget))

theorem zeroByte_not_mem_escapeChar (c : Char) : zeroByte ∉ (Json.escapeChar c).toList := by
  unfold Json.escapeChar
  split_ifs with h1 h2 h3 h4 h5 h6 h7 h8
  · decide
  · decide
  · decide
  · decide
  · decide
  · decide
  · decide
  · have hpre : zeroByte ∉ "\\u00".toList := by decide
    simp only [String.toList_append, String.toList_singleton, List.mem_append,
      List.mem_singleton, hpre, false_or, not_or]
    exact ⟨(hexDigit_ne_zeroByte _).symm, (hexDigit_ne_zeroByte _).symm⟩
  · rw [String.toList_singleton, List.mem_singleton]
    rintro rfl
    exact h8 (by decide)

theorem zeroByte_not_mem_quote (s : String) : zeroByte ∉ (Json.quote s).toList := by
  have hquote : zeroByte ∉ "\"".toList := by decide
  rw [Json.quote, String.toList_append, String.toList_append, String.toList_join,
    List.mem_append, List.mem_append, List.mem_flatMap]
  rintro ((h | ⟨text, htext, h⟩) | h)
  · exact hquote h
  · obtain ⟨c, -, rfl⟩ := List.mem_map.mp htext
    exact zeroByte_not_mem_escapeChar c h
  · exact hquote h

theorem zeroByte_not_mem_int (n : Int) : zeroByte ∉ (toString n).toList := by
  have hnat : ∀ m : ℕ, zeroByte ∉ (Nat.repr m).toList := fun m hmem => by
    rw [Nat.toList_repr] at hmem
    exact absurd (Nat.isDigit_of_mem_toDigits (by omega) (by omega) hmem) (by decide)
  have hminus : zeroByte ∉ "-".toList := by decide
  rw [Int.toString_eq_repr, Int.repr_eq_if]
  split_ifs
  · exact hnat _
  · rw [String.toList_append, List.mem_append, not_or]
    exact ⟨hminus, hnat _⟩

theorem zeroByte_not_mem_intercalate {texts : List String}
    (h : ∀ text ∈ texts, zeroByte ∉ text.toList) :
    zeroByte ∉ (String.intercalate "," texts).toList := by
  have hcomma : zeroByte ∉ ",".toList := by decide
  induction texts with
  | nil => decide
  | cons text texts ih =>
    obtain ⟨htext, hrest⟩ := List.forall_mem_cons.mp h
    by_cases hnil : texts = []
    · rw [hnil, String.intercalate_singleton]
      exact htext
    · rw [String.intercalate_cons_of_ne_nil hnil, String.toList_append, String.toList_append,
        List.mem_append, List.mem_append, not_or, not_or]
      exact ⟨⟨htext, hcomma⟩, ih hrest⟩

/-- What stands between two brackets. -/
theorem zeroByte_not_mem_enclosed {first last : String} {texts : List String}
    (hfirst : zeroByte ∉ first.toList) (hlast : zeroByte ∉ last.toList)
    (h : ∀ text ∈ texts, zeroByte ∉ text.toList) :
    zeroByte ∉ (first ++ String.intercalate "," texts ++ last).toList := by
  rw [String.toList_append, String.toList_append, List.mem_append, List.mem_append, not_or, not_or]
  exact ⟨⟨hfirst, zeroByte_not_mem_intercalate h⟩, hlast⟩

mutual
theorem zeroByte_not_mem_render : ∀ {j : Json}, j.Printable → zeroByte ∉ j.render.toList
  | .float _, h => h
  | .arr _, h =>
    zeroByte_not_mem_enclosed (by decide) (by decide) (zeroByte_not_mem_renderItems h)
  | .obj _, h =>
    zeroByte_not_mem_enclosed (by decide) (by decide) (zeroByte_not_mem_renderFields h)
  | .null, _ => by decide
  | .bool true, _ => by decide
  | .bool false, _ => by decide
  | .int n, _ => zeroByte_not_mem_int n
  | .str s, _ => zeroByte_not_mem_quote s
theorem zeroByte_not_mem_renderItems : ∀ {items : List Json}, PrintableItems items →
    ∀ text ∈ Json.renderItems items, zeroByte ∉ text.toList
  | [], _ => fun _ hmem => absurd hmem List.not_mem_nil
  | _ :: _, h => List.forall_mem_cons.mpr
    ⟨zeroByte_not_mem_render h.1, zeroByte_not_mem_renderItems h.2⟩
theorem zeroByte_not_mem_renderFields : ∀ {fields : List (String × Json)}, PrintableFields fields →
    ∀ text ∈ Json.renderFields fields, zeroByte ∉ text.toList
  | [], _ => fun _ hmem => absurd hmem List.not_mem_nil
  | (k, value) :: _, h => by
    have hcolon : zeroByte ∉ ":".toList := by decide
    refine List.forall_mem_cons.mpr ⟨?_, zeroByte_not_mem_renderFields h.2⟩
    rw [String.toList_append, String.toList_append, List.mem_append, List.mem_append, not_or,
      not_or]
    exact ⟨⟨zeroByte_not_mem_quote k, hcolon⟩, zeroByte_not_mem_render h.1⟩
end

mutual
theorem printable_scrub : ∀ {j : Json}, j.Printable → (scrubThoughtSignatures j).Printable
  | .float _, h => h
  | .arr _, h => printable_scrubItems h
  | .obj _, h => printable_scrubFields h
  | .null, _ => trivial
  | .bool _, _ => trivial
  | .int _, _ => trivial
  | .str _, _ => trivial
theorem printable_scrubItems : ∀ {items : List Json}, PrintableItems items →
    PrintableItems (scrubItems items)
  | [], _ => trivial
  | _ :: _, h => ⟨printable_scrub h.1, printable_scrubItems h.2⟩
theorem printable_scrubFields : ∀ {fields : List (String × Json)}, PrintableFields fields →
    PrintableFields (scrubFields fields)
  | [], _ => trivial
  | (k, value) :: fields, h => by
    rw [scrubFields]
    split_ifs
    · exact printable_scrubFields h.2
    · exact ⟨printable_scrub h.1, printable_scrubFields h.2⟩
end

section Key

variable {X : CacheParts}

/-- A request as it can be printed: its numbers hold no zero byte. -/
def AiRequest.Printable (X : CacheParts) (r : AiRequest) : Prop := (r.toJson X).Printable

theorem printable_withEffort {r : AiRequest} (h : r.Printable X)
    (effort : Option ReasoningEffort) :
    AiRequest.Printable X { r with reasoningEffort := effort } := by
  have hold : ∀ field ∈ r.fields X, field.2.Printable := printableFields_iff.mp h
  refine printableFields_iff.mpr fun field hfield => ?_
  simp only [AiRequest.fields, List.mem_append] at hfield hold
  rcases hfield with (((((h | h) | h) | h) | h) | h) | h
  · exact hold field (by simp only [h, true_or])
  · exact hold field (by simp only [h, true_or, or_true])
  · cases effort with
    | none => cases h
    | some e =>
      rw [List.mem_singleton.mp h]
      cases e <;> trivial
  · exact hold field (by simp only [h, true_or, or_true])
  · exact hold field (by simp only [h, true_or, or_true])
  · exact hold field (by simp only [h, true_or, or_true])
  · exact hold field (by simp only [h, or_true])

theorem zeroByte_not_mem_canonical {r : AiRequest} (h : r.Printable X) :
    zeroByte ∉ (canonicalRequestJson X r).toList := by
  have hold : ∀ field ∈ r.fields X, field.2.Printable := printableFields_iff.mp h
  refine zeroByte_not_mem_render (printable_scrub (printableFields_iff.mpr fun field hfield => ?_))
  obtain ⟨field, hmem, rfl⟩ := List.mem_map.mp hfield
  have hprintable := hold field (List.mem_filter.mp hmem).1
  rw [replaceSystemDate]
  split_ifs
  · split
    · trivial
    · exact hprintable
  · exact hprintable

theorem zeroByte_not_mem_candidate {r : AiRequest} (h : r.Printable X) {canonical : String}
    (hmem : canonical ∈ candidateCanonicals X r) : zeroByte ∉ canonical.toList := by
  obtain ⟨effort, -, rfl⟩ := List.mem_map.mp hmem
  exact zeroByte_not_mem_canonical (printable_withEffort h effort)

theorem canonical_mem_candidates (r : AiRequest) :
    canonicalRequestJson X r ∈ candidateCanonicals X r :=
  List.mem_map.mpr ⟨r.reasoningEffort, List.mem_eraseDups.mpr List.mem_cons_self, rfl⟩

/-- The last zero byte stands between the identity and the request. -/
theorem append_zeroByte_inj {a a' c c' : List Char} (hc : zeroByte ∉ c) (hc' : zeroByte ∉ c')
    (h : a ++ zeroByte :: c = a' ++ zeroByte :: c') : a = a' ∧ c = c' := by
  rcases List.append_eq_append_iff.mp h with ⟨t, ha, ht⟩ | ⟨t, ha, ht⟩
  · cases t with
    | nil => exact ⟨by rw [ha, List.append_nil], (List.cons.inj ht).2⟩
    | cons x t =>
      refine absurd ?_ hc
      rw [(List.cons.inj ht).2]
      exact List.mem_append_right _ List.mem_cons_self
  · cases t with
    | nil => exact ⟨by rw [ha, List.append_nil], (List.cons.inj ht).2.symm⟩
    | cons x t =>
      refine absurd ?_ hc'
      rw [(List.cons.inj ht).2]
      exact List.mem_append_right _ List.mem_cons_self

/-- A key gives its identity and its request away, as far as the digest does. -/
theorem computeCacheKeyForIdentity_inj (hsha : Function.Injective X.sha256)
    {identity identity' canonical canonical' : String} (hc : zeroByte ∉ canonical.toList)
    (hc' : zeroByte ∉ canonical'.toList)
    (h : computeCacheKeyForIdentity X identity canonical =
      computeCacheKeyForIdentity X identity' canonical') :
    identity = identity' ∧ canonical = canonical' := by
  have hzero : "\x00".toList = [zeroByte] := by decide
  have hlist := congrArg String.toList (hsha h)
  simp only [String.toList_append, hzero, List.append_assoc, List.singleton_append] at hlist
  obtain ⟨hid, hcanonical⟩ := append_zeroByte_inj hc hc' hlist
  exact ⟨String.toList_inj.mp hid, String.toList_inj.mp hcanonical⟩

end Key

end Sashiko
