import Sashiko.Access.Titles
import Sashiko.Ai.Truncator
import Sashiko.Fixes.Trailers
import Sashiko.Lib.Lines
import Sashiko.Related.InlineReview
import Sashiko.Series.Prerequisite

/-! The lines of a mail body that name the patches or the series it builds on. -/

namespace Sashiko

def maxPrerequisiteSeries : ℕ := 128

def maxLoreOperations : ℕ := 8

def maxPrerequisiteDepth : ℕ := 8

inductive PrerequisiteMetadata
  | patchIds (patchIds messageIds : List String)
  | messageIds (messageIds : List String)
  | basedOn (messageId : String)
  deriving DecidableEq, Repr

def metadataValues (body field : String) : List Chars :=
  (linesOf body.toList).filterMap fun line =>
    (splitOnce ':' line).bind fun parts =>
      if eqIgnoreAsciiCase (String.ofList parts.1) field then some (trimChars parts.2) else none

/-- `u8::is_ascii_control` -/
def isAsciiControl (c : Char) : Bool := c.toNat < 32 || c.toNat = 127

def isMessageIdChar (c : Char) : Bool :=
  c.toNat < 128 && !isAsciiWhitespace c && !isAsciiControl c && c ≠ '<' && c ≠ '>'

/-- The message id, without the brackets around it. -/
def checkMessageId (field : String) (messageId : Chars) : Except String String :=
  if messageId = [] then .error (field ++ " metadata has an empty message ID")
  else if byteLen messageId > 998 then .error (field ++ " message ID exceeds 998 bytes")
  else if !messageId.all isMessageIdChar then
    .error (field ++ " metadata contains an invalid message ID")
  else
    match splitOnce '@' messageId with
    | none => .error (field ++ " metadata does not contain a message ID")
    | some (localPart, domain) =>
      if localPart = [] ∨ domain = [] then
        .error (field ++ " metadata contains an invalid message ID")
      else .ok (String.ofList messageId)

def parseMessageId (field : String) (value : Chars) : Except String String :=
  if (value.head? = some '<') ≠ (value.getLast? = some '>') then
    .error (field ++ " metadata has unmatched angle brackets")
  else checkMessageId field (if value.head? = some '<' then (value.drop 1).dropLast else value)

def addBasedOn (basedOn : Option String) (value : Chars) : Except String (Option String) :=
  parseMessageId "Based-on" value >>= fun messageId =>
    match basedOn with
    | some existing =>
      if existing ≠ messageId then
        .error "multiple distinct Based-on message IDs are not supported"
      else .ok basedOn
    | none => .ok (some messageId)

def parseBasedOnMessageId (body : String) : Except String (Option String) :=
  (metadataValues body "Based-on").foldlM addBasedOn none

/-- The ids so far are those seen. -/
def addSeriesId (ids : List String) (value : Chars) : Except String (List String) :=
  parseMessageId "prerequisite-message-id" value >>= fun messageId =>
    if messageId ∈ ids then .ok ids
    else if ids.length = maxPrerequisiteSeries then
      .error ("metadata contains more than " ++ toString maxPrerequisiteSeries ++
        " unique prerequisite message IDs")
    else .ok (ids ++ [messageId])

def parsePrerequisiteSeriesIds (body : String) : Except String (List String) :=
  (metadataValues body "prerequisite-message-id").foldlM addSeriesId []

def parsePrerequisiteThreadHints (body : String) : List String :=
  (((metadataValues body "prerequisite-message-id").filterMap fun value =>
    (parseMessageId "prerequisite-message-id" value).toOption).foldl
      (fun seen messageId => if messageId ∈ seen then seen else seen ++ [messageId]) []).take
    maxLoreOperations

/-- Forty hexadecimal digits. -/
def isPatchIdText (id : Chars) : Bool := id.length = 40 && id.all isHexDigit

def addPatchId (ids : List String) (id : Chars) : Except String (List String) :=
  if !isPatchIdText id then .ok ids
  else
    let id := asciiLower (String.ofList id)
    if id ∈ ids then .ok ids
    else if ids.length = maxPrerequisitePatchIds then
      .error ("b4 metadata contains more than " ++ toString maxPrerequisitePatchIds ++
        " unique prerequisite patch IDs")
    else .ok (ids ++ [id])

def parsePrerequisitePatchIds (body : String) : Except String (List String) :=
  (metadataValues body "prerequisite-patch-id").foldlM addPatchId []

def parsePrerequisiteMetadata (body : String) : Except String (Option PrerequisiteMetadata) :=
  parsePrerequisitePatchIds body >>= fun patchIds =>
    if patchIds ≠ [] then
      .ok (some (.patchIds patchIds (parsePrerequisiteThreadHints body)))
    else if metadataValues body "prerequisite-patch-id" ≠ [] then
      .error "prerequisite-patch-id metadata contains no valid patch IDs"
    else
      parsePrerequisiteSeriesIds body >>= fun messageIds =>
        if messageIds ≠ [] then .ok (some (.messageIds messageIds))
        else (parseBasedOnMessageId body).map fun basedOn => basedOn.map .basedOn

/-! ### What is read is in canonical form -/

def normalizePatchId (patchId : String) : Except String String :=
  if !isPatchIdText patchId.toList then .error ("invalid stable Git patch ID " ++ patchId)
  else .ok (asciiLower patchId)

/-- A normalised patch id. -/
def IsPatchId (id : String) : Prop := normalizePatchId id = .ok id

theorem visible_of_isMessageIdChar {c : Char} (h : isMessageIdChar c = true) :
    33 ≤ c.toNat ∧ c.toNat < 127 ∧ c ≠ '<' ∧ c ≠ '>' := by
  simp only [isMessageIdChar, isAsciiWhitespace, isAsciiControl, List.contains_eq_mem,
    List.mem_cons, List.not_mem_nil, or_false, Bool.and_eq_true, decide_eq_true_eq,
    Bool.not_eq_true', Bool.or_eq_false_iff, decide_eq_false_iff_not] at h
  obtain ⟨⟨⟨⟨hascii, hspace⟩, hcontrol, hdelete⟩, hopen⟩, hclose⟩ := h
  exact ⟨by omega, by omega, hopen, hclose⟩

theorem isRustWhitespace_of_visible {c : Char} (h : 33 ≤ c.toNat) (h' : c.toNat < 127) :
    isRustWhitespace c = false := by
  simp only [isRustWhitespace, List.contains_eq_mem, List.mem_cons, List.not_mem_nil, or_false,
    Bool.or_eq_false_iff, Bool.and_eq_false_iff, decide_eq_false_iff_not]
  omega

theorem cleanMessageId_ofList {cs : Chars} (h : ∀ c ∈ cs, isMessageIdChar c = true) :
    cleanMessageId (String.ofList cs) = String.ofList cs := by
  rw [cleanMessageId, String.toList_ofList, trimChars_eq_self, trimMatches_eq_self]
  · intro c hc
    obtain ⟨-, -, hopen, hclose⟩ := visible_of_isMessageIdChar (h c hc)
    simp [hopen, hclose]
  · intro c hc
    obtain ⟨hlow, hhigh, -, -⟩ := visible_of_isMessageIdChar (h c hc)
    exact isRustWhitespace_of_visible hlow hhigh

theorem cleanMessageId_of_check {field m : String} {messageId : Chars}
    (h : checkMessageId field messageId = .ok m) : cleanMessageId m = m := by
  unfold checkMessageId at h
  split_ifs at h with _ _ hall
  split at h
  · cases h
  · split_ifs at h
    obtain rfl := Except.ok.inj h
    exact cleanMessageId_ofList (List.all_eq_true.mp (by simpa using hall))

theorem cleanMessageId_of_parse {field m : String} {value : Chars}
    (h : parseMessageId field value = .ok m) : cleanMessageId m = m := by
  unfold parseMessageId at h
  split_ifs at h <;> exact cleanMessageId_of_check h

theorem isHexDigit_iff {c : Char} : isHexDigit c = true ↔
    48 ≤ c.toNat ∧ c.toNat ≤ 57 ∨ 97 ≤ c.toNat ∧ c.toNat ≤ 102 ∨ 65 ≤ c.toNat ∧ c.toNat ≤ 70 := by
  have hdigit : c.isDigit = true ↔ 48 ≤ c.toNat ∧ c.toNat ≤ 57 := by
    rw [show c.isDigit = (decide (c.val ≥ 48) && decide (c.val ≤ 57)) from rfl, Bool.and_eq_true,
      decide_eq_true_eq, decide_eq_true_eq]
    rfl
  rw [isHexDigit, Bool.or_eq_true, Bool.or_eq_true, hdigit, Bool.and_eq_true, Bool.and_eq_true,
    decide_eq_true_eq, decide_eq_true_eq, decide_eq_true_eq, decide_eq_true_eq, or_assoc]
  rfl

theorem isHexDigit_toLower {c : Char} (h : isHexDigit c = true) : isHexDigit c.toLower = true := by
  rcases toLower_cases c with heq | ⟨hlow, hhigh, hlower⟩
  · exact heq.symm ▸ h
  · rw [isHexDigit_iff] at h ⊢
    omega

theorem toList_asciiLower_lower (s : String) :
    (asciiLower (asciiLower s)).toList = (asciiLower s).toList := by
  simp only [asciiLower, String.toList_ofList, List.map_map]
  exact List.map_congr_left fun c _ => toLower_idempotent c

theorem normalizePatchId_asciiLower {id : String} (h : isPatchIdText id.toList = true) :
    IsPatchId (asciiLower id) := by
  have hlower : isPatchIdText (asciiLower id).toList = true := by
    simp only [isPatchIdText, asciiLower, String.toList_ofList, List.length_map, List.all_map,
      Bool.and_eq_true, decide_eq_true_eq, List.all_eq_true, Function.comp_apply] at h ⊢
    exact ⟨h.1, fun c hc => isHexDigit_toLower (h.2 c hc)⟩
  rw [IsPatchId, normalizePatchId, hlower, String.ext (toList_asciiLower_lower id)]
  rfl

theorem normalizePatchId_ok {id id' : String} (h : normalizePatchId id = .ok id') :
    id' = asciiLower id ∧ IsPatchId id' := by
  unfold normalizePatchId at h
  split_ifs at h with hid
  obtain rfl := Except.ok.inj h
  exact ⟨rfl, normalizePatchId_asciiLower (by simpa using hid)⟩

/-- An id that is normalised is what it normalises to. -/
theorem IsPatchId.asciiLower_eq {id : String} (h : IsPatchId id) : asciiLower id = id :=
  (normalizePatchId_ok h).1.symm

/-! ### The lists of ids -/

/-- Distinct ids in a form of their own, no more of them than the limit. -/
structure IdList (P : String → Prop) (limit : ℕ) (ids : List String) : Prop where
  nodup : ids.Nodup
  length_le : ids.length ≤ limit
  canonical : ∀ id ∈ ids, P id

theorem IdList.concat {P : String → Prop} {limit : ℕ} {ids : List String} (h : IdList P limit ids)
    {id : String} (hnew : id ∉ ids) (hroom : ids.length ≠ limit) (hid : P id) :
    IdList P limit (ids ++ [id]) := by
  refine ⟨List.concat_eq_append ▸ h.nodup.concat hnew, ?_, fun j hj => ?_⟩
  · have := h.length_le
    rw [List.length_append, List.length_singleton]
    omega
  · rcases List.mem_append.mp hj with hj | hj
    · exact h.canonical j hj
    · exact List.mem_singleton.mp hj ▸ hid

/-- The ids are normalised, and the message ids are what they are looked up by. -/
def PrerequisiteMetadata.Canonical : PrerequisiteMetadata → Prop
  | .patchIds ids hints =>
    ids ≠ [] ∧ IdList IsPatchId maxPrerequisitePatchIds ids ∧ hints.length ≤ maxLoreOperations
  | .messageIds ids => ids ≠ [] ∧ IdList (fun m => cleanMessageId m = m) maxPrerequisiteSeries ids
  | .basedOn id => cleanMessageId id = id

theorem idList_addPatchId {ids ids' : List String} {value : Chars}
    (h : IdList IsPatchId maxPrerequisitePatchIds ids) (hadd : addPatchId ids value = .ok ids') :
    IdList IsPatchId maxPrerequisitePatchIds ids' := by
  unfold addPatchId at hadd
  dsimp only at hadd
  split_ifs at hadd with htext hseen hroom
  · exact Except.ok.inj hadd ▸ h
  · exact Except.ok.inj hadd ▸ h
  · refine Except.ok.inj hadd ▸ h.concat hseen hroom (normalizePatchId_asciiLower ?_)
    rw [String.toList_ofList]
    simpa using htext

theorem idList_addSeriesId {ids ids' : List String} {value : Chars}
    (h : IdList (fun m => cleanMessageId m = m) maxPrerequisiteSeries ids)
    (hadd : addSeriesId ids value = .ok ids') :
    IdList (fun m => cleanMessageId m = m) maxPrerequisiteSeries ids' := by
  obtain ⟨m, hparse, hadd⟩ := bind_ok hadd
  split_ifs at hadd with hseen hroom
  · exact Except.ok.inj hadd ▸ h
  · exact Except.ok.inj hadd ▸ h.concat hseen hroom (cleanMessageId_of_parse hparse)

theorem cleanMessageId_of_addBasedOn {basedOn basedOn' : Option String} {value : Chars}
    (h : ∀ m ∈ basedOn, cleanMessageId m = m) (hadd : addBasedOn basedOn value = .ok basedOn') :
    ∀ m ∈ basedOn', cleanMessageId m = m := by
  obtain ⟨m, hparse, hadd⟩ := bind_ok hadd
  split at hadd
  · split_ifs at hadd
    exact Except.ok.inj hadd ▸ h
  · intro m' hm'
    rw [← Except.ok.inj hadd] at hm'
    exact Option.some_inj.mp hm' ▸ cleanMessageId_of_parse hparse

theorem canonical_of_parse {body : String} {metadata : PrerequisiteMetadata}
    (h : parsePrerequisiteMetadata body = .ok (some metadata)) : metadata.Canonical := by
  obtain ⟨patchIds, hpatches, h⟩ := bind_ok h
  have hempty : ∀ {P : String → Prop} {limit : ℕ}, IdList P limit [] :=
    ⟨List.nodup_nil, Nat.zero_le _, fun id hid => absurd hid List.not_mem_nil⟩
  split_ifs at h with hne
  · obtain rfl := Option.some_inj.mp (Except.ok.inj h)
    refine ⟨hne, foldlM_invariant (fun _ _ _ => idList_addPatchId) hempty hpatches, ?_⟩
    exact List.length_take_le _ _
  · obtain ⟨messageIds, hseries, h⟩ := bind_ok h
    split_ifs at h with hne'
    · obtain rfl := Option.some_inj.mp (Except.ok.inj h)
      exact ⟨hne', foldlM_invariant (fun _ _ _ => idList_addSeriesId) hempty hseries⟩
    · obtain ⟨basedOn, hparse, h⟩ := map_ok h
      obtain ⟨m, hm, rfl⟩ := Option.map_eq_some_iff.mp h
      refine foldlM_invariant (I := fun o => ∀ m ∈ o, cleanMessageId m = m)
        (fun _ _ _ => cleanMessageId_of_addBasedOn) (fun m hm => ?_) hparse m hm
      cases hm

end Sashiko
