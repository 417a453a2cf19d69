import Mathlib.Algebra.GroupWithZero.Nat
import Sashiko.Json
import Sashiko.Prior.Context

/-! The prior-version context with everything of it that is serialised, and how many bytes that
takes. -/

namespace Sashiko

/-! ### Sizes of JSON texts -/

namespace Json

/-- `serde_json::to_vec(…).len()` -/
def byteLen (j : Json) : ℕ := j.render.utf8ByteSize

/-- An entry of an object, with the comma or the bracket after it. -/
def entryLen (f : String × Json) : ℕ := (quote f.1).utf8ByteSize + 1 + f.2.byteLen + 1

/-- Parts joined by commas, and one comma more. -/
theorem size_intercalate {parts : List String} (h : parts ≠ []) :
    (String.intercalate "," parts).utf8ByteSize + 1 =
      (parts.map fun s => s.utf8ByteSize + 1).sum := by
  have hcomma : (",").utf8ByteSize = 1 := by decide
  induction parts with
  | nil => exact absurd rfl h
  | cons s parts ih =>
    by_cases hparts : parts = []
    · simp [hparts]
    · rw [String.intercalate_cons_of_ne_nil hparts, String.utf8ByteSize_append,
        String.utf8ByteSize_append, hcomma, List.map_cons, List.sum_cons, ← ih hparts]
      omega

theorem renderItems_eq (items : List Json) : renderItems items = items.map render := by
  induction items with
  | nil => rfl
  | cons j items ih => rw [renderItems, ih, List.map_cons]

theorem renderFields_eq (fields : List (String × Json)) :
    renderFields fields = fields.map fun f => quote f.1 ++ ":" ++ f.2.render := by
  induction fields with
  | nil => rfl
  | cons f fields ih => rw [renderFields, ih, List.map_cons]

theorem byteLen_obj {fields : List (String × Json)} (h : fields ≠ []) :
    (Json.obj fields).byteLen = 1 + (fields.map entryLen).sum := by
  have hparts := @size_intercalate (renderFields fields) (by rw [renderFields_eq]; simpa)
  have hopen : ("\x7b").utf8ByteSize = 1 := by decide
  have hclose : ("\x7d").utf8ByteSize = 1 := by decide
  have hcolon : (":").utf8ByteSize = 1 := by decide
  rw [renderFields_eq, List.map_map] at hparts
  rw [byteLen, render, String.utf8ByteSize_append, String.utf8ByteSize_append, hopen, hclose,
    renderFields_eq]
  have hsum : ((fun s => String.utf8ByteSize s + 1) ∘
      fun f : String × Json => quote f.1 ++ ":" ++ f.2.render) = entryLen := by
    funext f
    simp only [Function.comp_apply, String.utf8ByteSize_append, hcolon, entryLen, byteLen]
  rw [hsum] at hparts
  omega

theorem byteLen_arr {items : List Json} (h : items ≠ []) :
    (Json.arr items).byteLen = 1 + (items.map fun j => j.byteLen + 1).sum := by
  have hparts := @size_intercalate (renderItems items) (by rw [renderItems_eq]; simpa)
  have hopen : ("[").utf8ByteSize = 1 := by decide
  have hclose : ("]").utf8ByteSize = 1 := by decide
  rw [renderItems_eq, List.map_map] at hparts
  rw [byteLen, render, String.utf8ByteSize_append, String.utf8ByteSize_append, hopen, hclose,
    renderItems_eq]
  have hsum : ((fun s => String.utf8ByteSize s + 1) ∘ render) = fun j => j.byteLen + 1 := rfl
  rw [hsum] at hparts
  omega

/-- A field that is left out while it is empty. -/
def listField (name : String) (items : List Json) : List (String × Json) :=
  if items.isEmpty then [] else [(name, .arr items)]

/-- A field that is left out while it is none. -/
def optionField (name : String) (value : Option Json) : List (String × Json) :=
  (value.map fun j => (name, j)).toList

end Json

/-! ### Names of values -/

def TrustTier.snakeCase : TrustTier → String
  | .low => "low"
  | .moderate => "moderate"
  | .high => "high"

def SpeakerRole.snakeCase : SpeakerRole → String
  | .reviewer => "reviewer"
  | .patchAuthor => "patch_author"
  | .automatedBot => "automated_bot"

def OriginKind.snakeCase : OriginKind → String
  | .humanReviewer => "human_reviewer"
  | .sashikoReview => "sashiko_review"
  | .automatedBot => "automated_bot"

def FoundBy.snakeCase : FoundBy → String
  | .fresh => "fresh"
  | .priorFeedback => "prior_feedback"
  | .both => "both"

/-! ### The context as it is serialised -/

namespace Serialized

inductive MaintainerRole where
  | subsystemMaintainer
  | designatedReviewer
  | otherSubsystemMaintainer
  | none
  deriving DecidableEq, Repr

inductive PriorItemScope where
  | directPatchLineage
  | fileSymbolOverlap
  | seriesCoverFallback
  deriving DecidableEq, Repr

def MaintainerRole.snakeCase : MaintainerRole → String
  | subsystemMaintainer => "subsystem_maintainer"
  | designatedReviewer => "designated_reviewer"
  | otherSubsystemMaintainer => "other_subsystem_maintainer"
  | none => "none"

def PriorItemScope.snakeCase : PriorItemScope → String
  | directPatchLineage => "direct_patch_lineage"
  | fileSymbolOverlap => "file_symbol_overlap"
  | seriesCoverFallback => "series_cover_fallback"

structure ContributorAuthority where
  canonicalEmail : String
  tier : TrustTier
  speakerRole : SpeakerRole
  maintainerRole : MaintainerRole
  unverifiableClaimTrust : TrustTier
  matchedSubsystems : List String
  deriving DecidableEq, Repr

structure PriorFindingItem where
  id : String
  reviewedInVersion : ℕ
  scope : PriorItemScope
  severity : String
  severityExplanation : Option String
  problem : String
  locations : Option Json
  attribution : PriorAttribution
  sourceMessageId : Option String
  deriving DecidableEq, Repr

structure PriorCommentMessage where
  messageId : String
  author : String
  timestamp : ℤ
  filePath : Option String
  line : Option ℤ
  referenceUrl : Option String
  authority : ContributorAuthority
  trimmedBody : String
  deriving DecidableEq, Repr

structure PriorDiscussionThread where
  id : String
  version : ℕ
  scope : PriorItemScope
  subject : Option String
  highestTrust : TrustTier
  hasHighTrustSpeaker : Bool
  messages : List PriorCommentMessage
  deriving DecidableEq, Repr

structure PriorChangelogBlock where
  version : ℕ
  source : String
  text : String
  deriving DecidableEq, Repr

structure PriorVersionContext where
  currentVersion : ℕ
  ancestorVersions : List ℕ
  /-- In the order of the versions. -/
  versionLabels : List (ℕ × String)
  interVersionDiffBaseVersion : Option ℕ
  interVersionDiff : Option String
  changelogs : List PriorChangelogBlock
  priorFindings : List PriorFindingItem
  discussionThreads : List PriorDiscussionThread
  truncated : Bool
  deriving DecidableEq, Repr

open Json (listField optionField)

def evidenceJson (e : AttributionEvidence) : Json :=
  .obj ([("source_ref", .str e.sourceRef), ("version", .int e.version)] ++
    optionField "message_id" (e.messageId.map .str) ++ [("quote", .str e.quote)])

def attributionJson (a : PriorAttribution) : Json :=
  .obj ([("originally_raised_by", .str a.originallyRaisedBy),
      ("originally_raised_in_version", .int a.originallyRaisedInVersion)] ++
    optionField "originally_raised_in_label" (a.originallyRaisedInLabel.map .str) ++
    [("origin_kind", .str a.originKind.snakeCase)] ++
    optionField "reference_url" (a.referenceUrl.map .str) ++
    [("raised_by_identities", .arr (a.raisedByIdentities.map .str)),
      ("evidence", .arr (a.evidence.map evidenceJson))] ++
    optionField "found_by" (a.foundBy.map fun f => .str f.snakeCase) ++
    optionField "attribution_line" (a.attributionLine.map .str))

def PriorFindingItem.toJson (f : PriorFindingItem) : Json :=
  .obj ([("id", .str f.id), ("reviewed_in_version", .int f.reviewedInVersion),
      ("scope", .str f.scope.snakeCase), ("severity", .str f.severity)] ++
    optionField "severity_explanation" (f.severityExplanation.map .str) ++
    [("problem", .str f.problem)] ++ optionField "locations" f.locations ++
    [("attribution", attributionJson f.attribution)] ++
    optionField "source_message_id" (f.sourceMessageId.map .str))

def ContributorAuthority.toJson (a : ContributorAuthority) : Json :=
  .obj [("canonical_email", .str a.canonicalEmail), ("tier", .str a.tier.snakeCase),
    ("speaker_role", .str a.speakerRole.snakeCase),
    ("maintainer_role", .str a.maintainerRole.snakeCase),
    ("unverifiable_claim_trust", .str a.unverifiableClaimTrust.snakeCase),
    ("matched_subsystems", .arr (a.matchedSubsystems.map .str))]

def PriorCommentMessage.toJson (m : PriorCommentMessage) : Json :=
  .obj ([("message_id", .str m.messageId), ("author", .str m.author),
      ("timestamp", .int m.timestamp)] ++ optionField "file_path" (m.filePath.map .str) ++
    optionField "line" (m.line.map .int) ++ optionField "reference_url" (m.referenceUrl.map .str) ++
    [("authority", m.authority.toJson), ("trimmed_body", .str m.trimmedBody)])

/-- The fields of a thread after its id. -/
def PriorDiscussionThread.restFields (t : PriorDiscussionThread) : List (String × Json) :=
  [("version", .int t.version), ("scope", .str t.scope.snakeCase)] ++
    optionField "subject" (t.subject.map .str) ++
    [("highest_trust", .str t.highestTrust.snakeCase),
      ("has_high_trust_speaker", .bool t.hasHighTrustSpeaker),
      ("messages", .arr (t.messages.map PriorCommentMessage.toJson))]

def PriorDiscussionThread.toJson (t : PriorDiscussionThread) : Json :=
  .obj (("id", .str t.id) :: t.restFields)

def PriorChangelogBlock.toJson (b : PriorChangelogBlock) : Json :=
  .obj [("version", .int b.version), ("source", .str b.source), ("text", .str b.text)]

namespace PriorVersionContext

variable (ctx : PriorVersionContext)

def fields : List (String × Json) :=
  [("current_version", .int ctx.currentVersion)] ++
    listField "ancestor_versions" (ctx.ancestorVersions.map fun v => .int v) ++
    (if ctx.versionLabels.isEmpty then []
      else [("version_labels", .obj (ctx.versionLabels.map fun l => (toString l.1, .str l.2)))]) ++
    optionField "inter_version_diff_base_version"
      (ctx.interVersionDiffBaseVersion.map fun v => .int v) ++
    optionField "inter_version_diff" (ctx.interVersionDiff.map .str) ++
    listField "changelogs" (ctx.changelogs.map PriorChangelogBlock.toJson) ++
    listField "prior_findings" (ctx.priorFindings.map PriorFindingItem.toJson) ++
    listField "discussion_threads" (ctx.discussionThreads.map PriorDiscussionThread.toJson) ++
    [("truncated", .bool ctx.truncated)]

def toJson : Json := .obj ctx.fields

end PriorVersionContext

/-! ### Sizes of contexts -/

def serializedLen (ctx : PriorVersionContext) : ℕ := ctx.toJson.byteLen

/-- What the threads add to a context. -/
def threadsLen (threads : List PriorDiscussionThread) : ℕ :=
  (listField "discussion_threads" (threads.map PriorDiscussionThread.toJson) |>.map
    Json.entryLen).sum

section Sizes
variable (ctx : PriorVersionContext) (threads : List PriorDiscussionThread)

theorem serializedLen_eq : serializedLen ctx = 1 + (ctx.fields.map Json.entryLen).sum :=
  Json.byteLen_obj (List.append_ne_nil_of_right_ne_nil _ (List.cons_ne_nil _ _))

/-- Threads add their own size, whatever the context. -/
theorem serializedLen_threads :
    serializedLen { ctx with discussionThreads := threads } =
      serializedLen { ctx with discussionThreads := [] } + threadsLen threads := by
  simp only [serializedLen_eq, PriorVersionContext.fields, List.map_append, List.sum_append,
    threadsLen]
  simp only [listField, List.map_nil, List.isEmpty_nil, if_true, List.sum_nil]
  omega

/-- The flag is a byte shorter once it is set. -/
theorem serializedLen_truncated :
    serializedLen { ctx with truncated := true } + 1 =
      serializedLen { ctx with truncated := false } := by
  have htrue : Json.entryLen ("truncated", .bool true) = 17 := by decide
  have hfalse : Json.entryLen ("truncated", .bool false) = 18 := by decide
  simp only [serializedLen_eq, PriorVersionContext.fields, List.map_append, List.sum_append,
    List.map_cons, List.map_nil, List.sum_cons, List.sum_nil, htrue, hfalse]
  omega

theorem threadsLen_nil : threadsLen [] = 0 := rfl

theorem threadsLen_of_ne_nil {threads : List PriorDiscussionThread} (h : threads ≠ []) :
    threadsLen threads = 23 + (threads.map fun t => t.toJson.byteLen + 1).sum := by
  have hname : (Json.quote "discussion_threads").utf8ByteSize = 20 := by decide
  have hne : threads.map PriorDiscussionThread.toJson ≠ [] := by simpa using h
  rw [threadsLen, listField, if_neg (by simpa using h), List.map_singleton, List.sum_singleton,
    Json.entryLen, hname, Json.byteLen_arr hne, List.map_map]
  have hsum : ((fun j : Json => j.byteLen + 1) ∘ PriorDiscussionThread.toJson) =
      fun t => t.toJson.byteLen + 1 := rfl
  rw [hsum]
  omega

end Sizes

end Serialized

end Sashiko
