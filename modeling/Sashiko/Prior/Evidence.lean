import Mathlib.Data.List.Sort
import Mathlib.Data.Prod.Lex
import Sashiko.Prior.Context

/-! The prior sources a quote may cite, the check of a proposed quote, and the attribution computed
from the quotes that pass it. -/

namespace Sashiko

def minQuoteChars : ℕ := 24

def sashikoIdentity : String := "sashiko"

/-- `str::to_lowercase`: on ASCII the code relies only on what this says. -/
structure StrLowercase where
  apply : String → String
  ascii : ∀ s, (∀ c ∈ s.toList, c.toNat < 128) → apply s = asciiLower s

/-! ### Citable sources -/

/-- Who a citable prior source belongs to. -/
inductive SourceSpeaker where
  | person (role : SpeakerRole) (display identity : String)
  | sashiko
  deriving DecidableEq, Repr

namespace SourceSpeaker

def originKind : SourceSpeaker → OriginKind
  | person .automatedBot _ _ => .automatedBot
  | person _ _ _ => .humanReviewer
  | sashiko => .sashikoReview

def display : SourceSpeaker → String
  | person _ display _ => display
  | sashiko => "Sashiko"

def identity : SourceSpeaker → String
  | person _ _ identity => identity
  | sashiko => sashikoIdentity

def isPatchAuthor : SourceSpeaker → Bool
  | person .patchAuthor _ _ => true
  | _ => false

def isSashiko : SourceSpeaker → Bool
  | sashiko => true
  | person _ _ _ => false

end SourceSpeaker

structure CitableSource where
  version : ℕ
  timestamp : ℤ
  speaker : SourceSpeaker
  claimTrust : Option TrustTier
  messageId : Option String
  referenceUrl : Option String
  ownTextNorm : String
  deriving DecidableEq, Repr

/-- The version, then people before Sashiko, then the time. -/
def CitableSource.chronologyKey (s : CitableSource) : ℕ ×ₗ Bool ×ₗ ℤ :=
  toLex (s.version, toLex (s.speaker.isSashiko, s.timestamp))

inductive EvidenceRejection where
  | unknownRef
  | patchAuthor
  | quoteTooShort (chars : ℕ)
  | quoteNotInOwnText
  deriving DecidableEq, Repr

def EvidenceRejection.describe (sourceRef : String) : EvidenceRejection → String
  | unknownRef => "source_ref '" ++ sourceRef ++ "' does not exist. Cite an exact 'HM<k>.<m>' " ++
      "message ref or 'PF<k>' finding ref from the context."
  | patchAuthor => "source_ref '" ++ sourceRef ++ "' is a message by the patch author " ++
      "(speaker_role patch_author). The author never gets credit for raising an issue against " ++
      "their own patch; cite a reviewer, bot, or prior Sashiko message instead, or omit the " ++
      "evidence."
  | quoteTooShort chars => "the quote for '" ++ sourceRef ++ "' has " ++ toString chars ++
      " characters after whitespace normalization; it must have at least " ++
      toString minQuoteChars ++ ". Copy a longer contiguous passage verbatim from that " ++
      "message's own_text."
  | quoteNotInOwnText => "the quote for '" ++ sourceRef ++ "' is not a verbatim substring of " ++
      "that message's own_text (quoted '>' lines and 'On ... wrote:' lines are excluded). Copy " ++
      "one contiguous passage exactly as written, without ellipses or paraphrasing."

def messageSpeaker (msg : PriorCommentMessage) : SourceSpeaker :=
  if isSashikoReviewMessage msg.messageId msg.author then .sashiko
  else .person msg.authority.speakerRole (sanitizeSpeakerDisplay msg.author) (speakerIdentity msg)

def messageRef (thread : PriorDiscussionThread) (msgIdx : ℕ) : String :=
  thread.id ++ "." ++ toString (msgIdx + 1)

def i64Max : ℤ := 9223372036854775807

def findingOwnText (pf : PriorFindingItem) : String :=
  match pf.severityExplanation with
  | some expl => if rustTrim expl ≠ "" then pf.problem ++ "\n" ++ expl else pf.problem
  | none => pf.problem

section Lower

variable (lower : StrLowercase)

def normalizeForMatch (text : String) : String :=
  String.ofList (joinWords (splitWhitespace (lower.apply
    (replaceText (replaceText (replaceText text "&lt;" "<") "&gt;" ">") "&amp;" "&")).toList))

def isQuoteChar (c : Char) : Bool :=
  c = '"' || c = '\'' || c.toNat = 0x60 || c.toNat = 0x201c || c.toNat = 0x201d

def normalizeQuote (quote : String) : String :=
  normalizeForMatch lower (String.ofList (trimMatches isQuoteChar (trimChars quote.toList)))

def findingSource (pf : PriorFindingItem) : CitableSource where
  version := pf.reviewedInVersion
  timestamp := i64Max
  speaker := .sashiko
  claimTrust := none
  messageId := pf.sourceMessageId
  referenceUrl := pf.attribution.referenceUrl
  ownTextNorm := normalizeForMatch lower (findingOwnText pf)

def messageSource (thread : PriorDiscussionThread) (msg : PriorCommentMessage) : CitableSource where
  version := thread.version
  timestamp := msg.timestamp
  speaker := messageSpeaker msg
  claimTrust := some msg.authority.unverifiableClaimTrust
  messageId := (some (normalizeMsgid msg.messageId)).filter (· ≠ "")
  referenceUrl := msg.referenceUrl
  ownTextNorm := normalizeForMatch lower (messageOwnText msg.trimmedBody)

/-- The sources in the order they are inserted. -/
structure EvidenceIndex where
  sources : List (String × CitableSource)

namespace EvidenceIndex

def build (ctx : PriorVersionContext) : EvidenceIndex where
  sources := ctx.priorFindings.map (fun pf => (pf.id, findingSource lower pf)) ++
    ctx.discussionThreads.flatMap fun thread =>
      thread.messages.zipIdx.map fun m => (messageRef thread m.2, messageSource lower thread m.1)

/-- Of two entries under one key the later counts. -/
def get (index : EvidenceIndex) (key : String) : Option CitableSource :=
  (index.sources.reverse.find? (·.1 = key)).map (·.2)

def check (index : EvidenceIndex) (sourceRef quote : String) : Except EvidenceRejection Unit :=
  match index.get (rustTrim sourceRef) with
  | some source =>
    if source.speaker.isPatchAuthor then .error .patchAuthor
    else if (normalizeQuote lower quote).length < minQuoteChars then
      .error (.quoteTooShort (normalizeQuote lower quote).length)
    else if !containsText source.ownTextNorm (normalizeQuote lower quote) then
      .error .quoteNotInOwnText
    else .ok ()
  | none => .error .unknownRef

def accepts (index : EvidenceIndex) (sourceRef quote : String) : Bool :=
  match index.check lower sourceRef quote with
  | .ok _ => true
  | .error _ => false

end EvidenceIndex

/-! ### Proposed evidence -/

structure EvidenceSpec where
  sourceRef : String
  quote : String
  deriving DecidableEq, Repr

structure FindingAttributionSpec where
  findingId : String
  evidence : List EvidenceSpec
  deriving DecidableEq, Repr

structure PriorAttributionOutput where
  attributions : List FindingAttributionSpec
  deriving DecidableEq, Repr

/-- One batch, by the aliases of its findings. -/
structure AttributionBatch where
  aliases : List String
  deriving DecidableEq, Repr

/-- The checks of one entry's evidence from `evIdx` on, with the refs seen so far. -/
def validateEvidence (index : EvidenceIndex) (idx : ℕ) (fid : String) :
    ℕ → List String → List EvidenceSpec → Except String Unit
  | _, _, [] => .ok ()
  | evIdx, refs, ev :: rest =>
    if rustTrim ev.sourceRef ∈ refs then
      .error ("attributions[" ++ toString idx ++ "].evidence[" ++ toString evIdx ++
        "] repeats source_ref '" ++ rustTrim ev.sourceRef ++ "' for finding '" ++ fid ++
        "'. Cite each message at most once per finding.")
    else
      match index.check lower (rustTrim ev.sourceRef) ev.quote with
      | .error rejection =>
        .error ("attributions[" ++ toString idx ++ "].evidence[" ++ toString evIdx ++
          "] for finding '" ++ fid ++ "': " ++ rejection.describe (rustTrim ev.sourceRef))
      | .ok _ => validateEvidence index idx fid (evIdx + 1) (rustTrim ev.sourceRef :: refs) rest

/-- The checks of the entries from `idx` on, with the findings seen so far. -/
def validateEntries (index : EvidenceIndex) (expected : List String) :
    ℕ → List String → List FindingAttributionSpec → Except String (List String)
  | _, seen, [] => .ok seen
  | idx, seen, entry :: rest =>
    if rustTrim entry.findingId ∉ expected then
      .error ("attributions[" ++ toString idx ++ "].finding_id '" ++ rustTrim entry.findingId ++
        "' is not a finding of this batch. Valid finding IDs: " ++ ", ".intercalate expected ++ ".")
    else if rustTrim entry.findingId ∈ seen then
      .error ("attributions[" ++ toString idx ++ "] repeats finding_id '" ++
        rustTrim entry.findingId ++ "'. Emit exactly one entry per finding and put all of its " ++
        "evidence in that entry.")
    else
      match validateEvidence lower index idx (rustTrim entry.findingId) 0 [] entry.evidence with
      | .error e => .error e
      | .ok _ => validateEntries index expected (idx + 1) (rustTrim entry.findingId :: seen) rest

def validatePriorAttributionOutput (out : PriorAttributionOutput) (batch : AttributionBatch)
    (index : EvidenceIndex) : Except String Unit :=
  match validateEntries lower index batch.aliases 0 [] out.attributions with
  | .error e => .error e
  | .ok seen =>
    if batch.aliases.filter (· ∉ seen) ≠ [] then
      .error ("attributions is missing finding ID(s): " ++
        ", ".intercalate (batch.aliases.filter (· ∉ seen)) ++ ". Emit one entry per finding; use " ++
        "an empty 'evidence' array when no prior message raised the same issue.")
    else .ok ()

/-! ### The attribution -/

/-- The pairs whose ref was not cited before. -/
def firstCitations : List String → List EvidenceSpec → List EvidenceSpec
  | _, [] => []
  | seen, ev :: rest =>
    if rustTrim ev.sourceRef ∈ seen then firstCitations seen rest
    else ev :: firstCitations (rustTrim ev.sourceRef :: seen) rest

def evidenceRecord (source : CitableSource) (ev : EvidenceSpec) : AttributionEvidence where
  sourceRef := rustTrim ev.sourceRef
  version := source.version
  messageId := source.messageId
  quote := rustTrim ev.quote

def validEvidence (evidence : List EvidenceSpec) (index : EvidenceIndex) :
    List (CitableSource × AttributionEvidence) :=
  ((firstCitations [] evidence).filter fun ev => index.accepts lower ev.sourceRef ev.quote).filterMap
    fun ev => (index.get (rustTrim ev.sourceRef)).map fun s => (s, evidenceRecord s ev)

/-- A stable sort. -/
def chronological (valid : List (CitableSource × AttributionEvidence)) :
    List (CitableSource × AttributionEvidence) :=
  valid.insertionSort fun a b => a.1.chronologyKey ≤ b.1.chronologyKey

/-- The first source that is not Sashiko's, else the first. -/
def anchorOf (valid : List (CitableSource × AttributionEvidence)) :
    Option (CitableSource × AttributionEvidence) :=
  (valid.find? fun p => !p.1.speaker.isSashiko).or valid.head?

def creditName (raw : String) : String :=
  if cleanName (raw.toList.takeWhile (· ≠ '<')) ≠ [] then
    String.ofList (cleanName (raw.toList.takeWhile (· ≠ '<')))
  else String.ofList
    (trimChars (trimMatches (fun c => c = '<' || c = '>') (trimChars raw.toList)))

def creditedSource (evidence : List EvidenceSpec) (index : EvidenceIndex) :
    Option (CitableSource × AttributionEvidence) :=
  anchorOf (chronological (validEvidence lower evidence index))

def computePriorAttribution (evidence : List EvidenceSpec) (index : EvidenceIndex) :
    Option PriorAttribution :=
  (creditedSource lower evidence index).map fun anchor =>
    { originallyRaisedBy := creditName anchor.1.speaker.display
      originallyRaisedInVersion := anchor.1.version
      originallyRaisedInLabel := none
      originKind := anchor.1.speaker.originKind
      referenceUrl := anchor.1.referenceUrl
      raisedByIdentities := [anchor.1.speaker.identity]
      evidence := (chronological (validEvidence lower evidence index)).map (·.2)
      foundBy := none
      attributionLine := none }

end Lower

end Sashiko
