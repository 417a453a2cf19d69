import Sashiko.Text

/-! What earlier versions of a patch brought up: prior Sashiko findings and discussion threads, and
who speaks in them. -/

namespace Sashiko

/-! ### The context -/

inductive TrustTier where
  | low
  | moderate
  | high
  deriving DecidableEq, Repr

inductive SpeakerRole where
  | reviewer
  | patchAuthor
  | automatedBot
  deriving DecidableEq, Repr

inductive OriginKind where
  | humanReviewer
  | sashikoReview
  | automatedBot
  deriving DecidableEq, Repr

inductive FoundBy where
  | fresh
  | priorFeedback
  | both
  deriving DecidableEq, Repr

structure AttributionEvidence where
  sourceRef : String
  version : ℕ
  messageId : Option String
  quote : String
  deriving DecidableEq, Repr

structure PriorAttribution where
  originallyRaisedBy : String
  originallyRaisedInVersion : ℕ
  originallyRaisedInLabel : Option String
  originKind : OriginKind
  referenceUrl : Option String
  raisedByIdentities : List String
  evidence : List AttributionEvidence
  foundBy : Option FoundBy
  attributionLine : Option String
  deriving DecidableEq, Repr

/-- Whether someone other than Sashiko is credited. -/
def PriorAttribution.isCredit (a : PriorAttribution) : Bool := a.originKind ≠ .sashikoReview

structure PriorFindingItem where
  id : String
  reviewedInVersion : ℕ
  severityExplanation : Option String
  problem : String
  attribution : PriorAttribution
  sourceMessageId : Option String
  deriving DecidableEq, Repr

structure ContributorAuthority where
  canonicalEmail : String
  speakerRole : SpeakerRole
  unverifiableClaimTrust : TrustTier
  deriving DecidableEq, Repr

structure PriorCommentMessage where
  messageId : String
  author : String
  timestamp : ℤ
  referenceUrl : Option String
  authority : ContributorAuthority
  trimmedBody : String
  deriving DecidableEq, Repr

structure PriorDiscussionThread where
  id : String
  version : ℕ
  messages : List PriorCommentMessage
  deriving DecidableEq, Repr

structure PriorVersionContext where
  priorFindings : List PriorFindingItem
  discussionThreads : List PriorDiscussionThread
  deriving DecidableEq, Repr

/-! ### Own words -/

def isQuotedLine (line : String) : Bool :=
  ['>'].isPrefixOf (line.toList.dropWhile isRustWhitespace)

def isQuoteTrimMarker (trimmed : String) : Bool :=
  startsWithText trimmed "...[trimmed " || trimmed = "...[comment truncated]..."

def isReplyAttributionLine (trimmed : String) : Bool :=
  endsWithText (asciiLower trimmed) "wrote:" || endsWithText (asciiLower trimmed) "writes:"

/-- One line of a reply body: quoted lines and trim markers are skipped, and an attribution line
takes the `On …` line before it along. -/
def keepOwnLine (kept : List String) (line : String) : List String :=
  if isQuotedLine (rustTrim line) || isQuoteTrimMarker (rustTrim line) then kept
  else if isReplyAttributionLine (rustTrim line) then
    if kept.getLast?.any fun prev => startsWithText (asciiLower (rustTrim prev)) "on " then
      kept.dropLast
    else kept
  else kept ++ [line]

def ownLines (body : String) : List String :=
  ((linesOf body.toList).map String.ofList).foldl keepOwnLine []

def messageOwnText (body : String) : String := rustTrim ("\n".intercalate (ownLines body))

/-- A line that the speaker wrote: no quote, no trim marker, no attribution line. -/
def IsOwnLine (line : String) : Prop :=
  isQuotedLine (rustTrim line) = false ∧ isQuoteTrimMarker (rustTrim line) = false ∧
    isReplyAttributionLine (rustTrim line) = false

theorem mem_keepOwnLine {kept : List String} {line x : String} (h : x ∈ keepOwnLine kept line) :
    x ∈ kept ∨ x = line ∧ IsOwnLine line := by
  unfold keepOwnLine at h
  split_ifs at h with hskip hattribution hwrapped
  · exact .inl h
  · exact .inl ((List.dropLast_sublist kept).mem h)
  · exact .inl h
  · rw [Bool.or_eq_true, not_or, Bool.not_eq_true, Bool.not_eq_true] at hskip
    rcases List.mem_append.mp h with h | h
    · exact .inl h
    · exact .inr ⟨List.mem_singleton.mp h, hskip.1, hskip.2, eq_false_of_ne_true hattribution⟩

theorem isOwnLine_of_mem_ownLines {body line : String} (h : line ∈ ownLines body) :
    line ∈ (linesOf body.toList).map String.ofList ∧ IsOwnLine line := by
  have hfold : ∀ (lines kept : List String), line ∈ lines.foldl keepOwnLine kept →
      line ∈ kept ∨ line ∈ lines ∧ IsOwnLine line := by
    intro lines
    induction lines with
    | nil => exact fun kept h => .inl h
    | cons first lines ih =>
      intro kept h
      rw [List.foldl_cons] at h
      rcases ih (keepOwnLine kept first) h with hkept | ⟨hrest, hown⟩
      · rcases mem_keepOwnLine hkept with hkept | ⟨heq, hown⟩
        · exact .inl hkept
        · exact .inr ⟨heq ▸ List.mem_cons_self, heq ▸ hown⟩
      · exact .inr ⟨List.mem_cons_of_mem _ hrest, hown⟩
  rw [ownLines] at h
  exact (hfold _ [] h).resolve_left List.not_mem_nil

/-! ### Speakers -/

def isQuoteMark (c : Char) : Bool := c = '"' || c = '\''

/-- `char::is_control` -/
def isRustControl (c : Char) : Bool := c.toNat < 32 || (127 ≤ c.toNat && c.toNat < 160)

def joinWords (words : List (List Char)) : List Char := [' '].intercalate words

def maxSpeakerChars : ℕ := 120

def singleLine (raw : String) : List Char :=
  joinWords (splitWhitespace ((replaceText (replaceText raw "&lt;" "<") "&gt;" ">").toList.map
    fun c => if isRustControl c then ' ' else c))

def cleanName (name : List Char) : List Char := trimChars (trimMatches isQuoteMark (trimChars name))

def formatSpeaker (line : List Char) : List Char :=
  match (splitOnce '<' line).bind fun p => (splitOnce '>' p.2).map fun q => (p.1, q.1) with
  | some (name, email) =>
    if cleanName name = [] then trimChars email
    else if trimChars email = [] then cleanName name
    else cleanName name ++ [' ', '<'] ++ trimChars email ++ ['>']
  | none => cleanName line

def sanitizeSpeakerDisplay (raw : String) : String :=
  String.ofList ((formatSpeaker (singleLine raw)).take maxSpeakerChars)

/-- The address in the last angle brackets of a header. -/
def headerAddress (author : String) : Option String :=
  ((rsplitOnce '<' author.toList).bind fun p => splitOnce '>' p.2).map
    fun q => asciiLower (rustTrim (String.ofList q.1))

def speakerIdentity (msg : PriorCommentMessage) : String :=
  if asciiLower (rustTrim msg.authority.canonicalEmail) ≠ "" then
    asciiLower (rustTrim msg.authority.canonicalEmail)
  else ((headerAddress msg.author).filter (· ≠ "")).getD
    (asciiLower (sanitizeSpeakerDisplay msg.author))

/-! ### Sashiko's own messages -/

def extractEmail (author : String) : String :=
  match splitOnce '<' author.toList with
  | some (before, rest) =>
    match splitOnce '>' rest with
    | some (inner, _) =>
      if '>' ∈ before then rustTrim author else rustTrim (String.ofList inner)
    | none => rustTrim author
  | none => rustTrim author

def trimQuotes (s : String) : String := String.ofList (trimMatches (· = '"') s.toList)

/-- The address part of `split_author_name_and_email`. -/
def authorEmail (rawAuthor : String) : String :=
  match (splitOnce '<' (rustTrim rawAuthor).toList).bind fun p => rsplitOnce '>' p.2 with
  | some (c :: inner, _) => asciiLower (trimQuotes (rustTrim (String.ofList (c :: inner))))
  | _ => asciiLower (trimQuotes (rustTrim (extractEmail (rustTrim rawAuthor))))

def isSashikoEmail (email : String) : Bool :=
  email = "sashiko-bot" || email = "sashiko-bot[bot]" || startsWithText email "sashiko-bot@" ||
    startsWithText email "sashiko@" ||
    (startsWithText email "sashiko" && containsText email "bot") ||
    containsText email "+sashiko@" || containsText email "-sashiko@"

def isSashikoHandle (lowerRaw : String) : Bool :=
  startsWithText lowerRaw "sashiko-bot--- via " ||
    (!containsText lowerRaw "@" && (lowerRaw = "sashiko-bot" || lowerRaw = "sashiko-bot[bot]"))

def isSashikoIdentity (rawAuthor canonicalEmail : String) : Bool :=
  isSashikoEmail (asciiLower (rustTrim canonicalEmail)) ||
    isSashikoHandle (asciiLower (String.ofList (cleanName rawAuthor.toList)))

def isSashikoAuthor (rawAuthor : String) : Bool :=
  isSashikoIdentity rawAuthor (authorEmail rawAuthor)

def stripSashikoLocal (clean : List Char) : List Char :=
  if "@sashiko.local".toList.isSuffixOf clean ∧ clean ≠ "@sashiko.local".toList then
    clean.take (clean.length - "@sashiko.local".length)
  else clean

def normalizeMsgid (raw : String) : String :=
  String.ofList (stripSashikoLocal
    (trimChars (trimMatches (fun c => c = '<' || c = '>') (trimChars raw.toList))))

def isSashikoOutboxMsgid (raw : String) : Bool :=
  startsWithText (normalizeMsgid raw) "sashiko-outbox-"

def isSashikoReviewMessage (rawMsgId rawAuthor : String) : Bool :=
  isSashikoOutboxMsgid rawMsgId || isSashikoAuthor rawAuthor

end Sashiko
