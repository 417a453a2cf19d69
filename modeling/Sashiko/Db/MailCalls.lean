import Sashiko.Db.MailStore

/-! Queueing review emails, and reserving the pre-existing bugs they report. -/

namespace Sashiko

def reservationTtlSecs : ℤ := 14 * 24 * 3600

namespace PreexistingDisclosureRow

/-- The condition `LIVE_ROW` at the clock value `now`. -/
def live (now : ℤ) (d : PreexistingDisclosureRow) : Bool :=
  d.disclosedAt.isSome || now - reservationTtlSecs < d.reservedAt

end PreexistingDisclosureRow

/-! ### Files -/

/-- Insertion into a `BTreeSet`. -/
def insertText (s : String) : List String → List String
  | [] => [s]
  | t :: ts => if s = t then t :: ts else if textLt s t then s :: t :: ts else t :: insertText s ts

def uniqueTexts (texts : List String) : List String := texts.foldr insertText []

theorem mem_insertText {s x : String} {ts : List String} :
    x ∈ insertText s ts ↔ x = s ∨ x ∈ ts := by
  induction ts with
  | nil => simp [insertText]
  | cons t ts ih =>
    unfold insertText
    split_ifs with heq hlt
    · subst heq
      simp
    · simp
    · rw [List.mem_cons, ih, List.mem_cons]
      exact or_left_comm

theorem mem_uniqueTexts {x : String} {texts : List String} : x ∈ uniqueTexts texts ↔ x ∈ texts := by
  induction texts with
  | nil => rfl
  | cons t texts ih =>
    rw [List.mem_cons, ← ih]
    exact mem_insertText

/-! ### Disclosures -/

/-- A related pre-existing bug that a review wants to report. -/
structure NewPreexistingDisclosure where
  fingerprint : String
  problem : String
  severity : Severity
  relation : DisclosureRelation
  locationsJson : String
  bugKeyJson : String
  reportText : String
  bugId : Option ℤ
  bugid : Option String
  files : List String
  deriving DecidableEq, Repr

/-- A recorded disclosure, with the name of the bug it is linked to. -/
structure PreexistingDisclosure extends PreexistingDisclosureRow where
  bugid : Option String
  deriving DecidableEq, Repr

namespace MailStore

def disclosureFromRow (s : MailStore) (row : PreexistingDisclosureRow) : PreexistingDisclosure :=
  { row with bugid := (row.bugId.bind s.bugs.lookup).map (·.bugid) }

/-- In the order of insertion, which is that of the ids. -/
def disclosuresInFilesOn (s : MailStore) (files : List String) (now : ℤ) :
    List PreexistingDisclosure :=
  (s.preexistingDisclosures.rows.filter fun d =>
    d.files.any (uniqueTexts files).contains && d.live now).map s.disclosureFromRow

/-- The loop of `resolve_canonical_open_bug_on`, with the rounds left. -/
def followDuplicates (s : BugStore) : ℕ → List ℤ → ℤ → Option (ℤ × String)
  | 0, _, _ => none
  | rounds + 1, seen, bugId =>
    if bugId ∈ seen then none
    else
      match s.bugs.lookup bugId with
      | none => none
      | some bug =>
        match bug.triage.duplicateOfId with
        | some nextId => followDuplicates s rounds (bugId :: seen) nextId
        | none =>
          if bug.triage.lifecycleStatus = .«open» then some (bugId, bug.bugid) else none

def resolveCanonicalOpenBugOn (s : BugStore) (bugId : ℤ) : Option (ℤ × String) :=
  followDuplicates s 8 [] bugId

def hasLiveDisclosureForBugOn (s : MailStore) (bugId now : ℤ) : Bool :=
  s.preexistingDisclosures.any fun d => d.bugId = some bugId && d.live now

def setDisclosures (s : MailStore)
    (p : PreexistingDisclosureRow → Bool) (f : PreexistingDisclosureRow → PreexistingDisclosureRow)
    (hf : ∀ d, (f d).id = d.id := by intro _; rfl) : MailStore :=
  { s with
    toBugStore := { s.toBugStore with
      preexistingDisclosures := s.preexistingDisclosures.update p f hf } }

def deleteDisclosures (s : MailStore) (p : PreexistingDisclosureRow → Bool) : MailStore :=
  { s with
    toBugStore := { s.toBugStore with
      preexistingDisclosures := s.preexistingDisclosures.delete p } }

/-- A reservation of this patch that was never mailed. -/
def unmailed (patchMessageId : String) (d : PreexistingDisclosureRow) : Bool :=
  d.patchMessageId = patchMessageId ∧ d.disclosedAt = none

/-- The candidate under the canonical bug it stands for, unless that bug is closed or has a live
disclosure. -/
def effectiveCandidate (s : MailStore) (now : ℤ) (candidate : NewPreexistingDisclosure) :
    Option NewPreexistingDisclosure :=
  match candidate.bugId with
  | some rawBugId =>
    match resolveCanonicalOpenBugOn s.toBugStore rawBugId with
    | some (canonId, canonBugid) =>
      if s.hasLiveDisclosureForBugOn canonId now then none
      else some { candidate with bugId := some canonId, bugid := some canonBugid }
    | none => none
  | none => some candidate

def reservedRow (patchMessageId : String) (now : ℤ) (c : NewPreexistingDisclosure) (id : ℤ) :
    PreexistingDisclosureRow where
  id := id
  patchMessageId := patchMessageId
  fingerprint := c.fingerprint
  problem := c.problem
  severity := c.severity
  relation := c.relation
  locationsJson := c.locationsJson
  bugKeyJson := c.bugKeyJson
  reportText := c.reportText
  reservedAt := now
  disclosedAt := none
  bugId := c.bugId
  files := uniqueTexts c.files

def insertReservation (s : MailStore) (patchMessageId : String) (now : ℤ)
    (c : NewPreexistingDisclosure) : MailStore :=
  { s with
    toBugStore := { s.toBugStore with
      preexistingDisclosures :=
        s.preexistingDisclosures.insertNext 0 (reservedRow patchMessageId now c) } }

section Reserve

variable (isDuplicate : NewPreexistingDisclosure → PreexistingDisclosure → Bool)

/-- Nothing stands against the candidate: no live disclosure of the same bug in its files, and no
row of the patch under its fingerprint. -/
def reservable (s : MailStore) (patchMessageId : String) (now : ℤ)
    (c : NewPreexistingDisclosure) : Bool :=
  !(s.disclosuresInFilesOn c.files now).any (isDuplicate c) &&
    !s.preexistingDisclosures.any fun d =>
      d.patchMessageId = patchMessageId ∧ d.fingerprint = c.fingerprint

def reserveCandidate (patchMessageId : String) (now : ℤ)
    (acc : List PreexistingDisclosure × MailStore) (candidate : NewPreexistingDisclosure) :
    List PreexistingDisclosure × MailStore :=
  match acc.2.effectiveCandidate now candidate with
  | some c =>
    if acc.2.reservable isDuplicate patchMessageId now c then
      (acc.1 ++ [{ reservedRow patchMessageId now c (acc.2.preexistingDisclosures.nextKey 0) with
          bugid := c.bugid }],
        acc.2.insertReservation patchMessageId now c)
    else acc
  | none => acc

/-- `clock` is read before the transaction begins. -/
def reservePreexistingDisclosures (s : MailStore) (claim : Option PatchsetReviewClaim)
    (patchMessageId : String) (candidates : List NewPreexistingDisclosure) (clock : ℤ) :
    List PreexistingDisclosure × MailStore :=
  if s.isPatchsetClaimActiveForOutbox claim none then
    candidates.foldl (reserveCandidate isDuplicate patchMessageId clock)
      ([], s.deleteDisclosures (unmailed patchMessageId))
  else ([], s)

end Reserve

def releasePreexistingReservations (s : MailStore) (claim : Option PatchsetReviewClaim)
    (patchMessageId : String) : MailStore :=
  if s.isPatchsetClaimActiveForOutbox claim none then
    s.deleteDisclosures (unmailed patchMessageId)
  else s

/-- Stamps the reservations of the patch that are live at `clock`. -/
def stampDisclosures (s : MailStore) (patchMessageId : String) (clock : ℤ) : MailStore :=
  s.setDisclosures
    (fun d => unmailed patchMessageId d && clock - reservationTtlSecs < d.reservedAt)
    fun d => { d with disclosedAt := some clock }

/-- `clock` is read before the statement runs. -/
def markPreexistingDisclosed (s : MailStore) (patchMessageId : String) (clock : ℤ) : MailStore :=
  s.stampDisclosures patchMessageId clock

/-! ### Queueing -/

/-- What `insert_review_email_outbox` queues. -/
structure ReviewEmail where
  patchId : ℤ
  status : EmailStatus
  toAddresses : String
  ccAddresses : String
  subject : String
  inReplyTo : String
  referencesHdr : String
  body : String
  discloseFor : Option String
  deriving DecidableEq, Repr

def stampDisclosuresIn (s : MailStore) (status : EmailStatus) (discloseFor : Option String)
    (now : ℤ) : MailStore :=
  match discloseFor with
  | some patchMessageId => if status = .pending then s.stampDisclosures patchMessageId now else s
  | none => s

def refreshed (email : ReviewEmail) (e : EmailOutboxRow) : EmailOutboxRow :=
  { e with
    status := email.status, toAddresses := email.toAddresses, ccAddresses := email.ccAddresses,
    subject := email.subject, inReplyTo := email.inReplyTo, referencesHdr := email.referencesHdr,
    body := email.body, errorLog := none }

def newEmailRow (email : ReviewEmail) (now id : ℤ) : EmailOutboxRow where
  id := id
  patchId := some email.patchId
  kind := .reviewNotification
  status := email.status
  toAddresses := email.toAddresses
  ccAddresses := email.ccAddresses
  subject := email.subject
  inReplyTo := email.inReplyTo
  referencesHdr := email.referencesHdr
  body := email.body
  lockedAt := none
  errorLog := none
  createdAt := now

def insertReviewEmailOutbox (s : MailStore) (claim : Option PatchsetReviewClaim)
    (email : ReviewEmail) (now : ℤ) : Bool × MailStore :=
  if !s.isPatchsetClaimActiveForOutbox claim none || s.patchCancelled email.patchId then (false, s)
  else
    match s.emailOutbox.lastWhere fun e => e.patchId = some email.patchId with
    | some existing =>
      if existing.status.unsent then
        (true, (s.setEmails (·.id = existing.id) (refreshed email)).stampDisclosuresIn email.status
          email.discloseFor now)
      else (false, s)
    | none =>
      (true, { s with emailOutbox := s.emailOutbox.insertNext 0 (newEmailRow email now) }
        |>.stampDisclosuresIn email.status email.discloseFor now)

/-- Mail to a person: the row names no patch. -/
structure TransactionalEmail where
  kind : EmailKind
  status : EmailStatus
  toAddresses : String
  ccAddresses : String
  subject : String
  inReplyTo : String
  referencesHdr : String
  body : String
  deriving DecidableEq, Repr

def transactionalRow (email : TransactionalEmail) (now id : ℤ) : EmailOutboxRow where
  id := id
  patchId := none
  kind := email.kind
  status := email.status
  toAddresses := email.toAddresses
  ccAddresses := email.ccAddresses
  subject := email.subject
  inReplyTo := email.inReplyTo
  referencesHdr := email.referencesHdr
  body := email.body
  lockedAt := none
  errorLog := none
  createdAt := now

def queueTransactionalEmail (s : MailStore) (email : TransactionalEmail) (now : ℤ) : MailStore :=
  { s with emailOutbox := s.emailOutbox.insertNext 0 (transactionalRow email now) }

end MailStore

end Sashiko
