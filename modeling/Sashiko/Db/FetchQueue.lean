import Sashiko.Db.ReviewCalls

/-! The queue of fetch requests, next to the patchsets that the fetched series become. A worker's
lease on a row is the second in which it was locked. -/

namespace Sashiko

/-- The status texts that some statement names; any other text is `other`. -/
inductive FetchStatus where
  | pending
  | fetching
  | done
  | failed
  | cancelled
  | other (text : String)
  deriving DecidableEq, Repr

/-- `status IN ('Pending', 'Fetching')` -/
def FetchStatus.unfinished : FetchStatus → Bool
  | .pending | .fetching => true
  | _ => false

structure FetchQueueRow where
  id : ℤ
  repoUrl : String
  commitRange : String
  articleId : String
  mrUrl : Option String
  mrTitle : Option String
  mrNumber : Option ℤ
  status : FetchStatus
  lockedAt : Option ℤ
  retryCount : ℤ
  nextRetryAt : Option ℤ
  errorLog : Option String
  createdAt : ℤ
  deriving DecidableEq, Repr

structure FetchRequest where
  repoUrl : Option String
  commitRange : String
  mrUrl : Option String
  mrTitle : Option String
  mrNumber : Option ℤ

structure FetchStore extends Store where
  /-- `patchsets.cover_letter_message_id`, by the patchset -/
  coverLetterMessageId : ℤ → Option String
  fetchQueue : Table FetchQueueRow.id

/-- How secrets are found in a text and blotted out. -/
structure SecretFilter where
  urlHasEmbeddedCredentials : Option String → Bool
  redactSecret : String → String

def fetchArticleId (commitOrRange : String) : Option ℤ → String
  | some number => "mr-" ++ toString number ++ "-" ++ commitOrRange
  | none => commitOrRange

def staleFetchSeconds : ℤ := 600

namespace FetchStore

/-- `UPDATE fetch_queue SET f WHERE p`. -/
def setFetches (s : FetchStore) (p : FetchQueueRow → Bool) (f : FetchQueueRow → FetchQueueRow)
    (hf : ∀ r, (f r).id = r.id := by intro _; rfl) : FetchStore :=
  { s with fetchQueue := s.fetchQueue.update p f hf }

/-! ### Enqueueing -/

/-- The `DO UPDATE` of `enqueue_fetch_request`. -/
def refreshedFetch (request : FetchRequest) (r : FetchQueueRow) : FetchQueueRow :=
  { r with
    commitRange := request.commitRange
    mrUrl := if r.status.unfinished then request.mrUrl.or r.mrUrl else request.mrUrl
    mrTitle :=
      if r.status.unfinished then request.mrTitle.or r.mrTitle else request.mrTitle
    mrNumber :=
      if r.status.unfinished then request.mrNumber.or r.mrNumber else request.mrNumber
    status := if r.status = .fetching then .fetching else .pending
    retryCount := if r.status.unfinished then r.retryCount else 0
    nextRetryAt := if r.status = .fetching then r.nextRetryAt else none
    errorLog := if r.status = .fetching then r.errorLog else none }

def newFetch (s : FetchStore) (request : FetchRequest) (now : ℤ) : FetchQueueRow where
  id := s.fetchQueue.maxKey + 1
  repoUrl := request.repoUrl.getD ""
  commitRange := request.commitRange
  articleId := fetchArticleId request.commitRange request.mrNumber
  mrUrl := request.mrUrl
  mrTitle := request.mrTitle
  mrNumber := request.mrNumber
  status := .pending
  lockedAt := none
  retryCount := 0
  nextRetryAt := none
  errorLog := none
  createdAt := now

def ofRequest (request : FetchRequest) (r : FetchQueueRow) : Bool :=
  r.repoUrl = request.repoUrl.getD "" &&
    r.articleId = fetchArticleId request.commitRange request.mrNumber

def enqueueFetchRequest (t : SecretFilter) (s : FetchStore) (request : FetchRequest) (now : ℤ) :
    FetchStore :=
  if t.urlHasEmbeddedCredentials request.repoUrl then s
  else if s.fetchQueue.any (ofRequest request) then
    s.setFetches (ofRequest request) (refreshedFetch request)
  else
    { s with
      fetchQueue := s.fetchQueue.insert (s.newFetch request now)
        (Table.maxKey_lt_notMem (Int.lt_succ s.fetchQueue.maxKey)) }

/-! ### The target of a request -/

/-- The message ids under which the cover letter of an article may be stored. -/
def coverLetterIds (articleId : String) : List String :=
  [articleId, "<" ++ articleId ++ ">", articleId ++ "@sashiko.local",
    "<" ++ articleId ++ "@sashiko.local>"]

def isTarget (s : FetchStore) (articleId : String) (ps : PatchsetRow) : Bool :=
  (s.coverLetterMessageId ps.id).any fun id => id ∈ coverLetterIds articleId

/-- `FETCH_QUEUE_TARGET_CANCELLED_SQL` -/
def targetCancelled (s : FetchStore) (articleId : String) : Bool :=
  s.patchsets.any (fun ps => ps.status = some .cancelled && s.isTarget articleId ps) &&
    !s.patchsets.any fun ps => ps.status ≠ some .cancelled && s.isTarget articleId ps

def cancelledFetch (reason : String) (r : FetchQueueRow) : FetchQueueRow :=
  { r with status := .cancelled, errorLog := some reason, lockedAt := none }

/-! ### Locking -/

/-- The first statement of `lock_pending_fetch_queue`. -/
def cancelOrphanedFetches (s : FetchStore) : FetchStore :=
  s.setFetches (fun r => r.status.unfinished && s.targetCancelled r.articleId)
    (cancelledFetch "Cancelled: target patchset was cancelled")

def nextFetch (s : FetchStore) (now : ℤ) : Option FetchQueueRow :=
  s.fetchQueue.earliestBy (fun r => r.status = .pending && r.nextRetryAt.all (· ≤ now))
    (·.createdAt)

def lockedFetch (now : ℤ) (r : FetchQueueRow) : FetchQueueRow :=
  { r with status := .fetching, lockedAt := some now }

def lockPendingFetchQueue (s : FetchStore) (now : ℤ) : Option FetchQueueRow × FetchStore :=
  match s.cancelOrphanedFetches.nextFetch now with
  | some r =>
    (some (lockedFetch now r),
      s.cancelOrphanedFetches.setFetches (fun x => x.id = r.id) (lockedFetch now))
  | none => (none, s.cancelOrphanedFetches)

/-! ### Writes under a lease -/

/-- `id = ? AND status = 'Fetching' AND COALESCE(locked_at, 0) = COALESCE(?, 0)` -/
def leasedFetch (id : ℤ) (lockedAt : Option ℤ) (r : FetchQueueRow) : Bool :=
  r.id = id && r.status = .fetching && r.lockedAt.getD 0 = lockedAt.getD 0

/-- A leased row whose target is not cancelled. -/
def writable (s : FetchStore) (id : ℤ) (lockedAt : Option ℤ) (r : FetchQueueRow) : Bool :=
  leasedFetch id lockedAt r && !s.targetCancelled r.articleId

def cancelFetchQueueIfTargetCancelled (s : FetchStore) (id : ℤ) (lockedAt : Option ℤ) :
    FetchStore :=
  s.setFetches (fun r => leasedFetch id lockedAt r && s.targetCancelled r.articleId)
    (cancelledFetch "Cancelled: target patchset was cancelled")

def hasFetchQueueLease (s : FetchStore) (id : ℤ) (lockedAt : Option ℤ) : Bool × FetchStore :=
  if s.fetchQueue.any (s.writable id lockedAt) then (true, s)
  else (false, s.cancelFetchQueueIfTargetCancelled id lockedAt)

def doneFetch (r : FetchQueueRow) : FetchQueueRow :=
  { r with status := .done, lockedAt := none, nextRetryAt := none, errorLog := none }

def markFetchQueueDone (s : FetchStore) (id : ℤ) (lockedAt : Option ℤ) : Bool × FetchStore :=
  if s.fetchQueue.any (s.writable id lockedAt) then
    (true, s.setFetches (s.writable id lockedAt) doneFetch)
  else (false, s.cancelFetchQueueIfTargetCancelled id lockedAt)

def retriedFetch (nextRetryAt : ℤ) (errorLog : String) (r : FetchQueueRow) : FetchQueueRow :=
  { r with
    status := .pending
    retryCount := r.retryCount + 1
    nextRetryAt := some nextRetryAt
    errorLog := some errorLog
    lockedAt := none }

def setFetchQueueRetryAt (t : SecretFilter) (s : FetchStore) (id : ℤ) (lockedAt : Option ℤ)
    (nextRetryAt : ℤ) (errorLog : String) : Bool × FetchStore :=
  if s.fetchQueue.any (s.writable id lockedAt) then
    (true, s.setFetches (s.writable id lockedAt)
      (retriedFetch nextRetryAt (t.redactSecret errorLog)))
  else (false, s.cancelFetchQueueIfTargetCancelled id lockedAt)

/-! ### Failing -/

def stripSuffix? (s suf : String) : Option String :=
  if endsWithText s suf then some (String.ofList (s.toList.take (s.length - suf.length))) else none

def isAngleBracket (c : Char) : Bool := c = '<' || c = '>'

def getMsgidCandidates (msgId : String) : List String :=
  let trimmed := rustTrim msgId
  if trimmed = "" then []
  else
    let clean := String.ofList (trimMatches isAngleBracket trimmed.toList)
    let bracketed := if clean ≠ trimmed then clean else "<" ++ clean ++ ">"
    let aliases :=
      match stripSuffix? clean "@sashiko.local" with
      | some stripped => if stripped = "" then [] else [stripped, "<" ++ stripped ++ ">"]
      | none => [clean ++ "@sashiko.local"]
    (trimmed :: bracketed :: aliases).eraseDups

/-- The articles whose requests may still complete the patchset. -/
def articlesOf (s : FetchStore) (ps : PatchsetRow) : List String :=
  let bare := String.ofList (trimMatches isAngleBracket
    ((s.coverLetterMessageId ps.id).getD "").toList)
  [bare, replaceText bare "@sashiko.local" ""]

def failPlaceholder (redacted : String) (s : FetchStore) (coverLetterId : String) : FetchStore :=
  { s with
    toStore := s.toStore.setPatchsets
      (fun ps => s.coverLetterMessageId ps.id = some coverLetterId &&
        (ps.status = some .fetching || ps.status = some .incomplete || ps.status = some .failed) &&
        !s.fetchQueue.any fun r => r.status.unfinished && r.articleId ∈ s.articlesOf ps)
      fun ps => { ps with status := some .failed, failedReason := some redacted } }

def failPlaceholders (s : FetchStore) (redacted articleId : String) : FetchStore :=
  (getMsgidCandidates (articleId ++ "@sashiko.local") ++ getMsgidCandidates articleId).foldl
    (failPlaceholder redacted) s

def failedFetch (redacted : String) (r : FetchQueueRow) : FetchQueueRow :=
  { r with status := .failed, errorLog := some redacted, lockedAt := none }

def markFetchQueueFailed (t : SecretFilter) (s : FetchStore) (id : ℤ) (lockedAt : Option ℤ)
    (errorLog : String) : Bool × FetchStore :=
  let redacted := t.redactSecret errorLog
  let s := s.cancelFetchQueueIfTargetCancelled id lockedAt
  match s.fetchQueue.rows.find? (s.writable id lockedAt) with
  | some r =>
    (true, (s.setFetches (s.writable id lockedAt) (failedFetch redacted)).failPlaceholders redacted
      r.articleId)
  | none => (false, s)

/-! ### Sweeping -/

def releasedFetch (r : FetchQueueRow) : FetchQueueRow :=
  { r with status := .pending, lockedAt := none }

def sweepStaleFetchQueue (s : FetchStore) (now : ℤ) : FetchStore :=
  s.setFetches (fun r => r.status = .fetching && r.lockedAt.all (· < now - staleFetchSeconds))
    releasedFetch

/-! ### Status changes of patchsets -/

/-- Whatever statement writes the status of a patchset. -/
def setPatchsetStatus (s : FetchStore) (id : ℤ) (status : Option StatusText) : FetchStore :=
  { s with
    toStore :=
      s.toStore.setPatchsets (·.id = id) (fun ps => { ps with status := status })
        (Store.id_withStatus status) }

/-- What `cancel_outbox_for_patchset` does to the queue. -/
def cancelFetchesForPatchset (s : FetchStore) (id : ℤ) (reason : String) : FetchStore :=
  s.setFetches
    (fun r => r.status.unfinished &&
      s.patchsets.any (fun ps => ps.id = id && s.isTarget r.articleId ps) &&
      !s.patchsets.any fun ps => ps.id ≠ id && ps.status ≠ some .cancelled &&
        s.isTarget r.articleId ps)
    (cancelledFetch reason)

def cancelPatchset (s : FetchStore) (id : ℤ) (force : Bool) : FetchStore :=
  if (s.toStore.cancelPatchset id force).1 then
    { s with toStore := (s.toStore.cancelPatchset id force).2 }.cancelFetchesForPatchset id
      "Cancelled because patchset was cancelled"
  else s

end FetchStore

end Sashiko
