import Sashiko.Db.MailStore

/-! The outbox of patchwork checks: queueing a check and locking one for sending, next to the
patchsets that hold the message a check is about. -/

namespace Sashiko

/-- The status texts that some statement names; any other text is `other`. -/
inductive PatchworkStatus where
  | pending
  | sending
  | sent
  | failed
  | cancelled
  | other (text : String)
  deriving DecidableEq, Repr

structure PatchworkOutboxRow where
  id : ℤ
  patchMsgId : String
  apiUrl : String
  checkState : String
  description : String
  targetUrl : String
  context : String
  status : Option PatchworkStatus
  retryCount : ℤ
  nextRetryAt : Option ℤ
  lockedAt : Option ℤ
  errorLog : Option String
  createdAt : ℤ
  deriving DecidableEq, Repr

/-- What a caller wants to report to patchwork. -/
structure PatchworkCheck where
  patchMsgId : String
  apiUrl : String
  checkState : String
  description : String
  targetUrl : String
  context : String

structure PatchworkStore extends Store where
  /-- `patches.message_id`, by the patch -/
  messageId : ℤ → String
  patchworkOutbox : Table PatchworkOutboxRow.id

namespace PatchworkStore

/-- `UPDATE patchwork_outbox SET f WHERE p`. -/
def setChecks (s : PatchworkStore) (p : PatchworkOutboxRow → Bool)
    (f : PatchworkOutboxRow → PatchworkOutboxRow) (hf : ∀ e, (f e).id = e.id := by intro _; rfl) :
    PatchworkStore :=
  { s with patchworkOutbox := s.patchworkOutbox.update p f hf }

/-- The message is a patch of some patchset with the property. -/
def heldIn (s : PatchworkStore) (patchMsgId : String) (q : PatchsetRow → Bool) : Bool :=
  s.patches.any fun p => s.messageId p.id = patchMsgId &&
    s.patchsets.any fun ps => ps.id = p.patchsetId && q ps

/-- The guard of `insert_patchwork_outbox`. -/
def allHoldersCancelled (s : PatchworkStore) (patchMsgId : String) : Bool :=
  s.heldIn patchMsgId (·.status = some .cancelled) &&
    !s.heldIn patchMsgId (·.status ≠ some .cancelled)

def ofCheck (check : PatchworkCheck) (e : PatchworkOutboxRow) : Bool :=
  e.patchMsgId = check.patchMsgId && e.apiUrl = check.apiUrl && e.context = check.context

def newCheck (s : PatchworkStore) (check : PatchworkCheck) (now : ℤ) : PatchworkOutboxRow where
  id := s.patchworkOutbox.maxKey + 1
  patchMsgId := check.patchMsgId
  apiUrl := check.apiUrl
  checkState := check.checkState
  description := check.description
  targetUrl := check.targetUrl
  context := check.context
  status := some .pending
  retryCount := 0
  nextRetryAt := none
  lockedAt := none
  errorLog := none
  createdAt := now

def insertPatchworkOutbox (s : PatchworkStore) (claim : Option PatchsetReviewClaim)
    (check : PatchworkCheck) (now : ℤ) : PatchworkStore :=
  if !s.isPatchsetClaimActiveForOutbox claim none then s
  else if s.allHoldersCancelled check.patchMsgId then s
  else
    match s.patchworkOutbox.lastWhere (ofCheck check) with
    | some existing =>
      if existing.status = some .pending ∨ existing.status = some .cancelled then
        s.setChecks (·.id = existing.id) fun e =>
          { e with
            status := some .pending
            checkState := check.checkState
            description := check.description
            targetUrl := check.targetUrl
            retryCount := 0
            nextRetryAt := none
            lockedAt := none
            errorLog := none }
      else s
    | none =>
      { s with
        patchworkOutbox := s.patchworkOutbox.insert (s.newCheck check now)
          (Table.maxKey_lt_notMem (Int.lt_succ s.patchworkOutbox.maxKey)) }

def withdrawnCheck (reason : String) (e : PatchworkOutboxRow) : PatchworkOutboxRow :=
  { e with status := some .cancelled, errorLog := some reason, lockedAt := none }

/-- The first statement of `lock_pending_patchwork`. -/
def withdrawCancelled (s : PatchworkStore) : PatchworkStore :=
  s.setChecks (fun e => e.status = some .pending &&
      s.heldIn e.patchMsgId (·.status = some .cancelled))
    (withdrawnCheck "Cancelled because patchset was cancelled")

/-- `SELECT id … WHERE status = 'Pending' AND …  LIMIT 1`: without an order any of them may come,
`preferred` says which. -/
def pendingCheck (s : PatchworkStore) (preferred now : ℤ) : Option PatchworkOutboxRow :=
  (s.patchworkOutbox.rows.find? fun e => e.status = some .pending &&
      e.nextRetryAt.all (· ≤ now) && e.id = preferred).or
    (s.patchworkOutbox.rows.find? fun e => e.status = some .pending && e.nextRetryAt.all (· ≤ now))

def sendingCheck (now : ℤ) (e : PatchworkOutboxRow) : PatchworkOutboxRow :=
  { e with status := some .sending, lockedAt := some now }

def lockPendingPatchwork (s : PatchworkStore) (preferred now : ℤ) :
    Option PatchworkOutboxRow × PatchworkStore :=
  match s.withdrawCancelled.pendingCheck preferred now with
  | some e =>
    (some (sendingCheck now e), s.withdrawCancelled.setChecks (·.id = e.id) (sendingCheck now))
  | none => (none, s.withdrawCancelled)

/-! ### Status changes of patchsets -/

/-- Whatever statement writes the status of a patchset. -/
def setPatchsetStatus (s : PatchworkStore) (id : ℤ) (status : Option StatusText) :
    PatchworkStore :=
  { s with patchsets := s.patchsets.update (·.id = id) fun ps => { ps with status := status } }

/-- `patch_msg_id IN (SELECT message_id FROM patches WHERE patchset_id = ?)` -/
def ofPatchset (s : PatchworkStore) (id : ℤ) (e : PatchworkOutboxRow) : Bool :=
  s.patches.any fun p => p.patchsetId = id && s.messageId p.id = e.patchMsgId

def cancelOutboxForPatchset (s : PatchworkStore) (id : ℤ) (reason : String) : PatchworkStore :=
  s.setChecks (fun e => e.status = some .pending && s.ofPatchset id e) (withdrawnCheck reason)

def cancelPatchset (s : PatchworkStore) (id : ℤ) (force : Bool) : PatchworkStore :=
  if (s.toStore.cancelPatchset id force).1 then
    { s with toStore := (s.toStore.cancelPatchset id force).2 }.cancelOutboxForPatchset id
      "Cancelled because patchset was cancelled"
  else s

end PatchworkStore

end Sashiko
