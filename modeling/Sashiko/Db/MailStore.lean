import Sashiko.Db.BugStore
import Sashiko.Db.ReviewCalls

/-! The outbox of emails next to the tables of reviews and bugs, and what one statement does to
it. -/

namespace Sashiko

/-- The status texts that some statement names; any other text is `other`. -/
inductive EmailStatus where
  | pending
  | embargoed
  | skipped
  | muted
  | disabled
  | dryRun
  | cancelled
  | sending
  | sent
  | failed
  | other (text : String)
  deriving DecidableEq, Repr

inductive EmailKind where
  | reviewNotification
  | signInLink
  | bugAssignment
  | unrecognized
  deriving DecidableEq, Repr

structure EmailOutboxRow where
  id : ℤ
  patchId : Option ℤ
  kind : EmailKind
  status : EmailStatus
  toAddresses : String
  ccAddresses : String
  subject : String
  inReplyTo : String
  referencesHdr : String
  body : String
  lockedAt : Option ℤ
  errorLog : Option String
  createdAt : ℤ
  deriving DecidableEq, Repr

structure MailStore extends BugStore where
  emailOutbox : Table EmailOutboxRow.id

/-- The statuses under which a row may still be replaced or deleted: nothing of it was sent. -/
def EmailStatus.unsent : EmailStatus → Bool
  | .pending | .embargoed | .skipped | .muted | .disabled | .dryRun | .cancelled => true
  | _ => false

/-- `status IN ('Pending', 'Embargoed')` -/
def EmailStatus.waiting : EmailStatus → Bool
  | .pending | .embargoed => true
  | _ => false

def signInLinkLifetimeSeconds : ℤ := 1800

def ghostEmailSeconds : ℤ := 600

namespace Store

/-- Whether the handle's claim may still queue notifications. -/
def isPatchsetClaimActiveForOutbox (s : Store) (claim : Option PatchsetReviewClaim)
    (expectedPatchsetId : Option ℤ) : Bool :=
  match claim with
  | some claim =>
    !expectedPatchsetId.any (· ≠ claim.patchsetId) &&
      s.patchsets.any (fun ps => ps.id = claim.patchsetId ∧ (ps.status = some .inReview ∨
        ps.status = some .reviewed ∨ ps.status = some .failed)) &&
      s.patchsetActiveGen claim.patchsetId = some claim.generation
  | none => true

/-- The patch belongs to a cancelled patchset. -/
def patchCancelled (s : Store) (patchId : ℤ) : Bool :=
  s.patches.any fun p => p.id = patchId && s.patchsetIs p.patchsetId .cancelled

def hasReviewed (s : Store) (patchId : ℤ) : Bool :=
  s.reviews.any fun r => r.patchId = some patchId ∧ r.status = some .reviewed

end Store

namespace MailStore

/-- `UPDATE email_outbox SET f WHERE p`. -/
def setEmails (s : MailStore) (p : EmailOutboxRow → Bool) (f : EmailOutboxRow → EmailOutboxRow)
    (hf : ∀ e, (f e).id = e.id := by intro _; rfl) : MailStore :=
  { s with emailOutbox := s.emailOutbox.update p f hf }

def withStore (s : MailStore) (store : Store) : MailStore :=
  { s with toBugStore := { s.toBugStore with toStore := store } }

/-! ### Withdrawing emails -/

def withdrawn (reason : String) (e : EmailOutboxRow) : EmailOutboxRow :=
  { e with status := .cancelled, errorLog := some reason, lockedAt := none }

def ofPatchset (s : MailStore) (id : ℤ) (e : EmailOutboxRow) : Bool :=
  e.patchId.any fun patchId => s.patches.any fun p => p.id = patchId ∧ p.patchsetId = id

def cancelOutboxForPatchset (s : MailStore) (id : ℤ) (reason : String) : MailStore :=
  s.setEmails (fun e => e.status.waiting && s.ofPatchset id e) (withdrawn reason)

def cancelPatchset (s : MailStore) (id : ℤ) (force : Bool) : MailStore :=
  if (s.toStore.cancelPatchset id force).1 then
    (s.withStore (s.toStore.cancelPatchset id force).2).cancelOutboxForPatchset id
      "Cancelled because patchset was cancelled"
  else s

/-- The unsent emails of a patchset's abandoned reviews, and its cancelled ones, unless a
completed review stands behind them. -/
def discardedByRerun (s : MailStore) (id : ℤ) (e : EmailOutboxRow) : Bool :=
  e.status.unsent && s.ofPatchset id e &&
    (s.reviews.any (fun r => r.patchId ≠ none && r.patchId = e.patchId &&
      Store.abandonedReview id r) || e.status = .cancelled) &&
    !e.patchId.any (s.toStore.hasReviewedReview id)

def rerunPatchset (s : MailStore) (id : ℤ) : MailStore :=
  { s.withStore (s.toStore.rerunPatchset id) with
    emailOutbox := s.emailOutbox.delete (s.discardedByRerun id) }

def discardedWithReview (s : MailStore) (reviewId : ℤ) (e : EmailOutboxRow) : Bool :=
  e.status.unsent &&
    s.reviews.any (fun r => r.id = reviewId && r.patchId ≠ none && r.patchId = e.patchId) &&
    !e.patchId.any s.toStore.hasReviewed

def deleteAbortedReviewChildrenInTx (s : MailStore) (reviewId : ℤ) : MailStore :=
  { s.withStore (s.toStore.deleteAbortedReviewChildren reviewId) with
    emailOutbox := s.emailOutbox.delete (s.discardedWithReview reviewId) }

/-! ### Sending -/

/-- Emails that nobody may see any more: of cancelled patchsets, and sign-in links too old. -/
def withdrawStale (s : MailStore) (now : ℤ) : MailStore :=
  (s.setEmails (fun e => e.status.waiting && e.patchId.any s.patchCancelled)
    (withdrawn "Cancelled because patchset was cancelled")).setEmails
    (fun e => e.status = .pending && e.kind = .signInLink &&
      e.createdAt < now - signInLinkLifetimeSeconds)
    (withdrawn "Cancelled because sign-in link expired before delivery")

/-- `SELECT id FROM email_outbox WHERE status = 'Pending' LIMIT 1`: without an order any of them
may come, `preferred` says which. -/
def pendingEmail (s : MailStore) (preferred : ℤ) : Option EmailOutboxRow :=
  (s.emailOutbox.rows.find? fun e => e.status = .pending && e.id = preferred).or
    (s.emailOutbox.rows.find? (·.status = .pending))

def lockPendingEmail (s : MailStore) (preferred now : ℤ) : Option EmailOutboxRow × MailStore :=
  match (s.withdrawStale now).pendingEmail preferred with
  | some e =>
    (some { e with status := .sending, lockedAt := some now },
      (s.withdrawStale now).setEmails (·.id = e.id) fun x =>
        { x with status := .sending, lockedAt := some now })
  | none => (none, s.withdrawStale now)

def markEmailSent (s : MailStore) (id : ℤ) : MailStore :=
  s.setEmails (·.id = id) fun e => { e with status := .sent, lockedAt := none }

def markEmailFailed (s : MailStore) (id : ℤ) (errorLog : String) : MailStore :=
  s.setEmails (·.id = id) fun e =>
    { e with status := .failed, errorLog := some errorLog, lockedAt := none }

/-- `clock` is read before the statement runs. -/
def sweepGhostEmails (s : MailStore) (clock : ℤ) : MailStore :=
  s.setEmails (fun e => e.status = .sending && e.lockedAt.any (· < clock - ghostEmailSeconds))
    fun e => { e with status := .pending, lockedAt := none }

end MailStore

end Sashiko
