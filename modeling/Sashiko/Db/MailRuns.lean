import Sashiko.Db.MailCalls

/-! Runs of the outbox by any number of review workers, senders and operators: the calls in the
order they commit, each with the clock at that moment. -/

namespace Sashiko

open MailStore

inductive MailCall where
  | insertReviewEmailOutbox (claim : Option PatchsetReviewClaim) (email : ReviewEmail)
  | queueTransactionalEmail (email : TransactionalEmail)
  | lockPendingEmail (preferred : ℤ)
  | markEmailSent (id : ℤ)
  | markEmailFailed (id : ℤ) (errorLog : String)
  | sweepGhostEmails (clock : ℤ)
  | cancelPatchset (id : ℤ) (force : Bool)
  | rerunPatchset (id : ℤ)
  | deleteAbortedReviewChildrenInTx (reviewId : ℤ)
  | reservePreexistingDisclosures (claim : Option PatchsetReviewClaim) (patchMessageId : String)
      (candidates : List NewPreexistingDisclosure) (clock : ℤ)
  | releasePreexistingReservations (claim : Option PatchsetReviewClaim) (patchMessageId : String)
  | markPreexistingDisclosed (patchMessageId : String) (clock : ℤ)
  /-- Whatever the rest of the system writes: it leaves emails and disclosures alone. -/
  | elsewhere (after : BugStore)

namespace MailCall

/-- The clock value a call works with, which some calls read before their transaction. -/
def clockRead (now : ℤ) : MailCall → ℤ
  | sweepGhostEmails clock | reservePreexistingDisclosures _ _ _ clock
  | markPreexistingDisclosed _ clock => clock
  | _ => now

/-- The row that a call hands to its caller for sending. -/
def handedOut (s : MailStore) (now : ℤ) : MailCall → Option EmailOutboxRow
  | lockPendingEmail preferred => (s.lockPendingEmail preferred now).1
  | _ => none

/-- The row that a call reports as sent or as failed. -/
def marked : MailCall → Option ℤ
  | markEmailSent id | markEmailFailed id _ => some id
  | _ => none

variable (isDuplicate : NewPreexistingDisclosure → PreexistingDisclosure → Bool)

def step (s : MailStore) (now : ℤ) : MailCall → MailStore
  | insertReviewEmailOutbox claim email => (s.insertReviewEmailOutbox claim email now).2
  | queueTransactionalEmail email => s.queueTransactionalEmail email now
  | lockPendingEmail preferred => (s.lockPendingEmail preferred now).2
  | markEmailSent id => s.markEmailSent id
  | markEmailFailed id errorLog => s.markEmailFailed id errorLog
  | sweepGhostEmails clock => s.sweepGhostEmails clock
  | cancelPatchset id force => s.cancelPatchset id force
  | rerunPatchset id => s.rerunPatchset id
  | deleteAbortedReviewChildrenInTx reviewId => s.deleteAbortedReviewChildrenInTx reviewId
  | reservePreexistingDisclosures claim patchMessageId candidates clock =>
    (s.reservePreexistingDisclosures isDuplicate claim patchMessageId candidates clock).2
  | releasePreexistingReservations claim patchMessageId =>
    s.releasePreexistingReservations claim patchMessageId
  | markPreexistingDisclosed patchMessageId clock => s.markPreexistingDisclosed patchMessageId clock
  | elsewhere after =>
    { s with toBugStore := { after with preexistingDisclosures := s.preexistingDisclosures } }

end MailCall

variable (isDuplicate : NewPreexistingDisclosure → PreexistingDisclosure → Bool)

def MailStore.run (s : MailStore) : List (ℤ × MailCall) → MailStore
  | [] => s
  | (now, call) :: rest => MailStore.run (call.step isDuplicate s now) rest

/-- The clock never goes back, and no call works with a value from its future. -/
structure Timed (calls : List (ℤ × MailCall)) : Prop where
  sorted : calls.Pairwise (·.1 ≤ ·.1)
  read : ∀ e ∈ calls, e.2.clockRead e.1 ≤ e.1

/-- The rows handed to a sender that it has not marked yet, each with the time of the lock. -/
def inFlightAfter (inFlight : List (ℤ × ℤ)) (s : MailStore) (now : ℤ) (call : MailCall) :
    List (ℤ × ℤ) :=
  inFlight.filter (fun e => call.marked ≠ some e.1) ++
    ((call.handedOut s now).map fun e => (e.id, now)).toList

/-- Whatever is in flight was locked at most 600 seconds ago. -/
def PromptSenders : List (ℤ × ℤ) → MailStore → List (ℤ × MailCall) → Prop
  | _, _, [] => True
  | inFlight, s, (now, call) :: rest =>
    (∀ e ∈ inFlight, now ≤ e.2 + ghostEmailSeconds) ∧
      PromptSenders (inFlightAfter inFlight s now call) (call.step isDuplicate s now) rest

instance decidablePromptSenders : ∀ (inFlight : List (ℤ × ℤ)) (s : MailStore)
    (calls : List (ℤ × MailCall)), Decidable (PromptSenders isDuplicate inFlight s calls)
  | _, _, [] => isTrue trivial
  | inFlight, s, (now, call) :: rest =>
    have := decidablePromptSenders (inFlightAfter inFlight s now call)
      (call.step isDuplicate s now) rest
    instDecidableAnd

theorem MailStore.run_append (s : MailStore) (before after : List (ℤ × MailCall)) :
    s.run isDuplicate (before ++ after) = (s.run isDuplicate before).run isDuplicate after := by
  induction before generalizing s with
  | nil => rfl
  | cons e before ih => exact ih (e.2.step isDuplicate s e.1)

/-- Nothing is stored yet. -/
def noMail : MailStore where
  patchsets := Table.empty
  patchsetGenSeq := none
  patchsetActiveGen := fun _ => none
  reviewsMaxId := none
  reviews := Table.empty
  findings := Table.empty
  toolUsages := Table.empty
  patches := Table.empty
  bugs := Table.empty
  bugEnrichments := Table.empty
  bugReviews := Table.empty
  preexistingDisclosures := Table.empty
  emailOutbox := Table.empty

end Sashiko
