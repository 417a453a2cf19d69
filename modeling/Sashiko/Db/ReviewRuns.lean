import Sashiko.Db.ReviewCalls

/-! Runs of the review calls by any number of workers: a run is the list of its calls in the
order they commit. -/

namespace Sashiko

open Store

/-- A write of review data, through whatever handle the worker holds. -/
inductive HandleWrite where
  | claimOrCreateInReview (req : ReviewRequest) (now : ℤ)
  | updateReviewStatus (reviewId : ℤ) (status : StatusText) (logs : Option String)
  | completeReview (reviewId : ℤ) (result : ReviewResult)
  | createFinding (finding : Finding)
  | createToolUsage (usage : ToolUsage) (now : ℤ)
  | updateToolUsageLength (reviewId : ℤ) (toolName arguments : String) (outputLength : ℕ)
  | updatePatchStatus (patchId : ℤ) (status : StatusText)
  | settlePanickedPatchReview (patchsetId patchId : ℤ) (reason : String)
  | failOrphanedInReviewRows (patchsetId : ℤ) (reason : String)
  deriving DecidableEq, Repr

/-- The store after a call that may fail: a failed transaction is rolled back. -/
def committed (s : Store) : Except String Store → Store
  | .ok s' => s'
  | .error _ => s

def HandleWrite.apply (claim : Option PatchsetReviewClaim) (s : Store) : HandleWrite → Store
  | .claimOrCreateInReview req now =>
    committed s ((s.claimOrCreateInReview claim req now).map (·.2))
  | .updateReviewStatus reviewId status logs => s.updateReviewStatus claim reviewId status logs
  | .completeReview reviewId result => committed s (s.completeReview claim reviewId result)
  | .createFinding finding => committed s (s.createFinding claim finding)
  | .createToolUsage usage now => s.createToolUsage claim usage now
  | .updateToolUsageLength reviewId toolName arguments outputLength =>
    s.updateToolUsageLength reviewId toolName arguments outputLength
  | .updatePatchStatus patchId status => s.updatePatchStatus claim patchId status
  | .settlePanickedPatchReview patchsetId patchId reason =>
    (s.settlePanickedPatchReview claim patchsetId patchId reason).2
  | .failOrphanedInReviewRows patchsetId reason =>
    s.failOrphanedInReviewRows claim patchsetId reason

inductive ReviewCall where
  | claimPatchsetForReviewWithGen (id : ℤ)
  | enterPatchsetReviewWithGen (id : ℤ)
  | releasePatchsetClaim (claim : Option PatchsetReviewClaim)
  | completePatchsetReview (claim : Option PatchsetReviewClaim) (id : ℤ) (status : StatusText)
      (failedReason : Option String)
  | cancelPatchset (id : ℤ) (force : Bool)
  | rerunPatchset (id : ℤ)
  | write (claim : Option PatchsetReviewClaim) (w : HandleWrite)
  deriving DecidableEq, Repr

def ReviewCall.step (s : Store) : ReviewCall → Store
  | .claimPatchsetForReviewWithGen id => (s.claimPatchsetForReviewWithGen id).2
  | .enterPatchsetReviewWithGen id => (s.enterPatchsetReviewWithGen id).2
  | .releasePatchsetClaim claim => s.releasePatchsetClaim claim
  | .completePatchsetReview claim id status reason =>
    (s.completePatchsetReview claim id status reason).2
  | .cancelPatchset id force => (s.cancelPatchset id force).2
  | .rerunPatchset id => s.rerunPatchset id
  | .write claim w => w.apply claim s

/-- The handle a call gives its caller. -/
def ReviewCall.allocated (s : Store) : ReviewCall → Option PatchsetReviewClaim
  | .claimPatchsetForReviewWithGen id =>
    (s.claimPatchsetForReviewWithGen id).1.map fun generation => ⟨id, generation⟩
  | .enterPatchsetReviewWithGen id =>
    (s.enterPatchsetReviewWithGen id).1.map fun generation => ⟨id, generation⟩
  | _ => none

/-- The call takes the patchset away from whoever reviews it. -/
def ReviewCall.supersedes (s : Store) (patchsetId : ℤ) : ReviewCall → Prop
  | .claimPatchsetForReviewWithGen id =>
    id = patchsetId ∧ (s.claimPatchsetForReviewWithGen id).1.isSome
  | .enterPatchsetReviewWithGen id =>
    id = patchsetId ∧ (s.enterPatchsetReviewWithGen id).1.isSome
  | .cancelPatchset id force => id = patchsetId ∧ (s.cancelPatchset id force).1 = true
  | .rerunPatchset id => id = patchsetId
  | _ => False

def Store.run (s : Store) (calls : List ReviewCall) : Store := calls.foldl ReviewCall.step s

def Store.allocations : Store → List ReviewCall → List PatchsetReviewClaim
  | _, [] => []
  | s, call :: calls => (call.allocated s).toList ++ (call.step s).allocations calls

/-- What a review of the patchset has written: its reviews with their findings and tool
usages, and its patches. -/
structure PatchsetData where
  reviews : List ReviewRow
  findings : List FindingRow
  toolUsages : List ToolUsageRow
  patches : List PatchRow
  deriving DecidableEq, Repr

def Store.ownsReview (s : Store) (patchsetId reviewId : ℤ) : Bool :=
  s.reviews.any fun r => r.id = reviewId ∧ r.patchsetId = patchsetId

def Store.patchsetData (s : Store) (patchsetId : ℤ) : PatchsetData where
  reviews := s.reviews.rows.filter (·.patchsetId = patchsetId)
  findings := s.findings.rows.filter fun f => s.ownsReview patchsetId f.reviewId
  toolUsages := s.toolUsages.rows.filter fun u => s.ownsReview patchsetId u.reviewId
  patches := s.patches.rows.filter (·.patchsetId = patchsetId)

/-- Writes of the 'Cancelled' status, which a cancelled patchset accepts from any handle. -/
def HandleWrite.cancels : HandleWrite → Bool
  | .updateReviewStatus _ status _ => status = .cancelled
  | .completeReview _ result => result.status = .cancelled
  | .updatePatchStatus _ status => status = .cancelled
  | _ => false

def HandleWrite.updatesLength : HandleWrite → Bool
  | .updateToolUsageLength .. => true
  | _ => false

end Sashiko
