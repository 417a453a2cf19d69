import Sashiko.Json
import Sashiko.Lib.Table

/-! The tables a review writes: patchsets with their generation keys in `meta`, reviews, and
the findings, tool usages and patches that hang off them. -/

namespace Sashiko

/-- The status texts that some query names; any other text is `other`. -/
inductive StatusText where
  | fetching
  | incomplete
  | pending
  | awaitingReview
  | inReview
  | reviewing
  | cancelled
  | skipped
  | reviewed
  | failed
  | failedToApply
  | applied
  | error
  | other (text : String)
  deriving DecidableEq, Repr

inductive Severity where
  | unknown
  | low
  | medium
  | high
  | critical
  deriving DecidableEq, Repr

def Severity.toInt : Severity → ℤ
  | .unknown => 0
  | .low => 1
  | .medium => 2
  | .high => 3
  | .critical => 4

def Severity.asStr : Severity → String
  | .unknown => "Unknown"
  | .low => "Low"
  | .medium => "Medium"
  | .high => "High"
  | .critical => "Critical"

structure PatchsetRow where
  id : ℤ
  status : Option StatusText
  failedReason : Option String
  targetReviewCount : Option ℤ
  deriving DecidableEq, Repr

structure ReviewRow where
  id : ℤ
  patchsetId : ℤ
  patchId : Option ℤ
  summary : Option String
  resultDescription : Option String
  createdAt : ℤ
  interactionId : Option String
  status : Option StatusText
  logs : Option String
  inlineReview : Option String
  baselineId : Option ℤ
  model : String
  promptsHash : Option String
  provider : String
  deriving DecidableEq, Repr

structure FindingRow where
  id : ℤ
  reviewId : ℤ
  severity : ℤ
  severityExplanation : Option String
  problem : String
  preexisting : Option ℤ
  locations : Option String
  deriving DecidableEq, Repr

structure ToolUsageRow where
  id : ℤ
  reviewId : ℤ
  provider : String
  model : String
  toolName : String
  arguments : Option String
  outputLength : ℤ
  createdAt : ℤ
  deriving DecidableEq, Repr

structure PatchRow where
  id : ℤ
  patchsetId : ℤ
  status : Option StatusText
  applyError : Option String
  deriving DecidableEq, Repr

/-- Ownership of one patchset review attempt. -/
structure PatchsetReviewClaim where
  patchsetId : ℤ
  generation : ℤ
  deriving DecidableEq, Repr

structure Store where
  patchsets : Table PatchsetRow.id
  /-- `meta('patchset_gen_seq')` -/
  patchsetGenSeq : Option ℤ
  /-- `meta('patchset_active_gen:<id>')` -/
  patchsetActiveGen : ℤ → Option ℤ
  /-- `meta('reviews_max_id')` -/
  reviewsMaxId : Option ℤ
  reviews : Table ReviewRow.id
  findings : Table FindingRow.id
  toolUsages : Table ToolUsageRow.id
  patches : Table PatchRow.id

namespace Store

def patchsetIs (s : Store) (id : ℤ) (status : StatusText) : Bool :=
  s.patchsets.any fun ps => ps.id = id ∧ ps.status = some status

def getPatchsetStatus (s : Store) (id : ℤ) : Option StatusText :=
  (s.patchsets.rows.find? (·.id = id)).bind (·.status)

/-- The patchset is 'In Review' and the claim's generation is its active one. -/
def holdsClaim (s : Store) (claim : PatchsetReviewClaim) : Bool :=
  s.patchsetIs claim.patchsetId .inReview &&
    s.patchsetActiveGen claim.patchsetId = some claim.generation

def isPatchsetClaimActive (s : Store) (claim : Option PatchsetReviewClaim) (patchsetId : ℤ) :
    Bool :=
  match claim with
  | some claim => claim.patchsetId = patchsetId && s.holdsClaim claim
  | none =>
    -- reading a NULL status as text fails, which ends the call as well
    match s.getPatchsetStatus patchsetId with
    | none | some .cancelled => false
    | some _ => true

/-- The claim's part of a write's WHERE clause, for a row of `patchsetId`. -/
def claimAllows (s : Store) (claim : Option PatchsetReviewClaim) (patchsetId : ℤ) : Bool :=
  match claim with
  | some claim => patchsetId = claim.patchsetId && s.holdsClaim claim
  | none => true

/-- The WHERE clause shared by the writes that work on a review. -/
def reviewWritable (s : Store) (claim : Option PatchsetReviewClaim) (r : ReviewRow) : Bool :=
  r.status ≠ some .cancelled && !s.patchsetIs r.patchsetId .cancelled &&
    s.claimAllows claim r.patchsetId

/-- The WHERE clause of `update_review_status` and `complete_review`: the 'Cancelled' status
needs a cancelled patchset and no claim. -/
def reviewStatusWritable (s : Store) (claim : Option PatchsetReviewClaim) (status : StatusText)
    (r : ReviewRow) : Bool :=
  (status = .cancelled && s.patchsetIs r.patchsetId .cancelled) ||
    (status ≠ .cancelled && s.reviewWritable claim r)

def hasReviewedReview (s : Store) (patchsetId patchId : ℤ) : Bool :=
  s.reviews.any fun r =>
    r.patchsetId = patchsetId ∧ r.patchId = some patchId ∧ r.status = some .reviewed

def deleteAbortedReviewChildren (s : Store) (reviewId : ℤ) : Store :=
  { s with
    toolUsages := s.toolUsages.delete fun u => u.reviewId = reviewId
    findings := s.findings.delete fun f => f.reviewId = reviewId }

/-- `DELETE FROM tool_usages / findings WHERE review_id IN (SELECT id FROM reviews WHERE p)`. -/
def deleteChildrenWhere (s : Store) (p : ReviewRow → Bool) : Store :=
  { s with
    toolUsages := s.toolUsages.delete fun u => s.reviews.any fun r => r.id = u.reviewId && p r
    findings := s.findings.delete fun f => s.reviews.any fun r => r.id = f.reviewId && p r }

def clearActiveGen (s : Store) (id : ℤ) : Store :=
  { s with patchsetActiveGen := Function.update s.patchsetActiveGen id none }

end Store

end Sashiko
