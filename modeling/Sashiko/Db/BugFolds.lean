import Sashiko.Db.LeaseRuns
import Sashiko.Lib.Closure
import Sashiko.Lib.Forest

/-! Linking reviews to bugs, folding duplicate bugs together, and the family of a bug. -/

namespace Sashiko

structure MarkDuplicateBugParams where
  preserveTriage : Bool
  ephemeralId : ℤ
  canonicalId : ℤ
  reasoning : String
  deriving DecidableEq, Repr

namespace BugStore

/-- The `SELECT` of a link: the review is not cancelled, and a claimed handle still owns it. -/
def reviewLinkable (s : BugStore) (claim : Option PatchsetReviewClaim) (reviewId : ℤ) : Bool :=
  s.reviews.any fun r =>
    r.id = reviewId && r.status ≠ some .cancelled && s.claimAllows claim r.patchsetId

def insertBugReview (s : BugStore) (claim : Option PatchsetReviewClaim) (reviewId bugId : ℤ)
    (isNewlyDiscovered : Bool) : Except String BugStore :=
  if s.reviewLinkable claim reviewId then
    if s.bugs.any (·.id = bugId) then
      .ok { s with
        bugReviews := s.bugReviews.upsert ⟨reviewId, bugId, isNewlyDiscovered⟩ fun l =>
          { l with isNewlyDiscovered := l.isNewlyDiscovered || isNewlyDiscovered } }
    else .error "FOREIGN KEY constraint failed"
  else .ok s

def linkReviewToBug (s : BugStore) (bugClaim : Option BugAnalysisClaim)
    (claim : Option PatchsetReviewClaim) (reviewId bugId : ℤ) (isNewlyDiscovered : Bool)
    (now : ℤ) : Except String BugStore :=
  match bugClaim with
  | none => s.insertBugReview claim reviewId bugId isNewlyDiscovered
  | some held => do
    s.beginBugWrite (some held) held.bugId now
    s.insertBugReview claim reviewId bugId isNewlyDiscovered

/-- A moved link is a rediscovery; a link the target already has stays as it is. -/
def migrateReviewBugsIn (s : BugStore) (fromBugId toBugId : ℤ) : BugStore :=
  { s with
    bugReviews :=
      (s.bugReviews.insertAllOrIgnore
        ((s.bugReviews.rows.filter (·.bugId = fromBugId)).map fun l =>
          ⟨l.reviewId, toBugId, false⟩)).delete (·.bugId = fromBugId)
    preexistingDisclosures :=
      s.preexistingDisclosures.update (·.bugId = some fromBugId) fun d =>
        { d with bugId := some toBugId } }

/-- The `UPDATE` of a fold; a claimed handle keeps its lease. -/
def setDuplicate (s : BugStore) (claim : Option BugAnalysisClaim) (id canonicalId now : ℤ) :
    BugStore :=
  s.setBugs (fun b => b.id = id) fun b =>
    { b with
      triage := .duplicateOf canonicalId, pipelineState := .succeeded,
      lockedBy := if claim.isSome then b.lockedBy else none,
      leaseExpiresAt := if claim.isSome then b.leaseExpiresAt else none, updatedAt := now }

/-- Returns false when automatic deduplication preserves existing triage. -/
def markBugAsDuplicate (s : BugStore) (claim : Option BugAnalysisClaim)
    (params : MarkDuplicateBugParams) (now : ℤ) : Except String (Bool × BugStore) := do
  s.beginBugWrite claim params.ephemeralId now
  if params.ephemeralId = params.canonicalId ||
      !s.bugs.any (fun b => b.id = params.canonicalId && b.triage.duplicateOfId = none) then
    throw "Choose an existing canonical bug, distinct from this bug"
  else
    match s.bugs.lookup params.ephemeralId with
    | none => throw "Bug not found"
    | some source =>
      if params.preserveTriage && source.triage.lifecycleStatus ≠ .new then return (false, s)
      else do
        let s ← (s.setDuplicate claim params.ephemeralId params.canonicalId
            now).insertBugEnrichment params.ephemeralId
          { kind := "deduplication", createdAt := now, content := some params.reasoning,
            dataJson := none } now
        return (true, s.migrateReviewBugsIn params.ephemeralId params.canonicalId)

/-! ### Families -/

def duplicateOf (s : BugStore) (id : ℤ) : Option ℤ :=
  (s.bugs.lookup id).bind (·.triage.duplicateOfId)

/-- The step of the query's `ancestors`. -/
def canonicalsOf (s : BugStore) (id : ℤ) : List ℤ :=
  (s.bugs.rows.filter fun b => s.duplicateOf id = some b.id).map (·.id)

/-- The step of the query's `family`. -/
def duplicatesOf (s : BugStore) (id : ℤ) : List ℤ :=
  (s.bugs.rows.filter fun b => b.triage.duplicateOfId = some id).map (·.id)

def familyAncestors (s : BugStore) (id : ℤ) : List ℤ :=
  closure s.canonicalsOf s.bugs.rows.length ((s.bugs.lookup id).toList.map (·.id))

def familyIds (s : BugStore) (id : ℤ) : List ℤ :=
  closure s.duplicatesOf s.bugs.rows.length (s.familyAncestors id)

/-- The bug, the bugs it is a duplicate of, and every duplicate of those. -/
def bugFamily (s : BugStore) (id : ℤ) : List BugRow :=
  s.bugs.rows.filter fun b => b.id ∈ s.familyIds id

/-! ### Links -/

def linked (s : BugStore) (reviewId bugId : ℤ) : Bool :=
  s.bugReviews.any fun l => l.reviewId = reviewId ∧ l.bugId = bugId

/-- The review counts as the one that found the bug. -/
def credited (s : BugStore) (reviewId bugId : ℤ) : Bool :=
  s.bugReviews.any fun l => l.reviewId = reviewId ∧ l.bugId = bugId ∧ l.isNewlyDiscovered

end BugStore

/-! ### Runs -/

inductive FoldCall where
  | worker (call : BugCall)
  | linkReviewToBug (bugClaim : Option BugAnalysisClaim) (claim : Option PatchsetReviewClaim)
      (reviewId bugId : ℤ) (isNewlyDiscovered : Bool)
  | markBugAsDuplicate (claim : Option BugAnalysisClaim) (params : MarkDuplicateBugParams)
  deriving DecidableEq, Repr

namespace FoldCall

def exec (s : BugStore) (now : ℤ) : FoldCall → Except String BugStore
  | worker call => call.exec s now
  | linkReviewToBug bugClaim claim reviewId bugId isNewlyDiscovered =>
    s.linkReviewToBug bugClaim claim reviewId bugId isNewlyDiscovered now
  | markBugAsDuplicate claim params => (s.markBugAsDuplicate claim params now).map (·.2)

def step (s : BugStore) (now : ℤ) (call : FoldCall) : BugStore :=
  match call.exec s now with
  | .ok s' => s'
  | .error _ => s

/-- The call moves a bug that already is a duplicate, `bugId` or one that `bugId` is a duplicate
of, out of its family. -/
def Reparents (s : BugStore) (now bugId : ℤ) : FoldCall → Prop
  | markBugAsDuplicate claim params =>
    (∃ s', s.markBugAsDuplicate claim params now = .ok (true, s')) ∧
      Below s.duplicateOf bugId params.ephemeralId ∧
      s.duplicateOf params.ephemeralId ≠ none ∧
      ¬Below s.duplicateOf params.ephemeralId params.canonicalId
  | _ => False

end FoldCall

/-- A run: each call with the clock it reads. -/
def BugStore.runFolds (s : BugStore) : List (ℤ × FoldCall) → BugStore
  | [] => s
  | (now, call) :: rest => (call.step s now).runFolds rest

/-- No call of the run reparents the bug. -/
def NeverReparented (bugId : ℤ) : BugStore → List (ℤ × FoldCall) → Prop
  | _, [] => True
  | s, (now, call) :: rest =>
    ¬call.Reparents s now bugId ∧ NeverReparented bugId (call.step s now) rest

end Sashiko
