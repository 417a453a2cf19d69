import Sashiko.Db.Store

/-! The database calls of a patchset review. Each call is one transaction, so one step; a call
that fails rolls back. References to rows of tables that are not kept here (interactions,
baselines) are taken to resolve. -/

namespace Sashiko

namespace Store

/-! ### Generations -/

def nextGeneration : Option ℤ → ℤ
  | none => 1
  | some value => value + 1

def allocatePatchsetReviewGenInTx (s : Store) (id : ℤ) : ℤ × Store :=
  (nextGeneration s.patchsetGenSeq,
    { s with
      patchsetGenSeq := some (nextGeneration s.patchsetGenSeq)
      patchsetActiveGen :=
        Function.update s.patchsetActiveGen id (some (nextGeneration s.patchsetGenSeq)) })

theorem id_withStatus (status : Option StatusText) (ps : PatchsetRow) :
    ({ ps with status := status } : PatchsetRow).id = ps.id := rfl

def setPatchsets (s : Store) (p : PatchsetRow → Bool) (f : PatchsetRow → PatchsetRow)
    (hf : ∀ ps, (f ps).id = ps.id := by intro _; rfl) : Store :=
  { s with patchsets := s.patchsets.update p f hf }

/-- `UPDATE patchsets SET f WHERE p`, and a new generation when it changed a row. -/
def enterReview (s : Store) (id : ℤ) (p : PatchsetRow → Bool) (f : PatchsetRow → PatchsetRow)
    (hf : ∀ ps, (f ps).id = ps.id) : Option ℤ × Store :=
  if s.patchsets.any p then
    match (s.setPatchsets p f hf).allocatePatchsetReviewGenInTx id with
    | (generation, s) => (some generation, s)
  else (none, s)

def claimPatchsetForReviewWithGen (s : Store) (id : ℤ) : Option ℤ × Store :=
  s.enterReview id (fun ps => ps.id = id ∧ ps.status = some .pending)
    (fun ps => { ps with status := some .inReview, failedReason := none }) fun _ => rfl

def enterPatchsetReviewWithGen (s : Store) (id : ℤ) : Option ℤ × Store :=
  s.enterReview id (fun ps => ps.id = id ∧ ps.status ≠ some .cancelled)
    (fun ps => { ps with status := some .inReview }) fun _ => rfl

def releasePatchsetClaim (s : Store) (claim : Option PatchsetReviewClaim) : Store :=
  match claim with
  | some claim =>
    if s.patchsetActiveGen claim.patchsetId = some claim.generation ∧
        s.patchsetIs claim.patchsetId .inReview = false then s.clearActiveGen claim.patchsetId
    else s
  | none => s

/-! ### Patchset outcomes -/

def setOutcome (s : Store) (p : PatchsetRow → Bool) (status : StatusText)
    (failedReason : Option String) : Bool × Store :=
  (s.patchsets.any p,
    s.setPatchsets p fun ps => { ps with status := some status, failedReason := failedReason })

def completePatchsetReview (s : Store) (claim : Option PatchsetReviewClaim) (id : ℤ)
    (status : StatusText) (failedReason : Option String) : Bool × Store :=
  if status = .cancelled then s.setOutcome (fun ps => ps.id = id) status failedReason
  else
    match claim with
    | some claim =>
      if claim.patchsetId ≠ id then (false, s)
      else
        s.setOutcome (fun ps => ps.id = id ∧ ps.status = some .inReview ∧
          s.patchsetActiveGen ps.id = some claim.generation) status failedReason
    | none =>
      -- a NULL status compares as neither equal nor different
      s.setOutcome (fun ps => ps.id = id ∧ ps.status ≠ none ∧ ps.status ≠ some .cancelled) status
        failedReason

def cancelAllowed (force : Bool) : Option StatusText → Bool
  | some .fetching | some .pending | some .awaitingReview | some .incomplete => true
  | some .inReview => force
  | _ => false

/-- `UPDATE reviews SET f WHERE p`; no statement moves a review to another patchset. -/
def setReviews (s : Store) (p : ReviewRow → Bool) (f : ReviewRow → ReviewRow)
    (hf : ∀ r, (f r).id = r.id ∧ (f r).patchsetId = r.patchsetId := by
      intro _; exact ⟨rfl, rfl⟩) : Store :=
  { s with reviews := s.reviews.update p f fun r => (hf r).1 }

def setPatches (s : Store) (p : PatchRow → Bool) (f : PatchRow → PatchRow)
    (hf : ∀ r, (f r).id = r.id ∧ (f r).patchsetId = r.patchsetId := by
      intro _; exact ⟨rfl, rfl⟩) : Store :=
  { s with patches := s.patches.update p f fun r => (hf r).1 }

def unfinishedReview (id : ℤ) (r : ReviewRow) : Bool :=
  r.patchsetId = id ∧ (r.status = some .pending ∨ r.status = some .inReview)

def cancelReviewRows (s : Store) (id : ℤ) : Store :=
  s.setReviews (unfinishedReview id) fun r =>
    { r with status := some .cancelled, interactionId := none }

def unfinishedPatch (s : Store) (id : ℤ) (p : PatchRow) : Bool :=
  p.patchsetId = id ∧ (p.status = none ∨ p.status = some .pending ∨ p.status = some .inReview ∨
    p.status = some .reviewing ∨
    (p.status = some .applied ∧ s.hasReviewedReview p.patchsetId p.id = false))

def cancelPatchRows (s : Store) (id : ℤ) : Store :=
  s.setPatches (s.unfinishedPatch id) fun p => { p with status := some .cancelled }

def cancelPatchset (s : Store) (id : ℤ) (force : Bool) : Bool × Store :=
  if s.patchsets.any fun ps => ps.id = id ∧ cancelAllowed force ps.status = true then
    (true,
      (((((s.setPatchsets (fun ps => ps.id = id ∧ cancelAllowed force ps.status = true) fun ps =>
          { ps with status := some .cancelled }).clearActiveGen id).deleteChildrenWhere
        (unfinishedReview id)).cancelReviewRows id).cancelPatchRows id))
  else (false, s)

def stuckPatch (s : Store) (id : ℤ) (p : PatchRow) : Bool :=
  p.patchsetId = id ∧ (p.status = some .failed ∨ p.status = some .cancelled ∨
    p.status = some .inReview ∨ p.status = some .error ∨
    (p.status = some .applied ∧ s.hasReviewedReview id p.id = false))

def resetPatchRows (s : Store) (id : ℤ) : Store :=
  s.setPatches (s.stuckPatch id) fun p => { p with status := some .pending, applyError := none }

/-- The attempts that a rerun deletes. -/
def abandonedReview (id : ℤ) (r : ReviewRow) : Bool :=
  r.patchsetId = id ∧
    (((r.status = some .failed ∨ r.status = some .failedToApply) ∧ r.interactionId = none) ∨
      r.status = some .inReview ∨ r.status = some .cancelled)

/-- The high-water mark keeps the ids of the rows deleted here from coming back. -/
def deleteAbandonedReviews (s : Store) (id : ℤ) : Store :=
  { s with
    reviewsMaxId := some (match s.reviewsMaxId with
      | none => s.reviews.maxKey
      | some value => max value s.reviews.maxKey)
    reviews := s.reviews.delete (abandonedReview id) }

def resetPatchsetReviewState (s : Store) (id : ℤ) : Store :=
  (((s.clearActiveGen id).resetPatchRows id).deleteChildrenWhere
    (abandonedReview id)).deleteAbandonedReviews id

def rerunPatchset (s : Store) (id : ℤ) : Store :=
  (if s.getPatchsetStatus id = some .reviewed then
    (s.setPatchsets (fun ps => ps.id = id) fun ps =>
        { ps with status := some .pending, failedReason := none }).setPatchsets
      (fun ps => ps.id = id) fun ps =>
        { ps with targetReviewCount := some (ps.targetReviewCount.getD 1 + 1) }
  else
    s.setPatchsets (fun ps => ps.id = id) fun ps =>
      { ps with status := some .pending, failedReason := none }).resetPatchsetReviewState id

/-! ### Writes through a worker's handle -/

def clearAbortedReviewArtifactsInTx (s : Store) (claim : Option PatchsetReviewClaim)
    (reviewId : ℤ) : Except String Store :=
  if s.reviews.any fun r => r.id = reviewId && s.reviewWritable claim r then
    .ok ((s.setReviews (fun r => r.id = reviewId && s.reviewWritable claim r) fun r =>
      { r with status := some .inReview, interactionId := none }).deleteAbortedReviewChildren
        reviewId)
  else .error s!"review {reviewId} no longer exists or was superseded"

def claimPendingReviewIdInTx (s : Store) (claim : Option PatchsetReviewClaim) (patchsetId : ℤ)
    (patchId : Option ℤ) : Except String (Option ℤ × Store) :=
  match s.reviews.firstWhere fun r => r.patchsetId = patchsetId ∧ r.patchId = patchId ∧
      r.status = some .pending ∧ s.patchsetIs r.patchsetId .cancelled = false with
  | some r => do
    let s ← (s.setReviews (fun x => x.id = r.id) fun x =>
      { x with status := some .inReview, interactionId := none }).clearAbortedReviewArtifactsInTx
        claim r.id
    return (some r.id, s)
  | none => return (none, s)

/-- What a review row is created or claimed for. -/
structure ReviewRequest where
  patchsetId : ℤ
  patchId : Option ℤ
  provider : String
  model : String
  baselineId : Option ℤ
  promptsHash : Option String
  deriving DecidableEq, Repr

def insertInReview (s : Store) (req : ReviewRequest) (now : ℤ) : Store :=
  { s with reviews := s.reviews.insertNext (s.reviewsMaxId.getD 0) fun id =>
             { id := id, patchsetId := req.patchsetId, patchId := req.patchId, summary := none,
               resultDescription := none, createdAt := now, interactionId := none,
               status := some .inReview, logs := none, inlineReview := none,
               baselineId := req.baselineId, model := req.model, promptsHash := req.promptsHash,
               provider := req.provider } }

def claimOrCreateInReview (s : Store) (claim : Option PatchsetReviewClaim) (req : ReviewRequest)
    (now : ℤ) : Except String (ℤ × Store) :=
  if s.isPatchsetClaimActive claim req.patchsetId then do
    match ← s.claimPendingReviewIdInTx claim req.patchsetId req.patchId with
    | (some id, s) =>
      return (id, s.setReviews (fun r => r.id = id) fun r =>
        { r with
          provider := req.provider, model := req.model, baselineId := req.baselineId,
          promptsHash := req.promptsHash })
    | (none, s) =>
      return (s.reviews.nextKey (s.reviewsMaxId.getD 0), s.insertInReview req now)
  else .error s!"patchset {req.patchsetId} no longer exists or was cancelled/superseded"

def updateReviewStatus (s : Store) (claim : Option PatchsetReviewClaim) (reviewId : ℤ)
    (status : StatusText) (logs : Option String) : Store :=
  s.setReviews (fun r => r.id = reviewId && s.reviewStatusWritable claim status r) fun r =>
    { r with status := some status, logs := logs.or r.logs }

/-- What `complete_review` records. -/
structure ReviewResult where
  status : StatusText
  result : String
  summary : Option String
  interactionId : Option String
  inlineReview : Option String
  logs : Option String
  deriving DecidableEq, Repr

def completeReview (s : Store) (claim : Option PatchsetReviewClaim) (reviewId : ℤ)
    (result : ReviewResult) : Except String Store :=
  if s.reviews.any fun r => r.id = reviewId && s.reviewStatusWritable claim result.status r then
    .ok (s.setReviews
      (fun r => r.id = reviewId && s.reviewStatusWritable claim result.status r) fun r =>
        { r with
          status := some result.status, resultDescription := some result.result,
          summary := result.summary, interactionId := result.interactionId,
          inlineReview := result.inlineReview, logs := result.logs })
  else .error s!"review {reviewId} no longer exists or was superseded"

structure Finding where
  reviewId : ℤ
  severity : Severity
  severityExplanation : Option String
  problem : String
  preexisting : Option Bool
  locations : Option Json
  deriving DecidableEq, Repr

def createFinding (s : Store) (claim : Option PatchsetReviewClaim) (finding : Finding) :
    Except String Store :=
  if s.reviews.any fun r => r.id = finding.reviewId && s.reviewWritable claim r then
    .ok { s with findings := s.findings.insertNext 0 fun id =>
                   { id := id, reviewId := finding.reviewId, severity := finding.severity.toInt,
                     severityExplanation := finding.severityExplanation,
                     problem := finding.problem,
                     preexisting := finding.preexisting.map fun b => if b then 1 else 0,
                     locations := finding.locations.map Json.render } }
  else .error s!"review {finding.reviewId} no longer exists for finding insertion"

structure ToolUsage where
  reviewId : ℤ
  provider : String
  model : String
  toolName : String
  arguments : Option String
  outputLength : ℤ
  deriving DecidableEq, Repr

def createToolUsage (s : Store) (claim : Option PatchsetReviewClaim) (usage : ToolUsage)
    (now : ℤ) : Store :=
  if s.reviews.any fun r => r.id = usage.reviewId && s.reviewWritable claim r then
    { s with toolUsages := s.toolUsages.insertNext 0 fun id =>
               { id := id, reviewId := usage.reviewId, provider := usage.provider,
                 model := usage.model, toolName := usage.toolName, arguments := usage.arguments,
                 outputLength := usage.outputLength, createdAt := now } }
  else s

/-- Names no claim: the only write of a review's rows that does not look at the handle. -/
def updateToolUsageLength (s : Store) (reviewId : ℤ) (toolName arguments : String)
    (outputLength : ℕ) : Store :=
  match s.toolUsages.lastWhere fun u => u.reviewId = reviewId ∧ u.toolName = toolName ∧
      u.arguments = some arguments ∧ u.outputLength = 0 with
  | some u =>
    { s with toolUsages := s.toolUsages.update (fun x => x.id = u.id) fun x =>
               { x with outputLength := outputLength } }
  | none => s

/-- The WHERE clause of `update_patch_status`. -/
def patchStatusWritable (s : Store) (claim : Option PatchsetReviewClaim) (status : StatusText)
    (p : PatchRow) : Bool :=
  (status = .cancelled && (p.status ≠ some .reviewed ∧ p.status ≠ some .skipped ∧
      p.status ≠ some .failed) && s.patchsetIs p.patchsetId .cancelled) ||
    (status ≠ .cancelled && (status = .pending || p.status ≠ some .cancelled) &&
      !s.patchsetIs p.patchsetId .cancelled && s.claimAllows claim p.patchsetId)

def updatePatchStatus (s : Store) (claim : Option PatchsetReviewClaim) (patchId : ℤ)
    (status : StatusText) : Store :=
  s.setPatches (fun p => p.id = patchId && s.patchStatusWritable claim status p) fun p =>
    { p with status := some status }

def failInReviewRow (s : Store) (reviewId : ℤ) (reason : String) : Store :=
  (s.deleteAbortedReviewChildren reviewId).setReviews
    (fun r => r.id = reviewId ∧ r.status = some .inReview) fun r =>
      { r with
        status := some .failed, resultDescription := some reason, interactionId := none }

def failOrphanedInReviewRows (s : Store) (claim : Option PatchsetReviewClaim) (patchsetId : ℤ)
    (reason : String) : Store :=
  if s.isPatchsetClaimActive claim patchsetId then
    (s.reviews.rows.filter fun r =>
        r.patchsetId = patchsetId ∧ r.status = some .inReview).foldl
      (fun s r => s.failInReviewRow r.id reason) s
  else s

inductive PanickedPatchOutcome where
  | failedInFlightReview
  | keptCompletedReview
  | noUsableReview
  | superseded
  deriving DecidableEq, Repr

def settlePanickedPatchReview (s : Store) (claim : Option PatchsetReviewClaim)
    (patchsetId patchId : ℤ) (reason : String) : PanickedPatchOutcome × Store :=
  if s.isPatchsetClaimActive claim patchsetId then
    match s.reviews.lastWhere fun r =>
        r.patchsetId = patchsetId ∧ r.patchId = some patchId with
    | some r =>
      if r.status = some .reviewed then
        (.keptCompletedReview, s.updatePatchStatus claim patchId .reviewed)
      else if r.status = some .inReview then
        (.failedInFlightReview,
          (s.failInReviewRow r.id reason).updatePatchStatus claim patchId .failed)
      else (.noUsableReview, s.updatePatchStatus claim patchId .failed)
    | none => (.noUsableReview, s.updatePatchStatus claim patchId .failed)
  else (.superseded, s)

end Store

end Sashiko
