import Sashiko.Review.Provenance
import Sashiko.Review.Clusters
import Mathlib.Data.List.Basic

/-! How a stage's output enters the review state. -/

namespace Sashiko

/-! ### Findings about a Fixes trailer -/

/-- What the guard takes from outside: the pattern of a problem text about a Fixes trailer, and
the finding with its trailers rewritten from git, with whether it suggests an invalid commit. -/
structure FixesGuard where
  problemMatches : String → Bool
  sanitizeTexts : Json → Json × Bool

namespace FixesGuard

def problemText (finding : Json) : String := (finding.getStr "problem").getD ""

def targetsCommitMessage (finding : Json) : Bool :=
  match finding.getArray "locations" with
  | some locs =>
    locs ≠ [] && locs.all fun loc =>
      (loc.getStr "file").any (eqIgnoreAsciiCase · "commit_message")
  | none => false

def isFixesTrailerFinding (guard : FixesGuard) (finding : Json) : Bool :=
  guard.problemMatches (problemText finding) ||
    (targetsCommitMessage finding && containsText (asciiLower (problemText finding)) "fixes")

/-- Copies the fields that are there. -/
def copyFields (keys : List String) (source target : Json) : Json :=
  keys.foldl (fun target key =>
    match source.get? key with
    | some value => target.insert key value
    | none => target) target

def rejectedFixesFindingToDismissal (finding : Json) : Json :=
  copyFields ["source_ids", "raw_source_ids", "prior_source_ids", "cluster_ids", "stage",
      "stages", "prompts"] finding
    (.obj [("description", .str
        ((finding.getStr "problem").getD "Invalid Fixes: trailer suggestion")),
      ("locations", (finding.get? "locations").getD (.arr [])),
      ("reasoning", .str ("Dismissed by deterministic Fixes guard: the suggested Fixes commit " ++
        "SHA could not be resolved in the repository or belongs to an unmerged patch in the " ++
        "current series.")),
      ("type", .str "Fixes Trailer")])

def retained (guard : FixesGuard) (finding : Json) : Option Json :=
  if guard.isFixesTrailerFinding finding then
    if (guard.sanitizeTexts finding).2 then none
    else
      some (((guard.sanitizeTexts finding).1.insert "severity" (.str "Low")).insert "preexisting"
        (.bool false))
  else some finding

def rejected (guard : FixesGuard) (finding : Json) : Option Json :=
  if guard.isFixesTrailerFinding finding && (guard.sanitizeTexts finding).2 then
    some (rejectedFixesFindingToDismissal (guard.sanitizeTexts finding).1)
  else none

def sanitizeFixesFindingsWithDismissals (guard : FixesGuard)
    (findings dismissedConcerns : List Json) : List Json × List Json :=
  (findings.filterMap guard.retained, dismissedConcerns ++ findings.filterMap guard.rejected)

theorem sanitize_of_no_trailer {guard : FixesGuard} {findings : List Json}
    (h : ∀ finding ∈ findings, guard.isFixesTrailerFinding finding = false)
    (dismissedConcerns : List Json) :
    guard.sanitizeFixesFindingsWithDismissals findings dismissedConcerns =
      (findings, dismissedConcerns) := by
  have hkeep : findings.filterMap guard.retained = findings := by
    rw [List.filterMap_congr fun x hx => show guard.retained x = some x by simp [retained, h x hx],
      List.filterMap_some]
  have hdrop : findings.filterMap guard.rejected = [] :=
    List.filterMap_eq_nil_iff.mpr fun x hx => by simp [rejected, h x hx]
  rw [sanitizeFixesFindingsWithDismissals, hkeep, hdrop, List.append_nil]

end FixesGuard

section Reduce

variable (stageLookup : String → Option AnalysisStage) (guard : FixesGuard)

def sanitizedFindings (state : LinuxPatchReviewState) (findings dismissed : List Json) :
    List Json × List Json :=
  if state.project ≠ "gcc" then guard.sanitizeFixesFindingsWithDismissals findings dismissed
  else (findings, dismissed)

/-! ### Post-verification batches and their stages -/

def postVerificationStageNames : List String :=
  (List.range maxPostVerificationStages).map fun idx => "post-verification-" ++ toString (idx + 1)

def assignStage (stage iid : String) (items : List Json) : List Json :=
  items.map fun ic =>
    if ic.getStr "id" = some iid then ic.insert "assigned_stage" (.str stage) else ic

def assignBatchStage (items : List Json) (planned : List Json × String) : List Json :=
  (planned.1.filterMap (·.getStr "id")).foldl (fun items iid => assignStage planned.2 iid items)
    items

def assignInconclusiveConcernsStages (inconclusiveConcerns : List Json) : List Json :=
  ((batchInconclusiveConcernsBySeverity inconclusiveConcerns).zip
    postVerificationStageNames).foldl assignBatchStage inconclusiveConcerns

/-! ### Provenance of a stage's output -/

def enrichFinding (primary : List Json) (selectedGuides : List String) (finding : Json) : Json :=
  ((enrichItemProvenance stageLookup finding primary [] selectedGuides).remove
    "prior_discussion_context").remove "authority_evidence"

def enrichDismissed (primary : List Json) (selectedGuides : List String) (dismissed : Json) :
    Json :=
  (enrichItemProvenance stageLookup dismissed primary [] selectedGuides).remove
    "prior_discussion_context"

def stampFinding (idPrefix stageKey stageName : String) (base idx : ℕ) (finding : Json) : Json :=
  (((finding.insert "id" (.str (idPrefix ++ toString (base + idx + 1)))).insert "stage_item_id"
    (.str (idPrefix ++ toString (base + idx + 1)))).insert "origin" (.str stageName)).insert
      stageKey (.str stageName)

def stampItem (idPrefix stageKey stageName : String) (base idx : ℕ) (item : Json) : Json :=
  ((item.insert "id" (.str (idPrefix ++ toString (base + idx + 1)))).insert "origin"
    (.str stageName)).insert stageKey (.str stageName)

/-- Findings come from raised concerns alone, dismissals from dismissed candidates alone. -/
def verifiedItems (state : LinuxPatchReviewState) (out : VerificationOutput) :
    List Json × List Json :=
  sanitizedFindings guard state
    (out.findings.map (enrichFinding stageLookup state.allConcerns state.selectedGuides))
    (out.dismissedConcerns.map
      (enrichDismissed stageLookup state.allDismissedConcerns state.selectedGuides))

def enrichInconclusive (state : LinuxPatchReviewState) (stageName : String) (idx : ℕ)
    (inconclusive : Json) : Json :=
  stampItem "I" "verification_stage" stageName state.inconclusiveConcerns.length idx
    (enrichItemProvenance stageLookup inconclusive state.allConcerns state.allDismissedConcerns
      state.selectedGuides)

def enrichVerificationOutputForStage (state : LinuxPatchReviewState) (stageName : String)
    (out : VerificationOutput) : VerificationOutput where
  findings := (verifiedItems stageLookup guard state out).1.mapIdx
    (stampFinding "VF" "verification_stage" stageName state.verificationFindings.length)
  inconclusiveConcerns := assignInconclusiveConcernsStages
    (out.inconclusiveConcerns.mapIdx (enrichInconclusive stageLookup state stageName))
  dismissedIds := out.dismissedIds
  dismissedConcerns := (verifiedItems stageLookup guard state out).2.mapIdx
    (stampItem "VD" "verification_stage" stageName state.verificationDismissed.length)

/-! ### Recording findings -/

/-- A verification id stays with the finding as the id of its stage item. -/
def keepStageItemId (finding : Json) : Json :=
  match finding.getStr "id" with
  | some id =>
    if startsWithText id "VF" || startsWithText id "PVF" then
      finding.insert "stage_item_id" (.str id)
    else finding
  | none => finding

def preexistingConcern (finding : Json) : Json :=
  FixesGuard.copyFields ["id", "stage_item_id", "source_ids", "raw_source_ids",
      "prior_source_ids", "origin", "post_verification_stage", "stage", "stages", "prompts"] finding
    (.obj [("description", .str ((finding.getStr "problem").getD "")),
      ("locations", (finding.get? "locations").getD (.arr [])),
      ("preexisting", .bool true),
      ("reasoning", .str ((finding.getStr "severity_explanation").getD "")),
      ("severity", .str ((finding.getStr "severity").getD "Unknown")),
      ("type", .str ((finding.getStr "problem").getD "Pre-existing Issue"))])

def isPreexisting (finding : Json) : Bool :=
  ((finding.get? "preexisting").bind Json.asBool).getD false

def recordVerifiedFinding (state : LinuxPatchReviewState) (finding : Json) :
    LinuxPatchReviewState :=
  if isPreexisting (keepStageItemId finding) then
    { state with
      concerns := state.concerns ++ [preexistingConcern (keepStageItemId finding)]
      findings :=
        if state.reportPreexisting then state.findings ++ [keepStageItemId finding]
        else state.findings }
  else { state with findings := state.findings ++ [keepStageItemId finding] }

def recordVerifiedFindings (state : LinuxPatchReviewState) (findings : List Json) :
    LinuxPatchReviewState :=
  findings.foldl recordVerifiedFinding state

/-! ### Verification and post-verification -/

def recordVerification (state : LinuxPatchReviewState) (out : VerificationOutput) :
    LinuxPatchReviewState :=
  let recorded := recordVerifiedFindings
    { state with
      verificationFindings := state.verificationFindings ++ out.findings
      verificationDismissed := state.verificationDismissed ++ out.dismissedConcerns }
    out.findings
  { recorded with
    inconclusiveConcerns :=
      assignInconclusiveConcernsStages (recorded.inconclusiveConcerns ++ out.inconclusiveConcerns)
    deduplicatedDismissedConcerns :=
      recorded.deduplicatedDismissedConcerns ++ out.dismissedConcerns }

def applyVerificationStageOutputForStage (state : LinuxPatchReviewState) (stageName : String)
    (out : VerificationOutput) : LinuxPatchReviewState :=
  recordVerification state
    (enrichVerificationOutputForStage stageLookup guard state stageName
      (expandDirectDismissedIds state out))

def applyVerificationShardOutput (state : LinuxPatchReviewState) (stageName : String)
    (shardClusters : List Json) (out : VerificationOutput) : LinuxPatchReviewState :=
  applyVerificationStageOutputForStage stageLookup guard state stageName
    (expandVerificationShardOutput shardClusters out)

def postVerifiedItems (state : LinuxPatchReviewState) (batch : List Json)
    (out : PostVerificationOutput) : List Json × List Json :=
  sanitizedFindings guard state
    (out.findings.map (enrichFinding stageLookup batch state.selectedGuides))
    (out.dismissedConcerns.map (enrichDismissed stageLookup batch state.selectedGuides))

def enrichPostVerificationOutput (state : LinuxPatchReviewState) (stageName : String)
    (batch : List Json) (out : PostVerificationOutput) : PostVerificationOutput where
  findings := (postVerifiedItems stageLookup guard state batch out).1.mapIdx
    (stampFinding "PVF" "post_verification_stage" stageName state.postVerificationFindings.length)
  dismissedConcerns := (postVerifiedItems stageLookup guard state batch out).2.mapIdx
    (stampItem "PVD" "post_verification_stage" stageName state.postVerificationDismissed.length)

def recordPostVerification (state : LinuxPatchReviewState) (out : PostVerificationOutput) :
    LinuxPatchReviewState :=
  let recorded := recordVerifiedFindings
    { state with
      postVerificationFindings := state.postVerificationFindings ++ out.findings
      postVerificationDismissed := state.postVerificationDismissed ++ out.dismissedConcerns }
    out.findings
  { recorded with
    deduplicatedDismissedConcerns :=
      recorded.deduplicatedDismissedConcerns ++ out.dismissedConcerns }

def applyPostVerificationStageOutput (state : LinuxPatchReviewState) (stageName : String)
    (batch : List Json) (out : PostVerificationOutput) : LinuxPatchReviewState :=
  recordPostVerification state
    (enrichPostVerificationOutput stageLookup guard state stageName batch out)

end Reduce

end Sashiko
