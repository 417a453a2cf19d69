import Mathlib.Algebra.GroupWithZero.Nat
import Sashiko.Review.State

/-! Candidate clusters: how deduplication builds them, how verification is split into shards, and
how an output that names clusters is rewritten to name the raw items in them. -/

namespace Sashiko

/-! ### Building clusters -/

def clusterJson (gid title : String) (sourceIds : List String)
    (concerns dismissedConcerns : List Json) : Json :=
  .obj [("concerns", .arr concerns), ("dismissed_concerns", .arr dismissedConcerns),
    ("id", .str gid), ("source_ids", Json.strings sourceIds), ("title", .str title)]

def clusterId (idx : ℕ) : String := "G" ++ toString (idx + 1)

def namedIn (sids : List String) (item : Json) : Bool :=
  (item.getStr "id").any (rustTrim · ∈ sids)

def deduplicatedCluster (state : LinuxPatchReviewState) (idx : ℕ)
    (spec : DeduplicationClusterSpec) : Json :=
  clusterJson (clusterId idx) (rustTrim spec.title) (spec.sourceIds.foldl pushUniqueString [])
    (state.allConcerns.filter (namedIn (spec.sourceIds.foldl pushUniqueString [])))
    (state.allDismissedConcerns.filter (namedIn (spec.sourceIds.foldl pushUniqueString [])))

def applyDeduplicationStageOutput (state : LinuxPatchReviewState) (out : DeduplicationOutput) :
    LinuxPatchReviewState :=
  { state with deduplicatedClusters := out.clusters.mapIdx (deduplicatedCluster state) }

def hasPriorSurvivingItems (state : LinuxPatchReviewState) : Bool :=
  ((state.allConcerns ++ state.allDismissedConcerns).filterMap (·.getStr "id")).any fun id =>
    startsWithText id "PC" || startsWithText id "PD"

def deduplicationFastPathMaxItems : ℕ := 4

def shouldSkipDeduplication (state : LinuxPatchReviewState) : Bool :=
  (state.allConcerns ++ state.allDismissedConcerns).length = 0 ||
    ((state.allConcerns ++ state.allDismissedConcerns).length ≤ deduplicationFastPathMaxItems &&
      !hasPriorSurvivingItems state)

/-- The first of the texts under `keys` that is not blank, trimmed. -/
def firstText (keys : List String) (item : Json) : Option String :=
  keys.findSome? fun key => ((item.getStr key).map rustTrim).filter (· ≠ "")

def defaultClusterTitle (item : Json) : String :=
  (firstText ["description", "problem", "type"] item).getD "Candidate issue"

/-- The id of an item, or the one its place gives it. -/
def rawId (letter : String) (idx : ℕ) (item : Json) : String :=
  (trimmedId item).getD (letter ++ toString (idx + 1))

def buildSingletonClusters (state : LinuxPatchReviewState) : List Json :=
  (state.allConcerns.mapIdx fun idx c =>
    clusterJson (clusterId idx) (defaultClusterTitle c) [rawId "C" idx c] [c] []) ++
  (state.allDismissedConcerns.mapIdx fun idx d =>
    clusterJson (clusterId (state.allConcerns.length + idx)) (defaultClusterTitle d)
      [rawId "D" (state.allConcerns.length + idx) d] [] [d])

def effectiveClusters (state : LinuxPatchReviewState) : List Json :=
  if state.deduplicatedClusters ≠ [] then state.deduplicatedClusters
  else buildSingletonClusters state

/-! ### Shards and batches -/

/-- Consecutive slices of the given sizes. -/
def slices {α : Type} : List ℕ → List α → List (List α)
  | [], _ => []
  | n :: sizes, xs => xs.take n :: slices sizes (xs.drop n)

theorem flatten_slices {α : Type} (sizes : List ℕ) :
    ∀ xs : List α, sizes.sum = xs.length → (slices sizes xs).flatten = xs := by
  induction sizes with
  | nil =>
    intro xs h
    exact (List.length_eq_zero_iff.mp h.symm).symm
  | cons n sizes ih =>
    intro xs h
    rw [List.sum_cons] at h
    have hrest : sizes.sum = (xs.drop n).length := by
      rw [List.length_drop]
      omega
    rw [slices, List.flatten_cons, ih _ hrest, List.take_append_drop]

def maxVerificationShardSize : ℕ := 10

def maxVerificationStages : ℕ := 16

def maxPostVerificationStages : ℕ := 10

def firstClusterFile (cluster : Json) : String :=
  ((["concerns", "dismissed_concerns"].flatMap fun key => (cluster.getArray key).getD []).flatMap
    fun item => ((item.getArray "locations").getD []).filterMap (firstText ["file"])).head?.getD ""

def verificationShardCount (total : ℕ) : ℕ :=
  min ((total + maxVerificationShardSize - 1) / maxVerificationShardSize) maxVerificationStages

def verificationShardSizes (total : ℕ) : List ℕ :=
  (List.range (verificationShardCount total)).map fun shardIdx =>
    total / verificationShardCount total +
      if shardIdx < total % verificationShardCount total then 1 else 0

def batchClustersForVerification (clusters : List Json) : List (List Json) :=
  if clusters = [] then []
  else if clusters.length ≤ maxVerificationShardSize then [clusters]
  else
    slices (verificationShardSizes clusters.length)
      (clusters.mergeSort fun a b => !textLt (firstClusterFile b) (firstClusterFile a))

def estimatedSeverityRank (item : Json) : ℕ :=
  match asciiLower (rustTrim ((((item.get? "estimated_severity").or
      (item.get? "severity")).bind Json.asStr).getD "Medium")) with
  | "critical" => 4
  | "high" => 3
  | "medium" => 2
  | "low" => 1
  | _ => 2

def tailStages (total : ℕ) : ℕ := min (total - maxPostVerificationStages) maxPostVerificationStages

def soloStages (total : ℕ) : ℕ := maxPostVerificationStages - tailStages total

def tailSizes (total : ℕ) : List ℕ :=
  (List.range (tailStages total)).map fun stageIdx =>
    (total - soloStages total) / tailStages total +
      if tailStages total - (total - soloStages total) % tailStages total ≤ stageIdx then 1 else 0

/-- The most severe items get a stage each, the others share the last stages. -/
def severityBatches (sorted : List Json) : List (List Json) :=
  (sorted.take (soloStages sorted.length)).map (fun item => [item]) ++
    slices (tailSizes sorted.length) (sorted.drop (soloStages sorted.length))

def batchInconclusiveConcernsBySeverity (inconclusiveConcerns : List Json) : List (List Json) :=
  if inconclusiveConcerns.length ≤ maxPostVerificationStages then
    inconclusiveConcerns.map fun item => [item]
  else
    severityBatches
      (inconclusiveConcerns.mergeSort fun a b =>
        estimatedSeverityRank b ≤ estimatedSeverityRank a)

/-! ### From clusters back to raw items -/

def pushUniqueLocations (locations : List Json) (item : Json) : List Json :=
  ((item.getArray "locations").getD []).foldl
    (fun locations loc => if loc ∈ locations then locations else locations ++ [loc]) locations

def materializedReasoning (items : List Json) : String :=
  String.intercalate "\n\n" ((items.filterMap (firstText ["reasoning"])).foldl pushUniqueString [])

def materializeDismissalFromItems (clusterId fallbackTitle : Option String) (items : List Json) :
    Option Json :=
  if items = [] then none
  else
    some
      (match clusterId with
      | some cid => (dismissal items).insert "cluster_ids" (Json.strings [cid])
      | none => dismissal items)
where
  dismissal (items : List Json) : Json :=
    .obj [("description", .str (((items.findSome? (firstText ["description"])).or
            ((fallbackTitle.map rustTrim).filter (· ≠ ""))).getD "")),
      ("locations", .arr (items.foldl pushUniqueLocations [])),
      ("reasoning", .str (materializedReasoning items)),
      ("source_ids", Json.strings ((items.filterMap (·.getStr "id")).foldl pushUniqueString [])),
      ("type", .str ((items.findSome? (firstText ["type"])).getD "General"))]

def findCluster (shardClusters : List Json) (id : String) : Option Json :=
  shardClusters.find? fun c => (c.getStr "id").map rustTrim = some id

def clusterItemIds (cluster : Json) (key : String) : List String :=
  (((cluster.getArray key).getD []).filterMap (·.getStr "id")).map rustTrim

/-- The raw ids that one named id stands for: those of a cluster, unless the item also names some
of the cluster's raised concerns itself. -/
def expandedIds (shardClusters : List Json) (explicit : List String) (sid : String) :
    List String :=
  match findCluster shardClusters sid with
  | none => [sid]
  | some cluster =>
    if (clusterItemIds cluster "concerns").any (· ∈ explicit) then
      clusterItemIds cluster "dismissed_concerns"
    else extractIdList cluster "source_ids"

def expandItemSourceIds (shardClusters : List Json) (item : Json) : Json :=
  let explicit := extractIdList item "source_ids"
  let rawIds := (explicit.flatMap (expandedIds shardClusters explicit)).foldl pushUniqueString []
  let clusterIds :=
    (explicit.filter fun sid => (findCluster shardClusters sid).isSome).foldl pushUniqueString []
  let item := if rawIds = [] then item else item.insert "source_ids" (Json.strings rawIds)
  if clusterIds = [] then item else item.insert "cluster_ids" (Json.strings clusterIds)

def idMatches (did : String) (item : Json) : Bool := (item.getStr "id").map rustTrim = some did

/-- The dismissal that a dismissed id stands for, with the verbatim records behind it. -/
def materializeDismissedId (shardClusters : List Json) (did : String) : Option Json :=
  match findCluster shardClusters did with
  | some cluster =>
    materializeDismissalFromItems (some did) (cluster.getStr "title")
      ((cluster.getArray "dismissed_concerns").getD [])
  | none =>
    materializeDismissalFromItems none none
      ((shardClusters.flatMap fun c => (c.getArray "dismissed_concerns").getD []).filter
        (idMatches did))

/-- Trimmed, without blanks, each once. -/
def distinctIds (ids : List String) : List String :=
  ((ids.map rustTrim).filter (· ≠ "")).eraseDups

def expandVerificationShardOutput (shardClusters : List Json) (out : VerificationOutput) :
    VerificationOutput where
  findings := out.findings.map (expandItemSourceIds shardClusters)
  inconclusiveConcerns := out.inconclusiveConcerns.map (expandItemSourceIds shardClusters)
  dismissedIds := []
  dismissedConcerns := out.dismissedConcerns.map (expandItemSourceIds shardClusters) ++
    (distinctIds out.dismissedIds).filterMap (materializeDismissedId shardClusters)

def expandDirectDismissedIds (state : LinuxPatchReviewState) (out : VerificationOutput) :
    VerificationOutput :=
  { out with
    dismissedIds := []
    dismissedConcerns := out.dismissedConcerns ++
      (distinctIds out.dismissedIds).filterMap fun did =>
        materializeDismissalFromItems none none
          (state.allDismissedConcerns.filter (idMatches did)) }

end Sashiko
