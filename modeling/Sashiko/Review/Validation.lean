import Sashiko.Lib.Fallible
import Sashiko.Review.State

/-! What a stage accepts from its model. -/

namespace Sashiko

/-! ### One object -/

def isSide (s : String) : Bool := eqIgnoreAsciiCase s "PARENT" || eqIgnoreAsciiCase s "REVISION"

def hasValidProofLocation (item : Json) : Bool :=
  match item.getArray "locations" with
  | some locations => locations.any fun loc =>
      hasText "file" loc && hasText "function_or_symbol" loc && hasText "code_snippet" loc &&
        (loc.getStr "side").any isSide
  | none => false

def validateLocationSide (container : String) (idx lIdx : ℕ) (loc : Json) :
    Except String Unit :=
  if !loc.isObject then .error s!"{container}[{idx}].locations[{lIdx}] must be an object."
  else
    match loc.get? "side" with
    | none =>
      .error (s!"{container}[{idx}].locations[{lIdx}] missing required 'side' ('PARENT' or " ++
        "'REVISION').")
    | some side =>
      match side.asStr with
      | none =>
        .error (s!"{container}[{idx}].locations[{lIdx}] 'side' must be a string ('PARENT' or " ++
          "'REVISION').")
      | some side =>
        if isSide side then .ok ()
        else
          .error s!"{container}[{idx}].locations[{lIdx}] 'side' must be 'PARENT' or 'REVISION'."

def validateLocationsSide (locations : List Json) (container : String) (idx : ℕ) :
    Except String Unit :=
  foldIdx (fun lIdx _ loc => validateLocationSide container idx lIdx loc) 0 () locations

def isSeverityName (s : String) : Bool :=
  ["low", "medium", "high", "critical", "unknown"].contains (asciiLower (rustTrim s))

def validateFindingObject (finding : Json) (idx : ℕ) : Except String Unit :=
  match finding.getArray "locations" with
  | some locations =>
    if hasText "problem" finding && (finding.getStr "severity").any isSeverityName &&
        hasText "severity_explanation" finding &&
        (finding.get? "preexisting").any (·.asBool.isSome) then
      validateLocationsSide locations "findings" idx
    else .error (findingMessage idx)
  | none => .error (findingMessage idx)
where
  findingMessage (idx : ℕ) : String :=
    s!"findings[{idx}] must have non-empty 'problem', valid 'severity' (Low, Medium, High, " ++
      "Critical, or Unknown), non-empty 'severity_explanation', boolean 'preexisting', and a " ++
      "'locations' array."

def isEstimatedSeverity (s : String) : Bool :=
  ["Low", "Medium", "High", "Critical", "Unknown"].contains s

def validateInconclusiveConcernObject (inconclusiveConcern : Json) (idx : ℕ) :
    Except String Unit :=
  match inconclusiveConcern.getArray "locations" with
  | some locations =>
    if hasText "type" inconclusiveConcern && hasText "description" inconclusiveConcern &&
        (inconclusiveConcern.getStr "estimated_severity").any isEstimatedSeverity &&
        hasText "signal_reason" inconclusiveConcern &&
        hasText "concern_arguments" inconclusiveConcern &&
        (inconclusiveConcern.get? "dismissal_arguments").any
          (fun v => v.asStr.isSome || v = .null) &&
        hasText "verification_question" inconclusiveConcern &&
        (inconclusiveConcern.get? "preexisting").any (·.asBool.isSome) then
      validateLocationsSide locations "inconclusive_concerns" idx
    else .error (inconclusiveMessage idx)
  | none => .error (inconclusiveMessage idx)
where
  inconclusiveMessage (idx : ℕ) : String :=
    s!"inconclusive_concerns[{idx}] must have non-empty 'type', 'description', " ++
      "'signal_reason', 'concern_arguments', and 'verification_question' strings, valid " ++
      "'estimated_severity' (Low, Medium, High, Critical, or Unknown), string " ++
      "'dismissal_arguments', boolean 'preexisting', and a 'locations' array."

def validateOptionalLocations (dismissed : Json) (idx : ℕ) : Except String Unit :=
  match dismissed.getArray "locations" with
  | some locations => validateLocationsSide locations "dismissed_concerns" idx
  | none => .ok ()

/-- A dismissal needs its texts, sound locations and a proof in the code. -/
def validateDismissedObject (textMessage proofMessage : ℕ → String) (dismissed : Json)
    (idx : ℕ) : Except String Unit :=
  if hasText "description" dismissed && hasText "reasoning" dismissed then do
    validateOptionalLocations dismissed idx
    if hasValidProofLocation dismissed then .ok () else .error (proofMessage idx)
  else .error (textMessage idx)

def validateObjects (validate : Json → ℕ → Except String Unit) (items : List Json) :
    Except String Unit :=
  foldIdx (fun idx _ item => validate item idx) 0 () items

/-- The texts of `source_ids`, all of which must be non-empty strings. -/
def extractNonEmptySourceIds (collectionName : String) (idx : ℕ) (item : Json)
    (validIdsLabel : String) : Except String (List String) :=
  match item.getArray "source_ids" with
  | none => .error (s!"{collectionName}[{idx}] must include a non-empty 'source_ids' array " ++
      s!"referencing input item ID(s) ({validIdsLabel}).")
  | some arr =>
    if extractIdList item "source_ids" = [] ∨
        (extractIdList item "source_ids").length ≠ arr.length then
      .error (s!"{collectionName}[{idx}] must have a non-empty 'source_ids' array of non-empty " ++
        s!"string IDs ({validIdsLabel}).")
    else .ok (extractIdList item "source_ids")

/-- Every id is in the set, or the error names those that are not. -/
def requireAccounted (ids accounted : List String) (message : String → String) :
    Except String Unit :=
  if ids.filter (· ∉ accounted) = [] then .ok ()
  else .error (message (String.intercalate ", " (ids.filter (· ∉ accounted))))

/-! ### Deduplication -/

/-- The ids that deduplication has to account for. -/
def candidateIds (state : LinuxPatchReviewState) : List String :=
  trimmedIds (state.allConcerns ++ state.allDismissedConcerns)

def checkClusterId (validIds : List String) (validLabel : String) (idx : ℕ)
    (accounted : List String) (sid : String) : Except String (List String) :=
  if sid ∉ validIds then
    .error (s!"clusters[{idx}].source_ids contains unknown ID '{sid}'. Valid input IDs are: " ++
      s!"{validLabel}.")
  else if sid ∈ accounted then
    .error (s!"clusters[{idx}].source_ids repeats ID '{sid}', which already belongs to another " ++
      "cluster (or appears twice in this one). Every input ID must appear in exactly one " ++
      "cluster.")
  else .ok (sid :: accounted)

def checkCluster (validIds : List String) (validLabel : String) (idx : ℕ)
    (accounted : List String) (cluster : DeduplicationClusterSpec) :
    Except String (List String) :=
  if rustTrim cluster.title = "" then
    .error s!"clusters[{idx}] must have a non-empty 'title' string."
  else if cluster.sourceIds = [] ∨ cluster.sourceIds.any (rustTrim · = "") then
    .error (s!"clusters[{idx}] must have a non-empty 'source_ids' array of non-empty string " ++
      s!"IDs ({validLabel}).")
  else
    foldIdx (fun _ acc sid => checkClusterId validIds validLabel idx acc sid) 0 accounted
      (cluster.sourceIds.map rustTrim)

def validateDeduplicationOutput (output : DeduplicationOutput) (state : LinuxPatchReviewState) :
    Except String Unit :=
  if candidateIds state = [] then .ok ()
  else if output.clusters = [] then
    .error ("clusters must not be empty when input concerns or dismissed_concerns are " ++
      "present.")
  else do
    let accounted ← foldIdx
      (checkCluster (candidateIds state) (String.intercalate ", " (candidateIds state))) 0 []
      output.clusters
    requireAccounted (candidateIds state) accounted fun missing =>
      s!"Deduplication output failed to account for input ID(s): {missing}. Every input ID " ++
        "must appear in 'source_ids' of at least one cluster."

/-! ### Verification shards -/

structure ClusterInfo where
  id : String
  concernIds : List String
  dismissedIds : List String
  deriving DecidableEq, Repr

def clusterInfo (cluster : Json) : Option ClusterInfo :=
  (trimmedId cluster).map fun cid =>
    { id := cid
      concernIds := trimmedIds ((cluster.getArray "concerns").getD [])
      dismissedIds := trimmedIds ((cluster.getArray "dismissed_concerns").getD []) }

/-- The cluster ids and the raw ids that the output has named so far. -/
structure AccountedRefs where
  clusters : List String
  rawIds : List String
  deriving DecidableEq, Repr

/-- Where an output may name an id: raised concerns only where `allowConcerns`, dismissed
candidates only where `allowDismissed`. -/
structure RefPolicy where
  allowConcerns : Bool
  allowDismissed : Bool
  deriving DecidableEq, Repr

def checkRawRef (policy : RefPolicy) (whereLabel sid : String) (acc : AccountedRefs)
    (info : ClusterInfo) : Except String AccountedRefs :=
  if !policy.allowConcerns && (sid ∈ info.concernIds || info.concernIds ≠ []) then
    .error (s!"{whereLabel} references '{sid}' from cluster '{info.id}' which contains raised " ++
      "concern(s) (" ++ String.intercalate ", " info.concernIds ++ "). Raised concerns and " ++
      "contested clusters must never be dismissed in verification; classify into 'findings' " ++
      "or 'inconclusive_concerns'.")
  else if !policy.allowDismissed && (sid ∈ info.dismissedIds || info.dismissedIds ≠ []) then
    .error (s!"{whereLabel} references '{sid}' from cluster '{info.id}' which involves a " ++
      "dismissed_concern. Route contested or promoted-dismissal clusters to " ++
      "'inconclusive_concerns'.")
  else .ok { acc with rawIds := sid :: acc.rawIds }

def checkClusterRef (policy : RefPolicy) (whereLabel sid : String) (acc : AccountedRefs)
    (info : ClusterInfo) : Except String AccountedRefs :=
  if !policy.allowConcerns && info.concernIds ≠ [] then
    .error (s!"{whereLabel} references cluster '{sid}' which contains raised concern(s) (" ++
      String.intercalate ", " info.concernIds ++ "). Raised concerns must never be dismissed " ++
      "in verification; classify into 'findings' or 'inconclusive_concerns'.")
  else if !policy.allowDismissed && info.dismissedIds ≠ [] then
    .error (s!"{whereLabel} references cluster '{sid}' which contains dismissed_concern(s) (" ++
      String.intercalate ", " info.dismissedIds ++ "). Category 1a 'findings' are strictly for " ++
      "uncontested raised-concern clusters; route contested or promoted-dismissal clusters to " ++
      "'inconclusive_concerns'.")
  else .ok { acc with clusters := info.id :: acc.clusters }

/-- A cluster id is looked up first; raw ids of the shard's clusters are tolerated. -/
def checkRef (infos : List ClusterInfo) (policy : RefPolicy) (whereLabel sid : String)
    (acc : AccountedRefs) : Except String AccountedRefs :=
  match infos.find? (·.id = sid) with
  | some info => checkClusterRef policy whereLabel sid acc info
  | none =>
    if infos.any fun info => sid ∈ info.concernIds || sid ∈ info.dismissedIds then
      foldIdx (fun _ acc info => checkRawRef policy whereLabel sid acc info) 0 acc
        (infos.filter fun info => sid ∈ info.concernIds || sid ∈ info.dismissedIds)
    else
      .error (s!"{whereLabel} contains unknown ID '{sid}'. Valid cluster IDs in this shard " ++
        "are: " ++ String.intercalate ", " (infos.map (·.id)) ++ ".")

structure OutputCollection where
  name : String
  items : List Json
  policy : RefPolicy

def outputCollections (output : VerificationOutput) : List OutputCollection :=
  [⟨"findings", output.findings, ⟨true, false⟩⟩,
   ⟨"inconclusive_concerns", output.inconclusiveConcerns, ⟨true, true⟩⟩,
   ⟨"dismissed_concerns", output.dismissedConcerns, ⟨false, true⟩⟩]

def checkItemRefs (infos : List ClusterInfo) (collection : OutputCollection) (idx : ℕ)
    (acc : AccountedRefs) (item : Json) : Except String AccountedRefs := do
  let sids ← extractNonEmptySourceIds collection.name idx item
    (String.intercalate ", " (infos.map (·.id)))
  foldIdx (fun _ acc sid =>
    checkRef infos collection.policy s!"{collection.name}[{idx}].source_ids" sid acc) 0 acc sids

def checkCollections (infos : List ClusterInfo) (output : VerificationOutput) :
    Except String AccountedRefs :=
  foldIdx (fun _ acc collection =>
    foldIdx (checkItemRefs infos collection) 0 acc collection.items) 0 ⟨[], []⟩
    (outputCollections output)

def checkDismissedIds (infos : List ClusterInfo) (acc : AccountedRefs) (dismissedIds : List String) :
    Except String AccountedRefs :=
  foldIdx (fun idx acc did =>
    checkRef infos ⟨false, true⟩ s!"dismissed_ids[{idx}]" (rustTrim did) acc) 0 acc dismissedIds

/-- A cluster whose raw ids are all named is accounted for as well. -/
def coveredByRawIds (acc : AccountedRefs) (info : ClusterInfo) : Bool :=
  (info.concernIds ++ info.dismissedIds) ≠ [] &&
    (info.concernIds ++ info.dismissedIds).all (· ∈ acc.rawIds)

def accountedClusters (infos : List ClusterInfo) (acc : AccountedRefs) : List String :=
  acc.clusters ++ (infos.filter (coveredByRawIds acc)).map (·.id)

/-- The source ids of the findings and inconclusive concerns. -/
def keptIds (output : VerificationOutput) : List String :=
  (output.findings ++ output.inconclusiveConcerns).flatMap fun item =>
    (((item.getArray "source_ids").getD []).filterMap Json.asStr).map rustTrim

def checkMergedCluster (kept : List String) (info : ClusterInfo) : Except String Unit :=
  if info.concernIds.length < 2 ∨ info.concernIds.filter (· ∉ kept) = [] then .ok ()
  else
    .error (s!"Cluster '{info.id}' merges {info.concernIds.length} raised concerns (" ++
      String.intercalate ", " info.concernIds ++ "), but concern ID(s) " ++
      String.intercalate ", " (info.concernIds.filter (· ∉ kept)) ++ " are not named in any " ++
      "'findings[].source_ids' or 'inconclusive_concerns[].source_ids'. When a cluster " ++
      "contains several raised concerns, list each raw concern ID explicitly in the source_ids " ++
      "of the finding or inconclusive concern that covers it (a separate item for each " ++
      "distinct bug).")

/-- A cluster that merges several raised concerns must keep each of them visible. -/
def validateMergedConcernsKept (output : VerificationOutput) (infos : List ClusterInfo) :
    Except String Unit :=
  foldIdx (fun _ _ info => checkMergedCluster (keptIds output) info) 0 () infos

def validateShardObjects (output : VerificationOutput) : Except String Unit := do
  validateObjects validateFindingObject output.findings
  validateObjects validateInconclusiveConcernObject output.inconclusiveConcerns
  validateObjects
    (validateDismissedObject
      (fun idx => s!"dismissed_concerns[{idx}] must have non-empty 'description' and " ++
        "'reasoning' strings.")
      (fun idx => s!"dismissed_concerns[{idx}] must include at least one entry in 'locations' " ++
        "with non-empty 'file', 'function_or_symbol', valid 'side' ('PARENT' or 'REVISION'), " ++
        "and disproving 'code_snippet'."))
    output.dismissedConcerns
  foldIdx (fun idx _ did =>
    if rustTrim did = "" then
      .error s!"dismissed_ids[{idx}] must be a non-empty cluster ID string."
    else .ok ()) 0 () output.dismissedIds

def validateShardRefs (output : VerificationOutput) (infos : List ClusterInfo) :
    Except String Unit := do
  let acc ← checkCollections infos output
  let acc ← checkDismissedIds infos acc output.dismissedIds
  requireAccounted (infos.map (·.id)) (accountedClusters infos acc) fun missing =>
    s!"Verification shard output failed to account for cluster ID(s): {missing}. Every " ++
      "candidate cluster ID in this shard must appear in 'findings[].source_ids', " ++
      "'inconclusive_concerns[].source_ids', or 'dismissed_ids'."
  validateMergedConcernsKept output infos

def validateVerificationShardOutput (output : VerificationOutput) (shardClusters : List Json) :
    Except String Unit := do
  validateShardObjects output
  if shardClusters.filterMap clusterInfo = [] then .ok ()
  else validateShardRefs output (shardClusters.filterMap clusterInfo)

/-! ### Post-verification -/

def validatePostVerificationBatchOutput (output : PostVerificationOutput)
    (expectedMinItems : ℕ) : Except String Unit :=
  if output.findings = [] ∧ output.dismissedConcerns = [] then
    .error ("post-verification must not return both empty 'findings' and empty " ++
      "'dismissed_concerns'. Every inconclusive concern must be either validated in " ++
      "'findings' or disproved in 'dismissed_concerns' with concrete code evidence in " ++
      "'locations'.")
  else if output.findings.length + output.dismissedConcerns.length < max expectedMinItems 1 then
    .error ("post-verification returned " ++
      toString (output.findings.length + output.dismissedConcerns.length) ++
      " item(s) across 'findings' and 'dismissed_concerns', but this batch has " ++
      s!"{max expectedMinItems 1} inconclusive concern(s). Every candidate in the batch must " ++
      "be accounted for in either 'findings' or 'dismissed_concerns'.")
  else do
    validateObjects validateFindingObject output.findings
    validateObjects
      (validateDismissedObject
        (fun idx => s!"dismissed_concerns[{idx}] must be an object with non-empty " ++
          "'description' and 'reasoning' strings.")
        (fun idx => s!"dismissed_concerns[{idx}] must include a non-empty 'locations' array " ++
          "with at least one entry containing a valid 'side' ('PARENT' or 'REVISION') and " ++
          "non-empty 'code_snippet' proving why the inconclusive concern is not a bug."))
      output.dismissedConcerns

def checkBatchId (collectionName : String) (expectedIds : List String) (idx : ℕ)
    (accounted : List String) (sid : String) : Except String (List String) :=
  if sid ∉ expectedIds then
    .error (s!"{collectionName}[{idx}].source_ids contains unknown inconclusive concern ID " ++
      s!"'{sid}'. Valid candidate ID(s) in this batch: " ++
      String.intercalate ", " expectedIds ++ ".")
  else .ok (sid :: accounted)

def checkBatchItem (collectionName : String) (expectedIds : List String) (idx : ℕ)
    (accounted : List String) (item : Json) : Except String (List String) := do
  let sids ← extractNonEmptySourceIds collectionName idx item
    (String.intercalate ", " expectedIds)
  foldIdx (fun _ acc sid => checkBatchId collectionName expectedIds idx acc sid) 0 accounted sids

def validatePostVerificationBatchItems (output : PostVerificationOutput) (batch : List Json) :
    Except String Unit := do
  validatePostVerificationBatchOutput output
    (if trimmedIds batch = [] then max batch.length 1 else 1)
  if trimmedIds batch = [] then .ok ()
  else do
    let accounted ← foldIdx (checkBatchItem "findings" (trimmedIds batch)) 0 [] output.findings
    let accounted ← foldIdx (checkBatchItem "dismissed_concerns" (trimmedIds batch)) 0 accounted
      output.dismissedConcerns
    requireAccounted (trimmedIds batch) accounted fun missing =>
      "post-verification output failed to account for inconclusive concern ID(s): " ++
        s!"{missing}. Every inconclusive concern ID in this batch must appear in 'source_ids' " ++
        "of at least one item in 'findings' or 'dismissed_concerns'."

end Sashiko
