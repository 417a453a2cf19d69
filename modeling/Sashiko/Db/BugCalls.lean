import Sashiko.Db.BugStore
import Sashiko.Text

/-! The database calls of the bug workers. A call reads the clock once, as `now`; it is one
transaction, and a call that fails rolls back. -/

namespace Sashiko

/-! ### Text and JSON as SQLite sees them -/

/-- `json_extract(json, '$.name')` as a TEXT column stores it. -/
def Json.extractText (name : String) : Json → Option String
  | .obj fields =>
    match fields.lookup name with
    | none | some .null => none
    | some (.bool b) => some (if b then "1" else "0")
    | some (.int n) => some (toString n)
    | some (.float text) => some text
    | some (.str text) => some text
    | some (.arr items) => some (Json.arr items).render
    | some (.obj fields) => some (Json.obj fields).render
  | _ => none

/-- `json_set(json, '$.name', text)` -/
def Json.setText (name text : String) : Json → Json
  | .obj fields =>
    if fields.any (·.1 = name) then
      .obj (fields.map fun f => if f.1 = name then (name, .str text) else f)
    else .obj (fields ++ [(name, .str text)])
  | j => j

def Json.ofOption {α : Type} (f : α → Json) : Option α → Json
  | none => .null
  | some a => f a

def Json.ofStrings (items : List String) : Json := .arr (items.map .str)

/-! ### Parameters -/

structure NewBug where
  bugid : String
  title : String
  lifecycleStatus : BugLifecycleStatus
  pipelineState : BugPipelineState
  reportedAt : ℤ
  duplicateOfId : Option ℤ
  deriving DecidableEq, Repr

structure NewBugEnrichment where
  kind : String
  createdAt : ℤ
  content : Option String
  dataJson : Option Json
  deriving DecidableEq, Repr

structure UpdateBugOutcomeParams where
  lifecycleStatus : BugLifecycleStatus
  problem : Option String
  subsystems : Option (List String)
  sourceFiles : Option (List String)
  locations : Option Json
  severity : Severity
  severityExplanation : Option String
  inlineReview : String
  logs : Option String
  introducedInCommit : Option String
  verifiedOnSha : Option String
  deriving DecidableEq, Repr

structure UpstreamFixCheckParams where
  verifiedOnSha : String
  fixingCommitSha : Option String
  fixingCommitTitle : Option String
  explanation : Option String
  locations : Option Json
  sourceFiles : Option (List String)
  llmChecked : Bool
  deriving DecidableEq, Repr

namespace BugStore

/-! ### Creating bugs -/

def insertBug (s : BugStore) (bug : NewBug) (now : ℤ) : Except String (ℤ × BugStore) :=
  if s.bugs.any (·.bugid = bug.bugid) then .error "UNIQUE constraint failed: bugs.bugid"
  else
    match BugTriage.ofColumns bug.lifecycleStatus bug.duplicateOfId with
    | none => .error "CHECK constraint failed: bugs"
    | some triage =>
      if triage.duplicateOfId.all fun canonicalId => s.bugs.any (·.id = canonicalId) then
        .ok (s.bugs.nextKey 0,
          { s with bugs := s.bugs.insertNext 0 fun id =>
                     { id := id, bugid := bug.bugid, title := bug.title, triage := triage,
                       pipelineState := bug.pipelineState, lockedBy := none,
                       leaseExpiresAt := none, attemptCount := 0, lastError := none,
                       verifiedOnSha := none,
                       createdAt := if 0 < bug.reportedAt then bug.reportedAt else now,
                       updatedAt := if 0 < bug.reportedAt then bug.reportedAt else now } })
      else .error "FOREIGN KEY constraint failed"

/-- The trigger that projects `verified_on_sha` out of a new verification. -/
def projectVerification (s : BugStore) (bugId : ℤ) (e : NewBugEnrichment) : BugStore :=
  match if e.kind = "verification" then e.dataJson.bind (Json.extractText "verified_on_sha")
    else none with
  | some sha => s.setBugs (fun b => b.id = bugId) fun b => { b with verifiedOnSha := some sha }
  | none => s

def insertBugEnrichment (s : BugStore) (bugId : ℤ) (e : NewBugEnrichment) (now : ℤ) :
    Except String BugStore :=
  if s.bugs.any (·.id = bugId) then
    .ok (projectVerification
      { s with bugEnrichments := s.bugEnrichments.insertNext 0 fun id =>
                 { id := id, bugId := bugId, kind := e.kind,
                   createdAt := if 0 < e.createdAt then e.createdAt else now,
                   content := e.content, dataJson := e.dataJson } } bugId e)
  else .error "FOREIGN KEY constraint failed"

def insertBugEnrichments (s : BugStore) (bugId : ℤ) (now : ℤ) :
    List NewBugEnrichment → Except String BugStore
  | [] => .ok s
  | e :: rest => do
    let s ← s.insertBugEnrichment bugId e now
    s.insertBugEnrichments bugId now rest

def createBugWithEnrichment (s : BugStore) (bug : NewBug) (enrichment : Option NewBugEnrichment)
    (now : ℤ) : Except String (ℤ × BugStore) := do
  let (id, s) ← s.insertBug bug now
  let s ← s.insertBugEnrichments id now enrichment.toList
  return (id, s)

def createClaimedBugWithEnrichment (s : BugStore) (bug : NewBug)
    (enrichment : Option NewBugEnrichment) (workerId : String) (leaseTtlSeconds now : ℤ) :
    Except String (ℤ × BugStore) := do
  let (id, s) ← s.createBugWithEnrichment bug enrichment now
  return (id, s.setBugs (fun b => b.id = id) fun b =>
    { b with
      pipelineState := .running, lockedBy := some workerId,
      leaseExpiresAt := some (now + leaseTtlSeconds), attemptCount := 1, updatedAt := now })

/-! ### Claiming and keeping a lease -/

def claimable (now maxAttempts : ℤ) (b : BugRow) : Bool :=
  b.attemptCount < maxAttempts && b.triage.lifecycleStatus ≠ .duplicate && b.unattended now

/-- Bugs created in the same second are taken by id; the query leaves that open. -/
def claimPendingBug (s : BugStore) (workerId : String) (leaseTtlSeconds maxAttempts now : ℤ) :
    Option ℤ × BugStore :=
  match s.bugs.earliestBy (claimable now maxAttempts) (·.createdAt) with
  | some bug =>
    (some bug.id, s.setBugs (fun b => b.id = bug.id) fun b =>
      { b with
        pipelineState := .running, lockedBy := some workerId,
        leaseExpiresAt := some (now + leaseTtlSeconds), attemptCount := b.attemptCount + 1,
        updatedAt := now })
  | none => (none, s)

def i64Max : ℤ := 9223372036854775807

def needsFixCheck (now : ℤ) (sha : String) (b : BugRow) : Bool :=
  b.triage = .«open» && b.pipelineState = .succeeded &&
    b.verifiedOnSha.any (fun verified => verified ≠ "" ∧ verified ≠ sha) && b.leaseOver now

def claimOpenBugForFixCheck (s : BugStore) (currentLinusSha workerId : String)
    (leaseTtlSeconds now : ℤ) : Option ℤ × BugStore :=
  if rustTrim currentLinusSha = "" then (none, s)
  else
    match s.bugs.earliestBy (needsFixCheck now (rustTrim currentLinusSha)) (·.updatedAt) with
    | some bug =>
      (some bug.id, s.setBugs (fun b => b.id = bug.id) fun b =>
        { b with
          lockedBy := some workerId,
          leaseExpiresAt := some (min (now + max 1 (min leaseTtlSeconds 86400)) i64Max),
          updatedAt := now })
    | none => (none, s)

def renewable (id : ℤ) (workerId : String) (now : ℤ) (b : BugRow) : Bool :=
  b.heldBy ⟨id, workerId⟩ now

def renewBugLease (s : BugStore) (id : ℤ) (workerId : String) (leaseTtlSeconds now : ℤ) :
    Bool × BugStore :=
  (s.bugs.any (renewable id workerId now),
    s.setBugs (renewable id workerId now) fun b =>
      { b with leaseExpiresAt := some (now + leaseTtlSeconds) })

/-! ### Writes that check the claim -/

/-- Checks ownership under the same write lock as the ensuing mutation. -/
def beginBugWrite (s : BugStore) (claim : Option BugAnalysisClaim) (bugId now : ℤ) :
    Except String Unit :=
  match claim with
  | none => .ok ()
  | some claim =>
    if claim.bugId ≠ bugId then .error "Analysis claim belongs to a different bug"
    else if s.bugs.any (·.heldBy claim now) then .ok ()
    else .error "Bug analysis lease is no longer held"

def releaseBugLease (s : BugStore) (claim : Option BugAnalysisClaim) (id now : ℤ) :
    Except String BugStore := do
  s.beginBugWrite claim id now
  return s.setBugs (fun b => b.id = id) fun b =>
    { b with lockedBy := none, leaseExpiresAt := none }

def addBugEnrichment (s : BugStore) (claim : Option BugAnalysisClaim) (bugId : ℤ)
    (e : NewBugEnrichment) (now : ℤ) : Except String BugStore := do
  s.beginBugWrite claim bugId now
  s.insertBugEnrichment bugId e now

def failBugAnalysis (s : BugStore) (claim : Option BugAnalysisClaim) (id : ℤ) (error : String)
    (now : ℤ) : Except String BugStore := do
  s.beginBugWrite claim id now
  if claim.isSome && !s.bugs.any (fun b => b.id = id && b.pipelineState = .running) then
    throw "A completed analysis cannot be marked failed"
  return s.setBugs (fun b => b.id = id && (claim.isNone || b.pipelineState = .running)) fun b =>
    { b with
      pipelineState := .failed, lastError := some error, lockedBy := none,
      leaseExpiresAt := none, updatedAt := now }

def retitle (s : BugStore) (id : ℤ) (problem : Option String) (now : ℤ) : BugStore :=
  match problem with
  | some title => s.setBugs (fun b => b.id = id) fun b =>
      { b with title := title, updatedAt := now }
  | none => s

/-- A verdict initializes triage; it never undoes a decision made meanwhile. -/
def triageNewBug (s : BugStore) (id : ℤ) (status : BugLifecycleStatus) (now : ℤ) :
    Except String BugStore :=
  match BugTriage.ofColumns status none with
  | some triage => .ok (s.setBugs (fun b => b.id = id && b.triage = .new) fun b =>
      { b with triage := triage, updatedAt := now })
  | none =>
    if s.bugs.any fun b => b.id = id && b.triage = .new then
      .error "CHECK constraint failed: bugs"
    else .ok s

/-- The enrichments of an outcome, in the order they are recorded. -/
def outcomeEnrichments (params : UpdateBugOutcomeParams) (now : ℤ) : List NewBugEnrichment :=
  (if params.verifiedOnSha.isSome || params.locations.isSome then
    [{ kind := "verification", createdAt := now, content := params.severityExplanation,
       dataJson := some (.obj
        [("is_valid", .bool (params.lifecycleStatus ≠ .dismissed)),
         ("locations", Json.ofOption (fun j => j) params.locations),
         ("refutation_evidence", if params.lifecycleStatus = .dismissed then
            Json.ofOption .str params.severityExplanation else .null),
         ("source_files", Json.ofOption Json.ofStrings params.sourceFiles),
         ("verified_on_sha", Json.ofOption .str params.verifiedOnSha)]) }]
  else []) ++
  (match params.introducedInCommit with
  | some intro =>
    [{ kind := "origin_discovery", createdAt := now, content := some intro,
       dataJson := some (.obj [("introducing_commit_sha", .str intro)]) }]
  | none => []) ++
  (if params.severity ≠ .unknown then
    [{ kind := "severity_calibration", createdAt := now, content := params.severityExplanation,
       dataJson := some (.obj
        [("severity", .str params.severity.asStr),
         ("severity_int", .int params.severity.toInt),
         ("subsystems", Json.ofOption Json.ofStrings params.subsystems)]) }]
  else []) ++
  (if params.inlineReview ≠ "" || params.logs.isSome then
    [{ kind := if params.inlineReview = "" then "analysis" else "report", createdAt := now,
       content := some params.inlineReview,
       dataJson := some (.obj [("format", .str "lkml_markdown")]) }]
  else [])

/-- Success and every outcome record become visible together at commit. -/
def writeBugOutcome (s : BugStore) (id : ℤ) (params : UpdateBugOutcomeParams) (now : ℤ) :
    Except String BugStore := do
  let s ← (s.retitle id params.problem now).triageNewBug id params.lifecycleStatus now
  let s ← s.insertBugEnrichments id now (outcomeEnrichments params now)
  return s.setBugs (fun b => b.id = id) fun b =>
    { b with pipelineState := .succeeded, updatedAt := now }

def updateBugOutcome (s : BugStore) (claim : Option BugAnalysisClaim) (id : ℤ)
    (params : UpdateBugOutcomeParams) (now : ℤ) : Except String BugStore := do
  s.beginBugWrite claim id now
  s.writeBugOutcome id params now

/-! ### Fix checks -/

/-- The WHERE clause of the fix-check writes: the owner is compared, the lease is not. -/
def fixCheckable (claim : Option BugAnalysisClaim) (id : ℤ) (b : BugRow) : Bool :=
  b.id = id && b.triage = .«open» && (claim.all fun claim => b.lockedBy = some claim.owner)

def latestVerification (s : BugStore) (id : ℤ) : Option BugEnrichmentRow :=
  s.bugEnrichments.latestBy (fun e => e.bugId = id ∧ e.kind = "verification") (·.createdAt)

def advanceLatestVerificationSha (s : BugStore) (id : ℤ) (params : UpstreamFixCheckParams)
    (now : ℤ) : Except String BugStore :=
  match s.latestVerification id with
  | some latest =>
    .ok { s with
      bugEnrichments := s.bugEnrichments.update (fun e => e.id = latest.id) fun e =>
        { e with
          dataJson := some
            ((e.dataJson.getD (.obj [])).setText "verified_on_sha" params.verifiedOnSha) } }
  | none =>
    s.insertBugEnrichment id
      { kind := "verification", createdAt := now,
        content := some "Verified against upstream mainline",
        dataJson := some (.obj
          [("is_valid", .bool true),
           ("locations", Json.ofOption (fun j => j) params.locations),
           ("source_files", Json.ofOption Json.ofStrings params.sourceFiles),
           ("verified_on_sha", .str params.verifiedOnSha)]) } now

def recordStillPresent (s : BugStore) (id : ℤ) (params : UpstreamFixCheckParams) (now : ℤ) :
    Except String BugStore :=
  if params.llmChecked then
    s.insertBugEnrichment id
      { kind := "verification", createdAt := now, content := params.explanation,
        dataJson := some (.obj
          [("check_type", .str "upstream_fix_check"),
           ("is_valid", .bool true),
           ("locations", Json.ofOption (fun j => j) params.locations),
           ("source_files", Json.ofOption Json.ofStrings params.sourceFiles),
           ("verified_on_sha", .str params.verifiedOnSha)]) } now
  else s.advanceLatestVerificationSha id params now

def recordUpstreamFixCheck (s : BugStore) (claim : Option BugAnalysisClaim) (id : ℤ)
    (params : UpstreamFixCheckParams) (now : ℤ) : Except String (Bool × BugStore) :=
  if s.bugs.any (fixCheckable claim id) then
    match params.fixingCommitSha with
    | some fixSha => do
      let s ← (s.setBugs (fixCheckable claim id) fun b =>
        { b with
          triage := .fixed, verifiedOnSha := some params.verifiedOnSha, updatedAt := now,
          lockedBy := none, leaseExpiresAt := none }).advanceLatestVerificationSha id params now
      let s ← s.insertBugEnrichment id
        { kind := "fix_candidate", createdAt := now, content := params.explanation,
          dataJson := some (.obj
            [("commit_sha", .str fixSha),
             ("commit_title", Json.ofOption .str params.fixingCommitTitle),
             ("explanation", Json.ofOption .str params.explanation),
             ("status", .str "merged"),
             ("verified_on_sha", .str params.verifiedOnSha)]) } now
      return (true, s)
    | none => do
      let s ← (s.setBugs (fixCheckable claim id) fun b =>
        { b with
          verifiedOnSha := some params.verifiedOnSha, updatedAt := now, lockedBy := none,
          leaseExpiresAt := none }).recordStillPresent id params now
      return (true, s)
  else .ok (false, s)

/-- The lease becomes a cooldown that nobody holds. -/
def touchBugFixCheckTimestamp (s : BugStore) (claim : Option BugAnalysisClaim) (id now : ℤ) :
    BugStore :=
  s.setBugs (fixCheckable claim id) fun b =>
    { b with updatedAt := now, lockedBy := none, leaseExpiresAt := some (now + 60) }

/-! ### Sweeps -/

def exhausted (now maxAttempts : ℤ) (b : BugRow) : Bool :=
  maxAttempts ≤ b.attemptCount && b.unattended now

def abandonExhaustedBugs (s : BugStore) (maxAttempts now : ℤ) : ℕ × BugStore :=
  (s.bugs.rows.countP (exhausted now maxAttempts),
    s.setBugs (exhausted now maxAttempts) fun b =>
      { b with
        pipelineState := .abandoned, lockedBy := none, leaseExpiresAt := none,
        updatedAt := now })

def stale (now : ℤ) (b : BugRow) : Bool :=
  b.pipelineState = .running && b.leaseLapsed now

def recoverStaleRunningBugs (s : BugStore) (now : ℤ) : ℕ × BugStore :=
  (s.bugs.rows.countP (stale now),
    s.setBugs (stale now) fun b =>
      { b with
        pipelineState := .pending, lockedBy := none, leaseExpiresAt := none,
        updatedAt := now })

end BugStore

end Sashiko
