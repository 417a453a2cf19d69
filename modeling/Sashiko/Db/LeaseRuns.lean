import Sashiko.Db.BugCalls

/-! Runs of the bug calls by any number of workers, and what one call can do to a bug's lease. -/

namespace Sashiko

open BugStore

inductive BugCall where
  | createBugWithEnrichment (bug : NewBug) (enrichment : Option NewBugEnrichment)
  | createClaimedBugWithEnrichment (bug : NewBug) (enrichment : Option NewBugEnrichment)
      (workerId : String) (leaseTtlSeconds : ℤ)
  | claimPendingBug (workerId : String) (leaseTtlSeconds maxAttempts : ℤ)
  | claimOpenBugForFixCheck (currentLinusSha workerId : String) (leaseTtlSeconds : ℤ)
  | renewBugLease (id : ℤ) (workerId : String) (leaseTtlSeconds : ℤ)
  | releaseBugLease (claim : Option BugAnalysisClaim) (id : ℤ)
  | addBugEnrichment (claim : Option BugAnalysisClaim) (id : ℤ) (e : NewBugEnrichment)
  | updateBugOutcome (claim : Option BugAnalysisClaim) (id : ℤ)
      (params : UpdateBugOutcomeParams)
  | failBugAnalysis (claim : Option BugAnalysisClaim) (id : ℤ) (error : String)
  | recordUpstreamFixCheck (claim : Option BugAnalysisClaim) (id : ℤ)
      (params : UpstreamFixCheckParams)
  | touchBugFixCheckTimestamp (claim : Option BugAnalysisClaim) (id : ℤ)
  | abandonExhaustedBugs (maxAttempts : ℤ)
  | recoverStaleRunningBugs
  deriving DecidableEq, Repr

namespace BugCall

def exec (s : BugStore) (now : ℤ) : BugCall → Except String BugStore
  | createBugWithEnrichment bug enrichment =>
    (s.createBugWithEnrichment bug enrichment now).map (·.2)
  | createClaimedBugWithEnrichment bug enrichment workerId ttl =>
    (s.createClaimedBugWithEnrichment bug enrichment workerId ttl now).map (·.2)
  | claimPendingBug workerId ttl maxAttempts =>
    .ok (s.claimPendingBug workerId ttl maxAttempts now).2
  | claimOpenBugForFixCheck sha workerId ttl =>
    .ok (s.claimOpenBugForFixCheck sha workerId ttl now).2
  | renewBugLease id workerId ttl => .ok (s.renewBugLease id workerId ttl now).2
  | releaseBugLease claim id => s.releaseBugLease claim id now
  | addBugEnrichment claim id e => s.addBugEnrichment claim id e now
  | updateBugOutcome claim id params => s.updateBugOutcome claim id params now
  | failBugAnalysis claim id error => s.failBugAnalysis claim id error now
  | recordUpstreamFixCheck claim id params =>
    (s.recordUpstreamFixCheck claim id params now).map (·.2)
  | touchBugFixCheckTimestamp claim id => .ok (s.touchBugFixCheckTimestamp claim id now)
  | abandonExhaustedBugs maxAttempts => .ok (s.abandonExhaustedBugs maxAttempts now).2
  | recoverStaleRunningBugs => .ok (s.recoverStaleRunningBugs now).2

def step (s : BugStore) (now : ℤ) (call : BugCall) : BugStore :=
  match call.exec s now with
  | .ok s' => s'
  | .error _ => s

/-- The lease a call hands to its caller. -/
def granted (s : BugStore) (now : ℤ) : BugCall → Option BugAnalysisClaim
  | createClaimedBugWithEnrichment bug enrichment workerId ttl =>
    match s.createClaimedBugWithEnrichment bug enrichment workerId ttl now with
    | .ok (id, _) => some ⟨id, workerId⟩
    | .error _ => none
  | claimPendingBug workerId ttl maxAttempts =>
    (s.claimPendingBug workerId ttl maxAttempts now).1.map (⟨·, workerId⟩)
  | claimOpenBugForFixCheck sha workerId ttl =>
    (s.claimOpenBugForFixCheck sha workerId ttl now).1.map (⟨·, workerId⟩)
  | _ => none

/-- The bug whose analysis a call starts anew. -/
def attempted (s : BugStore) (now : ℤ) (call : BugCall) : Option ℤ :=
  match call with
  | createClaimedBugWithEnrichment .. | claimPendingBug .. => (call.granted s now).map (·.bugId)
  | _ => none

/-- The bug and owner of a claimed write that took effect. -/
def commits (s : BugStore) (now : ℤ) (call : BugCall) : Option BugAnalysisClaim :=
  match call with
  | releaseBugLease (some claim) id | addBugEnrichment (some claim) id _
  | updateBugOutcome (some claim) id _ | failBugAnalysis (some claim) id _ =>
    match call.exec s now with
    | .ok _ => some ⟨id, claim.owner⟩
    | .error _ => none
  | recordUpstreamFixCheck (some claim) id params =>
    match s.recordUpstreamFixCheck (some claim) id params now with
    | .ok (true, _) => some ⟨id, claim.owner⟩
    | _ => none
  | touchBugFixCheckTimestamp (some claim) id =>
    if s.bugs.any (fixCheckable (some claim) id) then some ⟨id, claim.owner⟩ else none
  | _ => none

/-- A fix-check write through a claimed handle comes before the handle's lease runs out. -/
def FixCheckInTime (s : BugStore) (now : ℤ) : BugCall → Prop
  | recordUpstreamFixCheck (some claim) id _ | touchBugFixCheckTimestamp (some claim) id =>
    ∀ b ∈ s.bugs.rows, fixCheckable (some claim) id b = true → b.leased now = true
  | _ => True

end BugCall

/-- A run: each call with the clock it reads. -/
def BugStore.run (s : BugStore) : List (ℤ × BugCall) → BugStore
  | [] => s
  | (now, call) :: rest => (call.step s now).run rest

def FixChecksInTime : BugStore → List (ℤ × BugCall) → Prop
  | _, [] => True
  | s, (now, call) :: rest =>
    call.FixCheckInTime s now ∧ FixChecksInTime (call.step s now) rest

/-! ### One call and one row -/

/-- The columns of the lease protocol are as they were. -/
structure SameLease (b b' : BugRow) : Prop where
  id : b'.id = b.id
  pipelineState : b'.pipelineState = b.pipelineState
  lockedBy : b'.lockedBy = b.lockedBy
  leaseExpiresAt : b'.leaseExpiresAt = b.leaseExpiresAt
  attemptCount : b'.attemptCount = b.attemptCount

theorem SameLease.refl (b : BugRow) : SameLease b b := ⟨rfl, rfl, rfl, rfl, rfl⟩

theorem SameLease.trans {a b c : BugRow} (h₁ : SameLease a b) (h₂ : SameLease b c) :
    SameLease a c :=
  ⟨h₂.1.trans h₁.1, h₂.2.trans h₁.2, h₂.3.trans h₁.3, h₂.4.trans h₁.4, h₂.5.trans h₁.5⟩

/-- What a call can do to the lease of a bug. -/
inductive LeaseStep (s : BugStore) (now : ℤ) (call : BugCall) (b b' : BugRow) : Prop
  | kept (h : SameLease b b')
  | succeeded (hstate : b'.pipelineState = .succeeded) (hlock : b'.lockedBy = b.lockedBy)
      (hlease : b'.leaseExpiresAt = b.leaseExpiresAt) (hcount : b'.attemptCount = b.attemptCount)
  | renewed (hleased : b.leased now = true)
      (hstate : b.pipelineState = .running ∨ b.pipelineState = .succeeded)
      (hstate' : b'.pipelineState = b.pipelineState) (hlock : b'.lockedBy = b.lockedBy)
      (hcount : b'.attemptCount = b.attemptCount)
  | released (hlock : b'.lockedBy = none) (hcount : b'.attemptCount = b.attemptCount)
  | attempt (workerId : String) (ttl maxAttempts : ℤ)
      (hcall : call = .claimPendingBug workerId ttl maxAttempts)
      (hgranted : call.granted s now = some ⟨b.id, workerId⟩)
      (hclaimable : claimable now maxAttempts b = true) (hstate : b'.pipelineState = .running)
      (hlock : b'.lockedBy = some workerId) (hcount : b'.attemptCount = b.attemptCount + 1)
  | fixCheck (workerId : String) (hgranted : call.granted s now = some ⟨b.id, workerId⟩)
      (hover : b.leaseOver now = true) (hstate : b'.pipelineState = .succeeded)
      (hlock : b'.lockedBy = some workerId) (hcount : b'.attemptCount = b.attemptCount)

/-- A bug that a call has just recorded, free or under the lease of its creator. -/
inductive CreatedRow (s : BugStore) (now : ℤ) (call : BugCall) (b' : BugRow) : Prop
  | free (hlock : b'.lockedBy = none) (hcount : b'.attemptCount = 0)
  | claimed (workerId : String) (hgranted : call.granted s now = some ⟨b'.id, workerId⟩)
      (hattempted : call.attempted s now = some b'.id) (hstate : b'.pipelineState = .running)
      (hlock : b'.lockedBy = some workerId) (hcount : b'.attemptCount = 1)

/-- Where a row of the state after a call comes from. -/
def RowStep (s : BugStore) (now : ℤ) (call : BugCall) (b' : BugRow) : Prop :=
  (∃ b ∈ s.bugs.rows, b'.id = b.id ∧ LeaseStep s now call b b') ∨
    ((∀ b ∈ s.bugs.rows, b.id ≠ b'.id) ∧ CreatedRow s now call b')

end Sashiko
