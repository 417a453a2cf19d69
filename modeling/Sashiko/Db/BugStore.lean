import Sashiko.Db.Store

/-! The tables of the bug pipeline: bugs with their triage, pipeline state and worker lease,
the enrichments recorded about them, and their links to reviews. -/

namespace Sashiko

inductive BugLifecycleStatus where
  | new
  | «open»
  | fixed
  | dismissed
  | duplicate
  | closed
  deriving DecidableEq, Repr

inductive BugPipelineState where
  | pending
  | running
  | succeeded
  | failed
  | abandoned
  deriving DecidableEq, Repr

/-- `lifecycle_status` with `duplicate_of_id`: the schema's check that a bug is a duplicate if
and only if it points at a canonical bug is this type. -/
inductive BugTriage where
  | new
  | «open»
  | fixed
  | dismissed
  | closed
  | duplicateOf (canonicalId : ℤ)
  deriving DecidableEq, Repr

namespace BugTriage

def lifecycleStatus : BugTriage → BugLifecycleStatus
  | .new => .new
  | .«open» => .«open»
  | .fixed => .fixed
  | .dismissed => .dismissed
  | .closed => .closed
  | .duplicateOf _ => .duplicate

def duplicateOfId : BugTriage → Option ℤ
  | .duplicateOf canonicalId => some canonicalId
  | _ => none

/-- `none` where the two columns fail the check. -/
def ofColumns : BugLifecycleStatus → Option ℤ → Option BugTriage
  | .new, none => some .new
  | .«open», none => some .«open»
  | .fixed, none => some .fixed
  | .dismissed, none => some .dismissed
  | .closed, none => some .closed
  | .duplicate, some canonicalId => some (.duplicateOf canonicalId)
  | _, _ => none

theorem lifecycleStatus_eq_duplicate (t : BugTriage) :
    t.lifecycleStatus = .duplicate ↔ t.duplicateOfId ≠ none := by
  cases t <;> simp [lifecycleStatus, duplicateOfId]

end BugTriage

structure BugRow where
  id : ℤ
  bugid : String
  title : String
  triage : BugTriage
  pipelineState : BugPipelineState
  lockedBy : Option String
  leaseExpiresAt : Option ℤ
  attemptCount : ℤ
  lastError : Option String
  verifiedOnSha : Option String
  createdAt : ℤ
  updatedAt : ℤ
  deriving DecidableEq, Repr

structure BugEnrichmentRow where
  id : ℤ
  bugId : ℤ
  kind : String
  createdAt : ℤ
  content : Option String
  dataJson : Option Json
  deriving DecidableEq, Repr

structure BugReviewRow where
  reviewId : ℤ
  bugId : ℤ
  isNewlyDiscovered : Bool
  deriving DecidableEq, Repr

def BugReviewRow.key (r : BugReviewRow) : ℤ × ℤ := (r.reviewId, r.bugId)

inductive DisclosureRelation where
  | sameCode
  | samePattern
  | other
  deriving DecidableEq, Repr

/-- `disclosed_at` is NULL while the row only reserves its bug; `files` are the rows of
`preexisting_disclosure_files`. -/
structure PreexistingDisclosureRow where
  id : ℤ
  patchMessageId : String
  fingerprint : String
  problem : String
  severity : Severity
  relation : DisclosureRelation
  locationsJson : String
  bugKeyJson : String
  reportText : String
  reservedAt : ℤ
  disclosedAt : Option ℤ
  bugId : Option ℤ
  files : List String
  deriving DecidableEq, Repr

/-- The exact attempt that claimed a bug. -/
structure BugAnalysisClaim where
  bugId : ℤ
  owner : String
  deriving DecidableEq, Repr

structure BugStore extends Store where
  bugs : Table BugRow.id
  bugEnrichments : Table BugEnrichmentRow.id
  bugReviews : Table BugReviewRow.key
  preexistingDisclosures : Table PreexistingDisclosureRow.id

namespace BugStore

/-- `UPDATE bugs SET f WHERE p`. -/
def setBugs (s : BugStore) (p : BugRow → Bool) (f : BugRow → BugRow)
    (hf : ∀ b, (f b).id = b.id := by intro _; rfl) : BugStore :=
  { s with bugs := s.bugs.update p f hf }

end BugStore

/-! ### Leases -/

namespace BugRow

/-- `lease_expires_at >= now` -/
def leased (now : ℤ) (b : BugRow) : Bool :=
  match b.leaseExpiresAt with
  | some expiry => now ≤ expiry
  | none => false

/-- `lease_expires_at IS NULL OR lease_expires_at < now` -/
def leaseLapsed (now : ℤ) (b : BugRow) : Bool :=
  match b.leaseExpiresAt with
  | some expiry => expiry < now
  | none => true

/-- `lease_expires_at IS NULL OR lease_expires_at <= now` -/
def leaseOver (now : ℤ) (b : BugRow) : Bool :=
  match b.leaseExpiresAt with
  | some expiry => expiry ≤ now
  | none => true

/-- The analysis is neither done nor given up, and nobody is at it. -/
def unattended (now : ℤ) (b : BugRow) : Bool :=
  b.pipelineState = .pending || b.pipelineState = .failed ||
    (b.pipelineState = .running && b.leaseLapsed now)

/-- The ownership check of `begin_bug_write`. -/
def heldBy (claim : BugAnalysisClaim) (now : ℤ) (b : BugRow) : Bool :=
  b.id = claim.bugId && b.lockedBy = some claim.owner && b.leased now &&
    (b.pipelineState = .running || b.pipelineState = .succeeded)

theorem leased_iff {now : ℤ} {b : BugRow} :
    b.leased now = true ↔ ∃ expiry, b.leaseExpiresAt = some expiry ∧ now ≤ expiry := by
  unfold leased
  rcases b.leaseExpiresAt with _ | expiry
  · simp
  · simp

theorem leaseLapsed_eq (now : ℤ) (b : BugRow) : b.leaseLapsed now = !b.leased now := by
  unfold leaseLapsed leased
  rcases b.leaseExpiresAt with _ | expiry
  · rfl
  · rcases lt_or_ge expiry now with h | h
    · simp [h, not_le.mpr h]
    · simp [h, not_lt.mpr h]

end BugRow

end Sashiko
