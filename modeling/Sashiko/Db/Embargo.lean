import Mathlib
import Sashiko.Db.BugStore

/-! The embargo on the results of a patchset, and the two places that decide whether a review came
out clean: the predicate inside the statements that list and claim a release, and the queries that
name the outcome of a review. A release is claimed before the embargo ends only for a clean one. -/

namespace Sashiko

structure EmbargoedPatchset extends PatchsetRow where
  date : Option ℤ
  mrUrl : Option String
  embargoUntil : Option ℤ
  embargoReleaseStartedAt : Option ℤ
  deriving DecidableEq, Repr

structure MailedPatch extends PatchRow where
  messageId : String
  deriving DecidableEq, Repr

structure ReleaseStore where
  patchsets : Table fun p : EmbargoedPatchset => p.id
  patches : Table fun p : MailedPatch => p.id
  reviews : Table ReviewRow.id
  findings : Table FindingRow.id
  preexistingDisclosures : Table PreexistingDisclosureRow.id

inductive PatchsetReviewOutcome where
  | clean
  | hasFindings
  | incomplete
  deriving DecidableEq, Repr

def noAiDescription : String := "Skipped AI review via --no-ai"

def ignoredFilesDescription : String := "Skipped: touches only ignored files"

namespace ReleaseStore

/-- `CLEAN_PATCHSET_PREDICATE`, on the row `p`. -/
def cleanPatchsetPredicate (s : ReleaseStore) (p : EmbargoedPatchset) : Bool :=
  (s.reviews.any fun r => r.patchsetId = p.id && r.status = some .reviewed) &&
  !(s.reviews.any fun r => r.patchsetId = p.id && r.status = some .skipped &&
    r.resultDescription = some noAiDescription) &&
  !(s.patches.any fun pa => pa.patchsetId = p.id && pa.status ≠ some .skipped &&
    !(s.reviews.any fun skipped => skipped.patchId = some pa.id &&
      skipped.status = some .skipped &&
      skipped.resultDescription = some ignoredFilesDescription) &&
    ((s.reviews.rows.filter fun completed => completed.patchId = some pa.id &&
      completed.status = some .reviewed).length : ℤ) < p.targetReviewCount.getD 1) &&
  !(s.reviews.any fun r => s.findings.any fun f => f.reviewId = r.id &&
    (r.patchsetId = p.id && r.status = some .reviewed)) &&
  !(s.patches.any fun pd => s.preexistingDisclosures.any fun d =>
    d.patchMessageId = pd.messageId && (pd.patchsetId = p.id && d.disclosedAt.isNone))

def getPatchsetReviewOutcome (s : ReleaseStore) (patchsetId : ℤ) : PatchsetReviewOutcome :=
  match s.patchsets.lookup patchsetId with
  | none => .incomplete
  | some row =>
    let targetReviewCount := row.targetReviewCount.getD 1
    if row.status ≠ some .reviewed then .incomplete
    else if s.reviews.any fun r => r.patchsetId = patchsetId && r.status = some .skipped &&
        r.resultDescription = some noAiDescription then .incomplete
    else if s.patches.any fun p => p.patchsetId = patchsetId && p.status ≠ some .skipped &&
        !(s.reviews.any fun skipped => skipped.patchId = some p.id &&
          skipped.status = some .skipped &&
          skipped.resultDescription = some ignoredFilesDescription) &&
        ((s.reviews.rows.filter fun r => r.patchId = some p.id &&
          r.status = some .reviewed).length : ℤ) < targetReviewCount then .incomplete
    else if !(s.reviews.any fun r => r.patchsetId = patchsetId && r.status = some .reviewed) then
      .incomplete
    else if s.findings.any fun f => s.reviews.any fun r => r.id = f.reviewId &&
        (r.patchsetId = patchsetId && r.status = some .reviewed) then .hasFindings
    else if s.patches.any fun pd => s.preexistingDisclosures.any fun d =>
        d.patchMessageId = pd.messageId &&
          (pd.patchsetId = patchsetId && d.disclosedAt.isNone) then .hasFindings
    else .clean

/-- The WHERE clause shared by listing and claiming a release, without the id. -/
def releasable (s : ReleaseStore) (now : ℤ) (p : EmbargoedPatchset) : Bool :=
  (p.status = some .reviewed || (p.status = some .failed && p.mrUrl.isSome)) &&
  p.embargoUntil.isSome &&
  (p.embargoReleaseStartedAt.isNone || p.embargoReleaseStartedAt.any (· ≤ now - 600)) &&
  (p.embargoUntil.any (· ≤ now) || (p.status = some .reviewed && s.cleanPatchsetPredicate p))

/-- The order of the release: ended embargoes first, and by date, with `NULL` before any date. -/
def releaseOrder (now : ℤ) (p : EmbargoedPatchset) : ℕ ×ₗ WithBot ℤ :=
  toLex (if p.embargoUntil.any (· ≤ now) then 0 else 1, p.date)

def getReleasableEmbargoedPatchsets (s : ReleaseStore) (now : ℤ) (limit : ℕ) :
    List EmbargoedPatchset :=
  ((s.patchsets.rows.filter (s.releasable now)).mergeSort
    fun a b => decide (releaseOrder now a ≤ releaseOrder now b)).take limit

/-- The state after the statement, and whether it updated one row. -/
def claimPatchsetEmbargoRelease (s : ReleaseStore) (id now : ℤ) : ReleaseStore × Bool :=
  let claimed := fun p : EmbargoedPatchset => p.id = id && s.releasable now p
  let stamped := s.patchsets.update claimed
    fun p => { p with embargoReleaseStartedAt := some now }
  ({ s with patchsets := stamped }, (s.patchsets.rows.filter claimed).length = 1)

end ReleaseStore

variable {s : ReleaseStore} {p : EmbargoedPatchset}

namespace ReleaseStore

/-- The completed reviews of a patch. -/
def completedReviews (s : ReleaseStore) (patchId : ℤ) : List ReviewRow :=
  s.reviews.rows.filter fun r => r.patchId = some patchId && r.status = some .reviewed

/-- The patch is skipped, by its own status or by a review that found only ignored files. -/
def Skipped (s : ReleaseStore) (pa : MailedPatch) : Prop :=
  pa.status = some .skipped ∨ ∃ r ∈ s.reviews.rows, r.patchId = some pa.id ∧
    r.status = some .skipped ∧ r.resultDescription = some ignoredFilesDescription

/-- A review of the patchset that is complete and found nothing that is not mailed yet. -/
structure CleanReview (s : ReleaseStore) (p : EmbargoedPatchset) : Prop where
  reviewed : ∃ r ∈ s.reviews.rows, r.patchsetId = p.id ∧ r.status = some .reviewed
  withAi : ∀ r ∈ s.reviews.rows, r.patchsetId = p.id → r.status = some .skipped →
    r.resultDescription ≠ some noAiDescription
  target : ∀ pa ∈ s.patches.rows, pa.patchsetId = p.id → ¬s.Skipped pa →
    p.targetReviewCount.getD 1 ≤ (s.completedReviews pa.id).length
  noFinding : ∀ f ∈ s.findings.rows, ∀ r ∈ s.reviews.rows, f.reviewId = r.id →
    r.patchsetId = p.id → r.status ≠ some .reviewed
  allMailed : ∀ pa ∈ s.patches.rows, pa.patchsetId = p.id →
    ∀ d ∈ s.preexistingDisclosures.rows, d.patchMessageId = pa.messageId →
      d.disclosedAt.isSome = true

/-! ### What each query asks -/

theorem any_eq_false {ρ κ : Type*} {key : ρ → κ} {t : Table key} {q : ρ → Bool} :
    t.any q = false ↔ ∀ r ∈ t.rows, q r = false := by
  rw [Table.any, List.any_eq_false]
  simp only [Bool.not_eq_true]

theorem query_reviewed (id : ℤ) :
    (s.reviews.any fun r => r.patchsetId = id && r.status = some .reviewed) = true ↔
      ∃ r ∈ s.reviews.rows, r.patchsetId = id ∧ r.status = some .reviewed := by
  simp [Table.any_eq_true]

theorem query_noAi (id : ℤ) :
    (s.reviews.any fun r => r.patchsetId = id && r.status = some .skipped &&
      r.resultDescription = some noAiDescription) = false ↔
    ∀ r ∈ s.reviews.rows, r.patchsetId = id → r.status = some .skipped →
      r.resultDescription ≠ some noAiDescription := by
  simp [any_eq_false]

theorem query_ignoredFiles (pa : MailedPatch) :
    (pa.status ≠ some .skipped && !(s.reviews.any fun skipped => skipped.patchId = some pa.id &&
      skipped.status = some .skipped &&
      skipped.resultDescription = some ignoredFilesDescription)) = true ↔ ¬s.Skipped pa := by
  simp [Skipped, any_eq_false]

theorem query_target (id target : ℤ) :
    (s.patches.any fun pa => pa.patchsetId = id && pa.status ≠ some .skipped &&
      !(s.reviews.any fun skipped => skipped.patchId = some pa.id &&
        skipped.status = some .skipped &&
        skipped.resultDescription = some ignoredFilesDescription) &&
      ((s.reviews.rows.filter fun r => r.patchId = some pa.id &&
        r.status = some .reviewed).length : ℤ) < target) = false ↔
    ∀ pa ∈ s.patches.rows, pa.patchsetId = id → ¬s.Skipped pa →
      target ≤ (s.completedReviews pa.id).length := by
  rw [any_eq_false]
  refine forall₂_congr fun pa _ => ?_
  rw [Bool.and_assoc (decide (pa.patchsetId = id)), Bool.and_eq_false_iff, Bool.and_eq_false_iff,
    decide_eq_false_iff_not, decide_eq_false_iff_not, not_lt, ← Bool.not_eq_true,
    query_ignoredFiles]
  tauto

theorem query_findings (id : ℤ) :
    (s.reviews.any fun r => s.findings.any fun f => f.reviewId = r.id &&
      (r.patchsetId = id && r.status = some .reviewed)) = false ↔
    ∀ f ∈ s.findings.rows, ∀ r ∈ s.reviews.rows, f.reviewId = r.id →
      r.patchsetId = id → r.status ≠ some .reviewed := by
  simp only [any_eq_false, Bool.and_eq_false_imp, decide_eq_true_iff, decide_eq_false_iff_not]
  exact ⟨fun h f hf r hr => h r hr f hf, fun h r hr f hf => h f hf r hr⟩

/-- The same two tables joined the other way round. -/
theorem query_findings' (id : ℤ) :
    (s.findings.any fun f => s.reviews.any fun r => r.id = f.reviewId &&
      (r.patchsetId = id && r.status = some .reviewed)) = false ↔
    ∀ f ∈ s.findings.rows, ∀ r ∈ s.reviews.rows, f.reviewId = r.id →
      r.patchsetId = id → r.status ≠ some .reviewed := by
  simp only [any_eq_false, Bool.and_eq_false_imp, decide_eq_true_iff, decide_eq_false_iff_not]
  exact ⟨fun h f hf r hr hfr => h f hf r hr hfr.symm, fun h f hf r hr hfr => h f hf r hr hfr.symm⟩

theorem query_unmailed (id : ℤ) :
    (s.patches.any fun pd => s.preexistingDisclosures.any fun d =>
      d.patchMessageId = pd.messageId && (pd.patchsetId = id && d.disclosedAt.isNone)) = false ↔
    ∀ pa ∈ s.patches.rows, pa.patchsetId = id → ∀ d ∈ s.preexistingDisclosures.rows,
      d.patchMessageId = pa.messageId → d.disclosedAt.isSome = true := by
  simp only [any_eq_false, Bool.and_eq_false_imp, decide_eq_true_iff, Option.isNone_eq_false_iff]
  exact ⟨fun h pa hpa hid d hd hmsg => h pa hpa d hd hmsg hid,
    fun h pa hpa d hd hmsg hid => h pa hpa hid d hd hmsg⟩

theorem cleanPatchsetPredicate_iff : s.cleanPatchsetPredicate p = true ↔ s.CleanReview p := by
  unfold cleanPatchsetPredicate
  simp only [Bool.and_eq_true, Bool.not_eq_true', query_reviewed, query_noAi, query_target,
    query_findings, query_unmailed]
  constructor
  · rintro ⟨⟨⟨⟨hrev, hai⟩, htarget⟩, hfind⟩, hmail⟩
    exact ⟨hrev, hai, htarget, hfind, hmail⟩
  · rintro ⟨hrev, hai, htarget, hfind, hmail⟩
    exact ⟨⟨⟨⟨hrev, hai⟩, htarget⟩, hfind⟩, hmail⟩

/-- The queries of the outcome, one after the other, ask for what the predicate asks at once. -/
theorem getPatchsetReviewOutcome_clean (hp : p ∈ s.patchsets.rows) :
    s.getPatchsetReviewOutcome p.id = .clean ↔ p.status = some .reviewed ∧ s.CleanReview p := by
  have hrow : s.patchsets.lookup p.id = some p := Table.lookup_eq_some.mpr ⟨hp, rfl⟩
  unfold getPatchsetReviewOutcome
  simp only [hrow]
  constructor
  · intro h
    split_ifs at h with hstatus hai htarget hrev hfind hmail
    rw [Bool.not_eq_true] at hai htarget hrev hfind hmail
    exact ⟨not_not.mp hstatus, (query_reviewed _).mp (by simpa using hrev),
      (query_noAi _).mp hai, (query_target _ _).mp htarget, (query_findings' _).mp hfind,
      (query_unmailed _).mp hmail⟩
  · rintro ⟨hstatus, hclean⟩
    have hrev := (query_reviewed _).mpr hclean.reviewed
    rw [if_neg (not_not.mpr hstatus),
      if_neg (ne_true_of_eq_false ((query_noAi _).mpr hclean.withAi)),
      if_neg (ne_true_of_eq_false ((query_target _ _).mpr hclean.target)),
      if_neg (ne_true_of_eq_false (congrArg Bool.not hrev)),
      if_neg (ne_true_of_eq_false ((query_findings' _).mpr hclean.noFinding)),
      if_neg (ne_true_of_eq_false ((query_unmailed _).mpr hclean.allMailed))]

/-! ### Releases before the embargo ends -/

theorem outcome_of_releasable {now : ℤ}
    (hrel : s.releasable now p = true) (hearly : ¬p.embargoUntil.any (· ≤ now) = true) :
    p.status = some .reviewed ∧ s.CleanReview p := by
  unfold releasable at hrel
  simp only [Bool.and_eq_true, Bool.or_eq_true, decide_eq_true_iff] at hrel
  obtain ⟨hstatus, hclean⟩ := hrel.2.resolve_left hearly
  exact ⟨hstatus, cleanPatchsetPredicate_iff.mp hclean⟩

theorem releasable_of_claimed {id now : ℤ}
    (h : (s.claimPatchsetEmbargoRelease id now).2 = true) (hp : p ∈ s.patchsets.rows)
    (hid : p.id = id) : s.releasable now p = true := by
  obtain ⟨q, hq⟩ := List.length_eq_one_iff.mp (of_decide_eq_true h)
  have hmem : q ∈ s.patchsets.rows.filter fun p => p.id = id && s.releasable now p :=
    hq ▸ List.mem_singleton_self q
  obtain ⟨hqmem, hqrel⟩ := List.mem_filter.mp hmem
  rw [Bool.and_eq_true, decide_eq_true_iff] at hqrel
  rw [Table.eq_of_key_eq hp hqmem (hid.trans hqrel.1.symm)]
  exact hqrel.2

theorem releasable_of_listed {now : ℤ} {limit : ℕ}
    (h : p ∈ s.getReleasableEmbargoedPatchsets now limit) :
    p ∈ s.patchsets.rows ∧ s.releasable now p = true :=
  List.mem_filter.mp ((List.mergeSort_perm _ _).mem_iff.mp (List.mem_of_mem_take h))

end ReleaseStore

open ReleaseStore

/-- The predicate of the statements and the outcome agree in every state. Hence a release that is
claimed, or listed, before the embargo ends is one of a clean review: no completed review of the
patchset has a finding, no related bug is unmailed, and every patch that is not skipped has as many
completed reviews as it needs. -/
theorem early_release_clean (s : ReleaseStore) :
    (∀ p ∈ s.patchsets.rows, (p.status = some .reviewed ∧ s.cleanPatchsetPredicate p = true) ↔
      s.getPatchsetReviewOutcome p.id = .clean) ∧
    (∀ id now, (s.claimPatchsetEmbargoRelease id now).2 = true →
      ∀ p ∈ s.patchsets.rows, p.id = id → ¬p.embargoUntil.any (· ≤ now) = true →
        s.getPatchsetReviewOutcome id = .clean ∧ s.CleanReview p) ∧
    ∀ now limit, ∀ p ∈ s.getReleasableEmbargoedPatchsets now limit,
      ¬p.embargoUntil.any (· ≤ now) = true →
        s.getPatchsetReviewOutcome p.id = .clean ∧ s.CleanReview p := by
  refine ⟨fun p hp => ?_, fun id now hclaim p hp hid hearly => ?_, fun now limit p hp hearly => ?_⟩
  · rw [getPatchsetReviewOutcome_clean hp, cleanPatchsetPredicate_iff]
  · have h := outcome_of_releasable (releasable_of_claimed hclaim hp hid) hearly
    exact ⟨hid ▸ (getPatchsetReviewOutcome_clean hp).mpr h, h.2⟩
  · obtain ⟨hmem, hrel⟩ := releasable_of_listed hp
    have h := outcome_of_releasable hrel hearly
    exact ⟨(getPatchsetReviewOutcome_clean hmem).mpr h, h.2⟩

def reviewOf (id patchId : ℤ) (status : StatusText) : ReviewRow :=
  ⟨id, 1, some patchId, none, none, 0, none, some status, none, none, none, "", none, ""⟩

/-- One patch is reviewed and clean, the other one is skipped and a failed review of it left a
finding. -/
def skippedPart : ReleaseStore where
  patchsets := ⟨[⟨⟨1, some .reviewed, none, none⟩, none, none, some 1000, none⟩], by decide⟩
  patches := ⟨[⟨⟨1, 1, some .reviewed, none⟩, "a"⟩, ⟨⟨2, 1, some .skipped, none⟩, "b"⟩], by decide⟩
  reviews := ⟨[reviewOf 1 1 .reviewed, reviewOf 2 2 .failed], by decide⟩
  findings := ⟨[⟨1, 2, 3, none, "", none, none⟩], by decide⟩
  preexistingDisclosures := Table.empty

/-- A patchset is released early with a finding on one of its reviews, and with a patch that has no
completed review at all. -/
theorem early_release_skippedPart : ¬∀ (s : ReleaseStore) (id now : ℤ),
    (s.claimPatchsetEmbargoRelease id now).2 = true → ∀ p ∈ s.patchsets.rows, p.id = id →
      ¬p.embargoUntil.any (· ≤ now) = true →
        (∀ f ∈ s.findings.rows, ∀ r ∈ s.reviews.rows, f.reviewId = r.id → r.patchsetId ≠ id) ∨
        ∀ pa ∈ s.patches.rows, pa.patchsetId = id →
          p.targetReviewCount.getD 1 ≤ (s.completedReviews pa.id).length := by
  intro h
  have hclaim : (skippedPart.claimPatchsetEmbargoRelease 1 0).2 = true := by decide
  rcases h skippedPart 1 0 hclaim _ List.mem_cons_self rfl (by decide) with hfind | htarget
  · exact hfind _ List.mem_cons_self (reviewOf 2 2 .failed)
      (List.mem_cons_of_mem _ List.mem_cons_self) rfl rfl
  · have hpatch := htarget _ (List.mem_cons_of_mem _ List.mem_cons_self) rfl
    exact absurd hpatch (by decide)

end Sashiko
