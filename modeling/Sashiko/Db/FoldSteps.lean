import Sashiko.Db.BugFolds
import Sashiko.Db.LeaseSteps

/-! What each call does to the duplicate graph and to the links between reviews and bugs. -/

namespace Sashiko

open BugStore

variable {s s' s'' : BugStore} {now : ℤ}

def BugStore.bugIds (s : BugStore) : List ℤ := s.bugs.rows.map (·.id)

/-- Bugs, duplicate graph and links are as they were. -/
structure FoldFrame (s s' : BugStore) : Prop where
  bugIds : s'.bugIds = s.bugIds
  duplicateOf : s'.duplicateOf = s.duplicateOf
  bugReviews : s'.bugReviews = s.bugReviews

/-- A bug of its own, or a duplicate of one that exists, and nothing else. -/
structure Creates (s s' : BugStore) (id : ℤ) (canonicalId : Option ℤ) : Prop where
  fresh : id ∉ s.bugIds
  canonical_mem : ∀ c, canonicalId = some c → c ∈ s.bugIds
  bugIds : s'.bugIds = s.bugIds ++ [id]
  duplicateOf : s'.duplicateOf = Function.update s.duplicateOf id canonicalId
  bugReviews : s'.bugReviews = s.bugReviews

structure Links (s s' : BugStore) (reviewId bugId : ℤ) (isNewlyDiscovered : Bool) : Prop where
  bug_mem : bugId ∈ s.bugIds
  bugs : s'.bugs = s.bugs
  bugReviews : s'.bugReviews =
    s.bugReviews.upsert ⟨reviewId, bugId, isNewlyDiscovered⟩ fun l =>
      { l with isNewlyDiscovered := l.isNewlyDiscovered || isNewlyDiscovered }

structure Folds (s s' : BugStore) (ephemeralId canonicalId : ℤ) : Prop where
  distinct : ephemeralId ≠ canonicalId
  ephemeral_mem : ephemeralId ∈ s.bugIds
  canonical_mem : canonicalId ∈ s.bugIds
  canonical_root : s.duplicateOf canonicalId = none
  bugIds : s'.bugIds = s.bugIds
  duplicateOf : s'.duplicateOf = Function.update s.duplicateOf ephemeralId (some canonicalId)
  bugReviews : s'.bugReviews = (s.migrateReviewBugsIn ephemeralId canonicalId).bugReviews

inductive FoldStep (s s' : BugStore) (now : ℤ) (call : FoldCall) : Prop
  | kept (h : FoldFrame s s')
  | created (id : ℤ) (canonicalId : Option ℤ) (h : Creates s s' id canonicalId)
  | linked (reviewId bugId : ℤ) (isNewlyDiscovered : Bool)
      (h : Links s s' reviewId bugId isNewlyDiscovered)
  | folded (claim : Option BugAnalysisClaim) (params : MarkDuplicateBugParams)
      (hcall : call = .markBugAsDuplicate claim params)
      (hok : s.markBugAsDuplicate claim params now = .ok (true, s'))
      (h : Folds s s' params.ephemeralId params.canonicalId)

/-! ### What leaves the graph and the links alone -/

theorem FoldFrame.refl (s : BugStore) : FoldFrame s s := ⟨rfl, rfl, rfl⟩

theorem FoldFrame.trans (h₁ : FoldFrame s s') (h₂ : FoldFrame s' s'') : FoldFrame s s'' :=
  ⟨h₂.1.trans h₁.1, h₂.2.trans h₁.2, h₂.3.trans h₁.3⟩

theorem bugIds_setBugs {sel : BugRow → Bool} {f : BugRow → BugRow} {hf} :
    (s.setBugs sel f hf).bugIds = s.bugIds := by
  change (s.bugs.rows.map (Table.updateRow sel f)).map (·.id) = s.bugs.rows.map (·.id)
  rw [List.map_map]
  exact List.map_congr_left fun b _ => Table.key_updateRow hf sel b

theorem duplicateOf_setBugs {sel : BugRow → Bool} {f : BugRow → BugRow} {hf} (id : ℤ) :
    (s.setBugs sel f hf).duplicateOf id =
      (s.bugs.lookup id).bind fun b => (Table.updateRow sel f b).triage.duplicateOfId := by
  change ((s.bugs.update sel f hf).lookup id).bind _ = _
  rw [Table.lookup_update hf, Option.bind_map]
  rfl

theorem foldFrame_setBugs {sel : BugRow → Bool} {f : BugRow → BugRow} {hf}
    (h : ∀ b, sel b = true → (f b).triage.duplicateOfId = b.triage.duplicateOfId) :
    FoldFrame s (s.setBugs sel f hf) where
  bugIds := bugIds_setBugs
  duplicateOf := by
    funext id
    rw [duplicateOf_setBugs]
    unfold duplicateOf
    congr 1
    funext b
    unfold Table.updateRow
    split_ifs with hsel
    · exact h b hsel
    · rfl
  bugReviews := rfl

theorem foldFrame_projectVerification (bugId : ℤ) (e : NewBugEnrichment) :
    FoldFrame s (s.projectVerification bugId e) := by
  unfold projectVerification
  split
  · refine foldFrame_setBugs fun b _ => ?_
    rfl
  · exact FoldFrame.refl s

theorem foldFrame_insertBugEnrichment {bugId : ℤ} {e : NewBugEnrichment}
    (h : s.insertBugEnrichment bugId e now = .ok s') : FoldFrame s s' := by
  unfold insertBugEnrichment at h
  split at h
  · cases h
    refine FoldFrame.trans ?_ (foldFrame_projectVerification bugId e)
    exact ⟨rfl, rfl, rfl⟩
  · cases h

theorem foldFrame_insertBugEnrichments {bugId : ℤ} (es : List NewBugEnrichment) :
    ∀ s : BugStore, s.insertBugEnrichments bugId now es = .ok s' → FoldFrame s s' := by
  induction es with
  | nil =>
    intro s h
    cases h
    exact FoldFrame.refl _
  | cons e es ih =>
    intro s h
    obtain ⟨s₁, he, hes⟩ := bind_ok h
    exact (foldFrame_insertBugEnrichment he).trans (ih s₁ hes)

theorem foldFrame_retitle (id : ℤ) (problem : Option String) :
    FoldFrame s (s.retitle id problem now) := by
  rcases problem with _ | title
  · exact FoldFrame.refl s
  · refine foldFrame_setBugs fun b _ => ?_
    rfl

theorem ofColumns_none {status : BugLifecycleStatus} {triage : BugTriage}
    (h : BugTriage.ofColumns status none = some triage) : triage.duplicateOfId = none := by
  rcases status with _ | _ | _ | _ | _ | _ <;> cases h <;> rfl

theorem foldFrame_triageNewBug {id : ℤ} {status : BugLifecycleStatus}
    (h : s.triageNewBug id status now = .ok s') : FoldFrame s s' := by
  unfold triageNewBug at h
  split at h
  · rename_i triage htriage
    cases h
    refine foldFrame_setBugs fun b hsel => ?_
    rw [Bool.and_eq_true, decide_eq_true_eq, decide_eq_true_eq] at hsel
    rw [hsel.2]
    exact ofColumns_none htriage
  · split at h
    · cases h
    · cases h
      exact FoldFrame.refl s

theorem foldFrame_advance {id : ℤ} {params : UpstreamFixCheckParams}
    (h : s.advanceLatestVerificationSha id params now = .ok s') : FoldFrame s s' := by
  unfold advanceLatestVerificationSha at h
  split at h
  · cases h
    exact ⟨rfl, rfl, rfl⟩
  · exact foldFrame_insertBugEnrichment h

theorem foldFrame_recordStillPresent {id : ℤ} {params : UpstreamFixCheckParams}
    (h : s.recordStillPresent id params now = .ok s') : FoldFrame s s' := by
  unfold recordStillPresent at h
  split at h
  · exact foldFrame_insertBugEnrichment h
  · exact foldFrame_advance h

theorem foldFrame_recordUpstreamFixCheck {claim : Option BugAnalysisClaim} {id : ℤ}
    {params : UpstreamFixCheckParams} {applied : Bool}
    (h : s.recordUpstreamFixCheck claim id params now = .ok (applied, s')) : FoldFrame s s' := by
  unfold recordUpstreamFixCheck at h
  split at h
  · split at h
    · obtain ⟨s₁, hadvance, h⟩ := bind_ok h
      obtain ⟨s₂, hinsert, h⟩ := bind_ok h
      cases h
      refine FoldFrame.trans ?_
        ((foldFrame_advance hadvance).trans (foldFrame_insertBugEnrichment hinsert))
      refine foldFrame_setBugs fun b hsel => ?_
      simp only [fixCheckable, Bool.and_eq_true, decide_eq_true_eq] at hsel
      rw [hsel.1.2]
      rfl
    · obtain ⟨s₁, hrecord, h⟩ := bind_ok h
      cases h
      refine FoldFrame.trans ?_ (foldFrame_recordStillPresent hrecord)
      refine foldFrame_setBugs fun b _ => ?_
      rfl
  · cases h
    exact FoldFrame.refl s

/-! ### One call -/

theorem bug_mem_bugIds {b : BugRow} (hb : b ∈ s.bugs.rows) : b.id ∈ s.bugIds :=
  List.mem_map_of_mem hb

theorem mem_bugIds_iff_lookup {id : ℤ} : id ∈ s.bugIds ↔ s.bugs.any (·.id = id) = true := by
  rw [Table.any_eq_true]
  simp [bugIds]

theorem creates_insertBug {bug : NewBug} {id : ℤ} (h : s.insertBug bug now = .ok (id, s')) :
    ∃ canonicalId, Creates s s' id canonicalId := by
  unfold insertBug at h
  split at h
  · cases h
  · split at h
    · cases h
    · rename_i triage _
      split at h
      · rename_i hcanonical
        cases h
        refine ⟨triage.duplicateOfId, ?_, ?_, ?_, ?_, rfl⟩
        · intro hmem
          obtain ⟨b, hb, hid⟩ := List.mem_map.mp hmem
          exact Table.key_ne_nextKey hb 0 hid
        · intro c hc
          rw [hc, Option.all_some] at hcanonical
          exact mem_bugIds_iff_lookup.mpr hcanonical
        · exact List.map_append
        · funext x
          unfold duplicateOf
          rw [Table.lookup_insertNext]
          by_cases hx : x = s.bugs.nextKey 0
          · rw [if_pos hx, hx, Function.update_self]
            rfl
          · rw [if_neg hx, Function.update_of_ne hx]
      · cases h

theorem Creates.then_frame {id : ℤ} {canonicalId : Option ℤ} (h : Creates s s' id canonicalId)
    (hframe : FoldFrame s' s'') : Creates s s'' id canonicalId where
  fresh := h.fresh
  canonical_mem := h.canonical_mem
  bugIds := hframe.bugIds.trans h.bugIds
  duplicateOf := hframe.duplicateOf.trans h.duplicateOf
  bugReviews := hframe.bugReviews.trans h.bugReviews

theorem creates_createBug {bug : NewBug} {e : Option NewBugEnrichment} {id : ℤ}
    (h : s.createBugWithEnrichment bug e now = .ok (id, s')) :
    ∃ canonicalId, Creates s s' id canonicalId := by
  obtain ⟨⟨id₁, s₁⟩, hins, h⟩ := bind_ok h
  obtain ⟨s₂, henr, h⟩ := bind_ok h
  cases h
  obtain ⟨canonicalId, hcreates⟩ := creates_insertBug hins
  exact ⟨canonicalId, hcreates.then_frame (foldFrame_insertBugEnrichments _ s₁ henr)⟩

theorem creates_createClaimedBug {bug : NewBug} {e : Option NewBugEnrichment} {workerId : String}
    {ttl id : ℤ} (h : s.createClaimedBugWithEnrichment bug e workerId ttl now = .ok (id, s')) :
    ∃ canonicalId, Creates s s' id canonicalId := by
  obtain ⟨⟨id₁, s₁⟩, hcreate, h⟩ := bind_ok h
  cases h
  obtain ⟨canonicalId, hcreates⟩ := creates_createBug hcreate
  refine ⟨canonicalId, hcreates.then_frame ?_⟩
  refine foldFrame_setBugs fun b _ => ?_
  rfl

theorem foldFrame_updateBugOutcome {claim : Option BugAnalysisClaim} {id : ℤ}
    {params : UpdateBugOutcomeParams} (h : s.updateBugOutcome claim id params now = .ok s') :
    FoldFrame s s' := by
  obtain ⟨_, _, h⟩ := bind_ok h
  obtain ⟨s₁, htriage, h⟩ := bind_ok h
  obtain ⟨s₂, henr, h⟩ := bind_ok h
  cases h
  have hframe : FoldFrame s s₂ := ((foldFrame_retitle id params.problem).trans
    (foldFrame_triageNewBug htriage)).trans (foldFrame_insertBugEnrichments _ s₁ henr)
  refine hframe.trans ?_
  refine foldFrame_setBugs fun b _ => ?_
  rfl

/-- An update that leaves every triage alone. -/
theorem foldStep_setBugs {call : FoldCall} {sel : BugRow → Bool} {f : BugRow → BugRow} {hf}
    (h : ∀ b, (f b).triage = b.triage) : FoldStep s (s.setBugs sel f hf) now call :=
  .kept (foldFrame_setBugs fun b _ => by rw [h b])

theorem foldStep_worker {call : BugCall} (h : call.exec s now = .ok s') :
    FoldStep s s' now (.worker call) := by
  cases call with
  | createBugWithEnrichment bug e =>
    obtain ⟨⟨id, s₁⟩, hcreate, rfl⟩ := map_ok h
    obtain ⟨canonicalId, hcreates⟩ := creates_createBug hcreate
    exact .created id canonicalId hcreates
  | createClaimedBugWithEnrichment bug e workerId ttl =>
    obtain ⟨⟨id, s₁⟩, hcreate, rfl⟩ := map_ok h
    obtain ⟨canonicalId, hcreates⟩ := creates_createClaimedBug hcreate
    exact .created id canonicalId hcreates
  | claimPendingBug workerId ttl maxAttempts =>
    cases h
    unfold claimPendingBug
    split
    · refine foldStep_setBugs fun b => ?_
      rfl
    · exact .kept (FoldFrame.refl s)
  | claimOpenBugForFixCheck sha workerId ttl =>
    cases h
    unfold claimOpenBugForFixCheck
    split
    · exact .kept (FoldFrame.refl s)
    · split
      · refine foldStep_setBugs fun b => ?_
        rfl
      · exact .kept (FoldFrame.refl s)
  | renewBugLease id workerId ttl =>
    cases h
    refine foldStep_setBugs fun b => ?_
    rfl
  | releaseBugLease claim id =>
    obtain ⟨_, _, h⟩ := bind_ok h
    cases h
    refine foldStep_setBugs fun b => ?_
    rfl
  | addBugEnrichment claim id e =>
    obtain ⟨_, _, h⟩ := bind_ok h
    exact .kept (foldFrame_insertBugEnrichment h)
  | updateBugOutcome claim id params => exact .kept (foldFrame_updateBugOutcome h)
  | failBugAnalysis claim id error =>
    obtain ⟨_, _, h⟩ := bind_ok h
    split at h
    · cases h
    · cases h
      refine foldStep_setBugs fun b => ?_
      rfl
  | recordUpstreamFixCheck claim id params =>
    obtain ⟨⟨applied, s₁⟩, hrecord, rfl⟩ := map_ok h
    exact .kept (foldFrame_recordUpstreamFixCheck hrecord)
  | touchBugFixCheckTimestamp claim id =>
    cases h
    refine foldStep_setBugs fun b => ?_
    rfl
  | abandonExhaustedBugs maxAttempts =>
    cases h
    refine foldStep_setBugs fun b => ?_
    rfl
  | recoverStaleRunningBugs =>
    cases h
    refine foldStep_setBugs fun b => ?_
    rfl

theorem foldStep_insertBugReview {call : FoldCall} {claim : Option PatchsetReviewClaim}
    {reviewId bugId : ℤ} {isNewlyDiscovered : Bool}
    (h : s.insertBugReview claim reviewId bugId isNewlyDiscovered = .ok s') :
    FoldStep s s' now call := by
  unfold insertBugReview at h
  split at h
  · split at h
    · rename_i hbug
      cases h
      exact .linked reviewId bugId isNewlyDiscovered ⟨mem_bugIds_iff_lookup.mpr hbug, rfl, rfl⟩
    · cases h
  · cases h
    exact .kept (FoldFrame.refl s)

theorem foldStep_linkReviewToBug {call : FoldCall} {bugClaim : Option BugAnalysisClaim}
    {claim : Option PatchsetReviewClaim} {reviewId bugId : ℤ} {isNewlyDiscovered : Bool}
    (h : s.linkReviewToBug bugClaim claim reviewId bugId isNewlyDiscovered now = .ok s') :
    FoldStep s s' now call := by
  rcases bugClaim with _ | held
  · exact foldStep_insertBugReview h
  · obtain ⟨_, _, h⟩ := bind_ok h
    exact foldStep_insertBugReview h

theorem bugIds_setDuplicate (claim : Option BugAnalysisClaim) (id canonicalId : ℤ) :
    (s.setDuplicate claim id canonicalId now).bugIds = s.bugIds := bugIds_setBugs

theorem duplicateOf_setDuplicate (claim : Option BugAnalysisClaim) {id : ℤ} (canonicalId : ℤ)
    (hid : id ∈ s.bugIds) : (s.setDuplicate claim id canonicalId now).duplicateOf =
      Function.update s.duplicateOf id (some canonicalId) := by
  funext x
  unfold setDuplicate
  rw [duplicateOf_setBugs]
  rcases hlookup : s.bugs.lookup x with _ | b
  · have hx : x ≠ id := by
      rintro rfl
      obtain ⟨b, hb, hbx⟩ := List.mem_map.mp hid
      exact Table.lookup_eq_none.mp hlookup b hb hbx
    rw [Function.update_of_ne hx]
    simp [duplicateOf, hlookup]
  · obtain ⟨_, rfl⟩ := Table.lookup_eq_some.mp hlookup
    by_cases hx : b.id = id
    · subst hx
      simp [Table.updateRow, BugTriage.duplicateOfId]
    · rw [Function.update_of_ne hx]
      simp [Table.updateRow, hx, duplicateOf, hlookup]

/-- What a fold that goes through has checked, and what it does. -/
theorem markBugAsDuplicate_cases {claim : Option BugAnalysisClaim}
    {params : MarkDuplicateBugParams} {folded : Bool}
    (h : s.markBugAsDuplicate claim params now = .ok (folded, s')) :
    (folded = false ∧ s' = s) ∨
      (folded = true ∧ Folds s s' params.ephemeralId params.canonicalId) := by
  obtain ⟨_, _, h⟩ := bind_ok h
  split at h
  · cases h
  · rename_i hchecked
    split at h
    · cases h
    · rename_i source hsource
      split at h
      · cases h
        exact .inl ⟨rfl, rfl⟩
      · right
        obtain ⟨s₁, henr, h⟩ := bind_ok h
        cases h
        have hframe := foldFrame_insertBugEnrichment henr
        simp only [Bool.or_eq_true, decide_eq_true_eq, Bool.not_eq_true', not_or,
          Bool.not_eq_false] at hchecked
        obtain ⟨hdistinct, hcanonical⟩ := hchecked
        obtain ⟨c, hc, hroot⟩ := Table.any_eq_true.mp hcanonical
        rw [Bool.and_eq_true, decide_eq_true_eq, decide_eq_true_eq] at hroot
        obtain ⟨hid, hroot⟩ := hroot
        obtain ⟨hmem, hkey⟩ := Table.lookup_eq_some.mp hsource
        have heph : params.ephemeralId ∈ s.bugIds := hkey ▸ bug_mem_bugIds hmem
        refine ⟨rfl, hdistinct, heph, hid ▸ bug_mem_bugIds hc, ?_, ?_, ?_, ?_⟩
        · unfold duplicateOf
          rw [Table.lookup_eq_some.mpr ⟨hc, hid⟩]
          exact hroot
        · exact hframe.bugIds.trans (bugIds_setDuplicate claim _ _)
        · exact hframe.duplicateOf.trans (duplicateOf_setDuplicate claim _ heph)
        · unfold migrateReviewBugsIn
          rw [hframe.bugReviews]
          rfl

theorem foldStep_exec {call : FoldCall} (h : call.exec s now = .ok s') :
    FoldStep s s' now call := by
  rcases call with call | ⟨bugClaim, claim, reviewId, bugId, isNewlyDiscovered⟩ | ⟨claim, params⟩
  · exact foldStep_worker h
  · exact foldStep_linkReviewToBug h
  · obtain ⟨⟨folded, s₁⟩, hmark, rfl⟩ := map_ok h
    rcases markBugAsDuplicate_cases hmark with ⟨_, rfl⟩ | ⟨rfl, hfolds⟩
    · exact .kept (FoldFrame.refl s₁)
    · exact .folded claim params rfl hmark hfolds

theorem foldStep (s : BugStore) (now : ℤ) (call : FoldCall) :
    FoldStep s (call.step s now) now call := by
  unfold FoldCall.step
  split
  · rename_i s' hexec
    exact foldStep_exec hexec
  · exact .kept (FoldFrame.refl s)

end Sashiko
