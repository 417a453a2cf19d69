import Sashiko.Review.Routing

/-! From analysis to report: every candidate that enters deduplication is named by a verdict. -/

namespace Sashiko

open Json

theorem exists_mem_mapIdx {α β : Type} {xs : List α} {x : α} (f : ℕ → α → β) (h : x ∈ xs) :
    ∃ idx, f idx x ∈ xs.mapIdx f := by
  obtain ⟨idx, hlt, rfl⟩ := List.mem_iff_getElem.mp h
  exact ⟨idx, List.mem_mapIdx.mpr ⟨idx, hlt, rfl⟩⟩

theorem exists_stamped {xs : List Json} {x : Json} (enrich : Json → Json)
    (stamp : ℕ → Json → Json) (h : x ∈ xs) :
    ∃ idx, stamp idx (enrich x) ∈ (xs.map enrich).mapIdx stamp :=
  exists_mem_mapIdx stamp (List.mem_map.mpr ⟨x, h, rfl⟩)

/-- What every step keeps and some step of a run brings about holds after the run. -/
theorem holds_after_run {σ ι : Type} {step : σ → ι → σ} {I P : σ → Prop} {xs : List ι} {x : ι}
    (hI : ∀ s y, I s → I (step s y)) (hkeep : ∀ s y, P s → P (step s y))
    (hstep : ∀ s, I s → P (step s x)) (hx : x ∈ xs) : ∀ s, I s → P (xs.foldl step s) := by
  have hrun : ∀ ys : List ι, ∀ s, P s → P (ys.foldl step s) := by
    intro ys
    induction ys with
    | nil => exact fun s hs => hs
    | cons y ys ih => exact fun s hs => ih _ (hkeep s y hs)
  induction xs with
  | nil => cases hx
  | cons y ys ih =>
    intro s hs
    rcases List.mem_cons.mp hx with rfl | hx
    · exact hrun ys _ (hstep s hs)
    · exact ih hx _ (hI s y hs)

theorem recordVerifiedFindings_eq (findings : List Json) :
    ∀ state, ∃ cs fs, recordVerifiedFindings state findings =
      { state with concerns := cs, findings := fs } := by
  induction findings with
  | nil => exact fun state => ⟨state.concerns, state.findings, rfl⟩
  | cons finding findings ih =>
    intro state
    obtain ⟨cs, fs, heq⟩ := ih (recordVerifiedFinding state finding)
    refine ⟨cs, fs, ?_⟩
    rw [recordVerifiedFindings, List.foldl_cons, ← recordVerifiedFindings, heq,
      recordVerifiedFinding]
    split_ifs <;> rfl

/-! ### No Fixes-trailer sanitising -/

theorem isFixesTrailerFinding_congr {guard : FixesGuard} {keys : List String} {a b : Json}
    (h : ChangesOnly keys a b) (hproblem : "problem" ∉ keys) (hlocations : "locations" ∉ keys) :
    guard.isFixesTrailerFinding b = guard.isFixesTrailerFinding a := by
  unfold FixesGuard.isFixesTrailerFinding FixesGuard.targetsCommitMessage FixesGuard.problemText
  rw [h.getStr hproblem, h.getArray hlocations]

/-- The guard has nothing to say about these findings. -/
def FixesUntouched (guard : FixesGuard) (state : LinuxPatchReviewState) (findings : List Json) :
    Prop :=
  state.project = "gcc" ∨ ∀ finding ∈ findings, guard.isFixesTrailerFinding finding = false

section Steps

variable (stageLookup : String → Option AnalysisStage) (guard : FixesGuard)
  (state : LinuxPatchReviewState)

theorem sanitizedFindings_of_untouched {findings : List Json} {f : Json → Json}
    (hf : ∀ item, ChangesOnly provenanceKeys item (f item))
    (h : FixesUntouched guard state findings) (dismissed : List Json) :
    sanitizedFindings guard state (findings.map f) dismissed = (findings.map f, dismissed) := by
  unfold sanitizedFindings
  split_ifs with hproject
  · refine FixesGuard.sanitize_of_no_trailer (fun finding hfinding => ?_) dismissed
    obtain ⟨x, hx, rfl⟩ := List.mem_map.mp hfinding
    rw [isFixesTrailerFinding_congr (hf x) (by decide) (by decide)]
    exact (h.resolve_left hproject) x hx
  · rfl

/-! ### Verification -/

/-- The items that verification adds to the state. -/
def shardOutput (stageName : String) (shard : List Json) (out : VerificationOutput) :
    VerificationOutput :=
  enrichVerificationOutputForStage stageLookup guard state stageName
    (expandDirectDismissedIds state (expandVerificationShardOutput shard out))

theorem expandDirectDismissedIds_expanded (shard : List Json) (out : VerificationOutput) :
    expandDirectDismissedIds state (expandVerificationShardOutput shard out) =
      expandVerificationShardOutput shard out := by
  have hnil : distinctIds [] = [] := by decide
  unfold expandDirectDismissedIds expandVerificationShardOutput
  simp only [hnil, List.filterMap_nil, List.append_nil]

theorem applyVerificationShardOutput_eq (stageName : String) (shard : List Json)
    (out : VerificationOutput) :
    ∃ cs fs, applyVerificationShardOutput stageLookup guard state stageName shard out =
      { state with
        concerns := cs
        findings := fs
        verificationFindings :=
          state.verificationFindings ++ (shardOutput stageLookup guard state stageName shard out).findings
        verificationDismissed := state.verificationDismissed ++
          (shardOutput stageLookup guard state stageName shard out).dismissedConcerns
        inconclusiveConcerns := assignInconclusiveConcernsStages (state.inconclusiveConcerns ++
          (shardOutput stageLookup guard state stageName shard out).inconclusiveConcerns)
        deduplicatedDismissedConcerns := state.deduplicatedDismissedConcerns ++
          (shardOutput stageLookup guard state stageName shard out).dismissedConcerns } := by
  obtain ⟨cs, fs, heq⟩ := recordVerifiedFindings_eq
    (shardOutput stageLookup guard state stageName shard out).findings
    { state with
      verificationFindings :=
        state.verificationFindings ++ (shardOutput stageLookup guard state stageName shard out).findings
      verificationDismissed := state.verificationDismissed ++
        (shardOutput stageLookup guard state stageName shard out).dismissedConcerns }
  refine ⟨cs, fs, ?_⟩
  rw [applyVerificationShardOutput, applyVerificationStageOutputForStage, ← shardOutput,
    recordVerification, heq]

/-- An inconclusive concern that names the id and has an id by which a batch can name it. -/
structure Held (id : String) (ic : Json) : Prop where
  lists : Lists "source_ids" id ic
  named : ∃ iid, rustTrim iid = iid ∧ iid ≠ "" ∧ ic.getStr "id" = some iid

theorem Held.congr {id : String} {a b : Json} (h : Held id a)
    (hab : ChangesOnly ["assigned_stage"] a b) : Held id b := by
  obtain ⟨iid, htrim, hne, hid⟩ := h.named
  exact ⟨h.lists.congr hab (by decide), iid, htrim, hne, (hab.getStr (by decide)).trans hid⟩

def Awaiting (id : String) (state : LinuxPatchReviewState) : Prop :=
  ∃ ic ∈ state.inconclusiveConcerns, Held id ic

def Found (id : String) (state : LinuxPatchReviewState) : Prop :=
  ∃ finding ∈ state.verificationFindings, Lists "source_ids" id finding

def Dismissed (id : String) (state : LinuxPatchReviewState) : Prop :=
  ∃ dismissed ∈ state.verificationDismissed, Lists "source_ids" id dismissed

theorem held_assign {id : String} {items : List Json} (h : ∃ ic ∈ items, Held id ic) :
    ∃ ic ∈ assignInconclusiveConcernsStages items, Held id ic := by
  obtain ⟨ic, hic, hheld⟩ := h
  obtain ⟨f, heq, hf⟩ := assignInconclusiveConcernsStages_eq_map items
  exact ⟨f ic, heq ▸ List.mem_map.mpr ⟨ic, hic, rfl⟩, hheld.congr (hf ic)⟩

section Frame

variable {stageLookup guard state} {id stageName : String} {shard : List Json}
  {out : VerificationOutput}

theorem project_applyVerification :
    (applyVerificationShardOutput stageLookup guard state stageName shard out).project =
      state.project := by
  obtain ⟨cs, fs, heq⟩ :=
    applyVerificationShardOutput_eq stageLookup guard state stageName shard out
  rw [heq]

theorem Awaiting.applyVerification (h : Awaiting id state) :
    Awaiting id (applyVerificationShardOutput stageLookup guard state stageName shard out) := by
  obtain ⟨cs, fs, heq⟩ :=
    applyVerificationShardOutput_eq stageLookup guard state stageName shard out
  obtain ⟨ic, hic, hheld⟩ := h
  rw [heq]
  exact held_assign ⟨ic, List.mem_append_left _ hic, hheld⟩

theorem Found.applyVerification (h : Found id state) :
    Found id (applyVerificationShardOutput stageLookup guard state stageName shard out) := by
  obtain ⟨cs, fs, heq⟩ :=
    applyVerificationShardOutput_eq stageLookup guard state stageName shard out
  obtain ⟨finding, hfinding, hlists⟩ := h
  rw [heq]
  exact ⟨finding, List.mem_append_left _ hfinding, hlists⟩

theorem Dismissed.applyVerification (h : Dismissed id state) :
    Dismissed id (applyVerificationShardOutput stageLookup guard state stageName shard out) := by
  obtain ⟨cs, fs, heq⟩ :=
    applyVerificationShardOutput_eq stageLookup guard state stageName shard out
  obtain ⟨dismissed, hdismissed, hlists⟩ := h
  rw [heq]
  exact ⟨dismissed, List.mem_append_left _ hdismissed, hlists⟩

/-! ### Where the expanded items of a shard end up -/

variable {x : Json}

theorem verifiedItems_of_untouched (hfixes : FixesUntouched guard state out.findings) :
    verifiedItems stageLookup guard state (expandVerificationShardOutput shard out) =
      ((expandVerificationShardOutput shard out).findings.map
          (enrichFinding stageLookup state.allConcerns state.selectedGuides),
        (expandVerificationShardOutput shard out).dismissedConcerns.map
          (enrichDismissed stageLookup state.allDismissedConcerns state.selectedGuides)) := by
  refine sanitizedFindings_of_untouched guard state
    (enrichFinding_changesOnly stageLookup _ _) ?_ _
  rcases hfixes with hproject | hnone
  · exact .inl hproject
  · refine .inr fun finding hfinding => ?_
    obtain ⟨y, hy, rfl⟩ := List.mem_map.mp hfinding
    rw [isFixesTrailerFinding_congr (expandItemSourceIds_changesOnly shard y) (by decide)
      (by decide)]
    exact hnone y hy

theorem found_of_expanded (hraw : RawId id) (hfixes : FixesUntouched guard state out.findings)
    (hx : x ∈ (expandVerificationShardOutput shard out).findings)
    (hlists : Lists "source_ids" id x) :
    Found id (applyVerificationShardOutput stageLookup guard state stageName shard out) := by
  obtain ⟨cs, fs, heq⟩ :=
    applyVerificationShardOutput_eq stageLookup guard state stageName shard out
  have henriched : Lists "source_ids" id
      (enrichFinding stageLookup state.allConcerns state.selectedGuides x) :=
    lists_enrichFinding (by decide)
      (lists_enrich_source (mem_extractIdList hraw.trimmed hraw.nonempty hlists))
  obtain ⟨idx, hmem⟩ := exists_stamped
    (enrichFinding stageLookup state.allConcerns state.selectedGuides)
    (stampFinding "VF" "verification_stage" stageName state.verificationFindings.length) hx
  have hstamped := henriched.congr (stampFinding_changesOnly "VF" "verification_stage" stageName
    state.verificationFindings.length idx _) (by decide)
  rw [heq]
  refine ⟨_, List.mem_append_right _ ?_, hstamped⟩
  rw [shardOutput, expandDirectDismissedIds_expanded, enrichVerificationOutputForStage,
    verifiedItems_of_untouched hfixes]
  exact hmem

theorem dismissed_of_expanded (hraw : RawId id) (hfixes : FixesUntouched guard state out.findings)
    (hx : x ∈ (expandVerificationShardOutput shard out).dismissedConcerns)
    (hlists : Lists "source_ids" id x) :
    Dismissed id (applyVerificationShardOutput stageLookup guard state stageName shard out) := by
  obtain ⟨cs, fs, heq⟩ :=
    applyVerificationShardOutput_eq stageLookup guard state stageName shard out
  have henriched : Lists "source_ids" id
      (enrichDismissed stageLookup state.allDismissedConcerns state.selectedGuides x) :=
    lists_enrichDismissed (by decide)
      (lists_enrich_source (mem_extractIdList hraw.trimmed hraw.nonempty hlists))
  obtain ⟨idx, hmem⟩ := exists_stamped
    (enrichDismissed stageLookup state.allDismissedConcerns state.selectedGuides)
    (stampItem "VD" "verification_stage" stageName state.verificationDismissed.length) hx
  have hstamped := henriched.congr (stampItem_changesOnly "VD" "verification_stage" stageName
    state.verificationDismissed.length idx _) (by decide)
  rw [heq]
  refine ⟨_, List.mem_append_right _ ?_, hstamped⟩
  rw [shardOutput, expandDirectDismissedIds_expanded, enrichVerificationOutputForStage,
    verifiedItems_of_untouched hfixes]
  exact hmem

theorem held_enrichInconclusive (hraw : RawId id) (hlists : Lists "source_ids" id x) (idx : ℕ) :
    Held id (enrichInconclusive stageLookup state stageName idx x) := by
  have hnamed := mem_extractIdList hraw.trimmed hraw.nonempty hlists
  have hobj := (enrichItemProvenance_changesOnly stageLookup x state.allConcerns
    state.allDismissedConcerns state.selectedGuides).isObject.trans
      (isObject_of_mem_extractIdList hnamed)
  refine ⟨(lists_enrich_source hnamed).congr
    (stampItem_changesOnly "I" "verification_stage" stageName _ idx _) (by decide), _, ?_, ?_,
    getStr_stampItem (by decide) _ idx hobj⟩
  · exact rustTrim_numbered rfl (by decide) _
  · exact numbered_ne_empty (by decide) _

theorem awaiting_of_expanded (hraw : RawId id)
    (hx : x ∈ (expandVerificationShardOutput shard out).inconclusiveConcerns)
    (hlists : Lists "source_ids" id x) :
    Awaiting id (applyVerificationShardOutput stageLookup guard state stageName shard out) := by
  obtain ⟨cs, fs, heq⟩ :=
    applyVerificationShardOutput_eq stageLookup guard state stageName shard out
  obtain ⟨idx, hmem⟩ := exists_mem_mapIdx (enrichInconclusive stageLookup state stageName) hx
  obtain ⟨ic, hic, hheld⟩ :=
    held_assign ⟨_, hmem, held_enrichInconclusive hraw hlists idx⟩
  rw [heq]
  refine held_assign ⟨ic, List.mem_append_right _ ?_, hheld⟩
  rw [shardOutput, expandDirectDismissedIds_expanded]
  exact hic

end Frame

end Steps

end Sashiko
