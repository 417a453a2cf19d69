import Sashiko.Review.Conservation

/-! Post-verification gives every inconclusive concern a verdict, and with it whatever the concern
was raised or dismissed under. -/

namespace Sashiko

open Json

section Steps

variable {stageLookup : String → Option AnalysisStage} {guard : FixesGuard}
  {state : LinuxPatchReviewState} {id stageName : String} {batch : List Json}
  {out : PostVerificationOutput} {x ic : Json}

theorem applyPostVerificationStageOutput_eq (stageLookup : String → Option AnalysisStage)
    (guard : FixesGuard) (state : LinuxPatchReviewState) (stageName : String) (batch : List Json)
    (out : PostVerificationOutput) :
    ∃ cs fs, applyPostVerificationStageOutput stageLookup guard state stageName batch out =
      { state with
        concerns := cs
        findings := fs
        postVerificationFindings := state.postVerificationFindings ++
          (enrichPostVerificationOutput stageLookup guard state stageName batch out).findings
        postVerificationDismissed := state.postVerificationDismissed ++
          (enrichPostVerificationOutput stageLookup guard state stageName batch
            out).dismissedConcerns
        deduplicatedDismissedConcerns := state.deduplicatedDismissedConcerns ++
          (enrichPostVerificationOutput stageLookup guard state stageName batch
            out).dismissedConcerns } := by
  obtain ⟨cs, fs, heq⟩ := recordVerifiedFindings_eq
    (enrichPostVerificationOutput stageLookup guard state stageName batch out).findings
    { state with
      postVerificationFindings := state.postVerificationFindings ++
        (enrichPostVerificationOutput stageLookup guard state stageName batch out).findings
      postVerificationDismissed := state.postVerificationDismissed ++
        (enrichPostVerificationOutput stageLookup guard state stageName batch
          out).dismissedConcerns }
  exact ⟨cs, fs, by rw [applyPostVerificationStageOutput, recordPostVerification, heq]⟩

/-- A verdict of post-verification carries the id. -/
def Judged (id : String) (state : LinuxPatchReviewState) : Prop :=
  ∃ x ∈ state.postVerificationFindings ++ state.postVerificationDismissed,
    Lists "raw_source_ids" id x

theorem project_applyPostVerification :
    (applyPostVerificationStageOutput stageLookup guard state stageName batch out).project =
      state.project := by
  obtain ⟨cs, fs, heq⟩ :=
    applyPostVerificationStageOutput_eq stageLookup guard state stageName batch out
  rw [heq]

theorem Found.applyPostVerification (h : Found id state) :
    Found id (applyPostVerificationStageOutput stageLookup guard state stageName batch out) := by
  obtain ⟨cs, fs, heq⟩ :=
    applyPostVerificationStageOutput_eq stageLookup guard state stageName batch out
  rw [heq]
  exact h

theorem Dismissed.applyPostVerification (h : Dismissed id state) :
    Dismissed id
      (applyPostVerificationStageOutput stageLookup guard state stageName batch out) := by
  obtain ⟨cs, fs, heq⟩ :=
    applyPostVerificationStageOutput_eq stageLookup guard state stageName batch out
  rw [heq]
  exact h

theorem Judged.applyPostVerification (h : Judged id state) :
    Judged id (applyPostVerificationStageOutput stageLookup guard state stageName batch out) := by
  obtain ⟨cs, fs, heq⟩ :=
    applyPostVerificationStageOutput_eq stageLookup guard state stageName batch out
  obtain ⟨x, hx, hlists⟩ := h
  rw [heq]
  refine ⟨x, ?_, hlists⟩
  rcases List.mem_append.mp hx with h | h
  · exact List.mem_append_left _ (List.mem_append_left _ h)
  · exact List.mem_append_right _ (List.mem_append_left _ h)

theorem postVerifiedItems_of_untouched (hfixes : FixesUntouched guard state out.findings) :
    postVerifiedItems stageLookup guard state batch out =
      (out.findings.map (enrichFinding stageLookup batch state.selectedGuides),
        out.dismissedConcerns.map (enrichDismissed stageLookup batch state.selectedGuides)) :=
  sanitizedFindings_of_untouched guard state (enrichFinding_changesOnly stageLookup _ _) hfixes _

/-- An accepted batch output judges every id held in the batch. -/
theorem judged_of_accepted (hok : validatePostVerificationBatchItems out batch = .ok ())
    (hfixes : FixesUntouched guard state out.findings) (hic : ic ∈ batch) (hraw : RawId id)
    (hheld : Held id ic) :
    Judged id (applyPostVerificationStageOutput stageLookup guard state stageName batch out) := by
  obtain ⟨iid, htrim, hne, hiid⟩ := hheld.named
  obtain ⟨x, hx, hnamed⟩ :=
    validatePostVerificationBatchItems_ok hok iid (mem_trimmedIds htrim hne hic hiid)
  have henriched : Lists "raw_source_ids" id
      (enrichItemProvenance stageLookup x batch [] state.selectedGuides) :=
    lists_enrich_raw hraw hic hiid hnamed hheld.lists
  obtain ⟨cs, fs, heq⟩ :=
    applyPostVerificationStageOutput_eq stageLookup guard state stageName batch out
  rw [heq]
  rcases List.mem_append.mp hx with hx | hx
  · obtain ⟨idx, hmem⟩ := exists_stamped
      (enrichFinding stageLookup batch state.selectedGuides)
      (stampFinding "PVF" "post_verification_stage" stageName
        state.postVerificationFindings.length) hx
    have hstamped := (lists_enrichFinding (by decide) henriched).congr
      (stampFinding_changesOnly "PVF" "post_verification_stage" stageName
        state.postVerificationFindings.length idx _) (by decide)
    refine ⟨_, List.mem_append_left _ (List.mem_append_right _ ?_), hstamped⟩
    rw [enrichPostVerificationOutput, postVerifiedItems_of_untouched hfixes]
    exact hmem
  · obtain ⟨idx, hmem⟩ := exists_stamped
      (enrichDismissed stageLookup batch state.selectedGuides)
      (stampItem "PVD" "post_verification_stage" stageName
        state.postVerificationDismissed.length) hx
    have hstamped := (lists_enrichDismissed (by decide) henriched).congr
      (stampItem_changesOnly "PVD" "post_verification_stage" stageName
        state.postVerificationDismissed.length idx _) (by decide)
    refine ⟨_, List.mem_append_right _ (List.mem_append_right _ ?_), hstamped⟩
    rw [enrichPostVerificationOutput, postVerifiedItems_of_untouched hfixes]
    exact hmem

end Steps

/-! ### Whole reviews -/

structure VerificationCall where
  stageName : String
  shard : List Json
  output : VerificationOutput
  deriving DecidableEq, Repr

structure PostVerificationCall where
  stageName : String
  batch : List Json
  output : PostVerificationOutput
  deriving DecidableEq, Repr

section Runs

variable (stageLookup : String → Option AnalysisStage) (guard : FixesGuard)

def runVerification (state : LinuxPatchReviewState) (calls : List VerificationCall) :
    LinuxPatchReviewState :=
  calls.foldl (fun state call =>
    applyVerificationShardOutput stageLookup guard state call.stageName call.shard call.output)
    state

def runPostVerification (state : LinuxPatchReviewState) (calls : List PostVerificationCall) :
    LinuxPatchReviewState :=
  calls.foldl (fun state call =>
    applyPostVerificationStageOutput stageLookup guard state call.stageName call.batch
      call.output) state

/-- Outputs that the validators accept, one for each shard and then one for each batch, in any
order of the shards and of the batches, with nothing for the Fixes guard to do. -/
structure AcceptedReview (state : LinuxPatchReviewState) (dedup : Option DeduplicationOutput)
    (verifications : List VerificationCall) (postVerifications : List PostVerificationCall) :
    Prop where
  deduplicated : DeduplicationAccepted state dedup
  shards : (verifications.map (·.shard)).Perm
    (batchClustersForVerification (effectiveClusters (deduplicate state dedup)))
  verified : ∀ call ∈ verifications,
    validateVerificationShardOutput call.output call.shard = .ok ()
  batches : (postVerifications.map (·.batch)).Perm
    (batchInconclusiveConcernsBySeverity
      (runVerification stageLookup guard (deduplicate state dedup)
        verifications).inconclusiveConcerns)
  postVerified : ∀ call ∈ postVerifications,
    validatePostVerificationBatchItems call.output call.batch = .ok ()
  fixes : ∀ call ∈ verifications, FixesUntouched guard state call.output.findings
  postFixes : ∀ call ∈ postVerifications, FixesUntouched guard state call.output.findings

def reviewed (state : LinuxPatchReviewState) (dedup : Option DeduplicationOutput)
    (verifications : List VerificationCall) (postVerifications : List PostVerificationCall) :
    LinuxPatchReviewState :=
  runPostVerification stageLookup guard
    (runVerification stageLookup guard (deduplicate state dedup) verifications) postVerifications

section Accepted

variable {stageLookup guard} {state : LinuxPatchReviewState} {dedup : Option DeduplicationOutput}
  {verifications : List VerificationCall} {postVerifications : List PostVerificationCall}
  {id : String} {item : Json}

theorem project_deduplicate : (deduplicate state dedup).project = state.project := by
  cases dedup <;> rfl

theorem project_runVerification (calls : List VerificationCall) : ∀ state,
    (runVerification stageLookup guard state calls).project = state.project := by
  induction calls with
  | nil => exact fun state => rfl
  | cons call calls ih => exact fun state => (ih _).trans project_applyVerification

theorem FixesUntouched.of_project {s s' : LinuxPatchReviewState} {findings : List Json}
    (h : FixesUntouched guard s findings) (hproject : s'.project = s.project) :
    FixesUntouched guard s' findings := by
  unfold FixesUntouched at *
  rwa [hproject]

/-- Every cluster is in the shard of some call. -/
theorem AcceptedReview.exists_call
    (h : AcceptedReview stageLookup guard state dedup verifications postVerifications)
    {cluster : Json} (hc : cluster ∈ effectiveClusters (deduplicate state dedup)) :
    ∃ call ∈ verifications, cluster ∈ call.shard := by
  obtain ⟨shard, hshard, hmem⟩ := List.mem_flatten.mp
    ((batchClustersForVerification_perm _).mem_iff.mpr hc)
  obtain ⟨call, hcall, rfl⟩ := List.mem_map.mp (h.shards.mem_iff.mpr hshard)
  exact ⟨call, hcall, hmem⟩

theorem AcceptedReview.shard_subset
    (h : AcceptedReview stageLookup guard state dedup verifications postVerifications)
    {call : VerificationCall} (hcall : call ∈ verifications) :
    call.shard ⊆ effectiveClusters (deduplicate state dedup) := fun _ hmem =>
  (batchClustersForVerification_perm _).mem_iff.mp (List.mem_flatten.mpr
    ⟨call.shard, h.shards.mem_iff.mp (List.mem_map.mpr ⟨call, hcall, rfl⟩), hmem⟩)

theorem AcceptedReview.raised_verified
    (h : AcceptedReview stageLookup guard state dedup verifications postVerifications)
    (hraw : RawId id) (hitem : item ∈ state.allConcerns) (hid : item.getStr "id" = some id) :
    Found id (runVerification stageLookup guard (deduplicate state dedup) verifications) ∨
      Awaiting id (runVerification stageLookup guard (deduplicate state dedup) verifications) := by
  obtain ⟨cluster, hcluster, hheld⟩ := (exists_cluster h.deduplicated hraw hid).1 hitem
  obtain ⟨call, hcall, hmem⟩ := h.exists_call hcluster
  have hclusters := areClusters_effectiveClusters h.deduplicated
  have hsub := h.shard_subset hcall
  obtain ⟨idx, hidx⟩ := hclusters.mem hcluster
  obtain ⟨x, hx, hlists⟩ :=
    raised_routed hclusters hsub (h.verified call hcall) hmem hidx hraw hid hheld
  refine holds_after_run (I := fun s => s.project = state.project)
    (P := fun s => Found id s ∨ Awaiting id s) (x := call)
    (fun s y hs => project_applyVerification.trans hs)
    (fun s y hs => hs.imp Found.applyVerification Awaiting.applyVerification)
    (fun s hs => ?_) hcall _ project_deduplicate
  rcases List.mem_append.mp hx with hx | hx
  · exact .inl (found_of_expanded hraw ((h.fixes call hcall).of_project hs) hx hlists)
  · exact .inr (awaiting_of_expanded hraw hx hlists)

theorem AcceptedReview.dismissed_verified
    (h : AcceptedReview stageLookup guard state dedup verifications postVerifications)
    (hraw : RawId id) (hitem : item ∈ state.allDismissedConcerns)
    (hid : item.getStr "id" = some id) :
    Dismissed id (runVerification stageLookup guard (deduplicate state dedup) verifications) ∨
      Awaiting id (runVerification stageLookup guard (deduplicate state dedup) verifications) := by
  obtain ⟨cluster, hcluster, hheld⟩ := (exists_cluster h.deduplicated hraw hid).2 hitem
  obtain ⟨call, hcall, hmem⟩ := h.exists_call hcluster
  have hclusters := areClusters_effectiveClusters h.deduplicated
  have hsub := h.shard_subset hcall
  obtain ⟨idx, hidx⟩ := hclusters.mem hcluster
  obtain ⟨x, hx, hlists⟩ :=
    dismissed_routed hclusters hsub (h.verified call hcall) hmem hidx hraw hid hheld
  refine holds_after_run (I := fun s => s.project = state.project)
    (P := fun s => Dismissed id s ∨ Awaiting id s) (x := call)
    (fun s y hs => project_applyVerification.trans hs)
    (fun s y hs => hs.imp Dismissed.applyVerification Awaiting.applyVerification)
    (fun s hs => ?_) hcall _ project_deduplicate
  rcases List.mem_append.mp hx with hx | hx
  · exact .inr (awaiting_of_expanded hraw hx hlists)
  · exact .inl (dismissed_of_expanded hraw ((h.fixes call hcall).of_project hs) hx hlists)

/-- Whatever awaits a verdict after verification gets one. -/
theorem AcceptedReview.judged
    (h : AcceptedReview stageLookup guard state dedup verifications postVerifications)
    (hraw : RawId id)
    (hawait : Awaiting id
      (runVerification stageLookup guard (deduplicate state dedup) verifications)) :
    Judged id (reviewed stageLookup guard state dedup verifications postVerifications) := by
  obtain ⟨ic, hic, hheld⟩ := hawait
  obtain ⟨batch, hbatch, hmem⟩ := List.mem_flatten.mp
    ((batchInconclusiveConcernsBySeverity_perm _).mem_iff.mpr hic)
  obtain ⟨call, hcall, rfl⟩ := List.mem_map.mp (h.batches.mem_iff.mpr hbatch)
  refine holds_after_run (I := fun s => s.project = state.project) (P := Judged id) (x := call)
    (fun s y hs => project_applyPostVerification.trans hs)
    (fun s y hs => hs.applyPostVerification)
    (fun s hs => ?_) hcall _ ((project_runVerification _ _).trans project_deduplicate)
  exact judged_of_accepted (h.postVerified call hcall) ((h.postFixes call hcall).of_project hs)
    hmem hraw hheld

theorem Found.runPostVerification (calls : List PostVerificationCall) : ∀ s, Found id s →
    Found id (runPostVerification stageLookup guard s calls) := by
  induction calls with
  | nil => exact fun s h => h
  | cons call calls ih => exact fun s h => ih _ h.applyPostVerification

theorem Dismissed.runPostVerification (calls : List PostVerificationCall) : ∀ s, Dismissed id s →
    Dismissed id (runPostVerification stageLookup guard s calls) := by
  induction calls with
  | nil => exact fun s h => h
  | cons call calls ih => exact fun s h => ih _ h.applyPostVerification

end Accepted

/-- The id stands in the lineage of one of the items. -/
def NamedAmong (id : String) (items : List Json) : Prop :=
  ∃ x ∈ items, Lists "source_ids" id x ∨ Lists "raw_source_ids" id x

instance (id : String) (items : List Json) : Decidable (NamedAmong id items) :=
  inferInstanceAs (Decidable (∃ x ∈ items, _ ∨ _))

/-- Every candidate's id is named by a verdict: a raised concern by a finding or by what
post-verification decided, a dismissed candidate also by a dismissal. -/
structure Conserved (before after : LinuxPatchReviewState) : Prop where
  raised : ∀ item ∈ before.allConcerns, ∀ id, item.getStr "id" = some id →
    NamedAmong id (after.verificationFindings ++ after.postVerificationFindings ++
      after.postVerificationDismissed)
  dismissed : ∀ item ∈ before.allDismissedConcerns, ∀ id, item.getStr "id" = some id →
    NamedAmong id (after.verificationDismissed ++ after.postVerificationFindings ++
      after.postVerificationDismissed)

theorem Judged.namedAmong {id : String} {s : LinuxPatchReviewState} (h : Judged id s)
    (items : List Json) :
    NamedAmong id (items ++ s.postVerificationFindings ++ s.postVerificationDismissed) := by
  obtain ⟨x, hx, hlists⟩ := h
  refine ⟨x, ?_, .inr hlists⟩
  rw [List.append_assoc]
  exact List.mem_append_right _ hx

theorem concernsConserved {state : LinuxPatchReviewState} {dedup : Option DeduplicationOutput}
    {verifications : List VerificationCall} {postVerifications : List PostVerificationCall}
    (hids : ∀ item ∈ state.allConcerns ++ state.allDismissedConcerns,
      ∀ id, item.getStr "id" = some id → RawId id)
    (h : AcceptedReview stageLookup guard state dedup verifications postVerifications) :
    Conserved state
      (reviewed stageLookup guard state dedup verifications postVerifications) where
  raised item hitem id hid := by
    have hraw := hids item (List.mem_append_left _ hitem) id hid
    rcases h.raised_verified hraw hitem hid with hfound | hawait
    · obtain ⟨x, hx, hlists⟩ := Found.runPostVerification postVerifications _ hfound
      exact ⟨x, List.mem_append_left _ (List.mem_append_left _ hx), .inl hlists⟩
    · exact (h.judged hraw hawait).namedAmong _
  dismissed item hitem id hid := by
    have hraw := hids item (List.mem_append_right _ hitem) id hid
    rcases h.dismissed_verified hraw hitem hid with hdismissed | hawait
    · obtain ⟨x, hx, hlists⟩ := Dismissed.runPostVerification postVerifications _ hdismissed
      exact ⟨x, List.mem_append_left _ (List.mem_append_left _ hx), .inl hlists⟩
    · exact (h.judged hraw hawait).namedAmong _

end Runs

/-! ### Two reviews -/

def provingLocation : Json :=
  .obj [("code_snippet", .str "if (p) free(p);"), ("file", .str "mm/slab.c"),
    ("function_or_symbol", .str "slab_free"), ("side", .str "REVISION")]

def candidate (id : String) : Json := .obj [("id", .str id)]

def findingOn (sourceIds : List String) : Json :=
  .obj [("locations", .arr [provingLocation]), ("preexisting", .bool false),
    ("problem", .str "double free"), ("severity", .str "High"),
    ("severity_explanation", .str "freed twice"), ("source_ids", Json.strings sourceIds)]

def inconclusiveOn (sourceIds : List String) : Json :=
  .obj [("concern_arguments", .str "may be freed"), ("description", .str "double free"),
    ("dismissal_arguments", .str "guarded"), ("estimated_severity", .str "High"),
    ("locations", .arr [provingLocation]), ("preexisting", .bool false),
    ("signal_reason", .str "contested"), ("source_ids", Json.strings sourceIds),
    ("type", .str "Memory"), ("verification_question", .str "is it guarded")]

def dismissalOn (sourceIds : List String) : Json :=
  .obj [("description", .str "double free"), ("locations", .arr [provingLocation]),
    ("reasoning", .str "the guard runs first"), ("source_ids", Json.strings sourceIds)]

def stateWith (concerns dismissed : List Json) : LinuxPatchReviewState where
  selectedGuides := []
  reportPreexisting := false
  project := "linux"
  allConcerns := concerns
  allDismissedConcerns := dismissed
  deduplicatedClusters := []
  verificationFindings := []
  verificationDismissed := []
  postVerificationFindings := []
  postVerificationDismissed := []
  deduplicatedDismissedConcerns := []
  inconclusiveConcerns := []
  concerns := []
  findings := []

def silentGuard : FixesGuard := ⟨fun _ => false, fun finding => (finding, false)⟩

def noStages (_ : String) : Option AnalysisStage := none

/-- A raised concern and the dismissal of the same bug in one cluster, another concern alone. -/
def contestedState : LinuxPatchReviewState :=
  stateWith [candidate "C1", candidate "C2"] [candidate "D1"]

def contestedClusters : DeduplicationOutput :=
  ⟨[⟨"", "slab_free", ["C1", "D1"]⟩, ⟨"", "leak", ["C2"]⟩]⟩

def contestedVerifications : List VerificationCall :=
  [⟨"verification", effectiveClusters (applyDeduplicationStageOutput contestedState
      contestedClusters), ⟨[findingOn ["G2"]], [inconclusiveOn ["G1"]], [], []⟩⟩]

def contestedPostVerifications : List PostVerificationCall :=
  [⟨"post-verification-1", (runVerification noStages silentGuard
      (deduplicate contestedState (some contestedClusters))
      contestedVerifications).inconclusiveConcerns, ⟨[], [dismissalOn ["I1"]]⟩⟩]

theorem rawId_of_numbered {letters : String} {first : Char} {rest : List Char} {n : ℕ}
    (hletters : letters.toList = first :: rest) (hspace : isRustWhitespace first = false)
    (hfirst : first ≠ 'G') : RawId (letters ++ toString n) where
  trimmed := rustTrim_numbered hletters hspace n
  nonempty := numbered_ne_empty (fun h => by simp [h] at hletters) n
  not_cluster idx heq := by
    have hlist := congrArg String.toList heq
    have hgid : (clusterId idx).toList = 'G' :: (toString (idx + 1)).toList := by
      rw [clusterId, String.toList_append]
      rfl
    rw [String.toList_append, hletters, hgid, List.cons_append] at hlist
    exact hfirst (List.cons.inj hlist).1

theorem concernsConserved_contested :
    Conserved contestedState (reviewed noStages silentGuard contestedState
      (some contestedClusters) contestedVerifications contestedPostVerifications) := by
  refine concernsConserved noStages silentGuard (fun item hitem id hid => ?_)
    { deduplicated := by decide
      shards := by decide
      verified := by decide
      batches := by decide
      postVerified := by decide
      fixes := fun call hcall => .inr (by revert call; decide)
      postFixes := fun call hcall => .inr (by revert call; decide) }
  have hcandidate : id = "C" ++ toString 1 ∨ id = "C" ++ toString 2 ∨ id = "D" ++ toString 1 := by
    rcases List.mem_cons.mp hitem with rfl | hitem
    · exact .inl (Option.some.inj hid).symm
    · rcases List.mem_cons.mp hitem with rfl | hitem
      · exact .inr (.inl (Option.some.inj hid).symm)
      · obtain rfl := List.mem_singleton.mp hitem
        exact .inr (.inr (Option.some.inj hid).symm)
  rcases hcandidate with rfl | rfl | rfl
  · exact rawId_of_numbered rfl (by decide) (by decide)
  · exact rawId_of_numbered rfl (by decide) (by decide)
  · exact rawId_of_numbered rfl (by decide) (by decide)

/-- A raised concern whose id is that of a cluster: naming it names the cluster instead. -/
def clusterNamedState : LinuxPatchReviewState :=
  stateWith [candidate "G2", candidate "C1", candidate "C5"] []

def clusterNamedClusters : DeduplicationOutput :=
  ⟨[⟨"", "slab_free", ["G2", "C1"]⟩, ⟨"", "leak", ["C5"]⟩]⟩

def clusterNamedVerifications : List VerificationCall :=
  [⟨"verification", effectiveClusters (applyDeduplicationStageOutput clusterNamedState
      clusterNamedClusters), ⟨[findingOn ["G1", "C1"], findingOn ["G2"]], [], [], []⟩⟩]

theorem clusterNamed_lost :
    ((clusterNamedState.allConcerns ++ clusterNamedState.allDismissedConcerns).map
      (·.getStr "id")).Nodup ∧
    AcceptedReview noStages silentGuard clusterNamedState (some clusterNamedClusters)
      clusterNamedVerifications [] ∧
    ¬Conserved clusterNamedState (reviewed noStages silentGuard clusterNamedState
      (some clusterNamedClusters) clusterNamedVerifications []) := by
  refine ⟨by decide, ?_, fun h => ?_⟩
  · exact
      { deduplicated := by decide
        shards := by decide
        verified := by decide
        batches := by decide
        postVerified := by decide
        fixes := fun call hcall => .inr (by revert call; decide)
        postFixes := fun call hcall => absurd hcall List.not_mem_nil }
  · have hnamed := h.raised (candidate "G2") List.mem_cons_self "G2" rfl
    revert hnamed
    decide

end Sashiko
