import Sashiko.Series.Resolution

/-! How often a resolution asks the archive. -/

namespace Sashiko

variable {ω : Type} {world : PrerequisiteWorld ω}

/-- A count of the requests that the archive has had: the store and git make none. -/
structure CountsRequests (world : PrerequisiteWorld ω) (requests : ω → ℕ) : Prop where
  stored : ∀ m w, requests (world.getStoredPrerequisiteSeries m w).2 = requests w
  byId : ∀ id w, requests (world.getPatchByGitPatchId id w).2 = requests w
  git : ∀ diff w, requests (world.gitPatchId diff w).2 = requests w
  fetch : ∀ m w, requests (world.fetchSeries m w).2 ≤ requests w + 1
  thread : ∀ m w, requests (world.fetchThreadPatches m w).2 ≤ requests w + 1
  search : ∀ id w, requests (world.searchPatchId id w).2 ≤ requests w + 1

/-- Each request was counted, and the count is within the limit. -/
def Capped (requests : ω → ℕ) (s s' : ResolverState ω) : Prop :=
  requests s'.world + s.remoteOperations ≤ requests s.world + s'.remoteOperations ∧
    (s.remoteOperations ≤ maxLoreOperations → s'.remoteOperations ≤ maxLoreOperations)

variable {requests : ω → ℕ}

namespace Capped

theorem of_eq {s s' : ResolverState ω} (hworld : requests s'.world = requests s.world)
    (hcount : s'.remoteOperations = s.remoteOperations) : Capped requests s s' :=
  ⟨by rw [hworld, hcount], by rw [hcount]; exact id⟩

theorem refl (s : ResolverState ω) : Capped requests s s := of_eq rfl rfl

theorem trans (s₁ s₂ s₃ : ResolverState ω) (h : Capped requests s₁ s₂)
    (h' : Capped requests s₂ s₃) :
    Capped requests s₁ s₃ := by
  refine ⟨?_, h'.2 ∘ h.2⟩
  have h₁ := h.1
  have h₂ := h'.1
  omega

theorem answer {α : Type} {question : ω → Except String α × ω}
    (h : ∀ w, requests (question w).2 = requests w) :
    Tends (Capped requests) (answer question : Resolve ω (Except String α)) :=
  fun s => of_eq (h s.world) rfl

theorem askRemote {α : Type} {question : ω → Except String α × ω}
    (h : ∀ w, requests (question w).2 ≤ requests w + 1) :
    Tends (Capped requests) (askRemote question : Resolve ω (Except String α)) := by
  intro s
  unfold Sashiko.askRemote countRemoteOperation
  rw [EStateM.run_bind, EStateM.run_bind, EStateM.run_get]
  dsimp only
  split_ifs with hfull
  · exact refl s
  · have hreq := h s.world
    refine ⟨?_, fun hle => Nat.lt_of_le_of_ne hle hfull⟩
    change requests (question s.world).2 + s.remoteOperations ≤
      requests s.world + (s.remoteOperations + 1)
    omega

theorem cachePatch (patch : PrerequisitePatch) :
    Tends (Capped requests) (cachePatch patch : Resolve ω PUnit) := by
  refine tends_modify fun s => ?_
  split_ifs <;> exact of_eq rfl rfl

theorem calculateGitPatchId (hcounts : CountsRequests world requests) (diff : String) (w : ω) :
    requests (calculateGitPatchId world diff w).2 = requests w := by
  unfold Sashiko.calculateGitPatchId
  split_ifs
  · rfl
  · exact hcounts.git diff w

theorem calculateGitPatchIdBatch (hcounts : CountsRequests world requests)
    (diffs : List (Option String)) (w : ω) :
    requests (calculateGitPatchIdBatch world diffs w).2 = requests w := by
  induction diffs generalizing w with
  | nil => rfl
  | cons diff diffs ih =>
    cases diff with
    | none => exact ih w
    | some diff => exact (ih _).trans (calculateGitPatchId hcounts diff w)

theorem seriesFromStorage (hcounts : CountsRequests world requests)
    (stored : StoredPrerequisiteSeries) (w : ω) :
    requests (seriesFromStorage world stored w).2 = requests w := by
  unfold Sashiko.seriesFromStorage
  split_ifs
  · rfl
  · exact calculateGitPatchIdBatch hcounts _ w

theorem rule (hcounts : CountsRequests world requests) : FetchRule world (Capped requests) where
  refl := refl
  trans := trans
  stored m := answer (hcounts.stored m)
  fromStorage stored := answer (seriesFromStorage hcounts stored)
  byId id := answer (hcounts.byId id)
  fetch _ m := askRemote (hcounts.fetch m)
  thread m := askRemote (hcounts.thread m)
  search _ id := askRemote (hcounts.search id)
  cachePatch := cachePatch

end Capped

section Budget

theorem tends_modify_local {f : ResolverState ω → ResolverState ω}
    (hworld : ∀ s, (f s).world = s.world)
    (hcount : ∀ s, (f s).remoteOperations = s.remoteOperations) :
    Tends (Capped requests) (modify f : Resolve ω PUnit) :=
  tends_modify fun s => .of_eq (congrArg requests (hworld s)) (hcount s)

variable (rule : FetchRule world (Capped requests))
include rule

theorem within_loadSeries (m : String) : Tends (Capped requests) (loadSeries world m) := by
  refine tends_get_bind fun s => ?_
  split
  · exact tends_pure rule.refl _
  · split_ifs
    · exact tends_throw rule.refl _
    · refine (rule.obtainSeries _).bind rule.trans fun series => ?_
      split_ifs
      · exact tends_throw rule.refl _
      · exact (tends_modify_local (fun _ => rfl) fun _ => rfl).bind rule.trans fun _ =>
          tends_pure rule.refl _

theorem within_appendPatch (patch : PrerequisitePatch) :
    Tends (Capped requests) (appendPatch patch : Resolve ω PUnit) := by
  refine (rule.liftExcept _).bind rule.trans fun id => ?_
  refine (rule.cachePatch _).bind rule.trans fun _ => tends_get_bind fun s => ?_
  split_ifs
  · exact tends_pure rule.refl _
  · exact (tends_modify_local (fun _ => rfl) fun _ => rfl).bind rule.trans fun _ =>
      tends_throw rule.refl _
  · exact (tends_modify_local (fun _ => rfl) fun _ => rfl).bind rule.trans fun _ =>
      tends_modify_local (fun _ => rfl) fun _ => rfl

theorem within_resolvePatchIds (ids hints : List String) :
    Tends (Capped requests) (resolvePatchIds world ids hints) := by
  unfold resolvePatchIds
  split_ifs
  · exact tends_throw rule.refl _
  · refine (rule.liftExcept _).bind rule.trans fun ids => ?_
    refine (rule.cacheLocalPatches ids).bind rule.trans fun _ => ?_
    refine (rule.cacheHintedPatches ids hints).bind rule.trans fun _ => ?_
    refine tends_forM rule.refl rule.trans fun id _ => ?_
    refine (rule.searchMissingPatch ids id).bind rule.trans fun _ => tends_get_bind fun s => ?_
    split
    · exact tends_throw rule.refl _
    · exact within_appendPatch rule _

theorem within_resolveMetadata {resolveSeries : String → Resolve ω PUnit}
    (hrec : ∀ m, Tends (Capped requests) (resolveSeries m)) (metadata : PrerequisiteMetadata) :
    Tends (Capped requests) (resolveMetadata world resolveSeries metadata) := by
  cases metadata with
  | patchIds ids hints => exact within_resolvePatchIds rule ids hints
  | messageIds ids => exact tends_forM rule.refl rule.trans fun m _ => hrec m
  | basedOn m => exact hrec m

theorem within_resolveSeries (room : ℕ) (m : String) :
    Tends (Capped requests) (resolveSeries world room m) := by
  induction room generalizing m with
  | zero => exact tends_throw rule.refl _
  | succ room ih =>
    refine tends_get_bind fun s => ?_
    split_ifs
    · exact tends_throw rule.refl _
    · exact tends_pure rule.refl _
    · refine (within_loadSeries rule _).bind rule.trans fun series => tends_get_bind fun s => ?_
      split_ifs
      · exact tends_throw rule.refl _
      · refine (tends_modify_local (fun _ => rfl) fun _ => rfl).bind rule.trans fun _ => ?_
        refine Tends.bind rule.trans ?_ fun _ => ?_
        · refine (rule.liftExcept _).bind rule.trans fun found => ?_
          cases found with
          | none => exact tends_pure rule.refl _
          | some metadata => exact within_resolveMetadata rule ih metadata
        · exact (tends_forM rule.refl rule.trans fun p _ => within_appendPatch rule p).bind
            rule.trans fun _ => tends_modify_local (fun _ => rfl) fun _ => rfl

end Budget

/-- Whatever the store and the archive answer, and whether the resolution succeeds or fails, the
archive is asked no more often than the limit. -/
theorem resolvePrerequisites_requests (hcounts : CountsRequests world requests)
    (targetPatchsetId : ℤ) (targetMessageId : Option String) (body : String) (w : ω) :
    requests (endState ((resolvePrerequisites world targetPatchsetId targetMessageId body).run
      (.new w))).world ≤ requests w + maxLoreOperations := by
  have rule := Capped.rule hcounts
  have hrun : Tends (Capped requests)
      (resolvePrerequisites world targetPatchsetId targetMessageId body) := by
    refine (rule.liftExcept _).bind rule.trans fun found => ?_
    cases found with
    | none => exact tends_pure rule.refl _
    | some metadata =>
      refine (tends_modify_local (fun _ => rfl) fun _ => rfl).bind rule.trans fun _ => ?_
      exact (within_resolveMetadata rule (within_resolveSeries rule _) metadata).bind rule.trans
        fun _ => tends_get_bind fun s => tends_pure rule.refl _
  obtain ⟨hcounted, hlimit⟩ := hrun (.new w)
  have hle := hlimit (Nat.zero_le _)
  change _ + 0 ≤ requests w + _ at hcounted
  omega

theorem countsRequests_chain : CountsRequests chainWorld id where
  stored _ _ := rfl
  byId _ _ := rfl
  git _ _ := rfl
  fetch _ w := Nat.le_refl (w + 1)
  thread _ w := Nat.le_refl (w + 1)
  search _ w := Nat.le_refl (w + 1)

theorem resolvePrerequisites_requests_chain :
    (endState ((resolvePrerequisites chainWorld 1 (some "a@x") "prerequisite-message-id: <b@x>").run
      (.new 0))).world ≤ 0 + maxLoreOperations :=
  resolvePrerequisites_requests countsRequests_chain 1 (some "a@x")
    "prerequisite-message-id: <b@x>" 0

end Sashiko
