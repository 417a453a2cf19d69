import Sashiko.Review.Acceptance
import Sashiko.Review.Clusters
import Mathlib.Data.List.Range

/-! Every candidate is in a cluster, every cluster in a shard, every inconclusive concern in a
batch. -/

namespace Sashiko

/-! ### Ids -/

/-- The shape of the ids that raised concerns and dismissed candidates have when they reach
deduplication: no surrounding white space, and not the id of a cluster. -/
structure RawId (id : String) : Prop where
  trimmed : rustTrim id = id
  nonempty : id ≠ ""
  not_cluster : ∀ idx, id ≠ clusterId idx

/-- The text stands in the array under the key. -/
def Lists (key id : String) (item : Json) : Prop := .str id ∈ (item.getArray key).getD []

instance (key id : String) (item : Json) : Decidable (Lists key id item) :=
  inferInstanceAs (Decidable (_ ∈ _))

theorem mem_extractIdList {key id : String} {item : Json} (htrim : rustTrim id = id)
    (hne : id ≠ "") (h : Lists key id item) : id ∈ extractIdList item key := by
  unfold Lists at h
  unfold extractIdList
  split
  · rename_i items harr
    rw [harr, Option.getD_some] at h
    refine List.mem_filter.mpr ⟨List.mem_map.mpr ⟨id, ?_, htrim⟩, decide_eq_true hne⟩
    exact List.mem_filterMap.mpr ⟨.str id, h, rfl⟩
  · rename_i harr
    rw [harr] at h
    cases h

theorem trimmedId_of_getStr {item : Json} {id : String} (htrim : rustTrim id = id)
    (hne : id ≠ "") (h : item.getStr "id" = some id) : trimmedId item = some id := by
  simp [trimmedId, h, htrim, hne]

theorem mem_trimmedIds {items : List Json} {item : Json} {id : String} (htrim : rustTrim id = id)
    (hne : id ≠ "") (hitem : item ∈ items) (h : item.getStr "id" = some id) :
    id ∈ trimmedIds items :=
  List.mem_filterMap.mpr ⟨item, hitem, trimmedId_of_getStr htrim hne h⟩

theorem rustTrim_clusterId (idx : ℕ) : rustTrim (clusterId idx) = clusterId idx :=
  rustTrim_numbered rfl (by decide) (idx + 1)

theorem numbered_ne_empty {letter : String} (h : letter ≠ "") (n : ℕ) :
    letter ++ toString n ≠ "" := fun heq => h (String.append_eq_empty_iff.mp heq).1

theorem clusterId_ne_empty (idx : ℕ) : clusterId idx ≠ "" := numbered_ne_empty (by decide) _

theorem clusterId_injective : Function.Injective clusterId := fun _ _ h =>
  Nat.succ_injective (eq_of_numbered_eq h)

/-! ### Clusters -/

theorem getStr_clusterJson (gid title : String) (sids : List String) (cs ds : List Json) :
    (clusterJson gid title sids cs ds).getStr "id" = some gid := rfl

theorem getArray_clusterJson_concerns (gid title : String) (sids : List String)
    (cs ds : List Json) : (clusterJson gid title sids cs ds).getArray "concerns" = some cs := rfl

theorem getArray_clusterJson_dismissed (gid title : String) (sids : List String)
    (cs ds : List Json) :
    (clusterJson gid title sids cs ds).getArray "dismissed_concerns" = some ds := rfl

theorem lists_clusterJson {gid title : String} {sids : List String} {cs ds : List Json}
    {id : String} (h : id ∈ sids) : Lists "source_ids" id (clusterJson gid title sids cs ds) :=
  List.mem_map.mpr ⟨id, h, rfl⟩

def itemsUnder (key : String) (cluster : Json) : List Json := (cluster.getArray key).getD []

/-- A cluster as both builders make it: under the id of its place, naming the items in it. -/
structure IsCluster (idx : ℕ) (cluster : Json) : Prop where
  id : cluster.getStr "id" = some (clusterId idx)
  names : ∀ item ∈ itemsUnder "concerns" cluster ++ itemsUnder "dismissed_concerns" cluster,
    ∀ id, RawId id → item.getStr "id" = some id → Lists "source_ids" id cluster

def AreClusters (clusters : List Json) : Prop :=
  ∀ idx, ∀ h : idx < clusters.length, IsCluster idx clusters[idx]

theorem AreClusters.mem {clusters : List Json} (h : AreClusters clusters) {cluster : Json}
    (hc : cluster ∈ clusters) : ∃ idx, IsCluster idx cluster := by
  obtain ⟨idx, hlt, rfl⟩ := List.mem_iff_getElem.mp hc
  exact ⟨idx, h idx hlt⟩

/-- Clusters differ in their ids. -/
theorem AreClusters.eq_of_id {clusters : List Json} (h : AreClusters clusters) {a b : Json}
    (ha : a ∈ clusters) (hb : b ∈ clusters) (hid : trimmedId a = trimmedId b) : a = b := by
  obtain ⟨i, hi, rfl⟩ := List.mem_iff_getElem.mp ha
  obtain ⟨j, hj, rfl⟩ := List.mem_iff_getElem.mp hb
  rw [trimmedId_of_getStr (rustTrim_clusterId i) (clusterId_ne_empty i) (h i hi).id,
    trimmedId_of_getStr (rustTrim_clusterId j) (clusterId_ne_empty j) (h j hj).id] at hid
  obtain rfl := clusterId_injective (Option.some.inj hid)
  rfl

theorem isCluster_deduplicatedCluster (state : LinuxPatchReviewState) (idx : ℕ)
    (spec : DeduplicationClusterSpec) : IsCluster idx (deduplicatedCluster state idx spec) where
  id := getStr_clusterJson _ _ _ _ _
  names item hitem id hraw hid := by
    rw [itemsUnder, itemsUnder, deduplicatedCluster, getArray_clusterJson_concerns,
      getArray_clusterJson_dismissed, Option.getD_some, Option.getD_some] at hitem
    have hnamed : namedIn (spec.sourceIds.foldl pushUniqueString []) item = true := by
      rcases List.mem_append.mp hitem with h | h
      · exact (List.mem_filter.mp h).2
      · exact (List.mem_filter.mp h).2
    refine lists_clusterJson ?_
    simpa [namedIn, hid, hraw.trimmed] using hnamed

theorem isCluster_singleton {gid title sid : String} {cs ds : List Json} {idx : ℕ} {item : Json}
    (hgid : gid = clusterId idx) (hitems : cs ++ ds = [item])
    (hsid : ∀ id, RawId id → item.getStr "id" = some id → sid = id) :
    IsCluster idx (clusterJson gid title [sid] cs ds) where
  id := hgid ▸ getStr_clusterJson _ _ _ _ _
  names x hx id hraw hid := by
    rw [itemsUnder, itemsUnder, getArray_clusterJson_concerns, getArray_clusterJson_dismissed,
      Option.getD_some, Option.getD_some, hitems] at hx
    obtain rfl := List.mem_singleton.mp hx
    exact lists_clusterJson (hsid id hraw hid ▸ List.mem_singleton_self _)

theorem rawId_eq {letter : String} {idx : ℕ} {item : Json} {id : String} (hraw : RawId id)
    (h : item.getStr "id" = some id) : rawId letter idx item = id := by
  rw [rawId, trimmedId_of_getStr hraw.trimmed hraw.nonempty h, Option.getD_some]

theorem areClusters_buildSingletonClusters (state : LinuxPatchReviewState) :
    AreClusters (buildSingletonClusters state) := by
  intro idx hlt
  unfold buildSingletonClusters at hlt ⊢
  rw [List.getElem_append]
  split
  · rw [List.getElem_mapIdx]
    exact isCluster_singleton rfl rfl fun id hraw hid => rawId_eq hraw hid
  · rename_i hge
    rw [List.getElem_mapIdx]
    refine isCluster_singleton ?_ rfl fun id hraw hid => rawId_eq hraw hid
    rw [List.length_mapIdx] at hge ⊢
    congr 1
    omega

/-- How a review comes to its clusters: through an accepted output, or without deduplication. -/
def deduplicate (state : LinuxPatchReviewState) :
    Option DeduplicationOutput → LinuxPatchReviewState
  | some out => applyDeduplicationStageOutput state out
  | none => state

def DeduplicationAccepted (state : LinuxPatchReviewState) : Option DeduplicationOutput → Prop
  | some out => validateDeduplicationOutput out state = .ok ()
  | none => shouldSkipDeduplication state = true ∧ state.deduplicatedClusters = []

instance (state : LinuxPatchReviewState) :
    (dedup : Option DeduplicationOutput) → Decidable (DeduplicationAccepted state dedup)
  | some out => inferInstanceAs (Decidable (validateDeduplicationOutput out state = .ok ()))
  | none => inferInstanceAs (Decidable (_ ∧ _))

theorem effectiveClusters_deduplicate {state : LinuxPatchReviewState}
    {dedup : Option DeduplicationOutput} (h : DeduplicationAccepted state dedup) :
    effectiveClusters (deduplicate state dedup) = buildSingletonClusters state ∨
      ∃ out, validateDeduplicationOutput out state = .ok () ∧
        effectiveClusters (deduplicate state dedup) =
          out.clusters.mapIdx (deduplicatedCluster state) := by
  rcases dedup with _ | out
  · left
    rw [deduplicate, effectiveClusters, if_neg (not_not_intro h.2)]
  · by_cases hnil : out.clusters.mapIdx (deduplicatedCluster state) = []
    · left
      rw [deduplicate, effectiveClusters, applyDeduplicationStageOutput, if_neg (by simpa using hnil)]
      rfl
    · exact .inr ⟨out, h, if_pos hnil⟩

theorem areClusters_effectiveClusters {state : LinuxPatchReviewState}
    {dedup : Option DeduplicationOutput} (h : DeduplicationAccepted state dedup) :
    AreClusters (effectiveClusters (deduplicate state dedup)) := by
  rcases effectiveClusters_deduplicate h with heq | ⟨out, -, heq⟩
  · exact heq ▸ areClusters_buildSingletonClusters state
  · rw [heq]
    intro idx hlt
    rw [List.getElem_mapIdx]
    exact isCluster_deduplicatedCluster state idx _

theorem named_of_pushAll {spec : DeduplicationClusterSpec} {item : Json} {id : String}
    (hraw : RawId id) (hid : item.getStr "id" = some id)
    (hmem : id ∈ spec.sourceIds.map rustTrim) :
    namedIn (spec.sourceIds.foldl pushUniqueString []) item = true := by
  obtain ⟨sid, hsid, htrim⟩ := List.mem_map.mp hmem
  have hpush : id ∈ spec.sourceIds.foldl pushUniqueString [] :=
    mem_pushAll_trimmed (htrim ▸ hraw.nonempty) hsid htrim []
  simpa [namedIn, hid, hraw.trimmed] using hpush

/-- No candidate is left out of the clusters. -/
theorem exists_cluster {state : LinuxPatchReviewState} {dedup : Option DeduplicationOutput}
    (h : DeduplicationAccepted state dedup) {item : Json} {id : String} (hraw : RawId id)
    (hid : item.getStr "id" = some id) :
    (item ∈ state.allConcerns → ∃ cluster ∈ effectiveClusters (deduplicate state dedup),
      item ∈ itemsUnder "concerns" cluster) ∧
    (item ∈ state.allDismissedConcerns → ∃ cluster ∈ effectiveClusters (deduplicate state dedup),
      item ∈ itemsUnder "dismissed_concerns" cluster) := by
  rcases effectiveClusters_deduplicate h with heq | ⟨out, hout, heq⟩
  · rw [heq]
    refine ⟨fun hitem => ?_, fun hitem => ?_⟩
    · obtain ⟨idx, hlt, rfl⟩ := List.mem_iff_getElem.mp hitem
      exact ⟨_, List.mem_append_left _ (List.mem_mapIdx.mpr ⟨idx, hlt, rfl⟩),
        List.mem_singleton_self _⟩
    · obtain ⟨idx, hlt, rfl⟩ := List.mem_iff_getElem.mp hitem
      exact ⟨_, List.mem_append_right _ (List.mem_mapIdx.mpr ⟨idx, hlt, rfl⟩),
        List.mem_singleton_self _⟩
  · rw [heq]
    have hcluster : item ∈ state.allConcerns ++ state.allDismissedConcerns →
        ∃ idx, ∃ hlt : idx < out.clusters.length, namedIn
          (out.clusters[idx].sourceIds.foldl pushUniqueString []) item = true := by
      intro hitem
      obtain ⟨spec, hspec, hmem⟩ := validateDeduplicationOutput_ok hout id
        (mem_trimmedIds hraw.trimmed hraw.nonempty hitem hid)
      obtain ⟨idx, hlt, rfl⟩ := List.mem_iff_getElem.mp hspec
      exact ⟨idx, hlt, named_of_pushAll hraw hid hmem⟩
    refine ⟨fun hitem => ?_, fun hitem => ?_⟩
    · obtain ⟨idx, hlt, hnamed⟩ := hcluster (List.mem_append_left _ hitem)
      exact ⟨_, List.mem_mapIdx.mpr ⟨idx, hlt, rfl⟩, List.mem_filter.mpr ⟨hitem, hnamed⟩⟩
    · obtain ⟨idx, hlt, hnamed⟩ := hcluster (List.mem_append_right _ hitem)
      exact ⟨_, List.mem_mapIdx.mpr ⟨idx, hlt, rfl⟩, List.mem_filter.mpr ⟨hitem, hnamed⟩⟩

/-! ### Shards and batches -/

theorem sum_sizes_first (base r n : ℕ) :
    ((List.range n).map fun i => base + if i < r then 1 else 0).sum = n * base + min n r := by
  induction n with
  | zero => simp
  | succ n ih =>
    rw [List.range_succ, List.map_append, List.sum_append, ih, List.map_singleton,
      List.sum_singleton, Nat.succ_mul]
    split_ifs <;> omega

theorem sum_sizes_last (base k n : ℕ) :
    ((List.range n).map fun i => base + if k ≤ i then 1 else 0).sum = n * base + (n - k) := by
  induction n with
  | zero => simp
  | succ n ih =>
    rw [List.range_succ, List.map_append, List.sum_append, ih, List.map_singleton,
      List.sum_singleton, Nat.succ_mul]
    split_ifs <;> omega

theorem sum_verificationShardSizes {total : ℕ} (h : 0 < total) :
    (verificationShardSizes total).sum = total := by
  have hcount : 0 < verificationShardCount total := by
    unfold verificationShardCount maxVerificationShardSize maxVerificationStages
    omega
  have hmod := Nat.mod_lt total hcount
  have hdiv := Nat.div_add_mod total (verificationShardCount total)
  rw [verificationShardSizes, sum_sizes_first]
  omega

theorem sum_tailSizes {total : ℕ} (h : maxPostVerificationStages < total) :
    (tailSizes total).sum = total - soloStages total := by
  have hcount : 0 < tailStages total := by
    unfold tailStages maxPostVerificationStages at *
    omega
  have hmod := Nat.mod_lt (total - soloStages total) hcount
  have hdiv := Nat.div_add_mod (total - soloStages total) (tailStages total)
  rw [tailSizes, sum_sizes_last]
  omega

/-- The shards are the clusters, each in one of them. -/
theorem batchClustersForVerification_perm (clusters : List Json) :
    (batchClustersForVerification clusters).flatten.Perm clusters := by
  unfold batchClustersForVerification
  split_ifs with hnil hshort
  · rw [hnil, List.flatten_nil]
  · rw [List.flatten_singleton]
  · have hsum := sum_verificationShardSizes (List.length_pos_iff.mpr hnil)
    rw [flatten_slices _ _ (by rw [hsum, List.length_mergeSort])]
    exact List.mergeSort_perm _ _

theorem flatten_singletons {α : Type} (xs : List α) : (xs.map fun x => [x]).flatten = xs := by
  rw [← List.flatMap_def, List.flatMap_singleton']

theorem severityBatches_flatten {sorted : List Json}
    (h : maxPostVerificationStages < sorted.length) : (severityBatches sorted).flatten = sorted := by
  have hsum := sum_tailSizes h
  rw [severityBatches, List.flatten_append, flatten_slices _ _ (by rw [hsum, List.length_drop]),
    flatten_singletons, List.take_append_drop]

/-- The batches are the inconclusive concerns, each in one of them. -/
theorem batchInconclusiveConcernsBySeverity_perm (concerns : List Json) :
    (batchInconclusiveConcernsBySeverity concerns).flatten.Perm concerns := by
  unfold batchInconclusiveConcernsBySeverity
  split_ifs with hshort
  · rw [flatten_singletons]
  · rw [severityBatches_flatten (by rw [List.length_mergeSort]; omega)]
    exact List.mergeSort_perm _ _

theorem length_slices {α : Type} (sizes : List ℕ) :
    ∀ xs : List α, (slices sizes xs).length = sizes.length := by
  induction sizes with
  | nil => exact fun _ => rfl
  | cons n sizes ih => exact fun xs => congrArg Nat.succ (ih _)

/-- There is a stage name for every batch. -/
theorem length_batchInconclusiveConcernsBySeverity (concerns : List Json) :
    (batchInconclusiveConcernsBySeverity concerns).length ≤ maxPostVerificationStages := by
  unfold batchInconclusiveConcernsBySeverity
  split_ifs with hshort
  · rwa [List.length_map]
  · rw [severityBatches, List.length_append, List.length_map, length_slices, List.length_take,
      tailSizes, List.length_map, List.length_range, soloStages, tailStages]
    omega

theorem length_batchClustersForVerification (clusters : List Json) :
    (batchClustersForVerification clusters).length ≤ maxVerificationStages := by
  unfold batchClustersForVerification
  split_ifs with hnil hshort
  · exact Nat.zero_le _
  · exact Nat.le_of_ble_eq_true rfl
  · rw [length_slices, verificationShardSizes, List.length_map, List.length_range]
    exact Nat.min_le_right _ _

end Sashiko
