import Sashiko.Review.Validation

/-! What acceptance by a validator promises about the ids of an output. -/

namespace Sashiko

theorem requireAccounted_ok {ids accounted : List String} {message : String → String} {u : Unit}
    (h : requireAccounted ids accounted message = .ok u) : ∀ id ∈ ids, id ∈ accounted := by
  unfold requireAccounted at h
  split_ifs at h with hnil
  intro id hid
  by_contra hout
  exact List.not_mem_nil (hnil ▸ List.mem_filter.mpr ⟨hid, decide_eq_true hout⟩)

theorem extractNonEmptySourceIds_ok {name label : String} {idx : ℕ} {item : Json}
    {sids : List String} (h : extractNonEmptySourceIds name idx item label = .ok sids) :
    sids = extractIdList item "source_ids" := by
  unfold extractNonEmptySourceIds at h
  split at h
  · cases h
  · split_ifs at h
    cases h
    rfl

/-! ### Deduplication -/

theorem checkCluster_ok {validIds : List String} {label : String} {idx : ℕ}
    {accounted accounted' : List String} {cluster : DeduplicationClusterSpec}
    (h : checkCluster validIds label idx accounted cluster = .ok accounted') :
    ∀ id ∈ accounted', id ∈ accounted ∨ id ∈ cluster.sourceIds.map rustTrim := by
  unfold checkCluster at h
  split_ifs at h
  refine foldIdx_invariant
    (P := fun acc => ∀ id ∈ acc, id ∈ accounted ∨ id ∈ cluster.sourceIds.map rustTrim) ?_
    (fun id hid => .inl hid) h
  intro i acc sid acc' hsid hacc hstep
  unfold checkClusterId at hstep
  split_ifs at hstep
  cases hstep
  intro id hid
  rcases List.mem_cons.mp hid with rfl | hid
  · exact .inr hsid
  · exact hacc id hid

theorem validateDeduplicationOutput_ok {output : DeduplicationOutput}
    {state : LinuxPatchReviewState} {u : Unit}
    (h : validateDeduplicationOutput output state = .ok u) :
    ∀ id ∈ candidateIds state, ∃ cluster ∈ output.clusters, id ∈ cluster.sourceIds.map rustTrim := by
  intro id hid
  unfold validateDeduplicationOutput at h
  split_ifs at h with hnil
  · exact absurd hid (hnil ▸ List.not_mem_nil)
  · obtain ⟨accounted, hfold, hall⟩ := bind_ok h
    have hacc : ∀ id ∈ accounted, ∃ cluster ∈ output.clusters,
        id ∈ cluster.sourceIds.map rustTrim := by
      refine foldIdx_invariant (P := fun acc : List String => ∀ id ∈ acc,
        ∃ cluster ∈ output.clusters, id ∈ cluster.sourceIds.map rustTrim) ?_
        (fun id hid => absurd hid List.not_mem_nil) hfold
      intro i acc cluster acc' hcluster hacc hstep id hid
      rcases checkCluster_ok hstep id hid with hold | hnew
      · exact hacc id hold
      · exact ⟨cluster, hcluster, hnew⟩
    exact hacc id (requireAccounted_ok hall id hid)

/-! ### Verification shards -/

/-- Every id that an output names, with what may be named there. -/
def namedRefs (output : VerificationOutput) : List (RefPolicy × String) :=
  (outputCollections output).flatMap (fun collection =>
    collection.items.flatMap fun item =>
      (extractIdList item "source_ids").map fun sid => (collection.policy, sid)) ++
  output.dismissedIds.map fun did => (⟨false, true⟩, rustTrim did)

/-- Where raised concerns may not be named, a cluster that has some may not be either. -/
def RefPolicy.Allows (policy : RefPolicy) (info : ClusterInfo) : Prop :=
  (info.concernIds ≠ [] → policy.allowConcerns = true) ∧
    (info.dismissedIds ≠ [] → policy.allowDismissed = true)

/-- Whatever counts as accounted for was named where that is allowed. -/
structure Grounded (infos : List ClusterInfo) (refs : List (RefPolicy × String))
    (acc : AccountedRefs) : Prop where
  clusters : ∀ g ∈ acc.clusters, ∃ policy, (policy, g) ∈ refs ∧
    ∃ info ∈ infos, info.id = g ∧ policy.Allows info
  rawIds : ∀ r ∈ acc.rawIds, ∃ policy, (policy, r) ∈ refs ∧
    ∀ info ∈ infos, r ∈ info.concernIds ∨ r ∈ info.dismissedIds → policy.Allows info

section Shard

variable {infos : List ClusterInfo} {refs : List (RefPolicy × String)} {policy : RefPolicy}
  {label sid : String} {acc acc' : AccountedRefs} {info : ClusterInfo}

theorem checkRawRef_ok (h : checkRawRef policy label sid acc info = .ok acc') :
    policy.Allows info ∧ acc' = { acc with rawIds := sid :: acc.rawIds } := by
  unfold checkRawRef at h
  split_ifs at h with hc hd
  cases h
  simp only [Bool.and_eq_true, Bool.or_eq_true, decide_eq_true_eq, Bool.not_eq_true',
    not_and, not_or] at hc hd
  refine ⟨⟨fun hne => ?_, fun hne => ?_⟩, rfl⟩
  · by_contra hallow
    exact (hc (Bool.eq_false_iff.mpr hallow)).2 hne
  · by_contra hallow
    exact (hd (Bool.eq_false_iff.mpr hallow)).2 hne

theorem checkClusterRef_ok (h : checkClusterRef policy label sid acc info = .ok acc') :
    policy.Allows info ∧ acc' = { acc with clusters := info.id :: acc.clusters } := by
  unfold checkClusterRef at h
  split_ifs at h with hc hd
  cases h
  simp only [Bool.and_eq_true, decide_eq_true_eq, Bool.not_eq_true', not_and] at hc hd
  refine ⟨⟨fun hne => ?_, fun hne => ?_⟩, rfl⟩
  · by_contra hallow
    exact hc (Bool.eq_false_iff.mpr hallow) hne
  · by_contra hallow
    exact hd (Bool.eq_false_iff.mpr hallow) hne

theorem Grounded.addCluster (hacc : Grounded infos refs acc) (href : (policy, info.id) ∈ refs)
    (hinfo : info ∈ infos) (hallow : policy.Allows info) :
    Grounded infos refs { acc with clusters := info.id :: acc.clusters } where
  clusters g hg := by
    rcases List.mem_cons.mp hg with rfl | hg
    · exact ⟨policy, href, info, hinfo, rfl, hallow⟩
    · exact hacc.clusters g hg
  rawIds := hacc.rawIds

theorem checkRef_grounded (hacc : Grounded infos refs acc) (href : (policy, sid) ∈ refs)
    (h : checkRef infos policy label sid acc = .ok acc') : Grounded infos refs acc' := by
  unfold checkRef at h
  split at h
  · rename_i info hfind
    obtain ⟨hallow, rfl⟩ := checkClusterRef_ok h
    have hid : info.id = sid := by simpa using List.find?_some hfind
    exact hacc.addCluster (hid ▸ href) (List.mem_of_find?_eq_some hfind) hallow
  · split_ifs at h
    have hallow : ∀ info ∈ infos, sid ∈ info.concernIds ∨ sid ∈ info.dismissedIds →
        policy.Allows info := by
      intro info hinfo hsid
      obtain ⟨_, _, _, hstep⟩ :=
        foldIdx_step h info (List.mem_filter.mpr ⟨hinfo, by simpa using hsid⟩)
      exact (checkRawRef_ok hstep).1
    refine foldIdx_invariant (P := Grounded infos refs) ?_ hacc h
    intro i b info b' hinfo hb hstep
    obtain ⟨-, rfl⟩ := checkRawRef_ok hstep
    refine ⟨hb.clusters, fun r hr => ?_⟩
    rcases List.mem_cons.mp hr with rfl | hr
    · exact ⟨policy, href, hallow⟩
    · exact hb.rawIds r hr

end Shard

theorem checkCollections_grounded {infos : List ClusterInfo} {output : VerificationOutput}
    {acc : AccountedRefs} (h : checkCollections infos output = .ok acc) :
    Grounded infos (namedRefs output) acc := by
  refine foldIdx_invariant (P := Grounded infos (namedRefs output)) ?_ ⟨by simp, by simp⟩ h
  intro i b collection b' hcollection hb hitems
  refine foldIdx_invariant (P := Grounded infos (namedRefs output)) ?_ hb hitems
  intro j b item b' hitem hb hrefs
  obtain ⟨sids, hsids, hrefs⟩ := bind_ok hrefs
  obtain rfl := extractNonEmptySourceIds_ok hsids
  refine foldIdx_invariant (P := Grounded infos (namedRefs output)) ?_ hb hrefs
  intro k b sid b' hsid hb href
  refine checkRef_grounded hb (List.mem_append_left _ ?_) href
  exact List.mem_flatMap.mpr ⟨collection, hcollection,
    List.mem_flatMap.mpr ⟨item, hitem, List.mem_map.mpr ⟨sid, hsid, rfl⟩⟩⟩

theorem checkDismissedIds_grounded {infos : List ClusterInfo} {output : VerificationOutput}
    {acc acc' : AccountedRefs} (hacc : Grounded infos (namedRefs output) acc)
    (h : checkDismissedIds infos acc output.dismissedIds = .ok acc') :
    Grounded infos (namedRefs output) acc' := by
  refine foldIdx_invariant (P := Grounded infos (namedRefs output)) ?_ hacc h
  intro i b did b' hdid hb href
  exact checkRef_grounded hb (List.mem_append_right _ (List.mem_map.mpr ⟨did, hdid, rfl⟩)) href

/-- An accepted output names every cluster, or all of its raw ids, where the cluster allows it. -/
theorem validateShardRefs_ok {output : VerificationOutput} {infos : List ClusterInfo} {u : Unit}
    (hdistinct : ∀ a ∈ infos, ∀ b ∈ infos, a.id = b.id → a = b)
    (h : validateShardRefs output infos = .ok u) :
    ∀ info ∈ infos, ∀ r ∈ info.concernIds ++ info.dismissedIds, ∃ policy sid,
      (policy, sid) ∈ namedRefs output ∧ (sid = info.id ∨ sid = r) ∧ policy.Allows info := by
  intro info hinfo r hr
  obtain ⟨acc, hcollections, h⟩ := bind_ok h
  obtain ⟨acc', hdismissed, h⟩ := bind_ok h
  obtain ⟨u', haccounted, -⟩ := bind_ok h
  have hground := checkDismissedIds_grounded (checkCollections_grounded hcollections) hdismissed
  have hid : info.id ∈ accountedClusters infos acc' :=
    requireAccounted_ok haccounted info.id (List.mem_map.mpr ⟨info, hinfo, rfl⟩)
  rcases List.mem_append.mp hid with hcluster | hraw
  · obtain ⟨policy, href, other, hother, heq, hallow⟩ := hground.clusters info.id hcluster
    obtain rfl := hdistinct other hother info hinfo heq
    exact ⟨policy, other.id, href, .inl rfl, hallow⟩
  · obtain ⟨other, hother, heq⟩ := List.mem_map.mp hraw
    obtain ⟨hmem, hcovered⟩ := List.mem_filter.mp hother
    obtain rfl := hdistinct other hmem info hinfo heq
    simp only [coveredByRawIds, Bool.and_eq_true, List.all_eq_true, decide_eq_true_eq] at hcovered
    obtain ⟨policy, href, hallow⟩ := hground.rawIds r (hcovered.2 r hr)
    exact ⟨policy, r, href, .inr rfl, hallow other hmem (List.mem_append.mp hr)⟩

/-- A cluster that merges several raised concerns has each of them named as such. -/
theorem validateMergedConcernsKept_ok {output : VerificationOutput} {infos : List ClusterInfo}
    {u : Unit} (h : validateMergedConcernsKept output infos = .ok u) :
    ∀ info ∈ infos, 2 ≤ info.concernIds.length → ∀ c ∈ info.concernIds, c ∈ keptIds output := by
  intro info hinfo hlen c hc
  obtain ⟨_, _, _, hstep⟩ := foldIdx_step h info hinfo
  unfold checkMergedCluster at hstep
  split_ifs at hstep with hkept
  rcases hkept with hshort | hnil
  · omega
  · by_contra hout
    exact List.not_mem_nil (hnil ▸ List.mem_filter.mpr ⟨hc, decide_eq_true hout⟩)

theorem validateVerificationShardOutput_ok {output : VerificationOutput}
    {shardClusters : List Json} {u : Unit}
    (h : validateVerificationShardOutput output shardClusters = .ok u)
    (hne : shardClusters.filterMap clusterInfo ≠ []) :
    validateShardRefs output (shardClusters.filterMap clusterInfo) = .ok () ∧
      validateMergedConcernsKept output (shardClusters.filterMap clusterInfo) = .ok () := by
  obtain ⟨u', -, hrefs⟩ := bind_ok h
  rw [if_neg hne] at hrefs
  have hmerged := hrefs
  obtain ⟨acc, -, hmerged⟩ := bind_ok hmerged
  obtain ⟨acc', -, hmerged⟩ := bind_ok hmerged
  obtain ⟨u'', -, hmerged⟩ := bind_ok hmerged
  exact ⟨hrefs, hmerged⟩

/-! ### Post-verification -/

theorem checkBatchItem_ok {name : String} {expectedIds : List String} {idx : ℕ}
    {accounted accounted' : List String} {item : Json}
    (h : checkBatchItem name expectedIds idx accounted item = .ok accounted') :
    ∀ id ∈ accounted', id ∈ accounted ∨ id ∈ extractIdList item "source_ids" := by
  obtain ⟨sids, hsids, h⟩ := bind_ok h
  obtain rfl := extractNonEmptySourceIds_ok hsids
  refine foldIdx_invariant
    (P := fun acc => ∀ id ∈ acc, id ∈ accounted ∨ id ∈ extractIdList item "source_ids") ?_
    (fun id hid => .inl hid) h
  intro i acc sid acc' hsid hacc hstep
  unfold checkBatchId at hstep
  split_ifs at hstep
  cases hstep
  intro id hid
  rcases List.mem_cons.mp hid with rfl | hid
  · exact .inr hsid
  · exact hacc id hid

theorem checkBatchItems_ok {name : String} {expectedIds accounted accounted' : List String}
    {items : List Json}
    (h : foldIdx (checkBatchItem name expectedIds) 0 accounted items = .ok accounted') :
    ∀ id ∈ accounted', id ∈ accounted ∨ ∃ item ∈ items, id ∈ extractIdList item "source_ids" := by
  refine foldIdx_invariant (P := fun acc => ∀ id ∈ acc,
    id ∈ accounted ∨ ∃ item ∈ items, id ∈ extractIdList item "source_ids") ?_
    (fun id hid => .inl hid) h
  intro i acc item acc' hitem hacc hstep id hid
  rcases checkBatchItem_ok hstep id hid with hold | hnew
  · exact hacc id hold
  · exact .inr ⟨item, hitem, hnew⟩

/-- An accepted batch gives a verdict on every inconclusive concern in it. -/
theorem validatePostVerificationBatchItems_ok {output : PostVerificationOutput}
    {batch : List Json} {u : Unit}
    (h : validatePostVerificationBatchItems output batch = .ok u) :
    ∀ id ∈ trimmedIds batch, ∃ item ∈ output.findings ++ output.dismissedConcerns,
      id ∈ extractIdList item "source_ids" := by
  intro id hid
  obtain ⟨_, -, h⟩ := bind_ok h
  rw [if_neg (List.ne_nil_of_mem hid)] at h
  obtain ⟨acc, hfindings, h⟩ := bind_ok h
  obtain ⟨acc', hdismissed, h⟩ := bind_ok h
  rcases checkBatchItems_ok hdismissed id (requireAccounted_ok h id hid) with hold | hnew
  · rcases checkBatchItems_ok hfindings id hold with hnil | ⟨item, hitem, hsid⟩
    · cases hnil
    · exact ⟨item, List.mem_append_left _ hitem, hsid⟩
  · obtain ⟨item, hitem, hsid⟩ := hnew
    exact ⟨item, List.mem_append_right _ hitem, hsid⟩

end Sashiko
