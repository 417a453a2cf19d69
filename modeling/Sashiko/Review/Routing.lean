import Sashiko.Review.Lineage

/-! Where an accepted shard output sends the raw items of its clusters. -/

namespace Sashiko

theorem mem_namedRefs {out : VerificationOutput} {policy : RefPolicy} {sid : String}
    (h : (policy, sid) ∈ namedRefs out) :
    (∃ item ∈ out.findings, sid ∈ extractIdList item "source_ids" ∧ policy = ⟨true, false⟩) ∨
    (∃ item ∈ out.inconclusiveConcerns,
      sid ∈ extractIdList item "source_ids" ∧ policy = ⟨true, true⟩) ∨
    (∃ item ∈ out.dismissedConcerns,
      sid ∈ extractIdList item "source_ids" ∧ policy = ⟨false, true⟩) ∨
    (∃ did ∈ out.dismissedIds, rustTrim did = sid ∧ policy = ⟨false, true⟩) := by
  rcases List.mem_append.mp h with h | h
  · obtain ⟨collection, hcollection, h⟩ := List.mem_flatMap.mp h
    obtain ⟨item, hitem, h⟩ := List.mem_flatMap.mp h
    obtain ⟨named, hnamed, heq⟩ := List.mem_map.mp h
    obtain ⟨rfl, rfl⟩ := Prod.mk.inj heq
    rcases List.mem_cons.mp hcollection with rfl | hcollection
    · exact .inl ⟨item, hitem, hnamed, rfl⟩
    · rcases List.mem_cons.mp hcollection with rfl | hcollection
      · exact .inr (.inl ⟨item, hitem, hnamed, rfl⟩)
      · obtain rfl := List.mem_singleton.mp hcollection
        exact .inr (.inr (.inl ⟨item, hitem, hnamed, rfl⟩))
  · obtain ⟨did, hdid, heq⟩ := List.mem_map.mp h
    obtain ⟨rfl, rfl⟩ := Prod.mk.inj heq
    exact .inr (.inr (.inr ⟨did, hdid, rfl, rfl⟩))

theorem mem_clusterItemIds {cluster item : Json} {key id : String} (htrim : rustTrim id = id)
    (hitem : item ∈ itemsUnder key cluster) (hid : item.getStr "id" = some id) :
    id ∈ clusterItemIds cluster key :=
  List.mem_map.mpr ⟨id, List.mem_filterMap.mpr ⟨item, hitem, hid⟩, htrim⟩

theorem mem_trimmedIds_of_clusterItemIds {cluster : Json} {key id : String} (hne : id ≠ "")
    (h : id ∈ clusterItemIds cluster key) : id ∈ trimmedIds (itemsUnder key cluster) := by
  obtain ⟨text, htext, rfl⟩ := List.mem_map.mp h
  obtain ⟨item, hitem, hid⟩ := List.mem_filterMap.mp htext
  exact List.mem_filterMap.mpr ⟨item, hitem, by simp [trimmedId, hid, hne]⟩

def infoOf (idx : ℕ) (cluster : Json) : ClusterInfo :=
  ⟨clusterId idx, trimmedIds (itemsUnder "concerns" cluster),
    trimmedIds (itemsUnder "dismissed_concerns" cluster)⟩

theorem IsCluster.clusterInfo_eq {idx : ℕ} {cluster : Json} (h : IsCluster idx cluster) :
    clusterInfo cluster = some (infoOf idx cluster) := by
  rw [clusterInfo, trimmedId_of_getStr (rustTrim_clusterId idx) (clusterId_ne_empty idx) h.id]
  rfl

section Shard

variable {clusters shard : List Json} {out : VerificationOutput} {idx : ℕ} {cluster item : Json}
  {id : String}

theorem findCluster_self (hclusters : AreClusters clusters) (hsub : shard ⊆ clusters)
    (hmem : cluster ∈ shard) (hcluster : IsCluster idx cluster) :
    findCluster shard (clusterId idx) = some cluster := by
  have hself : (cluster.getStr "id").map rustTrim = some (clusterId idx) := by
    rw [hcluster.id, Option.map_some, rustTrim_clusterId]
  obtain ⟨found, hfound⟩ : ∃ found, findCluster shard (clusterId idx) = some found :=
    Option.isSome_iff_exists.mp (List.find?_isSome.mpr ⟨cluster, hmem, decide_eq_true hself⟩)
  have hid : (found.getStr "id").map rustTrim = some (clusterId idx) := by
    simpa using List.find?_some hfound
  have hin : found ∈ shard := List.mem_of_find?_eq_some hfound
  rw [hfound, hclusters.eq_of_id (hsub hin) (hsub hmem)
    (by rw [trimmedId, trimmedId, hid, hself])]

theorem findCluster_raw (hclusters : AreClusters clusters) (hsub : shard ⊆ clusters)
    (hraw : RawId id) : findCluster shard id = none := by
  refine List.find?_eq_none.mpr fun c hc heq => ?_
  obtain ⟨idx, hcluster⟩ := hclusters.mem (hsub hc)
  rw [hcluster.id, Option.map_some, rustTrim_clusterId, decide_eq_true_eq] at heq
  exact hraw.not_cluster idx (Option.some.inj heq).symm

theorem infos_distinct (hclusters : AreClusters clusters) (hsub : shard ⊆ clusters) :
    ∀ a ∈ shard.filterMap clusterInfo, ∀ b ∈ shard.filterMap clusterInfo, a.id = b.id → a = b := by
  intro a ha b hb hid
  obtain ⟨ca, hca, hia⟩ := List.mem_filterMap.mp ha
  obtain ⟨cb, hcb, hib⟩ := List.mem_filterMap.mp hb
  obtain ⟨i, hi⟩ := hclusters.mem (hsub hca)
  obtain ⟨j, hj⟩ := hclusters.mem (hsub hcb)
  rw [hi.clusterInfo_eq] at hia
  rw [hj.clusterInfo_eq] at hib
  obtain rfl := Option.some.inj hia
  obtain rfl := Option.some.inj hib
  have hij : i = j := clusterId_injective hid
  have heq : ca = cb := hclusters.eq_of_id (hsub hca) (hsub hcb) (by
    rw [trimmedId, trimmedId, hi.id, hj.id, hij])
  rw [hij, heq]

/-- The reference by which an accepted output accounts for one raw item of a cluster. -/
theorem exists_ref (hclusters : AreClusters clusters) (hsub : shard ⊆ clusters)
    (hok : validateVerificationShardOutput out shard = .ok ()) (hmem : cluster ∈ shard)
    (hcluster : IsCluster idx cluster) (hraw : RawId id) (hid : item.getStr "id" = some id)
    (hitem : item ∈ itemsUnder "concerns" cluster ++ itemsUnder "dismissed_concerns" cluster) :
    ∃ policy sid, (policy, sid) ∈ namedRefs out ∧ (sid = clusterId idx ∨ sid = id) ∧
      policy.Allows (infoOf idx cluster) := by
  have hinfo : infoOf idx cluster ∈ shard.filterMap clusterInfo :=
    List.mem_filterMap.mpr ⟨cluster, hmem, hcluster.clusterInfo_eq⟩
  have hids : id ∈ (infoOf idx cluster).concernIds ++ (infoOf idx cluster).dismissedIds := by
    rcases List.mem_append.mp hitem with h | h
    · exact List.mem_append_left _ (mem_trimmedIds hraw.trimmed hraw.nonempty h hid)
    · exact List.mem_append_right _ (mem_trimmedIds hraw.trimmed hraw.nonempty h hid)
  exact validateShardRefs_ok (infos_distinct hclusters hsub)
    (validateVerificationShardOutput_ok hok (List.ne_nil_of_mem hinfo)).1 _ hinfo id hids

theorem mem_expandedIds_raw (hclusters : AreClusters clusters) (hsub : shard ⊆ clusters)
    (hraw : RawId id) (explicit : List String) : id ∈ expandedIds shard explicit id := by
  rw [expandedIds, findCluster_raw hclusters hsub hraw]
  exact List.mem_singleton_self id

theorem IsCluster.mem_source_ids (hcluster : IsCluster idx cluster) (hraw : RawId id)
    (hid : item.getStr "id" = some id)
    (hitem : item ∈ itemsUnder "concerns" cluster ++ itemsUnder "dismissed_concerns" cluster) :
    id ∈ extractIdList cluster "source_ids" :=
  mem_extractIdList hraw.trimmed hraw.nonempty (hcluster.names item hitem id hraw hid)

/-- Naming a cluster carries its dismissed candidates along, however it is expanded. -/
theorem mem_expandedIds_dismissed (hclusters : AreClusters clusters) (hsub : shard ⊆ clusters)
    (hmem : cluster ∈ shard) (hcluster : IsCluster idx cluster) (hraw : RawId id)
    (hid : item.getStr "id" = some id) (hitem : item ∈ itemsUnder "dismissed_concerns" cluster)
    (explicit : List String) : id ∈ expandedIds shard explicit (clusterId idx) := by
  rw [expandedIds, findCluster_self hclusters hsub hmem hcluster]
  dsimp only
  split_ifs
  · exact mem_clusterItemIds hraw.trimmed hitem hid
  · exact hcluster.mem_source_ids hraw hid (List.mem_append_right _ hitem)

theorem mem_expanded_findings {x : Json} (hx : x ∈ out.findings ++ out.inconclusiveConcerns) :
    expandItemSourceIds shard x ∈ (expandVerificationShardOutput shard out).findings ++
      (expandVerificationShardOutput shard out).inconclusiveConcerns := by
  rcases List.mem_append.mp hx with h | h
  · exact List.mem_append_left _ (List.mem_map.mpr ⟨x, h, rfl⟩)
  · exact List.mem_append_right _ (List.mem_map.mpr ⟨x, h, rfl⟩)

/-- An item that names a raised concern by its raw id. -/
theorem lists_of_mem_keptIds (hclusters : AreClusters clusters) (hsub : shard ⊆ clusters)
    (hraw : RawId id) (h : id ∈ keptIds out) :
    ∃ x ∈ (expandVerificationShardOutput shard out).findings ++
      (expandVerificationShardOutput shard out).inconclusiveConcerns, Lists "source_ids" id x := by
  obtain ⟨x, hx, hmem⟩ := List.mem_flatMap.mp h
  have hexplicit : id ∈ extractIdList x "source_ids" := by
    unfold extractIdList
    cases harr : x.getArray "source_ids" with
    | none =>
      rw [harr] at hmem
      cases hmem
    | some items =>
      rw [harr, Option.getD_some] at hmem
      exact List.mem_filter.mpr ⟨hmem, decide_eq_true hraw.nonempty⟩
  exact ⟨_, mem_expanded_findings hx,
    lists_expandItemSourceIds hraw hexplicit (mem_expandedIds_raw hclusters hsub hraw _)⟩

/-- A raised concern goes to the findings or to the inconclusive concerns. -/
theorem raised_routed (hclusters : AreClusters clusters) (hsub : shard ⊆ clusters)
    (hok : validateVerificationShardOutput out shard = .ok ()) (hmem : cluster ∈ shard)
    (hcluster : IsCluster idx cluster) (hraw : RawId id) (hid : item.getStr "id" = some id)
    (hitem : item ∈ itemsUnder "concerns" cluster) :
    ∃ x ∈ (expandVerificationShardOutput shard out).findings ++
      (expandVerificationShardOutput shard out).inconclusiveConcerns, Lists "source_ids" id x := by
  have hconcern : id ∈ (infoOf idx cluster).concernIds :=
    mem_trimmedIds hraw.trimmed hraw.nonempty hitem hid
  obtain ⟨policy, sid, href, hsid, hallow⟩ :=
    exists_ref hclusters hsub hok hmem hcluster hraw hid (List.mem_append_left _ hitem)
  have hpolicy : policy.allowConcerns = true := hallow.1 (List.ne_nil_of_mem hconcern)
  obtain ⟨x, hx, hnamed⟩ : ∃ x ∈ out.findings ++ out.inconclusiveConcerns,
      sid ∈ extractIdList x "source_ids" := by
    rcases mem_namedRefs href with ⟨x, hx, hn, -⟩ | ⟨x, hx, hn, -⟩ | ⟨x, -, -, rfl⟩ | ⟨d, -, -, rfl⟩
    · exact ⟨x, List.mem_append_left _ hx, hn⟩
    · exact ⟨x, List.mem_append_right _ hx, hn⟩
    · cases hpolicy
    · cases hpolicy
  have hnamesRaw : id ∈ extractIdList x "source_ids" →
      ∃ x ∈ (expandVerificationShardOutput shard out).findings ++
        (expandVerificationShardOutput shard out).inconclusiveConcerns,
        Lists "source_ids" id x := fun hn =>
    ⟨_, mem_expanded_findings hx,
      lists_expandItemSourceIds hraw hn (mem_expandedIds_raw hclusters hsub hraw _)⟩
  rcases hsid with rfl | rfl
  · by_cases hsplit : (clusterItemIds cluster "concerns").any
        (· ∈ extractIdList x "source_ids") = true
    · -- the item splits the cluster: its concerns are kept by their own ids
      obtain ⟨other, hother, hexplicit⟩ := List.any_eq_true.mp hsplit
      have hexplicit := of_decide_eq_true hexplicit
      have hotherId : other ∈ (infoOf idx cluster).concernIds :=
        mem_trimmedIds_of_clusterItemIds (trimmed_of_mem_extractIdList hexplicit) hother
      by_cases hlen : 2 ≤ (infoOf idx cluster).concernIds.length
      · have hinfo : infoOf idx cluster ∈ shard.filterMap clusterInfo :=
          List.mem_filterMap.mpr ⟨cluster, hmem, hcluster.clusterInfo_eq⟩
        have hmerged :=
          (validateVerificationShardOutput_ok hok (List.ne_nil_of_mem hinfo)).2
        exact lists_of_mem_keptIds hclusters hsub hraw
          (validateMergedConcernsKept_ok hmerged _ hinfo hlen id hconcern)
      · obtain ⟨only, honly⟩ : ∃ only, (infoOf idx cluster).concernIds = [only] := by
          refine List.length_eq_one_iff.mp ?_
          have hpos := List.length_pos_of_mem hconcern
          omega
        rw [honly, List.mem_singleton] at hconcern hotherId
        exact hnamesRaw (hconcern ▸ hotherId ▸ hexplicit)
    · refine ⟨_, mem_expanded_findings hx, lists_expandItemSourceIds hraw hnamed ?_⟩
      rw [expandedIds, findCluster_self hclusters hsub hmem hcluster]
      dsimp only
      rw [if_neg hsplit]
      exact hcluster.mem_source_ids hraw hid (List.mem_append_left _ hitem)
  · exact hnamesRaw hnamed

theorem materialized_routed (hclusters : AreClusters clusters) (hsub : shard ⊆ clusters)
    (hmem : cluster ∈ shard) (hcluster : IsCluster idx cluster) (hraw : RawId id)
    (hid : item.getStr "id" = some id) (hitem : item ∈ itemsUnder "dismissed_concerns" cluster)
    {did : String} (hdid : did = clusterId idx ∨ did = id) :
    ∃ vd, materializeDismissedId shard did = some vd ∧ Lists "source_ids" id vd := by
  unfold materializeDismissedId
  rcases hdid with rfl | rfl
  · rw [findCluster_self hclusters hsub hmem hcluster]
    exact lists_materializeDismissal hraw hitem hid
  · rw [findCluster_raw hclusters hsub hraw]
    refine lists_materializeDismissal hraw (List.mem_filter.mpr ⟨?_, ?_⟩) hid
    · exact List.mem_flatMap.mpr ⟨cluster, hmem, hitem⟩
    · simp [idMatches, hid, hraw.trimmed]

/-- A dismissed candidate goes to the inconclusive concerns or to the dismissals. -/
theorem dismissed_routed (hclusters : AreClusters clusters) (hsub : shard ⊆ clusters)
    (hok : validateVerificationShardOutput out shard = .ok ()) (hmem : cluster ∈ shard)
    (hcluster : IsCluster idx cluster) (hraw : RawId id) (hid : item.getStr "id" = some id)
    (hitem : item ∈ itemsUnder "dismissed_concerns" cluster) :
    ∃ x ∈ (expandVerificationShardOutput shard out).inconclusiveConcerns ++
      (expandVerificationShardOutput shard out).dismissedConcerns, Lists "source_ids" id x := by
  have hdismissed : id ∈ (infoOf idx cluster).dismissedIds :=
    mem_trimmedIds hraw.trimmed hraw.nonempty hitem hid
  obtain ⟨policy, sid, href, hsid, hallow⟩ :=
    exists_ref hclusters hsub hok hmem hcluster hraw hid (List.mem_append_right _ hitem)
  have hpolicy : policy.allowDismissed = true := hallow.2 (List.ne_nil_of_mem hdismissed)
  have hexpand : ∀ x : Json, sid ∈ extractIdList x "source_ids" →
      Lists "source_ids" id (expandItemSourceIds shard x) := by
    intro x hnamed
    refine lists_expandItemSourceIds hraw hnamed ?_
    rcases hsid with rfl | rfl
    · exact mem_expandedIds_dismissed hclusters hsub hmem hcluster hraw hid hitem _
    · exact mem_expandedIds_raw hclusters hsub hraw _
  rcases mem_namedRefs href with ⟨x, -, -, rfl⟩ | ⟨x, hx, hn, -⟩ | ⟨x, hx, hn, -⟩ | ⟨did, hdid, rfl, -⟩
  · cases hpolicy
  · exact ⟨_, List.mem_append_left _ (List.mem_map.mpr ⟨x, hx, rfl⟩), hexpand x hn⟩
  · refine ⟨_, List.mem_append_right _ (List.mem_append_left _ ?_), hexpand x hn⟩
    exact List.mem_map.mpr ⟨x, hx, rfl⟩
  · obtain ⟨vd, hvd, hlists⟩ :=
      materialized_routed hclusters hsub hmem hcluster hraw hid hitem hsid
    refine ⟨vd, List.mem_append_right _ (List.mem_append_right _ ?_), hlists⟩
    have hne : rustTrim did ≠ "" := by
      rcases hsid with h | h
      · exact h ▸ clusterId_ne_empty idx
      · exact h ▸ hraw.nonempty
    refine List.mem_filterMap.mpr ⟨rustTrim did, List.mem_eraseDups.mpr ?_, hvd⟩
    exact List.mem_filter.mpr ⟨List.mem_map.mpr ⟨did, hdid, rfl⟩, decide_eq_true hne⟩

end Shard

end Sashiko
