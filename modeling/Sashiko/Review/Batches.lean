import Mathlib.Algebra.GroupWithZero.Nat
import Sashiko.Lib.Sorting
import Sashiko.Review.Verdicts

/-! The shards that clusters are verified in and the batches that inconclusive concerns are verified
in: none is empty, none is left without a stage, and a concern knows the stage it goes to. -/

namespace Sashiko

open Json

/-! ### Slices -/

section Slices

variable {α β : Type}

theorem map_length_slices (sizes : List ℕ) :
    ∀ xs : List α, sizes.sum = xs.length → (slices sizes xs).map List.length = sizes := by
  induction sizes with
  | nil => exact fun _ _ => rfl
  | cons n sizes ih =>
    intro xs h
    rw [List.sum_cons] at h
    have hrest : sizes.sum = (xs.drop n).length := by
      rw [List.length_drop]
      omega
    rw [slices, List.map_cons, ih _ hrest, List.length_take, Nat.min_eq_left (by omega)]

theorem length_mem_sizes {sizes : List ℕ} {xs slice : List α} (h : sizes.sum = xs.length)
    (hslice : slice ∈ slices sizes xs) : slice.length ∈ sizes := by
  have hmem := List.mem_map_of_mem (f := List.length) hslice
  rwa [map_length_slices sizes xs h] at hmem

theorem slices_map (f : α → β) (sizes : List ℕ) :
    ∀ xs : List α, slices sizes (xs.map f) = (slices sizes xs).map (List.map f) := by
  induction sizes with
  | nil => exact fun _ => rfl
  | cons n sizes ih =>
    intro xs
    rw [slices, slices, List.map_cons, List.map_take, ← List.map_drop, ih]

end Slices

/-! ### Shards -/

theorem verificationShardCount_pos {total : ℕ} (h : 0 < total) :
    0 < verificationShardCount total := by
  unfold verificationShardCount maxVerificationShardSize maxVerificationStages
  omega

theorem verificationShardCount_le (total : ℕ) : verificationShardCount total ≤ total := by
  unfold verificationShardCount maxVerificationShardSize
  omega

/-- Each shard has its share, or one more. -/
theorem mem_verificationShardSizes {total size : ℕ} (h : size ∈ verificationShardSizes total) :
    size = total / verificationShardCount total ∨
      size = total / verificationShardCount total + 1 ∧
        0 < total % verificationShardCount total := by
  obtain ⟨idx, -, rfl⟩ := List.mem_map.mp h
  split_ifs with hidx
  · exact .inr ⟨rfl, by omega⟩
  · exact .inl rfl

theorem verificationShardSizes_le {total size : ℕ}
    (h : total ≤ maxVerificationShardSize * maxVerificationStages) (hpos : 0 < total)
    (hsize : size ∈ verificationShardSizes total) : size ≤ maxVerificationShardSize := by
  have hcount := verificationShardCount_pos hpos
  have hcover : total ≤ maxVerificationShardSize * verificationShardCount total := by
    unfold verificationShardCount maxVerificationShardSize maxVerificationStages at *
    omega
  have hdivmod := Nat.div_add_mod total (verificationShardCount total)
  have hdiv : total / verificationShardCount total ≤ maxVerificationShardSize :=
    Nat.div_le_of_le_mul (by rwa [Nat.mul_comm] at hcover)
  rcases mem_verificationShardSizes hsize with rfl | ⟨rfl, hrest⟩
  · exact hdiv
  · refine Nat.succ_le_of_lt (lt_of_le_of_ne hdiv fun heq => ?_)
    rw [heq, Nat.mul_comm] at hdivmod
    omega

/-- The clusters with one first file, in the order they have. -/
def ofFile (file : String) (clusters : List Json) : List Json :=
  clusters.filter fun cluster => firstClusterFile cluster = file

/-- Between clusters with the same first file there are only such clusters. -/
def Grouped (clusters : List Json) : Prop :=
  ∀ before first between last after, clusters = before ++ first :: (between ++ last :: after) →
    firstClusterFile first = firstClusterFile last →
    ∀ cluster ∈ between, firstClusterFile cluster = firstClusterFile first

/-- The shards of a list of clusters. -/
structure ShardsSoundly (clusters : List Json) (shards : List (List Json)) : Prop where
  nonempty : ∀ shard ∈ shards, shard ≠ []
  perm : shards.flatten.Perm clusters
  stable : ∀ file, ofFile file shards.flatten = ofFile file clusters
  balanced : ∀ shard ∈ shards, ∀ shard' ∈ shards, shard.length ≤ shard'.length + 1
  count : shards.length ≤ maxVerificationStages
  bounded : clusters.length ≤ maxVerificationShardSize * maxVerificationStages →
    ∀ shard ∈ shards, shard.length ≤ maxVerificationShardSize

def firstFileLe (a b : Json) : Bool := textLe (firstClusterFile a) (firstClusterFile b)

theorem firstFileLe_trans (a b c : Json) (hab : firstFileLe a b = true)
    (hbc : firstFileLe b c = true) : firstFileLe a c = true := textLe_trans hab hbc

theorem firstFileLe_total (a b : Json) : (firstFileLe a b || firstFileLe b a) = true :=
  textLe_total _ _

theorem batchClustersForVerification_eq {clusters : List Json}
    (h : maxVerificationShardSize < clusters.length) :
    batchClustersForVerification clusters =
      slices (verificationShardSizes clusters.length) (clusters.mergeSort firstFileLe) := by
  have hne : clusters ≠ [] := by
    rintro rfl
    exact absurd h (Nat.not_lt_zero _)
  rw [batchClustersForVerification, if_neg hne, if_neg (Nat.not_le.mpr h)]
  rfl

theorem flatten_batchClustersForVerification {clusters : List Json}
    (h : maxVerificationShardSize < clusters.length) :
    (batchClustersForVerification clusters).flatten = clusters.mergeSort firstFileLe := by
  rw [batchClustersForVerification_eq h, flatten_slices]
  rw [sum_verificationShardSizes (by omega), List.length_mergeSort]

theorem length_mem_shardSizes {clusters shard : List Json}
    (h : maxVerificationShardSize < clusters.length)
    (hshard : shard ∈ batchClustersForVerification clusters) :
    shard.length ∈ verificationShardSizes clusters.length := by
  rw [batchClustersForVerification_eq h] at hshard
  refine length_mem_sizes ?_ hshard
  rw [sum_verificationShardSizes (by omega), List.length_mergeSort]

theorem batchClustersForVerification_short {clusters : List Json} (hne : clusters ≠ [])
    (h : clusters.length ≤ maxVerificationShardSize) :
    batchClustersForVerification clusters = [clusters] := by
  rw [batchClustersForVerification, if_neg hne, if_pos h]

theorem shardsSoundly (clusters : List Json) :
    ShardsSoundly clusters (batchClustersForVerification clusters) := by
  have hperm := batchClustersForVerification_perm clusters
  have hcount := length_batchClustersForVerification clusters
  rcases eq_or_ne clusters [] with rfl | hne
  · exact ⟨nofun, hperm, fun _ => rfl, nofun, hcount, nofun⟩
  rcases Nat.lt_or_ge maxVerificationShardSize clusters.length with hlong | hshort
  · have hsizes : ∀ shard ∈ batchClustersForVerification clusters,
        shard.length ∈ verificationShardSizes clusters.length := fun _ =>
      length_mem_shardSizes hlong
    have hpos : 0 < clusters.length := List.length_pos_iff.mpr hne
    refine ⟨fun shard hshard hnil => ?_, hperm, fun file => ?_, fun shard hshard shard' hshard' => ?_,
      hcount, fun hle shard hshard => verificationShardSizes_le hle hpos (hsizes shard hshard)⟩
    · have hshare := Nat.div_pos (verificationShardCount_le clusters.length)
        (verificationShardCount_pos hpos)
      have hsize := mem_verificationShardSizes (hsizes shard hshard)
      rw [hnil, List.length_nil] at hsize
      omega
    · rw [ofFile, flatten_batchClustersForVerification hlong]
      refine filter_mergeSort firstFileLe_trans firstFileLe_total (fun a b ha hb => ?_) clusters
      rw [firstFileLe, of_decide_eq_true ha, of_decide_eq_true hb, textLe, textLt_irrefl]
      rfl
    · have hsize := mem_verificationShardSizes (hsizes shard hshard)
      have hsize' := mem_verificationShardSizes (hsizes shard' hshard')
      omega
  · rw [batchClustersForVerification_short hne hshort] at hperm hcount ⊢
    refine ⟨fun shard hshard => ?_, hperm, fun file => ?_, fun shard hshard shard' hshard' => ?_,
      hcount, fun _ shard hshard => ?_⟩
    · rwa [List.mem_singleton.mp hshard]
    · rw [List.flatten_singleton]
    · rw [List.mem_singleton.mp hshard, List.mem_singleton.mp hshard']
      exact Nat.le_succ _
    · rwa [List.mem_singleton.mp hshard]

theorem grouped_of_pairwise {clusters : List Json}
    (h : clusters.Pairwise (firstFileLe · · = true)) : Grouped clusters := by
  rintro before first between last after rfl hsame cluster hcluster
  obtain ⟨hfirst, hrest⟩ := List.pairwise_cons.mp (List.pairwise_append.mp h).2.1
  have hle : firstFileLe first cluster = true := hfirst cluster (by simp [hcluster])
  have hge : firstFileLe cluster last = true :=
    (List.pairwise_append.mp hrest).2.2 cluster hcluster last List.mem_cons_self
  rw [firstFileLe] at hle hge
  rw [← hsame] at hge
  exact textLe_antisymm hge hle

theorem grouped_batchClustersForVerification {clusters : List Json}
    (h : maxVerificationShardSize < clusters.length) :
    Grouped (batchClustersForVerification clusters).flatten := by
  rw [flatten_batchClustersForVerification h]
  exact grouped_of_pairwise
    (List.pairwise_mergeSort firstFileLe_trans firstFileLe_total clusters)

/-! ### Stages of the shards -/

/-- `VERIFICATION_STAGE_NAMES` -/
def verificationStageNames : List String :=
  (List.range maxVerificationStages).map fun idx => "verification-" ++ toString (idx + 1)

/-- The stages that verify the clusters, and what each of them verifies. -/
def resolveVerificationStages (stageName : String) (state : LinuxPatchReviewState) :
    List (String × List Json) :=
  if (batchClustersForVerification (effectiveClusters state)).length ≤ 1 then
    [(stageName, (batchClustersForVerification (effectiveClusters state)).getLast?.getD [])]
  else verificationStageNames.zip (batchClustersForVerification (effectiveClusters state))

theorem batchClustersForVerification_ne_nil {clusters : List Json} (h : clusters ≠ []) :
    batchClustersForVerification clusters ≠ [] := by
  intro hnil
  have hperm := batchClustersForVerification_perm clusters
  rw [hnil, List.flatten_nil] at hperm
  exact h hperm.symm.eq_nil

/-- No shard is dropped for want of a stage. -/
theorem resolveVerificationStages_shards (stageName : String) {state : LinuxPatchReviewState}
    (h : effectiveClusters state ≠ []) :
    (resolveVerificationStages stageName state).map Prod.snd =
      batchClustersForVerification (effectiveClusters state) := by
  unfold resolveVerificationStages
  have hcount := length_batchClustersForVerification (effectiveClusters state)
  have hne := batchClustersForVerification_ne_nil h
  generalize batchClustersForVerification (effectiveClusters state) = shards at *
  split_ifs with hone
  · obtain ⟨shard, rfl⟩ := List.length_eq_one_iff.mp
      (le_antisymm hone (List.length_pos_iff.mpr hne))
    rfl
  · rw [List.map_snd_zip]
    rwa [verificationStageNames, List.length_map, List.length_range]

/-! ### Batches by severity -/

/-- The batches of a list of inconclusive concerns. -/
structure BatchesSoundly (concerns : List Json) (batches : List (List Json)) : Prop where
  count : batches.length ≤ maxPostVerificationStages
  nonempty : ∀ batch ∈ batches, batch ≠ []
  perm : batches.flatten.Perm concerns
  single_first : batches.Pairwise fun earlier later => later.length = 1 → earlier.length = 1

/-- The batches go from the most severe concerns to the least severe. -/
def MostSevereFirst (batches : List (List Json)) : Prop :=
  batches.Pairwise fun earlier later => ∀ x ∈ earlier, ∀ y ∈ later,
    estimatedSeverityRank y ≤ estimatedSeverityRank x

def bySeverity (a b : Json) : Bool := estimatedSeverityRank b ≤ estimatedSeverityRank a

theorem batchInconclusiveConcernsBySeverity_eq {concerns : List Json}
    (h : maxPostVerificationStages < concerns.length) :
    batchInconclusiveConcernsBySeverity concerns =
      severityBatches (concerns.mergeSort bySeverity) := by
  rw [batchInconclusiveConcernsBySeverity, if_neg (Nat.not_le.mpr h)]
  rfl

theorem two_le_of_mem_tailSizes {total size : ℕ} (h : maxPostVerificationStages < total)
    (hsize : size ∈ tailSizes total) : 2 ≤ size := by
  obtain ⟨idx, -, rfl⟩ := List.mem_map.mp hsize
  have hshare : 2 ≤ (total - soloStages total) / tailStages total := by
    rw [Nat.le_div_iff_mul_le (by unfold tailStages maxPostVerificationStages at *; omega)]
    unfold soloStages tailStages maxPostVerificationStages at *
    omega
  omega

theorem tail_two_le {sorted batch : List Json} (h : maxPostVerificationStages < sorted.length)
    (hbatch : batch ∈ slices (tailSizes sorted.length) (sorted.drop (soloStages sorted.length))) :
    2 ≤ batch.length := by
  refine two_le_of_mem_tailSizes h (length_mem_sizes ?_ hbatch)
  rw [sum_tailSizes h, List.length_drop]

theorem pairwise_singles {xs : List Json} {R : List Json → List Json → Prop}
    (h : ∀ x y, R [x] [y]) : (xs.map fun x => [x]).Pairwise R :=
  List.pairwise_map.mpr (List.pairwise_of_forall fun x y => h x y)

theorem batchesSoundly (concerns : List Json) :
    BatchesSoundly concerns (batchInconclusiveConcernsBySeverity concerns) := by
  refine ⟨length_batchInconclusiveConcernsBySeverity concerns, ?_,
    batchInconclusiveConcernsBySeverity_perm concerns, ?_⟩
  all_goals rcases Nat.lt_or_ge maxPostVerificationStages concerns.length with hlong | hshort
  · have hlength : maxPostVerificationStages < (concerns.mergeSort bySeverity).length := by
      rwa [List.length_mergeSort]
    rw [batchInconclusiveConcernsBySeverity_eq hlong, severityBatches]
    intro batch hbatch hnil
    rcases List.mem_append.mp hbatch with hsolo | htail
    · obtain ⟨x, -, rfl⟩ := List.mem_map.mp hsolo
      cases hnil
    · have := tail_two_le hlength htail
      rw [hnil, List.length_nil] at this
      omega
  · rw [batchInconclusiveConcernsBySeverity, if_pos hshort]
    intro batch hbatch hnil
    obtain ⟨x, -, rfl⟩ := List.mem_map.mp hbatch
    cases hnil
  · have hlength : maxPostVerificationStages < (concerns.mergeSort bySeverity).length := by
      rwa [List.length_mergeSort]
    rw [batchInconclusiveConcernsBySeverity_eq hlong, severityBatches, List.pairwise_append]
    refine ⟨pairwise_singles fun _ _ _ => rfl, ?_, fun solo hsolo _ _ _ => ?_⟩
    · refine List.pairwise_of_forall_mem_list fun earlier _ later hlater hone => ?_
      have := tail_two_le hlength hlater
      omega
    · obtain ⟨x, -, rfl⟩ := List.mem_map.mp hsolo
      rfl
  · rw [batchInconclusiveConcernsBySeverity, if_pos hshort]
    exact pairwise_singles fun _ _ _ => rfl

theorem mostSevereFirst_batches {concerns : List Json}
    (h : maxPostVerificationStages < concerns.length) :
    MostSevereFirst (batchInconclusiveConcernsBySeverity concerns) := by
  have hsorted : (concerns.mergeSort bySeverity).Pairwise (bySeverity · · = true) := by
    refine List.pairwise_mergeSort (fun a b c hab hbc => ?_) (fun a b => ?_) concerns
    · exact decide_eq_true ((of_decide_eq_true hbc).trans (of_decide_eq_true hab))
    · rw [bySeverity, bySeverity, ← Bool.decide_or]
      exact decide_eq_true (Nat.le_total _ _)
  have hlength : maxPostVerificationStages < (concerns.mergeSort bySeverity).length := by
    rwa [List.length_mergeSort]
  rw [← severityBatches_flatten hlength, List.pairwise_flatten] at hsorted
  rw [batchInconclusiveConcernsBySeverity_eq h]
  exact hsorted.2.imp fun hle x hx y hy => of_decide_eq_true (hle x hx y hy)

/-! ### The stage that a concern is assigned -/

theorem foldl_map {ι : Type} {step : List Json → ι → List Json} {f : Json → ι → Json}
    (hstep : ∀ items x, step items x = items.map (f · x)) (xs : List ι) :
    ∀ items, xs.foldl step items = items.map fun item => xs.foldl f item := by
  induction xs with
  | nil => exact fun items => (List.map_id items).symm
  | cons x xs ih =>
    intro items
    rw [List.foldl_cons, ih, hstep, List.map_map]
    rfl

/-- One id of a planned batch, seen from one concern. -/
def stampId (stage : String) (ic : Json) (iid : String) : Json :=
  if ic.getStr "id" = some iid then ic.insert "assigned_stage" (.str stage) else ic

/-- A planned batch, seen from one concern. -/
def stampBatch (ic : Json) (planned : List Json × String) : Json :=
  (planned.1.filterMap (·.getStr "id")).foldl (stampId planned.2) ic

theorem assignInconclusiveConcernsStages_eq (concerns : List Json) :
    assignInconclusiveConcernsStages concerns = concerns.map fun ic =>
      ((batchInconclusiveConcernsBySeverity concerns).zip postVerificationStageNames).foldl
        stampBatch ic :=
  foldl_map (fun items planned =>
    foldl_map (fun _ _ => rfl) (planned.1.filterMap (·.getStr "id")) items) _ concerns

theorem stampId_changesOnly (stage : String) (ic : Json) (iid : String) :
    ChangesOnly ["assigned_stage"] ic (stampId stage ic iid) := by
  unfold stampId
  split_ifs
  · exact (ChangesOnly.refl _ ic).insert (by decide) _
  · exact .refl _ _

theorem foldl_changesOnly {ι : Type} {keys : List String} {step : Json → ι → Json}
    (hstep : ∀ item x, ChangesOnly keys item (step item x)) (xs : List ι) :
    ∀ item, ChangesOnly keys item (xs.foldl step item) := by
  induction xs with
  | nil => exact fun item => .refl _ item
  | cons x xs ih => exact fun item => (hstep item x).trans (ih _)

theorem stampBatch_changesOnly (ic : Json) (planned : List Json × String) :
    ChangesOnly ["assigned_stage"] ic (stampBatch ic planned) :=
  foldl_changesOnly (stampId_changesOnly planned.2) _ ic

section Stamped

variable {ic : Json} {iid stage : String}

theorem getStr_stampId (other : String) (h : ic.getStr "id" = some iid) :
    (stampId stage ic other).getStr "id" = some iid := by
  rw [(stampId_changesOnly stage ic other).getStr (by decide), h]

/-- A concern whose id is not among those of a batch is left as it is. -/
theorem foldl_stampId_of_not_mem {ids : List String} (h : ic.getStr "id" = some iid)
    (hids : iid ∉ ids) : ids.foldl (stampId stage) ic = ic := by
  induction ids with
  | nil => rfl
  | cons other ids ih =>
    have hne : ic.getStr "id" ≠ some other := by
      rw [h]
      exact fun heq => hids (Option.some.inj heq ▸ List.mem_cons_self)
    rw [List.foldl_cons, stampId, if_neg hne]
    exact ih fun hmem => hids (List.mem_cons_of_mem _ hmem)

theorem get?_foldl_stampId {ids : List String} (h : ic.getStr "id" = some iid)
    (hids : ic.get? "assigned_stage" = some (.str stage) ∨ iid ∈ ids) :
    (ids.foldl (stampId stage) ic).get? "assigned_stage" = some (.str stage) := by
  induction ids generalizing ic with
  | nil => exact hids.resolve_right List.not_mem_nil
  | cons other ids ih =>
    refine ih (getStr_stampId other h) ?_
    by_cases hother : other = iid
    · obtain ⟨value, hvalue, -⟩ := Option.bind_eq_some_iff.mp h
      rw [stampId, hother, if_pos h]
      exact .inl (get?_insert_self (Json.isObject_of_get? hvalue) _ _)
    · have hne : ic.getStr "id" ≠ some other := by
        rw [h]
        exact fun heq => hother (Option.some.inj heq).symm
      rw [stampId, if_neg hne]
      exact hids.imp id fun hmem => (List.mem_cons.mp hmem).resolve_left fun heq => hother heq.symm

theorem foldl_stampBatch_of_not_mem {planned : List (List Json × String)}
    (h : ic.getStr "id" = some iid) (hplanned : ∀ p ∈ planned, ∀ c ∈ p.1, c.getStr "id" ≠ some iid) :
    planned.foldl stampBatch ic = ic := by
  induction planned with
  | nil => rfl
  | cons p planned ih =>
    have hids : iid ∉ p.1.filterMap (·.getStr "id") := fun hmem => by
      obtain ⟨c, hc, hid⟩ := List.mem_filterMap.mp hmem
      exact hplanned p List.mem_cons_self c hc hid
    rw [List.foldl_cons, stampBatch, foldl_stampId_of_not_mem h hids]
    exact ih fun q hq => hplanned q (List.mem_cons_of_mem _ hq)

/-- A concern gets the stage of the only batch that has its id. -/
theorem get?_foldl_stampBatch {before after : List (List Json × String)} {batch : List Json}
    (h : ic.getStr "id" = some iid) (hmem : ∃ c ∈ batch, c.getStr "id" = some iid)
    (hafter : ∀ p ∈ after, ∀ c ∈ p.1, c.getStr "id" ≠ some iid) :
    ((before ++ (batch, stage) :: after).foldl stampBatch ic).get? "assigned_stage" =
      some (.str stage) := by
  rw [List.foldl_append, List.foldl_cons]
  have hkey : "id" ∉ ["assigned_stage"] := by decide
  have hid := (foldl_changesOnly stampBatch_changesOnly before ic).getStr hkey
  rw [h] at hid
  have hstamped := (stampBatch_changesOnly (before.foldl stampBatch ic) (batch, stage)).getStr hkey
  rw [hid] at hstamped
  rw [foldl_stampBatch_of_not_mem hstamped hafter]
  obtain ⟨c, hc, hcid⟩ := hmem
  exact get?_foldl_stampId hid (.inr (List.mem_filterMap.mpr ⟨c, hc, hcid⟩))

end Stamped

/-! ### The batch that a concern goes to -/

theorem estimatedSeverityRank_congr {a b : Json} (h : ChangesOnly ["assigned_stage"] a b) :
    estimatedSeverityRank b = estimatedSeverityRank a := by
  rw [estimatedSeverityRank, estimatedSeverityRank, h.get? _ (by decide), h.get? _ (by decide)]

theorem batchInconclusiveConcernsBySeverity_map {f : Json → Json}
    (hf : ∀ ic, ChangesOnly ["assigned_stage"] ic (f ic)) (concerns : List Json) :
    batchInconclusiveConcernsBySeverity (concerns.map f) =
      (batchInconclusiveConcernsBySeverity concerns).map (List.map f) := by
  rcases Nat.lt_or_ge maxPostVerificationStages concerns.length with hlong | hshort
  · have hmap : (concerns.map f).mergeSort bySeverity = (concerns.mergeSort bySeverity).map f := by
      refine (List.map_mergeSort fun a _ b _ => ?_).symm
      rw [bySeverity, bySeverity, estimatedSeverityRank_congr (hf a),
        estimatedSeverityRank_congr (hf b)]
    rw [batchInconclusiveConcernsBySeverity_eq hlong,
      batchInconclusiveConcernsBySeverity_eq (by rwa [List.length_map]), hmap, severityBatches,
      severityBatches, List.length_map, ← List.map_drop, slices_map, List.map_append,
      ← List.map_take, List.map_map, List.map_map]
    rfl
  · rw [batchInconclusiveConcernsBySeverity, if_pos (by rwa [List.length_map]),
      batchInconclusiveConcernsBySeverity, if_pos hshort, List.map_map, List.map_map]
    rfl

/-- No other concern has the id. -/
def OnlyOne (iid : String) (concerns : List Json) : Prop :=
  (concerns.filter fun c => c.getStr "id" = some iid).length = 1

theorem OnlyOne.of_perm {iid : String} {concerns concerns' : List Json} (h : OnlyOne iid concerns)
    (hperm : concerns'.Perm concerns) : OnlyOne iid concerns' := by
  unfold OnlyOne at *
  rw [← h]
  exact (hperm.filter _).length_eq

/-- Where one batch has the only concern with an id, no other batch has one. -/
theorem OnlyOne.not_mem {iid : String} {before after : List (List Json)} {batch : List Json}
    (h : OnlyOne iid (before ++ batch :: after).flatten) {c : Json} (hc : c ∈ batch)
    (hid : c.getStr "id" = some iid) : ∀ other ∈ before ++ after, ∀ d ∈ other,
      d.getStr "id" ≠ some iid := by
  unfold OnlyOne at h
  simp only [List.flatten_append, List.flatten_cons, List.filter_append, List.length_append] at h
  have hbatch : 0 < (batch.filter fun c => c.getStr "id" = some iid).length :=
    List.length_pos_of_mem (List.mem_filter.mpr ⟨hc, decide_eq_true hid⟩)
  intro other hother d hd hdid
  have hat : 0 < ((before ++ after).flatten.filter fun c => c.getStr "id" = some iid).length :=
    List.length_pos_of_mem (List.mem_filter.mpr
      ⟨List.mem_flatten.mpr ⟨other, hother, hd⟩, decide_eq_true hdid⟩)
  rw [List.flatten_append, List.filter_append, List.length_append] at hat
  omega

/-- The stages that verify the inconclusive concerns, and what each of them verifies. -/
def resolvePostVerificationStages (concerns : List Json) : List (List Json × String) :=
  (batchInconclusiveConcernsBySeverity concerns).zip postVerificationStageNames

/-- No batch is without a stage. -/
theorem resolvePostVerificationStages_batches (concerns : List Json) :
    (resolvePostVerificationStages concerns).map Prod.fst =
      batchInconclusiveConcernsBySeverity concerns := by
  refine List.map_fst_zip ?_
  rw [postVerificationStageNames, List.length_map, List.length_range]
  exact length_batchInconclusiveConcernsBySeverity concerns

/-- A concern with an id of its own is in the batch of one stage, the one it was assigned. -/
def ReceivedAsAssigned (concerns : List Json) : Prop :=
  ∀ c ∈ concerns, ∀ iid, c.getStr "id" = some iid → OnlyOne iid concerns →
    ∃ stage, c.get? "assigned_stage" = some (.str stage) ∧
      (∃ batch, (batch, stage) ∈ resolvePostVerificationStages concerns ∧ c ∈ batch) ∧
      ∀ received ∈ resolvePostVerificationStages concerns, c ∈ received.1 → received.2 = stage

theorem assignedStage_of_received {concerns : List Json} {c : Json} {iid : String}
    (hid : c.getStr "id" = some iid)
    (hone : OnlyOne iid (assignInconclusiveConcernsStages concerns)) {batch : List Json}
    {stage : String}
    (hreceived : (batch, stage) ∈
      resolvePostVerificationStages (assignInconclusiveConcernsStages concerns))
    (hc : c ∈ batch) : c.get? "assigned_stage" = some (.str stage) := by
  let f : Json → Json := fun ic => (resolvePostVerificationStages concerns).foldl stampBatch ic
  have hf : ∀ ic, ChangesOnly ["assigned_stage"] ic (f ic) :=
    foldl_changesOnly stampBatch_changesOnly _
  have hfid : ∀ ic, (f ic).getStr "id" = ic.getStr "id" := fun ic => (hf ic).getStr (by decide)
  have hassign : assignInconclusiveConcernsStages concerns = concerns.map f :=
    assignInconclusiveConcernsStages_eq concerns
  -- The batches are those that were planned, each concern with its stage.
  have hstages : resolvePostVerificationStages (assignInconclusiveConcernsStages concerns) =
      (resolvePostVerificationStages concerns).map (Prod.map (List.map f) id) := by
    rw [resolvePostVerificationStages, hassign, batchInconclusiveConcernsBySeverity_map hf,
      resolvePostVerificationStages, List.zip_map_left]
  rw [hstages] at hreceived
  obtain ⟨⟨planned, name⟩, hplanned, heq⟩ := List.mem_map.mp hreceived
  obtain ⟨rfl, rfl⟩ := Prod.mk.inj heq
  obtain ⟨ic, hic, rfl⟩ := List.mem_map.mp hc
  rw [hfid] at hid
  have hone' : OnlyOne iid (batchInconclusiveConcernsBySeverity concerns).flatten := by
    refine OnlyOne.of_perm ?_ (batchInconclusiveConcernsBySeverity_perm concerns)
    unfold OnlyOne at *
    rw [hassign, List.filter_map, List.length_map] at hone
    rw [← hone]
    congr 2
    funext ic
    rw [Function.comp_apply, hfid]
  obtain ⟨before, after, hsplit⟩ := List.append_of_mem hplanned
  rw [← resolvePostVerificationStages_batches, hsplit, List.map_append, List.map_cons] at hone'
  have hothers := hone'.not_mem hic hid
  change ((resolvePostVerificationStages concerns).foldl stampBatch ic).get? _ = _
  rw [hsplit]
  refine get?_foldl_stampBatch hid ⟨ic, hic, hid⟩ fun p hp d hd => ?_
  exact hothers p.1 (List.mem_append_right _ (List.mem_map_of_mem hp)) d hd

theorem receivedAsAssigned (concerns : List Json) :
    ReceivedAsAssigned (assignInconclusiveConcernsStages concerns) := by
  intro c hc iid hid hone
  have hflat : c ∈ ((resolvePostVerificationStages
      (assignInconclusiveConcernsStages concerns)).map Prod.fst).flatten := by
    rw [resolvePostVerificationStages_batches]
    exact (batchInconclusiveConcernsBySeverity_perm _).mem_iff.mpr hc
  obtain ⟨batch, hbatch, hmem⟩ := List.mem_flatten.mp hflat
  obtain ⟨⟨batch, stage⟩, hreceived, rfl⟩ := List.mem_map.mp hbatch
  have hassigned := assignedStage_of_received hid hone hreceived hmem
  refine ⟨stage, hassigned, ⟨batch, hreceived, hmem⟩, fun ⟨_, _⟩ hother hin => ?_⟩
  have hassigned' := assignedStage_of_received hid hone hother hin
  rw [hassigned] at hassigned'
  injection Option.some.inj hassigned' with heq
  exact heq.symm

/-! ### The whole -/

/-- Every list of clusters and every list of inconclusive concerns is split so that each part has a
stage; the parts of a long list are in order, and a concern goes to the stage it was assigned after
the last shard. -/
theorem stages_sound (clusters concerns : List Json) (stageName : String)
    (stageLookup : String → Option AnalysisStage) (guard : FixesGuard)
    (state : LinuxPatchReviewState) (calls : List VerificationCall) (last : VerificationCall) :
    (ShardsSoundly clusters (batchClustersForVerification clusters) ∧
      (maxVerificationShardSize < clusters.length →
        Grouped (batchClustersForVerification clusters).flatten) ∧
      (effectiveClusters state ≠ [] →
        (resolveVerificationStages stageName state).map Prod.snd =
          batchClustersForVerification (effectiveClusters state))) ∧
    (BatchesSoundly concerns (batchInconclusiveConcernsBySeverity concerns) ∧
      (maxPostVerificationStages < concerns.length →
        MostSevereFirst (batchInconclusiveConcernsBySeverity concerns)) ∧
      (resolvePostVerificationStages concerns).map Prod.fst =
        batchInconclusiveConcernsBySeverity concerns ∧
      ReceivedAsAssigned
        (runVerification stageLookup guard state (calls ++ [last])).inconclusiveConcerns) := by
  refine ⟨⟨shardsSoundly clusters, grouped_batchClustersForVerification,
    resolveVerificationStages_shards stageName⟩, batchesSoundly concerns, mostSevereFirst_batches,
    resolvePostVerificationStages_batches concerns, ?_⟩
  rw [runVerification, List.foldl_append]
  exact receivedAsAssigned _

/-- A cluster with one concern, in `file`. -/
def clusterIn (file : String) : Json :=
  .obj [("concerns", .arr [.obj [("locations", .arr [.obj [("file", .str file)]])]])]

/-- Lists that fit into the stages there are keep their order. -/
theorem short_lists_unordered :
    ¬ Grouped (batchClustersForVerification
        [clusterIn "a.c", clusterIn "b.c", clusterIn "a.c"]).flatten ∧
    ¬ MostSevereFirst (batchInconclusiveConcernsBySeverity
        [.obj [("estimated_severity", .str "Low")], .obj [("estimated_severity", .str "High")]]) := by
  constructor
  · intro h
    have hbetween := h [] (clusterIn "a.c") [clusterIn "b.c"] (clusterIn "a.c") [] (by decide) rfl
      (clusterIn "b.c") List.mem_cons_self
    exact absurd hbetween (by decide)
  · intro h
    have hfirst := List.rel_of_pairwise_cons h List.mem_cons_self _ List.mem_cons_self _
      List.mem_cons_self
    exact absurd hfirst (by decide)

end Sashiko
