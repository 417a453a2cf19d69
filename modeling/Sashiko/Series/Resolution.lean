import Sashiko.Series.Resolver

/-! What a resolution that succeeds has established, and that none asks the archive too often. -/

namespace Sashiko

variable {ω : Type} {world : PrerequisiteWorld ω}

namespace ResolverState

/-- The ids of the patches, in the order in which they are to be applied. -/
def ids (s : ResolverState ω) : List String := s.resolved.map (·.gitPatchId)

def known (s : ResolverState ω) (m : String) : Option PrerequisiteSeries := s.seriesCache.lookup m

end ResolverState

/-! ### Steps that only look for patches -/

/-- A relation between states that the questions to the world keep, and the caching of a patch. -/
structure FetchRule (world : PrerequisiteWorld ω) (R : ResolverState ω → ResolverState ω → Prop) :
    Prop where
  refl : ∀ s, R s s
  trans : ∀ s₁ s₂ s₃, R s₁ s₂ → R s₂ s₃ → R s₁ s₃
  stored : ∀ m, Tends R (answer (world.getStoredPrerequisiteSeries m))
  fromStorage : ∀ series, Tends R (answer (seriesFromStorage world series))
  byId : ∀ id, Tends R (answer (world.getPatchByGitPatchId id))
  fetch : ∀ context m, Tends R (askRemote (withContext context (world.fetchSeries m)))
  thread : ∀ m, Tends R (askRemote (world.fetchThreadPatches m))
  search : ∀ context id, Tends R (askRemote (withContext context (world.searchPatchId id)))
  cachePatch : ∀ p, Tends R (cachePatch p)

/-- A step that first looks at the state. -/
theorem tends_get_bind {α : Type} {R : ResolverState ω → ResolverState ω → Prop}
    {f : ResolverState ω → Resolve ω α} (h : ∀ s, Tends R (f s)) :
    Tends R (get >>= f) := fun s => h s s

section FetchRule

variable {R : ResolverState ω → ResolverState ω → Prop}

theorem FetchRule.liftExcept {α : Type} (rule : FetchRule world R) (x : Except String α) :
    Tends R (liftExcept x : Resolve ω α) := by
  cases x with
  | ok a => exact tends_pure rule.refl a
  | error e => exact tends_throw rule.refl e

theorem FetchRule.obtainSeries (rule : FetchRule world R) (m : String) :
    Tends R (obtainSeries world m) := by
  refine ((rule.stored m).bind rule.trans rule.liftExcept).bind rule.trans fun stored => ?_
  cases stored with
  | some stored => exact (rule.fromStorage stored).bind rule.trans rule.liftExcept
  | none => exact (rule.fetch _ m).bind rule.trans rule.liftExcept

theorem FetchRule.cacheLocalPatch (rule : FetchRule world R) (id : String) :
    Tends R (cacheLocalPatch world id) := by
  refine tends_get_bind fun s => ?_
  split_ifs
  · exact tends_pure rule.refl _
  · refine ((rule.byId id).bind rule.trans rule.liftExcept).bind rule.trans fun found => ?_
    cases found with
    | some row => exact rule.cachePatch _
    | none => exact tends_pure rule.refl _

theorem FetchRule.cacheLocalPatches (rule : FetchRule world R) (ids : List String) :
    Tends R (cacheLocalPatches world ids) :=
  tends_forM rule.refl rule.trans fun id _ => rule.cacheLocalPatch id

theorem FetchRule.cacheRequiredPatches (rule : FetchRule world R) (wanted : List String)
    (patches : List PrerequisitePatch) : Tends R (cacheRequiredPatches wanted patches) := by
  refine tends_forM rule.refl rule.trans fun patch _ => ?_
  refine (rule.liftExcept _).bind rule.trans fun id => ?_
  split_ifs
  · exact rule.cachePatch _
  · exact tends_pure rule.refl _

theorem FetchRule.cacheHint (rule : FetchRule world R) (wanted : List String) (m : String) :
    Tends R (cacheHint world wanted m) := by
  refine (rule.thread m).bind rule.trans fun found => ?_
  cases found with
  | ok patches => exact rule.cacheRequiredPatches wanted patches
  | error e => exact tends_pure rule.refl _

theorem FetchRule.cacheHintedPatches (rule : FetchRule world R) (wanted hints : List String) :
    Tends R (cacheHintedPatches world wanted hints) := by
  induction hints with
  | nil => exact tends_pure rule.refl _
  | cons m hints ih =>
    refine tends_get_bind fun s => ?_
    split_ifs
    · exact tends_pure rule.refl _
    · exact (rule.cacheHint wanted m).bind rule.trans fun _ => ih

theorem FetchRule.searchMissingPatch (rule : FetchRule world R) (wanted : List String)
    (id : String) : Tends R (searchMissingPatch world wanted id) := by
  refine tends_get_bind fun s => ?_
  split_ifs
  · exact tends_pure rule.refl _
  · exact ((rule.search _ id).bind rule.trans rule.liftExcept).bind rule.trans
      (rule.cacheRequiredPatches wanted)

end FetchRule

/-- Only the world, the count of requests and the cached patches differ, and these still stand under
their ids. -/
structure Fetches (s s' : ResolverState ω) : Prop where
  seriesCache : s'.seriesCache = s.seriesCache
  resolvedSeries : s'.resolvedSeries = s.resolvedSeries
  activeMessageIds : s'.activeMessageIds = s.activeMessageIds
  activePatchsetIds : s'.activePatchsetIds = s.activePatchsetIds
  seenPatchIds : s'.seenPatchIds = s.seenPatchIds
  resolved : s'.resolved = s.resolved
  patchCache : (∀ id p, s.patchCache.lookup id = some p → p.gitPatchId = id) →
    ∀ id p, s'.patchCache.lookup id = some p → p.gitPatchId = id

namespace Fetches

theorem refl (s : ResolverState ω) : Fetches s s := ⟨rfl, rfl, rfl, rfl, rfl, rfl, id⟩

theorem trans (s₁ s₂ s₃ : ResolverState ω) (h : Fetches s₁ s₂) (h' : Fetches s₂ s₃) :
    Fetches s₁ s₃ where
  seriesCache := h'.seriesCache.trans h.seriesCache
  resolvedSeries := h'.resolvedSeries.trans h.resolvedSeries
  activeMessageIds := h'.activeMessageIds.trans h.activeMessageIds
  activePatchsetIds := h'.activePatchsetIds.trans h.activePatchsetIds
  seenPatchIds := h'.seenPatchIds.trans h.seenPatchIds
  resolved := h'.resolved.trans h.resolved
  patchCache := h'.patchCache ∘ h.patchCache

theorem answer {α : Type} (question : ω → Except String α × ω) :
    Tends Fetches (answer question : Resolve ω (Except String α)) :=
  fun _ => ⟨rfl, rfl, rfl, rfl, rfl, rfl, id⟩

theorem countRemoteOperation : Tends Fetches (countRemoteOperation : Resolve ω PUnit) := by
  intro s
  unfold Sashiko.countRemoteOperation
  rw [EStateM.run_bind, EStateM.run_get]
  dsimp only
  split_ifs
  · exact refl s
  · exact ⟨rfl, rfl, rfl, rfl, rfl, rfl, id⟩

theorem askRemote {α : Type} (question : ω → Except String α × ω) :
    Tends Fetches (askRemote question : Resolve ω (Except String α)) :=
  countRemoteOperation.bind trans fun _ => answer question

theorem cachePatch (patch : PrerequisitePatch) :
    Tends Fetches (cachePatch patch : Resolve ω PUnit) := by
  refine tends_modify fun s => ?_
  split_ifs
  · exact Fetches.refl s
  · refine ⟨rfl, rfl, rfl, rfl, rfl, rfl, fun hkeys id p hp => ?_⟩
    rw [List.lookup_cons] at hp
    split at hp
    · next heq => exact Option.some_inj.mp hp ▸ (eq_of_beq heq).symm
    · exact hkeys id p hp

theorem rule : FetchRule world Fetches where
  refl := refl
  trans := trans
  stored _ := answer _
  fromStorage _ := answer _
  byId _ := answer _
  fetch _ _ := askRemote _
  thread _ := askRemote _
  search _ _ := askRemote _
  cachePatch := cachePatch

end Fetches

/-! ### What holds between two steps -/

def PrerequisiteSeries.ids (series : PrerequisiteSeries) : List String :=
  series.patches.map fun p => asciiLower p.gitPatchId

namespace PrerequisiteMetadata

/-- The patches that are named one by one. -/
def patches : PrerequisiteMetadata → List String
  | .patchIds ids _ => ids
  | .messageIds _ => []
  | .basedOn _ => []

/-- The series that are named as a whole. -/
def series : PrerequisiteMetadata → List String
  | .patchIds _ _ => []
  | .messageIds ids => ids
  | .basedOn id => [id]

end PrerequisiteMetadata

/-- The metadata of the series that is known under the id. -/
def HasMetadata (known : String → Option PrerequisiteSeries) (m : String)
    (metadata : PrerequisiteMetadata) : Prop :=
  ∃ series, known m = some series ∧ parsePrerequisiteMetadata series.body = .ok (some metadata)

def DependsOn (known : String → Option PrerequisiteSeries) (m d : String) : Prop :=
  ∃ metadata, HasMetadata known m metadata ∧ d ∈ metadata.series

/-- Everything the metadata names is among these patches. -/
def Settles (known : String → Option PrerequisiteSeries) (before : List String)
    (metadata : PrerequisiteMetadata) : Prop :=
  metadata.patches ⊆ before ∧
    ∀ d ∈ metadata.series, ∃ series, known d = some series ∧ series.ids ⊆ before

/-- The patches of the series stand behind what it builds on, but for those that stood there
already. -/
def Stands (known : String → Option PrerequisiteSeries) (out : List String) (m : String) : Prop :=
  ∃ series before own after, known m = some series ∧ out = before ++ own ++ after ∧
    (∃ found, parsePrerequisiteMetadata series.body = .ok found ∧
      ∀ metadata ∈ found, Settles known before metadata) ∧
    series.ids ⊆ before ++ own ∧ own ⊆ series.ids

/-- The series was given for the id. -/
def Supplied (world : PrerequisiteWorld ω) (m : String) (series : PrerequisiteSeries) : Prop :=
  cleanMessageId series.messageId = m ∧ ((∃ w, (world.fetchSeries m w).1 = .ok series) ∨
    ∃ w w' stored, (world.getStoredPrerequisiteSeries m w).1 = .ok (some stored) ∧
      (seriesFromStorage world stored w').1 = .ok series)

/-- The review that the patches are resolved for. -/
structure ResolutionTarget where
  patchsetId : ℤ
  messageId : Option String
  metadata : PrerequisiteMetadata

/-- The series can be reached from those that the target names. -/
def Wanted (target : ResolutionTarget) (known : String → Option PrerequisiteSeries) (m : String) :
    Prop :=
  ∃ root ∈ target.metadata.series, Relation.ReflTransGen (DependsOn known) root m

/-- The target names the patch, or a series that is reached does, or has it. -/
def Asked (target : ResolutionTarget) (known : String → Option PrerequisiteSeries) (id : String) :
    Prop :=
  id ∈ target.metadata.patches ∨ ∃ m series, known m = some series ∧
    (id ∈ series.ids ∨ ∃ metadata, HasMetadata known m metadata ∧ id ∈ metadata.patches)

structure ResolverState.Good (world : PrerequisiteWorld ω) (target : ResolutionTarget)
    (s : ResolverState ω) : Prop where
  seen : ∀ id, id ∈ s.seenPatchIds ↔ id ∈ s.ids
  idList : IdList IsPatchId maxPrerequisitePatchIds s.ids
  patchCache : ∀ id p, s.patchCache.lookup id = some p → p.gitPatchId = id
  series_le : s.seriesCache.length ≤ maxPrerequisiteSeries
  answered : ∀ m series, s.known m = some series → Supplied world m series
  underway : ∀ m series, s.known m = some series → m ∈ s.resolvedSeries ∨ m ∈ s.activeMessageIds
  reached : ∀ m series, s.known m = some series → Wanted target s.known m
  asked : ∀ id ∈ s.ids, Asked target s.known id
  placed : ∀ m ∈ s.resolvedSeries, Stands s.known s.ids m
  ordered : PostOrdered (DependsOn s.known) s.resolvedSeries
  target_active : (∀ m ∈ target.messageId, cleanMessageId m ∈ s.activeMessageIds) ∧
    target.patchsetId ∈ s.activePatchsetIds
  apart : ∀ m series, s.known m = some series →
    (∀ t ∈ target.messageId, m ≠ cleanMessageId t) ∧
      (m ∈ s.resolvedSeries → series.localPatchsetId ≠ some target.patchsetId)

/-- A whole operation: patches are only added, and the active series are those from before. -/
structure Gains (s s' : ResolverState ω) : Prop where
  ids : s.ids <+: s'.ids
  known : ∀ m series, s.known m = some series → s'.known m = some series
  resolvedSeries : s.resolvedSeries ⊆ s'.resolvedSeries
  activeMessageIds : s'.activeMessageIds = s.activeMessageIds
  activePatchsetIds : s'.activePatchsetIds = s.activePatchsetIds

namespace Gains

theorem refl (s : ResolverState ω) : Gains s s :=
  ⟨List.prefix_rfl, fun _ _ h => h, List.Subset.refl _, rfl, rfl⟩

theorem trans (s₁ s₂ s₃ : ResolverState ω) (h : Gains s₁ s₂) (h' : Gains s₂ s₃) : Gains s₁ s₃ where
  ids := h.ids.trans h'.ids
  known m series hm := h'.known m series (h.known m series hm)
  resolvedSeries := List.Subset.trans h.resolvedSeries h'.resolvedSeries
  activeMessageIds := h'.activeMessageIds.trans h.activeMessageIds
  activePatchsetIds := h'.activePatchsetIds.trans h.activePatchsetIds

end Gains

theorem Fetches.ids {s s' : ResolverState ω} (h : Fetches s s') : s'.ids = s.ids := by
  rw [ResolverState.ids, h.resolved]
  rfl

theorem Fetches.known {s s' : ResolverState ω} (h : Fetches s s') : s'.known = s.known := by
  funext m
  rw [ResolverState.known, h.seriesCache]
  rfl

theorem Fetches.grows {s s' : ResolverState ω} (h : Fetches s s') : Gains s s' :=
  ⟨h.ids ▸ List.prefix_rfl, fun _ _ hm => h.known ▸ hm, h.resolvedSeries ▸ List.Subset.refl _,
    h.activeMessageIds, h.activePatchsetIds⟩

theorem Fetches.good {target : ResolutionTarget} {s s' : ResolverState ω} (h : Fetches s s')
    (hs : s.Good world target) : s'.Good world target where
  seen := h.ids ▸ h.seenPatchIds ▸ hs.seen
  idList := h.ids ▸ hs.idList
  patchCache := h.patchCache hs.patchCache
  series_le := h.seriesCache ▸ hs.series_le
  answered := h.known ▸ hs.answered
  underway := h.known ▸ h.resolvedSeries ▸ h.activeMessageIds ▸ hs.underway
  reached := h.known ▸ hs.reached
  asked := h.known ▸ h.ids ▸ hs.asked
  placed := h.known ▸ h.ids ▸ h.resolvedSeries ▸ hs.placed
  ordered := h.known ▸ h.resolvedSeries ▸ hs.ordered
  target_active := h.activeMessageIds ▸ h.activePatchsetIds ▸ hs.target_active
  apart := h.known ▸ h.resolvedSeries ▸ hs.apart

/-! ### More is known -/

section Known

variable {known known' : String → Option PrerequisiteSeries} {target : ResolutionTarget}
  {m : String} {before out out' : List String}

theorem HasMetadata.mono {metadata : PrerequisiteMetadata} (h : HasMetadata known m metadata)
    (hknown : ∀ m series, known m = some series → known' m = some series) :
    HasMetadata known' m metadata := by
  obtain ⟨series, hm, hparse⟩ := h
  exact ⟨series, hknown m series hm, hparse⟩

/-- What was known stays the only answer. -/
theorem HasMetadata.of_known {metadata : PrerequisiteMetadata} {series : PrerequisiteSeries}
    (h : HasMetadata known' m metadata) (hm : known m = some series)
    (hknown : ∀ m series, known m = some series → known' m = some series) :
    HasMetadata known m metadata := by
  obtain ⟨series', hm', hparse⟩ := h
  obtain rfl := Option.some_inj.mp ((hknown m series hm).symm.trans hm')
  exact ⟨series, hm, hparse⟩

theorem Wanted.mono (h : Wanted target known m)
    (hknown : ∀ m series, known m = some series → known' m = some series) :
    Wanted target known' m := by
  obtain ⟨root, hroot, hchain⟩ := h
  refine ⟨root, hroot, hchain.lift id fun a d => ?_⟩
  rintro ⟨metadata, hmeta, hd⟩
  exact ⟨metadata, hmeta.mono hknown, hd⟩

theorem Asked.mono {id : String} (h : Asked target known id)
    (hknown : ∀ m series, known m = some series → known' m = some series) :
    Asked target known' id := by
  refine h.imp_right ?_
  rintro ⟨m, series, hm, hid⟩
  refine ⟨m, series, hknown m series hm, hid.imp_right ?_⟩
  rintro ⟨metadata, hmeta, hid⟩
  exact ⟨metadata, hmeta.mono hknown, hid⟩

theorem Settles.mono {metadata : PrerequisiteMetadata} (h : Settles known before metadata)
    (hknown : ∀ m series, known m = some series → known' m = some series) :
    Settles known' before metadata := by
  refine ⟨h.1, fun d hd => ?_⟩
  obtain ⟨series, hknow, hids⟩ := h.2 d hd
  exact ⟨series, hknown d series hknow, hids⟩

theorem Stands.mono (h : Stands known out m)
    (hknown : ∀ m series, known m = some series → known' m = some series) (hout : out <+: out') :
    Stands known' out' m := by
  obtain ⟨series, before, own, after, hm, rfl, ⟨found, hparse, hsettled⟩, hall, hown⟩ := h
  obtain ⟨more, rfl⟩ := hout
  exact ⟨series, before, own, after ++ more, hknown m series hm, List.append_assoc _ _ _,
    ⟨found, hparse, fun metadata hmeta => (hsettled metadata hmeta).mono hknown⟩, hall, hown⟩

theorem Stands.subset {series : PrerequisiteSeries} (h : Stands known out m)
    (hm : known m = some series) : series.ids ⊆ out := by
  obtain ⟨series', before, own, after, hm', rfl, -, hall, -⟩ := h
  obtain rfl := Option.some_inj.mp (hm'.symm.trans hm)
  exact fun id hid => List.mem_append_left _ (hall hid)

end Known

/-! ### Patches that are added -/

variable {target : ResolutionTarget} {s s' : ResolverState ω}

theorem liftExcept_ok {α : Type} {x : Except String α} {a : α}
    (h : (liftExcept x : Resolve ω α).run s = .ok a s') : x = .ok a ∧ s' = s := by
  cases x with
  | ok b =>
    obtain ⟨rfl, rfl⟩ := attempt_pure_ok h
    exact ⟨rfl, rfl⟩
  | error e => cases h

/-- What a step leaves when it succeeds. -/
theorem Tends.ok {α : Type} {R : ResolverState ω → ResolverState ω → Prop} {x : Resolve ω α}
    (h : Tends R x) {a : α} (hx : x.run s = .ok a s') : R s s' := by
  have hs := h s
  rwa [hx] at hs

theorem get_bind_ok {α : Type} {f : ResolverState ω → Resolve ω α} {a : α}
    (h : (get >>= f).run s = .ok a s') : (f s).run s = .ok a s' := h

/-- The state with one more patch at the end. -/
def ResolverState.push (s : ResolverState ω) (patch : PrerequisitePatch) : ResolverState ω :=
  { s with
    seenPatchIds := insert patch.gitPatchId s.seenPatchIds
    resolved := s.resolved ++ [patch] }

theorem ids_push (s : ResolverState ω) (patch : PrerequisitePatch) :
    (s.push patch).ids = s.ids ++ [patch.gitPatchId] := List.map_append

theorem grows_push (s : ResolverState ω) (patch : PrerequisitePatch) : Gains s (s.push patch) :=
  ⟨ids_push s patch ▸ List.prefix_append _ _, fun _ _ h => h, List.Subset.refl _, rfl, rfl⟩

theorem ResolverState.Good.push {patch : PrerequisitePatch} (hs : s.Good world target)
    (hnew : patch.gitPatchId ∉ s.ids) (hroom : s.resolved.length ≠ maxPrerequisitePatchIds)
    (hpatch : IsPatchId patch.gitPatchId) (hasked : Asked target s.known patch.gitPatchId) :
    (s.push patch).Good world target where
  seen id := by
    rw [ids_push, List.mem_append, List.mem_singleton, ← hs.seen]
    exact Finset.mem_insert.trans or_comm
  idList := ids_push s patch ▸ hs.idList.concat hnew (by rwa [ids, List.length_map]) hpatch
  patchCache := hs.patchCache
  series_le := hs.series_le
  answered := hs.answered
  underway := hs.underway
  reached := hs.reached
  asked id hid := by
    rw [ids_push] at hid
    rcases List.mem_append.mp hid with hid | hid
    · exact hs.asked id hid
    · exact List.mem_singleton.mp hid ▸ hasked
  placed m hm := (hs.placed m hm).mono (fun _ _ h => h) (grows_push s patch).ids
  ordered := hs.ordered
  target_active := hs.target_active
  apart := hs.apart

/-- The patch is added, unless it is there. -/
theorem appendPatch_ok {patch : PrerequisitePatch} (hs : s.Good world target)
    (hasked : Asked target s.known (asciiLower patch.gitPatchId))
    (h : (appendPatch patch).run s = .ok ⟨⟩ s') :
    s'.Good world target ∧ Gains s s' ∧ asciiLower patch.gitPatchId ∈ s'.ids ∧
      ∃ own, s'.ids = s.ids ++ own ∧ own ⊆ [asciiLower patch.gitPatchId] := by
  obtain ⟨id, s₁, hid, h⟩ := attempt_bind_ok h
  obtain ⟨hnormal, rfl⟩ := liftExcept_ok hid
  obtain ⟨rfl, hpatch⟩ := normalizePatchId_ok hnormal
  obtain ⟨_, s₂, hcache, h⟩ := attempt_bind_ok h
  have hfetch : Fetches s₁ s₂ := (Fetches.cachePatch _).ok hcache
  have hgood := hfetch.good hs
  replace h := get_bind_ok h
  split_ifs at h with hseen hfull
  · obtain ⟨-, rfl⟩ := attempt_pure_ok h
    have hmem := (hgood.seen _).mp hseen
    exact ⟨hgood, hfetch.grows, hmem, [], by rw [hfetch.ids, List.append_nil],
      List.nil_subset _⟩
  · obtain ⟨_, s₃, hset, h⟩ := attempt_bind_ok h
    cases h
  · obtain rfl : s₂.push { patch with gitPatchId := asciiLower patch.gitPatchId } = s' := by
      obtain ⟨_, s₃, hset, h⟩ := attempt_bind_ok h
      obtain rfl := attempt_modify_ok hset
      exact attempt_modify_ok h
    refine ⟨hgood.push (fun hmem => hseen ((hgood.seen _).mpr hmem)) hfull hpatch
      (hfetch.known ▸ hasked), hfetch.grows.trans _ _ _ (grows_push _ _), ?_, _, ?_,
      List.Subset.refl _⟩
    · rw [ids_push]
      exact List.mem_append_right _ List.mem_cons_self
    · rw [ids_push, hfetch.ids]

/-- The patch with the id is added, unless it is there. -/
theorem resolvePatchId_ok {wanted : List String} {id : String} (hs : s.Good world target)
    (hid : IsPatchId id) (hasked : Asked target s.known id)
    (h : (resolvePatchId world wanted id).run s = .ok ⟨⟩ s') :
    s'.Good world target ∧ Gains s s' ∧ id ∈ s'.ids := by
  obtain ⟨_, s₁, hsearch, hrest⟩ := attempt_bind_ok h
  have hfetch : Fetches s s₁ := (Fetches.rule.searchMissingPatch wanted id).ok hsearch
  have hgood := hfetch.good hs
  replace hrest := get_bind_ok hrest
  split at hrest
  · cases hrest
  · next patch hpatch =>
    have hkey : asciiLower patch.gitPatchId = id := by
      rw [hgood.patchCache id patch hpatch, hid.asciiLower_eq]
    obtain ⟨hgood', hgrows, hmem, -⟩ :=
      appendPatch_ok hgood (hkey.symm ▸ hfetch.known ▸ hasked) hrest
    exact ⟨hgood', hfetch.grows.trans _ _ _ hgrows, hkey ▸ hmem⟩

theorem mapM_normalizePatchId {ids : List String} (h : ∀ id ∈ ids, IsPatchId id) :
    ids.mapM normalizePatchId = .ok ids := by
  induction ids with
  | nil => rfl
  | cons id ids ih =>
    rw [List.mapM_cons, show normalizePatchId id = .ok id from h id List.mem_cons_self,
      ih fun j hj => h j (List.mem_cons_of_mem _ hj)]
    rfl

theorem resolvePatchIds_ok {ids hints : List String} (hs : s.Good world target)
    (hids : ∀ id ∈ ids, IsPatchId id) (hasked : ∀ id ∈ ids, Asked target s.known id)
    (h : (resolvePatchIds world ids hints).run s = .ok ⟨⟩ s') :
    s'.Good world target ∧ Gains s s' ∧ ids ⊆ s'.ids := by
  unfold resolvePatchIds at h
  split_ifs at h
  · cases h
  · obtain ⟨_, s₁, hnormal, h⟩ := attempt_bind_ok h
    obtain ⟨hmap, rfl⟩ := liftExcept_ok hnormal
    obtain rfl := Except.ok.inj ((mapM_normalizePatchId hids).symm.trans hmap)
    obtain ⟨_, s₂, hlocal, h⟩ := attempt_bind_ok h
    obtain ⟨_, s₃, hhints, h⟩ := attempt_bind_ok h
    have hfetch : Fetches s₁ s₃ := Fetches.trans _ _ _
      ((Fetches.rule.cacheLocalPatches ids).ok hlocal)
      ((Fetches.rule.cacheHintedPatches ids hints).ok hhints)
    obtain ⟨⟨hgood, -⟩, hgrows, hmem⟩ :=
      forM_ok (I := fun s => s.Good world target ∧ ∀ id ∈ ids, Asked target s.known id)
        (R := Gains) (Q := fun id s => id ∈ s.ids) Gains.refl Gains.trans
        (fun id s s' hid hgrows => hgrows.ids.subset hid)
        (fun id hid s s' hs hstep => by
          obtain ⟨hgood, hgrows, hmem⟩ :=
            resolvePatchId_ok hs.1 (hids id hid) (hs.2 id hid) hstep
          exact ⟨⟨hgood, fun j hj => (hs.2 j hj).mono hgrows.known⟩, hgrows, hmem⟩)
        ⟨hfetch.good hs, fun id hid => hfetch.known ▸ hasked id hid⟩ h
    exact ⟨hgood, hfetch.grows.trans _ _ _ hgrows, hmem⟩

/-! ### Series that are resolved -/

/-- What a call that succeeds has done. -/
def ResolvesSeries (world : PrerequisiteWorld ω) (target : ResolutionTarget)
    (resolveSeries : String → Resolve ω PUnit) : Prop :=
  ∀ {m s s'}, cleanMessageId m = m → s.Good world target → Wanted target s.known m →
    (resolveSeries m).run s = .ok ⟨⟩ s' → s'.Good world target ∧ Gains s s' ∧ m ∈ s'.resolvedSeries

theorem ResolverState.Good.exists_known {m : String} (hs : s.Good world target)
    (hm : m ∈ s.resolvedSeries) : ∃ series, s.known m = some series ∧ series.ids ⊆ s.ids := by
  have hplaced := hs.placed m hm
  obtain ⟨series, -, -, -, hknown, -⟩ := hplaced
  exact ⟨series, hknown, (hs.placed m hm).subset hknown⟩

theorem resolveMetadata_ok {resolveSeries : String → Resolve ω PUnit}
    {metadata : PrerequisiteMetadata} (hrec : ResolvesSeries world target resolveSeries)
    (hcanonical : metadata.Canonical) (hs : s.Good world target)
    (hasked : ∀ id ∈ metadata.patches, Asked target s.known id)
    (hreached : ∀ m ∈ metadata.series, Wanted target s.known m)
    (h : (resolveMetadata world resolveSeries metadata).run s = .ok ⟨⟩ s') :
    s'.Good world target ∧ Gains s s' ∧ Settles s'.known s'.ids metadata ∧
      metadata.series ⊆ s'.resolvedSeries := by
  cases metadata with
  | patchIds ids hints =>
    obtain ⟨hgood, hgrows, hmem⟩ := resolvePatchIds_ok hs hcanonical.2.1.canonical hasked h
    exact ⟨hgood, hgrows, ⟨hmem, fun d hd => absurd hd List.not_mem_nil⟩, List.nil_subset _⟩
  | messageIds ids =>
    obtain ⟨⟨hgood, -⟩, hgrows, hmem⟩ :=
      forM_ok (I := fun s => s.Good world target ∧ ∀ m ∈ ids, Wanted target s.known m)
        (R := Gains) (Q := fun m s => m ∈ s.resolvedSeries) Gains.refl Gains.trans
        (fun m s s' hm hgrows => hgrows.resolvedSeries hm)
        (fun m hm s s' hs hstep => by
          obtain ⟨hgood, hgrows, hmem⟩ :=
            hrec (hcanonical.2.canonical m hm) hs.1 (hs.2 m hm) hstep
          exact ⟨⟨hgood, fun d hd => (hs.2 d hd).mono hgrows.known⟩, hgrows, hmem⟩)
        (show s.Good world target ∧ ∀ m ∈ ids, Wanted target s.known m from ⟨hs, hreached⟩) h
    exact ⟨hgood, hgrows, ⟨List.nil_subset _, fun d hd => hgood.exists_known (hmem d hd)⟩, hmem⟩
  | basedOn id =>
    obtain ⟨hgood, hgrows, hmem⟩ := hrec hcanonical hs (hreached id List.mem_cons_self) h
    refine ⟨hgood, hgrows, ⟨List.nil_subset _, fun d hd => ?_⟩, fun d hd => ?_⟩
    · exact List.mem_singleton.mp hd ▸ hgood.exists_known hmem
    · exact List.mem_singleton.mp hd ▸ hmem

/-- The state in which the series is being resolved. -/
def ResolverState.enter (s : ResolverState ω) (m : String) (series : PrerequisiteSeries) :
    ResolverState ω :=
  { s with
    seriesCache := (m, series) :: s.seriesCache
    activeMessageIds := insert m (insert m s.activeMessageIds)
    activePatchsetIds := s.activePatchsetIds ∪ series.localPatchsetId.toFinset }

/-- The state in which it has been resolved. -/
def ResolverState.leave (s : ResolverState ω) (m : String) (series : PrerequisiteSeries) :
    ResolverState ω :=
  { s with
    activeMessageIds := (s.activeMessageIds.erase m).erase m
    activePatchsetIds := s.activePatchsetIds \ series.localPatchsetId.toFinset
    resolvedSeries := if m ∈ s.resolvedSeries then s.resolvedSeries else s.resolvedSeries ++ [m] }

variable {m : String} {series : PrerequisiteSeries}

theorem known_enter (s : ResolverState ω) (d : String) :
    (s.enter m series).known d = if d = m then some series else s.known d := by
  rw [ResolverState.known, ResolverState.enter, List.lookup_cons]
  split_ifs with hd
  · rw [hd, beq_self_eq_true]
  · rw [beq_false_of_ne hd]
    rfl

theorem known_mono_enter (hnone : s.known m = none) (d : String) (series' : PrerequisiteSeries)
    (hd : s.known d = some series') : (s.enter m series).known d = some series' := by
  rw [known_enter, if_neg, hd]
  rintro rfl
  rw [hnone] at hd
  cases hd

theorem mem_resolvedSeries_leave (s : ResolverState ω) (d : String) :
    d ∈ (s.leave m series).resolvedSeries ↔ d ∈ s.resolvedSeries ∨ d = m := by
  unfold ResolverState.leave
  dsimp only
  split_ifs with hm
  · refine ⟨.inl, fun h => h.elim id ?_⟩
    rintro rfl
    exact hm
  · rw [List.mem_append, List.mem_singleton]

theorem ResolverState.Good.enter (hs : s.Good world target) (hnone : s.known m = none)
    (hroom : s.seriesCache.length ≠ maxPrerequisiteSeries) (hm : m ∉ s.activeMessageIds)
    (hresolved : m ∉ s.resolvedSeries) (hreached : Wanted target s.known m)
    (hanswered : Supplied world m series) : (s.enter m series).Good world target where
  seen := hs.seen
  idList := hs.idList
  patchCache := hs.patchCache
  series_le := Nat.lt_of_le_of_ne hs.series_le hroom
  answered d series' hd := by
    rw [known_enter] at hd
    split_ifs at hd with heq
    · exact heq ▸ Option.some_inj.mp hd ▸ hanswered
    · exact hs.answered d series' hd
  underway d series' hd := by
    rw [known_enter] at hd
    split_ifs at hd with heq
    · exact .inr (heq ▸ Finset.mem_insert_self _ _)
    · exact (hs.underway d series' hd).imp_right fun h =>
        Finset.mem_insert_of_mem (Finset.mem_insert_of_mem h)
  reached d series' hd := by
    rw [known_enter] at hd
    split_ifs at hd with heq
    · exact heq ▸ hreached.mono (known_mono_enter hnone)
    · exact (hs.reached d series' hd).mono (known_mono_enter hnone)
  asked id hid := (hs.asked id hid).mono (known_mono_enter hnone)
  placed d hd := (hs.placed d hd).mono (known_mono_enter hnone) List.prefix_rfl
  ordered := hs.ordered.mono fun k hk d hd => by
    obtain ⟨metadata, hmeta, hd⟩ := hd
    obtain ⟨series', hknown, -⟩ := hs.exists_known hk
    exact ⟨metadata, hmeta.of_known hknown (known_mono_enter hnone), hd⟩
  target_active := ⟨fun t ht =>
    Finset.mem_insert_of_mem (Finset.mem_insert_of_mem (hs.target_active.1 t ht)),
    Finset.mem_union_left _ hs.target_active.2⟩
  apart d series' hd := by
    rw [known_enter] at hd
    split_ifs at hd with heq
    · refine ⟨fun t ht hclean => hm ?_, fun hd => absurd (heq ▸ hd) hresolved⟩
      exact heq ▸ hclean ▸ hs.target_active.1 t ht
    · exact hs.apart d series' hd

theorem ResolverState.Good.leave {A : Finset String} {B : Finset ℤ} (hs : s.Good world target)
    (hknown : s.known m = some series) (hplaced : Stands s.known s.ids m)
    (hdeps : ∀ d, DependsOn s.known m d → d ∈ s.resolvedSeries)
    (hA : s.activeMessageIds = insert m (insert m A)) (hm : m ∉ A)
    (hB : s.activePatchsetIds = B ∪ series.localPatchsetId.toFinset)
    (hlocal : ∀ id ∈ series.localPatchsetId, id ∉ B)
    (htarget : (∀ t ∈ target.messageId, cleanMessageId t ∈ A) ∧ target.patchsetId ∈ B) :
    (s.leave m series).Good world target ∧ (s.leave m series).activeMessageIds = A ∧
      (s.leave m series).activePatchsetIds = B := by
  have hmessages : (s.leave m series).activeMessageIds = A := by
    change (s.activeMessageIds.erase m).erase m = A
    rw [hA, Finset.insert_idem, Finset.erase_insert hm, Finset.erase_eq_of_notMem hm]
  have hpatchsets : (s.leave m series).activePatchsetIds = B := by
    change s.activePatchsetIds \ _ = B
    rw [hB, Finset.union_sdiff_right, Finset.sdiff_eq_self_iff_disjoint, Finset.disjoint_right]
    exact fun id hid => hlocal id (Option.mem_toFinset.mp hid)
  refine ⟨?_, hmessages, hpatchsets⟩
  exact {
    seen := hs.seen
    idList := hs.idList
    patchCache := hs.patchCache
    series_le := hs.series_le
    answered := hs.answered
    underway := fun d series' hd => by
      rw [mem_resolvedSeries_leave, hmessages]
      rcases hs.underway d series' hd with h | h
      · exact .inl (.inl h)
      · rw [hA, Finset.insert_idem, Finset.mem_insert] at h
        exact h.imp_left .inr
    reached := hs.reached
    asked := hs.asked
    placed := fun d hd => by
      rcases (mem_resolvedSeries_leave s d).mp hd with hd | rfl
      · exact hs.placed d hd
      · exact hplaced
    ordered := by
      change PostOrdered (DependsOn s.known) (if _ then _ else _)
      split_ifs
      · exact hs.ordered
      · exact hs.ordered.concat hdeps
    target_active := by
      rw [hmessages, hpatchsets]
      exact htarget
    apart := fun d series' hd => by
      refine ⟨(hs.apart d series' hd).1, fun hmem => ?_⟩
      rcases (mem_resolvedSeries_leave s d).mp hmem with hmem | rfl
      · exact (hs.apart d series' hd).2 hmem
      · obtain rfl := Option.some_inj.mp (hknown.symm.trans hd)
        exact fun heq => hlocal _ heq htarget.2 }

theorem answer_ok {α : Type} {question : ω → Except String α × ω} {a : α}
    (h : (answer question >>= liftExcept : Resolve ω α).run s = .ok a s') :
    (question s.world).1 = .ok a := by
  obtain ⟨x, s₁, hx, h⟩ := attempt_bind_ok h
  cases hx
  exact (liftExcept_ok h).1

theorem withContext_ok {α : Type} {context : String} {question : ω → Except String α × ω} {w : ω}
    {a : α} (h : (withContext context question w).1 = .ok a) : (question w).1 = .ok a := by
  unfold withContext at h
  dsimp only at h
  cases hq : (question w).1 with
  | ok b =>
    rw [hq] at h
    exact h
  | error e =>
    rw [hq] at h
    cases h

theorem obtainSeries_ok (h : (obtainSeries world m).run s = .ok series s') :
    (∃ w, (world.fetchSeries m w).1 = .ok series) ∨
      ∃ w w' stored, (world.getStoredPrerequisiteSeries m w).1 = .ok (some stored) ∧
        (seriesFromStorage world stored w').1 = .ok series := by
  obtain ⟨stored, s₁, hstored, h⟩ := attempt_bind_ok h
  cases stored with
  | some stored => exact .inr ⟨_, _, stored, answer_ok hstored, answer_ok h⟩
  | none =>
    obtain ⟨x, s₂, hx, h⟩ := attempt_bind_ok h
    obtain ⟨_, s₃, -, hx⟩ := attempt_bind_ok hx
    obtain ⟨rfl, rfl⟩ := liftExcept_ok h
    have hanswer : (withContext ("failed to fetch prerequisite series " ++ m ++ " from lore")
        (world.fetchSeries m) s₃.world).1 = .ok series := (EStateM.Result.ok.inj hx).1
    exact .inl ⟨s₃.world, withContext_ok hanswer⟩

/-- A series is loaded only once: one that is known is resolved or active. -/
theorem loadSeries_ok (hs : s.Good world target) (hclean : cleanMessageId m = m)
    (hm : m ∉ s.activeMessageIds) (hresolved : m ∉ s.resolvedSeries)
    (h : (loadSeries world m).run s = .ok series s') :
    s.known m = none ∧ s.seriesCache.length ≠ maxPrerequisiteSeries ∧
      Supplied world m series ∧ ∃ s₁, Fetches s s₁ ∧
        s' = { s₁ with seriesCache := (m, series) :: s₁.seriesCache } := by
  unfold loadSeries at h
  rw [hclean] at h
  replace h := get_bind_ok h
  split at h
  · next found hfound => exact absurd (hs.underway m found hfound) (by simp [hm, hresolved])
  · next hnone =>
    split_ifs at h with hroom
    · cases h
    · obtain ⟨found, s₁, hobtain, h⟩ := attempt_bind_ok h
      split_ifs at h with hid
      · cases h
      · obtain ⟨_, s₂, hset, h⟩ := attempt_bind_ok h
        obtain ⟨rfl, rfl⟩ := attempt_pure_ok h
        exact ⟨hnone, hroom, ⟨not_not.mp hid, obtainSeries_ok hobtain⟩, s₁,
          (Fetches.rule.obtainSeries m).ok hobtain, (attempt_modify_ok hset).symm⟩

theorem resolveDependencies_ok {resolveSeries : String → Resolve ω PUnit}
    (hrec : ResolvesSeries world target resolveSeries) (hs : s.Good world target)
    (hknown : s.known m = some series)
    (h : (resolveDependencies world resolveSeries series.body).run s = .ok ⟨⟩ s') :
    s'.Good world target ∧ Gains s s' ∧ ∃ found, parsePrerequisiteMetadata series.body = .ok found ∧
      ∀ metadata ∈ found, Settles s'.known s'.ids metadata ∧
        metadata.series ⊆ s'.resolvedSeries := by
  obtain ⟨found, s₁, hrun, h⟩ := attempt_bind_ok h
  obtain ⟨hparse, rfl⟩ := liftExcept_ok hrun
  cases found with
  | none =>
    obtain ⟨-, rfl⟩ := attempt_pure_ok h
    exact ⟨hs, Gains.refl _, none, hparse, fun metadata hmeta => absurd hmeta (by simp)⟩
  | some metadata =>
    have hmeta : HasMetadata s₁.known m metadata := ⟨series, hknown, hparse⟩
    obtain ⟨hgood, hgrows, hsettled, hresolved⟩ :=
      resolveMetadata_ok hrec (canonical_of_parse hparse) hs
        (fun id hid => .inr ⟨m, series, hknown, .inr ⟨metadata, hmeta, hid⟩⟩)
        (fun d hd => by
          obtain ⟨root, hroot, hchain⟩ := hs.reached m series hknown
          exact ⟨root, hroot, hchain.tail ⟨metadata, hmeta, hd⟩⟩) h
    refine ⟨hgood, hgrows, some metadata, hparse, fun metadata' hmeta' => ?_⟩
    obtain rfl := Option.some_inj.mp hmeta'
    exact ⟨hsettled, hresolved⟩

/-- The patches of the series itself are added behind those that are there. -/
theorem appendPatches_ok (hs : s.Good world target) (hknown : s.known m = some series)
    (h : (forM series.patches appendPatch : Resolve ω PUnit).run s = .ok ⟨⟩ s') :
    s'.Good world target ∧ Gains s s' ∧ series.ids ⊆ s'.ids ∧
      ∃ own, s'.ids = s.ids ++ own ∧ own ⊆ series.ids := by
  obtain ⟨⟨hgood, -⟩, ⟨hgrows, hown⟩, hmem⟩ :=
    forM_ok (I := fun s => s.Good world target ∧ s.known m = some series)
      (R := fun s s' => Gains s s' ∧ ∃ own, s'.ids = s.ids ++ own ∧ own ⊆ series.ids)
      (Q := fun (p : PrerequisitePatch) s => asciiLower p.gitPatchId ∈ s.ids)
      (fun s => ⟨Gains.refl s, [], (List.append_nil _).symm, List.nil_subset _⟩)
      (fun s₁ s₂ s₃ h h' => by
        obtain ⟨own, hown, hsub⟩ := h.2
        obtain ⟨own', hown', hsub'⟩ := h'.2
        refine ⟨h.1.trans _ _ _ h'.1, own ++ own', ?_, List.append_subset.mpr ⟨hsub, hsub'⟩⟩
        rw [hown', hown, List.append_assoc])
      (fun p s s' hp h => h.1.ids.subset hp)
      (fun p hp s s' hs hstep => by
        have hid : asciiLower p.gitPatchId ∈ series.ids := List.mem_map_of_mem hp
        obtain ⟨hgood, hgrows, hmem, own, hown, hsub⟩ :=
          appendPatch_ok hs.1 (.inr ⟨m, series, hs.2, .inl hid⟩) hstep
        exact ⟨⟨hgood, hgrows.known m series hs.2⟩, ⟨hgrows, own, hown, fun id hid' =>
          List.mem_singleton.mp (hsub hid') ▸ hid⟩, hmem⟩)
      (show s.Good world target ∧ s.known m = some series from ⟨hs, hknown⟩) h
  refine ⟨hgood, hgrows, fun id hid => ?_, hown⟩
  obtain ⟨p, hp, rfl⟩ := List.mem_map.mp hid
  exact hmem p hp

theorem resolveSeries_ok (room : ℕ) : ResolvesSeries world target (resolveSeries world room) := by
  induction room with
  | zero =>
    intro m s s' _ _ _ h
    cases h
  | succ room ih =>
    intro m s s' hclean hs hreached h
    unfold resolveSeries at h
    rw [hclean] at h
    replace h := get_bind_ok h
    split_ifs at h with hactive hresolved
    · cases h
    · obtain ⟨-, rfl⟩ := attempt_pure_ok h
      exact ⟨hs, Gains.refl _, hresolved⟩
    · obtain ⟨series, s₁, hload, h⟩ := attempt_bind_ok h
      obtain ⟨hnone, hroom, hanswered, s₀, hfetch, rfl⟩ :=
        loadSeries_ok hs hclean hactive hresolved hload
      rw [hanswered.1] at h
      replace h := get_bind_ok h
      split_ifs at h with hcycle
      · cases h
      · rw [not_or] at hcycle
        have hlocal : ∀ id ∈ series.localPatchsetId, id ∉ s₀.activePatchsetIds :=
          fun id hid hmem => hcycle.2 ⟨id, hid, hmem⟩
        have hgood₀ := hfetch.good hs
        have hnone₀ : s₀.known m = none := hfetch.known ▸ hnone
        have hactive₀ : m ∉ s₀.activeMessageIds := hfetch.activeMessageIds ▸ hactive
        have henter : (s₀.enter m series).Good world target :=
          hgood₀.enter hnone₀ (hfetch.seriesCache ▸ hroom) hactive₀
            (hfetch.resolvedSeries ▸ hresolved) (hfetch.known ▸ hreached) hanswered
        have hknown : (s₀.enter m series).known m = some series := by
          rw [known_enter, if_pos rfl]
        obtain ⟨_, s₂, hset, h⟩ := attempt_bind_ok h
        obtain rfl : s₀.enter m series = s₂ := attempt_modify_ok hset
        obtain ⟨_, s₃, hdeps, h⟩ := attempt_bind_ok h
        obtain ⟨_, s₄, hpatches, h⟩ := attempt_bind_ok h
        obtain ⟨hgood₃, hgrows₃, found, hparse, hfound⟩ :=
          resolveDependencies_ok (@ih) henter hknown hdeps
        obtain ⟨hgood₄, hgrows₄, hall, own, hown, hsub⟩ :=
          appendPatches_ok hgood₃ (hgrows₃.known m series hknown) hpatches
        have hknown₄ := hgrows₄.known m series (hgrows₃.known m series hknown)
        have hplaced : Stands s₄.known s₄.ids m :=
          ⟨series, s₃.ids, own, [], hknown₄, by rw [hown, List.append_nil], ⟨found, hparse,
            fun metadata hmeta => (hfound metadata hmeta).1.mono hgrows₄.known⟩,
            hown ▸ hall, hsub⟩
        have hdone : ∀ d, DependsOn s₄.known m d → d ∈ s₄.resolvedSeries := by
          rintro d ⟨metadata, ⟨series', hknown', hparse'⟩, hd⟩
          obtain rfl := Option.some_inj.mp (hknown₄.symm.trans hknown')
          obtain rfl := Except.ok.inj (hparse.symm.trans hparse')
          exact hgrows₄.resolvedSeries ((hfound metadata rfl).2 hd)
        obtain ⟨hgood, hmessages, hpatchsets⟩ := hgood₄.leave hknown₄ hplaced hdone
          (hgrows₄.activeMessageIds.trans hgrows₃.activeMessageIds) hactive₀
          (hgrows₄.activePatchsetIds.trans hgrows₃.activePatchsetIds) hlocal hgood₀.target_active
        obtain rfl : s₄.leave m series = s' := attempt_modify_ok h
        refine ⟨hgood, ⟨?_, ?_, ?_, ?_, ?_⟩, (mem_resolvedSeries_leave s₄ m).mpr (.inr rfl)⟩
        · exact hfetch.ids ▸ hgrows₃.ids.trans hgrows₄.ids
        · intro d series' hd
          exact hgrows₄.known d series' (hgrows₃.known d series'
            (known_mono_enter hnone₀ d series' (hfetch.known ▸ hd)))
        · intro d hd
          refine (mem_resolvedSeries_leave s₄ d).mpr (.inl ?_)
          exact hgrows₄.resolvedSeries (hgrows₃.resolvedSeries (hfetch.resolvedSeries.symm ▸ hd))
        · exact hmessages.trans hfetch.activeMessageIds
        · exact hpatchsets.trans hfetch.activePatchsetIds

/-! ### The whole resolution -/

theorem good_start (target : ResolutionTarget) (w : ω) :
    ({ ResolverState.new w with
      activePatchsetIds := insert target.patchsetId ∅
      activeMessageIds := ∅ ∪ (target.messageId.map cleanMessageId).toFinset } :
        ResolverState ω).Good world target where
  seen id := by
    change id ∈ (∅ : Finset String) ↔ id ∈ []
    simp
  idList := ⟨List.nodup_nil, Nat.zero_le _, fun id hid => absurd hid List.not_mem_nil⟩
  patchCache id p hp := by cases hp
  series_le := Nat.zero_le _
  answered m series hm := by cases hm
  underway m series hm := by cases hm
  reached m series hm := by cases hm
  asked id hid := absurd hid List.not_mem_nil
  placed m hm := absurd hm List.not_mem_nil
  ordered := postOrdered_nil
  target_active := by
    refine ⟨fun t ht => Finset.mem_union_right _ (Option.mem_toFinset.mpr ?_),
      Finset.mem_insert_self _ _⟩
    exact Option.mem_map_of_mem cleanMessageId ht
  apart m series hm := by cases hm

theorem resolveTarget_ok (hcanonical : target.metadata.Canonical) {w : ω}
    {out : List PrerequisitePatch}
    (h : (resolveTarget world target.patchsetId target.messageId target.metadata).run (.new w) =
      .ok out s') :
    s'.resolved = out ∧ s'.Good world target ∧ Settles s'.known s'.ids target.metadata ∧
      target.metadata.series ⊆ s'.resolvedSeries ∧
      s'.activeMessageIds = (target.messageId.map cleanMessageId).toFinset := by
  obtain ⟨_, s₁, hset, h⟩ := attempt_bind_ok h
  obtain ⟨_, s₂, hrun, h⟩ := attempt_bind_ok h
  obtain ⟨rfl, rfl⟩ : s₂.resolved = out ∧ s₂ = s' := attempt_pure_ok h
  obtain rfl := attempt_modify_ok hset
  obtain ⟨hgood, hgrows, hsettled, hresolved⟩ :=
    resolveMetadata_ok (resolveSeries_ok maxPrerequisiteDepth) hcanonical (good_start target w)
      (fun id hid => .inl hid) (fun m hm => ⟨m, hm, .refl⟩) hrun
  exact ⟨rfl, hgood, hsettled, hresolved, hgrows.activeMessageIds.trans (Finset.empty_union _)⟩

/-- What a resolution has made: the patches, and the series that it went through. -/
structure Resolution (world : PrerequisiteWorld ω) (target : ResolutionTarget) (out : List String)
    (known : String → Option PrerequisiteSeries) (done : List String) : Prop where
  idList : IdList IsPatchId maxPrerequisitePatchIds out
  answered : ∀ m series, known m = some series → Supplied world m series
  reached : ∀ m, m ∈ done ↔ Wanted target known m
  settled : Settles known out target.metadata
  placed : ∀ m ∈ done, Stands known out m
  asked : ∀ id ∈ out, Asked target known id

variable {targetPatchsetId : ℤ} {targetMessageId : Option String} {body : String} {w : ω}
  {out : List PrerequisitePatch} {metadata : PrerequisiteMetadata}

theorem resolvePrerequisites_ok (hparse : parsePrerequisiteMetadata body = .ok (some metadata))
    (h : (resolvePrerequisites world targetPatchsetId targetMessageId body).run (.new w) =
      .ok out s') :
    (resolveTarget world targetPatchsetId targetMessageId metadata).run (.new w) = .ok out s' := by
  obtain ⟨found, s₁, hrun, h⟩ := attempt_bind_ok h
  obtain ⟨hfound, rfl⟩ := liftExcept_ok hrun
  obtain rfl := Except.ok.inj (hparse.symm.trans hfound)
  exact h

theorem ResolverState.Good.reached_iff (hs : s.Good world target)
    (htarget : target.metadata.series ⊆ s.resolvedSeries) (m : String) :
    m ∈ s.resolvedSeries ↔ Wanted target s.known m := by
  constructor
  · intro hm
    obtain ⟨series, hknown, -⟩ := hs.exists_known hm
    exact hs.reached m series hknown
  · rintro ⟨root, hroot, hchain⟩
    induction hchain with
    | refl => exact htarget hroot
    | tail _ hdeps ih => exact hs.ordered.mem ih hdeps

/-- Distinct patches, all of them asked for, each series behind what it builds on. -/
theorem resolvePrerequisites_order
    (hparse : parsePrerequisiteMetadata body = .ok (some metadata))
    (h : (resolvePrerequisites world targetPatchsetId targetMessageId body).run (.new w) =
      .ok out s') :
    Resolution world ⟨targetPatchsetId, targetMessageId, metadata⟩ (out.map (·.gitPatchId))
      s'.known s'.resolvedSeries := by
  obtain ⟨rfl, hgood, hsettled, hresolved, -⟩ :=
    @resolveTarget_ok _ _ ⟨targetPatchsetId, targetMessageId, metadata⟩ _
      (canonical_of_parse hparse) _ _ (resolvePrerequisites_ok hparse h)
  exact ⟨hgood.idList, hgood.answered, hgood.reached_iff hresolved, hsettled, hgood.placed,
    hgood.asked⟩

/-- No series builds on itself, and the target is not among its own prerequisites. -/
theorem resolvePrerequisites_acyclic
    (hparse : parsePrerequisiteMetadata body = .ok (some metadata))
    (h : (resolvePrerequisites world targetPatchsetId targetMessageId body).run (.new w) =
      .ok out s') {m : String}
    (hm : Wanted ⟨targetPatchsetId, targetMessageId, metadata⟩ s'.known m) :
    ¬Relation.TransGen (DependsOn s'.known) m m ∧
      (∀ t ∈ targetMessageId, m ≠ cleanMessageId t) ∧
      ∃ series, s'.known m = some series ∧ series.localPatchsetId ≠ some targetPatchsetId := by
  obtain ⟨-, hgood, -, hresolved, -⟩ :=
    @resolveTarget_ok _ _ ⟨targetPatchsetId, targetMessageId, metadata⟩ _
      (canonical_of_parse hparse) _ _ (resolvePrerequisites_ok hparse h)
  have hdone := (hgood.reached_iff hresolved m).mpr hm
  obtain ⟨series, hknown, -⟩ := hgood.exists_known hdone
  obtain ⟨hid, hlocal⟩ := hgood.apart m series hknown
  exact ⟨hgood.ordered.not_transGen_self hdone, hid, series, hknown, hlocal hdone⟩

/-- An archive in which one series builds on another. The world is the number of requests. -/
def chainWorld : PrerequisiteWorld ℕ where
  getStoredPrerequisiteSeries _ w := (.ok none, w)
  getPatchByGitPatchId _ w := (.ok none, w)
  gitPatchId _ w := (.ok "", w)
  fetchSeries m w := (
    if m = "b@x" then .ok ⟨none, "b@x", "Based-on: <c@x>",
      [⟨"bbbbbbbbbbbbbbbbbbbbbbbbbbbbbbbbbbbbbbbb", "b@x", "b", "", 0, ""⟩]⟩
    else .ok ⟨none, "c@x", "",
      [⟨"cccccccccccccccccccccccccccccccccccccccc", "c@x", "c", "", 0, ""⟩]⟩, w + 1)
  fetchThreadPatches _ w := (.ok [], w + 1)
  searchPatchId _ w := (.ok [], w + 1)

def chainPatches : List PrerequisitePatch :=
  [⟨"cccccccccccccccccccccccccccccccccccccccc", "c@x", "c", "", 0, ""⟩,
    ⟨"bbbbbbbbbbbbbbbbbbbbbbbbbbbbbbbbbbbbbbbb", "b@x", "b", "", 0, ""⟩]

theorem parse_chain : parsePrerequisiteMetadata "prerequisite-message-id: <b@x>" =
    .ok (some (.messageIds ["b@x"])) := by decide

theorem resolvePrerequisites_chain : ∃ s', (resolvePrerequisites chainWorld 1 (some "a@x")
    "prerequisite-message-id: <b@x>").run (.new 0) = .ok chainPatches s' := by
  have hbased : parsePrerequisiteMetadata "Based-on: <c@x>" = .ok (some (.basedOn "c@x")) := by
    decide
  have hnone : parsePrerequisiteMetadata "" = .ok none := by decide
  have ha : cleanMessageId "a@x" = "a@x" := by decide
  have hb : cleanMessageId "b@x" = "b@x" := by decide
  have hc : cleanMessageId "c@x" = "c@x" := by decide
  have hbs : normalizePatchId "bbbbbbbbbbbbbbbbbbbbbbbbbbbbbbbbbbbbbbbb" =
      .ok "bbbbbbbbbbbbbbbbbbbbbbbbbbbbbbbbbbbbbbbb" := by decide
  have hcs : normalizePatchId "cccccccccccccccccccccccccccccccccccccccc" =
      .ok "cccccccccccccccccccccccccccccccccccccccc" := by decide
  -- keep the continuations as binds, so that each step of the run is one rewrite
  simp [-bind_pure_comp, -bind_map_left, resolvePrerequisites, resolveTarget, resolveMetadata,
    resolveSeries, resolveDependencies, loadSeries, obtainSeries, ask, answer, askRemote,
    liftExcept, withContext, Except.mapError, countRemoteOperation, appendPatch, cachePatch,
    maxPrerequisiteDepth, maxPrerequisiteSeries, maxPrerequisitePatchIds, maxLoreOperations,
    ResolverState.new, chainWorld, chainPatches, List.lookup_cons, parse_chain, hbased, hnone, ha,
    hb, hc, hbs, hcs]

theorem resolvePrerequisites_order_chain : ∃ s' : ResolverState ℕ,
    Resolution chainWorld ⟨1, some "a@x", .messageIds ["b@x"]⟩ (chainPatches.map (·.gitPatchId))
      s'.known s'.resolvedSeries :=
  resolvePrerequisites_chain.imp fun _ h => resolvePrerequisites_order parse_chain h

theorem resolvePrerequisites_acyclic_chain : ∃ s' : ResolverState ℕ,
    ¬Relation.TransGen (DependsOn s'.known) "b@x" "b@x" ∧
      (∀ t ∈ some "a@x", "b@x" ≠ cleanMessageId t) ∧
      ∃ series, s'.known "b@x" = some series ∧ series.localPatchsetId ≠ some 1 :=
  resolvePrerequisites_chain.imp fun _ h =>
    resolvePrerequisites_acyclic parse_chain h ⟨"b@x", List.mem_singleton_self _, .refl⟩

end Sashiko
