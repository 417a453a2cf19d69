import Sashiko.Review.Coverage
import Sashiko.Review.Reduce

/-! What a rewrite of an item keeps of the ids in it. -/

namespace Sashiko

open Json

theorem Lists.congr {keys : List String} {a b : Json} (h : ChangesOnly keys a b) {key id : String}
    (hkey : key ∉ keys) (hlists : Lists key id a) : Lists key id b := by
  unfold Lists at *
  rwa [h.getArray hkey]

theorem lists_insert_strings {item : Json} (hobj : item.isObject = true) {id : String}
    {ids : List String} (hid : id ∈ ids) (key : String) :
    Lists key id (item.insert key (Json.strings ids)) := by
  unfold Lists
  rw [getArray, get?_insert_self hobj]
  exact List.mem_map.mpr ⟨id, hid, rfl⟩

theorem isObject_of_mem_extractIdList {item : Json} {key id : String}
    (h : id ∈ extractIdList item key) : item.isObject = true := by
  unfold extractIdList at h
  split at h
  · rename_i items harr
    obtain ⟨v, hv, -⟩ := Option.bind_eq_some_iff.mp harr
    exact isObject_of_get? hv
  · cases h

theorem trimmed_of_mem_extractIdList {item : Json} {key id : String}
    (h : id ∈ extractIdList item key) : id ≠ "" := by
  unfold extractIdList at h
  split at h
  · exact of_decide_eq_true (List.mem_filter.mp h).2
  · cases h

theorem extractIdList_congr {keys : List String} {a b : Json} (h : ChangesOnly keys a b)
    {key : String} (hkey : key ∉ keys) : extractIdList b key = extractIdList a key := by
  unfold extractIdList
  rw [h.getArray hkey]

/-! ### Expansion -/

def expansionKeys : List String := ["source_ids", "cluster_ids"]

theorem expandItemSourceIds_changesOnly (shardClusters : List Json) (item : Json) :
    ChangesOnly expansionKeys item (expandItemSourceIds shardClusters item) := by
  unfold expandItemSourceIds
  dsimp only
  split_ifs
  · exact .refl _ _
  · exact (ChangesOnly.refl _ _).insert (by decide) _
  · exact (ChangesOnly.refl _ _).insert (by decide) _
  · exact ((ChangesOnly.refl _ _).insert (by decide) _).insert (by decide) _

theorem lists_expandItemSourceIds {shardClusters : List Json} {item : Json} {sid id : String}
    (hraw : RawId id) (hsid : sid ∈ extractIdList item "source_ids")
    (hid : id ∈ expandedIds shardClusters (extractIdList item "source_ids") sid) :
    Lists "source_ids" id (expandItemSourceIds shardClusters item) := by
  have hobj := isObject_of_mem_extractIdList hsid
  have hmem : id ∈ ((extractIdList item "source_ids").flatMap
      (expandedIds shardClusters (extractIdList item "source_ids"))).foldl pushUniqueString [] :=
    mem_pushAll hraw.trimmed hraw.nonempty (List.mem_flatMap.mpr ⟨sid, hsid, hid⟩) []
  have hlists := lists_insert_strings hobj hmem "source_ids"
  unfold expandItemSourceIds
  dsimp only
  rw [if_neg (List.ne_nil_of_mem hmem)]
  split_ifs
  · exact hlists
  · exact hlists.congr ((ChangesOnly.refl ["cluster_ids"] _).insert (by decide) _) (by decide)

theorem lists_materializeDismissal {cid title : Option String} {items : List Json} {item : Json}
    {id : String} (hraw : RawId id) (hitem : item ∈ items) (hid : item.getStr "id" = some id) :
    ∃ vd, materializeDismissalFromItems cid title items = some vd ∧ Lists "source_ids" id vd := by
  have hmem : id ∈ (items.filterMap (·.getStr "id")).foldl pushUniqueString [] :=
    mem_pushAll hraw.trimmed hraw.nonempty (List.mem_filterMap.mpr ⟨item, hitem, hid⟩) []
  have hlists : Lists "source_ids" id (materializeDismissalFromItems.dismissal title items) :=
    List.mem_map.mpr ⟨id, hmem, rfl⟩
  unfold materializeDismissalFromItems
  rw [if_neg (List.ne_nil_of_mem hitem)]
  refine ⟨_, rfl, ?_⟩
  split
  · exact hlists.congr ((ChangesOnly.refl ["cluster_ids"] _).insert (by decide) _) (by decide)
  · exact hlists

/-! ### Provenance -/

def provenanceKeys : List String :=
  ["type", "source_ids", "raw_source_ids", "prior_source_ids", "prior_discussion_context",
    "authority_evidence", "stage", "stages", "prompts", "prior_attribution"]

theorem insertStrings_changesOnly {keys : List String} {a b : Json} (h : ChangesOnly keys a b)
    {key : String} (hkey : key ∈ keys) (values : List String) :
    ChangesOnly keys a (insertStrings b key values) := by
  unfold insertStrings
  split_ifs
  · exact h
  · exact h.insert hkey _

theorem insertValues_changesOnly {keys : List String} {a b : Json} (h : ChangesOnly keys a b)
    {key : String} (hkey : key ∈ keys) (values : List Json) :
    ChangesOnly keys a (insertValues b key values) := by
  unfold insertValues
  split_ifs
  · exact h
  · exact h.insert hkey _

theorem insertType_changesOnly {keys : List String} {a b : Json} (h : ChangesOnly keys a b)
    (hkey : "type" ∈ keys) (t : Option String) : ChangesOnly keys a (insertType b t) := by
  unfold insertType
  split
  · split_ifs
    · exact h
    · exact h.insert hkey _
  · exact h

theorem insertStages_changesOnly {keys : List String} {a b : Json} (h : ChangesOnly keys a b)
    (hstage : "stage" ∈ keys) (hstages : "stages" ∈ keys) (stages : List String) :
    ChangesOnly keys a (insertStages b stages) := by
  unfold insertStages
  split
  · exact h
  · exact (h.insert hstage _).insert hstages _

theorem lists_insertStrings {item : Json} (hobj : item.isObject = true) {id : String}
    {ids : List String} (hid : id ∈ ids) (key : String) :
    Lists key id (insertStrings item key ids) := by
  unfold insertStrings
  rw [if_neg (List.ne_nil_of_mem hid)]
  exact lists_insert_strings hobj hid key

def contextKeys : List String :=
  ["prior_source_ids", "prior_discussion_context", "authority_evidence", "stage", "stages",
    "prompts"]

theorem stampContext_changesOnly (p : ItemProvenance) (item : Json) :
    ChangesOnly contextKeys item (p.stampContext item) :=
  (insertStages_changesOnly
    (insertValues_changesOnly
      (insertValues_changesOnly (insertStrings_changesOnly (.refl _ item) (by decide) _)
        (by decide) _) (by decide) _)
    (by decide) (by decide) _).insert (by decide) _

theorem stampIds_changesOnly (p : ItemProvenance) (item : Json) :
    ChangesOnly ["type", "source_ids", "raw_source_ids"] item (p.stampIds item) :=
  insertStrings_changesOnly
    (insertStrings_changesOnly (insertType_changesOnly (.refl _ item) (by decide) _) (by decide) _)
    (by decide) _

theorem stamp_changesOnly (p : ItemProvenance) (item : Json) :
    ChangesOnly provenanceKeys item (p.stamp item) :=
  ((stampIds_changesOnly p item).mono (by decide)).trans
    ((stampContext_changesOnly p _).mono (by decide))

theorem lists_stamp_source {p : ItemProvenance} {item : Json} (hobj : item.isObject = true)
    {id : String} (hid : id ∈ p.sourceIds) : Lists "source_ids" id (p.stamp item) := by
  have hobj' : (insertType item p.inheritedType).isObject = true :=
    (insertType_changesOnly (.refl ["type"] item) (by decide) _).isObject.trans hobj
  have hids : Lists "source_ids" id (p.stampIds item) :=
    (lists_insertStrings hobj' hid "source_ids").congr
      (insertStrings_changesOnly (.refl ["raw_source_ids"] _) (by decide) _) (by decide)
  exact hids.congr (stampContext_changesOnly p _) (by decide)

theorem lists_stamp_raw {p : ItemProvenance} {item : Json} (hobj : item.isObject = true)
    {id : String} (hid : id ∈ p.rawSourceIds) : Lists "raw_source_ids" id (p.stamp item) := by
  have hobj' : (insertStrings (insertType item p.inheritedType) "source_ids"
      p.sourceIds).isObject = true :=
    (insertStrings_changesOnly (insertType_changesOnly (.refl ["type", "source_ids"] item)
      (by decide) _) (by decide) _).isObject.trans hobj
  exact (lists_insertStrings hobj' hid "raw_source_ids").congr (stampContext_changesOnly p _)
    (by decide)

theorem stripProvenance_changesOnly (item : Json) :
    ChangesOnly ["prior_attribution", "prior_source_ids", "prior_discussion_context",
      "authority_evidence", "raw_source_ids"] item (stripProvenance item) :=
  (((((ChangesOnly.refl _ item).remove (by decide)).remove (by decide)).remove
    (by decide)).remove (by decide)).remove (by decide)

section Enrich

variable {stageLookup : String → Option AnalysisStage} {item : Json} {primary secondary : List Json}
  {guides : List String}

theorem enrichItemProvenance_changesOnly (stageLookup : String → Option AnalysisStage) (item : Json)
    (primary secondary : List Json) (guides : List String) :
    ChangesOnly provenanceKeys item
      (enrichItemProvenance stageLookup item primary secondary guides) := by
  unfold enrichItemProvenance
  split_ifs
  · exact ((stripProvenance_changesOnly item).mono (by decide)).trans (stamp_changesOnly _ _)
  · exact .refl _ _

/-- An item keeps every id it names. -/
theorem lists_enrich_source {id : String} (hid : id ∈ extractIdList item "source_ids") :
    Lists "source_ids" id (enrichItemProvenance stageLookup item primary secondary guides) := by
  have hobj := isObject_of_mem_extractIdList hid
  unfold enrichItemProvenance
  rw [if_pos hobj]
  refine lists_stamp_source ((stripProvenance_changesOnly item).isObject.trans hobj) ?_
  refine mem_foldl_pushUniqueString _ _ ?_
  rwa [extractIdList_congr (stripProvenance_changesOnly item) (by decide)]

/-- An item takes over the ids of every source that it names. -/
theorem lists_enrich_raw {src : Json} {sid id : String} (hraw : RawId id)
    (hsrc : src ∈ primary) (hsrcId : src.getStr "id" = some sid)
    (hsid : sid ∈ extractIdList item "source_ids") (hlists : Lists "source_ids" id src) :
    Lists "raw_source_ids" id
      (enrichItemProvenance stageLookup item primary secondary guides) := by
  have hobj := isObject_of_mem_extractIdList hsid
  have hnames : namesSource (stripProvenance item) src = true := by
    unfold namesSource
    rw [hsrcId, extractIdList_congr (stripProvenance_changesOnly item) (by decide)]
    simpa using hsid
  have hnamed : src ∈ (primary ++ secondary).filter (namesSource (stripProvenance item)) :=
    List.mem_filter.mpr ⟨List.mem_append_left _ hsrc, hnames⟩
  have hmatched : src ∈ matchedSources stageLookup (stripProvenance item) primary secondary := by
    unfold matchedSources
    rwa [if_pos (List.ne_nil_of_mem hnamed)]
  unfold enrichItemProvenance
  rw [if_pos hobj]
  refine lists_stamp_raw ((stripProvenance_changesOnly item).isObject.trans hobj) ?_
  refine mem_pushAll hraw.trimmed hraw.nonempty (List.mem_flatMap.mpr ⟨src, hmatched, ?_⟩) []
  exact List.mem_append_right _ (mem_extractIdList hraw.trimmed hraw.nonempty hlists)

theorem enrichFinding_changesOnly (stageLookup : String → Option AnalysisStage)
    (primary : List Json) (guides : List String) (item : Json) :
    ChangesOnly provenanceKeys item (enrichFinding stageLookup primary guides item) :=
  ((enrichItemProvenance_changesOnly stageLookup item primary [] guides).remove
    (by decide)).remove (by decide)

theorem removedContext_changesOnly (item : Json) :
    ChangesOnly ["prior_discussion_context", "authority_evidence"] item
      ((item.remove "prior_discussion_context").remove "authority_evidence") :=
  ((ChangesOnly.refl _ item).remove (by decide)).remove (by decide)

theorem lists_enrichFinding {key id : String}
    (hkey : key ∉ ["prior_discussion_context", "authority_evidence"])
    (h : Lists key id (enrichItemProvenance stageLookup item primary [] guides)) :
    Lists key id (enrichFinding stageLookup primary guides item) :=
  h.congr (removedContext_changesOnly _) hkey

theorem lists_enrichDismissed {key id : String} (hkey : key ∉ ["prior_discussion_context"])
    (h : Lists key id (enrichItemProvenance stageLookup item primary [] guides)) :
    Lists key id (enrichDismissed stageLookup primary guides item) :=
  h.congr ((ChangesOnly.refl ["prior_discussion_context"] _).remove (by decide)) hkey

end Enrich

/-! ### Stamps -/

theorem stampFinding_changesOnly (idPrefix stageKey stageName : String) (base idx : ℕ)
    (item : Json) :
    ChangesOnly ["id", "stage_item_id", "origin", stageKey] item
      (stampFinding idPrefix stageKey stageName base idx item) :=
  ((((ChangesOnly.refl _ item).insert (by simp) _).insert (by simp) _).insert (by simp) _).insert
    (by simp) _

theorem stampItem_changesOnly (idPrefix stageKey stageName : String) (base idx : ℕ)
    (item : Json) :
    ChangesOnly ["id", "origin", stageKey] item
      (stampItem idPrefix stageKey stageName base idx item) :=
  (((ChangesOnly.refl _ item).insert (by simp) _).insert (by simp) _).insert (by simp) _

theorem getStr_stampItem {idPrefix stageKey stageName : String} (hkey : stageKey ≠ "id")
    (base idx : ℕ) {item : Json} (hobj : item.isObject = true) :
    (stampItem idPrefix stageKey stageName base idx item).getStr "id" =
      some (idPrefix ++ toString (base + idx + 1)) := by
  unfold stampItem
  rw [getStr, get?_insert_ne hkey.symm, get?_insert_ne (by decide), get?_insert_self hobj]
  rfl

/-! ### Stages of inconclusive concerns -/

theorem assignStage_eq_map (stage iid : String) (items : List Json) :
    ∃ f : Json → Json, assignStage stage iid items = items.map f ∧
      ∀ item, ChangesOnly ["assigned_stage"] item (f item) := by
  refine ⟨_, rfl, fun item => ?_⟩
  split_ifs
  · exact (ChangesOnly.refl _ item).insert (by decide) _
  · exact .refl _ _

/-- A run of steps that each rewrite the items one by one rewrites them one by one. -/
theorem foldl_eq_map {ι : Type} {step : List Json → ι → List Json} {keys : List String}
    (hstep : ∀ items x, ∃ f : Json → Json, step items x = items.map f ∧
      ∀ item, ChangesOnly keys item (f item)) (xs : List ι) :
    ∀ items, ∃ f : Json → Json, xs.foldl step items = items.map f ∧
      ∀ item, ChangesOnly keys item (f item) := by
  induction xs with
  | nil => exact fun items => ⟨id, (List.map_id items).symm, fun item => .refl _ item⟩
  | cons x xs ih =>
    intro items
    obtain ⟨f, hf, hfc⟩ := hstep items x
    obtain ⟨g, hg, hgc⟩ := ih (step items x)
    refine ⟨g ∘ f, ?_, fun item => (hfc item).trans (hgc (f item))⟩
    rw [List.foldl_cons, hg, hf, List.map_map]

theorem assignInconclusiveConcernsStages_eq_map (items : List Json) :
    ∃ f : Json → Json, assignInconclusiveConcernsStages items = items.map f ∧
      ∀ item, ChangesOnly ["assigned_stage"] item (f item) := by
  have hstep : ∀ items planned, ∃ f : Json → Json, assignBatchStage items planned = items.map f ∧
      ∀ item, ChangesOnly ["assigned_stage"] item (f item) := fun items planned =>
    foldl_eq_map (fun items iid => assignStage_eq_map planned.2 iid items) _ items
  exact foldl_eq_map hstep _ items

end Sashiko
