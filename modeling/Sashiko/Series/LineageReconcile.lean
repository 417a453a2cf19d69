import Sashiko.Lib.SortedSet
import Sashiko.Lib.Table
import Sashiko.Series.PatchLineage

/-! The links of a series' patches to those of its previous version, brought up to date in the
database: the links just found, the older ones that still hold, and nothing else. -/

namespace Sashiko

/-- A row of `patches` with the subject of its message. -/
structure SeriesPatchRow where
  id : ℤ
  patchsetId : ℤ
  partIndex : Option ℤ
  gitPatchId : Option String
  subject : Option Text
  previousPatchId : Option ℤ
  previousPatchStatus : Option String
  deriving DecidableEq, Repr

structure SeriesRow where
  id : ℤ
  totalParts : Option ℕ
  versionLinkSignal : Option String
  deriving DecidableEq, Repr

structure LineageStore where
  patchsets : Table SeriesRow.id
  patches : Table SeriesPatchRow.id

namespace SeriesPatchRow

variable (tables : CharTables) (r : SeriesPatchRow)

def asCurrent : LineagePatch where
  id := r.id
  partIndex := r.partIndex.getD 0
  gitPatchId := r.gitPatchId.filter (· ≠ "")
  cleanSubject := cleanSubject tables (r.subject.getD [])
  existingPrevId := r.previousPatchId
  existingPrevStatus := r.previousPatchStatus

def asPrevious : LineagePatch :=
  { r.asCurrent tables with existingPrevId := none, existingPrevStatus := none }

def withPrevious (prevId : Option ℤ) (status : Option String) : SeriesPatchRow :=
  { r with previousPatchId := prevId, previousPatchStatus := status }

end SeriesPatchRow

/-- `LIMIT 256` -/
def maxLineagePatches : ℕ := 256

/-- The patches of a series that are matched: numbered from one, in order, as many as are read. -/
def LineageStore.loadSeries (s : LineageStore) (patchsetId : ℤ) : List SeriesPatchRow :=
  (sortByKey (fun r : SeriesPatchRow => toLex (r.partIndex.getD 0, r.id))
    (s.patches.rows.filter fun r => r.patchsetId = patchsetId ∧ 1 ≤ r.partIndex.getD 0)).take
      maxLineagePatches

/-- A single patch on either side, linked by a signal of high confidence. -/
def LineageStore.singletonFallback (s : LineageStore) (prevPatchsetId currPatchsetId : ℤ)
    (prevPatches currPatches : List LineagePatch) : List (ℤ × ℤ × String) :=
  match prevPatches, currPatches, s.patchsets.lookup currPatchsetId with
  | [prev], [curr], some row =>
    if ((s.patchsets.lookup prevPatchsetId).bind (·.totalParts)).getD 1 = 1 ∧
        row.totalParts.getD 1 = 1 ∧
        row.versionLinkSignal ∈ [some "forge_mr", some "change_id", some "message_ref"] then
      [(curr.id, prev.id, "modified")]
    else []
  | _, _, _ => []

/-- `assignments`, the fallback included. -/
def LineageStore.linksFound (lower : FoldingLowercase) (s : LineageStore)
    (prevPatchsetId currPatchsetId : ℤ) (prevPatches currPatches : List LineagePatch) :
    List (ℤ × ℤ × String) :=
  if (matchPatchLineage lower prevPatches currPatches).assignments.isEmpty then
    s.singletonFallback prevPatchsetId currPatchsetId prevPatches currPatches
  else (matchPatchLineage lower prevPatches currPatches).assignments

/-- What the loop over the current patches carries. -/
structure LinkUpdate where
  matchedPrevIds : List ℤ
  patches : Table SeriesPatchRow.id

namespace LinkUpdate

/-- The `UPDATE`, left out where it would change nothing. -/
def write (w : LinkUpdate) (curr : LineagePatch) (prevId : Option ℤ) (status : Option String) :
    LinkUpdate :=
  if prevId ≠ curr.existingPrevId ∨ status ≠ curr.existingPrevStatus then
    { w with patches := w.patches.update (·.id = curr.id) (·.withPrevious prevId status) }
  else w

def next (assignments : List (ℤ × ℤ × String)) (prevPatches : List LineagePatch) (w : LinkUpdate)
    (curr : LineagePatch) : LinkUpdate :=
  match assignments.lookup curr.id, curr.existingPrevId with
  | some (prevId, status), _ => w.write curr (some prevId) (some status)
  | none, some existingId =>
    if existingId ∉ w.matchedPrevIds ∧ prevPatches.any (·.id = existingId) then
      { w with matchedPrevIds := w.matchedPrevIds ++ [existingId] }
    else w.write curr none none
  | none, none => w.write curr none none

end LinkUpdate

def reconcilePatchLineage (lower : FoldingLowercase) (tables : CharTables) (s : LineageStore)
    (prevPatchsetId currPatchsetId : ℤ) : LineageStore :=
  if prevPatchsetId = currPatchsetId then s
  else
    let prevPatches := (s.loadSeries prevPatchsetId).map (·.asPrevious tables)
    let currPatches := (s.loadSeries currPatchsetId).map (·.asCurrent tables)
    if currPatches.isEmpty then s
    else
      let assignments := s.linksFound lower prevPatchsetId currPatchsetId prevPatches currPatches
      { s with patches :=
          (currPatches.foldl (LinkUpdate.next assignments prevPatches)
            ⟨(matchPatchLineage lower prevPatches currPatches).matchedPrevIds,
              s.patches⟩).patches }

/-! ### One current patch -/

namespace LinkUpdate

variable {w : LinkUpdate} {assignments : List (ℤ × ℤ × String)} {prevPatches : List LineagePatch}
variable {curr : LineagePatch}

/-- The patch that a patch is linked to. -/
def previousOf (w : LinkUpdate) (id : ℤ) : Option ℤ :=
  (w.patches.lookup id).bind (·.previousPatchId)

/-- The patch is as it was read. -/
def AsRead (w : LinkUpdate) (curr : LineagePatch) : Prop :=
  ∃ r, w.patches.lookup curr.id = some r ∧ r.previousPatchId = curr.existingPrevId

theorem write_lookup (w : LinkUpdate) (curr : LineagePatch) (prevId : Option ℤ)
    (status : Option String) {id : ℤ} (h : id ≠ curr.id) :
    (w.write curr prevId status).patches.lookup id = w.patches.lookup id := by
  unfold write
  split_ifs
  · refine (@Table.lookup_update _ _ _ _ w.patches (·.id = curr.id) (·.withPrevious prevId status)
      (fun _ => rfl) id).trans ?_
    cases hrow : w.patches.lookup id with
    | none => rfl
    | some r =>
      have hid : r.id ≠ curr.id := fun heq => h ((Table.lookup_eq_some.mp hrow).2 ▸ heq)
      rw [Option.map_some, Table.updateRow, if_neg (by simpa using hid)]
  · rfl

theorem write_previousOf (hread : w.AsRead curr) (prevId : Option ℤ) (status : Option String) :
    (w.write curr prevId status).previousOf curr.id = prevId := by
  obtain ⟨r, hrow, hprev⟩ := hread
  unfold write
  split_ifs with hchange
  · have hid : r.id = curr.id := (Table.lookup_eq_some.mp hrow).2
    have hupdate := @Table.lookup_update _ _ _ _ w.patches (·.id = curr.id)
      (·.withPrevious prevId status) (fun _ => rfl) curr.id
    rw [hrow, Option.map_some, Table.updateRow, if_pos (by simpa using hid)] at hupdate
    exact congrArg (Option.bind · (·.previousPatchId)) hupdate
  · rw [not_or, not_not] at hchange
    rw [previousOf, hrow, Option.bind_some, hprev, hchange.1]

theorem write_matchedPrevIds (w : LinkUpdate) (curr : LineagePatch) (prevId : Option ℤ)
    (status : Option String) : (w.write curr prevId status).matchedPrevIds = w.matchedPrevIds := by
  unfold write
  split_ifs <;> rfl

/-- Where the link comes from that a patch ends up with. -/
inductive Outcome (assignments : List (ℤ × ℤ × String)) (prevPatches : List LineagePatch)
    (w w' : LinkUpdate) (curr : LineagePatch) : Prop
  | assigned {prevId : ℤ} {status : String} (hmem : (curr.id, prevId, status) ∈ assignments)
    (hlink : w'.previousOf curr.id = some prevId) (hmatched : w'.matchedPrevIds = w.matchedPrevIds)
  | kept {existingId : ℤ} (hunassigned : curr.id ∉ assignments.map (·.1))
    (hlink : w'.previousOf curr.id = some existingId) (hfree : existingId ∉ w.matchedPrevIds)
    (hprev : existingId ∈ prevPatches.map LineagePatch.id)
    (hmatched : w'.matchedPrevIds = w.matchedPrevIds ++ [existingId])
  | cleared (hlink : w'.previousOf curr.id = none) (hmatched : w'.matchedPrevIds = w.matchedPrevIds)

theorem next_spec (hread : w.AsRead curr) :
    Outcome assignments prevPatches w (w.next assignments prevPatches curr) curr ∧
      ∀ id ≠ curr.id, (w.next assignments prevPatches curr).patches.lookup id =
        w.patches.lookup id := by
  unfold next
  cases hassigned : assignments.lookup curr.id with
  | some link =>
    obtain ⟨prevId, status⟩ := link
    obtain ⟨above, below, hsplit, -⟩ := List.lookup_eq_some_iff.mp hassigned
    have hmem : (curr.id, prevId, status) ∈ assignments :=
      hsplit ▸ List.mem_append_right above List.mem_cons_self
    exact ⟨.assigned hmem (write_previousOf hread _ _)
      (write_matchedPrevIds _ _ _ _), fun id hid => write_lookup _ _ _ _ hid⟩
  | none =>
    have hcleared : Outcome assignments prevPatches w (w.write curr none none) curr ∧
        ∀ id ≠ curr.id, (w.write curr none none).patches.lookup id = w.patches.lookup id :=
      ⟨.cleared (write_previousOf hread _ _) (write_matchedPrevIds _ _ _ _),
        fun id hid => write_lookup _ _ _ _ hid⟩
    cases hexisting : curr.existingPrevId with
    | none => exact hcleared
    | some existingId =>
      dsimp only
      split_ifs with hkeep
      · obtain ⟨r, hrow, hprev⟩ := hread
        obtain ⟨p, hp, hpid⟩ := List.any_eq_true.mp hkeep.2
        refine ⟨.kept ?_ ?_ hkeep.1 ?_ rfl, fun _ _ => rfl⟩
        · intro hmem
          obtain ⟨l, hl, hid⟩ := List.mem_map.mp hmem
          exact absurd hassigned (by
            rw [List.lookup_eq_none_iff, not_forall]
            exact ⟨l, by simpa using ⟨hl, hid.symm⟩⟩)
        · rw [previousOf, hrow, Option.bind_some, hprev, hexisting]
        · exact List.mem_map.mpr ⟨p, hp, by simpa using hpid⟩
      · exact hcleared

/-! ### The loop -/

/-- What holds of the patches done so far, `orig` being the table as it was read. -/
structure Settled (orig : Table SeriesPatchRow.id) (assignments : List (ℤ × ℤ × String))
    (prevPatches done : List LineagePatch) (w : LinkUpdate) : Prop where
  pending : ∀ id ∉ done.map LineagePatch.id, w.patches.lookup id = orig.lookup id
  origin : ∀ c ∈ done, ∀ x, w.previousOf c.id = some x →
    (∃ status, (c.id, x, status) ∈ assignments) ∨
      (x ∈ w.matchedPrevIds ∧ x ∉ assignments.map (·.2.1) ∧
        x ∈ prevPatches.map LineagePatch.id)
  injective : ∀ c ∈ done, ∀ c' ∈ done, ∀ x, w.previousOf c.id = some x →
    w.previousOf c'.id = some x → c.id = c'.id

/-- The links found are between one patch and one other, and those that an unlinked patch might
keep are free of them. -/
structure Assignable (currPatches : List LineagePatch) (assignments : List (ℤ × ℤ × String))
    (matchedPrevIds : List ℤ) : Prop where
  injective : (assignments.map (·.2.1)).Nodup
  matched : ∀ c ∈ currPatches, c.id ∉ assignments.map (·.1) →
    ∀ x ∈ assignments.map (·.2.1), x ∈ matchedPrevIds

section Run
variable {orig : Table SeriesPatchRow.id} {done : List LineagePatch} {matchedPrevIds : List ℤ}
variable {currPatches : List LineagePatch}

theorem Settled.next (h : Settled orig assignments prevPatches done w)
    (hassign : Assignable currPatches assignments matchedPrevIds)
    (hmatched : matchedPrevIds ⊆ w.matchedPrevIds) (hcurr : curr ∈ currPatches)
    (hnew : curr.id ∉ done.map LineagePatch.id) (hread : w.AsRead curr) :
    Settled orig assignments prevPatches (done ++ [curr]) (w.next assignments prevPatches curr) ∧
      w.matchedPrevIds ⊆ (w.next assignments prevPatches curr).matchedPrevIds := by
  obtain ⟨houtcome, hothers⟩ := @next_spec w assignments prevPatches curr hread
  generalize w.next assignments prevPatches curr = w' at houtcome hothers ⊢
  have hold : ∀ c ∈ done, w'.previousOf c.id = w.previousOf c.id := fun c hc => by
    have hne : c.id ≠ curr.id := fun heq => hnew (List.mem_map.mpr ⟨c, hc, heq⟩)
    rw [previousOf, previousOf, hothers c.id hne]
  have hgrows : w.matchedPrevIds ⊆ w'.matchedPrevIds := by
    cases houtcome with
    | assigned _ _ hsame => rw [hsame]; exact List.Subset.refl _
    | kept _ _ _ _ hmore => rw [hmore]; exact List.subset_append_left _ _
    | cleared _ hsame => rw [hsame]; exact List.Subset.refl _
  -- the link of the patch itself, and that no patch before it has it
  have horigin : ∀ x, w'.previousOf curr.id = some x →
      ((∃ status, (curr.id, x, status) ∈ assignments) ∨
        (x ∈ w'.matchedPrevIds ∧ x ∉ assignments.map (·.2.1) ∧
          x ∈ prevPatches.map LineagePatch.id)) ∧
        ∀ c ∈ done, w.previousOf c.id ≠ some x := by
    intro x hx
    cases houtcome with
    | cleared hlink _ =>
      rw [hlink] at hx
      cases hx
    | @assigned prevId status hmem hlink _ =>
      obtain rfl : prevId = x := Option.some.inj (hlink.symm.trans hx)
      refine ⟨.inl ⟨status, hmem⟩, fun c hc hcx => ?_⟩
      rcases h.origin c hc _ hcx with ⟨status', hmem'⟩ | ⟨-, hfree, -⟩
      · have heq := List.inj_on_of_nodup_map hassign.injective hmem hmem' rfl
        exact hnew (List.mem_map.mpr ⟨c, hc, (congrArg Prod.fst heq).symm⟩)
      · exact hfree (List.mem_map.mpr ⟨_, hmem, rfl⟩)
    | @kept existingId hunassigned hlink hfree hprev hmore =>
      obtain rfl : existingId = x := Option.some.inj (hlink.symm.trans hx)
      have hnot : existingId ∉ assignments.map (·.2.1) := fun hmem =>
        hfree (hmatched (hassign.matched curr hcurr hunassigned _ hmem))
      refine ⟨.inr ⟨by rw [hmore]; exact List.mem_append_right _ List.mem_cons_self, hnot, hprev⟩,
        fun c hc hcx => ?_⟩
      rcases h.origin c hc _ hcx with ⟨status', hmem'⟩ | ⟨hin, -⟩
      · exact hnot (List.mem_map.mpr ⟨_, hmem', rfl⟩)
      · exact hfree hin
  refine ⟨⟨fun id hid => ?_, fun c hc x hx => ?_, fun c hc c' hc' x hx hx' => ?_⟩, hgrows⟩
  · rw [List.map_append, List.mem_append, not_or] at hid
    rw [hothers id (by simpa using hid.2), h.pending id hid.1]
  · rcases List.mem_append.mp hc with hc | hc
    · rw [hold c hc] at hx
      exact (h.origin c hc x hx).imp_right fun ⟨hin, hrest⟩ => ⟨hgrows hin, hrest⟩
    · rw [List.mem_singleton.mp hc] at hx ⊢
      exact (horigin x hx).1
  · rcases List.mem_append.mp hc with hc | hc <;> rcases List.mem_append.mp hc' with hc' | hc'
    · rw [hold c hc] at hx
      rw [hold c' hc'] at hx'
      exact h.injective c hc c' hc' x hx hx'
    · rw [List.mem_singleton.mp hc'] at hx'
      rw [hold c hc] at hx
      exact absurd hx ((horigin x hx').2 c hc)
    · rw [List.mem_singleton.mp hc] at hx
      rw [hold c' hc'] at hx'
      exact absurd hx' ((horigin x hx).2 c' hc')
    · rw [List.mem_singleton.mp hc, List.mem_singleton.mp hc']

/-- The loop over the current patches, from the table as it was read. -/
theorem settled_run (hassign : Assignable currPatches assignments matchedPrevIds)
    (hcurr : (currPatches.map LineagePatch.id).Nodup)
    (hread : ∀ c ∈ currPatches, AsRead ⟨matchedPrevIds, orig⟩ c) :
    Settled orig assignments prevPatches currPatches
      (currPatches.foldl (LinkUpdate.next assignments prevPatches) ⟨matchedPrevIds, orig⟩) := by
  have hrun : ∀ rest done : List LineagePatch, done ++ rest = currPatches → ∀ w : LinkUpdate,
      Settled orig assignments prevPatches done w → matchedPrevIds ⊆ w.matchedPrevIds →
        Settled orig assignments prevPatches currPatches
          (rest.foldl (LinkUpdate.next assignments prevPatches) w) := by
    intro rest
    induction rest with
    | nil =>
      intro done hdone w h _
      rw [List.append_nil] at hdone
      rw [← hdone]
      exact h
    | cons c rest ih =>
      intro done hdone w h hmatched
      have hmem : c ∈ currPatches := hdone ▸ List.mem_append_right done List.mem_cons_self
      have hnew : c.id ∉ done.map LineagePatch.id := by
        rw [← hdone, List.map_append, List.nodup_append] at hcurr
        exact fun hin => hcurr.2.2 c.id hin c.id List.mem_cons_self rfl
      have hasRead : w.AsRead c := by
        obtain ⟨r, hrow, hprev⟩ := hread c hmem
        exact ⟨r, (h.pending c.id hnew).trans hrow, hprev⟩
      obtain ⟨hsettled, hgrows⟩ := h.next hassign hmatched hmem hnew hasRead
      exact ih (done ++ [c]) (by rw [← hdone]; simp) _ hsettled
        (List.Subset.trans hmatched hgrows)
  refine hrun currPatches [] rfl _ ⟨fun _ _ => rfl, ?_, ?_⟩ (List.Subset.refl _)
  · exact fun c hc => absurd hc List.not_mem_nil
  · exact fun c hc => absurd hc List.not_mem_nil

end Run

end LinkUpdate

/-! ### The series brought up to date -/

section Reconcile
variable {lower : FoldingLowercase} {tables : CharTables} {s : LineageStore}
variable {prevPatchsetId currPatchsetId : ℤ}

def LineageStore.previousOf (s : LineageStore) (id : ℤ) : Option ℤ :=
  (s.patches.lookup id).bind (·.previousPatchId)

/-- What holds once the patches of a series are brought up to date, of those that are read. -/
structure LineageReconciled (s s' : LineageStore) (prevPatchsetId currPatchsetId : ℤ) : Prop where
  names : ∀ r ∈ s.loadSeries currPatchsetId, ∀ x, s'.previousOf r.id = some x →
    ∃ p ∈ s.patches.rows, p.id = x ∧ p.patchsetId = prevPatchsetId
  injective : ∀ r ∈ s.loadSeries currPatchsetId, ∀ r' ∈ s.loadSeries currPatchsetId, ∀ x,
    s'.previousOf r.id = some x → s'.previousOf r'.id = some x → r = r'
  others : ∀ id, (∀ r ∈ s.loadSeries currPatchsetId, r.id ≠ id) →
    s'.patches.lookup id = s.patches.lookup id

theorem mem_loadSeries {patchsetId : ℤ} {r : SeriesPatchRow} (h : r ∈ s.loadSeries patchsetId) :
    r ∈ s.patches.rows ∧ r.patchsetId = patchsetId := by
  have h := mem_sortByKey.mp (List.mem_of_mem_take h)
  rw [List.mem_filter, decide_eq_true_eq] at h
  exact ⟨h.1, h.2.1⟩

theorem nodup_loadSeries (s : LineageStore) (patchsetId : ℤ) :
    ((s.loadSeries patchsetId).map SeriesPatchRow.id).Nodup := by
  have hrows : ((s.patches.rows.filter fun r => r.patchsetId = patchsetId ∧
      1 ≤ r.partIndex.getD 0).map SeriesPatchRow.id).Nodup :=
    s.patches.nodup.sublist (List.filter_sublist.map _)
  have hperm : (sortByKey (fun r : SeriesPatchRow => toLex (r.partIndex.getD 0, r.id))
      (s.patches.rows.filter fun r => r.patchsetId = patchsetId ∧ 1 ≤ r.partIndex.getD 0)).Perm
        (s.patches.rows.filter fun r => r.patchsetId = patchsetId ∧ 1 ≤ r.partIndex.getD 0) :=
    List.mergeSort_perm _ _
  have hsorted := ((hperm.map SeriesPatchRow.id).nodup_iff).mpr hrows
  exact hsorted.sublist ((List.take_sublist _ _).map _)

theorem map_id_asCurrent (rows : List SeriesPatchRow) :
    (rows.map (·.asCurrent tables)).map LineagePatch.id = rows.map SeriesPatchRow.id := by
  rw [List.map_map]
  rfl

theorem map_id_asPrevious (rows : List SeriesPatchRow) :
    (rows.map (·.asPrevious tables)).map LineagePatch.id = rows.map SeriesPatchRow.id := by
  rw [List.map_map]
  rfl

/-- The links found, or the one of the fallback, can be assigned. -/
theorem assignable_links (prevPatches currPatches : List LineagePatch)
    (hprev : (prevPatches.map LineagePatch.id).Nodup)
    (hcurr : (currPatches.map LineagePatch.id).Nodup) :
    LinkUpdate.Assignable currPatches
        (s.linksFound lower prevPatchsetId currPatchsetId prevPatches currPatches)
        (matchPatchLineage lower prevPatches currPatches).matchedPrevIds ∧
      ∀ l ∈ s.linksFound lower prevPatchsetId currPatchsetId prevPatches currPatches,
        l.2.1 ∈ prevPatches.map LineagePatch.id := by
  have hsound := @matchPatchLineage_sound lower prevPatches currPatches hprev hcurr
  unfold LineageStore.linksFound
  split_ifs with hempty
  · unfold LineageStore.singletonFallback
    split
    · split_ifs
      · refine ⟨⟨List.nodup_singleton _, fun c hc hfree => ?_⟩, fun l hl => ?_⟩
        · rw [List.mem_singleton.mp hc] at hfree
          exact absurd List.mem_cons_self hfree
        · rw [List.mem_singleton.mp hl]
          exact List.mem_cons_self
      · exact ⟨⟨List.nodup_nil, fun _ _ _ x hx => absurd hx List.not_mem_nil⟩,
          fun l hl => absurd hl List.not_mem_nil⟩
    · exact ⟨⟨List.nodup_nil, fun _ _ _ x hx => absurd hx List.not_mem_nil⟩,
        fun l hl => absurd hl List.not_mem_nil⟩
  · refine ⟨⟨hsound.injective, fun _ _ _ x hx => hsound.taken ▸ hx⟩, fun l hl => ?_⟩
    obtain ⟨p, hp, -, -, -, hid, -⟩ := hsound.grounded l hl
    exact List.mem_map.mpr ⟨p, hp, hid.symm⟩

theorem reconcilePatchLineage_spec (lower : FoldingLowercase) (tables : CharTables)
    (s : LineageStore) (hne : prevPatchsetId ≠ currPatchsetId) :
    LineageReconciled s (reconcilePatchLineage lower tables s prevPatchsetId currPatchsetId)
      prevPatchsetId currPatchsetId := by
  unfold reconcilePatchLineage
  rw [if_neg hne]
  dsimp only
  set prevPatches := (s.loadSeries prevPatchsetId).map (·.asPrevious tables) with hprevEq
  set currPatches := (s.loadSeries currPatchsetId).map (·.asCurrent tables) with hcurrEq
  have hprev : (prevPatches.map LineagePatch.id).Nodup := by
    rw [hprevEq, map_id_asPrevious]
    exact nodup_loadSeries s prevPatchsetId
  have hcurr : (currPatches.map LineagePatch.id).Nodup := by
    rw [hcurrEq, map_id_asCurrent]
    exact nodup_loadSeries s currPatchsetId
  split_ifs with hnone
  · have hempty : s.loadSeries currPatchsetId = [] := by
      rw [List.isEmpty_iff, hcurrEq, List.map_eq_nil_iff] at hnone
      exact hnone
    refine ⟨?_, ?_, fun _ _ => rfl⟩ <;> rw [hempty] <;>
      exact fun r hr => absurd hr List.not_mem_nil
  · obtain ⟨hassign, hlinks⟩ := @assignable_links lower s prevPatchsetId currPatchsetId
      prevPatches currPatches hprev hcurr
    have hread : ∀ c ∈ currPatches, LinkUpdate.AsRead
        ⟨(matchPatchLineage lower prevPatches currPatches).matchedPrevIds, s.patches⟩ c := by
      intro c hc
      obtain ⟨r, hr, rfl⟩ := List.mem_map.mp hc
      exact ⟨r, Table.lookup_eq_some.mpr ⟨(mem_loadSeries hr).1, rfl⟩, rfl⟩
    have hsettled := @LinkUpdate.settled_run _ prevPatches s.patches _ currPatches hassign hcurr
      hread
    have hcurrent : ∀ r ∈ s.loadSeries currPatchsetId, r.asCurrent tables ∈ currPatches :=
      fun r hr => List.mem_map.mpr ⟨r, hr, rfl⟩
    refine ⟨fun r hr x hx => ?_, fun r hr r' hr' x hx hx' => ?_, fun id hid => ?_⟩
    · have hmem : x ∈ prevPatches.map LineagePatch.id := by
        rcases hsettled.origin _ (hcurrent r hr) x hx with ⟨status, hl⟩ | ⟨-, -, hmem⟩
        · exact hlinks _ hl
        · exact hmem
      rw [hprevEq, map_id_asPrevious] at hmem
      obtain ⟨p, hp, hpid⟩ := List.mem_map.mp hmem
      exact ⟨p, (mem_loadSeries hp).1, hpid, (mem_loadSeries hp).2⟩
    · have hid := hsettled.injective _ (hcurrent r hr) _ (hcurrent r' hr') x hx hx'
      exact Table.eq_of_key_eq (mem_loadSeries hr).1 (mem_loadSeries hr').1 hid
    · refine hsettled.pending id fun hmem => ?_
      rw [hcurrEq, map_id_asCurrent] at hmem
      obtain ⟨r, hr, heq⟩ := List.mem_map.mp hmem
      exact hid r hr heq

/-- Links between two series as they are found, and as they stand once the patches that are read
are brought up to date. -/
theorem patchLineage_spec (lower : FoldingLowercase) (tables : CharTables)
    (prevPatches currPatches : List LineagePatch) (s : LineageStore)
    (prevPatchsetId currPatchsetId : ℤ) (hprev : (prevPatches.map LineagePatch.id).Nodup)
    (hcurr : (currPatches.map LineagePatch.id).Nodup) (hne : prevPatchsetId ≠ currPatchsetId) :
    LineageMatched lower prevPatches currPatches
        (matchPatchLineage lower prevPatches currPatches) ∧
      LineageReconciled s (reconcilePatchLineage lower tables s prevPatchsetId currPatchsetId)
        prevPatchsetId currPatchsetId :=
  ⟨matchPatchLineage_spec hprev hcurr, reconcilePatchLineage_spec lower tables s hne⟩

end Reconcile

/-! ### A link to a third series -/

def asciiFolding : FoldingLowercase := ⟨fun cs => cs.map Char.toLower, fun _ _ h => h⟩

def staleCover : SeriesPatchRow := ⟨20, 2, some 0, none, none, some 30, some "modified"⟩

/-- Series 2 has a row of part 0, linked to a patch of series 3. -/
def staleStore : LineageStore where
  patchsets := ⟨[⟨1, some 1, none⟩, ⟨2, some 1, none⟩, ⟨3, some 1, none⟩], by decide⟩
  patches := ⟨[⟨10, 1, some 1, none, none, none, none⟩, staleCover,
    ⟨30, 3, some 1, none, none, none, none⟩], by decide⟩

/-- A patch without a subject. -/
def barePatch (id : ℤ) : LineagePatch := ⟨id, 1, some "g", [], none, none⟩

theorem patchLineage_spec_single :
    LineageMatched asciiFolding [barePatch 1] [barePatch 9]
        (matchPatchLineage asciiFolding [barePatch 1] [barePatch 9]) ∧
      LineageReconciled staleStore
        (reconcilePatchLineage asciiFolding asciiTables staleStore 1 2) 1 2 :=
  patchLineage_spec asciiFolding asciiTables _ _ staleStore 1 2 (by decide) (by decide) (by decide)

/-- A row that is not read keeps its link, to whatever series. -/
theorem stale_link_kept :
    let s := reconcilePatchLineage asciiFolding asciiTables staleStore 1 2
    staleCover ∈ s.patches.rows ∧ s.previousOf staleCover.id = some 30 ∧
      ∀ p ∈ s.patches.rows, p.id = 30 → p.patchsetId ≠ 1 := by
  have hfilter : (staleStore.patches.rows.filter fun r => r.patchsetId = 2 ∧
      1 ≤ r.partIndex.getD 0) = [] := by decide
  have hload : staleStore.loadSeries 2 = [] := by
    rw [LineageStore.loadSeries, hfilter]
    simp [sortByKey]
  have hsame : reconcilePatchLineage asciiFolding asciiTables staleStore 1 2 = staleStore := by
    rw [reconcilePatchLineage, if_neg (by decide), hload]
    rfl
  rw [hsame]
  decide

end Sashiko
