import Sashiko.Db.FoldSteps

/-! The duplicate graph is a forest in every run, and the family of a bug is its tree. -/

namespace Sashiko

open BugStore

variable {s s' : BugStore} {now : ℤ} {call : FoldCall}

/-- The duplicate graph has no cycle, and what it and the links point at exists. -/
structure BugGraph (s : BugStore) : Prop where
  acyclic : Acyclic s.duplicateOf
  canonical_mem : ∀ id c, s.duplicateOf id = some c → c ∈ s.bugIds
  link_mem : ∀ l ∈ s.bugReviews.rows, l.bugId ∈ s.bugIds

theorem duplicateOf_of_mem {b : BugRow} (hb : b ∈ s.bugs.rows) :
    s.duplicateOf b.id = b.triage.duplicateOfId := by
  unfold duplicateOf
  rw [Table.lookup_eq_some.mpr ⟨hb, rfl⟩]
  rfl

theorem mem_of_duplicateOf {id c : ℤ} (h : s.duplicateOf id = some c) : id ∈ s.bugIds := by
  obtain ⟨b, hb, _⟩ := Option.bind_eq_some_iff.mp h
  obtain ⟨hmem, rfl⟩ := Table.lookup_eq_some.mp hb
  exact bug_mem_bugIds hmem

theorem duplicateOf_eq_none {id : ℤ} (h : id ∉ s.bugIds) : s.duplicateOf id = none := by
  rcases hdup : s.duplicateOf id with _ | c
  · rfl
  · exact absurd (mem_of_duplicateOf hdup) h

/-! ### The graph over a run -/

theorem mem_migrateReviewBugsIn {e c : ℤ} {l : BugReviewRow}
    (hl : l ∈ (s.migrateReviewBugsIn e c).bugReviews.rows) :
    l.bugId ≠ e ∧ (l ∈ s.bugReviews.rows ∨ (l.bugId = c ∧ l.isNewlyDiscovered = false)) := by
  obtain ⟨hmem, hdel⟩ := Table.mem_delete.mp hl
  refine ⟨of_decide_eq_false hdel, ?_⟩
  rcases Table.mem_of_mem_insertAllOrIgnore _ hmem with hold | hnew
  · exact .inl hold
  · obtain ⟨l₀, _, rfl⟩ := List.mem_map.mp hnew
    exact .inr ⟨rfl, rfl⟩

theorem BugGraph.of_created {id : ℤ} {canonicalId : Option ℤ} (hgraph : BugGraph s)
    (h : Creates s s' id canonicalId) : BugGraph s' where
  acyclic := by
    rw [h.duplicateOf]
    refine acyclic_add hgraph.acyclic ?_ ?_
    · exact fun x hx => h.fresh (hgraph.canonical_mem x id hx)
    · exact fun hself => h.fresh (h.canonical_mem id hself)
  canonical_mem := by
    intro x c hx
    rw [h.bugIds, List.mem_append]
    rw [h.duplicateOf] at hx
    rcases parentOf_update_cases hx with ⟨_, hc⟩ | hold
    · exact .inl (h.canonical_mem c hc)
    · exact .inl (hgraph.canonical_mem x c hold)
  link_mem := by
    intro l hl
    rw [h.bugIds, List.mem_append]
    rw [h.bugReviews] at hl
    exact .inl (hgraph.link_mem l hl)

theorem BugGraph.of_folded {e c : ℤ} (hgraph : BugGraph s) (h : Folds s s' e c) :
    BugGraph s' where
  acyclic := by
    rw [h.duplicateOf]
    exact acyclic_hang hgraph.acyclic h.canonical_root h.distinct
  canonical_mem := by
    intro x y hx
    rw [h.bugIds]
    rw [h.duplicateOf] at hx
    rcases parentOf_update_cases hx with ⟨_, hy⟩ | hold
    · exact Option.some_injective _ hy ▸ h.canonical_mem
    · exact hgraph.canonical_mem x y hold
  link_mem := by
    intro l hl
    rw [h.bugIds]
    rw [h.bugReviews] at hl
    rcases (mem_migrateReviewBugsIn hl).2 with hold | ⟨hc, _⟩
    · exact hgraph.link_mem l hold
    · exact hc ▸ h.canonical_mem

theorem Links.duplicateOf {reviewId bugId : ℤ} {isNewlyDiscovered : Bool}
    (h : Links s s' reviewId bugId isNewlyDiscovered) : s'.duplicateOf = s.duplicateOf := by
  unfold BugStore.duplicateOf
  rw [h.bugs]

theorem BugGraph.of_linked {reviewId bugId : ℤ} {isNewlyDiscovered : Bool} (hgraph : BugGraph s)
    (h : Links s s' reviewId bugId isNewlyDiscovered) : BugGraph s' where
  acyclic := h.duplicateOf ▸ hgraph.acyclic
  canonical_mem := by
    unfold bugIds
    rw [h.bugs, h.duplicateOf]
    exact hgraph.canonical_mem
  link_mem := by
    intro l hl
    unfold bugIds
    rw [h.bugs]
    rw [h.bugReviews] at hl
    rcases Table.key_mem_of_mem_upsert hl with hold | hkey
    · obtain ⟨l₀, hl₀, hkey⟩ := List.mem_map.mp hold
      have hbug : l₀.bugId = l.bugId := congrArg Prod.snd hkey
      exact hbug ▸ hgraph.link_mem l₀ hl₀
    · have hbug : l.bugId = bugId := congrArg Prod.snd hkey
      exact hbug ▸ h.bug_mem

theorem BugGraph.of_step (hgraph : BugGraph s) (h : FoldStep s s' now call) : BugGraph s' := by
  rcases h with ⟨hids, hdup, hlinks⟩ | ⟨_, _, h⟩ | ⟨_, _, _, h⟩ | ⟨_, _, _, _, h⟩
  · refine ⟨hdup ▸ hgraph.acyclic, ?_, ?_⟩
    · rw [hids, hdup]
      exact hgraph.canonical_mem
    · rw [hids, hlinks]
      exact hgraph.link_mem
  · exact hgraph.of_created h
  · exact hgraph.of_linked h
  · exact hgraph.of_folded h

theorem BugGraph.run (calls : List (ℤ × FoldCall)) :
    ∀ s : BugStore, BugGraph s → BugGraph (s.runFolds calls) := by
  induction calls with
  | nil => exact fun s h => h
  | cons e rest ih => exact fun s h => ih _ (h.of_step (foldStep s e.1 e.2))

/-! ### Families -/

theorem BugGraph.mem_of_below (hgraph : BugGraph s) {id r : ℤ} (h : Below s.duplicateOf id r)
    (hid : id ∈ s.bugIds) : r ∈ s.bugIds := by
  induction h with
  | refl => exact hid
  | tail _ hstep _ => exact hgraph.canonical_mem _ _ hstep

theorem BugGraph.exists_root (hgraph : BugGraph s) {id : ℤ} (hid : id ∈ s.bugIds) :
    ∃ r ∈ s.bugs.rows, Below s.duplicateOf id r.id ∧ s.duplicateOf r.id = none := by
  have hfinite : {x | s.duplicateOf x ≠ none}.Finite := by
    refine (List.finite_toSet s.bugIds).subset fun x hx => ?_
    obtain ⟨c, hc⟩ := Option.ne_none_iff_exists'.mp hx
    exact mem_of_duplicateOf hc
  obtain ⟨r, hbelow, hroot⟩ := Sashiko.exists_root hgraph.acyclic hfinite id
  obtain ⟨b, hb, rfl⟩ := List.mem_map.mp (hgraph.mem_of_below hbelow hid)
  exact ⟨b, hb, hbelow, hroot⟩

theorem BugGraph.mem_canonicalsOf (hgraph : BugGraph s) {a c : ℤ} :
    c ∈ s.canonicalsOf a ↔ ParentOf s.duplicateOf a c := by
  constructor
  · intro hc
    obtain ⟨b, hb, rfl⟩ := List.mem_map.mp hc
    have hdup : s.duplicateOf a = some b.id := of_decide_eq_true (List.mem_filter.mp hb).2
    exact hdup
  · intro h
    obtain ⟨b, hb, rfl⟩ := List.mem_map.mp (hgraph.canonical_mem a c h)
    have hdup : s.duplicateOf a = some b.id := h
    exact List.mem_map_of_mem (List.mem_filter.mpr ⟨hb, decide_eq_true hdup⟩)

theorem mem_duplicatesOf {a c : ℤ} : a ∈ s.duplicatesOf c ↔ ParentOf s.duplicateOf a c := by
  constructor
  · intro ha
    obtain ⟨b, hb, rfl⟩ := List.mem_map.mp ha
    obtain ⟨hmem, hdup⟩ := List.mem_filter.mp hb
    exact (duplicateOf_of_mem hmem).trans (of_decide_eq_true hdup)
  · intro h
    obtain ⟨b, hb, rfl⟩ := List.mem_map.mp (mem_of_duplicateOf h)
    have hdup : b.triage.duplicateOfId = some c := (duplicateOf_of_mem hb).symm.trans h
    exact List.mem_map_of_mem (List.mem_filter.mpr ⟨hb, decide_eq_true hdup⟩)

theorem closedUnder_filter (p : ℤ → BugRow → Bool) :
    ClosedUnder (fun id => (s.bugs.rows.filter (p id)).map (·.id)) s.bugIds := by
  intro a _ x hx
  obtain ⟨b, hb, rfl⟩ := List.mem_map.mp hx
  exact bug_mem_bugIds (List.mem_filter.mp hb).1

theorem BugGraph.mem_familyAncestors (hgraph : BugGraph s) {id x : ℤ} (hid : id ∈ s.bugIds) :
    x ∈ s.familyAncestors id ↔ Below s.duplicateOf id x := by
  obtain ⟨b, hb, rfl⟩ := List.mem_map.mp hid
  have hstep : (fun a c => c ∈ s.canonicalsOf a) = ParentOf s.duplicateOf := by
    funext a c
    exact propext hgraph.mem_canonicalsOf
  have hclosed : ClosedUnder s.canonicalsOf s.bugIds := closedUnder_filter _
  unfold familyAncestors
  rw [Table.lookup_eq_some.mpr ⟨hb, rfl⟩, ← List.length_map (f := BugRow.id)]
  refine (mem_closure_iff hclosed ?_).trans ?_
  · simpa using bug_mem_bugIds hb
  · rw [hstep]
    simp [Below]

theorem BugGraph.mem_familyIds (hgraph : BugGraph s) {id x : ℤ} (hid : id ∈ s.bugIds) :
    x ∈ s.familyIds id ↔ SameTree s.duplicateOf id x := by
  have hstep : (fun a c => c ∈ s.duplicatesOf a) = Function.swap (ParentOf s.duplicateOf) := by
    funext a c
    exact propext mem_duplicatesOf
  have hclosed : ClosedUnder s.duplicatesOf s.bugIds := closedUnder_filter _
  unfold familyIds
  rw [← List.length_map (f := BugRow.id)]
  refine (mem_closure_iff hclosed ?_).trans ?_
  · intro a ha
    exact hgraph.mem_of_below ((hgraph.mem_familyAncestors hid).mp ha) hid
  · rw [hstep]
    constructor
    · rintro ⟨a, ha, hax⟩
      exact ⟨a, (hgraph.mem_familyAncestors hid).mp ha, Relation.reflTransGen_swap.mp hax⟩
    · rintro ⟨a, ha, hax⟩
      exact ⟨a, (hgraph.mem_familyAncestors hid).mpr ha, Relation.reflTransGen_swap.mpr hax⟩

/-- The query finds the whole tree of the bug. -/
theorem BugGraph.mem_bugFamily (hgraph : BugGraph s) {id : ℤ} {b : BugRow}
    (hid : id ∈ s.bugIds) :
    b ∈ s.bugFamily id ↔ b ∈ s.bugs.rows ∧ SameTree s.duplicateOf id b.id := by
  unfold bugFamily
  rw [List.mem_filter, decide_eq_true_eq, hgraph.mem_familyIds hid]

/-- One member of every family is no duplicate, and all others are. -/
theorem BugGraph.family_root (hgraph : BugGraph s) {b : BugRow} (hb : b ∈ s.bugs.rows) :
    ∃ root ∈ s.bugFamily b.id, Below s.duplicateOf b.id root.id ∧
      root.triage.lifecycleStatus ≠ .duplicate ∧
      ∀ m ∈ s.bugFamily b.id, m ≠ root → m.triage.lifecycleStatus = .duplicate := by
  have hid := bug_mem_bugIds hb
  obtain ⟨root, hmem, hbelow, hroot⟩ := hgraph.exists_root hid
  have hstatus : ∀ {m}, m ∈ s.bugs.rows →
      (m.triage.lifecycleStatus = .duplicate ↔ s.duplicateOf m.id ≠ none) := by
    intro m hm
    rw [duplicateOf_of_mem hm]
    exact BugTriage.lifecycleStatus_eq_duplicate m.triage
  refine ⟨root, (hgraph.mem_bugFamily hid).mpr ⟨hmem, root.id, hbelow, Below.refl _⟩, hbelow,
    ?_, ?_⟩
  · rw [ne_eq, hstatus hmem, hroot]
    exact fun h => h rfl
  · intro m hm hne
    obtain ⟨hm, hsame⟩ := (hgraph.mem_bugFamily hid).mp hm
    rw [hstatus hm]
    intro hnone
    have hkey : root.id = m.id := Below.eq_of_root hnone (hsame.to_root hbelow hroot)
    exact hne (Table.eq_of_key_eq hm hmem hkey.symm)

end Sashiko
