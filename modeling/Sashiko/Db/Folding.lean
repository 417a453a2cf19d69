import Sashiko.Db.Families
import Sashiko.Db.LeaseSafety

/-! What folding keeps: the forest of duplicates, every link, and who is credited. -/

namespace Sashiko

open BugStore

variable {s s' : BugStore} {now : ℤ} {call : FoldCall} {e c r b : ℤ}

/-! ### Links over one call -/

theorem linked_iff : s.linked r b = true ↔
    ∃ l ∈ s.bugReviews.rows, l.reviewId = r ∧ l.bugId = b := by
  unfold linked
  rw [Table.any_eq_true]
  simp

theorem credited_iff : s.credited r b = true ↔
    ∃ l ∈ s.bugReviews.rows, l.reviewId = r ∧ l.bugId = b ∧ l.isNewlyDiscovered = true := by
  unfold credited
  rw [Table.any_eq_true]
  simp

theorem linked_upsert {l : BugReviewRow} {f : BugReviewRow → BugReviewRow} {hf}
    (hlinks : s'.bugReviews = s.bugReviews.upsert l f hf) (h : s.linked r b = true) :
    s'.linked r b = true := by
  obtain ⟨l₀, hl₀, rfl, rfl⟩ := linked_iff.mp h
  have hkey := Table.key_updateRow hf (fun x => x.key = l.key) l₀
  refine linked_iff.mpr ⟨_, hlinks ▸ Table.mem_upsert_of_mem hl₀, ?_, ?_⟩
  · exact congrArg Prod.fst hkey
  · exact congrArg Prod.snd hkey

theorem credited_links {reviewId bugId : ℤ} {isNewlyDiscovered : Bool}
    (hlinks : Links s s' reviewId bugId isNewlyDiscovered) (h : s.credited r b = true) :
    s'.credited r b = true := by
  obtain ⟨l, hl, rfl, rfl, hflag⟩ := credited_iff.mp h
  refine credited_iff.mpr ⟨_, hlinks.bugReviews ▸ Table.mem_upsert_of_mem hl, ?_⟩
  unfold Table.updateRow
  split_ifs
  · exact ⟨rfl, rfl, by simp [hflag]⟩
  · exact ⟨rfl, rfl, hflag⟩

/-- A fold leaves the links of other bugs where they are. -/
theorem mem_folds (h : Folds s s' e c) {l : BugReviewRow} (hl : l ∈ s.bugReviews.rows)
    (hne : l.bugId ≠ e) : l ∈ s'.bugReviews.rows := by
  rw [h.bugReviews]
  exact Table.mem_delete.mpr
    ⟨Table.mem_insertAllOrIgnore_of_mem _ hl, decide_eq_false hne⟩

theorem linked_folds (h : Folds s s' e c) (hne : b ≠ e) (hlinked : s.linked r b = true) :
    s'.linked r b = true := by
  obtain ⟨l, hl, hr, rfl⟩ := linked_iff.mp hlinked
  exact linked_iff.mpr ⟨l, mem_folds h hl hne, hr, rfl⟩

/-- The links of the folded bug move to the canonical one. -/
theorem linked_canonical (h : Folds s s' e c) (hlinked : s.linked r e = true) :
    s'.linked r c = true := by
  obtain ⟨l, hl, rfl, hbug⟩ := linked_iff.mp hlinked
  have hmoved : (⟨l.reviewId, c, false⟩ : BugReviewRow) ∈
      (s.bugReviews.rows.filter (·.bugId = e)).map fun l => ⟨l.reviewId, c, false⟩ :=
    List.mem_map.mpr ⟨l, List.mem_filter.mpr ⟨hl, decide_eq_true hbug⟩, rfl⟩
  obtain ⟨x, hx, hkey⟩ := Table.key_mem_insertAllOrIgnore hmoved s.bugReviews
  have hreview : x.reviewId = l.reviewId := congrArg Prod.fst hkey
  have hcanonical : x.bugId = c := congrArg Prod.snd hkey
  have hne : x.bugId ≠ e := fun he => h.distinct (he.symm.trans hcanonical)
  refine linked_iff.mpr ⟨x, ?_, hreview, hcanonical⟩
  rw [h.bugReviews]
  exact Table.mem_delete.mpr ⟨hx, decide_eq_false hne⟩

theorem not_linked_folded (h : Folds s s' e c) : s'.linked r e ≠ true := by
  intro hlinked
  obtain ⟨l, hl, _, hbug⟩ := linked_iff.mp hlinked
  rw [h.bugReviews] at hl
  exact (mem_migrateReviewBugsIn hl).1 hbug

/-- A fold credits nobody. -/
theorem credited_of_folds (h : Folds s s' e c) (hcredited : s'.credited r b = true) :
    s.credited r b = true := by
  obtain ⟨l, hl, hr, hb, hflag⟩ := credited_iff.mp hcredited
  rw [h.bugReviews] at hl
  rcases (mem_migrateReviewBugsIn hl).2 with hold | ⟨_, hnew⟩
  · exact credited_iff.mpr ⟨l, hold, hr, hb, hflag⟩
  · rw [hnew] at hflag
    cases hflag

/-- While a link exists, its flag is not turned off. -/
theorem credited_step (h : FoldStep s s' now call) (hcredited : s.credited r b = true)
    (hlinked : s'.linked r b = true) : s'.credited r b = true := by
  rcases h with ⟨_, _, hlinks⟩ | ⟨_, _, h⟩ | ⟨_, _, _, h⟩ | ⟨_, params, _, _, h⟩
  · unfold credited
    rw [hlinks]
    exact hcredited
  · unfold credited
    rw [h.bugReviews]
    exact hcredited
  · exact credited_links h hcredited
  · obtain ⟨l, hl, hr, rfl, hflag⟩ := credited_iff.mp hcredited
    by_cases hbug : l.bugId = params.ephemeralId
    · rw [hbug] at hlinked
      exact absurd hlinked (not_linked_folded h)
    · exact credited_iff.mpr ⟨l, mem_folds h hl hbug, hr, rfl, hflag⟩

/-- No call takes a review's last link. -/
theorem linked_somewhere_step (h : FoldStep s s' now call) (hlinked : ∃ b, s.linked r b = true) :
    ∃ b, s'.linked r b = true := by
  obtain ⟨b, hlinked⟩ := hlinked
  rcases h with ⟨_, _, hlinks⟩ | ⟨_, _, h⟩ | ⟨_, _, _, h⟩ | ⟨_, params, _, _, h⟩
  · exact ⟨b, by unfold linked; rw [hlinks]; exact hlinked⟩
  · exact ⟨b, by unfold linked; rw [h.bugReviews]; exact hlinked⟩
  · exact ⟨b, linked_upsert h.bugReviews hlinked⟩
  · by_cases hb : b = params.ephemeralId
    · exact ⟨_, linked_canonical h (hb ▸ hlinked)⟩
    · exact ⟨b, linked_folds h hb hlinked⟩

/-! ### A link and the family of its bug -/

/-- The bug itself carries the link, or the root of its family does. -/
def LinkKept (s : BugStore) (reviewId bugId : ℤ) : Prop :=
  s.linked reviewId bugId = true ∨ ∃ root, Below s.duplicateOf bugId root ∧
    s.duplicateOf root = none ∧ s.linked reviewId root = true

theorem linkKept_created {id : ℤ} {canonicalId : Option ℤ} (hgraph : BugGraph s)
    (h : Creates s s' id canonicalId) (hkept : LinkKept s r b) : LinkKept s' r b := by
  have hlinked : ∀ x, s'.linked r x = s.linked r x := by
    intro x
    unfold linked
    rw [h.bugReviews]
  rcases hkept with hown | ⟨root, hbelow, hroot, hlink⟩
  · exact .inl ((hlinked b).trans hown)
  · by_cases hself : root = b
    · exact .inl ((hlinked b).trans (hself ▸ hlink))
    · refine .inr ⟨root, ?_, ?_, (hlinked root).trans hlink⟩
      · rw [h.duplicateOf]
        refine hbelow.update fun _ hid => ?_
        exact (Below.eq_of_root (duplicateOf_eq_none h.fresh) hid).symm
      · have hne : root ≠ id := by
          rintro rfl
          rcases Relation.ReflTransGen.cases_tail hbelow with heq | ⟨x, _, hx⟩
          · exact hself heq
          · exact h.fresh (hgraph.canonical_mem x root hx)
        rw [h.duplicateOf, Function.update_of_ne hne]
        exact hroot

/-- A fold takes the link along, unless it takes the bug out of its family. -/
theorem linkKept_folded (h : Folds s s' e c)
    (hstays : Below s.duplicateOf b e → s.duplicateOf e ≠ none → Below s.duplicateOf e c)
    (hkept : LinkKept s r b) : LinkKept s' r b := by
  have hmoved : s.linked r e = true → Below s.duplicateOf b e → LinkKept s' r b := by
    intro hlink hbelow
    refine .inr ⟨c, ?_, ?_, linked_canonical h hlink⟩
    · rw [h.duplicateOf]
      exact below_hang hbelow
    · rw [h.duplicateOf, Function.update_of_ne (Ne.symm h.distinct)]
      exact h.canonical_root
  rcases hkept with hown | ⟨root, hbelow, hroot, hlink⟩
  · by_cases hb : b = e
    · subst hb
      exact hmoved hown (Below.refl b)
    · exact .inl (linked_folds h hb hown)
  · by_cases hre : root = e
    · subst hre
      exact hmoved hlink hbelow
    · refine .inr ⟨root, ?_, ?_, linked_folds h hre hlink⟩
      · rw [h.duplicateOf]
        by_cases hbe : Below s.duplicateOf b e
        · have hdup : s.duplicateOf e ≠ none :=
            fun hnone => hre (Below.eq_of_root hnone (hbe.to_root hbelow hroot))
          have hec := hstays hbe hdup
          rw [← root_unique (hbe.to_root hbelow hroot) hroot hec h.canonical_root]
          exact below_hang hbe
        · exact hbelow.update fun hbe' => absurd hbe' hbe
      · rw [h.duplicateOf, Function.update_of_ne hre]
        exact hroot

theorem linkKept_step (hgraph : BugGraph s) (h : FoldStep s s' now call)
    (hstays : ¬call.Reparents s now b) (hkept : LinkKept s r b) : LinkKept s' r b := by
  rcases h with ⟨_, hdup, hlinks⟩ | ⟨_, _, h⟩ | ⟨_, _, _, h⟩ | ⟨claim, params, rfl, hok, h⟩
  · unfold LinkKept linked
    rw [hdup, hlinks]
    exact hkept
  · exact linkKept_created hgraph h hkept
  · rcases hkept with hown | ⟨root, hbelow, hroot, hlink⟩
    · exact .inl (linked_upsert h.bugReviews hown)
    · rw [← h.duplicateOf] at hbelow hroot
      exact .inr ⟨root, hbelow, hroot, linked_upsert h.bugReviews hlink⟩
  · refine linkKept_folded h (fun hbelow hdup => ?_) hkept
    by_contra hout
    exact hstays ⟨⟨s', hok⟩, hbelow, hdup, hout⟩

theorem linkKept_run (calls : List (ℤ × FoldCall)) :
    ∀ s : BugStore, BugGraph s → NeverReparented b s calls → LinkKept s r b →
      LinkKept (s.runFolds calls) r b := by
  induction calls with
  | nil => exact fun s _ _ hkept => hkept
  | cons x rest ih =>
    intro s hgraph hstays hkept
    have hstep := foldStep s x.1 x.2
    exact ih _ (hgraph.of_step hstep) hstays.2 (linkKept_step hgraph hstep hstays.1 hkept)

theorem linked_somewhere_run (calls : List (ℤ × FoldCall)) :
    ∀ s : BugStore, (∃ b, s.linked r b = true) → ∃ b, (s.runFolds calls).linked r b = true := by
  induction calls with
  | nil => exact fun s h => h
  | cons x rest ih => exact fun s h => ih _ (linked_somewhere_step (foldStep s x.1 x.2) h)

theorem runFolds_append (before after : List (ℤ × FoldCall)) :
    ∀ s : BugStore, s.runFolds (before ++ after) = (s.runFolds before).runFolds after := by
  induction before with
  | nil => exact fun s => rfl
  | cons x rest ih => exact fun s => ih _

theorem BugGraph.mem_of_linked (hgraph : BugGraph s) (h : s.linked r b = true) :
    ∃ m ∈ s.bugs.rows, m.id = b := by
  obtain ⟨l, hl, _, rfl⟩ := linked_iff.mp h
  exact List.mem_map.mp (hgraph.link_mem l hl)

theorem LinkKept.mem_family (hgraph : BugGraph s) (hb : b ∈ s.bugIds) (h : LinkKept s r b) :
    ∃ m ∈ s.bugFamily b, s.linked r m.id = true := by
  have hmember : ∀ x, Below s.duplicateOf b x → s.linked r x = true →
      ∃ m ∈ s.bugFamily b, s.linked r m.id = true := by
    intro x hbelow hlink
    obtain ⟨m, hm, rfl⟩ := hgraph.mem_of_linked hlink
    exact ⟨m, (hgraph.mem_bugFamily hb).mpr ⟨hm, m.id, hbelow, Below.refl _⟩, hlink⟩
  rcases h with hown | ⟨root, hbelow, _, hlink⟩
  · exact hmember b (Below.refl b) hown
  · exact hmember root hbelow hlink

theorem bugIds_step (h : FoldStep s s' now call) (hb : b ∈ s.bugIds) : b ∈ s'.bugIds := by
  rcases h with ⟨hids, _, _⟩ | ⟨_, _, h⟩ | ⟨_, _, _, h⟩ | ⟨_, _, _, _, h⟩
  · exact hids ▸ hb
  · rw [h.bugIds]
    exact List.mem_append_left _ hb
  · unfold bugIds
    rw [h.bugs]
    exact hb
  · exact h.bugIds ▸ hb

theorem bugIds_run (calls : List (ℤ × FoldCall)) :
    ∀ s : BugStore, b ∈ s.bugIds → b ∈ (s.runFolds calls).bugIds := by
  induction calls with
  | nil => exact fun s h => h
  | cons x rest ih => exact fun s h => ih _ (bugIds_step (foldStep s x.1 x.2) h)

/-! ### Folding is sound -/

/-- What a run of links and folds, among any other calls of the bug workers, keeps. -/
structure FoldingSound (s₀ : BugStore) (calls : List (ℤ × FoldCall)) : Prop where
  acyclic : Acyclic (s₀.runFolds calls).duplicateOf
  family_root : ∀ b ∈ (s₀.runFolds calls).bugs.rows, ∃ root ∈ (s₀.runFolds calls).bugFamily b.id,
    Below (s₀.runFolds calls).duplicateOf b.id root.id ∧
      root.triage.lifecycleStatus ≠ .duplicate ∧
      ∀ m ∈ (s₀.runFolds calls).bugFamily b.id, m ≠ root → m.triage.lifecycleStatus = .duplicate
  /-- A link stays in the family of its bug while no fold reparents the bug. -/
  link_kept : ∀ before after r b, calls = before ++ after →
    (s₀.runFolds before).linked r b = true → NeverReparented b (s₀.runFolds before) after →
    ∃ m ∈ (s₀.runFolds calls).bugFamily b, (s₀.runFolds calls).linked r m.id = true
  /-- A review that was linked to some bug stays linked to some bug, whatever is folded. -/
  review_kept : ∀ before after r b, calls = before ++ after →
    (s₀.runFolds before).linked r b = true →
    ∃ m ∈ (s₀.runFolds calls).bugs.rows, (s₀.runFolds calls).linked r m.id = true
  flag_kept : ∀ before now call after r b, calls = before ++ (now, call) :: after →
    (s₀.runFolds before).credited r b = true →
    (call.step (s₀.runFolds before) now).linked r b = true →
    (call.step (s₀.runFolds before) now).credited r b = true
  no_new_credit : ∀ before now claim params after r b,
    calls = before ++ (now, .markBugAsDuplicate claim params) :: after →
    (FoldCall.step (s₀.runFolds before) now (.markBugAsDuplicate claim params)).credited r b =
      true → (s₀.runFolds before).credited r b = true

theorem credited_of_markBugAsDuplicate {claim : Option BugAnalysisClaim}
    {params : MarkDuplicateBugParams}
    (h : (FoldCall.step s now (.markBugAsDuplicate claim params)).credited r b = true) :
    s.credited r b = true := by
  unfold FoldCall.step at h
  split at h
  · rename_i s' hexec
    obtain ⟨⟨folded, s₁⟩, hmark, rfl⟩ := map_ok hexec
    rcases markBugAsDuplicate_cases hmark with ⟨_, rfl⟩ | ⟨_, hfolds⟩
    · exact h
    · exact credited_of_folds hfolds h
  · exact h

theorem foldingSound {s₀ : BugStore} (hgraph : BugGraph s₀) (calls : List (ℤ × FoldCall)) :
    FoldingSound s₀ calls where
  acyclic := (hgraph.run calls).acyclic
  family_root := fun _ hb => (hgraph.run calls).family_root hb
  link_kept := by
    rintro before after r b rfl hlinked hstays
    have hbefore := hgraph.run before
    have hb : b ∈ (s₀.runFolds before).bugIds := by
      obtain ⟨m, hm, rfl⟩ := hbefore.mem_of_linked hlinked
      exact bug_mem_bugIds hm
    have hkept := linkKept_run after _ hbefore hstays (.inl hlinked)
    rw [runFolds_append]
    exact hkept.mem_family (hbefore.run after) (bugIds_run after _ hb)
  review_kept := by
    rintro before after r b rfl hlinked
    obtain ⟨x, hx⟩ := linked_somewhere_run after _ ⟨b, hlinked⟩
    rw [← runFolds_append] at hx
    obtain ⟨m, hm, rfl⟩ := (hgraph.run _).mem_of_linked hx
    exact ⟨m, hm, hx⟩
  flag_kept := by
    rintro before now call after r b rfl hcredited hlinked
    exact credited_step (foldStep _ now call) hcredited hlinked
  no_new_credit := by
    rintro before now claim params after r b rfl hcredited
    exact credited_of_markBugAsDuplicate hcredited

/-- One finished review, and no bugs yet. -/
def oneReview : BugStore :=
  { noBugs with
    reviews := ⟨[⟨7, 1, none, none, none, 0, none, some .reviewed, none, none, none, "model",
      none, "provider"⟩], List.nodup_singleton _⟩ }

/-- Three open bugs; the review is linked to the first, which is then folded into the second and
from there into the third. -/
def foldedTwice : List (ℤ × FoldCall) :=
  [(0, .worker (.createBugWithEnrichment ⟨"linux-1", "leak", .«open», .succeeded, 0, none⟩ none)),
   (0, .worker (.createBugWithEnrichment ⟨"linux-2", "leak", .«open», .succeeded, 0, none⟩ none)),
   (0, .worker (.createBugWithEnrichment ⟨"linux-3", "leak", .«open», .succeeded, 0, none⟩ none)),
   (1, .linkReviewToBug none none 7 1 true),
   (2, .markBugAsDuplicate none ⟨false, 1, 2, "same defect"⟩),
   (3, .markBugAsDuplicate none ⟨false, 1, 3, "same defect"⟩)]

theorem foldingSound_foldedTwice : FoldingSound oneReview foldedTwice := by
  refine foldingSound ⟨?_, ?_, ?_⟩ foldedTwice
  · intro id h
    obtain ⟨c, hc, _⟩ := Relation.TransGen.head'_iff.mp h
    cases hc
  · intro id c h
    cases h
  · intro l hl
    cases hl

/-- The second fold takes the first bug out of its family; its link stays behind. -/
theorem foldedTwice_unlinked :
    (oneReview.runFolds (foldedTwice.take 4)).linked 7 1 = true ∧
      ((oneReview.runFolds foldedTwice).bugFamily 1).map (·.id) = [1, 3] ∧
      ∀ m ∈ (oneReview.runFolds foldedTwice).bugFamily 1,
        (oneReview.runFolds foldedTwice).linked 7 m.id = false := by
  decide

end Sashiko
