import Sashiko.Db.ReviewRuns

/-! Generation fencing: which handle can change a patchset's review data, and when. -/

namespace Sashiko

open Store

variable {s : Store} {claim : Option PatchsetReviewClaim} {c : PatchsetReviewClaim} {p : ℤ}

/-! ### What one statement leaves alone -/

theorem ownsReview_of_mem {r : ReviewRow} (hr : r ∈ s.reviews.rows) (hp : r.patchsetId ≠ p) :
    s.ownsReview p r.id = false := by
  rw [← Bool.not_eq_true]
  intro h
  obtain ⟨x, hx, hxp⟩ := Table.any_eq_true.mp h
  simp only [decide_eq_true_eq] at hxp
  rw [Table.eq_of_key_eq hx hr hxp.1] at hxp
  exact hp hxp.2

theorem patchsetId_ne_of_ownsReview {r : ReviewRow} (hr : r ∈ s.reviews.rows)
    (h : s.ownsReview p r.id = false) : r.patchsetId ≠ p := by
  intro hp
  have howns : s.ownsReview p r.id = true :=
    Table.any_eq_true.mpr ⟨r, hr, by simp [hp]⟩
  rw [h] at howns
  cases howns

theorem ownsReview_setReviews {sel : ReviewRow → Bool} {f : ReviewRow → ReviewRow} {hf}
    (rid : ℤ) : (s.setReviews sel f hf).ownsReview p rid = s.ownsReview p rid := by
  refine Table.any_update (fun r => (hf r).1) fun r => ?_
  rw [(hf r).1, (hf r).2]

theorem patchsetData_setReviews {sel : ReviewRow → Bool} {f : ReviewRow → ReviewRow} {hf}
    (hsel : ∀ r ∈ s.reviews.rows, sel r = true → r.patchsetId ≠ p) :
    (s.setReviews sel f hf).patchsetData p = s.patchsetData p := by
  unfold patchsetData
  simp only [ownsReview_setReviews]
  rw [PatchsetData.mk.injEq]
  refine ⟨Table.filter_update (fun r => (hf r).1) fun r hr hs => ?_, rfl, rfl, rfl⟩
  have hne := hsel r hr hs
  simp [(hf r).2, hne]

theorem ownsReview_deleteAbortedReviewChildren {x : ℤ} (rid : ℤ) :
    (s.deleteAbortedReviewChildren x).ownsReview p rid = s.ownsReview p rid := rfl

theorem patchsetData_deleteAbortedReviewChildren {rid : ℤ} (h : s.ownsReview p rid = false) :
    (s.deleteAbortedReviewChildren rid).patchsetData p = s.patchsetData p := by
  unfold patchsetData
  rw [PatchsetData.mk.injEq]
  refine ⟨rfl, ?_, ?_, rfl⟩
  · refine Table.filter_delete fun f _ hf => ?_
    rw [of_decide_eq_true hf]
    exact h
  · refine Table.filter_delete fun u _ hu => ?_
    rw [of_decide_eq_true hu]
    exact h

theorem patchsetData_setPatches {sel : PatchRow → Bool} {f : PatchRow → PatchRow} {hf}
    (hsel : ∀ r ∈ s.patches.rows, sel r = true → r.patchsetId ≠ p) :
    (s.setPatches sel f hf).patchsetData p = s.patchsetData p := by
  unfold patchsetData
  rw [PatchsetData.mk.injEq]
  refine ⟨rfl, rfl, rfl, Table.filter_update (fun r => (hf r).1) fun r hr hs => ?_⟩
  have hne := hsel r hr hs
  simp [(hf r).2, hne]

theorem ownsReview_insertInReview {req : ReviewRequest} {now : ℤ} (h : req.patchsetId ≠ p)
    (rid : ℤ) : (s.insertInReview req now).ownsReview p rid = s.ownsReview p rid := by
  simp [ownsReview, insertInReview, Table.any, Table.insertNext, Table.insert, h]

theorem patchsetData_insertInReview {req : ReviewRequest} {now : ℤ} (h : req.patchsetId ≠ p) :
    (s.insertInReview req now).patchsetData p = s.patchsetData p := by
  unfold patchsetData
  simp only [ownsReview_insertInReview h]
  rw [PatchsetData.mk.injEq]
  exact ⟨Table.filter_insertNext fun k => by simp [h], rfl, rfl, rfl⟩

theorem ownsReview_failInReviewRow {x : ℤ} {reason : String} (rid : ℤ) :
    (s.failInReviewRow x reason).ownsReview p rid = s.ownsReview p rid :=
  ownsReview_setReviews rid

theorem patchsetData_failInReviewRow {rid : ℤ} {reason : String}
    (h : s.ownsReview p rid = false) :
    (s.failInReviewRow rid reason).patchsetData p = s.patchsetData p := by
  unfold failInReviewRow
  rw [patchsetData_setReviews, patchsetData_deleteAbortedReviewChildren h]
  intro r hr hsel
  rw [decide_eq_true_eq] at hsel
  exact patchsetId_ne_of_ownsReview hr (hsel.1 ▸ h)

theorem patchsetData_failInReviewRows {reason : String} (rows : List ReviewRow) :
    ∀ s : Store, (∀ r ∈ rows, s.ownsReview p r.id = false) →
      (rows.foldl (fun s r => s.failInReviewRow r.id reason) s).patchsetData p =
        s.patchsetData p := by
  induction rows with
  | nil => intro s _; rfl
  | cons r rows ih =>
    intro s h
    rw [List.foldl_cons, ih]
    · exact patchsetData_failInReviewRow (h r List.mem_cons_self)
    · intro x hx
      rw [ownsReview_failInReviewRow]
      exact h x (List.mem_cons_of_mem _ hx)

/-! ### What a claim's guard says -/

theorem claimAllows_some {q : ℤ} (h : s.claimAllows (some c) q = true) :
    q = c.patchsetId ∧ s.holdsClaim c = true := by
  simpa [claimAllows] using h

theorem reviewWritable_some {r : ReviewRow} (h : s.reviewWritable (some c) r = true) :
    r.patchsetId = c.patchsetId ∧ s.holdsClaim c = true := by
  unfold reviewWritable at h
  rw [Bool.and_eq_true] at h
  exact claimAllows_some h.2

theorem isPatchsetClaimActive_some {q : ℤ} (h : s.isPatchsetClaimActive (some c) q = true) :
    q = c.patchsetId ∧ s.holdsClaim c = true := by
  simp only [isPatchsetClaimActive, Bool.and_eq_true, decide_eq_true_eq] at h
  exact ⟨h.1.symm, h.2⟩

/-- `c` is not the claim that may change the data of patchset `p` now. -/
def Fenced (s : Store) (c : PatchsetReviewClaim) (p : ℤ) : Prop :=
  ¬(p = c.patchsetId ∧ s.holdsClaim c = true)

theorem Fenced.ne {q : ℤ} (h : Fenced s c p) (hq : q = c.patchsetId ∧ s.holdsClaim c = true) :
    q ≠ p := by
  rintro rfl
  exact h hq

/-- Holding a claim is a matter of the patchset row and its marker only. -/
theorem Fenced.setReviews (h : Fenced s c p) (sel : ReviewRow → Bool)
    (f : ReviewRow → ReviewRow) (hf) : Fenced (s.setReviews sel f hf) c p := h

theorem ownsReview_of_any_writable {rid : ℤ} (h : Fenced s c p)
    (hany : (s.reviews.any fun r => r.id = rid && s.reviewWritable (some c) r) = true) :
    s.ownsReview p rid = false := by
  obtain ⟨r, hr, hw⟩ := Table.any_eq_true.mp hany
  rw [Bool.and_eq_true, decide_eq_true_eq] at hw
  rw [← hw.1]
  exact ownsReview_of_mem hr (h.ne (reviewWritable_some hw.2))

/-! ### One call -/

theorem clearAbortedReviewArtifactsInTx_frame {s' : Store} {rid : ℤ} (h : Fenced s c p)
    (hs : s.clearAbortedReviewArtifactsInTx (some c) rid = .ok s') :
    s'.patchsetData p = s.patchsetData p ∧ s'.ownsReview p rid = false := by
  unfold clearAbortedReviewArtifactsInTx at hs
  split at hs
  · rename_i hany
    cases hs
    have hown := ownsReview_of_any_writable h hany
    rw [ownsReview_deleteAbortedReviewChildren, ownsReview_setReviews]
    refine ⟨?_, hown⟩
    rw [patchsetData_deleteAbortedReviewChildren, patchsetData_setReviews]
    · intro r hr hsel
      rw [Bool.and_eq_true] at hsel
      exact h.ne (reviewWritable_some hsel.2)
    · rw [ownsReview_setReviews]
      exact hown
  · cases hs

theorem claimPendingReviewIdInTx_frame {s' : Store} {q : ℤ} {patchId o : Option ℤ}
    (h : Fenced s c p) (hq : q ≠ p)
    (hs : s.claimPendingReviewIdInTx (some c) q patchId = .ok (o, s')) :
    s'.patchsetData p = s.patchsetData p ∧ ∀ rid ∈ o, s'.ownsReview p rid = false := by
  unfold claimPendingReviewIdInTx at hs
  split at hs
  · rename_i r hr
    obtain ⟨hmem, hsel⟩ := Table.selected_of_firstWhere hr
    rw [decide_eq_true_eq] at hsel
    have hown : s.ownsReview p r.id = false := ownsReview_of_mem hmem (hsel.1 ▸ hq)
    rcases hclear : clearAbortedReviewArtifactsInTx _ (some c) r.id with e | s₁
    · rw [hclear] at hs
      cases hs
    · rw [hclear] at hs
      cases hs
      obtain ⟨hdata, howns⟩ := clearAbortedReviewArtifactsInTx_frame (h.setReviews _ _ _) hclear
      rw [hdata, patchsetData_setReviews]
      · refine ⟨rfl, ?_⟩
        rintro rid ⟨⟩
        exact howns
      · intro x hx hx'
        exact patchsetId_ne_of_ownsReview hx (of_decide_eq_true hx' ▸ hown)
  · cases hs
    exact ⟨rfl, by simp⟩

theorem claimOrCreateInReview_frame {s' : Store} {req : ReviewRequest} {now id : ℤ}
    (h : Fenced s c p) (hs : s.claimOrCreateInReview (some c) req now = .ok (id, s')) :
    s'.patchsetData p = s.patchsetData p := by
  unfold claimOrCreateInReview at hs
  split at hs
  · rename_i hactive
    have hq : req.patchsetId ≠ p := h.ne (isPatchsetClaimActive_some hactive)
    rcases hclaim : s.claimPendingReviewIdInTx (some c) req.patchsetId req.patchId with
      e | ⟨o, s₁⟩
    · rw [hclaim] at hs
      cases hs
    · rw [hclaim] at hs
      obtain ⟨hdata, howns⟩ := claimPendingReviewIdInTx_frame h hq hclaim
      rcases o with _ | rid
      · cases hs
        rw [patchsetData_insertInReview hq, hdata]
      · cases hs
        rw [patchsetData_setReviews, hdata]
        intro r hr hsel
        apply patchsetId_ne_of_ownsReview hr
        rw [of_decide_eq_true hsel]
        exact howns _ rfl
  · cases hs

theorem updatePatchStatus_frame {patchId : ℤ} {status : StatusText} (h : Fenced s c p)
    (hstatus : status ≠ .cancelled) :
    (s.updatePatchStatus (some c) patchId status).patchsetData p = s.patchsetData p := by
  unfold updatePatchStatus
  apply patchsetData_setPatches
  intro r _ hsel
  simp only [patchStatusWritable, hstatus, decide_false, Bool.false_and, Bool.false_or,
    Bool.and_eq_true] at hsel
  exact h.ne (claimAllows_some hsel.2.2)

theorem reviewStatusWritable_some {r : ReviewRow} {status : StatusText}
    (hstatus : status ≠ .cancelled) (h : s.reviewStatusWritable (some c) status r = true) :
    r.patchsetId = c.patchsetId ∧ s.holdsClaim c = true := by
  simp only [reviewStatusWritable, hstatus, decide_false, Bool.false_and, Bool.false_or,
    Bool.and_eq_true] at h
  exact reviewWritable_some h.2

theorem failOrphanedInReviewRows_frame {q : ℤ} {reason : String} (h : Fenced s c p) :
    (s.failOrphanedInReviewRows (some c) q reason).patchsetData p = s.patchsetData p := by
  unfold failOrphanedInReviewRows
  split
  · rename_i hactive
    have hq : q ≠ p := h.ne (isPatchsetClaimActive_some hactive)
    apply patchsetData_failInReviewRows
    intro r hr
    rw [List.mem_filter, decide_eq_true_eq] at hr
    exact ownsReview_of_mem hr.1 (hr.2.1 ▸ hq)
  · rfl

theorem settlePanickedPatchReview_frame {q patchId : ℤ} {reason : String} (h : Fenced s c p) :
    (s.settlePanickedPatchReview (some c) q patchId reason).2.patchsetData p =
      s.patchsetData p := by
  unfold settlePanickedPatchReview
  split
  · rename_i hactive
    have hq : q ≠ p := h.ne (isPatchsetClaimActive_some hactive)
    split
    · rename_i r hr
      obtain ⟨hmem, hsel⟩ := Table.selected_of_lastWhere hr
      rw [decide_eq_true_eq] at hsel
      have hown : s.ownsReview p r.id = false := ownsReview_of_mem hmem (hsel.1 ▸ hq)
      split_ifs
      · exact updatePatchStatus_frame h (by decide)
      · have h' : Fenced (s.failInReviewRow r.id reason) c p := h
        rw [updatePatchStatus_frame h' (by decide), patchsetData_failInReviewRow hown]
      · exact updatePatchStatus_frame h (by decide)
    · exact updatePatchStatus_frame h (by decide)
  · rfl

theorem updateReviewStatus_frame {rid : ℤ} {status : StatusText} {logs : Option String}
    (h : Fenced s c p) (hstatus : status ≠ .cancelled) :
    (s.updateReviewStatus (some c) rid status logs).patchsetData p = s.patchsetData p := by
  unfold updateReviewStatus
  apply patchsetData_setReviews
  intro r _ hsel
  rw [Bool.and_eq_true] at hsel
  exact h.ne (reviewStatusWritable_some hstatus hsel.2)

theorem completeReview_frame {rid : ℤ} {result : ReviewResult} {s' : Store} (h : Fenced s c p)
    (hstatus : result.status ≠ .cancelled) (hs : s.completeReview (some c) rid result = .ok s') :
    s'.patchsetData p = s.patchsetData p := by
  unfold completeReview at hs
  split at hs
  · cases hs
    apply patchsetData_setReviews
    intro r _ hsel
    rw [Bool.and_eq_true] at hsel
    exact h.ne (reviewStatusWritable_some hstatus hsel.2)
  · cases hs

theorem createFinding_frame {finding : Finding} {s' : Store} (h : Fenced s c p)
    (hs : s.createFinding (some c) finding = .ok s') :
    s'.patchsetData p = s.patchsetData p := by
  unfold createFinding at hs
  split at hs
  · rename_i hany
    cases hs
    have hown := ownsReview_of_any_writable h hany
    unfold patchsetData
    rw [PatchsetData.mk.injEq]
    exact ⟨rfl, Table.filter_insertNext fun _ => hown, rfl, rfl⟩
  · cases hs

theorem createToolUsage_frame {usage : ToolUsage} {now : ℤ} (h : Fenced s c p) :
    (s.createToolUsage (some c) usage now).patchsetData p = s.patchsetData p := by
  unfold createToolUsage
  split
  · rename_i hany
    have hown := ownsReview_of_any_writable h hany
    unfold patchsetData
    rw [PatchsetData.mk.injEq]
    exact ⟨rfl, rfl, Table.filter_insertNext fun _ => hown, rfl⟩
  · rfl

/-- A fenced handle's write leaves the patchset's data alone, whatever the write. -/
theorem write_fenced (w : HandleWrite) (hcancel : w.cancels = false)
    (hlength : w.updatesLength = false) (h : Fenced s c p) :
    (w.apply (some c) s).patchsetData p = s.patchsetData p := by
  cases w with
  | claimOrCreateInReview req now =>
    rcases hs : s.claimOrCreateInReview (some c) req now with e | ⟨id, s'⟩
    · simp [HandleWrite.apply, hs, committed, Except.map]
    · simpa [HandleWrite.apply, hs, committed, Except.map] using claimOrCreateInReview_frame h hs
  | updateReviewStatus rid status logs =>
    exact updateReviewStatus_frame h (of_decide_eq_false hcancel)
  | completeReview rid result =>
    rcases hs : s.completeReview (some c) rid result with e | s'
    · simp [HandleWrite.apply, hs, committed]
    · simpa [HandleWrite.apply, hs, committed] using
        completeReview_frame h (of_decide_eq_false hcancel) hs
  | createFinding finding =>
    rcases hs : s.createFinding (some c) finding with e | s'
    · simp [HandleWrite.apply, hs, committed]
    · simpa [HandleWrite.apply, hs, committed] using createFinding_frame h hs
  | createToolUsage usage now => exact createToolUsage_frame h
  | updateToolUsageLength rid toolName arguments outputLength => cases hlength
  | updatePatchStatus patchId status =>
    exact updatePatchStatus_frame h (of_decide_eq_false hcancel)
  | settlePanickedPatchReview q patchId reason => exact settlePanickedPatchReview_frame h
  | failOrphanedInReviewRows q reason => exact failOrphanedInReviewRows_frame h

/-- A write of the 'Cancelled' status changes a cancelled patchset only. -/
theorem cancellation_needs_cancelled (w : HandleWrite) (hcancel : w.cancels = true)
    (h : s.patchsetIs p .cancelled = false) :
    (w.apply claim s).patchsetData p = s.patchsetData p := by
  have hreview : ∀ r ∈ s.reviews.rows, s.reviewStatusWritable claim .cancelled r = true →
      r.patchsetId ≠ p := by
    rintro r _ hw rfl
    simp [reviewStatusWritable, h] at hw
  cases w with
  | updateReviewStatus rid status logs =>
    obtain rfl := of_decide_eq_true hcancel
    unfold HandleWrite.apply updateReviewStatus
    apply patchsetData_setReviews
    intro r hr hsel
    rw [Bool.and_eq_true] at hsel
    exact hreview r hr hsel.2
  | completeReview rid result =>
    have hstatus : result.status = .cancelled := of_decide_eq_true hcancel
    by_cases hany : (s.reviews.any fun r => r.id = rid &&
        s.reviewStatusWritable claim result.status r) = true
    · simp only [HandleWrite.apply, completeReview, hany, if_true, committed]
      apply patchsetData_setReviews
      intro r hr hsel
      rw [Bool.and_eq_true, hstatus] at hsel
      exact hreview r hr hsel.2
    · simp only [HandleWrite.apply, completeReview, hany, committed]
      rfl
  | updatePatchStatus patchId status =>
    obtain rfl := of_decide_eq_true hcancel
    unfold HandleWrite.apply updatePatchStatus
    apply patchsetData_setPatches
    rintro r _ hsel rfl
    simp [patchStatusWritable, h] at hsel
  | claimOrCreateInReview | createFinding | createToolUsage | updateToolUsageLength
  | settlePanickedPatchReview | failOrphanedInReviewRows => cases hcancel

end Sashiko
