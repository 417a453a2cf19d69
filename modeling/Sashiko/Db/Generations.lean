import Sashiko.Db.Fencing

/-! Generations over whole runs: a generation is handed out once, in increasing order, and a
handle that lost its patchset never gets it back. -/

namespace Sashiko

open Store

variable {s : Store} {claim : Option PatchsetReviewClaim} {c : PatchsetReviewClaim} {p : ℤ}

/-- The last generation handed out. -/
def Store.genSeq (s : Store) : ℤ := s.patchsetGenSeq.getD 0

theorem nextGeneration_eq (s : Store) : nextGeneration s.patchsetGenSeq = s.genSeq + 1 := by
  unfold nextGeneration genSeq
  rcases s.patchsetGenSeq with _ | value
  · rfl
  · rfl

/-- `meta`'s generation keys stand as they were. -/
def SameKeys (s s' : Store) : Prop :=
  s'.patchsetGenSeq = s.patchsetGenSeq ∧ s'.patchsetActiveGen = s.patchsetActiveGen

theorem clearAborted_sameKeys {s' : Store} {rid : ℤ}
    (hs : s.clearAbortedReviewArtifactsInTx claim rid = .ok s') : SameKeys s s' := by
  unfold clearAbortedReviewArtifactsInTx at hs
  split at hs
  · cases hs
    exact ⟨rfl, rfl⟩
  · cases hs

theorem claimPending_sameKeys {s' : Store} {q : ℤ} {patchId o : Option ℤ}
    (hs : s.claimPendingReviewIdInTx claim q patchId = .ok (o, s')) : SameKeys s s' := by
  unfold claimPendingReviewIdInTx at hs
  split at hs
  · rename_i r _
    rcases hclear : clearAbortedReviewArtifactsInTx _ claim r.id with e | s₁
    · rw [hclear] at hs
      cases hs
    · rw [hclear] at hs
      cases hs
      have hkeys := clearAborted_sameKeys hclear
      exact hkeys
  · cases hs
    exact ⟨rfl, rfl⟩

theorem claimOrCreate_sameKeys {s' : Store} {req : ReviewRequest} {now id : ℤ}
    (hs : s.claimOrCreateInReview claim req now = .ok (id, s')) : SameKeys s s' := by
  unfold claimOrCreateInReview at hs
  split at hs
  · rcases hclaim : s.claimPendingReviewIdInTx claim req.patchsetId req.patchId with
      e | ⟨o, s₁⟩
    · rw [hclaim] at hs
      cases hs
    · rw [hclaim] at hs
      have hkeys := claimPending_sameKeys hclaim
      rcases o with _ | rid
      · cases hs
        exact hkeys
      · cases hs
        exact hkeys
  · cases hs

theorem failInReviewRows_sameKeys {reason : String} (rows : List ReviewRow) :
    ∀ s : Store, SameKeys s (rows.foldl (fun s r => s.failInReviewRow r.id reason) s) := by
  induction rows with
  | nil => intro s; exact ⟨rfl, rfl⟩
  | cons r rows ih =>
    intro s
    exact ih (s.failInReviewRow r.id reason)

theorem write_sameKeys (w : HandleWrite) : SameKeys s (w.apply claim s) := by
  cases w with
  | claimOrCreateInReview req now =>
    rcases hs : s.claimOrCreateInReview claim req now with e | ⟨id, s'⟩
    · simp only [HandleWrite.apply, hs, Except.map, committed]
      exact ⟨rfl, rfl⟩
    · simp only [HandleWrite.apply, hs, Except.map, committed]
      exact claimOrCreate_sameKeys hs
  | updateReviewStatus => exact ⟨rfl, rfl⟩
  | completeReview rid result =>
    simp only [HandleWrite.apply, completeReview]
    split <;> exact ⟨rfl, rfl⟩
  | createFinding finding =>
    simp only [HandleWrite.apply, createFinding]
    split <;> exact ⟨rfl, rfl⟩
  | createToolUsage usage now =>
    simp only [HandleWrite.apply, createToolUsage]
    split <;> exact ⟨rfl, rfl⟩
  | updateToolUsageLength rid toolName arguments outputLength =>
    simp only [HandleWrite.apply, updateToolUsageLength]
    split <;> exact ⟨rfl, rfl⟩
  | updatePatchStatus => exact ⟨rfl, rfl⟩
  | settlePanickedPatchReview q patchId reason =>
    simp only [HandleWrite.apply, settlePanickedPatchReview]
    split
    · split
      · split_ifs <;> exact ⟨rfl, rfl⟩
      · exact ⟨rfl, rfl⟩
    · exact ⟨rfl, rfl⟩
  | failOrphanedInReviewRows q reason =>
    simp only [HandleWrite.apply, failOrphanedInReviewRows]
    split
    · exact failInReviewRows_sameKeys _ s
    · exact ⟨rfl, rfl⟩

/-! ### What one call does to the generations -/

/-- A call leaves the sequence alone and at most clears markers, or hands out the next
generation of the sequence and makes it the active one. -/
inductive GenerationStep (s s' : Store) : Option PatchsetReviewClaim → Prop
  | kept (hseq : s'.patchsetGenSeq = s.patchsetGenSeq)
      (hmarker : ∀ p, s'.patchsetActiveGen p = s.patchsetActiveGen p ∨
        s'.patchsetActiveGen p = none) : GenerationStep s s' none
  | allocated (id : ℤ) (hseq : s'.patchsetGenSeq = some (s.genSeq + 1))
      (hmarker : s'.patchsetActiveGen =
        Function.update s.patchsetActiveGen id (some (s.genSeq + 1))) :
      GenerationStep s s' (some ⟨id, s.genSeq + 1⟩)

theorem generationStep_of_sameKeys {s' : Store} (h : SameKeys s s') : GenerationStep s s' none :=
  .kept h.1 fun p => .inl (by rw [h.2])

theorem clearActiveGen_marker (s : Store) (id p : ℤ) :
    (s.clearActiveGen id).patchsetActiveGen p = s.patchsetActiveGen p ∨
      (s.clearActiveGen id).patchsetActiveGen p = none := by
  by_cases hp : p = id
  · right
    simp [clearActiveGen, hp]
  · left
    simp [clearActiveGen, hp]

theorem generationStep_enterReview {id : ℤ} {sel : PatchsetRow → Bool}
    {f : PatchsetRow → PatchsetRow} {hf} :
    GenerationStep s (s.enterReview id sel f hf).2
      ((s.enterReview id sel f hf).1.map fun generation => ⟨id, generation⟩) := by
  unfold enterReview
  split
  · have hnext : nextGeneration (s.setPatchsets sel f hf).patchsetGenSeq = s.genSeq + 1 :=
      nextGeneration_eq s
    simp only [allocatePatchsetReviewGenInTx, hnext, Option.map_some]
    exact .allocated id rfl rfl
  · exact generationStep_of_sameKeys ⟨rfl, rfl⟩

theorem generationStep (call : ReviewCall) :
    GenerationStep s (call.step s) (call.allocated s) := by
  cases call with
  | claimPatchsetForReviewWithGen id => exact generationStep_enterReview
  | enterPatchsetReviewWithGen id => exact generationStep_enterReview
  | releasePatchsetClaim claim =>
    rcases claim with _ | c
    · exact generationStep_of_sameKeys ⟨rfl, rfl⟩
    · simp only [ReviewCall.step, ReviewCall.allocated, releasePatchsetClaim]
      split_ifs
      · exact .kept rfl (clearActiveGen_marker s c.patchsetId)
      · exact generationStep_of_sameKeys ⟨rfl, rfl⟩
  | completePatchsetReview claim id status reason =>
    apply generationStep_of_sameKeys
    simp only [ReviewCall.step, completePatchsetReview]
    split_ifs
    · exact ⟨rfl, rfl⟩
    · rcases claim with _ | c
      · exact ⟨rfl, rfl⟩
      · dsimp only
        split_ifs <;> exact ⟨rfl, rfl⟩
  | cancelPatchset id force =>
    simp only [ReviewCall.step, ReviewCall.allocated, cancelPatchset]
    split_ifs
    · exact .kept rfl (clearActiveGen_marker s id)
    · exact generationStep_of_sameKeys ⟨rfl, rfl⟩
  | rerunPatchset id =>
    simp only [ReviewCall.step, ReviewCall.allocated, rerunPatchset]
    split_ifs
    · exact .kept rfl (clearActiveGen_marker s id)
    · exact .kept rfl (clearActiveGen_marker s id)
  | write claim w => exact generationStep_of_sameKeys (write_sameKeys w)

theorem genSeq_step_le (call : ReviewCall) : s.genSeq ≤ (call.step s).genSeq := by
  have hstep := generationStep (s := s) call
  generalize call.allocated s = o at hstep
  rcases hstep with ⟨hseq, _⟩ | ⟨id, hseq, _⟩
  · simp [genSeq, hseq]
  · simp [genSeq, hseq]

/-- A generation handed out before and not active now. -/
def Superseded (s : Store) (c : PatchsetReviewClaim) : Prop :=
  c.generation ≤ s.genSeq ∧ s.patchsetActiveGen c.patchsetId ≠ some c.generation

theorem superseded_step (call : ReviewCall) (h : Superseded s c) :
    Superseded (call.step s) c := by
  obtain ⟨hle, hne⟩ := h
  refine ⟨hle.trans (genSeq_step_le call), ?_⟩
  have hstep := generationStep (s := s) call
  generalize call.allocated s = o at hstep
  rcases hstep with ⟨_, hmarker⟩ | ⟨id, _, hmarker⟩
  · rcases hmarker c.patchsetId with h | h
    · rw [h]
      exact hne
    · rw [h]
      simp
  · rw [hmarker]
    by_cases hid : c.patchsetId = id
    · rw [hid, Function.update_self]
      intro heq
      rw [Option.some.injEq] at heq
      omega
    · rw [Function.update_of_ne hid]
      exact hne

theorem superseded_run (h : Superseded s c) (calls : List ReviewCall) :
    Superseded (s.run calls) c :=
  calls.foldlRecOn ReviewCall.step (motive := fun t => Superseded t c) h
    fun _ hb call _ => superseded_step call hb

theorem Superseded.fenced (h : Superseded s c) : Fenced s c p := by
  rintro ⟨_, hholds⟩
  unfold holdsClaim at hholds
  rw [Bool.and_eq_true, decide_eq_true_eq] at hholds
  exact h.2 hholds.2

theorem enterReview_isSome {id : ℤ} {sel : PatchsetRow → Bool}
    {f : PatchsetRow → PatchsetRow} {hf} (h : (s.enterReview id sel f hf).1.isSome) :
    (s.enterReview id sel f hf).2.patchsetActiveGen id = some (s.genSeq + 1) := by
  unfold enterReview at h ⊢
  split
  · have hnext : nextGeneration (s.setPatchsets sel f hf).patchsetGenSeq = s.genSeq + 1 :=
      nextGeneration_eq s
    simp [allocatePatchsetReviewGenInTx, hnext]
  · simp_all

theorem clearActiveGen_self (s : Store) (id : ℤ) :
    (s.clearActiveGen id).patchsetActiveGen id = none := by
  simp [clearActiveGen]

/-- Whoever held a generation of the patchset has lost it after a superseding call. -/
theorem superseded_of_supersedes {call : ReviewCall} (h : call.supersedes s c.patchsetId)
    (hle : c.generation ≤ s.genSeq) : Superseded (call.step s) c := by
  refine ⟨hle.trans (genSeq_step_le call), ?_⟩
  have hstale : (some (s.genSeq + 1) : Option ℤ) ≠ some c.generation := by
    intro heq
    rw [Option.some.injEq] at heq
    omega
  cases call with
  | claimPatchsetForReviewWithGen id =>
    obtain ⟨rfl, hsome⟩ := h
    exact (enterReview_isSome hsome) ▸ hstale
  | enterPatchsetReviewWithGen id =>
    obtain ⟨rfl, hsome⟩ := h
    exact (enterReview_isSome hsome) ▸ hstale
  | cancelPatchset id force =>
    obtain ⟨rfl, hdone⟩ := h
    simp only [ReviewCall.step, cancelPatchset] at hdone ⊢
    split_ifs at hdone ⊢
    exact (clearActiveGen_self s c.patchsetId) ▸ (Option.some_ne_none _).symm
  | rerunPatchset id =>
    obtain rfl : id = c.patchsetId := h
    simp only [ReviewCall.step, rerunPatchset]
    split_ifs
    · exact (clearActiveGen_self s c.patchsetId) ▸ (Option.some_ne_none _).symm
    · exact (clearActiveGen_self s c.patchsetId) ▸ (Option.some_ne_none _).symm
  | releasePatchsetClaim | completePatchsetReview | write => cases h

/-! ### Runs -/

theorem genSeq_run_le (calls : List ReviewCall) : s.genSeq ≤ (s.run calls).genSeq :=
  calls.foldlRecOn ReviewCall.step (motive := fun t => s.genSeq ≤ t.genSeq) le_rfl
    fun _ hb call _ => hb.trans (genSeq_step_le call)

theorem allocations_bounds (calls : List ReviewCall) :
    ∀ s : Store, ∀ a ∈ s.allocations calls,
      s.genSeq < a.generation ∧ a.generation ≤ (s.run calls).genSeq := by
  induction calls with
  | nil => intro s a ha; cases ha
  | cons call calls ih =>
    intro s a ha
    rcases List.mem_append.mp ha with ha | ha
    · rw [Option.mem_toList] at ha
      have hstep := generationStep (s := s) call
      rw [ha] at hstep
      rcases hstep with _ | ⟨id, hseq, _⟩
      refine ⟨by simp, ?_⟩
      have hseq' : (call.step s).genSeq = s.genSeq + 1 := by simp [genSeq, hseq]
      rw [← hseq']
      exact genSeq_run_le calls
    · obtain ⟨hlt, hle⟩ := ih (call.step s) a ha
      exact ⟨lt_of_le_of_lt (genSeq_step_le call) hlt, hle⟩

theorem allocations_increase (calls : List ReviewCall) :
    ∀ s : Store, (s.allocations calls).Pairwise (·.generation < ·.generation) := by
  induction calls with
  | nil => intro s; exact List.Pairwise.nil
  | cons call calls ih =>
    intro s
    refine List.pairwise_append.mpr ⟨?_, ih _, ?_⟩
    · rcases call.allocated s with _ | a
      · exact List.Pairwise.nil
      · exact List.pairwise_singleton _ _
    · intro a ha b hb
      rw [Option.mem_toList] at ha
      have hstep := generationStep (s := s) call
      rw [ha] at hstep
      rcases hstep with _ | ⟨id, hseq, _⟩
      have hlt := (allocations_bounds calls (call.step s) b hb).1
      simpa [genSeq, hseq] using hlt

/-- Generations are handed out once and in increasing order. Of the writes through a claimed
handle, the 'Cancelled' ones change cancelled patchsets only; the others, but for the length of
a tool usage, change one patchset's data and only under its active generation, so a handle that
was superseded changes nothing from then on. -/
theorem review_generations_fence (s₀ : Store) (calls : List ReviewCall) :
    (s₀.allocations calls).Pairwise (·.generation < ·.generation) ∧
    (∀ c ∈ s₀.allocations calls, s₀.genSeq < c.generation) ∧
    (∀ (c : PatchsetReviewClaim) (w : HandleWrite) (p : ℤ),
      w.cancels = false → w.updatesLength = false →
      (w.apply (some c) (s₀.run calls)).patchsetData p ≠ (s₀.run calls).patchsetData p →
      p = c.patchsetId ∧ (s₀.run calls).patchsetIs p .inReview = true ∧
        (s₀.run calls).patchsetActiveGen p = some c.generation) ∧
    (∀ (c : PatchsetReviewClaim) (w : HandleWrite) (p : ℤ), w.cancels = true →
      (w.apply (some c) (s₀.run calls)).patchsetData p ≠ (s₀.run calls).patchsetData p →
      (s₀.run calls).patchsetIs p .cancelled = true) ∧
    (∀ c ∈ s₀.allocations calls, ∀ call : ReviewCall,
      call.supersedes (s₀.run calls) c.patchsetId →
      ∀ (later : List ReviewCall) (w : HandleWrite) (p : ℤ),
        w.cancels = false → w.updatesLength = false →
        (w.apply (some c) ((call.step (s₀.run calls)).run later)).patchsetData p =
          ((call.step (s₀.run calls)).run later).patchsetData p) := by
  refine ⟨allocations_increase calls s₀, ?_, ?_, ?_, ?_⟩
  · intro c hc
    exact (allocations_bounds calls s₀ c hc).1
  · intro c w p hcancel hlength hchanged
    by_contra hno
    apply hchanged
    refine write_fenced w hcancel hlength ?_
    rintro ⟨rfl, hholds⟩
    unfold holdsClaim at hholds
    rw [Bool.and_eq_true, decide_eq_true_eq] at hholds
    exact hno ⟨rfl, hholds.1, hholds.2⟩
  · intro c w p hcancel hchanged
    by_contra hno
    rw [Bool.not_eq_true] at hno
    exact hchanged (cancellation_needs_cancelled w hcancel hno)
  · intro c hc call hsuper later w p hcancel hlength
    have hle := (allocations_bounds calls s₀ c hc).2
    have hlost := superseded_run (superseded_of_supersedes hsuper hle) later
    exact write_fenced w hcancel hlength hlost.fenced

def pendingPatchset : Store where
  patchsets := ⟨[⟨1, some .pending, none, none⟩], by decide⟩
  patchsetGenSeq := none
  patchsetActiveGen := fun _ => none
  reviewsMaxId := none
  reviews := Table.empty
  findings := Table.empty
  toolUsages := Table.empty
  patches := ⟨[⟨10, 1, some .pending, none⟩], by decide⟩

/-- A patchset cancelled after its review was written. -/
def cancelledAfterReview : List ReviewCall :=
  [.claimPatchsetForReviewWithGen 1,
   .write (some ⟨1, 1⟩) (.claimOrCreateInReview ⟨1, some 10, "", "", none, none⟩ 0),
   .write (some ⟨1, 1⟩) (.completeReview 1 ⟨.reviewed, "", none, none, none, none⟩),
   .cancelPatchset 1 true]

/-- A patchset entered again while a tool of its first review was running. -/
def enteredAgain : List ReviewCall :=
  [.claimPatchsetForReviewWithGen 1,
   .write (some ⟨1, 1⟩) (.claimOrCreateInReview ⟨1, some 10, "", "", none, none⟩ 0),
   .write (some ⟨1, 1⟩) (.createToolUsage ⟨1, "", "", "", some "", 0⟩ 0),
   .enterPatchsetReviewWithGen 1]

/-- Two writes of a superseded handle that land: it cancels a finished review of a cancelled
patchset, and sets the length of a tool usage of a patchset under review by another. -/
theorem superseded_handle_writes :
    (pendingPatchset.run cancelledAfterReview).patchsetActiveGen 1 = none ∧
    ((HandleWrite.updateReviewStatus 1 .cancelled none).apply (some ⟨1, 1⟩)
        (pendingPatchset.run cancelledAfterReview)).patchsetData 1 ≠
      (pendingPatchset.run cancelledAfterReview).patchsetData 1 ∧
    (pendingPatchset.run enteredAgain).patchsetActiveGen 1 = some 2 ∧
    ((HandleWrite.updateToolUsageLength 1 "" "" 5).apply (some ⟨1, 1⟩)
        (pendingPatchset.run enteredAgain)).patchsetData 1 ≠
      (pendingPatchset.run enteredAgain).patchsetData 1 := by
  refine ⟨?_, ?_, ?_, ?_⟩
  · decide
  · decide
  · decide
  · decide

end Sashiko
