import Sashiko.Db.LeaseRuns
import Sashiko.Lib.Fallible

/-! Every call moves every bug by one of the steps of the lease protocol. -/

namespace Sashiko

open BugStore

variable {s s' : BugStore} {now : ℤ} {call : BugCall}

theorem LeaseStep.then_same {b b' b'' : BugRow} (h : LeaseStep s now call b b')
    (hsame : SameLease b' b'') : LeaseStep s now call b b'' := by
  rcases h with h | ⟨hstate, hlock, hlease, hcount⟩ | ⟨hleased, hstate, hstate', hlock, hcount⟩ |
    ⟨hlock, hcount⟩ | ⟨w, ttl, m, hcall, hgranted, hclaimable, hstate, hlock, hcount⟩ |
    ⟨w, hgranted, hover, hstate, hlock, hcount⟩
  · exact .kept (h.trans hsame)
  · exact .succeeded (hsame.pipelineState.trans hstate) (hsame.lockedBy.trans hlock)
      (hsame.leaseExpiresAt.trans hlease) (hsame.attemptCount.trans hcount)
  · exact .renewed hleased hstate (hsame.pipelineState.trans hstate')
      (hsame.lockedBy.trans hlock) (hsame.attemptCount.trans hcount)
  · exact .released (hsame.lockedBy.trans hlock) (hsame.attemptCount.trans hcount)
  · exact .attempt w ttl m hcall hgranted hclaimable (hsame.pipelineState.trans hstate)
      (hsame.lockedBy.trans hlock) (hsame.attemptCount.trans hcount)
  · exact .fixCheck w hgranted hover (hsame.pipelineState.trans hstate)
      (hsame.lockedBy.trans hlock) (hsame.attemptCount.trans hcount)

/-! ### What leaves every lease alone -/

def LeaseFrame (s s' : BugStore) : Prop :=
  ∀ b' ∈ s'.bugs.rows, ∃ b ∈ s.bugs.rows, SameLease b b'

theorem LeaseFrame.refl (s : BugStore) : LeaseFrame s s :=
  fun b hb => ⟨b, hb, SameLease.refl b⟩

theorem LeaseFrame.trans {s₁ s₂ s₃ : BugStore} (h₁ : LeaseFrame s₁ s₂) (h₂ : LeaseFrame s₂ s₃) :
    LeaseFrame s₁ s₃ := by
  intro b₃ hb₃
  obtain ⟨b₂, hb₂, h₂₃⟩ := h₂ b₃ hb₃
  obtain ⟨b₁, hb₁, h₁₂⟩ := h₁ b₂ hb₂
  exact ⟨b₁, hb₁, h₁₂.trans h₂₃⟩

theorem mem_setBugs {sel : BugRow → Bool} {f : BugRow → BugRow} {hf} {b' : BugRow}
    (hb' : b' ∈ (s.setBugs sel f hf).bugs.rows) :
    ∃ b ∈ s.bugs.rows, (sel b = true ∧ b' = f b) ∨ (sel b = false ∧ b' = b) := by
  obtain ⟨b, hb, rfl⟩ := (Table.mem_update hf).mp hb'
  refine ⟨b, hb, ?_⟩
  unfold Table.updateRow
  split_ifs with hsel
  · exact .inl ⟨hsel, rfl⟩
  · exact .inr ⟨Bool.eq_false_iff.mpr hsel, rfl⟩

theorem updated_mem_setBugs {sel : BugRow → Bool} {f : BugRow → BugRow} {hf} {b : BugRow}
    (hb : b ∈ s.bugs.rows) (hsel : sel b = true) : f b ∈ (s.setBugs sel f hf).bugs.rows :=
  (Table.mem_update hf).mpr ⟨b, hb, if_pos hsel⟩

theorem leaseFrame_setBugs {sel : BugRow → Bool} {f : BugRow → BugRow} {hf}
    (h : ∀ b, SameLease b (f b)) : LeaseFrame s (s.setBugs sel f hf) := by
  intro b' hb'
  obtain ⟨b, hb, ⟨_, rfl⟩ | ⟨_, rfl⟩⟩ := mem_setBugs hb'
  · exact ⟨b, hb, h b⟩
  · exact ⟨b', hb, SameLease.refl b'⟩

theorem leaseFrame_projectVerification (bugId : ℤ) (e : NewBugEnrichment) :
    LeaseFrame s (s.projectVerification bugId e) := by
  unfold projectVerification
  split
  · exact leaseFrame_setBugs fun b => ⟨rfl, rfl, rfl, rfl, rfl⟩
  · exact LeaseFrame.refl s

theorem leaseFrame_insertBugEnrichment {bugId : ℤ} {e : NewBugEnrichment}
    (h : s.insertBugEnrichment bugId e now = .ok s') : LeaseFrame s s' := by
  unfold insertBugEnrichment at h
  split at h
  · cases h
    exact leaseFrame_projectVerification bugId e
  · cases h

theorem leaseFrame_insertBugEnrichments {bugId : ℤ} (es : List NewBugEnrichment) :
    ∀ s : BugStore, s.insertBugEnrichments bugId now es = .ok s' → LeaseFrame s s' := by
  induction es with
  | nil =>
    intro s h
    cases h
    exact LeaseFrame.refl _
  | cons e es ih =>
    intro s h
    obtain ⟨s₁, he, hes⟩ := bind_ok h
    exact (leaseFrame_insertBugEnrichment he).trans (ih s₁ hes)

theorem leaseFrame_retitle (id : ℤ) (problem : Option String) :
    LeaseFrame s (s.retitle id problem now) := by
  rcases problem with _ | title
  · exact LeaseFrame.refl s
  · exact leaseFrame_setBugs fun b => ⟨rfl, rfl, rfl, rfl, rfl⟩

theorem leaseFrame_triageNewBug {id : ℤ} {status : BugLifecycleStatus}
    (h : s.triageNewBug id status now = .ok s') : LeaseFrame s s' := by
  unfold triageNewBug at h
  split at h
  · cases h
    exact leaseFrame_setBugs fun b => ⟨rfl, rfl, rfl, rfl, rfl⟩
  · split at h
    · cases h
    · cases h
      exact LeaseFrame.refl s

theorem leaseFrame_advance {id : ℤ} {params : UpstreamFixCheckParams}
    (h : s.advanceLatestVerificationSha id params now = .ok s') : LeaseFrame s s' := by
  unfold advanceLatestVerificationSha at h
  split at h
  · cases h
    exact LeaseFrame.refl s
  · exact leaseFrame_insertBugEnrichment h

theorem leaseFrame_recordStillPresent {id : ℤ} {params : UpstreamFixCheckParams}
    (h : s.recordStillPresent id params now = .ok s') : LeaseFrame s s' := by
  unfold recordStillPresent at h
  split at h
  · exact leaseFrame_insertBugEnrichment h
  · exact leaseFrame_advance h

/-! ### One call -/

theorem rowStep_of_frame (h : LeaseFrame s s') {b' : BugRow} (hb' : b' ∈ s'.bugs.rows) :
    RowStep s now call b' := by
  obtain ⟨b, hb, hsame⟩ := h b' hb'
  exact .inl ⟨b, hb, hsame.id, .kept hsame⟩

theorem rowStep_setBugs {sel : BugRow → Bool} {f : BugRow → BugRow} {hf}
    (h : ∀ b ∈ s.bugs.rows, sel b = true → LeaseStep s now call b (f b)) {b' : BugRow}
    (hb' : b' ∈ (s.setBugs sel f hf).bugs.rows) : RowStep s now call b' := by
  obtain ⟨b, hb, ⟨hsel, rfl⟩ | ⟨_, rfl⟩⟩ := mem_setBugs hb'
  · exact .inl ⟨b, hb, hf b, h b hb hsel⟩
  · exact .inl ⟨b', hb, rfl, .kept (SameLease.refl b')⟩

theorem rowStep_then_frame {s'' : BugStore} (hframe : LeaseFrame s' s'') {b'' : BugRow}
    (hb'' : b'' ∈ s''.bugs.rows) (h : ∀ b' ∈ s'.bugs.rows, RowStep s now call b') :
    RowStep s now call b'' := by
  obtain ⟨b', hb', hsame⟩ := hframe b'' hb''
  rcases h b' hb' with ⟨b, hb, hid, hstep⟩ | ⟨hfresh, hcreated⟩
  · exact .inl ⟨b, hb, hsame.id.trans hid, hstep.then_same hsame⟩
  · refine .inr ⟨fun b hb => hsame.id ▸ hfresh b hb, ?_⟩
    rcases hcreated with ⟨hlock, hcount⟩ | ⟨w, hgranted, hattempted, hstate, hlock, hcount⟩
    · exact .free (hsame.lockedBy.trans hlock) (hsame.attemptCount.trans hcount)
    · exact .claimed w (hsame.id ▸ hgranted) (hsame.id ▸ hattempted)
        (hsame.pipelineState.trans hstate) (hsame.lockedBy.trans hlock)
        (hsame.attemptCount.trans hcount)

theorem insertBug_rows {bug : NewBug} {id : ℤ} (h : s.insertBug bug now = .ok (id, s')) :
    (∀ b ∈ s.bugs.rows, b.id ≠ id) ∧
      ∀ b' ∈ s'.bugs.rows, b' ∈ s.bugs.rows ∨
        (b'.id = id ∧ b'.lockedBy = none ∧ b'.attemptCount = 0) := by
  unfold insertBug at h
  split at h
  · cases h
  · split at h
    · cases h
    · split at h
      · cases h
        refine ⟨?_, ?_⟩
        · intro b hb
          exact Table.key_ne_nextKey hb 0
        · intro b' hb'
          rcases Table.mem_insertNext.mp hb' with hb' | rfl
          · exact .inl hb'
          · exact .inr ⟨rfl, rfl, rfl⟩
      · cases h

theorem createBugWithEnrichment_rows {bug : NewBug} {e : Option NewBugEnrichment} {id : ℤ}
    (h : s.createBugWithEnrichment bug e now = .ok (id, s')) :
    (∀ b ∈ s.bugs.rows, b.id ≠ id) ∧
      ∀ b' ∈ s'.bugs.rows, (∃ b ∈ s.bugs.rows, SameLease b b') ∨
        (b'.id = id ∧ b'.lockedBy = none ∧ b'.attemptCount = 0) := by
  obtain ⟨⟨id₁, s₁⟩, hins, h⟩ := bind_ok h
  obtain ⟨s₂, henr, h⟩ := bind_ok h
  cases h
  obtain ⟨hfresh, hrows⟩ := insertBug_rows hins
  refine ⟨hfresh, ?_⟩
  intro b' hb'
  obtain ⟨b₁, hb₁, hsame⟩ := leaseFrame_insertBugEnrichments _ s₁ henr b' hb'
  rcases hrows b₁ hb₁ with hold | ⟨hid, hlock, hcount⟩
  · exact .inl ⟨b₁, hold, hsame⟩
  · exact .inr ⟨hsame.id.trans hid, hsame.lockedBy.trans hlock, hsame.attemptCount.trans hcount⟩

theorem rowStep_createBug {bug : NewBug} {e : Option NewBugEnrichment} {id : ℤ}
    (h : s.createBugWithEnrichment bug e now = .ok (id, s')) {b' : BugRow}
    (hb' : b' ∈ s'.bugs.rows) : RowStep s now call b' := by
  obtain ⟨hfresh, hrows⟩ := createBugWithEnrichment_rows h
  rcases hrows b' hb' with ⟨b, hb, hsame⟩ | ⟨hid, hlock, hcount⟩
  · exact .inl ⟨b, hb, hsame.id, .kept hsame⟩
  · exact .inr ⟨fun b hb => hid ▸ hfresh b hb, .free hlock hcount⟩

theorem rowStep_createClaimedBug {bug : NewBug} {e : Option NewBugEnrichment}
    {workerId : String} {ttl id : ℤ}
    (h : s.createClaimedBugWithEnrichment bug e workerId ttl now = .ok (id, s')) {b' : BugRow}
    (hb' : b' ∈ s'.bugs.rows) :
    RowStep s now (.createClaimedBugWithEnrichment bug e workerId ttl) b' := by
  have hgranted : BugCall.granted s now (.createClaimedBugWithEnrichment bug e workerId ttl) =
      some ⟨id, workerId⟩ := by
    simp only [BugCall.granted, h]
  unfold createClaimedBugWithEnrichment at h
  rcases hcreate : s.createBugWithEnrichment bug e now with err | ⟨id₁, s₁⟩
  · rw [hcreate] at h
    cases h
  · rw [hcreate] at h
    cases h
    obtain ⟨hfresh, hrows⟩ := createBugWithEnrichment_rows hcreate
    obtain ⟨b, hb, ⟨hsel, rfl⟩ | ⟨hsel, rfl⟩⟩ := mem_setBugs hb'
    · have hid : b.id = id := of_decide_eq_true hsel
      refine .inr ⟨fun x hx => hid ▸ hfresh x hx, ?_⟩
      exact .claimed workerId (hid ▸ hgranted)
        (by simp only [BugCall.attempted, hgranted, Option.map_some, hid]) rfl rfl rfl
    · rcases hrows b' hb with ⟨b₀, hb₀, hsame⟩ | ⟨hid, _, _⟩
      · exact .inl ⟨b₀, hb₀, hsame.id, .kept hsame⟩
      · exact absurd hid (of_decide_eq_false hsel)

theorem rowStep_claimPendingBug {workerId : String} {ttl maxAttempts : ℤ} {b' : BugRow}
    (hb' : b' ∈ (s.claimPendingBug workerId ttl maxAttempts now).2.bugs.rows) :
    RowStep s now (.claimPendingBug workerId ttl maxAttempts) b' := by
  rcases hmin : s.bugs.earliestBy (claimable now maxAttempts) (·.createdAt) with _ | bug
  · simp only [claimPendingBug, hmin] at hb'
    exact rowStep_of_frame (LeaseFrame.refl s) hb'
  · obtain ⟨hmem, hclaimable⟩ := Table.selected_of_earliestBy hmin
    simp only [claimPendingBug, hmin] at hb'
    refine rowStep_setBugs (fun b hb hsel => ?_) hb'
    obtain rfl : b = bug := Table.eq_of_key_eq hb hmem (of_decide_eq_true hsel)
    refine .attempt workerId ttl maxAttempts rfl ?_ hclaimable rfl rfl rfl
    simp only [BugCall.granted, claimPendingBug, hmin, Option.map_some]

theorem needsFixCheck_spec {sha : String} {b : BugRow} (h : needsFixCheck now sha b = true) :
    b.pipelineState = .succeeded ∧ b.leaseOver now = true := by
  simp only [needsFixCheck, Bool.and_eq_true, decide_eq_true_eq] at h
  exact ⟨h.1.1.2, h.2⟩

theorem rowStep_claimOpenBug {sha workerId : String} {ttl : ℤ} {b' : BugRow}
    (hb' : b' ∈ (s.claimOpenBugForFixCheck sha workerId ttl now).2.bugs.rows) :
    RowStep s now (.claimOpenBugForFixCheck sha workerId ttl) b' := by
  unfold claimOpenBugForFixCheck at hb'
  split at hb'
  · exact rowStep_of_frame (LeaseFrame.refl s) hb'
  · rename_i hsha
    split at hb'
    · rename_i bug hmin
      obtain ⟨hmem, hneeds⟩ := Table.selected_of_earliestBy hmin
      obtain ⟨hstate, hover⟩ := needsFixCheck_spec hneeds
      refine rowStep_setBugs (fun b hb hsel => ?_) hb'
      obtain rfl : b = bug := Table.eq_of_key_eq hb hmem (of_decide_eq_true hsel)
      refine .fixCheck workerId ?_ hover hstate rfl rfl
      simp only [BugCall.granted, claimOpenBugForFixCheck, hsha, if_false, hmin,
        Option.map_some]
    · exact rowStep_of_frame (LeaseFrame.refl s) hb'

theorem heldBy_spec {claim : BugAnalysisClaim} {b : BugRow} (h : b.heldBy claim now = true) :
    b.id = claim.bugId ∧ b.lockedBy = some claim.owner ∧ b.leased now = true ∧
      (b.pipelineState = .running ∨ b.pipelineState = .succeeded) := by
  simpa [BugRow.heldBy, and_assoc] using h

theorem rowStep_renewBugLease {id ttl : ℤ} {workerId : String} {b' : BugRow}
    (hb' : b' ∈ (s.renewBugLease id workerId ttl now).2.bugs.rows) : RowStep s now call b' := by
  refine rowStep_setBugs (fun b _ hsel => ?_) hb'
  obtain ⟨_, _, hleased, hstate⟩ := heldBy_spec hsel
  exact .renewed hleased hstate rfl rfl rfl

theorem rowStep_release {sel : BugRow → Bool} {f : BugRow → BugRow} {hf} {b' : BugRow}
    (hb' : b' ∈ (s.setBugs sel f hf).bugs.rows)
    (h : ∀ b, (f b).lockedBy = none ∧ (f b).attemptCount = b.attemptCount) :
    RowStep s now call b' :=
  rowStep_setBugs (fun b _ _ => .released (h b).1 (h b).2) hb'

theorem rowStep_updateBugOutcome {claim : Option BugAnalysisClaim} {id : ℤ}
    {params : UpdateBugOutcomeParams} (h : s.updateBugOutcome claim id params now = .ok s')
    {b' : BugRow} (hb' : b' ∈ s'.bugs.rows) : RowStep s now call b' := by
  obtain ⟨_, _, h⟩ := bind_ok h
  obtain ⟨s₁, htriage, h⟩ := bind_ok h
  obtain ⟨s₂, henr, h⟩ := bind_ok h
  cases h
  have hframe : LeaseFrame s s₂ := ((leaseFrame_retitle id params.problem).trans
    (leaseFrame_triageNewBug htriage)).trans (leaseFrame_insertBugEnrichments _ s₁ henr)
  obtain ⟨b₂, hb₂, ⟨_, rfl⟩ | ⟨_, rfl⟩⟩ := mem_setBugs hb'
  · obtain ⟨b, hb, hsame⟩ := hframe b₂ hb₂
    exact .inl ⟨b, hb, hsame.id,
      .succeeded rfl hsame.lockedBy hsame.leaseExpiresAt hsame.attemptCount⟩
  · exact rowStep_of_frame hframe hb₂

theorem rowStep_recordUpstreamFixCheck {claim : Option BugAnalysisClaim} {id : ℤ}
    {params : UpstreamFixCheckParams} {applied : Bool}
    (h : s.recordUpstreamFixCheck claim id params now = .ok (applied, s')) {b' : BugRow}
    (hb' : b' ∈ s'.bugs.rows) : RowStep s now call b' := by
  unfold recordUpstreamFixCheck at h
  split at h
  · split at h
    · obtain ⟨s₁, hadvance, h⟩ := bind_ok h
      obtain ⟨s₂, hinsert, h⟩ := bind_ok h
      cases h
      exact rowStep_then_frame
        ((leaseFrame_advance hadvance).trans (leaseFrame_insertBugEnrichment hinsert)) hb'
        fun _ hb => rowStep_release hb fun _ => ⟨rfl, rfl⟩
    · obtain ⟨s₁, hrecord, h⟩ := bind_ok h
      cases h
      exact rowStep_then_frame (leaseFrame_recordStillPresent hrecord) hb'
        fun _ hb => rowStep_release hb fun _ => ⟨rfl, rfl⟩
  · cases h
    exact rowStep_of_frame (LeaseFrame.refl s) hb'

theorem rowStep_exec (h : call.exec s now = .ok s') {b' : BugRow} (hb' : b' ∈ s'.bugs.rows) :
    RowStep s now call b' := by
  cases call with
  | createBugWithEnrichment bug e =>
    obtain ⟨⟨id, s₁⟩, hcreate, rfl⟩ := map_ok h
    exact rowStep_createBug hcreate hb'
  | createClaimedBugWithEnrichment bug e workerId ttl =>
    obtain ⟨⟨id, s₁⟩, hcreate, rfl⟩ := map_ok h
    exact rowStep_createClaimedBug hcreate hb'
  | claimPendingBug workerId ttl maxAttempts =>
    cases h
    exact rowStep_claimPendingBug hb'
  | claimOpenBugForFixCheck sha workerId ttl =>
    cases h
    exact rowStep_claimOpenBug hb'
  | renewBugLease id workerId ttl =>
    cases h
    exact rowStep_renewBugLease hb'
  | releaseBugLease claim id =>
    obtain ⟨_, _, h⟩ := bind_ok h
    cases h
    exact rowStep_release hb' fun _ => ⟨rfl, rfl⟩
  | addBugEnrichment claim id e =>
    obtain ⟨_, _, h⟩ := bind_ok h
    exact rowStep_of_frame (leaseFrame_insertBugEnrichment h) hb'
  | updateBugOutcome claim id params => exact rowStep_updateBugOutcome h hb'
  | failBugAnalysis claim id error =>
    obtain ⟨_, _, h⟩ := bind_ok h
    split at h
    · cases h
    · cases h
      exact rowStep_release hb' fun _ => ⟨rfl, rfl⟩
  | recordUpstreamFixCheck claim id params =>
    obtain ⟨⟨applied, s₁⟩, hrecord, rfl⟩ := map_ok h
    exact rowStep_recordUpstreamFixCheck hrecord hb'
  | touchBugFixCheckTimestamp claim id =>
    cases h
    exact rowStep_release hb' fun _ => ⟨rfl, rfl⟩
  | abandonExhaustedBugs maxAttempts =>
    cases h
    exact rowStep_release hb' fun _ => ⟨rfl, rfl⟩
  | recoverStaleRunningBugs =>
    cases h
    exact rowStep_release hb' fun _ => ⟨rfl, rfl⟩

/-- Every bug after a call comes from a bug before it by a step of the protocol, or is new. -/
theorem rowStep {b' : BugRow} (hb' : b' ∈ (call.step s now).bugs.rows) :
    RowStep s now call b' := by
  unfold BugCall.step at hb'
  split at hb'
  · rename_i s' hexec
    exact rowStep_exec hexec hb'
  · exact rowStep_of_frame (LeaseFrame.refl s) hb'

end Sashiko
