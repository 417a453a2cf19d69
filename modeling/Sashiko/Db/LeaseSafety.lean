import Sashiko.Db.LeaseProtocol

/-! What the lease protocol guarantees of a run, and the fix-check write that escapes it. -/

namespace Sashiko

open BugStore

variable {s : BugStore} {now : ℤ} {b : BugRow}

/-- The lease protocol, over a run from `s₀`. -/
structure LeaseProtocol (s₀ : BugStore) (calls : List (ℤ × BugCall)) : Prop where
  /-- A claimed write commits only while its owner holds the lock under an unexpired lease. -/
  commits_held : ∀ before now call after c, calls = before ++ (now, call) :: after →
    call.commits (s₀.run before) now = some c → Holds (s₀.run before) now c
  /-- An owner without an unexpired lease commits again only after a new grant. -/
  lost_until_granted : ∀ before now between t later after c,
    calls = before ++ between ++ (t, later) :: after → (∀ e ∈ between, now ≤ e.1) → now ≤ t →
    ¬Holds (s₀.run before) now c → later.commits (s₀.run (before ++ between)) t = some c →
    ∃ pre u g post, between = pre ++ (u, g) :: post ∧
      g.granted (s₀.run (before ++ pre)) u = some c
  /-- Between the commits of two owners to one bug, the second was granted a lease of its own. -/
  one_owner : ∀ before now call between t later after c c',
    calls = before ++ (now, call) :: between ++ (t, later) :: after →
    call.commits (s₀.run before) now = some c →
    later.commits (s₀.run (before ++ (now, call) :: between)) t = some c' →
    c'.bugId = c.bugId → c'.owner ≠ c.owner →
    ∃ pre u g post, between = pre ++ (u, g) :: post ∧
      g.granted (s₀.run (before ++ (now, call) :: pre)) u = some c'
  /-- A grant takes no bug from an owner whose lease is still running. -/
  grants_over : ∀ before now call after c, calls = before ++ (now, call) :: after →
    call.granted (s₀.run before) now = some c → ∀ b ∈ (s₀.run before).bugs.rows,
      b.id = c.bugId → b.lockedBy = none ∨ b.leaseOver now = true
  attempts_bounded : ∀ b ∈ (s₀.run calls).bugs.rows,
    b.attemptCount ≤ maxAttemptsUsed calls + attemptsHandedOut s₀ calls b.id
  /-- An unfinished bug is under a lease, or the next claim hands out it or an older one, or the
  next sweep abandons it. -/
  none_stranded : ∀ b ∈ (s₀.run calls).bugs.rows, b.triage.lifecycleStatus ≠ .duplicate →
    b.pipelineState ≠ .succeeded → b.pipelineState ≠ .abandoned → ∀ now maxAttempts,
    (b.pipelineState = .running ∧ b.leased now = true) ∨
    (claimable now maxAttempts b = true ∧ ∀ workerId ttl, ∃ bug ∈ (s₀.run calls).bugs.rows,
      ((s₀.run calls).claimPendingBug workerId ttl maxAttempts now).1 = some bug.id ∧
        bug.createdAt ≤ b.createdAt) ∨
    (exhausted now maxAttempts b = true ∧
      ∃ b' ∈ ((s₀.run calls).abandonExhaustedBugs maxAttempts now).2.bugs.rows,
        b'.id = b.id ∧ b'.pipelineState = .abandoned)

/-! ### No bug is stranded -/

theorem unfinished_cases (hdup : b.triage.lifecycleStatus ≠ .duplicate)
    (hsucceeded : b.pipelineState ≠ .succeeded) (habandoned : b.pipelineState ≠ .abandoned)
    (now maxAttempts : ℤ) :
    (b.pipelineState = .running ∧ b.leased now = true) ∨ claimable now maxAttempts b = true ∨
      exhausted now maxAttempts b = true := by
  have hattend : (b.pipelineState = .running ∧ b.leased now = true) ∨
      b.unattended now = true := by
    rcases hstate : b.pipelineState with _ | _ | _ | _ | _
    · simp [BugRow.unattended, hstate]
    · rcases hleased : b.leased now with _ | _
      · simp [BugRow.unattended, hstate, BugRow.leaseLapsed_eq, hleased]
      · simp
    · exact absurd hstate hsucceeded
    · simp [BugRow.unattended, hstate]
    · exact absurd hstate habandoned
  rcases hattend with hheld | hunattended
  · exact .inl hheld
  · right
    rcases lt_or_ge b.attemptCount maxAttempts with hlt | hge
    · left
      simp [claimable, hlt, hdup, hunattended]
    · right
      simp [exhausted, hge, hunattended]

theorem claimPendingBug_of_claimable {maxAttempts : ℤ} (hb : b ∈ s.bugs.rows)
    (hclaimable : claimable now maxAttempts b = true) (workerId : String) (ttl : ℤ) :
    ∃ bug ∈ s.bugs.rows, (s.claimPendingBug workerId ttl maxAttempts now).1 = some bug.id ∧
      bug.createdAt ≤ b.createdAt := by
  have hsome := Table.earliestBy_isSome (f := BugRow.createdAt) hb hclaimable
  obtain ⟨bug, hmin⟩ := Option.isSome_iff_exists.mp hsome
  obtain ⟨hmem, _⟩ := Table.selected_of_earliestBy hmin
  refine ⟨bug, hmem, ?_, Table.earliestBy_le hmin hb hclaimable⟩
  simp [claimPendingBug, hmin]

theorem abandoned_of_exhausted {maxAttempts : ℤ} (hb : b ∈ s.bugs.rows)
    (hexhausted : exhausted now maxAttempts b = true) :
    ∃ b' ∈ (s.abandonExhaustedBugs maxAttempts now).2.bugs.rows,
      b'.id = b.id ∧ b'.pipelineState = .abandoned :=
  ⟨_, updated_mem_setBugs hb hexhausted, rfl, rfl⟩

/-! ### The protocol -/

/-- From an empty bug table and on a clock that does not run backwards, the protocol holds in
every run whose claimed fix-check writes come before their lease runs out. -/
theorem leaseProtocol_of_fixChecksInTime {s₀ : BugStore} {calls : List (ℤ × BugCall)}
    (hnew : s₀.bugs.rows = []) (hclock : calls.Pairwise (·.1 ≤ ·.1))
    (hfix : FixChecksInTime s₀ calls) : LeaseProtocol s₀ calls where
  commits_held := by
    rintro before now call after c rfl hcommits
    exact holds_of_commits (fixCheckInTime_of_run hfix) hcommits
  lost_until_granted := by
    rintro before now between t later after c rfl hfrom hle hlost hcommits
    have hholds := holds_of_commits (fixCheckInTime_of_run hfix) hcommits
    rw [run_append] at hholds
    rw [List.append_assoc, List.pairwise_append, List.pairwise_append] at hclock
    obtain ⟨_, ⟨hsorted, _, hto⟩, _⟩ := hclock
    obtain ⟨pre, u, g, post, rfl, hgranted⟩ := grant_before_holding between hlost hfrom hsorted
      (fun e he => hto e he _ List.mem_cons_self) hle hholds
    exact ⟨pre, u, g, post, rfl, by rw [run_append]; exact hgranted⟩
  one_owner := by
    rintro before now call between t later after c c' rfl hcommits hcommits' hbug howner
    have hholds' := holds_of_commits (fixCheckInTime_of_run hfix) hcommits'
    rw [List.append_assoc] at hfix hclock
    have hholds := holds_of_commits (fixCheckInTime_of_run hfix) hcommits
    rw [List.pairwise_append] at hclock
    obtain ⟨_, hclock, _⟩ := hclock
    rw [List.cons_append, List.pairwise_cons, List.pairwise_append] at hclock
    obtain ⟨hfrom, hsorted, _, hto⟩ := hclock
    have hlost : ¬Holds (call.step (s₀.run before) now) now c' := by
      intro hstep
      rcases holds_of_step le_rfl hstep with hold | hnew
      · exact howner (hholds.owner_unique hold hbug)
      · rw [granted_eq_none_of_commits hcommits] at hnew
        cases hnew
    rw [run_append] at hholds'
    obtain ⟨pre, u, g, post, rfl, hgranted⟩ := grant_before_holding between hlost
      (fun e he => hfrom e (List.mem_append_left _ he)) hsorted
      (fun e he => hto e he _ List.mem_cons_self)
      (hfrom _ (List.mem_append_right _ List.mem_cons_self)) hholds'
    exact ⟨pre, u, g, post, rfl, by rw [run_append]; exact hgranted⟩
  grants_over := by
    rintro before now call after c rfl hgranted
    have hwaiting : WaitingUnlocked s₀ := by
      intro b hb
      rw [hnew] at hb
      cases hb
    exact granted_over (waitingUnlocked_run before hwaiting) hgranted
  attempts_bounded := by
    intro b hb
    have hrun := attemptCount_run (k := fun _ => 0) (maxAttemptsUsed_nonneg calls) calls le_rfl
      (s := s₀) (by simp [hnew]) b hb
    simpa using hrun
  none_stranded := by
    intro b hb hdup hsucceeded habandoned now maxAttempts
    rcases unfinished_cases hdup hsucceeded habandoned now maxAttempts with h | h | h
    · exact .inl h
    · exact .inr (.inl ⟨h, claimPendingBug_of_claimable hb h⟩)
    · exact .inr (.inr ⟨h, abandoned_of_exhausted hb h⟩)

/-! ### The write that escapes it -/

def noBugs : BugStore where
  toStore :=
    { patchsets := Table.empty, patchsetGenSeq := none, patchsetActiveGen := fun _ => none,
      reviewsMaxId := none, reviews := Table.empty, findings := Table.empty,
      toolUsages := Table.empty, patches := Table.empty }
  bugs := Table.empty
  bugEnrichments := Table.empty
  bugReviews := Table.empty
  preexistingDisclosures := Table.empty

/-- An open bug, verified on commit `a` and claimed at clock 0 for 300 seconds; its fix check at
commit `b` is recorded at clock `t`. -/
def fixCheckAt (t : ℤ) : List (ℤ × BugCall) :=
  [(0, .createBugWithEnrichment ⟨"linux-1", "leak", .«open», .succeeded, 0, none⟩
      (some ⟨"verification", 0, none, some (.obj [("verified_on_sha", .str "a")])⟩)),
   (0, .claimOpenBugForFixCheck "b" "worker" 300),
   (t, .recordUpstreamFixCheck (some ⟨1, "worker"⟩) 1
      ⟨"b", none, none, none, none, none, false⟩)]

theorem leaseProtocol_fixCheckAt_100 : LeaseProtocol noBugs (fixCheckAt 100) :=
  leaseProtocol_of_fixChecksInTime rfl (by decide)
    ⟨trivial, trivial, by unfold BugCall.FixCheckInTime; decide, trivial⟩

/-- Recorded 1000 seconds later, 700 after the lease ran out, the fix check still commits. -/
theorem late_fixCheck_commits : ¬LeaseProtocol noBugs (fixCheckAt 1000) := by
  intro h
  obtain ⟨b, hb, _, _, hleased⟩ := h.commits_held (fixCheckAt 1000).dropLast 1000
    (.recordUpstreamFixCheck (some ⟨1, "worker"⟩) 1 ⟨"b", none, none, none, none, none, false⟩)
    [] ⟨1, "worker"⟩ rfl (by decide)
  revert b
  decide

end Sashiko
