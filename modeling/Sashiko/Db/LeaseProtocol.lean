import Sashiko.Db.LeaseSteps

/-! The lease protocol over whole runs: who may commit, who may claim, how many attempts a bug
takes, and that no bug is left behind. -/

namespace Sashiko

open BugStore

variable {s s' : BugStore} {now : ℤ} {call : BugCall} {c : BugAnalysisClaim}

/-- The bug is locked by the claim's owner and the lease has not expired. -/
def Holds (s : BugStore) (now : ℤ) (c : BugAnalysisClaim) : Prop :=
  ∃ b ∈ s.bugs.rows, b.id = c.bugId ∧ b.lockedBy = some c.owner ∧ b.leased now = true

theorem leased_mono {b : BugRow} {t : ℤ} (hle : now ≤ t) (h : b.leased t = true) :
    b.leased now = true := by
  obtain ⟨expiry, hexpiry, ht⟩ := BugRow.leased_iff.mp h
  exact BugRow.leased_iff.mpr ⟨expiry, hexpiry, hle.trans ht⟩

theorem leased_congr {b b' : BugRow} (h : b'.leaseExpiresAt = b.leaseExpiresAt) (t : ℤ) :
    b'.leased t = b.leased t := by
  unfold BugRow.leased
  rw [h]

theorem Holds.mono {t : ℤ} (hle : now ≤ t) (h : Holds s t c) : Holds s now c := by
  obtain ⟨b, hb, hid, hlock, hleased⟩ := h
  exact ⟨b, hb, hid, hlock, leased_mono hle hleased⟩

theorem Holds.owner_unique {c' : BugAnalysisClaim} (h : Holds s now c) (h' : Holds s now c')
    (hid : c'.bugId = c.bugId) : c'.owner = c.owner := by
  obtain ⟨b, hb, hbid, hlock, _⟩ := h
  obtain ⟨b', hb', hbid', hlock', _⟩ := h'
  have hkey : b'.id = b.id := by rw [hbid, hbid', hid]
  obtain rfl := Table.eq_of_key_eq hb' hb hkey
  rw [hlock] at hlock'
  exact (Option.some.inj hlock').symm

/-- A lease is held after a call only if it was held before or the call granted it. -/
theorem holds_of_step {t : ℤ} (hle : now ≤ t) (h : Holds (call.step s t) t c) :
    Holds s now c ∨ call.granted s t = some c := by
  obtain ⟨b', hb', hid', hlock', hleased'⟩ := h
  have hnone : b'.lockedBy ≠ none := by
    rw [hlock']
    exact Option.some_ne_none _
  rcases rowStep hb' with ⟨b, hb, hid, hstep⟩ | ⟨_, hcreated⟩
  · have hbid : b.id = c.bugId := hid ▸ hid'
    have hheld : b'.lockedBy = b.lockedBy → b.leased t = true → Holds s now c :=
      fun hlock hleased => ⟨b, hb, hbid, hlock ▸ hlock', leased_mono hle hleased⟩
    have hgrant : ∀ w, b'.lockedBy = some w → call.granted s t = some ⟨b.id, w⟩ →
        call.granted s t = some c := by
      intro w hlock hgranted
      rw [hlock, Option.some.injEq] at hlock'
      rw [hgranted, hbid, hlock']
    rcases hstep with hsame | ⟨_, hlock, hlease, _⟩ | ⟨hleased, _, _, hlock, _⟩ | ⟨hlock, _⟩ |
      ⟨w, _, _, _, hgranted, _, _, hlock, _⟩ | ⟨w, hgranted, _, _, hlock, _⟩
    · exact .inl (hheld hsame.lockedBy (leased_congr hsame.leaseExpiresAt t ▸ hleased'))
    · exact .inl (hheld hlock (leased_congr hlease t ▸ hleased'))
    · exact .inl (hheld hlock hleased)
    · exact absurd hlock hnone
    · exact .inr (hgrant w hlock hgranted)
    · exact .inr (hgrant w hlock hgranted)
  · rcases hcreated with ⟨hlock, _⟩ | ⟨w, hgranted, _, _, hlock, _⟩
    · exact absurd hlock hnone
    · right
      rw [hlock, Option.some.injEq] at hlock'
      rw [hgranted, hid', hlock']

/-! ### Commits -/

theorem holds_of_beginBugWrite {claim : BugAnalysisClaim} {id : ℤ} {u : Unit}
    (h : s.beginBugWrite (some claim) id now = .ok u) : Holds s now ⟨id, claim.owner⟩ := by
  unfold beginBugWrite at h
  simp only at h
  split_ifs at h with hother hheld
  obtain ⟨b, hb, hheld⟩ := Table.any_eq_true.mp hheld
  obtain ⟨hid, hlock, hleased, _⟩ := heldBy_spec hheld
  exact ⟨b, hb, hid.trans (not_not.mp hother), hlock, hleased⟩

theorem holds_of_fixCheckable {claim : BugAnalysisClaim} {id : ℤ}
    (hintime : ∀ b ∈ s.bugs.rows, fixCheckable (some claim) id b = true → b.leased now = true)
    (h : s.bugs.any (fixCheckable (some claim) id) = true) :
    Holds s now ⟨id, claim.owner⟩ := by
  obtain ⟨b, hb, hcheck⟩ := Table.any_eq_true.mp h
  have hleased := hintime b hb hcheck
  simp only [fixCheckable, Bool.and_eq_true, decide_eq_true_eq, Option.all_some] at hcheck
  exact ⟨b, hb, hcheck.1.1, hcheck.2, hleased⟩

/-- A claimed write that takes effect is its owner's, under an unexpired lease. -/
theorem holds_of_commits (hintime : call.FixCheckInTime s now)
    (h : call.commits s now = some c) : Holds s now c := by
  unfold BugCall.commits at h
  split at h
  -- the four writes that begin with the ownership check
  iterate 4
    · split at h
      · rename_i hexec
        cases h
        obtain ⟨_, hbegin, _⟩ := bind_ok hexec
        exact holds_of_beginBugWrite hbegin
      · cases h
  · split at h
    · rename_i hrecord
      cases h
      unfold recordUpstreamFixCheck at hrecord
      split at hrecord
      · rename_i hany
        exact holds_of_fixCheckable hintime hany
      · cases hrecord
    · cases h
  · split at h
    · rename_i hany
      cases h
      exact holds_of_fixCheckable hintime hany
    · cases h
  · cases h

theorem granted_eq_none_of_commits (h : call.commits s now = some c) :
    call.granted s now = none := by
  unfold BugCall.commits at h
  split at h
  all_goals first | rfl | cases h

/-! ### Runs -/

theorem run_append (s : BugStore) (before after : List (ℤ × BugCall)) :
    s.run (before ++ after) = (s.run before).run after := by
  induction before generalizing s with
  | nil => rfl
  | cons e before ih => exact ih (e.2.step s e.1)

theorem fixCheckInTime_of_run {before after : List (ℤ × BugCall)} :
    ∀ {s : BugStore}, FixChecksInTime s (before ++ (now, call) :: after) →
      call.FixCheckInTime (s.run before) now := by
  induction before with
  | nil => intro s h; exact h.1
  | cons e before ih => intro s h; exact ih h.2

/-- Whoever does not hold a lease now holds it later only by a grant in between. -/
theorem grant_before_holding (between : List (ℤ × BugCall)) :
    ∀ {s : BugStore} {now t : ℤ}, ¬Holds s now c → (∀ e ∈ between, now ≤ e.1) →
      between.Pairwise (·.1 ≤ ·.1) → (∀ e ∈ between, e.1 ≤ t) → now ≤ t →
      Holds (s.run between) t c →
      ∃ pre u g post, between = pre ++ (u, g) :: post ∧ g.granted (s.run pre) u = some c := by
  induction between with
  | nil =>
    intro s now t hnot _ _ _ hle h
    exact absurd (h.mono hle) hnot
  | cons e rest ih =>
    obtain ⟨u, g⟩ := e
    intro s now t hnot hfrom hsorted hto _ h
    rw [List.pairwise_cons] at hsorted
    by_cases hgrant : g.granted s u = some c
    · exact ⟨[], u, g, rest, rfl, hgrant⟩
    · have hnot' : ¬Holds (g.step s u) u c := by
        intro hstep
        rcases holds_of_step (hfrom _ List.mem_cons_self) hstep with hold | hnew
        · exact hnot hold
        · exact hgrant hnew
      obtain ⟨pre, u', g', post, rfl, hgranted⟩ := ih hnot' hsorted.1 hsorted.2
        (fun e he => hto e (List.mem_cons_of_mem _ he)) (hto _ List.mem_cons_self) h
      exact ⟨(u, g) :: pre, u', g', post, rfl, hgranted⟩

/-! ### Who may be granted a lease -/

/-- A bug that waits for analysis is not locked. -/
def WaitingUnlocked (s : BugStore) : Prop :=
  ∀ b ∈ s.bugs.rows, b.lockedBy ≠ none →
    b.pipelineState = .running ∨ b.pipelineState = .succeeded

theorem waitingUnlocked_step (h : WaitingUnlocked s) : WaitingUnlocked (call.step s now) := by
  intro b' hb' hlocked
  rcases rowStep hb' with ⟨b, hb, _, hstep⟩ | ⟨_, hcreated⟩
  · rcases hstep with hsame | ⟨hstate, _⟩ | ⟨_, hstate, hstate', _⟩ | ⟨hlock, _⟩ |
      ⟨_, _, _, _, _, _, hstate, _⟩ | ⟨_, _, _, hstate, _⟩
    · rw [hsame.pipelineState]
      exact h b hb (hsame.lockedBy ▸ hlocked)
    · exact .inr hstate
    · rw [hstate']
      exact hstate
    · exact absurd hlock hlocked
    · exact .inl hstate
    · exact .inr hstate
  · rcases hcreated with ⟨hlock, _⟩ | ⟨_, _, _, hstate, _⟩
    · exact absurd hlock hlocked
    · exact .inl hstate

theorem waitingUnlocked_run (calls : List (ℤ × BugCall)) :
    ∀ {s : BugStore}, WaitingUnlocked s → WaitingUnlocked (s.run calls) := by
  induction calls with
  | nil => intro s h; exact h
  | cons e calls ih => intro s h; exact ih (waitingUnlocked_step h)

theorem leaseOver_of_lapsed {b : BugRow} (h : b.leaseLapsed now = true) :
    b.leaseOver now = true := by
  unfold BugRow.leaseLapsed at h
  unfold BugRow.leaseOver
  split
  · rename_i expiry hexpiry
    rw [hexpiry, decide_eq_true_eq] at h
    rw [decide_eq_true_eq]
    exact h.le
  · rfl

theorem claimable_spec {maxAttempts : ℤ} {b : BugRow}
    (h : claimable now maxAttempts b = true) :
    b.attemptCount < maxAttempts ∧ b.unattended now = true := by
  simp only [claimable, Bool.and_eq_true, decide_eq_true_eq] at h
  exact ⟨h.1.1, h.2⟩

theorem over_of_unattended {b : BugRow} (h : b.unattended now = true)
    (hwaiting : b.lockedBy ≠ none →
      b.pipelineState = .running ∨ b.pipelineState = .succeeded) :
    b.lockedBy = none ∨ b.leaseOver now = true := by
  simp only [BugRow.unattended, Bool.or_eq_true, Bool.and_eq_true, decide_eq_true_eq] at h
  rcases h with (hstate | hstate) | ⟨_, hlapsed⟩
  · left
    by_contra hlocked
    rcases hwaiting hlocked with h | h <;> rw [hstate] at h <;> cases h
  · left
    by_contra hlocked
    rcases hwaiting hlocked with h | h <;> rw [hstate] at h <;> cases h
  · exact .inr (leaseOver_of_lapsed hlapsed)

/-- A lease is granted on a bug nobody holds: it is free, or its lease is over. -/
theorem granted_over (hwaiting : WaitingUnlocked s) (h : call.granted s now = some c) :
    ∀ b ∈ s.bugs.rows, b.id = c.bugId → b.lockedBy = none ∨ b.leaseOver now = true := by
  intro b hb hid
  cases call with
  | createClaimedBugWithEnrichment bug e workerId ttl =>
    simp only [BugCall.granted] at h
    split at h
    · rename_i id s' hclaimed
      cases h
      obtain ⟨⟨id₁, s₁⟩, hcreate, hrest⟩ := bind_ok hclaimed
      cases hrest
      exact absurd hid ((createBugWithEnrichment_rows hcreate).1 b hb)
    · cases h
  | claimPendingBug workerId ttl maxAttempts =>
    rcases hmin : s.bugs.earliestBy (claimable now maxAttempts) (·.createdAt) with _ | bug
    · simp only [BugCall.granted, claimPendingBug, hmin] at h
      cases h
    · simp only [BugCall.granted, claimPendingBug, hmin] at h
      cases h
      obtain ⟨hmem, hclaimable⟩ := Table.selected_of_earliestBy hmin
      obtain rfl := Table.eq_of_key_eq hb hmem hid
      exact over_of_unattended (claimable_spec hclaimable).2 (hwaiting b hb)
  | claimOpenBugForFixCheck sha workerId ttl =>
    simp only [BugCall.granted, claimOpenBugForFixCheck] at h
    split_ifs at h
    · cases h
    · split at h
      · rename_i bug hmin
        cases h
        obtain ⟨hmem, hneeds⟩ := Table.selected_of_earliestBy hmin
        obtain rfl := Table.eq_of_key_eq hb hmem hid
        exact .inr (needsFixCheck_spec hneeds).2
      · cases h
  | _ => cases h

/-! ### Attempts -/

def BugCall.maxAttempts : BugCall → ℤ
  | .claimPendingBug _ _ maxAttempts => maxAttempts
  | _ => 0

def maxAttemptsUsed (calls : List (ℤ × BugCall)) : ℤ :=
  calls.foldr (fun e used => max e.2.maxAttempts used) 0

def attemptsHandedOut : BugStore → List (ℤ × BugCall) → ℤ → ℕ
  | _, [], _ => 0
  | s, (now, call) :: rest, id =>
    (if call.attempted s now = some id then 1 else 0) +
      attemptsHandedOut (call.step s now) rest id

theorem maxAttemptsUsed_nonneg (calls : List (ℤ × BugCall)) : 0 ≤ maxAttemptsUsed calls := by
  induction calls with
  | nil => exact le_rfl
  | cons e calls ih => exact le_max_of_le_right ih

theorem attemptCount_step {m : ℤ} {k : ℤ → ℕ} (hm : 0 ≤ m)
    (hcall : ∀ w ttl max, call = .claimPendingBug w ttl max → max ≤ m)
    (h : ∀ b ∈ s.bugs.rows, b.attemptCount ≤ m + k b.id) :
    ∀ b ∈ (call.step s now).bugs.rows, b.attemptCount ≤
      m + (k b.id + if call.attempted s now = some b.id then 1 else 0 : ℕ) := by
  intro b' hb'
  rcases rowStep hb' with ⟨b, hb, hid, hstep⟩ | ⟨_, hcreated⟩
  · have hold := h b hb
    rw [hid]
    rcases hstep with hsame | ⟨_, _, _, hcount⟩ | ⟨_, _, _, _, hcount⟩ | ⟨_, hcount⟩ |
      ⟨w, ttl, max, hclaim, _, hclaimable, _, _, hcount⟩ | ⟨_, _, _, _, _, hcount⟩
    · have hcount := hsame.attemptCount
      omega
    · omega
    · omega
    · omega
    · have hmax := hcall w ttl max hclaim
      have hlt := (claimable_spec hclaimable).1
      omega
    · omega
  · rcases hcreated with ⟨_, hcount⟩ | ⟨w, _, hattempted, _, _, hcount⟩
    · omega
    · rw [if_pos hattempted]
      omega

theorem attemptCount_run {m : ℤ} (hm : 0 ≤ m) (calls : List (ℤ × BugCall)) :
    ∀ {s : BugStore} {k : ℤ → ℕ}, maxAttemptsUsed calls ≤ m →
      (∀ b ∈ s.bugs.rows, b.attemptCount ≤ m + k b.id) →
      ∀ b ∈ (s.run calls).bugs.rows,
        b.attemptCount ≤ m + (k b.id + attemptsHandedOut s calls b.id : ℕ) := by
  induction calls with
  | nil => intro s k _ h b hb; exact h b hb
  | cons e calls ih =>
    obtain ⟨now, call⟩ := e
    intro s k hmax h b hb
    have hhead : call.maxAttempts ≤ m := (le_max_left _ _).trans hmax
    have hrest : maxAttemptsUsed calls ≤ m := (le_max_right _ _).trans hmax
    have hcall : ∀ w ttl max, call = .claimPendingBug w ttl max → max ≤ m := by
      rintro w ttl max rfl
      exact hhead
    have hstep := @attemptCount_step s now call m k hm hcall h
    have hrun := ih (k := fun id => k id + if call.attempted s now = some id then 1 else 0)
      hrest hstep b hb
    simpa [attemptsHandedOut, Nat.add_assoc] using hrun

end Sashiko
