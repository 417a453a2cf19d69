import Sashiko.Db.MailRuns

/-! No review email is mailed twice: a row that was handed to a sender stays what it was, and
stays the only row of its patch. -/

namespace Sashiko

open MailStore

/-- The email apart from what becomes of it. -/
def EmailOutboxRow.letter (e : EmailOutboxRow) : EmailOutboxRow :=
  { e with status := .pending, lockedAt := none, errorLog := none }

theorem EmailOutboxRow.id_of_letter {e e' : EmailOutboxRow} (h : e.letter = e'.letter) :
    e.id = e'.id := by
  have hid := congrArg EmailOutboxRow.id h
  exact hid

theorem EmailOutboxRow.patchId_of_letter {e e' : EmailOutboxRow} (h : e.letter = e'.letter) :
    e.patchId = e'.patchId := by
  have hpatch := congrArg EmailOutboxRow.patchId h
  exact hpatch

def EmailStatus.isFinal : EmailStatus → Bool
  | .sent | .failed => true
  | _ => false

/-! ### One row for each patch -/

def OnePerPatch (t : Table EmailOutboxRow.id) : Prop :=
  ∀ e ∈ t.rows, ∀ e' ∈ t.rows, e.patchId ≠ none → e.patchId = e'.patchId → e.id = e'.id

namespace OnePerPatch

variable {t : Table EmailOutboxRow.id}

theorem update (h : OnePerPatch t) {p : EmailOutboxRow → Bool} {f : EmailOutboxRow → EmailOutboxRow}
    (hf : ∀ e, (f e).id = e.id := by intro _; rfl)
    (hpatch : ∀ e, (f e).patchId = e.patchId := by intro _; rfl) :
    OnePerPatch (t.update p f hf) := by
  have hkeeps : ∀ e, (Table.updateRow p f e).id = e.id ∧
      (Table.updateRow p f e).patchId = e.patchId := by
    intro e
    unfold Table.updateRow
    split_ifs
    · exact ⟨hf e, hpatch e⟩
    · exact ⟨rfl, rfl⟩
  intro e he e' he' hne heq
  obtain ⟨e₀, he₀, rfl⟩ := (Table.mem_update hf).mp he
  obtain ⟨e₁, he₁, rfl⟩ := (Table.mem_update hf).mp he'
  rw [(hkeeps e₀).2] at hne heq
  rw [(hkeeps e₁).2] at heq
  rw [(hkeeps e₀).1, (hkeeps e₁).1]
  exact h e₀ he₀ e₁ he₁ hne heq

theorem delete (h : OnePerPatch t) (p : EmailOutboxRow → Bool) : OnePerPatch (t.delete p) :=
  fun e he e' he' => h e (Table.mem_delete.mp he).1 e' (Table.mem_delete.mp he').1

theorem insertNext (h : OnePerPatch t) {row : ℤ → EmailOutboxRow}
    (hnew : ∀ k, (row k).patchId ≠ none → ∀ e ∈ t.rows, e.patchId ≠ (row k).patchId)
    (hrow : ∀ k, (row k).id = k := by intro _; rfl) : OnePerPatch (t.insertNext 0 row hrow) := by
  intro e he e' he' hne heq
  rcases Table.mem_insertNext.mp he with he | rfl <;>
    rcases Table.mem_insertNext.mp he' with he' | rfl
  · exact h e he e' he' hne heq
  · exact absurd heq (hnew _ (heq ▸ hne) e he)
  · exact absurd heq.symm (hnew _ hne e' he')
  · rfl

end OnePerPatch

/-! ### The outbox after one call -/

section Frame

variable {isDuplicate : NewPreexistingDisclosure → PreexistingDisclosure → Bool} {s : MailStore}

theorem emailOutbox_stampDisclosuresIn (status : EmailStatus) (discloseFor : Option String)
    (now : ℤ) : (s.stampDisclosuresIn status discloseFor now).emailOutbox = s.emailOutbox := by
  unfold stampDisclosuresIn
  split
  · split_ifs <;> rfl
  · rfl

theorem emailOutbox_reserve (claim : Option PatchsetReviewClaim) (patchMessageId : String)
    (candidates : List NewPreexistingDisclosure) (clock : ℤ) :
    (s.reservePreexistingDisclosures isDuplicate claim patchMessageId candidates
      clock).2.emailOutbox = s.emailOutbox := by
  have hfold : ∀ acc : List PreexistingDisclosure × MailStore,
      (candidates.foldl (reserveCandidate isDuplicate patchMessageId clock) acc).2.emailOutbox =
        acc.2.emailOutbox := by
    induction candidates with
    | nil => exact fun acc => rfl
    | cons c candidates ih =>
      intro acc
      rw [List.foldl_cons, ih]
      unfold reserveCandidate
      split
      · split_ifs <;> rfl
      · rfl
  unfold reservePreexistingDisclosures
  split_ifs
  · exact hfold _
  · rfl

theorem emailOutbox_release (claim : Option PatchsetReviewClaim) (patchMessageId : String) :
    (s.releasePreexistingReservations claim patchMessageId).emailOutbox = s.emailOutbox := by
  unfold releasePreexistingReservations
  split_ifs <;> rfl

theorem onePerPatch_setEmails (h : OnePerPatch s.emailOutbox) {p : EmailOutboxRow → Bool}
    {f : EmailOutboxRow → EmailOutboxRow} (hf : ∀ e, (f e).id = e.id := by intro _; rfl)
    (hpatch : ∀ e, (f e).patchId = e.patchId := by intro _; rfl) :
    OnePerPatch (s.setEmails p f hf).emailOutbox := h.update hf hpatch

theorem onePerPatch_withdrawStale (h : OnePerPatch s.emailOutbox) (now : ℤ) :
    OnePerPatch (s.withdrawStale now).emailOutbox := by
  unfold withdrawStale
  exact onePerPatch_setEmails (onePerPatch_setEmails h)

/-- Whatever a call does, no patch gets a second row. -/
theorem onePerPatch_step (h : OnePerPatch s.emailOutbox) (now : ℤ) (call : MailCall) :
    OnePerPatch (call.step isDuplicate s now).emailOutbox := by
  cases call with
  | insertReviewEmailOutbox claim email =>
    simp only [MailCall.step, insertReviewEmailOutbox]
    split_ifs with hrefused
    · exact h
    · split
      · split_ifs
        · rw [emailOutbox_stampDisclosuresIn]
          exact h.update
        · exact h
      · rename_i hnone
        rw [emailOutbox_stampDisclosuresIn]
        refine h.insertNext fun k _ e he hpatch => ?_
        have hsome := Table.lastWhere_isSome
          (p := fun e => e.patchId = some email.patchId) he (decide_eq_true hpatch)
        rw [hnone] at hsome
        cases hsome
  | queueTransactionalEmail email => exact h.insertNext fun k hne => absurd rfl hne
  | lockPendingEmail preferred =>
    simp only [MailCall.step, lockPendingEmail]
    split
    · exact onePerPatch_setEmails (onePerPatch_withdrawStale h now)
    · exact onePerPatch_withdrawStale h now
  | markEmailSent id => exact onePerPatch_setEmails h
  | markEmailFailed id errorLog => exact onePerPatch_setEmails h
  | sweepGhostEmails clock => exact onePerPatch_setEmails h
  | cancelPatchset id force =>
    simp only [MailCall.step, MailStore.cancelPatchset]
    split_ifs
    · exact onePerPatch_setEmails h
    · exact h
  | rerunPatchset id => exact h.delete _
  | deleteAbortedReviewChildrenInTx reviewId => exact h.delete _
  | reservePreexistingDisclosures claim patchMessageId candidates clock =>
    simp only [MailCall.step, emailOutbox_reserve]
    exact h
  | releasePreexistingReservations claim patchMessageId =>
    simp only [MailCall.step, emailOutbox_release]
    exact h
  | markPreexistingDisclosed patchMessageId clock => exact h
  | elsewhere after => exact h

/-! ### What becomes of a row -/

theorem not_waiting_of_not_unsent {status : EmailStatus} (h : status.unsent = false) :
    status.waiting = false ∧ status ≠ .pending := by
  cases status <;> simp_all [EmailStatus.unsent, EmailStatus.waiting]

theorem kept_insertNext {t : Table EmailOutboxRow.id} {e : EmailOutboxRow} (he : e ∈ t.rows)
    {row : ℤ → EmailOutboxRow} (hrow : ∀ k, (row k).id = k := by intro _; rfl) :
    e ∈ (t.insertNext 0 row hrow).rows := Table.mem_insertNext.mpr (.inl he)

theorem kept_withdrawStale {e : EmailOutboxRow} (he : e ∈ s.emailOutbox.rows)
    (hstatus : e.status.unsent = false) (now : ℤ) :
    e ∈ (s.withdrawStale now).emailOutbox.rows := by
  obtain ⟨hwaiting, hpending⟩ := not_waiting_of_not_unsent hstatus
  refine Table.mem_update_of_not (Table.mem_update_of_not he ?_) ?_
  · simp [hwaiting]
  · simp [hpending]

theorem pendingEmail_spec {preferred : ℤ} {e : EmailOutboxRow}
    (h : s.pendingEmail preferred = some e) : e ∈ s.emailOutbox.rows ∧ e.status = .pending := by
  rcases Option.or_eq_some_iff.mp h with h | ⟨-, h⟩
  · have hp := List.find?_some h
    rw [Bool.and_eq_true, decide_eq_true_eq] at hp
    exact ⟨List.mem_of_find?_eq_some h, hp.1⟩
  · have hp := List.find?_some h
    exact ⟨List.mem_of_find?_eq_some h, of_decide_eq_true hp⟩

theorem of_pending_withdrawStale {e : EmailOutboxRow} {now : ℤ}
    (he : e ∈ (s.withdrawStale now).emailOutbox.rows) (hpending : e.status = .pending) :
    e ∈ s.emailOutbox.rows ∧ e.patchId.any s.patchCancelled = false := by
  obtain ⟨e₁, he₁, rfl⟩ := List.mem_map.mp he
  obtain ⟨e₀, he₀, rfl⟩ := List.mem_map.mp he₁
  unfold Table.updateRow at hpending ⊢
  split_ifs at hpending ⊢ with hcancelled
  all_goals try cases hpending
  refine ⟨he₀, ?_⟩
  simpa [hpending, EmailStatus.waiting] using hcancelled

/-- A row that was handed out changes only when it is marked or swept up. -/
theorem kept_step {e : EmailOutboxRow} (he : e ∈ s.emailOutbox.rows)
    (hstatus : e.status.unsent = false) {now : ℤ} {call : MailCall}
    (hmarked : call.marked ≠ some e.id)
    (hswept : ∀ clock, call = .sweepGhostEmails clock → e.status = .sending →
      e.lockedAt.any (· < clock - ghostEmailSeconds) = false) :
    e ∈ (call.step isDuplicate s now).emailOutbox.rows := by
  obtain ⟨hwaiting, hpending⟩ := not_waiting_of_not_unsent hstatus
  cases call with
  | insertReviewEmailOutbox claim email =>
    simp only [MailCall.step, insertReviewEmailOutbox]
    split_ifs
    · exact he
    · split
      · rename_i existing hexisting
        split_ifs with hunsent
        · rw [emailOutbox_stampDisclosuresIn]
          refine Table.mem_update_of_not he (decide_eq_false fun hid => ?_)
          have hsame := Table.eq_of_key_eq he (Table.selected_of_lastWhere hexisting).1 hid
          rw [hsame, hunsent] at hstatus
          cases hstatus
        · exact he
      · rw [emailOutbox_stampDisclosuresIn]
        exact kept_insertNext he
  | queueTransactionalEmail email => exact kept_insertNext he
  | lockPendingEmail preferred =>
    have hkept := kept_withdrawStale he hstatus now
    simp only [MailCall.step, lockPendingEmail]
    split
    · rename_i locked hlocked
      obtain ⟨hmem, hlockedPending⟩ := pendingEmail_spec hlocked
      refine Table.mem_update_of_not hkept (decide_eq_false fun hid => hpending ?_)
      rw [Table.eq_of_key_eq hkept hmem hid, hlockedPending]
    · exact hkept
  | markEmailSent id =>
    exact Table.mem_update_of_not he (decide_eq_false fun hid => hmarked (congrArg some hid.symm))
  | markEmailFailed id errorLog =>
    exact Table.mem_update_of_not he (decide_eq_false fun hid => hmarked (congrArg some hid.symm))
  | sweepGhostEmails clock =>
    refine Table.mem_update_of_not he ?_
    by_cases hsending : e.status = .sending
    · rw [hswept clock rfl hsending, Bool.and_false]
    · simp [hsending]
  | cancelPatchset id force =>
    simp only [MailCall.step, MailStore.cancelPatchset]
    split_ifs
    · exact Table.mem_update_of_not he (by simp [hwaiting])
    · exact he
  | rerunPatchset id =>
    exact Table.mem_delete.mpr ⟨he, by simp [discardedByRerun, hstatus]⟩
  | deleteAbortedReviewChildrenInTx reviewId =>
    exact Table.mem_delete.mpr ⟨he, by simp [discardedWithReview, hstatus]⟩
  | reservePreexistingDisclosures claim patchMessageId candidates clock =>
    simp only [MailCall.step, emailOutbox_reserve]
    exact he
  | releasePreexistingReservations claim patchMessageId =>
    simp only [MailCall.step, emailOutbox_release]
    exact he
  | markPreexistingDisclosed patchMessageId clock => exact he
  | elsewhere after => exact he

theorem marked_step {e : EmailOutboxRow} (he : e ∈ s.emailOutbox.rows) {now : ℤ} {call : MailCall}
    (hmarked : call.marked = some e.id) :
    ∃ e' ∈ (call.step isDuplicate s now).emailOutbox.rows,
      e'.letter = e.letter ∧ e'.status.isFinal = true := by
  cases call with
  | markEmailSent id =>
    obtain rfl := Option.some.inj hmarked
    exact ⟨{ e with status := .sent, lockedAt := none }, Table.mem_update_of he (decide_eq_true rfl), rfl, rfl⟩
  | markEmailFailed id errorLog =>
    obtain rfl := Option.some.inj hmarked
    exact ⟨{ e with status := .failed, errorLog := some errorLog, lockedAt := none },
      Table.mem_update_of he (decide_eq_true rfl), rfl, rfl⟩
  | _ => cases hmarked

theorem mem_step_of_handedOut {now : ℤ} {call : MailCall} {sent : EmailOutboxRow}
    (h : call.handedOut s now = some sent) :
    sent ∈ (call.step isDuplicate s now).emailOutbox.rows ∧
      sent.status = .sending ∧ sent.lockedAt = some now := by
  cases call with
  | lockPendingEmail preferred =>
    simp only [MailCall.handedOut, MailCall.step, lockPendingEmail] at h ⊢
    split at h
    · rename_i locked hlocked
      obtain rfl := Option.some.inj h
      exact ⟨Table.mem_update_of (pendingEmail_spec hlocked).1 (decide_eq_true rfl), rfl, rfl⟩
    · cases h
  | _ => cases h

/-- What a sender gets was pending, and its patchset is not cancelled. -/
theorem pending_of_handedOut {now : ℤ} {call : MailCall} {sent : EmailOutboxRow}
    (h : call.handedOut s now = some sent) :
    sent.patchId.any s.patchCancelled = false ∧
      ∃ e ∈ s.emailOutbox.rows, e.letter = sent.letter ∧ e.status = .pending := by
  cases call with
  | lockPendingEmail preferred =>
    simp only [MailCall.handedOut, lockPendingEmail] at h
    split at h
    · rename_i locked hlocked
      obtain rfl := Option.some.inj h
      obtain ⟨hmem, hpending⟩ := pendingEmail_spec hlocked
      obtain ⟨hmem₀, hcancelled⟩ := of_pending_withdrawStale hmem hpending
      exact ⟨hcancelled, locked, hmem₀, rfl, hpending⟩
    · cases h
  | _ => cases h

end Frame

/-! ### A row that was handed out -/

/-- The email is with its sender, which is still in time, or it is settled. -/
def Dispatched (s : MailStore) (inFlight : List (ℤ × ℤ)) (sent : EmailOutboxRow) : Prop :=
  ∃ e ∈ s.emailOutbox.rows, e.letter = sent.letter ∧
    (e.status.isFinal = true ∨
      e.status = .sending ∧ ∃ t, e.lockedAt = some t ∧ (e.id, t) ∈ inFlight)

section Hold

variable {isDuplicate : NewPreexistingDisclosure → PreexistingDisclosure → Bool} {s : MailStore}
  {inFlight : List (ℤ × ℤ)} {sent : EmailOutboxRow}

theorem dispatched_handedOut {now : ℤ} {call : MailCall} (h : call.handedOut s now = some sent) :
    Dispatched (call.step isDuplicate s now) (inFlightAfter inFlight s now call) sent := by
  obtain ⟨hmem, hsending, hlocked⟩ := mem_step_of_handedOut h
  refine ⟨sent, hmem, rfl, .inr ⟨hsending, now, hlocked, ?_⟩⟩
  rw [inFlightAfter, h]
  exact List.mem_append_right _ (List.mem_singleton_self _)

theorem dispatched_step (h : Dispatched s inFlight sent) {now : ℤ} {call : MailCall}
    (hclock : call.clockRead now ≤ now) (hprompt : ∀ e ∈ inFlight, now ≤ e.2 + ghostEmailSeconds) :
    Dispatched (call.step isDuplicate s now) (inFlightAfter inFlight s now call) sent := by
  obtain ⟨e, he, hletter, hstatus⟩ := h
  by_cases hmarked : call.marked = some e.id
  · obtain ⟨e', he', hletter', hfinal⟩ := marked_step he hmarked
    exact ⟨e', he', hletter'.trans hletter, .inl hfinal⟩
  have hunsent : e.status.unsent = false := by
    rcases hstatus with hfinal | ⟨hsending, -⟩
    · revert hfinal
      cases e.status <;> simp [EmailStatus.isFinal, EmailStatus.unsent]
    · rw [hsending]
      rfl
  refine ⟨e, kept_step he hunsent hmarked ?_, hletter, ?_⟩
  · rintro clock rfl hsending
    rcases hstatus with hfinal | ⟨-, t, hlocked, hin⟩
    · rw [hsending] at hfinal
      cases hfinal
    · have hlate := hprompt _ hin
      simp only [MailCall.clockRead] at hclock hlate
      simp only [hlocked, Option.any_some, decide_eq_false_iff_not]
      omega
  · refine hstatus.imp_right fun ⟨hsending, t, hlocked, hin⟩ => ⟨hsending, t, hlocked, ?_⟩
    exact List.mem_append_left _ (List.mem_filter.mpr ⟨hin, decide_eq_true hmarked⟩)

theorem dispatched_run (calls : List (ℤ × MailCall)) (hread : ∀ e ∈ calls, e.2.clockRead e.1 ≤ e.1) :
    ∀ (s : MailStore) (inFlight : List (ℤ × ℤ)), PromptSenders isDuplicate inFlight s calls →
      Dispatched s inFlight sent → ∃ inFlight', Dispatched (s.run isDuplicate calls) inFlight' sent := by
  induction calls with
  | nil => exact fun s inFlight _ h => ⟨inFlight, h⟩
  | cons e calls ih =>
    obtain ⟨now, call⟩ := e
    intro s inFlight hprompt h
    exact ih (fun x hx => hread x (List.mem_cons_of_mem _ hx)) _ _ hprompt.2
      (dispatched_step h (hread _ List.mem_cons_self) hprompt.1)

/-- No row of a held email is pending. -/
theorem Dispatched.not_pending (h : Dispatched s inFlight sent) {e : EmailOutboxRow}
    (he : e ∈ s.emailOutbox.rows) (hid : e.id = sent.id) : e.status ≠ .pending := by
  obtain ⟨x, hx, hletter, hstatus⟩ := h
  have hxid := EmailOutboxRow.id_of_letter hletter
  obtain rfl := Table.eq_of_key_eq he hx (hid.trans hxid.symm)
  intro hpending
  rw [hpending] at hstatus
  rcases hstatus with hfinal | ⟨hsending, -⟩
  · cases hfinal
  · cases hsending

end Hold

/-! ### Runs -/

section Runs

variable {isDuplicate : NewPreexistingDisclosure → PreexistingDisclosure → Bool}

theorem onePerPatch_run (calls : List (ℤ × MailCall)) :
    ∀ s : MailStore, OnePerPatch s.emailOutbox →
      OnePerPatch (s.run isDuplicate calls).emailOutbox := by
  induction calls with
  | nil => exact fun s h => h
  | cons e calls ih => exact fun s h => ih _ (onePerPatch_step h e.1 e.2)

theorem promptSenders_append {after : List (ℤ × MailCall)} (before : List (ℤ × MailCall)) :
    ∀ (s : MailStore) (inFlight : List (ℤ × ℤ)),
      PromptSenders isDuplicate inFlight s (before ++ after) →
      ∃ inFlight', PromptSenders isDuplicate inFlight' (s.run isDuplicate before) after := by
  induction before with
  | nil => exact fun s inFlight h => ⟨inFlight, h⟩
  | cons e before ih =>
    obtain ⟨now, call⟩ := e
    exact fun s inFlight h => ih _ _ h.2

theorem promptSenders_left {after : List (ℤ × MailCall)} (before : List (ℤ × MailCall)) :
    ∀ (s : MailStore) (inFlight : List (ℤ × ℤ)),
      PromptSenders isDuplicate inFlight s (before ++ after) →
      PromptSenders isDuplicate inFlight s before := by
  induction before with
  | nil => exact fun _ _ _ => trivial
  | cons e before ih =>
    obtain ⟨now, call⟩ := e
    exact fun s inFlight h => ⟨h.1, ih _ _ h.2⟩

end Runs

/-- What every run with prompt senders keeps of the outbox. -/
structure MailedOnce (isDuplicate : NewPreexistingDisclosure → PreexistingDisclosure → Bool)
    (s₀ : MailStore) (calls : List (ℤ × MailCall)) : Prop where
  onePerPatch : ∀ before after, calls = before ++ after →
    OnePerPatch (s₀.run isDuplicate before).emailOutbox
  /-- Whatever follows, the row of an email that was handed out keeps its letter, and stays with
  its sender until it is settled. -/
  kept : ∀ before now call mid after sent,
    calls = before ++ (now, call) :: (mid ++ after) →
    call.handedOut (s₀.run isDuplicate before) now = some sent →
    ∃ e ∈ (s₀.run isDuplicate (before ++ (now, call) :: mid)).emailOutbox.rows,
      e.letter = sent.letter ∧ (e.status = .sending ∨ e.status.isFinal = true)
  notAgain : ∀ before now call mid now' call' after sent sent',
    calls = before ++ (now, call) :: (mid ++ (now', call') :: after) →
    call.handedOut (s₀.run isDuplicate before) now = some sent →
    call'.handedOut (s₀.run isDuplicate (before ++ (now, call) :: mid)) now' = some sent' →
    sent'.id ≠ sent.id ∧ (sent.patchId ≠ none → sent'.patchId ≠ sent.patchId)
  notCancelled : ∀ before now call after sent, calls = before ++ (now, call) :: after →
    call.handedOut (s₀.run isDuplicate before) now = some sent →
    sent.patchId.any (s₀.run isDuplicate before).patchCancelled = false

section Main

variable {isDuplicate : NewPreexistingDisclosure → PreexistingDisclosure → Bool}

/-- After the hand-out and any calls in time, the email is still held. -/
theorem dispatched_after {s₀ : MailStore} {before mid after : List (ℤ × MailCall)} {now : ℤ}
    {call : MailCall} {sent : EmailOutboxRow}
    (htimed : Timed (before ++ (now, call) :: (mid ++ after)))
    (hprompt : PromptSenders isDuplicate [] s₀ (before ++ (now, call) :: (mid ++ after)))
    (h : call.handedOut (s₀.run isDuplicate before) now = some sent) :
    ∃ inFlight, Dispatched (s₀.run isDuplicate (before ++ (now, call) :: mid)) inFlight sent := by
  obtain ⟨inFlight, hprompt⟩ := promptSenders_append before s₀ [] hprompt
  rw [MailStore.run_append]
  refine dispatched_run mid (fun e he => htimed.read e ?_) _ _ (promptSenders_left mid _ _ hprompt.2)
    (dispatched_handedOut h)
  simp [he]

theorem mailedOnce {s₀ : MailStore} (hempty : s₀.emailOutbox.rows = [])
    {calls : List (ℤ × MailCall)} (htimed : Timed calls)
    (hprompt : PromptSenders isDuplicate [] s₀ calls) : MailedOnce isDuplicate s₀ calls := by
  have hone : ∀ before, OnePerPatch (s₀.run isDuplicate before).emailOutbox := by
    intro before
    refine onePerPatch_run before s₀ ?_
    intro e he
    rw [hempty] at he
    cases he
  refine ⟨fun before _ _ => hone before, ?kept, ?notAgain, ?notCancelled⟩
  case kept =>
    rintro before now call mid after sent rfl hsent
    obtain ⟨inFlight, e, he, hletter, hstatus⟩ := dispatched_after htimed hprompt hsent
    exact ⟨e, he, hletter, hstatus.symm.imp_left And.left⟩
  case notAgain =>
    rintro before now call mid now' call' after sent sent' rfl hsent hsent'
    obtain ⟨inFlight, hdispatched⟩ := dispatched_after htimed hprompt hsent
    obtain ⟨-, e', he', hletter', hpending'⟩ := pending_of_handedOut hsent'
    have hother : ∀ {e : EmailOutboxRow}, e.id = e'.id → e.id ≠ sent.id := fun hid hsame =>
      hdispatched.not_pending he' (hid.symm.trans hsame) hpending'
    refine ⟨hother (EmailOutboxRow.id_of_letter hletter').symm, fun hne hpatch => ?_⟩
    obtain ⟨e, he, hletter, -⟩ := hdispatched
    have hsame := EmailOutboxRow.patchId_of_letter hletter
    have hsame' := EmailOutboxRow.patchId_of_letter hletter'
    have hid := hone _ e he e' he' (hsame ▸ hne) (by rw [hsame, hsame', hpatch])
    exact hother hid (EmailOutboxRow.id_of_letter hletter)
  case notCancelled =>
    rintro before now call after sent rfl hsent
    exact (pending_of_handedOut hsent).1

end Main

def queued (status : EmailStatus) : MailCall :=
  .insertReviewEmailOutbox none
    ⟨5, status, "list@lists.linux.dev", "", "Re: [PATCH] fix", "<1@x>", "<1@x>", "body", none⟩

/-- The review is queued, mailed, queued by a rerun and swept, while two senders ask for mail. -/
def mailedTwiceQueued : List (ℤ × MailCall) :=
  [(0, queued .embargoed), (5, .lockPendingEmail 0), (10, queued .pending),
   (20, .lockPendingEmail 0), (30, queued .pending), (40, .rerunPatchset 1),
   (600, .sweepGhostEmails 590), (620, .markEmailSent 1), (2000, .sweepGhostEmails 2000),
   (2010, queued .pending), (2020, .lockPendingEmail 1)]

theorem mailedOnce_mailedTwiceQueued : MailedOnce (fun _ _ => false) noMail mailedTwiceQueued :=
  mailedOnce rfl ⟨by decide, by decide⟩ (by decide)

/-- Only the fourth call hands out a row. -/
example : (List.range 11).filter (fun n => (mailedTwiceQueued[n]?.bind fun e =>
    e.2.handedOut (noMail.run (fun _ _ => false) (mailedTwiceQueued.take n)) e.1).isSome) = [3] := by
  decide

end Sashiko
