import Sashiko.Db.PatchworkOutbox
import Mathlib.Algebra.Order.BigOperators.Group.List
import Mathlib.Algebra.Order.Ring.Nat

/-! The two guards that cancel patchwork checks: queueing one asks about all patchsets of the
message, locking one about any of them. -/

namespace Sashiko

open PatchworkStore

variable {s s' : PatchworkStore} {e : PatchworkOutboxRow} {now : ℤ}

/-- A check that waits in `s` is cancelled in `s'`. -/
def CheckCancelled (s s' : PatchworkStore) (e : PatchworkOutboxRow) : Prop :=
  e ∈ s.patchworkOutbox.rows ∧ e.status = some .pending ∧
    ∃ e' ∈ s'.patchworkOutbox.rows, e'.id = e.id ∧ e'.status = some .cancelled

/-- Queueing without a claim does nothing, whatever the check on the message. -/
def RefusesChecks (s : PatchworkStore) (patchMsgId : String) : Prop :=
  ∀ check now, check.patchMsgId = patchMsgId → s.insertPatchworkOutbox none check now = s

/-- The message is in a cancelled patchset and in one that is not. -/
def PartlyCancelled (s : PatchworkStore) (patchMsgId : String) : Prop :=
  s.heldIn patchMsgId (·.status = some .cancelled) = true ∧
    s.heldIn patchMsgId (·.status ≠ some .cancelled) = true

/-- Some patchset of the message is not cancelled. -/
def StillHeld (s : PatchworkStore) (patchMsgId : String) : Prop :=
  s.heldIn patchMsgId (·.status ≠ some .cancelled) = true

/-! ### Queueing -/

theorem exists_string_notMem (texts : List String) : ∃ text, text ∉ texts := by
  refine ⟨String.ofList (List.replicate ((texts.map String.length).sum + 1) 'x'), fun hmem => ?_⟩
  have hle := List.single_le_sum (fun _ _ => Nat.zero_le _) _
    (List.mem_map_of_mem (f := String.length) hmem)
  rw [String.length_ofList, List.length_replicate] at hle
  omega

theorem refusesChecks_iff {patchMsgId : String} :
    RefusesChecks s patchMsgId ↔ s.allHoldersCancelled patchMsgId = true := by
  constructor
  · intro h
    by_contra hguard
    obtain ⟨apiUrl, hurl⟩ := exists_string_notMem (s.patchworkOutbox.rows.map (·.apiUrl))
    have hnone : s.patchworkOutbox.lastWhere
        (ofCheck ⟨patchMsgId, apiUrl, "success", "", "", "sashiko"⟩) = none := by
      by_contra hsome
      obtain ⟨existing, hexisting⟩ := Option.ne_none_iff_exists'.mp hsome
      obtain ⟨hmem, hsame⟩ := Table.selected_of_lastWhere hexisting
      simp only [ofCheck, Bool.and_eq_true, decide_eq_true_eq] at hsame
      exact hurl (hsame.1.2 ▸ List.mem_map_of_mem hmem)
    have hinsert := h ⟨patchMsgId, apiUrl, "success", "", "", "sashiko"⟩ 0 rfl
    have hactive : s.isPatchsetClaimActiveForOutbox none none = true := rfl
    rw [insertPatchworkOutbox, hactive, if_neg (by decide), if_neg hguard, hnone] at hinsert
    have hlen := congrArg (fun s => s.patchworkOutbox.rows.length) hinsert
    simp [Table.insert] at hlen
  · rintro h check now rfl
    rw [insertPatchworkOutbox, if_pos h, ite_self]

/-! ### Locking -/

theorem cancelled_of_setChecks {p : PatchworkOutboxRow → Bool} {reason : String}
    (hp : ∀ e, p e = true → e.status = some .pending) :
    CheckCancelled s (s.setChecks p (withdrawnCheck reason)) e ↔
      e ∈ s.patchworkOutbox.rows ∧ p e = true := by
  constructor
  · rintro ⟨he, hpending, e', he', hid, hstatus⟩
    refine ⟨he, ?_⟩
    obtain ⟨e₀, he₀, rfl⟩ := (Table.mem_update (f := withdrawnCheck reason) fun _ => rfl).mp he'
    have hsame : e₀ = e := Table.eq_of_key_eq he₀ he
      ((Table.key_updateRow (f := withdrawnCheck reason) (fun _ => rfl) p e₀).symm.trans hid)
    by_contra hnot
    rw [hsame, Table.updateRow, if_neg hnot, hpending] at hstatus
    cases hstatus
  · rintro ⟨he, hselected⟩
    exact ⟨he, hp e hselected, _, Table.mem_update_of he hselected, rfl, rfl⟩

theorem cancelled_of_withdrawCancelled :
    CheckCancelled s s.withdrawCancelled e ↔ e ∈ s.patchworkOutbox.rows ∧
      e.status = some .pending ∧ s.heldIn e.patchMsgId (·.status = some .cancelled) = true := by
  rw [withdrawCancelled, cancelled_of_setChecks]
  · rw [Bool.and_eq_true, decide_eq_true_iff]
  · exact fun e h => of_decide_eq_true (Bool.and_eq_true _ _ ▸ h).1

/-- Handing out a check cancels none. -/
theorem cancelled_of_lock {preferred : ℤ} :
    CheckCancelled s (s.lockPendingPatchwork preferred now).2 e ↔
      CheckCancelled s s.withdrawCancelled e := by
  unfold lockPendingPatchwork
  split
  · rename_i sending hsending
    have hwaits : sending ∈ s.withdrawCancelled.patchworkOutbox.rows ∧
        sending.status = some .pending := by
      rcases Option.or_eq_some_iff.mp hsending with hfind | ⟨-, hfind⟩ <;>
      · have hfound := List.find?_some hfind
        simp only [Bool.and_eq_true, decide_eq_true_eq] at hfound
        exact ⟨List.mem_of_find?_eq_some hfind, by simp [hfound]⟩
    refine and_congr_right fun he => and_congr_right fun hpending => ?_
    constructor
    · rintro ⟨e', he', hid, hstatus⟩
      obtain ⟨e₀, he₀, rfl⟩ := (Table.mem_update (f := sendingCheck now) fun _ => rfl).mp he'
      unfold Table.updateRow at hid hstatus
      split_ifs at hid hstatus
      · cases hstatus
      · exact ⟨e₀, he₀, hid, hstatus⟩
    · rintro ⟨e', he', hid, hstatus⟩
      refine ⟨e', Table.mem_update_of_not he' (decide_eq_false fun hsame => ?_), hid, hstatus⟩
      rw [Table.eq_of_key_eq he' hwaits.1 hsame, hwaits.2] at hstatus
      cases hstatus
  · rfl

theorem heldIn_lock (preferred : ℤ) (patchMsgId : String) (q : PatchsetRow → Bool) :
    (s.lockPendingPatchwork preferred now).2.heldIn patchMsgId q = s.heldIn patchMsgId q := by
  unfold lockPendingPatchwork
  split <;> rfl

/-- The guard of the lock and that of the queue, for one check. -/
def GuardsAgree (s : PatchworkStore) (e : PatchworkOutboxRow) : Prop := ∀ preferred now,
  CheckCancelled s (s.lockPendingPatchwork preferred now).2 e ↔ RefusesChecks s e.patchMsgId

theorem guardsAgree_iff (he : e ∈ s.patchworkOutbox.rows) (hpending : e.status = some .pending) :
    GuardsAgree s e ↔ ¬PartlyCancelled s e.patchMsgId := by
  have hlock : ∀ preferred now, CheckCancelled s (s.lockPendingPatchwork preferred now).2 e ↔
      s.heldIn e.patchMsgId (·.status = some .cancelled) = true := fun preferred now => by
    rw [cancelled_of_lock, cancelled_of_withdrawCancelled]
    simp [he, hpending]
  simp only [GuardsAgree, hlock, refusesChecks_iff, allHoldersCancelled, PartlyCancelled,
    Bool.and_eq_true, Bool.not_eq_true']
  cases s.heldIn e.patchMsgId (·.status = some .cancelled) <;>
  cases s.heldIn e.patchMsgId (·.status ≠ some .cancelled) <;> simp

/-! ### Runs -/

inductive PatchworkCall where
  | insertPatchworkOutbox (claim : Option PatchsetReviewClaim) (check : PatchworkCheck)
  | setPatchsetStatus (id : ℤ) (status : Option StatusText)
  | cancelPatchset (id : ℤ) (force : Bool)
  | lockPendingPatchwork (preferred : ℤ)

namespace PatchworkCall

def step (s : PatchworkStore) (now : ℤ) : PatchworkCall → PatchworkStore
  | insertPatchworkOutbox claim check => s.insertPatchworkOutbox claim check now
  | setPatchsetStatus id status => s.setPatchsetStatus id status
  | cancelPatchset id force => s.cancelPatchset id force
  | lockPendingPatchwork preferred => (s.lockPendingPatchwork preferred now).2

/-- What the call may withdraw is in no other patchset that is not cancelled. -/
def Undivided (s : PatchworkStore) : PatchworkCall → Prop
  | lockPendingPatchwork _ => ∀ e ∈ s.patchworkOutbox.rows, e.status = some .pending →
    ¬PartlyCancelled s e.patchMsgId
  | cancelPatchset id force => (s.toStore.cancelPatchset id force).1 = true →
    ∀ e ∈ s.patchworkOutbox.rows, e.status = some .pending → s.ofPatchset id e = true →
      s.heldIn e.patchMsgId (fun ps => ps.id ≠ id && ps.status ≠ some .cancelled) = false
  | _ => True

/-- What the call cancels is in no patchset that is not cancelled. -/
def CancelsLate (s : PatchworkStore) (now : ℤ) (call : PatchworkCall) : Prop := ∀ e,
  CheckCancelled s (call.step s now) e → ¬StillHeld (call.step s now) e.patchMsgId

end PatchworkCall

def PatchworkStore.run (s : PatchworkStore) : List (ℤ × PatchworkCall) → PatchworkStore
  | [] => s
  | (now, call) :: rest => PatchworkStore.run (call.step s now) rest

theorem not_cancelled_of_rows (h : ∀ e' ∈ s'.patchworkOutbox.rows,
    e' ∈ s.patchworkOutbox.rows ∨ e'.status = some .pending) : ¬CheckCancelled s s' e := by
  rintro ⟨he, hpending, e', he', hid, hstatus⟩
  rcases h e' he' with hold | hwaits
  · rw [Table.eq_of_key_eq hold he hid, hpending] at hstatus
    cases hstatus
  · rw [hwaits] at hstatus
    cases hstatus

theorem not_cancelled_of_insert {claim : Option PatchsetReviewClaim} {check : PatchworkCheck} :
    ¬CheckCancelled s (s.insertPatchworkOutbox claim check now) e := by
  refine not_cancelled_of_rows fun e' he' => ?_
  unfold insertPatchworkOutbox at he'
  split at he'
  · exact .inl he'
  split at he'
  · exact .inl he'
  split at he'
  · split_ifs at he'
    · obtain ⟨e₀, he₀, rfl⟩ := List.mem_map.mp he'
      unfold Table.updateRow
      split_ifs
      · exact .inr rfl
      · exact .inl he₀
    · exact .inl he'
  · rcases List.mem_append.mp he' with he' | he'
    · exact .inl he'
    · exact .inr (List.mem_singleton.mp he' ▸ rfl)

section Cancelling

variable {id : ℤ} {force : Bool}

/-- The patches are in the patchsets they were in. -/
theorem any_patches_cancelPatchset (q : PatchRow → Bool)
    (hq : ∀ p : PatchRow, ∀ status, q { p with status := status } = q p) :
    (s.toStore.cancelPatchset id force).2.patches.any q = s.patches.any q := by
  unfold Store.cancelPatchset
  split_ifs
  · exact Table.any_update (f := fun p : PatchRow => { p with status := some .cancelled })
      (fun _ => rfl) fun p => hq p _
  · rfl

theorem ofPatchset_cancelPatchset :
    PatchworkStore.ofPatchset { s with toStore := (s.toStore.cancelPatchset id force).2 } id e =
      s.ofPatchset id e :=
  any_patches_cancelPatchset _ fun _ _ => rfl

theorem cancelled_of_cancelPatchset (hallowed : (s.toStore.cancelPatchset id force).1 = true) :
    CheckCancelled s (s.cancelPatchset id force) e ↔ e ∈ s.patchworkOutbox.rows ∧
      e.status = some .pending ∧ s.ofPatchset id e = true := by
  have hcancel := @cancelled_of_setChecks
    { s with toStore := (s.toStore.cancelPatchset id force).2 } e
    (fun e => e.status = some .pending && s.ofPatchset id e)
    "Cancelled because patchset was cancelled"
    fun e h => of_decide_eq_true ((Bool.and_eq_true _ _).mp h).1
  rw [Bool.and_eq_true, decide_eq_true_iff] at hcancel
  rw [PatchworkStore.cancelPatchset, if_pos hallowed, cancelOutboxForPatchset]
  simp only [ofPatchset_cancelPatchset]
  exact hcancel

theorem any_patchsets_cancelPatchset
    (hallowed : (s.toStore.cancelPatchset id force).1 = true) (patchsetId : ℤ) :
    (s.toStore.cancelPatchset id force).2.patchsets.any
        (fun ps => ps.id = patchsetId && ps.status ≠ some .cancelled) =
      s.patchsets.any fun ps => ps.id = patchsetId &&
        (ps.id ≠ id && ps.status ≠ some .cancelled) := by
  unfold Store.cancelPatchset at hallowed ⊢
  split_ifs at hallowed ⊢ with hany
  obtain ⟨ps₀, hps₀, hcancel₀⟩ := Table.any_eq_true.mp hany
  rw [decide_eq_true_iff] at hcancel₀
  change (s.patchsets.update (fun ps => ps.id = id ∧ Store.cancelAllowed force ps.status = true)
    (fun ps => { ps with status := some .cancelled }) fun _ => rfl).any _ = _
  rw [Bool.eq_iff_iff, Table.any_eq_true, Table.any_eq_true]
  constructor
  · rintro ⟨ps', hps', hq⟩
    obtain ⟨ps, hps, rfl⟩ := List.mem_map.mp hps'
    refine ⟨ps, hps, ?_⟩
    unfold Table.updateRow at hq
    split_ifs at hq with hsel
    · simp at hq
    · have hne : ps.id ≠ id := fun hid => hsel (by
        rw [Table.eq_of_key_eq hps hps₀ (hid.trans hcancel₀.1.symm)]
        exact decide_eq_true hcancel₀)
      simpa [hne] using hq
  · rintro ⟨ps, hps, hq⟩
    simp only [Bool.and_eq_true, decide_eq_true_eq] at hq
    refine ⟨ps, Table.mem_update_of_not hps ?_, ?_⟩
    · exact decide_eq_false fun hsel => hq.2.1 hsel.1
    · simpa using ⟨hq.1, hq.2.2⟩

theorem stillHeld_cancelPatchset (hallowed : (s.toStore.cancelPatchset id force).1 = true)
    (patchMsgId : String) : StillHeld (s.cancelPatchset id force) patchMsgId ↔
      s.heldIn patchMsgId (fun ps => ps.id ≠ id && ps.status ≠ some .cancelled) = true := by
  have hpatchsets : ∀ patchsetId, (s.toStore.cancelPatchset id force).2.patchsets.any
      (fun ps => ps.id = patchsetId && ps.status ≠ some .cancelled) =
        s.patchsets.any fun ps => ps.id = patchsetId &&
          (ps.id ≠ id && ps.status ≠ some .cancelled) := fun patchsetId =>
    any_patchsets_cancelPatchset hallowed patchsetId
  rw [StillHeld, PatchworkStore.cancelPatchset, if_pos hallowed]
  change PatchworkStore.heldIn { s with toStore := (s.toStore.cancelPatchset id force).2 }
    patchMsgId (·.status ≠ some .cancelled) = true ↔ _
  unfold heldIn
  rw [any_patches_cancelPatchset _ fun _ _ => rfl]
  simp only [hpatchsets]

end Cancelling

theorem cancelsLate_iff (call : PatchworkCall) :
    call.CancelsLate s now ↔ call.Undivided s := by
  cases call with
  | insertPatchworkOutbox claim check =>
    exact iff_of_true (fun e h => absurd h not_cancelled_of_insert) trivial
  | setPatchsetStatus id status =>
    have hsame : ∀ e, ¬CheckCancelled s (s.setPatchsetStatus id status) e := fun e =>
      not_cancelled_of_rows fun e' he' => .inl he'
    exact iff_of_true (fun e h => absurd h (hsame e)) trivial
  | cancelPatchset id force =>
    by_cases hallowed : (s.toStore.cancelPatchset id force).1 = true
    · simp only [PatchworkCall.CancelsLate, PatchworkCall.Undivided, PatchworkCall.step,
        cancelled_of_cancelPatchset hallowed, stillHeld_cancelPatchset hallowed, hallowed,
        forall_const, Bool.not_eq_true, and_imp]
    · have hsame : s.cancelPatchset id force = s := if_neg hallowed
      refine iff_of_true (fun e h => absurd h ?_) fun h => absurd h hallowed
      rw [PatchworkCall.step, hsame]
      exact not_cancelled_of_rows fun e' he' => .inl he'
  | lockPendingPatchwork preferred =>
    simp only [PatchworkCall.CancelsLate, PatchworkCall.Undivided, PatchworkCall.step,
      cancelled_of_lock, cancelled_of_withdrawCancelled, StillHeld, heldIn_lock, PartlyCancelled,
      and_imp, not_and]

/-- The guards agree on the checks of a message that is not partly cancelled, and in a run checks
are cancelled late if and only if every call that withdraws some finds none of another patchset's
among them. -/
theorem patchwork_guards_iff (s : PatchworkStore) (calls : List (ℤ × PatchworkCall)) :
    (∀ e ∈ s.patchworkOutbox.rows, e.status = some .pending →
        (GuardsAgree s e ↔ ¬PartlyCancelled s e.patchMsgId)) ∧
      ((∀ before now call after, calls = before ++ (now, call) :: after →
          call.CancelsLate (s.run before) now) ↔
        ∀ before now call after, calls = before ++ (now, call) :: after →
          call.Undivided (s.run before)) := by
  refine ⟨fun e he hpending => guardsAgree_iff he hpending, ?_⟩
  simp only [cancelsLate_iff]

/-- One message in two patchsets, the first of them with this status. -/
def resentMessage (status : StatusText) : PatchworkStore where
  patchsets := ⟨[⟨1, some status, none, none⟩, ⟨2, some .pending, none, none⟩], by simp⟩
  patchsetGenSeq := none
  patchsetActiveGen := fun _ => none
  reviewsMaxId := none
  reviews := Table.empty
  findings := Table.empty
  toolUsages := Table.empty
  patches := ⟨[⟨10, 1, none, none⟩, ⟨20, 2, none, none⟩], by decide⟩
  messageId := fun _ => "<patch@list>"
  patchworkOutbox := ⟨[⟨1, "<patch@list>", "https://patchwork", "success", "", "", "sashiko",
    some .pending, 0, none, none, none, 0⟩], by decide⟩

/-- The first patchset is cancelled: the lock withdraws the check, which queueing would accept. -/
theorem check_of_resent_message_withdrawn :
    (¬∀ s : PatchworkStore, ∀ e ∈ s.patchworkOutbox.rows, e.status = some .pending →
        GuardsAgree s e) ∧
      ¬∀ (s : PatchworkStore) (calls : List (ℤ × PatchworkCall)) before now call after,
        calls = before ++ (now, call) :: after → call.CancelsLate (s.run before) now := by
  have hpartly : PartlyCancelled (resentMessage .cancelled) "<patch@list>" := by
    unfold PartlyCancelled
    decide
  constructor
  · intro h
    exact (guardsAgree_iff List.mem_cons_self rfl).mp
      (h (resentMessage .cancelled) _ List.mem_cons_self rfl) hpartly
  · intro h
    have hlate := h (resentMessage .pending) [(0, .setPatchsetStatus 1 (some .cancelled)),
      (1, .lockPendingPatchwork 1)] [(0, .setPatchsetStatus 1 (some .cancelled))] 1 _ [] rfl
    exact (cancelsLate_iff _).mp hlate _ List.mem_cons_self rfl hpartly

end Sashiko
