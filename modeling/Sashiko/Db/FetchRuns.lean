import Sashiko.Db.FetchQueue

/-! Fetch workers on one queue: each works with the rows that were handed to it, and every call is
one step. -/

namespace Sashiko

open FetchStore

/-- A row that a worker has been handed, with the second in which it was locked. -/
structure Handing where
  worker : ℕ
  rowId : ℤ
  lockedAt : ℤ
  deriving DecidableEq, Repr

/-- The database, and what was handed out so far, the newest first. -/
structure FetchState where
  store : FetchStore
  handed : List Handing

inductive FetchCall where
  | enqueueFetchRequest (request : FetchRequest)
  | lockPendingFetchQueue (worker : ℕ)
  | hasFetchQueueLease (h : Handing)
  | markFetchQueueDone (h : Handing)
  | markFetchQueueFailed (h : Handing) (errorLog : String)
  | setFetchQueueRetryAt (h : Handing) (nextRetryAt : ℤ) (errorLog : String)
  | sweepStaleFetchQueue
  | setPatchsetStatus (id : ℤ) (status : Option StatusText)
  | cancelPatchset (id : ℤ) (force : Bool)

namespace FetchCall

/-- The row a worker calls with. -/
def lease : FetchCall → Option Handing
  | hasFetchQueueLease h | markFetchQueueDone h | markFetchQueueFailed h _
  | setFetchQueueRetryAt h _ _ => some h
  | _ => none

def handedOut (st : FetchState) (now : ℤ) : FetchCall → Option Handing
  | lockPendingFetchQueue worker =>
    (st.store.lockPendingFetchQueue now).1.map fun r => ⟨worker, r.id, now⟩
  | _ => none

variable (t : SecretFilter)

def stepStore (s : FetchStore) (now : ℤ) : FetchCall → FetchStore
  | enqueueFetchRequest request => FetchStore.enqueueFetchRequest t s request now
  | lockPendingFetchQueue _ => (s.lockPendingFetchQueue now).2
  | hasFetchQueueLease h => (s.hasFetchQueueLease h.rowId (some h.lockedAt)).2
  | markFetchQueueDone h => (s.markFetchQueueDone h.rowId (some h.lockedAt)).2
  | markFetchQueueFailed h errorLog =>
    (FetchStore.markFetchQueueFailed t s h.rowId (some h.lockedAt) errorLog).2
  | setFetchQueueRetryAt h nextRetryAt errorLog =>
    (FetchStore.setFetchQueueRetryAt t s h.rowId (some h.lockedAt) nextRetryAt errorLog).2
  | sweepStaleFetchQueue => s.sweepStaleFetchQueue now
  | setPatchsetStatus id status => s.setPatchsetStatus id status
  | cancelPatchset id force => s.cancelPatchset id force

/-- The lease of a completion or retry write that takes effect. -/
def written (s : FetchStore) : FetchCall → Option Handing
  | markFetchQueueDone h =>
    if (s.markFetchQueueDone h.rowId (some h.lockedAt)).1 then some h else none
  | markFetchQueueFailed h errorLog =>
    if (FetchStore.markFetchQueueFailed t s h.rowId (some h.lockedAt) errorLog).1 then some h
    else none
  | setFetchQueueRetryAt h nextRetryAt errorLog =>
    if (FetchStore.setFetchQueueRetryAt t s h.rowId (some h.lockedAt) nextRetryAt errorLog).1 then
      some h
    else none
  | _ => none

/-- The status under which a completion leaves its row. -/
def outcome : FetchCall → Option FetchStatus
  | markFetchQueueDone _ => some .done
  | markFetchQueueFailed _ _ => some .failed
  | _ => none

def step (st : FetchState) (now : ℤ) (call : FetchCall) : FetchState where
  store := call.stepStore t st.store now
  handed := (call.handedOut st now).toList ++ st.handed

end FetchCall

def FetchState.run (t : SecretFilter) (st : FetchState) : List (ℤ × FetchCall) → FetchState
  | [] => st
  | (now, call) :: rest => FetchState.run t (call.step t st now) rest

theorem FetchState.run_append (t : SecretFilter) (st : FetchState)
    (before after : List (ℤ × FetchCall)) :
    st.run t (before ++ after) = (st.run t before).run t after := by
  induction before generalizing st with
  | nil => rfl
  | cons e before ih => exact ih (e.2.step t st e.1)

/-! ### What one call does to one row -/

variable {t : SecretFilter} {s : FetchStore} {st : FetchState} {now : ℤ} {call : FetchCall}
  {r r' : FetchQueueRow}

/-- How a row comes out of a call when it is not pending afterwards. -/
inductive FetchMove (t : SecretFilter) (st : FetchState) (now : ℤ) (call : FetchCall)
    (r r' : FetchQueueRow) : Prop where
  | kept (status : r'.status = r.status) (lockedAt : r'.lockedAt = r.lockedAt)
      (unhanded : ∀ h, call.handedOut st now = some h → h.rowId ≠ r.id)
      (unwritten : ∀ h, call.written t st.store = some h → h.rowId ≠ r.id)
  | locked (status : r'.status = .fetching) (h : Handing)
      (handed : call.handedOut st now = some h) (row : h.rowId = r.id)
      (lockedAt : r'.lockedAt = some h.lockedAt)
  | cancelled (status : r'.status = .cancelled)
      (target : st.store.targetCancelled r.articleId = true ∨
        (call.stepStore t st.store now).targetCancelled r.articleId = true)
  | finished (status : call.outcome = some r'.status) (h : Handing)
      (written : call.written t st.store = some h) (row : h.rowId = r.id)

/-- A row after the call is pending, or comes from one before it. -/
def Moves (t : SecretFilter) (st : FetchState) (now : ℤ) (call : FetchCall)
    (r' : FetchQueueRow) : Prop :=
  r'.status = .pending ∨ ∃ r ∈ st.store.fetchQueue.rows,
    r.id = r'.id ∧ r.articleId = r'.articleId ∧ FetchMove t st now call r r'

theorem mem_setFetches {p : FetchQueueRow → Bool} {f : FetchQueueRow → FetchQueueRow}
    {hf : ∀ r, (f r).id = r.id} (h : r' ∈ (s.setFetches p f hf).fetchQueue.rows) :
    ∃ r ∈ s.fetchQueue.rows, (p r = true ∧ r' = f r) ∨ (p r = false ∧ r' = r) := by
  obtain ⟨r, hr, rfl⟩ := (Table.mem_update hf).mp h
  refine ⟨r, hr, ?_⟩
  unfold Table.updateRow
  cases hp : p r with
  | true => exact .inl ⟨rfl, rfl⟩
  | false => exact .inr ⟨rfl, rfl⟩

/-- A call that hands nothing out and writes nothing keeps what it does not touch. -/
theorem moves_of_kept (hr : r ∈ st.store.fetchQueue.rows)
    (hhanded : call.handedOut st now = none) (hwritten : call.written t st.store = none) :
    Moves t st now call r :=
  .inr ⟨r, hr, rfl, rfl, .kept rfl rfl (by simp [hhanded]) (by simp [hwritten])⟩

theorem moves_enqueue {request : FetchRequest}
    (h : r' ∈ (FetchStore.enqueueFetchRequest t st.store request now).fetchQueue.rows) :
    Moves t st now (.enqueueFetchRequest request) r' := by
  unfold FetchStore.enqueueFetchRequest at h
  split_ifs at h
  · exact moves_of_kept h rfl rfl
  · obtain ⟨r, hr, ⟨-, rfl⟩ | ⟨-, rfl⟩⟩ := mem_setFetches h
    · by_cases hfetching : r.status = .fetching
      · exact .inr ⟨r, hr, rfl, rfl, .kept (by simp [refreshedFetch, hfetching]) rfl
          (fun _ hhanded => by cases hhanded) (fun _ hwritten => by cases hwritten)⟩
      · exact .inl (by simp [refreshedFetch, hfetching])
    · exact moves_of_kept hr rfl rfl
  · rcases List.mem_append.mp h with h | h
    · exact moves_of_kept h rfl rfl
    · exact .inl (List.mem_singleton.mp h ▸ rfl)

theorem moves_lock {worker : ℕ}
    (h : r' ∈ (st.store.lockPendingFetchQueue now).2.fetchQueue.rows) :
    Moves t st now (.lockPendingFetchQueue worker) r' := by
  -- what the first statement leaves, with what the second hands out
  have horphans : ∀ r ∈ st.store.cancelOrphanedFetches.fetchQueue.rows,
      (∀ h, FetchCall.handedOut st now (.lockPendingFetchQueue worker) = some h → h.rowId ≠ r.id) →
        Moves t st now (.lockPendingFetchQueue worker) r := by
    intro r hr hunhanded
    obtain ⟨r₀, hr₀, ⟨hsel, rfl⟩ | ⟨-, rfl⟩⟩ := mem_setFetches hr
    · refine .inr ⟨r₀, hr₀, rfl, rfl, .cancelled rfl (.inl ?_)⟩
      exact ((Bool.and_eq_true _ _).mp hsel).2
    · exact .inr ⟨r, hr₀, rfl, rfl, .kept rfl rfl hunhanded nofun⟩
  cases hnext : st.store.cancelOrphanedFetches.nextFetch now with
  | none =>
    rw [lockPendingFetchQueue, hnext] at h
    refine horphans r' h ?_
    rw [FetchCall.handedOut, lockPendingFetchQueue, hnext]
    exact nofun
  | some next =>
    have hhanded : FetchCall.handedOut st now (.lockPendingFetchQueue worker) =
        some ⟨worker, next.id, now⟩ := by
      rw [FetchCall.handedOut, lockPendingFetchQueue, hnext]
      rfl
    rw [lockPendingFetchQueue, hnext] at h
    obtain ⟨r, hr, ⟨hsel, rfl⟩ | ⟨hnot, rfl⟩⟩ := mem_setFetches h
    · obtain ⟨r₀, hr₀, hsame⟩ := mem_setFetches hr
      have hid : r₀.id = r.id ∧ r₀.articleId = r.articleId := by
        rcases hsame with ⟨-, rfl⟩ | ⟨-, rfl⟩ <;> exact ⟨rfl, rfl⟩
      refine .inr ⟨r₀, hr₀, hid.1, hid.2, .locked rfl _ hhanded ?_ rfl⟩
      exact ((of_decide_eq_true hsel).symm.trans hid.1.symm)
    · refine horphans r' hr fun h hh => ?_
      obtain rfl := Option.some.inj (hhanded.symm.trans hh)
      exact fun hid => of_decide_eq_false hnot hid.symm

/-! ### Writes under a lease -/

theorem moves_cancelIfTargetCancelled {id : ℤ} {lockedAt : Option ℤ}
    (hhanded : call.handedOut st now = none) (hwritten : call.written t st.store = none)
    (h : r' ∈ (st.store.cancelFetchQueueIfTargetCancelled id lockedAt).fetchQueue.rows) :
    Moves t st now call r' := by
  obtain ⟨r, hr, ⟨hsel, rfl⟩ | ⟨-, rfl⟩⟩ := mem_setFetches h
  · refine .inr ⟨r, hr, rfl, rfl, .cancelled rfl (.inl ?_)⟩
    exact ((Bool.and_eq_true _ _).mp hsel).2
  · exact moves_of_kept hr hhanded hwritten

theorem id_of_writable {id : ℤ} {lockedAt : Option ℤ} (h : s.writable id lockedAt r = true) :
    r.id = id ∧ r.status = .fetching ∧ r.lockedAt.getD 0 = lockedAt.getD 0 := by
  simp only [writable, leasedFetch, Bool.and_eq_true, decide_eq_true_eq] at h
  exact ⟨h.1.1.1, h.1.1.2, h.1.2⟩

/-- Of the rows of a lease only the writable one is there. -/
theorem ne_of_not_writable {id : ℤ} {lockedAt : Option ℤ}
    (hany : s.fetchQueue.any (s.writable id lockedAt) = true) (hr : r ∈ s.fetchQueue.rows)
    (hnot : s.writable id lockedAt r = false) : id ≠ r.id := by
  obtain ⟨r₀, hr₀, hwritable⟩ := Table.any_eq_true.mp hany
  rintro rfl
  rw [Table.eq_of_key_eq hr₀ hr (id_of_writable hwritable).1, hnot] at hwritable
  cases hwritable

theorem moves_done {h : Handing} (hr' : r' ∈ (st.store.markFetchQueueDone h.rowId
    (some h.lockedAt)).2.fetchQueue.rows) : Moves t st now (.markFetchQueueDone h) r' := by
  unfold markFetchQueueDone at hr'
  split_ifs at hr' with hany
  · have hwritten : FetchCall.written t st.store (.markFetchQueueDone h) = some h := by
      rw [FetchCall.written, markFetchQueueDone, if_pos hany]
      rfl
    obtain ⟨r, hr, ⟨hsel, rfl⟩ | ⟨hnot, rfl⟩⟩ := mem_setFetches hr'
    · exact .inr ⟨r, hr, rfl, rfl, .finished rfl h hwritten (id_of_writable hsel).1.symm⟩
    · refine .inr ⟨r', hr, rfl, rfl, .kept rfl rfl nofun fun h' hh' => ?_⟩
      obtain rfl := Option.some.inj (hwritten.symm.trans hh')
      exact ne_of_not_writable hany hr hnot
  · refine moves_cancelIfTargetCancelled rfl ?_ hr'
    rw [FetchCall.written, markFetchQueueDone, if_neg hany]
    rfl

theorem moves_retry {h : Handing} {nextRetryAt : ℤ} {errorLog : String}
    (hr' : r' ∈ (FetchStore.setFetchQueueRetryAt t st.store h.rowId (some h.lockedAt) nextRetryAt
      errorLog).2.fetchQueue.rows) :
    Moves t st now (.setFetchQueueRetryAt h nextRetryAt errorLog) r' := by
  unfold FetchStore.setFetchQueueRetryAt at hr'
  split_ifs at hr' with hany
  · have hwritten : FetchCall.written t st.store (.setFetchQueueRetryAt h nextRetryAt errorLog) =
        some h := by
      rw [FetchCall.written, FetchStore.setFetchQueueRetryAt, if_pos hany]
      rfl
    obtain ⟨r, hr, ⟨hsel, rfl⟩ | ⟨hnot, rfl⟩⟩ := mem_setFetches hr'
    · exact .inl rfl
    · refine .inr ⟨r', hr, rfl, rfl, .kept rfl rfl nofun fun h' hh' => ?_⟩
      obtain rfl := Option.some.inj (hwritten.symm.trans hh')
      exact ne_of_not_writable hany hr hnot
  · refine moves_cancelIfTargetCancelled rfl ?_ hr'
    rw [FetchCall.written, FetchStore.setFetchQueueRetryAt, if_neg hany]
    rfl

theorem fetchQueue_failPlaceholders (s : FetchStore) (redacted articleId : String) :
    (s.failPlaceholders redacted articleId).fetchQueue = s.fetchQueue := by
  unfold failPlaceholders
  generalize getMsgidCandidates (articleId ++ "@sashiko.local") ++ getMsgidCandidates articleId =
    ids
  induction ids generalizing s with
  | nil => rfl
  | cons id ids ih => exact ih (failPlaceholder redacted s id)

theorem moves_failed {h : Handing} {errorLog : String}
    (hr' : r' ∈ (FetchStore.markFetchQueueFailed t st.store h.rowId (some h.lockedAt)
      errorLog).2.fetchQueue.rows) : Moves t st now (.markFetchQueueFailed h errorLog) r' := by
  cases hfind : (st.store.cancelFetchQueueIfTargetCancelled h.rowId
      (some h.lockedAt)).fetchQueue.rows.find?
        ((st.store.cancelFetchQueueIfTargetCancelled h.rowId (some h.lockedAt)).writable h.rowId
          (some h.lockedAt)) with
  | none =>
    rw [FetchStore.markFetchQueueFailed, hfind] at hr'
    refine moves_cancelIfTargetCancelled rfl ?_ hr'
    rw [FetchCall.written, FetchStore.markFetchQueueFailed, hfind]
    rfl
  | some found =>
    have hwritten : FetchCall.written t st.store (.markFetchQueueFailed h errorLog) = some h := by
      rw [FetchCall.written, FetchStore.markFetchQueueFailed, hfind]
      rfl
    have hany : (st.store.cancelFetchQueueIfTargetCancelled h.rowId
        (some h.lockedAt)).fetchQueue.any ((st.store.cancelFetchQueueIfTargetCancelled h.rowId
          (some h.lockedAt)).writable h.rowId (some h.lockedAt)) = true :=
      Table.any_eq_true.mpr ⟨found, List.mem_of_find?_eq_some hfind, List.find?_some hfind⟩
    rw [FetchStore.markFetchQueueFailed, hfind] at hr'
    simp only [fetchQueue_failPlaceholders] at hr'
    obtain ⟨r₁, hr₁, hlast⟩ := mem_setFetches hr'
    obtain ⟨r, hr, ⟨hsel, rfl⟩ | ⟨-, rfl⟩⟩ := mem_setFetches hr₁
    · -- a cancelled row is not written any more
      rcases hlast with ⟨hwritable, -⟩ | ⟨-, rfl⟩
      · exact absurd (id_of_writable hwritable).2.1 nofun
      · refine .inr ⟨r, hr, rfl, rfl, .cancelled rfl (.inl ?_)⟩
        exact ((Bool.and_eq_true _ _).mp hsel).2
    · rcases hlast with ⟨hwritable, rfl⟩ | ⟨hnot, rfl⟩
      · exact .inr ⟨r₁, hr, rfl, rfl,
          .finished rfl h hwritten (id_of_writable hwritable).1.symm⟩
      · refine .inr ⟨r', hr, rfl, rfl, .kept rfl rfl nofun fun h' hh' => ?_⟩
        obtain rfl := Option.some.inj (hwritten.symm.trans hh')
        exact ne_of_not_writable hany hr₁ hnot

/-! ### Patchsets -/

theorem status_of_cancelPatchset {id : ℤ} {force : Bool} {s : Store} {ps : PatchsetRow}
    (hallowed : (s.cancelPatchset id force).1 = true)
    (hps : ps ∈ (s.cancelPatchset id force).2.patchsets.rows) (hid : ps.id = id) :
    ps.status = some .cancelled := by
  unfold Store.cancelPatchset at hallowed hps
  split_ifs at hallowed hps with hany
  obtain ⟨ps₀, hps₀, hcancel₀⟩ := Table.any_eq_true.mp hany
  rw [decide_eq_true_iff] at hcancel₀
  obtain ⟨ps₁, hps₁, rfl⟩ := List.mem_map.mp hps
  have hid₁ : ps₁.id = id :=
    (Table.key_updateRow (f := fun ps : PatchsetRow => { ps with status := some .cancelled })
      (fun _ => rfl) _ ps₁).symm.trans hid
  have hsel : ps₁.id = id ∧ Store.cancelAllowed force ps₁.status = true := by
    rw [Table.eq_of_key_eq hps₁ hps₀ (hid₁.trans hcancel₀.1.symm)]
    exact hcancel₀
  rw [Table.updateRow, if_pos (decide_eq_true hsel)]

theorem moves_cancelPatchset {id : ℤ} {force : Bool}
    (h : r' ∈ (st.store.cancelPatchset id force).fetchQueue.rows) :
    Moves t st now (.cancelPatchset id force) r' := by
  by_cases hallowed : (st.store.toStore.cancelPatchset id force).1 = true
  · have hafter : FetchCall.stepStore t st.store now (.cancelPatchset id force) =
        FetchStore.cancelFetchesForPatchset
          { st.store with toStore := (st.store.toStore.cancelPatchset id force).2 } id
          "Cancelled because patchset was cancelled" := if_pos hallowed
    rw [FetchStore.cancelPatchset, if_pos hallowed] at h
    obtain ⟨r, hr, ⟨hsel, rfl⟩ | ⟨-, rfl⟩⟩ := mem_setFetches h
    · refine .inr ⟨r, hr, rfl, rfl, .cancelled rfl (.inr ?_)⟩
      simp only [Bool.and_eq_true] at hsel
      obtain ⟨ps, hps, htarget⟩ := Table.any_eq_true.mp hsel.1.2
      rw [Bool.and_eq_true, decide_eq_true_iff] at htarget
      have hcancelled := status_of_cancelPatchset hallowed hps htarget.1
      rw [hafter]
      refine (Bool.and_eq_true _ _).mpr ⟨Table.any_eq_true.mpr ⟨ps, hps, ?_⟩, ?_⟩
      · rw [Bool.and_eq_true, decide_eq_true_iff]
        exact ⟨hcancelled, htarget.2⟩
      · refine (Bool.not_eq_true' _).mpr (Bool.eq_false_iff.mpr fun hany => ?_)
        obtain ⟨ps', hps', hother⟩ := Table.any_eq_true.mp hany
        rw [Bool.and_eq_true, decide_eq_true_iff] at hother
        have hne : ps'.id ≠ id := fun hid =>
          hother.1 (status_of_cancelPatchset hallowed hps' hid)
        have hnone := (Bool.not_eq_true' _).mp hsel.2
        refine Bool.noConfusion (hnone.symm.trans (Table.any_eq_true.mpr ⟨ps', hps', ?_⟩))
        rw [Bool.and_eq_true, Bool.and_eq_true, decide_eq_true_iff, decide_eq_true_iff]
        exact ⟨⟨hne, hother.1⟩, hother.2⟩
    · exact moves_of_kept hr rfl rfl
  · rw [FetchStore.cancelPatchset, if_neg hallowed] at h
    exact moves_of_kept h rfl rfl

theorem moves (h : r' ∈ (call.step t st now).store.fetchQueue.rows) : Moves t st now call r' := by
  cases call with
  | enqueueFetchRequest request => exact moves_enqueue h
  | lockPendingFetchQueue worker => exact moves_lock h
  | hasFetchQueueLease lease =>
    change r' ∈ (st.store.hasFetchQueueLease _ _).2.fetchQueue.rows at h
    unfold hasFetchQueueLease at h
    split_ifs at h
    · exact moves_of_kept h rfl rfl
    · exact moves_cancelIfTargetCancelled rfl rfl h
  | markFetchQueueDone lease => exact moves_done h
  | markFetchQueueFailed lease errorLog => exact moves_failed h
  | setFetchQueueRetryAt lease nextRetryAt errorLog => exact moves_retry h
  | sweepStaleFetchQueue =>
    obtain ⟨r, hr, ⟨-, rfl⟩ | ⟨-, rfl⟩⟩ := mem_setFetches h
    · exact .inl rfl
    · exact moves_of_kept hr rfl rfl
  | setPatchsetStatus id status => exact moves_of_kept h rfl rfl
  | cancelPatchset id force => exact moves_cancelPatchset h

end Sashiko
