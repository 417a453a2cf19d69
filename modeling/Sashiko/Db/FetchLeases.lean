import Sashiko.Db.FetchRuns

/-! The leases of the fetch queue over whole runs. The token of a lease is the second in which the
row was locked, so they hold as long as no row is handed out twice within one second. -/

namespace Sashiko

open FetchStore

variable {t : SecretFilter} {s : FetchStore} {st : FetchState} {now : ℤ} {call : FetchCall}
  {r r' : FetchQueueRow} {h : Handing} {id : ℤ}

/-- To whom the row was last handed. -/
def FetchState.lastHanding (st : FetchState) (rowId : ℤ) : Option Handing :=
  st.handed.find? (·.rowId = rowId)

/-- Workers call with rows that they have been handed. -/
def WithOwnRows (t : SecretFilter) (st : FetchState) (calls : List (ℤ × FetchCall)) : Prop :=
  ∀ before now call after, calls = before ++ (now, call) :: after →
    ∀ h, call.lease = some h → h ∈ (st.run t before).handed

/-- The row next in the queue was not handed out in the same second before. -/
def FreshLocks (t : SecretFilter) (st : FetchState) (calls : List (ℤ × FetchCall)) : Prop :=
  ∀ before now worker after, calls = before ++ (now, .lockPendingFetchQueue worker) :: after →
    ∀ r, (st.run t before).store.cancelOrphanedFetches.nextFetch now = some r →
      ∀ h ∈ (st.run t before).handed, h.rowId = r.id → h.lockedAt ≠ now

/-- Where a request is after a run. -/
inductive FetchAccount (t : SecretFilter) (st : FetchState) (calls : List (ℤ × FetchCall))
    (r : FetchQueueRow) : Prop where
  | pending (status : r.status = .pending)
  | fetching (status : r.status = .fetching) (h : Handing)
      (last : (st.run t calls).lastHanding r.id = some h) (lockedAt : r.lockedAt = some h.lockedAt)
      (swept : ∀ clock, h.lockedAt < clock - staleFetchSeconds →
        ∃ r' ∈ ((st.run t calls).store.sweepStaleFetchQueue clock).fetchQueue.rows,
          r'.id = r.id ∧ r'.status = .pending)
  | finished (before after : List (ℤ × FetchCall)) (now : ℤ) (call : FetchCall) (h : Handing)
      (calls_eq : calls = before ++ (now, call) :: after)
      (written : call.written t (st.run t before).store = some h) (row : h.rowId = r.id)
      (last : (st.run t before).lastHanding r.id = some h) (status : call.outcome = some r.status)
  | cancelled (status : r.status = .cancelled) (before after : List (ℤ × FetchCall)) (now : ℤ)
      (call : FetchCall) (calls_eq : calls = before ++ (now, call) :: after)
      (target : (st.run t before).store.targetCancelled r.articleId = true ∨
        (call.step t (st.run t before) now).store.targetCancelled r.articleId = true)

/-! ### Writes that take effect -/

theorem lease_of_written (hw : call.written t s = some h) : call.lease = some h := by
  cases call with
  | markFetchQueueDone h' | markFetchQueueFailed h' _ | setFetchQueueRetryAt h' _ _ =>
    simp only [FetchCall.written] at hw
    split_ifs at hw
    exact hw
  | _ => cases hw

theorem handedOut_of_written (hw : call.written t st.store = some h) :
    call.handedOut st now = none := by
  cases call with
  | lockPendingFetchQueue worker => cases hw
  | _ => rfl

/-- The row is leased in the second of the caller's token. -/
theorem fetching_of_written (hw : call.written t s = some h) :
    ∃ r ∈ s.fetchQueue.rows, r.id = h.rowId ∧ r.status = .fetching ∧
      r.lockedAt.getD 0 = h.lockedAt := by
  have hany : ∀ {h' : Handing}, s.fetchQueue.any (s.writable h'.rowId (some h'.lockedAt)) = true →
      ∃ r ∈ s.fetchQueue.rows, r.id = h'.rowId ∧ r.status = .fetching ∧
        r.lockedAt.getD 0 = h'.lockedAt := fun {h'} hany => by
    obtain ⟨r, hr, hwritable⟩ := Table.any_eq_true.mp hany
    exact ⟨r, hr, id_of_writable hwritable⟩
  cases call with
  | markFetchQueueDone h' =>
    by_cases hsome : s.fetchQueue.any (s.writable h'.rowId (some h'.lockedAt)) = true
    · rw [FetchCall.written, markFetchQueueDone, if_pos hsome] at hw
      cases hw
      exact hany hsome
    · rw [FetchCall.written, markFetchQueueDone, if_neg hsome] at hw
      cases hw
  | setFetchQueueRetryAt h' nextRetryAt errorLog =>
    by_cases hsome : s.fetchQueue.any (s.writable h'.rowId (some h'.lockedAt)) = true
    · rw [FetchCall.written, FetchStore.setFetchQueueRetryAt, if_pos hsome] at hw
      cases hw
      exact hany hsome
    · rw [FetchCall.written, FetchStore.setFetchQueueRetryAt, if_neg hsome] at hw
      cases hw
  | markFetchQueueFailed h' errorLog =>
    cases hfound : (s.cancelFetchQueueIfTargetCancelled h'.rowId
        (some h'.lockedAt)).fetchQueue.rows.find?
          ((s.cancelFetchQueueIfTargetCancelled h'.rowId (some h'.lockedAt)).writable h'.rowId
            (some h'.lockedAt)) with
    | none =>
      rw [FetchCall.written, FetchStore.markFetchQueueFailed, hfound] at hw
      cases hw
    | some found =>
      rw [FetchCall.written, FetchStore.markFetchQueueFailed, hfound] at hw
      cases hw
      have hwritable := id_of_writable (List.find?_some hfound)
      obtain ⟨r, hr, ⟨-, rfl⟩ | ⟨-, rfl⟩⟩ := mem_setFetches (List.mem_of_find?_eq_some hfound)
      · exact absurd hwritable.2.1 (fun heq => FetchStatus.noConfusion heq)
      · exact ⟨found, hr, hwritable⟩
  | _ => cases hw

theorem outcome_ne_fetching (call : FetchCall) : call.outcome ≠ some .fetching := by
  cases call <;> exact nofun

/-! ### Steps -/

/-- Rows that are locked are locked in the second of their last handing. -/
def Leased (st : FetchState) : Prop := ∀ r ∈ st.store.fetchQueue.rows, r.status = .fetching →
  ∃ h, st.lastHanding r.id = some h ∧ r.lockedAt = some h.lockedAt

theorem mem_of_lastHanding (hlast : st.lastHanding id = some h) :
    h ∈ st.handed ∧ h.rowId = id := by
  unfold FetchState.lastHanding at hlast
  have hfound := List.find?_some hlast
  exact ⟨List.mem_of_find?_eq_some hlast, of_decide_eq_true hfound⟩

theorem lastHanding_of_unhanded (hun : ∀ h, call.handedOut st now = some h → h.rowId ≠ id) :
    (call.step t st now).lastHanding id = st.lastHanding id := by
  unfold FetchState.lastHanding FetchCall.step
  cases hhanded : call.handedOut st now with
  | none => rfl
  | some h =>
    have hne := hun h hhanded
    simp [hne]

theorem lastHanding_of_handed (hh : call.handedOut st now = some h) :
    (call.step t st now).lastHanding h.rowId = some h := by
  unfold FetchState.lastHanding FetchCall.step
  rw [hh]
  simp

theorem Leased.step (hinv : Leased st) : Leased (call.step t st now) := by
  intro r' hr' hfetching
  rcases moves hr' with hpending | ⟨r, hr, hid, -, hmove⟩
  · rw [hpending] at hfetching
    cases hfetching
  · rw [← hid]
    cases hmove with
    | kept status lockedAt unhanded _ =>
      obtain ⟨h, hlast, hlock⟩ := hinv r hr (status ▸ hfetching)
      exact ⟨h, (lastHanding_of_unhanded unhanded).trans hlast, lockedAt.trans hlock⟩
    | locked _ h handed row lockedAt => exact ⟨h, row ▸ lastHanding_of_handed handed, lockedAt⟩
    | cancelled status _ => rw [status] at hfetching; cases hfetching
    | finished status _ _ _ => exact absurd (hfetching ▸ status) (outcome_ne_fetching call)

/-- A row's handings are of different seconds. -/
def DistinctHandings (handed : List Handing) : Prop :=
  (handed.map fun h => (h.rowId, h.lockedAt)).Nodup

theorem DistinctHandings.eq {handed : List Handing} (hinv : DistinctHandings handed)
    {a b : Handing} (ha : a ∈ handed) (hb : b ∈ handed) (hrow : a.rowId = b.rowId)
    (hlock : a.lockedAt = b.lockedAt) : a = b :=
  List.inj_on_of_nodup_map hinv ha hb (Prod.ext hrow hlock)

/-- The row is not being fetched. -/
def NotFetching (id : ℤ) (st : FetchState) : Prop :=
  ∀ r ∈ st.store.fetchQueue.rows, r.id = id → r.status ≠ .fetching

theorem NotFetching.step (hquiet : NotFetching id st)
    (hun : ∀ h, call.handedOut st now = some h → h.rowId ≠ id) :
    NotFetching id (call.step t st now) := by
  intro r' hr' hid' hfetching
  rcases moves hr' with hpending | ⟨r, hr, hid, -, hmove⟩
  · rw [hpending] at hfetching
    cases hfetching
  · cases hmove with
    | kept status _ _ _ => exact hquiet r hr (hid.trans hid') (status ▸ hfetching)
    | locked _ h handed row _ => exact hun h handed (row.trans (hid.trans hid'))
    | cancelled status _ => rw [status] at hfetching; cases hfetching
    | finished status _ _ _ => exact outcome_ne_fetching call (hfetching ▸ status)

/-- A write that takes effect ends the lease. -/
theorem notFetching_of_written (hw : call.written t st.store = some h) :
    NotFetching h.rowId (call.step t st now) := by
  intro r' hr' hid' hfetching
  rcases moves hr' with hpending | ⟨r, hr, hid, -, hmove⟩
  · rw [hpending] at hfetching
    cases hfetching
  · cases hmove with
    | kept _ _ _ unwritten => exact unwritten h hw (hid.trans hid').symm
    | locked _ _ handed _ _ => rw [handedOut_of_written hw] at handed; cases handed
    | cancelled status _ => rw [status] at hfetching; cases hfetching
    | finished status _ _ _ => exact outcome_ne_fetching call (hfetching ▸ status)

theorem fetched_of_written (hw : call.written t st.store = some h) : ¬NotFetching h.rowId st := by
  obtain ⟨r, hr, hid, hfetching, -⟩ := fetching_of_written hw
  exact fun hquiet => hquiet r hr hid hfetching

/-! ### Runs -/

theorem Leased.run (calls : List (ℤ × FetchCall)) : ∀ {st : FetchState}, Leased st →
    Leased (st.run t calls) := by
  induction calls with
  | nil => exact fun hinv => hinv
  | cons e calls ih => exact fun hinv => ih hinv.step

theorem run_snoc (st : FetchState) (calls : List (ℤ × FetchCall)) (e : ℤ × FetchCall) :
    st.run t (calls ++ [e]) = e.2.step t (st.run t calls) e.1 := st.run_append t calls [e]

/-- A row that is not being fetched is written again only after it was handed out. -/
theorem handed_of_notFetching (between : List (ℤ × FetchCall)) :
    ∀ {st : FetchState}, NotFetching h.rowId st →
      call.written t (st.run t between).store = some h →
      ∃ before now call after h', between = before ++ (now, call) :: after ∧
        call.handedOut (st.run t before) now = some h' ∧ h'.rowId = h.rowId := by
  induction between with
  | nil => exact fun hquiet hw => absurd hquiet (fetched_of_written hw)
  | cons e between ih =>
    intro st hquiet hw
    by_cases hhanded : ∃ h', e.2.handedOut st e.1 = some h' ∧ h'.rowId = h.rowId
    · obtain ⟨h', hh', hrow⟩ := hhanded
      exact ⟨[], e.1, e.2, between, h', rfl, hh', hrow⟩
    · have hun : ∀ h', e.2.handedOut st e.1 = some h' → h'.rowId ≠ h.rowId :=
        fun h' hh' hrow => hhanded ⟨h', hh', hrow⟩
      obtain ⟨before, now, call, after, h', rfl, hh', hrow⟩ := ih (hquiet.step hun) hw
      exact ⟨e :: before, now, call, after, h', rfl, hh', hrow⟩

/-! ### The protocol -/

/-- What the leases are for: only the worker that a row was last handed to completes it or puts it
back, once for each handing, and no request is lost. -/
structure FetchSafety (t : SecretFilter) (st : FetchState) (calls : List (ℤ × FetchCall)) :
    Prop where
  owner : ∀ before now call after h, calls = before ++ (now, call) :: after →
    call.written t (st.run t before).store = some h →
      (st.run t before).lastHanding h.rowId = some h
  once : ∀ before now₁ call₁ between now₂ call₂ after h₁ h₂,
    calls = before ++ (now₁, call₁) :: between ++ (now₂, call₂) :: after →
      call₁.written t (st.run t before).store = some h₁ →
      call₂.written t (st.run t (before ++ (now₁, call₁) :: between)).store = some h₂ →
      h₂.rowId = h₁.rowId →
        ∃ pre now call post h, between = pre ++ (now, call) :: post ∧
          call.handedOut (st.run t (before ++ (now₁, call₁) :: pre)) now = some h ∧
          h.rowId = h₁.rowId
  accounted : ∀ r ∈ (st.run t calls).store.fetchQueue.rows, FetchAccount t st calls r

section Prefixes

variable {calls : List (ℤ × FetchCall)} {e : ℤ × FetchCall}

theorem append_snoc {before after : List (ℤ × FetchCall)} (heq : calls = before ++ e :: after)
    (last : ℤ × FetchCall) : calls ++ [last] = before ++ e :: (after ++ [last]) := by
  rw [heq, List.append_assoc, List.cons_append]

theorem WithOwnRows.of_snoc (hown : WithOwnRows t st (calls ++ [e])) : WithOwnRows t st calls :=
  fun before now call _ heq => hown before now call _ (append_snoc heq e)

theorem FreshLocks.of_snoc (hfresh : FreshLocks t st (calls ++ [e])) : FreshLocks t st calls :=
  fun before now worker _ heq => hfresh before now worker _ (append_snoc heq e)

theorem WithOwnRows.of_append {before after : List (ℤ × FetchCall)}
    (hown : WithOwnRows t st (before ++ after)) : WithOwnRows t st before :=
  fun pre now call post heq => hown pre now call (post ++ after) (by
    rw [heq, List.append_assoc, List.cons_append])

theorem FreshLocks.of_append {before after : List (ℤ × FetchCall)}
    (hfresh : FreshLocks t st (before ++ after)) : FreshLocks t st before :=
  fun pre now worker post heq => hfresh pre now worker (post ++ after) (by
    rw [heq, List.append_assoc, List.cons_append])

theorem distinctHandings_run (hstart : st.handed = []) (hfresh : FreshLocks t st calls) :
    DistinctHandings (st.run t calls).handed := by
  induction calls using List.reverseRecOn with
  | nil =>
    rw [FetchState.run, hstart]
    exact List.nodup_nil
  | append_singleton calls e ih =>
    have hold := ih hfresh.of_snoc
    obtain ⟨now, call⟩ := e
    rw [run_snoc, FetchCall.step]
    cases hhanded : call.handedOut (st.run t calls) now with
    | none => exact hold
    | some h =>
      refine List.nodup_cons.mpr ⟨fun hmem => ?_, hold⟩
      obtain ⟨h', hh', hsame⟩ := List.mem_map.mp hmem
      cases call with
      | lockPendingFetchQueue worker =>
        cases hnext : (st.run t calls).store.cancelOrphanedFetches.nextFetch now with
        | none =>
          rw [FetchCall.handedOut, lockPendingFetchQueue, hnext] at hhanded
          cases hhanded
        | some r =>
          rw [FetchCall.handedOut, lockPendingFetchQueue, hnext] at hhanded
          cases hhanded
          exact hfresh calls now worker [] rfl r hnext h' hh' (congrArg Prod.fst hsame)
            (congrArg Prod.snd hsame)
      | _ => cases hhanded

theorem lastHanding_of_written (hstart : st.handed = []) (hleased : Leased st)
    (hown : WithOwnRows t st calls) (hfresh : FreshLocks t st calls)
    {before after : List (ℤ × FetchCall)} (heq : calls = before ++ (now, call) :: after)
    (hw : call.written t (st.run t before).store = some h) :
    (st.run t before).lastHanding h.rowId = some h := by
  have hdistinct : DistinctHandings (st.run t before).handed :=
    distinctHandings_run hstart (heq ▸ hfresh).of_append
  have hmine := hown before now call after heq h (lease_of_written hw)
  obtain ⟨r, hr, hid, hfetching, hlock⟩ := fetching_of_written hw
  obtain ⟨last, hlast, hlocked⟩ := hleased.run before r hr hfetching
  obtain ⟨hmem, hrow⟩ := mem_of_lastHanding hlast
  rw [hlocked, Option.getD_some] at hlock
  rw [← hid, hlast, hdistinct.eq hmem hmine (hrow.trans hid) hlock]

theorem swept_of_fetching (hr : r ∈ s.fetchQueue.rows) (hfetching : r.status = .fetching)
    {lockedAt clock : ℤ} (hlock : r.lockedAt = some lockedAt)
    (hlate : lockedAt < clock - staleFetchSeconds) :
    ∃ r' ∈ (s.sweepStaleFetchQueue clock).fetchQueue.rows, r'.id = r.id ∧ r'.status = .pending :=
  ⟨releasedFetch r, Table.mem_update_of hr (by simp [hfetching, hlock, hlate]), rfl, rfl⟩

theorem FetchAccount.snoc {last : ℤ × FetchCall} (hacc : FetchAccount t st calls r)
    (hfetching : r.status ≠ .fetching) (hstatus : r'.status = r.status) (hid : r.id = r'.id)
    (harticle : r.articleId = r'.articleId) : FetchAccount t st (calls ++ [last]) r' := by
  cases hacc with
  | pending status => exact .pending (hstatus.trans status)
  | fetching status => exact absurd status hfetching
  | finished before after now call h calls_eq written row last' status =>
    exact .finished before _ now call h (append_snoc calls_eq last) written (row.trans hid)
      (hid ▸ last') (hstatus ▸ status)
  | cancelled status before after now call calls_eq target =>
    exact .cancelled (hstatus.trans status) before _ now call (append_snoc calls_eq last)
      (harticle ▸ target)

theorem accounted_run (hstart : st.handed = []) (hempty : st.store.fetchQueue.rows = [])
    (hleased : Leased st) (hown : WithOwnRows t st calls) (hfresh : FreshLocks t st calls) :
    ∀ r ∈ (st.run t calls).store.fetchQueue.rows, FetchAccount t st calls r := by
  induction calls using List.reverseRecOn with
  | nil =>
    intro r hr
    rw [FetchState.run, hempty] at hr
    cases hr
  | append_singleton calls e ih =>
    intro r' hr'
    by_cases hfetching : r'.status = .fetching
    · obtain ⟨h, hlast, hlock⟩ := hleased.run (calls ++ [e]) r' hr' hfetching
      exact .fetching hfetching h hlast hlock fun clock hlate =>
        swept_of_fetching hr' hfetching hlock hlate
    · rw [run_snoc] at hr'
      rcases moves hr' with hpending | ⟨r, hr, hid, harticle, hmove⟩
      · exact .pending hpending
      · cases hmove with
        | kept status _ _ _ =>
          exact (ih hown.of_snoc hfresh.of_snoc r hr).snoc (status ▸ hfetching) status hid harticle
        | locked status _ _ _ _ => exact absurd status hfetching
        | cancelled status target =>
          exact .cancelled status calls [] e.1 e.2 rfl (harticle ▸ target)
        | finished status h written row =>
          have hlast := lastHanding_of_written hstart hleased hown hfresh rfl written
          exact .finished calls [] e.1 e.2 h rfl written (row.trans hid)
            ((row.trans hid) ▸ hlast) status

end Prefixes

/-- From an empty queue on the leases keep their promise, if no row is locked twice in one
second. -/
theorem fetch_leases {calls : List (ℤ × FetchCall)} (hempty : s.fetchQueue.rows = [])
    (hown : WithOwnRows t ⟨s, []⟩ calls) (hfresh : FreshLocks t ⟨s, []⟩ calls) :
    FetchSafety t ⟨s, []⟩ calls := by
  have hleased : Leased ⟨s, []⟩ := fun r hr => by rw [hempty] at hr; cases hr
  refine ⟨fun before now call after h heq hw =>
    lastHanding_of_written rfl hleased hown hfresh heq hw, ?_,
    accounted_run rfl hempty hleased hown hfresh⟩
  intro before now₁ call₁ between now₂ call₂ after h₁ h₂ _ hw₁ hw₂ hrow
  have hquiet : NotFetching h₂.rowId (call₁.step t (FetchState.run t ⟨s, []⟩ before) now₁) :=
    hrow ▸ notFetching_of_written hw₁
  rw [FetchState.run_append] at hw₂
  obtain ⟨pre, now, call, post, h, rfl, hhanded, hh⟩ := handed_of_notFetching between hquiet hw₂
  refine ⟨pre, now, call, post, h, rfl, ?_, hh.trans hrow⟩
  rw [FetchState.run_append]
  exact hhanded

/-! ### Runs step by step -/

theorem withOwnRows_cons {rest : List (ℤ × FetchCall)}
    (hcall : ∀ h, call.lease = some h → h ∈ st.handed)
    (hrest : WithOwnRows t (call.step t st now) rest) :
    WithOwnRows t st ((now, call) :: rest) := by
  intro before now' call' after heq
  cases before with
  | nil =>
    obtain ⟨rfl, rfl⟩ := Prod.ext_iff.mp (List.cons.inj heq).1
    exact hcall
  | cons e before =>
    obtain ⟨rfl, htail⟩ := List.cons.inj heq
    exact hrest before now' call' after htail

theorem freshLocks_cons {rest : List (ℤ × FetchCall)}
    (hcall : ∀ worker, call = .lockPendingFetchQueue worker →
      ∀ r, st.store.cancelOrphanedFetches.nextFetch now = some r →
        ∀ h ∈ st.handed, h.rowId = r.id → h.lockedAt ≠ now)
    (hrest : FreshLocks t (call.step t st now) rest) : FreshLocks t st ((now, call) :: rest) := by
  intro before now' worker after heq
  cases before with
  | nil =>
    obtain ⟨rfl, hcall'⟩ := Prod.ext_iff.mp (List.cons.inj heq).1
    exact hcall worker hcall'
  | cons e before =>
    obtain ⟨rfl, htail⟩ := List.cons.inj heq
    exact hrest before now' worker after htail

theorem withOwnRows_nil : WithOwnRows t st [] := fun before _ _ _ heq => by
  cases before <;> cases heq

theorem freshLocks_nil : FreshLocks t st [] := fun before _ _ _ heq => by
  cases before <;> cases heq

/-- One series is being fetched, and nothing is queued. -/
def oneSeries : FetchStore where
  patchsets := ⟨[⟨7, some .fetching, none, none⟩], by decide⟩
  patchsetGenSeq := none
  patchsetActiveGen := fun _ => none
  reviewsMaxId := none
  reviews := Table.empty
  findings := Table.empty
  toolUsages := Table.empty
  patches := Table.empty
  coverLetterMessageId := fun _ => some "abc"
  fetchQueue := Table.empty

def noSecrets : SecretFilter := ⟨fun _ => false, fun text => text⟩

def abcRequest : FetchRequest := ⟨none, "abc", none, none, none⟩

theorem fetch_leases_done : FetchSafety noSecrets ⟨oneSeries, []⟩
    [(100, .enqueueFetchRequest abcRequest), (100, .lockPendingFetchQueue 1),
      (130, .markFetchQueueDone ⟨1, 1, 100⟩)] := by
  refine fetch_leases rfl (withOwnRows_cons nofun (withOwnRows_cons nofun (withOwnRows_cons ?_
    withOwnRows_nil))) (freshLocks_cons nofun (freshLocks_cons ?_ (freshLocks_cons nofun
      freshLocks_nil)))
  · rintro _ ⟨⟩
    decide
  · rintro _ ⟨⟩ r - h hmem
    cases hmem

/-- A row is cancelled, enqueued and locked again within one second: the first worker's token is
the second one's. -/
def withinOneSecond : List (ℤ × FetchCall) :=
  [(100, .enqueueFetchRequest abcRequest), (100, .lockPendingFetchQueue 1),
    (100, .setPatchsetStatus 7 (some .cancelled)), (100, .lockPendingFetchQueue 2),
    (100, .setPatchsetStatus 7 (some .fetching)), (100, .enqueueFetchRequest abcRequest),
    (100, .lockPendingFetchQueue 2)]

theorem fetch_lease_reused :
    ¬∀ (t : SecretFilter) (s : FetchStore) (calls : List (ℤ × FetchCall)),
      s.fetchQueue.rows = [] → calls.Pairwise (·.1 ≤ ·.1) → WithOwnRows t ⟨s, []⟩ calls →
        FetchSafety t ⟨s, []⟩ calls := by
  intro hclaim
  have hown : WithOwnRows noSecrets ⟨oneSeries, []⟩
      (withinOneSecond ++ [(100, .markFetchQueueDone ⟨1, 1, 100⟩)]) := by
    iterate 7 refine withOwnRows_cons nofun ?_
    refine withOwnRows_cons ?_ withOwnRows_nil
    rintro _ ⟨⟩
    decide
  have hsafe := hclaim noSecrets oneSeries _ rfl (by decide) hown
  have howner := hsafe.owner withinOneSecond 100 _ [] ⟨1, 1, 100⟩ rfl (by decide)
  revert howner
  decide

end Sashiko
