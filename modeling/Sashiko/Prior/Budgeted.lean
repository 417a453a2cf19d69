import Mathlib.Data.Finset.Basic
import Mathlib.Algebra.Order.BigOperators.Group.List
import Mathlib.Data.Nat.Digits.Lemmas
import Mathlib.Data.Prod.Lex
import Sashiko.Lib.SortedSet
import Sashiko.Prior.Serialized

/-! The byte budget of a prior-version context: findings first, then threads in the order of their
priority, then changelogs and the inter-version diff. -/

namespace Sashiko

def TrustTier.rank : TrustTier → ℤ
  | .low => 0
  | .moderate => 1
  | .high => 2

namespace Serialized

def maxPriorContextBytes : ℕ := 512 * 1024

/-- `serialized_len(ctx) > MAX_PRIOR_CONTEXT_BYTES` -/
def oversized (ctx : PriorVersionContext) : Bool := maxPriorContextBytes < serializedLen ctx

/-- Pushes one item after the other, until one does not fit. -/
def attach {α : Type} (push : PriorVersionContext → α → PriorVersionContext) :
    PriorVersionContext → List α → PriorVersionContext
  | ctx, [] => ctx
  | ctx, item :: rest =>
    if oversized (push ctx item) then { ctx with truncated := true }
    else attach push (push ctx item) rest

def pushFinding (ctx : PriorVersionContext) (finding : PriorFindingItem) : PriorVersionContext :=
  { ctx with
    priorFindings := ctx.priorFindings ++
      [{ finding with id := "PF" ++ toString (ctx.priorFindings.length + 1) }] }

def pushChangelog (ctx : PriorVersionContext) (block : PriorChangelogBlock) :
    PriorVersionContext :=
  { ctx with changelogs := ctx.changelogs ++ [block] }

def attachDiff (ctx : PriorVersionContext) (diff : Option String) (base : Option ℕ) :
    PriorVersionContext :=
  match diff with
  | none => ctx
  | some diff =>
    if oversized { ctx with
        interVersionDiff := some diff, interVersionDiffBaseVersion := base } then
      { ctx with interVersionDiff := none, interVersionDiffBaseVersion := none, truncated := true }
    else { ctx with interVersionDiff := some diff, interVersionDiffBaseVersion := base }

/-! ### Threads -/

namespace PriorDiscussionThread

/-- When the thread was opened. -/
def openedAt (t : PriorDiscussionThread) : ℤ :=
  (t.messages.head?.map PriorCommentMessage.timestamp).getD 0

/-- High-trust speakers first, then newer versions, then more trust, then older threads. -/
def priorityKey (t : PriorDiscussionThread) : Bool ×ₗ ℤ ×ₗ ℤ ×ₗ ℤ :=
  toLex (!t.hasHighTrustSpeaker,
    toLex (-(t.version : ℤ), toLex (-t.highestTrust.rank, t.openedAt)))

/-- Newer versions first, then older threads. -/
def presentationKey (t : PriorDiscussionThread) : ℤ ×ₗ ℤ := toLex (-(t.version : ℤ), t.openedAt)

/-- With an id as long as any that it can be given in the end. -/
def provisional (t : PriorDiscussionThread) : PriorDiscussionThread := { t with id := "HM9999" }

/-- What the thread counts for: its JSON and a comma. -/
def size (t : PriorDiscussionThread) : ℕ := t.toJson.byteLen + 1

end PriorDiscussionThread

def isHighTrust (msg : PriorCommentMessage) : Bool :=
  msg.authority.unverifiableClaimTrust = .high ||
    (msg.authority.speakerRole = .reviewer && msg.authority.tier = .high)

def enqueue (order : List ℕ) (idx : ℕ) : List ℕ := if idx ∈ order then order else order ++ [idx]

/-- The opening comment, high-trust speakers, the conclusion, and then what is left. -/
def priorityOrder (messages : List PriorCommentMessage) : List ℕ :=
  ([0] ++ (List.range messages.length).filter (fun idx => messages[idx]?.any isHighTrust) ++
    [messages.length - 1] ++ List.range messages.length).foldl enqueue []

/-- The selected messages, in their order. -/
def messagesAt (messages : List PriorCommentMessage) (selected : Finset ℕ) :
    List PriorCommentMessage :=
  (messages.zipIdx.filter fun m => m.2 ∈ selected).map Prod.fst

section Trim
variable (ctx : PriorVersionContext) (keptThreads : List PriorDiscussionThread)
  (thread : PriorDiscussionThread)

/-- The thread with some of its messages. -/
def candidate (selected : Finset ℕ) : PriorDiscussionThread :=
  { thread with id := "HM9999", messages := messagesAt thread.messages selected }

def trialWith (selected : Finset ℕ) : PriorVersionContext :=
  { ctx with discussionThreads := keptThreads ++ [candidate thread selected] }

def tryMessage (selected : Finset ℕ) (idx : ℕ) : Finset ℕ :=
  if oversized (trialWith ctx keptThreads thread (insert idx selected)) then
    (insert idx selected).erase idx
  else insert idx selected

def trimOversizedThreadToFit : Option PriorDiscussionThread :=
  if thread.messages.length ≤ 1 then none
  else
    let selected := (priorityOrder thread.messages).foldl (tryMessage ctx keptThreads thread) ∅
    if selected = ∅ then none
    else some { thread with messages := messagesAt thread.messages selected }

end Trim

/-- The loop over the threads: the context, the bytes counted so far, the threads kept so far. -/
structure ThreadBudget where
  ctx : PriorVersionContext
  used : ℕ
  keptThreads : List PriorDiscussionThread
  triedTrimming : Bool

def keepThread (b : ThreadBudget) (thread : PriorDiscussionThread) : ThreadBudget :=
  if b.used + thread.provisional.size ≤ maxPriorContextBytes then
    { b with
      used := b.used + thread.provisional.size,
      keptThreads := b.keptThreads ++ [thread.provisional] }
  else if b.triedTrimming then { b with ctx := { b.ctx with truncated := true } }
  else
    match trimOversizedThreadToFit { b.ctx with truncated := true } b.keptThreads
        thread.provisional with
    | some trimmed =>
      { ctx := { b.ctx with truncated := true }, used := b.used + trimmed.size,
        keptThreads := b.keptThreads ++ [trimmed], triedTrimming := true }
    | none => { b with ctx := { b.ctx with truncated := true }, triedTrimming := true }

def selectThreads (ctx : PriorVersionContext) (threads : List PriorDiscussionThread) :
    ThreadBudget :=
  (sortByKey PriorDiscussionThread.priorityKey threads).foldl keepThread
    { ctx := ctx,
      used := serializedLen ctx + (",\"discussion_threads\":[]").utf8ByteSize,
      keptThreads := [], triedTrimming := false }

def presentThreads (threads : List PriorDiscussionThread) : List PriorDiscussionThread :=
  (sortByKey PriorDiscussionThread.presentationKey threads).mapIdx fun idx t =>
    { t with id := "HM" ++ toString (idx + 1) }

/-! ### The whole context -/

namespace PriorVersionContext

/-- Without findings, threads, changelogs and diff. -/
def bare (ctx : PriorVersionContext) : PriorVersionContext :=
  { ctx with
    priorFindings := [], discussionThreads := [], changelogs := [],
    interVersionDiff := none, interVersionDiffBaseVersion := none }

end PriorVersionContext

/-- The findings of `ctx`, as far as they fit. -/
def withFindings (ctx : PriorVersionContext) : PriorVersionContext :=
  attach pushFinding ctx.bare ctx.priorFindings

/-- And the threads. -/
def withThreads (ctx : PriorVersionContext) : PriorVersionContext :=
  { (selectThreads (withFindings ctx) ctx.discussionThreads).ctx with
    discussionThreads :=
      presentThreads (selectThreads (withFindings ctx) ctx.discussionThreads).keptThreads }

def finalizePriorVersionContext (ctx : PriorVersionContext) : PriorVersionContext :=
  attachDiff (attach pushChangelog (withThreads ctx) ctx.changelogs) ctx.interVersionDiff
    ctx.interVersionDiffBaseVersion

/-! ### Pushing while it fits -/

theorem oversized_eq_false {ctx : PriorVersionContext} :
    oversized ctx = false ↔ serializedLen ctx ≤ maxPriorContextBytes := by
  simp [oversized]

/-- The flag costs a byte at most, and setting it frees one. -/
theorem serializedLen_flag (ctx : PriorVersionContext) :
    serializedLen { ctx with truncated := true } ≤ serializedLen ctx ∧
      serializedLen ctx ≤ serializedLen { ctx with truncated := true } + 1 := by
  have hflag := serializedLen_truncated ctx
  obtain htrue | hfalse : ctx = { ctx with truncated := true } ∨
      ctx = { ctx with truncated := false } := by
    cases hc : ctx.truncated
    · exact .inr (by rw [← hc])
    · exact .inl (by rw [← hc])
  · rw [← htrue]
    omega
  · rw [← hfalse] at hflag
    omega

/-- A prefix is pushed, all of it unless the flag is set. -/
theorem attach_spec {α : Type} {push : PriorVersionContext → α → PriorVersionContext}
    {ctx : PriorVersionContext} (hfit : serializedLen ctx ≤ maxPriorContextBytes)
    (items : List α) :
    serializedLen (attach push ctx items) ≤ maxPriorContextBytes ∧
      ∃ taken, taken <+: items ∧
        (attach push ctx items = taken.foldl push ctx ∧ taken = items ∨
          attach push ctx items = { taken.foldl push ctx with truncated := true }) := by
  induction items generalizing ctx with
  | nil => exact ⟨hfit, [], List.prefix_rfl, .inl ⟨rfl, rfl⟩⟩
  | cons item rest ih =>
    by_cases h : oversized (push ctx item) = true
    · have hstop : attach push ctx (item :: rest) = { ctx with truncated := true } := by
        rw [attach, if_pos h]
      rw [hstop]
      exact ⟨(serializedLen_flag ctx).1.trans hfit, [], List.nil_prefix, .inr rfl⟩
    · have hgo : attach push ctx (item :: rest) = attach push (push ctx item) rest := by
        rw [attach, if_neg h]
      obtain ⟨hlen, taken, htaken, hcase⟩ :=
        ih (oversized_eq_false.mp (Bool.eq_false_of_not_eq_true h))
      rw [hgo]
      refine ⟨hlen, item :: taken, List.cons_prefix_cons.mpr ⟨rfl, htaken⟩, ?_⟩
      rcases hcase with ⟨heq, rfl⟩ | heq
      · exact .inl ⟨heq, rfl⟩
      · exact .inr heq

/-- Findings under their final ids. -/
def numberFindings (findings : List PriorFindingItem) : List PriorFindingItem :=
  findings.mapIdx fun idx f => { f with id := "PF" ++ toString (idx + 1) }

theorem numberFindings_concat (findings : List PriorFindingItem) (f : PriorFindingItem) :
    numberFindings (findings ++ [f]) =
      numberFindings findings ++ [{ f with id := "PF" ++ toString (findings.length + 1) }] := by
  simp [numberFindings, List.mapIdx_append]

theorem foldl_pushFinding {ctx : PriorVersionContext} {done : List PriorFindingItem}
    (hdone : ctx.priorFindings = numberFindings done) (taken : List PriorFindingItem) :
    taken.foldl pushFinding ctx = { ctx with priorFindings := numberFindings (done ++ taken) } := by
  induction taken generalizing ctx done with
  | nil => rw [List.append_nil, ← hdone, List.foldl_nil]
  | cons f taken ih =>
    have hlen : ctx.priorFindings.length = done.length := by rw [hdone, numberFindings,
      List.length_mapIdx]
    have hpush : pushFinding ctx f =
        { ctx with priorFindings := numberFindings (done ++ [f]) } := by
      rw [pushFinding, numberFindings_concat, hlen, hdone]
    rw [List.foldl_cons, hpush, ih rfl, List.append_assoc, List.singleton_append]

theorem foldl_pushChangelog (ctx : PriorVersionContext) (taken : List PriorChangelogBlock) :
    taken.foldl pushChangelog ctx = { ctx with changelogs := ctx.changelogs ++ taken } := by
  induction taken generalizing ctx with
  | nil => rw [List.append_nil, List.foldl_nil]
  | cons block taken ih =>
    rw [List.foldl_cons, ih, pushChangelog, List.append_assoc, List.singleton_append]

/-! ### Trimming -/

section Trimming
variable {ctx : PriorVersionContext} {keptThreads : List PriorDiscussionThread}
  {thread trimmed : PriorDiscussionThread} {messages : List PriorCommentMessage}
  {selected : Finset ℕ}

theorem messagesAt_sublist (messages : List PriorCommentMessage) (selected : Finset ℕ) :
    (messagesAt messages selected).Sublist messages := by
  have h := (List.filter_sublist (p := fun m : PriorCommentMessage × ℕ => m.2 ∈ selected)
    (l := messages.zipIdx)).map Prod.fst
  rwa [List.zipIdx_map_fst] at h

theorem messagesAt_ne_nil {idx : ℕ} (hidx : idx ∈ selected) (hlt : idx < messages.length) :
    messagesAt messages selected ≠ [] := by
  have hmem : (messages[idx], idx) ∈ messages.zipIdx := by
    rw [List.mem_zipIdx_iff_getElem?]
    exact List.getElem?_eq_getElem hlt
  refine List.ne_nil_of_mem (List.mem_map_of_mem (List.mem_filter.mpr ⟨hmem, ?_⟩))
  simpa using hidx

theorem mem_enqueue {order : List ℕ} {idx i : ℕ} :
    i ∈ enqueue order idx ↔ i ∈ order ∨ i = idx := by
  unfold enqueue
  split_ifs with h
  · exact ⟨.inl, fun hi => hi.elim id fun heq => heq ▸ h⟩
  · rw [List.mem_append, List.mem_singleton]

theorem nodup_enqueue {order : List ℕ} (h : order.Nodup) (idx : ℕ) :
    (enqueue order idx).Nodup := by
  unfold enqueue
  split_ifs with hmem
  · exact h
  · exact List.nodup_append.mpr ⟨h, List.nodup_singleton _, fun a ha b hb hab =>
      hmem (List.mem_singleton.mp hb ▸ hab ▸ ha)⟩

theorem foldl_enqueue {order : List ℕ} (h : order.Nodup) (queue : List ℕ) :
    (queue.foldl enqueue order).Nodup ∧
      ∀ i, i ∈ queue.foldl enqueue order ↔ i ∈ order ∨ i ∈ queue := by
  induction queue generalizing order with
  | nil => exact ⟨h, fun i => by simp⟩
  | cons idx queue ih =>
    obtain ⟨hnodup, hmem⟩ := ih (nodup_enqueue h idx)
    exact ⟨hnodup, fun i => by rw [List.foldl_cons, hmem, mem_enqueue, List.mem_cons, or_assoc]⟩

theorem nodup_priorityOrder : (priorityOrder messages).Nodup :=
  (foldl_enqueue List.nodup_nil _).1

theorem lt_of_mem_priorityOrder (hlen : 1 < messages.length) {idx : ℕ}
    (h : idx ∈ priorityOrder messages) : idx < messages.length := by
  have hmem := ((foldl_enqueue List.nodup_nil _).2 idx).mp h
  simp only [List.not_mem_nil, false_or, List.mem_append, List.mem_singleton, List.mem_filter,
    List.mem_range] at hmem
  omega

/-- Messages are taken from the queue, and what is taken fits. -/
theorem tryMessages_spec {queue : List ℕ} (hnodup : queue.Nodup)
    (hnew : ∀ idx ∈ queue, idx ∉ selected)
    (hfit : selected = ∅ ∨ oversized (trialWith ctx keptThreads thread selected) = false) :
    let result := queue.foldl (tryMessage ctx keptThreads thread) selected
    (result = ∅ ∨ oversized (trialWith ctx keptThreads thread result) = false) ∧
      ∀ idx ∈ result, idx ∈ selected ∨ idx ∈ queue := by
  induction queue generalizing selected with
  | nil => exact ⟨hfit, fun idx h => .inl h⟩
  | cons i queue ih =>
    obtain ⟨hi, hnodup⟩ := List.nodup_cons.mp hnodup
    have hiSelected := hnew i List.mem_cons_self
    have hold : ∀ idx ∈ queue, idx ∉ selected := fun idx h =>
      hnew idx (List.mem_cons_of_mem _ h)
    by_cases h : oversized (trialWith ctx keptThreads thread (insert i selected)) = true
    · have hstep : tryMessage ctx keptThreads thread selected i = selected := by
        rw [tryMessage, if_pos h, Finset.erase_insert hiSelected]
      obtain ⟨hresult, hmem⟩ := ih hnodup hold hfit
      rw [List.foldl_cons, hstep]
      exact ⟨hresult, fun idx hidx => (hmem idx hidx).imp_right (List.mem_cons_of_mem _)⟩
    · have hstep : tryMessage ctx keptThreads thread selected i = insert i selected := by
        rw [tryMessage, if_neg h]
      obtain ⟨hresult, hmem⟩ := ih hnodup
        (fun idx hidx hin => by
          rcases Finset.mem_insert.mp hin with rfl | hin
          · exact hi hidx
          · exact hold idx hidx hin)
        (.inr (Bool.eq_false_of_not_eq_true h))
      rw [List.foldl_cons, hstep]
      refine ⟨hresult, fun idx hidx => ?_⟩
      rcases hmem idx hidx with hin | hin
      · rcases Finset.mem_insert.mp hin with rfl | hin
        · exact .inr List.mem_cons_self
        · exact .inl hin
      · exact .inr (List.mem_cons_of_mem _ hin)

/-- A trimmed thread has some of its messages left, in order, and fits. -/
theorem trimOversizedThreadToFit_spec
    (h : trimOversizedThreadToFit ctx keptThreads thread.provisional = some trimmed) :
    ∃ messages, trimmed = { thread.provisional with messages := messages } ∧
      messages.Sublist thread.messages ∧ messages ≠ [] ∧
        serializedLen { ctx with discussionThreads := keptThreads ++ [trimmed] } ≤
          maxPriorContextBytes := by
  unfold trimOversizedThreadToFit at h
  split_ifs at h with hlen
  obtain ⟨hempty, htrimmed⟩ := Option.ite_none_left_eq_some.mp h
  obtain ⟨hfit, hmem⟩ := @tryMessages_spec ctx keptThreads thread.provisional ∅
    (priorityOrder thread.messages) nodup_priorityOrder (fun idx _ => Finset.notMem_empty idx)
    (.inl rfl)
  refine ⟨_, (Option.some.inj htrimmed).symm, messagesAt_sublist _ _, ?_, ?_⟩
  · obtain ⟨idx, hidx⟩ := Finset.nonempty_iff_ne_empty.mpr hempty
    have hqueue := (hmem idx hidx).resolve_left (Finset.notMem_empty idx)
    exact messagesAt_ne_nil hidx (lt_of_mem_priorityOrder (Nat.lt_of_not_le hlen) hqueue)
  · have hfit := oversized_eq_false.mp (hfit.resolve_left hempty)
    rwa [← Option.some.inj htrimmed]

end Trimming

end Serialized

end Sashiko
