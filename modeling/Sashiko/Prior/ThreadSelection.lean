import Sashiko.Prior.Budgeted

/-! How threads are selected within the byte budget: the running estimate against the size of the
serialised context. -/

namespace Sashiko

namespace Serialized

section Accounting
variable {base : PriorVersionContext} {b : ThreadBudget} {t : PriorDiscussionThread}

/-- The estimate is what the kept threads take, and what is kept fits. -/
structure Accounted (base : PriorVersionContext) (b : ThreadBudget) : Prop where
  context : b.ctx = { base with truncated := b.ctx.truncated }
  flag : base.truncated = true → b.ctx.truncated = true
  used : b.used = serializedLen base + 24 + (b.keptThreads.map PriorDiscussionThread.size).sum
  fits : serializedLen { b.ctx with discussionThreads := b.keptThreads } ≤ maxPriorContextBytes

/-- The thread, whole, does not fit beside the threads kept, but for two bytes. -/
def Misfits (base : PriorVersionContext) (kept : List PriorDiscussionThread)
    (t : PriorDiscussionThread) : Prop :=
  maxPriorContextBytes <
    serializedLen { base with discussionThreads := kept ++ [t.provisional] } + 2

/-- How the threads of a list are selected, one after the other: whole, trimmed if none was refused
before, or not at all; the last two only if they do not fit. -/
inductive Selected (base : PriorVersionContext) :
    List PriorDiscussionThread → Bool → List PriorDiscussionThread →
      List PriorDiscussionThread → Prop
  | done {kept refused} : Selected base kept refused [] kept
  | whole {kept refused t rest final} :
      Selected base (kept ++ [t.provisional]) refused rest final →
        Selected base kept refused (t :: rest) final
  | trimmed {kept t messages rest final} :
      Misfits base kept t → messages.Sublist t.messages → messages ≠ [] →
        Selected base (kept ++ [{ t.provisional with messages := messages }]) true rest final →
          Selected base kept false (t :: rest) final
  | dropped {kept refused t rest final} :
      Misfits base kept t → Selected base kept true rest final →
        Selected base kept refused (t :: rest) final

theorem keepThread_cases (b : ThreadBudget) (t : PriorDiscussionThread) :
    (b.used + t.provisional.size ≤ maxPriorContextBytes ∧
      keepThread b t =
        { b with
          used := b.used + t.provisional.size, keptThreads := b.keptThreads ++ [t.provisional] }) ∨
    maxPriorContextBytes < b.used + t.provisional.size ∧
      ((b.triedTrimming = false ∧ ∃ trimmed,
          trimOversizedThreadToFit { b.ctx with truncated := true } b.keptThreads t.provisional =
            some trimmed ∧
          keepThread b t =
            { ctx := { b.ctx with truncated := true }, used := b.used + trimmed.size,
              keptThreads := b.keptThreads ++ [trimmed], triedTrimming := true }) ∨
        keepThread b t =
          { b with ctx := { b.ctx with truncated := true }, triedTrimming := true }) := by
  by_cases hfit : b.used + t.provisional.size ≤ maxPriorContextBytes
  · exact .inl ⟨hfit, by rw [keepThread, if_pos hfit]⟩
  · refine .inr ⟨Nat.lt_of_not_le hfit, ?_⟩
    rw [keepThread, if_neg hfit]
    cases htried : b.triedTrimming with
    | true => exact .inr (by rw [if_pos rfl, ← htried])
    | false =>
      rw [if_neg Bool.false_ne_true]
      cases htrim : trimOversizedThreadToFit { b.ctx with truncated := true } b.keptThreads
          t.provisional with
      | none => exact .inr rfl
      | some trimmed => exact .inl ⟨rfl, trimmed, rfl, rfl⟩

/-- A thread more in the context. -/
theorem serializedLen_concat (hbase : base.discussionThreads = [])
    (kept : List PriorDiscussionThread) (t : PriorDiscussionThread) :
    serializedLen { base with discussionThreads := kept ++ [t] } =
      serializedLen base + 23 + ((kept.map PriorDiscussionThread.size).sum + t.size) := by
  have hempty : { base with discussionThreads := [] } = base := by rw [← hbase]
  have hsum : ((kept ++ [t]).map fun t => t.toJson.byteLen + 1).sum =
      (kept.map PriorDiscussionThread.size).sum + t.size := by
    rw [List.map_append, List.sum_append, List.map_singleton, List.sum_singleton]
    rfl
  rw [serializedLen_threads, hempty,
    threadsLen_of_ne_nil (List.append_ne_nil_of_right_ne_nil _ (List.cons_ne_nil _ _)), hsum,
    Nat.add_assoc]

theorem serializedLen_of_flag (base : PriorVersionContext) {flag : Bool}
    (h : base.truncated = true → flag = true) :
    serializedLen { base with truncated := flag } ≤ serializedLen base := by
  cases flag with
  | true => exact (serializedLen_flag base).1
  | false =>
    have hfalse : base.truncated = false := Bool.eq_false_of_not_eq_true fun ht =>
      Bool.false_ne_true (h ht)
    rw [← hfalse]

theorem Accounted.misfits (h : Accounted base b) (hbase : base.discussionThreads = [])
    (hsize : maxPriorContextBytes < b.used + t.provisional.size) :
    Misfits { base with truncated := true } b.keptThreads t := by
  have hlen := @serializedLen_concat { base with truncated := true } hbase b.keptThreads
    t.provisional
  have hflag := (serializedLen_flag base).2
  rw [h.used] at hsize
  unfold Misfits
  omega

theorem Accounted.refuse (h : Accounted base b) :
    Accounted base { b with ctx := { b.ctx with truncated := true }, triedTrimming := true } where
  context := by
    rw [h.context]
  flag _ := rfl
  used := h.used
  fits := (serializedLen_flag { b.ctx with discussionThreads := b.keptThreads }).1.trans h.fits

theorem Accounted.keepThread (h : Accounted base b) (hbase : base.discussionThreads = [])
    (t : PriorDiscussionThread) : Accounted base (keepThread b t) := by
  have hused (t' : PriorDiscussionThread) : b.used + t'.size = serializedLen base + 24 +
      ((b.keptThreads ++ [t']).map PriorDiscussionThread.size).sum := by
    rw [h.used, List.map_append, List.sum_append, List.map_singleton, List.sum_singleton,
      Nat.add_assoc]
  rcases keepThread_cases b t with ⟨hfit, heq⟩ | ⟨-, ⟨-, trimmed, htrim, heq⟩ | heq⟩
  · rw [heq]
    refine ⟨h.context, h.flag, hused _, ?_⟩
    have hctx : b.ctx.discussionThreads = [] := by rw [h.context, ← hbase]
    have hlen := serializedLen_concat hctx b.keptThreads t.provisional
    have hbound : serializedLen b.ctx ≤ serializedLen base := by
      rw [h.context]
      exact serializedLen_of_flag base h.flag
    have hsum := h.used
    exact hlen.le.trans (by omega)
  · rw [heq]
    obtain ⟨-, -, -, -, hfits⟩ := trimOversizedThreadToFit_spec htrim
    refine ⟨?_, fun _ => rfl, hused _, hfits⟩
    rw [h.context]
  · rw [heq]
    exact h.refuse

theorem Accounted.foldl_keepThread (h : Accounted base b) (hbase : base.discussionThreads = [])
    (threads : List PriorDiscussionThread) :
    Accounted base (threads.foldl Serialized.keepThread b) := by
  induction threads generalizing b with
  | nil => exact h
  | cons t rest ih => exact ih (h.keepThread hbase t)

theorem Accounted.selected (h : Accounted base b) (hbase : base.discussionThreads = [])
    (threads : List PriorDiscussionThread) :
    Selected { base with truncated := true } b.keptThreads b.triedTrimming threads
      (threads.foldl Serialized.keepThread b).keptThreads := by
  induction threads generalizing b with
  | nil => exact .done
  | cons t rest ih =>
    have hrest := ih (h.keepThread hbase t)
    rw [List.foldl_cons]
    rcases keepThread_cases b t with ⟨-, heq⟩ | ⟨hsize, ⟨htried, trimmed, htrim, heq⟩ | heq⟩
    · rw [heq] at hrest ⊢
      exact .whole hrest
    · obtain ⟨messages, rfl, hsub, hne, -⟩ := trimOversizedThreadToFit_spec htrim
      rw [heq] at hrest ⊢
      rw [htried]
      exact .trimmed (h.misfits hbase hsize) hsub hne hrest
    · rw [heq] at hrest ⊢
      exact .dropped (h.misfits hbase hsize) hrest

/-- While the flag is not set, every thread is kept whole. -/
theorem keptThreads_of_not_truncated {threads : List PriorDiscussionThread}
    (h : (threads.foldl keepThread b).ctx.truncated = false) :
    b.ctx.truncated = false ∧ (threads.foldl keepThread b).keptThreads =
      b.keptThreads ++ threads.map PriorDiscussionThread.provisional := by
  induction threads generalizing b with
  | nil => exact ⟨h, by rw [List.map_nil, List.append_nil, List.foldl_nil]⟩
  | cons t rest ih =>
    obtain ⟨hflag, hkept⟩ := ih h
    rcases keepThread_cases b t with ⟨-, heq⟩ | ⟨-, ⟨-, trimmed, -, heq⟩ | heq⟩
    · rw [heq] at hflag hkept
      refine ⟨hflag, ?_⟩
      rw [List.foldl_cons, heq, hkept, List.append_assoc, List.singleton_append, List.map_cons]
    · rw [heq] at hflag
      cases hflag
    · rw [heq] at hflag
      cases hflag

end Accounting

end Serialized

end Sashiko
