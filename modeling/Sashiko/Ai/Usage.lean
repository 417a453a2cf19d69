import Sashiko.Ai.Pairing
import Mathlib.Algebra.Order.Group.Nat

/-! The usage a session reports against the usage of the responses the provider returned. The
counters hold the saturating sums over the responses that were not truncated, and the reported
total is prompt plus completion. -/

namespace Sashiko

def AiResponse.count (field : AiUsage → ℕ) (r : AiResponse) : ℕ := (r.usage.map field).getD 0

def AiUsage.cached (u : AiUsage) : ℕ := u.cachedTokens.getD 0

/-- A component of the usage summed over the responses, saturating. -/
def summed (field : AiUsage → ℕ) (rs : List AiResponse) : ℕ :=
  satSum usizeMax (rs.map (AiResponse.count field))

/-- The component-wise saturating sum of the usage of the responses. -/
def sumUsage (rs : List AiResponse) : AiUsage where
  promptTokens := summed AiUsage.promptTokens rs
  completionTokens := summed AiUsage.completionTokens rs
  totalTokens := summed AiUsage.totalTokens rs
  cachedTokens := some (summed AiUsage.cached rs)

/-- The responses among the answers of a run. -/
def responses (calls : List Call) : List AiResponse :=
  calls.filterMap fun c => c.answer.toOption

/-- `SessionResult::usage`, or that of the `SessionFailure` attached to the error. -/
def reportedUsage {T : Type} : Except AnyhowError (SessionResult T) → Option AiUsage
  | .ok result => some result.usage
  | .error e => e.sessionFailure.map SessionFailure.usage

theorem summed_concat (field : AiUsage → ℕ) (rs : List AiResponse) (r : AiResponse) :
    summed field (rs ++ [r]) = satAdd usizeMax (summed field rs) (r.count field) := by
  simp [summed, satSum_concat]

theorem summed_le (field : AiUsage → ℕ) (rs : List AiResponse) : summed field rs ≤ usizeMax :=
  satSum_le_top _ _

section

variable {σ T π : Type} {R : SessionRunner} {L : LlmSession σ T} {P : Provider π}

/-- The counters hold the sums over `rs`. -/
structure Counts (s : RunState σ) (rs : List AiResponse) : Prop where
  prompt : s.totalPromptTokens = summed AiUsage.promptTokens rs
  completion : s.totalCompletionTokens = summed AiUsage.completionTokens rs
  cached : s.totalCachedTokens = summed AiUsage.cached rs

theorem counts_countUsage {s : RunState σ} {rs : List AiResponse} (h : Counts s rs)
    (r : AiResponse) : Counts (s.countUsage r.usage) (rs ++ [r]) := by
  have hzero : ∀ field, satAdd usizeMax (summed field rs) 0 = summed field rs := fun field =>
    (satAdd_eq_left_iff (summed_le field rs)).mpr (Or.inl rfl)
  constructor <;> rw [summed_concat] <;>
    cases hu : r.usage <;> simp [RunState.countUsage, AiResponse.count, AiUsage.cached, hu, hzero,
      h.prompt, h.completion, h.cached]

theorem Counts.congr {s s' : RunState σ} {rs : List AiResponse} (h : Counts s rs)
    (h1 : s'.totalPromptTokens = s.totalPromptTokens)
    (h2 : s'.totalCompletionTokens = s.totalCompletionTokens)
    (h3 : s'.totalCachedTokens = s.totalCachedTokens) : Counts s' rs :=
  ⟨h1.trans h.prompt, h2.trans h.completion, h3.trans h.cached⟩

theorem counts_finalTurnHead {s : RunState σ} {rs : List AiResponse} (h : Counts s rs) :
    Counts (finalTurnHead R s) rs := by
  rw [finalTurnHead_eq]
  split_ifs
  · exact h.congr rfl rfl rfl
  · exact h

/-- The usage reported from counters that hold the sums over `rs`. -/
def usageOf (rs : List AiResponse) : AiUsage where
  promptTokens := summed AiUsage.promptTokens rs
  completionTokens := summed AiUsage.completionTokens rs
  totalTokens := satAdd usizeMax (summed AiUsage.promptTokens rs)
    (summed AiUsage.completionTokens rs)
  cachedTokens := some (summed AiUsage.cached rs)

theorem usage_of_counts {s : RunState σ} {rs : List AiResponse} (h : Counts s rs) :
    s.usage = usageOf rs := by
  simp only [RunState.usage, usageOf, h.prompt, h.completion, h.cached]

/-- The responses that reach the counters. -/
def counted (rs : List AiResponse) : List AiResponse := rs.filter (!·.truncated)

/-- What an answer adds to the responses. -/
def answered : Except AnyhowError AiResponse → List AiResponse
  | .ok resp => [resp]
  | .error _ => []

theorem responses_concat (calls : List Call) (c : Call) :
    responses (calls ++ [c]) = responses calls ++ answered c.answer := by
  cases hc : c.answer <;> simp [responses, answered, hc, Except.toOption]

theorem counted_append (rs rs' : List AiResponse) :
    counted (rs ++ rs') = counted rs ++ counted rs' := List.filter_append _ _

theorem counted_answered_error (e : AnyhowError) : counted (answered (.error e)) = [] := rfl

theorem counted_answered_ok {resp : AiResponse} (h : resp.truncated = false) :
    counted (answered (.ok resp)) = [resp] := by
  simp [counted, answered, h]

/-- Every back edge keeps the counters at the sums. -/
theorem counts_again {s s' : RunState σ} {req : AiRequest}
    {answer : Except AnyhowError AiResponse} {rs : List AiResponse}
    (h : Again R L s req answer s') (hs : Counts s (counted rs)) :
    Counts s' (counted (rs ++ answered answer)) := by
  rw [counted_append]
  cases h with
  | transient e hclass hle =>
    rw [counted_answered_error, List.append_nil]
    exact hs.congr rfl rfl rfl
  | feedback e feedback session hclass hhook hle =>
    rw [counted_answered_error, List.append_nil]
    exact hs.congr rfl rfl rfl
  | toolRound resp results session htrunc hcalls hturn hrun =>
    rw [counted_answered_ok htrunc]
    exact (counts_countUsage hs resp).congr rfl rfl rfl
  | rejected resp violation session htrunc hfinal hreject hlt =>
    rw [counted_answered_ok htrunc]
    exact (counts_countUsage hs resp).congr rfl rfl rfl

theorem truncated_of_again {s s' : RunState σ} {req : AiRequest}
    {answer : Except AnyhowError AiResponse} (h : Again R L s req answer s') :
    ∀ r ∈ answered answer, r.truncated = false := by
  cases h <;> simp_all [answered]

theorem reportedUsage_of_counts {s : RunState σ} {rs : List AiResponse} (h : Counts s rs)
    {result : Except AnyhowError (SessionResult T)}
    (hr : reportedUsage result = some s.usage) : reportedUsage result = some (usageOf rs) := by
  rw [hr, usage_of_counts h]

theorem reportedUsage_afterTransient {s : RunState σ} {e : AnyhowError}
    {result : Except AnyhowError (SessionResult T)} {forgotten : List AiRequest}
    (h : afterTransient R s e = .returned result forgotten) :
    reportedUsage result = some s.usage := by
  simp only [afterTransient] at h
  split at h <;> cases h
  rfl

theorem reportedUsage_afterFatal {s : RunState σ} {sent : AiRequest} {e : AnyhowError}
    {result : Except AnyhowError (SessionResult T)} {forgotten : List AiRequest}
    (h : afterFatal R L s sent e = .returned result forgotten) :
    reportedUsage result = some s.usage := by
  simp only [afterFatal] at h
  split at h
  · split at h <;> cases h
    rfl
  · cases h
    rfl

theorem reportedUsage_afterToolCalls {s : RunState σ} {calls : List ToolCall}
    {result : Except AnyhowError (SessionResult T)} {forgotten : List AiRequest}
    (h : afterToolCalls L s calls = .returned result forgotten) :
    reportedUsage result = some s.usage := by
  simp only [afterToolCalls] at h
  split at h <;> cases h
  rfl

theorem reportedUsage_validateResponse {s : RunState σ} {sent : AiRequest} {resp : AiResponse}
    {result : Except AnyhowError (SessionResult T)} {forgotten : List AiRequest}
    (h : validateResponse R L s sent resp = .returned result forgotten) :
    reportedUsage result = some s.usage := by
  simp only [validateResponse] at h
  split at h
  · cases h
    rfl
  · simp only [afterRejection] at h
    split at h <;> cases h
    rfl
  · cases h
    rfl

/-- Every exit reports the counters, and a truncated response has not reached them. -/
theorem reportedUsage_afterAnswer {s : RunState σ} {sent : AiRequest}
    {answer : Except AnyhowError AiResponse} {rs : List AiResponse}
    {result : Except AnyhowError (SessionResult T)} {forgotten : List AiRequest}
    (hs : Counts s (counted rs)) (h : afterAnswer R L s sent answer = .returned result forgotten) :
    reportedUsage result = some (usageOf (counted (rs ++ answered answer))) := by
  rw [counted_append]
  cases answer with
  | error e =>
    rw [counted_answered_error, List.append_nil]
    refine reportedUsage_of_counts hs ?_
    simp only [afterAnswer] at h
    split at h
    · exact reportedUsage_afterTransient h
    · exact reportedUsage_afterTransient h
    · exact reportedUsage_afterFatal h
  | ok resp =>
    simp only [afterAnswer, afterResponse] at h
    split at h
    · rename_i htrunc
      cases h
      rw [show counted (answered (.ok resp)) = [] by simp [counted, answered, htrunc],
        List.append_nil]
      exact reportedUsage_of_counts hs rfl
    · rename_i htrunc
      rw [counted_answered_ok (by simpa using htrunc)]
      have hcounts : Counts ((s.countUsage resp.usage).push [assistantMessage resp])
          (counted rs ++ [resp]) := (counts_countUsage hs resp).congr rfl rfl rfl
      refine reportedUsage_of_counts hcounts ?_
      split at h
      · exact reportedUsage_afterToolCalls h
      · exact reportedUsage_validateResponse h

/-- The counters of a run in progress and the report of a finished one. Only the last response
of a run can be truncated. -/
structure Accounted (r : Run σ T π) : Prop where
  running : ∀ s, r.status = .again s →
    Counts s (counted (responses r.calls)) ∧ counted (responses r.calls) = responses r.calls
  reported : ∀ result forgotten, r.status = .returned result forgotten →
    reportedUsage result = some (usageOf (counted (responses r.calls))) ∧
      (counted (responses r.calls) = responses r.calls ∨
        ∃ t, t.truncated = true ∧ responses r.calls = counted (responses r.calls) ++ [t])

theorem accounted_sendTurn {r : Run σ T π} {s : RunState σ} (hr : Accounted r)
    (hst : r.status = .again s) : Accounted (sendTurn R L P r (beginTurn s)) := by
  obtain ⟨hcounts, hall⟩ := hr.running s hst
  have hhead : Counts (finalTurnHead R (beginTurn s)) (counted (responses r.calls)) :=
    counts_finalTurnHead (hcounts.congr rfl rfl rfl)
  have hrs : responses (sendTurn R L P r (beginTurn s)).calls =
      responses r.calls ++ answered (answerTo R L P r (beginTurn s)) := by
    rw [sendTurn_calls, responses_concat]
    rfl
  refine ⟨fun s' hs' => ?_, fun result forgotten hret => ?_⟩
  · have hagain := again_of_afterAnswer hs'
    rw [hrs]
    refine ⟨counts_again hagain hhead, ?_⟩
    rw [counted_append, hall, counted, List.filter_eq_self.mpr fun x hx => by
      simp [truncated_of_again hagain x hx]]
  · rw [hrs]
    refine ⟨reportedUsage_afterAnswer hhead hret, ?_⟩
    rw [counted_append, hall]
    cases hans : answerTo R L P r (beginTurn s) with
    | error e => exact Or.inl rfl
    | ok resp =>
      cases htrunc : resp.truncated with
      | false => exact Or.inl (by rw [counted_answered_ok htrunc]; rfl)
      | true => exact Or.inr ⟨resp, htrunc, by simp [counted, answered, htrunc]⟩

theorem accounted_runFor (provider : π) (session : σ) (n : ℕ) :
    Accounted (runFor R L P provider session n) := by
  refine runFor_invariant (I := Accounted) ?_ ?_ ?_ n
  · refine ⟨fun s hs => ?_, fun result forgotten h => by cases h⟩
    cases hs
    exact ⟨⟨rfl, rfl, rfl⟩, rfl⟩
  · intro r s hr hst hmax
    obtain ⟨hcounts, hall⟩ := hr.running s hst
    refine ⟨fun s' hs' => (by cases hs'), fun result forgotten h => ?_⟩
    cases h
    exact ⟨reportedUsage_of_counts (s := beginTurn s) (hcounts.congr rfl rfl rfl) rfl, Or.inl hall⟩
  · exact fun r s hr hst _ => accounted_sendTurn hr hst

end

/-- A truncated response adds nothing: each of its counts is zero, or the sum of the other
responses is already saturated. -/
def TruncatedAddsNothing (rs : List AiResponse) : Prop :=
  ∀ r ∈ rs, r.truncated = true →
    ∀ field ∈ [AiUsage.promptTokens, AiUsage.completionTokens, AiUsage.cached],
      r.count field = 0 ∨ summed field (counted rs) = usizeMax

/-- The responses' own totals add up to their prompt and completion tokens. -/
def TotalsAddUp (rs : List AiResponse) : Prop :=
  summed AiUsage.totalTokens rs =
    satAdd usizeMax (summed AiUsage.promptTokens rs) (summed AiUsage.completionTokens rs)

theorem usageOf_eq_sumUsage_iff (rs : List AiResponse) :
    usageOf rs = sumUsage rs ↔ TotalsAddUp rs := by
  simp [usageOf, sumUsage, TotalsAddUp, eq_comm]

theorem usageOf_eq_sumUsage_concat_iff (rs : List AiResponse) (t : AiResponse) :
    usageOf rs = sumUsage (rs ++ [t]) ↔
      (∀ field ∈ [AiUsage.promptTokens, AiUsage.completionTokens, AiUsage.cached],
        t.count field = 0 ∨ summed field rs = usizeMax) ∧ TotalsAddUp (rs ++ [t]) := by
  have hfield : ∀ field, summed field rs = summed field (rs ++ [t]) ↔
      t.count field = 0 ∨ summed field rs = usizeMax := fun field => by
    rw [summed_concat, eq_comm, satAdd_eq_left_iff (summed_le field rs)]
  simp only [List.forall_mem_cons, ← hfield, List.not_mem_nil, false_implies, implies_true,
    and_true, usageOf, sumUsage, TotalsAddUp, AiUsage.mk.injEq, Option.some.injEq]
  constructor
  · rintro ⟨h1, h2, h3, h4⟩
    exact ⟨⟨h1, h2, h4⟩, by rw [← h3, ← h1, ← h2]⟩
  · rintro ⟨⟨h1, h2, h4⟩, h3⟩
    exact ⟨h1, h2, by rw [h3, ← h1, ← h2], h4⟩

/-- A finished run reports a usage on every path, and it is the sum over all responses exactly
when a truncated last response adds nothing and the responses' totals add up. -/
theorem reportedUsage_eq_sumUsage_iff {σ T π : Type} {R : SessionRunner} {L : LlmSession σ T}
    {P : Provider π} (provider : π) (session : σ) (n : ℕ)
    (result : Except AnyhowError (SessionResult T)) (forgotten : List AiRequest)
    (h : (runFor R L P provider session n).status = .returned result forgotten) :
    (∃ u, reportedUsage result = some u) ∧
      (reportedUsage result =
          some (sumUsage (responses (runFor R L P provider session n).calls)) ↔
        TruncatedAddsNothing (responses (runFor R L P provider session n).calls) ∧
          TotalsAddUp (responses (runFor R L P provider session n).calls)) := by
  obtain ⟨hrep, hlast⟩ := (accounted_runFor provider session n).reported result forgotten h
  set rs := responses (runFor R L P provider session n).calls
  refine ⟨⟨_, hrep⟩, ?_⟩
  rw [hrep, Option.some.injEq]
  rcases hlast with hall | ⟨t, ht, hsplit⟩
  · have hnone : TruncatedAddsNothing rs := by
      intro r hr htr
      rw [← hall, counted, List.mem_filter] at hr
      simp [htr] at hr
    rw [hall, usageOf_eq_sumUsage_iff]
    exact (and_iff_right hnone).symm
  · have hadds : TruncatedAddsNothing rs ↔
        ∀ field ∈ [AiUsage.promptTokens, AiUsage.completionTokens, AiUsage.cached],
          t.count field = 0 ∨ summed field (counted rs) = usizeMax := by
      constructor
      · exact fun hr => hr t (by rw [hsplit]; simp) ht
      · intro hr r hmem htr
        rw [hsplit, List.mem_append, List.mem_singleton] at hmem
        rcases hmem with hmem | rfl
        · simp [counted, htr] at hmem
        · exact hr
    have hconcat := usageOf_eq_sumUsage_concat_iff (counted rs) t
    rw [← hsplit] at hconcat
    rw [hadds, hconcat]

/-- A provider whose every answer is cut off after 100 + 50 tokens. -/
def truncatingProvider : Provider Unit where
  generateContent p _ :=
    (.ok ⟨some "cut off", none, none, none, some ⟨100, 50, 150, none⟩, true⟩, p)

theorem reportedUsage_eq_sumUsage_iff_truncatingProvider :
    ∃ result : Except AnyhowError (SessionResult String),
      reportedUsage result = some ⟨0, 0, 0, some 0⟩ ∧
      (reportedUsage result = some (sumUsage (responses
          (runFor twoTurns rejectingSession truncatingProvider () () 1).calls)) ↔
        TruncatedAddsNothing (responses
            (runFor twoTurns rejectingSession truncatingProvider () () 1).calls) ∧
          TotalsAddUp (responses
            (runFor twoTurns rejectingSession truncatingProvider () () 1).calls)) :=
  ⟨_, rfl, (reportedUsage_eq_sumUsage_iff () () 1 _ _ rfl).2⟩

/-- The run ends on a truncated answer and reports none of its 150 tokens. -/
theorem truncatingProvider_undercounts :
    ∃ (result : Except AnyhowError (SessionResult String)) (forgotten : List AiRequest),
      (runFor twoTurns rejectingSession truncatingProvider () () 1).status =
        .returned result forgotten ∧
      reportedUsage result = some ⟨0, 0, 0, some 0⟩ ∧
      reportedUsage result ≠ some (sumUsage (responses
        (runFor twoTurns rejectingSession truncatingProvider () () 1).calls)) := by
  refine ⟨_, _, rfl, rfl, ?_⟩
  decide

end Sashiko
