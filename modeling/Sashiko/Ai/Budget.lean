import Sashiko.Ai.Pairing

/-! Termination and the turn budget of a session. Three back edges give the turn back, so no
single counter measures progress: the sum of the four counters grows by one with every request.
A retry counter saturates at `usize::MAX`, so a retry limit of `usize::MAX` is no limit. -/

namespace Sashiko

variable {σ T π : Type} {R : SessionRunner} {L : LlmSession σ T} {P : Provider π}

/-- Between two passes: one request per unit of the four counters, each below its limit. -/
structure Budgeted (R : SessionRunner) (sent : ℕ) (s : RunState σ) : Prop where
  sum : sent = s.turns + s.transientRetries + s.providerErrorRetries + s.validationAttempts
  turns : s.turns ≤ R.maxTurns - 1
  transient : s.transientRetries ≤ R.maxTransientRetries
  provider : s.providerErrorRetries ≤ R.maxProviderErrorRetries
  validation : s.validationAttempts ≤ R.maxValidationAttempts - 1

theorem satAdd_one {n limit : ℕ} (hn : n ≤ limit) (hl : limit < usizeMax) :
    satAdd usizeMax n 1 = n + 1 := by
  unfold satAdd
  omega

theorem beginTurn_turns_of_budgeted {sent : ℕ} {s : RunState σ} (hs : Budgeted R sent s) :
    (beginTurn s).turns = s.turns + 1 := by
  have h1 := hs.turns
  have h2 := R.maxTurns_le
  have h3 : 1 ≤ usizeMax := by decide
  simp only [beginTurn_turns, satAdd]
  omega

/-- Each of the four back edges moves exactly one counter. -/
theorem budgeted_again (htr : R.maxTransientRetries < usizeMax)
    (hpe : R.maxProviderErrorRetries < usizeMax) {sent : ℕ} {s s' : RunState σ} {req : AiRequest}
    {answer : Except AnyhowError AiResponse} (hs : Budgeted R sent s)
    (hmax : (beginTurn s).turns ≤ R.maxTurns)
    (h : Again R L (finalTurnHead R (beginTurn s)) req answer s') : Budgeted R (sent + 1) s' := by
  have hturn : satAdd usizeMax s.turns 1 = s.turns + 1 := beginTurn_turns_of_budgeted hs
  have htransient := satAdd_one hs.transient htr
  have hprovider := satAdd_one hs.provider hpe
  obtain ⟨hsum, h1, h2, h3, h4⟩ := hs
  cases h with
  | transient e hclass hle =>
    simp only [finalTurnHead_transientRetries, beginTurn_transientRetries] at hle
    constructor <;> simp [hturn, htransient] <;> omega
  | feedback e feedback session hclass hhook hle =>
    simp only [finalTurnHead_providerErrorRetries, beginTurn_providerErrorRetries] at hle
    constructor <;> simp [hturn, hprovider] <;> omega
  | toolRound resp results session htrunc hcalls hne hrun =>
    simp only [finalTurnHead_turns] at hne
    rw [beginTurn_turns] at hmax hne
    constructor <;> simp [hturn] <;> omega
  | rejected resp violation session htrunc hfinal hreject hlt =>
    simp only [finalTurnHead_validationAttempts, beginTurn_validationAttempts] at hlt
    constructor <;> simp [hturn] <;> omega

theorem again_pushedFinalTurnPrompt {s s' : RunState σ} {req : AiRequest}
    {answer : Except AnyhowError AiResponse} (h : Again R L s req answer s') :
    s'.pushedFinalTurnPrompt = s.pushedFinalTurnPrompt := by
  cases h <;> simp

theorem finalTurnHead_pushed (s : RunState σ) : (finalTurnHead R s).pushedFinalTurnPrompt =
    (s.pushedFinalTurnPrompt || pushesFinalTurnPrompt R s) := by
  rw [finalTurnHead_eq]
  split_ifs with h
  · simp [h]
  · simp [Bool.eq_false_iff.mpr h]

/-- How often the final turn prompt was pushed. -/
def promptPushes (calls : List Call) : ℕ := calls.countP (·.pushedPrompt)

/-- Of the requests sent so far: the turn counter, the tools and the final turn prompt. -/
structure TurnBudget (R : SessionRunner) (r : Run σ T π) : Prop where
  turn_le : ∀ c ∈ r.calls, c.turn ≤ R.maxTurns
  final_noTools : ∀ c ∈ r.calls, c.turn = R.maxTurns → c.request.tools = none
  prompts : promptPushes r.calls ≤ 1
  unprompted : ∀ s, r.status = .again s → s.pushedFinalTurnPrompt = false →
    promptPushes r.calls = 0

theorem turnBudget_sendTurn {r : Run σ T π} {s : RunState σ} (hr : TurnBudget R r)
    (hst : r.status = .again s) (hmax : (beginTurn s).turns ≤ R.maxTurns) :
    TurnBudget R (sendTurn R L P r (beginTurn s)) := by
  have hcount : promptPushes (sendTurn R L P r (beginTurn s)).calls = promptPushes r.calls +
      if pushesFinalTurnPrompt R (beginTurn s) then 1 else 0 := by
    simp [promptPushes, List.countP_append, callFrom]
  refine ⟨?_, ?_, ?_, ?_⟩
  · intro c hc
    rcases List.mem_append.mp hc with hc | hc
    · exact hr.turn_le c hc
    · rw [List.mem_singleton.mp hc]
      exact hmax
  · intro c hc hturn
    rcases List.mem_append.mp hc with hc | hc
    · exact hr.final_noTools c hc hturn
    · rw [List.mem_singleton.mp hc] at hturn ⊢
      exact if_pos ((finalTurnHead_turns R _).trans hturn)
  · rw [hcount]
    split_ifs with hpush
    · have hflag : s.pushedFinalTurnPrompt = false := by
        simp only [pushesFinalTurnPrompt, decide_eq_true_eq] at hpush
        exact Bool.not_eq_true _ ▸ hpush.2.2
      rw [hr.unprompted s hst hflag]
    · exact hr.prompts
  · intro s' hs' hflag
    rw [sendTurn_status] at hs'
    rw [again_pushedFinalTurnPrompt (again_of_afterAnswer hs'), finalTurnHead_pushed,
      Bool.or_eq_false_iff] at hflag
    rw [hcount, hr.unprompted s hst hflag.1, hflag.2]
    rfl

theorem turnBudget_runFor (provider : π) (session : σ) (n : ℕ) :
    TurnBudget R (runFor R L P provider session n) := by
  refine runFor_invariant (I := TurnBudget R) ?_ ?_ ?_ n
  · refine ⟨?_, ?_, ?_, ?_⟩ <;> simp [startRun, promptPushes]
  · exact fun r s hr _ _ => ⟨hr.turn_le, hr.final_noTools, hr.prompts, fun s' hs' => by cases hs'⟩
  · exact fun r s hr hst hmax => turnBudget_sendTurn hr hst hmax

/-- The bound on the calls of `generate_content`. -/
def SessionRunner.callBound (R : SessionRunner) : ℕ :=
  R.maxTurns + R.maxTransientRetries + R.maxProviderErrorRetries + R.maxValidationAttempts

structure CallBudget (R : SessionRunner) (r : Run σ T π) : Prop where
  calls_le : r.calls.length ≤ R.callBound
  budgeted : ∀ s, r.status = .again s → Budgeted R r.calls.length s

theorem callBudget_sendTurn (htr : R.maxTransientRetries < usizeMax)
    (hpe : R.maxProviderErrorRetries < usizeMax) {r : Run σ T π} {s : RunState σ}
    (hr : CallBudget R r) (hst : r.status = .again s)
    (hmax : (beginTurn s).turns ≤ R.maxTurns) :
    CallBudget R (sendTurn R L P r (beginTurn s)) := by
  have hs := hr.budgeted s hst
  have hlen : (sendTurn R L P r (beginTurn s)).calls.length = r.calls.length + 1 := by simp
  refine ⟨?_, fun s' hs' => ?_⟩
  · have hturn := beginTurn_turns_of_budgeted hs
    obtain ⟨hsum, h1, h2, h3, h4⟩ := hs
    rw [hlen, SessionRunner.callBound]
    omega
  · rw [hlen]
    rw [sendTurn_status] at hs'
    exact budgeted_again htr hpe hs hmax (again_of_afterAnswer hs')

theorem callBudget_runFor (htr : R.maxTransientRetries < usizeMax)
    (hpe : R.maxProviderErrorRetries < usizeMax) (provider : π) (session : σ) (n : ℕ) :
    CallBudget R (runFor R L P provider session n) := by
  refine runFor_invariant (I := CallBudget R) ?_ ?_ ?_ n
  · refine ⟨Nat.zero_le _, fun s hs => ?_⟩
    cases hs
    exact ⟨rfl, Nat.zero_le _, Nat.zero_le _, Nat.zero_le _, Nat.zero_le _⟩
  · exact fun r s hr _ _ => ⟨hr.calls_le, fun s' hs' => by cases hs'⟩
  · exact fun r s hr hst hmax => callBudget_sendTurn htr hpe hr hst hmax

/-- A run that has not returned has sent one request per pass. -/
theorem calls_length_of_again (provider : π) (session : σ) (n : ℕ) {s : RunState σ}
    (hst : (runFor R L P provider session n).status = .again s) :
    (runFor R L P provider session n).calls.length = n := by
  induction n generalizing s with
  | zero => rfl
  | succ n ih =>
    rw [runFor_succ] at hst ⊢
    cases hprev : (runFor R L P provider session n).status with
    | returned result forgotten =>
      rw [loopPass_returned R L P hprev, hprev] at hst
      cases hst
    | again s' =>
      rcases lt_or_ge R.maxTurns (beginTurn s').turns with hmax | hmax
      · rw [loopPass_exceeded R L P hprev hmax] at hst
        cases hst
      · rw [loopPass_sends R L P hprev hmax, sendTurn_calls, List.length_append, ih hprev]
        rfl

theorem returns_of_callBudget (htr : R.maxTransientRetries < usizeMax)
    (hpe : R.maxProviderErrorRetries < usizeMax) (provider : π) (session : σ) :
    ∃ result forgotten,
      (runFor R L P provider session (R.callBound + 1)).status = .returned result forgotten := by
  cases hst : (runFor R L P provider session (R.callBound + 1)).status with
  | returned result forgotten => exact ⟨result, forgotten, rfl⟩
  | again s =>
    have hlen := calls_length_of_again provider session _ hst
    have hle := (callBudget_runFor htr hpe (L := L) (P := P) provider session
      (R.callBound + 1)).calls_le
    omega

/-- Every run keeps to the turn budget, and with both retry limits below `usize::MAX` it returns
within `callBound` calls. -/
theorem session_budget (provider : π) (session : σ) :
    (∀ n, (∀ c ∈ (runFor R L P provider session n).calls, c.turn ≤ R.maxTurns) ∧
      (∀ c ∈ (runFor R L P provider session n).calls,
        c.turn = R.maxTurns → c.request.tools = none) ∧
      promptPushes (runFor R L P provider session n).calls ≤ 1) ∧
    (R.maxTransientRetries < usizeMax → R.maxProviderErrorRetries < usizeMax →
      (∃ n result forgotten,
        (runFor R L P provider session n).status = .returned result forgotten) ∧
      ∀ n, (runFor R L P provider session n).calls.length ≤ R.callBound) := by
  refine ⟨fun n => ?_, fun htr hpe => ⟨⟨_, returns_of_callBudget htr hpe provider session⟩,
    fun n => (callBudget_runFor htr hpe provider session n).calls_le⟩⟩
  have h := turnBudget_runFor (R := R) (L := L) (P := P) provider session n
  exact ⟨h.turn_le, h.final_noTools, h.prompts⟩

theorem session_budget_callingProvider :
    (∃ n result forgotten, (runFor twoTurns rejectingSession callingProvider () () n).status =
        .returned result forgotten) ∧
      ∀ n, (runFor twoTurns rejectingSession callingProvider () () n).calls.length ≤
        twoTurns.callBound :=
  (session_budget () ()).2 (by decide) (by decide)

def limitedProvider : Provider Unit where
  generateContent p _ := (.error ⟨.provider "429" (.rateLimit 60), []⟩, p)

/-- `with_max_transient_retries(usize::MAX)`. -/
def endlessRetries : SessionRunner :=
  { SessionRunner.new with maxTransientRetries := usizeMax, maxTransientRetries_le := le_rfl }

theorem limitedProvider_again (n : ℕ) :
    ∃ s, (runFor endlessRetries rejectingSession limitedProvider () () n).status = .again s ∧
      s.turns = 0 := by
  induction n with
  | zero => exact ⟨_, rfl, rfl⟩
  | succ n ih =>
    obtain ⟨s, hst, hturns⟩ := ih
    have hturn : (beginTurn s).turns = 1 := by
      rw [beginTurn_turns, hturns]
      decide
    rw [runFor_succ, loopPass_sends _ _ _ hst (by rw [hturn]; decide), sendTurn_status]
    refine ⟨_, afterAnswer_of_again (.transient _ (by decide) (satAdd_le_top _ _ _)), ?_⟩
    simp [hturns]
    decide

/-- With a retry limit of `usize::MAX` a provider that stays rate limited is asked forever. -/
theorem limitedProvider_never_returns :
    (¬ ∃ n result forgotten,
      (runFor endlessRetries rejectingSession limitedProvider () () n).status =
        .returned result forgotten) ∧
      ∃ n, endlessRetries.callBound <
        (runFor endlessRetries rejectingSession limitedProvider () () n).calls.length := by
  constructor
  · rintro ⟨n, result, forgotten, hst⟩
    obtain ⟨s, hs, -⟩ := limitedProvider_again n
    rw [hs] at hst
    cases hst
  · obtain ⟨s, hs, -⟩ := limitedProvider_again (endlessRetries.callBound + 1)
    exact ⟨_, by rw [calls_length_of_again () () _ hs]; exact Nat.lt_succ_self _⟩

end Sashiko
