import Mathlib.Algebra.GroupWithZero.Nat
import Mathlib.Algebra.BigOperators.Group.List.Basic
import Sashiko.Lib.Saturating

/-! `ai/quota.rs`: requests are paced by the tokens of a sliding window. Instants and durations are
in nanoseconds. -/

namespace Sashiko

structure RateLimitState where
  nextAllowedAt : Option ℕ
  tokenWindow : List (ℕ × ℕ)
  windowTokens : ℕ
  deriving DecidableEq, Repr

namespace RateLimitState

def init : RateLimitState := ⟨none, [], 0⟩

/-- The loop of `prune_expired` over the window, with the counter. -/
def pruneFrom (now window : ℕ) : List (ℕ × ℕ) → ℕ → List (ℕ × ℕ) × ℕ
  | [], total => ([], total)
  | (ts, tokens) :: rest, total =>
    if window ≤ now - ts then pruneFrom now window rest (total - tokens)
    else ((ts, tokens) :: rest, total)

def pruneExpired (s : RateLimitState) (now window : ℕ) : RateLimitState :=
  let pruned := pruneFrom now window s.tokenWindow s.windowTokens
  { s with tokenWindow := pruned.1, windowTokens := pruned.2 }

/-- The loop of `required_wait`: when the entry expires whose expiry brings the rest below the
limit. -/
def expiryBelow (limit window : ℕ) : List (ℕ × ℕ) → ℕ → Option ℕ
  | [], _ => none
  | (ts, tokens) :: rest, remaining =>
    if remaining - tokens < limit then some (ts + window)
    else expiryBelow limit window rest (remaining - tokens)

def tpmWait (s : RateLimitState) (now : ℕ) (maxTpm : Option ℕ) (window : ℕ) : Option ℕ :=
  maxTpm.bind fun limit =>
    if s.windowTokens < limit then none
    else (expiryBelow limit window s.tokenWindow s.windowTokens).bind fun expiresAt =>
      if now < expiresAt then some (expiresAt - now) else none

def rpsWait (s : RateLimitState) (now : ℕ) (minInterval : Option ℕ) : Option ℕ :=
  ((minInterval.bind fun _ => s.nextAllowedAt).filter (now < ·)).map (· - now)

def requiredWait (s : RateLimitState) (now : ℕ) (minInterval maxTpm : Option ℕ) (window : ℕ) :
    RateLimitState × Option ℕ :=
  let s := s.pruneExpired now window
  (s, match s.rpsWait now minInterval, s.tpmWait now maxTpm window with
    | some a, some b => some (max a b)
    | some a, none => some a
    | none, some b => some b
    | none, none => none)

end RateLimitState

/-- The limits, as the constructors leave them: a token limit of zero is no limit. -/
structure QuotaManager where
  minInterval : Option ℕ
  maxTpm : Option ℕ
  tpmWindow : ℕ
  positive : ∀ limit, maxTpm = some limit → 0 < limit

namespace QuotaManager

variable (q : QuotaManager)

def recordTokens (s : RateLimitState) (now tokens : ℕ) : RateLimitState :=
  if q.maxTpm = none ∨ tokens = 0 then s
  else
    let s := s.pruneExpired now q.tpmWindow
    { s with tokenWindow := s.tokenWindow ++ [(now, tokens)],
             windowTokens := satAdd usizeMax s.windowTokens tokens }

/-- The end of `wait_for_pacing_checked`. -/
def reserveSlot (s : RateLimitState) (now : ℕ) : RateLimitState :=
  match q.minInterval with
  | some interval => { s with nextAllowedAt := some (now + interval) }
  | none => s

end QuotaManager

/-! ### Runs -/

inductive QuotaCall where
  | recordTokens (tokens : ℕ)
  | pruneExpired
  | requiredWait
  | reserveSlot

/-- The state of the manager, what was recorded and when, and the last call's time. -/
structure QuotaWorld where
  state : RateLimitState
  recorded : List (ℕ × ℕ)
  clock : ℕ

namespace QuotaWorld

def init : QuotaWorld := ⟨.init, [], 0⟩

def step (q : QuotaManager) (w : QuotaWorld) (now : ℕ) : QuotaCall → QuotaWorld
  | .recordTokens tokens =>
    ⟨q.recordTokens w.state now tokens, w.recorded ++ [(now, tokens)], now⟩
  | .pruneExpired => ⟨w.state.pruneExpired now q.tpmWindow, w.recorded, now⟩
  | .requiredWait =>
    ⟨(w.state.requiredWait now q.minInterval q.maxTpm q.tpmWindow).1, w.recorded, now⟩
  | .reserveSlot => ⟨q.reserveSlot w.state now, w.recorded, now⟩

/-- The sum of the window with the new tokens does not saturate. -/
def Fits (q : QuotaManager) (w : QuotaWorld) (now : ℕ) : QuotaCall → Prop
  | .recordTokens tokens =>
    (w.state.pruneExpired now q.tpmWindow).windowTokens + tokens ≤ usizeMax
  | _ => True

end QuotaWorld

/-- Any calls, one after another in time. -/
inductive QuotaRun (q : QuotaManager) : QuotaWorld → Prop
  | init : QuotaRun q .init
  | step {w : QuotaWorld} (h : QuotaRun q w) {now : ℕ} (htime : w.clock ≤ now) (call : QuotaCall)
      (hfits : w.Fits q now call) : QuotaRun q (w.step q now call)

/-- The tokens of the entries younger than the window. -/
def tokensWithin (window : ℕ) (entries : List (ℕ × ℕ)) (t : ℕ) : ℕ :=
  ((entries.filter fun e => t - e.1 < window).map Prod.snd).sum

/-! ### The sliding window -/

section Window

variable {window now t limit : ℕ} {entries old : List (ℕ × ℕ)}

theorem tokensWithin_cons (window : ℕ) (e : ℕ × ℕ) (entries : List (ℕ × ℕ)) (t : ℕ) :
    tokensWithin window (e :: entries) t =
      (if t - e.1 < window then e.2 else 0) + tokensWithin window entries t := by
  unfold tokensWithin
  by_cases h : t - e.1 < window
  · rw [List.filter_cons_of_pos (by simpa using h), List.map_cons, List.sum_cons, if_pos h]
  · rw [List.filter_cons_of_neg (by simpa using h), if_neg h, Nat.zero_add]

theorem tokensWithin_append :
    tokensWithin window (old ++ entries) t =
      tokensWithin window old t + tokensWithin window entries t := by
  rw [tokensWithin, List.filter_append, List.map_append, List.sum_append]
  rfl

theorem tokensWithin_expired (h : ∀ e ∈ old, e.1 + window ≤ t) : tokensWithin window old t = 0 := by
  have hnil : (old.filter fun e => t - e.1 < window) = [] := by
    refine List.filter_eq_nil_iff.mpr fun e he => ?_
    have := h e he
    simp only [decide_eq_true_eq]
    omega
  rw [tokensWithin, hnil]
  rfl

theorem tokensWithin_positive :
    tokensWithin window (entries.filter fun e => 0 < e.2) t = tokensWithin window entries t := by
  induction entries with
  | nil => rfl
  | cons e entries ih =>
    rw [tokensWithin_cons]
    by_cases he : 0 < e.2
    · rw [List.filter_cons_of_pos (by simpa using he), tokensWithin_cons, ih]
    · have hzero : e.2 = 0 := by omega
      rw [List.filter_cons_of_neg (by simpa using he), ih, hzero, ite_self, Nat.zero_add]

theorem tokensWithin_le : tokensWithin window entries t ≤ (entries.map Prod.snd).sum := by
  induction entries with
  | nil => exact Nat.le_refl 0
  | cons e entries ih =>
    rw [tokensWithin_cons, List.map_cons, List.sum_cons]
    split_ifs
    · omega
    · omega

theorem tokensWithin_of_young (h : ∀ e ∈ entries, t - e.1 < window) :
    tokensWithin window entries t = (entries.map Prod.snd).sum := by
  rw [tokensWithin, List.filter_eq_self.mpr fun e he => by simpa using h e he]

theorem pruneFrom_spec (now window : ℕ) (entries : List (ℕ × ℕ)) :
    ∃ expired, entries = expired ++
        (RateLimitState.pruneFrom now window entries (entries.map Prod.snd).sum).1 ∧
      (∀ e ∈ expired, window ≤ now - e.1) ∧
      (RateLimitState.pruneFrom now window entries (entries.map Prod.snd).sum).2 =
        ((RateLimitState.pruneFrom now window entries
          (entries.map Prod.snd).sum).1.map Prod.snd).sum ∧
      ∀ e rest, (RateLimitState.pruneFrom now window entries (entries.map Prod.snd).sum).1 =
        e :: rest → now - e.1 < window := by
  induction entries with
  | nil => exact ⟨[], rfl, fun e he => absurd he List.not_mem_nil, rfl, fun e rest h => by cases h⟩
  | cons e entries ih =>
    obtain ⟨ts, tokens⟩ := e
    rw [RateLimitState.pruneFrom]
    split_ifs with hold
    · rw [List.map_cons, List.sum_cons, Nat.add_sub_cancel_left]
      obtain ⟨expired, hsplit, hexpired, hsum, hhead⟩ := ih
      refine ⟨(ts, tokens) :: expired, by rw [List.cons_append, ← hsplit], ?_, hsum, hhead⟩
      intro e he
      rcases List.mem_cons.mp he with rfl | he
      · exact hold
      · exact hexpired e he
    · refine ⟨[], rfl, fun e he => absurd he List.not_mem_nil, rfl, fun e rest h => ?_⟩
      obtain ⟨rfl, -⟩ := List.cons.inj h
      exact Nat.lt_of_not_le hold

/-- The limit is met from the expiry that the loop finds, and not before. -/
theorem expiryBelow_spec (hwindow : 0 < window) (hlimit : 0 < limit)
    (hsorted : entries.Pairwise fun a b => a.1 ≤ b.1)
    (hover : limit ≤ (entries.map Prod.snd).sum) :
    ∃ e ∈ entries, RateLimitState.expiryBelow limit window entries (entries.map Prod.snd).sum =
        some (e.1 + window) ∧
      tokensWithin window entries (e.1 + window) < limit ∧
      ∀ t < e.1 + window, limit ≤ tokensWithin window entries t := by
  induction entries with
  | nil =>
    have hzero : (([] : List (ℕ × ℕ)).map Prod.snd).sum = 0 := rfl
    omega
  | cons first entries ih =>
    obtain ⟨ts, tokens⟩ := first
    obtain ⟨hfirst, hsorted⟩ := List.pairwise_cons.mp hsorted
    have hrest : (((ts, tokens) :: entries).map Prod.snd).sum - tokens =
        (entries.map Prod.snd).sum := by
      rw [List.map_cons, List.sum_cons, Nat.add_sub_cancel_left]
    rw [RateLimitState.expiryBelow, hrest]
    by_cases hbelow : (entries.map Prod.snd).sum < limit
    · rw [if_pos hbelow]
      refine ⟨(ts, tokens), List.mem_cons_self, rfl, ?_, fun t ht => ?_⟩
      · rw [tokensWithin_cons, if_neg (by simp), Nat.zero_add]
        exact Nat.lt_of_le_of_lt tokensWithin_le hbelow
      · -- before the first entry expires, every entry counts
        rw [tokensWithin_of_young]
        · exact hover
        · intro e he
          rcases List.mem_cons.mp he with rfl | he
          · simp only at ht ⊢
            omega
          · have := hfirst e he
            simp only at ht this
            omega
    · rw [if_neg hbelow]
      obtain ⟨e, he, hexpiry, hmet, hbefore⟩ := ih hsorted (Nat.le_of_not_lt hbelow)
      refine ⟨e, List.mem_cons_of_mem _ he, hexpiry, ?_, fun t ht => ?_⟩
      · have hle := hfirst e he
        simp only at hle
        rw [tokensWithin_cons, if_neg (by simp only; omega), Nat.zero_add]
        exact hmet
      · rw [tokensWithin_cons]
        exact (hbefore t ht).trans (Nat.le_add_left _ _)

end Window

/-! ### The invariant -/

/-- The counter is the sum of the window, and the window holds what was recorded, without some
entries that have expired. -/
structure QuotaWorld.Counts (q : QuotaManager) (w : QuotaWorld) : Prop where
  counted : w.state.windowTokens = (w.state.tokenWindow.map Prod.snd).sum
  past : ∀ e ∈ w.recorded, e.1 ≤ w.clock
  sorted : w.recorded.Pairwise fun a b => a.1 ≤ b.1
  window : q.maxTpm ≠ none → ∃ old, w.recorded.filter (fun e => 0 < e.2) =
    old ++ w.state.tokenWindow ∧ ∀ e ∈ old, e.1 + q.tpmWindow ≤ w.clock

namespace QuotaWorld

variable {q : QuotaManager} {w : QuotaWorld} {now : ℕ}

/-- Pruning takes expired entries off the window and off the counter. -/
theorem Counts.prune (h : w.Counts q) (htime : w.clock ≤ now) :
    Counts q ⟨w.state.pruneExpired now q.tpmWindow, w.recorded, now⟩ := by
  obtain ⟨expired, hsplit, hexpired, hsum, -⟩ :=
    pruneFrom_spec now q.tpmWindow w.state.tokenWindow
  rw [← h.counted] at hsplit hsum
  refine ⟨hsum, fun e he => (h.past e he).trans htime, h.sorted, fun hmax => ?_⟩
  obtain ⟨old, hold, hgone⟩ := h.window hmax
  refine ⟨old ++ expired, ?_, fun e he => ?_⟩
  · rw [hold, List.append_assoc]
    exact congrArg _ hsplit
  · rcases List.mem_append.mp he with he | he
    · exact (hgone e he).trans htime
    · have hmem : e ∈ w.recorded.filter fun e => 0 < e.2 := by
        rw [hold, hsplit]
        simp [he]
      have hpast := h.past e (List.mem_of_mem_filter hmem)
      have hage := hexpired e he
      simp only at hpast ⊢
      omega

theorem Counts.later (h : w.Counts q) (htime : w.clock ≤ now) {state : RateLimitState}
    (hwindow : state.tokenWindow = w.state.tokenWindow)
    (htokens : state.windowTokens = w.state.windowTokens) :
    Counts q ⟨state, w.recorded, now⟩ := by
  refine ⟨by rw [htokens, hwindow]; exact h.counted, fun e he => (h.past e he).trans htime,
    h.sorted, fun hmax => ?_⟩
  obtain ⟨old, hold, hgone⟩ := h.window hmax
  exact ⟨old, by rw [hwindow]; exact hold, fun e he => (hgone e he).trans htime⟩

theorem pairwise_recorded (h : w.Counts q) (htime : w.clock ≤ now) (tokens : ℕ) :
    (w.recorded ++ [(now, tokens)]).Pairwise fun a b => a.1 ≤ b.1 := by
  refine List.pairwise_append.mpr ⟨h.sorted, List.pairwise_singleton _ _, fun a ha b hb => ?_⟩
  obtain rfl := List.mem_singleton.mp hb
  exact (h.past a ha).trans htime

theorem Counts.step (h : w.Counts q) (htime : w.clock ≤ now) {call : QuotaCall}
    (hfits : w.Fits q now call) : (w.step q now call).Counts q := by
  cases call with
  | recordTokens tokens =>
    have hpast : ∀ e ∈ w.recorded ++ [(now, tokens)], e.1 ≤ now := by
      intro e he
      rcases List.mem_append.mp he with he | he
      · exact (h.past e he).trans htime
      · rw [List.mem_singleton.mp he]
    have hpruned := h.prune htime
    by_cases hskip : q.maxTpm = none ∨ tokens = 0
    · have hstate : q.recordTokens w.state now tokens = w.state := if_pos hskip
      refine ⟨by rw [QuotaWorld.step, hstate]; exact h.counted, hpast,
        pairwise_recorded h htime tokens, fun hmax => ?_⟩
      obtain ⟨old, hold, hgone⟩ := h.window hmax
      refine ⟨old, ?_, fun e he => (hgone e he).trans htime⟩
      have hzero : tokens = 0 := hskip.resolve_left hmax
      simp only [QuotaWorld.step, hstate]
      rw [List.filter_append, hold, hzero]
      simp
    · have hstate : q.recordTokens w.state now tokens =
          { w.state.pruneExpired now q.tpmWindow with
            tokenWindow := (w.state.pruneExpired now q.tpmWindow).tokenWindow ++ [(now, tokens)]
            windowTokens := (w.state.pruneExpired now q.tpmWindow).windowTokens + tokens } := by
        rw [QuotaManager.recordTokens, if_neg hskip]
        simp only [satAdd, min_eq_left hfits]
      rw [not_or] at hskip
      refine ⟨?_, hpast, pairwise_recorded h htime tokens, fun hmax => ?_⟩
      · simp only [QuotaWorld.step, hstate]
        rw [List.map_append, List.sum_append, ← hpruned.counted]
        simp
      · obtain ⟨old, hold, hgone⟩ := hpruned.window hmax
        have hpositive : 0 < tokens := Nat.pos_of_ne_zero hskip.2
        refine ⟨old, ?_, hgone⟩
        simp only [QuotaWorld.step, hstate]
        rw [List.filter_append, hold, List.append_assoc]
        simp [hpositive]
  | pruneExpired => exact h.prune htime
  | requiredWait => exact h.prune htime
  | reserveSlot =>
    refine h.later htime ?_ ?_
    · unfold QuotaManager.reserveSlot
      split <;> rfl
    · unfold QuotaManager.reserveSlot
      split <;> rfl

theorem counts_of_run (h : QuotaRun q w) : w.Counts q := by
  induction h with
  | init =>
    exact ⟨rfl, fun e he => absurd he List.not_mem_nil, List.Pairwise.nil,
      fun _ => ⟨[], rfl, fun e he => absurd he List.not_mem_nil⟩⟩
  | step _ htime call hfits ih => exact ih.step htime hfits

end QuotaWorld

/-! ### Waiting for tokens -/

/-- The counter is right, and the wait for tokens ends at the first instant from `now` on at which
what was recorded within the window is below the limit. -/
structure PacesTokens (q : QuotaManager) (w : QuotaWorld) : Prop where
  counted : w.state.windowTokens = (w.state.tokenWindow.map Prod.snd).sum
  free : ∀ limit, q.maxTpm = some limit → ∀ now, w.clock ≤ now →
    (w.state.pruneExpired now q.tpmWindow).tpmWait now q.maxTpm q.tpmWindow = none →
      tokensWithin q.tpmWindow w.recorded now < limit
  paced : ∀ limit, q.maxTpm = some limit → ∀ now, w.clock ≤ now → ∀ d,
    (w.state.pruneExpired now q.tpmWindow).tpmWait now q.maxTpm q.tpmWindow = some d →
      0 < d ∧ tokensWithin q.tpmWindow w.recorded (now + d) < limit ∧
        ∀ t, now ≤ t → t < now + d → limit ≤ tokensWithin q.tpmWindow w.recorded t

section Paces

variable {q : QuotaManager} {w : QuotaWorld} {now limit : ℕ}

/-- From the last call on, what was recorded within the window is within the kept entries. -/
theorem QuotaWorld.Counts.tokensWithin_eq (h : w.Counts q) (hmax : q.maxTpm ≠ none) {t : ℕ}
    (ht : w.clock ≤ t) :
    tokensWithin q.tpmWindow w.recorded t = tokensWithin q.tpmWindow w.state.tokenWindow t := by
  obtain ⟨old, hold, hgone⟩ := h.window hmax
  rw [← tokensWithin_positive, hold, tokensWithin_append,
    tokensWithin_expired fun e he => (hgone e he).trans ht, Nat.zero_add]

theorem QuotaWorld.Counts.window_sorted (h : w.Counts q) (hmax : q.maxTpm ≠ none) :
    w.state.tokenWindow.Pairwise fun a b => a.1 ≤ b.1 := by
  obtain ⟨old, hold, -⟩ := h.window hmax
  have hsub : List.Sublist w.state.tokenWindow w.recorded := by
    have hright : List.Sublist w.state.tokenWindow (old ++ w.state.tokenWindow) :=
      List.sublist_append_right _ _
    rw [← hold] at hright
    exact hright.trans List.filter_sublist
  exact h.sorted.sublist hsub

/-- After pruning, every kept entry still counts. -/
theorem QuotaWorld.Counts.young (h : w.Counts q) (htime : w.clock ≤ now) (hmax : q.maxTpm ≠ none) :
    ∀ e ∈ (w.state.pruneExpired now q.tpmWindow).tokenWindow, now - e.1 < q.tpmWindow := by
  have hsorted := (h.prune htime).window_sorted hmax
  obtain ⟨-, -, -, -, hhead⟩ :=
    pruneFrom_spec now q.tpmWindow w.state.tokenWindow
  rw [← h.counted] at hhead
  intro e he
  cases hkept : (w.state.pruneExpired now q.tpmWindow).tokenWindow with
  | nil =>
    rw [hkept] at he
    cases he
  | cons first rest =>
    have hfirst := hhead first rest hkept
    simp only [hkept] at hsorted he
    rcases List.mem_cons.mp he with rfl | he
    · exact hfirst
    · have := (List.pairwise_cons.mp hsorted).1 e he
      omega

/-- With every kept entry still counting, there is a wait exactly when the limit is reached. -/
theorem tpmWait_spec {s : RateLimitState} {window : ℕ}
    (hsum : s.windowTokens = (s.tokenWindow.map Prod.snd).sum)
    (hsorted : s.tokenWindow.Pairwise fun a b => a.1 ≤ b.1)
    (hyoung : ∀ e ∈ s.tokenWindow, now - e.1 < window) (hlimit : 0 < limit) :
    (s.tpmWait now (some limit) window = none ∧
        tokensWithin window s.tokenWindow now < limit) ∨
      ∃ d, s.tpmWait now (some limit) window = some d ∧ 0 < d ∧
        tokensWithin window s.tokenWindow (now + d) < limit ∧
        ∀ t, now ≤ t → t < now + d → limit ≤ tokensWithin window s.tokenWindow t := by
  rw [RateLimitState.tpmWait, Option.bind_some]
  by_cases hbelow : s.windowTokens < limit
  · rw [if_pos hbelow, tokensWithin_of_young hyoung, ← hsum]
    exact Or.inl ⟨rfl, hbelow⟩
  · have hover : limit ≤ (s.tokenWindow.map Prod.snd).sum := hsum ▸ Nat.le_of_not_lt hbelow
    have hwindow : 0 < window := by
      cases hkept : s.tokenWindow with
      | nil =>
        rw [hkept, List.map_nil, List.sum_nil] at hover
        omega
      | cons e rest =>
        have := hyoung e (by rw [hkept]; exact List.mem_cons_self)
        omega
    obtain ⟨e, he, hexpiry, hmet, hbefore⟩ := expiryBelow_spec hwindow hlimit hsorted hover
    have hage := hyoung e he
    have hlater : now < e.1 + window := by omega
    have hsplit : now + (e.1 + window - now) = e.1 + window := by omega
    refine Or.inr ⟨e.1 + window - now, ?_, by omega, by rwa [hsplit], fun t _ ht => ?_⟩
    · rw [if_neg hbelow, hsum, hexpiry, Option.bind_some, if_pos hlater]
    · exact hbefore t (by omega)

theorem pacesTokens (h : QuotaRun q w) : PacesTokens q w := by
  have hcounts := QuotaWorld.counts_of_run h
  have hspec : ∀ limit, q.maxTpm = some limit → ∀ now, w.clock ≤ now →
      (∀ t, now ≤ t → tokensWithin q.tpmWindow w.recorded t =
        tokensWithin q.tpmWindow (w.state.pruneExpired now q.tpmWindow).tokenWindow t) ∧ _ :=
    fun limit hlimit now htime =>
      have hmax : q.maxTpm ≠ none := by simp [hlimit]
      have hpruned := hcounts.prune htime
      ⟨fun t ht => hpruned.tokensWithin_eq hmax ht,
        tpmWait_spec hpruned.counted (hpruned.window_sorted hmax) (hcounts.young htime hmax)
          (q.positive limit hlimit)⟩
  refine ⟨hcounts.counted, fun limit hlimit now htime hwait => ?_,
    fun limit hlimit now htime d hwait => ?_⟩
  · obtain ⟨hwithin, ⟨-, hfree⟩ | ⟨d, hd, -⟩⟩ := hspec limit hlimit now htime
    · rwa [hwithin now (Nat.le_refl now)]
    · rw [hlimit, hd] at hwait
      cases hwait
  · obtain ⟨hwithin, ⟨hnone, -⟩ | ⟨d', hd, hpos, hmet, hbefore⟩⟩ := hspec limit hlimit now htime
    · rw [hlimit, hnone] at hwait
      cases hwait
    · rw [hlimit, hd] at hwait
      obtain rfl := Option.some.inj hwait
      refine ⟨hpos, by rwa [hwithin _ (Nat.le_add_right now _)], fun t ht hlt => ?_⟩
      rw [hwithin t ht]
      exact hbefore t ht hlt

/-- Two requests fill the window; the second has to leave it as well. -/
def pacedManager : QuotaManager := ⟨none, some 100, 60, by simp⟩

def pacedWorld : QuotaWorld :=
  [(0, QuotaCall.recordTokens 60), (10, .recordTokens 120), (20, .requiredWait)].foldl
    (fun w c => w.step pacedManager c.1 c.2) .init

theorem pacedWorld_run : QuotaRun pacedManager pacedWorld := by
  have hfirst : QuotaRun pacedManager _ :=
    .step .init (Nat.le_refl 0) (.recordTokens 60)
      (show (0 : ℕ) + 60 ≤ usizeMax by decide)
  have hsecond := hfirst.step (Nat.zero_le 10) (.recordTokens 120)
    (show 60 + 120 ≤ usizeMax by decide)
  exact hsecond.step (show 10 ≤ 20 by decide) .requiredWait trivial

theorem pacesTokens_twoRequests : PacesTokens pacedManager pacedWorld ∧
    (pacedWorld.state.requiredWait 20 none (some 100) 60).2 = some 50 :=
  ⟨pacesTokens pacedWorld_run, by decide⟩

end Paces

end Sashiko
