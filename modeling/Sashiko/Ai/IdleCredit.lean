import Mathlib.Algebra.GroupWithZero.Nat
import Mathlib.Data.List.Basic
import Mathlib.Algebra.BigOperators.Group.List.Basic
import Sashiko.Ai.DeadlineBudget

/-! Any number of callers on one `DeadlineBudget`, in any interleaving. The deadline moves on by
the time in which some caller waits and none has a request in flight. -/

namespace Sashiko

/-! ### The callers -/

variable {κ : Type}

/-- The waits going on, with their starts, the waits that have ended, with their starts and ends,
and the requests in flight. -/
structure Callers (κ : Type) where
  waiting : List (κ × ℕ)
  ended : List (κ × ℕ × ℕ)
  requesting : List κ

inductive BudgetCall (κ : Type) where
  | waitStart (caller : κ)
  | waitEnd (caller : κ) (since : ℕ)
  | requestStart (caller : κ)
  | requestEnd (caller : κ)
  | creditWait (caller : κ) (since slept : ℕ)
  | readDeadline

namespace Callers

/-- Some caller waits and no request is in flight. -/
def Idle (c : Callers κ) : Prop := c.waiting ≠ [] ∧ c.requesting = []

instance (c : Callers κ) : Decidable c.Idle :=
  inferInstanceAs (Decidable (c.waiting ≠ [] ∧ c.requesting = []))

/-- Starts and ends are matched, and a wait is credited at the instant it ended, for no longer
than it was. -/
def Allows (c : Callers κ) (now : ℕ) : BudgetCall κ → Prop
  | .waitStart _ => True
  | .waitEnd caller since => (caller, since) ∈ c.waiting
  | .requestStart _ => True
  | .requestEnd caller => caller ∈ c.requesting
  | .creditWait caller since slept => (caller, since, now) ∈ c.ended ∧ slept ≤ now - since
  | .readDeadline => True

variable [DecidableEq κ]

def apply (c : Callers κ) (now : ℕ) : BudgetCall κ → Callers κ
  | .waitStart caller => { c with waiting := (caller, now) :: c.waiting }
  | .waitEnd caller since =>
    { c with
      waiting := c.waiting.erase (caller, since)
      ended := (caller, since, now) :: c.ended }
  | .requestStart caller => { c with requesting := caller :: c.requesting }
  | .requestEnd caller => { c with requesting := c.requesting.erase caller }
  | .creditWait _ _ _ => c
  | .readDeadline => c

end Callers

/-! ### The budget and its ledger -/

namespace DeadlineBudget

/-- The handler of a call. -/
def apply (b : DeadlineBudget) (now : ℕ) : BudgetCall κ → DeadlineBudget
  | .waitStart _ => b.onWaitStartAt now
  | .waitEnd _ _ => b.onWaitEndAt now
  | .requestStart _ => b.onRequestStartAt now
  | .requestEnd _ => b.onRequestEndAt now
  | .creditWait _ _ slept => b.creditWaitAt now slept
  | .readDeadline => (b.currentDeadlineAt now).2

/-- The span that the flush credits. -/
def flushedSpan (b : DeadlineBudget) (now : ℕ) : List (ℕ × ℕ) :=
  ((b.tracker.uncreditedIdle now).map (·, now)).toList

/-- The span that the wait that was slept is credited for. -/
def sleptSpan (b : DeadlineBudget) (now slept : ℕ) : List (ℕ × ℕ) :=
  ((b.tracker.uncreditedWait now slept).map (·, now)).toList

/-- The spans for which a call moves the deadline on, the newest first. -/
def creditedSpans (b : DeadlineBudget) (now : ℕ) : BudgetCall κ → List (ℕ × ℕ)
  | .requestEnd _ => []
  | .creditWait _ _ slept => (b.flushIdleWaitAt now).sleptSpan now slept ++ b.flushedSpan now
  | _ => b.flushedSpan now

end DeadlineBudget

/-- The length of some spans of time. -/
def total (spans : List (ℕ × ℕ)) : ℕ := (spans.map fun span => span.2 - span.1).sum

/-- How much of a stretch of time is credited. -/
def creditedWithin (credited : List (ℕ × ℕ)) (stretch : ℕ × ℕ) : ℕ :=
  total (credited.filter fun span => stretch.1 ≤ span.1 ∧ span.2 ≤ stretch.2)

/-- `idle` holds the maximal stretches of idleness up to now, and `credited` the spans for which
the deadline was moved on, both with the newest first. -/
structure BudgetWorld (κ : Type) where
  now : ℕ
  callers : Callers κ
  budget : DeadlineBudget
  idle : List (ℕ × ℕ)
  credited : List (ℕ × ℕ)

/-- The last stretch goes on until `now`. -/
def stretchUntil (now : ℕ) : List (ℕ × ℕ) → List (ℕ × ℕ)
  | [] => []
  | stretch :: older => (stretch.1, now) :: older

namespace BudgetWorld

def init (deadline : ℕ) : BudgetWorld κ := ⟨0, ⟨[], [], []⟩, .new deadline, [], []⟩

/-- A stretch is idle throughout: it ends with the call that ends the idleness, and the next
one begins with the call that begins it again. -/
def idleAfter (w : BudgetWorld κ) (now : ℕ) (callers : Callers κ) : List (ℕ × ℕ) :=
  if w.callers.Idle then stretchUntil now w.idle
  else if callers.Idle then (now, now) :: w.idle
  else w.idle

def step [DecidableEq κ] (w : BudgetWorld κ) (now : ℕ) (call : BudgetCall κ) : BudgetWorld κ where
  now := now
  callers := w.callers.apply now call
  budget := w.budget.apply now call
  idle := w.idleAfter now (w.callers.apply now call)
  credited := w.budget.creditedSpans now call ++ w.credited

end BudgetWorld

/-- The runs of a budget, each call at an instant not before the one of the call before. -/
inductive BudgetRun [DecidableEq κ] (deadline : ℕ) : List (ℕ × BudgetCall κ) → BudgetWorld κ → Prop
  | nil : BudgetRun deadline [] (.init deadline)
  | snoc {calls : List (ℕ × BudgetCall κ)} {w : BudgetWorld κ} {now : ℕ} {call : BudgetCall κ}
      (h : BudgetRun deadline calls w) (hnow : w.now ≤ now) (hcall : w.callers.Allows now call) :
      BudgetRun deadline (calls ++ [(now, call)]) (w.step now call)

/-- The deadline is moved on by idle time alone, by no instant twice, and by all of it but less
than a millisecond a stretch. -/
structure CreditsIdleTime (deadline : ℕ) (w : BudgetWorld κ) : Prop where
  added : w.budget.deadline = deadline + total w.credited
  bounded : total w.credited ≤ total w.idle
  once : w.credited.Pairwise fun newer older => older.2 ≤ newer.1
  inside : ∀ span ∈ w.credited, ∃ stretch ∈ w.idle, stretch.1 ≤ span.1 ∧ span.2 ≤ stretch.2
  complete : ∀ stretch ∈ w.idle,
    stretch.2 - stretch.1 < creditedWithin w.credited stretch + oneMillisecond

/-! ### Time passes, then the counts change -/

theorem flushIdleWaitAt_none {b : DeadlineBudget} {now : ℕ}
    (h : b.tracker.uncreditedIdle now = none) : b.flushIdleWaitAt now = b := by
  rw [DeadlineBudget.flushIdleWaitAt, h]

theorem flushIdleWaitAt_some {b : DeadlineBudget} {now since : ℕ}
    (h : b.tracker.uncreditedIdle now = some since) :
    b.flushIdleWaitAt now = ⟨b.deadline + (now - since),
      { b.tracker with lastCreditEnd := some now, idleWaitSince := some now }⟩ := by
  rw [DeadlineBudget.flushIdleWaitAt, h]

namespace BudgetWorld

/-- Time passes until `now`, and what is pending is flushed. -/
def advance (w : BudgetWorld κ) (now : ℕ) : BudgetWorld κ where
  now := now
  callers := w.callers
  budget := w.budget.flushIdleWaitAt now
  idle := if w.callers.Idle then stretchUntil now w.idle else w.idle
  credited := w.budget.flushedSpan now ++ w.credited

def switchTracker (tr : ActiveTracker) (now : ℕ) : BudgetCall κ → ActiveTracker
  | .waitStart _ => tr.startWait now
  | .waitEnd _ _ => tr.endWait
  | .requestStart _ => tr.startRequest
  | .requestEnd _ => tr.endRequest now
  | .creditWait _ _ _ => tr
  | .readDeadline => tr

/-- The rest of the call, in which no time passes and nothing is credited. -/
def switch [DecidableEq κ] (w : BudgetWorld κ) (call : BudgetCall κ) : BudgetWorld κ where
  now := w.now
  callers := w.callers.apply w.now call
  budget := w.budget.withTracker (switchTracker w.budget.tracker w.now call)
  idle :=
    if ¬w.callers.Idle ∧ (w.callers.apply w.now call).Idle then (w.now, w.now) :: w.idle
    else w.idle
  credited := w.credited

/-- The tracker's counts are the callers', an idle wait is credited but for less than a
millisecond, and so is each wait that ended just now. -/
structure Accounts (w : BudgetWorld κ) : Prop where
  active : w.budget.tracker.activeCount = w.callers.requesting.length
  waiting : w.budget.tracker.waitingCount = w.callers.waiting.length
  creditEnd : ∀ e ∈ w.budget.tracker.lastCreditEnd, e ≤ w.now
  idle : w.callers.Idle → ∃ since, w.budget.tracker.idleWaitSince = some since ∧ since ≤ w.now ∧
    w.now < since + oneMillisecond ∧
      ((∀ p ∈ w.callers.waiting, since ≤ p.2) ∨ w.budget.tracker.lastCreditEnd = some since ∨
        w.budget.tracker.lastActiveEnd = some since)
  busy : ¬w.callers.Idle → w.budget.tracker.idleWaitSince = none
  past : ∀ p ∈ w.callers.ended, p.2.2 ≤ w.now
  ended : ∀ caller since, (caller, since, w.now) ∈ w.callers.ended → w.callers.requesting = [] →
    ∃ x, w.now < x + oneMillisecond ∧ (x = since ∨
      w.budget.tracker.lastCreditEnd = some x ∨ w.budget.tracker.lastActiveEnd = some x)

section Flush

variable {w : BudgetWorld κ} {now : ℕ}

/-- What is pending is flushed, or it is less than a millisecond. -/
inductive Flushed (w : BudgetWorld κ) (now : ℕ) : Prop
  | busy (hbusy : ¬w.callers.Idle) (hsince : w.budget.tracker.idleWaitSince = none)
      (hspan : w.budget.tracker.uncreditedIdle now = none)
  | kept (since : ℕ) (hidle : w.callers.Idle)
      (hsince : w.budget.tracker.idleWaitSince = some since) (hle : since ≤ now)
      (hlt : now < since + oneMillisecond) (hspan : w.budget.tracker.uncreditedIdle now = none)
  | credited (since : ℕ) (hidle : w.callers.Idle)
      (hsince : w.budget.tracker.idleWaitSince = some since) (hlt : since < now)
      (hspan : w.budget.tracker.uncreditedIdle now = some since)

theorem Accounts.flushed (h : Accounts w) (hnow : w.now ≤ now) : Flushed w now := by
  by_cases hidle : w.callers.Idle
  · obtain ⟨since, hsince, hle, hlt, -⟩ := h.idle hidle
    have hzero : w.budget.tracker.activeCount = 0 := by
      rw [h.active, hidle.2, List.length_nil]
    by_cases hlong : since < now ∧ oneMillisecond ≤ now - since
    · refine .credited since hidle hsince hlong.1 ?_
      simp [ActiveTracker.uncreditedIdle, hsince, Option.filter, hzero, hlong]
    · refine .kept since hidle hsince (hle.trans hnow) ?_ ?_
      · have hpos : 0 < oneMillisecond := by decide
        omega
      · simp [ActiveTracker.uncreditedIdle, hsince, Option.filter, hzero, hlong]
  · have hsince := h.busy hidle
    exact .busy hidle hsince (by simp [ActiveTracker.uncreditedIdle, hsince])

theorem Accounts.advance (h : Accounts w) (hnow : w.now ≤ now) : Accounts (w.advance now) := by
  have hpast : ∀ p ∈ w.callers.ended, p.2.2 ≤ now := fun p hp => (h.past p hp).trans hnow
  -- a wait that ended at `now` ended at `w.now` already
  have hended : ∀ caller since, (caller, since, now) ∈ w.callers.ended → now = w.now :=
    fun caller since hmem => le_antisymm (h.past _ hmem) hnow
  obtain ⟨hbusy, hsince, hspan⟩ | ⟨since, hidle, hsince, hle, hlt, hspan⟩ |
    ⟨since, hidle, hsince, hlt, hspan⟩ := h.flushed hnow
  · refine ⟨?_, ?_, ?_, fun hidle => absurd hidle hbusy, fun _ => ?_, hpast, ?_⟩ <;>
      simp only [BudgetWorld.advance, flushIdleWaitAt_none hspan]
    · exact h.active
    · exact h.waiting
    · exact fun e he => (h.creditEnd e he).trans hnow
    · exact hsince
    · intro caller since hmem
      obtain rfl := hended caller since hmem
      exact h.ended caller since hmem
  · obtain ⟨since', hsince', -, -, hanchor⟩ := h.idle hidle
    obtain rfl : since' = since := Option.some.inj (hsince'.symm.trans hsince)
    refine ⟨?_, ?_, ?_, fun _ => ⟨since', ?_, hle, hlt, ?_⟩, fun hbusy => absurd hidle hbusy,
      hpast, ?_⟩ <;> simp only [BudgetWorld.advance, flushIdleWaitAt_none hspan]
    · exact h.active
    · exact h.waiting
    · exact fun e he => (h.creditEnd e he).trans hnow
    · exact hsince
    · exact hanchor
    · intro caller since hmem
      obtain rfl := hended caller since hmem
      exact h.ended caller since hmem
  · have hpos : 0 < oneMillisecond := by decide
    refine ⟨?_, ?_, ?_, fun _ => ⟨now, ?_, le_rfl, ?_, ?_⟩, fun hbusy => absurd hidle hbusy,
      hpast, ?_⟩ <;> simp only [BudgetWorld.advance, flushIdleWaitAt_some hspan]
    · exact h.active
    · exact h.waiting
    · exact fun e he => (Option.mem_some.mp he).ge
    · omega
    · exact .inr (.inl trivial)
    · exact fun caller since hmem _ => ⟨now, by omega, .inr (.inl rfl)⟩

end Flush

/-! ### What a call changes -/

section Switch

variable {w : BudgetWorld κ}

theorem Accounts.idleFrom (h : Accounts w) : w.budget.tracker.idleFrom w.now = w.now := by
  unfold ActiveTracker.idleFrom
  cases hend : w.budget.tracker.lastCreditEnd with
  | none => rfl
  | some e => exact max_eq_left (h.creditEnd e (by rw [hend]; exact Option.mem_some_self e))

/-- A wait that ended just now has nothing left to be credited for. -/
theorem Accounts.uncreditedWait (h : Accounts w) {caller : κ} {since slept : ℕ}
    (hended : (caller, since, w.now) ∈ w.callers.ended) (hslept : slept ≤ w.now - since) :
    w.budget.tracker.uncreditedWait w.now slept = none := by
  unfold ActiveTracker.uncreditedWait
  split_ifs with hnone
  · rfl
  rw [not_or, h.active, not_lt, Nat.le_zero, List.length_eq_zero_iff] at hnone
  obtain ⟨x, hlt, hx⟩ := h.ended caller since hended hnone.2
  have hstart : w.now < w.budget.tracker.effectiveStart w.now slept + oneMillisecond := by
    unfold ActiveTracker.effectiveStart
    rcases hx with rfl | hx | hx
    · split_ifs <;> omega
    · rw [hx, Option.getD_some]
      omega
    · rw [hx, Option.getD_some]
      omega
  refine Option.filter_eq_none_iff.mpr fun start hsome => ?_
  obtain rfl := Option.some.inj hsome
  rw [decide_eq_true_eq]
  omega

variable [DecidableEq κ]

theorem Accounts.startWait (h : Accounts w) (caller : κ) :
    Accounts (w.switch (.waitStart caller)) := by
  refine ⟨h.active, congrArg (· + 1) h.waiting, h.creditEnd, fun hidle => ?_, fun hbusy => ?_,
    h.past, h.ended⟩
  · have hactive : w.budget.tracker.activeCount = 0 := by
      rw [h.active, show w.callers.requesting = [] from hidle.2, List.length_nil]
    by_cases hnone : w.callers.waiting = []
    · refine ⟨w.now, ?_, le_rfl, Nat.lt_add_of_pos_right (by decide), .inl fun p hp => ?_⟩
      · have hwaiting : w.budget.tracker.waitingCount = 0 := by
          rw [h.waiting, hnone, List.length_nil]
        simp only [switch, switchTracker, DeadlineBudget.withTracker, ActiveTracker.startWait,
          hwaiting, hactive, and_self, if_true, h.idleFrom]
      · simp only [switch, Callers.apply, hnone, List.mem_singleton] at hp
        rw [hp]
    · obtain ⟨since, hsince, hle, hlt, hanchor⟩ := h.idle ⟨hnone, hidle.2⟩
      refine ⟨since, ?_, hle, hlt, hanchor.imp_left fun hall p hp => ?_⟩
      · have hwaiting : w.budget.tracker.waitingCount ≠ 0 := by
          rw [h.waiting]
          exact fun hzero => hnone (List.length_eq_zero_iff.mp hzero)
        simp only [switch, switchTracker, DeadlineBudget.withTracker, ActiveTracker.startWait,
          hwaiting, false_and, if_false, hsince]
      · rcases List.mem_cons.mp hp with rfl | hp
        · exact hle
        · exact hall p hp
  · have hrequesting : w.callers.requesting ≠ [] := fun hnil =>
      hbusy ⟨List.cons_ne_nil _ _, hnil⟩
    have hactive : w.budget.tracker.activeCount ≠ 0 := by
      rw [h.active]
      exact fun hzero => hrequesting (List.length_eq_zero_iff.mp hzero)
    simp only [switch, switchTracker, DeadlineBudget.withTracker, ActiveTracker.startWait,
      hactive, and_false, if_false]
    exact h.busy fun hidle => hrequesting hidle.2

theorem Accounts.endWait (h : Accounts w) {caller : κ} {since : ℕ}
    (hmem : (caller, since) ∈ w.callers.waiting) :
    Accounts (w.switch (.waitEnd caller since)) := by
  have hcount : (w.callers.waiting.erase (caller, since)).length =
      w.budget.tracker.waitingCount - 1 := by
    rw [List.length_erase_of_mem hmem, h.waiting]
  have hleft : w.callers.waiting.erase (caller, since) = [] ↔
      w.budget.tracker.waitingCount - 1 = 0 := by
    rw [← hcount, List.length_eq_zero_iff]
  refine ⟨h.active, hcount.symm, h.creditEnd, fun hidle => ?_, fun hbusy => ?_, fun p hp => ?_,
    fun caller' since' hended hnone => ?_⟩
  · obtain ⟨since', hsince, hle, hlt, hanchor⟩ :=
      h.idle ⟨List.ne_nil_of_mem hmem, hidle.2⟩
    refine ⟨since', ?_, hle, hlt, hanchor.imp_left fun hall p hp =>
      hall p (List.mem_of_mem_erase hp)⟩
    simp only [switch, switchTracker, DeadlineBudget.withTracker, ActiveTracker.endWait,
      mt hleft.mpr hidle.1, if_false, hsince]
  · simp only [switch, switchTracker, DeadlineBudget.withTracker, ActiveTracker.endWait]
    split_ifs with hzero
    · rfl
    · exact h.busy fun hidle => hbusy ⟨mt hleft.mp hzero, hidle.2⟩
  · rcases List.mem_cons.mp hp with rfl | hp
    · exact le_rfl
    · exact h.past p hp
  · rcases List.mem_cons.mp hended with heq | hended
    · obtain ⟨rfl, rfl⟩ : caller' = caller ∧ since' = since := by
        simpa [BudgetWorld.switch] using heq
      obtain ⟨x, -, hle, hlt, hanchor⟩ := h.idle ⟨List.ne_nil_of_mem hmem, hnone⟩
      rcases hanchor with hall | hanchor
      · have hstart : x ≤ since' := hall _ hmem
        exact ⟨since', by change w.now < _; omega, .inl rfl⟩
      · exact ⟨x, hlt, .inr hanchor⟩
    · exact h.ended caller' since' hended hnone

theorem Accounts.startRequest (h : Accounts w) (caller : κ) :
    Accounts (w.switch (.requestStart caller)) :=
  ⟨congrArg (· + 1) h.active, h.waiting, h.creditEnd,
    fun hidle => absurd hidle.2 (List.cons_ne_nil _ _), fun _ => rfl, h.past,
    fun _ _ _ hnone => absurd hnone (List.cons_ne_nil _ _)⟩

theorem Accounts.endRequest (h : Accounts w) {caller : κ}
    (hmem : caller ∈ w.callers.requesting) : Accounts (w.switch (.requestEnd caller)) := by
  have hcount : (w.callers.requesting.erase caller).length =
      w.budget.tracker.activeCount - 1 := by
    rw [List.length_erase_of_mem hmem, h.active]
  have hleft : w.callers.requesting.erase caller = [] ↔
      w.budget.tracker.activeCount - 1 = 0 := by
    rw [← hcount, List.length_eq_zero_iff]
  have hpos : 0 < w.budget.tracker.waitingCount ↔ w.callers.waiting ≠ [] := by
    rw [h.waiting, List.length_pos_iff]
  have hnow : w.now < w.now + oneMillisecond := Nat.lt_add_of_pos_right (by decide)
  refine ⟨hcount.symm, h.waiting, h.creditEnd, fun hidle => ?_, fun hbusy => ?_, h.past,
    fun _ _ _ _ => ⟨w.now, hnow, .inr (.inr rfl)⟩⟩
  · refine ⟨w.now, ?_, le_rfl, hnow, .inr (.inr rfl)⟩
    have hboth := And.intro (hleft.mp hidle.2) (hpos.mpr hidle.1)
    simp only [switch, switchTracker, DeadlineBudget.withTracker, ActiveTracker.endRequest,
      if_pos hboth, h.idleFrom]
  · have hnot : ¬(w.budget.tracker.activeCount - 1 = 0 ∧ 0 < w.budget.tracker.waitingCount) :=
      fun hboth => hbusy ⟨hpos.mp hboth.2, hleft.mpr hboth.1⟩
    simp only [switch, switchTracker, DeadlineBudget.withTracker, ActiveTracker.endRequest,
      if_neg hnot]
    exact h.busy fun hidle => List.ne_nil_of_mem hmem hidle.2

theorem Accounts.switch {call : BudgetCall κ} (h : Accounts w)
    (hcall : w.callers.Allows w.now call) : Accounts (w.switch call) := by
  cases call with
  | waitStart caller => exact h.startWait caller
  | waitEnd caller since => exact h.endWait hcall
  | requestStart caller => exact h.startRequest caller
  | requestEnd caller => exact h.endRequest hcall
  | creditWait caller since slept =>
    exact ⟨h.active, h.waiting, h.creditEnd, h.idle, h.busy, h.past, h.ended⟩
  | readDeadline =>
    exact ⟨h.active, h.waiting, h.creditEnd, h.idle, h.busy, h.past, h.ended⟩

/-- Each call is a flush and a change of the counts: nothing is pending where a request ends, and
nothing is left of a wait that was slept. -/
theorem Accounts.step_eq (h : Accounts w) {now : ℕ} {call : BudgetCall κ} (hnow : w.now ≤ now)
    (hcall : w.callers.Allows now call) : w.step now call = (w.advance now).switch call := by
  have hbudget : w.budget.apply now call = ((w.advance now).switch call).budget ∧
      w.budget.creditedSpans now call = w.budget.flushedSpan now := by
    cases call with
    | waitStart caller => exact ⟨rfl, rfl⟩
    | waitEnd caller since => exact ⟨rfl, rfl⟩
    | requestStart caller => exact ⟨rfl, rfl⟩
    | requestEnd caller =>
      have hbusy : ¬w.callers.Idle := fun hidle => List.ne_nil_of_mem hcall hidle.2
      have hnone : w.budget.tracker.uncreditedIdle now = none := by
        rw [ActiveTracker.uncreditedIdle, h.busy hbusy, Option.filter_none]
      refine ⟨?_, ?_⟩
      · simp only [BudgetWorld.switch, BudgetWorld.advance, flushIdleWaitAt_none hnone]
        rfl
      · rw [DeadlineBudget.flushedSpan, hnone]
        rfl
    | creditWait caller since slept =>
      have hnone := (h.advance hnow).uncreditedWait hcall.1 hcall.2
      change (w.budget.flushIdleWaitAt now).tracker.uncreditedWait now slept = none at hnone
      refine ⟨?_, ?_⟩
      · rw [DeadlineBudget.apply, DeadlineBudget.creditWaitAt, DeadlineBudget.creditSlept, hnone]
        rfl
      · rw [DeadlineBudget.creditedSpans, DeadlineBudget.sleptSpan, hnone]
        rfl
    | readDeadline => exact ⟨rfl, rfl⟩
  have hidle : w.idleAfter now (w.callers.apply now call) = ((w.advance now).switch call).idle := by
    by_cases hi : w.callers.Idle
    · simp [idleAfter, BudgetWorld.switch, BudgetWorld.advance, hi]
    · simp [idleAfter, BudgetWorld.switch, BudgetWorld.advance, hi]
  rw [step, hidle, hbudget.1, hbudget.2]
  rfl

end Switch

/-! ### The ledger -/

/-- Up to when idle time is credited. -/
def settled (w : BudgetWorld κ) : ℕ := w.budget.tracker.idleWaitSince.getD w.now

/-- The stretch that goes on is credited up to `settled`, the ones before it but for less than a
millisecond. -/
structure Ledger (deadline : ℕ) (w : BudgetWorld κ) : Prop where
  added : w.budget.deadline = deadline + total w.credited
  spans : ∀ span ∈ w.credited, span.1 < span.2 ∧ span.2 ≤ w.settled
  once : w.credited.Pairwise fun newer older => older.2 ≤ newer.1
  inside : ∀ span ∈ w.credited, ∃ stretch ∈ w.idle, stretch.1 ≤ span.1 ∧ span.2 ≤ stretch.2
  bounded : total w.credited + (w.now - w.settled) ≤ total w.idle
  current : w.callers.Idle → ∃ start older, w.idle = (start, w.now) :: older ∧
    start ≤ w.settled ∧ (∀ stretch ∈ older, stretch.2 ≤ start) ∧
      creditedWithin w.credited (start, w.now) = w.settled - start
  ends : ∀ stretch ∈ w.idle, stretch.2 ≤ w.now
  complete : ∀ stretch ∈ w.idle,
    stretch.2 - stretch.1 < creditedWithin w.credited stretch + oneMillisecond

theorem total_cons (span : ℕ × ℕ) (spans : List (ℕ × ℕ)) :
    total (span :: spans) = span.2 - span.1 + total spans := by
  rw [total, List.map_cons, List.sum_cons, total]

/-- A span that is not in the stretch does not count for it. -/
theorem creditedWithin_cons_of_not {span stretch : ℕ × ℕ} {credited : List (ℕ × ℕ)}
    (h : ¬(stretch.1 ≤ span.1 ∧ span.2 ≤ stretch.2)) :
    creditedWithin (span :: credited) stretch = creditedWithin credited stretch := by
  rw [creditedWithin, List.filter_cons_of_neg (by simpa using h), creditedWithin]

theorem creditedWithin_cons_of_within {span stretch : ℕ × ℕ} {credited : List (ℕ × ℕ)}
    (h : stretch.1 ≤ span.1 ∧ span.2 ≤ stretch.2) :
    creditedWithin (span :: credited) stretch =
      span.2 - span.1 + creditedWithin credited stretch := by
  rw [creditedWithin, List.filter_cons_of_pos (by simpa using h), total_cons, creditedWithin]

/-- What is credited all lies before the end of the stretch, wherever that is. -/
theorem creditedWithin_end {credited : List (ℕ × ℕ)} {start stop stop' : ℕ}
    (h : ∀ span ∈ credited, span.2 ≤ stop) (h' : ∀ span ∈ credited, span.2 ≤ stop') :
    creditedWithin credited (start, stop) = creditedWithin credited (start, stop') := by
  rw [creditedWithin, creditedWithin, List.filter_congr fun span hspan => ?_]
  rw [decide_eq_decide]
  exact and_congr_right fun _ => ⟨fun _ => h' span hspan, fun _ => h span hspan⟩

theorem creditedWithin_empty {credited : List (ℕ × ℕ)} {now : ℕ}
    (h : ∀ span ∈ credited, span.1 < span.2) : creditedWithin credited (now, now) = 0 := by
  rw [creditedWithin, List.filter_eq_nil_iff.mpr fun span hspan => ?_]
  · rfl
  · have hpos := h span hspan
    rw [decide_eq_true_eq]
    omega

section Passing

variable {w : BudgetWorld κ} {now deadline : ℕ}

theorem Ledger.advance_busy (h : Ledger deadline w) (hnow : w.now ≤ now)
    (hbusy : ¬w.callers.Idle) (hsince : w.budget.tracker.idleWaitSince = none)
    (hspan : w.budget.tracker.uncreditedIdle now = none) : Ledger deadline (w.advance now) := by
  have hsettled : w.settled = w.now := by rw [settled, hsince, Option.getD_none]
  have hsettled' : (w.advance now).settled = now := by
    rw [settled, BudgetWorld.advance, flushIdleWaitAt_none hspan, hsince, Option.getD_none]
  have hcredited : (w.advance now).credited = w.credited := by
    rw [BudgetWorld.advance, DeadlineBudget.flushedSpan, hspan]
    rfl
  have hidle : (w.advance now).idle = w.idle := if_neg hbusy
  have hbudget : (w.advance now).budget = w.budget := flushIdleWaitAt_none hspan
  have hbounded := h.bounded
  refine ⟨?_, ?_, ?_, ?_, ?_, fun hidle => absurd hidle hbusy, ?_, ?_⟩ <;>
    simp only [hsettled', hcredited, hidle, hbudget]
  · exact h.added
  · exact fun span hmem => ⟨(h.spans span hmem).1,
      ((h.spans span hmem).2.trans hsettled.le).trans hnow⟩
  · exact h.once
  · exact h.inside
  · change total w.credited + (now - now) ≤ total w.idle
    omega
  · exact fun stretch hmem => (h.ends stretch hmem).trans hnow
  · exact h.complete

section Idle

variable {since start : ℕ} {older : List (ℕ × ℕ)}

/-- The stretches after some more idle time, the last one now longer. -/
theorem Ledger.inside_longer (h : Ledger deadline w) (hnow : w.now ≤ now)
    (hlist : w.idle = (start, w.now) :: older) {span : ℕ × ℕ} (hspan : span ∈ w.credited) :
    ∃ stretch ∈ (start, now) :: older, stretch.1 ≤ span.1 ∧ span.2 ≤ stretch.2 := by
  obtain ⟨stretch, hmem, hstart, hend⟩ := h.inside span hspan
  rw [hlist] at hmem
  rcases List.mem_cons.mp hmem with rfl | hmem
  · exact ⟨_, List.mem_cons_self, hstart, hend.trans hnow⟩
  · exact ⟨stretch, List.mem_cons_of_mem _ hmem, hstart, hend⟩

theorem Ledger.ends_longer (h : Ledger deadline w) (hnow : w.now ≤ now)
    (hlist : w.idle = (start, w.now) :: older) {stretch : ℕ × ℕ}
    (hmem : stretch ∈ (start, now) :: older) : stretch.2 ≤ now := by
  rcases List.mem_cons.mp hmem with rfl | hmem
  · exact le_rfl
  · exact (h.ends stretch (hlist ▸ List.mem_cons_of_mem _ hmem)).trans hnow

theorem Ledger.advance_kept (h : Ledger deadline w) (hnow : w.now ≤ now) (hidle : w.callers.Idle)
    (hsince : w.budget.tracker.idleWaitSince = some since) (hle : since ≤ w.now)
    (hlt : now < since + oneMillisecond)
    (hspan : w.budget.tracker.uncreditedIdle now = none) : Ledger deadline (w.advance now) := by
  have hsettled : w.settled = since := by rw [settled, hsince, Option.getD_some]
  have hsettled' : (w.advance now).settled = since := by
    rw [settled, BudgetWorld.advance, flushIdleWaitAt_none hspan, hsince, Option.getD_some]
  have hcredited : (w.advance now).credited = w.credited := by
    rw [BudgetWorld.advance, DeadlineBudget.flushedSpan, hspan]
    rfl
  have hbudget : (w.advance now).budget = w.budget := flushIdleWaitAt_none hspan
  obtain ⟨start, older, hlist, hstart, holder, hwithin⟩ := h.current hidle
  have hlist' : (w.advance now).idle = (start, now) :: older := by
    rw [BudgetWorld.advance, if_pos hidle, hlist]
    rfl
  have hspans : ∀ span ∈ w.credited, span.2 ≤ since := fun span hmem =>
    hsettled ▸ (h.spans span hmem).2
  have hwithin' : creditedWithin w.credited (start, now) = since - start := by
    rw [creditedWithin_end (fun span hmem => (hspans span hmem).trans (hle.trans hnow))
      fun span hmem => (hspans span hmem).trans hle, hwithin, hsettled]
  rw [hsettled] at hstart
  have hbounded := h.bounded
  rw [hsettled, hlist, total_cons] at hbounded
  refine ⟨?_, ?_, ?_, ?_, ?_, fun _ => ⟨start, older, hlist', ?_⟩, ?_, ?_⟩ <;>
    simp only [hsettled', hcredited, hlist', hbudget]
  · exact h.added
  · exact fun span hmem => ⟨(h.spans span hmem).1, hspans span hmem⟩
  · exact h.once
  · exact fun span hmem => h.inside_longer hnow hlist hmem
  · rw [total_cons]
    change total w.credited + (now - since) ≤ now - start + total older
    simp only at hbounded
    omega
  · exact ⟨hstart, holder, hwithin'⟩
  · exact fun stretch hmem => h.ends_longer hnow hlist hmem
  · intro stretch hmem
    rcases List.mem_cons.mp hmem with rfl | hmem
    · rw [hwithin']
      simp only
      omega
    · exact h.complete stretch (hlist ▸ List.mem_cons_of_mem _ hmem)

theorem Ledger.advance_credited (h : Ledger deadline w) (hnow : w.now ≤ now)
    (hidle : w.callers.Idle) (hsince : w.budget.tracker.idleWaitSince = some since)
    (hle : since ≤ w.now) (hlt : since < now)
    (hspan : w.budget.tracker.uncreditedIdle now = some since) :
    Ledger deadline (w.advance now) := by
  have hsettled : w.settled = since := by rw [settled, hsince, Option.getD_some]
  have hsettled' : (w.advance now).settled = now := by
    rw [settled, BudgetWorld.advance, flushIdleWaitAt_some hspan, Option.getD_some]
  have hcredited : (w.advance now).credited = (since, now) :: w.credited := by
    rw [BudgetWorld.advance, DeadlineBudget.flushedSpan, hspan]
    rfl
  have hbudget : (w.advance now).budget.deadline = w.budget.deadline + (now - since) := by
    rw [BudgetWorld.advance, flushIdleWaitAt_some hspan]
  obtain ⟨start, older, hlist, hstart, holder, hwithin⟩ := h.current hidle
  have hlist' : (w.advance now).idle = (start, now) :: older := by
    rw [BudgetWorld.advance, if_pos hidle, hlist]
    rfl
  have hspans : ∀ span ∈ w.credited, span.2 ≤ since := fun span hmem =>
    hsettled ▸ (h.spans span hmem).2
  rw [hsettled] at hstart
  have hwithin' : creditedWithin ((since, now) :: w.credited) (start, now) = now - start := by
    have hin : (start, now).1 ≤ (since, now).1 ∧ (since, now).2 ≤ (start, now).2 :=
      ⟨hstart, le_rfl⟩
    rw [creditedWithin_cons_of_within hin,
      creditedWithin_end (fun span hmem => (hspans span hmem).trans (hle.trans hnow))
        fun span hmem => (hspans span hmem).trans hle, hwithin, hsettled]
    simp only
    omega
  have hbounded := h.bounded
  rw [hsettled, hlist, total_cons] at hbounded
  refine ⟨?_, ?_, ?_, ?_, ?_, fun _ => ⟨start, older, hlist', ?_⟩, ?_, ?_⟩ <;>
    simp only [hsettled', hcredited, hlist', hbudget]
  · rw [h.added, total_cons]
    omega
  · intro span hmem
    rcases List.mem_cons.mp hmem with rfl | hmem
    · exact ⟨hlt, le_rfl⟩
    · exact ⟨(h.spans span hmem).1, (hspans span hmem).trans hlt.le⟩
  · exact List.pairwise_cons.mpr ⟨hspans, h.once⟩
  · intro span hmem
    rcases List.mem_cons.mp hmem with rfl | hmem
    · exact ⟨_, List.mem_cons_self, hstart, le_rfl⟩
    · exact h.inside_longer hnow hlist hmem
  · rw [total_cons, total_cons]
    change now - since + total w.credited + (now - now) ≤ now - start + total older
    simp only at hbounded
    omega
  · exact ⟨hstart.trans hlt.le, holder, hwithin'⟩
  · exact fun stretch hmem => h.ends_longer hnow hlist hmem
  · intro stretch hmem
    rcases List.mem_cons.mp hmem with rfl | hmem
    · rw [hwithin']
      exact Nat.lt_add_of_pos_right (by decide)
    · rw [creditedWithin_cons_of_not fun hin => ?_]
      · exact h.complete stretch (hlist ▸ List.mem_cons_of_mem _ hmem)
      · have hbefore := holder stretch hmem
        simp only at hin
        omega

end Idle

theorem Ledger.advance (hw : Accounts w) (h : Ledger deadline w) (hnow : w.now ≤ now) :
    Ledger deadline (w.advance now) := by
  have hle : ∀ since, w.callers.Idle → w.budget.tracker.idleWaitSince = some since →
      since ≤ w.now := fun since hidle hsince => by
    obtain ⟨since', hsince', hle, -⟩ := hw.idle hidle
    obtain rfl : since' = since := Option.some.inj (hsince'.symm.trans hsince)
    exact hle
  obtain ⟨hbusy, hsince, hspan⟩ | ⟨since, hidle, hsince, -, hlt, hspan⟩ |
    ⟨since, hidle, hsince, hlt, hspan⟩ := hw.flushed hnow
  · exact h.advance_busy hnow hbusy hsince hspan
  · exact h.advance_kept hnow hidle hsince (hle since hidle hsince) hlt hspan
  · exact h.advance_credited hnow hidle hsince (hle since hidle hsince) hlt hspan

end Passing

section Switching

variable [DecidableEq κ] {w : BudgetWorld κ} {call : BudgetCall κ} {deadline : ℕ}

theorem Accounts.idle_iff {κ : Type} {w : BudgetWorld κ} (h : Accounts w) : w.callers.Idle ↔
    0 < w.budget.tracker.waitingCount ∧ w.budget.tracker.activeCount = 0 := by
  rw [h.waiting, h.active, List.length_pos_iff, List.length_eq_zero_iff, Callers.Idle]

/-- Only where idleness goes on is anything left to credit. -/
theorem Accounts.settled_switch (h : Accounts w) (hcall : w.callers.Allows w.now call) :
    (w.switch call).settled =
      if w.callers.Idle ∧ (w.switch call).callers.Idle then w.settled else w.now := by
  have hafter := h.switch hcall
  by_cases hidle' : (w.switch call).callers.Idle
  swap
  · rw [if_neg fun hboth => hidle' hboth.2, settled, hafter.busy hidle']
    rfl
  have hcounts := hafter.idle_iff.mp hidle'
  by_cases hidle : w.callers.Idle
  · rw [if_pos ⟨hidle, hidle'⟩]
    have hold := h.idle_iff.mp hidle
    refine congrArg (Option.getD · w.now) ?_
    cases call with
    | waitStart caller => exact if_neg fun hzero => hold.1.ne' hzero.1
    | waitEnd caller since => exact if_neg hcounts.1.ne'
    | requestStart caller => exact absurd hcounts.2 (Nat.succ_ne_zero _)
    | requestEnd caller => exact absurd hidle.2 (List.ne_nil_of_mem hcall)
    | creditWait caller since slept => rfl
    | readDeadline => rfl
  · rw [if_neg fun hboth => hidle hboth.1]
    have hold : ¬(0 < w.budget.tracker.waitingCount ∧ w.budget.tracker.activeCount = 0) :=
      fun hcount => hidle (h.idle_iff.mpr hcount)
    cases call with
    | waitStart caller =>
      have hzero : w.budget.tracker.waitingCount = 0 ∧ w.budget.tracker.activeCount = 0 :=
        ⟨Nat.eq_zero_of_not_pos fun hpos => hold ⟨hpos, hcounts.2⟩, hcounts.2⟩
      simp only [settled, BudgetWorld.switch, switchTracker, DeadlineBudget.withTracker,
        ActiveTracker.startWait, if_pos hzero, Option.getD_some, h.idleFrom]
    | waitEnd caller since =>
      exact absurd ⟨List.ne_nil_of_mem hcall, hidle'.2⟩ hidle
    | requestStart caller => exact absurd hcounts.2 (Nat.succ_ne_zero _)
    | requestEnd caller =>
      have hboth : w.budget.tracker.activeCount - 1 = 0 ∧ 0 < w.budget.tracker.waitingCount :=
        hcounts.symm
      simp only [settled, BudgetWorld.switch, switchTracker, DeadlineBudget.withTracker,
        ActiveTracker.endRequest, if_pos hboth, Option.getD_some, h.idleFrom]
    | creditWait caller since slept => exact absurd hidle' hidle
    | readDeadline => exact absurd hidle' hidle

theorem Ledger.switch (hw : Accounts w) (h : Ledger deadline w)
    (hcall : w.callers.Allows w.now call) : Ledger deadline (w.switch call) := by
  have hsettled := hw.settled_switch hcall
  have hle : w.settled ≤ w.now := by
    by_cases hidle : w.callers.Idle
    · obtain ⟨since, hsince, hle, -⟩ := hw.idle hidle
      rw [settled, hsince]
      exact hle
    · rw [settled, hw.busy hidle]
      exact le_rfl
  have hlater : w.settled ≤ (w.switch call).settled ∧ (w.switch call).settled ≤ w.now := by
    rw [hsettled]
    split_ifs
    · exact ⟨le_rfl, hle⟩
    · exact ⟨hle, le_rfl⟩
  have hspans : ∀ span ∈ w.credited, span.1 < span.2 ∧ span.2 ≤ (w.switch call).settled :=
    fun span hmem => ⟨(h.spans span hmem).1, (h.spans span hmem).2.trans hlater.1⟩
  have hbounded : total w.credited + (w.now - (w.switch call).settled) ≤ total w.idle :=
    (Nat.add_le_add_left (Nat.sub_le_sub_left hlater.1 _) _).trans h.bounded
  by_cases hbegins : ¬w.callers.Idle ∧ (w.switch call).callers.Idle
  · have hidle' : (w.switch call).idle = (w.now, w.now) :: w.idle := if_pos hbegins
    have hempty : creditedWithin w.credited (w.now, w.now) = 0 :=
      creditedWithin_empty fun span hmem => (h.spans span hmem).1
    rw [if_neg fun hboth => hbegins.1 hboth.1] at hsettled
    refine ⟨h.added, hspans, h.once, fun span hmem => ?_, ?_, fun _ => ?_, ?_, ?_⟩
    · obtain ⟨stretch, hstretch, hin⟩ := h.inside span hmem
      exact ⟨stretch, hidle' ▸ List.mem_cons_of_mem _ hstretch, hin⟩
    · rw [hidle', total_cons]
      exact hbounded.trans (Nat.le_add_left _ _)
    · refine ⟨w.now, w.idle, hidle', hsettled.ge, h.ends, ?_⟩
      rw [hsettled, Nat.sub_self]
      exact hempty
    · rw [hidle']
      exact List.forall_mem_cons.mpr ⟨le_rfl, h.ends⟩
    · rw [hidle']
      refine List.forall_mem_cons.mpr ⟨?_, h.complete⟩
      rw [Nat.sub_self]
      exact Nat.add_pos_right _ (by decide)
  · have hidle' : (w.switch call).idle = w.idle := if_neg hbegins
    refine ⟨h.added, hspans, h.once, ?_, ?_, fun hidle => ?_, ?_, ?_⟩
    · rw [hidle']
      exact h.inside
    · rw [hidle']
      exact hbounded
    · have hold : w.callers.Idle := by_contra fun hnot => hbegins ⟨hnot, hidle⟩
      rw [if_pos ⟨hold, hidle⟩] at hsettled
      obtain ⟨start, older, hlist, hcurrent⟩ := h.current hold
      rw [hsettled]
      exact ⟨start, older, hidle'.trans hlist, hcurrent⟩
    · rw [hidle']
      exact h.ends
    · rw [hidle']
      exact h.complete

end Switching

theorem accounts_ledger {κ : Type} [DecidableEq κ] {deadline : ℕ}
    {calls : List (ℕ × BudgetCall κ)} {w : BudgetWorld κ} (h : BudgetRun deadline calls w) :
    Accounts w ∧ Ledger deadline w := by
  induction h with
  | nil =>
    refine ⟨⟨rfl, rfl, nofun, fun hidle => absurd rfl hidle.1, fun _ => rfl, nofun, nofun⟩, ?_⟩
    exact ⟨rfl, nofun, List.Pairwise.nil, nofun, le_rfl, fun hidle => absurd rfl hidle.1, nofun,
      nofun⟩
  | snoc h hnow hcall ih =>
    rw [ih.1.step_eq hnow hcall]
    have haccounts := ih.1.advance hnow
    exact ⟨haccounts.switch hcall, (ih.2.advance ih.1 hnow).switch haccounts hcall⟩

end BudgetWorld

/-- However the calls interleave, the deadline is moved on by idle time alone, by no instant
twice, and by all of it but less than a millisecond a stretch. -/
theorem creditsIdleTime {κ : Type} [DecidableEq κ] {deadline : ℕ}
    {calls : List (ℕ × BudgetCall κ)} {w : BudgetWorld κ} (h : BudgetRun deadline calls w) :
    CreditsIdleTime deadline w := by
  obtain ⟨-, hledger⟩ := BudgetWorld.accounts_ledger h
  exact ⟨hledger.added, (Nat.le_add_right _ _).trans hledger.bounded, hledger.once,
    hledger.inside, hledger.complete⟩

/-- Two staggered waits, the second of which ends in a request. -/
def staggeredWaits : BudgetWorld ℕ :=
  [(0, .waitStart 1), (200000000, .waitStart 2), (500000000, .waitEnd 2 200000000),
    (500000000, .creditWait 2 200000000 300000000), (500000000, .requestStart 2),
    (500000000, .waitEnd 1 0)].foldl (fun w c => w.step c.1 c.2) (.init 10000000000)

/-- The whole of the idle time is credited. -/
theorem creditsIdleTime_staggeredWaits : CreditsIdleTime 10000000000 staggeredWaits ∧
    staggeredWaits.budget.deadline = 10500000000 := by
  have hended : ((1, 0) : ℕ × ℕ) ∈ [(1, 0)] := List.mem_cons_self
  refine ⟨creditsIdleTime (.snoc (.snoc (.snoc (.snoc (.snoc (.snoc .nil ?_ trivial) ?_ trivial) ?_
    List.mem_cons_self) ?_ ⟨List.mem_cons_self, ?_⟩) ?_ trivial) ?_ hended), rfl⟩ <;> decide

end Sashiko
