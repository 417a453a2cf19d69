import Mathlib.Data.Nat.Basic
import Mathlib.Tactic.SplitIfs

/-! `ai/backoff_provider.rs`: a deadline that is moved on by the time spent waiting with no request
in flight. Instants and durations are in nanoseconds. -/

namespace Sashiko

/-- `Duration::from_millis(1)`. -/
def oneMillisecond : ℕ := 1000000

structure ActiveTracker where
  activeCount : ℕ
  waitingCount : ℕ
  idleWaitSince : Option ℕ
  lastCreditEnd : Option ℕ
  lastActiveEnd : Option ℕ
  deriving DecidableEq, Repr

/-- The deadline with the tracker that moves it on; a handler holds the locks of both. -/
structure DeadlineBudget where
  deadline : ℕ
  tracker : ActiveTracker
  deriving DecidableEq, Repr

namespace ActiveTracker

/-- From when on an idle wait is credited, where there is a millisecond of it or more. -/
def uncreditedIdle (tr : ActiveTracker) (now : ℕ) : Option ℕ :=
  tr.idleWaitSince.filter fun since =>
    tr.activeCount = 0 ∧ since < now ∧ oneMillisecond ≤ now - since

/-- `self.last_credit_end.map_or(now, |end| now.max(end))`. -/
def idleFrom (tr : ActiveTracker) (now : ℕ) : ℕ := (tr.lastCreditEnd.map (max now)).getD now

/-- `effective_start`. -/
def effectiveStart (tr : ActiveTracker) (now slept : ℕ) : ℕ :=
  max (max (if slept ≤ now then now - slept else now) (tr.lastCreditEnd.getD 0))
    (tr.lastActiveEnd.getD 0)

/-- From when on a wait that was slept is credited. -/
def uncreditedWait (tr : ActiveTracker) (now slept : ℕ) : Option ℕ :=
  if slept = 0 ∨ 0 < tr.activeCount then none
  else (some (tr.effectiveStart now slept)).filter fun start =>
    start < now ∧ oneMillisecond ≤ now - start

def startWait (tr : ActiveTracker) (now : ℕ) : ActiveTracker :=
  { tr with
    idleWaitSince :=
      if tr.waitingCount = 0 ∧ tr.activeCount = 0 then some (tr.idleFrom now)
      else tr.idleWaitSince
    waitingCount := tr.waitingCount + 1 }

def endWait (tr : ActiveTracker) : ActiveTracker :=
  { tr with
    waitingCount := tr.waitingCount - 1
    idleWaitSince := if tr.waitingCount - 1 = 0 then none else tr.idleWaitSince }

def startRequest (tr : ActiveTracker) : ActiveTracker :=
  { tr with idleWaitSince := none, activeCount := tr.activeCount + 1 }

def endRequest (tr : ActiveTracker) (now : ℕ) : ActiveTracker :=
  { tr with
    lastActiveEnd := some now
    activeCount := tr.activeCount - 1
    idleWaitSince :=
      if tr.activeCount - 1 = 0 ∧ 0 < tr.waitingCount then some (tr.idleFrom now)
      else tr.idleWaitSince }

end ActiveTracker

namespace DeadlineBudget

def flushIdleWaitAt (b : DeadlineBudget) (now : ℕ) : DeadlineBudget :=
  match b.tracker.uncreditedIdle now with
  | some since =>
    ⟨b.deadline + (now - since),
      { b.tracker with lastCreditEnd := some now, idleWaitSince := some now }⟩
  | none => b

def withTracker (b : DeadlineBudget) (tracker : ActiveTracker) : DeadlineBudget :=
  { b with tracker := tracker }

def onWaitStartAt (b : DeadlineBudget) (now : ℕ) : DeadlineBudget :=
  (b.flushIdleWaitAt now).withTracker ((b.flushIdleWaitAt now).tracker.startWait now)

def onWaitEndAt (b : DeadlineBudget) (now : ℕ) : DeadlineBudget :=
  (b.flushIdleWaitAt now).withTracker (b.flushIdleWaitAt now).tracker.endWait

def onRequestStartAt (b : DeadlineBudget) (now : ℕ) : DeadlineBudget :=
  (b.flushIdleWaitAt now).withTracker (b.flushIdleWaitAt now).tracker.startRequest

/-- The one handler that does not flush first. -/
def onRequestEndAt (b : DeadlineBudget) (now : ℕ) : DeadlineBudget :=
  b.withTracker (b.tracker.endRequest now)

/-- The second credit, for the wait that was slept, after the flush. -/
def creditSlept (b : DeadlineBudget) (now slept : ℕ) : DeadlineBudget :=
  match b.tracker.uncreditedWait now slept with
  | some start =>
    ⟨b.deadline + (now - start), { b.tracker with lastCreditEnd := some now }⟩
  | none => b

def creditWaitAt (b : DeadlineBudget) (now slept : ℕ) : DeadlineBudget :=
  (b.flushIdleWaitAt now).creditSlept now slept

/-- `current_deadline_at`, which flushes what is pending. -/
def currentDeadlineAt (b : DeadlineBudget) (now : ℕ) : ℕ × DeadlineBudget :=
  ((b.flushIdleWaitAt now).deadline, b.flushIdleWaitAt now)

/-- `DeadlineBudget::new`. -/
def new (deadline : ℕ) : DeadlineBudget := ⟨deadline, ⟨0, 0, none, none, none⟩⟩

end DeadlineBudget

end Sashiko
