import Mathlib.Data.List.Basic
import Mathlib.Tactic.Common

/-! Runs of guarded steps: a run is over as soon as one of its steps is not enabled. -/

namespace Sashiko

variable {σ ι : Type}

def runGuarded (step : σ → ι → Option σ) (s : σ) (acts : List ι) : Option σ := acts.foldlM step s

section Runs

variable {step : σ → ι → Option σ}

theorem runGuarded_nil (s : σ) : runGuarded step s [] = some s := rfl

theorem runGuarded_cons {s s' : σ} {act : ι} {acts : List ι} :
    runGuarded step s (act :: acts) = some s' ↔
      ∃ s₁, step s act = some s₁ ∧ runGuarded step s₁ acts = some s' := by
  rw [runGuarded, List.foldlM_cons]
  exact Option.bind_eq_some_iff

theorem runGuarded_append {s s' : σ} {acts acts' : List ι} :
    runGuarded step s (acts ++ acts') = some s' ↔
      ∃ s₁, runGuarded step s acts = some s₁ ∧ runGuarded step s₁ acts' = some s' := by
  rw [runGuarded, List.foldlM_append]
  exact Option.bind_eq_some_iff

/-- What the steps of a run preserve holds at its end. -/
theorem runGuarded_invariant {P : σ → Prop} {acts : List ι}
    (hstep : ∀ s act s', act ∈ acts → P s → step s act = some s' → P s') :
    ∀ {s s' : σ}, P s → runGuarded step s acts = some s' → P s' := by
  induction acts with
  | nil =>
    intro s s' hs hrun
    cases hrun
    exact hs
  | cons act acts ih =>
    intro s s' hs hrun
    obtain ⟨s₁, hact, hacts⟩ := runGuarded_cons.mp hrun
    exact ih (fun s a s' ha => hstep s a s' (List.mem_cons_of_mem _ ha))
      (hstep s act s₁ List.mem_cons_self hs hact) hacts

end Runs

end Sashiko
