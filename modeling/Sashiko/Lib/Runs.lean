import Mathlib.Data.List.Basic
import Mathlib.Data.List.Induction
import Mathlib.Tactic.Common

/-! The maximal runs of consecutive numbers in a list, read from either end. -/

namespace Sashiko

/-- A number lengthens the last run when it follows on it, and starts a new one otherwise. -/
def pushRun (runs : List (ℕ × ℕ)) (n : ℕ) : List (ℕ × ℕ) :=
  match runs.getLast? with
  | some (a, b) => if b + 1 = n then runs.dropLast ++ [(a, n)] else runs ++ [(n, n)]
  | none => [(n, n)]

def maximalRuns : List ℕ → List (ℕ × ℕ)
  | [] => []
  | n :: ns =>
    match maximalRuns ns with
    | (a, b) :: runs => if n + 1 = a then (n, b) :: runs else (n, n) :: (a, b) :: runs
    | [] => [(n, n)]

/-- The numbers from the first to the last of a run. -/
def runNumbers (run : ℕ × ℕ) : List ℕ := List.range' run.1 (run.2 + 1 - run.1)

theorem pushRun_nil (n : ℕ) : pushRun [] n = [(n, n)] := rfl

theorem pushRun_concat (runs : List (ℕ × ℕ)) (a b n : ℕ) :
    pushRun (runs ++ [(a, b)]) n =
      if b + 1 = n then runs ++ [(a, n)] else runs ++ [(a, b), (n, n)] := by
  simp [pushRun]

theorem pushRun_cons {runs : List (ℕ × ℕ)} (h : runs ≠ []) (r : ℕ × ℕ) (n : ℕ) :
    pushRun (r :: runs) n = r :: pushRun runs n := by
  obtain ⟨init, ⟨a, b⟩, rfl⟩ := (List.eq_nil_or_concat' runs).resolve_left h
  rw [← List.cons_append, pushRun_concat, pushRun_concat]
  split_ifs <;> rfl

theorem maximalRuns_ne_nil (n : ℕ) (ns : List ℕ) : maximalRuns (n :: ns) ≠ [] := by
  unfold maximalRuns
  split
  · split_ifs <;> exact List.cons_ne_nil _ _
  · exact List.cons_ne_nil _ _

theorem maximalRuns_concat (ns : List ℕ) (n : ℕ) :
    maximalRuns (ns ++ [n]) = pushRun (maximalRuns ns) n := by
  induction ns with
  | nil => rfl
  | cons m ns ih =>
    rw [List.cons_append, maximalRuns, ih, maximalRuns]
    cases hruns : maximalRuns ns with
    | nil =>
      rw [pushRun_nil]
      by_cases h : m + 1 = n
      · simp [h, pushRun]
      · simp [h, pushRun]
    | cons r runs =>
      obtain ⟨a, b⟩ := r
      cases runs with
      | nil =>
        by_cases hb : b + 1 = n
        · by_cases ha : m + 1 = a <;> simp [pushRun, hb, ha]
        · by_cases ha : m + 1 = a <;> simp [pushRun, hb, ha]
      | cons r runs =>
        rw [pushRun_cons (List.cons_ne_nil _ _)]
        by_cases ha : m + 1 = a
        · simp only [ha, if_true]
          rw [pushRun_cons (List.cons_ne_nil _ _)]
        · simp only [ha, if_false]
          rw [pushRun_cons (List.cons_ne_nil _ _), pushRun_cons (List.cons_ne_nil _ _)]

theorem foldl_pushRun (ns : List ℕ) : ns.foldl pushRun [] = maximalRuns ns := by
  induction ns using List.reverseRecOn with
  | nil => rfl
  | append_singleton ns n ih => rw [List.foldl_append, ih, maximalRuns_concat]; rfl

/-! ### What the runs are -/

theorem le_of_mem_maximalRuns {ns : List ℕ} {run : ℕ × ℕ} (h : run ∈ maximalRuns ns) :
    run.1 ≤ run.2 := by
  induction ns generalizing run with
  | nil => cases h
  | cons n ns ih =>
    unfold maximalRuns at h
    split at h
    · rename_i a b runs hruns
      have hab : a ≤ b := ih (hruns ▸ List.mem_cons_self)
      split_ifs at h with hnext
      · rcases List.mem_cons.mp h with rfl | h
        · change n ≤ b
          omega
        · exact ih (hruns ▸ List.mem_cons_of_mem _ h)
      · rcases List.mem_cons.mp h with rfl | h
        · exact Nat.le_refl n
        · exact ih (hruns ▸ h)
    · obtain rfl := List.mem_singleton.mp h
      exact Nat.le_refl n

/-- Read off one after the other, the runs give the list back. -/
theorem flatMap_runNumbers (ns : List ℕ) : (maximalRuns ns).flatMap runNumbers = ns := by
  induction ns with
  | nil => rfl
  | cons n ns ih =>
    unfold maximalRuns
    split
    · rename_i a b runs hruns
      rw [hruns, List.flatMap_cons] at ih
      have hab : a ≤ b := le_of_mem_maximalRuns (hruns ▸ List.mem_cons_self)
      split_ifs with hnext
      · have hrun : runNumbers (n, b) = n :: runNumbers (a, b) := by
          have hlen : b + 1 - n = b + 1 - a + 1 := by omega
          rw [runNumbers, runNumbers, hlen, List.range'_succ, hnext]
        rw [List.flatMap_cons, hrun, List.cons_append, ih]
      · rw [List.flatMap_cons, List.flatMap_cons, ih]
        simp [runNumbers]
    · rename_i hruns
      rw [hruns] at ih
      rw [← ih]
      simp [runNumbers]

/-- The ends of a run are numbers of the list. -/
theorem mem_of_mem_maximalRuns {ns : List ℕ} {run : ℕ × ℕ} (h : run ∈ maximalRuns ns) :
    run.1 ∈ ns ∧ run.2 ∈ ns := by
  have hle := le_of_mem_maximalRuns h
  rw [← flatMap_runNumbers ns]
  constructor <;> refine List.mem_flatMap.mpr ⟨run, h, List.mem_range'_1.mpr ?_⟩ <;> omega

/-- No run goes on in the next one. -/
theorem isChain_maximalRuns (ns : List ℕ) :
    (maximalRuns ns).IsChain fun run next => run.2 + 1 ≠ next.1 := by
  induction ns with
  | nil => exact .nil
  | cons n ns ih =>
    unfold maximalRuns
    split
    · rename_i a b runs hruns
      rw [hruns] at ih
      split_ifs with hnext
      · cases runs with
        | nil => exact .singleton _
        | cons next runs =>
          rw [List.isChain_cons_cons] at ih ⊢
          exact ih
      · exact List.isChain_cons_cons.mpr ⟨hnext, ih⟩
    · exact .singleton _

end Sashiko
