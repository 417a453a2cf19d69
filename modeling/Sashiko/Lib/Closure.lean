import Mathlib.Data.Finset.Card
import Mathlib.Data.Finset.Dedup
import Mathlib.Data.List.Lattice
import Mathlib.Logic.Relation
import Mathlib.Tactic.Common

/-! Closing a finite set under a step, in rounds: what `WITH RECURSIVE … UNION` computes. -/

namespace Sashiko

open Relation

variable {α : Type*} [DecidableEq α]

/-- `found` and what `n` rounds of `next` reach from it. -/
def closure (next : α → List α) : ℕ → List α → List α
  | 0, found => found
  | n + 1, found => closure next n (found ∪ found.flatMap next)

def ClosedUnder (next : α → List α) (found : List α) : Prop :=
  ∀ a ∈ found, next a ⊆ found

variable {next : α → List α}

theorem mem_round {found : List α} {x : α} :
    x ∈ found ∪ found.flatMap next ↔ x ∈ found ∨ ∃ a ∈ found, x ∈ next a := by
  rw [List.mem_union_iff, List.mem_flatMap]

theorem reached_of_mem_closure {x : α} (n : ℕ) : ∀ found : List α, x ∈ closure next n found →
    ∃ a ∈ found, ReflTransGen (fun a b => b ∈ next a) a x := by
  induction n with
  | zero => exact fun found hx => ⟨x, hx, .refl⟩
  | succ n ih =>
    intro found hx
    obtain ⟨a, ha, hax⟩ := ih _ hx
    rcases mem_round.mp ha with ha | ⟨b, hb, hba⟩
    · exact ⟨a, ha, hax⟩
    · exact ⟨b, hb, .head hba hax⟩

theorem subset_closure (n : ℕ) : ∀ found : List α, found ⊆ closure next n found := by
  induction n with
  | zero => exact fun found => List.Subset.refl found
  | succ n ih => exact fun found x hx => ih _ (mem_round.mpr (.inl hx))

theorem ClosedUnder.round {found : List α} (h : ClosedUnder next found) :
    ClosedUnder next (found ∪ found.flatMap next) := by
  have hsub : ∀ x ∈ found ∪ found.flatMap next, x ∈ found := by
    intro x hx
    rcases mem_round.mp hx with hx | ⟨a, ha, hax⟩
    · exact hx
    · exact h a ha hax
  exact fun x hx y hy => mem_round.mpr (.inl (h x (hsub x hx) hy))

theorem ClosedUnder.closure {found : List α} (h : ClosedUnder next found) (n : ℕ) :
    ClosedUnder next (closure next n found) := by
  induction n generalizing found with
  | zero => exact h
  | succ n ih => exact ih h.round

/-- A set that one round does not close is larger after it. -/
theorem card_lt_round {found : List α} (h : ¬ClosedUnder next found) :
    found.toFinset.card < (found ∪ found.flatMap next).toFinset.card := by
  apply Finset.card_lt_card
  rw [Finset.ssubset_iff_of_subset]
  · simp only [ClosedUnder, not_forall] at h
    obtain ⟨a, ha, hnext⟩ := h
    obtain ⟨x, hx, hnot⟩ := Set.not_subset.mp hnext
    exact ⟨x, List.mem_toFinset.mpr (mem_round.mpr (.inr ⟨a, ha, hx⟩)),
      fun hmem => hnot (List.mem_toFinset.mp hmem)⟩
  · exact fun x hx => List.mem_toFinset.mpr (mem_round.mpr (.inl (List.mem_toFinset.mp hx)))

/-- As many rounds as there are elements close any subset of a universe. -/
theorem closedUnder_closure {univ : List α} (huniv : ClosedUnder next univ) (n : ℕ) :
    ∀ found : List α, found ⊆ univ → univ.toFinset.card ≤ found.toFinset.card + n →
      ClosedUnder next (closure next n found) := by
  induction n with
  | zero =>
    intro found hsub hcard a ha x hx
    have heq : found.toFinset = univ.toFinset :=
      Finset.eq_of_subset_of_card_le
        (fun y hy => List.mem_toFinset.mpr (hsub (List.mem_toFinset.mp hy))) (by omega)
    have hmem : x ∈ univ.toFinset := List.mem_toFinset.mpr (huniv a (hsub ha) hx)
    exact List.mem_toFinset.mp (heq ▸ hmem)
  | succ n ih =>
    intro found hsub hcard
    by_cases hclosed : ClosedUnder next found
    · exact hclosed.closure (n + 1)
    · have hlt := card_lt_round hclosed
      refine ih _ ?_ (by omega)
      intro x hx
      rcases mem_round.mp hx with hx | ⟨a, ha, hax⟩
      · exact hsub hx
      · exact huniv a (hsub ha) hax

theorem mem_closure_iff {univ found : List α} (huniv : ClosedUnder next univ)
    (hfound : found ⊆ univ) {x : α} :
    x ∈ closure next univ.length found ↔
      ∃ a ∈ found, ReflTransGen (fun a b => b ∈ next a) a x := by
  refine ⟨reached_of_mem_closure univ.length found, ?_⟩
  rintro ⟨a, ha, hax⟩
  have hclosed := closedUnder_closure huniv univ.length found hfound
    (univ.toFinset_card_le.trans (Nat.le_add_left _ _))
  induction hax with
  | refl => exact subset_closure _ _ ha
  | tail _ hstep ih => exact hclosed _ ih hstep

end Sashiko
