import Mathlib.Data.List.Nodup
import Sashiko.Lib.Sorting

/-! One stable sort after another, and when the result depends on the order before them. -/

namespace Sashiko

/-- A comparison that puts any two elements in order. -/
structure Ranks {α : Type} (le : α → α → Bool) : Prop where
  trans : ∀ a b c, le a b = true → le b c = true → le a c = true
  total : ∀ a b, (le a b || le b a) = true

section Twice

variable {α : Type} {le le' : α → α → Bool} {xs ys : List α} {a b : α}

/-- Sorted by the first, and what it does not tell apart by what the order was before. -/
def sortTwice (le le' : α → α → Bool) (xs : List α) : List α := (xs.mergeSort le).mergeSort le'

theorem sortTwice_perm (xs : List α) : (sortTwice le le' xs).Perm xs :=
  (List.mergeSort_perm _ _).trans (List.mergeSort_perm _ _)

theorem Ranks.le_of_not (h : Ranks le) (hba : ¬ le b a = true) : le a b = true := by
  have htotal := h.total a b
  rw [Bool.or_eq_true] at htotal
  exact htotal.resolve_right hba

theorem Ranks.refl (h : Ranks le) (a : α) : le a a = true := by
  have htotal := h.total a a
  rwa [Bool.or_self] at htotal

/-- A pair that comes in one order, in a sorted list. -/
theorem le_of_pair_sublist (h : xs.Pairwise (le · · = true)) (hpair : [a, b].Sublist xs) :
    le a b = true := by
  simpa using h.sublist hpair

/-- The first sort is kept where the second does not tell apart. -/
theorem pair_of_sortTwice (h : Ranks le) (h' : Ranks le') (hpair : [a, b].Sublist (sortTwice le le' xs))
    (htie : le' b a = true) : le' a b = true ∧ le a b = true := by
  have hab := le_of_pair_sublist (List.pairwise_mergeSort h'.trans h'.total _) hpair
  refine ⟨hab, ?_⟩
  -- The class of `a` under the second sort is as the first one left it.
  have hclass : (sortTwice le le' xs).filter (fun x => le' x a && le' a x) =
      (xs.mergeSort le).filter fun x => le' x a && le' a x := by
    refine filter_mergeSort h'.trans h'.total (fun x y hx hy => ?_) _
    rw [Bool.and_eq_true] at hx hy
    exact h'.trans x a y hx.1 hy.2
  have hkept := hpair.filter fun x => le' x a && le' a x
  rw [hclass, List.filter_cons_of_pos (by rw [h'.refl]; rfl),
    List.filter_cons_of_pos (by rw [hab, htie]; rfl), List.filter_nil] at hkept
  exact le_of_pair_sublist (List.pairwise_mergeSort h.trans h.total xs)
    (hkept.trans List.filter_sublist)

theorem pairwise_sortTwice (h : Ranks le) (h' : Ranks le') (xs : List α) :
    (sortTwice le le' xs).Pairwise fun a b =>
      le' a b = true ∧ (le' b a = true → le a b = true) := by
  rw [List.pairwise_iff_forall_sublist]
  intro a b hpair
  refine ⟨le_of_pair_sublist (List.pairwise_mergeSort h'.trans h'.total _) hpair, fun htie => ?_⟩
  exact (pair_of_sortTwice h h' hpair htie).2

/-- What neither sort tells apart stays as it was. -/
theorem pair_sortTwice (h : Ranks le) (h' : Ranks le') (hab : le a b = true) (hab' : le' a b = true)
    (hpair : [a, b].Sublist xs) : [a, b].Sublist (sortTwice le le' xs) :=
  List.pair_sublist_mergeSort h'.trans h'.total hab'
    (List.pair_sublist_mergeSort h.trans h.total hab hpair)

/-- Without ties the order before does not matter. -/
theorem sortTwice_congr (h : Ranks le) (h' : Ranks le') (hperm : xs.Perm ys)
    (hties : ∀ a ∈ xs, ∀ b ∈ xs, le a b = true → le b a = true → le' a b = true → le' b a = true →
      a = b) : sortTwice le le' xs = sortTwice le le' ys := by
  refine ((sortTwice_perm xs).trans (hperm.trans (sortTwice_perm ys).symm)).eq_of_pairwise
    (fun a b ha hb hab hba => ?_) (pairwise_sortTwice h h' xs) (pairwise_sortTwice h h' ys)
  have hmem := (sortTwice_perm xs).mem_iff.mp ha
  have hmem' := hperm.mem_iff.mpr ((sortTwice_perm ys).mem_iff.mp hb)
  exact hties a hmem b hmem' (hab.2 hba.1) (hba.2 hab.1) hab.1 hba.1

/-- What comes first and has none before it stays first. -/
theorem mergeSort_cons_of_least (h : Ranks le) (hleast : ∀ b ∈ xs, le a b = true) :
    (a :: xs).mergeSort le = a :: xs.mergeSort le := by
  obtain ⟨before, after, hcons, hrest, hlt⟩ := List.mergeSort_cons h.trans h.total a xs
  cases before with
  | nil => rw [hcons, hrest, List.nil_append, List.nil_append]
  | cons b before =>
    have hb : b ∈ xs := by
      have hmem : b ∈ xs.mergeSort le := hrest ▸ List.mem_append_left _ List.mem_cons_self
      exact List.mem_mergeSort.mp hmem
    have hnot := hlt b List.mem_cons_self
    rw [hleast b hb] at hnot
    cases hnot

/-- Without repetition, only one of two comes before the other. -/
theorem eq_of_pairs_sublist (h : xs.Nodup) (hab : [a, b].Sublist xs) (hba : [b, a].Sublist xs) :
    a = b := by
  induction xs with
  | nil => cases hab
  | cons x xs ih =>
    obtain ⟨hx, hrest⟩ := List.nodup_cons.mp h
    cases hab with
    | cons _ hab' =>
      cases hba with
      | cons _ hba' => exact ih hrest hab' hba'
      | cons_cons _ hba' =>
        exact absurd (hab'.subset (List.mem_cons_of_mem _ List.mem_cons_self)) hx
    | cons_cons _ hab' =>
      cases hba with
      | cons _ hba' => exact absurd (hba'.subset (List.mem_cons_of_mem _ List.mem_cons_self)) hx
      | cons_cons _ hba' => rfl

end Twice

end Sashiko
