import Mathlib.Data.Prod.Lex
import Sashiko.Lib.SortedSet

/-! The value of the last entry that has one, in a list sorted by a rank. -/

namespace Sashiko

variable {α ρ β : Type*} [LinearOrder ρ] (rank : α → ρ) (f : α → Option β)

def latest (xs : List α) : Option β := (sortByKey rank xs).reverse.findSome? f

variable {rank f} {xs : List α} {a : α} {v : β}

theorem latest_eq_none_iff : latest rank f xs = none ↔ ∀ a ∈ xs, f a = none := by
  rw [latest, List.findSome?_eq_none_iff]
  simp only [List.mem_reverse, mem_sortByKey]

/-- Where a value comes from: no entry with one is ranked above. -/
theorem exists_of_latest (h : latest rank f xs = some v) :
    ∃ a ∈ xs, f a = some v ∧ ∀ b ∈ xs, (f b).isSome → rank b ≤ rank a := by
  obtain ⟨above, a, below, hsplit, hv, habove⟩ := List.findSome?_eq_some_iff.mp h
  have hsorted : (above ++ a :: below).Pairwise fun x y => rank y ≤ rank x :=
    hsplit ▸ List.pairwise_reverse.mpr (pairwise_sortByKey rank xs)
  have hmem : ∀ b, b ∈ xs ↔ b ∈ above ++ a :: below := fun b => by
    rw [← hsplit, List.mem_reverse, mem_sortByKey]
  refine ⟨a, (hmem a).mpr (List.mem_append_right _ List.mem_cons_self), hv, fun b hb hsome => ?_⟩
  rcases List.mem_append.mp ((hmem b).mp hb) with hb | hb
  · rw [habove b hb] at hsome
    cases hsome
  · rcases List.mem_cons.mp hb with rfl | hb
    · exact le_rfl
    · exact List.rel_of_pairwise_cons (List.pairwise_append.mp hsorted).2.1 hb

/-- An entry ranked above all others with a value gives its own. -/
theorem latest_append_newest (hv : f a = some v)
    (hnewest : ∀ b ∈ xs, (f b).isSome → rank b < rank a) : latest rank f (xs ++ [a]) = some v := by
  cases hlatest : latest rank f (xs ++ [a]) with
  | none =>
    have h := latest_eq_none_iff.mp hlatest a (by simp)
    rw [hv] at h
    cases h
  | some w =>
    obtain ⟨b, hb, hw, hmax⟩ := exists_of_latest hlatest
    have hle := hmax a (by simp) (by simp [hv])
    rcases List.mem_append.mp hb with hb | hb
    · exact absurd (hnewest b hb (by simp [hw])) (not_lt.mpr hle)
    · rw [List.mem_singleton.mp hb, hv] at hw
      exact hw.symm

theorem latest_eq_some_iff (hrank : SeparatedBy rank xs) :
    latest rank f xs = some v ↔
      ∃ a ∈ xs, f a = some v ∧ ∀ b ∈ xs, (f b).isSome → rank b ≤ rank a := by
  refine ⟨exists_of_latest, fun ⟨a, ha, hv, hmax⟩ => ?_⟩
  cases hlatest : latest rank f xs with
  | none =>
    rw [latest_eq_none_iff.mp hlatest a ha] at hv
    cases hv
  | some w =>
    obtain ⟨b, hb, hw, hmax'⟩ := exists_of_latest hlatest
    have hab : a = b := hrank a ha b hb
      (le_antisymm (hmax' a ha (by simp [hv])) (hmax b hb (by simp [hw])))
    rw [← hw, ← hab, hv]

/-- An entry without a value changes nothing. -/
theorem latest_append_of_none (hrank : SeparatedBy rank (xs ++ [a])) (ha : f a = none) :
    latest rank f (xs ++ [a]) = latest rank f xs := by
  have hxs : SeparatedBy rank xs := fun b hb c hc =>
    hrank b (List.mem_append_left _ hb) c (List.mem_append_left _ hc)
  refine Option.ext fun v => ?_
  rw [latest_eq_some_iff hrank, latest_eq_some_iff hxs]
  constructor
  · rintro ⟨b, hb, hv, hmax⟩
    rcases List.mem_append.mp hb with hb | hb
    · exact ⟨b, hb, hv, fun c hc => hmax c (List.mem_append_left _ hc)⟩
    · rw [List.mem_singleton.mp hb, ha] at hv
      cases hv
  · rintro ⟨b, hb, hv, hmax⟩
    refine ⟨b, List.mem_append_left _ hb, hv, fun c hc hsome => ?_⟩
    rcases List.mem_append.mp hc with hc | hc
    · exact hmax c hc hsome
    · rw [List.mem_singleton.mp hc, ha] at hsome
      cases hsome

end Sashiko
