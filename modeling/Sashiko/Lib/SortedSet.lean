import Mathlib.Data.List.Destutter
import Mathlib.Data.List.Sort
import Mathlib.Tactic.Common

/-! A list sorted by a rank and then rid of neighbours with one key. Where key and rank both tell
the entries apart this is the list of the distinct entries in the order of their ranks, which does
not depend on how the list was ordered or how often it held an entry. -/

namespace Sashiko

variable {α ρ κ : Type*} [LinearOrder ρ] [DecidableEq κ]

/-- `sort_by_key` -/
def sortByKey (rank : α → ρ) (xs : List α) : List α :=
  xs.mergeSort fun a b => decide (rank a ≤ rank b)

/-- `dedup_by_key`: of neighbours with one key only the first is left. -/
def dedupByKey (key : α → κ) (xs : List α) : List α := xs.destutter fun a b => key a ≠ key b

/-- Entries of one value under `f` are one entry. -/
def SeparatedBy {β : Type*} (f : α → β) (xs : List α) : Prop :=
  ∀ a ∈ xs, ∀ b ∈ xs, f a = f b → a = b

variable {rank : α → ρ} {key : α → κ} {xs : List α}

theorem mem_sortByKey {a : α} : a ∈ sortByKey rank xs ↔ a ∈ xs :=
  (List.mergeSort_perm xs _).mem_iff

theorem pairwise_sortByKey (rank : α → ρ) (xs : List α) :
    (sortByKey rank xs).Pairwise (rank · ≤ rank ·) := by
  have h : (sortByKey rank xs).Pairwise fun a b => decide (rank a ≤ rank b) = true :=
    List.pairwise_mergeSort (fun a b c hab hbc => by
      simp only [decide_eq_true_eq] at hab hbc ⊢
      exact hab.trans hbc)
      (fun a b => by simpa using le_total (rank a) (rank b)) xs
  exact h.imp of_decide_eq_true

/-- Entries that the rank tells apart are sorted into one list, however they come. -/
theorem sortByKey_perm {ys : List α} (hrank : SeparatedBy rank xs) (h : xs.Perm ys) :
    sortByKey rank xs = sortByKey rank ys := by
  have hperm : (sortByKey rank xs).Perm (sortByKey rank ys) :=
    ((List.mergeSort_perm xs _).trans h).trans (List.mergeSort_perm ys _).symm
  refine hperm.eq_of_pairwise (fun a b ha hb hab hba => ?_) (pairwise_sortByKey rank xs)
    (pairwise_sortByKey rank ys)
  exact hrank a (mem_sortByKey.mp ha) b (h.mem_iff.mpr (mem_sortByKey.mp hb)) (le_antisymm hab hba)

theorem mem_destutter'_key {a x : α} (hkey : SeparatedBy key (a :: xs)) (hx : x ∈ a :: xs) :
    x ∈ xs.destutter' (fun a b => key a ≠ key b) a := by
  induction xs generalizing a with
  | nil => exact hx
  | cons b xs ih =>
    by_cases h : key a ≠ key b
    · rw [List.destutter'_cons_pos (R := fun a b => key a ≠ key b) _ h]
      rcases List.mem_cons.mp hx with rfl | hx
      · exact List.mem_cons_self
      · refine List.mem_cons_of_mem _ (ih (fun c hc d hd => ?_) hx)
        exact hkey c (List.mem_cons_of_mem _ hc) d (List.mem_cons_of_mem _ hd)
    · obtain rfl : a = b := hkey a List.mem_cons_self b
        (List.mem_cons_of_mem _ List.mem_cons_self) (not_not.mp h)
      rw [List.destutter'_cons_neg (R := fun a b => key a ≠ key b) _ h]
      refine ih (fun c hc d hd => ?_) (List.mem_cons.mp hx |>.elim (· ▸ List.mem_cons_self) id)
      exact hkey c (List.mem_cons_of_mem _ hc) d (List.mem_cons_of_mem _ hd)

theorem mem_dedupByKey (hkey : SeparatedBy key xs) {x : α} : x ∈ dedupByKey key xs ↔ x ∈ xs := by
  refine ⟨fun hx => (List.destutter_sublist _ xs).subset hx, fun hx => ?_⟩
  cases xs with
  | nil => exact hx
  | cons a xs => exact mem_destutter'_key hkey hx

/-- The distinct entries in the order of their ranks. -/
def sortedSet (rank : α → ρ) (key : α → κ) (xs : List α) : List α :=
  dedupByKey key (sortByKey rank xs)

omit [DecidableEq κ] in
theorem SeparatedBy.sortByKey (hkey : SeparatedBy key xs) :
    SeparatedBy key (sortByKey rank xs) :=
  fun a ha b hb => hkey a (mem_sortByKey.mp ha) b (mem_sortByKey.mp hb)

theorem mem_sortedSet (hkey : SeparatedBy key xs) {x : α} :
    x ∈ sortedSet rank key xs ↔ x ∈ xs :=
  (mem_dedupByKey hkey.sortByKey).trans mem_sortByKey

/-- Where the rank decides the key, what is left of the sorted list ascends strictly. -/
theorem pairwise_sortedSet (hrank : ∀ a b, rank a = rank b → key a = key b) (xs : List α) :
    (sortedSet rank key xs).Pairwise (rank · < rank ·) := by
  have hle : (sortedSet rank key xs).Pairwise (rank · ≤ rank ·) :=
    (pairwise_sortByKey rank xs).sublist (List.destutter_sublist _ _)
  have hne : (sortedSet rank key xs).IsChain fun a b => key a ≠ key b :=
    List.isChain_destutter _ _
  have hlt : (sortedSet rank key xs).IsChain (rank · < rank ·) := by
    refine List.isChain_iff_getElem.mpr fun i hi => ?_
    have hi' := List.pairwise_iff_getElem.mp hle i (i + 1) (by omega) hi (by omega)
    exact lt_of_le_of_ne hi' fun hab => hne.getElem i hi (hrank _ _ hab)
  have : IsTrans α (rank · < rank ·) := ⟨fun _ _ _ => lt_trans⟩
  exact hlt.pairwise

/-- The distinct entries in order depend on what the list holds only. -/
theorem sortedSet_congr (hrank : ∀ a b, rank a = rank b → key a = key b) {ys : List α}
    (hkey : SeparatedBy key xs) (h : ∀ a, a ∈ ys ↔ a ∈ xs) :
    sortedSet rank key ys = sortedSet rank key xs := by
  have hkey' : SeparatedBy key ys :=
    fun a ha b hb => hkey a ((h a).mp ha) b ((h b).mp hb)
  have : Std.Asymm (α := α) (rank · < rank ·) := ⟨fun _ _ => lt_asymm⟩
  have : Std.Irrefl (α := α) (rank · < rank ·) := ⟨fun _ => lt_irrefl _⟩
  refine (pairwise_sortedSet hrank ys).eq_of_mem_iff (pairwise_sortedSet hrank xs) fun {a} => ?_
  rw [mem_sortedSet hkey', mem_sortedSet hkey, h]

end Sashiko
