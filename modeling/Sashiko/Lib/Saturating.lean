import Mathlib.Algebra.Order.BigOperators.Group.List
import Mathlib.Algebra.Order.Monoid.Canonical.Defs
import Mathlib.Tactic.Common

/-! Addition that saturates at a bound. A saturating fold is the clamped sum, so the
grouping of the additions does not matter. -/

namespace Sashiko

/-- `usize::MAX` on the 64-bit targets. -/
def usizeMax : ℕ := 2 ^ 64 - 1

variable {α : Type*} [AddCommMonoid α] [LinearOrder α]

def satAdd (top a b : α) : α := min (a + b) top

def satSum (top : α) (xs : List α) : α := xs.foldl (satAdd top) 0

theorem satAdd_le_top (top a b : α) : satAdd top a b ≤ top := min_le_right _ _

theorem satAdd_comm (top a b : α) : satAdd top a b = satAdd top b a := by
  rw [satAdd, satAdd, add_comm]

@[simp] theorem satSum_nil (top : α) : satSum top ([] : List α) = 0 := rfl

theorem satSum_concat (top : α) (xs : List α) (x : α) :
    satSum top (xs ++ [x]) = satAdd top (satSum top xs) x := by
  simp [satSum, List.foldl_append]

variable [CanonicallyOrderedAdd α]

theorem satAdd_min_left (top a b : α) : satAdd top (min a top) b = satAdd top a b := by
  unfold satAdd
  rcases le_total a top with h | h
  · rw [min_eq_left h]
  · rw [min_eq_right h, min_eq_right (h.trans le_self_add), min_eq_right le_self_add]

theorem satAdd_min_right (top a b : α) : satAdd top a (min b top) = satAdd top a b := by
  rw [satAdd_comm, satAdd_min_left, satAdd_comm]

theorem satAdd_assoc (top a b c : α) :
    satAdd top (satAdd top a b) c = satAdd top a (satAdd top b c) := by
  have h1 : satAdd top (satAdd top a b) c = satAdd top (a + b) c := satAdd_min_left top (a + b) c
  have h2 : satAdd top a (satAdd top b c) = satAdd top a (b + c) := satAdd_min_right top a (b + c)
  rw [h1, h2, satAdd, satAdd, add_assoc]

theorem foldl_satAdd (top : α) (xs : List α) (a : α) :
    xs.foldl (satAdd top) (min a top) = min (a + xs.sum) top := by
  induction xs generalizing a with
  | nil => simp
  | cons x xs ih =>
    rw [List.foldl_cons, satAdd_min_left, List.sum_cons, ← add_assoc]
    exact ih (a + x)

/-- Saturating on the way is clamping at the end. -/
theorem satSum_eq (top : α) (xs : List α) : satSum top xs = min xs.sum top := by
  have h := foldl_satAdd top xs 0
  rwa [min_eq_left zero_le, zero_add] at h

theorem satSum_append (top : α) (xs ys : List α) :
    satSum top (xs ++ ys) = satAdd top (satSum top xs) (satSum top ys) := by
  rw [satSum_eq, satSum_eq, satSum_eq, satAdd_min_left, satAdd_min_right, satAdd, List.sum_append]

theorem satSum_le_top (top : α) (xs : List α) : satSum top xs ≤ top := by
  rw [satSum_eq]
  exact min_le_right _ _

theorem satAdd_eq_left_iff [AddLeftStrictMono α] {top a b : α} (ha : a ≤ top) :
    satAdd top a b = a ↔ b = 0 ∨ a = top := by
  constructor
  · intro h
    rcases eq_or_lt_of_le ha with he | hlt
    · exact Or.inr he
    · left
      by_contra hb
      have hab : a < a + b := lt_add_of_pos_right a (pos_iff_ne_zero.mpr hb)
      exact absurd h (lt_min hab hlt).ne'
  · rintro (rfl | rfl)
    · simpa [satAdd] using ha
    · exact min_eq_right le_self_add

end Sashiko
