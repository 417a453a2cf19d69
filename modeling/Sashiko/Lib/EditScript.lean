import Mathlib.Data.List.Induction
import Mathlib.Tactic.Common

/-! Edit scripts between two lists, and the longest common subsequence that bounds how much of the
lists a script can keep. -/

namespace Sashiko

variable {α : Type}

/-- One line of a script: an entry kept, taken out or put in. -/
inductive EditOp (α : Type) where
  | equal (x : α)
  | remove (x : α)
  | add (x : α)
deriving Repr, DecidableEq

namespace EditOp

def source? : EditOp α → Option α
  | equal x | remove x => some x
  | add _ => none

def target? : EditOp α → Option α
  | equal x | add x => some x
  | remove _ => none

def isChange : EditOp α → Bool
  | equal _ => false
  | remove _ | add _ => true

end EditOp

abbrev EditScript (α : Type) := List (EditOp α)

namespace EditScript

/-- The list a script is applied to. -/
def source (script : EditScript α) : List α := script.filterMap EditOp.source?

/-- The list a script produces. -/
def target (script : EditScript α) : List α := script.filterMap EditOp.target?

def changes (script : EditScript α) : EditScript α := script.filter EditOp.isChange

def kept (script : EditScript α) : ℕ := script.countP fun op => !op.isChange

/-- No script between the same two lists has fewer changes. -/
def Minimal (script : EditScript α) : Prop :=
  ∀ other : EditScript α, other.source = script.source → other.target = script.target →
    script.changes.length ≤ other.changes.length

/-! ### One operation more -/

section Cons
variable (x : α) (script : EditScript α)

@[simp] theorem source_equal : source (.equal x :: script) = x :: source script := rfl
@[simp] theorem source_remove : source (.remove x :: script) = x :: source script := rfl
@[simp] theorem source_add : source (.add x :: script) = source script := rfl
@[simp] theorem target_equal : target (.equal x :: script) = x :: target script := rfl
@[simp] theorem target_remove : target (.remove x :: script) = target script := rfl
@[simp] theorem target_add : target (.add x :: script) = x :: target script := rfl
@[simp] theorem changes_equal : changes (.equal x :: script) = changes script := rfl
@[simp] theorem changes_remove :
    changes (.remove x :: script) = .remove x :: changes script := rfl
@[simp] theorem changes_add : changes (.add x :: script) = .add x :: changes script := rfl
@[simp] theorem kept_equal : kept (.equal x :: script) = kept script + 1 :=
  List.countP_cons_of_pos rfl
@[simp] theorem kept_remove : kept (.remove x :: script) = kept script :=
  List.countP_cons_of_neg (by simp [EditOp.isChange])
@[simp] theorem kept_add : kept (.add x :: script) = kept script :=
  List.countP_cons_of_neg (by simp [EditOp.isChange])

end Cons

/-! ### Scripts one after the other -/

section Append
variable (first second : EditScript α)

@[simp] theorem source_append : source (first ++ second) = source first ++ source second :=
  List.filterMap_append

@[simp] theorem target_append : target (first ++ second) = target first ++ target second :=
  List.filterMap_append

@[simp] theorem changes_append : changes (first ++ second) = changes first ++ changes second :=
  List.filter_append ..

@[simp] theorem kept_append : kept (first ++ second) = kept first + kept second :=
  List.countP_append

end Append

/-- A block of lines that a script keeps. -/
theorem equals_spec (xs : List α) :
    source (xs.map .equal) = xs ∧ target (xs.map .equal) = xs ∧ changes (xs.map .equal) = [] ∧
      kept (xs.map .equal) = xs.length := by
  induction xs with
  | nil => exact ⟨rfl, rfl, rfl, rfl⟩
  | cons x xs ih =>
    obtain ⟨hsource, htarget, hchanges, hkept⟩ := ih
    simp [hsource, htarget, hchanges, hkept]

theorem removes_spec (xs : List α) :
    source (xs.map .remove) = xs ∧ target (xs.map .remove) = [] ∧ kept (xs.map .remove) = 0 := by
  induction xs with
  | nil => exact ⟨rfl, rfl, rfl⟩
  | cons x xs ih =>
    obtain ⟨hsource, htarget, hkept⟩ := ih
    simp [hsource, htarget, hkept]

theorem adds_spec (xs : List α) :
    source (xs.map .add) = [] ∧ target (xs.map .add) = xs ∧ kept (xs.map .add) = 0 := by
  induction xs with
  | nil => exact ⟨rfl, rfl, rfl⟩
  | cons x xs ih =>
    obtain ⟨hsource, htarget, hkept⟩ := ih
    simp [hsource, htarget, hkept]

/-! ### What the changes say about the two lists -/

/-- Every change is an entry of a list, and every kept entry is one of both. -/
theorem length_changes (script : EditScript α) :
    script.changes.length + 2 * script.kept = script.source.length + script.target.length := by
  induction script with
  | nil => rfl
  | cons op script ih =>
    cases op with
    | equal x =>
      simp only [changes_equal, kept_equal, source_equal, target_equal, List.length_cons]
      omega
    | remove x =>
      simp only [changes_remove, kept_remove, source_remove, target_remove, List.length_cons]
      omega
    | add x =>
      simp only [changes_add, kept_add, source_add, target_add, List.length_cons]
      omega

/-- A script without a change is one of a list to itself. -/
theorem source_eq_target {script : EditScript α} (h : script.changes = []) :
    script.source = script.target := by
  induction script with
  | nil => rfl
  | cons op script ih =>
    cases op with
    | equal x => rw [source_equal, target_equal, ih h]
    | remove x => cases h
    | add x => cases h

/-- Between the two lists an entry gains the times a script adds it, less those it takes it out. -/
theorem count_changes [DecidableEq α] [BEq α] [LawfulBEq α] (script : EditScript α) (x : α) :
    script.changes.count (.remove x) + script.target.count x =
      script.changes.count (.add x) + script.source.count x := by
  induction script with
  | nil => rfl
  | cons op script ih =>
    cases op with
    | equal y =>
      simp only [changes_equal, source_equal, target_equal, List.count_cons]
      omega
    | remove y =>
      simp only [changes_remove, source_remove, target_remove, List.count_cons, beq_iff_eq,
        EditOp.remove.injEq, reduceCtorEq, if_false]
      omega
    | add y =>
      simp only [changes_add, source_add, target_add, List.count_cons, beq_iff_eq,
        EditOp.add.injEq, reduceCtorEq, if_false]
      omega

end EditScript

/-! ### The longest common subsequence -/

variable [DecidableEq α]

/-- The length of a longest common subsequence. -/
def lcs : List α → List α → ℕ
  | [], _ => 0
  | _ :: _, [] => 0
  | x :: xs, y :: ys =>
    max (max (lcs xs (y :: ys)) (lcs (x :: xs) ys)) (if x = y then lcs xs ys + 1 else 0)
termination_by xs ys => xs.length + ys.length

@[simp] theorem lcs_nil_left (ys : List α) : lcs [] ys = 0 := by rw [lcs]

@[simp] theorem lcs_nil_right (xs : List α) : lcs xs [] = 0 := by cases xs <;> rw [lcs]

theorem lcs_cons (x y : α) (xs ys : List α) :
    lcs (x :: xs) (y :: ys) =
      max (max (lcs xs (y :: ys)) (lcs (x :: xs) ys)) (if x = y then lcs xs ys + 1 else 0) := by
  rw [lcs]

theorem lcs_le_cons_left (x : α) (xs ys : List α) : lcs xs ys ≤ lcs (x :: xs) ys := by
  cases ys with
  | nil => simp
  | cons y ys =>
    rw [lcs_cons]
    omega

theorem lcs_le_cons_right (y : α) (xs ys : List α) : lcs xs ys ≤ lcs xs (y :: ys) := by
  cases xs with
  | nil => simp
  | cons x xs =>
    rw [lcs_cons]
    omega

/-- One more entry on the left makes the subsequence longer by one at most. -/
theorem lcs_cons_left_le (x : α) (xs ys : List α) : lcs (x :: xs) ys ≤ lcs xs ys + 1 := by
  induction ys with
  | nil => simp
  | cons y ys ih =>
    have hmono := lcs_le_cons_right y xs ys
    rw [lcs_cons]
    split_ifs <;> omega

theorem lcs_cons_right_le (y : α) (xs ys : List α) : lcs xs (y :: ys) ≤ lcs xs ys + 1 := by
  induction xs with
  | nil => simp
  | cons x xs ih =>
    have hmono := lcs_le_cons_left x xs ys
    rw [lcs_cons]
    split_ifs <;> omega

/-- Equal first entries are always worth keeping. -/
theorem lcs_cons_self (x : α) (xs ys : List α) : lcs (x :: xs) (x :: ys) = lcs xs ys + 1 := by
  have hleft := lcs_cons_right_le x xs ys
  have hright := lcs_cons_left_le x xs ys
  rw [lcs_cons, if_pos rfl]
  omega

theorem lcs_cons_of_ne {x y : α} (h : x ≠ y) (xs ys : List α) :
    lcs (x :: xs) (y :: ys) = max (lcs xs (y :: ys)) (lcs (x :: xs) ys) := by
  rw [lcs_cons, if_neg h, Nat.max_zero]

theorem lcs_append_left (common xs ys : List α) :
    lcs (common ++ xs) (common ++ ys) = common.length + lcs xs ys := by
  induction common with
  | nil => simp
  | cons x common ih =>
    rw [List.cons_append, List.cons_append, lcs_cons_self, ih, List.length_cons]
    omega

theorem lcs_singleton_left_le (x : α) (ys : List α) : lcs [x] ys ≤ 1 := by
  have h := lcs_cons_left_le x [] ys
  rwa [lcs_nil_left] at h

theorem lcs_singleton_right_le (xs : List α) (y : α) : lcs xs [y] ≤ 1 := by
  have h := lcs_cons_right_le y xs []
  rwa [lcs_nil_right] at h

theorem lcs_concat_le (z : α) (xs ys : List α) :
    lcs (xs ++ [z]) (ys ++ [z]) ≤ lcs xs ys + 1 := by
  induction xs generalizing ys with
  | nil =>
    have h := lcs_singleton_left_le z (ys ++ [z])
    rw [List.nil_append]
    omega
  | cons x xs ih =>
    induction ys with
    | nil =>
      have h := lcs_singleton_right_le (x :: xs ++ [z]) z
      rw [List.nil_append]
      omega
    | cons y ys ihy =>
      have hleft := ih (y :: ys)
      have hboth := ih ys
      simp only [List.cons_append] at hleft ihy ⊢
      rw [lcs_cons, lcs_cons x y xs ys]
      split_ifs <;> omega

theorem lcs_append_right_le (xs ys common : List α) :
    lcs (xs ++ common) (ys ++ common) ≤ lcs xs ys + common.length := by
  induction common using List.reverseRecOn with
  | nil => simp
  | append_singleton common z ih =>
    have h := lcs_concat_le z (xs ++ common) (ys ++ common)
    rw [← List.append_assoc, ← List.append_assoc, List.length_append, List.length_singleton]
    omega

namespace EditScript

/-- What a script keeps is a common subsequence. -/
theorem kept_le_lcs (script : EditScript α) : script.kept ≤ lcs script.source script.target := by
  induction script with
  | nil => exact Nat.zero_le _
  | cons op script ih =>
    cases op with
    | equal x =>
      rw [kept_equal, source_equal, target_equal, lcs_cons_self]
      omega
    | remove x => exact Nat.le_trans ih (lcs_le_cons_left x _ _)
    | add x => exact Nat.le_trans ih (lcs_le_cons_right x _ _)

/-- A script that keeps a longest common subsequence has the fewest changes. -/
theorem minimal_of_lcs_le {script : EditScript α}
    (h : lcs script.source script.target ≤ script.kept) : script.Minimal := by
  intro other hsource htarget
  have hkept := kept_le_lcs other
  have hlen := length_changes other
  have hlen' := length_changes script
  rw [hsource, htarget] at hkept hlen
  omega

/-- Lines that two lists share at their beginnings and ends can be left out of the search. -/
theorem minimal_between {common rest : List α} {script : EditScript α}
    (h : lcs script.source script.target ≤ script.kept) :
    Minimal (common.map .equal ++ script ++ rest.map .equal) := by
  refine minimal_of_lcs_le ?_
  have hrest := lcs_append_right_le (common ++ script.source) (common ++ script.target) rest
  rw [lcs_append_left] at hrest
  obtain ⟨hsource, htarget, -, hkept⟩ := equals_spec common
  obtain ⟨hsource', htarget', -, hkept'⟩ := equals_spec rest
  simp only [source_append, target_append, kept_append, hsource, htarget, hkept, hsource',
    htarget', hkept']
  omega

end EditScript

end Sashiko
