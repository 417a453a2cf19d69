import Mathlib.Algebra.BigOperators.Group.List.Basic
import Mathlib.Algebra.GroupWithZero.Nat
import Mathlib.Tactic.Common

/-! Lines filled with words as they come: a word goes on the line while it fits, with one place
between two words. No other division of the words has fewer lines, whatever the indents of the first
and of the further lines are. -/

namespace Sashiko

variable {α : Type}

section Fill

variable (size : α → ℕ) (width rest : ℕ)

/-- The places that the words take, with the indent before them and one place between two. -/
def lineSize (indent : ℕ) (ws : List α) : ℕ := indent + (ws.map size).sum + (ws.length - 1)

/-- The line is within the width, or has one word only. -/
def FitsLine (indent : ℕ) (ws : List α) : Prop :=
  lineSize size indent ws ≤ width ∨ ws.length = 1

def fillLines (indent : ℕ) (cur : List α) : List α → List (List α)
  | [] => [cur]
  | w :: ws =>
    if lineSize size indent (cur ++ [w]) ≤ width then fillLines indent (cur ++ [w]) ws
    else cur :: fillLines rest [w] ws

/-- The words of a text on lines. -/
def fillWords (indent : ℕ) : List α → List (List α)
  | [] => []
  | w :: ws => fillLines size width rest indent [w] ws

/-- A division into lines that fit, the first of them with an indent of its own. -/
def Divides (indent : ℕ) : List (List α) → List α → Prop
  | [], ws => ws = []
  | l :: ls, ws =>
    l ≠ [] ∧ FitsLine size width indent l ∧ ∃ ws', ws = l ++ ws' ∧ ls.flatten = ws' ∧
      ∀ l' ∈ ls, l' ≠ [] ∧ FitsLine size width rest l'

end Fill

variable {size : α → ℕ} {width rest indent : ℕ}

theorem lineSize_concat {ws : List α} (hne : ws ≠ []) (indent : ℕ) (w : α) :
    lineSize size indent (ws ++ [w]) = lineSize size indent ws + 1 + size w := by
  have hpos : 0 < ws.length := List.length_pos_iff.mpr hne
  unfold lineSize
  rw [List.map_append, List.sum_append, List.length_append, List.map_singleton,
    List.sum_singleton, List.length_singleton]
  omega

theorem lineSize_append_left (indent : ℕ) (pre ws : List α) :
    lineSize size indent ws ≤ lineSize size indent (pre ++ ws) := by
  unfold lineSize
  rw [List.map_append, List.sum_append, List.length_append]
  omega

theorem lineSize_append_right (indent : ℕ) (ws post : List α) :
    lineSize size indent ws ≤ lineSize size indent (ws ++ post) := by
  unfold lineSize
  rw [List.map_append, List.sum_append, List.length_append]
  omega

/-- What is behind the first word of a line fits a line of its own. -/
theorem FitsLine.tail {w : α} {ws : List α} (h : FitsLine size width indent (w :: ws))
    (hne : ws ≠ []) : FitsLine size width indent ws := by
  rcases h with h | h
  · exact .inl (Nat.le_trans (lineSize_append_left indent [w] ws) h)
  · exact absurd (List.eq_nil_of_length_eq_zero (Nat.succ.inj h)) hne

theorem flatten_fillLines (cur ws : List α) :
    (fillLines size width rest indent cur ws).flatten = cur ++ ws := by
  induction ws generalizing indent cur with
  | nil => rw [fillLines, List.flatten_singleton, List.append_nil]
  | cons w ws ih =>
    rw [fillLines]
    split_ifs
    · rw [ih, List.append_assoc, List.singleton_append]
    · rw [List.flatten_cons, ih, List.singleton_append]

theorem flatten_fillWords (ws : List α) :
    (fillWords size width rest indent ws).flatten = ws := by
  cases ws with
  | nil => rfl
  | cons w ws => exact flatten_fillLines [w] ws

theorem forall_fillLines {cur ws : List α} (hne : cur ≠ [])
    (hfits : FitsLine size width indent cur) :
    ∃ l ls, fillLines size width rest indent cur ws = l :: ls ∧ l ≠ [] ∧
      FitsLine size width indent l ∧ ∀ l' ∈ ls, l' ≠ [] ∧ FitsLine size width rest l' := by
  induction ws generalizing indent cur with
  | nil => exact ⟨cur, [], rfl, hne, hfits, nofun⟩
  | cons w ws ih =>
    rw [fillLines]
    split_ifs with hw
    · exact ih (List.append_ne_nil_of_right_ne_nil _ (List.cons_ne_nil _ _)) (.inl hw)
    · obtain ⟨l, ls, heq, hl, hlfits, hls⟩ :=
        @ih rest [w] (List.cons_ne_nil _ _) (.inr rfl)
      refine ⟨cur, _, rfl, hne, hfits, ?_⟩
      rw [heq]
      exact List.forall_mem_cons.mpr ⟨⟨hl, hlfits⟩, hls⟩

theorem divides_fillWords (ws : List α) :
    Divides size width rest indent (fillWords size width rest indent ws) ws := by
  cases ws with
  | nil => rfl
  | cons w ws =>
    obtain ⟨l, ls, heq, hl, hfits, hls⟩ :=
      @forall_fillLines α size width rest indent [w] ws (List.cons_ne_nil _ _) (.inr rfl)
    have hflat := @flatten_fillWords α size width rest indent (w :: ws)
    rw [fillWords, heq] at hflat ⊢
    exact ⟨hl, hfits, ls.flatten, hflat.symm, rfl, hls⟩

/-- The line that is being filled is never behind the one of another division: the other has at
least as many words before it. -/
theorem length_fillLines_le {cur pre now later : List α} {ls : List (List α)} (hne : cur ≠ [])
    (hfits : FitsLine size width indent (pre ++ cur ++ now)) (hflat : ls.flatten = later)
    (hls : ∀ l ∈ ls, l ≠ [] ∧ FitsLine size width rest l) :
    (fillLines size width rest indent cur (now ++ later)).length ≤ ls.length + 1 := by
  generalize hws : now ++ later = ws
  induction ws generalizing indent cur pre now later ls with
  | nil => exact Nat.succ_le_succ (Nat.zero_le _)
  | cons w ws ih =>
    have hcur : cur ++ [w] ≠ [] := List.append_ne_nil_of_right_ne_nil _ (List.cons_ne_nil _ _)
    rw [fillLines]
    cases now with
    | cons v now =>
      obtain ⟨rfl, hrest⟩ := List.cons.inj hws
      -- the other division has the word on the same line, so it fits here too
      have hsame : pre ++ cur ++ v :: now = pre ++ (cur ++ [v]) ++ now := by simp
      have hmany : (pre ++ cur ++ v :: now).length ≠ 1 := by
        have hpos : 0 < cur.length := List.length_pos_iff.mpr hne
        rw [List.length_append, List.length_append, List.length_cons]
        omega
      have hwidth := hfits.resolve_right hmany
      rw [hsame] at hwidth hfits
      have hw : lineSize size indent (cur ++ [v]) ≤ width :=
        Nat.le_trans (lineSize_append_left indent pre _)
          (Nat.le_trans (lineSize_append_right indent _ now) hwidth)
      rw [if_pos hw]
      exact ih hcur hfits hflat hls hrest
    | nil =>
      -- the other division starts a line with the word
      rw [List.nil_append] at hws
      rw [← hflat] at hws
      obtain ⟨l, ls, rfl⟩ : ∃ l ls', ls = l :: ls' := by
        cases ls with
        | nil => cases hws
        | cons l ls => exact ⟨l, ls, rfl⟩
      obtain ⟨⟨hl, hlfits⟩, htail⟩ := List.forall_mem_cons.mp hls
      obtain ⟨v, l, rfl⟩ := List.exists_cons_of_ne_nil hl
      rw [List.flatten_cons, List.cons_append] at hws
      obtain ⟨rfl, hrest⟩ := List.cons.inj hws
      have hline : lineSize size indent (cur ++ [v]) ≤ width →
          FitsLine size width indent ([] ++ (cur ++ [v]) ++ []) := fun hw => by
        rw [List.nil_append, List.append_nil]
        exact .inl hw
      split_ifs with hw
      · by_cases hlone : l = []
        · subst hlone
          exact Nat.le_succ_of_le (@ih indent (cur ++ [v]) [] [] _ ls hcur (hline hw) rfl htail hrest)
        · exact @ih indent (cur ++ [v]) [] [] _ (l :: ls) hcur (hline hw) rfl
            (List.forall_mem_cons.mpr ⟨⟨hlone, hlfits.tail hlone⟩, htail⟩) hrest
      · exact Nat.succ_le_succ
          (@ih rest [v] [] l _ ls (List.cons_ne_nil _ _) hlfits rfl htail hrest)

/-- Filling takes the fewest lines. -/
theorem length_fillWords_le {ws : List α} {ls : List (List α)}
    (h : Divides size width rest indent ls ws) :
    (fillWords size width rest indent ws).length ≤ ls.length := by
  cases ls with
  | nil =>
    obtain rfl : ws = [] := h
    exact Nat.le_refl _
  | cons l ls =>
    obtain ⟨hl, hfits, later, rfl, hflat, hls⟩ := h
    obtain ⟨w, now, rfl⟩ := List.exists_cons_of_ne_nil hl
    exact @length_fillLines_le α size width rest indent [w] [] now later ls (List.cons_ne_nil _ _)
      hfits hflat hls

end Sashiko
