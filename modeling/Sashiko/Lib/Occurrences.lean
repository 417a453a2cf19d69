import Mathlib.Data.List.Infix
import Mathlib.Tactic.Common

/-! Where a pattern begins in a list: the first place, how many there are, and the replacement of
the first one. -/

namespace Sashiko

variable {α : Type} [DecidableEq α] {p r pre rest xs ys : List α} {c : α}

/-- `str::replacen` for one replacement of a pattern that is not empty. -/
def replaceOnce (p r : List α) : List α → List α
  | [] => []
  | c :: cs =>
    if p.isPrefixOf (c :: cs) then r ++ (c :: cs).drop p.length else c :: replaceOnce p r cs

/-- `str::find`, counted in characters. -/
def firstAt (p : List α) : List α → Option ℕ
  | [] => none
  | c :: cs => if p.isPrefixOf (c :: cs) then some 0 else (firstAt p cs).map (· + 1)

/-- At how many places the pattern begins. -/
def occurrences (p : List α) : List α → ℕ
  | [] => 0
  | c :: cs => (if p.isPrefixOf (c :: cs) then 1 else 0) + occurrences p cs

omit [DecidableEq α] in
/-- The pattern does not begin within `pre`. -/
def NoStart (p pre rest : List α) : Prop := ∀ v, v <:+ pre → v ≠ [] → ¬p <+: v ++ rest

section NoStart

omit [DecidableEq α]

theorem noStart_nil : NoStart p [] rest := fun _ hv hne => absurd (List.suffix_nil.mp hv) hne

theorem noStart_cons : NoStart p (c :: pre) rest ↔ ¬p <+: c :: (pre ++ rest) ∧
    NoStart p pre rest := by
  constructor
  · intro h
    refine ⟨h _ (List.suffix_refl _) (List.cons_ne_nil _ _), fun v hv => ?_⟩
    exact h v (hv.trans (List.suffix_cons c pre))
  · rintro ⟨hhead, htail⟩ v hv hne
    rcases List.suffix_cons_iff.mp hv with rfl | hv
    · exact hhead
    · exact htail v hv hne

theorem noStart_append : NoStart p (xs ++ ys) rest ↔ NoStart p xs (ys ++ rest) ∧
    NoStart p ys rest := by
  induction xs with
  | nil => simp [noStart_nil]
  | cons x xs ih =>
    rw [List.cons_append, noStart_cons, noStart_cons, ih, List.append_assoc, and_assoc]

/-- It is not within `pre`, and it does not go over the end of `pre`. -/
theorem noStart_of_not_infix (hin : ¬p <:+: pre)
    (hover : ∀ q₁ q₂, p = q₁ ++ q₂ → q₁ ≠ [] → q₂ ≠ [] → q₁ <:+ pre → ¬q₂ <+: rest) :
    NoStart p pre rest := by
  intro v hv hne hp
  rcases List.prefix_or_prefix_of_prefix hp (List.prefix_append v rest) with hpv | ⟨q, rfl⟩
  · exact hin (hpv.isInfix.trans hv.isInfix)
  · have hq := (List.prefix_append_right_inj v).mp hp
    by_cases hnil : q = []
    · rw [hnil, List.append_nil] at hin
      exact hin hv.isInfix
    · exact hover v q rfl hne hnil hv hq

theorem NoStart.not_infix (h : NoStart p pre rest) (hne : p ≠ []) : ¬p <:+: pre := by
  rintro ⟨before, after, rfl⟩
  rw [List.append_assoc] at h
  refine (noStart_append.mp h).2 (p ++ after) (List.suffix_refl _) (by simp [hne]) ?_
  rw [List.append_assoc]
  exact List.prefix_append _ _

/-- The pattern that begins within `pre` has a first place there. -/
theorem exists_first_start (h : ¬NoStart p pre rest) :
    ∃ u v after, pre = u ++ v ∧ v ≠ [] ∧ v ++ rest = p ++ after ∧ NoStart p u (v ++ rest) := by
  induction pre with
  | nil => exact absurd noStart_nil h
  | cons c pre ih =>
    by_cases hhead : p <+: c :: (pre ++ rest)
    · obtain ⟨after, hafter⟩ := hhead
      exact ⟨[], c :: pre, after, rfl, List.cons_ne_nil _ _, hafter.symm, noStart_nil⟩
    · obtain ⟨u, v, after, rfl, hne, hafter, hu⟩ := ih fun htail =>
        h (noStart_cons.mpr ⟨hhead, htail⟩)
      refine ⟨c :: u, v, after, rfl, hne, hafter, noStart_cons.mpr ⟨?_, hu⟩⟩
      rwa [← List.append_assoc]

end NoStart

/-! ### Past what the pattern does not begin in -/

theorem replaceOnce_append (h : NoStart p pre rest) :
    replaceOnce p r (pre ++ rest) = pre ++ replaceOnce p r rest := by
  induction pre with
  | nil => rfl
  | cons c pre ih =>
    obtain ⟨hhead, htail⟩ := noStart_cons.mp h
    rw [List.cons_append, replaceOnce, if_neg fun hp => hhead (List.isPrefixOf_iff_prefix.mp hp),
      ih htail]
    rfl

theorem replaceOnce_hit (hp : p ≠ []) (rest : List α) :
    replaceOnce p r (p ++ rest) = r ++ rest := by
  obtain ⟨c, p, rfl⟩ := List.exists_cons_of_ne_nil hp
  have hpre : (c :: p).isPrefixOf (c :: (p ++ rest)) = true :=
    List.isPrefixOf_iff_prefix.mpr (List.prefix_append (c :: p) rest)
  rw [List.cons_append, replaceOnce, if_pos hpre, ← List.cons_append, List.drop_left]

theorem firstAt_append (h : NoStart p pre rest) :
    firstAt p (pre ++ rest) = (firstAt p rest).map (pre.length + ·) := by
  induction pre with
  | nil => simp
  | cons c pre ih =>
    obtain ⟨hhead, htail⟩ := noStart_cons.mp h
    rw [List.cons_append, firstAt, if_neg fun hp => hhead (List.isPrefixOf_iff_prefix.mp hp),
      ih htail, Option.map_map]
    congr 1
    funext n
    simp only [Function.comp_apply, List.length_cons]
    omega

theorem firstAt_hit (hp : p ≠ []) (rest : List α) : firstAt p (p ++ rest) = some 0 := by
  obtain ⟨c, p, rfl⟩ := List.exists_cons_of_ne_nil hp
  exact if_pos (List.isPrefixOf_iff_prefix.mpr (List.prefix_append (c :: p) rest))

theorem occurrences_append (h : NoStart p pre rest) :
    occurrences p (pre ++ rest) = occurrences p rest := by
  induction pre with
  | nil => rfl
  | cons c pre ih =>
    obtain ⟨hhead, htail⟩ := noStart_cons.mp h
    rw [List.cons_append, occurrences, if_neg fun hp => hhead (List.isPrefixOf_iff_prefix.mp hp),
      ih htail, Nat.zero_add]

end Sashiko
