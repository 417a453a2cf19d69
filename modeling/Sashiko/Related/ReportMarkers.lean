import Sashiko.Related.ReportParts

/-! The two passes over a report: the placeholders become markers, and the markers placeholders
again. A marker that begins before its place goes wrong. -/

namespace Sashiko

variable {n k : ℕ} {head pre rest : Chars} {parts : List (ℕ × Chars)}

/-! ### Markers -/

/-- The marker without its last two characters. -/
def markerHead (newIdx : ℕ) : Chars :=
  "__SASHIKO_BUG_REF_TMP_".toList ++ (toString newIdx).toList

theorem tmpMarker_eq (k : ℕ) : tmpMarker k = markerHead k ++ ['_', '_'] := rfl

theorem isDigit_of_mem_toString {c : Char} (h : c ∈ (toString k).toList) : c.isDigit = true := by
  have hdigits : (toString k).toList = Nat.toDigits 10 k := Nat.toList_repr
  exact Nat.isDigit_of_mem_toDigits (by omega) (by omega) (hdigits ▸ h)

theorem not_mem_tmpMarker {c : Char} (hfixed : c ∉ "__SASHIKO_BUG_REF_TMP_".toList)
    (hdigit : c.isDigit = false) (k : ℕ) : c ∉ tmpMarker k := by
  unfold tmpMarker
  simp only [List.mem_append, not_or]
  refine ⟨⟨hfixed, fun hmem => ?_⟩, fun hmem => hfixed ?_⟩
  · rw [isDigit_of_mem_toString hmem] at hdigit
    cases hdigit
  · obtain rfl : c = '_' := by simpa using hmem
    decide

theorem open_not_mem_tmpMarker (k : ℕ) : '[' ∉ tmpMarker k :=
  not_mem_tmpMarker (by decide) rfl k

theorem close_not_mem_tmpMarker (k : ℕ) : ']' ∉ tmpMarker k :=
  not_mem_tmpMarker (by decide) rfl k

theorem tmpMarker_ne_nil (k : ℕ) : tmpMarker k ≠ [] := by
  rw [tmpMarker_eq]
  simp

theorem s_not_mem_bugRefPlaceholder (idx : ℕ) : 'S' ∉ bugRefPlaceholder idx := by
  unfold bugRefPlaceholder
  split_ifs
  · decide
  · simp only [List.mem_append, not_or]
    refine ⟨⟨by decide, fun hmem => ?_⟩, by decide⟩
    have hdigit := isDigit_of_mem_toString hmem
    revert hdigit
    decide

/-- A pattern is within the part that has its last character. -/
theorem infix_of_last_not_mem {p xs ys : Chars} {c : Char} (h : c ∉ ys)
    (hin : p ++ [c] <:+: xs ++ ys) : p ++ [c] <:+: xs := by
  rcases List.infix_append_iff_ne_nil.mp hin with hin | hin | ⟨q₁, q₂, -, hne, heq, -, hpre⟩
  · exact hin
  · exact absurd (hin.mem (by simp)) h
  · obtain ⟨q, d, rfl⟩ := (List.eq_nil_or_concat' q₂).resolve_left hne
    rw [← List.append_assoc] at heq
    obtain rfl : c = d := List.singleton_injective (List.append_inj_right' heq rfl)
    exact absurd (hpre.mem (by simp)) h

theorem underscores_not_infix_bugRefPlaceholder (idx : ℕ) :
    ¬['_', '_'] <:+: bugRefPlaceholder idx := by
  unfold bugRefPlaceholder
  split_ifs
  · decide
  · intro hin
    rw [List.append_assoc] at hin
    have hnot : '_' ∉ (toString (idx + 1)).toList ++ [']'] := by
      simp only [List.mem_append, not_or]
      refine ⟨fun hmem => ?_, by decide⟩
      have hdigit := isDigit_of_mem_toString hmem
      revert hdigit
      decide
    have hfixed := @infix_of_last_not_mem ['_'] _ _ '_' hnot hin
    revert hfixed
    decide

theorem underscores_prefix_tmpMarker (k : ℕ) : ['_', '_', 'S'] <+: tmpMarker k :=
  ⟨"ASHIKO_BUG_REF_TMP_".toList ++ (toString k).toList ++ ['_', '_'], rfl⟩

/-- What ends the marker and begins it has one or two characters. -/
theorem tmpMarker_border {q₁ q₂ : Chars} (h : tmpMarker k = q₁ ++ q₂) (hq₁ : q₁ ≠ [])
    (hq₂ : q₂ ≠ []) (hpre : q₂ <+: tmpMarker k) :
    q₁ = markerHead k ∨ q₁ = markerHead k ++ ['_'] := by
  have hshort : ¬['_', '_', 'S'] <+: q₂ := by
    intro hlong
    obtain ⟨a, q₁, rfl⟩ := List.exists_cons_of_ne_nil hq₁
    have htail : "_SASHIKO_BUG_REF_TMP_".toList ++ ((toString k).toList ++ ['_', '_']) =
        q₁ ++ q₂ := by
      rw [← List.append_assoc]
      exact (List.cons.inj h).2
    have hnot : 'S' ∉ (toString k).toList ++ ['_', '_'] := by
      simp only [List.mem_append, not_or]
      refine ⟨fun hmem => ?_, by decide⟩
      have hdigit := isDigit_of_mem_toString hmem
      revert hdigit
      decide
    have hin : ['_', '_'] ++ ['S'] <:+:
        "_SASHIKO_BUG_REF_TMP_".toList ++ ((toString k).toList ++ ['_', '_']) := by
      rw [htail]
      exact hlong.isInfix.trans (List.suffix_append q₁ q₂).isInfix
    have hfixed := infix_of_last_not_mem hnot hin
    revert hfixed
    decide
  have hone : q₂ = ['_'] ∨ q₂ = ['_', '_'] := by
    obtain ⟨after, hafter⟩ := underscores_prefix_tmpMarker k
    rw [← hafter] at hpre
    match q₂, hq₂ with
    | [a], _ =>
      obtain ⟨rfl, -⟩ := List.cons_prefix_cons.mp hpre
      exact .inl rfl
    | [a, b], _ =>
      obtain ⟨rfl, hb⟩ := List.cons_prefix_cons.mp hpre
      obtain ⟨rfl, -⟩ := List.cons_prefix_cons.mp hb
      exact .inr rfl
    | a :: b :: c :: q, _ =>
      obtain ⟨rfl, hb⟩ := List.cons_prefix_cons.mp hpre
      obtain ⟨rfl, hc⟩ := List.cons_prefix_cons.mp hb
      obtain ⟨rfl, -⟩ := List.cons_prefix_cons.mp hc
      exact absurd ⟨q, rfl⟩ hshort
  rcases hone with rfl | rfl
  · have hhead : (markerHead k ++ ['_']) ++ ['_'] = q₁ ++ ['_'] := by
      rw [List.append_assoc, ← h]
      rfl
    exact .inr (List.append_cancel_right hhead).symm
  · exact .inl (List.append_cancel_right ((tmpMarker_eq k).symm.trans h)).symm

/-! ### The first pass -/

theorem clean_append_marker {xs ys : Chars} (hx : Clean n xs) (hy : Clean n ys) (k : ℕ) :
    Clean n (xs ++ (tmpMarker k ++ ys)) := by
  intro i hi hin
  have htoken := isToken_bugRefPlaceholder i
  rcases List.infix_append_iff_ne_nil.mp hin with hin | hin | ⟨q₁, q₂, -, hne, heq, -, hpre⟩
  · exact hx i hi hin
  · exact hy i hi ((htoken.infix_append_iff_of_not_mem (open_not_mem_tmpMarker k)).mp hin)
  · -- the placeholder would have the two underscores of the marker
    obtain ⟨after, hafter⟩ := underscores_prefix_tmpMarker k
    rw [← hafter, List.append_assoc] at hpre
    match q₂, hne with
    | [a], _ =>
      obtain ⟨rfl, -⟩ := List.cons_prefix_cons.mp hpre
      obtain ⟨w, hw, -⟩ := htoken
      rw [hw, ← List.cons_append] at heq
      have hlast := List.append_inj_right' heq rfl
      simp at hlast
    | a :: b :: q, _ =>
      obtain ⟨rfl, hb⟩ := List.cons_prefix_cons.mp hpre
      obtain ⟨rfl, -⟩ := List.cons_prefix_cons.mp hb
      exact underscores_not_infix_bugRefPlaceholder i ⟨q₁, q, by rw [heq]; simp⟩

theorem joinParts_renumber_cons (sep : ℕ → Chars) (first : ℕ) (part : ℕ × Chars)
    (parts : List (ℕ × Chars)) :
    joinParts sep (renumberParts first (part :: parts)) =
      sep first ++ (part.2 ++ joinParts sep (renumberParts (first + 1) parts)) := by
  rw [renumberParts, joinParts, List.flatMap_cons, List.append_assoc]
  rfl

/-- Every placeholder is found at its place and becomes a marker there. -/
theorem markPlaceholders_append (h : Cut n pre parts) (first : ℕ) :
    markPlaceholders first (parts.map (·.1)) (weave pre parts) =
      pre ++ joinParts tmpMarker (renumberParts first parts) := by
  induction parts generalizing first pre with
  | nil => rfl
  | cons part parts ih =>
    have htoken := isToken_bugRefPlaceholder part.1
    have hstart : NoStart (bugRefPlaceholder part.1) pre
        (bugRefPlaceholder part.1 ++ weave part.2 parts) := by
      rw [← joinParts_cons]
      exact htoken.noStart (h.head part.1 (h.lt part List.mem_cons_self)) (head_joinParts _)
    have hmarked : Cut n (pre ++ (tmpMarker first ++ part.2)) parts :=
      ⟨clean_append_marker h.head h.cons.head first, h.cons.lt, h.cons.clean⟩
    have hnext := ih hmarked (first + 1)
    rw [List.map_cons, markPlaceholders, weave, joinParts_cons, replaceOnce_append hstart,
      replaceOnce_hit htoken.ne_nil, joinParts_renumber_cons]
    rw [weave] at hnext ⊢
    simpa only [List.append_assoc] using hnext

/-! ### The second pass -/

/-- No marker of the first `n` bugs. -/
def Unmarked (n : ℕ) (cs : Chars) : Prop := ∀ k < n, ¬tmpMarker k <:+: cs

/-- The marker put behind `pre` does not begin within it. -/
def MarkerFits (newIdx : ℕ) (pre : Chars) : Prop :=
  ¬markerHead newIdx <:+ pre ∧ ¬(markerHead newIdx ++ ['_']) <:+ pre

theorem noStart_tmpMarker_iff (hpre : ¬tmpMarker k <:+: pre) :
    NoStart (tmpMarker k) pre (tmpMarker k ++ rest) ↔ MarkerFits k pre := by
  have hne : markerHead k ≠ [] := List.append_ne_nil_of_left_ne_nil (by decide) _
  have hhead : ∀ v, v = markerHead k ∨ v = markerHead k ++ ['_'] → v ≠ [] ∧
      tmpMarker k <+: v ++ (tmpMarker k ++ rest) := by
    obtain ⟨after, hafter⟩ := underscores_prefix_tmpMarker k
    rintro v (rfl | rfl)
    · have heq : tmpMarker k ++ 'S' :: (after ++ rest) =
          markerHead k ++ (['_', '_', 'S'] ++ after ++ rest) := by rw [tmpMarker_eq]; simp
      exact ⟨hne, _, heq.trans (by rw [hafter])⟩
    · have heq : tmpMarker k ++ '_' :: 'S' :: (after ++ rest) =
          markerHead k ++ ['_'] ++ (['_', '_', 'S'] ++ after ++ rest) := by rw [tmpMarker_eq]; simp
      exact ⟨by simp, _, heq.trans (by rw [hafter])⟩
  constructor
  · intro h
    exact ⟨fun hsuf => h _ hsuf (hhead _ (.inl rfl)).1 (hhead _ (.inl rfl)).2,
      fun hsuf => h _ hsuf (hhead _ (.inr rfl)).1 (hhead _ (.inr rfl)).2⟩
  · rintro ⟨hone, htwo⟩
    refine noStart_of_not_infix hpre fun q₁ q₂ heq hq₁ hq₂ hsuf hq => ?_
    have hborder : q₂ <+: tmpMarker k := by
      refine List.prefix_of_prefix_length_le hq (List.prefix_append _ _) ?_
      rw [heq, List.length_append]
      omega
    rcases tmpMarker_border heq hq₁ hq₂ hborder with rfl | rfl
    · exact hone hsuf
    · exact htwo hsuf

/-- The markers all fit, each behind what the pass has written before it. -/
def AllFit : ℕ → Chars → List (ℕ × Chars) → Prop
  | _, _, [] => True
  | first, pre, part :: parts =>
    MarkerFits first pre ∧ AllFit (first + 1) (pre ++ (bugRefPlaceholder first ++ part.2)) parts

/-- A pattern does not go over a character that it does not have. -/
theorem infix_of_not_mem {p xs ys : Chars} {c : Char} (h : c ∉ p) (hin : p <:+: xs ++ c :: ys) :
    p <:+: xs ∨ p <:+: ys := by
  rcases List.infix_append_iff_ne_nil.mp hin with hin | hin | ⟨q₁, q₂, -, hne, rfl, -, hpre⟩
  · exact .inl hin
  · rcases List.infix_cons_iff.mp hin with hpre | hin
    · cases p with
      | nil => exact .inl List.nil_infix
      | cons a p => exact absurd (List.cons_prefix_cons.mp hpre).1 (fun heq => h (by simp [heq]))
    · exact .inr hin
  · obtain ⟨a, q₂, rfl⟩ := List.exists_cons_of_ne_nil hne
    exact absurd (List.cons_prefix_cons.mp hpre).1 (fun heq => h (by simp [heq]))

/-- A marker is in the text on one side of a placeholder. -/
theorem tmpMarker_infix_append {xs ys : Chars} {idx : ℕ}
    (hin : tmpMarker k <:+: xs ++ (bugRefPlaceholder idx ++ ys)) :
    tmpMarker k <:+: xs ∨ tmpMarker k <:+: ys := by
  obtain ⟨w, hw, -⟩ := isToken_bugRefPlaceholder idx
  have hs : 'S' ∈ tmpMarker k := (underscores_prefix_tmpMarker k).mem (by simp)
  rw [hw, List.cons_append, List.append_assoc] at hin
  refine (infix_of_not_mem (open_not_mem_tmpMarker k) hin).imp_right fun hin => ?_
  refine (infix_of_not_mem (close_not_mem_tmpMarker k) hin).resolve_left fun hin => ?_
  exact s_not_mem_bugRefPlaceholder idx (by rw [hw]; simp [hin.mem hs])

theorem unmarked_append {xs ys : Chars} (hx : Unmarked n xs) (hy : Unmarked n ys) (idx : ℕ) :
    Unmarked n (xs ++ (bugRefPlaceholder idx ++ ys)) :=
  fun j hj hin => (tmpMarker_infix_append hin).elim (hx j hj) (hy j hj)

theorem unmarkPlaceholders_append (hpre : Unmarked n pre)
    (hparts : ∀ part ∈ parts, Unmarked n part.2) {first : ℕ} (hle : first + parts.length ≤ n)
    (hfit : AllFit first pre parts) :
    unmarkPlaceholders first parts.length
        (pre ++ joinParts tmpMarker (renumberParts first parts)) =
      pre ++ joinParts bugRefPlaceholder (renumberParts first parts) := by
  induction parts generalizing first pre with
  | nil => rfl
  | cons part parts ih =>
    obtain ⟨hpart, hparts⟩ := List.forall_mem_cons.mp hparts
    rw [List.length_cons] at hle
    have hstart : NoStart (tmpMarker first) pre (tmpMarker first ++ (part.2 ++
        joinParts tmpMarker (renumberParts (first + 1) parts))) :=
      (noStart_tmpMarker_iff (hpre first (by omega))).mpr hfit.1
    have hnext := ih (unmarked_append hpre hpart first) hparts (by omega) hfit.2
    rw [List.length_cons, unmarkPlaceholders, joinParts_renumber_cons, joinParts_renumber_cons,
      replaceOnce_append hstart, replaceOnce_hit (tmpMarker_ne_nil first)]
    simpa only [List.append_assoc] using hnext

/-- What is in front of a placeholder stays as it is. -/
theorem unmarkPlaceholders_keeps (idx : ℕ) (hpre : Unmarked n pre) {first left : ℕ}
    (hle : first + left ≤ n) (rest : Chars) :
    ∃ rest', unmarkPlaceholders first left (pre ++ bugRefPlaceholder idx ++ rest) =
      pre ++ bugRefPlaceholder idx ++ rest' := by
  induction left generalizing first rest with
  | zero => exact ⟨rest, rfl⟩
  | succ left ih =>
    have hstart : NoStart (tmpMarker first) (pre ++ bugRefPlaceholder idx) rest := by
      refine noStart_of_not_infix (fun hin => ?_) fun q₁ q₂ heq hq₁ _ hsuf _ => ?_
      · rw [← List.append_nil (bugRefPlaceholder idx)] at hin
        rcases tmpMarker_infix_append hin with hin | hin
        · exact hpre first (by omega) hin
        · exact tmpMarker_ne_nil first (List.infix_nil.mp hin)
      · -- the placeholder ends in a bracket, which no marker has
        obtain ⟨w, hw, -⟩ := isToken_bugRefPlaceholder idx
        obtain ⟨q, c, rfl⟩ := (List.eq_nil_or_concat' q₁).resolve_left hq₁
        obtain ⟨before, hbefore⟩ := hsuf
        rw [hw, ← List.cons_append, ← List.append_assoc, ← List.append_assoc] at hbefore
        obtain rfl : c = ']' := List.singleton_injective (List.append_inj_right' hbefore rfl)
        exact close_not_mem_tmpMarker first (by rw [heq]; simp)
    obtain ⟨rest', hrest⟩ := @ih (first + 1) (by omega)
      (replaceOnce (tmpMarker first) (bugRefPlaceholder first) rest)
    exact ⟨rest', by rw [unmarkPlaceholders, replaceOnce_append hstart, hrest]⟩

/-- Where a marker does not fit, the text comes out otherwise. -/
theorem unmarkPlaceholders_ne (hpre : Unmarked n pre)
    (hparts : ∀ part ∈ parts, Unmarked n part.2) {first : ℕ} (hle : first + parts.length ≤ n)
    (hfit : ¬AllFit first pre parts) :
    unmarkPlaceholders first parts.length
        (pre ++ joinParts tmpMarker (renumberParts first parts)) ≠
      pre ++ joinParts bugRefPlaceholder (renumberParts first parts) := by
  induction parts generalizing first pre with
  | nil => exact absurd trivial hfit
  | cons part parts ih =>
    obtain ⟨hpart, hparts⟩ := List.forall_mem_cons.mp hparts
    rw [List.length_cons] at hle
    have hstart : NoStart (tmpMarker first) pre (tmpMarker first ++ (part.2 ++
        joinParts tmpMarker (renumberParts (first + 1) parts))) ↔ MarkerFits first pre :=
      noStart_tmpMarker_iff (hpre first (by omega))
    rw [List.length_cons, unmarkPlaceholders, joinParts_renumber_cons, joinParts_renumber_cons]
    by_cases hfirst : MarkerFits first pre
    · have hnext := ih (unmarked_append hpre hpart first) hparts (by omega)
        fun hrest => hfit ⟨hfirst, hrest⟩
      rw [replaceOnce_append (hstart.mpr hfirst), replaceOnce_hit (tmpMarker_ne_nil first)]
      simpa only [List.append_assoc] using hnext
    · -- the marker begins within `pre`, and the placeholder is put there
      obtain ⟨u, v, after, rfl, hne, hafter, hu⟩ := exists_first_start (hstart.not.mpr hfirst)
      have hu' : Unmarked n u :=
        fun j hj hin => hpre j hj (hin.trans (List.prefix_append u v).isInfix)
      have hle' : first + 1 + parts.length ≤ n := by omega
      obtain ⟨rest', hrest⟩ := unmarkPlaceholders_keeps first hu' hle' after
      rw [List.append_assoc, hafter, replaceOnce_append (hafter ▸ hu),
        replaceOnce_hit (tmpMarker_ne_nil first), ← List.append_assoc, hrest]
      obtain ⟨a, v, rfl⟩ := List.exists_cons_of_ne_nil hne
      obtain ⟨marked, hmarked⟩ := underscores_prefix_tmpMarker first
      obtain ⟨w, hw, -⟩ := isToken_bugRefPlaceholder first
      rw [← hmarked] at hafter
      obtain rfl : a = '_' := (List.cons.inj hafter).1
      intro heq
      rw [List.append_assoc, List.append_assoc, List.append_right_inj, hw] at heq
      exact absurd (List.cons.inj heq).1 (by decide)

end Sashiko
