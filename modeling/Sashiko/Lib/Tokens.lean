import Sashiko.Text
import Mathlib.Data.List.Infix

/-! Bracketed tokens in a text: where they stand, and replacing one by another. -/

namespace Sashiko

variable {p q r cs rest : List Char}

/-! ### Replacing -/

theorem replaceChars_skip (n : ℕ) (cs : List Char) :
    replaceChars p r n cs = replaceChars p r 0 (cs.drop n) := by
  induction n generalizing cs with
  | zero => rfl
  | succ n ih =>
    cases cs with
    | nil => rfl
    | cons c cs => rw [replaceChars, ih, List.drop_succ_cons]

theorem replaceChars_hit (hp : p ≠ []) (rest : List Char) :
    replaceChars p r 0 (p ++ rest) = r ++ replaceChars p r 0 rest := by
  obtain ⟨c, p', rfl⟩ := List.exists_cons_of_ne_nil hp
  have hpre : (c :: p').isPrefixOf (c :: (p' ++ rest)) = true :=
    List.isPrefixOf_iff_prefix.mpr (List.prefix_append (c :: p') rest)
  rw [List.cons_append, replaceChars, if_pos hpre, replaceChars_skip, List.length_cons,
    Nat.add_sub_cancel, List.drop_left]

theorem replaceChars_miss {c : Char} (h : ¬p <+: c :: cs) :
    replaceChars p r 0 (c :: cs) = c :: replaceChars p r 0 cs := by
  rw [replaceChars, if_neg fun hpre => h (List.isPrefixOf_iff_prefix.mp hpre)]

/-- A text is read from the left, one pattern or one character at a time. -/
theorem replace_induction {motive : List Char → Prop} (hp : p ≠ []) (nil : motive [])
    (hit : ∀ rest, motive rest → motive (p ++ rest))
    (miss : ∀ c cs, ¬p <+: c :: cs → motive cs → motive (c :: cs)) (cs : List Char) :
    motive cs := by
  induction h : cs.length using Nat.strong_induction_on generalizing cs with
  | _ n ih =>
    subst h
    cases cs with
    | nil => exact nil
    | cons c cs =>
      by_cases hpre : p <+: c :: cs
      · obtain ⟨rest, hrest⟩ := hpre
        rw [← hrest]
        have hlen := congrArg List.length hrest
        have hpos := List.length_pos_iff.mpr hp
        rw [List.length_append] at hlen
        exact hit rest (ih _ (by omega) rest rfl)
      · exact miss c cs hpre (ih _ (Nat.lt_succ_self _) cs rfl)

theorem replaceChars_eq_self (h : ¬p <:+: cs) : replaceChars p r 0 cs = cs := by
  induction cs with
  | nil => rfl
  | cons c cs ih =>
    rw [List.infix_cons_iff, not_or] at h
    rw [replaceChars_miss h.1, ih h.2]

theorem prefix_append_cons_of_not_mem {c : Char} (h : c ∉ p) (cs : List Char) :
    p <+: cs ++ c :: rest ↔ p <+: cs := by
  induction cs generalizing p with
  | nil =>
    cases p with
    | nil => simp
    | cons a p =>
      have hne : a ≠ c := fun heq => h (heq ▸ List.mem_cons_self)
      simp [hne]
  | cons b cs ih =>
    cases p with
    | nil => simp
    | cons a p =>
      rw [List.cons_append, List.cons_prefix_cons, List.cons_prefix_cons,
        ih fun hm => h (List.mem_cons_of_mem _ hm)]

/-- A replacement stays on its side of a character that the pattern does not have. -/
theorem replaceChars_append_cons (hp : p ≠ []) {c : Char} (h : c ∉ p) (cs rest : List Char) :
    replaceChars p r 0 (cs ++ c :: rest) =
      replaceChars p r 0 cs ++ c :: replaceChars p r 0 rest := by
  induction cs using replace_induction hp with
  | nil =>
    have hmiss : ¬p <+: c :: rest := fun hpre => by
      have hnil := (prefix_append_cons_of_not_mem h []).mp hpre
      exact hp (List.prefix_nil.mp hnil)
    rw [List.nil_append, replaceChars_miss hmiss]
    rfl
  | hit cs ih =>
    rw [List.append_assoc, replaceChars_hit hp, ih, replaceChars_hit hp, List.append_assoc]
  | miss a cs hmiss ih =>
    have hmiss' : ¬p <+: a :: (cs ++ c :: rest) := fun hpre =>
      hmiss ((prefix_append_cons_of_not_mem h (a :: cs)).mp hpre)
    rw [List.cons_append, replaceChars_miss hmiss', ih, replaceChars_miss hmiss, List.cons_append]

theorem replaceChars_intercalate (hp : p ≠ []) {c : Char} (h : c ∉ p) (parts : List (List Char)) :
    replaceChars p r 0 ([c].intercalate parts) =
      [c].intercalate (parts.map (replaceChars p r 0)) := by
  induction parts with
  | nil => rfl
  | cons part parts ih =>
    cases parts with
    | nil => simp [List.intercalate]
    | cons next parts =>
      rw [List.intercalate_cons_cons, List.append_assoc, List.singleton_append,
        replaceChars_append_cons hp h, ih]
      simp only [List.map_cons, List.intercalate_cons_cons, List.append_assoc,
        List.singleton_append]

/-! ### Tokens -/

/-- An opening bracket, characters that are no brackets, a closing bracket. -/
def IsToken (p : List Char) : Prop := ∃ w, p = '[' :: (w ++ [']']) ∧ '[' ∉ w ∧ ']' ∉ w

namespace IsToken

theorem ne_nil (hp : IsToken p) : p ≠ [] := by
  obtain ⟨w, rfl, -⟩ := hp
  exact List.cons_ne_nil _ _

/-- Where two tokens stand at one place they are the same. -/
theorem eq_of_prefix_append (hp : IsToken p) (hq : IsToken q) (h : q <+: p ++ rest) : q = p := by
  obtain ⟨w, rfl, -, hw⟩ := hp
  obtain ⟨v, rfl, -, hv⟩ := hq
  obtain ⟨after, hafter⟩ := h
  have htail : v ++ ']' :: after = w ++ ']' :: rest := by simpa using hafter
  have hvw : v = w := by rw [← takeWhile_append_stop hv after, htail, takeWhile_append_stop hw]
  rw [hvw]

theorem infix_append_iff_of_not_mem (hq : IsToken q) (h : '[' ∉ cs) :
    q <:+: cs ++ rest ↔ q <:+: rest := by
  induction cs with
  | nil => rfl
  | cons c cs ih =>
    rw [List.mem_cons, not_or] at h
    rw [List.cons_append, List.infix_cons_iff, ih h.2, or_iff_right]
    obtain ⟨v, rfl, -⟩ := hq
    rw [List.cons_prefix_cons]
    exact fun hpre => h.1 hpre.1

theorem infix_append_iff (hp : IsToken p) (hq : IsToken q) :
    q <:+: p ++ rest ↔ q = p ∨ q <:+: rest := by
  constructor
  · intro h
    obtain ⟨w, hw, hopen, -⟩ := id hp
    rw [hw, List.cons_append, List.infix_cons_iff] at h
    rcases h with h | h
    · rw [← List.cons_append, ← hw] at h
      exact Or.inl (hp.eq_of_prefix_append hq h)
    · have hrest : '[' ∉ w ++ [']'] := by simpa using hopen
      exact Or.inr ((hq.infix_append_iff_of_not_mem hrest).mp h)
  · rintro (rfl | h)
    · exact (List.prefix_append q rest).isInfix
    · exact h.trans (List.suffix_append p rest).isInfix

theorem prefix_replaceChars_iff (hp : IsToken p) (hr : IsToken r) {v : List Char}
    (hv : '[' ∉ v) (cs : List Char) : v <+: replaceChars p r 0 cs ↔ v <+: cs := by
  induction v generalizing cs with
  | nil => simp
  | cons a v ih =>
    rw [List.mem_cons, not_or] at hv
    cases cs with
    | nil => rfl
    | cons c cs =>
      by_cases hpre : p <+: c :: cs
      · obtain ⟨rest, hrest⟩ := hpre
        rw [← hrest, replaceChars_hit hp.ne_nil]
        obtain ⟨w, rfl, -⟩ := hp
        obtain ⟨u, rfl, -⟩ := hr
        rw [List.cons_append, List.cons_append, List.cons_prefix_cons, List.cons_prefix_cons]
        exact ⟨fun h => absurd h.1.symm hv.1, fun h => absurd h.1.symm hv.1⟩
      · rw [replaceChars_miss hpre, List.cons_prefix_cons, List.cons_prefix_cons, ih hv.2]

/-- Replacing `p` by `r` takes away every `p`, makes an `r` of each and touches no other token. -/
theorem infix_replaceChars_iff (hp : IsToken p) (hr : IsToken r) (hq : IsToken q)
    (cs : List Char) :
    q <:+: replaceChars p r 0 cs ↔ (q <:+: cs ∧ q ≠ p) ∨ (q = r ∧ p <:+: cs) := by
  induction cs using replace_induction hp.ne_nil with
  | nil =>
    have hnil : ∀ {t : List Char}, IsToken t → ¬t <:+: [] := fun ht h =>
      ht.ne_nil (List.infix_nil.mp h)
    simp [replaceChars, hnil hq, hnil hp]
  | hit rest ih =>
    rw [replaceChars_hit hp.ne_nil, hr.infix_append_iff hq, ih, hp.infix_append_iff hq,
      hp.infix_append_iff hp]
    tauto
  | miss c cs hmiss ih =>
    have hhead : q <+: c :: replaceChars p r 0 cs ↔ q <+: c :: cs := by
      obtain ⟨v, rfl, hopen, -⟩ := hq
      rw [List.cons_prefix_cons, List.cons_prefix_cons,
        hp.prefix_replaceChars_iff hr (by simpa using hopen)]
    have hne : q <+: c :: cs → q ≠ p := fun hpre heq => hmiss (heq ▸ hpre)
    rw [replaceChars_miss hmiss, List.infix_cons_iff, List.infix_cons_iff, List.infix_cons_iff,
      hhead, ih, or_iff_right hmiss]
    tauto

end IsToken

end Sashiko
