import Sashiko.Subject.Promotion

/-! The prefixes that are stripped from a subject, and the bracketed groups that are dropped. -/

namespace Sashiko

variable {t : CharTables} {prefixes : List Text} {cs : Text}

/-! ### Prefixes -/

/-- The prefix that a round strips. -/
def foundPrefix (prefixes : List Text) (cs : Text) : Option Text :=
  prefixes.find? fun pre => pre.isPrefixOf (cs.map Char.toLower)

theorem find_lowercase (h : ∀ pre ∈ prefixes, pre ∈ cleanPrefixes) (cs : Text) :
    (prefixes.find? fun pre => pre.isPrefixOf (t.lowercase cs)) = foundPrefix prefixes cs := by
  unfold foundPrefix
  induction prefixes with
  | nil => rfl
  | cons pre prefixes ih =>
    rw [List.find?_cons, List.find?_cons, t.lowercase_starts pre (h pre List.mem_cons_self),
      ih fun p hp => h p (List.mem_cons_of_mem _ hp)]

/-- The text starts with the prefix, in any case. -/
def StartsWith (pre cs : Text) : Prop := ∃ head rest, cs = head ++ rest ∧ head.map Char.toLower = pre

theorem startsWith_of_isPrefixOf {pre : Text} (h : pre.isPrefixOf (cs.map Char.toLower) = true) :
    StartsWith pre cs := by
  obtain ⟨rest, hrest⟩ := List.isPrefixOf_iff_prefix.mp h
  obtain ⟨head, tail, rfl, hhead, -⟩ := List.map_eq_append_iff.mp hrest.symm
  exact ⟨head, tail, rfl, hhead⟩

theorem mem_of_foundPrefix {pre : Text} (h : foundPrefix prefixes cs = some pre) :
    pre ∈ prefixes ∧ StartsWith pre cs := by
  unfold foundPrefix at h
  have hstarts := List.find?_some h
  exact ⟨List.mem_of_find?_eq_some h, startsWith_of_isPrefixOf hstarts⟩

theorem length_trimChars (cs : Text) : (trimChars cs).length ≤ cs.length :=
  (trimChars_within cs).length_le

theorem length_of_foundPrefix (h : ∀ pre ∈ prefixes, pre ∈ cleanPrefixes) {pre : Text}
    (hfound : foundPrefix prefixes cs = some pre) :
    (trimChars (cs.drop pre.length)).length < cs.length := by
  obtain ⟨hmem, head, rest, rfl, rfl⟩ := mem_of_foundPrefix hfound
  have hnonempty : (cleanPrefixes.all fun pre => 0 < pre.length) = true := by decide
  have hpos := of_decide_eq_true (List.all_eq_true.mp hnonempty _ (h _ hmem))
  have hlength := length_trimChars ((head ++ rest).drop (head.map Char.toLower).length)
  rw [List.length_drop] at hlength
  rw [List.length_map] at hlength hpos ⊢
  rw [List.length_append] at hlength ⊢
  omega

theorem stripPrefixes_succ (h : ∀ pre ∈ prefixes, pre ∈ cleanPrefixes) (n : ℕ) (cs : Text) :
    stripPrefixes t prefixes (n + 1) cs =
      match foundPrefix prefixes cs with
      | some pre => stripPrefixes t prefixes n (trimChars (cs.drop pre.length))
      | none => cs := by
  cases hfound : foundPrefix prefixes cs <;> simp only [stripPrefixes, find_lowercase h, hfound]

/-- More rounds than there are characters change nothing. -/
theorem stripPrefixes_enough (h : ∀ pre ∈ prefixes, pre ∈ cleanPrefixes) {n m : ℕ}
    (hn : cs.length ≤ n) (hm : cs.length ≤ m) :
    stripPrefixes t prefixes n cs = stripPrefixes t prefixes m cs := by
  induction n generalizing cs m with
  | zero =>
    obtain rfl := List.length_eq_zero_iff.mp (Nat.le_zero.mp hn)
    cases m with
    | zero => rfl
    | succ m =>
      rw [stripPrefixes_succ h]
      cases hfound : foundPrefix prefixes [] with
      | none => rfl
      | some pre => exact absurd (length_of_foundPrefix h hfound) (Nat.not_lt_zero _)
  | succ n ih =>
    cases m with
    | zero =>
      obtain rfl := List.length_eq_zero_iff.mp (Nat.le_zero.mp hm)
      rw [stripPrefixes_succ h]
      cases hfound : foundPrefix prefixes [] with
      | none => rfl
      | some pre => exact absurd (length_of_foundPrefix h hfound) (Nat.not_lt_zero _)
    | succ m =>
      rw [stripPrefixes_succ h, stripPrefixes_succ h]
      cases hfound : foundPrefix prefixes cs with
      | none => rfl
      | some pre =>
        have hlength := length_of_foundPrefix h hfound
        exact ih (by omega) (by omega)

/-- What holds of a text, and of what a round makes of it. -/
theorem stripPrefixes_induction {motive : Text → Prop} (h : ∀ pre ∈ prefixes, pre ∈ cleanPrefixes)
    (hround : ∀ cs pre, foundPrefix prefixes cs = some pre → motive cs →
      motive (trimChars (cs.drop pre.length))) (n : ℕ) (hcs : motive cs) :
    motive (stripPrefixes t prefixes n cs) := by
  induction n generalizing cs with
  | zero => exact hcs
  | succ n ih =>
    rw [stripPrefixes_succ h]
    cases hfound : foundPrefix prefixes cs with
    | none => exact hcs
    | some pre => exact ih (hround cs pre hfound hcs)

theorem foundPrefix_stripPrefixes (h : ∀ pre ∈ prefixes, pre ∈ cleanPrefixes) {n : ℕ}
    (hn : cs.length ≤ n) : foundPrefix prefixes (stripPrefixes t prefixes n cs) = none := by
  induction n generalizing cs with
  | zero =>
    obtain rfl := List.length_eq_zero_iff.mp (Nat.le_zero.mp hn)
    rw [stripPrefixes]
    by_contra hsome
    obtain ⟨pre, hfound⟩ := Option.ne_none_iff_exists'.mp hsome
    exact absurd (length_of_foundPrefix h hfound) (Nat.not_lt_zero _)
  | succ n ih =>
    rw [stripPrefixes_succ h]
    cases hfound : foundPrefix prefixes cs with
    | none => exact hfound
    | some pre =>
      have hlength := length_of_foundPrefix h hfound
      exact ih (by omega)

theorem replyPrefixes_subset : ∀ pre ∈ replyPrefixes, pre ∈ cleanPrefixes := by decide

theorem foundPrefix_stripReplies (subject : Text) :
    foundPrefix replyPrefixes (stripReplies t subject) = none :=
  foundPrefix_stripPrefixes replyPrefixes_subset (length_trimChars subject)

theorem trimChars_stripReplies (subject : Text) :
    trimChars (stripReplies t subject) = stripReplies t subject := by
  refine stripPrefixes_induction (motive := fun cs => trimChars cs = cs) replyPrefixes_subset
    (fun cs pre _ _ => trimChars_idempotent _) _ (trimChars_idempotent subject)

/-! ### Text before a bracket -/

theorem not_white_bracket : isRustWhitespace '[' = false := by decide

theorem rdropWhile_append_visible {c : Char} (hc : isRustWhitespace c = false) (front back : Text) :
    (front ++ c :: back).rdropWhile isRustWhitespace =
      front ++ c :: back.rdropWhile isRustWhitespace := by
  induction back using List.reverseRecOn with
  | nil => rw [List.rdropWhile_concat_neg _ _ _ (by simp [hc]), List.rdropWhile_nil]
  | append_singleton back d ih =>
    rw [← List.cons_append, ← List.append_assoc, List.rdropWhile_concat, List.rdropWhile_concat, ih]
    split_ifs <;> simp

theorem trimChars_append_bracket (front back : Text) :
    trimChars (front ++ '[' :: back) =
      front.dropWhile isRustWhitespace ++ '[' :: back.rdropWhile isRustWhitespace := by
  have hdrop : (front ++ '[' :: back).dropWhile isRustWhitespace =
      front.dropWhile isRustWhitespace ++ '[' :: back := by
    by_cases hall : ∀ c ∈ front, isRustWhitespace c = true
    · rw [List.dropWhile_append_of_pos hall, List.dropWhile_eq_nil_iff.mpr hall,
        List.dropWhile_cons_of_neg (by simp [not_white_bracket]), List.nil_append]
    · have hsome : ∃ c ∈ front, isRustWhitespace c = false := by simpa using hall
      exact (span_append hsome _).2.1
  rw [trimChars, hdrop, rdropWhile_append_visible not_white_bracket]

theorem isPrefixOf_append_of_not_mem {pre : Text} {c : Char} (h : c ∉ pre) (front back : Text) :
    pre.isPrefixOf (front ++ c :: back) = pre.isPrefixOf front := by
  induction pre generalizing front with
  | nil => rfl
  | cons d pre ih =>
    have hd : d ≠ c := fun heq => h (heq ▸ List.mem_cons_self)
    cases front with
    | nil =>
      rw [List.nil_append, List.isPrefixOf_cons_cons, beq_eq_false_iff_ne.mpr hd, Bool.false_and]
      rfl
    | cons e front =>
      rw [List.cons_append, List.isPrefixOf_cons_cons, List.isPrefixOf_cons_cons,
        ih fun hmem => h (List.mem_cons_of_mem _ hmem)]

/-- A prefix ends before the first bracket. -/
theorem foundPrefix_append_bracket (h : ∀ pre ∈ prefixes, pre ∈ cleanPrefixes) (front back : Text) :
    foundPrefix prefixes (front ++ '[' :: back) = foundPrefix prefixes front := by
  have hopen : (cleanPrefixes.all fun pre => !pre.contains '[') = true := by decide
  unfold foundPrefix
  induction prefixes with
  | nil => rfl
  | cons pre prefixes ih =>
    have hpre := List.all_eq_true.mp hopen pre (h pre List.mem_cons_self)
    have hmem : '[' ∉ pre := by simpa using hpre
    rw [List.find?_cons, List.find?_cons, List.map_append, List.map_cons,
      show Char.toLower '[' = '[' from rfl, isPrefixOf_append_of_not_mem hmem,
      ← show Char.toLower '[' = '[' from rfl, ← List.map_cons, ← List.map_append,
      ih fun p hp => h p (List.mem_cons_of_mem _ hp)]

theorem startsWithReply_eq_false {cs : Text} :
    startsWithReply t cs = false ↔ foundPrefix replyPrefixes (trimChars cs) = none := by
  rw [← find_lowercase (t := t) replyPrefixes_subset, List.find?_eq_none, startsWithReply,
    List.any_eq_false]

/-- Whether there is a reply prefix is settled before the first bracket. -/
theorem startsWithReply_append_bracket (front back back' : Text) :
    startsWithReply t (front ++ '[' :: back) = startsWithReply t (front ++ '[' :: back') := by
  rw [Bool.eq_iff_iff, ← not_iff_not, Bool.not_eq_true, Bool.not_eq_true, startsWithReply_eq_false,
    startsWithReply_eq_false, trimChars_append_bracket, trimChars_append_bracket,
    foundPrefix_append_bracket replyPrefixes_subset, foundPrefix_append_bracket replyPrefixes_subset]

theorem startsWithReply_stripReplies (subject : Text) :
    startsWithReply t (stripReplies t subject) = false := by
  rw [startsWithReply_eq_false, trimChars_stripReplies, foundPrefix_stripReplies]

end Sashiko
