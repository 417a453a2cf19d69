import Sashiko.Text

/-! Lines joined to a text, and the text read back line by line. -/

namespace Sashiko

variable {line : List Char} {lines above below : List (List Char)}

/-- `str::trim_start` -/
def trimStart (cs : List Char) : List Char := cs.dropWhile isRustWhitespace

/-- `str::trim_end` -/
def trimEnd (cs : List Char) : List Char := cs.rdropWhile isRustWhitespace

/-- `lines.join("\n")` -/
def joinLinesWith (lines : List (List Char)) : List Char := ['\n'].intercalate lines

/-- A line without its end. -/
def IsLine (line : List Char) : Prop := '\n' ∉ line ∧ line.getLast? ≠ some '\r'

/-- The line ends in a character that is not white space. -/
def EndsVisibly (line : List Char) : Prop :=
  ∃ c, line.getLast? = some c ∧ isRustWhitespace c = false

theorem exists_trimEnd (cs : List Char) :
    ∃ spaces, (∀ c ∈ spaces, isRustWhitespace c = true) ∧ cs = trimEnd cs ++ spaces :=
  ⟨cs.rtakeWhile isRustWhitespace, fun _ => List.mem_rtakeWhile_imp,
    (List.rdropWhile_append_rtakeWhile ..).symm⟩

/-! ### Joining -/

theorem intercalate_append {α : Type} (sep : List α) {above below : List (List α)}
    (h : above ≠ []) (hbelow : below ≠ []) :
    sep.intercalate (above ++ below) =
      sep.intercalate above ++ sep ++ sep.intercalate below := by
  induction above with
  | nil => exact absurd rfl h
  | cons l above ih =>
    rw [List.cons_append]
    cases above with
    | nil =>
      rw [List.nil_append, List.intercalate_cons_of_ne_nil hbelow, List.intercalate_singleton]
    | cons next above =>
      rw [List.intercalate_cons_of_ne_nil (by simp), List.intercalate_cons_of_ne_nil (by simp),
        ih (List.cons_ne_nil _ _)]
      simp only [List.append_assoc]

theorem joinLines_singleton (line : List Char) : joinLinesWith [line] = line :=
  List.intercalate_singleton

theorem joinLines_cons {lines : List (List Char)} (line : List Char) (h : lines ≠ []) :
    joinLinesWith (line :: lines) = line ++ '\n' :: joinLinesWith lines := by
  rw [joinLinesWith, List.intercalate_cons_of_ne_nil h, List.append_assoc, List.singleton_append]
  rfl

theorem joinLines_append {above below : List (List Char)} (h : above ≠ []) (hbelow : below ≠ []) :
    joinLinesWith (above ++ below) = joinLinesWith above ++ '\n' :: joinLinesWith below := by
  rw [joinLinesWith, intercalate_append _ h hbelow, List.append_assoc, List.singleton_append]
  rfl

theorem infix_intercalate {α : Type} {sep part : List α} {parts : List (List α)}
    (h : part ∈ parts) : part <:+: sep.intercalate parts := by
  induction parts with
  | nil => cases h
  | cons first parts ih =>
    by_cases hnil : parts = []
    · rw [hnil] at h
      rw [hnil, List.intercalate_singleton]
      exact List.mem_singleton.mp h ▸ List.infix_rfl
    · rw [List.intercalate_cons_of_ne_nil hnil]
      rcases List.mem_cons.mp h with rfl | h
      · rw [List.append_assoc]
        exact (List.prefix_append part _).isInfix
      · exact (ih h).trans (List.suffix_append _ _).isInfix

theorem infix_joinLines (h : line ∈ lines) : line <:+: joinLinesWith lines := infix_intercalate h

/-- Blocks of lines joined by a blank line are one run of lines. -/
theorem intercalate_joinLines {blocks : List (List (List Char))} (h : ∀ b ∈ blocks, b ≠ []) :
    ['\n', '\n'].intercalate (blocks.map joinLinesWith) =
      joinLinesWith ([[]].intercalate blocks) := by
  induction blocks with
  | nil => rfl
  | cons block blocks ih =>
    have hblock := h block List.mem_cons_self
    cases blocks with
    | nil => simp only [List.map_cons, List.map_nil, List.intercalate_singleton]
    | cons next blocks =>
      have hrest : [[]].intercalate (next :: blocks) ≠ [] := by
        have hnext := h next (List.mem_cons_of_mem _ List.mem_cons_self)
        cases blocks with
        | nil => rwa [List.intercalate_singleton]
        | cons _ _ => simp [List.intercalate_cons_cons]
      have hstep := ih fun b hb => h b (List.mem_cons_of_mem _ hb)
      rw [List.map_cons, List.map_cons, List.intercalate_cons_cons, ← List.map_cons, hstep,
        List.intercalate_cons_cons, List.append_assoc block,
        joinLines_append hblock (by simp), List.singleton_append, joinLines_cons [] hrest,
        List.append_assoc]
      rfl

theorem joinLines_flatMap (above : List (List Char)) :
    above.flatMap (· ++ ['\n']) = joinLinesWith (above ++ [[]]) := by
  induction above with
  | nil => rfl
  | cons l above ih =>
    rw [List.flatMap_cons, ih, List.cons_append, joinLines_cons l (by simp), List.append_assoc,
      List.singleton_append]

/-! ### Reading back -/

theorem splitChars_of_not_mem (h : '\n' ∉ line) : splitChars '\n' line = [line] := by
  induction line with
  | nil => rfl
  | cons c line ih =>
    rw [List.mem_cons, not_or] at h
    rw [splitChars, if_neg (Ne.symm h.1), ih h.2]

theorem splitChars_append_newline (h : '\n' ∉ line) (rest : List Char) :
    splitChars '\n' (line ++ '\n' :: rest) = line :: splitChars '\n' rest := by
  induction line with
  | nil => rw [List.nil_append, splitChars, if_pos rfl]
  | cons c line ih =>
    rw [List.mem_cons, not_or] at h
    rw [List.cons_append, splitChars, if_neg (Ne.symm h.1), ih h.2]

theorem splitChars_joinLines (hne : lines ≠ []) (h : ∀ l ∈ lines, '\n' ∉ l) :
    splitChars '\n' (joinLinesWith lines) = lines := by
  induction lines with
  | nil => exact absurd rfl hne
  | cons l lines ih =>
    have hl := h l List.mem_cons_self
    cases lines with
    | nil => rw [joinLines_singleton, splitChars_of_not_mem hl]
    | cons next lines =>
      have hrest := ih (List.cons_ne_nil _ _) fun l hm => h l (List.mem_cons_of_mem _ hm)
      rw [joinLines_cons l (List.cons_ne_nil _ _), splitChars_append_newline hl, hrest]

theorem splitChars_ne_nil (sep : Char) (cs : List Char) : splitChars sep cs ≠ [] := by
  cases cs with
  | nil => exact List.cons_ne_nil _ _
  | cons c cs =>
    rw [splitChars]
    split_ifs
    · exact List.cons_ne_nil _ _
    · split <;> exact List.cons_ne_nil _ _

theorem joinLines_splitChars (cs : List Char) : joinLinesWith (splitChars '\n' cs) = cs := by
  induction cs with
  | nil => rfl
  | cons c cs ih =>
    rw [splitChars]
    cases hsplit : splitChars '\n' cs with
    | nil => exact absurd hsplit (splitChars_ne_nil _ _)
    | cons part parts =>
      rw [hsplit] at ih
      split_ifs with hc
      · rw [joinLines_cons [] (List.cons_ne_nil _ _), ih, hc, List.nil_append]
      · by_cases hparts : parts = []
        · rw [hparts, joinLines_singleton] at ih ⊢
          rw [ih]
        · rw [joinLines_cons _ hparts] at ih ⊢
          rw [List.cons_append, ih]

theorem mem_splitChars {sep : Char} {cs : List Char} (h : line ∈ splitChars sep cs) :
    sep ∉ line ∧ line ⊆ cs := by
  induction cs generalizing line with
  | nil =>
    rw [splitChars, List.mem_singleton] at h
    rw [h]
    exact ⟨List.not_mem_nil, List.Subset.refl _⟩
  | cons c cs ih =>
    have htail : ∀ l ∈ splitChars sep cs, sep ∉ l ∧ l ⊆ c :: cs := fun l hl =>
      ⟨(ih hl).1, List.subset_cons_of_subset c (ih hl).2⟩
    rw [splitChars] at h
    split_ifs at h with hsep
    · rcases List.mem_cons.mp h with rfl | h
      · exact ⟨List.not_mem_nil, List.nil_subset _⟩
      · exact htail line h
    · cases hsplit : splitChars sep cs with
      | nil =>
        rw [hsplit] at h
        rw [List.mem_singleton.mp h, List.mem_singleton]
        exact ⟨Ne.symm hsep, List.cons_subset_cons c (List.nil_subset _)⟩
      | cons part parts =>
        rw [hsplit] at h
        rcases List.mem_cons.mp h with rfl | h
        · have hpart := ih (hsplit ▸ List.mem_cons_self)
          exact ⟨fun hmem => (List.mem_cons.mp hmem).elim (Ne.symm hsep) hpart.1,
            List.cons_subset_cons c hpart.2⟩
        · exact htail line (hsplit ▸ List.mem_cons_of_mem _ h)

theorem dropReturn_prefix (line : List Char) : dropReturn line <+: line := by
  unfold dropReturn
  split_ifs
  · exact List.dropLast_prefix line
  · exact List.prefix_refl line

theorem mem_linesOf {cs : List Char} (h : line ∈ linesOf cs) : '\n' ∉ line ∧ line ⊆ cs := by
  rcases List.mem_append.mp h with h | h
  · obtain ⟨part, hpart, rfl⟩ := List.mem_map.mp h
    obtain ⟨hsep, hsub⟩ := mem_splitChars (List.dropLast_subset _ hpart)
    have hdrop : dropReturn part ⊆ part := List.IsPrefix.subset <| dropReturn_prefix part
    exact ⟨fun hmem => hsep (hdrop hmem), List.Subset.trans hdrop hsub⟩
  · obtain ⟨hlast, -⟩ := Option.filter_eq_some_iff.mp (Option.mem_toList.mp h)
    exact mem_splitChars (List.mem_of_getLast? hlast)

theorem dropReturn_of_isLine (h : IsLine line) : dropReturn line = line := by
  rw [dropReturn, if_neg h.2]

theorem EndsVisibly.ne_nil (h : EndsVisibly line) : line ≠ [] := by
  obtain ⟨c, hc, -⟩ := h
  rintro rfl
  cases hc

theorem linesOf_joinLines (h : ∀ l ∈ above ++ [line], IsLine l) (hlast : line ≠ []) :
    linesOf (joinLinesWith (above ++ [line])) = above ++ [line] := by
  have hmap : above.map dropReturn = above :=
    (List.map_congr_left fun l hl =>
      dropReturn_of_isLine (h l (List.mem_append_left _ hl))).trans (List.map_id' above)
  rw [linesOf, splitChars_joinLines (by simp) fun l hl => (h l hl).1, List.dropLast_concat,
    List.getLast?_concat, hmap]
  simp [hlast]

/-! ### Trimming the end -/

theorem trimEnd_append_of_whitespace {cs spaces : List Char}
    (h : ∀ c ∈ spaces, isRustWhitespace c = true) : trimEnd (cs ++ spaces) = trimEnd cs := by
  induction spaces using List.reverseRecOn with
  | nil => rw [List.append_nil]
  | append_singleton spaces c ih =>
    rw [trimEnd, ← List.append_assoc, List.rdropWhile_concat_pos _ _ _ (h c (by simp))]
    exact ih fun c hc => h c (by simp [hc])

theorem trimEnd_dropReturn (line : List Char) : trimEnd (dropReturn line) = trimEnd line := by
  unfold dropReturn
  split
  · next hlast =>
    obtain ⟨front, rfl⟩ := List.getLast?_eq_some_iff.mp hlast
    have hwhite : ∀ c ∈ ['\r'], isRustWhitespace c = true := fun c hc => by
      rw [List.mem_singleton.mp hc]
      decide
    rw [List.dropLast_concat, trimEnd_append_of_whitespace hwhite]
  · rfl

theorem trimChars_append_white {white cs : List Char}
    (h : ∀ c ∈ white, isRustWhitespace c = true) : trimChars (white ++ cs) = trimChars cs := by
  rw [trimChars, List.dropWhile_append_of_pos h, trimChars]

theorem trimChars_append_trailing {cs white : List Char}
    (h : ∀ c ∈ white, isRustWhitespace c = true) : trimChars (cs ++ white) = trimChars cs := by
  by_cases hcs : ∀ c ∈ cs, isRustWhitespace c = true
  · rw [trimChars_append_white hcs, ← List.append_nil white, trimChars_append_white h,
      ← List.append_nil cs, trimChars_append_white hcs]
  · obtain ⟨c, hc, hspace⟩ : ∃ c ∈ cs, isRustWhitespace c = false := by simpa using hcs
    have hdrop : (cs ++ white).dropWhile isRustWhitespace =
        cs.dropWhile isRustWhitespace ++ white := by
      rw [List.dropWhile_append, if_neg]
      simpa using ⟨c, hc, hspace⟩
    rw [trimChars, hdrop]
    exact trimEnd_append_of_whitespace h

/-- What is trimmed away. -/
theorem exists_trimChars (cs : List Char) :
    ∃ before after, cs = before ++ trimChars cs ++ after ∧
      (∀ c ∈ before, isRustWhitespace c = true) ∧ ∀ c ∈ after, isRustWhitespace c = true := by
  refine ⟨cs.takeWhile isRustWhitespace, (cs.dropWhile isRustWhitespace).rtakeWhile isRustWhitespace,
    ?_, fun c => List.mem_takeWhile_imp, fun c => List.mem_rtakeWhile_imp⟩
  rw [List.append_assoc, trimChars, List.rdropWhile_append_rtakeWhile,
    List.takeWhile_append_dropWhile]

theorem trimMatches_eq_self {p : Char → Bool} {cs : List Char} (h : ∀ c ∈ cs, p c = false) :
    trimMatches p cs = cs := by
  have hdrop : cs.dropWhile p = cs :=
    List.dropWhile_eq_self_iff.mpr fun hpos => by simp [h _ (List.getElem_mem hpos)]
  rw [trimMatches, hdrop, List.rdropWhile_eq_self_iff]
  exact fun hne => by simp [h _ (List.getLast_mem hne)]

theorem trimEnd_of_endsVisibly {cs : List Char} (h : EndsVisibly cs) : trimEnd cs = cs := by
  obtain ⟨c, hc, hspace⟩ := h
  obtain ⟨front, rfl⟩ := List.getLast?_eq_some_iff.mp hc
  rw [trimEnd, List.rdropWhile_concat_neg _ _ _ (by simp [hspace])]

theorem endsVisibly_append {cs : List Char} (h : EndsVisibly line) : EndsVisibly (cs ++ line) := by
  obtain ⟨c, hc, hspace⟩ := h
  exact ⟨c, by rw [List.getLast?_append, hc, Option.some_or], hspace⟩

theorem endsVisibly_joinLines (h : EndsVisibly line) (above : List (List Char)) :
    EndsVisibly (joinLinesWith (above ++ [line])) := by
  rcases above.eq_nil_or_concat with rfl | ⟨front, l, rfl⟩
  · rwa [List.nil_append, joinLines_singleton]
  · rw [joinLines_append (by simp) (by simp), joinLines_singleton, List.append_cons]
    exact endsVisibly_append h

/-- Blank lines below a line that ends visibly are trimmed away. -/
theorem trimEnd_joinLines (h : EndsVisibly line)
    (hbelow : ∀ l ∈ below, ∀ c ∈ l, isRustWhitespace c = true) :
    trimEnd (joinLinesWith (above ++ [line] ++ below)) = joinLinesWith (above ++ [line]) := by
  induction below using List.reverseRecOn with
  | nil => rw [List.append_nil, trimEnd_of_endsVisibly (endsVisibly_joinLines h above)]
  | append_singleton below l ih =>
    have hspace : ∀ c ∈ '\n' :: l, isRustWhitespace c = true := by
      intro c hc
      rcases List.mem_cons.mp hc with rfl | hc
      · decide
      · exact hbelow l (by simp) c hc
    rw [← List.append_assoc, joinLines_append (by simp) (by simp), joinLines_singleton,
      trimEnd_append_of_whitespace hspace]
    exact ih fun l' hl' => hbelow l' (by simp [hl'])

end Sashiko
