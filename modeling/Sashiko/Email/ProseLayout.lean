import Sashiko.Email.TextLayout

/-! Prose that is wrapped again around quoted, indented and empty lines, which are kept. -/

namespace Sashiko

namespace EmailText

structure ProseState where
  out : Text
  paragraph : List Text

def ProseState.flush (s : ProseState) : ProseState :=
  if s.paragraph = [] then s else ⟨s.out ++ wrap ([' '].intercalate s.paragraph) [] [], []⟩

def isVerbatim (line : Text) : Bool :=
  trimChars line = [] || line.head? = some '>' || line.head? = some ' ' || line.head? = some '\t'

def ProseState.add (s : ProseState) (line : Text) : ProseState :=
  if isVerbatim line then ⟨s.flush.out ++ trimEnd line ++ ['\n'], s.flush.paragraph⟩
  else { s with paragraph := s.paragraph ++ [trimChars line] }

def wrapProse (text : Text) : Text :=
  trimEnd ((linesOf (trimChars text)).foldl ProseState.add ⟨[], []⟩).flush.out

/-! ### The lines of the output -/

/-- The lines of a paragraph, filled again. -/
def refilled (paragraph : List Text) : List Text :=
  if paragraph = [] then []
  else setLines [] [] (filled [] [] (splitWhitespace ([' '].intercalate paragraph)))

def layProse (paragraph : List Text) : List Text → List Text
  | [] => refilled paragraph
  | line :: lines =>
    if isVerbatim line then refilled paragraph ++ trimEnd line :: layProse [] lines
    else layProse (paragraph ++ [trimChars line]) lines

theorem flush_out (s : ProseState) :
    s.flush.out = s.out ++ (refilled s.paragraph).flatMap (· ++ ['\n']) := by
  unfold ProseState.flush refilled
  split_ifs
  · simp
  · rw [wrap_eq]

theorem flush_paragraph (s : ProseState) : s.flush.paragraph = [] := by
  unfold ProseState.flush
  split_ifs with h
  · exact h
  · rfl

theorem foldl_add (lines : List Text) (s : ProseState) :
    (lines.foldl ProseState.add s).flush.out =
      s.out ++ (layProse s.paragraph lines).flatMap (· ++ ['\n']) := by
  induction lines generalizing s with
  | nil => exact flush_out s
  | cons line lines ih =>
    rw [List.foldl_cons, ih, layProse, ProseState.add]
    split_ifs
    · simp [flush_out, flush_paragraph]
    · rfl

/-! ### What becomes of the words -/

theorem splitWhitespace_intercalate {sep : Char} (hsep : isRustWhitespace sep = true)
    (parts : List Text) :
    splitWhitespace ([sep].intercalate parts) = parts.flatMap splitWhitespace := by
  induction parts with
  | nil => rfl
  | cons part parts ih =>
    by_cases hnil : parts = []
    · rw [hnil, List.intercalate_singleton, List.flatMap_singleton]
    · rw [List.intercalate_cons_of_ne_nil hnil, List.append_assoc, List.singleton_append,
        splitWhitespace_append hsep, ih, List.flatMap_cons]

theorem splitWhitespace_trimEnd (line : Text) :
    splitWhitespace (trimEnd line) = splitWhitespace line := by
  obtain ⟨spaces, hspaces, hline⟩ := exists_trimEnd line
  conv_rhs => rw [hline]
  exact (splitWhitespace_append_spaces _ hspaces).symm

theorem splitWhitespace_flatMap (lines : List Text) :
    splitWhitespace (lines.flatMap (· ++ ['\n'])) = lines.flatMap splitWhitespace := by
  rw [joinLines_flatMap, joinLinesWith, splitWhitespace_intercalate (by decide),
    List.flatMap_append, List.flatMap_singleton]
  exact List.append_nil _

theorem splitWhitespace_dropReturn (line : Text) :
    splitWhitespace (dropReturn line) = splitWhitespace line := by
  rw [← splitWhitespace_trimEnd, trimEnd_dropReturn, splitWhitespace_trimEnd]

/-- The lines of a text, the last of which is `last`. -/
theorem linesOf_eq {cs last : Text} {front : List Text} (hne : last ≠ [])
    (h : splitChars '\n' cs = front ++ [last]) :
    linesOf cs = front.map dropReturn ++ [last] := by
  rw [linesOf, h, List.dropLast_concat, List.getLast?_concat]
  simp [hne]

theorem exists_last_line {cs : Text} (h : EndsVisibly cs) :
    ∃ front last, splitChars '\n' cs = front ++ [last] ∧ EndsVisibly last := by
  obtain ⟨front, last, hsplit⟩ :=
    (splitChars '\n' cs).eq_nil_or_concat'.resolve_left (splitChars_ne_nil _ _)
  refine ⟨front, last, hsplit, ?_⟩
  have hjoin := joinLines_splitChars cs
  by_cases hfront : front = []
  · rw [hsplit, hfront, List.nil_append, joinLines_singleton] at hjoin
    exact hjoin ▸ h
  · rw [hsplit, joinLines_append hfront (by simp), joinLines_singleton] at hjoin
    obtain ⟨c, hc, hspace⟩ := h
    rw [← hjoin, List.getLast?_append] at hc
    cases last with
    | nil =>
      obtain rfl : '\n' = c := by simpa using hc
      exact absurd hspace (by decide)
    | cons d last => exact ⟨c, by simpa using hc, hspace⟩

theorem flatMap_linesOf {cs : Text} (h : EndsVisibly cs) :
    (linesOf cs).flatMap splitWhitespace = splitWhitespace cs := by
  obtain ⟨front, last, hsplit, hlast⟩ := exists_last_line h
  have hfront : (front.map dropReturn).flatMap splitWhitespace = front.flatMap splitWhitespace := by
    rw [List.flatMap_map]
    exact List.flatMap_congr fun line _ => splitWhitespace_dropReturn line
  rw [linesOf_eq hlast.ne_nil hsplit, List.flatMap_append, hfront, ← List.flatMap_append, ← hsplit,
    ← splitWhitespace_intercalate (by decide : isRustWhitespace '\n' = true)]
  exact congrArg splitWhitespace (joinLines_splitChars cs)

theorem isWord_of_mem_filled {first rest : Text} {ws : List Text} (hws : ∀ w ∈ ws, IsWord w)
    {l : List Text} (hl : l ∈ filled first rest ws) {w : Text} (hw : w ∈ l) : IsWord w :=
  hws w ((sets_filled first rest ws).words_eq ▸ List.mem_flatten.mpr ⟨l, hl, hw⟩)

theorem flatMap_setLines {ls : List (List Text)} (h : ∀ l ∈ ls, ∀ w ∈ l, IsWord w) :
    (setLines [] [] ls).flatMap splitWhitespace = ls.flatten := by
  have hlines : ∀ ls : List (List Text), (∀ l ∈ ls, ∀ w ∈ l, IsWord w) →
      (ls.map (setLine [])).flatMap splitWhitespace = ls.flatten := by
    intro ls h
    rw [List.flatMap_map, List.flatMap_def]
    congr 1
    exact (List.map_congr_left fun l hl => splitWhitespace_setLine (fun _ hc => absurd hc List.not_mem_nil) (h l hl)).trans
      (List.map_id' ls)
  cases ls with
  | nil => rfl
  | cons l ls => exact hlines (l :: ls) h

theorem flatMap_refilled (paragraph : List Text) :
    (refilled paragraph).flatMap splitWhitespace = paragraph.flatMap splitWhitespace := by
  unfold refilled
  split_ifs with hnil
  · rw [hnil]
  · rw [flatMap_setLines fun l hl w hw => isWord_of_mem_filled (fun _ => isWord_of_mem) hl hw,
      (sets_filled [] [] _).words_eq, splitWhitespace_intercalate (by decide)]

theorem flatMap_layProse (paragraph lines : List Text) :
    (layProse paragraph lines).flatMap splitWhitespace =
      paragraph.flatMap splitWhitespace ++ lines.flatMap splitWhitespace := by
  induction lines generalizing paragraph with
  | nil => rw [layProse, flatMap_refilled, List.flatMap_nil, List.append_nil]
  | cons line lines ih =>
    rw [layProse]
    split_ifs
    · rw [List.flatMap_append, flatMap_refilled, List.flatMap_cons, splitWhitespace_trimEnd, ih,
        List.flatMap_nil, List.nil_append, List.flatMap_cons]
    · rw [ih, List.flatMap_append, List.flatMap_singleton, splitWhitespace_trimChars,
        List.append_assoc, List.flatMap_cons]

/-! ### What the lines are -/

/-- A line that has no break in it and no white space at its end. -/
def IsTidy (line : Text) : Prop := '\n' ∉ line ∧ (line = [] ∨ EndsVisibly line)

theorem IsTidy.isLine {line : Text} (h : IsTidy line) : IsLine line := by
  refine ⟨h.1, fun hlast => ?_⟩
  rcases h.2 with rfl | ⟨c, hc, hspace⟩
  · cases hlast
  · obtain rfl := Option.some_inj.mp (hc.symm.trans hlast)
    exact absurd hspace (by decide)

theorem endsVisibly_of_trimEnd {line : Text} (h : trimEnd line ≠ []) :
    EndsVisibly (trimEnd line) :=
  ⟨_, List.getLast?_eq_some_getLast h,
    Bool.eq_false_iff.mpr (List.rdropWhile_last_not isRustWhitespace line h)⟩

theorem isTidy_trimEnd {line : Text} (h : '\n' ∉ line) : IsTidy (trimEnd line) := by
  refine ⟨fun hmem => h ((List.rdropWhile_prefix _ _).subset hmem), ?_⟩
  exact (eq_or_ne (trimEnd line) []).imp_right endsVisibly_of_trimEnd

theorem IsWord.endsVisibly {w : Text} (h : IsWord w) : EndsVisibly w :=
  ⟨w.getLast h.1, List.getLast?_eq_some_getLast h.1, h.2 _ (List.getLast_mem h.1)⟩

theorem endsVisibly_setLine {ws : List Text} (hne : ws ≠ []) (h : ∀ w ∈ ws, IsWord w) :
    EndsVisibly (setLine [] ws) := by
  obtain ⟨front, w, rfl⟩ := ws.eq_nil_or_concat'.resolve_left hne
  have hvisible := (h w (by simp)).endsVisibly
  by_cases hfront : front = []
  · rw [hfront, List.nil_append, setLine_singleton]
    exact endsVisibly_append hvisible
  · rw [setLine_concat [] hfront]
    exact endsVisibly_append hvisible

theorem newline_not_mem_setLine {ws : List Text} (h : ∀ w ∈ ws, IsWord w) :
    '\n' ∉ setLine [] ws := by
  induction ws with
  | nil => exact List.not_mem_nil
  | cons w ws ih =>
    have hw : '\n' ∉ w := fun hmem =>
      absurd ((h w List.mem_cons_self).2 _ hmem) (by decide)
    by_cases hnil : ws = []
    · rw [hnil, setLine_singleton]
      exact hw
    · rw [setLine, List.nil_append, List.intercalate_cons_of_ne_nil hnil, List.append_assoc,
        List.mem_append, List.singleton_append, List.mem_cons]
      rintro (hmem | hspace | hmem)
      · exact hw hmem
      · exact absurd hspace (by decide)
      · exact ih (fun v hv => h v (List.mem_cons_of_mem _ hv)) hmem

theorem mem_refilled {paragraph : List Text} {line : Text} (h : line ∈ refilled paragraph) :
    line = [] ∨ ∃ ws, ws ≠ [] ∧ (∀ w ∈ ws, IsWord w) ∧ line = setLine [] ws ∧
      (byteLen line ≤ wrapWidth ∨ ws.length = 1) := by
  unfold refilled at h
  split_ifs at h
  · cases h
  · have hsets := sets_filled [] [] (splitWhitespace ([' '].intercalate paragraph))
    have hword : ∀ l ∈ filled [] [] (splitWhitespace ([' '].intercalate paragraph)),
        ∀ w ∈ l, IsWord w := fun l hl w => isWord_of_mem_filled (fun _ => isWord_of_mem) hl
    cases hfilled : filled [] [] (splitWhitespace ([' '].intercalate paragraph)) with
    | nil =>
      rw [hfilled] at h
      exact .inl (List.mem_singleton.mp h)
    | cons l ls =>
      rw [hfilled] at h hsets hword
      rcases List.mem_cons.mp h with rfl | h
      · exact .inr ⟨l, hsets.ne_nil l List.mem_cons_self, hword l List.mem_cons_self, rfl,
          hsets.first_fits l rfl⟩
      · obtain ⟨l', hl', rfl⟩ := List.mem_map.mp h
        exact .inr ⟨l', hsets.ne_nil l' (List.mem_cons_of_mem _ hl'),
          hword l' (List.mem_cons_of_mem _ hl'), rfl, hsets.rest_fits l' hl'⟩

theorem mem_layProse {paragraph lines : List Text} {line : Text}
    (h : line ∈ layProse paragraph lines) :
    (∃ l ∈ lines, isVerbatim l = true ∧ line = trimEnd l) ∨ ∃ p, line ∈ refilled p := by
  induction lines generalizing paragraph with
  | nil => exact .inr ⟨paragraph, h⟩
  | cons l lines ih =>
    rw [layProse] at h
    split_ifs at h with hv
    · rcases List.mem_append.mp h with h | h
      · exact .inr ⟨paragraph, h⟩
      · rcases List.mem_cons.mp h with rfl | h
        · exact .inl ⟨l, List.mem_cons_self, hv, rfl⟩
        · exact (ih h).imp_left fun ⟨l', hl', h'⟩ => ⟨l', List.mem_cons_of_mem _ hl', h'⟩
    · exact (ih h).imp_left fun ⟨l', hl', h'⟩ => ⟨l', List.mem_cons_of_mem _ hl', h'⟩

theorem isTidy_of_mem_refilled {paragraph : List Text} {line : Text}
    (h : line ∈ refilled paragraph) : IsTidy line := by
  rcases mem_refilled h with rfl | ⟨ws, hne, hws, rfl, -⟩
  · exact ⟨List.not_mem_nil, .inl rfl⟩
  · exact ⟨newline_not_mem_setLine hws, .inr (endsVisibly_setLine hne hws)⟩

theorem sublist_layProse (paragraph lines : List Text) :
    ((lines.filter isVerbatim).map trimEnd).Sublist (layProse paragraph lines) := by
  induction lines generalizing paragraph with
  | nil => exact List.nil_sublist _
  | cons line lines ih =>
    rw [layProse]
    split_ifs with hv
    · rw [List.filter_cons_of_pos hv, List.map_cons]
      exact ((ih []).cons_cons _).trans (List.sublist_append_right _ _)
    · rw [List.filter_cons_of_neg hv]
      exact ih _

/-- A character that can be seen stands in a word. -/
theorem exists_mem_splitOnP {c : Char} {cs : Text} (hc : c ∈ cs)
    (hspace : isRustWhitespace c = false) : ∃ w ∈ cs.splitOnP isRustWhitespace, c ∈ w := by
  induction cs with
  | nil => cases hc
  | cons d cs ih =>
    rw [List.splitOnP_cons_eq_if_modifyHead]
    split_ifs with hd
    · rcases List.mem_cons.mp hc with rfl | hc
      · exact absurd (hspace.symm.trans hd) (by decide)
      · obtain ⟨w, hw, hcw⟩ := ih hc
        exact ⟨w, List.mem_cons_of_mem _ hw, hcw⟩
    · obtain ⟨part, parts, hsplit⟩ := List.exists_cons_of_ne_nil
        (List.splitOnP_ne_nil isRustWhitespace cs)
      rw [hsplit, List.modifyHead_cons]
      rcases List.mem_cons.mp hc with rfl | hc
      · exact ⟨c :: part, List.mem_cons_self, List.mem_cons_self⟩
      · obtain ⟨w, hw, hcw⟩ := ih hc
        rw [hsplit] at hw
        rcases List.mem_cons.mp hw with rfl | hw
        · exact ⟨d :: w, List.mem_cons_self, List.mem_cons_of_mem _ hcw⟩
        · exact ⟨w, List.mem_cons_of_mem _ hw, hcw⟩

theorem splitWhitespace_ne_nil {line : Text} (h : EndsVisibly line) :
    splitWhitespace line ≠ [] := by
  obtain ⟨c, hc, hspace⟩ := h
  obtain ⟨w, hw, hcw⟩ := exists_mem_splitOnP (List.mem_of_getLast? hc) hspace
  exact List.ne_nil_of_mem (List.mem_filter.mpr ⟨hw, by simpa using List.ne_nil_of_mem hcw⟩)

/-- A paragraph with words in it ends in a line that can be seen. -/
theorem exists_last_refilled {paragraph : List Text}
    (h : paragraph.flatMap splitWhitespace ≠ []) :
    ∃ above last, refilled paragraph = above ++ [last] ∧ EndsVisibly last := by
  have hne : paragraph ≠ [] := by
    rintro rfl
    exact h rfl
  rw [← splitWhitespace_intercalate (by decide : isRustWhitespace ' ' = true)] at h
  have hword : ∀ w ∈ splitWhitespace ([' '].intercalate paragraph), IsWord w :=
    fun _ => isWord_of_mem
  rw [refilled, if_neg hne]
  revert h hword
  generalize splitWhitespace ([' '].intercalate paragraph) = words
  intro h hword
  have hsets := sets_filled [] [] words
  obtain ⟨l, ls, hfilled⟩ := List.exists_cons_of_ne_nil (l := filled [] [] words) fun hnil =>
    h (by rw [← hsets.words_eq, hnil, List.flatten_nil])
  have hlines : setLines [] [] (filled [] [] words) = (filled [] [] words).map (setLine []) := by
    rw [hfilled]
    rfl
  obtain ⟨above, last, hlast⟩ :=
    (filled [] [] words).eq_nil_or_concat'.resolve_left (hfilled ▸ List.cons_ne_nil _ _)
  have hmem : last ∈ filled [] [] words := hlast ▸ List.mem_append_right _ List.mem_cons_self
  exact ⟨above.map (setLine []), setLine [] last, by rw [hlines, hlast, List.map_append]; rfl,
    endsVisibly_setLine (hsets.ne_nil last hmem) fun w => isWord_of_mem_filled hword hmem⟩

theorem exists_last_layProse {last : Text} (h : EndsVisibly last) (paragraph lines : List Text) :
    ∃ above line, layProse paragraph (lines ++ [last]) = above ++ [line] ∧ EndsVisibly line := by
  induction lines generalizing paragraph with
  | nil =>
    rw [List.nil_append, layProse]
    split_ifs
    · refine ⟨refilled paragraph, last, ?_, h⟩
      rw [trimEnd_of_endsVisibly h]
      rfl
    · refine exists_last_refilled ?_
      rw [List.flatMap_append, List.flatMap_singleton, splitWhitespace_trimChars]
      exact List.append_ne_nil_of_right_ne_nil _ (splitWhitespace_ne_nil h)
  | cons line lines ih =>
    rw [List.cons_append, layProse]
    split_ifs
    · obtain ⟨above, l, heq, hl⟩ := ih []
      exact ⟨refilled paragraph ++ trimEnd line :: above, l, by rw [heq]; simp, hl⟩
    · exact ih _

theorem wrapProse_eq (text : Text) :
    wrapProse text = trimEnd ((layProse [] (linesOf (trimChars text))).flatMap (· ++ ['\n'])) := by
  rw [wrapProse, foldl_add, List.nil_append]

/-- The lines that are read back are those that were laid out: the text was trimmed. -/
theorem linesOf_wrapProse (text : Text) :
    linesOf (wrapProse text) = layProse [] (linesOf (trimChars text)) := by
  by_cases hnil : trimChars text = []
  · rw [wrapProse_eq, hnil]
    rfl
  · obtain ⟨front, last, hsplit, hlast⟩ := exists_last_line (endsVisibly_of_trimEnd hnil)
    obtain ⟨above, line, hlay, hline⟩ := exists_last_layProse hlast [] (front.map dropReturn)
    rw [← linesOf_eq hlast.ne_nil hsplit] at hlay
    have htidy : ∀ l ∈ above ++ [line], IsLine l := by
      intro l hl
      rw [← hlay] at hl
      rcases mem_layProse hl with ⟨l', hl', -, rfl⟩ | ⟨p, hp⟩
      · exact (isTidy_trimEnd (mem_linesOf hl').1).isLine
      · exact (isTidy_of_mem_refilled hp).isLine
    have hbelow : ∀ l ∈ [([] : Text)], ∀ c ∈ l, isRustWhitespace c = true := by
      intro l hl
      rw [List.mem_singleton.mp hl]
      exact fun c hc => absurd hc List.not_mem_nil
    rw [wrapProse_eq, trimChars, ← trimEnd, hlay, joinLines_flatMap, trimEnd_joinLines hline hbelow,
      linesOf_joinLines htidy hline.ne_nil]

theorem splitWhitespace_wrapProse (text : Text) :
    splitWhitespace (wrapProse text) = splitWhitespace text := by
  rw [wrapProse_eq, splitWhitespace_trimEnd, splitWhitespace_flatMap, flatMap_layProse,
    List.flatMap_nil, List.nil_append]
  by_cases hnil : trimChars text = []
  · rw [← splitWhitespace_trimChars text, hnil]
    rfl
  · have hlines : (linesOf (trimChars text)).flatMap splitWhitespace =
        splitWhitespace (trimChars text) := flatMap_linesOf (endsVisibly_of_trimEnd hnil)
    rw [hlines, splitWhitespace_trimChars]

/-- No word is lost, added or moved. Quoted, indented and empty lines are kept as they are, in order,
and every other line is within the width or a single word. -/
theorem wrapProse_keeps (text : Text) :
    splitWhitespace (wrapProse text) = splitWhitespace text ∧
      (((linesOf (trimChars text)).filter isVerbatim).map trimEnd).Sublist
        (linesOf (wrapProse text)) ∧
      ∀ line ∈ linesOf (wrapProse text),
        (∃ l ∈ linesOf (trimChars text), isVerbatim l = true ∧ line = trimEnd l) ∨
          byteLen line ≤ wrapWidth ∨ IsWord line := by
  refine ⟨splitWhitespace_wrapProse text, linesOf_wrapProse text ▸ sublist_layProse _ _,
    fun line hline => ?_⟩
  rw [linesOf_wrapProse] at hline
  refine (mem_layProse hline).imp_right fun ⟨p, hp⟩ => ?_
  rcases mem_refilled hp with rfl | ⟨ws, -, hws, rfl, hfits | hone⟩
  · exact .inl (Nat.zero_le _)
  · exact .inl hfits
  · obtain ⟨w, rfl⟩ := List.length_eq_one_iff.mp hone
    rw [setLine_singleton, List.nil_append]
    exact .inr (hws w List.mem_cons_self)

end EmailText

end Sashiko
