import Sashiko.Toolbox.GrepOutput

/-! What becomes of a match line of `git grep`: read as an anchor it is in the output, whatever
stands around it. -/

namespace Sashiko

/-- What `git grep` writes for a match in a revision. -/
def matchLine (revision path number content : Chars) : Chars :=
  revision ++ ':' :: (path ++ ':' :: (number ++ ':' :: content))

def IsNumber (number : Chars) : Prop := number ≠ [] ∧ ∀ c ∈ number, c.isDigit = true

/-- The pattern reads the line as one of a match or of a function. -/
def ReadAsAnchor (line : Chars) : Prop :=
  ∃ caps, grepCaptures line = some caps ∧ caps.sep1 = caps.sep2 ∧ caps.isAnchor = true

/-- Some line of the output ends in the number and the text; white space is trimmed off the end of
the output. -/
def ShowsMatch (out number content : Chars) : Prop :=
  ∃ spaces before c after, (∀ c ∈ spaces, isRustWhitespace c = true) ∧ c.isDigit = false ∧
    out ++ spaces = before ++ c :: (number ++ ':' :: content) ++ '\n' :: after

/-! ### The pattern -/

section Captures

variable {line : Chars} {caps : GrepCaptures}

theorem capturesAfter_spec {length : ℕ} (h : capturesAfter line length = some caps) :
    line = caps.path ++ caps.sep1 :: (caps.lineNum ++ caps.sep2 :: caps.content) ∧
      caps.path = line.take length ∧ isGrepSeparator caps.sep1 = true ∧
      isGrepSeparator caps.sep2 = true ∧ IsNumber caps.lineNum := by
  unfold capturesAfter at h
  split at h
  · cases h
  · rename_i sep1 rest hdrop
    split at h
    · cases h
    · rename_i sep2 content hrest
      split_ifs at h with hread
      cases h
      refine ⟨?_, rfl, hread.1, hread.2.2, hread.2.1, fun c => List.mem_takeWhile_imp⟩
      rw [← hrest, List.takeWhile_append_dropWhile, ← hdrop, List.take_append_drop]

theorem grepCaptures_spec (h : grepCaptures line = some caps) :
    line = caps.path ++ caps.sep1 :: (caps.lineNum ++ caps.sep2 :: caps.content) ∧
      caps.path ≠ [] ∧ (∀ c ∈ caps.path, isPathChar c = true) ∧
      isGrepSeparator caps.sep1 = true ∧ IsNumber caps.lineNum := by
  obtain ⟨n, hn, hcaps⟩ := List.exists_of_findSome?_eq_some h
  rw [List.mem_reverse, List.mem_range] at hn
  obtain ⟨hline, hpath, hsep1, -, hnumber⟩ := capturesAfter_spec hcaps
  have hpre : line.take (n + 1) <+: line.takeWhile isPathChar := by
    have htake := List.prefix_of_prefix_length_le (List.take_prefix (n + 1) line)
      (List.takeWhile_prefix isPathChar) (by rw [List.length_take]; omega)
    exact htake
  refine ⟨hline, ?_, fun c hc => ?_, hsep1, hnumber⟩
  · rw [hpath]
    rintro hnil
    have hlen : n + 1 ≤ line.length := hn.trans_le (List.takeWhile_prefix isPathChar).length_le
    have hzero := congrArg List.length hnil
    rw [List.length_take, List.length_nil] at hzero
    omega
  · rw [hpath] at hc
    exact List.mem_takeWhile_imp (hpre.mem hc)

theorem not_isDigit_of_separator {c : Char} (h : isGrepSeparator c = true) :
    c.isDigit = false := by
  simp only [isGrepSeparator, List.contains_cons, List.contains_nil, Bool.or_eq_true, beq_iff_eq,
    Bool.false_eq_true, or_false] at h
  rcases h with rfl | rfl | rfl <;> rfl

theorem capturesAfter_append {path number content : Chars} {sep1 sep2 : Char}
    (hsep1 : isGrepSeparator sep1 = true) (hsep2 : isGrepSeparator sep2 = true)
    (hnumber : IsNumber number) :
    capturesAfter (path ++ sep1 :: (number ++ sep2 :: content)) path.length =
      some ⟨path, sep1, number, sep2, content⟩ := by
  have hstop : ¬sep2.isDigit = true := by simp [not_isDigit_of_separator hsep2]
  have htake : (number ++ sep2 :: content).takeWhile Char.isDigit = number := by
    rw [List.takeWhile_append_of_pos hnumber.2, List.takeWhile_cons_of_neg hstop, List.append_nil]
  have hdrop : (number ++ sep2 :: content).dropWhile Char.isDigit = sep2 :: content := by
    rw [List.dropWhile_append_of_pos hnumber.2, List.dropWhile_cons_of_neg hstop]
  rw [capturesAfter, List.drop_left]
  dsimp only
  rw [hdrop, htake]
  dsimp only
  rw [if_pos ⟨hsep1, hnumber.1, hsep2⟩, List.take_left]

/-- A path of the pattern's characters in front of a colon. -/
theorem grepCaptures_match {path number content : Chars} (hne : path ≠ [])
    (hpath : ∀ c ∈ path, isPathChar c = true) (hnumber : IsNumber number) :
    grepCaptures (path ++ ':' :: (number ++ ':' :: content)) =
      some ⟨path, ':', number, ':', content⟩ := by
  have htake : (path ++ ':' :: (number ++ ':' :: content)).takeWhile isPathChar = path := by
    rw [List.takeWhile_append_of_pos hpath, List.takeWhile_cons_of_neg (by decide),
      List.append_nil]
  obtain ⟨n, hn⟩ := Nat.exists_eq_succ_of_ne_zero (List.length_pos_iff.mpr hne).ne'
  rw [grepCaptures, htake, hn, List.range_succ, List.reverse_concat, List.findSome?_cons,
    ← Nat.succ_eq_add_one, ← hn, capturesAfter_append rfl rfl hnumber]

/-- The first line of the hunk that hides a context line. -/
theorem grepCaptures_zero {path : Chars} (hne : path ≠ [])
    (hpath : ∀ c ∈ path, isPathChar c = true) :
    grepCaptures (path ++ ['-', '0', '-']) = some ⟨path, '-', ['0'], '-', []⟩ := by
  have htake : (path ++ ['-', '0', '-']).takeWhile isPathChar = path ++ ['-', '0', '-'] :=
    List.takeWhile_eq_self_iff.mpr fun c hc => by
      rcases List.mem_append.mp hc with hc | hc
      · exact hpath c hc
      · rcases List.mem_cons.mp hc with rfl | hc
        · rfl
        · rcases List.mem_cons.mp hc with rfl | hc
          · rfl
          · rw [List.mem_singleton.mp hc]
            rfl
  obtain ⟨n, hn⟩ := Nat.exists_eq_succ_of_ne_zero (List.length_pos_iff.mpr hne).ne'
  have hlen : (path ++ ['-', '0', '-']).length = n + 1 + 1 + 1 + 1 := by
    rw [List.length_append, hn]
    rfl
  have hthree : capturesAfter (path ++ ['-', '0', '-']) (n + 1 + 1 + 1 + 1) = none := by
    rw [capturesAfter, ← hlen, List.drop_length]
  have htwo : capturesAfter (path ++ ['-', '0', '-']) (n + 1 + 1 + 1) = none := by
    have hdrop : (path ++ ['-', '0', '-']).drop (n + 1 + 1 + 1) = ['-'] := by
      rw [← Nat.succ_eq_add_one n, ← hn, ← List.drop_drop, ← List.drop_drop, List.drop_left]
      rfl
    rw [capturesAfter, hdrop]
    rfl
  have hone : capturesAfter (path ++ ['-', '0', '-']) (n + 1 + 1) = none := by
    have hdrop : (path ++ ['-', '0', '-']).drop (n + 1 + 1) = ['0', '-'] := by
      rw [← Nat.succ_eq_add_one n, ← hn, ← List.drop_drop, List.drop_left]
      rfl
    rw [capturesAfter, hdrop]
    rfl
  have hzero : capturesAfter (path ++ ['-', '0', '-']) path.length =
      some ⟨path, '-', ['0'], '-', []⟩ :=
    @capturesAfter_append path ['0'] [] '-' '-' rfl rfl ⟨by simp, List.all_eq_true.mp rfl⟩
  rw [grepCaptures, htake, hlen]
  simp only [List.range_succ, List.reverse_append, List.reverse_singleton, List.singleton_append,
    List.findSome?_cons, hthree, htwo, hone]
  rw [← Nat.succ_eq_add_one n, ← hn, hzero]

/-- Where a match line is read as an anchor, its number and text end the line. -/
theorem formattedLine_of_matchLine {path number content : Chars}
    (h : grepCaptures (path ++ ':' :: (number ++ ':' :: content)) = some caps)
    (hsep : caps.sep1 = caps.sep2) :
    ∃ pre c, c.isDigit = false ∧
      caps.formattedLine = pre ++ c :: (number ++ ':' :: content) := by
  obtain ⟨hline, -, hpath, -, -⟩ := grepCaptures_spec h
  have hcolon : ':' ∉ caps.path := fun hmem => absurd (hpath _ hmem) (by decide)
  rw [GrepCaptures.formattedLine, hsep]
  rcases List.append_eq_append_iff.mp hline with ⟨between, hcaps, hrest⟩ | ⟨between, hcaps, hrest⟩
  · -- the colon is not within the path that was read
    cases between with
    | nil =>
      have hread : number ++ ':' :: content = caps.lineNum ++ caps.sep2 :: caps.content :=
        (List.cons.inj hrest).2
      exact ⟨[' '], ' ', rfl, by rw [hread]; rfl⟩
    | cons c between =>
      obtain ⟨rfl, -⟩ := List.cons.inj hrest
      exact absurd (hcaps ▸ by simp) hcolon
  · cases between with
    | nil =>
      have hread : caps.lineNum ++ caps.sep2 :: caps.content = number ++ ':' :: content :=
        (List.cons.inj hrest).2
      exact ⟨[' '], ' ', rfl, by rw [← hread]; rfl⟩
    | cons c between =>
      have hread : caps.lineNum ++ caps.sep2 :: caps.content =
          between ++ ':' :: (number ++ ':' :: content) := (List.cons.inj hrest).2
      refine ⟨' ' :: ' ' :: between, ':', rfl, ?_⟩
      rw [List.cons_append, List.cons_append, hread]
      rfl

end Captures

/-! ### A line that is read as an anchor -/

/-- The line is in some hunk of the block. -/
def FileGrepBlock.Holds (block : FileGrepBlock) (line : GrepLine) : Prop :=
  ∃ hunk ∈ block.hunks, line ∈ hunk

section Blocks

variable {block : FileGrepBlock} {line added : GrepLine}

theorem FileGrepBlock.holds_push_iff :
    (block.push added).Holds line ↔ block.Holds line ∨ line = added := by
  rw [Holds, push]
  rcases block.hunks.eq_nil_or_concat' with hnil | ⟨init, last, hhunks⟩
  · simp [Holds, hnil]
  · simp only [Holds, hhunks, List.getLast?_concat, List.dropLast_concat, List.mem_append,
      List.mem_singleton, or_and_right, exists_or, exists_eq_left]
    rw [or_assoc]

theorem FileGrepBlock.Holds.splitHunk (h : block.Holds line) : block.splitHunk.Holds line := by
  obtain ⟨hunk, hmem, hline⟩ := h
  refine ⟨hunk, ?_, hline⟩
  rw [FileGrepBlock.splitHunk]
  split_ifs
  · exact List.mem_append_left _ hmem
  · exact hmem

/-- The line is in some hunk of some file. -/
def GroupHolds (grouped : List (Chars × FileGrepBlock)) (line : GrepLine) : Prop :=
  ∃ entry ∈ grouped, entry.2.Holds line

variable {grouped : List (Chars × FileGrepBlock)} {f : FileGrepBlock → FileGrepBlock}

theorem groupHolds_updateEntry (path : Chars) (hf : ∀ block, (f block).Holds line) :
    GroupHolds (updateEntry f path grouped) line := by
  induction grouped with
  | nil => exact ⟨_, List.mem_cons_self, hf _⟩
  | cons entry grouped ih =>
    rw [updateEntry]
    split_ifs
    · exact ⟨_, List.mem_cons_self, hf _⟩
    · obtain ⟨entry', hmem, hholds⟩ := ih
      exact ⟨entry', List.mem_cons_of_mem _ hmem, hholds⟩

theorem GroupHolds.updateEntry (h : GroupHolds grouped line) (path : Chars)
    (hf : ∀ block : FileGrepBlock, block.Holds line → (f block).Holds line) :
    GroupHolds (updateEntry f path grouped) line := by
  induction grouped with
  | nil =>
    obtain ⟨_, hmem, -⟩ := h
    cases hmem
  | cons entry grouped ih =>
    obtain ⟨entry', hmem, hholds⟩ := h
    rw [Sashiko.updateEntry]
    rcases List.mem_cons.mp hmem with rfl | hmem
    · split_ifs
      · exact ⟨_, List.mem_cons_self, hf _ hholds⟩
      · exact ⟨_, List.mem_cons_self, hholds⟩
    · split_ifs
      · exact ⟨entry', List.mem_cons_of_mem _ hmem, hholds⟩
      · obtain ⟨entry'', hmem', hholds'⟩ := ih ⟨entry', hmem, hholds⟩
        exact ⟨entry'', List.mem_cons_of_mem _ hmem', hholds'⟩

end Blocks

namespace GrepState

variable {s : GrepState} {revision : Chars} {line : GrepLine}

theorem groupHolds_pushCaptures (s : GrepState) (caps : GrepCaptures) :
    GroupHolds (s.pushCaptures caps).grouped caps.grepLine :=
  groupHolds_updateEntry caps.path fun _ => FileGrepBlock.holds_push_iff.mpr (.inr rfl)

/-- What a hunk holds it goes on to hold. -/
theorem groupHolds_step (h : GroupHolds s.grouped line) (text : Chars) :
    GroupHolds (step revision s text).grouped line := by
  have hraw : ∀ raw, GroupHolds (s.pushRaw raw).grouped line := fun raw => by
    rw [pushRaw]
    split
    · exact h.updateEntry _ fun block hblock => FileGrepBlock.holds_push_iff.mpr (.inl hblock)
    · exact h
  rw [step]
  split_ifs with hdashes
  · rw [splitCurrent]
    split
    · obtain ⟨entry, hmem, hholds⟩ := h
      refine ⟨_, List.mem_map.mpr ⟨entry, hmem, rfl⟩, ?_⟩
      split_ifs
      · exact hholds.splitHunk
      · exact hholds
    · exact h
  · dsimp only
    split
    · split_ifs
      · exact h.updateEntry _ fun block hblock => FileGrepBlock.holds_push_iff.mpr (.inl hblock)
      · exact hraw _
    · exact hraw _

theorem groupHolds_foldl (h : GroupHolds s.grouped line) (lines : List Chars) :
    GroupHolds (lines.foldl (step revision) s).grouped line := by
  induction lines generalizing s with
  | nil => exact h
  | cons text lines ih => exact ih (groupHolds_step h text)

/-- A line that the pattern reads is in a hunk at the end. -/
theorem groupHolds_run {text : Chars} {lines : List Chars} {caps : GrepCaptures}
    (hmem : text ∈ lines) (hdashes : text ≠ ['-', '-'])
    (hcaps : grepCaptures (stripRevision revision text) = some caps)
    (hsep : caps.sep1 = caps.sep2) : GroupHolds (run revision lines).grouped caps.grepLine := by
  obtain ⟨above, below, rfl⟩ := List.append_of_mem hmem
  rw [run, List.foldl_append, List.foldl_cons]
  refine groupHolds_foldl ?_ below
  rw [step, if_neg hdashes]
  dsimp only
  rw [hcaps]
  dsimp only
  rw [if_pos hsep]
  exact groupHolds_pushCaptures _ caps

end GrepState

/-! ### What a hunk holds is in the output -/

theorem infix_flatMap {α β : Type} {f : α → List β} {xs : List α} {x : α} (h : x ∈ xs) :
    f x <:+: xs.flatMap f := by
  obtain ⟨above, below, rfl⟩ := List.append_of_mem h
  rw [List.flatMap_append, List.flatMap_cons, ← List.append_assoc]
  exact List.infix_append _ _ _

/-- An anchor is a line of the output. -/
theorem infix_renderBlocks {blocks : List (Chars × FileGrepBlock)} {text : Chars}
    (h : GroupHolds blocks ⟨true, text⟩) : text ++ ['\n'] <:+: renderBlocks blocks := by
  obtain ⟨entry, hentry, hunk, hhunk, hline⟩ := h
  have hcapped : text ++ ['\n'] <:+: (capGrepHunk hunk).flatMap (· ++ ['\n']) :=
    infix_flatMap (f := (· ++ ['\n'])) (mem_capGrepHunk hline)
  have hkept : hunk ∈ entry.2.hunks.filter (· ≠ []) :=
    List.mem_filter.mpr ⟨hhunk, decide_eq_true (List.ne_nil_of_mem hline)⟩
  have hhunks : (capGrepHunk hunk).flatMap (· ++ ['\n']) <:+:
      renderHunks (entry.2.hunks.filter (· ≠ [])) :=
    infix_intercalate (List.mem_map.mpr ⟨hunk, hkept, rfl⟩)
  have hblock : renderHunks (entry.2.hunks.filter (· ≠ [])) <:+: renderBlock entry :=
    List.infix_append _ _ _
  have hblocks : renderBlock entry <:+: renderBlocks blocks :=
    (infix_flatMap hentry).trans (List.suffix_append _ _).isInfix
  exact ((hcapped.trans hhunks).trans hblock).trans hblocks

theorem stripRevision_append (revision rest : Chars) :
    stripRevision revision (revision ++ ':' :: rest) = rest := by
  have hsplit : revision ++ ':' :: rest = (revision ++ [':']) ++ rest := by simp
  have hpre : (revision ++ [':']).isPrefixOf (revision ++ ':' :: rest) = true :=
    List.isPrefixOf_iff_prefix.mpr (hsplit ▸ List.prefix_append _ _)
  rw [stripRevision, if_pos hpre, hsplit,
    List.drop_left' (by rw [List.length_append, List.length_singleton])]

theorem matchLine_ne_dashes (revision path number content : Chars) :
    matchLine revision path number content ≠ ['-', '-'] := by
  intro h
  have hcolon : ':' ∈ matchLine revision path number content := by simp [matchLine]
  rw [h] at hcolon
  revert hcolon
  decide

/-- Whatever else is in the output of `git grep`. -/
theorem showsMatch_of_readAsAnchor {stdout revision path number content : Chars}
    (activeFiles : List Chars) (hread : ReadAsAnchor (path ++ ':' :: (number ++ ':' :: content)))
    (hmem : matchLine revision path number content ∈ linesOf stdout) :
    ShowsMatch (formatGitGrepOutput stdout revision activeFiles) number content := by
  obtain ⟨caps, hcaps, hsep, hanchor⟩ := hread
  obtain ⟨pre, c, hc, hline⟩ := formattedLine_of_matchLine hcaps hsep
  have hrun := GrepState.groupHolds_run hmem (matchLine_ne_dashes _ _ _ _)
    (by rw [matchLine, stripRevision_append]; exact hcaps) hsep
  have hgroup : GroupHolds ((GrepState.run revision (linesOf stdout)).grouped.mergeSort
      (ranksBefore activeFiles)) ⟨true, caps.formattedLine⟩ := by
    obtain ⟨entry, hentry, hholds⟩ := hrun
    rw [GrepCaptures.grepLine, hanchor] at hholds
    exact ⟨entry, (List.mergeSort_perm _ _).mem_iff.mpr hentry, hholds⟩
  obtain ⟨before, after, hout⟩ := infix_renderBlocks hgroup
  obtain ⟨spaces, hspaces, htrim⟩ := exists_trimEnd (renderBlocks
    ((GrepState.run revision (linesOf stdout)).grouped.mergeSort (ranksBefore activeFiles)))
  refine ⟨spaces, before ++ pre, c, after, hspaces, hc, ?_⟩
  rw [formatGitGrepOutput, ← htrim, ← hout, hline]
  simp

/-! ### A line that is not read as an anchor -/

theorem not_showsMatch_nil {number content : Chars} (hnumber : IsNumber number) :
    ¬ShowsMatch [] number content := by
  rintro ⟨spaces, before, c, after, hspaces, -, hout⟩
  obtain ⟨digit, rest, rfl⟩ := List.exists_cons_of_ne_nil hnumber.1
  have hmem : digit ∈ spaces := by
    rw [List.nil_append] at hout
    simp [hout]
  have hspace := hspaces digit hmem
  rw [not_whitespace_of_isDigit (hnumber.2 digit List.mem_cons_self)] at hspace
  cases hspace

/-- No number goes right before a colon. -/
def NoNumberedColon (cs : Chars) : Prop := cs.IsChain fun a b => b = ':' → a.isDigit = false

theorem noNumberedColon_of_not_mem {cs : Chars} (h : ':' ∉ cs) : NoNumberedColon cs := by
  have hpairs : cs.Pairwise fun a b => b = ':' → a.isDigit = false :=
    List.pairwise_of_forall_mem_list fun _ _ _ hb heq => absurd (heq ▸ hb) h
  exact hpairs.isChain

theorem NoNumberedColon.append {xs ys : Chars} (hx : NoNumberedColon xs) (hy : NoNumberedColon ys)
    (hhead : ys.head? ≠ some ':') : NoNumberedColon (xs ++ ys) :=
  List.isChain_append.mpr ⟨hx, hy, fun _ _ _ hb heq => absurd (heq ▸ hb) hhead⟩

theorem NoNumberedColon.append_of_not_mem {xs ys : Chars} (hx : NoNumberedColon xs)
    (hy : ':' ∉ ys) : NoNumberedColon (xs ++ ys) :=
  hx.append (noNumberedColon_of_not_mem hy) fun hhead => hy (List.mem_of_mem_head? hhead)

theorem not_showsMatch_of_noNumberedColon {out number content : Chars} (hnumber : IsNumber number)
    (h : NoNumberedColon out) : ¬ShowsMatch out number content := by
  rintro ⟨spaces, before, c, after, hspaces, -, hout⟩
  obtain ⟨digits, digit, rfl⟩ := (List.eq_nil_or_concat' number).resolve_left hnumber.1
  have hdigit := hnumber.2 digit (by simp)
  have hspaced : NoNumberedColon (out ++ spaces) :=
    h.append_of_not_mem fun hmem => absurd (hspaces _ hmem) (by decide)
  have hpair : [digit, ':'] <:+: out ++ spaces :=
    ⟨before ++ c :: digits, content ++ '\n' :: after, by rw [hout]; simp⟩
  have hchain := List.IsChain.infix hspaced hpair
  simp [hdigit] at hchain

/-- The lines as they come, whatever they end in. -/
def returnLines (lines : List Chars) : Chars := lines.flatMap fun line => (line ++ ['\r']) ++ ['\n']

theorem linesOf_returnLines {lines : List Chars} (h : ∀ line ∈ lines, '\n' ∉ line) :
    linesOf (returnLines lines) = lines := by
  have hflat : returnLines lines =
      (lines.map (· ++ ['\r'])).flatMap fun line => line ++ ['\n'] := by
    rw [returnLines, List.flatMap_map]
  rw [hflat, linesOf_lines _ fun line hline => ?_, List.map_map]
  · refine (List.map_congr_left fun line _ => ?_).trans (List.map_id' lines)
    simp [dropReturn]
  · obtain ⟨l, hl, rfl⟩ := List.mem_map.mp hline
    simpa using h l hl

namespace GrepState

variable {revision : Chars} {caps : GrepCaptures}

/-- One file, and one hunk without a match. -/
def oneHunk (path : Chars) (hunk : List GrepLine) : GrepState :=
  ⟨[(path, ⟨[hunk], 0⟩)], some path⟩

theorem step_context {line : Chars} (s : GrepState) (hdashes : line ≠ ['-', '-'])
    (hcaps : grepCaptures (stripRevision revision line) = some caps)
    (hsep : caps.sep1 = caps.sep2) : step revision s line = s.pushCaptures caps := by
  rw [step, if_neg hdashes]
  dsimp only
  rw [hcaps]
  exact if_pos hsep

theorem pushCaptures_oneHunk (hmatch : caps.isMatch = false) (hunk : List GrepLine) :
    (oneHunk caps.path hunk).pushCaptures caps = oneHunk caps.path (hunk ++ [caps.grepLine]) := by
  simp [oneHunk, pushCaptures, updateEntry, FileGrepBlock.countMatch, FileGrepBlock.push, hmatch]

theorem pushCaptures_init (hmatch : caps.isMatch = false) :
    (⟨[], none⟩ : GrepState).pushCaptures caps = oneHunk caps.path [caps.grepLine] := by
  simp [oneHunk, pushCaptures, updateEntry, FileGrepBlock.countMatch, FileGrepBlock.push,
    FileGrepBlock.empty, hmatch]

theorem foldl_context {line : Chars} (hdashes : line ≠ ['-', '-'])
    (hcaps : grepCaptures (stripRevision revision line) = some caps)
    (hsep : caps.sep1 = caps.sep2) (hmatch : caps.isMatch = false) (n : ℕ)
    (hunk : List GrepLine) :
    (List.replicate n line).foldl (step revision) (oneHunk caps.path hunk) =
      oneHunk caps.path (hunk ++ List.replicate n caps.grepLine) := by
  induction n generalizing hunk with
  | zero => simp
  | succ n ih =>
    rw [List.replicate_succ, List.foldl_cons, step_context _ hdashes hcaps hsep,
      pushCaptures_oneHunk hmatch, ih, List.append_assoc, List.singleton_append,
      ← List.replicate_succ]

end GrepState

theorem colon_not_mem_decimalDigits (n : ℕ) : ':' ∉ decimalDigits n := fun hmem =>
  absurd (Nat.isDigit_of_mem_toDigits (by omega) (by omega) hmem) (by decide)

theorem colon_not_mem_matchWord (n : ℕ) : ':' ∉ matchWord n := by
  unfold matchWord
  split_ifs <;> decide

theorem colon_not_mem_fileSummary {entry : Chars × FileGrepBlock} (h : ':' ∉ entry.1) :
    ':' ∉ fileSummary entry := by
  unfold fileSummary
  simp only [List.mem_append, List.mem_cons, List.not_mem_nil, or_false, not_or]
  exact ⟨⟨⟨⟨h, by decide⟩, colon_not_mem_decimalDigits _⟩, by decide, colon_not_mem_matchWord _⟩,
    by decide⟩

theorem colon_not_mem_omissionMarker (n : ℕ) : ':' ∉ omissionMarker n := by
  unfold omissionMarker
  simp only [List.mem_append, not_or]
  exact ⟨⟨by decide, colon_not_mem_decimalDigits n⟩, by decide⟩

/-- The colons of the report on one file stand behind words. -/
theorem noNumberedColon_grepHeader {entry : Chars × FileGrepBlock} (h : ':' ∉ entry.1) :
    NoNumberedColon (grepHeader [entry]) := by
  have hsummary : ':' ∉ grepSummary [entry] := by
    have hone : grepSummary [entry] = fileSummary entry := by simp [grepSummary, maxSummaryFiles]
    rw [hone]
    exact colon_not_mem_fileSummary h
  have hfiles : ':' ∉ ' ' :: if [entry].length = 1 then "file".toList else "files".toList := by
    split_ifs <;> decide
  have hcolon : NoNumberedColon "): ".toList := by
    unfold NoNumberedColon
    decide
  have hfound : ':' ∉ "Matches found across ".toList := by decide
  have hone : 0 < [entry].length := Nat.zero_lt_succ 0
  unfold grepHeader
  rw [if_pos hone]
  refine .append_of_not_mem (.append_of_not_mem (.append ?_ hcolon (by decide)) hsummary)
    (by decide)
  refine noNumberedColon_of_not_mem ?_
  simp only [List.mem_append, not_or]
  exact ⟨⟨⟨⟨⟨⟨hfound, colon_not_mem_decimalDigits _⟩, hfiles⟩, by decide⟩,
    colon_not_mem_decimalDigits _⟩, by decide⟩, colon_not_mem_matchWord _⟩

theorem noNumberedColon_renderBlock {path : Chars} {hunk : List GrepLine} (h : ':' ∉ path)
    (hshown : ∀ line ∈ capGrepHunk hunk, ':' ∉ line) :
    NoNumberedColon (renderBlock (path, ⟨[hunk], 0⟩)) := by
  have hfile : NoNumberedColon "[file: ".toList := by
    unfold NoNumberedColon
    decide
  have hhunks : ':' ∉ renderHunks ([hunk].filter (· ≠ [])) := by
    unfold renderHunks
    by_cases hne : hunk = []
    · simp [hne]
    · have hkept : [hunk].filter (· ≠ []) = [hunk] := by simp [hne]
      rw [hkept, List.map_singleton, List.intercalate_singleton, List.mem_flatMap]
      rintro ⟨line, hline, hmem⟩
      rcases List.mem_append.mp hmem with hmem | hmem
      · exact hshown line hline hmem
      · revert hmem
        decide
  unfold renderBlock
  exact (((hfile.append_of_not_mem h).append_of_not_mem (by decide)).append_of_not_mem
    hhunks).append_of_not_mem (by decide)

/-- A line that is read as one of context goes under among others. -/
theorem exists_stdout_of_context {revision line : Chars} {caps : GrepCaptures}
    (activeFiles : List Chars) (hdashes : line ≠ ['-', '-']) (hclean : '\n' ∉ line)
    (hrevision : '\n' ∉ revision)
    (hcaps : grepCaptures (stripRevision revision line) = some caps)
    (hsep : caps.sep1 = caps.sep2) (hanchor : caps.isAnchor = false) :
    ∃ stdout, line ∈ linesOf stdout ∧
      NoNumberedColon (formatGitGrepOutput stdout revision activeFiles) := by
  obtain ⟨-, hne, hpath, -, -⟩ := grepCaptures_spec hcaps
  have hmatch : caps.isMatch = false := by
    rw [GrepCaptures.isAnchor, Bool.or_eq_false_iff] at hanchor
    exact hanchor.1
  have hfirst : '\n' ∉ revision ++ ':' :: (caps.path ++ ['-', '0', '-']) := by
    have hpathclean : '\n' ∉ caps.path := fun hmem => absurd (hpath _ hmem) (by decide)
    simp [hrevision, hpathclean]
  let first := revision ++ ':' :: (caps.path ++ ['-', '0', '-'])
  let zero : GrepCaptures := ⟨caps.path, '-', ['0'], '-', []⟩
  have hzero : grepCaptures (stripRevision revision first) = some zero := by
    rw [stripRevision_append]
    exact grepCaptures_zero hne hpath
  have hfirstdashes : first ≠ ['-', '-'] := by
    intro heq
    have hcolon : ':' ∈ first := by simp [first]
    rw [heq] at hcolon
    revert hcolon
    decide
  have hlines : linesOf (returnLines (first :: List.replicate maxGrepHunkLines line)) =
      first :: List.replicate maxGrepHunkLines line :=
    linesOf_returnLines (List.forall_mem_cons.mpr
      ⟨hfirst, fun l hl => List.eq_of_mem_replicate hl ▸ hclean⟩)
  refine ⟨returnLines (first :: List.replicate maxGrepHunkLines line), ?_, ?_⟩
  · rw [hlines]
    exact List.mem_cons_of_mem _ (List.mem_replicate.mpr ⟨by decide, rfl⟩)
  · let hunk := zero.grepLine :: List.replicate maxGrepHunkLines caps.grepLine
    have hrun : GrepState.run revision (linesOf (returnLines
        (first :: List.replicate maxGrepHunkLines line))) = .oneHunk caps.path hunk := by
      rw [hlines, GrepState.run, List.foldl_cons,
        GrepState.step_context _ hfirstdashes hzero rfl, GrepState.pushCaptures_init rfl]
      exact GrepState.foldl_context hdashes hcaps hsep hmatch _ [zero.grepLine]
    have hcapped : capGrepHunk hunk =
        [zero.formattedLine, omissionMarker maxGrepHunkLines] := by
      have h := @capGrepHunk_unanchored zero.grepLine
        (List.replicate maxGrepHunkLines caps.grepLine) (by simp) (by simp [maxGrepHunkLines])
        (List.forall_mem_cons.mpr ⟨rfl, fun l hl => List.eq_of_mem_replicate hl ▸ hanchor⟩)
      rw [List.length_replicate] at h
      exact h
    have hcolon : ':' ∉ caps.path := fun hmem => absurd (hpath _ hmem) (by decide)
    have hshown : ∀ text ∈ capGrepHunk hunk, ':' ∉ text := by
      rw [hcapped]
      refine List.forall_mem_cons.mpr ⟨?_, fun text htext => ?_⟩
      · simp [zero, GrepCaptures.formattedLine]
      · exact List.mem_singleton.mp htext ▸ colon_not_mem_omissionMarker _
    have hfull : NoNumberedColon (renderBlocks [(caps.path, ⟨[hunk], 0⟩)]) := by
      rw [renderBlocks, List.flatMap_singleton]
      exact (noNumberedColon_grepHeader hcolon).append (noNumberedColon_renderBlock hcolon hshown)
        (by unfold renderBlock; simp)
    rw [formatGitGrepOutput, hrun, GrepState.oneHunk, List.mergeSort_singleton]
    exact List.IsChain.infix hfull (List.rdropWhile_prefix _ _).isInfix

/-- Nothing is left of a line that the pattern does not read where no file goes before it. -/
theorem formatGitGrepOutput_unread {stdout revision line : Chars} (activeFiles : List Chars)
    (hlines : linesOf stdout = [line]) (hdashes : line ≠ ['-', '-'])
    (hunread : ∀ caps, grepCaptures (stripRevision revision line) = some caps →
      caps.sep1 ≠ caps.sep2) : formatGitGrepOutput stdout revision activeFiles = [] := by
  have hrun : GrepState.run revision (linesOf stdout) = ⟨[], none⟩ := by
    rw [hlines, GrepState.run, List.foldl_cons, List.foldl_nil, GrepState.step, if_neg hdashes]
    dsimp only
    split
    · next caps hcaps =>
      rw [if_neg (hunread caps hcaps)]
      rfl
    · rfl
  rw [formatGitGrepOutput, hrun, List.mergeSort_nil]
  rfl

/-- A long hunk is cut down to its first line and what is near its anchors. A match line is in every
output that it is a line of just where the pattern reads it as an anchor. -/
theorem grep_matches_shown_iff (revision path number content : Chars) (activeFiles : List Chars)
    (hnumber : IsNumber number) (hline : '\n' ∉ matchLine revision path number content) :
    (∀ hunk, maxGrepHunkLines < hunk.length →
        ∃ pieces, CapsHunk hunk (capGrepHunk hunk) pieces) ∧
      ((∀ stdout, matchLine revision path number content ∈ linesOf stdout →
          ShowsMatch (formatGitGrepOutput stdout revision activeFiles) number content) ↔
        ReadAsAnchor (path ++ ':' :: (number ++ ':' :: content))) := by
  refine ⟨fun _ => exists_capsHunk, fun hshown => ?_,
    fun hread stdout => showsMatch_of_readAsAnchor activeFiles hread⟩
  by_contra hread
  have hdashes := matchLine_ne_dashes revision path number content
  have hstrip : stripRevision revision (matchLine revision path number content) =
      path ++ ':' :: (number ++ ':' :: content) := stripRevision_append _ _
  by_cases hcontext : ∃ caps, grepCaptures (path ++ ':' :: (number ++ ':' :: content)) = some caps ∧
      caps.sep1 = caps.sep2
  · obtain ⟨caps, hcaps, hsep⟩ := hcontext
    have hanchor : caps.isAnchor = false :=
      Bool.eq_false_iff.mpr fun hanchor => hread ⟨caps, hcaps, hsep, hanchor⟩
    have hrevision : '\n' ∉ revision := fun hmem => hline (List.mem_append_left _ hmem)
    obtain ⟨stdout, hmem, hcolons⟩ := exists_stdout_of_context activeFiles hdashes hline hrevision
      (hstrip ▸ hcaps) hsep hanchor
    exact not_showsMatch_of_noNumberedColon hnumber hcolons (hshown stdout hmem)
  · have hlines : linesOf (returnLines [matchLine revision path number content]) =
        [matchLine revision path number content] :=
      linesOf_returnLines (by simpa using hline)
    have hout := formatGitGrepOutput_unread activeFiles hlines hdashes fun caps hcaps hsep =>
      hcontext ⟨caps, hstrip ▸ hcaps, hsep⟩
    have hshows := hshown _ (by rw [hlines]; exact List.mem_cons_self)
    rw [hout] at hshows
    exact not_showsMatch_nil hnumber hshows

theorem grep_matches_shown_iff_dir :
    (∀ hunk, maxGrepHunkLines < hunk.length →
        ∃ pieces, CapsHunk hunk (capGrepHunk hunk) pieces) ∧
      ((∀ stdout, matchLine ['H'] ['d', '.', 'c'] ['9', '1'] ['x'] ∈ linesOf stdout →
          ShowsMatch (formatGitGrepOutput stdout ['H'] []) ['9', '1'] ['x']) ↔
        ReadAsAnchor (['d', '.', 'c'] ++ ':' :: (['9', '1'] ++ [':', 'x']))) :=
  grep_matches_shown_iff ['H'] ['d', '.', 'c'] ['9', '1'] ['x'] []
    ⟨List.cons_ne_nil _ _, List.all_eq_true.mp rfl⟩ (by decide)

/-- Where the path is of the pattern's characters the line is read. -/
theorem readAsAnchor_of_path {path number content : Chars} (hne : path ≠ [])
    (hpath : ∀ c ∈ path, isPathChar c = true) (hnumber : IsNumber number) :
    ReadAsAnchor (path ++ ':' :: (number ++ ':' :: content)) :=
  ⟨_, grepCaptures_match hne hpath hnumber, rfl, rfl⟩

/-- A path with a comma: the only match is not in the output. -/
theorem comma_path_omitted :
    matchLine "HEAD".toList "net/brcm,amac.yaml".toList ['1', '0'] ['x'] ∈
        linesOf "HEAD:net/brcm,amac.yaml:10:x".toList ∧
      ¬ShowsMatch (formatGitGrepOutput "HEAD:net/brcm,amac.yaml:10:x".toList "HEAD".toList [])
        ['1', '0'] ['x'] := by
  have hlines : linesOf "HEAD:net/brcm,amac.yaml:10:x".toList =
      ["HEAD:net/brcm,amac.yaml:10:x".toList] := by decide
  have hunread : grepCaptures (stripRevision "HEAD".toList
      "HEAD:net/brcm,amac.yaml:10:x".toList) = none := by decide
  rw [formatGitGrepOutput_unread [] hlines (by decide) fun caps hcaps => by
    rw [hunread] at hcaps
    cases hcaps]
  exact ⟨by decide, not_showsMatch_nil ⟨List.cons_ne_nil _ _, List.all_eq_true.mp rfl⟩⟩

end Sashiko
