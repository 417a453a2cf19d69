import Sashiko.Toolbox.NumberedSlice

/-! A file read page by page: every page starts at the line that the notice of the page before it
names. The pages cover the file line by line, and end. -/

namespace Sashiko

open Truncator

structure Page where
  startIdx : ℕ
  endIdx : ℕ
  body : Chars
  deriving DecidableEq, Repr

def Page.range (page : Page) : List ℕ :=
  List.range' page.startIdx (page.endIdx + 1 - page.startIdx)

/-- The pages from `startLine` on, as far as the fuel goes. -/
def readPages (content : Chars) (maxTokens : ℕ) : ℕ → ℕ → Option (List Page)
  | 0, _ => none
  | fuel + 1, startLine =>
    match numberedSlice content (some startLine) none maxTokens with
    | .ok (.shown startIdx endIdx _ body truncated) =>
      if truncated then
        (readPages content maxTokens fuel (endIdx + 1)).map (⟨startIdx, endIdx, body⟩ :: ·)
      else some [⟨startIdx, endIdx, body⟩]
    | _ => some []

/-- Under its number, at the start of a line of the body, stands some of the line. -/
def ShownIn (body : Chars) (number : ℕ) (line : Chars) : Prop :=
  ∃ above part below, body = above ++ numberedLine number part ++ below ∧
    (above = [] ∨ above.getLast? = some '\n') ∧ part <+: line ∧ (part = [] → dropReturn line = [])

def ShowsRange (content : Chars) (page : Page) : Prop :=
  ∀ i line, page.startIdx ≤ i → i ≤ page.endIdx → (linesOf content)[i - 1]? = some line →
    ShownIn page.body i line

/-- The budget does not hold the notice, the number of the line and a character of it. -/
def TooNarrow (content : Chars) (maxTokens startIdx : ℕ) : Prop :=
  maxTokens * bytesPerToken <
    byteLen (oversizedNotice (approximateTokens (numberedText content (some startIdx) none))
      (maxTokens * bytesPerToken)) + byteLen (numberedLine startIdx []) + 4

/-! ### What is shown of a line -/

section Shown

variable {number : ℕ} {line body : Chars}

theorem shownIn_of_prefix {part : Chars} (h : numberedLine number part <+: body)
    (hpart : part <+: line) (hempty : part = [] → dropReturn line = []) :
    ShownIn body number line := by
  obtain ⟨below, rfl⟩ := h
  exact ⟨[], part, below, rfl, .inl rfl, hpart, hempty⟩

theorem prefix_joinLines (line : Chars) (below : List Chars) :
    line <+: joinLinesWith (line :: below) := by
  cases below with
  | nil => exact ⟨[], by rw [joinLines_singleton, List.append_nil]⟩
  | cons next below => exact ⟨_, (joinLines_cons _ (List.cons_ne_nil _ _)).symm⟩

/-- A whole line of the body shows the line, with the carriage return that ends it or without. -/
theorem shownIn_joinLines {lines : List Chars} {part : Chars}
    (hmem : numberedLine number part ∈ lines) (hpart : part = line ∨ part = dropReturn line) :
    ShownIn (joinLines lines) number line := by
  obtain ⟨above, below, rfl⟩ := List.append_of_mem hmem
  have hprefix : part <+: line := by
    rcases hpart with rfl | rfl
    · exact List.prefix_refl _
    · exact dropReturn_prefix line
  have hempty : part = [] → dropReturn line = [] := by
    rcases hpart with rfl | rfl
    · rintro rfl
      rfl
    · exact id
  obtain ⟨rest, hrest⟩ := prefix_joinLines (numberedLine number part) below
  by_cases habove : above = []
  · exact ⟨[], part, rest, by rw [habove]; exact hrest.symm, .inl rfl, hprefix, hempty⟩
  · refine ⟨joinLinesWith above ++ ['\n'], part, rest, ?_, .inr (by simp), hprefix, hempty⟩
    exact (joinLines_append habove (List.cons_ne_nil _ _)).trans (by
      rw [← hrest]
      simp only [List.append_assoc, List.cons_append, List.nil_append])

end Shown

theorem mem_numberLines_get {first i : ℕ} {lines : List Chars} {line : Chars}
    (h : lines[i]? = some line) :
    (numberLines first lines)[i]? = some (numberedLine (first + i) line) := by
  induction lines generalizing first i with
  | nil => cases h
  | cons l lines ih =>
    cases i with
    | zero =>
      obtain rfl : l = line := by simpa using h
      rfl
    | succ i =>
      rw [numberLines, List.getElem?_cons_succ, ih (by simpa using h)]
      congr 2
      omega

theorem dropReturn_numberedLine (number : ℕ) (line : Chars) :
    dropReturn (numberedLine number line) = numberedLine number (dropReturn line) := by
  have hsplit : ∀ l : Chars, numberedLine number l = (Nat.toDigits 10 number ++ [':', ' ']) ++ l :=
    fun l => by simp [numberedLine]
  rw [hsplit, hsplit]
  unfold dropReturn
  cases line with
  | nil => simp
  | cons c line =>
    rw [List.getLast?_append_of_ne_nil _ (List.cons_ne_nil _ _)]
    split_ifs
    · rw [List.dropLast_append_of_ne_nil (List.cons_ne_nil _ _)]
    · rfl

/-- Every line but the last one loses the carriage return that ends it. -/
theorem linesOf_joinLines_all {lines : List Chars} (h : ∀ l ∈ lines, '\n' ∉ l ∧ l ≠ []) :
    linesOf (joinLines lines) = lines.dropLast.map dropReturn ++ lines.getLast?.toList := by
  rcases lines.eq_nil_or_concat with rfl | ⟨above, last, rfl⟩
  · rfl
  · rw [List.concat_eq_append] at h ⊢
    rw [linesOf, joinLines_eq, splitChars_joinLines (by simp) fun l hl => (h l hl).1,
      List.dropLast_concat, List.getLast?_concat]
    simp [(h last (by simp)).2]

theorem linesOf_joinLines_numberLines {first : ℕ} {lines : List Chars}
    (hclean : ∀ l ∈ lines, '\n' ∉ l) :
    linesOf (joinLines (numberLines first lines)) =
      (numberLines first lines).dropLast.map dropReturn ++
        (numberLines first lines).getLast?.toList := by
  refine linesOf_joinLines_all fun l hl => ?_
  obtain ⟨line, hline, number, rfl⟩ := mem_numberLines hl
  exact ⟨newline_not_mem_numberedLine (hclean line hline) number, numberedLine_ne_nil number line⟩

/-- The truncator reads as many lines as are numbered. -/
theorem length_linesOf_numberLines {first : ℕ} {lines : List Chars}
    (hclean : ∀ l ∈ lines, '\n' ∉ l) :
    (linesOf (joinLines (numberLines first lines))).length = lines.length := by
  rw [linesOf_joinLines_numberLines hclean, List.length_append, List.length_map,
    List.length_dropLast, length_numberLines]
  cases lines with
  | nil => rfl
  | cons line lines =>
    rw [numberLines, List.getLast?_cons, Option.toList_some, List.length_singleton,
      List.length_cons, Nat.add_sub_cancel]

theorem linesOf_numberLines_get {first i : ℕ} {lines : List Chars} {line : Chars}
    (hclean : ∀ l ∈ lines, '\n' ∉ l) (h : lines[i]? = some line) :
    ∃ part, (part = line ∨ part = dropReturn line) ∧
      (linesOf (joinLines (numberLines first lines)))[i]? =
        some (numberedLine (first + i) part) := by
  have hget : (numberLines first lines)[i]? = some (numberedLine (first + i) line) :=
    mem_numberLines_get h
  rw [linesOf_joinLines_numberLines hclean]
  rcases (numberLines first lines).eq_nil_or_concat with hnil | ⟨above, last, hconcat⟩
  · rw [hnil] at hget
    cases hget
  rw [List.concat_eq_append] at hconcat
  rw [hconcat] at hget ⊢
  rw [List.dropLast_concat, List.getLast?_concat, Option.toList_some]
  rcases Nat.lt_or_ge i above.length with hi | hi
  · rw [List.getElem?_append_left hi] at hget
    refine ⟨dropReturn line, .inr rfl, ?_⟩
    rw [List.getElem?_append_left (by simpa using hi), List.getElem?_map, hget, Option.map_some,
      dropReturn_numberedLine]
  · rw [List.getElem?_append_right hi] at hget
    refine ⟨line, .inl rfl, ?_⟩
    rwa [List.getElem?_append_right (by simpa using hi), List.length_map]

/-! ### The notices -/

theorem trimNewlines_append {xs notice : Chars} (h : notice.getLast? = some '.') :
    (xs ++ (notice ++ ['\n'])).rdropWhile (· = '\n') = xs ++ notice := by
  obtain ⟨front, rfl⟩ := List.getLast?_eq_some_iff.mp h
  rw [← List.append_assoc, List.rdropWhile_concat_pos _ _ _ (by decide), ← List.append_assoc,
    List.rdropWhile_concat_neg _ _ _ (by decide)]

theorem droppedLinesWarning_eq (droppedLines estimated : ℕ) :
    ∃ notice, droppedLinesWarning droppedLines estimated = notice ++ ['\n'] ∧
      notice.getLast? = some '.' := by
  unfold droppedLinesWarning
  have hend : " tokens] ...\n".toList = " tokens] ..".toList ++ ['.'] ++ ['\n'] := by decide
  rw [hend, ← List.append_assoc, ← List.append_assoc]
  exact ⟨_, rfl, List.getLast?_concat⟩

theorem oversizedNotice_eq (estimated keptBytes : ℕ) :
    ∃ notice, oversizedNotice estimated keptBytes = notice ++ ['\n'] ∧
      notice.getLast? = some '.' := by
  unfold oversizedNotice
  have hend : " bytes] ...\n".toList = " bytes] ..".toList ++ ['.'] ++ ['\n'] := by decide
  rw [hend, ← List.append_assoc, ← List.append_assoc]
  exact ⟨_, rfl, List.getLast?_concat⟩

/-! ### One page -/

/-- The page shows the lines it announces. A budget that does not hold the start of a line passes
over that line alone. -/
def ShowsAnnounced (content : Chars) (maxTokens : ℕ) (page : Page) : Prop :=
  ShowsRange content page ∨
    page.endIdx = page.startIdx ∧ TooNarrow content maxTokens page.startIdx

section Sheet

variable {content : Chars} {start maxTokens : ℕ}

theorem sliceStart_succ (start : ℕ) : sliceStart (some (start + 1)) = start := by
  simp [sliceStart]

theorem sliceLines_onward (h : start < (linesOf content).length) :
    sliceLines content (some (start + 1)) none = (linesOf content).drop start := by
  rw [sliceLines, sliceStart_succ, sliceStop, sliceStart_succ]
  refine List.take_of_length_le ?_
  simp only [Option.map_none, Option.getD_none, min_self, List.length_drop]
  omega

theorem numberedSlice_onward (h : start < (linesOf content).length) :
    numberedSlice content (some (start + 1)) none maxTokens =
      let res := truncateSequential (numberedText content (some (start + 1)) none) maxTokens
      .ok (.shown (start + 1)
        (if res.truncated then start + max res.linesKept 1 else (linesOf content).length)
        (linesOf content).length (res.content.rdropWhile (· = '\n')) res.truncated) := by
  have hstop : sliceStop (some (start + 1)) none (linesOf content).length =
      (linesOf content).length := by
    simp only [sliceStop, sliceStart_succ, Option.map_none, Option.getD_none, min_self]
    exact max_eq_right h.le
  unfold numberedSlice numberedSlice.slice
  simp only
  rw [if_neg (Nat.ne_of_gt (Nat.zero_lt_of_lt h)), sliceStart_succ, if_neg (not_le.mpr h), hstop]

theorem newline_not_mem_onward {line : Chars} (h : line ∈ (linesOf content).drop start) :
    '\n' ∉ line :=
  (mem_linesOf (List.mem_of_mem_drop h)).1

/-- The truncator, which splits the text again, finds the line at its place. -/
theorem numberedText_get {i : ℕ} {line : Chars} (h : start < (linesOf content).length)
    (hi : start + 1 ≤ i) (hline : (linesOf content)[i - 1]? = some line) :
    ∃ part, (part = line ∨ part = dropReturn line) ∧
      (linesOf (numberedText content (some (start + 1)) none))[i - (start + 1)]? =
        some (numberedLine i part) := by
  have hget : ((linesOf content).drop start)[i - (start + 1)]? = some line := by
    rw [List.getElem?_drop, ← hline]
    congr 1
    omega
  have hnumbered := @linesOf_numberLines_get (start + 1) _ _ _
    (fun l hl => newline_not_mem_onward hl) hget
  rw [Nat.add_sub_cancel' hi] at hnumbered
  rwa [numberedText, sliceStart_succ, sliceLines_onward h]

theorem length_linesOf_numberedText (h : start < (linesOf content).length) :
    (linesOf (numberedText content (some (start + 1)) none)).length =
      (linesOf content).length - start := by
  rw [numberedText, sliceStart_succ, sliceLines_onward h,
    length_linesOf_numberLines fun l hl => newline_not_mem_onward hl, List.length_drop]

theorem showsRange_whole (h : start < (linesOf content).length) {endIdx : ℕ} :
    ShowsRange content ⟨start + 1, endIdx,
      (numberedText content (some (start + 1)) none).rdropWhile (· = '\n')⟩ := by
  intro i line hfirst _ hline
  have hget : ((linesOf content).drop start)[i - (start + 1)]? = some line := by
    rw [List.getElem?_drop, ← hline]
    congr 1
    dsimp only at hfirst
    omega
  have hmem := List.mem_of_getElem? (@mem_numberLines_get (start + 1) _ _ _ hget)
  rw [Nat.add_sub_cancel' hfirst] at hmem
  dsimp only
  rw [numberedText, sliceStart_succ, sliceLines_onward h, 
    trimNewlines_numberLines fun l hl => newline_not_mem_onward hl]
  exact shownIn_joinLines hmem (.inl rfl)

theorem showsRange_cut (h : start < (linesOf content).length) {kept droppedLines estimated : ℕ} :
    ShowsRange content ⟨start + 1, start + kept,
      (pushLines ((linesOf (numberedText content (some (start + 1)) none)).take kept) ++
        droppedLinesWarning droppedLines estimated).rdropWhile (· = '\n')⟩ := by
  intro i line hfirst hlast hline
  obtain ⟨part, hpart, hget⟩ := numberedText_get h hfirst hline
  obtain ⟨notice, hnotice, hdot⟩ := droppedLinesWarning_eq droppedLines estimated
  have hmem : numberedLine i part ∈
      (linesOf (numberedText content (some (start + 1)) none)).take kept := by
    refine List.mem_of_getElem? (i := i - (start + 1)) ?_
    rw [List.getElem?_take_of_lt, hget]
    dsimp only at hfirst hlast
    omega
  have hbody : ∀ above : List Chars, pushLines above ++ notice = joinLines (above ++ [notice]) := by
    intro above
    rw [pushLines, joinLines_flatMap, joinLines_eq]
    rcases above.eq_nil_or_concat with rfl | ⟨front, l, rfl⟩
    · rw [List.nil_append, List.nil_append, joinLines_singleton, joinLines_singleton,
        List.nil_append]
    · rw [joinLines_append (by simp) (by simp), joinLines_append (by simp) (by simp),
        joinLines_singleton, joinLines_singleton, List.append_assoc]
      rfl
  dsimp only
  rw [hnotice, trimNewlines_append hdot, hbody]
  exact shownIn_joinLines (List.mem_append_left _ hmem) hpart

/-- Where not even one line fits, the head shows the start of it, unless the budget is too
narrow. -/
theorem showsAnnounced_head (h : start < (linesOf content).length) :
    ShowsAnnounced content maxTokens ⟨start + 1, start + 1,
      (headOf (numberedText content (some (start + 1)) none) maxTokens
        (approximateTokens (numberedText content (some (start + 1)) none))).rdropWhile
          (· = '\n')⟩ := by
  by_cases hnarrow : TooNarrow content maxTokens (start + 1)
  · exact .inr ⟨rfl, hnarrow⟩
  left
  intro i line hfirst hlast hline
  obtain rfl : i = start + 1 := le_antisymm hlast hfirst
  unfold TooNarrow at hnarrow
  unfold headOf
  dsimp only
  generalize hestimated : approximateTokens (numberedText content (some (start + 1)) none) =
    estimated at hnarrow ⊢
  obtain ⟨notice, hnotice, hdot⟩ := oversizedNotice_eq estimated (byteLen (headWithin
    (maxTokens * bytesPerToken - byteLen (oversizedNotice estimated (maxTokens * bytesPerToken)))
      (numberedText content (some (start + 1)) none)))
  rw [hnotice, trimNewlines_append hdot]
  obtain ⟨part, hpart, hfour, hempty⟩ : ∃ part : Chars, part <+: line ∧ byteLen part ≤ 4 ∧
      (part = [] → dropReturn line = []) := by
    cases line with
    | nil => exact ⟨[], List.nil_prefix, Nat.zero_le _, fun _ => rfl⟩
    | cons c line =>
      refine ⟨[c], by simp, ?_, nofun⟩
      rw [byteLen_cons, byteLen_nil]
      exact c.utf8Size_le_four
  have htext : numberedLine (start + 1) part <+:
      numberedText content (some (start + 1)) none := by
    have hlines : (linesOf content).drop start = line :: (linesOf content).drop (start + 1) := by
      obtain ⟨_, rfl⟩ := List.getElem?_eq_some_iff.mp hline
      exact List.drop_eq_getElem_cons h
    rw [numberedText, sliceStart_succ, sliceLines_onward h, hlines]
    exact ((List.prefix_append_right_inj _).mpr (List.cons_prefix_cons.mpr
      ⟨rfl, List.cons_prefix_cons.mpr ⟨rfl, hpart⟩⟩)).trans (prefix_joinLines _ _)
  have hbytes : byteLen (numberedLine (start + 1) part) =
      byteLen (numberedLine (start + 1) []) + byteLen part := by
    simp only [numberedLine, byteLen_append, byteLen_cons, byteLen_nil]
    omega
  refine shownIn_of_prefix ?_ hpart hempty
  exact (prefix_headWithin htext (by omega)).trans (List.prefix_append _ _)

/-- A page goes on to a later line, not behind the last one, and shows what it announces. -/
theorem exists_page (h : start < (linesOf content).length) :
    ∃ endIdx body truncated,
      numberedSlice content (some (start + 1)) none maxTokens =
        .ok (.shown (start + 1) endIdx (linesOf content).length body truncated) ∧
      start < endIdx ∧ endIdx ≤ (linesOf content).length ∧
      (truncated = false → endIdx = (linesOf content).length) ∧
      ShowsAnnounced content maxTokens ⟨start + 1, endIdx, body⟩ := by
  refine ⟨_, _, _, numberedSlice_onward h, ?_⟩
  generalize htext : numberedText content (some (start + 1)) none = text
  by_cases hfits : approximateTokens text ≤ maxTokens
  · rw [truncateSequential_fits hfits, ← htext]
    exact ⟨h, le_rfl, fun _ => rfl, .inl (showsRange_whole h)⟩
  have hover := truncateSequential_over hfits
  have hcut := cutSequentially hfits
  have hkept := hcut.kept_le
  rw [← htext, length_linesOf_numberedText h, htext] at hkept
  rw [hover, if_pos rfl]
  refine ⟨by omega, by omega, nofun, ?_⟩
  rcases hcut.shape with ⟨hsome, hcontent⟩ | ⟨hnone, -⟩
  · rw [hcontent, max_eq_left (Nat.one_le_iff_ne_zero.mpr hsome), ← htext]
    exact .inl (showsRange_cut h)
  · rw [truncateSequential_headOf hfits hnone, hnone, ← htext]
    exact showsAnnounced_head h

end Sheet

/-! ### All pages -/

section Pages

variable {content : Chars} {maxTokens : ℕ}

theorem readPages_pastEnd {start fuel : ℕ} (h : (linesOf content).length ≤ start) :
    readPages content maxTokens (fuel + 1) (start + 1) = some [] := by
  rw [readPages]
  unfold numberedSlice numberedSlice.slice
  simp only
  rw [sliceStart_succ]
  by_cases hempty : (linesOf content).length = 0
  · rw [if_pos hempty]
  · rw [if_neg hempty, if_pos h]

/-- The pages from a line on, for every fuel that is enough. The induction is on the lines left. -/
theorem readPages_onward {left start : ℕ} (h : (linesOf content).length - start = left) :
    ∃ pages, (∀ fuel, left < fuel → readPages content maxTokens fuel (start + 1) = some pages) ∧
      pages.flatMap Page.range = List.range' (start + 1) left ∧
      ∀ page ∈ pages, ShowsAnnounced content maxTokens page := by
  induction left using Nat.strong_induction_on generalizing start with
  | _ left ih =>
    rcases Nat.lt_or_ge start (linesOf content).length with hwithin | hpast
    · obtain ⟨endIdx, body, truncated, hslice, hlater, hle, hwhole, hshows⟩ :=
        @exists_page content start maxTokens hwithin
      have hstep : ∀ fuel, readPages content maxTokens (fuel + 1) (start + 1) =
          if truncated then (readPages content maxTokens fuel (endIdx + 1)).map
            (⟨start + 1, endIdx, body⟩ :: ·)
          else some [⟨start + 1, endIdx, body⟩] := fun fuel => by rw [readPages, hslice]
      have hrange : Page.range ⟨start + 1, endIdx, body⟩ =
          List.range' (start + 1) (endIdx - start) := by
        rw [Page.range]
        congr 1
        exact Nat.add_sub_add_right endIdx 1 start
      cases truncated with
      | false =>
        refine ⟨[⟨start + 1, endIdx, body⟩], fun fuel hfuel => ?_, ?_, ?_⟩
        · obtain ⟨fuel, rfl⟩ := Nat.exists_eq_add_of_lt hfuel
          exact hstep _
        · rw [List.flatMap_singleton, hrange, hwhole rfl, h]
        · exact List.forall_mem_singleton.mpr hshows
      | true =>
        obtain ⟨pages, hpages, hcover, hall⟩ :=
          ih ((linesOf content).length - endIdx) (by omega) rfl
        refine ⟨⟨start + 1, endIdx, body⟩ :: pages, fun fuel hfuel => ?_, ?_, ?_⟩
        · obtain ⟨fuel, rfl⟩ := Nat.exists_eq_add_of_lt hfuel
          rw [hstep, if_pos rfl, hpages _ (by omega), Option.map_some]
        · rw [List.flatMap_cons, hrange, hcover]
          have hbehind : endIdx + 1 = start + 1 + 1 * (endIdx - start) := by omega
          rw [hbehind, List.range'_append]
          congr 1
          omega
        · exact List.forall_mem_cons.mpr ⟨hshows, hall⟩
    · refine ⟨[], fun fuel hfuel => ?_, ?_, nofun⟩
      · obtain ⟨fuel, rfl⟩ := Nat.exists_eq_add_of_lt hfuel
        exact readPages_pastEnd hpast
      · rw [← h, Nat.sub_eq_zero_of_le hpast]
        rfl

end Pages

/-- Reading from line 1 on ends, and each line is announced once and in order. -/
theorem readPages_covers (content : Chars) (maxTokens : ℕ) :
    ∃ pages, (∀ fuel, (linesOf content).length < fuel →
        readPages content maxTokens fuel 1 = some pages) ∧
      pages.flatMap Page.range = List.range' 1 (linesOf content).length ∧
      ∀ page ∈ pages, ShowsAnnounced content maxTokens page :=
  readPages_onward (Nat.sub_zero _)

/-- As `readPages_covers` has it, and with some of every announced line in every page. -/
def ReadsSoundly (content : Chars) (maxTokens : ℕ) : Prop :=
  ∃ pages, (∀ fuel, (linesOf content).length < fuel →
      readPages content maxTokens fuel 1 = some pages) ∧
    pages.flatMap Page.range = List.range' 1 (linesOf content).length ∧
    ∀ page ∈ pages, ShowsRange content page

/-- The first page announces line 1 and is the notice alone, in which no number ends in a colon. -/
theorem narrowBudget_not_readsSoundly : ¬ReadsSoundly "ab\ncd".toList 1 := by
  rintro ⟨pages, hpages, -, hshows⟩
  have hfirst : (readPages "ab\ncd".toList 1 3 1).any fun pages =>
      pages.head?.any fun page => page.startIdx == 1 && page.endIdx == 1 &&
        page.body.all (· != ':') := by decide
  rw [hpages 3 (by decide), Option.any_some, Option.any_eq_true] at hfirst
  obtain ⟨page, hpage, hfirst⟩ := hfirst
  rw [Bool.and_eq_true, Bool.and_eq_true, beq_iff_eq, beq_iff_eq, List.all_eq_true] at hfirst
  obtain ⟨⟨hstart, hend⟩, hcolon⟩ := hfirst
  obtain ⟨above, part, below, hbody, -⟩ := hshows page (List.mem_of_head? hpage) 1 "ab".toList
    hstart.le hend.ge (by decide)
  have hnone := hcolon ':' (by rw [hbody]; simp [numberedLine])
  cases hnone

end Sashiko
