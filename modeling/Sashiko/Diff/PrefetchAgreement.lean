import Sashiko.Diff.Prefetch
import Sashiko.Diff.Touched

/-! The ranges of prefetch against those of `parse_two_sided_diff`: where every added line lies
within a range that prefetch reads for the same file. -/

namespace Sashiko

open DiffState

/-! ### The files of the two-sided reading -/

/-- A name as the two-sided reading has it: without the white space that ends it. -/
def readName (path : GitPath) : Chars := path.chars.rdropWhile isRustWhitespace

theorem not_needsQuotes (path : GitPath) : needsQuotes false path.chars = false := by
  rw [needsQuotes, List.any_eq_false]
  intro c hc
  obtain ⟨hquote, hback, hlow, hdel⟩ := path.unquoted c hc
  simp [needsEscape, hquote, hback, hlow, hdel]

theorem fileLine_eq (mark side : Char) (path : GitPath) :
    fileLine mark side (some path) = renderFileLine false mark side path.chars := by
  rw [renderFileLine, renderName, not_needsQuotes]
  rfl

theorem headerName_unquoted (side : Char) (path : GitPath) :
    headerName false side path.chars = readName path := by
  rw [headerName, not_needsQuotes]
  rfl

theorem isDiffHeader_fileLine {mark side : Char} (hmark : mark ≠ ' ')
    (hside : side = 'a' ∨ side = 'b') (path : Option GitPath) :
    isDiffHeader mark (fileLine mark side path) = true := by
  cases path with
  | none => exact (isDiffHeader_null side hmark).1
  | some path => exact fileLine_eq mark side path ▸ isDiffHeader_renderFileLine hmark hside _

section Changes

variable {digit : RegexDigit} {d : ParsedDiff} {pre post : Option Chars} {s : DiffState}

/-- Whatever the names end in, the header lines give a name to each side. -/
theorem step_anyFileLines (hs : Between d pre post s) (names : ChangedNames) :
    Between d (names.pre.map readName) (names.post.map readName)
      ((s.step digit (fileLine '-' 'a' names.pre)).step digit
        (fileLine '+' 'b' names.post)) := by
  have hsource : extractSourceFile (fileLine '-' 'a' names.pre) = names.pre.map readName := by
    cases names.pre with
    | none => decide
    | some path =>
      rw [fileLine_eq, extractSourceFile_renderFileLine, headerName_unquoted, Option.map_some]
  have htarget : extractTargetFile (fileLine '+' 'b' names.post) = names.post.map readName := by
    cases names.post with
    | none => decide
    | some path =>
      rw [fileLine_eq, extractTargetFile_renderFileLine, headerName_unquoted, Option.map_some]
  have hpreGit : diffGit.isPrefixOf (fileLine '-' 'a' names.pre) = false := by
    cases names.pre <;> rfl
  have hpostGit : diffGit.isPrefixOf (fileLine '+' 'b' names.post) = false ∧
      isDiffPreImageHeader (fileLine '+' 'b' names.post) = false := by
    cases names.post <;> exact ⟨rfl, isDiffHeader_of_head (by decide) _⟩
  have hread := step_headers digit hs hpreGit (isDiffHeader_fileLine (by decide) (.inl rfl) _)
    hpostGit.1 hpostGit.2 (isDiffHeader_fileLine (by decide) (.inr rfl) _)
  rwa [hsource, htarget] at hread

/-- What a change adds to the ranges of the new files. -/
theorem foldl_change_post (digit : RegexDigit) (hs : Between d pre post s) (c : FileChange) :
    ∃ d' pre' post', Between d' pre' post' ((c.lines.map dropReturn).foldl (step digit) s) ∧
      ∀ q, d'.postRanges q = if c.names.post.map readName = some q ∧ c.hunks ≠ [] then
        some ((d.postRanges q).getD [] ++ c.hunks.flatMap Hunk.postRuns) else d.postRanges q := by
  have hgit := step_diffGit digit hs
    (List.isPrefixOf_iff_prefix.mpr (List.prefix_append diffGit _) :
      diffGit.isPrefixOf c.gitLine = true)
  have hkept := (addPair_ranges ((parseDiffGitPaths c.gitLine).map (·.1))
    ((parseDiffGitPaths c.gitLine).map (·.2)) d).1
  rw [FileChange.lines, List.map_cons, List.map_append, List.foldl_cons, List.foldl_append,
    dropReturn_of_not_mem (control_not_mem_gitLine c (by decide)),
    foldl_quiet hgit.outside fun line => quiet_of_mem_extended]
  unfold FileChange.editLines
  by_cases hempty : c.hunks = []
  · rw [hempty]
    refine ⟨_, _, _, hgit, fun q => ?_⟩
    rw [if_neg fun h => h.2 rfl, hkept]
  have hpre : '\r' ∉ fileLine '-' 'a' c.names.pre :=
    control_not_mem_fileLine (by decide) (by decide) _ (by decide) (by decide)
  have hpost : '\r' ∉ fileLine '+' 'b' c.names.post :=
    control_not_mem_fileLine (by decide) (by decide) _ (by decide) (by decide)
  rw [if_neg (mt List.isEmpty_iff.mp hempty), List.map_cons, List.map_cons, List.foldl_cons,
    List.foldl_cons, dropReturn_of_not_mem hpre, dropReturn_of_not_mem hpost]
  refine ⟨_, _, _, foldl_hunks (step_anyFileLines hgit c.names) c.hunks, fun q => ?_⟩
  rw [← hkept]
  exact foldl_extend _ _ (fun d => d.postRanges) _ (postRanges_hunkEffect _ _) c.hunks _ q

/-- The ranges of a file are the added runs of the hunks for it. -/
theorem foldl_changes_post (digit : RegexDigit) (changes : List FileChange) :
    ∃ d pre post, Between d pre post
        (((changes.flatMap FileChange.lines).map dropReturn).foldl (step digit) .init) ∧
      ∀ q run, run ∈ (d.postRanges q).getD [] ↔ ∃ c ∈ changes, ∃ path ∈ c.names.post,
        readName path = q ∧ ∃ h ∈ c.hunks, run ∈ h.postRuns := by
  induction changes using List.reverseRecOn with
  | nil =>
    refine ⟨.empty, none, none, ⟨rfl, rfl, rfl, rfl, rfl, rfl, rfl⟩, fun q run => ?_⟩
    simp [ParsedDiff.empty]
  | append_singleton changes c ih =>
    obtain ⟨d, pre, post, hs, hruns⟩ := ih
    obtain ⟨d', pre', post', hend, hchange⟩ := foldl_change_post digit hs c
    refine ⟨d', pre', post', ?_, fun q run => ?_⟩
    · rw [List.flatMap_append, List.map_append, List.foldl_append, List.flatMap_singleton]
      exact hend
    · have hsplit : (∃ c' ∈ changes ++ [c], ∃ path ∈ c'.names.post,
          readName path = q ∧ ∃ h ∈ c'.hunks, run ∈ h.postRuns) ↔
          run ∈ (d.postRanges q).getD [] ∨ ∃ path ∈ c.names.post,
            readName path = q ∧ ∃ h ∈ c.hunks, run ∈ h.postRuns := by
        rw [hruns]
        simp only [List.mem_append, List.mem_singleton, or_and_right, exists_or, exists_eq_left]
      rw [hsplit, hchange]
      by_cases hfile : c.names.post.map readName = some q ∧ c.hunks ≠ []
      · obtain ⟨path, hpath, hname⟩ := Option.map_eq_some_iff.mp hfile.1
        rw [if_pos hfile, Option.getD_some, List.mem_append, List.mem_flatMap]
        refine or_congr_right ⟨fun hrun => ⟨path, hpath, hname, hrun⟩, ?_⟩
        rintro ⟨-, -, -, hrun⟩
        exact hrun
      · rw [if_neg hfile]
        refine (or_iff_left ?_).symm
        rintro ⟨path, hpath, hname, h, hh, -⟩
        exact hfile ⟨by rw [hpath, Option.map_some, hname], List.ne_nil_of_mem hh⟩

end Changes

theorem mem_postRanges_iff (digit : RegexDigit) (changes : List FileChange) (q : Chars)
    (run : ℕ × ℕ) :
    run ∈ ((parseTwoSidedDiff digit (renderDiff changes none)).postRanges q).getD [] ↔
      ∃ c ∈ changes, ∃ path ∈ c.names.post, readName path = q ∧ ∃ h ∈ c.hunks,
        run ∈ h.postRuns := by
  obtain ⟨d, pre, post, hs, hruns⟩ := foldl_changes_post digit changes
  have hparse : parseTwoSidedDiff digit (renderDiff changes none) = d := by
    rw [parseTwoSidedDiff, linesOf_renderDiff, flushHunk,
      if_neg (by rw [hs.outside]; exact Bool.false_ne_true), hs.parsed]
  rw [hparse, hruns]

/-! ### Spans -/

theorem mem_addedFrom {body : List BodyLine} {j n : ℕ} (h : n ∈ addedFrom j body) :
    j ≤ n ∧ n < j + postCount body := by
  induction body generalizing j with
  | nil => cases h
  | cons line body ih =>
    have hcount : postCount (line :: body) = postCount [line] + postCount body :=
      postCount_append [line] body
    rw [addedFrom_cons] at h
    rcases List.mem_append.mp h with h | h
    · split_ifs at h with hadded
      · rw [List.mem_singleton.mp h, hcount, postCount_singleton, if_neg (by rw [hadded]; decide)]
        omega
      · cases h
    · have := ih h
      omega

/-- The added runs of a hunk lie within its span. -/
theorem run_within_span {h : Hunk} {run : ℕ × ℕ} (hrun : run ∈ h.postRuns) :
    0 < postCount h.body ∧ h.span.1 ≤ run.1 ∧ run.2 ≤ h.span.2 := by
  obtain ⟨hfirst, hlast⟩ := mem_of_mem_maximalRuns hrun
  have hlow := mem_addedFrom hfirst
  have hhigh := mem_addedFrom hlast
  unfold Hunk.span
  dsimp only
  omega

theorem mem_filedFrom {file : Option Chars} {hunks : List Hunk} {h : Hunk} (hmem : h ∈ hunks) :
    ∃ f, (f, h) ∈ filedFrom file hunks := by
  induction hunks generalizing file with
  | nil => cases hmem
  | cons k hunks ih =>
    rcases List.mem_cons.mp hmem with rfl | hmem
    · exact ⟨file, List.mem_cons_self⟩
    · obtain ⟨f, hf⟩ := ih hmem
      exact ⟨f, List.mem_cons_of_mem _ hf⟩

theorem mem_of_mem_filedFrom {file f : Option Chars} {hunks : List Hunk} {h : Hunk}
    (hmem : (f, h) ∈ filedFrom file hunks) : h ∈ hunks := by
  induction hunks generalizing file with
  | nil => cases hmem
  | cons k hunks ih =>
    rcases List.mem_cons.mp hmem with heq | hmem
    · rw [(Prod.mk.inj heq).2]
      exact List.mem_cons_self
    · exact List.mem_cons_of_mem _ (ih hmem)

theorem mem_spansOf {p : Chars} {spans : List (Chars × (ℕ × ℕ))} {r : ℕ × ℕ} :
    r ∈ spansOf p spans ↔ (p, r) ∈ spans := by
  simp [spansOf]

/-- A span stands under a name that some line gives. -/
theorem named_of_mem_filedSpans {changes : List FileChange} {p : Chars} {r : ℕ × ℕ}
    (h : (p, r) ∈ filedSpans changes) : p ∈ changes.flatMap FileChange.namedFiles := by
  obtain ⟨file, hfiled⟩ := filed_changes asciiDigit changes
  by_contra hunnamed
  rw [← hfiled.opened, Option.not_isSome_iff_eq_none] at hunnamed
  have hranges := hfiled.ranges p
  rw [hunnamed, Option.getD_none] at hranges
  exact absurd (hranges ▸ mem_spansOf.mpr h) List.not_mem_nil

theorem filedSpan_nonempty {filed : Option Chars × Hunk} {p : Chars} {r : ℕ × ℕ}
    (h : filedSpan filed = some (p, r)) : r.1 ≤ r.2 := by
  obtain ⟨file, k⟩ := filed
  cases file with
  | none => cases h
  | some file =>
    simp only [filedSpan] at h
    split_ifs at h
    rw [← (Prod.mk.inj (Option.some.inj h)).2]
    exact Nat.le_add_right _ _

theorem merged_spansOf (changes : List FileChange) (p : Chars) :
    Merged mergeGap (spansOf p (filedSpans changes))
      (mergeRanges mergeGap (spansOf p (filedSpans changes))) := by
  refine merged_mergeRanges fun r hr => ?_
  obtain ⟨c, -, hfiled⟩ := List.mem_flatMap.mp (mem_spansOf.mp hr)
  obtain ⟨filed, -, hspan⟩ := List.mem_filterMap.mp hfiled
  exact filedSpan_nonempty hspan

/-! ### Agreement -/

/-- The name is one of a changed file, before or after the change. -/
def TouchedFile (changes : List FileChange) (name : Chars) : Prop :=
  ∃ c ∈ changes, name = c.names.old.chars ∨ name = c.names.new.chars

structure PrefetchAgrees (digit : RegexDigit) (changes : List FileChange) : Prop where
  covered : ∀ p ranges,
    (parseTwoSidedDiff digit (renderDiff changes none)).postRanges p = some ranges →
    ∀ run ∈ ranges, ∃ found, parseDiffRanges digit (renderDiff changes none) p = some found ∧
      Covers found run
  touched : ∀ p found, parseDiffRanges digit (renderDiff changes none) p = some found →
    TouchedFile changes p
  apart : ∀ p found, parseDiffRanges digit (renderDiff changes none) p = some found →
    (∀ r ∈ found, r.1 ≤ r.2) ∧ found.Pairwise fun r s => r.2 + mergeGap < s.1

/-- When prefetch reads the diff well. A hunk is filed under another name than its file's when an
added line before it is taken for a header, or when the file's name ends in white space. -/
structure FiledWell (changes : List FileChange) : Prop where
  unspaced : ∀ c ∈ changes, c.hunks ≠ [] → ∀ path ∈ c.names.post, ' ' ∉ path.chars
  lookalikes : ∀ c ∈ changes, ∀ name ∈ c.lookalikes, TouchedFile changes name
  bridged : ∀ c ∈ changes, ∀ path ∈ c.names.post, ∀ file h, (file, h) ∈ c.filed →
    file ≠ some (readName path) → ∀ run ∈ h.postRuns,
      Bridged mergeGap (spansOf (readName path) (filedSpans changes)) run

theorem new_of_post {names : ChangedNames} {path : GitPath} (h : path ∈ names.post) :
    names.new = path := by
  cases names <;> first | exact Option.some.inj h | cases h

/-- A run of a hunk that is filed under its own file needs no bridge. -/
theorem FiledWell.run_bridged {changes : List FileChange} (h : FiledWell changes) {c : FileChange}
    (hc : c ∈ changes) {path : GitPath} (hpath : path ∈ c.names.post) {k : Hunk} (hk : k ∈ c.hunks)
    {run : ℕ × ℕ} (hrun : run ∈ k.postRuns) :
    Bridged mergeGap (spansOf (readName path) (filedSpans changes)) run := by
  obtain ⟨file, hfiled⟩ : ∃ file, (file, k) ∈ c.filed := mem_filedFrom hk
  by_cases hown : file = some (readName path)
  · obtain ⟨hpos, hfirst, hlast⟩ := run_within_span hrun
    refine bridged_of_mem (mem_spansOf.mpr ?_) hfirst hlast
    refine List.mem_flatMap.mpr ⟨c, hc, List.mem_filterMap.mpr ⟨(file, k), hfiled, ?_⟩⟩
    rw [hown, filedSpan, if_pos hpos]
  · exact h.bridged c hc path hpath file k hfiled hown run hrun

theorem prefetchAgrees_of_filedWell (digit : RegexDigit) {changes : List FileChange}
    (h : FiledWell changes) : PrefetchAgrees digit changes where
  covered := by
    intro p ranges hranges run hrun
    have hmem :
        run ∈ ((parseTwoSidedDiff digit (renderDiff changes none)).postRanges p).getD [] := by
      rw [hranges]
      exact hrun
    obtain ⟨c, hc, path, hpath, rfl, k, hk, hrun⟩ := (mem_postRanges_iff digit _ _ _).mp hmem
    have hbridged := h.run_bridged hc hpath hk hrun
    have hnamed : readName path ∈ changes.flatMap FileChange.namedFiles := by
      obtain ⟨r, hr, -⟩ := hbridged
      exact named_of_mem_filedSpans (mem_spansOf.mp hr)
    refine ⟨_, ?_, ((merged_spansOf changes _).covers_iff run).mpr hbridged⟩
    rw [parseDiffRanges_renderDiff, if_pos hnamed]
  touched := by
    intro p found hfound
    rw [parseDiffRanges_renderDiff] at hfound
    split_ifs at hfound with hnamed
    obtain ⟨c, hc, hp⟩ := List.mem_flatMap.mp hnamed
    rcases List.mem_append.mp hp with hp | hp
    · split_ifs at hp with hempty
      · cases hp
      obtain ⟨path, hpath, rfl⟩ := Option.map_eq_some_iff.mp (Option.mem_toList.mp hp)
      rw [tabFor, if_neg (h.unspaced c hc hempty path hpath), List.append_nil]
      exact ⟨c, hc, .inr (by rw [new_of_post hpath])⟩
    · exact h.lookalikes c hc p hp
  apart := by
    intro p found hfound
    rw [parseDiffRanges_renderDiff] at hfound
    split_ifs at hfound
    rw [← Option.some.inj hfound]
    exact ⟨(merged_spansOf changes p).nonempty, (merged_spansOf changes p).apart⟩

/-- Prefetch covers what the two-sided reading finds, and names no other file, exactly where no name
has a blank, no look-alike names another file, and what is filed elsewhere is bridged. -/
theorem prefetchAgrees_iff (digit : RegexDigit) (changes : List FileChange) :
    PrefetchAgrees digit changes ↔ FiledWell changes := by
  refine ⟨fun h => ?_, prefetchAgrees_of_filedWell digit⟩
  have htouched : ∀ name ∈ changes.flatMap FileChange.namedFiles, TouchedFile changes name :=
    fun name hname => h.touched name (mergeRanges mergeGap (spansOf name (filedSpans changes)))
      (by rw [parseDiffRanges_renderDiff, if_pos hname])
  refine ⟨fun c hc hhunks path hpath hblank => ?_, fun c hc name hname => ?_, ?_⟩
  · have hname : path.chars ++ ['\t'] ∈ c.headerName.toList := by
      rw [FileChange.headerName, Option.mem_def.mp hpath, Option.map_some, tabFor, if_pos hblank]
      exact List.mem_singleton_self _
    obtain ⟨c', -, hold | hnew⟩ := htouched _ (List.mem_flatMap.mpr
      ⟨c, hc, List.mem_append_left _ (by rwa [if_neg hhunks])⟩)
    · exact tab_not_mem_of_unquoted c'.names.old.unquoted (hold ▸ by simp)
    · exact tab_not_mem_of_unquoted c'.names.new.unquoted (hnew ▸ by simp)
  · exact htouched name (List.mem_flatMap.mpr ⟨c, hc, List.mem_append_right _ hname⟩)
  · intro c hc path hpath file k hfiled _ run hrun
    have hmem := (mem_postRanges_iff digit changes (readName path) run).mpr
      ⟨c, hc, path, hpath, rfl, k, mem_of_mem_filedFrom hfiled, hrun⟩
    obtain ⟨ranges, hranges⟩ : ∃ ranges, (parseTwoSidedDiff digit
        (renderDiff changes none)).postRanges (readName path) = some ranges := by
      refine Option.ne_none_iff_exists'.mp fun hnone => ?_
      rw [hnone] at hmem
      cases hmem
    rw [hranges, Option.getD_some] at hmem
    obtain ⟨found, hfound, hcovers⟩ := h.covered _ _ hranges run hmem
    rw [parseDiffRanges_renderDiff] at hfound
    split_ifs at hfound
    rw [← Option.some.inj hfound] at hcovers
    exact ((merged_spansOf changes _).covers_iff run).mp hcovers

/-- A line of the first hunk reads as if another file began, and the second hunk goes there. -/
def misfiled : FileChange where
  names := .modified ⟨['f'], by decide, by decide⟩
  extended := []
  hunks := [{
    preIndex := 0
    postIndex := 0
    heading := []
    body := [⟨.added, "++ b/x".toList, false, by decide⟩]
    heading_clean := newline_not_mem_nil
    body_ne_nil := List.cons_ne_nil _ _
    pre_fits := by simp [preCount, usizeMax]
    post_fits := by simp [postCount, usizeMax] }, {
    preIndex := 40
    postIndex := 41
    heading := []
    body := [⟨.added, ['y'], false, newline_not_mem_y⟩]
    heading_clean := newline_not_mem_nil
    body_ne_nil := List.cons_ne_nil _ _
    pre_fits := by simp [preCount, usizeMax]
    post_fits := by simp [postCount, usizeMax] }]
  edited := nofun

/-- The line added at 41 is in no range of the file. -/
theorem misfiled_not_prefetchAgrees : ¬PrefetchAgrees asciiDigit [misfiled] := by
  intro h
  obtain ⟨found, hfound, hcovers⟩ := h.covered ['f'] [(0, 0), (41, 41)] (by decide) (41, 41)
    (by decide)
  rw [parseDiffRanges_renderDiff, if_pos (by decide)] at hfound
  have hspans : spansOf ['f'] (filedSpans [misfiled]) = [(0, 0)] := by decide
  rw [← Option.some.inj hfound, hspans] at hcovers
  simp [mergeRanges, List.mergeSort_singleton, mergeRange, Covers] at hcovers

end Sashiko
