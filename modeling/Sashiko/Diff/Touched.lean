import Sashiko.Diff.Quoting
import Sashiko.Diff.RoundTrip

/-! Diffs of files with any names, and the names that the two readings of a diff give. -/

namespace Sashiko

open DiffState

/-! ### Changes -/

structure RepoPath where
  chars : Chars
  ne_nil : chars ≠ []

inductive PathChange where
  | modified (path : RepoPath)
  | created (path : RepoPath)
  | deleted (path : RepoPath)
  | renamed (old new : RepoPath) (moved : old.chars ≠ new.chars)

namespace PathChange

/-- The names in the `diff --git` line. -/
def old : PathChange → RepoPath
  | modified path | created path | deleted path => path
  | renamed old _ _ => old

def new : PathChange → RepoPath
  | modified path | created path | deleted path => path
  | renamed _ new _ => new

def pre : PathChange → Option RepoPath
  | created _ => none
  | names => some names.old

def post : PathChange → Option RepoPath
  | deleted _ => none
  | names => some names.new

end PathChange

structure NamedChange where
  names : PathChange
  extended : List ExtendedHeader
  hunks : List Hunk

/-! ### The text -/

def sideLine (mark side : Char) : Option RepoPath → Chars
  | some path => renderFileLine true mark side path.chars
  | none => mark :: mark :: mark :: ' ' :: devNull

namespace NamedChange

def gitLine (c : NamedChange) : Chars := renderGitLine true c.names.old.chars c.names.new.chars

def editLines (c : NamedChange) : List Chars :=
  if c.hunks.isEmpty then []
  else sideLine '-' 'a' c.names.pre :: sideLine '+' 'b' c.names.post ::
    c.hunks.flatMap Hunk.lines

def lines (c : NamedChange) : List Chars :=
  c.gitLine :: (c.extended.map (fun e => e.keyword ++ e.rest) ++ c.editLines)

end NamedChange

def namedLines (changes : List NamedChange) (signature : Option MailSignature) : List Chars :=
  changes.flatMap NamedChange.lines ++ (signature.map MailSignature.lines).getD []

def renderNamed (changes : List NamedChange) (signature : Option MailSignature) : String :=
  String.ofList ((namedLines changes signature).flatMap fun line => line ++ ['\n'])

/-! ### The files of a diff, as the baseline reads them -/

def extractFilesFromDiff (diff : String) : List Chars :=
  (linesOf diff.toList).filterMap fun line =>
    (stripChars? "diff --git a/".toList line).bind fun path => (splitOnce ' ' path).map (·.1)

/-! ### No control characters in the names -/

theorem control_not_mem_renderName {side : Char} (hside : 32 ≤ side.toNat) (path : Chars)
    {x : Char} (hx : x.toNat < 32) : x ∉ renderName true side path := by
  have hx' : x ≠ side := fun h => by subst h; omega
  have hfixed : x ≠ '"' ∧ x ≠ '/' := by
    refine ⟨fun h => ?_, fun h => ?_⟩ <;> · subst h; exact absurd hx (by decide)
  unfold renderName
  split_ifs with hquoted
  · have hinside : x ∉ path.flatMap (cEscape true) := fun hmem => by
      obtain ⟨c, -, hc⟩ := List.mem_flatMap.mp hmem
      have hplain := needsEscape_cEscape hc
      simp [needsEscape, hx] at hplain
    simp [hfixed, hx', hinside]
  · have hinside : x ∉ path := fun hmem => by
      have hplain := isUnquoted_of_not (Bool.not_eq_true _ ▸ hquoted) x hmem
      omega
    simp [hfixed, hx', hinside]

theorem control_not_mem_gitLine' (c : NamedChange) {x : Char} (hx : x.toNat < 32) :
    x ∉ c.gitLine := by
  have hprinted : (diffGit ++ [' ']).all (fun y => 32 ≤ y.toNat) = true := by decide
  have hfixed : x ∉ diffGit ++ [' '] := fun hmem =>
    absurd (of_decide_eq_true (List.all_eq_true.mp hprinted x hmem)) (by omega)
  simp only [List.mem_append, List.mem_cons, List.not_mem_nil, or_false, not_or] at hfixed
  simp only [NamedChange.gitLine, renderGitLine, List.mem_append, List.mem_cons, not_or]
  exact ⟨hfixed.1, control_not_mem_renderName (by decide) _ hx, hfixed.2,
    control_not_mem_renderName (by decide) _ hx⟩

theorem control_not_mem_sideLine {mark side : Char} (hmark : 32 ≤ mark.toNat)
    (hside : 32 ≤ side.toNat) (path : Option RepoPath) {x : Char} (hx : x.toNat < 32)
    (htab : x ≠ '\t') : x ∉ sideLine mark side path := by
  have hmark' : x ≠ mark := fun h => by subst h; omega
  have hprinted : (' ' :: devNull).all (fun y => 32 ≤ y.toNat) = true := by decide
  have hfixed : x ∉ ' ' :: devNull := fun hmem =>
    absurd (of_decide_eq_true (List.all_eq_true.mp hprinted x hmem)) (by omega)
  rw [List.mem_cons, not_or] at hfixed
  cases path with
  | none => simp [sideLine, hmark', hfixed]
  | some path =>
    have htabFor : x ∉ tabFor path.chars := by
      unfold tabFor
      split_ifs <;> simp [htab]
    simp [sideLine, renderFileLine, hmark', hfixed.1, htabFor,
      control_not_mem_renderName hside path.chars hx]

theorem newline_not_mem_named {changes : List NamedChange} {signature : Option MailSignature}
    {line : Chars} (hmem : line ∈ namedLines changes signature) : '\n' ∉ line := by
  rcases List.mem_append.mp hmem with hmem | hmem
  · obtain ⟨c, -, hline⟩ := List.mem_flatMap.mp hmem
    rcases List.mem_cons.mp hline with rfl | hline
    · exact control_not_mem_gitLine' c (by decide)
    rcases List.mem_append.mp hline with hline | hline
    · exact newline_not_mem_extended hline
    · unfold NamedChange.editLines at hline
      split_ifs at hline
      · cases hline
      · rcases List.mem_cons.mp hline with rfl | hline
        · exact control_not_mem_sideLine (by decide) (by decide) _ (by decide) (by decide)
        rcases List.mem_cons.mp hline with rfl | hline
        · exact control_not_mem_sideLine (by decide) (by decide) _ (by decide) (by decide)
        obtain ⟨h, -, hhunk⟩ := List.mem_flatMap.mp hline
        exact newline_not_mem_hunk hhunk
  · exact newline_not_mem_signature hmem

theorem linesOf_renderNamed (changes : List NamedChange) (signature : Option MailSignature) :
    linesOf (renderNamed changes signature).toList =
      (namedLines changes signature).map dropReturn := by
  rw [renderNamed, String.toList_ofList]
  exact linesOf_lines _ fun line => newline_not_mem_named

/-! ### What the two-sided reading makes of a change -/

namespace NamedChange

/-- The names of the two sides, as the header lines of the hunks are read. -/
def source (c : NamedChange) : Option Chars := c.names.pre.map fun p => headerName true 'a' p.chars

def target (c : NamedChange) : Option Chars := c.names.post.map fun p => headerName true 'b' p.chars

def gitPair (c : NamedChange) : Option (Chars × Chars) := parseDiffGitPaths c.gitLine

def effect (d : ParsedDiff) (c : NamedChange) : ParsedDiff :=
  c.hunks.foldl (hunkEffect c.source c.target)
    (d.addPair (c.gitPair.map (·.1)) (c.gitPair.map (·.2)))

end NamedChange

theorem isDiffHeader_renderFileLine {quotePath : Bool} {mark side : Char} (hmark : mark ≠ ' ')
    (hside : side = 'a' ∨ side = 'b') (path : Chars) :
    isDiffHeader mark (renderFileLine quotePath mark side path) = true := by
  rw [isDiffHeader, renderFileLine, afterMarks_marks hmark]
  dsimp only
  have hspaces : ∀ c ∈ tabFor path, isRustWhitespace c = true := fun c => whitespace_of_mem_tabFor
  have hvisible : isRustWhitespace side = false := by rcases hside with rfl | rfl <;> decide
  unfold renderName
  split_ifs
  · have htrim : trimChars ('"' :: side :: '/' :: (path.flatMap (cEscape quotePath) ++ ['"']) ++
        tabFor path) = '"' :: side :: '/' :: (path.flatMap (cEscape quotePath) ++ ['"']) :=
      trimChars_quoted (side :: '/' :: path.flatMap (cEscape quotePath)) hspaces
    rw [htrim]
    rcases hside with rfl | rfl <;> simp [List.isPrefixOf]
  · have htrim := trimChars_spaces hvisible (by decide : isRustWhitespace '/' = false) path hspaces
    rw [htrim]
    rcases hside with rfl | rfl <;> simp [aSlash, bSlash, List.isPrefixOf]

theorem isDiffHeader_sideLine {mark side : Char} (hmark : mark ≠ ' ')
    (hside : side = 'a' ∨ side = 'b') (path : Option RepoPath) :
    isDiffHeader mark (sideLine mark side path) = true := by
  cases path with
  | none => exact (isDiffHeader_null side hmark).1
  | some path => exact isDiffHeader_renderFileLine hmark hside path.chars

theorem extractSourceFile_sideLine (path : Option RepoPath) :
    extractSourceFile (sideLine '-' 'a' path) = path.map fun p => headerName true 'a' p.chars := by
  cases path with
  | none => decide
  | some path => exact extractSourceFile_renderFileLine

theorem extractTargetFile_sideLine (path : Option RepoPath) :
    extractTargetFile (sideLine '+' 'b' path) = path.map fun p => headerName true 'b' p.chars := by
  cases path with
  | none => decide
  | some path => exact extractTargetFile_renderFileLine

section Reading

variable {d : ParsedDiff} {pre post : Option Chars} {s : DiffState}

theorem diffGit_isPrefixOf_gitLine (c : NamedChange) : diffGit.isPrefixOf c.gitLine = true :=
  List.isPrefixOf_iff_prefix.mpr (List.prefix_append _ _)

theorem diffGit_isPrefixOf_of_head {c : Char} (h : c ≠ 'd') (cs : Chars) :
    diffGit.isPrefixOf (c :: cs) = false := by
  change ('d' :: "iff --git ".toList).isPrefixOf (c :: cs) = false
  rw [List.isPrefixOf, beq_false_of_ne (Ne.symm h), Bool.false_and]

theorem sideLine_cons (mark side : Char) (path : Option RepoPath) :
    ∃ cs, sideLine mark side path = mark :: cs := by
  cases path <;> exact ⟨_, rfl⟩

theorem foldl_namedEdit (digit : RegexDigit) (hs : Between d pre post s) (c : NamedChange) :
    ∃ pre' post', Between (c.hunks.foldl (hunkEffect c.source c.target) d) pre' post'
      ((c.editLines.map dropReturn).foldl (step digit) s) := by
  unfold NamedChange.editLines
  split_ifs with hempty
  · rw [List.isEmpty_iff.mp hempty]
    exact ⟨pre, post, hs⟩
  · have hpre : '\r' ∉ sideLine '-' 'a' c.names.pre :=
      control_not_mem_sideLine (by decide) (by decide) _ (by decide) (by decide)
    have hpost : '\r' ∉ sideLine '+' 'b' c.names.post :=
      control_not_mem_sideLine (by decide) (by decide) _ (by decide) (by decide)
    obtain ⟨cs, hcs⟩ := sideLine_cons '-' 'a' c.names.pre
    obtain ⟨ds, hds⟩ := sideLine_cons '+' 'b' c.names.post
    have hread : Between d c.source c.target _ := extractSourceFile_sideLine c.names.pre ▸
      extractTargetFile_sideLine c.names.post ▸ step_headers digit hs
        (hcs ▸ diffGit_isPrefixOf_of_head (by decide) cs)
        (isDiffHeader_sideLine (by decide) (.inl rfl) c.names.pre)
        (hds ▸ diffGit_isPrefixOf_of_head (by decide) ds)
        (hds ▸ isDiffHeader_of_head (by decide) ds)
        (isDiffHeader_sideLine (by decide) (.inr rfl) c.names.post)
    rw [List.map_cons, List.map_cons, List.foldl_cons, List.foldl_cons,
      dropReturn_of_not_mem hpre, dropReturn_of_not_mem hpost]
    exact ⟨c.source, c.target, foldl_hunks hread c.hunks⟩

theorem foldl_namedChange (digit : RegexDigit) (hs : Between d pre post s) (c : NamedChange) :
    ∃ pre' post', Between (c.effect d) pre' post'
      ((c.lines.map dropReturn).foldl (step digit) s) := by
  have hgit := step_diffGit digit hs (diffGit_isPrefixOf_gitLine c)
  obtain ⟨preEnd, postEnd, hedit⟩ := foldl_namedEdit digit hgit c
  have hreturn : '\r' ∉ c.gitLine := control_not_mem_gitLine' c (by decide)
  refine ⟨preEnd, postEnd, ?_⟩
  rw [NamedChange.lines, List.map_cons, List.map_append, List.foldl_cons, List.foldl_append,
    dropReturn_of_not_mem hreturn, foldl_quiet hgit.outside fun line => quiet_of_mem_extended]
  exact hedit

theorem foldl_namedChanges (digit : RegexDigit) (changes : List NamedChange) :
    ∃ pre post, Between (changes.foldl NamedChange.effect .empty) pre post
      (((changes.flatMap NamedChange.lines).map dropReturn).foldl (step digit) .init) := by
  induction changes using List.reverseRecOn with
  | nil => exact ⟨none, none, rfl, rfl, rfl, rfl, rfl, rfl, rfl⟩
  | append_singleton changes c ih =>
    obtain ⟨pre, post, hs⟩ := ih
    obtain ⟨pre', post', hend⟩ := foldl_namedChange digit hs c
    refine ⟨pre', post', ?_⟩
    rw [List.flatMap_append, List.map_append, List.foldl_append, List.foldl_append,
      List.flatMap_singleton]
    exact hend

end Reading

/-- The reading of a whole diff, whatever its names look like. -/
theorem parseTwoSidedDiff_renderNamed (digit : RegexDigit) (changes : List NamedChange)
    (signature : Option MailSignature) :
    parseTwoSidedDiff digit (renderNamed changes signature) =
      changes.foldl NamedChange.effect .empty := by
  obtain ⟨pre, post, hs⟩ := foldl_namedChanges digit changes
  obtain ⟨hend, hparsed⟩ := foldl_untold digit (fun line => untold_signature) hs.outside
  rw [parseTwoSidedDiff, linesOf_renderNamed, namedLines, List.map_append, List.foldl_append,
    flushHunk, if_neg (by rw [hend]; decide), hparsed, hs.parsed]

/-! ### What the baseline makes of it -/

theorem extract_none {line : Chars} (h : diffGit.isPrefixOf line = false) :
    ((stripChars? "diff --git a/".toList line).bind fun path => (splitOnce ' ' path).map (·.1)) =
      none := by
  have hnone : stripChars? "diff --git a/".toList line = none := by
    rw [stripChars?, if_neg]
    intro hpre
    have hgit : diffGit <+: line := List.IsPrefix.trans ⟨['a', '/'], rfl⟩
      (List.isPrefixOf_iff_prefix.mp hpre)
    rw [List.isPrefixOf_iff_prefix.mpr hgit] at h
    cases h
  rw [hnone, Option.bind_none]

theorem splitOnce_map_fst {c : Char} (xs ys : Chars) :
    (splitOnce c (xs ++ c :: ys)).map (·.1) = some (xs.takeWhile (· ≠ c)) := by
  induction xs with
  | nil => simp [splitOnce]
  | cons x xs ih =>
    rw [List.cons_append, splitOnce]
    by_cases hx : x = c
    · simp [hx]
    · rw [if_neg hx, Option.map_map, List.takeWhile_cons_of_pos (by simpa using hx)]
      have hcons := congrArg (Option.map (x :: ·)) ih
      rw [Option.map_map] at hcons
      exact hcons

/-- The old name up to its first blank, if it is not quoted. -/
def NamedChange.listed (c : NamedChange) : Option Chars :=
  if needsQuotes true c.names.old.chars then none
  else some (c.names.old.chars.takeWhile (· ≠ ' '))

theorem extract_gitLine (c : NamedChange) :
    ((stripChars? "diff --git a/".toList c.gitLine).bind fun path =>
      (splitOnce ' ' path).map (·.1)) = c.listed := by
  unfold NamedChange.gitLine renderGitLine NamedChange.listed
  split_ifs with hq
  · have hname : renderName true 'a' c.names.old.chars = '"' :: 'a' :: '/' ::
        (c.names.old.chars.flatMap (cEscape true) ++ ['"']) := by rw [renderName, if_pos hq]
    rw [hname]
    rfl
  · have hname : renderName true 'a' c.names.old.chars = 'a' :: '/' :: c.names.old.chars := by
      rw [renderName, if_neg hq]
    have htext : diffGit ++ ('a' :: '/' :: c.names.old.chars ++
        ' ' :: renderName true 'b' c.names.new.chars) = "diff --git a/".toList ++
          (c.names.old.chars ++ ' ' :: renderName true 'b' c.names.new.chars) := by
      rw [show "diff --git a/".toList = diffGit ++ ['a', '/'] from rfl]
      simp
    rw [hname, htext, stripChars?_append, Option.bind_some, splitOnce_map_fst]

theorem extract_rest (c : NamedChange) {line : Chars}
    (h : line ∈ (c.extended.map (fun e => e.keyword ++ e.rest) ++ c.editLines).map dropReturn) :
    diffGit.isPrefixOf line = false := by
  rw [List.map_append] at h
  rcases List.mem_append.mp h with h | h
  · exact (quiet_of_mem_extended h).git
  obtain ⟨text, htext, rfl⟩ := List.mem_map.mp h
  apply isPrefixOf_dropReturn
  rw [← List.isPrefixOf_iff_prefix, Bool.not_eq_true]
  unfold NamedChange.editLines at htext
  split_ifs at htext
  · cases htext
  rcases List.mem_cons.mp htext with rfl | htext
  · obtain ⟨cs, hcs⟩ := sideLine_cons '-' 'a' c.names.pre
    exact hcs ▸ diffGit_isPrefixOf_of_head (by decide) cs
  rcases List.mem_cons.mp htext with rfl | htext
  · obtain ⟨cs, hcs⟩ := sideLine_cons '+' 'b' c.names.post
    exact hcs ▸ diffGit_isPrefixOf_of_head (by decide) cs
  obtain ⟨k, -, hline⟩ := List.mem_flatMap.mp htext
  rcases List.mem_cons.mp hline with rfl | hline
  · exact diffGit_isPrefixOf_of_head (by decide) _
  obtain ⟨body, -, hbody⟩ := List.mem_flatMap.mp hline
  rcases List.mem_cons.mp hbody with rfl | hbody
  · exact diffGit_isPrefixOf_of_head (by cases body.kind <;> decide) _
  · split_ifs at hbody
    · rw [List.mem_singleton.mp hbody]
      rfl
    · cases hbody

/-- One file a change at most. -/
theorem mem_extractFilesFromDiff {changes : List NamedChange} {signature : Option MailSignature}
    {p : Chars} : p ∈ extractFilesFromDiff (renderNamed changes signature) ↔
      ∃ c ∈ changes, c.listed = some p := by
  rw [extractFilesFromDiff, linesOf_renderNamed, List.mem_filterMap]
  constructor
  · rintro ⟨line, hline, hp⟩
    rw [namedLines, List.map_append] at hline
    rcases List.mem_append.mp hline with hline | hline
    · obtain ⟨text, htext, rfl⟩ := List.mem_map.mp hline
      obtain ⟨c, hc, hmem⟩ := List.mem_flatMap.mp htext
      rcases List.mem_cons.mp hmem with rfl | hmem
      · rw [dropReturn_of_not_mem (control_not_mem_gitLine' c (by decide)), extract_gitLine] at hp
        exact ⟨c, hc, hp⟩
      · rw [extract_none (extract_rest c (List.mem_map_of_mem hmem))] at hp
        cases hp
    · rw [extract_none (untold_signature hline).1] at hp
      cases hp
  · rintro ⟨c, hc, hp⟩
    refine ⟨c.gitLine, List.mem_map.mpr ⟨c.gitLine, ?_, ?_⟩, ?_⟩
    · exact List.mem_append_left _ (List.mem_flatMap.mpr ⟨c, hc, List.mem_cons_self⟩)
    · exact dropReturn_of_not_mem (control_not_mem_gitLine' c (by decide))
    · rw [extract_gitLine, hp]

end Sashiko
