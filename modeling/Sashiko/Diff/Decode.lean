import Mathlib.Data.List.Nodup
import Sashiko.Diff.Body

/-! Reading a diff gives back the changes it was written from. -/

namespace Sashiko

open DiffState

variable {digit : RegexDigit}

/-! ### The changes, file by file -/

/-- The changes with hunks for a file, as one side names it. -/
def touching (side : ChangedNames → Option GitPath) (p : Chars) (changes : List FileChange) :
    List FileChange :=
  changes.filter fun c => (side c.names).map (·.chars) = some p && !c.hunks.isEmpty

/-- What the hunks for a file hold, hunk by hunk. -/
def gathered {α : Type} (side : ChangedNames → Option GitPath) (read : Hunk → List α)
    (changes : List FileChange) (p : Chars) : Option (List α) :=
  if (touching side p changes).isEmpty then none
  else some ((touching side p changes).flatMap fun c => c.hunks.flatMap read)

def renamedPairs (changes : List FileChange) : List (Chars × Chars) :=
  changes.filterMap fun c =>
    if c.names.isRename then some (c.names.old.chars, c.names.new.chars) else none

structure Decoded (changes : List FileChange) (d : ParsedDiff) : Prop where
  postRanges : ∀ p, d.postRanges p = gathered ChangedNames.post Hunk.postRuns changes p
  preRanges : ∀ p, d.preRanges p = gathered ChangedNames.pre Hunk.preRuns changes p
  deletedLines : ∀ p,
    d.deletedLines p = gathered ChangedNames.pre (fun h => readTexts h.deletedLines) changes p
  preToPost : ((renamedPairs changes).map (·.1)).Nodup →
    ∀ p q, d.preToPost p = some q ↔ (p, q) ∈ renamedPairs changes
  postToPre : ((renamedPairs changes).map (·.2)).Nodup →
    ∀ p q, d.postToPre q = some p ↔ (p, q) ∈ renamedPairs changes

/-- The names are read as they stand: none ends in white space, and no new name reads like the
second one of a `diff --git` line. -/
structure ReadNames (names : ChangedNames) : Prop where
  old : EndsVisible names.old.chars
  new : EndsVisible names.new.chars
  target : names.isRename = true → ReadTarget names.new.chars

/-! ### The lines of one file -/

theorem dropReturn_of_not_mem {line : Chars} (h : '\r' ∉ line) : dropReturn line = line := by
  rw [dropReturn, if_neg fun hlast => h (List.mem_of_getLast? hlast)]

theorem control_not_mem {path : GitPath} {c : Char} (hc : c.toNat < 32) : c ∉ path.chars :=
  fun hmem => absurd (path.unquoted c hmem).2.2.1 (by omega)

theorem control_not_mem_gitNames (old new : GitPath) {x : Char} (hx : x.toNat < 32) :
    x ∉ diffGit ++ gitNames old.chars new.chars := by
  have hnames : ∀ path : GitPath, x ∉ path.chars := fun path => control_not_mem hx
  have hprinted : (diffGit ++ ['a', '/', ' ', 'b']).all (fun y => 32 ≤ y.toNat) = true := by decide
  have hfixed : x ∉ diffGit ++ ['a', '/', ' ', 'b'] := fun hmem =>
    absurd (of_decide_eq_true (List.all_eq_true.mp hprinted x hmem)) (by omega)
  simp only [List.mem_append, List.mem_cons, List.not_mem_nil, or_false, not_or] at hfixed
  obtain ⟨hgit, ha, hslash, hblank, hb⟩ := hfixed
  simp [gitNames, hgit, ha, hslash, hblank, hb, hnames]

theorem control_not_mem_gitLine (c : FileChange) {x : Char} (hx : x.toNat < 32) :
    x ∉ c.gitLine :=
  control_not_mem_gitNames c.names.old c.names.new hx

theorem control_not_mem_fileLine {mark side : Char} (hmark : 32 ≤ mark.toNat)
    (hside : 32 ≤ side.toNat) (path : Option GitPath) {x : Char} (hx : x.toNat < 32)
    (htab : x ≠ '\t') : x ∉ fileLine mark side path := by
  have hmark' : x ≠ mark := fun h => by subst h; omega
  have hside' : x ≠ side := fun h => by subst h; omega
  have hprinted : ([' ', '/'] ++ devNull).all (fun y => 32 ≤ y.toNat) = true := by decide
  have hfixed' : x ∉ [' ', '/'] ++ devNull := fun hmem =>
    absurd (of_decide_eq_true (List.all_eq_true.mp hprinted x hmem)) (by omega)
  simp only [List.mem_append, List.mem_cons, List.not_mem_nil, or_false, not_or] at hfixed'
  obtain ⟨⟨hblank, hslash⟩, hnull⟩ := hfixed'
  cases path with
  | none => simp [fileLine, hmark', hblank, hnull]
  | some path =>
    have htabFor : x ∉ tabFor path.chars := by
      unfold tabFor
      split_ifs <;> simp [htab]
    simp [fileLine, hmark', hside', hblank, hslash, control_not_mem hx, htabFor]

section Changes

variable {d : ParsedDiff} {pre post : Option Chars} {s : DiffState}

theorem foldl_quiet {lines : List Chars} (hs : s.inHunk = false) (h : ∀ line ∈ lines, Quiet line) :
    lines.foldl (step digit) s = s := by
  induction lines with
  | nil => rfl
  | cons line lines ih =>
    have hstep : s.step digit line = s := by
      rw [step, hs, if_neg Bool.false_ne_true, stepOutside_quiet (h line List.mem_cons_self)]
    rw [List.foldl_cons, hstep, ih fun l hl => h l (List.mem_cons_of_mem _ hl)]

/-- A `diff --git` line names both sides, and gives them as a pair when they differ. -/
theorem step_diffGit (digit : RegexDigit) (hs : Between d pre post s) {line : Chars}
    (hline : diffGit.isPrefixOf line = true) :
    Between (d.addPair ((parseDiffGitPaths line).map (·.1)) ((parseDiffGitPaths line).map (·.2)))
      ((parseDiffGitPaths line).map (·.1)) ((parseDiffGitPaths line).map (·.2))
      (s.step digit line) := by
  have hstep : s.step digit line = s.readDiffGit line := by
    rw [step, hs.outside, if_neg Bool.false_ne_true, stepOutside, readHeader, hline]
    rfl
  rw [hstep, readDiffGit, hs.parsed]
  exact { hs with parsed := rfl, preFile := rfl, postFile := rfl }

/-- The `diff --git` line of a rename may already give its pair; no other gives one. -/
theorem step_gitLine (digit : RegexDigit) (hs : Between d pre post s) {c : FileChange}
    (hc : ReadNames c.names) :
    ∃ d' pre' post', Between d' pre' post' (s.step digit c.gitLine) ∧
      (d' = d ∨ c.names.isRename = true ∧
        d' = d.addPair (some c.names.old.chars) (some c.names.new.chars)) := by
  have hprefix : diffGit.isPrefixOf c.gitLine = true :=
    List.isPrefixOf_iff_prefix.mpr (List.prefix_append _ _)
  have hread : ∀ old new, parseDiffGitPaths c.gitLine = some (old, new) →
      Between (d.addPair (some old) (some new)) (some old) (some new)
        (s.step digit c.gitLine) := by
    intro old new hpaths
    have hstep := step_diffGit digit hs hprefix
    rwa [hpaths] at hstep
  have hsame : ∀ w, d.addPair (some w) (some w) = d := fun w => if_neg fun h => h rfl
  have hplain : ∀ path : GitPath, c.names.old = path → c.names.new = path →
      parseDiffGitPaths c.gitLine = some (path.chars, path.chars) := by
    intro path hold hnew
    rw [FileChange.gitLine, hold, hnew]
    exact parseDiffGitPaths_same path.unquoted path.ne_nil (hold ▸ hc.old)
  cases hnames : c.names with
  | modified path =>
    have hpaths := hread _ _ (hplain path (by rw [hnames]; rfl) (by rw [hnames]; rfl))
    exact ⟨_, _, _, hpaths, .inl (hsame _)⟩
  | created path =>
    have hpaths := hread _ _ (hplain path (by rw [hnames]; rfl) (by rw [hnames]; rfl))
    exact ⟨_, _, _, hpaths, .inl (hsame _)⟩
  | deleted path =>
    have hpaths := hread _ _ (hplain path (by rw [hnames]; rfl) (by rw [hnames]; rfl))
    exact ⟨_, _, _, hpaths, .inl (hsame _)⟩
  | renamed old new moved =>
    have hrename : c.names.isRename = true := by rw [hnames]; rfl
    rcases parseDiffGitPaths_rename c.names.old.unquoted c.names.new.unquoted c.names.new.ne_nil
      hc.new (hc.target hrename) with hpaths | ⟨w, hpaths⟩
    · rw [hnames] at hpaths
      exact ⟨_, _, _, hread _ _ (by rw [FileChange.gitLine, hnames, hpaths]), .inr ⟨rfl, rfl⟩⟩
    · exact ⟨_, _, _, hread _ _ hpaths, .inl (hsame _)⟩

/-- The names of the two header lines stand for the sides of the hunks that follow. -/
theorem step_headers (digit : RegexDigit) (hs : Between d pre post s) {preLine postLine : Chars}
    (hpreGit : diffGit.isPrefixOf preLine = false) (hpreHeader : isDiffPreImageHeader preLine = true)
    (hpostGit : diffGit.isPrefixOf postLine = false)
    (hpostPre : isDiffPreImageHeader postLine = false)
    (hpostHeader : isDiffPostImageHeader postLine = true) :
    Between d (extractSourceFile preLine) (extractTargetFile postLine)
      ((s.step digit preLine).step digit postLine) := by
  have hfirst : s.step digit preLine = s.readPreHeader preLine := by
    rw [step, hs.outside, if_neg Bool.false_ne_true, stepOutside, readHeader, hpreGit, hpreHeader]
    rfl
  have hout : (s.readPreHeader preLine).inHunk = false := hs.outside
  have hsecond : (s.readPreHeader preLine).step digit postLine =
      (s.readPreHeader preLine).readPostHeader postLine := by
    rw [step, hout, if_neg Bool.false_ne_true, stepOutside, readHeader, hpostGit, hpostPre,
      hpostHeader]
    rfl
  rw [hfirst, hsecond]
  exact { hs with preFile := rfl, postFile := rfl }

theorem step_fileLines (hs : Between d pre post s) {names : ChangedNames} (hc : ReadNames names) :
    Between d (names.pre.map (·.chars)) (names.post.map (·.chars))
      ((s.step digit (fileLine '-' 'a' names.pre)).step digit
        (fileLine '+' 'b' names.post)) := by
  have hpre : ∀ p ∈ names.pre, EndsVisible p.chars := by
    intro p hp
    cases names <;> cases hp <;> exact hc.old
  have hpost : ∀ p ∈ names.post, EndsVisible p.chars := by
    intro p hp
    cases names <;> cases hp <;> exact hc.new
  obtain ⟨hpreHeader, hsource⟩ := extractSourceFile_fileLine _ hpre
  obtain ⟨hpostHeader, htarget⟩ := extractTargetFile_fileLine _ hpost
  have hpreGit : diffGit.isPrefixOf (fileLine '-' 'a' names.pre) = false := by
    cases names.pre <;> rfl
  have hpostGit : diffGit.isPrefixOf (fileLine '+' 'b' names.post) = false ∧
      isDiffPreImageHeader (fileLine '+' 'b' names.post) = false := by
    cases names.post <;> exact ⟨rfl, isDiffHeader_of_head (by decide) _⟩
  have hread := step_headers digit hs hpreGit hpreHeader hpostGit.1 hpostGit.2 hpostHeader
  rwa [hsource, htarget] at hread

/-- The hunks of the change, added to what is known. -/
def hunksEffect (c : FileChange) (d : ParsedDiff) : ParsedDiff :=
  c.hunks.foldl (hunkEffect (c.names.pre.map (·.chars)) (c.names.post.map (·.chars))) d

theorem quiet_of_mem_extended {extended : List ExtendedHeader} {line : Chars}
    (h : line ∈ (extended.map fun e => e.keyword ++ e.rest).map dropReturn) : Quiet line := by
  obtain ⟨text, htext, rfl⟩ := List.mem_map.mp h
  obtain ⟨e, -, rfl⟩ := List.mem_map.mp htext
  have hlast : e.keyword.getLast? ≠ some '\r' := by
    have hall : ∀ keyword ∈ extendedKeywords, keyword.getLast? ≠ some '\r' := by decide
    exact hall _ e.known
  rw [dropReturn_append hlast]
  exact quiet_extended e.known _

theorem foldl_editLines (digit : RegexDigit) (hs : Between d pre post s) {c : FileChange}
    (hc : ReadNames c.names) :
    ∃ pre' post', Between (hunksEffect c d) pre' post'
      ((c.editLines.map dropReturn).foldl (step digit) s) := by
  unfold FileChange.editLines
  split_ifs with hempty
  · have hnone : c.hunks = [] := List.isEmpty_iff.mp hempty
    refine ⟨pre, post, ?_⟩
    rw [hunksEffect, hnone]
    exact hs
  · refine ⟨c.names.pre.map (·.chars), c.names.post.map (·.chars), ?_⟩
    have hpre : '\r' ∉ fileLine '-' 'a' c.names.pre :=
      control_not_mem_fileLine (by decide) (by decide) _ (by decide) (by decide)
    have hpost : '\r' ∉ fileLine '+' 'b' c.names.post :=
      control_not_mem_fileLine (by decide) (by decide) _ (by decide) (by decide)
    rw [List.map_cons, List.map_cons, List.foldl_cons, List.foldl_cons,
      dropReturn_of_not_mem hpre, dropReturn_of_not_mem hpost]
    exact foldl_hunks (step_fileLines hs hc) c.hunks

theorem foldl_change (digit : RegexDigit) (hs : Between d pre post s) {c : FileChange}
    (hc : ReadNames c.names) :
    ∃ d' pre' post',
      Between (hunksEffect c d') pre' post' ((c.lines.map dropReturn).foldl (step digit) s) ∧
      (d' = d ∨ c.names.isRename = true ∧
        d' = d.addPair (some c.names.old.chars) (some c.names.new.chars)) := by
  obtain ⟨d', pre', post', hgit, hd'⟩ := step_gitLine digit hs hc
  obtain ⟨preEnd, postEnd, hedit⟩ := foldl_editLines digit hgit hc
  have hreturn : '\r' ∉ c.gitLine := control_not_mem_gitLine c (by decide)
  refine ⟨d', preEnd, postEnd, ?_, hd'⟩
  rw [FileChange.lines, List.map_cons, List.map_append, List.foldl_cons, List.foldl_append,
    dropReturn_of_not_mem hreturn, foldl_quiet hgit.outside fun line => quiet_of_mem_extended]
  exact hedit

end Changes

/-! ### What is known of each file -/

/-- The renames known are those listed. -/
structure PairsOf (pairs : List (Chars × Chars)) (d : ParsedDiff) : Prop where
  preSound : ∀ p q, d.preToPost p = some q → (p, q) ∈ pairs
  preFound : ∀ p q, (p, q) ∈ pairs → (d.preToPost p).isSome
  postSound : ∀ p q, d.postToPre q = some p → (p, q) ∈ pairs
  postFound : ∀ p q, (p, q) ∈ pairs → (d.postToPre q).isSome

/-- What is read of the changes so far. -/
structure ReadSoFar (changes : List FileChange) (d : ParsedDiff) : Prop where
  postRanges : ∀ p, d.postRanges p = gathered ChangedNames.post Hunk.postRuns changes p
  preRanges : ∀ p, d.preRanges p = gathered ChangedNames.pre Hunk.preRuns changes p
  deletedLines : ∀ p,
    d.deletedLines p = gathered ChangedNames.pre (fun h => readTexts h.deletedLines) changes p
  pairs : PairsOf (renamedPairs changes) d

theorem gathered_concat {α : Type} (side : ChangedNames → Option GitPath) (read : Hunk → List α)
    (changes : List FileChange) (c : FileChange) (p : Chars) :
    gathered side read (changes ++ [c]) p =
      if (side c.names).map (·.chars) = some p ∧ c.hunks ≠ [] then
        some ((gathered side read changes p).getD [] ++ c.hunks.flatMap read)
      else gathered side read changes p := by
  have hconcat : touching side p (changes ++ [c]) = touching side p changes ++
      if (side c.names).map (·.chars) = some p ∧ c.hunks ≠ [] then [c] else [] := by
    rw [touching, List.filter_append, ← touching, List.filter_singleton]
    simp
  unfold gathered
  rw [hconcat]
  by_cases htouch : (side c.names).map (·.chars) = some p ∧ c.hunks ≠ []
  · rw [if_pos htouch, if_pos htouch]
    cases touching side p changes <;> simp
  · rw [if_neg htouch, if_neg htouch, List.append_nil]

theorem foldl_extend {α : Type} (file : Option Chars) (read : Hunk → List α)
    (get : ParsedDiff → Chars → Option (List α)) (effect : ParsedDiff → Hunk → ParsedDiff)
    (heffect : ∀ d h p, get (effect d h) p =
      if file = some p then some ((get d p).getD [] ++ read h) else get d p)
    (hunks : List Hunk) (d : ParsedDiff) (p : Chars) :
    get (hunks.foldl effect d) p =
      if file = some p ∧ hunks ≠ [] then some ((get d p).getD [] ++ hunks.flatMap read)
      else get d p := by
  induction hunks generalizing d with
  | nil => simp
  | cons h hunks ih =>
    rw [List.foldl_cons, ih, heffect]
    by_cases hfile : file = some p
    · by_cases hnil : hunks = []
      · simp [hfile, hnil]
      · simp [hfile, hnil]
    · simp [hfile]

section Lookups

variable (pre post : Option Chars) (d : ParsedDiff) (h : Hunk) (p : Chars)

theorem addPair_cases : d.addPair pre post = d ∨ ∃ old new, pre = some old ∧ post = some new ∧
    old ≠ new ∧ d.addPair pre post =
      { d with
        preToPost := Function.update d.preToPost old (some new)
        postToPre := Function.update d.postToPre new (some old) } := by
  cases pre with
  | none => exact .inl rfl
  | some old =>
    cases post with
    | none => exact .inl rfl
    | some new =>
      by_cases hne : old ≠ new
      · exact .inr ⟨old, new, rfl, rfl, hne, if_pos hne⟩
      · exact .inl (if_neg hne)

theorem addPair_ranges : (d.addPair pre post).postRanges = d.postRanges ∧
    (d.addPair pre post).preRanges = d.preRanges ∧
    (d.addPair pre post).deletedLines = d.deletedLines := by
  rcases addPair_cases pre post d with h | ⟨old, new, -, -, -, h⟩
  · rw [h]
    exact ⟨rfl, rfl, rfl⟩
  · rw [h]
    exact ⟨rfl, rfl, rfl⟩

theorem extendEntry_apply {α : Type} (m : Chars → Option (List α)) (file : Chars) (xs : List α) :
    extendEntry m file xs p = if some file = some p then some ((m p).getD [] ++ xs) else m p := by
  unfold extendEntry Function.update
  by_cases hfile : p = file
  · simp [hfile]
  · rw [dif_neg hfile, if_neg fun heq => hfile (Option.some.inj heq).symm]

theorem postRanges_hunkEffect : (hunkEffect pre post d h).postRanges p =
    if post = some p then some ((d.postRanges p).getD [] ++ h.postRuns) else d.postRanges p := by
  have hpre : ∀ (e : ParsedDiff) ranges lines,
      (e.addPre pre ranges lines).postRanges = e.postRanges := by
    intro e ranges lines
    cases pre <;> rfl
  rw [hunkEffect, (addPair_ranges _ _ _).1, hpre]
  cases post with
  | none => rfl
  | some file => exact extendEntry_apply p d.postRanges file _

theorem preRanges_hunkEffect : (hunkEffect pre post d h).preRanges p =
    if pre = some p then some ((d.preRanges p).getD [] ++ h.preRuns) else d.preRanges p := by
  have hpost : ∀ ranges, (d.addPost post ranges).preRanges = d.preRanges := by
    intro ranges
    cases post <;> rfl
  rw [hunkEffect, (addPair_ranges _ _ _).2.1]
  cases pre with
  | none => exact congrFun (hpost _) p
  | some file =>
    have hextend := extendEntry_apply p (d.addPost post h.postRuns).preRanges file h.preRuns
    rw [hpost] at hextend
    exact (congrArg (fun m => extendEntry m file h.preRuns p) (hpost _)).trans hextend

theorem deletedLines_hunkEffect : (hunkEffect pre post d h).deletedLines p =
    if pre = some p then some ((d.deletedLines p).getD [] ++ readTexts h.deletedLines)
    else d.deletedLines p := by
  have hpost : ∀ ranges, (d.addPost post ranges).deletedLines = d.deletedLines := by
    intro ranges
    cases post <;> rfl
  rw [hunkEffect, (addPair_ranges _ _ _).2.2]
  cases pre with
  | none => exact congrFun (hpost _) p
  | some file =>
    have hextend := extendEntry_apply p (d.addPost post h.postRuns).deletedLines file
      (readTexts h.deletedLines)
    rw [hpost] at hextend
    exact (congrArg (fun m => extendEntry m file (readTexts h.deletedLines) p)
      (hpost _)).trans hextend

end Lookups

/-! ### Renames -/

theorem PairsOf.of_mem_iff {pairs pairs' : List (Chars × Chars)} {d : ParsedDiff}
    (h : PairsOf pairs d) (heq : ∀ x, x ∈ pairs' ↔ x ∈ pairs) : PairsOf pairs' d where
  preSound := fun p q hpq => (heq _).mpr (h.preSound p q hpq)
  preFound := fun p q hpq => h.preFound p q ((heq _).mp hpq)
  postSound := fun p q hpq => (heq _).mpr (h.postSound p q hpq)
  postFound := fun p q hpq => h.postFound p q ((heq _).mp hpq)

theorem PairsOf.addPair {pairs : List (Chars × Chars)} {d : ParsedDiff} (h : PairsOf pairs d)
    {old new : Chars} (hne : old ≠ new) :
    PairsOf (pairs ++ [(old, new)]) (d.addPair (some old) (some new)) := by
  have hadd : d.addPair (some old) (some new) =
      { d with
        preToPost := Function.update d.preToPost old (some new)
        postToPre := Function.update d.postToPre new (some old) } := if_pos hne
  rw [hadd]
  constructor
  · intro p q hpq
    by_cases hp : p = old
    · subst hp
      simp only [Function.update_self, Option.some.injEq] at hpq
      simp [hpq]
    · simp only [Function.update_of_ne hp] at hpq
      exact List.mem_append_left _ (h.preSound p q hpq)
  · intro p q hpq
    by_cases hp : p = old
    · simp [hp]
    · have hmem : (p, q) ∈ pairs := by simpa [hp] using hpq
      simpa [Function.update_of_ne hp] using h.preFound p q hmem
  · intro p q hpq
    by_cases hq : q = new
    · subst hq
      simp only [Function.update_self, Option.some.injEq] at hpq
      simp [hpq]
    · simp only [Function.update_of_ne hq] at hpq
      exact List.mem_append_left _ (h.postSound p q hpq)
  · intro p q hpq
    by_cases hq : q = new
    · simp [hq]
    · have hmem : (p, q) ∈ pairs := by simpa [hq] using hpq
      simpa [Function.update_of_ne hq] using h.postFound p q hmem

theorem PairsOf.congr {pairs : List (Chars × Chars)} {d d' : ParsedDiff} (h : PairsOf pairs d)
    (hpre : d'.preToPost = d.preToPost) (hpost : d'.postToPre = d.postToPre) :
    PairsOf pairs d' where
  preSound := hpre ▸ h.preSound
  preFound := hpre ▸ h.preFound
  postSound := hpost ▸ h.postSound
  postFound := hpost ▸ h.postFound

theorem PairsOf.addRanges {pairs : List (Chars × Chars)} {d : ParsedDiff} (h : PairsOf pairs d)
    (pre post : Option Chars) (k : Hunk) :
    PairsOf pairs ((d.addPost post k.postRuns).addPre pre k.preRuns (readTexts k.deletedLines)) :=
  h.congr (by cases pre <;> cases post <;> rfl) (by cases pre <;> cases post <;> rfl)

/-- Each hunk of a rename gives its pair again. -/
theorem PairsOf.hunks_of_rename {pairs : List (Chars × Chars)} {old new : Chars}
    (hne : old ≠ new) (hunks : List Hunk) {d : ParsedDiff}
    (h : PairsOf (pairs ++ [(old, new)]) d) :
    PairsOf (pairs ++ [(old, new)]) (hunks.foldl (hunkEffect (some old) (some new)) d) := by
  induction hunks generalizing d with
  | nil => exact h
  | cons k hunks ih =>
    refine ih (((h.addRanges (some old) (some new) k).addPair hne).of_mem_iff fun x => ?_)
    simp

theorem PairsOf.hunks_of_same {pairs : List (Chars × Chars)} {pre post : Option Chars}
    (hsame : ∀ d : ParsedDiff, d.addPair pre post = d) (hunks : List Hunk) {d : ParsedDiff}
    (h : PairsOf pairs d) : PairsOf pairs (hunks.foldl (hunkEffect pre post) d) := by
  induction hunks generalizing d with
  | nil => exact h
  | cons k hunks ih =>
    rw [List.foldl_cons, hunkEffect, hsame]
    exact ih (h.addRanges pre post k)

theorem addPair_of_not_rename {names : ChangedNames} (h : ¬names.isRename = true)
    (d : ParsedDiff) : d.addPair (names.pre.map (·.chars)) (names.post.map (·.chars)) = d := by
  cases names with
  | modified path => exact if_neg fun hne => hne rfl
  | created path => rfl
  | deleted path => rfl
  | renamed old new moved => exact absurd rfl h

theorem PairsOf.change {changes : List FileChange} {d d' : ParsedDiff} {c : FileChange}
    (h : PairsOf (renamedPairs changes) d)
    (hd' : d' = d ∨ c.names.isRename = true ∧
      d' = d.addPair (some c.names.old.chars) (some c.names.new.chars)) :
    PairsOf (renamedPairs (changes ++ [c])) (hunksEffect c d') := by
  have hpairs : renamedPairs (changes ++ [c]) = renamedPairs changes ++
      if c.names.isRename = true then [(c.names.old.chars, c.names.new.chars)] else [] := by
    rw [renamedPairs, List.filterMap_append, ← renamedPairs]
    split_ifs with hrename <;> simp [hrename]
  rw [hpairs]
  by_cases hrename : c.names.isRename = true
  case neg =>
    rw [if_neg hrename, List.append_nil]
    rcases hd' with rfl | ⟨htrue, -⟩
    · exact h.hunks_of_same (addPair_of_not_rename hrename) c.hunks
    · exact absurd htrue hrename
  rw [if_pos hrename]
  cases hnames : c.names with
  | modified path | created path | deleted path => simp [hnames, ChangedNames.isRename] at hrename
  | renamed old new moved =>
    obtain ⟨k, hunks, hhunks⟩ :=
      List.exists_cons_of_ne_nil (c.edited hrename)
    have hfirst : PairsOf (renamedPairs changes ++ [(old.chars, new.chars)])
        (hunkEffect (some old.chars) (some new.chars) d' k) := by
      rcases hd' with rfl | ⟨-, rfl⟩
      · exact (h.addRanges _ _ k).addPair moved
      · rw [hnames]
        refine (((h.addPair moved).addRanges _ _ k).addPair moved).of_mem_iff fun x => ?_
        simp
    rw [hunksEffect, hhunks, hnames]
    exact PairsOf.hunks_of_rename moved hunks hfirst

/-! ### The whole diff -/

theorem ReadSoFar.change {changes : List FileChange} {d d' : ParsedDiff} {c : FileChange}
    (h : ReadSoFar changes d)
    (hd' : d' = d ∨ c.names.isRename = true ∧
      d' = d.addPair (some c.names.old.chars) (some c.names.new.chars)) :
    ReadSoFar (changes ++ [c]) (hunksEffect c d') := by
  have hkept : d'.postRanges = d.postRanges ∧ d'.preRanges = d.preRanges ∧
      d'.deletedLines = d.deletedLines := by
    rcases hd' with rfl | ⟨-, rfl⟩
    · exact ⟨rfl, rfl, rfl⟩
    · exact addPair_ranges _ _ _
  constructor
  · intro p
    rw [gathered_concat, ← h.postRanges, ← hkept.1]
    exact foldl_extend _ _ _ _ (postRanges_hunkEffect _ _) c.hunks d' p
  · intro p
    rw [gathered_concat, ← h.preRanges, ← hkept.2.1]
    exact foldl_extend _ _ _ _ (preRanges_hunkEffect _ _) c.hunks d' p
  · intro p
    rw [gathered_concat, ← h.deletedLines, ← hkept.2.2]
    exact foldl_extend _ _ _ _ (deletedLines_hunkEffect _ _) c.hunks d' p
  · exact h.pairs.change hd'

theorem readSoFar_nil : ReadSoFar [] .empty where
  postRanges := fun _ => rfl
  preRanges := fun _ => rfl
  deletedLines := fun _ => rfl
  pairs := ⟨nofun, nofun, nofun, nofun⟩

theorem foldl_changes (digit : RegexDigit) {changes : List FileChange}
    (h : ∀ c ∈ changes, ReadNames c.names) :
    ∃ d pre post, ReadSoFar changes d ∧
      Between d pre post
        (((changes.flatMap FileChange.lines).map dropReturn).foldl (step digit) .init) := by
  induction changes using List.reverseRecOn with
  | nil => exact ⟨.empty, none, none, readSoFar_nil, ⟨rfl, rfl, rfl, rfl, rfl, rfl, rfl⟩⟩
  | append_singleton changes c ih =>
    obtain ⟨d, pre, post, hread, hs⟩ := ih fun c hc => h c (List.mem_append_left _ hc)
    obtain ⟨d', pre', post', hend, hd'⟩ := foldl_change digit hs
      (h c (List.mem_append_right _ List.mem_cons_self))
    refine ⟨_, pre', post', hread.change hd', ?_⟩
    rw [List.flatMap_append, List.map_append, List.foldl_append, List.flatMap_singleton]
    exact hend

end Sashiko
