import Sashiko.Diff.RoundTrip
import Sashiko.Lib.Ranges
import Sashiko.Lib.Lines

/-! `prefetch::parse_diff_ranges`: the hunks of a diff under the file that the last line starting
with `+++ b/` names. A line within a hunk may start so as well. -/

namespace Sashiko

/-- `+++ b/` -/
def postHeader : Chars := ['+', '+', '+', ' ', 'b', '/']

structure PrefetchState where
  files : Chars → Option (List (ℕ × ℕ))
  currentFile : Option Chars

namespace PrefetchState

def init : PrefetchState := ⟨fun _ => none, none⟩

def openFile (s : PrefetchState) (fname : Chars) : PrefetchState :=
  ⟨extendEntry s.files fname [], some fname⟩

/-- The lines of the hunk in the new file, counted from 0. -/
def addHunk (s : PrefetchState) (fname : Chars) (caps : ChunkHeader) : PrefetchState :=
  let start := caps.postStart - 1
  if 0 < caps.postCount then
    { s with files := extendEntry s.files fname [(start, start + (caps.postCount - 1))] }
  else s

def step (digit : RegexDigit) (s : PrefetchState) (line : Chars) : PrefetchState :=
  match stripChars? postHeader line with
  | some fname => s.openFile fname
  | none =>
    if ['+', '+', '+', ' '].isPrefixOf line || diffGit.isPrefixOf line then
      { s with currentFile := none }
    else if ['@', '@'].isPrefixOf line then
      match s.currentFile, chunkCaptures digit line with
      | some fname, some caps => s.addHunk fname caps
      | _, _ => s
    else s

end PrefetchState

def mergeGap : ℕ := 10

/-- The line numbers are those of files, far below `usize::MAX`, so the gap can be added to them. -/
def parseDiffRanges (digit : RegexDigit) (diff : String) : Chars → Option (List (ℕ × ℕ)) :=
  fun file => (((linesOf diff.toList).foldl (PrefetchState.step digit) .init).files file).map
    (mergeRanges mergeGap)

/-! ### What is filed where -/

/-- The file that a line within a hunk is taken to name, or that it is taken to name none. -/
def BodyLine.taken (line : BodyLine) : Option (Option Chars) :=
  if line.kind = .added then
    match stripChars? postHeader ('+' :: dropReturn line.text) with
    | some fname => some (some fname)
    | none =>
      if ['+', '+', '+', ' '].isPrefixOf ('+' :: dropReturn line.text) then some none else none
  else none

namespace Hunk

/-- The file that is current behind the hunk. -/
def fileBehind (file : Option Chars) (h : Hunk) : Option Chars :=
  h.body.foldl (fun file line => line.taken.getD file) file

/-- The lines of the hunk in the new file. -/
def span (h : Hunk) : ℕ × ℕ := (h.postIndex, h.postIndex + (postCount h.body - 1))

end Hunk

/-- Each hunk with the file that is current before it. -/
def filedFrom : Option Chars → List Hunk → List (Option Chars × Hunk)
  | _, [] => []
  | file, h :: hunks => (file, h) :: filedFrom (h.fileBehind file) hunks

namespace FileChange

/-- The name behind `+++ b/`, with the tab that git puts behind a name with a blank. -/
def headerName (c : FileChange) : Option Chars :=
  c.names.post.map fun path => path.chars ++ tabFor path.chars

def filed (c : FileChange) : List (Option Chars × Hunk) := filedFrom c.headerName c.hunks

/-- The names in lines that are taken for headers. -/
def lookalikes (c : FileChange) : List Chars :=
  c.hunks.flatMap fun h => h.body.filterMap fun line => line.taken.join

def namedFiles (c : FileChange) : List Chars :=
  (if c.hunks = [] then [] else c.headerName.toList) ++ c.lookalikes

end FileChange

/-- The hunk under its file, unless it leaves no line in the new file. -/
def filedSpan : Option Chars × Hunk → Option (Chars × (ℕ × ℕ))
  | (some file, h) => if 0 < postCount h.body then some (file, h.span) else none
  | (none, _) => none

def filedSpans (changes : List FileChange) : List (Chars × (ℕ × ℕ)) :=
  changes.flatMap fun c => c.filed.filterMap filedSpan

/-- The spans of the hunks that are filed under the name. -/
def spansOf (file : Chars) (spans : List (Chars × (ℕ × ℕ))) : List (ℕ × ℕ) :=
  (spans.filter (·.1 = file)).map (·.2)

/-! ### Reading -/

/-- What is known behind a part of the diff. -/
structure Filed (file : Option Chars) (names : List Chars) (spans : List (Chars × (ℕ × ℕ)))
    (s : PrefetchState) : Prop where
  current : s.currentFile = file
  known : ∀ f ∈ file, f ∈ names
  opened : ∀ p, (s.files p).isSome ↔ p ∈ names
  ranges : ∀ p, (s.files p).getD [] = spansOf p spans

section Filed

variable {digit : RegexDigit} {file : Option Chars} {names : List Chars}
  {spans : List (Chars × (ℕ × ℕ))} {s : PrefetchState} {line : Chars}

theorem filed_init : Filed none [] [] .init :=
  ⟨rfl, nofun, fun p => by simp [PrefetchState.init], fun p => rfl⟩

theorem spansOf_append (p : Chars) (spans spans' : List (Chars × (ℕ × ℕ))) :
    spansOf p (spans ++ spans') = spansOf p spans ++ spansOf p spans' := by
  rw [spansOf, List.filter_append, List.map_append, spansOf, spansOf]

theorem isSome_extendEntry {α : Type} (m : Chars → Option (List α)) (key p : Chars) (xs : List α) :
    (extendEntry m key xs p).isSome ↔ (m p).isSome ∨ p = key := by
  rw [extendEntry_apply]
  split_ifs with h
  · simp [Option.some_inj.mp h]
  · rw [Option.some_inj] at h
    simp [Ne.symm h]

theorem getD_extendEntry {α : Type} (m : Chars → Option (List α)) (key p : Chars) (xs : List α) :
    (extendEntry m key xs p).getD [] = (m p).getD [] ++ if key = p then xs else [] := by
  rw [extendEntry_apply]
  split_ifs with h hkey hkey
  · rfl
  · exact absurd (Option.some_inj.mp h) hkey
  · exact absurd (congrArg some hkey) h
  · rw [List.append_nil]

theorem Filed.openFile (h : Filed file names spans s) (fname : Chars) :
    Filed (some fname) (names ++ [fname]) spans (s.openFile fname) where
  current := rfl
  known := fun f hf => by simp [Option.mem_some_iff.mp hf]
  opened := fun p => by
    rw [PrefetchState.openFile, isSome_extendEntry, h.opened, List.mem_append, List.mem_singleton]
  ranges := fun p => by
    rw [PrefetchState.openFile, getD_extendEntry, h.ranges, ite_self, List.append_nil]

theorem Filed.close (h : Filed file names spans s) :
    Filed none names spans { s with currentFile := none } :=
  ⟨rfl, nofun, h.opened, h.ranges⟩

theorem Filed.addHunk {fname : Chars} (h : Filed (some fname) names spans s) {k : Hunk} :
    Filed (some fname) names (spans ++ (filedSpan (some fname, k)).toList)
      (s.addHunk fname k.chunk) := by
  have hcount : k.chunk.postCount = postCount k.body := rfl
  unfold PrefetchState.addHunk filedSpan
  dsimp only
  rw [hcount]
  by_cases hpos : 0 < postCount k.body
  · have hstart : k.chunk.postStart - 1 = k.postIndex := by
      change startOf k.postIndex (postCount k.body) - 1 = k.postIndex
      rw [startOf, if_neg hpos.ne', Nat.add_sub_cancel]
    rw [if_pos hpos, if_pos hpos, hstart]
    refine ⟨h.current, h.known, fun p => ?_, fun p => ?_⟩
    · rw [isSome_extendEntry, h.opened]
      exact or_iff_left_of_imp fun hp => hp ▸ h.known fname rfl
    · rw [getD_extendEntry, h.ranges, spansOf_append]
      by_cases hp : fname = p <;> simp [spansOf, hp, Hunk.span]
  · rw [if_neg hpos, if_neg hpos, Option.toList_none, List.append_nil]
    exact h

/-! ### Line by line -/

/-- The line is none of those that prefetch looks at. -/
def PassedOver (line : Chars) : Prop :=
  ['+', '+', '+', ' '].isPrefixOf line = false ∧ diffGit.isPrefixOf line = false ∧
    ['@', '@'].isPrefixOf line = false

theorem stripChars?_postHeader (h : ['+', '+', '+', ' '].isPrefixOf line = false) :
    stripChars? postHeader line = none := by
  rw [stripChars?, if_neg]
  intro hprefix
  have hplus : ['+', '+', '+', ' '] <+: line :=
    List.IsPrefix.trans ⟨['b', '/'], rfl⟩ (List.isPrefixOf_iff_prefix.mp hprefix)
  rw [List.isPrefixOf_iff_prefix.mpr hplus] at h
  cases h

theorem step_passedOver (h : PassedOver line) (s : PrefetchState) :
    s.step digit line = s := by
  obtain ⟨hplus, hgit, hat⟩ := h
  rw [PrefetchState.step, stripChars?_postHeader hplus, hplus, hgit, hat]
  rfl

theorem foldl_passedOver {lines : List Chars} (h : ∀ line ∈ lines, PassedOver line)
    (s : PrefetchState) : lines.foldl (PrefetchState.step digit) s = s := by
  induction lines with
  | nil => rfl
  | cons line lines ih =>
    rw [List.foldl_cons, step_passedOver (h line List.mem_cons_self),
      ih fun l hl => h l (List.mem_cons_of_mem _ hl)]

theorem step_clears (hname : stripChars? postHeader line = none)
    (h : ['+', '+', '+', ' '].isPrefixOf line = true ∨ diffGit.isPrefixOf line = true)
    (s : PrefetchState) : s.step digit line = { s with currentFile := none } := by
  rw [PrefetchState.step, hname]
  exact if_pos (Bool.or_eq_true_iff.mpr h)

theorem passedOver_of_head {c : Char} {cs : Chars} (h : c ∉ ['+', 'd', '@']) :
    PassedOver (c :: cs) := by
  simp only [List.mem_cons, List.not_mem_nil, or_false, not_or] at h
  obtain ⟨hplus, hd, hat⟩ := h
  refine ⟨?_, ?_, ?_⟩
  · rw [List.isPrefixOf, beq_false_of_ne (Ne.symm hplus), Bool.false_and]
  · change ('d' :: "iff --git ".toList).isPrefixOf (c :: cs) = false
    rw [List.isPrefixOf, beq_false_of_ne (Ne.symm hd), Bool.false_and]
  · rw [List.isPrefixOf, beq_false_of_ne (Ne.symm hat), Bool.false_and]

theorem passedOver_extended {extended : List ExtendedHeader}
    (h : line ∈ (extended.map fun e => e.keyword ++ e.rest).map dropReturn) : PassedOver line := by
  have hquiet := quiet_of_mem_extended h
  refine ⟨?_, hquiet.git, hquiet.chunk⟩
  obtain ⟨text, htext, rfl⟩ := List.mem_map.mp h
  obtain ⟨e, -, rfl⟩ := List.mem_map.mp htext
  have hall : ∀ keyword ∈ extendedKeywords, keyword.head?.any (· != '+') = true ∧
      keyword.getLast? ≠ some '\r' := by decide
  obtain ⟨hhead, hlast⟩ := hall _ e.known
  rw [Option.any_eq_true] at hhead
  obtain ⟨c, hc, hplus⟩ := hhead
  obtain ⟨keyword, heq⟩ := List.head?_eq_some_iff.mp hc
  rw [bne_iff_ne] at hplus
  rw [dropReturn_append hlast, heq, List.cons_append, List.isPrefixOf,
    beq_false_of_ne (Ne.symm hplus), Bool.false_and]

/-- A line of a hunk is passed over, unless it is an added one that reads like a header. -/
theorem Filed.bodyLine (h : Filed file names spans s) (line : BodyLine) :
    Filed (line.taken.getD file) (names ++ line.taken.join.toList) spans
      ((line.lines.map dropReturn).foldl (PrefetchState.step digit) s) := by
  have hread : dropReturn (line.kind.mark :: line.text) = line.kind.mark :: dropReturn line.text := by
    have hmark : [line.kind.mark].getLast? ≠ some '\r' := by cases line.kind <;> decide
    exact dropReturn_append hmark
  have hmarker : ∀ s : PrefetchState, ((if line.noNewline then [noNewlineMarker] else []).map
      dropReturn).foldl (PrefetchState.step digit) s = s := fun s => by
    refine foldl_passedOver (fun l hl => ?_) s
    split_ifs at hl
    · rw [List.map_singleton, List.mem_singleton] at hl
      rw [hl]
      exact ⟨rfl, rfl, rfl⟩
    · cases hl
  rw [BodyLine.lines, List.map_cons, List.foldl_cons, hread, hmarker]
  have hplain : line.taken = none → PassedOver (line.kind.mark :: dropReturn line.text) →
      Filed (line.taken.getD file) (names ++ line.taken.join.toList) spans
        (s.step digit (line.kind.mark :: dropReturn line.text)) := fun hnone hpassed => by
    rw [step_passedOver hpassed, hnone]
    simpa using h
  by_cases hadded : line.kind = .added
  case neg =>
    refine hplain (if_neg hadded) (passedOver_of_head ?_)
    revert hadded
    cases line.kind <;> decide
  rw [hadded] at hplain ⊢
  have htaken : line.taken = match stripChars? postHeader ('+' :: dropReturn line.text) with
    | some fname => some (some fname)
    | none =>
      if ['+', '+', '+', ' '].isPrefixOf ('+' :: dropReturn line.text) then some none else none :=
    if_pos hadded
  cases hname : stripChars? postHeader ('+' :: dropReturn line.text) with
  | some fname =>
    rw [hname] at htaken
    have hstep : s.step digit ('+' :: dropReturn line.text) = s.openFile fname := by
      rw [PrefetchState.step, hname]
    rw [htaken, LineKind.mark, hstep]
    exact h.openFile fname
  | none =>
    rw [hname] at htaken
    dsimp only at htaken
    by_cases hplus : ['+', '+', '+', ' '].isPrefixOf ('+' :: dropReturn line.text) = true
    · rw [if_pos hplus] at htaken
      rw [htaken, LineKind.mark, step_clears hname (.inl hplus)]
      simpa using h.close
    · rw [if_neg hplus] at htaken
      exact hplain htaken ⟨Bool.eq_false_iff.mpr hplus, rfl, rfl⟩

theorem Filed.hunkHeader (h : Filed file names spans s) (k : Hunk) :
    Filed file names (spans ++ (filedSpan (file, k)).toList)
      (s.step digit (k.headerText ++ dropReturn k.heading)) := by
  have hat : ['@', '@'].isPrefixOf (k.headerText ++ dropReturn k.heading) = true := rfl
  have hstep : s.step digit (k.headerText ++ dropReturn k.heading) =
      match s.currentFile, some k.chunk with
      | some fname, some caps => s.addHunk fname caps
      | _, _ => s := by
    rw [PrefetchState.step, stripChars?_postHeader rfl, ← chunkCaptures_headerText k, hat]
    rfl
  rw [hstep, h.current]
  cases file with
  | none => simpa [filedSpan] using h
  | some fname => exact h.addHunk

theorem Filed.bodyLines (h : Filed file names spans s) (body : List BodyLine) :
    Filed (body.foldl (fun file line => line.taken.getD file) file)
      (names ++ body.filterMap fun line => line.taken.join) spans
      (((body.flatMap BodyLine.lines).map dropReturn).foldl (PrefetchState.step digit) s) := by
  induction body generalizing file names s with
  | nil => simpa using h
  | cons line body ih =>
    rw [List.flatMap_cons, List.map_append, List.foldl_append, List.foldl_cons]
    have hnames : names ++ (line :: body).filterMap (fun line => line.taken.join) =
        names ++ line.taken.join.toList ++ body.filterMap fun line => line.taken.join := by
      cases hjoin : line.taken.join <;> simp [hjoin]
    rw [hnames]
    exact ih (h.bodyLine line)

theorem Filed.hunk (h : Filed file names spans s) (k : Hunk) :
    Filed (k.fileBehind file) (names ++ k.body.filterMap fun line => line.taken.join)
      (spans ++ (filedSpan (file, k)).toList)
      ((k.lines.map dropReturn).foldl (PrefetchState.step digit) s) := by
  rw [Hunk.lines, List.map_cons, List.foldl_cons, dropReturn_header]
  exact (h.hunkHeader k).bodyLines k.body

theorem Filed.hunks (h : Filed file names spans s) (hunks : List Hunk) :
    ∃ file', Filed file'
      (names ++ hunks.flatMap fun k => k.body.filterMap fun line => line.taken.join)
      (spans ++ (filedFrom file hunks).filterMap filedSpan)
      (((hunks.flatMap Hunk.lines).map dropReturn).foldl (PrefetchState.step digit) s) := by
  induction hunks generalizing file names spans s with
  | nil => exact ⟨file, by simpa [filedFrom] using h⟩
  | cons k hunks ih =>
    obtain ⟨file', hrest⟩ := ih (h.hunk k)
    refine ⟨file', ?_⟩
    have hspans : spans ++ (filedFrom file (k :: hunks)).filterMap filedSpan =
        spans ++ (filedSpan (file, k)).toList ++
          (filedFrom (k.fileBehind file) hunks).filterMap filedSpan := by
      rw [filedFrom]
      cases hspan : filedSpan (file, k) <;> simp [hspan]
    rw [hspans, List.flatMap_cons, List.flatMap_cons, List.map_append, List.foldl_append,
      ← List.append_assoc]
    exact hrest

theorem Filed.change (h : Filed file names spans s) (c : FileChange) :
    ∃ file', Filed file' (names ++ c.namedFiles) (spans ++ c.filed.filterMap filedSpan)
      ((c.lines.map dropReturn).foldl (PrefetchState.step digit) s) := by
  have hgit : s.step digit c.gitLine = { s with currentFile := none } :=
    step_clears (stripChars?_postHeader rfl)
      (.inr (List.isPrefixOf_iff_prefix.mpr (List.prefix_append _ _))) s
  rw [FileChange.lines, List.map_cons, List.map_append, List.foldl_cons, List.foldl_append,
    dropReturn_of_not_mem (control_not_mem_gitLine c (by decide)), hgit,
    foldl_passedOver fun line => passedOver_extended]
  unfold FileChange.editLines FileChange.namedFiles FileChange.filed FileChange.lookalikes
  by_cases hempty : c.hunks = []
  · rw [hempty]
    exact ⟨none, by simpa [filedFrom] using h.close⟩
  have hpre : '\r' ∉ fileLine '-' 'a' c.names.pre :=
    control_not_mem_fileLine (by decide) (by decide) _ (by decide) (by decide)
  have hpost : '\r' ∉ fileLine '+' 'b' c.names.post :=
    control_not_mem_fileLine (by decide) (by decide) _ (by decide) (by decide)
  have hpassed : PassedOver (fileLine '-' 'a' c.names.pre) := by
    cases c.names.pre <;> exact passedOver_of_head (by decide)
  have hsome : ¬c.hunks.isEmpty = true := mt List.isEmpty_iff.mp hempty
  rw [if_neg hsome, if_neg hempty, List.map_cons, List.map_cons, List.foldl_cons,
    List.foldl_cons, dropReturn_of_not_mem hpre, dropReturn_of_not_mem hpost,
    step_passedOver hpassed, ← List.append_assoc]
  have hheader : Filed c.headerName (names ++ c.headerName.toList) spans
      (PrefetchState.step digit { s with currentFile := none }
        (fileLine '+' 'b' c.names.post)) := by
    unfold FileChange.headerName
    cases c.names.post with
    | none =>
      rw [step_clears (by decide) (.inl rfl)]
      simpa using h.close
    | some path =>
      have hname : stripChars? postHeader (fileLine '+' 'b' (some path)) =
          some (path.chars ++ tabFor path.chars) := stripChars?_append postHeader _
      rw [PrefetchState.step, hname]
      exact h.close.openFile _
  exact hheader.hunks c.hunks

theorem filed_changes (digit : RegexDigit) (changes : List FileChange) :
    ∃ file, Filed file (changes.flatMap FileChange.namedFiles) (filedSpans changes)
      (((changes.flatMap FileChange.lines).map dropReturn).foldl (PrefetchState.step digit)
        .init) := by
  induction changes using List.reverseRecOn with
  | nil => exact ⟨none, filed_init⟩
  | append_singleton changes c ih =>
    obtain ⟨file, h⟩ := ih
    obtain ⟨file', hnext⟩ := h.change c
    refine ⟨file', ?_⟩
    rw [List.flatMap_append, List.flatMap_append, List.map_append, List.foldl_append,
      List.flatMap_singleton, List.flatMap_singleton, filedSpans, List.flatMap_append,
      List.flatMap_singleton]
    exact hnext

end Filed

theorem linesOf_renderDiff (changes : List FileChange) :
    linesOf (renderDiff changes none).toList =
      (changes.flatMap FileChange.lines).map dropReturn := by
  rw [renderDiff, String.toList_ofList, linesOf_lines _ fun line => newline_not_mem_diffLines]
  simp [diffLines]

/-- Prefetch knows the files that are named, each with the hunks that are filed under it. -/
theorem parseDiffRanges_renderDiff (digit : RegexDigit) (changes : List FileChange) (p : Chars) :
    parseDiffRanges digit (renderDiff changes none) p =
      if p ∈ changes.flatMap FileChange.namedFiles then
        some (mergeRanges mergeGap (spansOf p (filedSpans changes)))
      else none := by
  obtain ⟨file, h⟩ := filed_changes digit changes
  rw [parseDiffRanges, linesOf_renderDiff, ← h.ranges]
  split_ifs with hp
  · obtain ⟨ranges, hranges⟩ := Option.isSome_iff_exists.mp ((h.opened p).mpr hp)
    rw [hranges, Option.map_some, Option.getD_some]
  · rw [← h.opened p, Option.not_isSome_iff_eq_none] at hp
    rw [hp, Option.map_none]

end Sashiko
