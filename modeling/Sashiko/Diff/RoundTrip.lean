import Sashiko.Diff.Decode

/-! `parse_two_sided_diff` undoes git's rendering of a list of changes. -/

namespace Sashiko

open DiffState

/-! ### No line of the text is broken -/

theorem newline_not_mem_rangeText (start count : ℕ) : '\n' ∉ rangeText start count := by
  have hdigits : ∀ n : ℕ, '\n' ∉ Nat.toDigits 10 n := fun n hmem =>
    absurd (Nat.isDigit_of_mem_toDigits (by decide) (by decide) hmem) (by decide)
  unfold rangeText
  split_ifs <;> simp [hdigits]

theorem newline_not_mem_hunk {h : Hunk} {line : Chars} (hmem : line ∈ h.lines) :
    '\n' ∉ line := by
  rcases List.mem_cons.mp hmem with rfl | hmem
  · simp [Hunk.headerText, newline_not_mem_rangeText, h.heading_clean]
  · obtain ⟨body, -, hline⟩ := List.mem_flatMap.mp hmem
    have hmarker : '\n' ∉ noNewlineMarker := by decide
    rcases List.mem_cons.mp hline with rfl | hline
    · have hmark : '\n' ≠ body.kind.mark := by cases body.kind <;> decide
      simp [hmark, body.clean]
    · split_ifs at hline
      · rwa [List.mem_singleton.mp hline]
      · cases hline

theorem newline_not_mem_extended {extended : List ExtendedHeader} {line : Chars}
    (hmem : line ∈ extended.map fun e => e.keyword ++ e.rest) : '\n' ∉ line := by
  obtain ⟨e, -, rfl⟩ := List.mem_map.mp hmem
  have hkeywords : ∀ keyword ∈ extendedKeywords, '\n' ∉ keyword := by decide
  exact fun hline => (List.mem_append.mp hline).elim (hkeywords _ e.known) e.clean

theorem newline_not_mem_signature {signature : Option MailSignature} {line : Chars}
    (hmem : line ∈ (signature.map MailSignature.lines).getD []) : '\n' ∉ line := by
  cases signature with
  | none => cases hmem
  | some signature =>
    rcases List.mem_cons.mp hmem with rfl | hmem
    · decide
    · exact signature.clean line hmem

theorem newline_not_mem_change {c : FileChange} {line : Chars} (hmem : line ∈ c.lines) :
    '\n' ∉ line := by
  rcases List.mem_cons.mp hmem with rfl | hmem
  · exact control_not_mem_gitLine c (by decide)
  rcases List.mem_append.mp hmem with hmem | hmem
  · exact newline_not_mem_extended hmem
  · unfold FileChange.editLines at hmem
    split_ifs at hmem
    · cases hmem
    · rcases List.mem_cons.mp hmem with rfl | hmem
      · exact control_not_mem_fileLine (by decide) (by decide) _ (by decide) (by decide)
      rcases List.mem_cons.mp hmem with rfl | hmem
      · exact control_not_mem_fileLine (by decide) (by decide) _ (by decide) (by decide)
      obtain ⟨h, -, hline⟩ := List.mem_flatMap.mp hmem
      exact newline_not_mem_hunk hline

theorem newline_not_mem_diffLines {changes : List FileChange} {signature : Option MailSignature}
    {line : Chars} (hmem : line ∈ diffLines changes signature) : '\n' ∉ line := by
  rcases List.mem_append.mp hmem with hmem | hmem
  · obtain ⟨c, -, hline⟩ := List.mem_flatMap.mp hmem
    exact newline_not_mem_change hline
  · exact newline_not_mem_signature hmem

/-! ### Behind the last change -/

theorem isPrefixOf_dropReturn {pre text : Chars} (h : ¬pre <+: text) :
    pre.isPrefixOf (dropReturn text) = false := by
  have hdrop : dropReturn text <+: text := by
    unfold dropReturn
    split_ifs
    · exact List.dropLast_prefix text
    · exact List.prefix_refl text
  rw [← Bool.not_eq_true, List.isPrefixOf_iff_prefix]
  exact fun hpre => h (hpre.trans hdrop)

/-- Outside a hunk only a `diff --git` line or a hunk header tells of a change. -/
theorem foldl_untold (digit : RegexDigit) {lines : List Chars}
    (h : ∀ line ∈ lines, diffGit.isPrefixOf line = false ∧ ['@', '@'].isPrefixOf line = false)
    {s : DiffState} (hs : s.inHunk = false) :
    (lines.foldl (step digit) s).inHunk = false ∧
      (lines.foldl (step digit) s).parsed = s.parsed := by
  induction lines generalizing s with
  | nil => exact ⟨hs, rfl⟩
  | cons line lines ih =>
    obtain ⟨hgit, hat⟩ := h line List.mem_cons_self
    have hstep : (s.step digit line).inHunk = false ∧ (s.step digit line).parsed = s.parsed := by
      rw [step, hs, if_neg Bool.false_ne_true, stepOutside, readHeader, hgit, hat]
      split_ifs <;> first | exact ⟨hs, rfl⟩ | contradiction
    obtain ⟨hend, hparsed⟩ := ih (fun l hl => h l (List.mem_cons_of_mem _ hl)) hstep.1
    exact ⟨hend, hparsed.trans hstep.2⟩

/-- No line of a signature looks like one that tells of a change. -/
theorem untold_signature {signature : Option MailSignature} {line : Chars}
    (h : line ∈ ((signature.map MailSignature.lines).getD []).map dropReturn) :
    diffGit.isPrefixOf line = false ∧ ['@', '@'].isPrefixOf line = false := by
  cases signature with
  | none => exact absurd h List.not_mem_nil
  | some signature =>
    obtain ⟨text, htext, rfl⟩ := List.mem_map.mp h
    rcases List.mem_cons.mp htext with rfl | htext
    · decide
    · obtain ⟨hgit, hat⟩ := signature.quiet text htext
      exact ⟨isPrefixOf_dropReturn hgit, isPrefixOf_dropReturn hat⟩

theorem parse_renderDiff (digit : RegexDigit) (changes : List FileChange)
    (signature : Option MailSignature) (h : ∀ c ∈ changes, ReadNames c.names) :
    ReadSoFar changes (parseTwoSidedDiff digit (renderDiff changes signature)) := by
  obtain ⟨d, pre, post, hread, hs⟩ := foldl_changes digit h
  have hlines : linesOf (renderDiff changes signature).toList =
      (diffLines changes signature).map dropReturn := by
    rw [renderDiff, String.toList_ofList]
    exact linesOf_lines _ fun line => newline_not_mem_diffLines
  obtain ⟨hend, hparsed⟩ := foldl_untold digit (fun line => untold_signature) hs.outside
  have hparse : parseTwoSidedDiff digit (renderDiff changes signature) = d := by
    rw [parseTwoSidedDiff, hlines, diffLines, List.map_append, List.foldl_append, flushHunk,
      if_neg (by rw [hend]; decide), hparsed, hs.parsed]
  rw [hparse]
  exact hread

/-- The diff of any changes is read as these changes: every file with its own lines, and no other,
and the pairs that were renamed. -/
theorem parseTwoSidedDiff_renderDiff (digit : RegexDigit) (changes : List FileChange)
    (signature : Option MailSignature) (h : ∀ c ∈ changes, ReadNames c.names) :
    Decoded changes (parseTwoSidedDiff digit (renderDiff changes signature)) := by
  have hread := parse_renderDiff digit changes signature h
  refine ⟨hread.postRanges, hread.preRanges, hread.deletedLines, ?_, ?_⟩
  · intro hnodup p q
    refine ⟨hread.pairs.preSound p q, fun hmem => ?_⟩
    obtain ⟨q', hq'⟩ := Option.isSome_iff_exists.mp (hread.pairs.preFound p q hmem)
    have hsame := List.inj_on_of_nodup_map hnodup (hread.pairs.preSound p q' hq') hmem rfl
    rw [hq', (Prod.mk.inj hsame).2]
  · intro hnodup p q
    refine ⟨hread.pairs.postSound p q, fun hmem => ?_⟩
    obtain ⟨p', hp'⟩ := Option.isSome_iff_exists.mp (hread.pairs.postFound p q hmem)
    have hsame := List.inj_on_of_nodup_map hnodup (hread.pairs.postSound p' q hp') hmem rfl
    rw [hp', (Prod.mk.inj hsame).1]

section Samples

theorem isDigit_ascii (c : Char) (_ : c.toNat < 128) : c.isDigit = c.isDigit := rfl

def asciiDigit : RegexDigit := ⟨Char.isDigit, isDigit_ascii⟩

/-- A deleted line that looks like a header, and the line put in its place, without a newline. -/
def sampleHunk : Hunk where
  preIndex := 4
  postIndex := 4
  heading := " fn main".toList
  body := [⟨.context, "x".toList, false, by decide⟩, ⟨.deleted, "-- a/y".toList, false, by decide⟩,
    ⟨.added, "y".toList, true, by decide⟩]
  heading_clean := by decide
  body_ne_nil := by decide
  pre_fits := by decide
  post_fits := by decide

def sampleRename : FileChange where
  names := .renamed ⟨['f', ' ', 'f'], by decide, by decide⟩
    ⟨['g'], by decide, by decide⟩ (by decide)
  extended := [⟨"rename from ".toList, ['f', ' ', 'f'], by decide, by decide⟩,
    ⟨"rename to ".toList, ['g'], by decide, by decide⟩]
  hunks := [sampleHunk]
  edited := fun _ => by decide

def sampleSignature : MailSignature where
  texts := ["2.43.0".toList, []]
  clean := by decide
  quiet := by decide

/-- One deleted line, of a file named so. -/
def deletion (name text : Chars) (hname : name ≠ [] ∧ IsUnquoted name) (htext : '\n' ∉ text) :
    FileChange where
  names := .modified ⟨name, hname.1, hname.2⟩
  extended := []
  hunks := [{
    preIndex := 0
    postIndex := 0
    heading := []
    body := [⟨.deleted, text, false, htext⟩]
    heading_clean := newline_not_mem_nil
    body_ne_nil := List.cons_ne_nil _ _
    pre_fits := by simp [preCount, usizeMax]
    post_fits := by simp [postCount, usizeMax] }]
  edited := nofun

def returnEnded : FileChange :=
  deletion ['f'] ['x', '\r'] ⟨by decide, by decide⟩ (by decide)

def blankEnded : FileChange :=
  deletion ['f', ' '] ['x'] ⟨by decide, by decide⟩ newline_not_mem_x

theorem parseTwoSidedDiff_samples : Decoded [sampleRename, returnEnded]
    (parseTwoSidedDiff asciiDigit
      (renderDiff [sampleRename, returnEnded] (some sampleSignature))) := by
  refine parseTwoSidedDiff_renderDiff _ _ _ fun c hc => ?_
  simp only [List.mem_cons, List.not_mem_nil, or_false] at hc
  rcases hc with rfl | rfl
  · exact ⟨by decide, by decide, fun _ => by unfold ReadTarget; decide⟩
  · exact ⟨by decide, by decide, fun hrenamed => by cases hrenamed⟩

/-- A carriage return is not part of the line read, and a blank that ends a name is lost. -/
theorem deletions_misread :
    ((parseTwoSidedDiff asciiDigit (renderDiff [returnEnded] none)).deletedLines ['f'] =
        some [(0, ['x'])] ∧
      gathered ChangedNames.pre Hunk.deletedLines [returnEnded] ['f'] = some [(0, ['x', '\r'])]) ∧
    (parseTwoSidedDiff asciiDigit (renderDiff [blankEnded] none)).preRanges ['f', ' '] = none ∧
      gathered ChangedNames.pre Hunk.preRuns [blankEnded] ['f', ' '] = some [(0, 0)] := by
  decide

end Samples

end Sashiko
