import Mathlib.Data.List.Basic
import Sashiko.Diff.Parse

/-! Every deleted line that is read lies in a range of its file, whatever the text of the diff. -/

namespace Sashiko

open DiffState

/-- Some range holds the line. -/
def HeldBy (ranges : List (ℕ × ℕ)) (line : ℕ) : Prop := ∃ r ∈ ranges, r.1 ≤ line ∧ line ≤ r.2

def Covered (d : ParsedDiff) : Prop :=
  ∀ file lines, d.deletedLines file = some lines →
    ∃ ranges, d.preRanges file = some ranges ∧ ∀ p ∈ lines, HeldBy ranges p.1

theorem Covered.of_same {d d' : ParsedDiff} (h : Covered d) (hpre : d'.preRanges = d.preRanges)
    (hdel : d'.deletedLines = d.deletedLines) : Covered d' := by
  intro file lines hlines
  rw [hdel] at hlines
  rw [hpre]
  exact h file lines hlines

theorem Covered.addPost {d : ParsedDiff} (h : Covered d) (post : Option Chars)
    (ranges : List (ℕ × ℕ)) : Covered (d.addPost post ranges) := by
  cases post <;> exact h.of_same rfl rfl

theorem Covered.addPair {d : ParsedDiff} (h : Covered d) (pre post : Option Chars) :
    Covered (d.addPair pre post) := by
  cases pre with
  | none => exact h
  | some old =>
    cases post with
    | none => exact h
    | some new =>
      unfold ParsedDiff.addPair
      dsimp only
      split_ifs
      · exact h
      · exact h.of_same rfl rfl

theorem Covered.addPre {d : ParsedDiff} (h : Covered d) (pre : Option Chars)
    {ranges : List (ℕ × ℕ)} {lines : List (ℕ × Chars)} (hheld : ∀ p ∈ lines, HeldBy ranges p.1) :
    Covered (d.addPre pre ranges lines) := by
  cases pre with
  | none => exact h
  | some old =>
    intro file all hall
    simp only [ParsedDiff.addPre, extendEntry] at hall ⊢
    by_cases hfile : file = old
    · subst hfile
      rw [Function.update_self] at hall ⊢
      obtain rfl := Option.some.inj hall
      refine ⟨_, rfl, fun p hp => ?_⟩
      rcases List.mem_append.mp hp with hp | hp
      · cases hknown : d.deletedLines file with
        | none => simp [hknown] at hp
        | some known =>
          obtain ⟨before, hbefore, hcovered⟩ := h file known hknown
          obtain ⟨r, hr, hheldp⟩ := hcovered p (by simpa [hknown] using hp)
          rw [hbefore]
          exact ⟨r, List.mem_append_left _ hr, hheldp⟩
      · obtain ⟨r, hr, hheldp⟩ := hheld p hp
        exact ⟨r, List.mem_append_right _ hr, hheldp⟩
    · rw [Function.update_of_ne hfile] at hall ⊢
      exact h file all hall

/-! ### Between two lines -/

/-- Deleted lines are only held back inside a hunk, and lie in the ranges held back with them. -/
structure HeldBack (s : DiffState) : Prop where
  parsed : Covered s.parsed
  preLine : s.currentPreLine ≤ usizeMax
  ranges : ∀ r ∈ s.hunkDeletedRanges, r.1 ≤ r.2 ∧ r.2 ≤ usizeMax
  lines : ∀ p ∈ s.hunkDeletedLines, HeldBy s.hunkDeletedRanges p.1
  inside : s.hunkDeletedLines ≠ [] → s.inHunk = true ∧ s.hunkHasBody = true

/-- Nothing is held back. -/
structure NothingHeld (s : DiffState) : Prop where
  parsed : Covered s.parsed
  preLine : s.currentPreLine ≤ usizeMax
  ranges : ∀ r ∈ s.hunkDeletedRanges, r.1 ≤ r.2 ∧ r.2 ≤ usizeMax
  lines : s.hunkDeletedLines = []

theorem NothingHeld.heldBack {s : DiffState} (h : NothingHeld s) : HeldBack s where
  parsed := h.parsed
  preLine := h.preLine
  ranges := h.ranges
  lines := fun p hp => by rw [h.lines] at hp; cases hp
  inside := fun hne => absurd h.lines hne

theorem nothingHeld_flushHunk {s : DiffState} (h : HeldBack s) : NothingHeld s.flushHunk := by
  unfold flushHunk
  by_cases hin : s.inHunk = true
  · rw [if_pos hin]
    refine ⟨?_, h.preLine, nofun, rfl⟩
    refine ((h.parsed.addPost _ _).addPre _ fun p hp => ?_).addPair _ _
    -- the ranges of a hunk that has deleted lines are those of its body
    have hbody := (h.inside (List.ne_nil_of_mem hp)).2
    rw [hunkRanges, hbody, Bool.not_true, Bool.false_and, if_neg Bool.false_ne_true]
    exact h.lines p hp
  · rw [if_neg hin]
    refine ⟨h.parsed, h.preLine, h.ranges, ?_⟩
    by_contra hne
    exact hin (h.inside hne).1

theorem NothingHeld.readDiffGit {s : DiffState} (h : NothingHeld s) (line : Chars) :
    NothingHeld (s.readDiffGit line) :=
  { h with parsed := h.parsed.addPair _ _ }

theorem NothingHeld.readHeader {s : DiffState} (h : NothingHeld s) (line : Chars) :
    NothingHeld (s.readHeader line) := by
  unfold DiffState.readHeader
  split_ifs
  · exact h.readDiffGit line
  · exact { h with }
  · exact { h with }
  · exact h

theorem captured_le (ds : Option Chars) : captured ds ≤ usizeMax := by
  have hone : 1 ≤ usizeMax := by decide
  cases ds with
  | none => exact hone
  | some ds =>
    unfold captured parseUsize
    rw [Option.bind_some]
    split_ifs with h
    · exact h.2
    · exact hone

theorem preStart_le {digit : RegexDigit} {line : Chars} {h : ChunkHeader}
    (hchunk : chunkCaptures digit line = some h) : h.preStart ≤ usizeMax := by
  induction line with
  | nil => cases hchunk
  | cons c cs ih =>
    rw [chunkCaptures, Option.or_eq_some_iff] at hchunk
    rcases hchunk with hchunk | ⟨-, hchunk⟩
    · simp only [chunkAt, Option.bind_eq_some_iff, Option.map_eq_some_iff] at hchunk
      obtain ⟨_, -, _, -, _, -, _, -, _, -, rfl⟩ := hchunk
      exact captured_le _
    · exact ih hchunk

theorem NothingHeld.openHunk {digit : RegexDigit} {line : Chars} {s : DiffState} {h : ChunkHeader}
    (hs : NothingHeld s) (hchunk : chunkCaptures digit line = some h) : NothingHeld (s.openHunk h) :=
  { hs with preLine := preStart_le hchunk }

/-! ### Inside a hunk -/

theorem heldBy_pushRange {ranges : List (ℕ × ℕ)} {line : ℕ} (hline : line ≤ usizeMax)
    (hranges : ∀ r ∈ ranges, r.1 ≤ r.2 ∧ r.2 ≤ usizeMax) :
    (∀ r ∈ pushRange ranges line, r.1 ≤ r.2 ∧ r.2 ≤ usizeMax) ∧
      HeldBy (pushRange ranges line) line ∧
      ∀ i, HeldBy ranges i → HeldBy (pushRange ranges line) i := by
  unfold pushRange
  cases hlast : ranges.getLast? with
  | none =>
    obtain rfl := List.getLast?_eq_none_iff.mp hlast
    refine ⟨fun r hr => ?_, ⟨(line, line), List.mem_cons_self, le_rfl, le_rfl⟩, ?_⟩
    · rw [List.mem_singleton.mp hr]
      exact ⟨le_rfl, hline⟩
    · intro i ⟨r, hr, _⟩
      cases hr
  | some run =>
    obtain ⟨a, b⟩ := run
    obtain ⟨before, rfl⟩ := List.getLast?_eq_some_iff.mp hlast
    have hrun := hranges (a, b) (List.mem_append_right _ List.mem_cons_self)
    have hbefore : ∀ r ∈ before, r.1 ≤ r.2 ∧ r.2 ≤ usizeMax := fun r hr =>
      hranges r (List.mem_append_left _ hr)
    dsimp only at hrun ⊢
    split_ifs with hnext
    · rw [List.dropLast_concat]
      have hle : b ≤ line := by
        unfold usizeAdd satAdd at hnext
        omega
      refine ⟨fun r hr => ?_, ?_, fun i ⟨r, hr, hlo, hhi⟩ => ?_⟩
      · rcases List.mem_append.mp hr with hr | hr
        · exact hbefore r hr
        · rw [List.mem_singleton.mp hr]
          exact ⟨hrun.1.trans hle, hline⟩
      · exact ⟨(a, line), List.mem_append_right _ List.mem_cons_self, hrun.1.trans hle, le_rfl⟩
      · rcases List.mem_append.mp hr with hr | hr
        · exact ⟨r, List.mem_append_left _ hr, hlo, hhi⟩
        · obtain rfl := List.mem_singleton.mp hr
          exact ⟨(a, line), List.mem_append_right _ List.mem_cons_self, hlo, hhi.trans hle⟩
    · refine ⟨fun r hr => ?_, ?_, fun i ⟨r, hr, hri⟩ => ⟨r, List.mem_append_left _ hr, hri⟩⟩
      · rcases List.mem_append.mp hr with hr | hr
        · exact hranges r hr
        · rw [List.mem_singleton.mp hr]
          exact ⟨le_rfl, hline⟩
      · exact ⟨(line, line), List.mem_append_right _ List.mem_cons_self, le_rfl, le_rfl⟩

theorem HeldBack.readDeleted {s : DiffState} (h : HeldBack s) (hin : s.inHunk = true)
    (text : Chars) : HeldBack (s.readDeleted text) := by
  have hline : s.currentPreLine - 1 ≤ usizeMax := (Nat.sub_le _ _).trans h.preLine
  obtain ⟨hranges, hheld, hkept⟩ := heldBy_pushRange hline h.ranges
  refine ⟨h.parsed, Nat.min_le_right _ _, hranges, fun p hp => ?_, fun _ => ⟨hin, rfl⟩⟩
  rcases List.mem_append.mp hp with hp | hp
  · exact hkept _ (h.lines p hp)
  · rw [List.mem_singleton.mp hp]
    exact hheld

theorem HeldBack.endIfDone {s : DiffState} (h : HeldBack s) : HeldBack s.endIfDone := by
  unfold DiffState.endIfDone
  split_ifs
  · have hempty := nothingHeld_flushHunk h
    exact { hempty.heldBack with inside := fun hne => absurd hempty.lines hne }
  · exact h

theorem NothingHeld.setOutside {s : DiffState} (h : NothingHeld s) (body : Bool) :
    NothingHeld { s with inHunk := false, hunkHasBody := body } :=
  { h with }

theorem HeldBack.stepInHunk {digit : RegexDigit} {s : DiffState} (h : HeldBack s)
    (hin : s.inHunk = true) (line : Chars) : HeldBack (s.stepInHunk digit line) := by
  have hempty := nothingHeld_flushHunk h
  have hleft : NothingHeld s.leaveHunk := hempty.setOutside false
  unfold DiffState.stepInHunk
  by_cases hat : ['@', '@'].isPrefixOf line = true
  · rw [if_pos hat]
    cases hchunk : chunkCaptures digit line with
    | none => exact (hempty.setOutside s.flushHunk.hunkHasBody).heldBack
    | some chunk => exact (hempty.openHunk hchunk).heldBack
  rw [if_neg hat]
  by_cases hgit : diffGit.isPrefixOf line = true
  · rw [if_pos hgit]
    exact ((hempty.readDiffGit line).setOutside false).heldBack
  rw [if_neg hgit]
  split_ifs
  · exact NothingHeld.heldBack { hleft with }
  · exact NothingHeld.heldBack { hleft with }
  · split
    · exact HeldBack.endIfDone { h with inside := fun hne => ⟨hin, rfl⟩ }
    · exact HeldBack.endIfDone
        { h with preLine := Nat.min_le_right _ _, inside := fun hne => ⟨hin, rfl⟩ }
    · exact HeldBack.endIfDone
        { h with preLine := Nat.min_le_right _ _, inside := fun hne => ⟨hin, rfl⟩ }
    · exact (h.readDeleted hin _).endIfDone
    · exact h
    · exact (hleft.readHeader _).heldBack

theorem HeldBack.step {digit : RegexDigit} {s : DiffState} (h : HeldBack s) (line : Chars) :
    HeldBack (s.step digit line) := by
  unfold DiffState.step
  by_cases hin : s.inHunk = true
  · rw [if_pos hin]
    exact h.stepInHunk hin line
  rw [if_neg hin]
  have hempty : NothingHeld s := by
    refine ⟨h.parsed, h.preLine, h.ranges, ?_⟩
    by_contra hne
    exact hin (h.inside hne).1
  unfold stepOutside
  split_ifs
  · exact (hempty.readHeader line).heldBack
  · cases hchunk : chunkCaptures digit line with
    | none => exact h
    | some chunk => exact (hempty.openHunk hchunk).heldBack
  · exact h

theorem covered_parseTwoSidedDiff (digit : RegexDigit) (diff : String) :
    Covered (parseTwoSidedDiff digit diff) := by
  have hrun : ∀ (lines : List Chars) (s : DiffState), HeldBack s →
      HeldBack (lines.foldl (DiffState.step digit) s) := by
    intro lines
    induction lines with
    | nil => exact fun s h => h
    | cons line lines ih => exact fun s h => ih _ (h.step line)
  have hinit : HeldBack .init := ⟨nofun, Nat.zero_le _, nofun, nofun, fun hne => absurd rfl hne⟩
  exact (nothingHeld_flushHunk (hrun _ _ hinit)).parsed

end Sashiko
