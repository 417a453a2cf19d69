import Sashiko.Diff.Headers

/-! The body of a hunk is read line by line up to its last line, and no further. -/

namespace Sashiko

open DiffState

variable {digit : RegexDigit}

/-! ### Counting -/

theorem preCount_append (xs ys : List BodyLine) :
    preCount (xs ++ ys) = preCount xs + preCount ys :=
  List.countP_append

theorem postCount_append (xs ys : List BodyLine) :
    postCount (xs ++ ys) = postCount xs + postCount ys :=
  List.countP_append

theorem preCount_singleton (line : BodyLine) :
    preCount [line] = if line.kind = .added then 0 else 1 := by
  unfold preCount
  cases h : line.kind <;> simp [h]

theorem postCount_singleton (line : BodyLine) :
    postCount [line] = if line.kind = .deleted then 0 else 1 := by
  unfold postCount
  cases h : line.kind <;> simp [h]

/-- Every line counts on one side at least. -/
theorem count_pos {body : List BodyLine} (h : body ≠ []) : 0 < preCount body + postCount body := by
  obtain ⟨line, rest, rfl⟩ := List.exists_cons_of_ne_nil h
  rw [← List.singleton_append, preCount_append, postCount_append, preCount_singleton,
    postCount_singleton]
  have hone :
      0 < (if line.kind = .added then 0 else 1) + if line.kind = .deleted then 0 else 1 := by
    cases line.kind <;> decide
  omega

theorem deletedFrom_cons (i : ℕ) (line : BodyLine) (rest : List BodyLine) :
    deletedFrom i (line :: rest) =
      (if line.kind = .deleted then [(i, line.text)] else []) ++
        deletedFrom (i + preCount [line]) rest := by
  rw [preCount_singleton, deletedFrom]
  cases line.kind <;> rfl

theorem addedFrom_cons (j : ℕ) (line : BodyLine) (rest : List BodyLine) :
    addedFrom j (line :: rest) =
      (if line.kind = .added then [j] else []) ++ addedFrom (j + postCount [line]) rest := by
  rw [postCount_singleton, addedFrom]
  cases line.kind <;> rfl

theorem deletedFrom_append (i : ℕ) (xs ys : List BodyLine) :
    deletedFrom i (xs ++ ys) = deletedFrom i xs ++ deletedFrom (i + preCount xs) ys := by
  induction xs generalizing i with
  | nil => rfl
  | cons line xs ih =>
    have hcount : preCount (line :: xs) = preCount [line] + preCount xs :=
      preCount_append [line] xs
    rw [List.cons_append, deletedFrom_cons, deletedFrom_cons, ih, hcount, List.append_assoc,
      Nat.add_assoc]

theorem addedFrom_append (j : ℕ) (xs ys : List BodyLine) :
    addedFrom j (xs ++ ys) = addedFrom j xs ++ addedFrom (j + postCount xs) ys := by
  induction xs generalizing j with
  | nil => rfl
  | cons line xs ih =>
    have hcount : postCount (line :: xs) = postCount [line] + postCount xs :=
      postCount_append [line] xs
    rw [List.cons_append, addedFrom_cons, addedFrom_cons, ih, hcount, List.append_assoc,
      Nat.add_assoc]

theorem usizeAdd_one {n : ℕ} (h : n < usizeMax) : usizeAdd n 1 = n + 1 :=
  Nat.min_eq_left h

theorem pushRange_eq_pushRun {line : ℕ} (h : line < usizeMax) (ranges : List (ℕ × ℕ)) :
    pushRange ranges line = pushRun ranges line := by
  unfold pushRange pushRun
  cases ranges.getLast? with
  | none => rfl
  | some run =>
    have hnext : usizeAdd run.2 1 = line ↔ run.2 + 1 = line := by
      unfold usizeAdd satAdd
      omega
    simp only [hnext]

/-! ### Between and inside hunks -/

/-- What is kept of the deleted lines: `str::lines` drops a carriage return at the end. -/
def readTexts (lines : List (ℕ × Chars)) : List (ℕ × Chars) :=
  lines.map fun p => (p.1, dropReturn p.2)

structure Between (d : ParsedDiff) (pre post : Option Chars) (s : DiffState) : Prop where
  outside : s.inHunk = false
  parsed : s.parsed = d
  preFile : s.currentPreFile = pre
  postFile : s.currentPostFile = post
  addedRanges : s.hunkAddedRanges = []
  deletedRanges : s.hunkDeletedRanges = []
  deletedLines : s.hunkDeletedLines = []

/-- Behind the lines `seen` of the hunk. -/
structure Inside (d : ParsedDiff) (pre post : Option Chars) (h : Hunk) (seen : List BodyLine)
    (s : DiffState) : Prop where
  inside : s.inHunk = true
  hasBody : seen ≠ [] → s.hunkHasBody = true
  parsed : s.parsed = d
  preFile : s.currentPreFile = pre
  postFile : s.currentPostFile = post
  preTarget : s.hunkPreTarget = preCount h.body
  postTarget : s.hunkPostTarget = postCount h.body
  preConsumed : s.hunkPreConsumed = preCount seen
  postConsumed : s.hunkPostConsumed = postCount seen
  preLine : s.currentPreLine = startOf h.preIndex (preCount h.body) + preCount seen
  postLine : s.currentPostLine = startOf h.postIndex (postCount h.body) + postCount seen
  addedRanges : s.hunkAddedRanges = maximalRuns (addedFrom h.postIndex seen)
  deletedRanges : s.hunkDeletedRanges = maximalRuns ((deletedFrom h.preIndex seen).map (·.1))
  deletedLines : s.hunkDeletedLines = readTexts (deletedFrom h.preIndex seen)

def hunkEffect (pre post : Option Chars) (d : ParsedDiff) (h : Hunk) : ParsedDiff :=
  ((d.addPost post h.postRuns).addPre pre h.preRuns (readTexts h.deletedLines)).addPair pre post

section Hunks

variable {d : ParsedDiff} {pre post : Option Chars} {s : DiffState} {h : Hunk}

theorem step_headerText (hs : Between d pre post s) (heading : Chars) :
    Inside d pre post h [] (s.step digit (h.headerText ++ heading)) := by
  have hcons : h.headerText ++ heading = '@' :: (h.headerText ++ heading).tail := rfl
  have hheaders : diffGit.isPrefixOf (h.headerText ++ heading) = false ∧
      isDiffPreImageHeader (h.headerText ++ heading) = false ∧
      isDiffPostImageHeader (h.headerText ++ heading) = false := by
    rw [hcons]
    exact ⟨rfl, isDiffHeader_of_head (by decide) _, isDiffHeader_of_head (by decide) _⟩
  have hat : ['@', '@'].isPrefixOf (h.headerText ++ heading) = true := rfl
  have hstep : s.step digit (h.headerText ++ heading) = s.openHunk h.chunk := by
    rw [step, hs.outside, if_neg Bool.false_ne_true, stepOutside, hheaders.1, hheaders.2.1,
      hheaders.2.2, if_neg (by decide), if_pos hat, chunkCaptures_headerText]
  rw [hstep]
  exact { inside := rfl, hasBody := fun hne => absurd rfl hne
          parsed := hs.parsed, preFile := hs.preFile, postFile := hs.postFile
          preTarget := rfl, postTarget := rfl, preConsumed := rfl, postConsumed := rfl
          preLine := rfl, postLine := rfl, addedRanges := hs.addedRanges
          deletedRanges := hs.deletedRanges
          deletedLines := hs.deletedLines }

/-- One line of the body, whatever its own text looks like. -/
def readBody (s : DiffState) (kind : LineKind) (text : Chars) : DiffState :=
  match kind with
  | .context => s.readContext
  | .deleted => s.readDeleted text
  | .added => s.readAdded

theorem step_body {seen rest : List BodyLine} {line : BodyLine}
    (hs : Inside d pre post h seen s) (hbody : h.body = seen ++ line :: rest) (text : Chars) :
    s.step digit (line.kind.mark :: text) = (readBody s line.kind text).endIfDone := by
  have hpre : (decide (s.hunkPreTarget ≤ s.hunkPreConsumed) &&
      isDiffPreImageHeader (line.kind.mark :: text)) = false := by
    rcases hkind : line.kind with _ | _ | _
    · rw [isDiffPreImageHeader, isDiffHeader_of_head (by decide), Bool.and_false]
    -- a deleted line may look like `--- a/x`, but then the old side is not read to its end
    · have hcount : preCount h.body = preCount seen + (preCount [line] + preCount rest) := by
        rw [hbody, preCount_append, ← List.singleton_append (l := rest), preCount_append]
      rw [preCount_singleton, if_neg (by simp [hkind])] at hcount
      have hlt : ¬s.hunkPreTarget ≤ s.hunkPreConsumed := by
        rw [hs.preTarget, hs.preConsumed]
        omega
      rw [decide_eq_false hlt, Bool.false_and]
    · rw [isDiffPreImageHeader, isDiffHeader_of_head (by decide), Bool.and_false]
  have hpost : (decide (s.hunkPostTarget ≤ s.hunkPostConsumed) &&
      isDiffPostImageHeader (line.kind.mark :: text)) = false := by
    rcases hkind : line.kind with _ | _ | _
    · rw [isDiffPostImageHeader, isDiffHeader_of_head (by decide), Bool.and_false]
    · rw [isDiffPostImageHeader, isDiffHeader_of_head (by decide), Bool.and_false]
    · have hcount : postCount h.body = postCount seen + (postCount [line] + postCount rest) := by
        rw [hbody, postCount_append, ← List.singleton_append (l := rest), postCount_append]
      rw [postCount_singleton, if_neg (by simp [hkind])] at hcount
      have hlt : ¬s.hunkPostTarget ≤ s.hunkPostConsumed := by
        rw [hs.postTarget, hs.postConsumed]
        omega
      rw [decide_eq_false hlt, Bool.false_and]
  have hmarks : ['@', '@'].isPrefixOf (line.kind.mark :: text) = false ∧
      diffGit.isPrefixOf (line.kind.mark :: text) = false := by
    cases line.kind <;> exact ⟨rfl, rfl⟩
  rw [step, if_pos hs.inside]
  unfold stepInHunk
  rw [hmarks.1, hmarks.2, hpre, hpost]
  simp only [Bool.false_eq_true, if_false]
  cases line.kind <;> rfl

theorem deletedFrom_concat (i : ℕ) (seen : List BodyLine) (line : BodyLine) :
    deletedFrom i (seen ++ [line]) = deletedFrom i seen ++
      if line.kind = .deleted then [(i + preCount seen, line.text)] else [] := by
  rw [deletedFrom_append, deletedFrom_cons, deletedFrom, List.append_nil]

theorem addedFrom_concat (j : ℕ) (seen : List BodyLine) (line : BodyLine) :
    addedFrom j (seen ++ [line]) = addedFrom j seen ++
      if line.kind = .added then [j + postCount seen] else [] := by
  rw [addedFrom_append, addedFrom_cons, addedFrom, List.append_nil]

/-- A line of the old file moves the old side on, within its bounds. -/
theorem preSide_readBody {seen rest : List BodyLine} {line : BodyLine}
    (hs : Inside d pre post h seen s) (hbody : h.body = seen ++ line :: rest)
    (hkind : line.kind ≠ .added) :
    usizeAdd s.hunkPreConsumed 1 = preCount (seen ++ [line]) ∧
      usizeAdd s.currentPreLine 1 =
        startOf h.preIndex (preCount h.body) + preCount (seen ++ [line]) ∧
      s.currentPreLine - 1 = h.preIndex + preCount seen ∧
      h.preIndex + preCount seen < usizeMax := by
  have hcount : preCount h.body = preCount (seen ++ [line]) + preCount rest := by
    rw [hbody, ← preCount_append, List.append_assoc, List.singleton_append]
  have hseen : preCount (seen ++ [line]) = preCount seen + 1 := by
    rw [preCount_append, preCount_singleton, if_neg hkind]
  have hfits := h.pre_fits
  have hstart : startOf h.preIndex (preCount h.body) = h.preIndex + 1 := if_neg (by omega)
  rw [hs.preConsumed, hs.preLine, hstart, hseen, usizeAdd_one (by omega), usizeAdd_one (by omega)]
  omega

theorem postSide_readBody {seen rest : List BodyLine} {line : BodyLine}
    (hs : Inside d pre post h seen s) (hbody : h.body = seen ++ line :: rest)
    (hkind : line.kind ≠ .deleted) :
    usizeAdd s.hunkPostConsumed 1 = postCount (seen ++ [line]) ∧
      usizeAdd s.currentPostLine 1 =
        startOf h.postIndex (postCount h.body) + postCount (seen ++ [line]) ∧
      s.currentPostLine - 1 = h.postIndex + postCount seen ∧
      h.postIndex + postCount seen < usizeMax := by
  have hcount : postCount h.body = postCount (seen ++ [line]) + postCount rest := by
    rw [hbody, ← postCount_append, List.append_assoc, List.singleton_append]
  have hseen : postCount (seen ++ [line]) = postCount seen + 1 := by
    rw [postCount_append, postCount_singleton, if_neg hkind]
  have hfits := h.post_fits
  have hstart : startOf h.postIndex (postCount h.body) = h.postIndex + 1 := if_neg (by omega)
  rw [hs.postConsumed, hs.postLine, hstart, hseen, usizeAdd_one (by omega),
    usizeAdd_one (by omega)]
  omega

/-- The lines read so far, one line more. -/
theorem inside_readBody {seen rest : List BodyLine} {line : BodyLine}
    (hs : Inside d pre post h seen s) (hbody : h.body = seen ++ line :: rest) :
    Inside d pre post h (seen ++ [line]) (readBody s line.kind (dropReturn line.text)) := by
  have hdeleted := deletedFrom_concat h.preIndex seen line
  have hadded := addedFrom_concat h.postIndex seen line
  rcases hkind : line.kind with _ | _ | _
  case context =>
    obtain ⟨hpreConsumed, hpreLine, -, -⟩ := preSide_readBody hs hbody (by simp [hkind])
    obtain ⟨hpostConsumed, hpostLine, -, -⟩ := postSide_readBody hs hbody (by simp [hkind])
    rw [if_neg (by simp [hkind]), List.append_nil] at hdeleted hadded
    exact { hs with
      hasBody := fun _ => rfl
      preConsumed := hpreConsumed, postConsumed := hpostConsumed
      preLine := hpreLine, postLine := hpostLine
      addedRanges := hadded ▸ hs.addedRanges
      deletedRanges := hdeleted ▸ hs.deletedRanges
      deletedLines := hdeleted ▸ hs.deletedLines }
  case deleted =>
    obtain ⟨hpreConsumed, hpreLine, hplace, hfits⟩ := preSide_readBody hs hbody (by simp [hkind])
    have hpost : postCount (seen ++ [line]) = postCount seen := by
      rw [postCount_append, postCount_singleton, if_pos hkind, Nat.add_zero]
    rw [if_neg (by simp [hkind]), List.append_nil] at hadded
    rw [if_pos hkind] at hdeleted
    exact { hs with
      hasBody := fun _ => rfl
      preConsumed := hpreConsumed, postConsumed := hpost ▸ hs.postConsumed
      preLine := hpreLine, postLine := hpost ▸ hs.postLine
      addedRanges := hadded ▸ hs.addedRanges
      deletedRanges := by
        rw [hdeleted, List.map_append, List.map_singleton, maximalRuns_concat, ← hs.deletedRanges,
          ← hplace]
        exact pushRange_eq_pushRun (hplace ▸ hfits) _
      deletedLines := by
        rw [hdeleted, readTexts, List.map_append, ← readTexts, ← hs.deletedLines,
          List.map_singleton, ← hplace]
        rfl }
  case added =>
    obtain ⟨hpostConsumed, hpostLine, hplace, hfits⟩ := postSide_readBody hs hbody (by simp [hkind])
    have hpre : preCount (seen ++ [line]) = preCount seen := by
      rw [preCount_append, preCount_singleton, if_pos hkind, Nat.add_zero]
    rw [if_neg (by simp [hkind]), List.append_nil] at hdeleted
    rw [if_pos hkind] at hadded
    exact { hs with
      hasBody := fun _ => rfl
      preConsumed := hpre ▸ hs.preConsumed, postConsumed := hpostConsumed
      preLine := hpre ▸ hs.preLine, postLine := hpostLine
      addedRanges := by
        rw [hadded, maximalRuns_concat, ← hs.addedRanges, ← hplace]
        exact pushRange_eq_pushRun (hplace ▸ hfits) _
      deletedRanges := hdeleted ▸ hs.deletedRanges
      deletedLines := hdeleted ▸ hs.deletedLines }

/-- The hunk is done behind its last line and at no line before it. -/
theorem done_iff {seen rest : List BodyLine} (hs : Inside d pre post h seen s)
    (hbody : h.body = seen ++ rest) : s.done = true ↔ rest = [] := by
  have hpre : preCount h.body = preCount seen + preCount rest := by rw [hbody, preCount_append]
  have hpost : postCount h.body = postCount seen + postCount rest := by
    rw [hbody, postCount_append]
  rw [done, Bool.and_eq_true, decide_eq_true_eq, decide_eq_true_eq, hs.preTarget, hs.postTarget,
    hs.preConsumed, hs.postConsumed]
  constructor
  · intro ⟨hpostDone, hpreDone⟩
    by_contra hne
    have hpos := count_pos hne
    omega
  · rintro rfl
    simp only [preCount, postCount, List.countP_nil] at hpre hpost
    unfold preCount postCount
    omega

theorem between_endIfDone (hs : Inside d pre post h h.body s) :
    Between (hunkEffect pre post d h) pre post s.endIfDone := by
  have hdone : s.done = true := (done_iff hs (List.append_nil _).symm).mpr rfl
  have hflushed : s.flushed = hunkEffect pre post d h := by
    rw [flushed, hs.parsed, hs.preFile, hs.postFile, hs.hasBody h.body_ne_nil, hs.addedRanges,
      hs.deletedRanges, hs.deletedLines]
    rfl
  rw [endIfDone, if_pos hdone, flushHunk, if_pos hs.inside]
  exact { outside := rfl, parsed := hflushed, preFile := hs.preFile, postFile := hs.postFile
          addedRanges := rfl, deletedRanges := rfl, deletedLines := rfl }

theorem stepInHunk_noNewlineMarker (s : DiffState) : s.stepInHunk digit noNewlineMarker = s := by
  have hquiet := quiet_noNewlineMarker
  unfold stepInHunk
  rw [hquiet.git, hquiet.pre, hquiet.post, hquiet.chunk]
  simp only [Bool.and_false, Bool.false_eq_true, if_false]
  rfl

theorem step_noNewlineMarker (s : DiffState) : s.step digit noNewlineMarker = s := by
  rw [step, stepInHunk_noNewlineMarker, stepOutside_quiet quiet_noNewlineMarker, ite_self]

theorem dropReturn_mark (kind : LineKind) (text : Chars) :
    dropReturn (kind.mark :: text) = kind.mark :: dropReturn text := by
  have hmark : [kind.mark].getLast? ≠ some '\r' := by cases kind <;> decide
  exact dropReturn_append hmark

/-- A marker of a missing newline changes nothing behind a line, be it the last or not. -/
theorem foldl_bodyLine (line : BodyLine) (s : DiffState) :
    (line.lines.map dropReturn).foldl (step digit) s =
      s.step digit (line.kind.mark :: dropReturn line.text) := by
  have hmarker : dropReturn noNewlineMarker = noNewlineMarker := by decide
  unfold BodyLine.lines
  split_ifs
  · rw [List.map_cons, List.map_singleton, hmarker, dropReturn_mark, List.foldl_cons,
      List.foldl_cons, List.foldl_nil, step_noNewlineMarker]
  · rw [List.map_singleton, dropReturn_mark, List.foldl_cons, List.foldl_nil]

theorem foldl_body {rest : List BodyLine} (hne : rest ≠ []) {seen : List BodyLine}
    (hbody : h.body = seen ++ rest) (hs : Inside d pre post h seen s) :
    Between (hunkEffect pre post d h) pre post
      (((rest.flatMap BodyLine.lines).map dropReturn).foldl (step digit) s) := by
  induction rest generalizing seen s with
  | nil => exact absurd rfl hne
  | cons line rest ih =>
    have hnext := inside_readBody hs hbody
    have hbody' : h.body = (seen ++ [line]) ++ rest := by
      rw [hbody, List.append_assoc, List.singleton_append]
    rw [List.flatMap_cons, List.map_append, List.foldl_append, foldl_bodyLine, step_body hs hbody]
    by_cases hrest : rest = []
    · subst hrest
      rw [List.append_nil] at hbody'
      exact between_endIfDone (hbody' ▸ hnext)
    · have hdone : ¬(readBody s line.kind (dropReturn line.text)).done = true :=
        fun hdone => hrest ((done_iff hnext hbody').mp hdone)
      rw [endIfDone, if_neg hdone]
      exact ih hrest hbody' hnext

/-- A hunk as a whole. -/
theorem dropReturn_header (h : Hunk) :
    dropReturn (h.headerText ++ h.heading) = h.headerText ++ dropReturn h.heading := by
  refine dropReturn_append ?_
  rw [Hunk.headerText, List.getLast?_append_of_ne_nil _ (by simp),
    List.getLast?_append_of_ne_nil _ (by simp), List.getLast?_append_of_ne_nil _ (by simp),
    List.getLast?_append_of_ne_nil _ (by simp)]
  decide

theorem foldl_hunk (hs : Between d pre post s) (h : Hunk) :
    Between (hunkEffect pre post d h) pre post ((h.lines.map dropReturn).foldl (step digit) s) := by
  rw [Hunk.lines, List.map_cons, List.foldl_cons, dropReturn_header]
  exact foldl_body h.body_ne_nil (List.nil_append _).symm (step_headerText hs _)

theorem foldl_hunks (hs : Between d pre post s) (hunks : List Hunk) :
    Between (hunks.foldl (hunkEffect pre post) d) pre post
      (((hunks.flatMap Hunk.lines).map dropReturn).foldl (step digit) s) := by
  induction hunks generalizing d s with
  | nil => exact hs
  | cons h hunks ih =>
    rw [List.flatMap_cons, List.map_append, List.foldl_append, List.foldl_cons]
    exact ih (foldl_hunk hs h)

end Hunks

end Sashiko
