import Sashiko.Diff.Quoting
import Sashiko.Diff.Trees

/-! The line ranges of the old files that `git blame` is asked about, one for each of the first hunks
of a diff. -/

namespace Sashiko

def maxBlameHunks : ℕ := 8

def maxBlameLinesPerHunk : ℕ := 25

structure HunkBlameTarget where
  preFile : Chars
  startLine : ℕ
  endLine : ℕ
  deletedLines : List ℕ
  deriving DecidableEq

/-! ### One hunk -/

structure HunkScan where
  currOld : ℕ
  deletedLines : List ℕ
  insertionAnchors : List ℕ
  lastContextLine : Option ℕ

def HunkScan.step (s : HunkScan) (hline : Chars) : HunkScan :=
  if hline.head? = some '\\' then s
  else if hline.head? = some '-' then
    { s with deletedLines := s.deletedLines ++ [s.currOld], currOld := s.currOld + 1 }
  else if hline.head? = some '+' then
    { s with insertionAnchors := s.insertionAnchors ++ s.lastContextLine.toList ++ [s.currOld] }
  else { s with lastContextLine := some s.currOld, currOld := s.currOld + 1 }

/-- The lines around those deleted, or around the insertions where none is. -/
def HunkScan.range (s : HunkScan) : Option (ℕ × ℕ) :=
  match s.deletedLines.min?, s.deletedLines.max? with
  | some minL, some maxL => some (max (minL - 1) 1, usizeAdd maxL 1)
  | _, _ =>
    match s.insertionAnchors.min?, s.insertionAnchors.max? with
    | some minL, some maxL => some (max (minL - 2) 1, usizeAdd maxL 1)
    | _, _ => none

def buildHunkBlameTarget (preFile : Chars) (oldStart : ℕ) (hunkLines : List Chars) :
    Option HunkBlameTarget :=
  let s := hunkLines.foldl HunkScan.step ⟨oldStart, [], [], none⟩
  s.range.map fun range =>
    let maxOldLine := max (s.currOld - 1) oldStart
    let startLine := min range.1 maxOldLine
    { preFile
      startLine
      endLine := min (min range.2 maxOldLine) (usizeAdd startLine (maxBlameLinesPerHunk - 1))
      deletedLines := s.deletedLines }

/-! ### The diff -/

structure BlameScan where
  modifiedFiles : List Chars
  targets : List HunkBlameTarget
  currentPreFile : Option Chars

def parseDiffGitPrePath (rest : Chars) : Option Chars :=
  (splitAtFirst [' ', 'b', '/'] (trimChars rest)).bind fun p =>
    (some (trimMatches (· = '"') ((stripChars? aSlash p.1).getD p.1))).filter (· ≠ [])

namespace BlameScan

def openFile (s : BlameScan) (rest : Chars) : BlameScan :=
  let pre := parseDiffGitPrePath rest
  { s with
    currentPreFile := pre
    modifiedFiles := s.modifiedFiles ++
      (pre.filter fun f => f ≠ devNull && !s.modifiedFiles.contains f).toList }

def readPreSide (s : BlameScan) (rest : Chars) : BlameScan :=
  if trimChars rest = devNull then { s with currentPreFile := none }
  else match stripChars? aSlash (trimChars rest) with
    | some stripped => { s with currentPreFile := some stripped }
    | none => s

def addHunk (s : BlameScan) (oldStart oldCount : ℕ) (hunkLines : List Chars) : BlameScan :=
  if s.targets.length < maxBlameHunks ∧ 0 < oldStart ∧ 0 < oldCount then
    { s with targets := s.targets ++
        (s.currentPreFile.bind fun preFile =>
          buildHunkBlameTarget preFile oldStart hunkLines).toList }
  else s

end BlameScan

/-- `^@@ -(\d+)(?:,(\d+))? \+(\d+)(?:,(\d+))? @@`, with the start and the count of the old side. -/
def hunkHeaderCaptures (digit : RegexDigit) (line : Chars) : Option (ℕ × ℕ) :=
  (stripChars? ['@', '@', ' ', '-'] line).bind fun cs =>
    (rangeAt digit cs).bind fun pre =>
      (stripChars? [' ', '+'] pre.2).bind fun cs =>
        (rangeAt digit cs).bind fun post =>
          (stripChars? [' ', '@', '@'] post.2).map fun _ =>
            ((parseUsize pre.1.1).getD 0, captured pre.1.2)

/-- The line is behind the hunk. -/
def endsHunk (line : Chars) : Bool :=
  diffGit.isPrefixOf line || ['@', '@', ' '].isPrefixOf line

def scanBlame (digit : RegexDigit) (s : BlameScan) : List Chars → BlameScan
  | [] => s
  | line :: lines =>
    match stripChars? diffGit line with
    | some rest => scanBlame digit (s.openFile rest) lines
    | none =>
      match stripChars? "--- ".toList line with
      | some rest => scanBlame digit (s.readPreSide rest) lines
      | none =>
        match hunkHeaderCaptures digit line with
        | some (oldStart, oldCount) =>
          scanBlame digit (s.addHunk oldStart oldCount (lines.takeWhile (!endsHunk ·)))
            (lines.dropWhile (!endsHunk ·))
        | none => scanBlame digit s lines
termination_by lines => lines.length
decreasing_by
  · simp
  · simp
  · have hle := (List.dropWhile_suffix (l := lines) (!endsHunk ·)).length_le
    simp only [List.length_cons]
    omega
  · simp

def extractDiffBlameTargets (digit : RegexDigit) (diffOnly : String) :
    List Chars × List HunkBlameTarget :=
  let s := scanBlame digit ⟨[], [], none⟩ (linesOf diffOnly.toList)
  (s.modifiedFiles, s.targets)

/-! ### What a hunk asks for -/

namespace Hunk

/-- The numbers of the deleted lines in the old file, counted from 1. -/
def deletedNumbers (h : Hunk) : List ℕ := (deletedFrom (h.preIndex + 1) h.body).map (·.1)

/-- The first deleted line. Where none is, the line in front of the first insertion, or the one
behind it where the hunk starts with the insertion. -/
def blamedLine (h : Hunk) : Option ℕ :=
  match h.deletedNumbers with
  | n :: _ => some n
  | [] =>
    if h.body.any (·.kind = .added) then
      some (h.preIndex + max (h.body.takeWhile (·.kind ≠ .added)).length 1)
    else none

/-- The hunk has lines in the old file, and changes some line. -/
def isBlamed (h : Hunk) : Bool := 0 < preCount h.body && h.body.any (·.kind ≠ .context)

end Hunk

/-- The range is within the old lines of the hunk and around the line to blame. -/
structure SoundRange (h : Hunk) (t : HunkBlameTarget) : Prop where
  deletedLines : ∀ n, n ∈ t.deletedLines ↔ n ∈ h.deletedNumbers
  start_pos : 1 ≤ t.startLine
  start_le : t.startLine ≤ t.endLine
  end_mem : h.preIndex + 1 ≤ t.endLine ∧ t.endLine ≤ h.preIndex + preCount h.body
  span : t.endLine < t.startLine + maxBlameLinesPerHunk
  blamed : ∃ n, h.blamedLine = some n ∧ t.startLine ≤ n ∧ n ≤ t.endLine

/-! ### Reading the body -/

/-- The lines of the old file that insertions are next to. -/
def anchorsFrom : Option ℕ → ℕ → List BodyLine → List ℕ
  | _, _, [] => []
  | last, curr, line :: rest =>
    match line.kind with
    | .context => anchorsFrom (some curr) (curr + 1) rest
    | .deleted => anchorsFrom last (curr + 1) rest
    | .added => last.toList ++ curr :: anchorsFrom last curr rest

theorem preCount_cons (line : BodyLine) (rest : List BodyLine) :
    preCount (line :: rest) = preCount [line] + preCount rest :=
  preCount_append [line] rest

theorem foldl_step_body (body : List BodyLine) (curr : ℕ) (deleted anchors : List ℕ)
    (last : Option ℕ) :
    ∃ last', ((body.flatMap BodyLine.lines).map dropReturn).foldl HunkScan.step
        ⟨curr, deleted, anchors, last⟩ =
      ⟨curr + preCount body, deleted ++ (deletedFrom curr body).map (·.1),
        anchors ++ anchorsFrom last curr body, last'⟩ := by
  induction body generalizing curr deleted anchors last with
  | nil => exact ⟨last, by simp [preCount, deletedFrom, anchorsFrom]⟩
  | cons line body ih =>
    have hmarker : ∀ s : HunkScan, s.step (dropReturn noNewlineMarker) = s := fun s => by
      rw [HunkScan.step, if_pos (by decide)]
    have hline : ∀ s : HunkScan, (line.lines.map dropReturn).foldl HunkScan.step s =
        s.step (line.kind.mark :: dropReturn line.text) := fun s => by
      unfold BodyLine.lines
      split_ifs
      · rw [List.map_cons, List.map_singleton, dropReturn_mark, List.foldl_cons, List.foldl_cons,
          List.foldl_nil, hmarker]
      · rw [List.map_singleton, dropReturn_mark, List.foldl_cons, List.foldl_nil]
    rw [List.flatMap_cons, List.map_append, List.foldl_append, hline, preCount_cons,
      preCount_singleton]
    cases hkind : line.kind with
    | context =>
      obtain ⟨last', hrest⟩ := ih (curr + 1) deleted anchors (some curr)
      refine ⟨last', ?_⟩
      simp only [HunkScan.step, LineKind.mark, List.head?_cons, deletedFrom, anchorsFrom, hkind]
      simpa [Nat.add_assoc] using hrest
    | deleted =>
      obtain ⟨last', hrest⟩ := ih (curr + 1) (deleted ++ [curr]) anchors last
      refine ⟨last', ?_⟩
      simp only [HunkScan.step, LineKind.mark, List.head?_cons, deletedFrom, anchorsFrom, hkind]
      simpa [Nat.add_assoc] using hrest
    | added =>
      obtain ⟨last', hrest⟩ := ih curr deleted (anchors ++ last.toList ++ [curr]) last
      refine ⟨last', ?_⟩
      simp only [HunkScan.step, LineKind.mark, List.head?_cons, deletedFrom, anchorsFrom, hkind]
      simpa [Nat.add_assoc] using hrest

/-! ### Deleted lines -/

theorem mem_deletedFrom {i : ℕ} {body : List BodyLine} {p : ℕ × Chars}
    (h : p ∈ deletedFrom i body) : i ≤ p.1 ∧ p.1 < i + preCount body := by
  induction body generalizing i with
  | nil => cases h
  | cons line body ih =>
    rw [deletedFrom_cons, List.mem_append] at h
    rw [preCount_cons]
    rcases h with h | h
    · split at h
      · next hkind =>
        rw [List.mem_singleton.mp h, preCount_singleton, if_neg (by rw [hkind]; decide)]
        dsimp only
        omega
      · cases h
    · have hrest := ih h
      omega

theorem deletedFrom_sorted (i : ℕ) (body : List BodyLine) :
    ((deletedFrom i body).map (·.1)).Pairwise (· < ·) := by
  induction body generalizing i with
  | nil => exact .nil
  | cons line body ih =>
    rw [deletedFrom_cons, preCount_singleton]
    cases hkind : line.kind with
    | deleted =>
      rw [if_pos rfl, if_neg (by decide), List.singleton_append, List.map_cons,
        List.pairwise_cons]
      refine ⟨fun n hn => ?_, ih _⟩
      obtain ⟨p, hp, rfl⟩ := List.mem_map.mp hn
      have hbound := mem_deletedFrom hp
      dsimp only
      omega
    | context | added =>
      rw [if_neg (by decide), List.nil_append]
      exact ih _

theorem mem_deletedNumbers {h : Hunk} {n : ℕ} (hn : n ∈ h.deletedNumbers) :
    h.preIndex + 1 ≤ n ∧ n ≤ h.preIndex + preCount h.body := by
  obtain ⟨p, hp, rfl⟩ := List.mem_map.mp hn
  have hbound := mem_deletedFrom hp
  omega

/-! ### Insertions -/

theorem mem_anchorsFrom {last : Option ℕ} {curr a : ℕ} {body : List BodyLine}
    (hlast : last.getD curr ≤ curr) (h : a ∈ anchorsFrom last curr body) :
    last.getD curr ≤ a ∧ a ≤ curr + preCount body := by
  induction body generalizing last curr with
  | nil => cases h
  | cons line body ih =>
    rw [preCount_cons, preCount_singleton]
    rw [anchorsFrom] at h
    cases hkind : line.kind with
    | context =>
      rw [hkind] at h
      have hrest := ih (by simp) h
      simp only [Option.getD_some] at hrest
      rw [if_neg (by decide)]
      omega
    | deleted =>
      rw [hkind] at h
      rw [if_neg (by decide)]
      cases last with
      | none =>
        have hrest := ih (by simp) h
        simp only [Option.getD_none] at hrest ⊢
        omega
      | some l =>
        have hrest := ih (by simp only [Option.getD_some] at hlast ⊢; omega) h
        simp only [Option.getD_some] at hrest ⊢
        omega
    | added =>
      rw [hkind] at h
      rw [if_pos rfl]
      rcases List.mem_append.mp h with hmem | hmem
      · rw [Option.mem_toList] at hmem
        rw [Option.mem_def.mp hmem, Option.getD_some] at hlast ⊢
        omega
      · rcases List.mem_cons.mp hmem with rfl | hmem
        · omega
        · have hrest := ih hlast hmem
          omega

theorem anchorsFrom_context {ctx : List BodyLine} (h : ∀ line ∈ ctx, line.kind = .context)
    (hne : ctx ≠ []) (last : Option ℕ) (curr : ℕ) (rest : List BodyLine) :
    anchorsFrom last curr (ctx ++ rest) =
      anchorsFrom (some (curr + (ctx.length - 1))) (curr + ctx.length) rest := by
  induction ctx generalizing last curr with
  | nil => exact absurd rfl hne
  | cons line ctx ih =>
    rw [List.cons_append, anchorsFrom, h line List.mem_cons_self]
    dsimp only
    rcases eq_or_ne ctx [] with rfl | hctx
    · rfl
    · have hpos := List.length_pos_iff.mpr hctx
      have hbefore : curr + 1 + (ctx.length - 1) = curr + (ctx.length + 1 - 1) := by omega
      have hbehind : curr + 1 + ctx.length = curr + (ctx.length + 1) := by omega
      rw [ih (fun l hl => h l (List.mem_cons_of_mem _ hl)) hctx, List.length_cons, hbefore, hbehind]

/-- The first insertion is next to the line to blame, and the others are not before it. -/
theorem anchors_of_insertions {body : List BodyLine} (hdeleted : ∀ l ∈ body, l.kind ≠ .deleted)
    (hadded : body.any (·.kind = .added) = true) (i : ℕ) :
    ∃ more, anchorsFrom none (i + 1) body =
        (i + max (body.takeWhile (·.kind ≠ .added)).length 1) :: more ∧
      ∀ a ∈ more, i + max (body.takeWhile (·.kind ≠ .added)).length 1 ≤ a := by
  have hctx : ∀ l ∈ body.takeWhile (·.kind ≠ .added), l.kind = .context := by
    intro l hl
    have hkind := List.mem_takeWhile_imp hl
    have hkind' := hdeleted l ((List.takeWhile_prefix _).subset hl)
    cases hl' : l.kind <;> simp_all
  obtain ⟨l, rest, hdrop, hl⟩ : ∃ l rest, body.dropWhile (·.kind ≠ .added) = l :: rest ∧
      l.kind = .added := by
    cases hdrop : body.dropWhile (·.kind ≠ .added) with
    | nil =>
      obtain ⟨l, hl, hkind⟩ := List.any_eq_true.mp hadded
      have hnone := List.dropWhile_eq_nil_iff.mp hdrop l hl
      simp_all
    | cons l rest =>
      refine ⟨l, rest, rfl, ?_⟩
      have hhead := List.head?_dropWhile_not (fun l : BodyLine => decide (l.kind ≠ .added)) body
      rw [hdrop] at hhead
      simpa using hhead
  have hsplit : body = body.takeWhile (·.kind ≠ .added) ++ l :: rest := by
    rw [← hdrop, List.takeWhile_append_dropWhile]
  generalize body.takeWhile (·.kind ≠ .added) = ctx at *
  rw [hsplit]
  rcases eq_or_ne ctx [] with rfl | hne
  · refine ⟨anchorsFrom none (i + 1) rest, ?_, fun a ha => (mem_anchorsFrom (Nat.le_refl _) ha).1⟩
    rw [List.nil_append, anchorsFrom, hl]
    rfl
  · have hpos := List.length_pos_iff.mpr hne
    have hline : i + 1 + (ctx.length - 1) = i + max ctx.length 1 := by omega
    have hle : (some (i + max ctx.length 1)).getD (i + 1 + ctx.length) ≤ i + 1 + ctx.length := by
      rw [Option.getD_some]
      omega
    refine ⟨(i + 1 + ctx.length) ::
      anchorsFrom (some (i + max ctx.length 1)) (i + 1 + ctx.length) rest, ?_, fun a ha => ?_⟩
    · rw [anchorsFrom_context hctx hne, anchorsFrom, hl, hline]
      rfl
    · rcases List.mem_cons.mp ha with rfl | ha
      · omega
      · exact (mem_anchorsFrom hle ha).1

/-! ### The target of a hunk -/

theorem deletedFrom_eq_nil_iff {i : ℕ} {body : List BodyLine} :
    deletedFrom i body = [] ↔ ∀ l ∈ body, l.kind ≠ .deleted := by
  induction body generalizing i with
  | nil => simp [deletedFrom]
  | cons line body ih =>
    rw [deletedFrom_cons, List.append_eq_nil_iff, ih, List.forall_mem_cons]
    cases line.kind <;> simp

theorem min?_of_first {n : ℕ} {ns : List ℕ} (h : ∀ m ∈ ns, n ≤ m) : (n :: ns).min? = some n := by
  rw [List.min?_eq_some_iff]
  exact ⟨List.mem_cons_self, List.forall_mem_cons.mpr ⟨Nat.le_refl n, h⟩⟩

theorem exists_max? (n : ℕ) (ns : List ℕ) : ∃ m, (n :: ns).max? = some m ∧ n ≤ m := by
  obtain ⟨m, hmax⟩ : ∃ m, (n :: ns).max? = some m :=
    Option.isSome_iff_exists.mp (by rw [List.isSome_max?_iff]; exact List.cons_ne_nil _ _)
  exact ⟨m, hmax, (List.max?_eq_some_iff.mp hmax).2 n List.mem_cons_self⟩

/-- A range from a line or two in front of the one to blame, cut to the hunk and to the span. -/
theorem soundRange_of_blamedLine {h : Hunk} {n m slack : ℕ} (preFile : Chars)
    (hblamed : h.blamedLine = some n) (hslack : slack ≤ 2) (hlow : h.preIndex + 1 ≤ n)
    (htop : n ≤ h.preIndex + preCount h.body) (hm : n ≤ m) :
    SoundRange h
      { preFile
        startLine := min (max (n - slack) 1)
          (max (h.preIndex + preCount h.body + 1 - 1) (h.preIndex + 1))
        endLine := min (min (usizeAdd m 1)
            (max (h.preIndex + preCount h.body + 1 - 1) (h.preIndex + 1)))
          (usizeAdd (min (max (n - slack) 1)
            (max (h.preIndex + preCount h.body + 1 - 1) (h.preIndex + 1)))
            (maxBlameLinesPerHunk - 1))
        deletedLines := h.deletedNumbers } := by
  have hfits := h.pre_fits
  have hmax : maxBlameLinesPerHunk = 25 := rfl
  refine ⟨fun _ => Iff.rfl, ?_, ?_, ⟨?_, ?_⟩, ?_, ⟨n, hblamed, ?_, ?_⟩⟩ <;>
  · dsimp only [usizeAdd, satAdd]
    generalize usizeMax = u at hfits
    omega

/-- A hunk that changes some line and has old ones has a target with a sound range. -/
theorem build_of_isBlamed {h : Hunk} (hblamed : h.isBlamed = true) (preFile : Chars) :
    ∃ t, buildHunkBlameTarget preFile (h.preIndex + 1)
        ((h.body.flatMap BodyLine.lines).map dropReturn) = some t ∧
      t.preFile = preFile ∧ SoundRange h t := by
  obtain ⟨hcount, hchange⟩ := Bool.and_eq_true_iff.mp hblamed
  have hpos : 0 < preCount h.body := of_decide_eq_true hcount
  obtain ⟨last, hscan⟩ := foldl_step_body h.body (h.preIndex + 1) [] [] none
  have hcurr : h.preIndex + 1 + preCount h.body = h.preIndex + preCount h.body + 1 := by omega
  have hnumbers : (deletedFrom (h.preIndex + 1) h.body).map (·.1) = h.deletedNumbers := rfl
  rw [buildHunkBlameTarget, hscan, List.nil_append, List.nil_append, hcurr, hnumbers]
  cases hdeleted : h.deletedNumbers with
  | cons n ns =>
    have hsorted := deletedFrom_sorted (h.preIndex + 1) h.body
    rw [hnumbers, hdeleted, List.pairwise_cons] at hsorted
    have hmin : (n :: ns).min? = some n := min?_of_first fun m hm => (hsorted.1 m hm).le
    obtain ⟨m, hmax, hm⟩ := exists_max? n ns
    have hmem : n ∈ h.deletedNumbers := hdeleted ▸ List.mem_cons_self
    obtain ⟨hlow, htop⟩ := mem_deletedNumbers hmem
    have hline : h.blamedLine = some n := by
      rw [Hunk.blamedLine, hdeleted]
    refine ⟨_, by simp only [HunkScan.range, hmin, hmax]; rfl, rfl, ?_⟩
    rw [← hdeleted]
    exact soundRange_of_blamedLine preFile hline (by decide) hlow htop hm
  | nil =>
    have hkept : ∀ l ∈ h.body, l.kind ≠ .deleted := by
      rw [← hnumbers, List.map_eq_nil_iff] at hdeleted
      exact deletedFrom_eq_nil_iff.mp hdeleted
    have hadded : h.body.any (·.kind = .added) = true := by
      obtain ⟨l, hl, hkind⟩ := List.any_eq_true.mp hchange
      refine List.any_eq_true.mpr ⟨l, hl, ?_⟩
      have hl' := hkept l hl
      cases hk : l.kind <;> simp_all
    obtain ⟨more, hanchors, hmore⟩ := anchors_of_insertions hkept hadded h.preIndex
    have hlength : (h.body.takeWhile (·.kind ≠ .added)).length ≤ preCount h.body := by
      have hall : (h.body.takeWhile (·.kind ≠ .added)).countP (·.kind ≠ .added) =
          (h.body.takeWhile (·.kind ≠ .added)).length :=
        List.countP_eq_length.mpr fun l hl => by
          have hkind := List.mem_takeWhile_imp hl
          exact hkind
      rw [← hall]
      exact (List.takeWhile_prefix _).sublist.countP_le
    have hline : h.blamedLine =
        some (h.preIndex + max (h.body.takeWhile (·.kind ≠ .added)).length 1) := by
      rw [Hunk.blamedLine, hdeleted]
      exact if_pos hadded
    generalize (h.body.takeWhile (·.kind ≠ .added)).length = k at *
    have hmin := min?_of_first hmore
    obtain ⟨m, hmax, hm⟩ := exists_max? (h.preIndex + max k 1) more
    refine ⟨_, by simp only [HunkScan.range, List.min?_nil, hanchors, hmin, hmax]; rfl, rfl, ?_⟩
    rw [← hdeleted]
    exact soundRange_of_blamedLine preFile hline (Nat.le_refl 2) (by omega) (by omega) hm

/-- A hunk that only shows lines has no target. -/
theorem build_of_unchanged {h : Hunk} (hchange : h.body.any (·.kind ≠ .context) = false)
    (preFile : Chars) (oldStart : ℕ) :
    buildHunkBlameTarget preFile oldStart ((h.body.flatMap BodyLine.lines).map dropReturn) = none := by
  have hcontext : ∀ l ∈ h.body, l.kind = .context := fun l hl => by
    have hl' := List.any_eq_false.mp hchange l hl
    simpa using hl'
  obtain ⟨last, hscan⟩ := foldl_step_body h.body oldStart [] [] none
  have hdeleted : deletedFrom oldStart h.body = [] :=
    deletedFrom_eq_nil_iff.mpr fun l hl => by rw [hcontext l hl]; decide
  have hanchors : anchorsFrom none oldStart h.body = [] := by
    have hall := anchorsFrom_context hcontext h.body_ne_nil none oldStart []
    rw [List.append_nil] at hall
    rw [hall, anchorsFrom]
  rw [buildHunkBlameTarget, hscan, hdeleted, hanchors]
  rfl

/-! ### Reading the lines of the diff -/

section Scan

variable {digit : RegexDigit} {s : BlameScan}

theorem hunkHeaderCaptures_headerText (h : Hunk) (rest : Chars) :
    hunkHeaderCaptures digit (h.headerText ++ rest) =
      some (startOf h.preIndex (preCount h.body), preCount h.body) := by
  obtain ⟨a', b', hpost, -, -⟩ := rangeAt_rangeText digit (startOf_le h.post_fits).1
    (startOf_le h.post_fits).2 ('@' :: '@' :: rest)
  obtain ⟨a, b, hpre, ha, hb⟩ := rangeAt_rangeText digit (startOf_le h.pre_fits).1
    (startOf_le h.pre_fits).2 ('+' :: (rangeText (startOf h.postIndex (postCount h.body))
      (postCount h.body) ++ ' ' :: '@' :: '@' :: rest))
  have htext : h.headerText ++ rest = ['@', '@', ' ', '-'] ++
      (rangeText (startOf h.preIndex (preCount h.body)) (preCount h.body) ++ ' ' :: '+' ::
        (rangeText (startOf h.postIndex (postCount h.body)) (postCount h.body) ++
          ' ' :: '@' :: '@' :: rest)) := by
    simp [Hunk.headerText]
  have hplus := fun cs => stripChars?_append [' ', '+'] cs
  have hclose := fun cs => stripChars?_append [' ', '@', '@'] cs
  simp only [List.cons_append, List.nil_append] at hplus hclose
  rw [htext, hunkHeaderCaptures, stripChars?_append, Option.bind_some, hpre, Option.bind_some,
    hplus, Option.bind_some, hpost, Option.bind_some, hclose, Option.map_some, ha, hb,
    Option.getD_some]

theorem stripChars?_of_head {c d : Char} (h : c ≠ d) (pre cs : Chars) :
    stripChars? (c :: pre) (d :: cs) = none := by
  rw [stripChars?, List.isPrefixOf, beq_false_of_ne h, Bool.false_and, if_neg Bool.false_ne_true]

/-- A line that is neither the first of a file nor the name of its old side nor a hunk header. -/
def IsSkipped (digit : RegexDigit) (line : Chars) : Prop :=
  stripChars? diffGit line = none ∧ stripChars? "--- ".toList line = none ∧
    hunkHeaderCaptures digit line = none

theorem scanBlame_skipped {line : Chars} (h : IsSkipped digit line) (lines : List Chars) :
    scanBlame digit s (line :: lines) = scanBlame digit s lines := by
  obtain ⟨hgit, hside, hhunk⟩ := h
  rw [scanBlame]
  simp only [hgit, hside, hhunk]

theorem scanBlame_skippedAll {skipped : List Chars} (h : ∀ line ∈ skipped, IsSkipped digit line)
    (lines : List Chars) : scanBlame digit s (skipped ++ lines) = scanBlame digit s lines := by
  induction skipped with
  | nil => rfl
  | cons line skipped ih =>
    rw [List.cons_append, scanBlame_skipped (h line List.mem_cons_self)]
    exact ih fun l hl => h l (List.mem_cons_of_mem _ hl)

/-- What follows a hunk: another one, another file, or nothing. -/
def StopsHunk (lines : List Chars) : Prop := ∀ line ∈ lines.head?, endsHunk line = true

def Hunk.bodyLines (h : Hunk) : List Chars := (h.body.flatMap BodyLine.lines).map dropReturn

def BlameScan.takeHunk (s : BlameScan) (h : Hunk) : BlameScan :=
  s.addHunk (startOf h.preIndex (preCount h.body)) (preCount h.body) h.bodyLines

theorem endsHunk_bodyLine {h : Hunk} {line : Chars} (hmem : line ∈ h.bodyLines) :
    endsHunk line = false := by
  obtain ⟨raw, hraw, rfl⟩ := List.mem_map.mp hmem
  obtain ⟨l, -, hl⟩ := List.mem_flatMap.mp hraw
  have hmark : ∀ (kind : LineKind) (text : Chars), endsHunk (kind.mark :: text) = false := by
    intro kind text
    cases kind <;> rfl
  rcases List.mem_cons.mp hl with rfl | hl
  · rw [dropReturn_mark]
    exact hmark _ _
  · split_ifs at hl
    · rw [List.mem_singleton.mp hl]
      decide
    · cases hl

theorem scanBlame_hunk (h : Hunk) {lines : List Chars} (hstop : StopsHunk lines) :
    scanBlame digit s (h.lines.map dropReturn ++ lines) = scanBlame digit (s.takeHunk h) lines := by
  have hgit : stripChars? diffGit (h.headerText ++ dropReturn h.heading) = none :=
    stripChars?_of_head (by decide : 'd' ≠ '@') _ _
  have hside : stripChars? "--- ".toList (h.headerText ++ dropReturn h.heading) = none :=
    stripChars?_of_head (by decide : '-' ≠ '@') _ _
  have hbody : ∀ line ∈ h.bodyLines, (!endsHunk line) = true := fun line hline => by
    rw [endsHunk_bodyLine hline]
    rfl
  have htake : (h.bodyLines ++ lines).takeWhile (!endsHunk ·) = h.bodyLines := by
    rw [List.takeWhile_append_of_pos hbody]
    cases lines with
    | nil => rw [List.takeWhile_nil, List.append_nil]
    | cons line lines =>
      rw [List.takeWhile_cons_of_neg (by simp [hstop line rfl]), List.append_nil]
  have hdrop : (h.bodyLines ++ lines).dropWhile (!endsHunk ·) = lines := by
    rw [List.dropWhile_append_of_pos hbody]
    cases lines with
    | nil => rfl
    | cons line lines => rw [List.dropWhile_cons_of_neg (by simp [hstop line rfl])]
  rw [Hunk.lines, List.map_cons, dropReturn_header, List.cons_append, scanBlame]
  simp only [hgit, hside, hunkHeaderCaptures_headerText]
  change scanBlame digit (s.addHunk _ _ ((h.bodyLines ++ lines).takeWhile (!endsHunk ·)))
    ((h.bodyLines ++ lines).dropWhile (!endsHunk ·)) = _
  rw [htake, hdrop]
  rfl

theorem endsHunk_header (h : Hunk) : endsHunk (h.headerText ++ dropReturn h.heading) = true := rfl

theorem scanBlame_hunks (hs : List Hunk) {lines : List Chars} (hstop : StopsHunk lines) :
    scanBlame digit s ((hs.flatMap Hunk.lines).map dropReturn ++ lines) =
      scanBlame digit (hs.foldl BlameScan.takeHunk s) lines := by
  induction hs generalizing s with
  | nil => rfl
  | cons h hs ih =>
    have hnext : StopsHunk ((hs.flatMap Hunk.lines).map dropReturn ++ lines) := by
      cases hs with
      | nil => exact hstop
      | cons next hs =>
        intro line hline
        rw [List.flatMap_cons, Hunk.lines, List.cons_append, List.map_cons, List.cons_append,
          List.head?_cons, dropReturn_header] at hline
        rw [← Option.some.inj hline]
        exact endsHunk_header next
    rw [List.flatMap_cons, List.map_append, List.append_assoc, scanBlame_hunk h hnext, ih,
      List.foldl_cons]

/-! ### File by file -/

namespace TreeChange

/-- The name of the old side, as it is read. -/
def readPre (c : TreeChange) : Option Chars :=
  c.names.pre.map fun path => path.chars.rdropWhile isRustWhitespace

end TreeChange

namespace BlameScan

def takeChange (s : BlameScan) (c : TreeChange) : BlameScan :=
  let opened := s.openFile (gitNames c.names.old.chars c.names.new.chars)
  if c.hunks.isEmpty then opened
  else c.hunks.foldl takeHunk { opened with currentPreFile := c.readPre }

end BlameScan

theorem scanBlame_preSide (path : Option GitPath) (lines : List Chars) :
    scanBlame digit s (fileLine '-' 'a' path :: lines) =
      scanBlame digit { s with
        currentPreFile := path.map fun path => path.chars.rdropWhile isRustWhitespace } lines := by
  have hgit : stripChars? diffGit (fileLine '-' 'a' path) = none := by
    cases path <;> exact stripChars?_of_head (by decide : 'd' ≠ '-') _ _
  cases path with
  | none =>
    have hside : stripChars? "--- ".toList (fileLine '-' 'a' none) = some devNull := by decide
    have htrim : trimChars devNull = devNull := by decide
    rw [scanBlame]
    simp only [hgit, hside, BlameScan.readPreSide, htrim, if_pos, Option.map_none]
  | some path =>
    have hside : stripChars? "--- ".toList (fileLine '-' 'a' (some path)) =
        some ('a' :: '/' :: path.chars ++ tabFor path.chars) :=
      stripChars?_append "--- ".toList _
    have hspaces : ∀ c ∈ tabFor path.chars, isRustWhitespace c = true :=
      fun _ => whitespace_of_mem_tabFor
    have htrim := trimChars_spaces (by decide : isRustWhitespace 'a' = false)
      (by decide : isRustWhitespace '/' = false) path.chars hspaces
    have hnull : 'a' :: '/' :: path.chars.rdropWhile isRustWhitespace ≠ devNull := nofun
    have hstrip : stripChars? aSlash ('a' :: '/' :: path.chars.rdropWhile isRustWhitespace) =
        some (path.chars.rdropWhile isRustWhitespace) := stripChars?_append aSlash _
    rw [scanBlame]
    simp only [hgit, hside, BlameScan.readPreSide, htrim, if_neg hnull, hstrip, Option.map_some]

theorem isSkipped_of_head {c : Char} {cs : Chars} (hgit : stripChars? diffGit (c :: cs) = none)
    (hminus : '-' ≠ c) (hat : '@' ≠ c) : IsSkipped digit (c :: cs) := by
  refine ⟨hgit, stripChars?_of_head hminus _ _, ?_⟩
  rw [hunkHeaderCaptures, stripChars?_of_head hat]
  rfl

theorem isSkipped_extended {c : TreeChange} {line : Chars}
    (h : line ∈ (c.extended.map fun e => e.keyword ++ e.rest) ++
      (c.binary.map fun text => binaryFiles ++ text).toList) : IsSkipped digit (dropReturn line) := by
  have hgit : stripChars? diffGit (dropReturn line) = none := by
    refine stripChars?_innerLine (c := c) ?_
    rw [TreeChange.innerLines, ← List.append_assoc]
    exact List.mem_append_left _ h
  obtain ⟨x, y, rest, rfl, hminus, hat⟩ : ∃ x y rest, line = x :: y :: rest ∧ '-' ≠ x ∧ '@' ≠ x := by
    rcases List.mem_append.mp h with hmem | hmem
    · obtain ⟨e, -, rfl⟩ := List.mem_map.mp hmem
      have hstart : extendedKeywords.all (fun k =>
          2 ≤ k.length && k.head? ≠ some '-' && k.head? ≠ some '@') = true := by decide
      have hkeyword := List.all_eq_true.mp hstart e.keyword e.known
      simp only [Bool.and_eq_true, decide_eq_true_eq] at hkeyword
      obtain ⟨⟨hlength, hminus⟩, hat⟩ := hkeyword
      match hk : e.keyword, hlength, hminus, hat with
      | x :: y :: k, _, hminus, hat =>
        refine ⟨x, y, k ++ e.rest, rfl, fun heq => hminus (congrArg some heq.symm),
          fun heq => hat (congrArg some heq.symm)⟩
    · obtain ⟨text, -, rfl⟩ := Option.map_eq_some_iff.mp (Option.mem_toList.mp hmem)
      exact ⟨'B', 'i', "nary files ".toList ++ text, rfl, by decide, by decide⟩
  obtain ⟨cs, hcs⟩ : ∃ cs, dropReturn (x :: y :: rest) = x :: cs := by
    unfold dropReturn
    split
    · exact ⟨_, rfl⟩
    · exact ⟨_, rfl⟩
  rw [hcs] at hgit ⊢
  exact isSkipped_of_head hgit hminus hat

theorem scanBlame_change (c : TreeChange) {lines : List Chars} (hstop : StopsHunk lines) :
    scanBlame digit s (c.lines.map dropReturn ++ lines) =
      scanBlame digit (s.takeChange c) lines := by
  have hreturn : dropReturn c.gitLine = c.gitLine :=
    dropReturn_of_not_mem (control_not_mem_gitNames _ _ (by decide))
  have hgit : stripChars? diffGit c.gitLine =
      some (gitNames c.names.old.chars c.names.new.chars) := stripChars?_append _ _
  have hopen : ∀ rest, scanBlame digit s (c.gitLine :: rest) =
      scanBlame digit (s.openFile (gitNames c.names.old.chars c.names.new.chars)) rest := fun rest => by
    rw [scanBlame]
    simp only [hgit]
  have hskip : ∀ line ∈ ((c.extended.map fun e => e.keyword ++ e.rest) ++
      (c.binary.map fun text => binaryFiles ++ text).toList).map dropReturn,
      IsSkipped digit line := by
    intro line hline
    obtain ⟨raw, hraw, rfl⟩ := List.mem_map.mp hline
    exact isSkipped_extended hraw
  rw [TreeChange.lines, TreeChange.innerLines, ← List.append_assoc, List.map_cons, List.map_append,
    List.cons_append, List.append_assoc, hreturn, hopen, scanBlame_skippedAll hskip,
    BlameScan.takeChange, TreeChange.editLines]
  split_ifs
  · rfl
  · have hpre : dropReturn (fileLine '-' 'a' c.names.pre) = fileLine '-' 'a' c.names.pre :=
      dropReturn_of_not_mem (control_not_mem_fileLine (by decide) (by decide) _ (by decide)
        (by decide))
    have hpost : dropReturn (fileLine '+' 'b' c.names.post) = fileLine '+' 'b' c.names.post :=
      dropReturn_of_not_mem (control_not_mem_fileLine (by decide) (by decide) _ (by decide)
        (by decide))
    have hskipped : IsSkipped digit (fileLine '+' 'b' c.names.post) := by
      cases c.names.post <;>
        exact isSkipped_of_head (stripChars?_of_head (by decide : 'd' ≠ '+') _ _) (by decide)
          (by decide)
    rw [List.map_cons, List.map_cons, hpre, hpost, List.cons_append, List.cons_append,
      scanBlame_preSide, scanBlame_skipped hskipped, scanBlame_hunks _ hstop]
    rfl

theorem scanBlame_changes (changes : List TreeChange) :
    scanBlame digit s ((treeLines changes).map dropReturn) =
      changes.foldl BlameScan.takeChange s := by
  induction changes generalizing s with
  | nil => rw [treeLines, List.flatMap_nil, List.map_nil, scanBlame, List.foldl_nil]
  | cons c changes ih =>
    have hlines : treeLines (c :: changes) = c.lines ++ treeLines changes := rfl
    have hstop : StopsHunk ((treeLines changes).map dropReturn) := by
      cases changes with
      | nil => nofun
      | cons next changes =>
        intro line hline
        have hreturn : dropReturn next.gitLine = next.gitLine :=
          dropReturn_of_not_mem (control_not_mem_gitNames _ _ (by decide))
        have hfirst : line = dropReturn next.gitLine := (Option.some.inj hline).symm
        rw [hfirst, hreturn]
        rfl
    rw [hlines, List.map_append, scanBlame_change c hstop, ih, List.foldl_cons]

end Scan

/-! ### The targets of a diff -/

/-- The hunks that are asked about, each with its file. -/
def blamedHunks (changes : List TreeChange) : List (TreeChange × Hunk) :=
  changes.flatMap fun c => (c.hunks.filter Hunk.isBlamed).map (c, ·)

/-- What is asked about a hunk under the name that is read for its file. -/
def hunkTarget (p : TreeChange × Hunk) : Option HunkBlameTarget :=
  p.1.readPre.bind fun preFile => buildHunkBlameTarget preFile (p.2.preIndex + 1) p.2.bodyLines

theorem exists_pre_of_isBlamed {c : TreeChange} {h : Hunk} (hmem : h ∈ c.hunks)
    (hblamed : h.isBlamed = true) : ∃ path, c.names.pre = some path := by
  have hpos : 0 < preCount h.body := of_decide_eq_true (Bool.and_eq_true_iff.mp hblamed).1
  have hcreated := c.created_whole
  cases hnames : c.names with
  | created new =>
    rw [hnames] at hcreated
    have hzero := hcreated rfl h hmem
    omega
  | deleted old => exact ⟨old, rfl⟩
  | modified path => exact ⟨path, rfl⟩
  | renamed old new => exact ⟨old, rfl⟩

theorem hunkTarget_of_isBlamed {c : TreeChange} {h : Hunk} {path : GitPath}
    (hpath : c.names.pre = some path) (hblamed : h.isBlamed = true) :
    ∃ t, hunkTarget (c, h) = some t ∧ t.preFile = path.chars.rdropWhile isRustWhitespace ∧
      SoundRange h t := by
  obtain ⟨t, hbuild, hfile, hrange⟩ :=
    build_of_isBlamed hblamed (path.chars.rdropWhile isRustWhitespace)
  refine ⟨t, ?_, hfile, hrange⟩
  rw [hunkTarget, TreeChange.readPre, hpath, Option.map_some, Option.bind_some]
  exact hbuild

/-- The targets so far are those of the first of the hunks that were asked about. -/
def BlameScan.Answers (s : BlameScan) (asked : List (TreeChange × Hunk)) : Prop :=
  s.targets.map some = (asked.take maxBlameHunks).map hunkTarget

namespace BlameScan

variable {s : BlameScan} {asked : List (TreeChange × Hunk)} {c : TreeChange}

theorem takeHunk_currentPreFile (s : BlameScan) (h : Hunk) :
    (s.takeHunk h).currentPreFile = s.currentPreFile := by
  unfold takeHunk addHunk
  split_ifs <;> rfl

theorem takeHunk_of_not_isBlamed {h : Hunk} (hblamed : h.isBlamed = false) :
    s.takeHunk h = s := by
  unfold takeHunk addHunk
  split_ifs with hroom
  · have hchange : h.body.any (·.kind ≠ .context) = false := by
      rw [Hunk.isBlamed, decide_eq_true hroom.2.2, Bool.true_and] at hblamed
      exact hblamed
    have hnone : ∀ preFile, buildHunkBlameTarget preFile
        (startOf h.preIndex (preCount h.body)) h.bodyLines = none :=
      fun preFile => build_of_unchanged hchange preFile _
    simp only [hnone, Option.bind_fun_none, Option.toList_none, List.append_nil]
  · rfl

theorem Answers.length_eq (hs : s.Answers asked) :
    s.targets.length = min maxBlameHunks asked.length := by
  have hlength := congrArg List.length hs
  rwa [List.length_map, List.length_map, List.length_take] at hlength

theorem Answers.takeHunk {h : Hunk} (hs : s.Answers asked) (hpre : s.currentPreFile = c.readPre)
    (hmem : h ∈ c.hunks) :
    (s.takeHunk h).Answers (asked ++ ([h].filter Hunk.isBlamed).map (c, ·)) := by
  cases hblamed : h.isBlamed with
  | false =>
    rw [takeHunk_of_not_isBlamed hblamed, List.filter_cons_of_neg (by simp [hblamed]),
      List.filter_nil, List.map_nil, List.append_nil]
    exact hs
  | true =>
    obtain ⟨path, hpath⟩ := exists_pre_of_isBlamed hmem hblamed
    obtain ⟨t, ht, -, -⟩ := hunkTarget_of_isBlamed hpath hblamed
    have hpos : 0 < preCount h.body := of_decide_eq_true (Bool.and_eq_true_iff.mp hblamed).1
    have hstart : startOf h.preIndex (preCount h.body) = h.preIndex + 1 := if_neg (by omega)
    have hlength := hs.length_eq
    rw [List.filter_cons_of_pos hblamed, List.filter_nil, List.map_singleton, Answers,
      BlameScan.takeHunk, addHunk, hstart, hpre]
    split_ifs with hroom
    · have hall : asked.length < maxBlameHunks := by omega
      have hfits : (asked ++ [(c, h)]).length ≤ maxBlameHunks := by
        rw [List.length_append, List.length_singleton]
        omega
      rw [Answers, List.take_of_length_le hall.le] at hs
      rw [List.take_of_length_le hfits, List.map_append, List.map_append, hs, List.map_singleton, ht]
      rw [hunkTarget] at ht
      rw [ht, Option.toList_some, List.map_singleton]
    · have hfull : maxBlameHunks ≤ asked.length := by omega
      rw [List.take_append_of_le_length hfull]
      exact hs

theorem Answers.takeHunks {hunks : List Hunk} (hs : s.Answers asked)
    (hpre : s.currentPreFile = c.readPre) (hmem : ∀ h ∈ hunks, h ∈ c.hunks) :
    (hunks.foldl BlameScan.takeHunk s).Answers
      (asked ++ (hunks.filter Hunk.isBlamed).map (c, ·)) := by
  induction hunks generalizing s asked with
  | nil =>
    rw [List.filter_nil, List.map_nil, List.append_nil]
    exact hs
  | cons h hunks ih =>
    have hfirst := hs.takeHunk hpre (hmem h List.mem_cons_self)
    have hkept : (s.takeHunk h).currentPreFile = c.readPre := by
      rw [takeHunk_currentPreFile, hpre]
    have hrest := ih hfirst hkept fun l hl => hmem l (List.mem_cons_of_mem _ hl)
    have hsplit : (h :: hunks).filter Hunk.isBlamed =
        [h].filter Hunk.isBlamed ++ hunks.filter Hunk.isBlamed := by
      rw [← List.filter_append, List.singleton_append]
    rw [hsplit, List.map_append, ← List.append_assoc, List.foldl_cons]
    exact hrest

theorem Answers.takeChange (hs : s.Answers asked) (c : TreeChange) :
    (s.takeChange c).Answers (asked ++ (c.hunks.filter Hunk.isBlamed).map (c, ·)) := by
  unfold BlameScan.takeChange
  split_ifs with hempty
  · rw [List.isEmpty_iff.mp hempty, List.filter_nil, List.map_nil, List.append_nil]
    exact hs
  · have hopened : BlameScan.Answers { s.openFile (gitNames c.names.old.chars c.names.new.chars) with
        currentPreFile := c.readPre } asked := hs
    exact hopened.takeHunks rfl fun h hh => hh

theorem Answers.takeChanges (hs : s.Answers asked) (changes : List TreeChange) :
    (changes.foldl BlameScan.takeChange s).Answers (asked ++ blamedHunks changes) := by
  induction changes generalizing s asked with
  | nil =>
    rw [blamedHunks, List.flatMap_nil, List.append_nil]
    exact hs
  | cons c changes ih =>
    have hsplit : blamedHunks (c :: changes) =
        (c.hunks.filter Hunk.isBlamed).map (c, ·) ++ blamedHunks changes := rfl
    rw [hsplit, ← List.append_assoc, List.foldl_cons]
    exact ih (hs.takeChange c)

end BlameScan

/-- Each of the first hunks has its target, in order. -/
theorem map_targets (digit : RegexDigit) (changes : List TreeChange) :
    (extractDiffBlameTargets digit (renderTree changes)).2.map some =
      ((blamedHunks changes).take maxBlameHunks).map hunkTarget := by
  have hstart : BlameScan.Answers ⟨[], [], none⟩ [] := rfl
  have hrun := hstart.takeChanges changes
  rw [List.nil_append] at hrun
  rw [extractDiffBlameTargets, linesOf_renderTree, scanBlame_changes]
  exact hrun

/-- The target names the old side of the hunk's own file and asks for a sound range of it. -/
def BlamesHunk (p : TreeChange × Hunk) (t : HunkBlameTarget) : Prop :=
  (∃ path, p.1.names.pre = some path ∧ t.preFile = path.chars) ∧ SoundRange p.2 t

theorem blamesHunk_iff {p : TreeChange × Hunk} {changes : List TreeChange}
    (hmem : p ∈ blamedHunks changes) {t : HunkBlameTarget} (ht : hunkTarget p = some t) :
    BlamesHunk p t ↔ ∀ path, p.1.names.pre = some path → EndsVisible path.chars := by
  obtain ⟨c, -, hp⟩ := List.mem_flatMap.mp hmem
  obtain ⟨h, hh, rfl⟩ := List.mem_map.mp hp
  obtain ⟨hin, hblamed⟩ := List.mem_filter.mp hh
  obtain ⟨path, hpath⟩ := exists_pre_of_isBlamed hin hblamed
  obtain ⟨t', ht', hfile, hrange⟩ := hunkTarget_of_isBlamed hpath hblamed
  obtain rfl : t' = t := Option.some.inj (ht'.symm.trans ht)
  constructor
  · rintro ⟨⟨own, hown, hsame⟩, -⟩ path' hpath'
    obtain rfl : own = path' := Option.some.inj (hown.symm.trans hpath')
    obtain rfl : own = path := Option.some.inj (hown.symm.trans hpath)
    exact (rdropWhile_eq_self_iff _).mp (hfile.symm.trans hsame)
  · intro hends
    exact ⟨⟨path, hpath, hfile.trans ((rdropWhile_eq_self_iff _).mpr (hends path hpath))⟩,
      hrange⟩

/-- The targets are those of the first hunks, under the names of their files, if and only if none of
these names ends in white space. -/
theorem targets_blame_iff (digit : RegexDigit) (changes : List TreeChange) :
    List.Forall₂ BlamesHunk ((blamedHunks changes).take maxBlameHunks)
        (extractDiffBlameTargets digit (renderTree changes)).2 ↔
      ∀ p ∈ (blamedHunks changes).take maxBlameHunks,
        ∀ path, p.1.names.pre = some path → EndsVisible path.chars := by
  have hmap := map_targets digit changes
  have hmem : ∀ p ∈ (blamedHunks changes).take maxBlameHunks, p ∈ blamedHunks changes :=
    fun p hp => List.mem_of_mem_take hp
  generalize (extractDiffBlameTargets digit (renderTree changes)).2 = targets at hmap
  generalize (blamedHunks changes).take maxBlameHunks = asked at hmap hmem
  induction asked generalizing targets with
  | nil =>
    rw [List.map_nil, List.map_eq_nil_iff] at hmap
    simp [hmap]
  | cons p asked ih =>
    cases targets with
    | nil => cases hmap
    | cons t targets =>
      rw [List.map_cons, List.map_cons, List.cons.injEq] at hmap
      have hfirst := blamesHunk_iff (hmem p List.mem_cons_self) hmap.1.symm
      have hrest := ih targets hmap.2 fun q hq => hmem q (List.mem_cons_of_mem _ hq)
      rw [List.forall₂_cons, List.forall_mem_cons]
      exact and_congr hfirst hrest

/-- A file `x ` that loses its one line. -/
def blankEndedChange : TreeChange where
  names := .modified ⟨['x', ' '], by decide, by decide⟩
  extended := []
  binary := none
  hunks := [
    { preIndex := 0, postIndex := 0, heading := []
      body := [⟨.deleted, ['y'], false, newline_not_mem_y⟩]
      heading_clean := newline_not_mem_nil, body_ne_nil := by decide
      pre_fits := by decide, post_fits := by decide }]
  binary_clean := clean_none
  declared := by simp [ChangedNames.isDeletion]
  created_whole := nofun

theorem blankEnded_not_blamed :
    ¬List.Forall₂ BlamesHunk ((blamedHunks [blankEndedChange]).take maxBlameHunks)
      (extractDiffBlameTargets asciiDigit (renderTree [blankEndedChange])).2 := by
  intro hall
  have hmap := map_targets asciiDigit [blankEndedChange]
  have hone : ((blamedHunks [blankEndedChange]).take maxBlameHunks).map hunkTarget =
      [some ⟨['x'], 1, 1, [1]⟩] := by decide
  obtain ⟨t, htargets, ht⟩ := List.map_eq_singleton_iff.mp (hmap.trans hone)
  rw [htargets] at hall
  obtain ⟨⟨path, hpath, hfile⟩, -⟩ := (List.forall₂_cons.mp hall).1
  have hread : t.preFile = ['x'] := congrArg HunkBlameTarget.preFile (Option.some.inj ht)
  have hname : path.chars = ['x', ' '] := congrArg GitPath.chars (Option.some.inj hpath.symm)
  rw [hread, hname] at hfile
  cases hfile

end Sashiko
