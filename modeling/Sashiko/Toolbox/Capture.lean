import Mathlib.Data.List.TakeWhile
import Mathlib.Tactic.Common
import Mathlib.Tactic.SplitIfs
import Sashiko.Diff.Paths
import Sashiko.Lib.Lines

/-! `toolbox/command.rs`: how much of a command's output is kept, and the two tools that read it
line by line. What they report does not depend on how the pipe cuts the output up. -/

namespace Sashiko

abbrev Bytes := List UInt8

def maxCapturedStderr : ℕ := 64 * 1024

def maxLineBytes : ℕ := 64 * 1024

def newlineByte : UInt8 := 10

def isNewline (b : UInt8) : Bool := b = newlineByte

structure CappedOutput where
  /-- `status.success()` -/
  success : Bool
  stdout : Bytes
  stderr : Bytes
  stdoutCapped : Bool
  deriving DecidableEq, Repr

def CappedOutput.isUsable (output : CappedOutput) : Bool := output.success || output.stdoutCapped

/-- What the reads of a pipe deliver: a read of nothing is the end of it. -/
def delivered (reads : List Bytes) : Bytes := (reads.takeWhile (· ≠ [])).flatten

/-! ### A capture that is cut back -/

/-- Where the last line that is complete ends. -/
def lastLineEnd (head : Bytes) (maxStdout : ℕ) : ℕ :=
  match head.reverse.findIdx? isNewline with
  | some i => head.length - i
  | none => maxStdout

def cappedStdout (stream : Bytes) (maxStdout : ℕ) : Bytes × Bool :=
  let stdout := stream.take (maxStdout + 1)
  if maxStdout < stdout.length then
    (stdout.take (lastLineEnd (stdout.take maxStdout) maxStdout), true)
  else (stdout, false)

def appendCapped (buf slice : Bytes) (cap : ℕ) : Bytes :=
  if buf.length < cap then buf ++ slice.take (cap - buf.length) else buf

def drainFrom (keep : ℕ) : List Bytes → Bytes → Bytes
  | [], kept => kept
  | read :: reads, kept =>
    if read = [] then kept else drainFrom keep reads (appendCapped kept read keep)

def drainCapped (reads : List Bytes) (keep : ℕ) : Bytes := drainFrom keep reads []

def cappedOutputWithLimit (success : Bool) (out err : List Bytes) (maxStdout : ℕ) :
    CappedOutput :=
  { success := success
    stdout := (cappedStdout (delivered out) maxStdout).1
    stderr := drainCapped err maxCapturedStderr
    stdoutCapped := (cappedStdout (delivered out) maxStdout).2 }

/-! ### Line by line -/

section Lines

-- `String::from_utf8_lossy`, and the closure that takes the lines.
variable {σ : Type} (fromUtf8Lossy : Bytes → Chars) (onLine : σ → Chars → σ)

def stripReturnByte (raw : Bytes) : Bytes :=
  if raw.getLast? = some 13 then raw.dropLast else raw

def emitLine (sink : σ) (raw : Bytes) : σ := onLine sink (fromUtf8Lossy (stripReturnByte raw))

/-- The lines that end in a read are handed on; what is left is the start of the next one. -/
def feedSlice (lineBuf slice : Bytes) (sink : σ) : Bytes × σ :=
  if newlineByte ∈ slice then
    feedSlice [] ((slice.dropWhile (!isNewline ·)).drop 1)
      (emitLine fromUtf8Lossy onLine sink
        (appendCapped lineBuf (slice.takeWhile (!isNewline ·)) maxLineBytes))
  else (appendCapped lineBuf slice maxLineBytes, sink)
termination_by slice.length
decreasing_by
  rename_i hmem
  have hpos := List.length_pos_of_mem hmem
  have hle := (List.dropWhile_sublist (!isNewline ·) (l := slice)).length_le
  rw [List.length_drop]
  omega

def readLines : List Bytes → Bytes → σ → σ
  | [], lineBuf, sink => if lineBuf = [] then sink else emitLine fromUtf8Lossy onLine sink lineBuf
  | read :: reads, lineBuf, sink =>
    if read = [] then
      if lineBuf = [] then sink else emitLine fromUtf8Lossy onLine sink lineBuf
    else
      readLines reads (feedSlice fromUtf8Lossy onLine lineBuf read sink).1
        (feedSlice fromUtf8Lossy onLine lineBuf read sink).2

def forEachLine (success : Bool) (out err : List Bytes) (sink : σ) : σ × CappedOutput :=
  (readLines fromUtf8Lossy onLine out [] sink,
    { success := success, stdout := [], stderr := drainCapped err maxCapturedStderr,
      stdoutCapped := false })

end Lines

/-! ### The tools -/

def listLimit : ℕ := 1000

structure FoundFiles where
  matchedFiles : List Chars
  totalFound : ℕ
  isTruncated : Bool
  deriving DecidableEq, Repr

def FoundFiles.onLine (isMatch : Chars → Bool) (f : FoundFiles) (line : Chars) : FoundFiles :=
  if isMatch line then
    if f.matchedFiles.length < listLimit then
      { f with totalFound := f.totalFound + 1, matchedFiles := f.matchedFiles ++ [line] }
    else { f with totalFound := f.totalFound + 1, isTruncated := true }
  else f

def FoundFiles.report (f : FoundFiles) : Chars :=
  let body := ['\n'].intercalate f.matchedFiles
  if f.totalFound = 0 then "No matching files found.".toList
  else if f.isTruncated then
    "Found ".toList ++ Nat.toDigits 10 f.totalFound ++
      " matching files (showing first 1000):\n".toList ++ body ++
      "\n[Truncated: more than 1000 files matched. Use a narrower path or pattern.]".toList
  else
    "Found ".toList ++ Nat.toDigits 10 f.totalFound ++ " matching ".toList ++
      (if f.totalFound = 1 then "file".toList else "files".toList) ++ ":\n".toList ++ body

structure ListedEntries where
  entries : List Chars
  totalEntries : ℕ
  deriving DecidableEq, Repr

/-- The name in a line of `git ls-tree`, with a slash behind a directory's. -/
def treeEntry (line : Chars) : Option Chars :=
  match splitChars '\t' line with
  | metadata :: filename :: _ =>
    match splitWhitespace metadata with
    | _ :: kind :: _ => some (if kind = "tree".toList then filename ++ ['/'] else filename)
    | _ => none
  | _ => none

def ListedEntries.onLine (l : ListedEntries) (line : Chars) : ListedEntries :=
  match treeEntry line with
  | some entry =>
    { entries := if l.entries.length < listLimit then l.entries ++ [entry] else l.entries
      totalEntries := l.totalEntries + 1 }
  | none => l

def ListedEntries.report (l : ListedEntries) : Chars :=
  if l.totalEntries = 0 then "Directory is empty.".toList
  else ['\n'].intercalate l.entries ++
    (if listLimit < l.totalEntries then
      "\n[Truncated: showing 1000 of ".toList ++ Nat.toDigits 10 l.totalEntries ++
        " entries. Call git_ls with a specific subdirectory path.]".toList
    else [])

section Tools

variable (fromUtf8Lossy : Bytes → Chars)

def gitFindFiles (isMatch : Chars → Bool) (success : Bool) (out err : List Bytes) :
    Except Chars Chars :=
  let run := forEachLine fromUtf8Lossy (FoundFiles.onLine isMatch) success out err ⟨[], 0, false⟩
  if run.2.success then .ok run.1.report
  else .error ("git ls-tree failed: ".toList ++ trimChars (fromUtf8Lossy run.2.stderr))

def gitLs (treeSpec : Chars) (success : Bool) (out err : List Bytes) : Chars :=
  let run := forEachLine fromUtf8Lossy ListedEntries.onLine success out err ⟨[], 0⟩
  if run.2.success then run.1.report
  else "Error: git ls-tree failed for ".toList ++ treeSpec ++ ": ".toList ++
    trimChars (fromUtf8Lossy run.2.stderr)

end Tools

/-! ### However the pipe cuts it up -/

theorem appendCapped_take (pending slice : Bytes) (cap : ℕ) :
    appendCapped (pending.take cap) slice cap = (pending ++ slice).take cap := by
  rw [appendCapped, List.take_append, List.length_take]
  split_ifs with hroom
  · rw [Nat.min_eq_right (by omega)]
  · rw [Nat.sub_eq_zero_of_le (by omega), List.take_zero, List.append_nil]

theorem drainFrom_take (reads : List Bytes) (seen : Bytes) (keep : ℕ) :
    drainFrom keep reads (seen.take keep) = (seen ++ delivered reads).take keep := by
  induction reads generalizing seen with
  | nil => rw [drainFrom, delivered, List.takeWhile_nil, List.flatten_nil, List.append_nil]
  | cons read reads ih =>
    rw [drainFrom, delivered]
    split_ifs with hend
    · rw [List.takeWhile_cons_of_neg (by simpa using hend), List.flatten_nil, List.append_nil]
    · rw [appendCapped_take, ih, List.takeWhile_cons_of_pos (by simpa using hend),
        List.flatten_cons, List.append_assoc]
      rfl

/-- The messages kept are the first bytes, whatever the reads. -/
theorem drainCapped_eq (reads : List Bytes) (keep : ℕ) :
    drainCapped reads keep = (delivered reads).take keep := by
  rw [drainCapped, ← List.take_nil, drainFrom_take, List.nil_append]

/-- A last line without a newline counts if it is not empty. -/
def closeLast (parts : List Bytes) : List Bytes :=
  if parts.getLast? = some [] then parts.dropLast else parts

def streamLines (stream : Bytes) : List Bytes := closeLast (stream.splitOnP isNewline)

theorem isNewline_eq_false {b : UInt8} {line : Bytes} (h : newlineByte ∉ line) (hb : b ∈ line) :
    isNewline b = false :=
  decide_eq_false fun heq => h (heq ▸ hb)

/-- Up to the first newline, and behind it. -/
theorem exists_line {slice : Bytes} (h : newlineByte ∈ slice) : ∃ line rest,
    slice = line ++ newlineByte :: rest ∧ newlineByte ∉ line ∧
      slice.takeWhile (!isNewline ·) = line ∧ (slice.dropWhile (!isNewline ·)).drop 1 = rest := by
  obtain ⟨line, rest, rfl, hline⟩ := List.eq_append_cons_of_mem h
  have hpass : ∀ b ∈ line, (!isNewline b) = true := fun b hb => by
    rw [isNewline_eq_false hline hb]
    rfl
  have hstop : ¬ (fun b => !isNewline b) newlineByte = true := by decide
  refine ⟨line, rest, rfl, hline, ?_, ?_⟩
  · rw [List.takeWhile_append_of_pos hpass,
      List.takeWhile_cons_of_neg (p := fun b => !isNewline b) hstop, List.append_nil]
  · rw [List.dropWhile_append_of_pos hpass,
      List.dropWhile_cons_of_neg (p := fun b => !isNewline b) hstop]
    rfl

theorem closeLast_append (front : List Bytes) {parts : List Bytes} (h : parts ≠ []) :
    closeLast (front ++ parts) = front ++ closeLast parts := by
  unfold closeLast
  rw [List.getLast?_append_of_ne_nil front h, List.dropLast_append_of_ne_nil h]
  split_ifs <;> rfl

section Lines

variable {σ : Type} (fromUtf8Lossy : Bytes → Chars) (onLine : σ → Chars → σ)

/-- A line as it is handed on. -/
def takeLine (sink : σ) (line : Bytes) : σ :=
  emitLine fromUtf8Lossy onLine sink (line.take maxLineBytes)

/-- What a read does, told by the bytes of the line it goes on with. -/
theorem feedSlice_take (slice pending : Bytes) (hpending : newlineByte ∉ pending) (sink : σ) :
    ∃ front pending', newlineByte ∉ pending' ∧
      (∀ rest, (pending ++ slice ++ rest).splitOnP isNewline =
        front ++ (pending' ++ rest).splitOnP isNewline) ∧
      feedSlice fromUtf8Lossy onLine (pending.take maxLineBytes) slice sink =
        (pending'.take maxLineBytes, front.foldl (takeLine fromUtf8Lossy onLine) sink) := by
  induction h : slice.length using Nat.strong_induction_on generalizing slice pending sink with
  | _ n ih =>
    rw [feedSlice]
    split_ifs with hmem
    · obtain ⟨line, behind, rfl, hline, htake, hdrop⟩ := exists_line hmem
      have hshort : behind.length < n := by
        rw [← h, List.length_append, List.length_cons]
        omega
      obtain ⟨front, pending', hpending', hsplit, hfeed⟩ := ih behind.length hshort behind []
        List.not_mem_nil (takeLine fromUtf8Lossy onLine sink (pending ++ line)) rfl
      have hwhole : ∀ b ∈ pending ++ line, isNewline b = false := by
        intro b hb
        rcases List.mem_append.mp hb with hb | hb
        · exact isNewline_eq_false hpending hb
        · exact isNewline_eq_false hline hb
      refine ⟨(pending ++ line) :: front, pending', hpending', fun rest => ?_, ?_⟩
      · rw [← List.append_assoc, List.append_assoc, List.cons_append,
          List.splitOnP_append_cons_of_forall_mem hwhole newlineByte rfl, List.cons_append,
          ← hsplit, List.nil_append]
      · rw [htake, hdrop, appendCapped_take]
        exact hfeed
    · refine ⟨[], pending ++ slice, ?_, fun rest => rfl, ?_⟩
      · simpa using ⟨hpending, hmem⟩
      · rw [appendCapped_take]
        rfl

theorem finish_take {pending : Bytes} (hpending : newlineByte ∉ pending) (sink : σ) :
    (if pending.take maxLineBytes = [] then sink
      else emitLine fromUtf8Lossy onLine sink (pending.take maxLineBytes)) =
        (streamLines pending).foldl (takeLine fromUtf8Lossy onLine) sink := by
  rw [streamLines, List.splitOnP_eq_singleton fun b hb => isNewline_eq_false hpending hb]
  cases pending with
  | nil => rfl
  | cons b pending => rfl

theorem readLines_take (reads : List Bytes) (pending : Bytes) (hpending : newlineByte ∉ pending)
    (sink : σ) : readLines fromUtf8Lossy onLine reads (pending.take maxLineBytes) sink =
      (streamLines (pending ++ delivered reads)).foldl (takeLine fromUtf8Lossy onLine) sink := by
  induction reads generalizing pending sink with
  | nil =>
    rw [readLines, finish_take fromUtf8Lossy onLine hpending, delivered, List.takeWhile_nil,
      List.flatten_nil, List.append_nil]
  | cons read reads ih =>
    rw [readLines, delivered]
    by_cases hread : read = []
    · rw [if_pos hread, finish_take fromUtf8Lossy onLine hpending,
        List.takeWhile_cons_of_neg (by simpa using hread), List.flatten_nil, List.append_nil]
    · obtain ⟨front, pending', hpending', hsplit, hfeed⟩ :=
        feedSlice_take fromUtf8Lossy onLine read pending hpending sink
      rw [if_neg hread, hfeed, ih pending' hpending',
        List.takeWhile_cons_of_pos (by simpa using hread), List.flatten_cons, ← List.append_assoc,
        streamLines, streamLines, hsplit, closeLast_append front (List.splitOnP_ne_nil _ _),
        List.foldl_append]
      rfl

/-- The lines are those of the whole output, each cut to the limit. -/
theorem forEachLine_eq (success : Bool) (out err : List Bytes) (sink : σ) :
    forEachLine fromUtf8Lossy onLine success out err sink =
      ((streamLines (delivered out)).foldl (takeLine fromUtf8Lossy onLine) sink,
        ⟨success, [], (delivered err).take maxCapturedStderr, false⟩) := by
  have hlines := readLines_take fromUtf8Lossy onLine out [] List.not_mem_nil sink
  rw [List.nil_append, List.take_nil] at hlines
  rw [forEachLine, hlines, drainCapped_eq]

end Lines

/-! ### What the tools report -/

theorem foldl_of {α β γ : Type} {of : List γ → β} {step : β → α → β} {pick : α → List γ}
    (h : ∀ found a, step (of found) a = of (found ++ pick a)) (as : List α) (found : List γ) :
    as.foldl step (of found) = of (found ++ as.flatMap pick) := by
  induction as generalizing found with
  | nil => rw [List.foldl_nil, List.flatMap_nil, List.append_nil]
  | cons a as ih => rw [List.foldl_cons, h, ih, List.flatMap_cons, List.append_assoc]

theorem take_concat_listLimit {α : Type} (found : List α) (a : α) :
    (if (found.take listLimit).length < listLimit then found.take listLimit ++ [a]
      else found.take listLimit) = (found ++ [a]).take listLimit := by
  rw [List.take_append, List.length_take]
  split_ifs with hroom
  · rw [List.take_of_length_le (by omega : found.length ≤ listLimit),
      List.take_of_length_le (by rw [List.length_singleton]; omega : [a].length ≤ _)]
  · rw [Nat.sub_eq_zero_of_le (by omega), List.take_zero, List.append_nil]

/-- The first thousand, and how many there are. -/
def FoundFiles.of (found : List Chars) : FoundFiles :=
  ⟨found.take listLimit, found.length, listLimit < found.length⟩

def ListedEntries.of (found : List Chars) : ListedEntries :=
  ⟨found.take listLimit, found.length⟩

theorem FoundFiles.onLine_of (isMatch : Chars → Bool) (found : List Chars) (line : Chars) :
    (FoundFiles.of found).onLine isMatch line =
      .of (found ++ if isMatch line then [line] else []) := by
  unfold FoundFiles.onLine
  by_cases hmatch : isMatch line
  · rw [if_pos hmatch, if_pos hmatch, FoundFiles.of, FoundFiles.of, ← take_concat_listLimit,
      List.length_append, List.length_singleton]
    dsimp only
    rw [List.length_take]
    split_ifs with hroom
    · congr 1
      exact decide_eq_decide.mpr (by omega)
    · congr 1
      exact (decide_eq_true (by omega)).symm
  · rw [if_neg hmatch, if_neg hmatch, List.append_nil]

theorem ListedEntries.onLine_of (found : List Chars) (line : Chars) :
    (ListedEntries.of found).onLine line = .of (found ++ (treeEntry line).toList) := by
  unfold ListedEntries.onLine
  cases treeEntry line with
  | none => rw [Option.toList_none, List.append_nil]
  | some entry =>
    rw [ListedEntries.of, ListedEntries.of, Option.toList_some, ← take_concat_listLimit,
      List.length_append, List.length_singleton]

section Tools

variable (fromUtf8Lossy : Bytes → Chars)

/-- The lines of the output as a tool sees them. -/
def shownStdout (out : List Bytes) : List Chars :=
  (streamLines (delivered out)).map fun line =>
    fromUtf8Lossy (stripReturnByte (line.take maxLineBytes))

def shownStderr (err : List Bytes) : Chars :=
  trimChars (fromUtf8Lossy ((delivered err).take maxCapturedStderr))

theorem forEachLine_shown {σ : Type} (onLine : σ → Chars → σ) (success : Bool)
    (out err : List Bytes) (sink : σ) :
    (forEachLine fromUtf8Lossy onLine success out err sink).1 =
      (shownStdout fromUtf8Lossy out).foldl onLine sink := by
  rw [forEachLine_eq, shownStdout, List.foldl_map]
  rfl

theorem flatMap_ite {α : Type} (p : α → Bool) (as : List α) :
    (as.flatMap fun a => if p a then [a] else []) = as.filter p := by
  induction as with
  | nil => rfl
  | cons a as ih =>
    rw [List.flatMap_cons, ih, List.filter_cons]
    split_ifs <;> rfl

theorem flatMap_toList {α β : Type} (f : α → Option β) (as : List α) :
    (as.flatMap fun a => (f a).toList) = as.filterMap f := by
  induction as with
  | nil => rfl
  | cons a as ih =>
    rw [List.flatMap_cons, ih, List.filterMap_cons]
    cases f a <;> rfl

/-- Both tools report the first thousand of what they look for in the whole output and how many
there are, however the output arrives. -/
theorem tools_report_whole (isMatch : Chars → Bool) (treeSpec : Chars) (success : Bool)
    (out err : List Bytes) :
    gitFindFiles fromUtf8Lossy isMatch success out err =
        (if success then
          .ok (FoundFiles.of ((shownStdout fromUtf8Lossy out).filter isMatch)).report
        else .error ("git ls-tree failed: ".toList ++ shownStderr fromUtf8Lossy err)) ∧
      gitLs fromUtf8Lossy treeSpec success out err =
        if success then
          (ListedEntries.of ((shownStdout fromUtf8Lossy out).filterMap treeEntry)).report
        else "Error: git ls-tree failed for ".toList ++ treeSpec ++ ": ".toList ++
          shownStderr fromUtf8Lossy err := by
  have hfound := foldl_of (FoundFiles.onLine_of isMatch) (shownStdout fromUtf8Lossy out) []
  have hlisted := foldl_of ListedEntries.onLine_of (shownStdout fromUtf8Lossy out) []
  rw [List.nil_append, flatMap_ite] at hfound
  rw [List.nil_append, flatMap_toList] at hlisted
  refine ⟨?_, ?_⟩
  · unfold gitFindFiles
    dsimp only
    rw [forEachLine_shown, forEachLine_eq, ← hfound]
    rfl
  · unfold gitLs
    dsimp only
    rw [forEachLine_shown, forEachLine_eq, ← hlisted]
    rfl

end Tools

/-! ### A capture ends with a line -/

theorem lastLineEnd_of_mem {head : Bytes} (h : newlineByte ∈ head) (maxStdout : ℕ) :
    ∃ front tail, head = front ++ newlineByte :: tail ∧ newlineByte ∉ tail ∧
      lastLineEnd head maxStdout = front.length + 1 := by
  obtain ⟨tail, front, hhead, htail⟩ := List.eq_append_cons_of_mem (List.mem_reverse.mpr h)
  have hnone : tail.findIdx? isNewline = none :=
    List.findIdx?_eq_none_iff.mpr fun b hb => isNewline_eq_false htail hb
  have hfind : head.reverse.findIdx? isNewline = some tail.length := by
    rw [hhead, List.findIdx?_append, hnone, List.findIdx?_cons, if_pos (by decide)]
    simp
  have hsplit : head = front.reverse ++ newlineByte :: tail.reverse := by
    rw [← List.reverse_reverse head, hhead]
    simp
  refine ⟨front.reverse, tail.reverse, hsplit, by simpa using htail, ?_⟩
  rw [lastLineEnd, hfind, hsplit]
  simp only [List.length_append, List.length_cons, List.length_reverse]
  omega

theorem lastLineEnd_of_not_mem {head : Bytes} (h : newlineByte ∉ head) (maxStdout : ℕ) :
    lastLineEnd head maxStdout = maxStdout := by
  have hfind : head.reverse.findIdx? isNewline = none :=
    List.findIdx?_eq_none_iff.mpr fun b hb => isNewline_eq_false h (List.mem_reverse.mp hb)
  rw [lastLineEnd, hfind]

theorem streamLines_prefix (front more : Bytes) :
    streamLines (front ++ [newlineByte]) <+: streamLines (front ++ newlineByte :: more) := by
  have hwhole : streamLines (front ++ newlineByte :: more) =
      front.splitOnP isNewline ++ closeLast (more.splitOnP isNewline) := by
    rw [streamLines, List.splitOnP_append_cons front more (by decide),
      closeLast_append _ (List.splitOnP_ne_nil _ _)]
  have hfront : streamLines (front ++ [newlineByte]) = front.splitOnP isNewline := by
    rw [streamLines, List.splitOnP_append_cons front [] (by decide),
      closeLast_append _ (List.splitOnP_ne_nil _ _), List.splitOnP_nil]
    exact List.append_nil _
  rw [hwhole, hfront]
  exact List.prefix_append _ _

/-- An output within the limit is kept whole. Of a longer one the complete lines are kept that
are within the limit, and if there is none the start of the first line. -/
theorem cappedStdout_lines (stream : Bytes) (maxStdout : ℕ) :
    (stream.length ≤ maxStdout ∧ cappedStdout stream maxStdout = (stream, false)) ∨
      maxStdout < stream.length ∧ ∃ kept cut, stream.take maxStdout = kept ++ cut ∧
        newlineByte ∉ cut ∧ (∀ b ∈ kept.getLast?, b = newlineByte) ∧
        streamLines kept <+: streamLines stream ∧
        cappedStdout stream maxStdout = (if kept = [] then cut else kept, true) := by
  have hhead : (stream.take (maxStdout + 1)).take maxStdout = stream.take maxStdout := by
    rw [List.take_take, Nat.min_eq_left (Nat.le_succ _)]
  unfold cappedStdout
  dsimp only
  rw [hhead, List.length_take]
  by_cases hlong : maxStdout < stream.length
  · rw [if_pos (by omega)]
    refine .inr ⟨hlong, ?_⟩
    by_cases hmem : newlineByte ∈ stream.take maxStdout
    · obtain ⟨front, tail, hsplit, htail, hend⟩ := lastLineEnd_of_mem hmem maxStdout
      have hstream : stream = front ++ newlineByte :: (tail ++ stream.drop maxStdout) := by
        conv_lhs => rw [← List.take_append_drop maxStdout stream, hsplit]
        simp
      have hlength : front.length + 1 ≤ maxStdout := by
        have hle := List.length_take_le maxStdout stream
        rw [hsplit, List.length_append, List.length_cons] at hle
        omega
      have hkept : (stream.take (maxStdout + 1)).take (front.length + 1) =
          front ++ [newlineByte] := by
        rw [List.take_take, Nat.min_eq_left (Nat.le_succ_of_le hlength), hstream,
          ← List.singleton_append, ← List.append_assoc]
        exact List.take_left' (by simp)
      refine ⟨front ++ [newlineByte], tail, by rw [hsplit]; simp, htail, by simp, ?_, ?_⟩
      · rw [hstream]
        exact streamLines_prefix _ _
      · rw [hend, if_neg (List.concat_ne_nil _ _), hkept]
    · refine ⟨[], stream.take maxStdout, rfl, hmem, by simp, List.nil_prefix, ?_⟩
      rw [lastLineEnd_of_not_mem hmem, hhead, if_pos rfl]
  · rw [if_neg (by omega)]
    exact .inl ⟨by omega, by rw [List.take_of_length_le (by omega)]⟩

/-- So it is with all that the pipes deliver, and of the messages the first bytes are kept. -/
theorem cappedOutputWithLimit_lines (success : Bool) (out err : List Bytes) (maxStdout : ℕ) :
    ((delivered out).length ≤ maxStdout ∧ cappedOutputWithLimit success out err maxStdout =
        ⟨success, delivered out, (delivered err).take maxCapturedStderr, false⟩) ∨
      maxStdout < (delivered out).length ∧ ∃ kept cut,
        (delivered out).take maxStdout = kept ++ cut ∧ newlineByte ∉ cut ∧
        (∀ b ∈ kept.getLast?, b = newlineByte) ∧
        streamLines kept <+: streamLines (delivered out) ∧
        cappedOutputWithLimit success out err maxStdout =
          ⟨success, if kept = [] then cut else kept, (delivered err).take maxCapturedStderr,
            true⟩ := by
  unfold cappedOutputWithLimit
  rw [drainCapped_eq]
  rcases cappedStdout_lines (delivered out) maxStdout with
    ⟨hshort, hstdout⟩ | ⟨hlong, kept, cut, hsplit, hcut, hend, hlines, hstdout⟩
  · rw [hstdout]
    exact .inl ⟨hshort, rfl⟩
  · rw [hstdout]
    exact .inr ⟨hlong, kept, cut, hsplit, hcut, hend, hlines, rfl⟩

end Sashiko
