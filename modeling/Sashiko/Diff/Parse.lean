import Mathlib.Logic.Function.Basic
import Sashiko.Diff.Paths
import Sashiko.Lib.Saturating

/-! The two-sided reading of a unified diff: changed lines on either side, and renamed files. -/

namespace Sashiko

def usizeAdd (a b : ℕ) : ℕ := satAdd usizeMax a b

/-- The class `\d` of a regular expression: on ASCII the code relies only on what this says. -/
structure RegexDigit where
  apply : Char → Bool
  ascii : ∀ c : Char, c.toNat < 128 → apply c = c.isDigit

/-! ### Hunk headers -/

structure ChunkHeader where
  preStart : ℕ
  preCount : ℕ
  postStart : ℕ
  postCount : ℕ
  deriving DecidableEq, Repr

/-- `str::parse::<usize>`, for a text of digits. -/
def parseUsize (ds : Chars) : Option ℕ :=
  if ds.all Char.isDigit ∧ Nat.ofDigitChars 10 ds 0 ≤ usizeMax then
    some (Nat.ofDigitChars 10 ds 0)
  else none

/-- A captured number, 1 where none is captured or it does not fit. -/
def captured (ds : Option Chars) : ℕ := (ds.bind parseUsize).getD 1

section Regex

variable (digit : RegexDigit)

/-- `(\d+)` -/
def digitsAt (cs : Chars) : Option (Chars × Chars) :=
  if cs.takeWhile digit.apply = [] then none
  else some (cs.takeWhile digit.apply, cs.dropWhile digit.apply)

/-- `(?:,(\d+))?` -/
def countAt (cs : Chars) : Option Chars × Chars :=
  match (stripChars? [','] cs).bind (digitsAt digit) with
  | some p => (some p.1, p.2)
  | none => (none, cs)

/-- `(\d+)(?:,(\d+))?` -/
def rangeAt (cs : Chars) : Option ((Chars × Option Chars) × Chars) :=
  (digitsAt digit cs).map fun p => ((p.1, (countAt digit p.2).1), (countAt digit p.2).2)

/-- `@@ -(\d+)(?:,(\d+))? \+(\d+)(?:,(\d+))? @@`, at the start of the text. -/
def chunkAt (cs : Chars) : Option ChunkHeader :=
  (stripChars? ['@', '@', ' ', '-'] cs).bind fun cs =>
    (rangeAt digit cs).bind fun pre =>
      (stripChars? [' ', '+'] pre.2).bind fun cs =>
        (rangeAt digit cs).bind fun post =>
          (stripChars? [' ', '@', '@'] post.2).map fun _ =>
            { preStart := captured (some pre.1.1), preCount := captured pre.1.2
              postStart := captured (some post.1.1), postCount := captured post.1.2 }

/-- The first match in the line. -/
def chunkCaptures : Chars → Option ChunkHeader
  | [] => none
  | c :: cs => (chunkAt digit (c :: cs)).or (chunkCaptures cs)

end Regex

/-! ### What is read -/

/-- Line numbers count from 0, and a range includes its end. -/
structure ParsedDiff where
  postRanges : Chars → Option (List (ℕ × ℕ))
  preRanges : Chars → Option (List (ℕ × ℕ))
  deletedLines : Chars → Option (List (ℕ × Chars))
  preToPost : Chars → Option Chars
  postToPre : Chars → Option Chars

def extendEntry {α : Type} (m : Chars → Option (List α)) (key : Chars) (xs : List α) :
    Chars → Option (List α) :=
  Function.update m key (some ((m key).getD [] ++ xs))

namespace ParsedDiff

def empty : ParsedDiff where
  postRanges := fun _ => none
  preRanges := fun _ => none
  deletedLines := fun _ => none
  preToPost := fun _ => none
  postToPre := fun _ => none

def addPost (d : ParsedDiff) (post : Option Chars) (ranges : List (ℕ × ℕ)) : ParsedDiff :=
  match post with
  | some file => { d with postRanges := extendEntry d.postRanges file ranges }
  | none => d

def addPre (d : ParsedDiff) (pre : Option Chars) (ranges : List (ℕ × ℕ))
    (lines : List (ℕ × Chars)) : ParsedDiff :=
  match pre with
  | some file =>
    { d with
      preRanges := extendEntry d.preRanges file ranges
      deletedLines := extendEntry d.deletedLines file lines }
  | none => d

def addPair (d : ParsedDiff) (pre post : Option Chars) : ParsedDiff :=
  match pre, post with
  | some old, some new =>
    if old ≠ new then
      { d with
        preToPost := Function.update d.preToPost old (some new)
        postToPre := Function.update d.postToPre new (some old) }
    else d
  | _, _ => d

end ParsedDiff

/-! ### The state between two lines -/

structure DiffState where
  parsed : ParsedDiff
  currentPostFile : Option Chars
  currentPreFile : Option Chars
  currentPreLine : ℕ
  currentPostLine : ℕ
  hunkPreStart0 : ℕ
  hunkPostStart0 : ℕ
  hunkPreCount : ℕ
  hunkPostCount : ℕ
  hunkPreTarget : ℕ
  hunkPostTarget : ℕ
  hunkPreConsumed : ℕ
  hunkPostConsumed : ℕ
  hunkHasBody : Bool
  hunkAddedRanges : List (ℕ × ℕ)
  hunkDeletedRanges : List (ℕ × ℕ)
  hunkDeletedLines : List (ℕ × Chars)
  inHunk : Bool

namespace DiffState

def init : DiffState where
  parsed := .empty
  currentPostFile := none
  currentPreFile := none
  currentPreLine := 0
  currentPostLine := 0
  hunkPreStart0 := 0
  hunkPostStart0 := 0
  hunkPreCount := 0
  hunkPostCount := 0
  hunkPreTarget := 0
  hunkPostTarget := 0
  hunkPreConsumed := 0
  hunkPostConsumed := 0
  hunkHasBody := false
  hunkAddedRanges := []
  hunkDeletedRanges := []
  hunkDeletedLines := []
  inHunk := false

/-- The ranges of a hunk; without a body its header stands for them. -/
def hunkRanges (hasBody : Bool) (start count : ℕ) (ranges : List (ℕ × ℕ)) : List (ℕ × ℕ) :=
  if !hasBody && 0 < count then [(start, usizeAdd start (count - 1))] else ranges

def flushed (s : DiffState) : ParsedDiff :=
  ((s.parsed.addPost s.currentPostFile
    (hunkRanges s.hunkHasBody s.hunkPostStart0 s.hunkPostCount s.hunkAddedRanges)).addPre
      s.currentPreFile (hunkRanges s.hunkHasBody s.hunkPreStart0 s.hunkPreCount s.hunkDeletedRanges)
      s.hunkDeletedLines).addPair s.currentPreFile s.currentPostFile

def flushHunk (s : DiffState) : DiffState :=
  if s.inHunk then
    { s with
      parsed := s.flushed
      hunkAddedRanges := []
      hunkDeletedRanges := []
      hunkDeletedLines := [] }
  else s

def openHunk (s : DiffState) (h : ChunkHeader) : DiffState :=
  { s with
    currentPreLine := h.preStart
    currentPostLine := h.postStart
    hunkPreStart0 := h.preStart - 1
    hunkPostStart0 := h.postStart - 1
    hunkPreCount := h.preCount
    hunkPostCount := h.postCount
    hunkPreTarget := h.preCount
    hunkPostTarget := h.postCount
    hunkPreConsumed := 0
    hunkPostConsumed := 0
    inHunk := true
    hunkHasBody := false }

def readDiffGit (s : DiffState) (line : Chars) : DiffState :=
  { s with
    currentPostFile := (parseDiffGitPaths line).map (·.2)
    currentPreFile := (parseDiffGitPaths line).map (·.1)
    parsed := s.parsed.addPair ((parseDiffGitPaths line).map (·.1))
      ((parseDiffGitPaths line).map (·.2)) }

def readPreHeader (s : DiffState) (line : Chars) : DiffState :=
  { s with currentPreFile := extractSourceFile line, currentPostFile := none }

def readPostHeader (s : DiffState) (line : Chars) : DiffState :=
  { s with currentPostFile := extractTargetFile line }

/-- A header line, or a line that says nothing. -/
def readHeader (s : DiffState) (line : Chars) : DiffState :=
  if diffGit.isPrefixOf line then s.readDiffGit line
  else if isDiffPreImageHeader line then s.readPreHeader line
  else if isDiffPostImageHeader line then s.readPostHeader line
  else s

def leaveHunk (s : DiffState) : DiffState :=
  { s.flushHunk with inHunk := false, hunkHasBody := false }

/-- Both sides of the hunk are read. -/
def done (s : DiffState) : Bool :=
  s.hunkPostTarget ≤ s.hunkPostConsumed && s.hunkPreTarget ≤ s.hunkPreConsumed

def endIfDone (s : DiffState) : DiffState :=
  if s.done then { s.flushHunk with inHunk := false } else s

/-- A line lengthens the last range when it follows on it. -/
def pushRange (ranges : List (ℕ × ℕ)) (line : ℕ) : List (ℕ × ℕ) :=
  match ranges.getLast? with
  | some (a, b) =>
    if usizeAdd b 1 = line then ranges.dropLast ++ [(a, line)] else ranges ++ [(line, line)]
  | none => [(line, line)]

def readAdded (s : DiffState) : DiffState :=
  { s with
    hunkHasBody := true
    hunkPostConsumed := usizeAdd s.hunkPostConsumed 1
    hunkAddedRanges := pushRange s.hunkAddedRanges (s.currentPostLine - 1)
    currentPostLine := usizeAdd s.currentPostLine 1 }

def readContext (s : DiffState) : DiffState :=
  { s with
    hunkHasBody := true
    hunkPreConsumed := usizeAdd s.hunkPreConsumed 1
    hunkPostConsumed := usizeAdd s.hunkPostConsumed 1
    currentPreLine := usizeAdd s.currentPreLine 1
    currentPostLine := usizeAdd s.currentPostLine 1 }

def readDeleted (s : DiffState) (text : Chars) : DiffState :=
  { s with
    hunkHasBody := true
    hunkPreConsumed := usizeAdd s.hunkPreConsumed 1
    hunkDeletedRanges := pushRange s.hunkDeletedRanges (s.currentPreLine - 1)
    hunkDeletedLines := s.hunkDeletedLines ++ [(s.currentPreLine - 1, text)]
    currentPreLine := usizeAdd s.currentPreLine 1 }

section Step

variable (digit : RegexDigit)

def stepInHunk (s : DiffState) (line : Chars) : DiffState :=
  if ['@', '@'].isPrefixOf line then
    match chunkCaptures digit line with
    | some h => s.flushHunk.openHunk h
    | none => { s.flushHunk with inHunk := false }
  else if diffGit.isPrefixOf line then
    { s.flushHunk.readDiffGit line with inHunk := false, hunkHasBody := false }
  else if s.hunkPreTarget ≤ s.hunkPreConsumed && isDiffPreImageHeader line then
    s.leaveHunk.readPreHeader line
  else if s.hunkPostTarget ≤ s.hunkPostConsumed && isDiffPostImageHeader line then
    s.leaveHunk.readPostHeader line
  else
    match line with
    | '+' :: _ => s.readAdded.endIfDone
    | [] => s.readContext.endIfDone
    | ' ' :: _ => s.readContext.endIfDone
    | '-' :: text => (s.readDeleted text).endIfDone
    -- `\ No newline at end of file`
    | '\\' :: _ => s
    | _ => s.leaveHunk.readHeader line

def stepOutside (s : DiffState) (line : Chars) : DiffState :=
  if diffGit.isPrefixOf line || isDiffPreImageHeader line || isDiffPostImageHeader line then
    s.readHeader line
  else if ['@', '@'].isPrefixOf line then
    match chunkCaptures digit line with
    | some h => s.openHunk h
    | none => s
  else s

def step (s : DiffState) (line : Chars) : DiffState :=
  if s.inHunk then s.stepInHunk digit line else s.stepOutside digit line

end Step

end DiffState

def parseTwoSidedDiff (digit : RegexDigit) (diff : String) : ParsedDiff :=
  ((linesOf diff.toList).foldl (DiffState.step digit) .init).flushHunk.parsed

end Sashiko
