import Sashiko.Diff.Git
import Sashiko.Lib.Lines
import Sashiko.Toolbox.GrepHunk

/-! `format_git_grep_output`: the output of `git grep`, grouped by file and cut down. -/

namespace Sashiko

/-! ### Reading a line -/

def isPathChar (c : Char) : Bool := c.isAlphanum || ['_', '.', '/', '-'].contains c

def isGrepSeparator (c : Char) : Bool := [':', '-', '='].contains c

/-- The groups of the pattern. -/
structure GrepCaptures where
  path : Chars
  sep1 : Char
  lineNum : Chars
  sep2 : Char
  content : Chars
  deriving DecidableEq, Repr

/-- The pattern behind a path of the length. -/
def capturesAfter (line : Chars) (length : ℕ) : Option GrepCaptures :=
  match line.drop length with
  | [] => none
  | sep1 :: rest =>
    match rest.dropWhile Char.isDigit with
    | [] => none
    | sep2 :: content =>
      if isGrepSeparator sep1 ∧ rest.takeWhile Char.isDigit ≠ [] ∧ isGrepSeparator sep2 then
        some ⟨line.take length, sep1, rest.takeWhile Char.isDigit, sep2, content⟩
      else none

/-- `get_grep_regex` on a line: the path is as long as it can be. -/
def grepCaptures (line : Chars) : Option GrepCaptures :=
  (List.range (line.takeWhile isPathChar).length).reverse.findSome? fun n =>
    capturesAfter line (n + 1)

def stripRevision (revision line : Chars) : Chars :=
  if (revision ++ [':']).isPrefixOf line then line.drop (revision.length + 1) else line

/-! ### Grouping by file -/

structure FileGrepBlock where
  hunks : List (List GrepLine)
  matchCount : ℕ
  deriving DecidableEq, Repr

namespace FileGrepBlock

def empty : FileGrepBlock := ⟨[], 0⟩

/-- A line at the end of the current hunk, which is a new one if there is none. -/
def push (block : FileGrepBlock) (line : GrepLine) : FileGrepBlock :=
  { block with
    hunks := match block.hunks.getLast? with
      | some hunk => block.hunks.dropLast ++ [hunk ++ [line]]
      | none => [[line]] }

def countMatch (block : FileGrepBlock) (isMatch : Bool) : FileGrepBlock :=
  { block with matchCount := block.matchCount + if isMatch then 1 else 0 }

def splitHunk (block : FileGrepBlock) : FileGrepBlock :=
  { block with
    hunks := if block.hunks.getLast?.any (· ≠ []) then block.hunks ++ [[]] else block.hunks }

end FileGrepBlock

/-- `grouped.entry(path).or_default()`, changed by `f`. -/
def updateEntry (f : FileGrepBlock → FileGrepBlock) (path : Chars) :
    List (Chars × FileGrepBlock) → List (Chars × FileGrepBlock)
  | [] => [(path, f .empty)]
  | entry :: grouped =>
    if entry.1 = path then (path, f entry.2) :: grouped else entry :: updateEntry f path grouped

structure GrepState where
  grouped : List (Chars × FileGrepBlock)
  currentFile : Option Chars
  deriving DecidableEq, Repr

namespace GrepState

def splitCurrent (s : GrepState) : GrepState :=
  match s.currentFile with
  | some path =>
    { s with grouped := s.grouped.map fun e => if e.1 = path then (e.1, e.2.splitHunk) else e }
  | none => s

/-- A line that the pattern does not read goes as it is to the current file. -/
def pushRaw (s : GrepState) (line : Chars) : GrepState :=
  match s.currentFile with
  | some path => { s with grouped := updateEntry (·.push ⟨false, line⟩) path s.grouped }
  | none => s

end GrepState

namespace GrepCaptures

def isMatch (caps : GrepCaptures) : Bool := caps.sep1 = ':'

def isAnchor (caps : GrepCaptures) : Bool := caps.isMatch || caps.sep1 = '='

def formattedLine (caps : GrepCaptures) : Chars :=
  ' ' :: ' ' :: caps.lineNum ++ caps.sep1 :: caps.content

def grepLine (caps : GrepCaptures) : GrepLine := ⟨caps.isAnchor, caps.formattedLine⟩

end GrepCaptures

namespace GrepState

def pushCaptures (s : GrepState) (caps : GrepCaptures) : GrepState where
  grouped := updateEntry (fun block => (block.countMatch caps.isMatch).push caps.grepLine)
    caps.path s.grouped
  currentFile := some caps.path

def step (revision : Chars) (s : GrepState) (line : Chars) : GrepState :=
  if line = ['-', '-'] then s.splitCurrent
  else
    let stripped := stripRevision revision line
    match grepCaptures stripped with
    | some caps => if caps.sep1 = caps.sep2 then s.pushCaptures caps else s.pushRaw stripped
    | none => s.pushRaw stripped

def run (revision : Chars) (lines : List Chars) : GrepState :=
  lines.foldl (step revision) ⟨[], none⟩

end GrepState

/-! ### Ranking -/

/-- Slashes, and slashes with a dot behind them, at the end of a path that is read backwards. -/
def trimSeparators : Chars → Chars
  | '.' :: '/' :: rest => trimSeparators ('/' :: rest)
  | '/' :: c :: rest => trimSeparators (c :: rest)
  | path => path

/-- `Path::parent` -/
def pathParent (path : Chars) : Option Chars :=
  match trimSeparators path.reverse with
  | [] => none
  | ['/'] => none
  | body => some (trimSeparators (body.dropWhile (· ≠ '/'))).reverse

def parentText (path : Chars) : Chars := (pathParent path).getD []

attribute [local instance] lawfulBEq_texts in
def priorityScore (path : Chars) (activeFiles : List Chars) : ℕ :=
  if activeFiles = [] then 4
  else if path ∈ activeFiles then 1
  else if parentText path ≠ [] ∧
      activeFiles.any fun f => parentText f ≠ [] && parentText path = parentText f then 2
  else if "include/".toList.isPrefixOf path then 3
  else 4

def ranksBefore (activeFiles : List Chars) (a b : Chars × FileGrepBlock) : Bool :=
  priorityScore a.1 activeFiles < priorityScore b.1 activeFiles ||
    (priorityScore a.1 activeFiles = priorityScore b.1 activeFiles && !charsLt b.1 a.1)

/-! ### The report -/

def decimalDigits (n : ℕ) : Chars := Nat.toDigits 10 n

def matchWord (count : ℕ) : Chars := if count = 1 then "match".toList else "matches".toList

def maxSummaryFiles : ℕ := 10

def fileSummary (entry : Chars × FileGrepBlock) : Chars :=
  entry.1 ++ " (".toList ++ decimalDigits (max entry.2.matchCount 1) ++ ' ' ::
    matchWord (max entry.2.matchCount 1) ++ [')']

def grepSummary (blocks : List (Chars × FileGrepBlock)) : Chars :=
  ", ".toList.intercalate ((blocks.take maxSummaryFiles).map fileSummary) ++
    if maxSummaryFiles < blocks.length then
      ", ... and ".toList ++ decimalDigits (blocks.length - maxSummaryFiles) ++ " more files".toList
    else []

def totalMatches (blocks : List (Chars × FileGrepBlock)) : ℕ :=
  (blocks.map fun e => max e.2.matchCount 1).sum

def grepHeader (blocks : List (Chars × FileGrepBlock)) : Chars :=
  if 0 < blocks.length then
    "Matches found across ".toList ++ decimalDigits blocks.length ++ ' ' ::
      (if blocks.length = 1 then "file".toList else "files".toList) ++ " (".toList ++
        decimalDigits (totalMatches blocks) ++ " total ".toList ++
          matchWord (totalMatches blocks) ++ "): ".toList ++ grepSummary blocks ++ ['\n', '\n']
  else []

/-- The hunks of a file, with a line between one and the next. -/
def renderHunks (hunks : List (List GrepLine)) : Chars :=
  "  --\n".toList.intercalate (hunks.map fun hunk => (capGrepHunk hunk).flatMap (· ++ ['\n']))

def renderBlock (entry : Chars × FileGrepBlock) : Chars :=
  "[file: ".toList ++ entry.1 ++ [']', '\n'] ++
    renderHunks (entry.2.hunks.filter (· ≠ [])) ++ ['\n']

def renderBlocks (blocks : List (Chars × FileGrepBlock)) : Chars :=
  grepHeader blocks ++ blocks.flatMap renderBlock

def formatGitGrepOutput (stdout revision : Chars) (activeFiles : List Chars) : Chars :=
  trimEnd (renderBlocks
    ((GrepState.run revision (linesOf stdout)).grouped.mergeSort (ranksBefore activeFiles)))

end Sashiko
