import Sashiko.Diff.Parse
import Sashiko.Lib.Runs

/-! File changes, the text git writes for them, and the lines they change. -/

namespace Sashiko

/-! ### Hunks -/

inductive LineKind where
  | context
  | deleted
  | added
  deriving DecidableEq, Repr

def LineKind.mark : LineKind → Char
  | context => ' '
  | deleted => '-'
  | added => '+'

/-- A line of a hunk, with the marker of a missing newline behind it or not. -/
structure BodyLine where
  kind : LineKind
  text : Chars
  noNewline : Bool
  clean : '\n' ∉ text

/-! What the lines of the samples are made of. -/

theorem newline_not_mem_nil : '\n' ∉ ([] : Chars) := List.not_mem_nil

theorem newline_not_mem_x : '\n' ∉ ['x'] := by decide

theorem newline_not_mem_y : '\n' ∉ ['y'] := by decide

def preCount (body : List BodyLine) : ℕ := body.countP (·.kind ≠ .added)

def postCount (body : List BodyLine) : ℕ := body.countP (·.kind ≠ .deleted)

/-- A hunk behind `preIndex` lines of the old file and `postIndex` lines of the new one. -/
structure Hunk where
  preIndex : ℕ
  postIndex : ℕ
  heading : Chars
  body : List BodyLine
  heading_clean : '\n' ∉ heading
  body_ne_nil : body ≠ []
  pre_fits : preIndex + preCount body < usizeMax
  post_fits : postIndex + postCount body < usizeMax

/-- The deleted lines, by their places in the old file. -/
def deletedFrom : ℕ → List BodyLine → List (ℕ × Chars)
  | _, [] => []
  | i, line :: rest =>
    match line.kind with
    | .context => deletedFrom (i + 1) rest
    | .deleted => (i, line.text) :: deletedFrom (i + 1) rest
    | .added => deletedFrom i rest

/-- The places of the added lines in the new file. -/
def addedFrom : ℕ → List BodyLine → List ℕ
  | _, [] => []
  | j, line :: rest =>
    match line.kind with
    | .context => addedFrom (j + 1) rest
    | .deleted => addedFrom j rest
    | .added => j :: addedFrom (j + 1) rest

namespace Hunk

def deletedLines (h : Hunk) : List (ℕ × Chars) := deletedFrom h.preIndex h.body

def preRuns (h : Hunk) : List (ℕ × ℕ) := maximalRuns (h.deletedLines.map (·.1))

def postRuns (h : Hunk) : List (ℕ × ℕ) := maximalRuns (addedFrom h.postIndex h.body)

end Hunk

/-! ### Files -/

structure GitPath where
  chars : Chars
  ne_nil : chars ≠ []
  unquoted : IsUnquoted chars

inductive ChangedNames where
  | modified (path : GitPath)
  | created (path : GitPath)
  | deleted (path : GitPath)
  | renamed (old new : GitPath) (moved : old.chars ≠ new.chars)

namespace ChangedNames

/-- The names in the `diff --git` line. -/
def old : ChangedNames → GitPath
  | modified path | created path | deleted path => path
  | renamed old _ _ => old

def new : ChangedNames → GitPath
  | modified path | created path | deleted path => path
  | renamed _ new _ => new

/-- The file before the change. -/
def pre : ChangedNames → Option GitPath
  | created _ => none
  | names => some names.old

/-- The file after the change. -/
def post : ChangedNames → Option GitPath
  | deleted _ => none
  | names => some names.new

def isRename : ChangedNames → Bool
  | renamed _ _ _ => true
  | _ => false

end ChangedNames

/-- What a line between `diff --git` and `---` starts with. -/
def extendedKeywords : List Chars :=
  ["old mode ".toList, "new mode ".toList, "deleted file mode ".toList, "new file mode ".toList,
    "copy from ".toList, "copy to ".toList, "rename from ".toList, "rename to ".toList,
    "similarity index ".toList, "dissimilarity index ".toList, "index ".toList]

structure ExtendedHeader where
  keyword : Chars
  rest : Chars
  known : keyword ∈ extendedKeywords
  clean : '\n' ∉ rest

structure FileChange where
  names : ChangedNames
  extended : List ExtendedHeader
  hunks : List Hunk
  edited : names.isRename = true → hunks ≠ []

/-! ### The text -/

def tabFor (path : Chars) : Chars := if ' ' ∈ path then ['\t'] else []

def fileLine (mark side : Char) : Option GitPath → Chars
  | some path => mark :: mark :: mark :: ' ' :: side :: '/' :: (path.chars ++ tabFor path.chars)
  | none => mark :: mark :: mark :: ' ' :: devNull

def rangeText (start count : ℕ) : Chars :=
  if count = 1 then Nat.toDigits 10 start
  else Nat.toDigits 10 start ++ ',' :: Nat.toDigits 10 count

/-- An empty side is placed behind the line before it. -/
def startOf (index count : ℕ) : ℕ := if count = 0 then index else index + 1

def noNewlineMarker : Chars := "\\ No newline at end of file".toList

def BodyLine.lines (line : BodyLine) : List Chars :=
  (line.kind.mark :: line.text) :: if line.noNewline then [noNewlineMarker] else []

namespace Hunk

def headerText (h : Hunk) : Chars :=
  ['@', '@', ' ', '-'] ++ (rangeText (startOf h.preIndex (preCount h.body)) (preCount h.body) ++
    ([' ', '+'] ++ (rangeText (startOf h.postIndex (postCount h.body)) (postCount h.body) ++
      [' ', '@', '@'])))

def lines (h : Hunk) : List Chars :=
  (h.headerText ++ h.heading) :: h.body.flatMap BodyLine.lines

end Hunk

namespace FileChange

def gitLine (c : FileChange) : Chars := diffGit ++ gitNames c.names.old.chars c.names.new.chars

def editLines (c : FileChange) : List Chars :=
  if c.hunks.isEmpty then []
  else fileLine '-' 'a' c.names.pre :: fileLine '+' 'b' c.names.post ::
    c.hunks.flatMap Hunk.lines

def lines (c : FileChange) : List Chars :=
  c.gitLine :: (c.extended.map (fun e => e.keyword ++ e.rest) ++ c.editLines)

end FileChange

/-- The lines behind the `-- ` that closes a mail. -/
structure MailSignature where
  texts : List Chars
  clean : ∀ text ∈ texts, '\n' ∉ text
  quiet : ∀ text ∈ texts, ¬diffGit <+: text ∧ ¬['@', '@'] <+: text

def MailSignature.lines (s : MailSignature) : List Chars := ['-', '-', ' '] :: s.texts

def diffLines (changes : List FileChange) (signature : Option MailSignature) : List Chars :=
  changes.flatMap FileChange.lines ++ (signature.map MailSignature.lines).getD []

def renderDiff (changes : List FileChange) (signature : Option MailSignature) : String :=
  String.ofList ((diffLines changes signature).flatMap fun line => line ++ ['\n'])

/-! ### Reading the lines of the text back -/

theorem splitChars_line {line rest : Chars} (h : '\n' ∉ line) :
    splitChars '\n' (line ++ '\n' :: rest) = line :: splitChars '\n' rest := by
  induction line with
  | nil => rw [List.nil_append, splitChars, if_pos rfl]
  | cons c line ih =>
    rw [List.mem_cons, not_or] at h
    rw [List.cons_append, splitChars, if_neg fun heq => h.1 heq.symm, ih h.2]

theorem linesOf_lines (lines : List Chars) (h : ∀ line ∈ lines, '\n' ∉ line) :
    linesOf (lines.flatMap fun line => line ++ ['\n']) = lines.map dropReturn := by
  have hsplit : splitChars '\n' (lines.flatMap fun line => line ++ ['\n']) = lines ++ [[]] := by
    induction lines with
    | nil => rfl
    | cons line lines ih =>
      rw [List.flatMap_cons, List.append_assoc, List.singleton_append,
        splitChars_line (h line List.mem_cons_self),
        ih fun l hl => h l (List.mem_cons_of_mem _ hl), List.cons_append]
  rw [linesOf, hsplit]
  simp

theorem dropReturn_append {pre text : Chars} (h : pre.getLast? ≠ some '\r') :
    dropReturn (pre ++ text) = pre ++ dropReturn text := by
  unfold dropReturn
  cases text with
  | nil => simp [h]
  | cons c text =>
    have hlast : (pre ++ c :: text).getLast? = (c :: text).getLast? :=
      List.getLast?_append_of_ne_nil _ (List.cons_ne_nil _ _)
    rw [hlast]
    split_ifs
    · rw [List.dropLast_append_of_ne_nil (List.cons_ne_nil _ _)]
    · rfl

end Sashiko
