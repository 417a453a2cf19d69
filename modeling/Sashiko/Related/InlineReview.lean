import Mathlib.Algebra.Group.Nat.Defs
import Sashiko.Diff.Snippet
import Sashiko.Lib.Lines
import Sashiko.Lib.Tokens

/-! The inline review of a patch: comments under quoted hunks, one placeholder for each related
pre-existing bug, and taking a comment out again. -/

namespace Sashiko

/-! ### Placeholders -/

theorem containsChars_iff {cs p : Chars} : containsChars cs p = true ↔ p <:+: cs := by
  constructor
  · intro h
    obtain ⟨tail, htail, hpre⟩ := List.any_eq_true.mp h
    exact (List.isPrefixOf_iff_prefix.mp hpre).isInfix.trans
      ((List.mem_tails _ _).mp htail).isInfix
  · rintro ⟨before, after, rfl⟩
    refine List.any_eq_true.mpr ⟨p ++ after, (List.mem_tails _ _).mpr ⟨before, ?_⟩, ?_⟩
    · exact (List.append_assoc _ _ _).symm
    · exact List.isPrefixOf_iff_prefix.mpr (List.prefix_append p after)

def bugRefPlaceholder (idx : ℕ) : Chars :=
  if idx = 0 then "[BUG_REF]".toList
  else "[BUG_REF:".toList ++ (toString (idx + 1)).toList ++ [']']

def stripSpecificPlaceholder (text placeholder : Chars) : Chars :=
  replaceChars placeholder [] 0
    (replaceChars (placeholder ++ [' ']) [] 0 (replaceChars (' ' :: placeholder) [] 0 text))

/-! ### Lines -/

def isQuoteOrSnip (line : Chars) : Bool :=
  (trimChars line).head? = some '>' || trimChars line = "[ ... ]".toList

def isSeverityLine (line : Chars) : Bool :=
  "[Severity:".toList.isPrefixOf (trimChars line) && (trimChars line).getLast? = some ']'

def popBlank (lines : List Chars) : List Chars := lines.rdropWhile isBlank

/-! ### Footnotes -/

def isAsciiWhitespace (c : Char) : Bool := [9, 10, 12, 13, 32].contains c.toNat

/-- The digits parse into a `usize`. -/
def parseFootnoteDefinitionLine (line : Chars) : Option ℕ := do
  let rest ← stripChars? ['['] (trimChars line)
  let (digits, afterBracket) ← splitOnce ']' rest
  if digits = [] ∨ !digits.all Char.isDigit then none
  else
    let num := Nat.ofDigitChars 10 digits 0
    let url := trimStart afterBracket
    if num = 0 ∨ 2 ^ 64 ≤ num then none
    else if ("http://".toList.isPrefixOf url || "https://".toList.isPrefixOf url) &&
        !url.any isAsciiWhitespace then some num
    else none

/-- What the loop over the lines has found: the definitions, the index of the first one, and the
largest number. -/
structure FootnoteScan where
  footnotes : List Chars
  footnoteStart : ℕ
  maxRef : ℕ
  deriving DecidableEq, Repr

/-- The loop, over the lines from the last one up. -/
def scanFootnotes : List Chars → FootnoteScan → FootnoteScan
  | [], acc => acc
  | line :: above, acc =>
    if isBlank line then
      if acc.footnotes ≠ [] then acc else scanFootnotes above acc
    else
      match parseFootnoteDefinitionLine line with
      | some n => scanFootnotes above
          ⟨trimChars line :: acc.footnotes, above.length, max acc.maxRef n⟩
      | none => acc

/-- The body, the footnotes, and the next number. -/
def splitInlineReviewFootnotes (inlineReview : Chars) : Chars × List Chars × ℕ :=
  let trimmed := trimEnd inlineReview
  if trimmed = [] then ([], [], 1)
  else
    let lines := linesOf trimmed
    let found := scanFootnotes lines.reverse ⟨[], lines.length, 0⟩
    if found.footnotes = [] then (trimmed, [], 1)
    else
      -- the text up to the line: the lines before it, each with its line break
      let before := (splitChars '\n' trimmed).take found.footnoteStart
      (trimEnd (before.flatMap (· ++ ['\n'])), found.footnotes, found.maxRef + 1)

/-! ### Comment units -/

structure CommentUnit where
  quoteLines : List Chars
  commentLines : List Chars
  deriving DecidableEq, Repr

/-- The variables of the loop that collects the units. -/
structure UnitScan where
  units : List CommentUnit
  curQuote : List Chars
  curComment : List Chars
  inComment : Bool
  deriving DecidableEq, Repr

def UnitScan.init : UnitScan := ⟨[], [], [], false⟩

def UnitScan.pushUnit (s : UnitScan) : UnitScan :=
  { s with units := s.units ++ [⟨s.curQuote, popBlank s.curComment⟩],
           curQuote := [], curComment := [] }

def scanLine (s : UnitScan) (line : Chars) : UnitScan :=
  if !s.inComment then
    if isQuoteOrSnip line || isBlank line then { s with curQuote := s.curQuote ++ [line] }
    else { s with curQuote := popBlank s.curQuote, inComment := true,
                  curComment := s.curComment ++ [line] }
  else if isQuoteOrSnip line then { s.pushUnit with inComment := false, curQuote := [line] }
  else if isSeverityLine line then { s.pushUnit with curComment := [line] }
  else { s with curComment := s.curComment ++ [line] }

def UnitScan.finish (s : UnitScan) : List CommentUnit :=
  if s.curComment ≠ [] then s.pushUnit.units else s.units

def commentUnits (lines : List Chars) : List CommentUnit :=
  (lines.foldl scanLine UnitScan.init).finish

/-! ### File headers -/

def unquoted (line : Chars) : Chars :=
  trimStart ((stripChars? ['>'] (trimStart line)).getD line)

def startsFileHeader (line : Chars) : Bool := diffGit.isPrefixOf (unquoted line)

def fileHeaderKeywords : List Chars :=
  ["index ", "--- ", "+++ ", "new file ", "deleted file ", "similarity index ", "rename "].map
    String.toList

def continuesFileHeader (line : Chars) : Bool :=
  fileHeaderKeywords.any fun keyword => keyword.isPrefixOf (unquoted line)

/-- The loop of `extract_file_header`, with `seen_diff`. -/
def extractFrom : Bool → List Chars → List Chars
  | _, [] => []
  | seenDiff, line :: lines =>
    if startsFileHeader line then line :: extractFrom true lines
    else if seenDiff && continuesFileHeader line then line :: extractFrom true lines
    else if seenDiff then []
    else extractFrom false lines

def extractFileHeader (quotes : List Chars) : List Chars := extractFrom false quotes

def hasFileHeader (quotes : List Chars) : Bool := quotes.any startsFileHeader

/-! ### Taking a comment out -/

structure Carry where
  quote : List Chars
  fileHeader : List Chars
  deriving DecidableEq, Repr

def Carry.empty : Carry := ⟨[], []⟩

def unitMatches (placeholder : Chars) (quote comment : List Chars) : Bool :=
  comment.any (containsChars · placeholder) || quote.any (containsChars · placeholder)

/-- The units that stay, each with what it takes over from the dropped ones before it. -/
def keepUnits (placeholder : Chars) : Carry → List CommentUnit → List CommentUnit
  | _, [] => []
  | carry, unit :: units =>
    let q := unit.quoteLines.dropWhile isBlank
    let c := unit.commentLines
    if unitMatches placeholder q c then
      if q ≠ [] then
        let fh := extractFileHeader q
        keepUnits placeholder ⟨q, if fh ≠ [] then fh else carry.fileHeader⟩ units
      else keepUnits placeholder carry units
    else if q = [] ∧ carry.quote ≠ [] then
      ⟨carry.quote, c⟩ :: keepUnits placeholder Carry.empty units
    else if hasFileHeader q then ⟨q, c⟩ :: keepUnits placeholder Carry.empty units
    else if carry.fileHeader ≠ [] then
      ⟨carry.fileHeader ++ [] :: q, c⟩ :: keepUnits placeholder Carry.empty units
    else ⟨q, c⟩ :: keepUnits placeholder Carry.empty units

/-- The text of the header, the units and the footnotes, a blank line between two of them. -/
def inlineText (header : List Chars) (units : List CommentUnit) (footnotes : List Chars) : Chars :=
  let parts := header :: units.flatMap (fun u => [u.quoteLines, u.commentLines]) ++ [footnotes]
  ['\n', '\n'].intercalate ((parts.filter (· ≠ [])).map joinLinesWith)

def noIssuesFound : Chars := "No issues found.".toList

def removeInlineCommentWithPlaceholder (inlineReview placeholder : Chars) : Chars :=
  if !containsChars inlineReview placeholder then inlineReview
  else
    let (rawBody, rawFootnotes, _) := splitInlineReviewFootnotes inlineReview
    let allLines := linesOf rawBody
    match allLines.findIdx? fun l => isQuoteOrSnip l || isSeverityLine l with
    | none => stripSpecificPlaceholder inlineReview placeholder
    | some firstQuoteIdx =>
      let headerLines := popBlank (allLines.take firstQuoteIdx)
      let units := commentUnits (allLines.drop firstQuoteIdx)
      let keptUnits := keepUnits placeholder Carry.empty units
      if keptUnits = [] then noIssuesFound else inlineText headerLines keptUnits rawFootnotes

end Sashiko
