import Sashiko.Json
import Sashiko.Lib.Occurrences
import Sashiko.Lib.Saturating
import Sashiko.Related.InlineReview

/-! `align_related_preexisting_to_report_order`: the related bugs are put in the order in which the
report speaks of them, and their placeholders are renumbered through temporary markers. -/

namespace Sashiko

/-! ### The comment of a bug -/

def checkBlock (placeholder : Chars) (lines : List Chars) : Option Chars :=
  if lines.any (containsChars · placeholder) then
    let joined := trimChars (joinLinesWith (lines.dropWhile fun l => isBlank l || isSeverityLine l))
    if joined = [] then none
    else if placeholder ≠ bugRefPlaceholder 0 then
      some (replaceChars placeholder (bugRefPlaceholder 0) 0 joined)
    else some joined
  else none

/-- The loop over the lines, with the comment so far and whether it is within one. -/
def findComment (placeholder : Chars) : List Chars → Bool → List Chars → Option Chars
  | curComment, _, [] => checkBlock placeholder curComment
  | curComment, false, line :: lines =>
    if !isQuoteOrSnip line && !isBlank line then
      findComment placeholder (curComment ++ [line]) true lines
    else findComment placeholder curComment false lines
  | curComment, true, line :: lines =>
    if isQuoteOrSnip line then
      (checkBlock placeholder curComment).orElse fun _ => findComment placeholder [] false lines
    else if isSeverityLine line then
      (checkBlock placeholder curComment).orElse fun _ =>
        findComment placeholder [line] true lines
    else findComment placeholder (curComment ++ [line]) true lines

def extractInlineCommentWithPlaceholder (inlineReview placeholder : Chars) : Option Chars :=
  if containsChars inlineReview placeholder then
    let allLines := linesOf (splitInlineReviewFootnotes inlineReview).1
    match allLines.dropWhile fun l => !(isQuoteOrSnip l || isSeverityLine l) with
    | [] => none
    | lines => findComment placeholder [] false lines
  else none

/-! ### Aligning -/

def tmpMarker (newIdx : ℕ) : Chars :=
  "__SASHIKO_BUG_REF_TMP_".toList ++ (toString newIdx).toList ++ ['_', '_']

/-- Where a placeholder is found, and whose it is. Counted in characters the places have the same
order as in bytes. -/
def placeOf (report : Chars) (idx : ℕ) : ℕ × ℕ :=
  ((firstAt (bugRefPlaceholder idx) report).getD usizeMax, idx)

def placeLe (a b : ℕ × ℕ) : Bool := a.1 < b.1 || (a.1 = b.1 && a.2 ≤ b.2)

/-- The indices of the bugs in the order of the report. -/
def reportOrder (bugs : ℕ) (report : Chars) : List ℕ :=
  (((List.range bugs).map (placeOf report)).mergeSort placeLe).map (·.2)

/-- The first pass: each placeholder becomes the marker of its new index. -/
def markPlaceholders : ℕ → List ℕ → Chars → Chars
  | _, [], report => report
  | newIdx, oldIdx :: order, report =>
    markPlaceholders (newIdx + 1) order
      (replaceOnce (bugRefPlaceholder oldIdx) (tmpMarker newIdx) report)

/-- The second pass, from the marker `newIdx` on. -/
def unmarkPlaceholders : ℕ → ℕ → Chars → Chars
  | _, 0, report => report
  | newIdx, left + 1, report =>
    unmarkPlaceholders (newIdx + 1) left
      (replaceOnce (tmpMarker newIdx) (bugRefPlaceholder newIdx) report)

def renamePlaceholders (order : List ℕ) (report : Chars) : Chars :=
  unmarkPlaceholders 0 order.length (markPlaceholders 0 order report)

def fillReportText (report : Chars) (item : Json) (idx : ℕ) : Json :=
  match extractInlineCommentWithPlaceholder report (bugRefPlaceholder idx) with
  | some comment => item.insert "report_text" (.str (String.ofList comment))
  | none => item

def fillReportTexts (report : Chars) (related : List Json) : List Json :=
  related.zipIdx.map fun entry => fillReportText report entry.1 entry.2

def alignRelatedPreexistingToReportOrder (related : List Json) (report : Chars) :
    List Json × Chars :=
  let order := reportOrder related.length report
  if 2 ≤ related.length ∧ order ≠ List.range related.length then
    let renamed := renamePlaceholders order report
    (fillReportTexts renamed (order.map fun oldIdx => related.getD oldIdx .null), renamed)
  else (fillReportTexts report related, report)

/-! ### Placeholders and the text between them -/

/-- Each separator with the text behind it. -/
def joinParts (sep : ℕ → Chars) (parts : List (ℕ × Chars)) : Chars :=
  parts.flatMap fun part => sep part.1 ++ part.2

/-- The parts under the numbers from `first` on. -/
def renumberParts : ℕ → List (ℕ × Chars) → List (ℕ × Chars)
  | _, [] => []
  | first, part :: parts => (first, part.2) :: renumberParts (first + 1) parts

end Sashiko
