import Mathlib.Data.List.Sort
import Mathlib.Data.List.MinMax
import Sashiko.Diff.Paths
import Sashiko.Lib.Fallible

/-! Looking for a snippet among the lines of a file, or among the deleted lines of a diff. An
index that the code computes is checked; its loops run over the lines themselves. -/

namespace Sashiko

inductive Fault where
  | indexOutOfBounds
  deriving DecidableEq, Repr

abbrev Checked := Except Fault

section Indices

variable {α : Type}

/-- `xs[i]` -/
def itemAt (xs : List α) (i : ℕ) : Checked α :=
  match xs[i]? with
  | some x => .ok x
  | none => .error .indexOutOfBounds

/-- `xs[first..last]` -/
def sliceAt (xs : List α) (first last : ℕ) : Checked (List α) :=
  if first ≤ last ∧ last ≤ xs.length then .ok ((xs.take last).drop first)
  else .error .indexOutOfBounds

/-- The first that is there. -/
def orTry (x y : Checked (Option α)) : Checked (Option α) :=
  x >>= fun
    | some a => .ok (some a)
    | none => y

end Indices

/-- `str::contains` -/
def containsChars (cs part : Chars) : Bool := cs.tails.any part.isPrefixOf

def isBlank (line : Chars) : Bool := (trimChars line).isEmpty

theorem isBlank_iff {line : Chars} :
    isBlank line = true ↔ ∀ c ∈ line, isRustWhitespace c = true := by
  rw [isBlank, List.isEmpty_iff]
  constructor
  · intro h c hc
    by_contra hspace
    have hmem := mem_trimChars hc (by simpa using hspace)
    rw [h] at hmem
    cases hmem
  · intro h
    rw [trimChars, List.dropWhile_eq_nil_iff.mpr h, List.rdropWhile_nil]

def absDiff (a b : ℕ) : ℕ := (a - b) + (b - a)

/-! ### Snippets -/

def startTrim (raw : List Chars) : ℕ := raw.findIdx fun line => !isBlank line

def endTrim (raw : List Chars) : ℕ := raw.length - raw.reverse.findIdx fun line => !isBlank line

def parseSnippetLines (snippet : Chars) : Checked (Option (List Chars)) :=
  if endTrim (linesOf snippet) ≤ startTrim (linesOf snippet) then .ok none
  else (sliceAt (linesOf snippet) (startTrim (linesOf snippet)) (endTrim (linesOf snippet))).map
    fun lines => some (lines.map trimChars)

/-! ### Choosing among candidates -/

section Picking

variable {α : Type} (start : α → ℕ) (meets : α → ℕ × ℕ → Bool)

/-- `min_by_key`: the first of those closest to the line. -/
def nearest (line : ℕ) (candidates : List α) : Option α :=
  candidates.argmin fun c => absDiff (start c + 1) line

def inDiffCandidates (ranges : Option (List (ℕ × ℕ))) (candidates : List α) : List α :=
  match ranges with
  | some diff => candidates.filter fun c => diff.any (meets c)
  | none => []

def pickFromDiff (inDiff : List α) (symbolLine : Option ℕ) : Checked (Option α) :=
  if inDiff.length = 1 then (itemAt inDiff 0).map some
  else
    match symbolLine with
    | some line => .ok (nearest start line inDiff)
    | none => (itemAt inDiff 0).map some

/-- The hint decides if there is one; else the diff, then the symbol, then the order. -/
def pickClosest (candidates : List α) (hintLine : Option ℕ) (ranges : Option (List (ℕ × ℕ)))
    (symbolLine : Option ℕ) : Checked (Option α) :=
  if candidates.isEmpty then .ok none
  else
    match hintLine with
    | some hint => .ok (nearest start hint candidates)
    | none =>
      if 0 < (inDiffCandidates meets ranges candidates).length then
        pickFromDiff start (inDiffCandidates meets ranges candidates) symbolLine
      else
        match symbolLine with
        | some line => .ok (nearest start line candidates)
        | none => .ok candidates.head?

end Picking

def pickClosestCandidate : List (ℕ × ℕ) → Option ℕ → Option (List (ℕ × ℕ)) → Option ℕ →
    Checked (Option (ℕ × ℕ)) :=
  pickClosest (·.1) fun c range => c.1 ≤ range.2 && range.1 ≤ c.2

def pickClosestLine : List ℕ → Option ℕ → Option (List (ℕ × ℕ)) → Option ℕ →
    Checked (Option ℕ) :=
  pickClosest id fun line range => range.1 ≤ line && line ≤ range.2

/-! ### Among the lines of a file -/

/-- The lines are matched in order, blank lines on either side apart; the last match is kept. -/
def matchFrom : List Chars → List Chars → ℕ → ℕ → Option ℕ
  | [], snip, _, last => if snip.all (·.isEmpty) then some last else none
  | f :: file, snip, i, last =>
    match snip.dropWhile (·.isEmpty) with
    | [] => some last
    | s :: rest =>
      if isBlank f then matchFrom file (s :: rest) (i + 1) last
      else if trimChars f = s then matchFrom file rest (i + 1) i
      else none

def matchSnippetSubsequence (file snip : List Chars) (start : ℕ) : Option ℕ :=
  matchFrom (file.drop start) snip start start

def exactCandidates (file snip : List Chars) (first : Chars) : List (ℕ × ℕ) :=
  file.zipIdx.filterMap fun p =>
    if trimChars p.1 = first then (matchSnippetSubsequence file snip p.2).map (p.2, ·) else none

def findSnippetInLinesExact (file : List Chars) (snippet : Chars) (hintLine : Option ℕ)
    (ranges : Option (List (ℕ × ℕ))) (symbolLine : Option ℕ) : Checked (Option (ℕ × ℕ)) :=
  if file.isEmpty then .ok none
  else
    parseSnippetLines snippet >>= fun
      | none => .ok none
      | some snip =>
        match snip.find? (!·.isEmpty) with
        | none => .ok none
        | some first =>
          pickClosestCandidate (exactCandidates file snip first) hintLine ranges symbolLine

/-- The longest lines first, each with its place in the snippet. -/
def candidateLines (snip : List Chars) : List (Chars × ℕ) :=
  (snip.zipIdx.filter (4 ≤ ·.1.length)).insertionSort fun p q => q.1.length ≤ p.1.length

/-- A line is the candidate, or holds it where it is long enough. -/
def holdsCandidate (cand line : Chars) : Bool :=
  trimChars line = cand || (8 ≤ cand.length && containsChars (trimChars line) cand)

def matchingLines (file : List Chars) (cand : Chars) : List ℕ :=
  file.zipIdx.filterMap fun p => if holdsCandidate cand p.1 then some p.2 else none

/-- The next line above that is not blank, if it is the one looked for; what stands above it. -/
def nextAbove (raw : Chars) : List Chars → Option (List Chars)
  | [] => none
  | f :: above =>
    if isBlank f then nextAbove raw above else if trimChars f = raw then some above else none

def expandBackwards : List Chars → List Chars → ℕ → ℕ
  | [], _, start => start
  | raw :: raws, above, start =>
    if raw.isEmpty then expandBackwards raws above start
    else
      match nextAbove raw above with
      | some above => expandBackwards raws above above.length
      | none => start

def nextBelow (raw : Chars) : ℕ → List Chars → Option (ℕ × List Chars)
  | _, [] => none
  | i, f :: below =>
    if isBlank f then nextBelow raw (i + 1) below
    else if trimChars f = raw then some (i, below) else none

def expandForwards : List Chars → List Chars → ℕ → ℕ
  | [], _, last => last
  | raw :: raws, below, last =>
    if raw.isEmpty then expandForwards raws below last
    else
      match nextBelow raw (last + 1) below with
      | some (i, below) => expandForwards raws below i
      | none => last

def expandAround (file snip : List Chars) (candIdx best : ℕ) : Checked (ℕ × ℕ) := do
  let before ← sliceAt snip 0 candIdx
  let after ← sliceAt snip (candIdx + 1) snip.length
  return (expandBackwards before.reverse (file.take best).reverse best,
    expandForwards after (file.drop (best + 1)) best)

def fallbackFrom (file snip : List Chars) (hintLine : Option ℕ)
    (ranges : Option (List (ℕ × ℕ))) (symbolLine : Option ℕ) :
    List (Chars × ℕ) → Checked (Option (ℕ × ℕ))
  | [] => .ok none
  | (cand, candIdx) :: rest =>
    pickClosestLine (matchingLines file cand) hintLine ranges symbolLine >>= fun
      | some best => (expandAround file snip candIdx best).map some
      | none => fallbackFrom file snip hintLine ranges symbolLine rest

def findSnippetInLinesFallback (file : List Chars) (snippet : Chars) (hintLine : Option ℕ)
    (ranges : Option (List (ℕ × ℕ))) (symbolLine : Option ℕ) : Checked (Option (ℕ × ℕ)) :=
  if file.isEmpty then .ok none
  else
    parseSnippetLines snippet >>= fun
      | none => .ok none
      | some snip => fallbackFrom file snip hintLine ranges symbolLine (candidateLines snip)

/-! ### Among deleted lines -/

abbrev DeletedLines := List (ℕ × Chars)

/-- The next deleted line that is not blank, if no other line lies between and it is the one
looked for. -/
def nextDeleted (snip : Chars) : ℕ → DeletedLines → Option (ℕ × DeletedLines)
  | _, [] => none
  | last, (next, text) :: rest =>
    if next ≠ last + 1 then none
    else if isBlank text then nextDeleted snip next rest
    else if trimChars text = snip then some (next, rest) else none

def matchDeleted : List Chars → ℕ → DeletedLines → Option ℕ
  | [], last, _ => some last
  | snip :: snips, last, rest =>
    (nextDeleted snip last rest).bind fun p => matchDeleted snips p.1 p.2

def deletedCandidates (first : Chars) (snips : List Chars) : DeletedLines → List (ℕ × ℕ)
  | [] => []
  | (line, text) :: rest =>
    (if trimChars text = first then ((matchDeleted snips line rest).map (line, ·)).toList else [])
      ++ deletedCandidates first snips rest

/-- The one closest to the hint, else the first. -/
def pickDeleted (candidates : List (ℕ × ℕ)) (hintLine : Option ℕ) : Option (ℕ × ℕ) :=
  match hintLine with
  | some hint => nearest (·.1) hint candidates
  | none => candidates.head?

def findSnippetInDeletedLinesExact (deleted : DeletedLines) (snippet : Chars)
    (hintLine : Option ℕ) : Checked (Option (ℕ × ℕ)) :=
  if deleted.isEmpty then .ok none
  else
    parseSnippetLines snippet >>= fun
      | none => .ok none
      | some snip =>
        match snip.filter (!·.isEmpty) with
        | [] => .ok none
        | first :: snips => .ok (pickDeleted (deletedCandidates first snips deleted) hintLine)

def deletedCandidateLines (snip : List Chars) : List Chars :=
  ((snip.filter (4 ≤ ·.length)).insertionSort fun p q => q.length ≤ p.length).destutter (· ≠ ·)

def matchingDeleted (deleted : DeletedLines) (cand : Chars) : List (ℕ × ℕ) :=
  deleted.filterMap fun p => if holdsCandidate cand p.2 then some (p.1, p.1) else none

def findSnippetInDeletedLinesFallback (deleted : DeletedLines) (snippet : Chars)
    (hintLine : Option ℕ) : Checked (Option (ℕ × ℕ)) :=
  if deleted.isEmpty then .ok none
  else
    (parseSnippetLines snippet).map fun snip => snip.bind fun snip =>
      (deletedCandidateLines snip).findSome? fun cand =>
        pickDeleted (matchingDeleted deleted cand) hintLine

end Sashiko
