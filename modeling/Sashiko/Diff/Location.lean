import Sashiko.Diff.Parse
import Sashiko.Diff.Snippet
import Sashiko.Json

/-! `resolve_single_location_two_sided`: from the location a finding names to lines of the file or
of its parent. -/

namespace Sashiko

/-! ### Paths -/

/-- The components of a path that does not start with a slash. -/
def componentsOf (path : Chars) : List Chars :=
  (splitChars '/' path).filter fun c => c ≠ [] && c ≠ ['.']

def joinPath (parts : List Chars) : Chars := ['/'].intercalate parts

/-- No component leaves the tree or reads like an option. -/
def normalComponents (path : Chars) : Option (List Chars) :=
  if (componentsOf path).any (fun c => c = ['.', '.'] || c.head? = some '-') then none
  else if (componentsOf path).isEmpty then none
  else some (componentsOf path)

def normalizeFilePathWithWorktreeAndRev (fileExists : Chars → Bool) (path : Chars) :
    Option Chars :=
  (normalComponents ((trimChars path).dropWhile (· = '/'))).map fun parts =>
    if (bSlash.isPrefixOf (joinPath parts) || aSlash.isPrefixOf (joinPath parts)) &&
        1 < parts.length then
      if fileExists (joinPath parts) then joinPath parts
      -- whether the stripped path exists or not
      else joinPath parts.tail
    else joinPath parts

def normalizeFilePath (path : Chars) : Option Chars :=
  normalizeFilePathWithWorktreeAndRev (fun _ => false) path

/-! ### The text of a snippet -/

def trimStartChars (cs : Chars) : Chars := cs.dropWhile isRustWhitespace

def joinLines (lines : List Chars) : Chars := ['\n'].intercalate lines

/-- Without the marker, where one stands before the text. -/
def withoutMarker (marker : Char) (line : Chars) : Chars :=
  (stripChars? [marker] (trimStartChars line)).getD line

/-- The text without its markers, and whether they mark deleted lines. -/
def tryStripDiffMarkers (raw : Chars) : Option (Chars × Bool) :=
  match ((linesOf raw).map trimStartChars).filter (!·.isEmpty) with
  | [] => none
  | first :: rest =>
    if (first :: rest).all (·.head? = some '-') then
      some (joinLines ((linesOf raw).map (withoutMarker '-')), true)
    else if (first :: rest).all (·.head? = some '+') then
      some (joinLines ((linesOf raw).map (withoutMarker '+')), false)
    else none

inductive ParsedSnippetLine where
  | passthrough (text : Chars)
  | numbered (lineNo : ℕ) (sep : Char) (rest : Chars)
  deriving DecidableEq, Repr

def snippetElisions : List Chars :=
  ["...".toList, ['…'], "// ...".toList, "/* ... */".toList, ['-', '-']]

/-- What follows the number: a separator, and a text that does not carry it on. -/
def numberedRest (lineNo : ℕ) : Chars → Option ParsedSnippetLine
  | ':' :: rest => if rest.head? = some ':' then none else some (.numbered lineNo ':' rest)
  | '-' :: rest =>
    if rest.head?.any (['-', '>', '='].contains ·) then none
    else some (.numbered lineNo '-' rest)
  | '=' :: rest =>
    if rest.head?.any (['=', '>'].contains ·) then none else some (.numbered lineNo '=' rest)
  | _ => none

def parseNumberedToolLine (line : Chars) : Option ParsedSnippetLine :=
  if (trimStartChars line).isEmpty then some (.passthrough [])
  else if snippetElisions.contains (trimStartChars line) then
    some (.passthrough (trimStartChars line))
  else if "... [".toList.isPrefixOf (trimStartChars line) &&
      "] ...".toList.isSuffixOf (trimStartChars line) then
    some (.passthrough "...".toList)
  else if ((trimStartChars line).takeWhile Char.isDigit).length ∉ [1, 2, 3, 4, 5, 6, 7] then none
  else if Nat.ofDigitChars 10 ((trimStartChars line).takeWhile Char.isDigit) 0 = 0 then none
  else numberedRest (Nat.ofDigitChars 10 ((trimStartChars line).takeWhile Char.isDigit) 0)
    ((trimStartChars line).dropWhile Char.isDigit)

/-- Every line is read, and the numbers rise. -/
def parseToolLines : Option ℕ → List Chars → Option (List ParsedSnippetLine)
  | _, [] => some []
  | prev, line :: lines =>
    (parseNumberedToolLine line).bind fun
      | .passthrough text => (parseToolLines prev lines).map (.passthrough text :: ·)
      | .numbered lineNo sep rest =>
        if prev.any (lineNo ≤ ·) then none
        else (parseToolLines (some lineNo) lines).map (.numbered lineNo sep rest :: ·)

def isNumbered : ParsedSnippetLine → Bool
  | .passthrough _ => false
  | .numbered _ _ _ => true

def hasContextSep : ParsedSnippetLine → Bool
  | .passthrough _ => false
  | .numbered _ sep _ => sep ≠ ':'

def lineText (grepContext : Bool) : ParsedSnippetLine → Chars
  | .passthrough text => text
  | .numbered _ sep rest =>
    if sep = ':' && !grepContext then (stripChars? [' '] rest).getD rest else rest

def stripToolLineNumbers (raw : Chars) : Option Chars :=
  (parseToolLines none (linesOf raw)).bind fun parsed =>
    if parsed.any isNumbered then
      some (joinLines (parsed.map (lineText (parsed.any hasContextSep))))
    else none

structure SnippetCandidate where
  matchText : Chars
  preferParent : Bool
  cleanedSnippet : Option Chars

/-- The text without its markers, if anything of it is left. -/
def strippedCandidate (raw : Chars) (isParentHint : Bool) (cleaned : Option Chars) :
    List SnippetCandidate :=
  match tryStripDiffMarkers raw with
  | some (stripped, isMinus) =>
    if (trimChars stripped).isEmpty then []
    else [⟨trimChars stripped, isParentHint || isMinus, cleaned⟩]
  | none => []

def unnumberedCandidates (unnumbered : Chars) (isParentHint : Bool) : List SnippetCandidate :=
  if (trimChars unnumbered).isEmpty then []
  else ⟨unnumbered, isParentHint, some unnumbered⟩ ::
    strippedCandidate unnumbered isParentHint (some unnumbered)

def buildSnippetCandidates (raw : Chars) (isParentHint : Bool) : List SnippetCandidate :=
  ⟨raw, isParentHint, none⟩ :: (strippedCandidate raw isParentHint none ++
    match stripToolLineNumbers raw with
    | some unnumbered =>
      unnumberedCandidates (trimMatches (fun c => c = '\r' || c = '\n') unnumbered) isParentHint
    | none => [])

/-! ### Resolved locations -/

inductive Side where
  | parent
  | revision
  deriving DecidableEq, Repr

structure ResolvedLocation where
  file : Chars
  line : ℕ
  endLine : ℕ
  lineRange : Chars
  startCharacter : Option ℕ
  endCharacter : Option ℕ
  inDiff : Bool
  side : Side
  codeSnippet : Option Chars
  deriving DecidableEq, Repr

/-- The offsets on one line; an end that does not lie behind the start is moved. -/
def singleLineOffsets (len s e : ℕ) : Option ℕ × Option ℕ :=
  if s < e then (some s, some e)
  else if 0 < min (max e 1) len then (some 0, some (min (max e 1) len))
  else (none, none)

def computeCharacterOffsets (startLine endLine : Chars) (isSingleLine : Bool) :
    Option ℕ × Option ℕ :=
  if isSingleLine then
    if startLine.length = 0 then (none, none)
    else singleLineOffsets startLine.length
      (min (startLine.takeWhile isRustWhitespace).length startLine.length)
      (min (endLine.rdropWhile isRustWhitespace).length startLine.length)
  else
    (some (min (startLine.takeWhile isRustWhitespace).length startLine.length),
      some (if endLine.length = 0 then 0
        else min (max (endLine.rdropWhile isRustWhitespace).length 1) endLine.length))

def lineRangeText (first last : ℕ) : Chars :=
  if first = last then Nat.toDigits 10 first
  else Nat.toDigits 10 first ++ '-' :: Nat.toDigits 10 last

/-- Some range and the span have a line in common. -/
def overlaps (ranges : Option (List (ℕ × ℕ))) (first last : ℕ) : Bool :=
  ranges.any fun ranges => ranges.any fun r => first ≤ r.2 && r.1 ≤ last

def makeLocation (file : Chars) (first last : ℕ) (firstText lastText : Chars) (inDiff : Bool)
    (side : Side) (codeSnippet : Option Chars) : ResolvedLocation where
  file := file
  line := first + 1
  endLine := last + 1
  lineRange := lineRangeText (first + 1) (last + 1)
  startCharacter := (computeCharacterOffsets firstText lastText (first = last)).1
  endCharacter := (computeCharacterOffsets firstText lastText (first = last)).2
  inDiff := inDiff
  side := side
  codeSnippet := codeSnippet

def deletedText (deleted : DeletedLines) (line : ℕ) : Chars :=
  ((deleted.find? (·.1 = line)).map (·.2)).getD []

def makeResolvedDeletedLocation (file : Chars) (deleted : DeletedLines) (span : ℕ × ℕ) :
    ResolvedLocation :=
  makeLocation file span.1 span.2 (deletedText deleted span.1) (deletedText deleted span.2) true
    .parent none

def makeResolvedLineLocation (side : Side) (file : Chars) (lines : List Chars)
    (ranges : Option (List (ℕ × ℕ))) (span : ℕ × ℕ) : Checked ResolvedLocation := do
  let firstText ← itemAt lines span.1
  let lastText ← itemAt lines span.2
  return makeLocation file span.1 span.2 firstText lastText (overlaps ranges span.1 span.2) side
    none

def makeResolvedParentLocation := makeResolvedLineLocation .parent

def makeResolvedPostLocation := makeResolvedLineLocation .revision

/-- The lines of the span, for a location without a snippet of its own. -/
def snippetOut (lines : List Chars) (first last : ℕ) (noSnippet : Bool) :
    Checked (Option Chars) :=
  if noSnippet then (sliceAt lines first (last + 1)).map fun span => some (joinLines span)
  else .ok none

/-! ### The routes -/

/-- What a location is looked for in. -/
structure Scene where
  normFile : Chars
  hintLine : Option ℕ
  sym : Chars
  postLines : Option (List Chars)
  parentLines : Option (List Chars)
  postDiff : Option (List (ℕ × ℕ))
  preDiff : Option (List (ℕ × ℕ))
  delLines : Option DeletedLines

/-- The two ways of looking for a snippet: exactly, or by its longest lines. -/
structure Finder where
  inLines : List Chars → Chars → Option ℕ → Option (List (ℕ × ℕ)) → Option ℕ →
    Checked (Option (ℕ × ℕ))
  inDeleted : DeletedLines → Chars → Option ℕ → Checked (Option (ℕ × ℕ))

def exactFinder : Finder := ⟨findSnippetInLinesExact, findSnippetInDeletedLinesExact⟩

def fallbackFinder : Finder := ⟨findSnippetInLinesFallback, findSnippetInDeletedLinesFallback⟩

def symbolIndex (lines : List Chars) (sym : Chars) : Option ℕ :=
  if sym.isEmpty then none else lines.findIdx? (containsChars · sym)

namespace Scene

variable (scene : Scene) (finder : Finder) (snippet : Chars)

def resolveInDeletedLines : Checked (Option ResolvedLocation) :=
  match scene.delLines with
  | some deleted =>
    (finder.inDeleted deleted snippet scene.hintLine).map fun span =>
      span.map (makeResolvedDeletedLocation scene.normFile deleted)
  | none => .ok none

def resolveInLines (side : Side) (lines : Option (List Chars))
    (ranges : Option (List (ℕ × ℕ))) : Checked (Option ResolvedLocation) :=
  match lines with
  | some lines =>
    finder.inLines lines snippet scene.hintLine ranges
      ((symbolIndex lines scene.sym).map (· + 1)) >>= fun
        | some span =>
          (makeResolvedLineLocation side scene.normFile lines ranges span).map some
        | none => .ok none
  | none => .ok none

def resolveInParentLines : Checked (Option ResolvedLocation) :=
  scene.resolveInLines finder snippet .parent scene.parentLines scene.preDiff

def resolveInPostLines : Checked (Option ResolvedLocation) :=
  scene.resolveInLines finder snippet .revision scene.postLines scene.postDiff

def tryResolve (preferParent : Bool) : Checked (Option ResolvedLocation) :=
  if snippet.isEmpty then .ok none
  else if preferParent then
    orTry (scene.resolveInDeletedLines finder snippet)
      (orTry (scene.resolveInParentLines finder snippet) (scene.resolveInPostLines finder snippet))
  else
    scene.resolveInPostLines finder snippet >>= fun
      | some loc =>
        if loc.inDiff then .ok (some loc)
        else orTry (scene.resolveInDeletedLines finder snippet) (.ok (some loc))
      | none =>
        orTry (scene.resolveInDeletedLines finder snippet)
          (scene.resolveInParentLines finder snippet)

/-- The first candidate that is found. -/
def resolveCandidates : List SnippetCandidate → Checked (Option ResolvedLocation)
  | [] => .ok none
  | cand :: cands =>
    scene.tryResolve finder cand.matchText cand.preferParent >>= fun
      | some loc =>
        .ok (some { loc with codeSnippet := loc.codeSnippet.or cand.cleanedSnippet })
      | none => resolveCandidates cands

/-- By the hint, or else by the symbol. -/
def fallbackIndex (lines : List Chars) : Option ℕ :=
  ((scene.hintLine.filter (· ≤ lines.length)).map (· - 1)).or (symbolIndex lines scene.sym)

def resolveByHint (side : Side) (lines : Option (List Chars)) (ranges : Option (List (ℕ × ℕ)))
    (noSnippet : Bool) : Checked (Option ResolvedLocation) :=
  match lines with
  | some lines =>
    if lines.isEmpty then .ok none
    else
      match scene.fallbackIndex lines with
      | some i => do
        let firstText ← itemAt lines i
        let lastText ← itemAt lines i
        let snippet ← snippetOut lines i i noSnippet
        return some
          (makeLocation scene.normFile i i firstText lastText (overlaps ranges i i) side snippet)
      | none => .ok none
  | none => .ok none

end Scene

/-! ### The resolver -/

/-- What is read of the repository: a file of a revision, or on disk where none is given. -/
structure Worktree where
  fileExists : Option Chars → Chars → Bool
  readFileContent : Option Chars → Chars → Option Chars

/-- `~1` -/
def parentRevision (revision : Option Chars) : Option Chars := revision.map (· ++ ['~', '1'])

def ParsedDiff.postFile (d : ParsedDiff) (file : Chars) : Chars := (d.preToPost file).getD file

def ParsedDiff.parentFile (d : ParsedDiff) (file : Chars) : Chars := (d.postToPre file).getD file

def normFileOf (fileExists : Chars → Bool) (rawFile : Chars) : Option Chars :=
  (normalizeFilePathWithWorktreeAndRev fileExists rawFile).or (normalizeFilePath rawFile)

def sceneOf (tree : Worktree) (revision : Option Chars) (d : ParsedDiff) (normFile : Chars)
    (hintLine : Option ℕ) (sym : Chars) : Scene where
  normFile := normFile
  hintLine := hintLine
  sym := sym
  postLines := (tree.readFileContent revision (d.postFile normFile)).map linesOf
  parentLines := (parentRevision revision).bind fun parent =>
    (tree.readFileContent (some parent) (d.parentFile normFile)).map linesOf
  postDiff := (d.postRanges normFile).or (d.postRanges (d.postFile normFile))
  preDiff := (d.preRanges normFile).or (d.preRanges (d.parentFile normFile))
  delLines := (d.deletedLines normFile).or (d.deletedLines (d.parentFile normFile))

/-- A text field of the location, trimmed, or nothing. -/
def trimmedField (location : Json) (key : String) : Chars :=
  trimChars ((location.getStr key).getD "").toList

/-- `as_i64`, above zero. -/
def hintLineOf (location : Json) : Option ℕ :=
  ((location.get? "line").bind Json.asU64).filter fun l => 0 < l && l < 2 ^ 63

def isParentHint (location : Json) : Bool :=
  (location.getStr "side").any fun side =>
    eqIgnoreAsciiCase (rustTrim side) "PARENT" || eqIgnoreAsciiCase (rustTrim side) "LEFT" ||
      eqIgnoreAsciiCase (rustTrim side) "OLD"

namespace Scene

def resolveBySnippet (scene : Scene) (rawSnippet : Chars) (parentHint : Bool) :
    Checked (Option ResolvedLocation) :=
  if rawSnippet.isEmpty then .ok none
  else orTry (scene.resolveCandidates exactFinder (buildSnippetCandidates rawSnippet parentHint))
    (scene.resolveCandidates fallbackFinder (buildSnippetCandidates rawSnippet parentHint))

def resolve (scene : Scene) (rawSnippet : Chars) (parentHint : Bool) :
    Checked (Option ResolvedLocation) :=
  orTry (scene.resolveBySnippet rawSnippet parentHint)
    (if parentHint && scene.parentLines.isSome then
      scene.resolveByHint .parent scene.parentLines scene.preDiff rawSnippet.isEmpty
    else scene.resolveByHint .revision scene.postLines scene.postDiff rawSnippet.isEmpty)

end Scene

def resolveSingleLocationTwoSided (tree : Worktree) (revision : Option Chars) (d : ParsedDiff)
    (location : Json) : Checked (Option ResolvedLocation) :=
  match (location.getStr "file").bind fun rawFile =>
      normFileOf (tree.fileExists revision) rawFile.toList with
  | some normFile =>
    (sceneOf tree revision d normFile (hintLineOf location)
      (trimmedField location "function_or_symbol")).resolve
        (trimmedField location "code_snippet") (isParentHint location)
  | none => .ok none

end Sashiko
