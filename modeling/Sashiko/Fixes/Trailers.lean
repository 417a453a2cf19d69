import Sashiko.Diff.Git
import Sashiko.Diff.Snippet
import Sashiko.Lib.Lines
import Sashiko.Subject.Tags

/-! The `Fixes:` trailers of a commit, read from what `git show` prints of it. -/

namespace Sashiko

structure ResolvedFixesCommit where
  fullSha : Chars
  abbrevSha : Chars
  commitDate : Chars
  subject : Chars

def ResolvedFixesCommit.canonicalTrailer (c : ResolvedFixesCommit) : Chars :=
  "Fixes: ".toList ++ (c.abbrevSha ++ ([' ', '(', '"'] ++ (c.subject ++ ['"', ')'])))

inductive FixesTrailerKind where
  | commitRef (shaToken : Chars) (subject : Option Chars)
      (canonicalParensQuotes exactSingleSpaceBeforeParen : Bool)
  | bugTrackerId (id : Chars)
  | url (url : Chars)
  | malformed (text : Chars)
  deriving DecidableEq

def FixesTrailerKind.isMalformed : FixesTrailerKind → Bool
  | malformed _ => true
  | _ => false

structure ParsedFixesTrailer where
  raw : Chars
  tagPrefix : Chars
  isMultiline : Bool
  kind : FixesTrailerKind
  deriving DecidableEq

/-! ### The lines of the message -/

def endsMessage (line : Chars) : Bool :=
  diffGit.isPrefixOf line || "--- a/".toList.isPrefixOf line ||
    "--- /dev/null".toList.isPrefixOf line || trimEnd line = ['-', '-', '-']

def showHeaderKeys : List Chars :=
  ["commit ".toList, "Author:".toList, "AuthorDate:".toList, "Commit:".toList,
    "CommitDate:".toList, "Date:".toList, "From ".toList, "From:".toList, "Subject:".toList]

def isShowHeader (line : Chars) : Bool := showHeaderKeys.any (·.isPrefixOf line)

def rawBodyLines : Bool → List Chars → List Chars
  | _, [] => []
  | inHeaders, line :: lines =>
    if endsMessage line then []
    else if inHeaders then
      if isBlank line then rawBodyLines false lines
      else if isShowHeader line then rawBodyLines true lines
      else trimEnd line :: rawBodyLines false lines
    else trimEnd line :: rawBodyLines false lines

def leadingSpaces (line : Chars) : ℕ := (line.takeWhile (· = ' ')).length

def stripIndent (baseIndent : ℕ) (line : Chars) : Chars :=
  if isBlank line then [] else line.drop (min (leadingSpaces line) baseIndent)

def baseIndentOf (lines : List Chars) : ℕ := ((lines.find? (!isBlank ·)).map leadingSpaces).getD 0

def extractCommitMessageLines (commitDiff : String) : List Chars :=
  let rawBody := rawBodyLines true (linesOf commitDiff.toList)
  rawBody.map (stripIndent (baseIndentOf rawBody))

/-! ### The payload of a trailer -/

def isHexDigit (c : Char) : Bool :=
  c.isDigit || ('a' ≤ c && c ≤ 'f') || ('A' ≤ c && c ≤ 'F')

/-- `[a-z0-9_-]` in any case: `ſ` and the Kelvin sign are an `s` and a `k`. -/
def isBugIdChar (c : Char) : Bool :=
  c.isAlphanum || c = '_' || c = '-' || c = 'ſ' || c = '\u212A'

/-- `(-[0-9a-f]{n})*$` in any case, with these counts. -/
def isHexGroups : List ℕ → Chars → Bool
  | [], cs => cs.isEmpty
  | n :: ns, '-' :: cs =>
    (cs.take n).length = n && (cs.take n).all isHexDigit && isHexGroups ns (cs.drop n)
  | _ :: _, _ => false

def isBugTrackerId (cs : Chars) : Bool :=
  37 < cs.length && (cs.take (cs.length - 37)).all isBugIdChar &&
    isHexGroups [8, 4, 4, 4, 12] (cs.drop (cs.length - 37))

def stripEnd? (suffix cs : Chars) : Option Chars :=
  if suffix.isSuffixOf cs then some (cs.take (cs.length - suffix.length)) else none

def cleanedSubject (rest : Chars) : Chars :=
  let isQuote := fun c : Char => c = '"' || c = '\''
  let inner := trimChars ((rest.dropWhile (· = '(')).rdropWhile (· = ')'))
  trimChars ((inner.dropWhile isQuote).rdropWhile isQuote)

/-- What stands behind the sha is a subject, in whatever form. -/
def parseSubject (shaToken afterSha : Chars) (hasExtraPunct : Bool) (rest : Chars) :
    FixesTrailerKind :=
  let canonical := (stripChars? ['(', '"'] rest).bind (stripEnd? ['"', ')'])
  match canonical.filter fun _ => !hasExtraPunct with
  | some inner =>
    .commitRef shaToken (some inner) true
      (!hasExtraPunct && [' ', '(', '"'].isPrefixOf afterSha && ['"', ')'].isSuffixOf afterSha)
  | none =>
    let cleaned := cleanedSubject rest
    .commitRef shaToken (if cleaned = [] then none else some cleaned) false false

def parseShaAndSubject (trimmed shaToken afterSha : Chars) : FixesTrailerKind :=
  let hasExtraPunct := afterSha.head?.any [':', ',', '-'].contains
  let rest := trimChars (afterSha.dropWhile [':', ',', '-'].contains)
  let hasDigit := shaToken.any Char.isDigit
  let hasDelimitedSubject := rest.head?.any ['(', '"', '\''].contains
  if shaToken.length < 8 && !hasDigit && !hasDelimitedSubject then .malformed trimmed
  else if rest ≠ [] && !hasDelimitedSubject && !hasExtraPunct && shaToken.length < 10 &&
      !hasDigit then .malformed trimmed
  else if rest = [] then .commitRef shaToken none false false
  else parseSubject shaToken afterSha hasExtraPunct rest

def parseCommitRefPayload (rawAfterColon : Chars) : FixesTrailerKind :=
  let trimmed := trimChars rawAfterColon
  if trimmed = [] then .malformed []
  else if isBugTrackerId trimmed then .bugTrackerId trimmed
  else if "http://".toList.isPrefixOf trimmed || "https://".toList.isPrefixOf trimmed then
    .url trimmed
  else
    let shaToken := trimmed.takeWhile isHexDigit
    let afterSha := trimmed.dropWhile isHexDigit
    if shaToken.length < 4 || 40 < shaToken.length then .malformed trimmed
    else if afterSha.head?.any fun c =>
        !isRustWhitespace c && !(['(', ':', ',', '-'].contains c) then .malformed trimmed
    else parseShaAndSubject trimmed shaToken afterSha

/-! ### The trailers of the message -/

/-- `(?i)^(fixes|fix|fixed)\s*:\s*(.*)$`, on a line. -/
def fixesLineCaptures (line : Chars) : Option (Chars × Chars) :=
  ["fixes".toList, "fix".toList, "fixed".toList].findSome? fun word =>
    (stripWord? word line).bind fun rest =>
      match rest.dropWhile isRustWhitespace with
      | ':' :: value => some (line.take word.length, value.dropWhile isRustWhitespace)
      | _ => none

/-- `^[A-Za-z][A-Za-z0-9-]*\s*:` -/
def isTrailerLine (line : Chars) : Bool :=
  line.head?.any Char.isAlpha &&
    ((line.dropWhile fun c => c.isAlphanum || c = '-').dropWhile isRustWhitespace).head? = some ':'

def knownTrailerKeys : List Chars :=
  ["signed-off-by".toList, "reviewed-by".toList, "acked-by".toList, "reported-by".toList,
    "tested-by".toList, "suggested-by".toList, "co-developed-by".toList, "co-authored-by".toList,
    "cc".toList, "link".toList, "closes".toList, "bug".toList, "fixes".toList, "fix".toList,
    "fixed".toList]

/-- A known key in any case, where the Kelvin sign is a `k`, and a colon. -/
def isKnownTrailerKey (line : Chars) : Bool :=
  knownTrailerKeys.any fun key =>
    (stripWord? key (line.map fun c => if c = '\u212A' then 'k' else c)).any fun rest =>
      (rest.dropWhile isRustWhitespace).head? = some ':'

def trailerParagraphStartIndex (msgLines : List Chars) : ℕ :=
  let upToLast := msgLines.rdropWhile isBlank
  if upToLast.isEmpty then msgLines.length else (upToLast.rdropWhile (!isBlank ·)).length

structure TrailerBlock where
  subjectIdx : Option ℕ
  trailerStart : ℕ
  hasKnownKey : Bool

def TrailerBlock.of (msgLines : List Chars) : TrailerBlock where
  subjectIdx := msgLines.findIdx? (!isBlank ·)
  trailerStart := trailerParagraphStartIndex msgLines
  hasKnownKey := (msgLines.drop (trailerParagraphStartIndex msgLines)).any isKnownTrailerKey

/-- The next line, where a parenthesis is still open. -/
def continuation (value : Chars) (next? : Option Chars) : Option Chars :=
  if value.contains '(' && value.getLast? ≠ some ')' then
    (next?.map trimChars).filter fun next => !next.isEmpty && !isTrailerLine next
  else none

def joinContinuation (text : Chars) : Option Chars → Chars
  | some next => text ++ ' ' :: next
  | none => text

/-- The trailer on a line, and whether the next line belongs to it. -/
def TrailerBlock.readLine (b : TrailerBlock) (idx : ℕ) (line : Chars) (next? : Option Chars) :
    Option ParsedFixesTrailer × Bool :=
  if some idx = b.subjectIdx ∨ line.head?.any isRustWhitespace ∨ line.head? = some '>' then
    (none, false)
  else match fixesLineCaptures line with
    | none => (none, false)
    | some (tagPrefix, captured) =>
      let value := trimChars captured
      let next := continuation value next?
      let kind := parseCommitRefPayload (joinContinuation value next)
      let inTrailerBlock := b.trailerStart ≤ idx && b.hasKnownKey
      if kind.isMalformed && (!inTrailerBlock || tagPrefix.map Char.toLower ≠ "fixes".toList) then
        (none, next.isSome)
      else (some ⟨joinContinuation line next, tagPrefix, next.isSome, kind⟩, next.isSome)

def scanTrailers (b : TrailerBlock) : ℕ → List Chars → List ParsedFixesTrailer
  | _, [] => []
  | idx, [line] => (b.readLine idx line none).1.toList
  | idx, line :: next :: rest =>
    (b.readLine idx line (some next)).1.toList ++
      if (b.readLine idx line (some next)).2 then scanTrailers b (idx + 2) rest
      else scanTrailers b (idx + 1) (next :: rest)

def extractFixesTrailers (commitDiff : String) : List ParsedFixesTrailer :=
  let msgLines := extractCommitMessageLines commitDiff
  scanTrailers (.of msgLines) 0 msgLines

/-! ### What `git show` prints -/

/-- A commit as a trailer cites it. -/
structure CitedCommit extends ResolvedFixesCommit where
  abbrev_hex : abbrevSha.all isHexDigit = true
  abbrev_length : 12 ≤ abbrevSha.length ∧ abbrevSha.length ≤ 40
  subject_line : '\n' ∉ subject

/-- A line of a message: a canonical trailer, or one that does not begin with `fix`, `fixes` or
`fixed` and a colon. -/
inductive MessageLine where
  | trailer (c : CitedCommit)
  | plain (text : Chars) (clean : '\n' ∉ text) (not_fixes : fixesLineCaptures text = none)

namespace MessageLine

def text : MessageLine → Chars
  | trailer c => c.canonicalTrailer
  | plain text _ _ => text

def commit? : MessageLine → Option ResolvedFixesCommit
  | trailer c => some c.toResolvedFixesCommit
  | plain _ _ _ => none

def empty : MessageLine := plain [] newline_not_mem_nil (by decide)

/-- The line is no trailer, and starts with a space. -/
def isIndented : MessageLine → Bool
  | trailer _ => false
  | plain text _ _ => text.head? = some ' '

end MessageLine

inductive ShowHeaderKey where
  | commit
  | merge
  | author
  | authorDate
  | committer
  | commitDate
  | date
  deriving DecidableEq

def ShowHeaderKey.text : ShowHeaderKey → Chars
  | commit => "commit ".toList
  | merge => "Merge: ".toList
  | author => "Author: ".toList
  | authorDate => "AuthorDate: ".toList
  | committer => "Commit: ".toList
  | commitDate => "CommitDate: ".toList
  | date => "Date: ".toList

structure ShowHeader where
  key : ShowHeaderKey
  rest : Chars
  rest_clean : '\n' ∉ rest

def ShowHeader.text (h : ShowHeader) : Chars := h.key.text ++ h.rest

def messageIndent : Chars := [' ', ' ', ' ', ' ']

/-- A commit that `git show` prints. Its subject, the first line of the message that is not blank,
is no trailer. -/
structure ShownCommit where
  header : List ShowHeader
  message : List MessageLine
  diff : List Chars
  subject_plain : ∀ c, message.find? (!isBlank ·.text) ≠ some (.trailer c)
  diff_clean : ∀ line ∈ diff, '\n' ∉ line
  diff_starts : ∀ line ∈ diff.head?, diffGit <+: line

namespace ShownCommit

def isMerge (s : ShownCommit) : Bool := s.header.any (·.key = .merge)

def commits (s : ShownCommit) : List ResolvedFixesCommit := s.message.filterMap MessageLine.commit?

def lines (s : ShownCommit) : List Chars :=
  s.header.map ShowHeader.text ++ ([] :: s.message.map (messageIndent ++ ·.text) ++
    if s.diff.isEmpty then [] else [] :: s.diff)

def text (s : ShownCommit) : String := String.ofList (s.lines.flatMap fun line => line ++ ['\n'])

/-- The lines that are read for a message, with the blank one that ends it. -/
def messageLines (s : ShownCommit) : List MessageLine :=
  s.message ++ if s.diff.isEmpty then [] else [.empty]

/-- The message, cut at the left by as many spaces as its subject starts with. -/
def cutLines (s : ShownCommit) : List Chars :=
  let trimmed := s.messageLines.map (trimEnd ·.text)
  trimmed.map (stripIndent (baseIndentOf trimmed))

end ShownCommit

/-! ### Where the reader stops -/

structure ReaderStop where
  idx : ℕ
  line : Chars
  next? : Option Chars

/-- The lines that are read for a trailer. Those that belong to the line above are passed over. -/
def TrailerBlock.stops (b : TrailerBlock) : ℕ → List Chars → List ReaderStop
  | _, [] => []
  | idx, [line] => [⟨idx, line, none⟩]
  | idx, line :: next :: rest =>
    ⟨idx, line, some next⟩ ::
      if (b.readLine idx line (some next)).2 then stops b (idx + 2) rest
      else stops b (idx + 1) (next :: rest)

/-- No indented line is taken for a trailer here. -/
def ReaderStop.Quiet (b : TrailerBlock) (message : List MessageLine) (p : ReaderStop) : Prop :=
  ∀ l, message[p.idx]? = some l → l.isIndented = true → (b.readLine p.idx p.line p.next?).1 = none

/-- Nothing is read of a merge. Elsewhere no indented line is taken for a trailer where as many
spaces are cut as the subject starts with. -/
def ShownCommit.KeepsToTrailers (s : ShownCommit) : Prop :=
  if s.isMerge then s.commits = []
  else ∀ p ∈ (TrailerBlock.of s.cutLines).stops 0 s.cutLines,
    p.Quiet (.of s.cutLines) s.messageLines

/-- The trailer names the commit and its subject as they are. -/
structure ReadsCommit (c : ResolvedFixesCommit) (t : ParsedFixesTrailer) : Prop where
  kind : t.kind = .commitRef c.abbrevSha (some c.subject) true true
  single : t.isMultiline = false

/-! ### Blank lines and indentation -/

theorem isBlank_trimEnd (cs : Chars) : isBlank (trimEnd cs) = isBlank cs := by
  rw [Bool.eq_iff_iff, isBlank_iff, isBlank_iff]
  constructor
  · intro h c hc
    rw [← List.rdropWhile_append_rtakeWhile (p := isRustWhitespace) (l := cs)] at hc
    rcases List.mem_append.mp hc with hc | hc
    · exact h c hc
    · exact List.mem_rtakeWhile_imp hc
  · exact fun h c hc => h c ((List.rdropWhile_prefix _ _).subset hc)

theorem trimEnd_of_isBlank {cs : Chars} (h : isBlank cs = true) : trimEnd cs = [] := by
  have hall := isBlank_iff.mp h
  rw [← List.nil_append cs, trimEnd_append_of_whitespace hall]
  rfl

theorem endsVisibly_trimEnd {cs : Chars} (h : isBlank cs = false) : EndsVisibly (trimEnd cs) := by
  have hne : trimEnd cs ≠ [] := by
    intro hnil
    rw [← isBlank_trimEnd, hnil] at h
    cases h
  have hlast := List.rdropWhile_last_not isRustWhitespace cs hne
  exact ⟨_, List.getLast?_eq_some_getLast hne, Bool.eq_false_iff.mpr hlast⟩

theorem isBlank_append (pre cs : Chars) (hpre : isBlank pre = true) :
    isBlank (pre ++ cs) = isBlank cs := by
  rw [Bool.eq_iff_iff, isBlank_iff, isBlank_iff, List.forall_mem_append,
    and_iff_right (isBlank_iff.mp hpre)]

theorem trimEnd_append {cs : Chars} (h : isBlank cs = false) (pre : Chars) :
    trimEnd (pre ++ cs) = pre ++ trimEnd cs := by
  have hsplit : cs = trimEnd cs ++ cs.rtakeWhile isRustWhitespace :=
    List.rdropWhile_append_rtakeWhile.symm
  have hwhite : ∀ c ∈ cs.rtakeWhile isRustWhitespace, isRustWhitespace c = true :=
    fun _ => List.mem_rtakeWhile_imp
  conv_lhs => rw [hsplit, ← List.append_assoc]
  rw [trimEnd_append_of_whitespace hwhite,
    trimEnd_of_endsVisibly (endsVisibly_append (endsVisibly_trimEnd h))]

theorem leadingSpaces_indent (cs : Chars) :
    leadingSpaces (messageIndent ++ cs) = 4 + leadingSpaces cs := by
  simp [leadingSpaces, messageIndent]
  omega

theorem stripIndent_indent (k : ℕ) (cs : Chars) :
    stripIndent (4 + k) (messageIndent ++ cs) = stripIndent k cs := by
  unfold stripIndent
  rw [isBlank_append _ _ (by decide), leadingSpaces_indent, Nat.add_min_add_left]
  have hlength : 4 = messageIndent.length := rfl
  rw [hlength, List.drop_length_add_append]

theorem trimEnd_indent (cs : Chars) :
    trimEnd (messageIndent ++ cs) = if isBlank cs then [] else messageIndent ++ trimEnd cs := by
  split_ifs with h
  · exact trimEnd_of_isBlank ((isBlank_append _ _ (by decide)).trans h)
  · exact trimEnd_append (Bool.eq_false_iff.mpr h) _

/-- What all lines are indented by is cut, whatever the subject starts with. -/
theorem stripIndent_map (texts : List Chars) :
    (texts.map fun t => trimEnd (messageIndent ++ t)).map
        (stripIndent (baseIndentOf (texts.map fun t => trimEnd (messageIndent ++ t)))) =
      (texts.map trimEnd).map (stripIndent (baseIndentOf (texts.map trimEnd))) := by
  have hblank : ∀ t, isBlank (trimEnd (messageIndent ++ t)) = isBlank (trimEnd t) := fun t => by
    rw [isBlank_trimEnd, isBlank_trimEnd, isBlank_append _ _ (by decide)]
  cases hfind : (texts.map trimEnd).find? (!isBlank ·) with
  | none =>
    rw [List.map_map, List.map_map]
    refine List.map_congr_left fun t ht => ?_
    have hnone := List.find?_eq_none.mp hfind (trimEnd t) (List.mem_map_of_mem ht)
    have htrim : isBlank (trimEnd t) = true := by simpa using hnone
    rw [Function.comp_apply, Function.comp_apply, stripIndent, stripIndent, if_pos htrim,
      if_pos ((hblank t).trans htrim)]
  | some first =>
    have hindented : (texts.map fun t => trimEnd (messageIndent ++ t)).find? (!isBlank ·) =
        some (messageIndent ++ first) := by
      rw [List.find?_map] at hfind ⊢
      obtain ⟨t, ht, rfl⟩ := Option.map_eq_some_iff.mp hfind
      have hsame : ((fun l => !isBlank l) ∘ fun t => trimEnd (messageIndent ++ t)) =
          (fun l => !isBlank l) ∘ trimEnd := by
        funext t
        rw [Function.comp_apply, Function.comp_apply, hblank]
      have hvisible := List.find?_some ht
      rw [Function.comp_apply, isBlank_trimEnd, Bool.not_eq_true'] at hvisible
      rw [hsame, ht, Option.map_some, trimEnd_append hvisible]
    have hbase : baseIndentOf (texts.map fun t => trimEnd (messageIndent ++ t)) =
        4 + baseIndentOf (texts.map trimEnd) := by
      rw [baseIndentOf, baseIndentOf, hindented, hfind, Option.map_some, Option.map_some,
        Option.getD_some, Option.getD_some, leadingSpaces_indent]
    rw [hbase, List.map_map, List.map_map]
    refine List.map_congr_left fun t _ => ?_
    rw [Function.comp_apply, Function.comp_apply, trimEnd_indent]
    split_ifs with h
    · rw [trimEnd_of_isBlank h]
      rfl
    · exact stripIndent_indent _ _

/-! ### The lines that are read -/

theorem endsMessage_of_head {c : Char} {cs : Chars} (hd : 'd' ≠ c) (hminus : '-' ≠ c) :
    endsMessage (c :: cs) = false := by
  have hother : ∀ (x : Char) (pre : Chars), x ≠ c → (x :: pre).isPrefixOf (c :: cs) = false :=
    fun x pre hx => by rw [List.isPrefixOf, beq_false_of_ne hx, Bool.false_and]
  have htrim : trimEnd (c :: cs) ≠ ['-', '-', '-'] := by
    intro heq
    have hhead : trimEnd (c :: cs) <+: c :: cs := List.rdropWhile_prefix _ _
    rw [heq, List.cons_prefix_cons] at hhead
    exact hminus hhead.1
  have hgit : diffGit.isPrefixOf (c :: cs) = false := hother _ _ hd
  have hside : "--- a/".toList.isPrefixOf (c :: cs) = false := hother _ _ hminus
  have hnull : "--- /dev/null".toList.isPrefixOf (c :: cs) = false := hother _ _ hminus
  rw [endsMessage, hgit, hside, hnull, decide_eq_false htrim]
  rfl

theorem isBlank_of_head {c : Char} (h : isRustWhitespace c = false) (cs : Chars) :
    isBlank (c :: cs) = false := by
  rw [Bool.eq_false_iff, Ne, isBlank_iff]
  intro hall
  rw [hall c List.mem_cons_self] at h
  cases h

namespace ShowHeader

theorem dropReturn_text (h : ShowHeader) : dropReturn h.text = h.key.text ++ dropReturn h.rest := by
  have hlast : h.key.text.getLast? ≠ some '\r' := by cases h.key <;> decide
  exact dropReturn_append hlast

theorem not_endsMessage (key : ShowHeaderKey) (rest : Chars) :
    endsMessage (key.text ++ rest) = false := by
  cases key <;> exact endsMessage_of_head (by decide) (by decide)

theorem not_isBlank (key : ShowHeaderKey) (rest : Chars) : isBlank (key.text ++ rest) = false := by
  cases key <;> exact isBlank_of_head (by decide) _

theorem isShowHeader_append (key : Chars) (h : key ∈ showHeaderKeys) (rest : Chars) :
    isShowHeader (key ++ rest) = true :=
  List.any_eq_true.mpr ⟨key, h, List.isPrefixOf_iff_prefix.mpr (List.prefix_append _ _)⟩

theorem isShowHeader_text {key : ShowHeaderKey} (h : key ≠ .merge) (rest : Chars) :
    isShowHeader (key.text ++ rest) = true := by
  cases key with
  | merge => exact absurd rfl h
  | commit => exact isShowHeader_append "commit ".toList (by decide) rest
  | author => exact isShowHeader_append "Author:".toList (by decide) (' ' :: rest)
  | authorDate => exact isShowHeader_append "AuthorDate:".toList (by decide) (' ' :: rest)
  | committer => exact isShowHeader_append "Commit:".toList (by decide) (' ' :: rest)
  | commitDate => exact isShowHeader_append "CommitDate:".toList (by decide) (' ' :: rest)
  | date => exact isShowHeader_append "Date:".toList (by decide) (' ' :: rest)

end ShowHeader

theorem not_isShowHeader_merge (rest : Chars) :
    isShowHeader (ShowHeaderKey.merge.text ++ rest) = false := by
  rw [isShowHeader, List.any_eq_false]
  have hheads : showHeaderKeys.all (fun key => key.head? ≠ some 'M' && key ≠ []) = true := by decide
  intro key hkey hprefix
  have hhead := List.all_eq_true.mp hheads key hkey
  rw [Bool.and_eq_true, decide_eq_true_eq, decide_eq_true_eq] at hhead
  cases key with
  | nil => exact hhead.2 rfl
  | cons c key =>
    obtain ⟨rest', heq⟩ := List.isPrefixOf_iff_prefix.mp hprefix
    exact hhead.1 (congrArg List.head? heq)

theorem rawBodyLines_append {lines : List Chars} (h : ∀ l ∈ lines, endsMessage l = false)
    (rest : List Chars) :
    rawBodyLines false (lines ++ rest) = lines.map trimEnd ++ rawBodyLines false rest := by
  induction lines with
  | nil => rfl
  | cons line lines ih =>
    rw [List.cons_append, rawBodyLines, if_neg (by rw [h line List.mem_cons_self]; decide),
      if_neg Bool.false_ne_true, ih fun l hl => h l (List.mem_cons_of_mem _ hl)]
    rfl

/-- The lines of the header from the one of a merge on are taken for the message. -/
theorem rawBodyLines_header (headers : List ShowHeader) (rest : List Chars) :
    rawBodyLines true (headers.map (dropReturn ·.text) ++ [] :: rest) =
      (if headers.any (·.key = .merge) then
        (headers.dropWhile (·.key ≠ .merge)).map (trimEnd ·.text) ++ [[]] else []) ++
      rawBodyLines false rest := by
  induction headers with
  | nil => rfl
  | cons h headers ih =>
    have hline : endsMessage (dropReturn h.text) = false := by
      rw [h.dropReturn_text]
      exact ShowHeader.not_endsMessage _ _
    have hblank : isBlank (dropReturn h.text) = false := by
      rw [h.dropReturn_text]
      exact ShowHeader.not_isBlank _ _
    rw [List.map_cons, List.cons_append, rawBodyLines, if_neg (by rw [hline]; decide), if_pos rfl,
      if_neg (by rw [hblank]; decide)]
    by_cases hkey : h.key = .merge
    · have hshow : isShowHeader (dropReturn h.text) = false := by
        rw [h.dropReturn_text, hkey]
        exact not_isShowHeader_merge _
      have hothers : ∀ l ∈ headers.map (dropReturn ·.text) ++ [[]], endsMessage l = false := by
        intro l hl
        rcases List.mem_append.mp hl with hl | hl
        · obtain ⟨k, -, rfl⟩ := List.mem_map.mp hl
          rw [k.dropReturn_text]
          exact ShowHeader.not_endsMessage _ _
        · rw [List.mem_singleton.mp hl]
          decide
      have hsplit : headers.map (dropReturn ·.text) ++ [] :: rest =
          headers.map (dropReturn ·.text) ++ [[]] ++ rest := by simp
      have hmap : (headers.map (dropReturn ·.text)).map trimEnd = headers.map (trimEnd ·.text) := by
        rw [List.map_map]
        exact List.map_congr_left fun k _ => trimEnd_dropReturn _
      have hnil : trimEnd [] = [] := rfl
      rw [if_neg (by rw [hshow]; decide), hsplit, rawBodyLines_append hothers, List.map_append, hmap,
        List.any_cons, decide_eq_true hkey, Bool.true_or, if_pos rfl,
        List.dropWhile_cons_of_neg (by simp [hkey]), trimEnd_dropReturn, List.map_cons,
        List.map_nil, hnil]
      rfl
    · have hshow : isShowHeader (dropReturn h.text) = true := by
        rw [h.dropReturn_text]
        exact ShowHeader.isShowHeader_text hkey _
      rw [if_pos hshow, ih, List.any_cons, decide_eq_false hkey, Bool.false_or,
        List.dropWhile_cons_of_pos (by simp [hkey])]

theorem isHexDigit_range {c : Char} (h : isHexDigit c = true) :
    48 ≤ c.toNat ∧ c.toNat ≤ 57 ∨ 65 ≤ c.toNat ∧ c.toNat ≤ 70 ∨ 97 ≤ c.toNat ∧ c.toNat ≤ 102 := by
  simp only [isHexDigit, Char.isDigit, Bool.or_eq_true, Bool.and_eq_true, decide_eq_true_eq,
    Char.le_def, UInt32.le_iff_toNat_le] at h
  rcases h with (h | h) | h
  · exact .inl h
  · exact .inr (.inr h)
  · exact .inr (.inl h)

theorem not_whitespace_of_isHexDigit {c : Char} (h : isHexDigit c = true) :
    isRustWhitespace c = false := by
  have hrange := isHexDigit_range h
  simp only [isRustWhitespace, List.contains_cons, List.contains_nil, Bool.or_eq_false_iff,
    Bool.and_eq_false_iff, decide_eq_false_iff_not, beq_eq_false_iff_ne, and_true, not_le]
  omega

theorem MessageLine.newline_not_mem (l : MessageLine) : '\n' ∉ l.text := by
  cases l with
  | plain text clean _ => exact clean
  | trailer c =>
    have hfixes : '\n' ∉ "Fixes: ".toList := by decide
    have hopen : '\n' ∉ [' ', '(', '"'] := by decide
    have hclose : '\n' ∉ ['"', ')'] := by decide
    have hsha : '\n' ∉ c.abbrevSha := fun hmem =>
      absurd (List.all_eq_true.mp c.abbrev_hex _ hmem) (by decide)
    exact List.not_mem_append hfixes (List.not_mem_append hsha
      (List.not_mem_append hopen (List.not_mem_append c.subject_line hclose)))

namespace ShownCommit

theorem newline_not_mem_lines {s : ShownCommit} {line : Chars} (h : line ∈ s.lines) :
    '\n' ∉ line := by
  rcases List.mem_append.mp h with hmem | hmem
  · obtain ⟨k, -, rfl⟩ := List.mem_map.mp hmem
    have hkey : '\n' ∉ k.key.text := by cases k.key <;> decide
    rw [ShowHeader.text, List.mem_append, not_or]
    exact ⟨hkey, k.rest_clean⟩
  rcases List.mem_append.mp hmem with hmem | hmem
  · rcases List.mem_cons.mp hmem with rfl | hmem
    · exact List.not_mem_nil
    · obtain ⟨l, -, rfl⟩ := List.mem_map.mp hmem
      have hindent : '\n' ∉ messageIndent := by decide
      rw [List.mem_append, not_or]
      exact ⟨hindent, l.newline_not_mem⟩
  · split at hmem
    · cases hmem
    · rcases List.mem_cons.mp hmem with rfl | hmem
      · exact List.not_mem_nil
      · exact s.diff_clean line hmem

theorem rawBodyLines_diff (s : ShownCommit) :
    rawBodyLines false ((if s.diff.isEmpty then [] else [] :: s.diff).map dropReturn) =
      (if s.diff.isEmpty then [] else [MessageLine.empty]).map
        fun l => trimEnd (messageIndent ++ l.text) := by
  cases hdiff : s.diff with
  | nil => rfl
  | cons first diff =>
    obtain ⟨rest, hfirst⟩ := s.diff_starts first (by rw [hdiff]; rfl)
    have hends : endsMessage (dropReturn first) = true := by
      rw [← hfirst, dropReturn_append (by decide), endsMessage,
        List.isPrefixOf_iff_prefix.mpr (List.prefix_append _ _)]
      rfl
    have hblank : endsMessage [] = false := by decide
    have hnil : dropReturn [] = [] := rfl
    rw [List.isEmpty_cons, if_neg Bool.false_ne_true, if_neg Bool.false_ne_true, List.map_cons,
      List.map_cons, hnil, rawBodyLines, if_neg (by rw [hblank]; decide), if_neg Bool.false_ne_true,
      rawBodyLines, if_pos hends]
    rfl

theorem rawBodyLines_text (s : ShownCommit) :
    rawBodyLines true (linesOf s.text.toList) =
      (if s.isMerge then (s.header.dropWhile (·.key ≠ .merge)).map (trimEnd ·.text) ++ [[]]
        else []) ++
      s.messageLines.map fun l => trimEnd (messageIndent ++ l.text) := by
  have hmessage : ∀ l ∈ (s.message.map (messageIndent ++ ·.text)).map dropReturn,
      endsMessage l = false := by
    intro l hl
    obtain ⟨shown, hshown, rfl⟩ := List.mem_map.mp hl
    obtain ⟨m, -, rfl⟩ := List.mem_map.mp hshown
    rw [dropReturn_append (by decide)]
    exact endsMessage_of_head (by decide) (by decide)
  have htrim : ((s.message.map (messageIndent ++ ·.text)).map dropReturn).map trimEnd =
      s.message.map fun l => trimEnd (messageIndent ++ l.text) := by
    rw [List.map_map, List.map_map]
    exact List.map_congr_left fun l _ => trimEnd_dropReturn _
  have hlines : linesOf s.text.toList = s.header.map (dropReturn ·.text) ++ [] ::
      ((s.message.map (messageIndent ++ ·.text)).map dropReturn ++
        (if s.diff.isEmpty then [] else [] :: s.diff).map dropReturn) := by
    rw [text, String.toList_ofList, linesOf_lines _ fun _ => newline_not_mem_lines, lines,
      List.map_append, List.map_map, List.map_append]
    rfl
  rw [hlines, rawBodyLines_header, rawBodyLines_append hmessage, htrim, rawBodyLines_diff,
    ← List.map_append]
  rfl

theorem extractCommitMessageLines_text {s : ShownCommit} (h : s.isMerge = false) :
    extractCommitMessageLines s.text = s.cutLines := by
  have hraw := s.rawBodyLines_text
  have hmap : (s.messageLines.map fun l => trimEnd (messageIndent ++ l.text)) =
      (s.messageLines.map MessageLine.text).map fun t => trimEnd (messageIndent ++ t) := by
    rw [List.map_map]
    rfl
  rw [h, if_neg Bool.false_ne_true, List.nil_append, hmap] at hraw
  have htrim : (s.messageLines.map MessageLine.text).map trimEnd =
      s.messageLines.map (trimEnd ·.text) := List.map_map
  rw [extractCommitMessageLines, hraw, stripIndent_map, cutLines, htrim]

end ShownCommit

/-! ### Lines that are no trailer -/

theorem fixesLineCaptures_eq_none_iff {line : Chars} :
    fixesLineCaptures line = none ↔
      ∀ word ∈ ["fixes".toList, "fix".toList, "fixed".toList], ∀ rest,
        stripWord? word line = some rest → (rest.dropWhile isRustWhitespace).head? ≠ some ':' := by
  rw [fixesLineCaptures, List.findSome?_eq_none_iff]
  refine forall₂_congr fun word _ => ?_
  cases hstrip : stripWord? word line with
  | none => simp
  | some rest =>
    rw [Option.bind_some]
    constructor
    · intro h rest' hrest hcolon
      cases hrest
      obtain ⟨value, hvalue⟩ := List.head?_eq_some_iff.mp hcolon
      simp [hvalue] at h
    · intro h
      split
      · next value hvalue => exact absurd (by rw [hvalue]; rfl) (h rest rfl)
      · rfl

theorem stripWord?_append_of_some {word line rest : Chars} (h : stripWord? word line = some rest)
    (more : Chars) : stripWord? word (line ++ more) = some (rest ++ more) := by
  induction word generalizing line with
  | nil =>
    cases h
    rfl
  | cons letter word ih =>
    cases line with
    | nil => cases h
    | cons c line =>
      rw [stripWord?] at h
      rw [List.cons_append, stripWord?]
      split_ifs at h ⊢
      exact ih h

theorem fixesLineCaptures_of_isPrefix {front line : Chars} (h : front <+: line)
    (hline : fixesLineCaptures line = none) : fixesLineCaptures front = none := by
  obtain ⟨more, rfl⟩ := h
  rw [fixesLineCaptures_eq_none_iff] at hline ⊢
  intro word hword rest hrest hcolon
  obtain ⟨value, hvalue⟩ := List.head?_eq_some_iff.mp hcolon
  refine hline word hword _ (stripWord?_append_of_some hrest more) ?_
  have hne : rest.dropWhile isRustWhitespace ≠ [] := by simp [hvalue]
  rw [List.dropWhile_append, if_neg (by simpa using hne), hvalue]
  rfl

theorem fixesLineCaptures_of_head {c : Char} (h : sameLetter 'f' c = false) (cs : Chars) :
    fixesLineCaptures (c :: cs) = none := by
  rw [fixesLineCaptures_eq_none_iff]
  have hstart : ∀ word ∈ ["fixes".toList, "fix".toList, "fixed".toList], word.head? = some 'f' := by
    decide
  intro word hword rest hrest
  obtain ⟨letters, hletters⟩ := List.head?_eq_some_iff.mp (hstart word hword)
  rw [hletters, stripWord?, h, if_neg Bool.false_ne_true] at hrest
  cases hrest

theorem TrailerBlock.readLine_of_captures {line : Chars} (h : fixesLineCaptures line = none)
    (b : TrailerBlock) (idx : ℕ) (next? : Option Chars) :
    b.readLine idx line next? = (none, false) := by
  unfold readLine
  rw [h]
  split_ifs <;> rfl

theorem scanTrailers_eq_nil {lines : List Chars} (h : ∀ l ∈ lines, fixesLineCaptures l = none)
    (b : TrailerBlock) (idx : ℕ) : scanTrailers b idx lines = [] := by
  induction idx, lines using scanTrailers.induct with
  | case1 => rfl
  | case2 idx line =>
    rw [scanTrailers, b.readLine_of_captures (h line (by simp))]
    rfl
  | case3 idx line next rest _ ih =>
    rw [scanTrailers, b.readLine_of_captures (h line (by simp)), if_neg Bool.false_ne_true,
      ih fun l hl => h l (List.mem_cons_of_mem _ hl)]
    rfl

namespace ShownCommit

/-- The header of a merge keeps the indentation of its message. -/
theorem extractFixesTrailers_of_isMerge {s : ShownCommit} (h : s.isMerge = true) :
    extractFixesTrailers s.text = [] := by
  have hraw := s.rawBodyLines_text
  rw [if_pos h] at hraw
  have hquiet : ∀ l ∈ rawBodyLines true (linesOf s.text.toList), fixesLineCaptures l = none := by
    intro l hl
    rw [hraw] at hl
    rcases List.mem_append.mp hl with hl | hl
    · rcases List.mem_append.mp hl with hl | hl
      · obtain ⟨k, -, rfl⟩ := List.mem_map.mp hl
        refine fixesLineCaptures_of_isPrefix (List.rdropWhile_prefix _ _) ?_
        rw [ShowHeader.text]
        cases k.key <;> exact fixesLineCaptures_of_head (by decide) _
      · rw [List.mem_singleton.mp hl]
        decide
    · obtain ⟨m, -, rfl⟩ := List.mem_map.mp hl
      exact fixesLineCaptures_of_isPrefix (List.rdropWhile_prefix _ _)
        (fixesLineCaptures_of_head (by decide) _)
  have hbase : baseIndentOf (rawBodyLines true (linesOf s.text.toList)) = 0 := by
    obtain ⟨k, rest, hdrop⟩ : ∃ k rest, s.header.dropWhile (·.key ≠ .merge) = k :: rest := by
      rw [← List.ne_nil_iff_exists_cons]
      intro hnil
      obtain ⟨k, hk, hkey⟩ := List.any_eq_true.mp h
      have hall := List.dropWhile_eq_nil_iff.mp hnil k hk
      simp_all
    have hkey : k.key = .merge := by
      have hhead := List.head?_dropWhile_not (fun k : ShowHeader => decide (k.key ≠ .merge)) s.header
      rw [hdrop] at hhead
      simpa using hhead
    have hmerge : k.text = 'M' :: ("erge: ".toList ++ k.rest) := by
      rw [ShowHeader.text, hkey]
      rfl
    have hvisible : isBlank k.text = false := by
      rw [hmerge]
      exact isBlank_of_head (by decide) _
    have hspaces : leadingSpaces (trimEnd k.text) = 0 := by
      obtain ⟨more, hmore⟩ : trimEnd k.text <+: k.text := List.rdropWhile_prefix _ _
      cases htrim : trimEnd k.text with
      | nil => rfl
      | cons c cs =>
        rw [htrim, hmerge, List.cons_append, List.cons.injEq] at hmore
        rw [hmore.1]
        rfl
    rw [hraw, hdrop, List.map_cons, List.cons_append, List.cons_append, baseIndentOf,
      List.find?_cons_of_pos (by rw [isBlank_trimEnd, hvisible]; rfl), Option.map_some, hspaces]
    rfl
  rw [extractFixesTrailers, extractCommitMessageLines, hbase]
  refine scanTrailers_eq_nil (fun l hl => ?_) _ _
  obtain ⟨raw, hmem, rfl⟩ := List.mem_map.mp hl
  unfold stripIndent
  split_ifs
  · decide
  · rw [Nat.min_zero, List.drop_zero]
    exact hquiet raw hmem

end ShownCommit

/-! ### Canonical trailers -/

theorem isHexGroups_chars {ns : List ℕ} {cs : Chars} (h : isHexGroups ns cs = true) {c : Char}
    (hc : c ∈ cs) : c = '-' ∨ isHexDigit c = true := by
  induction ns generalizing cs with
  | nil =>
    rw [isHexGroups, List.isEmpty_iff] at h
    rw [h] at hc
    cases hc
  | cons n ns ih =>
    cases cs with
    | nil => cases hc
    | cons d cs =>
      by_cases hd : d = '-'
      · subst hd
        rw [isHexGroups, Bool.and_eq_true, Bool.and_eq_true] at h
        rcases List.mem_cons.mp hc with rfl | hc
        · exact .inl rfl
        · rw [← List.take_append_drop n cs] at hc
          rcases List.mem_append.mp hc with hc | hc
          · exact .inr (List.all_eq_true.mp h.1.2 c hc)
          · exact ih h.2 hc
      · simp [isHexGroups, hd] at h

theorem not_isBugTrackerId {cs : Chars} (h : ' ' ∈ cs) : isBugTrackerId cs = false := by
  rw [Bool.eq_false_iff]
  intro hbug
  rw [isBugTrackerId, Bool.and_eq_true, Bool.and_eq_true] at hbug
  rw [← List.take_append_drop (cs.length - 37) cs] at h
  rcases List.mem_append.mp h with h | h
  · exact absurd (List.all_eq_true.mp hbug.1.2 _ h) (by decide)
  · exact absurd (isHexGroups_chars hbug.2 h) (by decide)

namespace CitedCommit

variable (c : CitedCommit)

def subjectPart : Chars := [' ', '(', '"'] ++ (c.subject ++ ['"', ')'])

def payload : Chars := c.abbrevSha ++ c.subjectPart

theorem canonicalTrailer_eq : c.canonicalTrailer = "Fixes: ".toList ++ c.payload := rfl

theorem exists_abbrevSha : ∃ x xs, c.abbrevSha = x :: xs ∧ isHexDigit x = true := by
  have hlength := c.abbrev_length
  have hhex := c.abbrev_hex
  cases hsha : c.abbrevSha with
  | nil =>
    rw [hsha, List.length_nil] at hlength
    omega
  | cons x xs =>
    rw [hsha, List.all_cons, Bool.and_eq_true] at hhex
    exact ⟨x, xs, rfl, hhex.1⟩

theorem endsVisibly_close : EndsVisibly (c.subject ++ ['"', ')']) :=
  endsVisibly_append ⟨')', rfl, by decide⟩

theorem endsVisibly_payload : EndsVisibly c.payload :=
  endsVisibly_append (endsVisibly_append c.endsVisibly_close)

theorem dropWhile_payload : c.payload.dropWhile isRustWhitespace = c.payload := by
  obtain ⟨x, xs, hsha, hx⟩ := c.exists_abbrevSha
  rw [payload, hsha, List.cons_append,
    List.dropWhile_cons_of_neg (by simp [not_whitespace_of_isHexDigit hx])]

theorem trimChars_payload : trimChars c.payload = c.payload := by
  rw [trimChars, c.dropWhile_payload]
  exact trimEnd_of_endsVisibly c.endsVisibly_payload

theorem getLast_payload : c.payload.getLast? = some ')' := by
  rw [payload, subjectPart, List.getLast?_append, List.getLast?_append, List.getLast?_append]
  rfl

theorem takeWhile_payload : c.payload.takeWhile isHexDigit = c.abbrevSha := by
  have hstop : c.subjectPart.takeWhile isHexDigit = [] := rfl
  rw [payload, List.takeWhile_append_of_pos (List.all_eq_true.mp c.abbrev_hex), hstop,
    List.append_nil]

theorem dropWhile_hex_payload : c.payload.dropWhile isHexDigit = c.subjectPart := by
  rw [payload, List.dropWhile_append_of_pos (List.all_eq_true.mp c.abbrev_hex)]
  rfl

theorem fixesLineCaptures_trailer :
    fixesLineCaptures c.canonicalTrailer = some ("Fixes".toList, c.payload) := by
  have hstrip : stripWord? "fixes".toList c.canonicalTrailer = some (':' :: ' ' :: c.payload) := rfl
  have hcolon : (':' :: ' ' :: c.payload).dropWhile isRustWhitespace = ':' :: ' ' :: c.payload := rfl
  have hblank : (' ' :: c.payload).dropWhile isRustWhitespace =
      c.payload.dropWhile isRustWhitespace := rfl
  have htake : c.canonicalTrailer.take "fixes".toList.length = "Fixes".toList := rfl
  rw [fixesLineCaptures, List.findSome?_cons, hstrip, Option.bind_some, hcolon]
  simp only [hblank, c.dropWhile_payload, htake]

theorem continuation_payload (next? : Option Chars) : continuation c.payload next? = none := by
  rw [continuation, c.getLast_payload, if_neg (by simp)]

theorem trimChars_subjectPart :
    trimChars c.subjectPart = ['(', '"'] ++ (c.subject ++ ['"', ')']) := by
  have hdrop : c.subjectPart.dropWhile isRustWhitespace =
      ['(', '"'] ++ (c.subject ++ ['"', ')']) := rfl
  rw [trimChars, hdrop]
  exact trimEnd_of_endsVisibly (endsVisibly_append c.endsVisibly_close)

theorem parseSubject_canonical : parseSubject c.abbrevSha c.subjectPart false
      (['(', '"'] ++ (c.subject ++ ['"', ')'])) =
    .commitRef c.abbrevSha (some c.subject) true true := by
  have hend : stripEnd? ['"', ')'] (c.subject ++ ['"', ')']) = some c.subject := by
    rw [stripEnd?, if_pos (List.isSuffixOf_iff_suffix.mpr (List.suffix_append _ _)),
      List.length_append, Nat.add_sub_cancel, List.take_left]
  have hopen : [' ', '(', '"'].isPrefixOf c.subjectPart = true :=
    List.isPrefixOf_iff_prefix.mpr (List.prefix_append _ _)
  have hclose : ['"', ')'].isSuffixOf c.subjectPart = true :=
    List.isSuffixOf_iff_suffix.mpr ((List.suffix_append _ _).trans (List.suffix_append _ _))
  simp only [parseSubject, stripChars?_append, Option.bind_some, hend, Option.filter_some,
    Bool.not_false, if_pos, hopen, hclose, Bool.and_self]

theorem parseShaAndSubject_payload :
    parseShaAndSubject c.payload c.abbrevSha c.subjectPart =
      .commitRef c.abbrevSha (some c.subject) true true := by
  have hlength := c.abbrev_length
  have hpunct : c.subjectPart.head?.any [':', ',', '-'].contains = false := rfl
  have hdrop : c.subjectPart.dropWhile [':', ',', '-'].contains = c.subjectPart := rfl
  have height : decide (c.abbrevSha.length < 8) = false := decide_eq_false (by omega)
  have hten : decide (c.abbrevSha.length < 10) = false := decide_eq_false (by omega)
  have hne : ['(', '"'] ++ (c.subject ++ ['"', ')']) ≠ [] := nofun
  simp only [parseShaAndSubject, hpunct, hdrop, c.trimChars_subjectPart, height, hten,
    Bool.false_and, Bool.and_false, Bool.false_eq_true, if_false, if_neg hne]
  exact c.parseSubject_canonical

theorem parseCommitRefPayload_payload :
    parseCommitRefPayload c.payload = .commitRef c.abbrevSha (some c.subject) true true := by
  obtain ⟨x, xs, hsha, hx⟩ := c.exists_abbrevSha
  have hlength := c.abbrev_length
  have hne : c.payload ≠ [] := by
    rw [payload, hsha]
    exact List.cons_ne_nil _ _
  have hblank : ' ' ∈ c.payload := List.mem_append_right _ List.mem_cons_self
  have hh : 'h' ≠ x := by
    rintro rfl
    exact absurd hx (by decide)
  have hurl : ∀ rest : Chars, ('h' :: rest).isPrefixOf c.payload = false := fun rest => by
    rw [payload, hsha, List.cons_append, List.isPrefixOf, beq_false_of_ne hh, Bool.false_and]
  have hhttp : "http://".toList.isPrefixOf c.payload = false := hurl _
  have hhttps : "https://".toList.isPrefixOf c.payload = false := hurl _
  have hshort : decide (c.abbrevSha.length < 4) = false := decide_eq_false (by omega)
  have hlong : decide (40 < c.abbrevSha.length) = false := decide_eq_false (by omega)
  have hbehind : (c.subjectPart.head?.any fun c =>
      !isRustWhitespace c && !(['(', ':', ',', '-'].contains c)) = false := rfl
  simp only [parseCommitRefPayload, c.trimChars_payload, if_neg hne, not_isBugTrackerId hblank,
    hhttp, hhttps, c.takeWhile_payload, c.dropWhile_hex_payload, hshort, hlong, hbehind,
    Bool.or_self, Bool.false_eq_true, if_false]
  exact c.parseShaAndSubject_payload

/-- A canonical trailer is read back wherever it stands, except for the subject. -/
theorem readLine_trailer {b : TrailerBlock} {idx : ℕ} (h : some idx ≠ b.subjectIdx)
    (next? : Option Chars) :
    b.readLine idx c.canonicalTrailer next? =
      (some ⟨c.canonicalTrailer, "Fixes".toList, false,
        .commitRef c.abbrevSha (some c.subject) true true⟩, false) := by
  have hvisible : c.canonicalTrailer.head?.any isRustWhitespace = false := rfl
  have hfirst : c.canonicalTrailer.head? = some 'F' := rfl
  have hskip : ¬(some idx = b.subjectIdx ∨ c.canonicalTrailer.head?.any isRustWhitespace = true ∨
      c.canonicalTrailer.head? = some '>') := by
    rw [hvisible, hfirst]
    exact not_or.mpr ⟨h, not_or.mpr ⟨Bool.false_ne_true, by decide⟩⟩
  unfold TrailerBlock.readLine
  rw [if_neg hskip, c.fixesLineCaptures_trailer]
  simp only [c.trimChars_payload, c.continuation_payload, joinContinuation,
    c.parseCommitRefPayload_payload, FixesTrailerKind.isMalformed, Bool.false_and,
    Bool.false_eq_true, if_false, Option.isSome_none]

/-- A canonical trailer does not belong to the line above. -/
theorem isTrailerLine_trailer : isTrailerLine c.canonicalTrailer = true := rfl

end CitedCommit

/-! ### The run over the message -/

theorem forall₂_extra {α β : Type} {R : α → β → Prop} {xs : List α} {ys : List β}
    (extra : Option β) (h : xs.length ≤ ys.length) :
    List.Forall₂ R xs (extra.toList ++ ys) ↔ extra = none ∧ List.Forall₂ R xs ys := by
  cases extra with
  | none => simp
  | some y =>
    refine ⟨fun hall => ?_, fun hall => nomatch hall.1⟩
    have hlength := hall.length_eq
    rw [List.length_append, Option.toList_some, List.length_singleton] at hlength
    omega

/-- How the lines of a message are read once they are cut. -/
structure ReadsMessage (b : TrailerBlock) (cut : MessageLine → Chars)
    (message : List MessageLine) : Prop where
  trailer : ∀ i c, message[i]? = some (.trailer c) → ∀ next?,
    ∃ t, b.readLine i (cut (.trailer c)) next? = (some t, false) ∧
      ReadsCommit c.toResolvedFixesCommit t
  unindented : ∀ l ∈ message, l.commit? = none → l.isIndented = false → ∀ i next?,
    b.readLine i (cut l) next? = (none, false)
  apart : ∀ c i line, (b.readLine i line (some (cut (.trailer c)))).2 = false

/-- What is found from a line on: no fewer trailers than there are, and no others where every stop
is quiet. -/
def FindsFrom (b : TrailerBlock) (message : List MessageLine) (commits : List ResolvedFixesCommit)
    (found : List ParsedFixesTrailer) (stops : List ReaderStop) : Prop :=
  commits.length ≤ found.length ∧
    (List.Forall₂ ReadsCommit commits found ↔ ∀ p ∈ stops, p.Quiet b message)

section Run

variable {b : TrailerBlock} {cut : MessageLine → Chars} {message : List MessageLine}

theorem findsFrom_step (h : ReadsMessage b cut message) {l : MessageLine} {idx : ℕ}
    (hl : message[idx]? = some l) (next? : Option Chars) {commits : List ResolvedFixesCommit}
    {found : List ParsedFixesTrailer} {stops : List ReaderStop}
    (hrest : FindsFrom b message commits found stops) :
    FindsFrom b message (l.commit?.toList ++ commits)
      ((b.readLine idx (cut l) next?).1.toList ++ found) (⟨idx, cut l, next?⟩ :: stops) := by
  obtain ⟨hlength, hfinds⟩ := hrest
  cases l with
  | trailer c =>
    obtain ⟨t, hread, hcommit⟩ := h.trailer idx c hl next?
    have hquiet : ReaderStop.Quiet b message ⟨idx, cut (.trailer c), next?⟩ := by
      intro l hsame hindented
      rw [hl] at hsame
      cases hsame
      cases hindented
    rw [hread, FindsFrom, List.forall_mem_cons, and_iff_right hquiet, ← hfinds]
    refine ⟨Nat.succ_le_succ hlength, ?_⟩
    exact ⟨fun hall => (List.forall₂_cons.mp hall).2, fun hall => .cons hcommit hall⟩
  | plain text clean not_fixes =>
    refine ⟨?_, ?_⟩
    · rw [MessageLine.commit?, Option.toList_none, List.nil_append, List.length_append]
      omega
    · rw [MessageLine.commit?, Option.toList_none, List.nil_append, forall₂_extra _ hlength,
        List.forall_mem_cons, hfinds]
      refine and_congr_left fun _ => ⟨fun hnone l _ _ => hnone, fun hquiet => ?_⟩
      cases hindented : MessageLine.isIndented (.plain text clean not_fixes) with
      | true => exact hquiet _ hl hindented
      | false =>
        exact congrArg Prod.fst
          (h.unindented _ (List.mem_of_getElem? hl) rfl hindented idx next?)

theorem filterMap_commit_cons (l : MessageLine) (ls : List MessageLine) :
    (l :: ls).filterMap MessageLine.commit? = l.commit?.toList ++ ls.filterMap MessageLine.commit? := by
  cases l <;> rfl

theorem findsFrom_suffix (h : ReadsMessage b cut message) (ls above : List MessageLine)
    (hsplit : message = above ++ ls) :
    FindsFrom b message (ls.filterMap MessageLine.commit?)
      (scanTrailers b above.length (ls.map cut)) (b.stops above.length (ls.map cut)) := by
  induction ls using List.twoStepInduction generalizing above with
  | nil => exact ⟨Nat.le_refl 0, by simp [scanTrailers, TrailerBlock.stops]⟩
  | singleton l =>
    have hl : message[above.length]? = some l := by simp [hsplit]
    have hnil : FindsFrom b message [] [] [] := ⟨Nat.le_refl 0, by simp⟩
    have hstep := findsFrom_step h hl none hnil
    rw [List.append_nil, List.append_nil] at hstep
    rw [filterMap_commit_cons, List.filterMap_nil, List.append_nil]
    exact hstep
  | cons_cons l next rest ihrest ih =>
    have hl : message[above.length]? = some l := by simp [hsplit]
    rw [List.map_cons, List.map_cons, scanTrailers, TrailerBlock.stops]
    cases hjoined : (b.readLine above.length (cut l) (some (cut next))).2 with
    | false =>
      have hbehind := ih next (above ++ [l]) (by simp [hsplit])
      rw [List.length_append, List.length_singleton, List.map_cons] at hbehind
      rw [if_neg Bool.false_ne_true, if_neg Bool.false_ne_true, filterMap_commit_cons]
      exact findsFrom_step h hl _ hbehind
    | true =>
      have hnext : next.commit? = none := by
        cases next with
        | plain text clean not_fixes => rfl
        | trailer c =>
          rw [h.apart c] at hjoined
          cases hjoined
      have hbehind := ihrest (above ++ [l, next]) (by simp [hsplit])
      rw [List.length_append, List.length_cons, List.length_singleton] at hbehind
      rw [if_pos rfl, if_pos rfl, filterMap_commit_cons, filterMap_commit_cons, hnext,
        Option.toList_none, List.nil_append]
      exact findsFrom_step h hl _ hbehind

end Run

/-! ### The message of a commit -/

theorem isBlank_stripIndent (k : ℕ) (cs : Chars) : isBlank (stripIndent k cs) = isBlank cs := by
  unfold stripIndent
  split_ifs with h
  · rw [h]
    rfl
  · have hspaces : isBlank (cs.take (min (leadingSpaces cs) k)) = true := by
      rw [isBlank_iff]
      intro c hc
      have hle : min (leadingSpaces cs) k ≤ (cs.takeWhile (· = ' ')).length := Nat.min_le_left _ _
      have htake : cs.take (min (leadingSpaces cs) k) =
          (cs.takeWhile (· = ' ')).take (min (leadingSpaces cs) k) := by
        rw [← List.take_append_of_le_length hle, List.takeWhile_append_dropWhile]
      rw [htake] at hc
      have hspace := List.mem_takeWhile_imp (List.mem_of_mem_take hc)
      rw [of_decide_eq_true hspace]
      decide
    conv_rhs => rw [← List.take_append_drop (min (leadingSpaces cs) k) cs]
    rw [isBlank_append _ _ hspaces]

theorem stripIndent_of_head {cs : Chars} (h : cs.head? ≠ some ' ') (k : ℕ) :
    stripIndent k cs <+: cs := by
  have hspaces : leadingSpaces cs = 0 := by
    cases cs with
    | nil => rfl
    | cons c cs =>
      have hc : c ≠ ' ' := fun hc => h (congrArg some hc)
      rw [leadingSpaces, List.takeWhile_cons_of_neg (by simpa using hc), List.length_nil]
  unfold stripIndent
  split_ifs
  · exact List.nil_prefix
  · exact ⟨[], by rw [hspaces, Nat.zero_min, List.drop_zero, List.append_nil]⟩

namespace CitedCommit

variable (c : CitedCommit)

theorem trimEnd_trailer : trimEnd c.canonicalTrailer = c.canonicalTrailer :=
  trimEnd_of_endsVisibly (endsVisibly_append c.endsVisibly_payload)

theorem stripIndent_trailer (k : ℕ) :
    stripIndent k (trimEnd c.canonicalTrailer) = c.canonicalTrailer := by
  have hvisible : isBlank c.canonicalTrailer = false := isBlank_of_head (by decide) _
  have hspaces : leadingSpaces c.canonicalTrailer = 0 := rfl
  rw [c.trimEnd_trailer, stripIndent, if_neg (by rw [hvisible]; decide), hspaces, Nat.zero_min,
    List.drop_zero]

/-- A canonical trailer does not belong to the line above. -/
theorem readLine_above (b : TrailerBlock) (idx : ℕ) (line : Chars) :
    (b.readLine idx line (some c.canonicalTrailer)).2 = false := by
  have htrim : trimChars c.canonicalTrailer = c.canonicalTrailer := by
    have hfirst : c.canonicalTrailer.dropWhile isRustWhitespace = c.canonicalTrailer := rfl
    rw [trimChars, hfirst]
    exact c.trimEnd_trailer
  have hkey : isTrailerLine c.canonicalTrailer = true := rfl
  have hnone : ∀ value, continuation value (some c.canonicalTrailer) = none := fun value => by
    rw [continuation, Option.map_some, htrim, Option.filter_some, hkey, Bool.not_true,
      Bool.and_false, if_neg Bool.false_ne_true, ite_self]
  unfold TrailerBlock.readLine
  split_ifs
  · rfl
  · split
    · rfl
    · simp only [hnone, Option.isSome_none]
      split_ifs <;> rfl

end CitedCommit

namespace ShownCommit

variable (s : ShownCommit)

def cut (l : MessageLine) : Chars :=
  stripIndent (baseIndentOf (s.messageLines.map (trimEnd ·.text))) (trimEnd l.text)

theorem cutLines_eq : s.cutLines = s.messageLines.map s.cut := by
  rw [cutLines, List.map_map]
  rfl

theorem isBlank_cut (l : MessageLine) : isBlank (s.cut l) = isBlank l.text := by
  rw [cut, isBlank_stripIndent, isBlank_trimEnd]

/-- The subject is no trailer, with or without its indentation. -/
theorem subjectIdx_ne {i : ℕ} {c : CitedCommit} (h : s.messageLines[i]? = some (.trailer c)) :
    some i ≠ (TrailerBlock.of s.cutLines).subjectIdx := by
  intro hidx
  have hfind : s.messageLines.find? (!isBlank ·.text) = some (.trailer c) := by
    have hsubject : s.messageLines.findIdx? (!isBlank ·.text) = some i := by
      rw [hidx, TrailerBlock.of, cutLines_eq, List.findIdx?_map]
      congr 1
      funext l
      rw [Function.comp_apply, s.isBlank_cut]
    obtain ⟨hlt, hvisible, hbefore⟩ := List.findIdx?_eq_some_iff_getElem.mp hsubject
    rw [List.getElem?_eq_getElem hlt, Option.some.injEq] at h
    rw [List.find?_eq_some_iff_getElem]
    exact ⟨h ▸ hvisible, i, hlt, h, fun j hj => by simpa using hbefore j hj⟩
  rw [messageLines, List.find?_append, Option.or_eq_some_iff] at hfind
  rcases hfind with hfind | ⟨-, hfind⟩
  · exact s.subject_plain c hfind
  · split at hfind <;> cases hfind

theorem readsMessage : ReadsMessage (.of s.cutLines) s.cut s.messageLines where
  trailer i c h next? := by
    have hread := c.readLine_trailer (s.subjectIdx_ne h) next?
    rw [cut, MessageLine.text, c.stripIndent_trailer]
    exact ⟨_, hread, rfl, rfl⟩
  unindented l _ hcommit hindented i next? := by
    cases l with
    | trailer c => cases hcommit
    | plain text clean not_fixes =>
      have hpre : trimEnd text <+: text := List.rdropWhile_prefix _ _
      have hhead : (trimEnd text).head? ≠ some ' ' := by
        intro hspace
        obtain ⟨rest, hrest⟩ := List.head?_eq_some_iff.mp hspace
        obtain ⟨more, hmore⟩ := hpre
        rw [hrest] at hmore
        have htext : text.head? = some ' ' := by
          rw [← hmore]
          rfl
        rw [MessageLine.isIndented, htext] at hindented
        cases hindented
      exact TrailerBlock.readLine_of_captures (fixesLineCaptures_of_isPrefix
        ((stripIndent_of_head hhead _).trans hpre) not_fixes) _ _ _
  apart c i line := by
    rw [cut, MessageLine.text, c.stripIndent_trailer]
    exact c.readLine_above _ _ _

theorem commits_messageLines : s.messageLines.filterMap MessageLine.commit? = s.commits := by
  rw [messageLines, List.filterMap_append, commits]
  split_ifs
  · rw [List.filterMap_nil, List.append_nil]
  · rw [List.filterMap_cons_none rfl, List.filterMap_nil, List.append_nil]

end ShownCommit

theorem TrailerBlock.exists_of_mem_stops {b : TrailerBlock} {idx : ℕ} {lines : List Chars}
    {p : ReaderStop} (h : p ∈ b.stops idx lines) : ∃ i, p.idx = idx + i ∧ lines[i]? = some p.line := by
  induction lines using List.twoStepInduction generalizing idx with
  | nil => cases h
  | singleton line =>
    rw [stops, List.mem_singleton] at h
    exact ⟨0, by rw [h, Nat.add_zero], by rw [h]; rfl⟩
  | cons_cons line next rest ihrest ih =>
    rw [stops] at h
    rcases List.mem_cons.mp h with rfl | h
    · exact ⟨0, rfl, rfl⟩
    split_ifs at h
    · obtain ⟨i, hidx, hline⟩ := ihrest h
      exact ⟨i + 2, by omega, hline⟩
    · obtain ⟨i, hidx, hline⟩ := ih next h
      exact ⟨i + 1, by omega, hline⟩

/-- The usual commit, which is no merge and whose subject does not start with a space. -/
theorem ShownCommit.keepsToTrailers {s : ShownCommit} (hmerge : s.isMerge = false)
    (hsubject : baseIndentOf (s.messageLines.map (trimEnd ·.text)) = 0) : s.KeepsToTrailers := by
  unfold KeepsToTrailers
  rw [hmerge, if_neg Bool.false_ne_true]
  intro p hp l hl hindented
  obtain ⟨i, hidx, hline⟩ := TrailerBlock.exists_of_mem_stops hp
  rw [Nat.zero_add] at hidx
  rw [s.cutLines_eq, List.getElem?_map, ← hidx, hl, Option.map_some, Option.some.injEq] at hline
  have hquiet : fixesLineCaptures p.line = none := by
    rw [← hline, cut, hsubject]
    cases l with
    | trailer c => cases hindented
    | plain text clean not_fixes =>
      have hpre : trimEnd text <+: text := List.rdropWhile_prefix _ _
      unfold stripIndent
      split_ifs
      · decide
      · rw [Nat.min_zero, List.drop_zero]
        exact fixesLineCaptures_of_isPrefix hpre not_fixes
  rw [TrailerBlock.readLine_of_captures hquiet]

/-- The trailers that are read are the canonical ones if and only if the commit is no merge, or has
no trailers, and no indented line is taken for one with the spaces of the subject. -/
theorem extractFixesTrailers_iff (s : ShownCommit) :
    List.Forall₂ ReadsCommit s.commits (extractFixesTrailers s.text) ↔ s.KeepsToTrailers := by
  unfold ShownCommit.KeepsToTrailers
  cases hmerge : s.isMerge with
  | true =>
    rw [if_pos rfl, ShownCommit.extractFixesTrailers_of_isMerge hmerge, List.forall₂_nil_right_iff]
  | false =>
    have hrun := findsFrom_suffix s.readsMessage s.messageLines [] rfl
    rw [s.commits_messageLines, ← s.cutLines_eq, List.length_nil] at hrun
    rw [if_neg Bool.false_ne_true, extractFixesTrailers,
      ShownCommit.extractCommitMessageLines_text hmerge]
    exact hrun.2

/-- A trailer that is quoted two spaces deep, under a subject that starts with two spaces. -/
def indentedQuote : ShownCommit where
  header := [⟨.commit, ['1'], by decide⟩]
  message := [.plain "  x".toList (by decide) (by decide), .empty,
    .plain "  Fixes: 123456789abc (y)".toList (by decide) (by decide)]
  diff := []
  subject_plain := nofun
  diff_clean := nofun
  diff_starts := nofun

/-- A trailer of a merge. -/
def citingMerge : ShownCommit where
  header := [⟨.commit, ['1'], by decide⟩, ⟨.merge, ['2', ' ', '3'], by decide⟩]
  message := [.plain ['x'] newline_not_mem_x (by decide), .empty,
    .trailer ⟨⟨[], "123456789abc".toList, [], ['y']⟩, by decide, by decide, by decide⟩]
  diff := []
  subject_plain := nofun
  diff_clean := nofun
  diff_starts := nofun

theorem trailers_misread :
    ¬List.Forall₂ ReadsCommit indentedQuote.commits (extractFixesTrailers indentedQuote.text) ∧
      ¬List.Forall₂ ReadsCommit citingMerge.commits (extractFixesTrailers citingMerge.text) := by
  constructor
  · intro h
    exact absurd h.length_eq (by decide)
  · intro h
    exact absurd h.length_eq (by decide)

end Sashiko
