import Mathlib.Data.Nat.Digits.Defs
import Sashiko.Lib.LazyRuns
import Sashiko.Lib.Lines

/-! The tags of a patch subject: its version, its part counter, and the subject a promoted reply is
given. Regular expressions are unfolded into the runs they stand for. -/

namespace Sashiko

abbrev Text := List Char

/-- The prefixes that `clean_subject` strips, those of replies first. -/
def replyPrefixes : List Text :=
  ["re:".toList, "aw:".toList, "回复:".toList, "回复：".toList, "答复:".toList, "答复：".toList]

def cleanPrefixes : List Text :=
  ["re:".toList, "fwd:".toList, "aw:".toList, "wg:".toList, "forwarded:".toList, "回复:".toList,
    "回复：".toList, "答复:".toList, "答复：".toList]

/-- The Unicode classes `\w` and `\d`, `char::is_alphanumeric` and `str::to_lowercase`, with what the
code relies on. -/
structure CharTables where
  word : Char → Bool
  digit : Char → Bool
  alphanumeric : Char → Bool
  lowercase : Text → Text
  word_ascii : ∀ c : Char, c.toNat < 128 → word c = (c.isAlphanum || c = '_')
  digit_ascii : ∀ c : Char, c.toNat < 128 → digit c = c.isDigit
  alphanumeric_ascii : ∀ c : Char, c.toNat < 128 → alphanumeric c = c.isAlphanum
  word_of_digit : ∀ c, digit c = true → word c = true
  not_word_of_space : ∀ c, isRustWhitespace c = true → word c = false
  /-- `：` is punctuation, and `ſ` a letter. -/
  not_word_colon : word '：' = false
  word_long_s : word 'ſ' = true
  lowercase_starts : ∀ pre ∈ cleanPrefixes, ∀ cs,
    pre.isPrefixOf (lowercase cs) = pre.isPrefixOf (cs.map Char.toLower)

/-- `str::parse::<u32>`, for a text of digits. -/
def parseU32 (ds : Text) : Option ℕ :=
  if ds.all Char.isDigit ∧ Nat.ofDigitChars 10 ds 0 < 2 ^ 32 then
    some (Nat.ofDigitChars 10 ds 0)
  else none

/-- `(?i)` on a small letter. -/
def sameLetter (letter c : Char) : Bool := c.toLower = letter || (letter = 's' && c = 'ſ')

/-- A word in any case, and the text behind it. -/
def stripWord? : Text → Text → Option Text
  | [], cs => some cs
  | _ :: _, [] => none
  | letter :: word, c :: cs => if sameLetter letter c then stripWord? word cs else none

section Patterns

variable (t : CharTables)

/-- `\b` -/
def CharTables.edge (before : Option Char) (cs : Text) : Bool :=
  before.any t.word != cs.head?.any t.word

/-- `(\d+)\b`: with fewer digits than there are, the next character would be a digit. -/
def numberAt (cs : Text) : Option (Text × Text) :=
  if cs.takeWhile t.digit ≠ [] ∧ (cs.dropWhile t.digit).head?.any t.word = false then
    some (cs.takeWhile t.digit, cs.dropWhile t.digit)
  else none

/-- `v(\d+)\b` -/
def versionAt (cs : Text) : Option (Text × Text) := (stripWord? ['v'] cs).bind (numberAt t)

/-- `\b(?:…)\b` over words -/
def wordAt (words : List Text) (before : Option Char) (cs : Text) : Option Text :=
  if t.edge before cs then
    words.findSome? fun word =>
      (stripWord? word cs).filter fun rest => rest.head?.any t.word = false
  else none

/-! ### Versions -/

/-- `([^\]]*?)\]` -/
def closing (cs : Text) : Option (Text × Text) :=
  if ']' ∈ cs then some (cs.takeWhile (· ≠ ']'), (cs.dropWhile (· ≠ ']')).tail) else none

/-- `\bv(\d+)\b([^\]]*?)\]` -/
def versionToClose (before : Option Char) (cs : Text) : Option (Text × Text × Text) :=
  if t.edge before cs then
    (versionAt t cs).bind fun p => (closing p.2).map fun q => (p.1, q.1, q.2)
  else none

/-- `\[([^\]]*?)\bv(\d+)\b([^\]]*?)\]` -/
def bracketVersionAt : Text → Option (Text × Text × Text × Text)
  | '[' :: cs => firstMatch (· ≠ ']') (versionToClose t) (some '[') cs
  | _ => none

/-- `^\s*v(\d+)\b` -/
def leadingVersionAt (before : Option Char) (cs : Text) : Option (Text × Text) :=
  if before = none then versionAt t (cs.dropWhile isRustWhitespace) else none

/-- `PATCH\W*v(\d+)\b` -/
def patchVersionAt (cs : Text) : Option (Text × Text) :=
  (stripWord? "patch".toList cs).bind fun rest =>
    versionAt t (rest.dropWhile fun c => t.word c = false)

/-- The digits of a version, and the text behind the match. -/
def versionTagAt (before : Option Char) (cs : Text) : Option (Text × Text) :=
  (((bracketVersionAt t cs).map fun m => (m.2.1, m.2.2.2)).or (leadingVersionAt t before cs)).or
    (patchVersionAt t cs)

def versionTag (subject : Text) : Option (Text × Text × Text) :=
  firstMatch (fun _ => true) (versionTagAt t) none subject

def parseSubjectVersion (subject : Text) : Option ℕ :=
  (versionTag t subject).bind fun m => parseU32 m.2.1

/-! ### Counters -/

/-- `.` -/
def isDot (c : Char) : Bool := c ≠ '\n'

/-- `(\d+)/(\d+)` -/
def counterAt (cs : Text) : Option (Text × Text × Text) :=
  match cs.dropWhile t.digit with
  | '/' :: rest =>
    if cs.takeWhile t.digit ≠ [] ∧ rest.takeWhile t.digit ≠ [] then
      some (cs.takeWhile t.digit, rest.takeWhile t.digit, rest.dropWhile t.digit)
    else none
  | _ => none

/-- `(\d+)/(\d+).*?\]` -/
def counterToClose (cs : Text) : Option (Text × Text) :=
  (counterAt t cs).bind fun m =>
    if ']' ∈ m.2.2.takeWhile isDot then some (m.1, m.2.1) else none

def counterWords : List Text :=
  ["patch".toList, "rfc".toList, "resend".toList, "commit".toList]

/-- `\b(?:PATCH|RFC|RESEND|COMMIT|v\d+)\b` -/
def anyTagAt (before : Option Char) (cs : Text) : Option Text :=
  (wordAt t counterWords before cs).or
    (if t.edge before cs then (versionAt t cs).map (·.2) else none)

/-- `.*?(\d+)/(\d+).*?\]` -/
def counterBehind (cs : Text) : Option (Text × Text) :=
  (firstMatch isDot (fun _ => counterToClose t) none cs).map (·.2)

/-- `\b(?:PATCH|RFC|RESEND|COMMIT|v\d+)\b.*?(\d+)/(\d+).*?\]` -/
def tagThenCounter (before : Option Char) (cs : Text) : Option (Text × Text) :=
  (anyTagAt t before cs).bind (counterBehind t)

/-- `\[.*?\b(?:PATCH|RFC|RESEND|COMMIT|v\d+)\b.*?(\d+)/(\d+).*?\]` -/
def bracketCounterAt : Text → Option (Text × Text)
  | '[' :: cs => (firstMatch isDot (tagThenCounter t) (some '[') cs).map (·.2)
  | _ => none

/-- `\s+(\d+)/(\d+)\b` -/
def spacedCounterAt (cs : Text) : Option (Text × Text) :=
  if cs.head?.any isRustWhitespace then
    ((counterAt t (cs.dropWhile isRustWhitespace)).filter fun m =>
      m.2.2.head?.any t.word = false).map fun m => (m.1, m.2.1)
  else none

/-- `\b(?:PATCH|RFC|RESEND|COMMIT)\s+(\d+)/(\d+)\b` -/
def looseCounterAt (before : Option Char) (cs : Text) : Option (Text × Text) :=
  if t.edge before cs then
    counterWords.findSome? fun word => (stripWord? word cs).bind (spacedCounterAt t)
  else none

/-- `^\s*(\d+)/(\d+)\b` -/
def startCounter (cs : Text) : Option (Text × Text) :=
  ((counterAt t (cs.dropWhile isRustWhitespace)).filter fun m =>
    m.2.2.head?.any t.word = false).map fun m => (m.1, m.2.1)

/-! ### Cleaning -/

/-- The subject without what `\[.*?\]` matches; within a match if the first argument says so. -/
def dropGroups : Bool → Text → Text
  | _, [] => []
  | true, c :: cs => if c = ']' then dropGroups false cs else dropGroups true cs
  | false, c :: cs =>
    if c = '[' ∧ ']' ∈ cs.takeWhile isDot then dropGroups true cs else c :: dropGroups false cs

/-- The text without the prefixes, one after the other. Each round takes characters away, so as many
rounds as there are characters are enough. -/
def stripPrefixes (prefixes : List Text) : ℕ → Text → Text
  | 0, cs => cs
  | n + 1, cs =>
    match prefixes.find? fun pre => pre.isPrefixOf (t.lowercase cs) with
    | some pre => stripPrefixes prefixes n (trimChars (cs.drop pre.length))
    | none => cs

def cleanSubject (subject : Text) : Text :=
  stripPrefixes t cleanPrefixes subject.length (trimChars (dropGroups false subject))

/-- `(index, total)`, and part 1 of 1 where there is no counter. -/
def parseSubjectIndex (subject : Text) : ℕ × ℕ :=
  match ((firstMatch (fun _ => true) (fun _ => bracketCounterAt t) none subject).map (·.2)).or
    (((firstMatch (fun _ => true) (looseCounterAt t) none subject).map (·.2)).or
      (startCounter t (cleanSubject t subject))) with
  | some m => ((parseU32 m.1).getD 1, (parseU32 m.2).getD 1)
  | none => (1, 1)

/-! ### Promotion -/

/-- The contents of what `\[(.*?)\]` matches; within a match if the first argument says so. -/
def groupTexts : Bool → Text → List Text
  | _, [] => []
  | true, c :: cs => groupTexts (c ≠ ']') cs
  | false, c :: cs =>
    if c = '[' ∧ ']' ∈ cs.takeWhile isDot then cs.takeWhile (· ≠ ']') :: groupTexts true cs
    else groupTexts false cs

def subjectPrefixTokens (subject : Text) : List Text :=
  ((groupTexts false subject).flatMap fun content =>
    content.splitOnP fun c => !t.alphanumeric c && c ≠ '-' && c ≠ '.' && c ≠ '_').filter (· ≠ [])

def hasPatchOrRfcTag (subject : Text) : Bool :=
  (subjectPrefixTokens t subject).any fun tok =>
    tok.map Char.toLower = "patch".toList || tok.map Char.toLower = "rfc".toList

/-- The subject starts with the prefix of a reply. -/
def startsWithReply (subject : Text) : Bool :=
  replyPrefixes.any fun pre => pre.isPrefixOf (t.lowercase (trimChars subject))

/-- What a promotable subject may not contain. -/
def barredTexts : List Text :=
  ["fwd:".toList, "forwarded:".toList, "wg:".toList, "[reproducer]".toList, "(was ".toList,
    "(was:".toList]

def isPromotableReplyPatchSubject (subject : Text) : Bool :=
  startsWithReply t subject &&
    (barredTexts.all fun text => !(t.lowercase (trimChars subject)).tails.any text.isPrefixOf) &&
    hasPatchOrRfcTag t subject && cleanSubject t subject ≠ []

def stripReplies (subject : Text) : Text :=
  stripPrefixes t replyPrefixes subject.length (trimChars subject)

/-- `\b(?:PATCH|RFC)\b([^\]]*?)\]` -/
def tagToClose (before : Option Char) (cs : Text) : Option (Text × Text × Text) :=
  (wordAt t ["patch".toList, "rfc".toList] before cs).bind fun rest =>
    (closing rest).map fun q => (cs.take (cs.length - rest.length), q.1, q.2)

/-- `\[([^\]]*?\b(?:PATCH|RFC)\b)([^\]]*?)\]` -/
def bracketTagAt : Text → Option (Text × Text × Text × Text)
  | '[' :: cs => firstMatch (· ≠ ']') (tagToClose t) (some '[') cs
  | _ => none

/-- The first bracket with a version, what is before it, and its parts. -/
def bracketVersion (subject : Text) : Option (Text × Text × Text × Text × Text) :=
  firstMatch (fun _ => true) (fun _ => bracketVersionAt t) none subject

/-- The first bracket with a tag, what is before it, and its parts. -/
def bracketTag (subject : Text) : Option (Text × Text × Text × Text × Text) :=
  firstMatch (fun _ => true) (fun _ => bracketTagAt t) none subject

def versionText (version : ℕ) : Text := 'v' :: Nat.toDigits 10 version

def promoteReplyPatchSubject (subject : Text) (version : ℕ) : Text :=
  let stripped := stripReplies t subject
  if version ≤ 1 ∨ parseSubjectVersion t stripped = some version then stripped
  else
    match bracketVersion t stripped with
    | some (before, head, _, tail, after) =>
      before ++ '[' :: (head ++ versionText version ++ tail) ++ ']' :: after
    | none =>
      match bracketTag t stripped with
      | some (before, head, word, tail, after) =>
        before ++ '[' :: (head ++ word ++ ' ' :: versionText version ++ tail) ++ ']' :: after
      | none => "[PATCH ".toList ++ versionText version ++ "] ".toList ++ stripped

end Patterns

/-! ### Tables that can be computed -/

theorem bounds_of_isAlphanum {c : Char} (h : c.isAlphanum = true) :
    (48 ≤ c.toNat ∧ c.toNat ≤ 57) ∨ (65 ≤ c.toNat ∧ c.toNat ≤ 90) ∨
      (97 ≤ c.toNat ∧ c.toNat ≤ 122) := by
  simp only [Char.isAlphanum, isAlpha_def, isUpper_def, isLower_def, Char.isDigit,
    Bool.or_eq_true, decide_eq_true_eq, Bool.and_eq_true, UInt32.le_iff_toNat_le, ge_iff_le] at h
  have h0 : ('0' : Char).val.toNat = 48 := rfl
  have h9 : ('9' : Char).val.toNat = 57 := rfl
  have hA : ('A' : Char).val.toNat = 65 := rfl
  have hZ : ('Z' : Char).val.toNat = 90 := rfl
  have ha : ('a' : Char).val.toNat = 97 := rfl
  have hz : ('z' : Char).val.toNat = 122 := rfl
  have hc : c.val.toNat = c.toNat := rfl
  omega

theorem isAlphanum_of_whitespace {c : Char} (hc : isRustWhitespace c = true) :
    c.isAlphanum = false := by
  by_contra h
  have hbounds := bounds_of_isAlphanum (Bool.not_eq_false _ ▸ h)
  rw [isRustWhitespace] at hc
  simp at hc
  omega

/-- Tables that know ASCII, and that `ſ` is a letter. -/
def asciiTables : CharTables where
  word c := c.isAlphanum || c = '_' || c = 'ſ'
  digit := Char.isDigit
  alphanumeric := Char.isAlphanum
  lowercase cs := cs.map Char.toLower
  word_ascii c hc := by
    have hlong : c ≠ 'ſ' := by
      rintro rfl
      exact absurd hc (by decide)
    simp [hlong]
  digit_ascii _ _ := rfl
  alphanumeric_ascii _ _ := rfl
  word_of_digit c hc := by simp [Char.isAlphanum, hc]
  not_word_of_space c hc := by
    have hother : c ≠ '_' ∧ c ≠ 'ſ' := by
      constructor
      · rintro rfl
        exact absurd hc (by decide)
      · rintro rfl
        exact absurd hc (by decide)
    simp [isAlphanum_of_whitespace hc, hother]
  not_word_colon := by decide
  word_long_s := by decide
  lowercase_starts _ _ _ := rfl

end Sashiko
