import Sashiko.Lib.JsonText
import Sashiko.Lib.Lines

/-! A model's answer read as JSON: a code fence around it removed, control characters in its string
literals escaped, and objects found in the text around them. -/

namespace Sashiko

/-- As many of the first characters as fit in so many bytes. -/
def utf8Prefix (maxBytes : ℕ) : List Char → List Char
  | [] => []
  | c :: rest =>
    if c.utf8Size ≤ maxBytes then c :: utf8Prefix (maxBytes - c.utf8Size) rest else []

/-! ### Cleaning -/

/-- `\\u{:04x}`, for a character below 32. -/
def controlEscape (c : Char) : List Char :=
  ['\\', 'u', '0', '0', Json.hexDigit (c.toNat / 16), Json.hexDigit (c.toNat % 16)]

/-- The rest of the text, for whether a literal is open and an escape pending. -/
def cleanFrom : (inString escape : Bool) → List Char → List Char
  | _, escape, [] => if escape then ['\\'] else []
  | true, true, c :: rest => '\\' :: c :: cleanFrom true false rest
  | true, false, c :: rest =>
    if c = '\\' then cleanFrom true true rest
    else if c = '"' then c :: cleanFrom false false rest
    else if c = '\n' then '\\' :: 'n' :: cleanFrom true false rest
    else if c = '\r' then '\\' :: 'r' :: cleanFrom true false rest
    else if c = '\t' then '\\' :: 't' :: cleanFrom true false rest
    else if c.toNat < 32 then controlEscape c ++ cleanFrom true false rest
    else c :: cleanFrom true false rest
  | false, escape, c :: rest => c :: cleanFrom (c = '"') escape rest

def cleanJsonString (input : List Char) : List Char := cleanFrom false false input

/-! ### Objects in a text -/

/-- How many characters stand before the brace that closes the object. -/
def closingBraceFrom (depth : ℤ) : (inString escape : Bool) → List Char → Option ℕ
  | _, _, [] => none
  | true, true, _ :: rest => (closingBraceFrom depth true false rest).map (· + 1)
  | true, false, c :: rest =>
    if c = '\\' then (closingBraceFrom depth true true rest).map (· + 1)
    else (closingBraceFrom depth (c ≠ '"') false rest).map (· + 1)
  | false, escape, c :: rest =>
    if c = '"' then (closingBraceFrom depth true escape rest).map (· + 1)
    else if c = '\x7b' then (closingBraceFrom (depth + 1) false escape rest).map (· + 1)
    else if c = '\x7d' then
      if depth - 1 = 0 then some 0 else (closingBraceFrom (depth - 1) false escape rest).map (· + 1)
    else (closingBraceFrom depth false escape rest).map (· + 1)

/-- `find_matching_brace` of the text from a position on; the result is relative to it. -/
def findMatchingBrace (chars : List Char) : Option ℕ := closingBraceFrom 0 false false chars

section Candidates
variable (parse : List Char → Option Json)

/-- The object that the text starts with, and where it ends. -/
def candidateAt (chars : List Char) : Option (ℕ × Json) := do
  let last ← findMatchingBrace chars
  let candidate := chars.take (last + 1)
  let v ← (parse (cleanJsonString candidate)).or (parse candidate)
  return (last, v)

def findJsonCandidates : List Char → List Json
  | [] => []
  | c :: rest =>
    if c = '\x7b' then
      match candidateAt parse (c :: rest) with
      | some (last, v) => v :: findJsonCandidates (rest.drop last)
      | none => findJsonCandidates rest
    else findJsonCandidates rest
termination_by chars => chars.length
decreasing_by all_goals simp only [List.length_drop, List.length_cons]; omega

end Candidates

/-! ### The whole answer -/

def fence : List Char := "```".toList

def stripPrefix (pre text : List Char) : Option (List Char) :=
  if pre.isPrefixOf text then some (text.drop pre.length) else none

def stripSuffix (suf text : List Char) : Option (List Char) :=
  if suf.isSuffixOf text then some (text.take (text.length - suf.length)) else none

/-- What follows the first line break. -/
def afterLineBreak (text : List Char) : Option (List Char) :=
  if '\n' ∈ text then some ((text.dropWhile (· ≠ '\n')).drop 1) else none

def stripLeadingJsonFence (text : List Char) : List Char :=
  match (stripPrefix fence (trimStart text)).bind afterLineBreak with
  | none => text
  | some body =>
    match stripSuffix fence (trimEnd body) with
    | some inner => trimEnd inner
    | none => text

/-- What decodes JSON: texts as the target type and as values, and values as the target type. -/
structure Decoder (T : Type) where
  fromStr : List Char → Except String T
  parse : List Char → Option Json
  fromValue : Json → Option T

def parseJsonFromText {T : Type} (d : Decoder T) (rawText : List Char) : Except String T :=
  match d.fromStr (cleanJsonString (stripLeadingJsonFence rawText)) with
  | .ok val => .ok val
  | .error primaryErr =>
    match d.fromStr (stripLeadingJsonFence rawText) with
    | .ok val => .ok val
    | .error _ =>
      match (findJsonCandidates d.parse rawText).reverse.findSome? d.fromValue with
      | some val => .ok val
      | none => .error ("Failed to parse JSON from output (" ++ primaryErr ++ "): " ++
          String.ofList (utf8Prefix 200 rawText))

end Sashiko
