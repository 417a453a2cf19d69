import Mathlib.Data.List.TakeWhile
import Mathlib.Tactic.Common

/-! The fragment of regular expressions that a file glob needs: an anchored sequence of characters,
of runs, and of characters other than `/`. -/

namespace Sashiko

inductive RegexAtom where
  | literal (c : Char)
  /-- `.*` -/
  | anyRun
  /-- `[^/]*` -/
  | segmentRun
  /-- `[^/]` -/
  | segmentChar
  deriving DecidableEq, Repr

namespace RegexAtom

/-- A run of any length, and the rest of the text behind it. -/
def matchRun (p : Char → Bool) (next : List Char → Bool) (cs : List Char) : Bool :=
  (List.range ((cs.takeWhile p).length + 1)).any fun n => next (cs.drop n)

def matchAtom (atom : RegexAtom) (next : List Char → Bool) (cs : List Char) : Bool :=
  match atom with
  | literal c => cs.head? = some c && next cs.tail
  | anyRun => matchRun (· ≠ '\n') next cs
  | segmentRun => matchRun (· ≠ '/') next cs
  | segmentChar => (cs.head?.any fun c => c ≠ '/') && next cs.tail

/-- The atoms match the whole text. -/
def matchAll (atoms : List RegexAtom) : List Char → Bool := atoms.foldr matchAtom List.isEmpty

theorem prefix_of_matchAll {literals : List Char} {atoms : List RegexAtom} {cs : List Char}
    (h : matchAll (literals.map literal ++ atoms) cs = true) : literals <+: cs := by
  induction literals generalizing cs with
  | nil => exact List.nil_prefix
  | cons c literals ih =>
    change (cs.head? = some c && matchAll (literals.map literal ++ atoms) cs.tail) = true at h
    rw [Bool.and_eq_true, decide_eq_true_eq] at h
    obtain ⟨tail, rfl⟩ := List.head?_eq_some_iff.mp h.1
    exact (List.prefix_cons_inj c).mpr (ih h.2)

end RegexAtom

open RegexAtom

/-- The characters that mean something else than themselves. -/
def isRegexMeta (c : Char) : Bool :=
  ['\\', '.', '+', '*', '?', '(', ')', '|', '[', ']', '{', '}', '^', '$'].contains c

/-- The atoms up to the closing `$`, for an expression of the fragment. -/
def readAtoms : List Char → Option (List RegexAtom)
  | ['$'] => some []
  | '\\' :: c :: cs => if isRegexMeta c then (readAtoms cs).map (literal c :: ·) else none
  | '.' :: '*' :: cs => (readAtoms cs).map (anyRun :: ·)
  | '[' :: '^' :: '/' :: ']' :: '*' :: cs => (readAtoms cs).map (segmentRun :: ·)
  | '[' :: '^' :: '/' :: ']' :: cs => (readAtoms cs).map (segmentChar :: ·)
  | c :: cs => if isRegexMeta c then none else (readAtoms cs).map (literal c :: ·)
  | [] => none

def readRegex : List Char → Option (List RegexAtom)
  | '^' :: cs => readAtoms cs
  | _ => none

/-- `Regex::new`: an expression that it accepts matches as it reads. Nothing is said about the
expressions outside the fragment. -/
structure RegexCompiler where
  compile : List Char → Option (List Char → Bool)
  reads : ∀ text atoms, readRegex text = some atoms →
    ∀ regex, compile text = some regex → ∀ cs, regex cs = matchAll atoms cs

/-- The compiler that accepts the fragment only. -/
def fragmentCompiler : RegexCompiler where
  compile text := (readRegex text).map matchAll
  reads text atoms h regex hregex cs := by
    rw [h, Option.map_some, Option.some_inj] at hregex
    rw [← hregex]

end Sashiko
