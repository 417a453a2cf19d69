import Mathlib.Data.List.DropRight
import Mathlib.Data.List.TakeWhile
import Mathlib.Tactic.Common

/-! The `str` methods the source uses, on the list of a string's characters. -/

namespace Sashiko

/-- Lists of texts are compared lawfully; the proof is named so that the definitions share it. -/
theorem lawfulBEq_texts : LawfulBEq (List Char) := inferInstance

/-! What the tests and the folding of ASCII letters are. -/

theorem isUpper_def (c : Char) : c.isUpper = decide (c.val ≥ 'A'.val ∧ c.val ≤ 'Z'.val) := rfl

theorem isLower_def (c : Char) :
    c.isLower = (decide (c.val ≥ 'a'.val) && decide (c.val ≤ 'z'.val)) := rfl

theorem isAlpha_def (c : Char) : c.isAlpha = (c.isUpper || c.isLower) := rfl

theorem isValidChar_lower {c : Char} (h : c.val ≥ 'A'.val ∧ c.val ≤ 'Z'.val) :
    (c.val + ('a'.val - 'A'.val)).isValidChar := by
  have hval : c.toLower.val = c.val + ('a'.val - 'A'.val) := congrArg Char.val (dif_pos h)
  exact hval ▸ c.toLower.valid

theorem toLower_def (c : Char) :
    c.toLower = if h : c.val ≥ 'A'.val ∧ c.val ≤ 'Z'.val then
      ⟨c.val + ('a'.val - 'A'.val), isValidChar_lower h⟩ else c := rfl

/-- `char::is_whitespace` -/
def isRustWhitespace (c : Char) : Bool :=
  (9 ≤ c.toNat && c.toNat ≤ 13) || (0x2000 ≤ c.toNat && c.toNat ≤ 0x200A) ||
    [0x20, 0x85, 0xA0, 0x1680, 0x2028, 0x2029, 0x202F, 0x205F, 0x3000].contains c.toNat

def charsLt : List Char → List Char → Bool
  | _, [] => false
  | [], _ :: _ => true
  | a :: as, b :: bs => a.toNat < b.toNat || (a.toNat = b.toNat && charsLt as bs)

/-- `<` on `str`: the order of the bytes, which in UTF-8 is that of the code points. -/
def textLt (a b : String) : Bool := charsLt a.toList b.toList

/-- `str::trim` -/
def rustTrim (s : String) : String :=
  String.ofList ((s.toList.dropWhile isRustWhitespace).reverse.dropWhile isRustWhitespace).reverse

/-- `str::to_ascii_lowercase` -/
def asciiLower (s : String) : String := String.ofList (s.toList.map Char.toLower)

/-- `str::eq_ignore_ascii_case` -/
def eqIgnoreAsciiCase (a b : String) : Bool := asciiLower a = asciiLower b

/-- `str::starts_with` -/
def startsWithText (s pre : String) : Bool := pre.toList.isPrefixOf s.toList

/-- `str::ends_with` -/
def endsWithText (s suf : String) : Bool := suf.toList.isSuffixOf s.toList

/-- `str::contains` -/
def containsText (s part : String) : Bool := s.toList.tails.any part.toList.isPrefixOf

/-- `str::strip_prefix` -/
def stripPrefix? (s pre : String) : Option String :=
  if startsWithText s pre then some (String.ofList (s.toList.drop pre.length)) else none

def dropAllPrefix (pre : List Char) : ℕ → List Char → List Char
  | 0, cs => cs
  | n + 1, cs => if pre.isPrefixOf cs then dropAllPrefix pre n (cs.drop pre.length) else cs

/-- `str::trim_start_matches`, for a text that is not empty. -/
def trimStartMatches (s pre : String) : String :=
  String.ofList (dropAllPrefix pre.toList s.length s.toList)

/-- `str::trim_end_matches`, for a text that is not empty. -/
def trimEndMatches (s suf : String) : String :=
  String.ofList (dropAllPrefix suf.toList.reverse s.length s.toList.reverse).reverse

def splitChars (sep : Char) : List Char → List (List Char)
  | [] => [[]]
  | c :: cs =>
    if c = sep then [] :: splitChars sep cs
    else match splitChars sep cs with
      | [] => [[c]]
      | part :: parts => (c :: part) :: parts

/-- `str::split` -/
def splitText (s : String) (sep : Char) : List String := (splitChars sep s.toList).map String.ofList

/-- `str::replace`, one character for another. -/
def replaceChar (s : String) (old new : Char) : String :=
  String.ofList (s.toList.map fun c => if c = old then new else c)

/-- The characters with every `pat` replaced from the left; the first argument counts those of a
match still to be skipped. -/
def replaceChars (pat new : List Char) : ℕ → List Char → List Char
  | _, [] => []
  | n + 1, _ :: cs => replaceChars pat new n cs
  | 0, c :: cs =>
    if pat.isPrefixOf (c :: cs) then new ++ replaceChars pat new (pat.length - 1) cs
    else c :: replaceChars pat new 0 cs

/-- `str::replace`, for a pattern that is not empty. -/
def replaceText (s pat new : String) : String :=
  String.ofList (replaceChars pat.toList new.toList 0 s.toList)

/-- `str::split_once` -/
def splitOnce (sep : Char) : List Char → Option (List Char × List Char)
  | [] => none
  | c :: cs => if c = sep then some ([], cs) else (splitOnce sep cs).map fun p => (c :: p.1, p.2)

/-- `str::rsplit_once` -/
def rsplitOnce (sep : Char) (cs : List Char) : Option (List Char × List Char) :=
  (splitOnce sep cs.reverse).map fun p => (p.2.reverse, p.1.reverse)

/-- `str::trim_matches` -/
def trimMatches (p : Char → Bool) (cs : List Char) : List Char := (cs.dropWhile p).rdropWhile p

/-- `str::split_whitespace` -/
def splitWhitespace (cs : List Char) : List (List Char) :=
  (cs.splitOnP isRustWhitespace).filter (· ≠ [])

def dropReturn (cs : List Char) : List Char :=
  if cs.getLast? = some '\r' then cs.dropLast else cs

/-- `str::lines` -/
def linesOf (cs : List Char) : List (List Char) :=
  (splitChars '\n' cs).dropLast.map dropReturn ++
    ((splitChars '\n' cs).getLast?.filter (· ≠ [])).toList

/-! ### Trimming -/

def trimChars (cs : List Char) : List Char :=
  (cs.dropWhile isRustWhitespace).rdropWhile isRustWhitespace

theorem toList_rustTrim (s : String) : (rustTrim s).toList = trimChars s.toList := by
  rw [rustTrim, String.toList_ofList]
  rfl

theorem trimChars_idempotent (cs : List Char) : trimChars (trimChars cs) = trimChars cs := by
  have hhead : (trimChars cs).dropWhile isRustWhitespace = trimChars cs := by
    refine List.dropWhile_eq_self_iff.mpr fun hpos hspace => ?_
    obtain ⟨rest, hrest⟩ : trimChars cs <+: cs.dropWhile isRustWhitespace :=
      List.rdropWhile_prefix _ _
    have hlen : 0 < (cs.dropWhile isRustWhitespace).length := by
      rw [← hrest, List.length_append]
      omega
    have hget : (cs.dropWhile isRustWhitespace)[0] = (trimChars cs)[0] := by
      simp only [← hrest]
      rw [List.getElem_append_left]
    exact List.dropWhile_get_zero_not isRustWhitespace cs hlen (by
      rw [List.get_eq_getElem, hget]
      exact hspace)
  rw [trimChars, hhead, trimChars, List.rdropWhile_idempotent]

theorem rustTrim_idempotent (s : String) : rustTrim (rustTrim s) = rustTrim s :=
  String.toList_injective (by rw [toList_rustTrim, toList_rustTrim, trimChars_idempotent])

theorem trimChars_within (cs : List Char) : trimChars cs <:+: cs :=
  List.IsInfix.trans (List.IsPrefix.isInfix <| List.rdropWhile_prefix _ _)
    (List.dropWhile_suffix _).isInfix

theorem mem_dropWhile_of_not {α : Type} {p : α → Bool} {x : α} {xs : List α} (hx : x ∈ xs)
    (hp : p x = false) : x ∈ xs.dropWhile p := by
  induction xs with
  | nil => cases hx
  | cons y ys ih =>
    by_cases hy : p y = true
    · rw [List.dropWhile_cons_of_pos hy]
      rcases List.mem_cons.mp hx with rfl | hx
      · exact absurd hy (by simp [hp])
      · exact ih hx
    · rwa [List.dropWhile_cons_of_neg hy]

theorem mem_trimChars {c : Char} {cs : List Char} (hc : c ∈ cs)
    (hspace : isRustWhitespace c = false) : c ∈ trimChars cs :=
  List.mem_reverse.mpr (mem_dropWhile_of_not
    (List.mem_reverse.mpr (mem_dropWhile_of_not hc hspace)) hspace)

theorem takeWhile_append_stop {c : Char} {pre : List Char} (h : c ∉ pre) (rest : List Char) :
    (pre ++ c :: rest).takeWhile (· ≠ c) = pre := by
  have hpre : ∀ x ∈ pre, decide (x ≠ c) = true := fun x hx =>
    decide_eq_true fun heq => h (heq ▸ hx)
  rw [List.takeWhile_append_of_pos hpre, List.takeWhile_cons_of_neg (by simp), List.append_nil]

/-! ### Texts without white space at their ends -/

theorem rustTrim_eq_self {s : String} {first last : Char} {mid : List Char}
    (hs : s.toList = first :: mid) (hlast : s.toList.getLast? = some last)
    (hfirst : isRustWhitespace first = false) (hend : isRustWhitespace last = false) :
    rustTrim s = s := by
  unfold rustTrim
  have hdrop : s.toList.dropWhile isRustWhitespace = s.toList := by
    rw [hs, List.dropWhile_cons_of_neg (by simp [hfirst])]
  have hrev : s.toList.reverse.dropWhile isRustWhitespace = s.toList.reverse := by
    rw [← List.head?_reverse] at hlast
    obtain ⟨rest, hrest⟩ := List.head?_eq_some_iff.mp hlast
    rw [hrest, List.dropWhile_cons_of_neg (by simp [hend])]
  rw [hdrop, hrev, List.reverse_reverse, String.ofList_toList]

theorem not_whitespace_of_isDigit {c : Char} (h : c.isDigit = true) :
    isRustWhitespace c = false := by
  simp only [Char.isDigit, Bool.and_eq_true, decide_eq_true_eq, UInt32.le_iff_toNat_le] at h
  have hlo : 48 ≤ c.toNat := h.1
  have hhi : c.toNat ≤ 57 := h.2
  simp only [isRustWhitespace, List.contains_cons, List.contains_nil, Bool.or_eq_false_iff,
    Bool.and_eq_false_iff, decide_eq_false_iff_not, beq_eq_false_iff_ne, and_true, not_le]
  omega

/-- Letters and a number: the shape of every id the pipeline gives out. -/
theorem rustTrim_numbered {letters : String} {first : Char} {rest : List Char}
    (hletters : letters.toList = first :: rest) (hfirst : isRustWhitespace first = false) (n : ℕ) :
    rustTrim (letters ++ toString n) = letters ++ toString n := by
  have hdigits : (toString n).toList = Nat.toDigits 10 n := Nat.toList_repr
  have hlist : (letters ++ toString n).toList = first :: (rest ++ Nat.toDigits 10 n) := by
    rw [String.toList_append, hletters, hdigits, List.cons_append]
  have hne : Nat.toDigits 10 n ≠ [] := Nat.toDigits_ne_nil
  have htail : rest ++ Nat.toDigits 10 n ≠ [] := List.append_ne_nil_of_right_ne_nil _ hne
  have hlast : (letters ++ toString n).toList.getLast? = some ((Nat.toDigits 10 n).getLast hne) := by
    rw [hlist, List.getLast?_cons_of_ne_nil htail, List.getLast?_append,
      List.getLast?_eq_some_getLast hne, Option.some_or]
  have hdigit := Nat.isDigit_of_mem_toDigits (by omega) (by omega) (List.getLast_mem hne)
  exact rustTrim_eq_self hlist hlast hfirst (not_whitespace_of_isDigit hdigit)

theorem eq_of_numbered_eq {letter : String} {m n : ℕ}
    (h : letter ++ toString m = letter ++ toString n) : m = n := by
  have hlist := congrArg String.toList h
  rw [String.toList_append, String.toList_append, List.append_right_inj] at hlist
  have hm : (toString m).toList = Nat.toDigits 10 m := Nat.toList_repr
  have hn : (toString n).toList = Nat.toDigits 10 n := Nat.toList_repr
  rw [hm, hn] at hlist
  have hval := congrArg (Nat.ofDigitChars 10 · 0) hlist
  simpa [Nat.ofDigitChars_toDigits] using hval

end Sashiko
