import Sashiko.Ai.Truncator
import Sashiko.Diff.Location
import Sashiko.Lib.Lines

/-! `format_numbered_slice`: lines of a file under their numbers, cut to a budget. The numbers are
taken off again by `strip_tool_line_numbers`. -/

namespace Sashiko

open Truncator

def numberedLine (number : ℕ) (line : Chars) : Chars := Nat.toDigits 10 number ++ ':' :: ' ' :: line

def numberLines : ℕ → List Chars → List Chars
  | _, [] => []
  | first, line :: rest => numberedLine first line :: numberLines (first + 1) rest

inductive NumberedSlice where
  | emptyFile
  | pastEnd (totalLines : ℕ)
  | shown (startIdx endIdx totalLines : ℕ) (body : Chars) (truncated : Bool)
  deriving DecidableEq, Repr

def rangeError (startLine endLine : ℕ) : Chars :=
  "Invalid range: start_line (".toList ++ Nat.toDigits 10 startLine ++ ") > end_line (".toList ++
    Nat.toDigits 10 endLine ++ [')']

/-- The first line asked for, counted from 0. -/
def sliceStart (startLine : Option ℕ) : ℕ := (startLine.map (max · 1 - 1)).getD 0

/-- The line behind the last one asked for, counted from 0, and not before the first one. -/
def sliceStop (startLine endLine : Option ℕ) (totalLines : ℕ) : ℕ :=
  max (sliceStart startLine) (min ((endLine.map (min · totalLines)).getD totalLines) totalLines)

def sliceLines (content : Chars) (startLine endLine : Option ℕ) : List Chars :=
  ((linesOf content).drop (sliceStart startLine)).take
    (sliceStop startLine endLine (linesOf content).length - sliceStart startLine)

def numberedText (content : Chars) (startLine endLine : Option ℕ) : Chars :=
  joinLines (numberLines (sliceStart startLine + 1) (sliceLines content startLine endLine))

def numberedSlice (content : Chars) (startLine endLine : Option ℕ) (maxTokens : ℕ) :
    Except Chars NumberedSlice :=
  match startLine, endLine with
  | some s, some e => if e < s then .error (rangeError s e) else .ok slice
  | _, _ => .ok slice
where
  slice : NumberedSlice :=
    let totalLines := (linesOf content).length
    if totalLines = 0 then .emptyFile
    else if totalLines ≤ sliceStart startLine then .pastEnd totalLines
    else
      let res := truncateSequential (numberedText content startLine endLine) maxTokens
      .shown (sliceStart startLine + 1)
        (if res.truncated then sliceStart startLine + max res.linesKept 1
          else sliceStop startLine endLine totalLines)
        totalLines (res.content.rdropWhile (· = '\n')) res.truncated

def shownHeader (label : Chars) (startIdx endIdx totalLines : ℕ) : Chars :=
  "=== ".toList ++ label ++ " (lines ".toList ++ Nat.toDigits 10 startIdx ++ '-' ::
    Nat.toDigits 10 endIdx ++ " of ".toList ++ Nat.toDigits 10 totalLines ++ ") ===".toList

def truncatedNotice (toolName : Chars) (startIdx endIdx totalLines : ℕ) : Chars :=
  "\n[Truncated: lines ".toList ++ Nat.toDigits 10 startIdx ++ '-' :: Nat.toDigits 10 endIdx ++
    " of ".toList ++ Nat.toDigits 10 totalLines ++ " shown. Call ".toList ++ toolName ++
    " with start_line=".toList ++ Nat.toDigits 10 (endIdx + 1) ++ " to read more.]".toList

def NumberedSlice.render (label toolName : Chars) : NumberedSlice → Chars
  | .emptyFile => "=== ".toList ++ label ++ " (empty, 0 lines) ===".toList
  | .pastEnd totalLines =>
    "=== ".toList ++ label ++ " (0 lines shown of ".toList ++ Nat.toDigits 10 totalLines ++
      ") ===".toList
  | .shown startIdx endIdx totalLines body truncated =>
    shownHeader label startIdx endIdx totalLines ++ '\n' :: body ++
      if truncated then truncatedNotice toolName startIdx endIdx totalLines else []

section Numbered

variable {line : Chars} {lines : List Chars} {number first : ℕ}

theorem isDigit_of_mem_toDigits {c : Char} {n : ℕ} (h : c ∈ Nat.toDigits 10 n) :
    c.isDigit = true :=
  Nat.isDigit_of_mem_toDigits (by decide) (by decide) h

theorem length_numberLines (first : ℕ) (lines : List Chars) :
    (numberLines first lines).length = lines.length := by
  induction lines generalizing first with
  | nil => rfl
  | cons line lines ih => rw [numberLines, List.length_cons, ih, List.length_cons]

theorem joinLines_eq (lines : List Chars) : joinLines lines = joinLinesWith lines := rfl

theorem mem_numberedLine {c : Char} (h : c ∈ numberedLine number line) :
    c.isDigit = true ∨ c = ':' ∨ c = ' ' ∨ c ∈ line := by
  rcases List.mem_append.mp h with hc | hc
  · exact .inl (isDigit_of_mem_toDigits hc)
  · rw [List.mem_cons, List.mem_cons] at hc
    exact .inr hc

theorem newline_not_mem_numberedLine (h : '\n' ∉ line) (number : ℕ) :
    '\n' ∉ numberedLine number line := by
  intro hc
  rcases mem_numberedLine hc with hdigit | heq | heq | hline
  · cases hdigit
  · cases heq
  · cases heq
  · exact h hline

theorem numberedLine_ne_nil (number : ℕ) (line : Chars) : numberedLine number line ≠ [] :=
  List.append_ne_nil_of_left_ne_nil Nat.toDigits_ne_nil _

theorem mem_numberLines {l : Chars} (h : l ∈ numberLines first lines) :
    ∃ line ∈ lines, ∃ number, l = numberedLine number line := by
  induction lines generalizing first with
  | nil => cases h
  | cons line lines ih =>
    rcases List.mem_cons.mp h with rfl | h
    · exact ⟨line, List.mem_cons_self, first, rfl⟩
    · obtain ⟨line', hline', hrest⟩ := ih h
      exact ⟨line', List.mem_cons_of_mem _ hline', hrest⟩

/-- No newline ends the numbered lines, so none is trimmed. -/
theorem trimNewlines_numberLines (hclean : ∀ line ∈ lines, '\n' ∉ line) :
    (joinLines (numberLines first lines)).rdropWhile (· = '\n') =
      joinLines (numberLines first lines) := by
  rcases (numberLines first lines).eq_nil_or_concat with hnil | ⟨above, last, hconcat⟩
  · rw [hnil]
    rfl
  · rw [List.concat_eq_append] at hconcat
    obtain ⟨line, hline, number, hlast⟩ :=
      mem_numberLines (hconcat ▸ List.mem_append_right above List.mem_cons_self)
    have hend : ∃ front c, joinLines (above ++ [last]) = front ++ [c] ∧ c ≠ '\n' := by
      obtain ⟨front, c, hfront⟩ := (List.eq_nil_or_concat last).resolve_left
        (hlast ▸ numberedLine_ne_nil number line)
      rw [List.concat_eq_append] at hfront
      have hc : c ≠ '\n' := by
        rintro rfl
        refine newline_not_mem_numberedLine (hclean line hline) number ?_
        rw [← hlast, hfront]
        simp
      by_cases habove : above = []
      · exact ⟨front, c, by rw [habove, hfront, List.nil_append]; exact joinLines_singleton _, hc⟩
      · refine ⟨joinLinesWith above ++ '\n' :: front, c, ?_, hc⟩
        rw [hfront]
        exact (joinLines_append habove (List.cons_ne_nil _ _)).trans (by
          rw [joinLines_singleton, List.append_assoc]
          rfl)
    obtain ⟨front, c, hfront, hc⟩ := hend
    rw [hconcat, hfront, List.rdropWhile_concat_neg _ _ _ (by simpa using hc)]

end Numbered

/-! ### The slice -/

section Slice

variable {content : Chars} {startLine endLine : Option ℕ} {maxTokens : ℕ}

end Slice

/-- Taking the numbers off the body of a slice gives the lines of the slice. -/
def StripsToSlice (content : Chars) (startLine endLine : Option ℕ) (maxTokens : ℕ) : Prop :=
  ∀ startIdx endIdx totalLines body,
    numberedSlice content startLine endLine maxTokens =
      .ok (.shown startIdx endIdx totalLines body false) →
    endIdx ≤ 9999999 →
    stripToolLineNumbers body = some (joinLines (sliceLines content startLine endLine))

theorem upToLineZero_not_stripsToSlice : ¬StripsToSlice ['a'] none (some 0) 100 := fun h => by
  have hstrip := h 1 0 1 [] (by decide) (by decide)
  revert hstrip
  decide

end Sashiko
