import Sashiko.Access.Titles
import Sashiko.Ai.Truncator
import Sashiko.Lib.Filling
import Sashiko.Lib.Lines

/-! Greedy word wrap of the emails that Sashiko writes itself: the words are kept, and there is no way
to set them on fewer lines within the width. -/

namespace Sashiko

namespace EmailText

abbrev Text := List Char

def wrapWidth : ℕ := 72

structure WrapState where
  out : Text
  line : Text
  prefixLen : ℕ

def WrapState.word (rest : Text) (s : WrapState) (word : Text) : WrapState :=
  let empty : Bool := byteLen s.line = s.prefixLen
  if !empty && wrapWidth < byteLen s.line + 1 + byteLen word then
    ⟨s.out ++ s.line ++ ['\n'], rest ++ word, byteLen rest⟩
  else if !empty then { s with line := s.line ++ [' '] ++ word }
  else { s with line := s.line ++ word }

def WrapState.finish (s : WrapState) : Text := s.out ++ s.line ++ ['\n']

def wrap (text first rest : Text) : Text :=
  ((splitWhitespace text).foldl (WrapState.word rest) ⟨[], first, byteLen first⟩).finish

/-- `- [Severity] problem`, with a hanging indent. -/
def bullet (severity problem : Text) : Text :=
  wrap ('[' :: severity ++ [']', ' '] ++ trimChars problem) ['-', ' '] [' ', ' ']

def count (n : ℕ) (singular plural : Text) : Text :=
  if n = 1 then "1 ".toList ++ singular else Nat.toDigits 10 n ++ ' ' :: plural

def findingsHeader (n : ℕ) : Text :=
  wrap ("Thank you for your contribution! Sashiko AI review found ".toList ++
    count n "potential issue".toList "potential issues".toList ++ " to consider:".toList) [] []

/-! ### Words on lines -/

/-- A word of `str::split_whitespace`. -/
def IsWord (w : Text) : Prop := w ≠ [] ∧ ∀ c ∈ w, isRustWhitespace c = false

/-- The words with one space between two, behind an indent. -/
def setLine (indent : Text) (ws : List Text) : Text := indent ++ [' '].intercalate ws

def setLines (first rest : Text) : List (List Text) → List Text
  | [] => [first]
  | l :: ls => setLine first l :: ls.map (setLine rest)

/-- The words as they are filled in. -/
def filled (first rest : Text) (ws : List Text) : List (List Text) :=
  fillWords byteLen wrapWidth (byteLen rest) (byteLen first) ws

theorem isWord_of_mem {cs w : Text} (h : w ∈ splitWhitespace cs) : IsWord w := by
  obtain ⟨hmem, hne⟩ := List.mem_filter.mp h
  refine ⟨of_decide_eq_true hne, fun c hc => ?_⟩
  clear h hne
  induction cs generalizing w with
  | nil =>
    rw [List.splitOnP_nil, List.mem_singleton] at hmem
    rw [hmem] at hc
    cases hc
  | cons d cs ih =>
    rw [List.splitOnP_cons_eq_if_modifyHead] at hmem
    split_ifs at hmem with hd
    · rcases List.mem_cons.mp hmem with rfl | hmem
      · cases hc
      · exact ih hmem hc
    · cases hsplit : cs.splitOnP isRustWhitespace with
      | nil => exact absurd hsplit (List.splitOnP_ne_nil _ _)
      | cons part parts =>
        rw [hsplit, List.modifyHead_cons] at hmem
        rcases List.mem_cons.mp hmem with rfl | hmem
        · rcases List.mem_cons.mp hc with rfl | hc
          · exact Bool.not_eq_true _ ▸ hd
          · exact ih (hsplit ▸ List.mem_cons_self) hc
        · exact ih (hsplit ▸ List.mem_cons_of_mem _ hmem) hc

theorem splitWhitespace_word {w : Text} (h : IsWord w) : splitWhitespace w = [w] := by
  have hsplit : w.splitOnP isRustWhitespace = [w] :=
    List.splitOnP_eq_singleton h.2
  rw [splitWhitespace, hsplit]
  simp [h.1]

theorem splitWhitespace_setLine {indent : Text} (hindent : ∀ c ∈ indent, isRustWhitespace c = true)
    {ws : List Text} (h : ∀ w ∈ ws, IsWord w) : splitWhitespace (setLine indent ws) = ws := by
  have hwords : splitWhitespace ([' '].intercalate ws) = ws := by
    induction ws with
    | nil => rfl
    | cons w ws ih =>
      have hw := splitWhitespace_word (h w List.mem_cons_self)
      by_cases hnil : ws = []
      · rw [hnil, List.intercalate_singleton, hw]
      · rw [List.intercalate_cons_of_ne_nil hnil, List.append_assoc, List.singleton_append,
          splitWhitespace_append (by decide), hw, ih fun w hw => h w (List.mem_cons_of_mem _ hw)]
        rfl
  unfold setLine
  induction indent with
  | nil => exact hwords
  | cons c indent ih =>
    rw [List.cons_append, splitWhitespace_cons_space (hindent c List.mem_cons_self)]
    exact ih fun d hd => hindent d (List.mem_cons_of_mem _ hd)

@[simp] theorem setLine_nil (indent : Text) : setLine indent [] = indent := List.append_nil _

theorem setLine_singleton (indent w : Text) : setLine indent [w] = indent ++ w := by
  rw [setLine, List.intercalate_singleton]

theorem setLine_concat (indent : Text) {ws : List Text} (hne : ws ≠ []) (w : Text) :
    setLine indent (ws ++ [w]) = setLine indent ws ++ [' '] ++ w := by
  rw [setLine, intercalate_append _ hne (List.cons_ne_nil _ _), List.intercalate_singleton, setLine]
  simp only [List.append_assoc]

theorem byteLen_setLine (indent : Text) (ws : List Text) :
    byteLen (setLine indent ws) = lineSize byteLen (byteLen indent) ws := by
  have hwords : byteLen ([' '].intercalate ws) = (ws.map byteLen).sum + (ws.length - 1) := by
    induction ws with
    | nil => rfl
    | cons w ws ih =>
      by_cases hnil : ws = []
      · rw [hnil, List.intercalate_singleton, List.map_singleton, List.sum_singleton]
        rfl
      · have hpos : 0 < ws.length := List.length_pos_iff.mpr hnil
        rw [List.intercalate_cons_of_ne_nil hnil, Truncator.byteLen_append,
          Truncator.byteLen_append, ih,
          List.map_cons, List.sum_cons, List.length_cons]
        change byteLen w + 1 + _ = _
        omega
  rw [setLine, Truncator.byteLen_append, hwords, lineSize, Nat.add_assoc]

/-! ### Greedy wrap -/

theorem word_of_empty (rest out indent w : Text) :
    WrapState.word rest ⟨out, indent, byteLen indent⟩ w =
      ⟨out, setLine indent [w], byteLen indent⟩ := by
  simp [WrapState.word, setLine_singleton]

theorem word_of_words {ws : List Text} (hne : ws ≠ []) (h : ∀ w ∈ ws, IsWord w)
    (rest out indent w : Text) :
    WrapState.word rest ⟨out, setLine indent ws, byteLen indent⟩ w =
      if lineSize byteLen (byteLen indent) (ws ++ [w]) ≤ wrapWidth then
        ⟨out, setLine indent (ws ++ [w]), byteLen indent⟩
      else ⟨out ++ setLine indent ws ++ ['\n'], setLine rest [w], byteLen rest⟩ := by
  obtain ⟨v, vs, rfl⟩ := List.exists_cons_of_ne_nil hne
  have hpos := Truncator.byteLen_pos (h v List.mem_cons_self).1
  have hfull : byteLen (setLine indent (v :: vs)) ≠ byteLen indent := by
    rw [byteLen_setLine, lineSize, List.map_cons, List.sum_cons]
    omega
  have hsize := @lineSize_concat _ byteLen (v :: vs) hne (byteLen indent) w
  rw [← byteLen_setLine indent (v :: vs)] at hsize
  simp only [WrapState.word, hfull, decide_false, Bool.not_false, Bool.true_and, decide_eq_true_eq,
    if_true, hsize, setLine_singleton, setLine_concat indent hne, ← not_lt, ite_not]

theorem foldl_word {cur ws : List Text} (hne : cur ≠ []) (hcur : ∀ w ∈ cur, IsWord w)
    (hws : ∀ w ∈ ws, IsWord w) (rest out indent : Text) :
    (ws.foldl (WrapState.word rest) ⟨out, setLine indent cur, byteLen indent⟩).finish =
      out ++ (setLines indent rest (fillLines byteLen wrapWidth (byteLen rest) (byteLen indent)
        cur ws)).flatMap (· ++ ['\n']) := by
  induction ws generalizing cur out indent with
  | nil => simp [WrapState.finish, fillLines, setLines]
  | cons w ws ih =>
    have hw := hws w List.mem_cons_self
    have hrest := fun v hv => hws v (List.mem_cons_of_mem _ hv)
    rw [List.foldl_cons, word_of_words hne hcur, fillLines]
    split_ifs
    · refine ih (List.append_ne_nil_of_right_ne_nil _ (List.cons_ne_nil _ _)) (fun v hv => ?_) hrest
        out indent
      exact (List.mem_append.mp hv).elim (hcur v) fun hv => List.mem_singleton.mp hv ▸ hw
    · rw [ih (List.cons_ne_nil _ _) (fun v hv => List.mem_singleton.mp hv ▸ hw) hrest]
      obtain ⟨l, ls, heq, -⟩ := @forall_fillLines Text byteLen wrapWidth (byteLen rest)
        (byteLen rest) [w] ws (List.cons_ne_nil _ _) (.inr rfl)
      rw [heq]
      simp [setLines]

theorem wrap_eq (text first rest : Text) :
    wrap text first rest =
      (setLines first rest (filled first rest (splitWhitespace text))).flatMap (· ++ ['\n']) := by
  have hwords : ∀ w ∈ splitWhitespace text, IsWord w := fun _ => isWord_of_mem
  unfold wrap filled
  cases hws : splitWhitespace text with
  | nil => simp [WrapState.finish, fillWords, setLines]
  | cons w ws =>
    rw [hws] at hwords
    rw [List.foldl_cons, word_of_empty, foldl_word (List.cons_ne_nil _ _)
      (fun v hv => List.mem_singleton.mp hv ▸ hwords w List.mem_cons_self)
      fun v hv => hwords v (List.mem_cons_of_mem _ hv)]
    rfl

/-- A way to set the words: no line is empty, and one that is too wide has a single word. -/
structure Sets (first rest : Text) (ws : List Text) (lines : List (List Text)) : Prop where
  words_eq : lines.flatten = ws
  ne_nil : ∀ l ∈ lines, l ≠ []
  first_fits : ∀ l ∈ lines.head?, byteLen (setLine first l) ≤ wrapWidth ∨ l.length = 1
  rest_fits : ∀ l ∈ lines.tail, byteLen (setLine rest l) ≤ wrapWidth ∨ l.length = 1

theorem sets_iff {first rest : Text} {ws : List Text} {lines : List (List Text)} :
    Sets first rest ws lines ↔
      Divides byteLen wrapWidth (byteLen rest) (byteLen first) lines ws := by
  constructor
  · rintro ⟨rfl, hne, hfirst, hrest⟩
    cases lines with
    | nil => rfl
    | cons l ls =>
      refine ⟨hne l List.mem_cons_self, ?_, ls.flatten, rfl, rfl, fun l' hl' => ?_⟩
      · rw [FitsLine, ← byteLen_setLine]
        exact hfirst l rfl
      · rw [FitsLine, ← byteLen_setLine]
        exact ⟨hne l' (List.mem_cons_of_mem _ hl'), hrest l' hl'⟩
  · intro h
    cases lines with
    | nil => exact ⟨h.symm, nofun, nofun, nofun⟩
    | cons l ls =>
      obtain ⟨hne, hfits, ws', rfl, rfl, hls⟩ := h
      rw [FitsLine, ← byteLen_setLine] at hfits
      refine ⟨rfl, List.forall_mem_cons.mpr ⟨hne, fun l' hl' => (hls l' hl').1⟩, ?_,
        fun l' hl' => ?_⟩
      · rintro l' hl'
        rw [← Option.some_inj.mp hl']
        exact hfits
      · rw [byteLen_setLine]
        exact (hls l' hl').2

theorem sets_filled (first rest : Text) (ws : List Text) :
    Sets first rest ws (filled first rest ws) := sets_iff.mpr (divides_fillWords ws)

/-- The text is its words on lines within the width, or of one word that is longer, and there is no
way to set them on fewer such lines. -/
theorem wrap_fewest_lines (text first rest : Text) :
    ∃ lines, wrap text first rest = (setLines first rest lines).flatMap (· ++ ['\n']) ∧
      Sets first rest (splitWhitespace text) lines ∧
      ∀ lines', Sets first rest (splitWhitespace text) lines' → lines.length ≤ lines'.length :=
  ⟨filled first rest (splitWhitespace text), wrap_eq text first rest, sets_filled _ _ _,
    fun _ h => length_fillWords_le (sets_iff.mp h)⟩

end EmailText

end Sashiko
