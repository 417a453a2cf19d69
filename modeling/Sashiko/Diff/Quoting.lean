import Mathlib.Data.List.TakeDrop
import Sashiko.Diff.Headers

/-! Names that git quotes, read back from the headers of a diff. -/

namespace Sashiko

/-! ### What git writes -/

/-- A control character, or, where `core.quotePath` is set, a character that is not ASCII. -/
def needsEscape (quotePath : Bool) (c : Char) : Bool :=
  c.toNat < 32 || c.toNat = 127 || (quotePath && 128 ≤ c.toNat)

def needsQuotes (quotePath : Bool) (path : Chars) : Bool :=
  path.any fun c => c = '"' || c = '\\' || needsEscape quotePath c

def octalDigit (n : ℕ) : Char := Nat.digitChar (n % 8)

def octalEscape (b : ℕ) : Chars :=
  ['\\', octalDigit (b / 64), octalDigit (b / 8), octalDigit b]

/-- A letter for the characters that C names, and the bytes of any other. -/
def escapeText (c : Char) : Chars :=
  match c.toNat with
  | 7 => ['\\', 'a']
  | 8 => ['\\', 'b']
  | 9 => ['\\', 't']
  | 10 => ['\\', 'n']
  | 11 => ['\\', 'v']
  | 12 => ['\\', 'f']
  | 13 => ['\\', 'r']
  | _ => (String.utf8EncodeChar c).flatMap fun b => octalEscape b.toNat

def cEscape (quotePath : Bool) (c : Char) : Chars :=
  if c = '"' || c = '\\' then ['\\', c]
  else if needsEscape quotePath c then escapeText c
  else [c]

/-- One side's name of the file, in quotes where it has to be. -/
def renderName (quotePath : Bool) (side : Char) (path : Chars) : Chars :=
  if needsQuotes quotePath path then
    '"' :: side :: '/' :: (path.flatMap (cEscape quotePath) ++ ['"'])
  else side :: '/' :: path

def renderGitLine (quotePath : Bool) (src dst : Chars) : Chars :=
  diffGit ++ (renderName quotePath 'a' src ++ ' ' :: renderName quotePath 'b' dst)

def renderFileLine (quotePath : Bool) (mark side : Char) (path : Chars) : Chars :=
  mark :: mark :: mark :: ' ' :: (renderName quotePath side path ++ tabFor path)

/-- Every character stands for itself, a quote or backslash behind a backslash. -/
def IsPlain (quotePath : Bool) (path : Chars) : Prop := ∀ c ∈ path, needsEscape quotePath c = false

theorem isUnquoted_of_not {quotePath : Bool} {path : Chars}
    (h : needsQuotes quotePath path = false) : IsUnquoted path := by
  intro c hc
  have hno := List.any_eq_false.mp h c hc
  simp only [needsEscape, Bool.or_eq_true, decide_eq_true_eq, Bool.and_eq_true, not_or,
    not_lt] at hno
  obtain ⟨⟨hquote, hback⟩, ⟨hlow, hdel⟩, -⟩ := hno
  exact ⟨hquote, hback, hlow, hdel⟩

theorem isPlain_of_not {quotePath : Bool} {path : Chars}
    (h : needsQuotes quotePath path = false) : IsPlain quotePath path := by
  intro c hc
  have hno := List.any_eq_false.mp h c hc
  simp only [Bool.or_eq_true, not_or, Bool.not_eq_true] at hno
  exact hno.2

/-! ### The closing quote -/

/-- A text that holds no quote of its own. -/
def Skipped (cs : Chars) : Prop :=
  ∀ rest, quotedInside false (cs ++ rest) =
    (quotedInside false rest).map fun p => (cs ++ p.1, p.2)

theorem skipped_nil : Skipped [] := fun rest => by simp

theorem Skipped.append {cs ds : Chars} (hc : Skipped cs) (hd : Skipped ds) :
    Skipped (cs ++ ds) := by
  intro rest
  rw [List.append_assoc, hc, hd, Option.map_map]
  congr 1
  funext p
  rw [Function.comp_apply, List.append_assoc]

theorem skipped_flatMap {α : Type} {f : α → Chars} (xs : List α) (h : ∀ x ∈ xs, Skipped (f x)) :
    Skipped (xs.flatMap f) := by
  induction xs with
  | nil => exact skipped_nil
  | cons x xs ih =>
    rw [List.flatMap_cons]
    exact (h x List.mem_cons_self).append (ih fun y hy => h y (List.mem_cons_of_mem _ hy))

theorem skipped_singleton {c : Char} (hquote : c ≠ '"') (hback : c ≠ '\\') : Skipped [c] := by
  intro rest
  rw [List.singleton_append, quotedInside, if_neg hquote, decide_eq_false hback]
  rfl

theorem skipped_escape (c : Char) : Skipped ['\\', c] := by
  intro rest
  rw [List.cons_append, List.singleton_append, quotedInside, if_neg (by decide),
    decide_eq_true rfl, quotedInside, Option.map_map]
  rfl

theorem skipped_octalEscape (b : ℕ) : Skipped (octalEscape b) := by
  have hdigit : ∀ n : ℕ, Skipped [octalDigit n] := by
    intro n
    have hlt : n % 8 < 8 := Nat.mod_lt _ (by decide)
    have hall : ∀ d < 8, Nat.digitChar d ≠ '"' ∧ Nat.digitChar d ≠ '\\' := by decide
    exact skipped_singleton (hall _ hlt).1 (hall _ hlt).2
  exact ((skipped_escape (octalDigit (b / 64))).append (hdigit (b / 8))).append (hdigit b)

theorem skipped_cEscape (quotePath : Bool) (c : Char) : Skipped (cEscape quotePath c) := by
  unfold cEscape
  split_ifs with hspecial hescape
  · exact skipped_escape c
  · unfold escapeText
    split <;> first
      | exact skipped_escape _
      | exact skipped_flatMap _ fun b _ => skipped_octalEscape b.toNat
  · rw [Bool.or_eq_true, decide_eq_true_eq, decide_eq_true_eq, not_or] at hspecial
    exact skipped_singleton hspecial.1 hspecial.2

/-- The quotes are read off. -/
theorem parseCQuotedPath_renderName {quotePath : Bool} (side : Char) (hquote : side ≠ '"')
    (hback : side ≠ '\\') {path : Chars} (h : needsQuotes quotePath path = true) (rest : Chars) :
    parseCQuotedPath (renderName quotePath side path ++ rest) =
      some (side :: '/' :: path.flatMap (cEscape quotePath), rest) := by
  have hskip : Skipped (side :: '/' :: path.flatMap (cEscape quotePath)) :=
    ((skipped_singleton hquote hback).append
      (skipped_singleton (c := '/') (by decide) (by decide))).append
        (skipped_flatMap path fun c _ => skipped_cEscape quotePath c)
  have htext : renderName quotePath side path ++ rest =
      '"' :: ((side :: '/' :: path.flatMap (cEscape quotePath)) ++ '"' :: rest) := by
    rw [renderName, if_pos h]
    simp
  rw [htext, parseCQuotedPath, hskip, quotedInside, if_pos rfl]
  simp

/-! ### The escapes -/

theorem replaceChars_cons_of_ne {first c : Char} (h : c ≠ first) (pat new cs : Chars) :
    replaceChars (first :: pat) new 0 (c :: cs) = c :: replaceChars (first :: pat) new 0 cs := by
  rw [replaceChars, List.isPrefixOf, beq_false_of_ne (Ne.symm h), Bool.false_and,
    if_neg Bool.false_ne_true]

/-- With the quotes read back, the backslashes still stand twice. -/
def doubled (path : Chars) : Chars := path.flatMap fun c => if c = '\\' then ['\\', '\\'] else [c]

section Plain

variable {quotePath : Bool} {path : Chars}

theorem cEscape_of_plain {c : Char} (h : needsEscape quotePath c = false) :
    cEscape quotePath c = if c = '"' || c = '\\' then ['\\', c] else [c] := by
  rw [cEscape, h]
  rfl

theorem head?_escaped_ne (h : IsPlain quotePath path) :
    (path.flatMap (cEscape quotePath)).head? ≠ some '"' := by
  cases path with
  | nil => exact nofun
  | cons c cs =>
    rw [List.flatMap_cons, cEscape_of_plain (h c List.mem_cons_self)]
    split_ifs with hspecial
    · exact fun heq => absurd (Option.some.inj heq) (by decide)
    · rw [Bool.or_eq_true, decide_eq_true_eq, decide_eq_true_eq, not_or] at hspecial
      exact fun heq => hspecial.1 (Option.some.inj heq)

theorem replaceChars_quotes (h : IsPlain quotePath path) :
    replaceChars ['\\', '"'] ['"'] 0 (path.flatMap (cEscape quotePath)) = doubled path := by
  induction path with
  | nil => rfl
  | cons c cs ih =>
    have hcs : IsPlain quotePath cs := fun d hd => h d (List.mem_cons_of_mem _ hd)
    rw [List.flatMap_cons, cEscape_of_plain (h c List.mem_cons_self), doubled, List.flatMap_cons,
      ← doubled, ← ih hcs]
    by_cases hquote : c = '"'
    · subst hquote
      simp [replaceChars, List.isPrefixOf]
    by_cases hback : c = '\\'
    · subst hback
      -- the second backslash is not the first of an escaped quote
      have hnext : ¬['"'] <+: cs.flatMap (cEscape quotePath) := by
        rintro ⟨rest, hrest⟩
        exact head?_escaped_ne hcs (by rw [← hrest]; rfl)
      simp [replaceChars, List.isPrefixOf, hnext]
    · have hplain : (decide (c = '"') || decide (c = '\\')) = false := by simp [hquote, hback]
      rw [hplain, if_neg Bool.false_ne_true, if_neg hback, List.singleton_append,
        List.singleton_append, replaceChars_cons_of_ne hback]

theorem replaceChars_doubled (path : Chars) :
    replaceChars ['\\', '\\'] ['\\'] 0 (doubled path) = path := by
  induction path with
  | nil => rfl
  | cons c cs ih =>
    rw [doubled, List.flatMap_cons, ← doubled]
    by_cases hback : c = '\\'
    · subst hback
      simp [replaceChars, List.isPrefixOf, ih]
    · rw [if_neg hback, List.singleton_append, replaceChars_cons_of_ne hback, ih]

theorem unescaped_escaped (h : IsPlain quotePath path) {side : Char} (hside : side ≠ '\\') :
    unescaped (side :: '/' :: path.flatMap (cEscape quotePath)) = side :: '/' :: path := by
  have hslash : '/' ≠ '\\' := by decide
  rw [unescaped, replaceChars_cons_of_ne hside, replaceChars_cons_of_ne hslash,
    replaceChars_quotes h, replaceChars_cons_of_ne hside, replaceChars_cons_of_ne hslash,
    replaceChars_doubled]

theorem unescapeCPath_escaped (h : IsPlain quotePath path) {side : Char}
    (hside : side = 'a' ∨ side = 'b') :
    unescapeCPath (side :: '/' :: path.flatMap (cEscape quotePath)) = path := by
  rcases hside with rfl | rfl
  · rw [unescapeCPath, unescaped_escaped h (by decide)]
    simp [stripSide, aSlash, stripChars?, List.isPrefixOf]
  · rw [unescapeCPath, unescaped_escaped h (by decide)]
    simp [stripSide, aSlash, bSlash, stripChars?, List.isPrefixOf]

end Plain

/-! ### Other escapes stay -/

theorem mem_replaceChars {pat new : Chars} {n : ℕ} {cs : Chars} {x : Char}
    (h : x ∈ replaceChars pat new n cs) : x ∈ cs ∨ x ∈ new := by
  induction cs generalizing n with
  | nil =>
    unfold replaceChars at h
    cases h
  | cons c cs ih =>
    cases n with
    | succ n =>
      rw [replaceChars] at h
      exact (ih h).imp_left (List.mem_cons_of_mem _)
    | zero =>
      rw [replaceChars] at h
      split_ifs at h
      · rcases List.mem_append.mp h with h | h
        · exact .inr h
        · exact (ih h).imp_left (List.mem_cons_of_mem _)
      · rcases List.mem_cons.mp h with rfl | h
        · exact .inl List.mem_cons_self
        · exact (ih h).imp_left (List.mem_cons_of_mem _)

theorem mem_stripSide {first second cs : Chars} {x : Char} (h : x ∈ stripSide first second cs) :
    x ∈ cs := by
  unfold stripSide stripChars? at h
  split_ifs at h
  · exact List.mem_of_mem_drop h
  · exact List.mem_of_mem_drop h
  · exact List.mem_of_mem_drop h
  · exact h

theorem mem_unescapeCPath {cs : Chars} {x : Char} (h : x ∈ unescapeCPath cs) :
    x ∈ cs ∨ x = '"' ∨ x = '\\' := by
  rcases mem_replaceChars (mem_stripSide h) with h | h
  · rcases mem_replaceChars h with h | h
    · exact .inl h
    · exact .inr (.inl (List.mem_singleton.mp h))
  · exact .inr (.inr (List.mem_singleton.mp h))

theorem needsEscape_octalEscape {quotePath : Bool} {b : ℕ} {x : Char} (h : x ∈ octalEscape b) :
    needsEscape quotePath x = false := by
  have hdigit : ∀ n : ℕ, needsEscape quotePath (octalDigit n) = false := by
    intro n
    have hlt : n % 8 < 8 := Nat.mod_lt _ (by decide)
    have hall : ∀ d < 8, needsEscape quotePath (Nat.digitChar d) = false := by
      cases quotePath <;> decide
    exact hall _ hlt
  simp only [octalEscape, List.mem_cons, List.not_mem_nil, or_false] at h
  rcases h with rfl | rfl | rfl | rfl
  · cases quotePath <;> decide
  · exact hdigit _
  · exact hdigit _
  · exact hdigit _

theorem needsEscape_cEscape {quotePath : Bool} {c x : Char} (h : x ∈ cEscape quotePath c) :
    needsEscape quotePath x = false := by
  have hfixed : ∀ y : Char, y ∈ ['\\', '"', 'a', 'b', 't', 'n', 'v', 'f', 'r'] →
      needsEscape quotePath y = false := by
    intro y hy
    simp only [List.mem_cons, List.not_mem_nil, or_false] at hy
    rcases hy with rfl | rfl | rfl | rfl | rfl | rfl | rfl | rfl | rfl <;>
      cases quotePath <;> decide
  unfold cEscape at h
  split_ifs at h with hspecial hescape
  · rw [Bool.or_eq_true, decide_eq_true_eq, decide_eq_true_eq] at hspecial
    apply hfixed
    simp only [List.mem_cons, List.not_mem_nil, or_false] at h ⊢
    rcases h with rfl | rfl
    · exact .inl rfl
    · exact hspecial.elim (fun hq => .inr (.inl hq)) .inl
  · unfold escapeText at h
    split at h <;> first
      | (apply hfixed
         simp only [List.mem_cons, List.not_mem_nil, or_false] at h ⊢
         tauto)
      | (obtain ⟨b, -, hb⟩ := List.mem_flatMap.mp h
         exact needsEscape_octalEscape hb)
  · rw [List.mem_singleton.mp h]
    simpa using hescape

/-- What comes back from quotes holds no character that git would not print. -/
theorem isPlain_unescapeCPath (quotePath : Bool) {side : Char} (hside : side = 'a' ∨ side = 'b')
    (path : Chars) : IsPlain quotePath
      (unescapeCPath (side :: '/' :: path.flatMap (cEscape quotePath))) := by
  intro x hx
  rcases mem_unescapeCPath hx with hx | rfl | rfl
  · rcases List.mem_cons.mp hx with rfl | hx
    · rcases hside with rfl | rfl <;> cases quotePath <;> decide
    · rcases List.mem_cons.mp hx with rfl | hx
      · cases quotePath <;> decide
      · obtain ⟨c, -, hc⟩ := List.mem_flatMap.mp hx
        exact needsEscape_cEscape hc
  · cases quotePath <;> decide
  · cases quotePath <;> decide

/-! ### `---` and `+++` -/

theorem trimChars_spaces {x y : Char} (hx : isRustWhitespace x = false)
    (hy : isRustWhitespace y = false) (path : Chars) {spaces : Chars}
    (hspaces : ∀ c ∈ spaces, isRustWhitespace c = true) :
    trimChars (x :: y :: path ++ spaces) = x :: y :: path.rdropWhile isRustWhitespace := by
  have hdrop : (x :: y :: path ++ spaces).dropWhile isRustWhitespace = x :: y :: path ++ spaces :=
    List.dropWhile_cons_of_neg (by simp [hx])
  have hrev : (x :: y :: path ++ spaces).reverse =
      spaces.reverse ++ (path.reverse ++ [y, x]) := by simp
  have hspaces' : ∀ c ∈ spaces.reverse, isRustWhitespace c = true := fun c hc =>
    hspaces c (List.mem_reverse.mp hc)
  rw [trimChars, hdrop, List.rdropWhile, hrev, List.dropWhile_append_of_pos hspaces',
    List.rdropWhile]
  rw [List.dropWhile_append]
  split_ifs with hempty
  · rw [List.isEmpty_iff.mp hempty, List.dropWhile_cons_of_neg (by simp [hy])]
    rfl
  · simp

theorem trimChars_quoted (inside : Chars) {spaces : Chars}
    (hspaces : ∀ c ∈ spaces, isRustWhitespace c = true) :
    trimChars ('"' :: (inside ++ ['"']) ++ spaces) = '"' :: (inside ++ ['"']) := by
  have hends : EndsVisible ['"'] := by decide
  exact trimChars_append_path (by decide) hends (List.cons_ne_nil _ _) hspaces

theorem rdropWhile_eq_self_iff (path : Chars) :
    path.rdropWhile isRustWhitespace = path ↔ EndsVisible path := by
  rw [List.rdropWhile_eq_self_iff, EndsVisible]
  constructor
  · intro h c hc
    have hne : path ≠ [] := List.ne_nil_of_mem (List.mem_of_getLast? hc)
    have hlast := h hne
    rw [List.getLast?_eq_some_getLast hne] at hc
    rw [← Option.some.inj hc]
    simpa using hlast
  · intro h hne
    have hlast := h _ (List.getLast?_eq_some_getLast hne)
    simpa using hlast

theorem whitespace_of_mem_tabFor {path : Chars} {c : Char} (h : c ∈ tabFor path) :
    isRustWhitespace c = true := by
  unfold tabFor at h
  split_ifs at h
  · rw [List.mem_singleton.mp h]
    decide
  · cases h

section Headers

variable {quotePath : Bool} {mark side : Char} {path : Chars}

/-- The name that a header line is read as. -/
def headerName (quotePath : Bool) (side : Char) (path : Chars) : Chars :=
  if needsQuotes quotePath path then
    unescapeCPath (side :: '/' :: path.flatMap (cEscape quotePath))
  else path.rdropWhile isRustWhitespace

theorem headerPath_renderName (hside : side = 'a' ∨ side = 'b') {second : Chars} :
    headerPath [side, '/'] second
      (trimChars (renderName quotePath side path ++ tabFor path)) =
        some (headerName quotePath side path) := by
  have hvisible : isRustWhitespace side = false := by rcases hside with rfl | rfl <;> decide
  have hside' : side ≠ '/' ∧ side ≠ '"' ∧ side ≠ '\t' ∧ side ≠ '\\' := by
    rcases hside with rfl | rfl <;> decide
  unfold headerName
  cases hq : needsQuotes quotePath path with
  | true =>
    have htrim : trimChars (renderName quotePath side path ++ tabFor path) =
        renderName quotePath side path := by
      rw [renderName, if_pos hq]
      exact trimChars_quoted (side :: '/' :: path.flatMap (cEscape quotePath)) fun c =>
        whitespace_of_mem_tabFor
    have hread := parseCQuotedPath_renderName side hside'.2.1 hside'.2.2.2 hq []
    rw [List.append_nil] at hread
    have hnull : renderName quotePath side path ≠ devNull := by
      rw [renderName, if_pos hq]
      exact fun h => absurd (List.cons.inj h).1 (by decide)
    rw [htrim, headerPath, if_neg hnull, hread, if_pos rfl]
  | false =>
    have hunquoted := isUnquoted_of_not hq
    have hdropped : IsUnquoted (path.rdropWhile isRustWhitespace) := fun c hc =>
      hunquoted c ((List.rdropWhile_prefix _ _).subset hc)
    have htrim : trimChars (renderName quotePath side path ++ tabFor path) =
        side :: '/' :: path.rdropWhile isRustWhitespace := by
      rw [renderName, hq]
      exact trimChars_spaces hvisible (by decide) path fun c => whitespace_of_mem_tabFor
    rw [htrim, headerPath_side hside' second hdropped, if_neg Bool.false_ne_true]

theorem headerName_iff (hside : side = 'a' ∨ side = 'b') :
    headerName quotePath side path = path ↔
      IsPlain quotePath path ∧ (needsQuotes quotePath path = false → EndsVisible path) := by
  unfold headerName
  cases hq : needsQuotes quotePath path with
  | true =>
    rw [if_pos rfl]
    constructor
    · intro h
      have hplain := isPlain_unescapeCPath quotePath hside path
      rw [h] at hplain
      exact ⟨hplain, nofun⟩
    · exact fun h => unescapeCPath_escaped h.1 hside
  | false =>
    rw [if_neg Bool.false_ne_true, rdropWhile_eq_self_iff]
    exact ⟨fun h => ⟨isPlain_of_not hq, fun _ => h⟩, fun h => h.2 rfl⟩

theorem extractSourceFile_renderFileLine :
    extractSourceFile (renderFileLine quotePath '-' 'a' path) =
      some (headerName quotePath 'a' path) := by
  rw [extractSourceFile, renderFileLine, afterMarks_marks (by decide), Option.bind_some]
  exact headerPath_renderName (.inl rfl)

theorem extractTargetFile_renderFileLine :
    extractTargetFile (renderFileLine quotePath '+' 'b' path) =
      some (headerName quotePath 'b' path) := by
  rw [extractTargetFile, renderFileLine, afterMarks_marks (by decide), Option.bind_some]
  exact headerPath_renderName (.inr rfl)

end Headers

/-! ### `diff --git` -/

section GitLine

variable {quotePath : Bool} {src dst : Chars}

/-- The name is not trimmed. -/
theorem trimChars_renderName {side : Char} (hside : side = 'a' ∨ side = 'b') {path : Chars}
    (hne : path ≠ []) (hends : needsQuotes quotePath path = false → EndsVisible path) :
    trimChars (renderName quotePath side path) = renderName quotePath side path := by
  unfold renderName
  cases hq : needsQuotes quotePath path with
  | true =>
    rw [if_pos rfl]
    have h := trimChars_quoted (side :: '/' :: path.flatMap (cEscape quotePath))
      fun c (hc : c ∈ []) => absurd hc List.not_mem_nil
    rwa [List.append_nil] at h
  | false =>
    have hvisible : isRustWhitespace side = false := by rcases hside with rfl | rfl <;> decide
    rw [if_neg Bool.false_ne_true]
    have h : trimChars (side :: ['/'] ++ path ++ []) = side :: ['/'] ++ path :=
      trimChars_append_path hvisible (hends hq) hne nofun
    rwa [List.append_nil] at h

theorem trimChars_append_visible (xs : Chars) {ys : Chars} {x : Char} (hx : isRustWhitespace x = false)
    (hys : ys ≠ []) (htrim : trimChars ys = ys) :
    trimChars (x :: xs ++ ys) = x :: xs ++ ys := by
  have hends : EndsVisible ys := by
    rw [← rdropWhile_eq_self_iff]
    have hpre : (ys.dropWhile isRustWhitespace).rdropWhile isRustWhitespace = ys := htrim
    have hidem : ys.rdropWhile isRustWhitespace = ys := by
      conv_lhs => rw [← hpre]
      rw [List.rdropWhile_idempotent, hpre]
    exact hidem
  have h : trimChars (x :: xs ++ ys ++ []) = x :: xs ++ ys :=
    trimChars_append_path hx hends hys nofun
  rwa [List.append_nil] at h

theorem renderName_ne_nil (quotePath : Bool) (side : Char) (path : Chars) :
    renderName quotePath side path ≠ [] := by
  unfold renderName
  split_ifs <;> exact List.cons_ne_nil _ _

theorem trimChars_gitNames (hdst : dst ≠ [])
    (hends : needsQuotes quotePath dst = false → EndsVisible dst) :
    trimChars (renderName quotePath 'a' src ++ ' ' :: renderName quotePath 'b' dst) =
      renderName quotePath 'a' src ++ ' ' :: renderName quotePath 'b' dst := by
  obtain ⟨x, xs, hx⟩ := List.exists_cons_of_ne_nil (renderName_ne_nil quotePath 'a' src)
  have hvisible : isRustWhitespace x = false := by
    unfold renderName at hx
    split_ifs at hx
    · rw [← (List.cons.inj hx).1]
      decide
    · rw [← (List.cons.inj hx).1]
      decide
  have h := trimChars_append_visible (xs ++ [' ']) hvisible (renderName_ne_nil quotePath 'b' dst)
    (trimChars_renderName (.inr rfl) hdst hends)
  rw [hx]
  simpa using h

theorem quotedSource_renderName (hsrc : IsPlain quotePath src) (hdst : IsPlain quotePath dst)
    (hne : dst ≠ []) (hq : needsQuotes quotePath src = true)
    (hends : needsQuotes quotePath dst = false → EndsVisible dst) :
    quotedSource (renderName quotePath 'a' src ++ ' ' :: renderName quotePath 'b' dst) =
      some (src, dst) := by
  have htrim : trimChars (' ' :: renderName quotePath 'b' dst) = renderName quotePath 'b' dst := by
    rw [trimChars, List.dropWhile_cons_of_pos (by decide)]
    exact trimChars_renderName (.inr rfl) hne hends
  rw [quotedSource, parseCQuotedPath_renderName 'a' (by decide) (by decide) hq, Option.bind_some,
    htrim, unescapeCPath_escaped hsrc (.inl rfl)]
  cases hqd : needsQuotes quotePath dst with
  | true =>
    have hhead : (renderName quotePath 'b' dst).head? = some '"' := by rw [renderName, if_pos hqd]; rfl
    have hread := parseCQuotedPath_renderName 'b' (by decide) (by decide) hqd []
    rw [List.append_nil] at hread
    rw [if_pos hhead, hread, Option.map_some, unescapeCPath_escaped hdst (.inr rfl)]
  | false =>
    have hname : renderName quotePath 'b' dst = 'b' :: '/' :: dst := by rw [renderName, hqd]; rfl
    rw [hname, if_neg (by simp)]
    simp [stripSide, bSlash, stripChars?, List.isPrefixOf]

theorem quotedTarget_renderName (hdst : IsPlain quotePath dst)
    (hq : needsQuotes quotePath src = false) (hqd : needsQuotes quotePath dst = true) :
    quotedTarget (renderName quotePath 'a' src ++ ' ' :: renderName quotePath 'b' dst) =
      some (src, dst) := by
  have hsrcName : renderName quotePath 'a' src = 'a' :: '/' :: src := by rw [renderName, hq]; rfl
  have hdstName : renderName quotePath 'b' dst =
      ['"', 'b', '/'] ++ (dst.flatMap (cEscape quotePath) ++ ['"']) := by
    rw [renderName, if_pos hqd]
    rfl
  have hquote : '"' ∉ 'a' :: '/' :: src := by
    have hsrc := (not_mem_of_unquoted (isUnquoted_of_not hq)).1
    simp [hsrc]
  -- the quote is the first in the line
  have hsplit : splitAtFirst [' ', '"', 'b', '/'] (renderName quotePath 'a' src ++
      ' ' :: renderName quotePath 'b' dst) =
        some ('a' :: '/' :: src, ' ' :: renderName quotePath 'b' dst) := by
    have hfirst : splitAtFirst [' ', '"', 'b', '/'] ('a' :: '/' :: src ++ ([' ', '"', 'b', '/'] ++
        (dst.flatMap (cEscape quotePath) ++ ['"']))) = some ('a' :: '/' :: src,
          [' ', '"', 'b', '/'] ++ (dst.flatMap (cEscape quotePath) ++ ['"'])) := by
      refine splitAtFirst_append (List.cons_ne_nil _ _) fun x y hxy hy => ?_
      have hy' : '"' ∉ y := fun hmem => hquote (hxy ▸ List.mem_append_right x hmem)
      cases y with
      | nil => exact absurd rfl hy
      | cons c cs =>
        cases cs with
        | nil => simp [List.isPrefixOf]
        | cons d ds =>
          have hd : '"' ≠ d := fun heq =>
            hy' (heq ▸ List.mem_cons_of_mem _ List.mem_cons_self)
          simp [List.isPrefixOf, hd]
    rw [hsrcName, hdstName]
    exact hfirst
  have hread := parseCQuotedPath_renderName 'b' (by decide) (by decide) hqd []
  rw [List.append_nil] at hread
  have htrim : trimChars (renderName quotePath 'b' dst) = renderName quotePath 'b' dst := by
    rw [renderName, if_pos hqd]
    have h := trimChars_quoted ('b' :: '/' :: dst.flatMap (cEscape quotePath))
      fun c (hc : c ∈ []) => absurd hc List.not_mem_nil
    rwa [List.append_nil] at h
  rw [quotedTarget, hsplit, Option.some_or, Option.bind_some, List.drop_succ_cons, List.drop_zero,
    htrim, hread, Option.map_some, unescapeCPath_escaped hdst (.inr rfl)]
  have hstrip : stripChars? aSlash ('a' :: '/' :: src) = some src := stripChars?_append aSlash src
  rw [hstrip, Option.getD_some]

theorem parseDiffGitPaths_renderGitLine (hsrc : IsPlain quotePath src)
    (hdst : IsPlain quotePath dst) (hne : dst ≠ [])
    (hsame : needsQuotes quotePath src = false → needsQuotes quotePath dst = false → src = dst)
    (hends : needsQuotes quotePath dst = false → EndsVisible dst) :
    parseDiffGitPaths (renderGitLine quotePath src dst) = some (src, dst) := by
  have hrest : stripChars? diffGit (renderGitLine quotePath src dst) =
      some (renderName quotePath 'a' src ++ ' ' :: renderName quotePath 'b' dst) :=
    stripChars?_append diffGit _
  cases hq : needsQuotes quotePath src with
  | true =>
    have hhead : (renderName quotePath 'a' src ++ ' ' :: renderName quotePath 'b' dst).head? =
        some '"' := by
      rw [renderName, if_pos hq]
      rfl
    rw [parseDiffGitPaths, hrest, Option.bind_some, trimChars_gitNames hne hends, parseGitRest,
      if_pos hhead, quotedSource_renderName hsrc hdst hne hq hends]
  | false =>
    cases hqd : needsQuotes quotePath dst with
    | true =>
      have hhead : (renderName quotePath 'a' src ++ ' ' :: renderName quotePath 'b' dst).head? ≠
          some '"' := by
        rw [renderName, hq]
        exact fun h => absurd (Option.some.inj h) (by decide)
      rw [parseDiffGitPaths, hrest, Option.bind_some, trimChars_gitNames hne hends, parseGitRest,
        if_neg hhead, quotedTarget_renderName hdst hq hqd, Option.some_or]
    | false =>
      obtain rfl := hsame hq hqd
      have hline : renderGitLine quotePath src src = diffGit ++ gitNames src src := by
        rw [renderGitLine, renderName, renderName, hq]
        simp [gitNames]
      rw [hline, parseDiffGitPaths_same (isUnquoted_of_not hq) hne (hends hq)]

end GitLine

/-- The names of both sides are read back exactly when neither holds a character that git escapes
otherwise than by a backslash, and none that is printed without quotes ends in white space. -/
theorem names_read_iff (quotePath : Bool) (src dst : Chars) (hne : dst ≠ [])
    (hsame : needsQuotes quotePath src = false → needsQuotes quotePath dst = false → src = dst) :
    (parseDiffGitPaths (renderGitLine quotePath src dst) = some (src, dst) ∧
      extractSourceFile (renderFileLine quotePath '-' 'a' src) = some src ∧
      extractTargetFile (renderFileLine quotePath '+' 'b' dst) = some dst) ↔
    (IsPlain quotePath src ∧ (needsQuotes quotePath src = false → EndsVisible src)) ∧
      IsPlain quotePath dst ∧ (needsQuotes quotePath dst = false → EndsVisible dst) := by
  rw [extractSourceFile_renderFileLine, extractTargetFile_renderFileLine, Option.some_inj,
    Option.some_inj, headerName_iff (.inl rfl), headerName_iff (.inr rfl)]
  constructor
  · exact fun h => h.2
  · intro h
    exact ⟨parseDiffGitPaths_renderGitLine h.1.1 h.2.1 hne hsame h.2.2, h⟩

/-- A name with a letter that is not ASCII comes back as it is escaped. -/
theorem octal_not_read : parseDiffGitPaths (renderGitLine true ['é'] ['é']) =
      some ("\\303\\251".toList, "\\303\\251".toList) ∧
    extractTargetFile (renderFileLine true '+' 'b' ['é']) ≠ some ['é'] := by
  decide

theorem names_read_iff_quoted :
    (parseDiffGitPaths (renderGitLine true ['a', ' ', '"'] ['b', '\\']) =
        some (['a', ' ', '"'], ['b', '\\']) ∧
      extractSourceFile (renderFileLine true '-' 'a' ['a', ' ', '"']) = some ['a', ' ', '"'] ∧
      extractTargetFile (renderFileLine true '+' 'b' ['b', '\\']) = some ['b', '\\']) ↔
    (IsPlain true ['a', ' ', '"'] ∧
        (needsQuotes true ['a', ' ', '"'] = false → EndsVisible ['a', ' ', '"'])) ∧
      IsPlain true ['b', '\\'] ∧
        (needsQuotes true ['b', '\\'] = false → EndsVisible ['b', '\\']) :=
  names_read_iff true ['a', ' ', '"'] ['b', '\\'] (by decide) (by decide)

end Sashiko
