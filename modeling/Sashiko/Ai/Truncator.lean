import Mathlib.Data.Nat.Digits.Defs
import Sashiko.Text

/-! `Truncator`: tool output cut down to a budget of bytes. The notice of what is missing is part of
the output, so room for it is kept before its numbers are known. -/

namespace Sashiko

/-- `str::len` -/
def byteLen (cs : List Char) : ℕ := (cs.map Char.utf8Size).sum

namespace Truncator

def bytesPerToken : ℕ := 3

def approximateTokens (text : List Char) : ℕ := (byteLen text + (bytesPerToken - 1)) / bytesPerToken

def droppedLinesWarning (droppedLines estimatedTokens : ℕ) : List Char :=
  "... [Output truncated. Dropped ".toList ++ Nat.toDigits 10 droppedLines ++
    " lines. Original size: ".toList ++ Nat.toDigits 10 estimatedTokens ++
    " tokens] ...\n".toList

def oversizedNotice (estimatedTokens keptBytes : ℕ) : List Char :=
  "\n... [Output truncated. Content too large (".toList ++ Nat.toDigits 10 estimatedTokens ++
    " tokens). Displaying first ".toList ++ Nat.toDigits 10 keptBytes ++ " bytes] ...\n".toList

/-- The characters that end within the first `allowed` bytes. -/
def headWithin : ℕ → List Char → List Char
  | _, [] => []
  | allowed, c :: cs =>
    if c.utf8Size ≤ allowed then c :: headWithin (allowed - c.utf8Size) cs else []

def headOf (content : List Char) (maxTokens estimatedTokens : ℕ) : List Char :=
  let budgetBytes := maxTokens * bytesPerToken
  let reserved := byteLen (oversizedNotice estimatedTokens budgetBytes)
  let head := headWithin (budgetBytes - reserved) content
  head ++ oversizedNotice estimatedTokens (byteLen head)

/-- Lines, each with its newline. -/
def pushLines (lines : List (List Char)) : List Char := lines.flatMap (· ++ ['\n'])

structure SequentialTruncationResult where
  content : List Char
  linesKept : ℕ
  truncated : Bool
  deriving DecidableEq, Repr

/-- The leading lines for which there is room behind `used` bytes. -/
def keepLines (available : ℕ) : ℕ → List (List Char) → List (List Char)
  | _, [] => []
  | used, line :: rest =>
    if available < used + byteLen line + 1 then []
    else line :: keepLines available (used + byteLen line + 1) rest

/-- A text over the budget has more bytes than `maxTokens * 3`, so this product fits a `usize`. -/
def truncateSequential (content : List Char) (maxTokens : ℕ) : SequentialTruncationResult :=
  let estimated := approximateTokens content
  if estimated ≤ maxTokens then ⟨content, (linesOf content).length, false⟩
  else
    let budgetBytes := maxTokens * bytesPerToken
    let totalLines := (linesOf content).length
    let reserved := byteLen (droppedLinesWarning totalLines estimated)
    let kept := keepLines (budgetBytes - reserved) 0 (linesOf content)
    if kept = [] then ⟨headOf content maxTokens estimated, 0, true⟩
    else
      ⟨pushLines kept ++ droppedLinesWarning (totalLines - kept.length) estimated, kept.length,
        true⟩

@[simp] theorem byteLen_nil : byteLen [] = 0 := rfl

@[simp] theorem byteLen_cons (c : Char) (cs : List Char) :
    byteLen (c :: cs) = c.utf8Size + byteLen cs := by
  rw [byteLen, List.map_cons, List.sum_cons, byteLen]

@[simp] theorem byteLen_append (xs ys : List Char) :
    byteLen (xs ++ ys) = byteLen xs + byteLen ys := by
  rw [byteLen, List.map_append, List.sum_append, byteLen, byteLen]

theorem byteLen_pos {cs : List Char} (h : cs ≠ []) : 0 < byteLen cs := by
  obtain ⟨c, cs, rfl⟩ := List.exists_cons_of_ne_nil h
  rw [byteLen_cons]
  exact Nat.add_pos_left c.utf8Size_pos _

theorem headWithin_prefix (allowed : ℕ) (cs : List Char) : headWithin allowed cs <+: cs := by
  induction cs generalizing allowed with
  | nil => exact List.prefix_refl _
  | cons c cs ih =>
    rw [headWithin]
    split_ifs
    · exact List.cons_prefix_cons.mpr ⟨rfl, ih _⟩
    · exact List.nil_prefix

/-- A start of the text that fits is in the head. -/
theorem prefix_headWithin {allowed : ℕ} {xs cs : List Char} (h : xs <+: cs)
    (hfits : byteLen xs ≤ allowed) : xs <+: headWithin allowed cs := by
  induction cs generalizing allowed xs with
  | nil => rwa [headWithin]
  | cons c cs ih =>
    cases xs with
    | nil => exact List.nil_prefix
    | cons x xs =>
      obtain ⟨rfl, htail⟩ := List.cons_prefix_cons.mp h
      rw [byteLen_cons] at hfits
      rw [headWithin, if_pos (by omega)]
      exact List.cons_prefix_cons.mpr ⟨rfl, ih htail (by omega)⟩

theorem byteLen_pushLines_cons (line : List Char) (lines : List (List Char)) :
    byteLen (pushLines (line :: lines)) = byteLen line + 1 + byteLen (pushLines lines) := by
  rw [pushLines, List.flatMap_cons, byteLen_append, byteLen_append, pushLines]
  rfl

theorem byteLen_pushLines_take_mono (lines : List (List Char)) {m n : ℕ} (h : m ≤ n) :
    byteLen (pushLines (lines.take m)) ≤ byteLen (pushLines (lines.take n)) := by
  induction lines generalizing m n with
  | nil => simp
  | cons line lines ih =>
    cases m with
    | zero => exact Nat.zero_le _
    | succ m =>
      obtain ⟨n, rfl⟩ := Nat.exists_eq_add_of_lt (Nat.lt_of_succ_le h)
      rw [List.take_succ_cons, List.take_succ_cons, byteLen_pushLines_cons,
        byteLen_pushLines_cons]
      have := ih (Nat.le_add_right m n)
      omega

theorem keepLines_prefix (available used : ℕ) (lines : List (List Char)) :
    keepLines available used lines <+: lines := by
  induction lines generalizing used with
  | nil => exact List.prefix_refl _
  | cons line lines ih =>
    rw [keepLines]
    split_ifs
    · exact List.nil_prefix
    · exact List.cons_prefix_cons.mpr ⟨rfl, ih _⟩

/-- One line more than are kept does not fit. -/
theorem keepLines_maximal (available used : ℕ) (lines : List (List Char))
    (h : (keepLines available used lines).length < lines.length) :
    available < used + byteLen (pushLines
      (lines.take ((keepLines available used lines).length + 1))) := by
  induction lines generalizing used with
  | nil => cases h
  | cons line lines ih =>
    rw [keepLines] at h ⊢
    split_ifs at h ⊢ with hover
    · rw [List.length_nil, Nat.zero_add, List.take_succ_cons, byteLen_pushLines_cons]
      omega
    · rw [List.length_cons, List.length_cons, Nat.add_lt_add_iff_right] at h
      have := ih _ h
      rw [List.length_cons, List.take_succ_cons, byteLen_pushLines_cons]
      omega

/-! ### The two truncations -/

/-- Whole lines, as many as fit beside the widest notice, and the number of the others; or a head of
the text, where not even the first line fits. -/
structure CutSequentially (text : List Char) (maxTokens : ℕ) (res : SequentialTruncationResult) :
    Prop where
  shape : (res.linesKept ≠ 0 ∧ res.content = pushLines ((linesOf text).take res.linesKept) ++
      droppedLinesWarning ((linesOf text).length - res.linesKept) (approximateTokens text)) ∨
    (res.linesKept = 0 ∧ ∃ head, head <+: text ∧
      res.content = head ++ oversizedNotice (approximateTokens text) (byteLen head))
  kept_le : res.linesKept ≤ (linesOf text).length
  maximal : ∀ n, res.linesKept < n → n ≤ (linesOf text).length →
    maxTokens * bytesPerToken -
        byteLen (droppedLinesWarning (linesOf text).length (approximateTokens text)) <
      byteLen (pushLines ((linesOf text).take n))

section Cut

variable {text : List Char} {maxTokens : ℕ}

theorem truncateSequential_fits (h : approximateTokens text ≤ maxTokens) :
    truncateSequential text maxTokens = ⟨text, (linesOf text).length, false⟩ :=
  if_pos h

theorem truncateSequential_over (h : ¬approximateTokens text ≤ maxTokens) :
    (truncateSequential text maxTokens).truncated = true := by
  unfold truncateSequential
  simp only
  rw [if_neg h]
  split_ifs <;> rfl

theorem truncateSequential_headOf (h : ¬approximateTokens text ≤ maxTokens)
    (hnone : (truncateSequential text maxTokens).linesKept = 0) :
    (truncateSequential text maxTokens).content =
      headOf text maxTokens (approximateTokens text) := by
  unfold truncateSequential at hnone ⊢
  simp only at hnone ⊢
  rw [if_neg h] at hnone ⊢
  split_ifs at hnone ⊢ with hkept
  · rfl
  · exact absurd (List.eq_nil_of_length_eq_zero hnone) hkept

theorem cutSequentially (h : ¬approximateTokens text ≤ maxTokens) :
    CutSequentially text maxTokens (truncateSequential text maxTokens) := by
  unfold truncateSequential
  simp only
  rw [if_neg h]
  generalize havailable : maxTokens * bytesPerToken -
    byteLen (droppedLinesWarning (linesOf text).length (approximateTokens text)) = available
  have hprefix := keepLines_prefix available 0 (linesOf text)
  have hmaximal : ∀ n, (keepLines available 0 (linesOf text)).length < n →
      n ≤ (linesOf text).length →
        available < byteLen (pushLines ((linesOf text).take n)) := by
    intro n hn hle
    have hnext := keepLines_maximal available 0 (linesOf text) (lt_of_lt_of_le hn hle)
    rw [Nat.zero_add] at hnext
    exact lt_of_lt_of_le hnext (byteLen_pushLines_take_mono _ hn)
  split_ifs with hnone
  · rw [hnone, List.length_nil] at hmaximal
    refine ⟨.inr ⟨rfl, _, headWithin_prefix _ _, rfl⟩, Nat.zero_le _, ?_⟩
    rwa [havailable]
  · refine ⟨.inl ⟨by simpa using hnone, ?_⟩, hprefix.length_le, by rwa [havailable]⟩
    rw [← List.prefix_iff_eq_take.mp hprefix]

end Cut

end Truncator

end Sashiko
