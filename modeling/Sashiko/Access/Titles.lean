import Sashiko.Text

/-! Titles of MAINTAINERS sections, as written and normalized for comparison. -/

namespace Sashiko

/-- `char::to_lowercase`: on ASCII the code relies only on what this says. -/
structure CharLowercase where
  apply : Char → List Char
  ascii : ∀ c : Char, c.toNat < 128 → apply c = [c.toLower]

def normalizeTitle (lower : CharLowercase) (title : String) : String :=
  String.ofList ([' '].intercalate
    ((splitWhitespace title.toList).map fun word => word.flatMap lower.apply))

/-- A MAINTAINERS section title: the spelling that queries are given, and the normalized form
that comparisons use. -/
structure SectionTitle (lower : CharLowercase) where
  original : String
  normalized : String
  trimmed : rustTrim original = original
  normalizes : normalizeTitle lower original = normalized

/-! ### Words -/

theorem splitWhitespace_append {sep : Char} (hsep : isRustWhitespace sep = true)
    (cs ds : List Char) :
    splitWhitespace (cs ++ sep :: ds) = splitWhitespace cs ++ splitWhitespace ds := by
  rw [splitWhitespace, List.splitOnP_append_cons cs ds hsep, List.filter_append]
  rfl

theorem splitWhitespace_cons_space {sep : Char} (hsep : isRustWhitespace sep = true)
    (cs : List Char) : splitWhitespace (sep :: cs) = splitWhitespace cs :=
  splitWhitespace_append hsep [] cs

theorem splitWhitespace_spaces {cs : List Char} (h : ∀ c ∈ cs, isRustWhitespace c = true) :
    splitWhitespace cs = [] := by
  induction cs with
  | nil => rfl
  | cons c cs ih =>
    rw [splitWhitespace_cons_space (h c List.mem_cons_self)]
    exact ih fun d hd => h d (List.mem_cons_of_mem _ hd)

theorem splitWhitespace_dropWhile (cs : List Char) :
    splitWhitespace (cs.dropWhile isRustWhitespace) = splitWhitespace cs := by
  induction cs with
  | nil => rfl
  | cons c cs ih =>
    by_cases hc : isRustWhitespace c = true
    · rw [List.dropWhile_cons_of_pos hc, splitWhitespace_cons_space hc, ih]
    · rw [List.dropWhile_cons_of_neg hc]

theorem splitWhitespace_append_spaces (cs : List Char) {spaces : List Char}
    (h : ∀ c ∈ spaces, isRustWhitespace c = true) :
    splitWhitespace (cs ++ spaces) = splitWhitespace cs := by
  cases spaces with
  | nil => rw [List.append_nil]
  | cons c spaces =>
    rw [splitWhitespace_append (h c List.mem_cons_self),
      splitWhitespace_spaces fun d hd => h d (List.mem_cons_of_mem _ hd), List.append_nil]

theorem splitWhitespace_trimChars (cs : List Char) :
    splitWhitespace (trimChars cs) = splitWhitespace cs := by
  have hcut : trimChars cs ++ (cs.dropWhile isRustWhitespace).rtakeWhile isRustWhitespace =
      cs.dropWhile isRustWhitespace := List.rdropWhile_append_rtakeWhile
  rw [← splitWhitespace_dropWhile cs, ← hcut,
    splitWhitespace_append_spaces _ fun c hc => List.mem_rtakeWhile_imp hc]

theorem normalizeTitle_rustTrim (lower : CharLowercase) (title : String) :
    normalizeTitle lower (rustTrim title) = normalizeTitle lower title := by
  rw [normalizeTitle, toList_rustTrim, splitWhitespace_trimChars]
  rfl

def SectionTitle.new (lower : CharLowercase) (title : String) : SectionTitle lower where
  original := rustTrim title
  normalized := normalizeTitle lower title
  trimmed := rustTrim_idempotent title
  normalizes := normalizeTitle_rustTrim lower title

/-! ### Letter case -/

theorem toLower_cases (c : Char) :
    c.toLower = c ∨ 65 ≤ c.toNat ∧ c.toNat ≤ 90 ∧ c.toLower.toNat = c.toNat + 32 := by
  by_cases h : c.val ≥ 'A'.val ∧ c.val ≤ 'Z'.val
  · right
    have hlo : 65 ≤ c.toNat := UInt32.le_iff_toNat_le.mp h.1
    have hhi : c.toNat ≤ 90 := UInt32.le_iff_toNat_le.mp h.2
    refine ⟨hlo, hhi, ?_⟩
    rw [toLower_def, dif_pos h]
    change (c.val + ('a'.val - 'A'.val)).toNat = _
    rw [UInt32.toNat_add]
    change (c.toNat + 32) % 2 ^ 32 = _
    omega
  · left
    rw [toLower_def, dif_neg h]

theorem isRustWhitespace_letter {c : Char} (hlo : 65 ≤ c.toNat) (hhi : c.toNat ≤ 122) :
    isRustWhitespace c = false := by
  simp only [isRustWhitespace, List.contains_cons, List.contains_nil, Bool.or_eq_false_iff,
    Bool.and_eq_false_iff, decide_eq_false_iff_not, beq_eq_false_iff_ne, and_true, not_le]
  omega

theorem isRustWhitespace_toLower (c : Char) :
    isRustWhitespace c.toLower = isRustWhitespace c := by
  rcases toLower_cases c with h | ⟨hlo, hhi, h⟩
  · rw [h]
  · rw [isRustWhitespace_letter (by omega) (by omega), isRustWhitespace_letter hlo (by omega)]

theorem toLower_idempotent (c : Char) : c.toLower.toLower = c.toLower := by
  rcases toLower_cases c with h | ⟨hlo, hhi, h⟩
  · rw [h, h]
  · rcases toLower_cases c.toLower with h' | ⟨-, hhi', -⟩
    · exact h'
    · omega

theorem CharLowercase.apply_toLower (lower : CharLowercase) (c : Char) :
    lower.apply c.toLower = lower.apply c := by
  rcases toLower_cases c with h | ⟨hlo, hhi, h⟩
  · rw [h]
  · rw [lower.ascii c (by omega), lower.ascii c.toLower (by omega), toLower_idempotent]

theorem splitOnP_map {α : Type} (p : α → Bool) (f : α → α) (h : ∀ a, p (f a) = p a)
    (xs : List α) : (xs.map f).splitOnP p = (xs.splitOnP p).map (List.map f) := by
  induction xs with
  | nil => rfl
  | cons x xs ih =>
    rw [List.map_cons, List.splitOnP_cons_eq_if_modifyHead, List.splitOnP_cons_eq_if_modifyHead,
      h, ih]
    split_ifs
    · rfl
    · obtain ⟨word, words, hsplit⟩ := List.exists_cons_of_ne_nil (List.splitOnP_ne_nil p xs)
      rw [hsplit]
      rfl

theorem splitWhitespace_map_toLower (cs : List Char) :
    splitWhitespace (cs.map Char.toLower) =
      (splitWhitespace cs).map (List.map Char.toLower) := by
  rw [splitWhitespace, splitOnP_map _ _ isRustWhitespace_toLower, List.filter_map]
  congr 2
  funext word
  simp

theorem normalizeTitle_asciiLower (lower : CharLowercase) (title : String) :
    normalizeTitle lower (asciiLower title) = normalizeTitle lower title := by
  rw [normalizeTitle, asciiLower, String.toList_ofList, splitWhitespace_map_toLower, List.map_map]
  have hword : (fun word => List.flatMap lower.apply word) ∘ List.map Char.toLower =
      fun word => List.flatMap lower.apply word := by
    funext word
    rw [Function.comp_apply, List.flatMap_map]
    simp only [lower.apply_toLower]
  rw [hword]
  rfl

/-- What `COLLATE NOCASE` identifies, the normalized form identifies. -/
theorem normalizeTitle_eq_of_eqIgnoreAsciiCase (lower : CharLowercase) {a b : String}
    (h : eqIgnoreAsciiCase a b = true) : normalizeTitle lower a = normalizeTitle lower b := by
  rw [← normalizeTitle_asciiLower lower a, ← normalizeTitle_asciiLower lower b,
    of_decide_eq_true h]

end Sashiko
