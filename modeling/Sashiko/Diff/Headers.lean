import Sashiko.Diff.Git

/-! Every line of the text outside a hunk's body is read for what it is. -/

namespace Sashiko

open DiffState

variable {digit : RegexDigit}

/-! ### Numbers -/

theorem apply_of_isDigit {c : Char} (h : c.isDigit = true) : digit.apply c = true := by
  have hrange : c.toNat < 128 := by
    simp only [Char.isDigit, Bool.and_eq_true, decide_eq_true_eq, UInt32.le_iff_toNat_le] at h
    have hhi : c.toNat ≤ 57 := h.2
    omega
  rw [digit.ascii c hrange, h]

theorem digitsAt_toDigits (n : ℕ) {stop : Char} (hstop : digit.apply stop = false) (rest : Chars) :
    digitsAt digit (Nat.toDigits 10 n ++ stop :: rest) = some (Nat.toDigits 10 n, stop :: rest) := by
  have hdigits : ∀ c ∈ Nat.toDigits 10 n, digit.apply c = true := fun c hc =>
    apply_of_isDigit (Nat.isDigit_of_mem_toDigits (by decide) (by decide) hc)
  have htake : (Nat.toDigits 10 n ++ stop :: rest).takeWhile digit.apply = Nat.toDigits 10 n := by
    rw [List.takeWhile_append_of_pos hdigits, List.takeWhile_cons_of_neg (by simp [hstop]),
      List.append_nil]
  have hdrop : (Nat.toDigits 10 n ++ stop :: rest).dropWhile digit.apply = stop :: rest := by
    rw [List.dropWhile_append_of_pos hdigits, List.dropWhile_cons_of_neg (by simp [hstop])]
  rw [digitsAt, htake, hdrop, if_neg Nat.toDigits_ne_nil]

theorem parseUsize_toDigits {n : ℕ} (h : n ≤ usizeMax) : parseUsize (Nat.toDigits 10 n) = some n := by
  have hall : (Nat.toDigits 10 n).all Char.isDigit = true :=
    List.all_eq_true.mpr fun c hc => Nat.isDigit_of_mem_toDigits (by decide) (by decide) hc
  rw [parseUsize, Nat.ofDigitChars_ten_toDigits, if_pos ⟨hall, h⟩]

theorem captured_toDigits {n : ℕ} (h : n ≤ usizeMax) : captured (some (Nat.toDigits 10 n)) = n := by
  rw [captured, Option.bind_some, parseUsize_toDigits h, Option.getD_some]

/-- The range of one side is read back, whether git writes its count or not. -/
theorem rangeAt_rangeText (digit : RegexDigit) {start count : ℕ} (hstart : start ≤ usizeMax)
    (hcount : count ≤ usizeMax) (rest : Chars) : ∃ a b, rangeAt digit (rangeText start count ++ ' ' :: rest) =
      some ((a, b), ' ' :: rest) ∧ parseUsize a = some start ∧ captured b = count := by
  have hblank : digit.apply ' ' = false := digit.ascii ' ' (by decide)
  have hcomma : digit.apply ',' = false := digit.ascii ',' (by decide)
  unfold rangeText
  split_ifs with hone
  · have hnone : countAt digit (' ' :: rest) = (none, ' ' :: rest) := by
      simp [countAt, stripChars?, List.isPrefixOf]
    refine ⟨Nat.toDigits 10 start, none, ?_, parseUsize_toDigits hstart, by rw [hone]; rfl⟩
    rw [rangeAt, digitsAt_toDigits _ hblank, Option.map_some, hnone]
  · have hsome : countAt digit (',' :: (Nat.toDigits 10 count ++ ' ' :: rest)) =
        (some (Nat.toDigits 10 count), ' ' :: rest) := by
      have hcut : stripChars? [','] (',' :: (Nat.toDigits 10 count ++ ' ' :: rest)) =
          some (Nat.toDigits 10 count ++ ' ' :: rest) := stripChars?_append [','] _
      rw [countAt, hcut, Option.bind_some, digitsAt_toDigits _ hblank]
    refine ⟨Nat.toDigits 10 start, some (Nat.toDigits 10 count), ?_, parseUsize_toDigits hstart,
      captured_toDigits hcount⟩
    rw [List.append_assoc, List.cons_append, rangeAt, digitsAt_toDigits _ hcomma, Option.map_some,
      hsome]

theorem captured_of_parseUsize {ds : Chars} {n : ℕ} (h : parseUsize ds = some n) :
    captured (some ds) = n := by
  rw [captured, Option.bind_some, h, Option.getD_some]

theorem startOf_le {index count : ℕ} (h : index + count < usizeMax) :
    startOf index count ≤ usizeMax ∧ count ≤ usizeMax := by
  unfold startOf
  split_ifs <;> omega

def Hunk.chunk (h : Hunk) : ChunkHeader where
  preStart := startOf h.preIndex (preCount h.body)
  preCount := preCount h.body
  postStart := startOf h.postIndex (postCount h.body)
  postCount := postCount h.body

theorem chunkCaptures_headerText (h : Hunk) (rest : Chars) :
    chunkCaptures digit (h.headerText ++ rest) = some h.chunk := by
  obtain ⟨a', b', hpost, ha', hb'⟩ := rangeAt_rangeText digit (startOf_le h.post_fits).1
    (startOf_le h.post_fits).2 ('@' :: '@' :: rest)
  obtain ⟨a, b, hpre, ha, hb⟩ := rangeAt_rangeText digit (startOf_le h.pre_fits).1
    (startOf_le h.pre_fits).2 ('+' :: (rangeText (startOf h.postIndex (postCount h.body))
      (postCount h.body) ++ ' ' :: '@' :: '@' :: rest))
  have htext : h.headerText ++ rest = ['@', '@', ' ', '-'] ++
      (rangeText (startOf h.preIndex (preCount h.body)) (preCount h.body) ++ ' ' :: '+' ::
        (rangeText (startOf h.postIndex (postCount h.body)) (postCount h.body) ++
          ' ' :: '@' :: '@' :: rest)) := by
    simp [Hunk.headerText]
  have hchunk : chunkAt digit (h.headerText ++ rest) = some h.chunk := by
    have hplus := fun cs => stripChars?_append [' ', '+'] cs
    have hclose := fun cs => stripChars?_append [' ', '@', '@'] cs
    simp only [List.cons_append, List.nil_append] at hplus hclose
    rw [htext, chunkAt, stripChars?_append, Option.bind_some, hpre, Option.bind_some, hplus,
      Option.bind_some, hpost, Option.bind_some, hclose, Option.map_some,
      captured_of_parseUsize ha, hb, captured_of_parseUsize ha', hb']
    rfl
  have hcons : h.headerText ++ rest = '@' :: (h.headerText ++ rest).tail := by
    rw [htext]
    rfl
  rw [hcons, chunkCaptures, ← hcons, hchunk, Option.some_or]

/-! ### Names -/

theorem isDiffHeader_path {mark side : Char} (hmark : mark ≠ ' ') (hside : side = 'a' ∨ side = 'b')
    {path : GitPath} (hends : EndsVisible path.chars) :
    isDiffHeader mark (fileLine mark side (some path)) = true ∧
      (afterMarks mark (fileLine mark side (some path))).map trimChars =
        some (side :: '/' :: path.chars) := by
  have hspaces : ∀ c ∈ tabFor path.chars, isRustWhitespace c = true := by
    unfold tabFor
    split_ifs
    · intro c hc
      rw [List.mem_singleton.mp hc]
      decide
    · exact fun c h => absurd h List.not_mem_nil
  have hfirst : isRustWhitespace side = false := by rcases hside with rfl | rfl <;> decide
  have htrim : trimChars (side :: ['/'] ++ path.chars ++ tabFor path.chars) =
      side :: ['/'] ++ path.chars := trimChars_append_path hfirst hends path.ne_nil hspaces
  have hmarks : afterMarks mark (fileLine mark side (some path)) =
      some (side :: '/' :: (path.chars ++ tabFor path.chars)) := afterMarks_marks hmark _
  have htrim' : trimChars (side :: '/' :: (path.chars ++ tabFor path.chars)) =
      side :: '/' :: path.chars := by simpa using htrim
  constructor
  · rw [isDiffHeader, hmarks]
    simp only [htrim']
    rcases hside with rfl | rfl
    · simp [aSlash, List.isPrefixOf]
    · simp [bSlash, List.isPrefixOf]
  · rw [hmarks, Option.map_some, htrim']

theorem isDiffHeader_null {mark : Char} (side : Char) (hmark : mark ≠ ' ') :
    isDiffHeader mark (fileLine mark side none) = true ∧
      (afterMarks mark (fileLine mark side none)).map trimChars = some devNull := by
  have hmarks : afterMarks mark (fileLine mark side none) = some devNull := afterMarks_marks hmark _
  have htrim : trimChars devNull = devNull := by decide
  constructor
  · rw [isDiffHeader, hmarks]
    simp [htrim]
  · rw [hmarks, Option.map_some, htrim]

theorem bind_trimChars {o : Option Chars} {cs : Chars} {f : Chars → Option Chars}
    (h : o.map trimChars = some cs) : (o.bind fun rest => f (trimChars rest)) = f cs := by
  obtain ⟨rest, rfl, rfl⟩ := Option.map_eq_some_iff.mp h
  rfl

/-- The `---` line is read as a header that names the old file. -/
theorem extractSourceFile_fileLine (path : Option GitPath)
    (hends : ∀ p ∈ path, EndsVisible p.chars) :
    isDiffPreImageHeader (fileLine '-' 'a' path) = true ∧
      extractSourceFile (fileLine '-' 'a' path) = path.map (·.chars) := by
  cases path with
  | none =>
    obtain ⟨hheader, hrest⟩ := isDiffHeader_null 'a' (by decide : '-' ≠ ' ')
    refine ⟨hheader, ?_⟩
    rw [extractSourceFile, bind_trimChars hrest]
    exact if_pos rfl
  | some p =>
    obtain ⟨hheader, hrest⟩ := isDiffHeader_path (by decide : '-' ≠ ' ') (.inl rfl) (hends p rfl)
    refine ⟨hheader, ?_⟩
    rw [extractSourceFile, bind_trimChars hrest]
    exact headerPath_side (by decide) _ p.unquoted

theorem extractTargetFile_fileLine (path : Option GitPath)
    (hends : ∀ p ∈ path, EndsVisible p.chars) :
    isDiffPostImageHeader (fileLine '+' 'b' path) = true ∧
      extractTargetFile (fileLine '+' 'b' path) = path.map (·.chars) := by
  cases path with
  | none =>
    obtain ⟨hheader, hrest⟩ := isDiffHeader_null 'b' (by decide : '+' ≠ ' ')
    refine ⟨hheader, ?_⟩
    rw [extractTargetFile, bind_trimChars hrest]
    exact if_pos rfl
  | some p =>
    obtain ⟨hheader, hrest⟩ := isDiffHeader_path (by decide : '+' ≠ ' ') (.inr rfl) (hends p rfl)
    refine ⟨hheader, ?_⟩
    rw [extractTargetFile, bind_trimChars hrest]
    exact headerPath_side (by decide) _ p.unquoted

/-! ### Lines that say nothing -/

/-- No branch outside a hunk looks at the line. -/
structure Quiet (line : Chars) : Prop where
  git : diffGit.isPrefixOf line = false
  pre : isDiffPreImageHeader line = false
  post : isDiffPostImageHeader line = false
  chunk : ['@', '@'].isPrefixOf line = false

theorem stepOutside_quiet {line : Chars} (h : Quiet line) (s : DiffState) :
    s.stepOutside digit line = s := by
  simp [stepOutside, h.git, h.pre, h.post, h.chunk]

theorem isDiffHeader_of_head {mark c : Char} (h : c ≠ mark) (cs : Chars) :
    isDiffHeader mark (c :: cs) = false := by
  have hnone : afterMarks mark (c :: cs) = none := by
    simp [afterMarks, stripChars?, List.isPrefixOf, h.symm]
  rw [isDiffHeader, hnone]

theorem quiet_of_head {line : Chars} (h : ∀ c ∈ line.head?, c ∉ ['d', '-', '+', '@']) :
    Quiet line := by
  cases line with
  | nil => exact ⟨by decide, by decide, by decide, by decide⟩
  | cons c cs =>
    have hc := h c rfl
    simp only [List.mem_cons, List.not_mem_nil, or_false, not_or] at hc
    obtain ⟨hd, hminus, hplus, hat⟩ := hc
    refine ⟨?_, isDiffHeader_of_head hminus cs, isDiffHeader_of_head hplus cs, ?_⟩
    · change ('d' :: "iff --git ".toList).isPrefixOf (c :: cs) = false
      rw [List.isPrefixOf, beq_false_of_ne (Ne.symm hd), Bool.false_and]
    · rw [List.isPrefixOf, beq_false_of_ne (Ne.symm hat), Bool.false_and]

theorem quiet_noNewlineMarker : Quiet noNewlineMarker := by
  refine quiet_of_head fun c hc => ?_
  obtain rfl := Option.some.inj hc
  decide

theorem quiet_extended {keyword : Chars} (h : keyword ∈ extendedKeywords) (rest : Chars) :
    Quiet (keyword ++ rest) := by
  simp only [extendedKeywords, List.mem_cons, List.not_mem_nil, or_false] at h
  rcases h with rfl | rfl | rfl | rfl | rfl | rfl | rfl | rfl | rfl | rfl | rfl
  -- `deleted` and `dissimilarity` start like `diff`
  case inr.inr.inl => exact ⟨rfl, isDiffHeader_of_head (by decide) _,
    isDiffHeader_of_head (by decide) _, rfl⟩
  case inr.inr.inr.inr.inr.inr.inr.inr.inr.inl => exact ⟨rfl, isDiffHeader_of_head (by decide) _,
    isDiffHeader_of_head (by decide) _, rfl⟩
  all_goals
    refine quiet_of_head fun c hc => ?_
    obtain rfl := Option.some.inj hc
    decide

end Sashiko
