import Sashiko.Diff.Git
import Sashiko.Scan.Windows
import Sashiko.Toolbox.NumberedSlice

/-! A source file cut into the chunks that are scanned, each with its lines under their numbers. -/

namespace Sashiko

def maxPreambleLines : ℕ := 80

structure ScanChunk where
  filePath : Chars
  chunkIndex : ℕ
  totalChunks : ℕ
  startLine : ℕ
  endLine : ℕ
  numberedSource : Chars
  fileFunctionIndex : Chars
  functions : List FunctionSpan
  prefetchedHeaders : Chars
  deriving DecidableEq, Repr

/-- `{:>6}: {}` -/
def paddedLine (number : ℕ) (line : Chars) : Chars :=
  List.replicate (6 - (Nat.toDigits 10 number).length) ' ' ++ numberedLine number line

/-- The lines from `first` to `last`, both counted from 1, under their numbers. -/
def paddedLines (lines : List Chars) (first last : ℕ) : List Chars :=
  (((lines.drop (first - 1)).take (last + 1 - first)).zipIdx first).map fun l => paddedLine l.2 l.1

def preambleBanner : Chars := "// --- File-scope preamble (declarations & types) ---".toList

def elidedHead : Chars := "// ---< lines ".toList

def elidedSee : Chars := " elided; see chunk lines ".toList

def elidedTail : Chars := " below >---".toList

def lineRange (first last : ℕ) : Chars :=
  Nat.toDigits 10 first ++ '.' :: '.' :: Nat.toDigits 10 last

def elidedBanner (preambleEnd startLine endLine : ℕ) : Chars :=
  elidedHead ++ lineRange (preambleEnd + 1) (startLine - 1) ++ elidedSee ++
    lineRange startLine endLine ++ elidedTail

def numberedChunkLines (lines : List Chars) (startLine endLine : ℕ) (preamble : Option (ℕ × ℕ)) :
    List Chars :=
  (match preamble with
    | some p =>
      preambleBanner :: paddedLines lines p.1 (min p.2 lines.length) ++
        [elidedBanner p.2 startLine endLine]
    | none => []) ++ paddedLines lines (max startLine 1) (min endLine lines.length)

def formatNumberedLines (lines : List Chars) (startLine endLine : ℕ) (preamble : Option (ℕ × ℕ)) :
    Chars :=
  (numberedChunkLines lines startLine endLine preamble).flatMap (· ++ ['\n'])

def functionIndexLine (f : FunctionSpan) : Chars :=
  "- ".toList ++ f.name.toList ++ "() [lines ".toList ++ Nat.toDigits 10 f.startLine ++ '-' ::
    Nat.toDigits 10 f.endLine ++ ']' ::
    ((if f.riskSignals = [] then []
      else " [signals: ".toList ++ ", ".toList.intercalate (f.riskSignals.map String.toList) ++
        [']']) ++ ['\n'])

def formatFunctionIndex (filePath : Chars) (totalLines : ℕ) (functions : List FunctionSpan) :
    Chars :=
  if functions = [] then
    filePath ++ " (".toList ++ Nat.toDigits 10 totalLines ++
      " lines): no top-level function definitions detected.".toList
  else
    filePath ++ " (".toList ++ Nat.toDigits 10 totalLines ++ " lines, ".toList ++
      Nat.toDigits 10 functions.length ++ " functions):\n".toList ++
      functions.flatMap functionIndexLine

section Chunking

-- `extract_functions`: the spans that the parser finds.
variable (extractFunctions : Chars → Chars → List FunctionSpan)

def scanWindows (totalLines : ℕ) (functions : List FunctionSpan) : List (ℕ × ℕ) :=
  if totalLines ≤ singleChunkMaxLines then [(1, totalLines)]
  else if functions = [] then buildLineWindows totalLines
  else buildFunctionWindows totalLines functions

def preambleEnd (functions : List FunctionSpan) : ℕ :=
  (functions.head?.map fun f => min (f.startLine - 1) maxPreambleLines).getD 0

def chunkPreamble (functions : List FunctionSpan) (startLine : ℕ) : Option (ℕ × ℕ) :=
  if startLine > 1 ∧ preambleEnd functions ≥ 1 ∧ preambleEnd functions < startLine then
    some (1, preambleEnd functions)
  else none

/-- The only chunk of a short file lists all functions, the others those that reach into them. -/
def chunkFunctions (totalLines : ℕ) (functions : List FunctionSpan) (window : ℕ × ℕ) :
    List FunctionSpan :=
  if totalLines ≤ singleChunkMaxLines then functions
  else functions.filter fun f => f.endLine ≥ window.1 ∧ f.startLine ≤ window.2

def scanChunk (filePath source : Chars) (totalChunks : ℕ) (window : (ℕ × ℕ) × ℕ) : ScanChunk :=
  let lines := linesOf source
  let functions := extractFunctions filePath source
  { filePath := filePath
    chunkIndex := window.2 + 1
    totalChunks := totalChunks
    startLine := window.1.1
    endLine := window.1.2
    numberedSource :=
      formatNumberedLines lines window.1.1 window.1.2 (chunkPreamble functions window.1.1)
    fileFunctionIndex := formatFunctionIndex filePath lines.length functions
    functions := chunkFunctions lines.length functions window.1
    prefetchedHeaders := [] }

/-- The chunk of a short file is its only window: it starts in line 1 and has no preamble. -/
def chunkSourceFile (filePath source : Chars) : List ScanChunk :=
  if linesOf source = [] then []
  else
    let windows :=
      scanWindows (linesOf source).length (extractFunctions filePath source)
    windows.zipIdx.map (scanChunk extractFunctions filePath source windows.length)

end Chunking

/-! ### The numbers are taken off again -/

def rawSourceLine (line : Chars) : Chars :=
  let trimmed := trimStart line
  let digits := trimmed.takeWhile Char.isDigit
  if digits ≠ [] ∧ [':', ' '] <+: trimmed.drop digits.length then
    trimmed.drop (digits.length + 2)
  else line

def isScanBanner (line : Chars) : Bool :=
  "// --- File-scope preamble".toList.isPrefixOf line || elidedHead.isPrefixOf line

def rawSourceLines (numberedSource : Chars) : Chars :=
  (((linesOf numberedSource).filter (!isScanBanner ·)).map rawSourceLine).flatMap (· ++ ['\n'])

theorem paddedLine_eq (number : ℕ) (line : Chars) :
    paddedLine number line = (List.replicate (6 - (Nat.toDigits 10 number).length) ' ' ++
      Nat.toDigits 10 number ++ [':', ' ']) ++ line := by
  simp [paddedLine, numberedLine]

theorem dropReturn_paddedLine (number : ℕ) (line : Chars) :
    dropReturn (paddedLine number line) = paddedLine number (dropReturn line) := by
  rw [paddedLine_eq, paddedLine_eq, dropReturn_append]
  rw [List.getLast?_append, show [':', ' '].getLast? = some ' ' from rfl, Option.some_or]
  decide

theorem rawSourceLine_paddedLine (number : ℕ) (line : Chars) :
    rawSourceLine (paddedLine number line) = line := by
  have hdigits : ∀ c ∈ Nat.toDigits 10 number, c.isDigit = true :=
    fun c => isDigit_of_mem_toDigits
  obtain ⟨d, ds, hcons⟩ :=
    List.exists_cons_of_ne_nil (Nat.toDigits_ne_nil (n := number) (b := 10))
  have htrim : trimStart (paddedLine number line) =
      Nat.toDigits 10 number ++ ':' :: ' ' :: line := by
    have hspaces : ∀ c ∈ List.replicate (6 - (Nat.toDigits 10 number).length) ' ',
        isRustWhitespace c = true := by
      intro c hc
      rw [List.eq_of_mem_replicate hc]
      decide
    rw [trimStart, paddedLine, List.dropWhile_append_of_pos hspaces, numberedLine, hcons,
      List.cons_append, List.dropWhile_cons_of_neg]
    rw [not_whitespace_of_isDigit (hdigits d (hcons ▸ List.mem_cons_self))]
    exact Bool.false_ne_true
  have htake : (Nat.toDigits 10 number ++ ':' :: ' ' :: line).takeWhile Char.isDigit =
      Nat.toDigits 10 number := by
    rw [List.takeWhile_append_of_pos hdigits, List.takeWhile_cons_of_neg (by decide),
      List.append_nil]
  rw [rawSourceLine, htrim, htake, List.drop_left, if_pos ⟨Nat.toDigits_ne_nil, line, rfl⟩,
    ← List.drop_drop, List.drop_left]
  rfl

theorem not_isScanBanner_paddedLine (number : ℕ) (line : Chars) :
    isScanBanner (paddedLine number line) = false := by
  have hhead : ∃ c cs, paddedLine number line = c :: cs ∧ c ≠ '/' := by
    unfold paddedLine
    cases 6 - (Nat.toDigits 10 number).length with
    | zero =>
      obtain ⟨d, ds, hcons⟩ :=
        List.exists_cons_of_ne_nil (Nat.toDigits_ne_nil (n := number) (b := 10))
      refine ⟨d, _, by rw [numberedLine, hcons]; rfl, fun hd => ?_⟩
      have hdigit := isDigit_of_mem_toDigits (n := number) (hcons ▸ List.mem_cons_self)
      rw [hd] at hdigit
      exact absurd hdigit (by decide)
    | succ k => exact ⟨' ', _, rfl, by decide⟩
  obtain ⟨c, cs, hcons, hc⟩ := hhead
  have hslash : ∀ banner : Chars, banner.head? = some '/' →
      banner.isPrefixOf (paddedLine number line) = false := by
    intro banner hbanner
    obtain ⟨rest, rfl⟩ := List.head?_eq_some_iff.mp hbanner
    rw [hcons, List.isPrefixOf, beq_false_of_ne (Ne.symm hc), Bool.false_and]
  rw [isScanBanner, hslash _ rfl, hslash _ rfl]
  rfl

theorem mem_paddedLines {lines : List Chars} {first last : ℕ} {l : Chars}
    (h : l ∈ paddedLines lines first last) :
    ∃ number, ∃ line ∈ lines, l = paddedLine number line := by
  obtain ⟨⟨line, number⟩, hmem, rfl⟩ := List.mem_map.mp h
  have hline := List.mem_of_mem_drop (List.mem_of_mem_take (List.fst_mem_of_mem_zipIdx hmem))
  exact ⟨number, line, hline, rfl⟩

theorem newline_not_mem_paddedLine {line : Chars} (h : '\n' ∉ line) (number : ℕ) :
    '\n' ∉ paddedLine number line := by
  rw [paddedLine, List.mem_append, not_or]
  refine ⟨fun hmem => ?_, newline_not_mem_numberedLine h number⟩
  exact absurd (List.eq_of_mem_replicate hmem) (by decide)

theorem newline_not_mem_toDigits (n : ℕ) : '\n' ∉ Nat.toDigits 10 n := fun h =>
  absurd (isDigit_of_mem_toDigits h) (by decide)

theorem newline_not_mem_lineRange (first last : ℕ) : '\n' ∉ lineRange first last := by
  simp [lineRange, newline_not_mem_toDigits]

theorem newline_not_mem_elidedBanner (a b c : ℕ) : '\n' ∉ elidedBanner a b c := by
  have hhead : '\n' ∉ elidedHead := by decide
  have hsee : '\n' ∉ elidedSee := by decide
  have htail : '\n' ∉ elidedTail := by decide
  simp [elidedBanner, newline_not_mem_lineRange, hhead, hsee, htail]

theorem dropReturn_elidedBanner (a b c : ℕ) :
    dropReturn (elidedBanner a b c) = elidedBanner a b c := by
  have hlast : elidedTail.getLast? = some '-' := by decide
  rw [dropReturn, if_neg]
  rw [elidedBanner, List.getLast?_append, hlast, Option.some_or]
  decide

theorem isScanBanner_elidedBanner (a b c : ℕ) : isScanBanner (elidedBanner a b c) = true := by
  rw [isScanBanner, Bool.or_eq_true]
  refine .inr (List.isPrefixOf_iff_prefix.mpr ?_)
  simp only [elidedBanner, List.append_assoc]
  exact List.prefix_append _ _

def shownLines (numbered : List Chars) : List Chars :=
  ((numbered.map dropReturn).filter (!isScanBanner ·)).map rawSourceLine

theorem shownLines_append (above below : List Chars) :
    shownLines (above ++ below) = shownLines above ++ shownLines below := by
  simp only [shownLines, List.map_append, List.filter_append]

theorem shownLines_paddedLines (lines : List Chars) (first last : ℕ) :
    shownLines (paddedLines lines first last) =
      ((lines.drop (first - 1)).take (last + 1 - first)).map dropReturn := by
  unfold shownLines paddedLines
  generalize (lines.drop (first - 1)).take (last + 1 - first) = lines
  rw [List.map_map, List.filter_eq_self.mpr, List.map_map]
  · conv_rhs => rw [← List.zipIdx_map_fst first lines, List.map_map]
    refine List.map_congr_left fun l _ => ?_
    rw [Function.comp_apply, Function.comp_apply, dropReturn_paddedLine, rawSourceLine_paddedLine]
    rfl
  · intro l hl
    obtain ⟨⟨line, number⟩, -, rfl⟩ := List.mem_map.mp hl
    rw [Function.comp_apply, dropReturn_paddedLine, not_isScanBanner_paddedLine]
    rfl

theorem shownLines_preamble (lines : List Chars) (p startLine endLine : ℕ) :
    shownLines (preambleBanner :: paddedLines lines 1 (min p lines.length) ++
      [elidedBanner p startLine endLine]) = (lines.take p).map dropReturn := by
  have hfirst : shownLines [preambleBanner] = [] := by decide
  have hlast : shownLines [elidedBanner p startLine endLine] = [] := by
    rw [shownLines, List.map_singleton, dropReturn_elidedBanner,
      List.filter_cons_of_neg (by rw [isScanBanner_elidedBanner]; decide)]
    rfl
  rw [← List.singleton_append, shownLines_append, shownLines_append, hfirst, hlast,
    shownLines_paddedLines, List.append_nil, List.nil_append, Nat.add_sub_cancel, Nat.sub_self,
    List.drop_zero, ← List.take_take, List.take_length]

theorem rawSourceLines_formatNumberedLines {lines : List Chars} (h : ∀ l ∈ lines, '\n' ∉ l)
    (startLine endLine : ℕ) (preamble : Option (ℕ × ℕ)) :
    rawSourceLines (formatNumberedLines lines startLine endLine preamble) =
      (shownLines (numberedChunkLines lines startLine endLine preamble)).flatMap (· ++ ['\n']) := by
  have hpadded : ∀ first last, ∀ l ∈ paddedLines lines first last, '\n' ∉ l := by
    intro first last l hl
    obtain ⟨number, line, hline, rfl⟩ := mem_paddedLines hl
    exact newline_not_mem_paddedLine (h line hline) number
  have hclean : ∀ l ∈ numberedChunkLines lines startLine endLine preamble, '\n' ∉ l := by
    intro l hl
    rcases List.mem_append.mp hl with hl | hl
    · cases preamble with
      | none => cases hl
      | some p =>
        rcases List.mem_append.mp hl with hl | hl
        · rcases List.mem_cons.mp hl with rfl | hl
          · decide
          · exact hpadded _ _ l hl
        · rw [List.mem_singleton.mp hl]
          exact newline_not_mem_elidedBanner _ _ _
    · exact hpadded _ _ l hl
  rw [rawSourceLines, formatNumberedLines, linesOf_lines _ hclean]
  rfl

/-! ### The chunks of a file -/

section Chunks

variable {extractFunctions : Chars → Chars → List FunctionSpan} {filePath source : Chars}

/-- The windows of a file that has lines. -/
theorem gapless_scanWindows {totalLines : ℕ} (hpos : 0 < totalLines)
    (functions : List FunctionSpan) : Gapless totalLines (scanWindows totalLines functions) ∧
      lastEnd (scanWindows totalLines functions) = totalLines := by
  unfold scanWindows
  split_ifs with hshort hnil
  · have hone := (@gapless_nil totalLines).concat (Nat.le_refl 1) (Nat.le_refl 1) hpos
      (Nat.le_refl totalLines) (by simp only [singleChunkMaxLines, maxChunkLines] at *; omega)
    exact ⟨hone, lastEnd_concat [] _⟩
  · exact gapless_buildLineWindows hpos
  · exact gapless_buildFunctionWindows hpos hnil

theorem mem_chunkSourceFile {c : ScanChunk}
    (hc : c ∈ chunkSourceFile extractFunctions filePath source) :
    ∃ w ∈ scanWindows (linesOf source).length (extractFunctions filePath source), ∃ i total,
      c = scanChunk extractFunctions filePath source total (w, i) := by
  unfold chunkSourceFile at hc
  split_ifs at hc
  · cases hc
  · obtain ⟨⟨w, i⟩, hw, rfl⟩ := List.mem_map.mp hc
    exact ⟨w, List.fst_mem_of_mem_zipIdx hw, i, _, rfl⟩

theorem exists_chunk {run : ℕ × ℕ} (hne : linesOf source ≠ [])
    (h : Covers (scanWindows (linesOf source).length (extractFunctions filePath source)) run) :
    ∃ c ∈ chunkSourceFile extractFunctions filePath source,
      c.startLine ≤ run.1 ∧ run.2 ≤ c.endLine := by
  obtain ⟨w, hw, hrun⟩ := h
  obtain ⟨i, hi⟩ := List.getElem?_of_mem hw
  rw [chunkSourceFile, if_neg hne]
  exact ⟨_, List.mem_map_of_mem (List.mk_mem_zipIdx_iff_getElem?.mpr hi), hrun⟩

/-- The chunks are numbered, each is within the limit, and every line of the file is in one. -/
theorem chunkSourceFile_covers (extractFunctions : Chars → Chars → List FunctionSpan)
    (filePath source : Chars) :
    (∀ i c, (chunkSourceFile extractFunctions filePath source)[i]? = some c →
      c.chunkIndex = i + 1 ∧
        c.totalChunks = (chunkSourceFile extractFunctions filePath source).length) ∧
    (∀ c ∈ chunkSourceFile extractFunctions filePath source,
      1 ≤ c.startLine ∧ c.startLine ≤ c.endLine ∧ c.endLine ≤ (linesOf source).length ∧
        c.endLine < c.startLine + maxChunkLines) ∧
    ∀ l, 1 ≤ l → l ≤ (linesOf source).length →
      ∃ c ∈ chunkSourceFile extractFunctions filePath source,
        c.startLine ≤ l ∧ l ≤ c.endLine := by
  refine ⟨fun i c hi => ?_, fun c hc => ?_, fun l hpos hl => ?_⟩
  · unfold chunkSourceFile at hi ⊢
    split_ifs at hi ⊢
    · cases hi
    · rw [List.getElem?_map, List.getElem?_zipIdx, Option.map_map] at hi
      obtain ⟨w, -, rfl⟩ := Option.map_eq_some_iff.mp hi
      rw [List.length_map, List.length_zipIdx, Function.comp_apply, Nat.zero_add]
      exact ⟨rfl, rfl⟩
  · have hne : 0 < (linesOf source).length := by
      rw [List.length_pos_iff]
      intro hnil
      rw [chunkSourceFile, if_pos hnil] at hc
      cases hc
    obtain ⟨w, hw, i, total, rfl⟩ := mem_chunkSourceFile hc
    exact (gapless_scanWindows hne _).1.bounds w hw
  · obtain ⟨hgap, hlast⟩ := gapless_scanWindows (Nat.lt_of_lt_of_le hpos hl)
      (extractFunctions filePath source)
    refine exists_chunk (fun hnil => ?_) (hgap.covers l hpos (hlast.symm ▸ hl))
    rw [hnil, List.length_nil] at hl
    omega

/-- A function that is short, or that ends near the one before it, is not cut. -/
theorem chunkSourceFile_keeps_function {front back : List FunctionSpan} {f : FunctionSpan}
    (horder : InOrder (linesOf source).length (extractFunctions filePath source))
    (hf : extractFunctions filePath source = front ++ f :: back)
    (hfits : FitsChunk (endBefore 0 front) f) :
    ∃ c ∈ chunkSourceFile extractFunctions filePath source,
      c.startLine ≤ f.startLine ∧ f.endLine ≤ c.endLine := by
  obtain ⟨hone, hle, htotal⟩ := horder.bounds f (hf ▸ List.mem_append_right _ List.mem_cons_self)
  have hpos : 0 < (linesOf source).length := by omega
  refine @exists_chunk _ _ _ (f.startLine, f.endLine) (List.length_pos_iff.mp hpos) ?_
  unfold scanWindows
  split_ifs with hshort hnil
  · exact ⟨_, List.mem_cons_self, hone, htotal⟩
  · rw [hnil] at hf
    simp at hf
  · exact covers_buildFunctionWindows hpos horder hf hfits

def longFunction : FunctionSpan := ⟨"setup", "", 1, 590, [], []⟩

def nextFunction : FunctionSpan := ⟨"teardown", "", 591, 640, [], []⟩

def longSource : Chars := (List.replicate 1000 []).flatMap (· ++ ['\n'])

theorem length_linesOf_longSource : (linesOf longSource).length = 1000 := by
  have hclean : ∀ l ∈ List.replicate 1000 ([] : Chars), '\n' ∉ l := fun l hl =>
    List.eq_of_mem_replicate hl ▸ List.not_mem_nil
  rw [longSource, linesOf_lines _ hclean, List.length_map, List.length_replicate]

theorem chunkSourceFile_keeps_function_next :
    ∃ c ∈ chunkSourceFile (fun _ _ => [longFunction, nextFunction]) [] longSource,
      c.startLine ≤ 591 ∧ 640 ≤ c.endLine := by
  refine chunkSourceFile_keeps_function (f := nextFunction) ⟨?_, ?_⟩
    (rfl : _ = [longFunction] ++ nextFunction :: []) (.inl (by decide))
  · exact List.pairwise_pair.mpr (by decide)
  · rw [length_linesOf_longSource]
    decide

theorem preambleEnd_le (functions : List FunctionSpan) :
    preambleEnd functions ≤ maxPreambleLines := by
  unfold preambleEnd
  cases functions.head? with
  | none => exact Nat.zero_le _
  | some f => exact Nat.min_le_right _ _

theorem shownLines_numberedChunkLines {lines : List Chars} (functions : List FunctionSpan)
    {startLine endLine : ℕ} (hone : 1 ≤ startLine) (htotal : endLine ≤ lines.length) :
    ∃ p ≤ maxPreambleLines, p < startLine ∧
      shownLines (numberedChunkLines lines startLine endLine (chunkPreamble functions startLine)) =
        (lines.take p ++
          (lines.drop (startLine - 1)).take (endLine + 1 - startLine)).map dropReturn := by
  have hown : shownLines (paddedLines lines (max startLine 1) (min endLine lines.length)) =
      ((lines.drop (startLine - 1)).take (endLine + 1 - startLine)).map dropReturn := by
    rw [shownLines_paddedLines, Nat.max_eq_left hone, Nat.min_eq_left htotal]
  unfold chunkPreamble
  split_ifs with hpreamble
  · refine ⟨preambleEnd functions, preambleEnd_le functions, hpreamble.2.2, ?_⟩
    rw [numberedChunkLines, shownLines_append, shownLines_preamble, hown, List.map_append]
  · refine ⟨0, Nat.zero_le _, hone, ?_⟩
    rw [numberedChunkLines, List.nil_append, hown, List.take_zero, List.nil_append]

/-- Without the numbers, a chunk is lines from the top of the file and then its own lines. -/
theorem rawSourceLines_chunk {c : ScanChunk}
    (hc : c ∈ chunkSourceFile extractFunctions filePath source) :
    ∃ p ≤ maxPreambleLines, p < c.startLine ∧ rawSourceLines c.numberedSource =
      (((linesOf source).take p ++ ((linesOf source).drop (c.startLine - 1)).take
        (c.endLine + 1 - c.startLine)).map dropReturn).flatMap (· ++ ['\n']) := by
  obtain ⟨hone, -, htotal, -⟩ := (chunkSourceFile_covers extractFunctions filePath source).2.1 c hc
  obtain ⟨w, -, i, total, rfl⟩ := mem_chunkSourceFile hc
  obtain ⟨p, hp, hstart, hshown⟩ :=
    shownLines_numberedChunkLines (extractFunctions filePath source) hone htotal
  refine ⟨p, hp, hstart, ?_⟩
  rw [← hshown]
  exact rawSourceLines_formatNumberedLines (fun l hl => (mem_linesOf hl).1) _ _ _

def shortSource : Chars := "int x;\nint y;\n".toList

def shortChunk : ScanChunk := scanChunk (fun _ _ => []) [] shortSource 1 ((1, 2), 0)

theorem rawSourceLines_chunk_short :
    ∃ p ≤ maxPreambleLines, p < 1 ∧ rawSourceLines shortChunk.numberedSource =
      (((linesOf shortSource).take p ++ ((linesOf shortSource).drop 0).take 2).map
        dropReturn).flatMap (· ++ ['\n']) :=
  @rawSourceLines_chunk (fun _ _ => []) [] shortSource shortChunk (by decide)

end Chunks

end Sashiko
