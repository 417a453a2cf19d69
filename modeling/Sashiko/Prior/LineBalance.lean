import Mathlib.Algebra.Group.Nat.Defs
import Mathlib.Data.List.Count
import Mathlib.Data.List.Infix
import Sashiko.Prior.ChangeLines

/-! What the printed difference of two patch versions says: its removed and added lines against
the lines of the two versions. -/

namespace Sashiko

/-! ### Lines lost and gained -/

/-- The removed lines of a text less its added ones are the lines of `old` less those of `new`. -/
def Balanced (old new : List Chars) (text : Chars) : Prop :=
  ∀ l : Chars, ((splitChars '\n' text).count ('-' :: l) : ℤ) -
    (splitChars '\n' text).count ('+' :: l) = old.count l - new.count l

/-- The changed lines of a text are those of a shortest script, in its order. -/
def ShowsScript (old new : List Chars) (text : Chars) : Prop :=
  ∃ script : EditScript Chars, script.source = old ∧ script.target = new ∧ script.Minimal ∧
    changeLines text = script.changes.map opLine

/-- The exact table is small enough. -/
def FitsTable (old new : List Chars) : Prop :=
  (midOld old new).length * (midNew old new).length ≤ maxLcsCells

/-- The text given for two versions reports what changed between their lines, but for white space
trimmed off its end. -/
def ReportsChange (prevDiff currDiff : Chars) : Prop :=
  let old := normalizePatchDiffLines prevDiff
  let new := normalizePatchDiffLines currDiff
  ∃ out, computeInterVersionDiff prevDiff currDiff = some out ∧
    (out = patchDiffUnchanged ↔ old = new) ∧
    (old ≠ new → ∃ text, trimEnd text = out ∧ Balanced old new text ∧
      (FitsTable old new → ShowsScript old new text))

/-- A line in both changed parts occurs equally often in each. -/
def EvenMiddles (old new : List Chars) : Prop :=
  ∀ l ∈ midOld old new, l ∈ midNew old new → (midOld old new).count l = (midNew old new).count l

section Balance
variable {old new : List Chars} {text : Chars} {l : Chars}

theorem count_changeLines {sign : Char} (h : sign = '-' ∨ sign = '+') (text : Chars) (l : Chars) :
    (splitChars '\n' text).count (sign :: l) = (changeLines text).count (sign :: l) := by
  refine (List.count_filter ?_).symm
  rcases h with rfl | rfl <;> rfl

/-- What a text loses and gains, on its changed lines. -/
theorem balanced_iff : Balanced old new text ↔ ∀ l : Chars,
    (changeLines text).count ('-' :: l) + new.count l =
      (changeLines text).count ('+' :: l) + old.count l := by
  refine forall_congr' fun l => ?_
  rw [count_changeLines (.inl rfl), count_changeLines (.inr rfl)]
  omega

theorem ShowsScript.balanced (h : ShowsScript old new text) : Balanced old new text := by
  obtain ⟨script, rfl, rfl, -, hlines⟩ := h
  refine balanced_iff.mpr fun l => ?_
  have hremoved := List.count_map_of_injective script.changes opLine opLine_injective (.remove l)
  have hadded := List.count_map_of_injective script.changes opLine opLine_injective (.add l)
  have hcount := EditScript.count_changes script l
  rw [hlines]
  simp only [opLine] at hremoved hadded
  omega

end Balance

/-! ### The exact table -/

section Exact
variable {old new : List Chars}

theorem sliceOf_subset (lines : List Chars) (first last : ℕ) : sliceOf lines first last ⊆ lines :=
  List.Subset.trans (List.drop_subset _ _) (List.take_subset _ _)

/-- The operations printed are those of a shortest script, less context. -/
theorem lcsInterdiffOps_spec (old new : List Chars) :
    let ops := lcsInterdiffOps old new (sharedStart old new) (oldEnd old new) (newEnd old new)
    (∃ script : EditScript Chars, script.source = old ∧ script.target = new ∧ script.Minimal ∧
      script.changes = EditScript.changes ops) ∧
    EditScript.source ops ⊆ old ∧ EditScript.target ops ⊆ old ++ new := by
  intro ops
  obtain ⟨before, after, -, hold, hnew, -⟩ := exists_shared old new
  have hspec := @traceback_spec _ _ (midOld old new) (midNew old new) 0 0
  simp only [List.drop_zero] at hspec
  obtain ⟨hsource, htarget, hkept⟩ := hspec
  have hops : ops = (sliceOf old (sharedStart old new - 2) (sharedStart old new)).map .equal ++
      traceback (midOld old new) (midNew old new) (lcsTable (midOld old new) (midNew old new)) 0 0
      ++ (sliceOf old (oldEnd old new) (min (oldEnd old new + 2) old.length)).map .equal := rfl
  set walk := traceback (midOld old new) (midNew old new)
    (lcsTable (midOld old new) (midNew old new)) 0 0
  obtain ⟨hs, ht, hc, -⟩ := EditScript.equals_spec
    (sliceOf old (sharedStart old new - 2) (sharedStart old new))
  obtain ⟨hs', ht', hc', -⟩ := EditScript.equals_spec
    (sliceOf old (oldEnd old new) (min (oldEnd old new + 2) old.length))
  obtain ⟨hsb, htb, hcb, -⟩ := EditScript.equals_spec before
  obtain ⟨hsa, hta, hca, -⟩ := EditScript.equals_spec after
  refine ⟨⟨before.map .equal ++ walk ++ after.map .equal, ?_, ?_, ?_, ?_⟩, ?_, ?_⟩
  · rw [EditScript.source_append, EditScript.source_append, hsb, hsa, hsource, ← hold]
  · rw [EditScript.target_append, EditScript.target_append, htb, hta, htarget, ← hnew]
  · exact EditScript.minimal_between (by rw [hsource, htarget, hkept])
  · rw [hops]
    simp only [EditScript.changes_append, hc, hc', hcb, hca]
  · rw [hops, EditScript.source_append, EditScript.source_append, hs, hs', hsource]
    exact List.append_subset.mpr ⟨List.append_subset.mpr
      ⟨sliceOf_subset _ _ _, sliceOf_subset _ _ _⟩, sliceOf_subset _ _ _⟩
  · rw [hops, EditScript.target_append, EditScript.target_append, ht, ht', htarget]
    have hleft : ∀ first last, sliceOf old first last ⊆ old ++ new := fun _ _ =>
      List.subset_append_of_subset_left _ (sliceOf_subset _ _ _)
    exact List.append_subset.mpr ⟨List.append_subset.mpr
      ⟨hleft _ _, List.subset_append_of_subset_right _ (sliceOf_subset _ _ _)⟩, hleft _ _⟩

theorem newline_not_mem_opLine {ops : List DiffOp}
    (hsource : ∀ l ∈ EditScript.source ops, '\n' ∉ l)
    (htarget : ∀ l ∈ EditScript.target ops, '\n' ∉ l) : ∀ op ∈ ops, '\n' ∉ opLine op := by
  have hcons : ∀ {sign : Char} {l : Chars}, sign ≠ '\n' → '\n' ∉ l → '\n' ∉ sign :: l :=
    fun hsign hl hmem => (List.mem_cons.mp hmem).elim (hsign ∘ Eq.symm) hl
  intro op hop
  cases op with
  | equal l => exact hcons (by decide) (hsource l (List.mem_filterMap.mpr ⟨_, hop, rfl⟩))
  | remove l => exact hcons (by decide) (hsource l (List.mem_filterMap.mpr ⟨_, hop, rfl⟩))
  | add l => exact hcons (by decide) (htarget l (List.mem_filterMap.mpr ⟨_, hop, rfl⟩))

theorem exists_renderLcs (hold : ∀ l ∈ old, '\n' ∉ l) (hnew : ∀ l ∈ new, '\n' ∉ l) :
    ∃ text, trimEnd text = renderLcsInterdiff old new (sharedStart old new) (oldEnd old new)
      (newEnd old new) ∧ ShowsScript old new text := by
  obtain ⟨⟨script, hsource, htarget, hminimal, hchanges⟩, hso, hto⟩ := lcsInterdiffOps_spec old new
  obtain ⟨text, htext, hlines⟩ := exists_formatCompact (newline_not_mem_opLine
    (fun l hl => hold l (hso hl))
    (fun l hl => (List.mem_append.mp (hto hl)).elim (hold l) (hnew l)))
  exact ⟨text, htext, script, hsource, htarget, hminimal, by rw [hlines, hchanges]⟩

/-- A text that shows a change is not the one for versions that are the same. -/
theorem ShowsScript.trimEnd_ne {text : Chars} (h : ShowsScript old new text) (hne : old ≠ new) :
    trimEnd text ≠ patchDiffUnchanged := by
  intro htrim
  have hnone : changeLines patchDiffUnchanged = [] := by decide
  have hself : trimEnd patchDiffUnchanged = patchDiffUnchanged := by decide
  have hempty : changeLines text = [] := by
    rcases changeLines_of_trimEnd (htrim.trans hself.symm) with h | ⟨init, sign, m, m', -, h⟩
    · exact h.trans hnone
    · rw [hnone] at h
      exact absurd h.symm (by simp)
  obtain ⟨script, hsource, htarget, -, hlines⟩ := h
  rw [hempty, eq_comm, List.map_eq_nil_iff] at hlines
  exact hne (hsource ▸ htarget ▸ EditScript.source_eq_target hlines)

end Exact

/-! ### The large summary -/

section Large
variable {old new : List Chars}

theorem largeSummaryLines_line (hold : ∀ l ∈ old, '\n' ∉ l) (hnew : ∀ l ∈ new, '\n' ∉ l) :
    ∀ line ∈ largeSummaryLines old new, '\n' ∉ line := by
  intro line hline
  rw [largeSummaryLines, List.cons_append, List.mem_cons, List.mem_append, List.mem_map,
    List.mem_map] at hline
  obtain rfl | ⟨l, hl, rfl⟩ | ⟨l, hl, rfl⟩ := hline
  · decide
  · simpa using hold l (List.mem_of_mem_filter hl)
  · simpa using hnew l (List.mem_of_mem_filter hl)

theorem changeLines_largeSummary (old new : List Chars) :
    (largeSummaryLines old new).filter isChangeLine =
      (old.filter (· ∉ new)).map ('-' :: ·) ++ (new.filter (· ∉ old)).map ('+' :: ·) := by
  have hheader : isChangeLine largeHeader = false := by decide
  have hsigned : ∀ (sign : Char), isChangeLine [sign] = true → ∀ lines : List Chars,
      (lines.map (sign :: ·)).filter isChangeLine = lines.map (sign :: ·) := by
    intro sign hsign lines
    refine List.filter_eq_self.mpr fun line hline => ?_
    obtain ⟨l, -, rfl⟩ := List.mem_map.mp hline
    exact hsign
  rw [largeSummaryLines, List.cons_append, List.filter_cons_of_neg (by simp [hheader]),
    List.filter_append, hsigned _ (by decide), hsigned _ (by decide)]

theorem count_signed {sign : Char} (l : Chars) (lines : List Chars) :
    (lines.map (sign :: ·)).count (sign :: l) = lines.count l :=
  List.count_map_of_injective lines (sign :: ·) (fun _ _ h => (List.cons.inj h).2) l

theorem count_other_sign {sign sign' : Char} (h : sign ≠ sign') (l : Chars) (lines : List Chars) :
    (lines.map (sign :: ·)).count (sign' :: l) = 0 := by
  refine List.count_eq_zero.mpr fun hmem => ?_
  obtain ⟨l', -, heq⟩ := List.mem_map.mp hmem
  exact h (List.cons.inj heq).1

theorem count_filter_not_mem (xs ys : List Chars) (l : Chars) :
    (xs.filter (· ∉ ys)).count l = if l ∈ ys then 0 else xs.count l := by
  split_ifs with h
  · exact List.count_eq_zero.mpr fun hmem => by simp [h] at hmem
  · exact List.count_filter (by simpa using h)

/-- In the summary a line of both parts is missing, however often it occurs. -/
theorem count_largeSummary (old new : List Chars) (l : Chars) :
    ((largeSummaryLines old new).filter isChangeLine).count ('-' :: l) + new.count l =
      ((largeSummaryLines old new).filter isChangeLine).count ('+' :: l) + old.count l ↔
    (l ∈ old → l ∈ new → old.count l = new.count l) := by
  rw [changeLines_largeSummary, List.count_append, List.count_append, count_signed, count_signed,
    count_other_sign (by decide), count_other_sign (by decide), count_filter_not_mem,
    count_filter_not_mem]
  by_cases hold : l ∈ old <;> by_cases hnew : l ∈ new
  · simp only [hold, hnew, if_true, forall_const]
    omega
  · simp [hold, hnew, List.count_eq_zero_of_not_mem hnew]
  · simp [hold, hnew, List.count_eq_zero_of_not_mem hold]
  · simp [hold, hnew, List.count_eq_zero_of_not_mem hold, List.count_eq_zero_of_not_mem hnew]

theorem exists_renderLarge (hold : ∀ l ∈ old, '\n' ∉ l) (hnew : ∀ l ∈ new, '\n' ∉ l) :
    ∃ text, trimEnd text = renderLargeInterdiffSummary old new ∧
      changeLines text = (largeSummaryLines old new).filter isChangeLine :=
  ⟨_, rfl, changeLines_of_lines (largeSummaryLines_line hold hnew)⟩

theorem renderLarge_ne (old new : List Chars) :
    renderLargeInterdiffSummary old new ≠ patchDiffUnchanged := by
  intro h
  have hpre : patchDiffUnchanged <+: (largeSummaryLines old new).flatMap (· ++ ['\n']) :=
    h ▸ List.rdropWhile_prefix _ _
  have hheader : largeHeader <+: (largeSummaryLines old new).flatMap (· ++ ['\n']) := by
    rw [largeSummaryLines, List.cons_append, List.flatMap_cons, List.append_assoc]
    exact List.prefix_append _ _
  have hlen : patchDiffUnchanged.length ≤ largeHeader.length := by decide
  have hfalse : ¬ patchDiffUnchanged <+: largeHeader := by decide
  exact hfalse (List.prefix_of_prefix_length_le hpre hheader hlen)

end Large

section Summary
variable {old new : List Chars} {text other : Chars}

/-- A text with the changed lines of the summary. -/
def Summarises (old new : List Chars) (text : Chars) : Prop :=
  changeLines text =
    (largeSummaryLines (midOld old new) (midNew old new)).filter isChangeLine

theorem Summarises.balanced_at (h : Summarises old new text) (l : Chars) :
    (changeLines text).count ('-' :: l) + new.count l =
      (changeLines text).count ('+' :: l) + old.count l ↔
    (l ∈ midOld old new → l ∈ midNew old new →
      (midOld old new).count l = (midNew old new).count l) := by
  have hmid := count_mid old new l
  rw [← count_largeSummary, h]
  omega

/-- A line that is printed is in one of the parts only. -/
theorem Summarises.of_mem (h : Summarises old new text) {sign : Char} {m : Chars}
    (hm : sign :: m ∈ changeLines text) :
    (sign = '-' ∨ sign = '+') ∧ ¬ (m ∈ midOld old new ∧ m ∈ midNew old new) := by
  rw [h, changeLines_largeSummary] at hm
  rcases List.mem_append.mp hm with hm | hm
  · obtain ⟨l, hl, heq⟩ := List.mem_map.mp hm
    obtain ⟨rfl, rfl⟩ := List.cons.inj heq
    exact ⟨.inl rfl, fun hboth => by simp [hboth.2] at hl⟩
  · obtain ⟨l, hl, heq⟩ := List.mem_map.mp hm
    obtain ⟨rfl, rfl⟩ := List.cons.inj heq
    exact ⟨.inr rfl, fun hboth => by simp [hboth.1] at hl⟩

theorem Summarises.balanced_iff (h : Summarises old new text) :
    Balanced old new text ↔ EvenMiddles old new := by
  rw [Sashiko.balanced_iff]
  exact forall_congr' fun l => h.balanced_at l

/-- Another end of the last line does not help: the line it replaces would be missing. -/
theorem Summarises.even_of_balanced (h : Summarises old new text)
    (htrim : trimEnd text = trimEnd other) (hother : Balanced old new other) :
    EvenMiddles old new := by
  rw [← h.balanced_iff]
  rcases changeLines_of_trimEnd htrim with heq | ⟨init, sign, m, m', heq, heq'⟩
  · rw [Sashiko.balanced_iff, heq, ← Sashiko.balanced_iff]
    exact hother
  obtain ⟨hsign, honce⟩ := h.of_mem (heq ▸ List.mem_append_right init List.mem_cons_self)
  have hat := (h.balanced_at m).mpr fun hmo hmn => absurd ⟨hmo, hmn⟩ honce
  have hat' := Sashiko.balanced_iff.mp hother m
  by_cases hm : m' = m
  · rw [Sashiko.balanced_iff, heq, ← hm, ← heq', ← Sashiko.balanced_iff]
    exact hother
  · rw [heq, List.count_append, List.count_append] at hat
    rw [heq', List.count_append, List.count_append] at hat'
    rcases hsign with rfl | rfl <;> simp [hm] at hat hat' <;> omega

end Summary

/-! ### The two versions -/

section Versions
variable {prevDiff currDiff : Chars}

theorem computeInterVersionDiff_eq (hprev : isBlank prevDiff = false)
    (hcurr : isBlank currDiff = false) :
    computeInterVersionDiff prevDiff currDiff = some (interVersionDiffOf
      (normalizePatchDiffLines prevDiff) (normalizePatchDiffLines currDiff)) := by
  rw [computeInterVersionDiff, hprev, hcurr, Bool.or_self, if_neg Bool.false_ne_true]

theorem fits_iff (old new : List Chars) :
    min ((midOld old new).length * (midNew old new).length) (2 ^ 64 - 1) ≤ maxLcsCells ↔
      FitsTable old new := by
  rw [FitsTable, maxLcsCells]
  omega

section Lines
variable {old new : List Chars}

theorem interVersionDiffOf_fits (hne : old ≠ new) (h : FitsTable old new) :
    interVersionDiffOf old new = renderLcsInterdiff old new (sharedStart old new) (oldEnd old new)
      (newEnd old new) := by
  rw [interVersionDiffOf, if_neg hne, if_pos ((fits_iff old new).mpr h)]

theorem interVersionDiffOf_large (hne : old ≠ new) (h : ¬ FitsTable old new) :
    interVersionDiffOf old new = renderLargeInterdiffSummary (midOld old new) (midNew old new) := by
  rw [interVersionDiffOf, if_neg hne, if_neg (mt (fits_iff old new).mp h)]

theorem newline_not_mem_mid (hold : ∀ l ∈ old, '\n' ∉ l) (hnew : ∀ l ∈ new, '\n' ∉ l) :
    (∀ l ∈ midOld old new, '\n' ∉ l) ∧ ∀ l ∈ midNew old new, '\n' ∉ l :=
  ⟨fun l hl => hold l (sliceOf_subset _ _ _ hl), fun l hl => hnew l (sliceOf_subset _ _ _ hl)⟩

theorem interVersionDiffOf_eq_unchanged (hold : ∀ l ∈ old, '\n' ∉ l)
    (hnew : ∀ l ∈ new, '\n' ∉ l) :
    interVersionDiffOf old new = patchDiffUnchanged ↔ old = new := by
  constructor
  · intro hout
    by_contra hne
    by_cases hfits : FitsTable old new
    · obtain ⟨text, htext, hshows⟩ := exists_renderLcs hold hnew
      rw [interVersionDiffOf_fits hne hfits, ← htext] at hout
      exact hshows.trimEnd_ne hne hout
    · rw [interVersionDiffOf_large hne hfits] at hout
      exact renderLarge_ne _ _ hout
  · intro heq
    rw [interVersionDiffOf, if_pos heq]

theorem fits_of_eq (heq : old = new) : FitsTable old new ∨ EvenMiddles old new := by
  right
  intro l _ _
  have h := count_mid old new l
  rw [heq] at h ⊢
  omega

end Lines

theorem reportsChange_of (hprev : isBlank prevDiff = false) (hcurr : isBlank currDiff = false)
    (h : FitsTable (normalizePatchDiffLines prevDiff) (normalizePatchDiffLines currDiff) ∨
      EvenMiddles (normalizePatchDiffLines prevDiff) (normalizePatchDiffLines currDiff)) :
    ReportsChange prevDiff currDiff := by
  have hold : ∀ l ∈ normalizePatchDiffLines prevDiff, '\n' ∉ l := fun _ =>
    newline_not_mem_normalized
  have hnew : ∀ l ∈ normalizePatchDiffLines currDiff, '\n' ∉ l := fun _ =>
    newline_not_mem_normalized
  refine ⟨_, computeInterVersionDiff_eq hprev hcurr, interVersionDiffOf_eq_unchanged hold hnew,
    fun hne => ?_⟩
  by_cases hfits : FitsTable (normalizePatchDiffLines prevDiff) (normalizePatchDiffLines currDiff)
  · obtain ⟨text, htext, hshows⟩ := exists_renderLcs hold hnew
    exact ⟨text, htext.trans (interVersionDiffOf_fits hne hfits).symm, hshows.balanced,
      fun _ => hshows⟩
  · obtain ⟨hmold, hmnew⟩ := newline_not_mem_mid hold hnew
    obtain ⟨text, htext, hlines⟩ := exists_renderLarge hmold hmnew
    exact ⟨text, htext.trans (interVersionDiffOf_large hne hfits).symm,
      (Summarises.balanced_iff hlines).mpr (h.resolve_left hfits), fun h => absurd h hfits⟩

theorem of_reportsChange (hprev : isBlank prevDiff = false) (hcurr : isBlank currDiff = false)
    (h : ReportsChange prevDiff currDiff) :
    FitsTable (normalizePatchDiffLines prevDiff) (normalizePatchDiffLines currDiff) ∨
      EvenMiddles (normalizePatchDiffLines prevDiff) (normalizePatchDiffLines currDiff) := by
  obtain ⟨out, hout, -, hchange⟩ := h
  rw [computeInterVersionDiff_eq hprev hcurr, Option.some.injEq] at hout
  by_cases heq : normalizePatchDiffLines prevDiff = normalizePatchDiffLines currDiff
  · exact fits_of_eq heq
  refine or_iff_not_imp_left.mpr fun hfits => ?_
  obtain ⟨other, htrim, hbalanced, -⟩ := hchange heq
  obtain ⟨hmold, hmnew⟩ := newline_not_mem_mid
    (fun _ => newline_not_mem_normalized : ∀ l ∈ normalizePatchDiffLines prevDiff, '\n' ∉ l)
    (fun _ => newline_not_mem_normalized : ∀ l ∈ normalizePatchDiffLines currDiff, '\n' ∉ l)
  obtain ⟨text, htext, hlines⟩ := exists_renderLarge hmold hmnew
  refine Summarises.even_of_balanced hlines ?_ hbalanced
  rw [htext, htrim, ← hout, interVersionDiffOf_large heq hfits]

end Versions

/-- What two versions are said to differ in is what they differ in, unless their changed parts are
too long for the table and some line occurs in both of them, but not equally often. -/
theorem interVersionDiff_reports_iff (prevDiff currDiff : Chars)
    (hprev : isBlank prevDiff = false) (hcurr : isBlank currDiff = false) :
    ReportsChange prevDiff currDiff ↔
      FitsTable (normalizePatchDiffLines prevDiff) (normalizePatchDiffLines currDiff) ∨
      EvenMiddles (normalizePatchDiffLines prevDiff) (normalizePatchDiffLines currDiff) :=
  ⟨of_reportsChange hprev hcurr, reportsChange_of hprev hcurr⟩

theorem interVersionDiff_reports_iff_one_line :
    ReportsChange "+a".toList "+b".toList ↔
      FitsTable (normalizePatchDiffLines "+a".toList) (normalizePatchDiffLines "+b".toList) ∨
      EvenMiddles (normalizePatchDiffLines "+a".toList) (normalizePatchDiffLines "+b".toList) :=
  interVersionDiff_reports_iff _ _ (by decide) (by decide)

/-! ### A line that is taken out once -/

def bracesLines (first last : Char) (n : ℕ) : List Chars :=
  ['+', first] :: List.replicate n ['+', '}'] ++ [['+', last]]

def bracesDiff (first last : Char) (n : ℕ) : Chars :=
  (bracesLines first last n).flatMap (· ++ ['\n'])

section Braces
variable {first last : Char} {n : ℕ}

theorem mem_bracesLines {line : Chars} (h : line ∈ bracesLines first last n) :
    ∃ c, (c = first ∨ c = '}' ∨ c = last) ∧ line = ['+', c] := by
  simp only [bracesLines, List.cons_append, List.mem_cons, List.mem_append, List.mem_replicate,
    List.not_mem_nil, or_false] at h
  obtain rfl | ⟨-, rfl⟩ | rfl := h
  · exact ⟨first, .inl rfl, rfl⟩
  · exact ⟨'}', .inr (.inl rfl), rfl⟩
  · exact ⟨last, .inr (.inr rfl), rfl⟩

theorem not_containsChars {cs part : Chars} {c : Char} (hc : c ∈ part) (h : c ∉ cs) :
    containsChars cs part = false := by
  refine List.any_eq_false.mpr fun tail htail hpre => h ?_
  exact (List.IsSuffix.subset ((List.mem_tails _ _).mp htail))
    ((List.isPrefixOf_iff_prefix.mp hpre).subset hc)

theorem keepFrom_true {lines : List Chars} (h : ∀ line ∈ lines, line.head? ≠ some 'i') :
    keepFrom true lines = lines := by
  induction lines with
  | nil => rfl
  | cons line lines ih =>
    have hindex : "index ".toList.isPrefixOf line = false := by
      cases hpre : "index ".toList.isPrefixOf line with
      | false => rfl
      | true =>
        obtain ⟨rest, rfl⟩ := List.isPrefixOf_iff_prefix.mp hpre
        exact absurd rfl (h _ List.mem_cons_self)
    rw [keepFrom]
    simp only [Bool.true_or, Bool.not_true, hindex, Bool.or_self, Bool.false_eq_true, if_false]
    rw [ih fun l hl => h l (List.mem_cons_of_mem _ hl)]

theorem normalize_bracesDiff (hfirst : first ∉ ['\n', '\r', 'd'])
    (hlast : last ∉ ['\n', '\r', 'd']) :
    normalizePatchDiffLines (bracesDiff first last n) = bracesLines first last n := by
  have hchar : ∀ line ∈ bracesLines first last n,
      ∃ c, c ∉ ['\n', '\r', 'd'] ∧ line = ['+', c] := by
    intro line hline
    obtain ⟨c, rfl | rfl | rfl, rfl⟩ := mem_bracesLines hline
    · exact ⟨c, hfirst, rfl⟩
    · exact ⟨'}', by decide, rfl⟩
    · exact ⟨c, hlast, rfl⟩
  have hline : ∀ line ∈ bracesLines first last n, '\n' ∉ line ∧ dropReturn line = line ∧
      'd' ∉ line ∧ line.head? ≠ some 'i' := by
    intro line hline
    obtain ⟨c, hc, rfl⟩ := hchar line hline
    simp only [List.mem_cons, List.not_mem_nil, or_false, not_or] at hc
    refine ⟨?_, ?_, ?_, by simp⟩
    · simpa using Ne.symm hc.1
    · rw [dropReturn, if_neg (by simpa using hc.2.1)]
    · simpa using Ne.symm hc.2.2
  have hd : 'd' ∉ bracesDiff first last n := by
    intro hmem
    obtain ⟨line, hl, hmem⟩ := List.mem_flatMap.mp hmem
    rcases List.mem_append.mp hmem with hmem | hmem
    · exact (hline line hl).2.2.1 hmem
    · exact absurd hmem (by decide)
  have hlines : linesOf (bracesDiff first last n) = bracesLines first last n := by
    have hsplit : splitChars '\n' (bracesDiff first last n) = bracesLines first last n ++ [[]] := by
      rw [bracesDiff, joinLines_flatMap]
      refine splitChars_joinLines (by simp) fun line hl => ?_
      rcases List.mem_append.mp hl with hl | hl
      · exact (hline line hl).1
      · rw [List.mem_singleton.mp hl]
        exact List.not_mem_nil
    rw [linesOf, hsplit, List.dropLast_concat, List.getLast?_concat,
      (List.map_congr_left fun l hl => (hline l hl).2.1).trans (List.map_id' _)]
    simp
  rw [normalizePatchDiffLines, not_containsChars (by decide : 'd' ∈ _) hd, hlines,
    Bool.not_false, keepFrom_true fun line hl => (hline line hl).2.2.2]

theorem not_isBlank_bracesDiff : isBlank (bracesDiff first last n) = false := by
  refine Bool.eq_false_iff.mpr fun hblank => ?_
  have h := isBlank_iff.mp hblank '+'
    (List.mem_flatMap.mpr ⟨['+', first], List.mem_cons_self, List.mem_cons_self⟩)
  revert h
  decide

/-- Versions that differ in their first and last lines have no line in common at either end. -/
theorem mid_bracesLines {first' last' : Char} {m : ℕ} (hfirst : first ≠ first')
    (hlast : last ≠ last') :
    midOld (bracesLines first last n) (bracesLines first' last' m) = bracesLines first last n ∧
      midNew (bracesLines first last n) (bracesLines first' last' m) =
        bracesLines first' last' m := by
  have hstart : sharedStart (bracesLines first last n) (bracesLines first' last' m) = 0 := by
    rw [bracesLines, bracesLines, List.cons_append, List.cons_append, sharedStart,
      if_neg (by simpa using hfirst)]
  have hend : sharedEnd (bracesLines first last n) (bracesLines first' last' m) = 0 := by
    rw [sharedEnd, hstart, List.drop_zero, List.drop_zero, bracesLines, bracesLines,
      List.reverse_concat, List.reverse_concat, sharedStart, if_neg (by simpa using hlast)]
  simp [midOld, midNew, sliceOf, oldEnd, newEnd, hstart, hend]

theorem length_bracesLines : (bracesLines first last n).length = n + 2 := by
  simp [bracesLines]

theorem count_bracesLines (hfirst : first ≠ '}') (hlast : last ≠ '}') :
    (bracesLines first last n).count ['+', '}'] = n := by
  rw [bracesLines, List.cons_append, List.count_cons_of_ne (by simpa using hfirst),
    List.count_append, List.count_replicate_self, List.count_singleton]
  simp [hlast]

end Braces

/-- Two thousand and one closing braces and two thousand: too many for the table, and the summary
prints none of them. -/
theorem braces_not_reported :
    isBlank (bracesDiff 'p' 'q' 2001) = false ∧ isBlank (bracesDiff 'r' 's' 2000) = false ∧
      ¬ ReportsChange (bracesDiff 'p' 'q' 2001) (bracesDiff 'r' 's' 2000) := by
  refine ⟨not_isBlank_bracesDiff, not_isBlank_bracesDiff, fun h => ?_⟩
  have h := of_reportsChange not_isBlank_bracesDiff not_isBlank_bracesDiff h
  rw [normalize_bracesDiff (by decide) (by decide), normalize_bracesDiff (by decide) (by decide)]
    at h
  obtain ⟨hold, hnew⟩ := @mid_bracesLines 'p' 'q' 2001 'r' 's' 2000 (by decide) (by decide)
  have hcount := @count_bracesLines 'p' 'q' 2001 (by decide) (by decide)
  have hcount' := @count_bracesLines 'r' 's' 2000 (by decide) (by decide)
  rcases h with hfits | heven
  · rw [FitsTable, hold, hnew, length_bracesLines, length_bracesLines, maxLcsCells] at hfits
    omega
  · have h := heven ['+', '}'] (by rw [hold, ← List.count_pos_iff, hcount]; omega)
      (by rw [hnew, ← List.count_pos_iff, hcount']; omega)
    rw [hold, hnew, hcount, hcount'] at h
    omega

end Sashiko
