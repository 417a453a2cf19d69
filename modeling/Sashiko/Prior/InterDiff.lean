import Mathlib.Algebra.Group.Nat.Defs
import Sashiko.Diff.Snippet
import Sashiko.Lib.EditScript
import Sashiko.Lib.Lines

/-! The difference between two versions of a patch: the lines that count, the part of them that
changed, and the two ways it is printed. -/

namespace Sashiko

/-! ### The lines of a diff -/

def keepFrom (started : Bool) : List Chars → List Chars
  | [] => []
  | line :: lines =>
    let started := started || "diff --git ".toList.isPrefixOf line
    if !started || "index ".toList.isPrefixOf line then keepFrom started lines
    else line :: keepFrom started lines

def normalizePatchDiffLines (diff : Chars) : List Chars :=
  keepFrom (!containsChars diff "diff --git ".toList) (linesOf diff)

theorem keepFrom_subset (started : Bool) (lines : List Chars) :
    keepFrom started lines ⊆ lines := by
  induction lines generalizing started with
  | nil => exact List.Subset.refl _
  | cons line lines ih =>
    rw [keepFrom]
    split_ifs
    · exact List.subset_cons_of_subset line (ih _)
    · exact List.cons_subset_cons line (ih _)

theorem newline_not_mem_normalized {diff line : Chars} (h : line ∈ normalizePatchDiffLines diff) :
    '\n' ∉ line :=
  (mem_linesOf (keepFrom_subset _ _ h)).1

/-! ### The part that changed -/

/-- How many lines the two lists begin with in common. -/
def sharedStart : List Chars → List Chars → ℕ
  | x :: xs, y :: ys => if x = y then sharedStart xs ys + 1 else 0
  | _, _ => 0

/-- `&lines[first..last]` -/
def sliceOf (lines : List Chars) (first last : ℕ) : List Chars := (lines.take last).drop first

section Middle
variable (old new : List Chars)

/-- How many lines the lists end with in common, those of the beginning left out. -/
def sharedEnd : ℕ :=
  sharedStart (old.drop (sharedStart old new)).reverse (new.drop (sharedStart old new)).reverse

def oldEnd : ℕ := old.length - sharedEnd old new
def newEnd : ℕ := new.length - sharedEnd old new

def midOld : List Chars := sliceOf old (sharedStart old new) (oldEnd old new)
def midNew : List Chars := sliceOf new (sharedStart old new) (newEnd old new)

end Middle

/-! ### The table of longest common subsequences -/

abbrev DiffOp := EditOp Chars

section Table
variable {α : Type} [DecidableEq α] (a b : List α)

/-- `dp`; the cell `dp[i * cols + j]` is the value at `i` and `j`. -/
abbrev LcsTable := ℕ → ℕ → ℕ

def LcsTable.set (dp : LcsTable) (i j value : ℕ) : LcsTable := fun i' j' =>
  if i' = i ∧ j' = j then value else dp i' j'

/-- Row `i` filled from the column before `j` down. -/
def fillRow (i : ℕ) : ℕ → LcsTable → LcsTable
  | 0, dp => dp
  | j + 1, dp =>
    fillRow i j (dp.set i j
      (if a[i]? = b[j]? then dp (i + 1) (j + 1) + 1 else max (dp (i + 1) j) (dp i (j + 1))))

def fillRows : ℕ → LcsTable → LcsTable
  | 0, dp => dp
  | i + 1, dp => fillRows i (fillRow a b i b.length dp)

def lcsTable : LcsTable := fillRows a b a.length fun _ _ => 0

/-- The walk through the table from cell `i`, `j`. -/
def traceback (dp : LcsTable) (i j : ℕ) : List (EditOp α) :=
  if h : i < a.length ∧ j < b.length then
    if a[i] = b[j] then .equal a[i] :: traceback dp (i + 1) (j + 1)
    else if dp (i + 1) j ≥ dp i (j + 1) then .remove a[i] :: traceback dp (i + 1) j
    else .add b[j] :: traceback dp i (j + 1)
  else (a.drop i).map .remove ++ (b.drop j).map .add
termination_by (a.length - i) + (b.length - j)

end Table

/-! ### Printing -/

def opLine : DiffOp → Chars
  | .equal l => ' ' :: l
  | .remove l => '-' :: l
  | .add l => '+' :: l

/-- `keep[idx]` after the first loop. -/
def keepFlag (ops : List DiffOp) (idx : ℕ) : Bool :=
  ops.zipIdx.any fun (op, at') => op.isChange && at' - 2 ≤ idx && idx < min (at' + 3) ops.length

def printKept (ops : List DiffOp) : List (DiffOp × ℕ) → Bool → Chars → Chars
  | [], _, out => out
  | (op, idx) :: rest, skipped, out =>
    if !keepFlag ops idx then printKept ops rest true out
    else
      let out := if skipped && !out.isEmpty then out ++ "...\n".toList else out
      printKept ops rest false (out ++ opLine op ++ ['\n'])

def formatCompactDiffOps (ops : List DiffOp) : Chars := trimEnd (printKept ops ops.zipIdx false [])

def lcsInterdiffOps (oldLines newLines : List Chars) (start oldEnd newEnd : ℕ) : List DiffOp :=
  let a := sliceOf oldLines start oldEnd
  let b := sliceOf newLines start newEnd
  (sliceOf oldLines (start - 2) start).map .equal ++ traceback a b (lcsTable a b) 0 0 ++
    (sliceOf oldLines oldEnd (min (oldEnd + 2) oldLines.length)).map .equal

def renderLcsInterdiff (oldLines newLines : List Chars) (start oldEnd newEnd : ℕ) : Chars :=
  formatCompactDiffOps (lcsInterdiffOps oldLines newLines start oldEnd newEnd)

def largeHeader : Chars := "(large inter-version diff: every removed and added line)".toList

attribute [local instance] lawfulBEq_texts in
def largeSummaryLines (old new : List Chars) : List Chars :=
  largeHeader :: (old.filter (· ∉ new)).map ('-' :: ·) ++ (new.filter (· ∉ old)).map ('+' :: ·)

def renderLargeInterdiffSummary (old new : List Chars) : Chars :=
  trimEnd ((largeSummaryLines old new).flatMap (· ++ ['\n']))

/-- `MAX_LCS_CELLS` -/
def maxLcsCells : ℕ := 4000000

def patchDiffUnchanged : Chars := "(patch diff unchanged)".toList

def interVersionDiffOf (old new : List Chars) : Chars :=
  if old = new then patchDiffUnchanged
  else if min ((midOld old new).length * (midNew old new).length) (2 ^ 64 - 1) ≤ maxLcsCells then
    renderLcsInterdiff old new (sharedStart old new) (oldEnd old new) (newEnd old new)
  else renderLargeInterdiffSummary (midOld old new) (midNew old new)

def computeInterVersionDiff (prevDiff currDiff : Chars) : Option Chars :=
  if isBlank prevDiff || isBlank currDiff then none
  else some (interVersionDiffOf (normalizePatchDiffLines prevDiff)
    (normalizePatchDiffLines currDiff))

/-! ### What the middle leaves out -/

section Shared
variable (xs ys : List Chars)

theorem take_sharedStart : xs.take (sharedStart xs ys) = ys.take (sharedStart xs ys) := by
  induction xs generalizing ys with
  | nil => cases ys <;> simp [sharedStart]
  | cons x xs ih =>
    cases ys with
    | nil => simp [sharedStart]
    | cons y ys =>
      rw [sharedStart]
      split_ifs with h
      · rw [List.take_succ_cons, List.take_succ_cons, ih ys, h]
      · simp

theorem sharedStart_le : sharedStart xs ys ≤ xs.length ∧ sharedStart xs ys ≤ ys.length := by
  induction xs generalizing ys with
  | nil => cases ys <;> simp [sharedStart]
  | cons x xs ih =>
    cases ys with
    | nil => simp [sharedStart]
    | cons y ys =>
      have h := ih ys
      rw [sharedStart]
      split_ifs <;> simp [h.1, h.2]

end Shared

/-- The lines before and after the middle are the same in both lists. -/
theorem exists_shared (old new : List Chars) :
    ∃ before after, before.length = sharedStart old new ∧
      old = before ++ midOld old new ++ after ∧ new = before ++ midNew old new ++ after ∧
      oldEnd old new = (before ++ midOld old new).length := by
  obtain ⟨hold, hnew⟩ := sharedStart_le old new
  have hbefore := take_sharedStart old new
  have hend := sharedStart_le (old.drop (sharedStart old new)).reverse
    (new.drop (sharedStart old new)).reverse
  have hafter := take_sharedStart (old.drop (sharedStart old new)).reverse
    (new.drop (sharedStart old new)).reverse
  rw [← sharedEnd] at hend hafter
  simp only [List.length_reverse, List.length_drop] at hend
  rw [List.take_reverse, List.take_reverse, List.reverse_inj, List.drop_drop, List.drop_drop,
    List.length_drop, List.length_drop] at hafter
  have hsplit : ∀ (lines : List Chars) (first last : ℕ), first ≤ last → last ≤ lines.length →
      lines = lines.take first ++ sliceOf lines first last ++ lines.drop last := by
    intro lines first last hle hlast
    have hfirst : (lines.take last).take first = lines.take first := by
      rw [List.take_take, Nat.min_eq_left hle]
    rw [sliceOf, ← hfirst, List.take_append_drop, List.take_append_drop]
  have holdEnd : sharedStart old new + (old.length - sharedStart old new - sharedEnd old new) =
      oldEnd old new := by
    rw [oldEnd]
    omega
  have hnewEnd : sharedStart old new + (new.length - sharedStart old new - sharedEnd old new) =
      newEnd old new := by
    rw [newEnd]
    omega
  rw [holdEnd, hnewEnd] at hafter
  refine ⟨old.take (sharedStart old new), old.drop (oldEnd old new), ?_, ?_, ?_, ?_⟩
  · rw [List.length_take, Nat.min_eq_left hold]
  · exact hsplit old _ _ (by omega) (by rw [oldEnd]; omega)
  · rw [hbefore, hafter]
    exact hsplit new _ _ (by omega) (by rw [newEnd]; omega)
  · rw [midOld, sliceOf, List.length_append, List.length_drop, List.length_take, List.length_take,
      oldEnd]
    omega

theorem mid_ne_of_ne {old new : List Chars} (h : old ≠ new) : midOld old new ≠ midNew old new := by
  obtain ⟨before, after, -, hold, hnew, -⟩ := exists_shared old new
  intro hmid
  exact h (hold.trans ((congrArg (before ++ · ++ after) hmid).trans hnew.symm))

theorem count_mid (old new : List Chars) (l : Chars) :
    old.count l + (midNew old new).count l = new.count l + (midOld old new).count l := by
  obtain ⟨before, after, -, hold, hnew, -⟩ := exists_shared old new
  have hcold := congrArg (List.count l) hold
  have hcnew := congrArg (List.count l) hnew
  simp only [List.count_append] at hcold hcnew
  omega

/-! ### The table is right -/

section Table
variable {α : Type} [DecidableEq α] (a b : List α)

/-- The table when the cells from `i`, `j` on are filled. -/
def filledFrom (i j : ℕ) : LcsTable := fun i' j' =>
  if i < i' ∨ i' = i ∧ j ≤ j' then lcs (a.drop i') (b.drop j') else 0

variable {a b} {i j : ℕ}

theorem lcs_drop (hi : i < a.length) (hj : j < b.length) :
    lcs (a.drop i) (b.drop j) =
      if a[i] = b[j] then lcs (a.drop (i + 1)) (b.drop (j + 1)) + 1
      else max (lcs (a.drop (i + 1)) (b.drop j)) (lcs (a.drop i) (b.drop (j + 1))) := by
  rw [List.drop_eq_getElem_cons hi, List.drop_eq_getElem_cons hj]
  split_ifs with h
  · rw [h, lcs_cons_self]
  · exact lcs_cons_of_ne h _ _

theorem set_filledFrom (hi : i < a.length) (hj : j < b.length) :
    (filledFrom a b i (j + 1)).set i j
      (if a[i]? = b[j]? then filledFrom a b i (j + 1) (i + 1) (j + 1) + 1
        else max (filledFrom a b i (j + 1) (i + 1) j) (filledFrom a b i (j + 1) i (j + 1))) =
      filledFrom a b i j := by
  have hvalue := lcs_drop hi hj
  funext i' j'
  by_cases hcell : i' = i ∧ j' = j
  · obtain ⟨rfl, rfl⟩ := hcell
    simp [LcsTable.set, filledFrom, hvalue, List.getElem?_eq_getElem hi,
      List.getElem?_eq_getElem hj]
  · have hiff : (i < i' ∨ i' = i ∧ j + 1 ≤ j') ↔ (i < i' ∨ i' = i ∧ j ≤ j') := by omega
    simp only [LcsTable.set, if_neg hcell, filledFrom, hiff]

theorem fillRow_spec (hi : i < a.length) (hj : j ≤ b.length) :
    fillRow a b i j (filledFrom a b i j) = filledFrom a b i 0 := by
  induction j with
  | zero => rfl
  | succ j ih => rw [fillRow, set_filledFrom hi hj, ih (Nat.le_of_succ_le hj)]

theorem filledFrom_next_row (i : ℕ) : filledFrom a b (i + 1) 0 = filledFrom a b i b.length := by
  funext i' j'
  simp only [filledFrom]
  by_cases hrow : i' = i ∧ b.length ≤ j'
  · rw [if_neg (by omega), if_pos (by omega), List.drop_eq_nil_of_le hrow.2, lcs_nil_right]
  · exact if_congr (by omega) rfl rfl

theorem fillRows_spec (hi : i ≤ a.length) :
    fillRows a b i (filledFrom a b i 0) = filledFrom a b 0 0 := by
  induction i with
  | zero => rfl
  | succ i ih =>
    rw [fillRows, filledFrom_next_row, fillRow_spec hi (Nat.le_refl _), ih (Nat.le_of_succ_le hi)]

theorem lcsTable_eq (i j : ℕ) : lcsTable a b i j = lcs (a.drop i) (b.drop j) := by
  have hempty : (fun _ _ => 0 : LcsTable) = filledFrom a b a.length 0 := by
    funext i' j'
    rw [filledFrom]
    split_ifs with h
    · rw [List.drop_eq_nil_of_le (by omega), lcs_nil_left]
    · rfl
  rw [lcsTable, hempty, fillRows_spec (Nat.le_refl _), filledFrom, if_pos (by omega)]

/-- The walk is a script between what is left of the lists, and keeps as much as can be kept. -/
theorem traceback_spec (i j : ℕ) :
    let script := traceback a b (lcsTable a b) i j
    EditScript.source script = a.drop i ∧ EditScript.target script = b.drop j ∧
      EditScript.kept script = lcs (a.drop i) (b.drop j) := by
  fun_induction traceback a b (lcsTable a b) i j with
  | case1 i j h heq ih =>
    obtain ⟨hsource, htarget, hkept⟩ := ih
    refine ⟨?_, ?_, ?_⟩
    · rw [EditScript.source_equal, hsource, List.getElem_cons_drop]
    · rw [EditScript.target_equal, htarget, heq, List.getElem_cons_drop]
    · rw [EditScript.kept_equal, hkept, lcs_drop h.1 h.2, if_pos heq]
  | case2 i j h hne hge ih =>
    obtain ⟨hsource, htarget, hkept⟩ := ih
    rw [lcsTable_eq, lcsTable_eq] at hge
    refine ⟨?_, ?_, ?_⟩
    · rw [EditScript.source_remove, hsource, List.getElem_cons_drop]
    · rw [EditScript.target_remove, htarget]
    · rw [EditScript.kept_remove, hkept, lcs_drop h.1 h.2, if_neg hne, Nat.max_eq_left hge]
  | case3 i j h hne hlt ih =>
    obtain ⟨hsource, htarget, hkept⟩ := ih
    rw [lcsTable_eq, lcsTable_eq] at hlt
    refine ⟨?_, ?_, ?_⟩
    · rw [EditScript.source_add, hsource]
    · rw [EditScript.target_add, htarget, List.getElem_cons_drop]
    · rw [EditScript.kept_add, hkept, lcs_drop h.1 h.2, if_neg hne, Nat.max_eq_right (by omega)]
  | case4 i j h =>
    obtain ⟨hsource, htarget, hkept⟩ := EditScript.removes_spec (a.drop i)
    obtain ⟨hsource', htarget', hkept'⟩ := EditScript.adds_spec (b.drop j)
    have hlcs : lcs (a.drop i) (b.drop j) = 0 := by
      rcases Nat.lt_or_ge i a.length with hi | hi
      · rw [List.drop_eq_nil_of_le (by omega : b.length ≤ j), lcs_nil_right]
      · rw [List.drop_eq_nil_of_le hi, lcs_nil_left]
    simp only [EditScript.source_append, EditScript.target_append, EditScript.kept_append,
      hsource, htarget, hkept, hsource', htarget', hkept', hlcs, List.append_nil, List.nil_append,
      Nat.add_zero, and_self]

end Table

end Sashiko
