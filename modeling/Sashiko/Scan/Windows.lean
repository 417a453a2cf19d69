import Sashiko.Lib.Ranges

/-! The windows of lines in which a long source file is scanned. -/

namespace Sashiko

def singleChunkMaxLines : ℕ := 800

def targetChunkLines : ℕ := 600

def maxChunkLines : ℕ := 900

def giantFunctionOverlapLines : ℕ := 50

structure FunctionSpan where
  name : String
  signature : String
  startLine : ℕ
  endLine : ℕ
  calledFunctions : List String
  riskSignals : List String
  deriving DecidableEq, Repr

/-- Windows of the target size up to `last`; two that follow each other share lines. -/
def overlappingWindows (start last : ℕ) : List (ℕ × ℕ) :=
  if start ≤ last then
    if min (start + targetChunkLines - 1) last = last then [(start, last)]
    else
      (start, min (start + targetChunkLines - 1) last) :: overlappingWindows
        (min (start + targetChunkLines - 1) last - giantFunctionOverlapLines + 1) last
  else []
termination_by last - start
decreasing_by
  simp only [targetChunkLines, giantFunctionOverlapLines] at *
  omega

def buildLineWindows (totalLines : ℕ) : List (ℕ × ℕ) := overlappingWindows 1 totalLines

/-- There is a window before every function but the first. -/
def chunkStart (totalLines : ℕ) (windows : List (ℕ × ℕ)) (firstFn : FunctionSpan) : ℕ :=
  match windows.getLast? with
  | none => 1
  | some prev => min (min (prev.2 + 1) (max firstFn.startLine 1)) totalLines

/-- There is more room for a function that calls one of the chunk or is called by one. -/
def chunkLimit (chunkNames chunkCalls : List String) (candidate : FunctionSpan) : ℕ :=
  let hasCallAffinity := chunkCalls.contains candidate.name ||
    candidate.calledFunctions.any chunkNames.contains
  if hasCallAffinity then maxChunkLines else targetChunkLines

/-- The functions that still fit in the chunk: where it ends, and the functions behind it. -/
def absorb (totalLines chunkStart : ℕ) :
    ℕ → List String → List String → List FunctionSpan → ℕ × List FunctionSpan
  | chunkEnd, _, _, [] => (chunkEnd, [])
  | chunkEnd, chunkNames, chunkCalls, candidate :: functions =>
    let candidateEnd := min (max candidate.endLine chunkEnd) totalLines
    if candidateEnd - chunkStart + 1 ≤ chunkLimit chunkNames chunkCalls candidate then
      absorb totalLines chunkStart candidateEnd (candidate.name :: chunkNames)
        (candidate.calledFunctions ++ chunkCalls) functions
    else (chunkEnd, candidate :: functions)

theorem length_absorb_le (totalLines chunkStart chunkEnd : ℕ) (names calls : List String)
    (functions : List FunctionSpan) :
    (absorb totalLines chunkStart chunkEnd names calls functions).2.length ≤ functions.length := by
  induction functions generalizing chunkEnd names calls with
  | nil => exact Nat.le_refl _
  | cons f functions ih =>
    unfold absorb
    dsimp only
    split_ifs
    · exact Nat.le_succ_of_le (ih _ _ _)
    · exact Nat.le_refl _

/-- The last chunk takes the rest of the file, if it has room for it. -/
def chunkStop (totalLines start : ℕ) (absorbed : ℕ × List FunctionSpan) : ℕ :=
  if absorbed.2 = [] ∧ totalLines - start < maxChunkLines then totalLines else absorbed.1

def functionWindows (totalLines : ℕ) (windows : List (ℕ × ℕ)) :
    List FunctionSpan → List (ℕ × ℕ)
  | [] => windows
  | firstFn :: functions =>
    let start := chunkStart totalLines windows firstFn
    let firstEnd := min (max firstFn.endLine start) totalLines
    if firstEnd - start + 1 > maxChunkLines then
      functionWindows totalLines (windows ++ overlappingWindows start firstEnd) functions
    else
      let absorbed :=
        absorb totalLines start firstEnd [firstFn.name] firstFn.calledFunctions functions
      functionWindows totalLines (windows ++ [(start, chunkStop totalLines start absorbed)])
        absorbed.2
termination_by functions => functions.length
decreasing_by
  · exact Nat.lt_succ_self _
  · exact Nat.lt_succ_of_le (length_absorb_le _ _ _ _ _ _)

def buildFunctionWindows (totalLines : ℕ) (functions : List FunctionSpan) : List (ℕ × ℕ) :=
  if totalLines = 0 then []
  else
    let windows := functionWindows totalLines [] functions
    match windows.getLast? with
    | some last =>
      if last.2 < totalLines then windows ++ overlappingWindows (last.2 + 1) totalLines
      else windows
    | none => windows

/-! ### Every line is in a window -/

/-- The end of the last window. -/
def lastEnd (windows : List (ℕ × ℕ)) : ℕ := (windows.getLast?.map (·.2)).getD 0

/-- The windows cover the lines up to the end of the last one, and none is too long. -/
structure Gapless (totalLines : ℕ) (windows : List (ℕ × ℕ)) : Prop where
  covers : ∀ l, 1 ≤ l → l ≤ lastEnd windows → Covers windows (l, l)
  bounds : ∀ w ∈ windows, 1 ≤ w.1 ∧ w.1 ≤ w.2 ∧ w.2 ≤ totalLines ∧ w.2 < w.1 + maxChunkLines

variable {totalLines : ℕ} {windows : List (ℕ × ℕ)}

theorem lastEnd_concat (windows : List (ℕ × ℕ)) (w : ℕ × ℕ) : lastEnd (windows ++ [w]) = w.2 := by
  rw [lastEnd, List.getLast?_concat]
  rfl

theorem Covers.mono {windows' : List (ℕ × ℕ)} {run : ℕ × ℕ} (h : Covers windows run)
    (hsub : windows ⊆ windows') : Covers windows' run := by
  obtain ⟨w, hw, hrun⟩ := h
  exact ⟨w, hsub hw, hrun⟩

theorem gapless_nil : Gapless totalLines [] :=
  ⟨fun _ hpos hl => absurd hl (Nat.not_le.mpr hpos), fun _ hw => absurd hw List.not_mem_nil⟩

theorem Gapless.concat (h : Gapless totalLines windows) {start stop : ℕ} (hpos : 1 ≤ start)
    (hstart : start ≤ lastEnd windows + 1) (hle : start ≤ stop) (hstop : stop ≤ totalLines)
    (hshort : stop < start + maxChunkLines) : Gapless totalLines (windows ++ [(start, stop)]) where
  covers l hl hle' := by
    rw [lastEnd_concat] at hle'
    by_cases hl' : start ≤ l
    · exact ⟨(start, stop), List.mem_append_right _ List.mem_cons_self, hl', hle'⟩
    · exact (h.covers l hl (by omega)).mono (List.subset_append_left _ _)
  bounds w hw := by
    rcases List.mem_append.mp hw with hw | hw
    · exact h.bounds w hw
    · rw [List.mem_singleton.mp hw]
      exact ⟨hpos, hle, hstop, hshort⟩

theorem Gapless.overlapping {start last : ℕ} (h : Gapless totalLines windows) (hpos : 1 ≤ start)
    (hstart : start ≤ lastEnd windows + 1) (hle : start ≤ last) (hlast : last ≤ totalLines) :
    Gapless totalLines (windows ++ overlappingWindows start last) ∧
      lastEnd (windows ++ overlappingWindows start last) = last := by
  induction start using overlappingWindows.induct last generalizing windows with
  | case1 start _ heq =>
    rw [overlappingWindows, if_pos hle, if_pos heq]
    refine ⟨h.concat hpos hstart hle hlast ?_, lastEnd_concat _ _⟩
    simp only [targetChunkLines] at heq
    simp only [maxChunkLines]
    omega
  | case2 start _ hne ih =>
    rw [overlappingWindows, if_pos hle, if_neg hne, ← List.singleton_append, ← List.append_assoc]
    simp only [targetChunkLines, giantFunctionOverlapLines] at hne ih ⊢
    have hshort : min (start + 600 - 1) last < start + maxChunkLines := by
      simp only [maxChunkLines]
      omega
    refine ih (h.concat hpos hstart (by omega) (by omega) hshort) (by omega) ?_ (by omega)
    rw [lastEnd_concat]
    omega
  | case3 start hlt => exact absurd hle hlt

theorem chunkLimit_le (names calls : List String) (f : FunctionSpan) :
    chunkLimit names calls f ≤ maxChunkLines := by
  unfold chunkLimit
  dsimp only
  split_ifs <;> decide

/-- What is absorbed: the functions in front, and how far they reach. -/
structure Absorbed (totalLines start chunkEnd : ℕ) (functions : List FunctionSpan)
    (result : ℕ × List FunctionSpan) : Prop where
  taken : ∃ front, functions = front ++ result.2 ∧
    ∀ f ∈ front, min f.endLine totalLines ≤ result.1
  end_le : chunkEnd ≤ result.1
  result_le : result.1 ≤ totalLines
  short : result.1 < start + maxChunkLines

theorem absorbed_absorb {start chunkEnd : ℕ} (names calls : List String)
    (functions : List FunctionSpan) (hend : chunkEnd ≤ totalLines)
    (hshort : chunkEnd < start + maxChunkLines) :
    Absorbed totalLines start chunkEnd functions
      (absorb totalLines start chunkEnd names calls functions) := by
  induction functions generalizing chunkEnd names calls with
  | nil => exact ⟨⟨[], rfl, fun f hf => absurd hf List.not_mem_nil⟩, Nat.le_refl _, hend, hshort⟩
  | cons f functions ih =>
    have hlimit := chunkLimit_le names calls f
    unfold absorb
    dsimp only
    split_ifs with hfits
    · obtain ⟨⟨front, hfront, hreach⟩, hle, hresult, hshort'⟩ :=
        ih (f.name :: names) (f.calledFunctions ++ calls)
          (Nat.min_le_right (max f.endLine chunkEnd) totalLines) (by omega)
      refine ⟨⟨f :: front, congrArg (f :: ·) hfront, fun g hg => ?_⟩, by omega, hresult, hshort'⟩
      rcases List.mem_cons.mp hg with rfl | hg
      · omega
      · exact hreach g hg
    · exact ⟨⟨[], rfl, fun f hf => absurd hf List.not_mem_nil⟩, Nat.le_refl _, hend, hshort⟩

theorem chunkStart_bounds (hpos : 0 < totalLines) (f : FunctionSpan) :
    1 ≤ chunkStart totalLines windows f ∧
      chunkStart totalLines windows f ≤ lastEnd windows + 1 ∧
      chunkStart totalLines windows f ≤ totalLines := by
  unfold chunkStart lastEnd
  cases windows.getLast? with
  | none => exact ⟨Nat.le_refl _, Nat.le_refl _, hpos⟩
  | some w =>
    dsimp only [Option.map_some, Option.getD_some]
    omega

theorem Absorbed.chunkStop_bounds {start chunkEnd : ℕ} {functions : List FunctionSpan}
    {result : ℕ × List FunctionSpan} (h : Absorbed totalLines start chunkEnd functions result)
    (hstart : start ≤ totalLines) :
    result.1 ≤ chunkStop totalLines start result ∧ chunkStop totalLines start result ≤ totalLines ∧
      chunkStop totalLines start result < start + maxChunkLines := by
  have hresult := h.result_le
  have hshort := h.short
  unfold chunkStop
  split_ifs <;> omega

theorem Gapless.functionWindows (hpos : 0 < totalLines) (functions : List FunctionSpan)
    (h : Gapless totalLines windows) :
    Gapless totalLines (functionWindows totalLines windows functions) := by
  induction windows, functions using functionWindows.induct totalLines with
  | case1 windows =>
    rw [Sashiko.functionWindows]
    exact h
  | case2 windows f functions start firstEnd hgiant ih =>
    obtain ⟨hone, hnext, htotal⟩ := @chunkStart_bounds totalLines windows hpos f
    rw [Sashiko.functionWindows, if_pos hgiant]
    exact ih (h.overlapping hone hnext (by omega) (Nat.min_le_right _ _)).1
  | case3 windows f functions start firstEnd hfits absorbed ih =>
    obtain ⟨hone, hnext, htotal⟩ := @chunkStart_bounds totalLines windows hpos f
    have habsorbed : Absorbed totalLines start firstEnd functions absorbed :=
      absorbed_absorb _ _ functions (Nat.min_le_right _ _) (by omega)
    obtain ⟨hle, hstop, hshort⟩ := habsorbed.chunkStop_bounds htotal
    have hend := habsorbed.end_le
    rw [Sashiko.functionWindows, if_neg hfits]
    exact ih (h.concat hone hnext (by omega) hstop hshort)

theorem prefix_functionWindows (totalLines : ℕ) (windows : List (ℕ × ℕ))
    (functions : List FunctionSpan) : windows <+: functionWindows totalLines windows functions := by
  induction windows, functions using functionWindows.induct totalLines with
  | case1 windows =>
    unfold functionWindows
    exact List.prefix_rfl
  | case2 windows f functions start firstEnd hgiant ih =>
    rw [functionWindows, if_pos hgiant]
    exact (List.prefix_append _ _).trans ih
  | case3 windows f functions start firstEnd hfits absorbed ih =>
    rw [functionWindows, if_neg hfits]
    exact (List.prefix_append _ _).trans ih

theorem overlappingWindows_ne_nil {start last : ℕ} (h : start ≤ last) :
    overlappingWindows start last ≠ [] := by
  rw [overlappingWindows, if_pos h]
  split_ifs <;> exact List.cons_ne_nil _ _

theorem functionWindows_ne_nil (hpos : 0 < totalLines) (f : FunctionSpan)
    (functions : List FunctionSpan) : functionWindows totalLines [] (f :: functions) ≠ [] := by
  obtain ⟨hone, -, htotal⟩ := @chunkStart_bounds totalLines [] hpos f
  rw [functionWindows]
  dsimp only
  split_ifs
  · exact fun h => overlappingWindows_ne_nil (by omega)
      (List.prefix_nil.mp (h ▸ prefix_functionWindows totalLines _ functions))
  · exact fun h => List.cons_ne_nil _ _
      (List.prefix_nil.mp (h ▸ prefix_functionWindows totalLines _ _))

theorem gapless_buildFunctionWindows (hpos : 0 < totalLines) {functions : List FunctionSpan}
    (hne : functions ≠ []) : Gapless totalLines (buildFunctionWindows totalLines functions) ∧
      lastEnd (buildFunctionWindows totalLines functions) = totalLines := by
  have hgap := (@gapless_nil totalLines).functionWindows hpos functions
  obtain ⟨f, rest, rfl⟩ := List.exists_cons_of_ne_nil hne
  obtain ⟨front, last, hlast⟩ :=
    (functionWindows totalLines [] (f :: rest)).eq_nil_or_concat'.resolve_left
      (functionWindows_ne_nil hpos f rest)
  rw [buildFunctionWindows, if_neg (Nat.ne_of_gt hpos)]
  dsimp only
  rw [hlast] at hgap ⊢
  rw [List.getLast?_concat]
  dsimp only
  have hend := lastEnd_concat front last
  obtain ⟨hone, hle, htotal, -⟩ := hgap.bounds last (by simp)
  split_ifs with hshort
  · exact hgap.overlapping (by omega) (by omega) (by omega) (Nat.le_refl _)
  · exact ⟨hgap, by omega⟩

theorem gapless_buildLineWindows (hpos : 0 < totalLines) :
    Gapless totalLines (buildLineWindows totalLines) ∧
      lastEnd (buildLineWindows totalLines) = totalLines :=
  gapless_nil.overlapping (Nat.le_refl 1) (Nat.le_refl 1) hpos (Nat.le_refl _)

/-! ### Functions that are not cut -/

/-- The function is short enough to lie in one of two windows that overlap, or it ends near the one
before it. -/
def FitsChunk (prevEnd : ℕ) (f : FunctionSpan) : Prop :=
  f.endLine ≤ f.startLine + giantFunctionOverlapLines ∨
    f.endLine < min f.startLine (prevEnd + 1) + maxChunkLines

theorem covers_overlappingWindows {start last a b : ℕ} (hstart : start ≤ a) (hle : a ≤ b)
    (hlast : b ≤ last) (hshort : b ≤ a + giantFunctionOverlapLines) :
    Covers (overlappingWindows start last) (a, b) := by
  induction start using overlappingWindows.induct last with
  | case1 start hstart' heq =>
    rw [overlappingWindows, if_pos hstart', if_pos heq]
    exact ⟨(start, last), List.mem_cons_self, hstart, hlast⟩
  | case2 start hstart' hne ih =>
    rw [overlappingWindows, if_pos hstart', if_neg hne]
    by_cases hb : b ≤ min (start + targetChunkLines - 1) last
    · exact ⟨_, List.mem_cons_self, hstart, hb⟩
    · refine (ih ?_).mono (List.subset_cons_self _ _)
      simp only [targetChunkLines, giantFunctionOverlapLines] at hne hb hshort ⊢
      omega
  | case3 start hlt => exact absurd (hstart.trans (hle.trans hlast)) hlt

/-- The functions lie in the file, one behind the other. -/
structure InOrder (totalLines : ℕ) (functions : List FunctionSpan) : Prop where
  sorted : functions.Pairwise fun f g => f.startLine ≤ g.startLine
  bounds : ∀ f ∈ functions, 1 ≤ f.startLine ∧ f.startLine ≤ f.endLine ∧ f.endLine ≤ totalLines

theorem InOrder.of_suffix {functions behind : List FunctionSpan}
    (h : InOrder totalLines functions) (hbehind : behind <:+ functions) :
    InOrder totalLines behind :=
  ⟨h.sorted.sublist hbehind.sublist, fun f hf => h.bounds f (hbehind.subset hf)⟩

/-- Where the last of these functions ends. -/
def endBefore (prevEnd : ℕ) (front : List FunctionSpan) : ℕ :=
  (front.getLast?.map (·.endLine)).getD prevEnd

theorem endBefore_append (prevEnd : ℕ) (front front' : List FunctionSpan) :
    endBefore prevEnd (front ++ front') = endBefore (endBefore prevEnd front) front' := by
  unfold endBefore
  rw [List.getLast?_append]
  cases front'.getLast? <;> rfl

theorem endBefore_le {prevEnd n : ℕ} {front : List FunctionSpan} (hprev : prevEnd ≤ n)
    (h : ∀ f ∈ front, f.endLine ≤ n) : endBefore prevEnd front ≤ n := by
  unfold endBefore
  cases hlast : front.getLast? with
  | none => exact hprev
  | some f => exact h f (List.mem_of_getLast? hlast)

/-- A function in the middle is among the first ones, or those are all before it. -/
theorem mem_or_exists_of_append {α : Type} {taken rest front back : List α} {a : α}
    (h : taken ++ rest = front ++ a :: back) :
    a ∈ taken ∨ ∃ between, front = taken ++ between ∧ rest = between ++ a :: back := by
  rcases List.append_eq_append_iff.mp h with ⟨between, hfront, hrest⟩ | ⟨between, htaken, hback⟩
  · exact .inr ⟨between, hfront, hrest⟩
  · cases between with
    | nil => exact .inr ⟨[], by rw [htaken, List.append_nil, List.append_nil], hback.symm⟩
    | cons b between =>
      obtain ⟨rfl, -⟩ := List.cons.inj hback
      exact .inl (htaken ▸ List.mem_append_right _ List.mem_cons_self)

theorem chunkStart_le (windows : List (ℕ × ℕ)) {f : FunctionSpan} (h : 1 ≤ f.startLine) :
    chunkStart totalLines windows f ≤ f.startLine := by
  unfold chunkStart
  cases windows.getLast? with
  | none => exact h
  | some w =>
    dsimp only
    omega

theorem le_chunkStart (windows : List (ℕ × ℕ)) {f : FunctionSpan} (h : f.startLine ≤ totalLines) :
    min f.startLine (lastEnd windows + 1) ≤ chunkStart totalLines windows f := by
  unfold chunkStart lastEnd
  cases windows.getLast? with
  | none => exact Nat.min_le_right _ _
  | some w =>
    dsimp only [Option.map_some, Option.getD_some]
    omega

theorem covers_functionWindows {functions : List FunctionSpan} (hpos : 0 < totalLines)
    (hgap : Gapless totalLines windows) (horder : InOrder totalLines functions) {prevEnd : ℕ}
    (hprev : prevEnd ≤ lastEnd windows) {front back : List FunctionSpan} {f : FunctionSpan}
    (hf : functions = front ++ f :: back) (hfits : FitsChunk (endBefore prevEnd front) f) :
    Covers (functionWindows totalLines windows functions) (f.startLine, f.endLine) := by
  induction windows, functions using functionWindows.induct totalLines
    generalizing prevEnd front with
  | case1 windows => simp at hf
  | case2 windows first functions start firstEnd hgiant ih =>
    obtain ⟨hone, hnext, -⟩ := @chunkStart_bounds totalLines windows hpos first
    obtain ⟨hfirst, hle, htotal⟩ := horder.bounds first List.mem_cons_self
    have hstart : start ≤ first.startLine := chunkStart_le windows hfirst
    have hend : firstEnd = first.endLine := by
      change min (max first.endLine start) totalLines = first.endLine
      omega
    obtain ⟨hgap', hlast⟩ := hgap.overlapping hone hnext (hend ▸ hstart.trans hle)
      (hend ▸ htotal : firstEnd ≤ totalLines)
    rw [functionWindows, if_pos hgiant]
    cases front with
    | nil =>
      obtain ⟨rfl, rfl⟩ := List.cons.inj hf
      have hnear := le_chunkStart windows (hle.trans htotal)
      have hshort : first.endLine ≤ first.startLine + giantFunctionOverlapLines := by
        refine hfits.resolve_right fun hend' => ?_
        change _ < min first.startLine (prevEnd + 1) + maxChunkLines at hend'
        change min first.startLine (lastEnd windows + 1) ≤ start at hnear
        omega
      refine (covers_overlappingWindows hstart hle (Nat.le_of_eq hend.symm) hshort).mono ?_
      exact List.Subset.trans (List.subset_append_right _ _)
        (prefix_functionWindows totalLines _ functions).subset
    | cons g front =>
      obtain ⟨rfl, rfl⟩ := List.cons.inj hf
      refine ih hgap' (horder.of_suffix (List.suffix_cons _ _))
        (hlast.symm ▸ Nat.le_of_eq hend.symm : first.endLine ≤ _) rfl ?_
      exact endBefore_append prevEnd [first] front ▸ hfits
  | case3 windows first functions start firstEnd hsmall absorbed =>
    rename_i ih
    obtain ⟨hone, hnext, hstartTotal⟩ := @chunkStart_bounds totalLines windows hpos first
    obtain ⟨hfirst, hle, htotal⟩ := horder.bounds first List.mem_cons_self
    have hstart : start ≤ first.startLine := chunkStart_le windows hfirst
    have habsorbed : Absorbed totalLines start firstEnd functions absorbed :=
      absorbed_absorb _ _ functions (Nat.min_le_right _ _) (by omega)
    obtain ⟨hresult, hstop, hshort⟩ := habsorbed.chunkStop_bounds hstartTotal
    obtain ⟨taken, htaken, hreach⟩ := habsorbed.taken
    have hend := habsorbed.end_le
    have hreaches : ∀ g ∈ first :: taken, g.endLine ≤ chunkStop totalLines start absorbed := by
      intro g hg
      have hg' : g ∈ first :: functions := by
        rw [htaken, ← List.cons_append]
        exact List.mem_append_left _ hg
      have hbound := (horder.bounds g hg').2.2
      rcases List.mem_cons.mp hg with rfl | hg
      · change min (max g.endLine start) totalLines ≤ absorbed.1 at hend
        omega
      · have := hreach g hg
        omega
    have hgap' := hgap.concat hone hnext (by omega) hstop hshort
    rw [functionWindows, if_neg hsmall]
    rw [htaken, ← List.cons_append] at hf
    rcases mem_or_exists_of_append hf with hmem | ⟨between, rfl, hrest⟩
    · refine Covers.mono ⟨(start, _), List.mem_append_right _ List.mem_cons_self, ?_,
        hreaches f hmem⟩ (prefix_functionWindows totalLines _ absorbed.2).subset
      rcases List.mem_cons.mp hmem with rfl | hmem
      · exact hstart
      · exact hstart.trans ((List.pairwise_cons.mp horder.sorted).1 f
          (htaken ▸ List.mem_append_left _ hmem))
    · refine ih hgap' (horder.of_suffix ?_) ?_ hrest (endBefore_append prevEnd _ between ▸ hfits)
      · exact (htaken ▸ List.suffix_append taken absorbed.2).trans (List.suffix_cons _ _)
      · rw [lastEnd_concat, ← List.singleton_append, endBefore_append]
        exact endBefore_le (hreaches first List.mem_cons_self) fun g hg =>
          hreaches g (List.mem_cons_of_mem _ hg)

theorem covers_buildFunctionWindows {functions : List FunctionSpan} (hpos : 0 < totalLines)
    (horder : InOrder totalLines functions) {front back : List FunctionSpan} {f : FunctionSpan}
    (hf : functions = front ++ f :: back) (hfits : FitsChunk (endBefore 0 front) f) :
    Covers (buildFunctionWindows totalLines functions) (f.startLine, f.endLine) := by
  have hcovers := covers_functionWindows hpos gapless_nil horder (Nat.zero_le _) hf hfits
  rw [buildFunctionWindows, if_neg (Nat.ne_of_gt hpos)]
  dsimp only
  split
  · split_ifs
    · exact hcovers.mono (List.subset_append_left _ _)
    · exact hcovers
  · exact hcovers

end Sashiko
