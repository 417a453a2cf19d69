import Sashiko.Diff.Location
import Sashiko.Diff.Spans

/-! `find_snippet_in_lines_exact` finds a snippet where it stands, and chooses among its places. -/

namespace Sashiko

/-- The trimmed lines that are not blank. -/
def solidLines (lines : List Chars) : List Chars := (lines.map trimChars).filter (!·.isEmpty)

/-- The lines from the first to the last of a span. -/
def spanLines (file : List Chars) (span : ℕ × ℕ) : List Chars :=
  (file.drop span.1).take (span.2 - span.1 + 1)

/-- The span starts and ends in a line that is not blank, and holds the snippet and nothing else. -/
structure IsMatch (file : List Chars) (snippet : Chars) (span : ℕ × ℕ) : Prop where
  ordered : span.1 ≤ span.2
  first : ∃ line, file[span.1]? = some line ∧ isBlank line = false
  last : ∃ line, file[span.2]? = some line ∧ isBlank line = false
  lines : solidLines (spanLines file span) = solidLines (linesOf snippet)

/-! ### The snippet -/

theorem solidLines_append (xs ys : List Chars) :
    solidLines (xs ++ ys) = solidLines xs ++ solidLines ys := by
  rw [solidLines, List.map_append, List.filter_append]
  rfl

theorem solidLines_cons (x : Chars) (xs : List Chars) :
    solidLines (x :: xs) = (if isBlank x then [] else [trimChars x]) ++ solidLines xs := by
  unfold solidLines isBlank
  rw [List.map_cons]
  cases h : (trimChars x).isEmpty <;> simp [h]

theorem solidLines_eq_nil {lines : List Chars} (h : ∀ line ∈ lines, isBlank line = true) :
    solidLines lines = [] := by
  induction lines with
  | nil => rfl
  | cons line lines ih =>
    rw [solidLines_cons, if_pos (h line List.mem_cons_self), List.nil_append]
    exact ih fun l hl => h l (List.mem_cons_of_mem _ hl)

theorem mem_take_succ {α : Type} {xs : List α} {k : ℕ} {x : α} (h : xs[k]? = some x) :
    x ∈ xs.take (k + 1) := by
  rw [List.take_add_one, h]
  exact List.mem_append_right _ List.mem_cons_self

theorem solidLines_ne_nil {lines : List Chars} {line : Chars} (h : line ∈ lines)
    (hsolid : isBlank line = false) : solidLines lines ≠ [] := by
  have hmem : trimChars line ∈ solidLines lines :=
    List.mem_filter.mpr ⟨List.mem_map_of_mem h, by rw [← isBlank, hsolid]; rfl⟩
  exact List.ne_nil_of_mem hmem

theorem blank_of_mem_take_startTrim (raw : List Chars) {line : Chars}
    (h : line ∈ raw.take (startTrim raw)) : isBlank line = true := by
  obtain ⟨i, hi, rfl⟩ := List.getElem_of_mem h
  rw [List.length_take] at hi
  rw [List.getElem_take]
  have hnot := List.not_of_lt_findIdx (by unfold startTrim at hi; omega :
    i < raw.findIdx fun line => !isBlank line)
  simpa using hnot

theorem blank_of_mem_drop_endTrim {raw : List Chars} {line : Chars}
    (h : line ∈ raw.drop (endTrim raw)) : isBlank line = true := by
  have hrev : line ∈ raw.reverse.take (startTrim raw.reverse) := by
    rw [List.take_reverse, List.mem_reverse]
    exact h
  exact blank_of_mem_take_startTrim _ hrev

/-- What is cut off a snippet at both ends is blank. -/
theorem parseSnippetLines_spec (snippet : Chars) :
    (parseSnippetLines snippet = .ok none ∧ solidLines (linesOf snippet) = []) ∨
      ∃ snip, parseSnippetLines snippet = .ok (some snip) ∧
        snip.filter (!·.isEmpty) = solidLines (linesOf snippet) := by
  have hparts : solidLines (linesOf snippet) =
      solidLines (((linesOf snippet).take (endTrim (linesOf snippet))).drop
        (startTrim (linesOf snippet))) := by
    generalize linesOf snippet = raw
    have hend : solidLines raw = solidLines (raw.take (endTrim raw)) := by
      conv_lhs => rw [← List.take_append_drop (endTrim raw) raw]
      rw [solidLines_append, solidLines_eq_nil fun line => blank_of_mem_drop_endTrim,
        List.append_nil]
    have hstart : solidLines ((raw.take (endTrim raw)).take (startTrim raw)) = [] := by
      refine solidLines_eq_nil fun line hline => blank_of_mem_take_startTrim raw ?_
      rw [List.take_take] at hline
      exact (List.take_subset_take_left _ (Nat.min_le_left _ _)) hline
    rw [hend]
    conv_lhs => rw [← List.take_append_drop (startTrim raw) (raw.take (endTrim raw))]
    rw [solidLines_append, hstart, List.nil_append]
  unfold parseSnippetLines
  split_ifs with hnone
  · refine .inl ⟨rfl, ?_⟩
    rw [hparts, List.drop_eq_nil_of_le]
    · rfl
    · rw [List.length_take]
      omega
  · have hle : endTrim (linesOf snippet) ≤ (linesOf snippet).length := by
      unfold endTrim
      omega
    refine .inr ⟨(((linesOf snippet).take (endTrim (linesOf snippet))).drop
      (startTrim (linesOf snippet))).map trimChars, ?_, hparts.symm⟩
    rw [sliceAt, if_pos ⟨by omega, hle⟩]
    rfl

/-! ### The matcher -/

/-- Blank lines of the snippet are passed over. -/
theorem matchFrom_filter (file snip : List Chars) (i last : ℕ) :
    matchFrom file snip i last = matchFrom file (snip.filter (!·.isEmpty)) i last := by
  induction file generalizing snip i last with
  | nil =>
    rw [matchFrom, matchFrom]
    congr 1
    rw [List.all_filter]
    simp
  | cons f file ih =>
    rw [matchFrom, matchFrom]
    induction snip with
    | nil => rfl
    | cons s rest ihs =>
      cases hs : s.isEmpty with
      | true =>
        rw [List.dropWhile_cons_of_pos hs, List.filter_cons_of_neg (by simp [hs])]
        exact ihs
      | false =>
        have hkept : (s :: rest).filter (!·.isEmpty) = s :: rest.filter (!·.isEmpty) :=
          List.filter_cons_of_pos (by simp [hs])
        rw [hkept, List.dropWhile_cons_of_neg (by simp [hs]),
          List.dropWhile_cons_of_neg (by simp [hs])]
        dsimp only
        rw [ih (s :: rest), hkept, ih rest]

/-- The matcher ends in the line with which the snippet is complete. -/
theorem matchFrom_iff {file snip : List Chars} (hsnip : ∀ s ∈ snip, s.isEmpty = false)
    (i last e : ℕ) : matchFrom file snip i last = some e ↔ (snip = [] ∧ e = last) ∨
      snip ≠ [] ∧ ∃ k, e = i + k ∧ (∃ line, file[k]? = some line ∧ isBlank line = false) ∧
        solidLines (file.take (k + 1)) = snip := by
  have hdone : ∀ {p : Prop} {last : ℕ}, some last = some e ↔
      (([] : List Chars) = [] ∧ e = last) ∨ ([] : List Chars) ≠ [] ∧ p := by
    intro p last
    constructor
    · exact fun h => .inl ⟨rfl, (Option.some.inj h).symm⟩
    · rintro (⟨-, rfl⟩ | ⟨hne, -⟩)
      · rfl
      · exact absurd rfl hne
  induction file generalizing snip i last with
  | nil =>
    rw [matchFrom]
    cases snip with
    | nil => exact hdone
    | cons s rest =>
      have hs := hsnip s List.mem_cons_self
      simp [hs]
  | cons f file ih =>
    rw [matchFrom]
    cases snip with
    | nil => exact hdone
    | cons s rest =>
      have hs := hsnip s List.mem_cons_self
      have hrest : ∀ t ∈ rest, t.isEmpty = false := fun t ht =>
        hsnip t (List.mem_cons_of_mem _ ht)
      rw [List.dropWhile_cons_of_neg (by simp [hs])]
      dsimp only
      split_ifs with hblank hequal
      -- a blank line of the file
      · refine (ih hsnip _ _).trans ?_
        simp only [List.cons_ne_nil, false_and, false_or, ne_eq, not_false_eq_true, true_and]
        constructor
        · rintro ⟨k, rfl, hline, hlines⟩
          refine ⟨k + 1, by omega, by simpa using hline, ?_⟩
          rw [List.take_succ_cons, solidLines_cons, if_pos hblank, List.nil_append, hlines]
        · rintro ⟨k, rfl, hline, hlines⟩
          cases k with
          | zero => simp [hblank] at hline
          | succ k =>
            rw [List.take_succ_cons, solidLines_cons, if_pos hblank, List.nil_append] at hlines
            exact ⟨k, by omega, by simpa using hline, hlines⟩
      -- the next line of the snippet
      · refine (ih hrest _ _).trans ?_
        simp only [List.cons_ne_nil, false_and, false_or, ne_eq, not_false_eq_true, true_and]
        have hsolid : isBlank f = false := by simpa using hblank
        constructor
        · rintro (⟨rfl, rfl⟩ | ⟨hne, k, rfl, hline, hlines⟩)
          · refine ⟨0, rfl, ⟨f, rfl, hsolid⟩, ?_⟩
            rw [List.take_succ_cons, solidLines_cons, if_neg hblank, hequal]
            rfl
          · refine ⟨k + 1, by omega, by simpa using hline, ?_⟩
            rw [List.take_succ_cons, solidLines_cons, if_neg hblank, hlines, hequal]
            rfl
        · rintro ⟨k, rfl, hline, hlines⟩
          cases k with
          | zero =>
            rw [List.take_succ_cons, solidLines_cons, if_neg hblank, hequal] at hlines
            have hnil : rest = [] := by simpa [solidLines] using hlines.symm
            exact .inl ⟨hnil, rfl⟩
          | succ k =>
            rw [List.take_succ_cons, solidLines_cons, if_neg hblank, hequal] at hlines
            have hlines' : solidLines (file.take (k + 1)) = rest := (List.cons.inj hlines).2
            have hline' : ∃ line, file[k]? = some line ∧ isBlank line = false := by
              simpa using hline
            obtain ⟨line, hget, hline⟩ := hline'
            have hmem : line ∈ file.take (k + 1) := mem_take_succ hget
            exact .inr ⟨fun hnil => solidLines_ne_nil hmem hline (hlines'.trans hnil), k, by omega,
              ⟨line, hget, hline⟩, hlines'⟩
      -- another line
      · simp only [List.cons_ne_nil, false_and, false_or, ne_eq, not_false_eq_true, true_and,
          false_iff]
        rintro ⟨k, -, -, hlines⟩
        rw [List.take_succ_cons, solidLines_cons, if_neg hblank] at hlines
        exact hequal (List.cons.inj hlines).1

/-! ### The candidates are the matches -/

section Candidates

variable {file snip : List Chars} {snippet first : Chars}

theorem mem_exactCandidates (file : List Chars)
    (hsnip : snip.filter (!·.isEmpty) = solidLines (linesOf snippet))
    (hfirst : snip.find? (!·.isEmpty) = some first) (span : ℕ × ℕ) :
    span ∈ exactCandidates file snip first ↔ IsMatch file snippet span := by
  have hhead : (solidLines (linesOf snippet)).head? = some first := by
    rw [← hsnip, List.head?_filter, hfirst]
  have hne : solidLines (linesOf snippet) ≠ [] := fun hnil => by rw [hnil] at hhead; cases hhead
  have hsolid : ∀ s ∈ solidLines (linesOf snippet), s.isEmpty = false := fun s hs => by
    simpa using (List.mem_filter.mp hs).2
  have hmatch : ∀ s e, matchSnippetSubsequence file snip s = some e ↔ ∃ k, e = s + k ∧
      (∃ line, file[s + k]? = some line ∧ isBlank line = false) ∧
        solidLines (spanLines file (s, s + k)) = solidLines (linesOf snippet) := by
    intro s e
    rw [matchSnippetSubsequence, matchFrom_filter, hsnip]
    refine (matchFrom_iff hsolid s s e).trans ?_
    simp only [hne, false_and, false_or, ne_eq, not_false_eq_true, true_and, List.getElem?_drop,
      spanLines, Nat.add_sub_cancel_left]
  constructor
  · intro hmem
    obtain ⟨⟨line, s⟩, hline, hspan⟩ := List.mem_filterMap.mp hmem
    have hget : file[s]? = some line := List.mk_mem_zipIdx_iff_getElem?.mp hline
    dsimp only at hspan
    split_ifs at hspan with htrim
    obtain ⟨e, he, rfl⟩ := Option.map_eq_some_iff.mp hspan
    obtain ⟨k, rfl, hlast, hlines⟩ := (hmatch s e).mp he
    have hblank : isBlank line = false := by
      have hmemfirst := List.mem_of_head? hhead
      rw [isBlank, htrim]
      exact hsolid first hmemfirst
    exact ⟨Nat.le_add_right s k, ⟨line, hget, hblank⟩, hlast, hlines⟩
  · rintro ⟨hle, ⟨line, hget, hblank⟩, hlast, hlines⟩
    obtain ⟨s, e⟩ := span
    dsimp only at hle hget hlast
    have htrim : trimChars line = first := by
      have hdrop : file.drop s = line :: file.drop (s + 1) := by
        obtain ⟨hs, rfl⟩ := List.getElem?_eq_some_iff.mp hget
        exact List.drop_eq_getElem_cons hs
      rw [spanLines, hdrop, List.take_succ_cons, solidLines_cons, hblank] at hlines
      rw [← hlines] at hhead
      exact Option.some.inj hhead
    have hend : e = s + (e - s) := by omega
    refine List.mem_filterMap.mpr ⟨(line, s), List.mk_mem_zipIdx_iff_getElem?.mpr hget, ?_⟩
    rw [if_pos htrim, Option.map_eq_some_iff]
    exact ⟨e, (hmatch s e).mpr ⟨e - s, hend, hend ▸ hlast, hend ▸ hlines⟩, rfl⟩

theorem sorted_exactCandidates :
    (exactCandidates file snip first).Pairwise fun a b => a.1 < b.1 := by
  have hsorted : file.zipIdx.Pairwise fun p q => p.2 < q.2 := by
    rw [← List.pairwise_map, List.zipIdx_map_snd]
    exact List.pairwise_lt_range'
  refine List.Pairwise.filterMap _ (fun p q hpq a ha b hb => ?_) hsorted
  split_ifs at ha hb
  obtain ⟨_, -, rfl⟩ := Option.map_eq_some_iff.mp ha
  obtain ⟨_, -, rfl⟩ := Option.map_eq_some_iff.mp hb
  exact hpq

end Candidates

/-! ### The choice -/

/-- The span nearest to the line; of two that are as near, the first. -/
def Nearest (P : ℕ × ℕ → Prop) (line : ℕ) (span : ℕ × ℕ) : Prop :=
  P span ∧ ∀ other, P other →
    absDiff (span.1 + 1) line < absDiff (other.1 + 1) line ∨
      absDiff (span.1 + 1) line = absDiff (other.1 + 1) line ∧ span.1 ≤ other.1

def Earliest (P : ℕ × ℕ → Prop) (span : ℕ × ℕ) : Prop :=
  P span ∧ ∀ other, P other → span.1 ≤ other.1

/-- Nearest to the symbol, or the first where there is none. -/
def PreferredBy (P : ℕ × ℕ → Prop) (symbolLine : Option ℕ) (span : ℕ × ℕ) : Prop :=
  match symbolLine with
  | some line => Nearest P line span
  | none => Earliest P span

/-- The hint decides; without one, the changed lines, and then the symbol. -/
def ChosenBy (P : ℕ × ℕ → Prop) (hintLine : Option ℕ) (ranges : Option (List (ℕ × ℕ)))
    (symbolLine : Option ℕ) (span : ℕ × ℕ) : Prop :=
  match hintLine with
  | some line => Nearest P line span
  | none =>
    ((∃ other, P other ∧ overlaps ranges other.1 other.2 = true) →
      PreferredBy (fun other => P other ∧ overlaps ranges other.1 other.2 = true) symbolLine span) ∧
    ((¬∃ other, P other ∧ overlaps ranges other.1 other.2 = true) → PreferredBy P symbolLine span)

theorem PreferredBy.holds {P : ℕ × ℕ → Prop} {symbolLine : Option ℕ} {span : ℕ × ℕ}
    (h : PreferredBy P symbolLine span) : P span := by
  cases symbolLine with
  | some line => exact h.1
  | none => exact h.1

theorem ChosenBy.holds {P : ℕ × ℕ → Prop} {hintLine symbolLine : Option ℕ}
    {ranges : Option (List (ℕ × ℕ))} {span : ℕ × ℕ}
    (h : ChosenBy P hintLine ranges symbolLine span) : P span := by
  cases hintLine with
  | some line => exact h.1
  | none =>
    by_cases hdiff : ∃ other, P other ∧ overlaps ranges other.1 other.2 = true
    · exact (h.1 hdiff).holds.1
    · exact (h.2 hdiff).holds

section Choice

variable {P : ℕ × ℕ → Prop} {candidates : List (ℕ × ℕ)}

theorem le_of_idxOf_le {α : Type} [DecidableEq α] {start : α → ℕ} {xs : List α} {a b : α}
    (hsorted : xs.Pairwise fun a b => start a < start b) (ha : a ∈ xs) (hb : b ∈ xs)
    (h : xs.idxOf a ≤ xs.idxOf b) : start a ≤ start b := by
  have hia := List.idxOf_lt_length_of_mem ha
  have hib := List.idxOf_lt_length_of_mem hb
  rcases Nat.eq_or_lt_of_le h with heq | hlt
  · have hab : a = b := (List.idxOf_inj ha).mp heq
    rw [hab]
  · have hpair := List.pairwise_iff_getElem.mp hsorted _ _ hia hib hlt
    rw [List.getElem_idxOf, List.getElem_idxOf] at hpair
    exact hpair.le

theorem nearest_spec (hmem : ∀ span, span ∈ candidates ↔ P span)
    (hsorted : candidates.Pairwise fun a b => a.1 < b.1) {line : ℕ} {span : ℕ × ℕ}
    (h : span ∈ nearest (·.1) line candidates) : Nearest P line span := by
  obtain ⟨hspan, hmin, hfirst⟩ := List.mem_argmin_iff.mp h
  refine ⟨(hmem span).mp hspan, fun other hother => ?_⟩
  have hin := (hmem other).mpr hother
  rcases Nat.lt_or_eq_of_le (hmin other hin) with hlt | heq
  · exact .inl hlt
  · exact .inr ⟨heq, le_of_idxOf_le hsorted hspan hin (hfirst other hin heq.ge)⟩

theorem head_spec (hmem : ∀ span, span ∈ candidates ↔ P span)
    (hsorted : candidates.Pairwise fun a b => a.1 < b.1) {span : ℕ × ℕ}
    (h : span ∈ candidates.head?) : Earliest P span := by
  obtain ⟨rest, rfl⟩ := List.head?_eq_some_iff.mp h
  refine ⟨(hmem span).mp List.mem_cons_self, fun other hother => ?_⟩
  rcases List.mem_cons.mp ((hmem other).mpr hother) with rfl | hin
  · exact le_rfl
  · exact ((List.pairwise_cons.mp hsorted).1 other hin).le

theorem nearest_isSome (line : ℕ) (h : candidates ≠ []) :
    (nearest (·.1) line candidates).isSome := by
  rw [Option.isSome_iff_ne_none]
  exact fun hnone => h (List.argmin_eq_none.mp hnone)

theorem itemAt_zero {xs : List (ℕ × ℕ)} (h : xs ≠ []) :
    (itemAt xs 0).map some = .ok xs.head? := by
  obtain ⟨x, rest, rfl⟩ := List.exists_cons_of_ne_nil h
  rfl

theorem pickFromDiff_spec (hmem : ∀ span, span ∈ candidates ↔ P span)
    (hsorted : candidates.Pairwise fun a b => a.1 < b.1) (hne : candidates ≠ [])
    (symbolLine : Option ℕ) : ∃ span, pickFromDiff (·.1) candidates symbolLine = .ok (some span) ∧
      PreferredBy P symbolLine span := by
  have hfirst : ∃ span, candidates.head? = some span :=
    Option.isSome_iff_exists.mp (List.isSome_head?.mpr hne)
  unfold pickFromDiff
  split_ifs with hone
  · -- the only one is nearest to anything
    obtain ⟨span, rfl⟩ := List.length_eq_one_iff.mp hone
    refine ⟨span, rfl, ?_⟩
    cases symbolLine with
    | some line => exact nearest_spec hmem hsorted rfl
    | none => exact head_spec hmem hsorted rfl
  · cases symbolLine with
    | some line =>
      obtain ⟨span, hspan⟩ := Option.isSome_iff_exists.mp (nearest_isSome line hne)
      exact ⟨span, congrArg Except.ok hspan, nearest_spec hmem hsorted hspan⟩
    | none =>
      obtain ⟨span, hspan⟩ := hfirst
      refine ⟨span, ?_, head_spec hmem hsorted hspan⟩
      dsimp only
      rw [itemAt_zero hne, hspan]

theorem pickClosestCandidate_spec (hmem : ∀ span, span ∈ candidates ↔ P span)
    (hsorted : candidates.Pairwise fun a b => a.1 < b.1) (hne : candidates ≠ [])
    (hintLine : Option ℕ) (ranges : Option (List (ℕ × ℕ))) (symbolLine : Option ℕ) :
    ∃ span, pickClosestCandidate candidates hintLine ranges symbolLine = .ok (some span) ∧
      ChosenBy P hintLine ranges symbolLine span := by
  have hempty : ¬candidates.isEmpty = true := fun h => hne (List.isEmpty_iff.mp h)
  unfold pickClosestCandidate pickClosest
  rw [if_neg hempty]
  cases hintLine with
  | some line =>
    obtain ⟨span, hspan⟩ := Option.isSome_iff_exists.mp (nearest_isSome line hne)
    exact ⟨span, congrArg Except.ok hspan, nearest_spec hmem hsorted hspan⟩
  | none =>
    dsimp only
    have hdiff : ∀ span, span ∈ inDiffCandidates
        (fun c range => decide (c.1 ≤ range.2) && decide (range.1 ≤ c.2)) ranges candidates ↔
          P span ∧ overlaps ranges span.1 span.2 = true := by
      intro span
      cases ranges with
      | none => simp [inDiffCandidates, overlaps]
      | some diff => simp [inDiffCandidates, overlaps, hmem]
    have hdiffSorted : (inDiffCandidates (fun c range => decide (c.1 ≤ range.2) &&
        decide (range.1 ≤ c.2)) ranges candidates).Pairwise fun a b => a.1 < b.1 := by
      cases ranges with
      | none => exact .nil
      | some diff => exact hsorted.filter _
    by_cases hpos : 0 < (inDiffCandidates (fun c range => decide (c.1 ≤ range.2) &&
        decide (range.1 ≤ c.2)) ranges candidates).length
    · rw [if_pos hpos]
      obtain ⟨span, hpick, hpreferred⟩ :=
        pickFromDiff_spec hdiff hdiffSorted (List.length_pos_iff.mp hpos) symbolLine
      refine ⟨span, hpick, fun _ => hpreferred, fun hnone => absurd ?_ hnone⟩
      obtain ⟨other, hother⟩ := List.exists_mem_of_length_pos hpos
      exact ⟨other, (hdiff other).mp hother⟩
    · rw [if_neg hpos]
      have hnone : ¬∃ other, P other ∧ overlaps ranges other.1 other.2 = true :=
        fun ⟨other, hother⟩ => hpos (List.length_pos_of_mem ((hdiff other).mpr hother))
      cases symbolLine with
      | some line =>
        obtain ⟨span, hspan⟩ := Option.isSome_iff_exists.mp (nearest_isSome line hne)
        exact ⟨span, congrArg Except.ok hspan, fun hsome => absurd hsome hnone,
          fun _ => nearest_spec hmem hsorted hspan⟩
      | none =>
        obtain ⟨span, hspan⟩ := Option.isSome_iff_exists.mp (List.isSome_head?.mpr hne)
        exact ⟨span, congrArg Except.ok hspan, fun hsome => absurd hsome hnone,
          fun _ => head_spec hmem hsorted hspan⟩

end Choice

theorem IsMatch.solid {file : List Chars} {snippet : Chars} {span : ℕ × ℕ}
    (h : IsMatch file snippet span) : file ≠ [] ∧ solidLines (linesOf snippet) ≠ [] := by
  obtain ⟨line, hget, hblank⟩ := h.first
  refine ⟨fun hnil => ?_, ?_⟩
  · rw [hnil] at hget
    cases hget
  · have hmem : line ∈ spanLines file span := by
      obtain ⟨hs, rfl⟩ := List.getElem?_eq_some_iff.mp hget
      rw [spanLines, List.drop_eq_getElem_cons hs, List.take_succ_cons]
      exact List.mem_cons_self
    rw [← h.lines]
    exact solidLines_ne_nil hmem hblank

/-- A snippet is found exactly when it stands somewhere in the file, and the place returned is the
one that the hint, the changed lines and the symbol choose. -/
theorem findSnippetInLinesExact_spec (file : List Chars) (snippet : Chars) (hintLine : Option ℕ)
    (ranges : Option (List (ℕ × ℕ))) (symbolLine : Option ℕ) :
    ∃ r, findSnippetInLinesExact file snippet hintLine ranges symbolLine = .ok r ∧
      (r.isSome ↔ ∃ span, IsMatch file snippet span) ∧
      ∀ span ∈ r, IsMatch file snippet span ∧
        ChosenBy (IsMatch file snippet) hintLine ranges symbolLine span := by
  have hnone : (¬∃ span, IsMatch file snippet span) →
      findSnippetInLinesExact file snippet hintLine ranges symbolLine = .ok none →
      ∃ r, findSnippetInLinesExact file snippet hintLine ranges symbolLine = .ok r ∧
        (r.isSome ↔ ∃ span, IsMatch file snippet span) ∧
        ∀ span ∈ r, IsMatch file snippet span ∧
          ChosenBy (IsMatch file snippet) hintLine ranges symbolLine span :=
    fun hno hr => ⟨none, hr, ⟨nofun, fun h => absurd h hno⟩, nofun⟩
  by_cases hfile : file.isEmpty = true
  · exact hnone (fun ⟨span, h⟩ => h.solid.1 (List.isEmpty_iff.mp hfile))
      (by rw [findSnippetInLinesExact, if_pos hfile])
  rcases parseSnippetLines_spec snippet with ⟨hparse, hblank⟩ | ⟨snip, hparse, hsnip⟩
  · exact hnone (fun ⟨span, h⟩ => h.solid.2 hblank)
      (by rw [findSnippetInLinesExact, if_neg hfile, hparse]; rfl)
  cases hfirst : snip.find? (!·.isEmpty) with
  | none =>
    have hnil : solidLines (linesOf snippet) = [] := by
      rw [← hsnip, ← List.head?_eq_none_iff, List.head?_filter, hfirst]
    refine hnone (fun ⟨span, h⟩ => h.solid.2 hnil) ?_
    rw [findSnippetInLinesExact, if_neg hfile, hparse]
    simp only [bind, Except.bind, hfirst]
  | some first =>
    have hmem := mem_exactCandidates file hsnip hfirst
    have heq : findSnippetInLinesExact file snippet hintLine ranges symbolLine =
        pickClosestCandidate (exactCandidates file snip first) hintLine ranges symbolLine := by
      rw [findSnippetInLinesExact, if_neg hfile, hparse]
      simp only [bind, Except.bind, hfirst]
    by_cases hne : exactCandidates file snip first = []
    · refine hnone (fun ⟨span, h⟩ => ?_) ?_
      · have hin := (hmem span).mpr h
        rw [hne] at hin
        cases hin
      · rw [heq, hne]
        rfl
    · obtain ⟨span, hpick, hchosen⟩ := pickClosestCandidate_spec hmem sorted_exactCandidates hne
        hintLine ranges symbolLine
      have hspan : IsMatch file snippet span := hchosen.holds
      refine ⟨some span, heq.trans hpick, ⟨fun _ => ⟨span, hspan⟩, fun _ => rfl⟩, ?_⟩
      intro other hother
      obtain rfl := Option.some.inj hother
      exact ⟨hspan, hchosen⟩

end Sashiko
