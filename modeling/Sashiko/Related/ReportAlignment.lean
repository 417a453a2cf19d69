import Sashiko.Related.ReportMarkers

/-! `align_related_preexisting_to_report_order` permutes the related bugs and their placeholders
alike, unless the text in front of a placeholder ends in its temporary marker but for the last
underscores. -/

namespace Sashiko

variable {n k : ℕ} {head head' : Chars} {parts parts' before after : List (ℕ × Chars)}

/-- What the alignment is for. The text is cut at the placeholders; the same pieces stand between
the new ones, and each bug is where its placeholder is. -/
structure Aligned (related : List Json) (text head : Chars) (parts : List (ℕ × Chars))
    (related' : List Json) (text' : Chars) : Prop where
  cut : Cut related.length head parts
  text_eq : text = weave head parts
  perm : (parts.map (·.1)).Perm (List.range related.length)
  renamed : text' = weave head (renumberParts 0 parts)
  once : ∀ k < related.length, occurrences (bugRefPlaceholder k) text' = 1
  increasing : (List.range related.length).Pairwise fun i j =>
    (placeOf text' i).1 < (placeOf text' j).1
  lossless : (parts.map fun part => related.getD part.1 .null).Perm related
  bugs : related' = fillReportTexts text' (parts.map fun part => related.getD part.1 .null)

/-- How many of the first `n` placeholders are in the text. -/
def placeholdersIn (n : ℕ) (cs : Chars) : ℕ :=
  (List.range n).countP fun idx => containsChars cs (bugRefPlaceholder idx)

/-- In front of no placeholder the text ends in what its marker begins with. -/
def MarkersFit (n : ℕ) (text : Chars) : Prop :=
  ∀ i < n, ∀ before after, text = before ++ (bugRefPlaceholder i ++ after) →
    MarkerFits (placeholdersIn n before) before

theorem markersFit_of_absent {text : Chars}
    (h : ¬"__SASHIKO_BUG_REF_TMP_".toList <:+: text) (n : ℕ) : MarkersFit n text := by
  rintro i - before after rfl
  have hbefore : ∀ q, markerHead (placeholdersIn n before) <+: q → ¬q <:+ before := by
    intro q hq hsuf
    refine h (List.IsInfix.trans ?_ (List.prefix_append before _).isInfix)
    exact ((List.prefix_append _ _).trans hq).isInfix.trans hsuf.isInfix
  exact ⟨hbefore _ (List.prefix_refl _), hbefore _ (List.prefix_append _ _)⟩

/-! ### The text is cut in one way -/

theorem weave_cons (head : Chars) (part : ℕ × Chars) (parts : List (ℕ × Chars)) :
    weave head (part :: parts) = head ++ (bugRefPlaceholder part.1 ++ weave part.2 parts) := by
  rw [weave, joinParts_cons]

theorem Cut.append_left (h : Cut n head (before ++ after)) : Cut n head before where
  head := h.head
  lt := fun p hp => h.lt p (List.mem_append_left _ hp)
  clean := fun p hp => h.clean p (List.mem_append_left _ hp)

/-- The first placeholder of one cut is not within the head of another. -/
theorem Cut.head_length_le {part : ℕ × Chars} (h : Cut n head (part :: parts))
    (h' : Cut n head' parts') (heq : weave head (part :: parts) = weave head' parts') :
    head'.length ≤ head.length := by
  have htoken := isToken_bugRefPlaceholder part.1
  rw [weave_cons, weave] at heq
  rcases List.append_eq_append_iff.mp heq with ⟨v, rfl, hv⟩ | ⟨v, rfl, -⟩
  · have hstart : NoStart (bugRefPlaceholder part.1) (head ++ v)
        (joinParts bugRefPlaceholder parts') :=
      htoken.noStart (h'.head _ (h.lt part List.mem_cons_self)) (head_joinParts _)
    by_cases hne : v = []
    · simp [hne]
    · exact absurd ⟨_, hv⟩ ((noStart_append.mp hstart).2 v (List.suffix_refl v) hne)
  · simp

theorem Cut.unique (h : Cut n head parts) (h' : Cut n head' parts')
    (heq : weave head parts = weave head' parts') : head = head' ∧ parts = parts' := by
  induction parts generalizing head head' parts' with
  | nil =>
    cases parts' with
    | nil => exact ⟨by simpa [weave, joinParts] using heq, rfl⟩
    | cons part parts' =>
      refine absurd ⟨head', weave part.2 parts', ?_⟩ (h.head part.1 (h'.lt part List.mem_cons_self))
      rw [List.append_assoc, ← weave_cons, ← heq, weave, joinParts, List.flatMap_nil,
        List.append_nil]
  | cons part parts ih =>
    cases parts' with
    | nil =>
      refine absurd ⟨head, weave part.2 parts, ?_⟩ (h'.head part.1 (h.lt part List.mem_cons_self))
      rw [List.append_assoc, ← weave_cons, heq, weave, joinParts, List.flatMap_nil,
        List.append_nil]
    | cons part' parts' =>
      have hlen : head.length = head'.length :=
        Nat.le_antisymm (h'.head_length_le h heq.symm) (h.head_length_le h' heq)
      rw [weave_cons, weave_cons] at heq
      obtain ⟨rfl, htail⟩ := List.append_inj heq hlen
      have htoken := isToken_bugRefPlaceholder
      have hsame : bugRefPlaceholder part'.1 = bugRefPlaceholder part.1 :=
        (htoken part.1).eq_of_prefix_append (htoken part'.1) ⟨_, htail.symm⟩
      rw [hsame, List.append_right_inj] at htail
      obtain ⟨hseg, rfl⟩ := ih h.cons h'.cons htail
      exact ⟨rfl, by rw [Prod.ext (bugRefPlaceholder_injective hsame.symm) hseg]⟩

/-- A place of a placeholder in the text is one of the cut. -/
theorem Cut.exists_part (h : Cut n head parts) {i : ℕ} (hi : i < n) {left right : Chars}
    (heq : weave head parts = left ++ (bugRefPlaceholder i ++ right)) :
    ∃ before seg after, parts = before ++ (i, seg) :: after ∧ left = weave head before := by
  obtain ⟨head₁, before, rfl, hbefore⟩ := exists_cut n left
  obtain ⟨seg, after, rfl, hafter⟩ := exists_cut n right
  have hcut : Cut n head₁ (before ++ (i, seg) :: after) := by
    refine ⟨hbefore.head, fun p hp => ?_, fun p hp => ?_⟩
    · rcases List.mem_append.mp hp with hp | hp
      · exact hbefore.lt p hp
      · rcases List.mem_cons.mp hp with rfl | hp
        · exact hi
        · exact hafter.lt p hp
    · rcases List.mem_append.mp hp with hp | hp
      · exact hbefore.clean p hp
      · rcases List.mem_cons.mp hp with rfl | hp
        · exact hafter.head
        · exact hafter.clean p hp
  obtain ⟨rfl, rfl⟩ := h.unique hcut (by rw [heq, weave_append, joinParts_cons])
  exact ⟨before, seg, after, rfl, rfl⟩

/-! ### Which markers fit -/

theorem weave_nil (head : Chars) : weave head [] = head := List.append_nil head

theorem mem_of_infix_weave (h : Cut n head parts) (hk : k < n)
    (hin : bugRefPlaceholder k <:+: weave head parts) : k ∈ parts.map (·.1) := by
  by_contra hnot
  have hstart : NoStart (bugRefPlaceholder k) (weave head parts) [] :=
    noStart_weave h hk hnot (by simp)
  exact hstart.not_infix (isToken_bugRefPlaceholder k).ne_nil hin

theorem infix_weave_of_mem (hmem : k ∈ parts.map (·.1)) :
    bugRefPlaceholder k <:+: weave head parts := by
  obtain ⟨part, hpart, rfl⟩ := List.mem_map.mp hmem
  obtain ⟨before, after, rfl⟩ := List.append_of_mem hpart
  rw [weave_append, joinParts_cons, ← List.append_assoc]
  exact List.infix_append _ _ _

theorem placeholdersIn_weave (h : Cut n head parts) (hnodup : (parts.map (·.1)).Nodup) :
    placeholdersIn n (weave head parts) = parts.length := by
  have hperm : ((List.range n).filter fun idx =>
      containsChars (weave head parts) (bugRefPlaceholder idx)).Perm (parts.map (·.1)) := by
    refine (List.perm_ext_iff_of_nodup (List.nodup_range.filter _) hnodup).mpr fun k => ?_
    rw [List.mem_filter, List.mem_range, containsChars_iff]
    constructor
    · rintro ⟨hk, hin⟩
      exact mem_of_infix_weave h hk hin
    · intro hmem
      obtain ⟨part, hpart, rfl⟩ := List.mem_map.mp hmem
      exact ⟨h.lt part hpart, infix_weave_of_mem hmem⟩
  rw [placeholdersIn, List.countP_eq_length_filter, hperm.length_eq, List.length_map]

theorem renumberParts_append (first : ℕ) (before after : List (ℕ × Chars)) :
    renumberParts first (before ++ after) =
      renumberParts first before ++ renumberParts (first + before.length) after := by
  induction before generalizing first with
  | nil => rfl
  | cons part before ih =>
    rw [List.cons_append, renumberParts, renumberParts, ih, List.length_cons, List.cons_append,
      Nat.add_assoc, Nat.add_comm 1]

/-- Behind a placeholder a text without a closing bracket is a suffix or not whatever is in
front. -/
theorem suffix_placeholder_append {q : Chars} (hq : ']' ∉ q) (xs seg : Chars) (idx : ℕ) :
    q <:+ xs ++ (bugRefPlaceholder idx ++ seg) ↔ q <:+ seg := by
  constructor
  · intro hsuf
    rw [← List.append_assoc] at hsuf
    rcases List.suffix_or_suffix_of_suffix hsuf (List.suffix_append _ seg) with h | ⟨v, rfl⟩
    · exact h
    · -- what is left of it would end in the bracket of the placeholder
      rcases List.eq_nil_or_concat' v with rfl | ⟨v, c, rfl⟩
      · exact List.suffix_refl _
      · obtain ⟨w, hw, -⟩ := isToken_bugRefPlaceholder idx
        obtain ⟨front, hfront⟩ := hsuf
        rw [← List.append_assoc, List.append_left_inj, hw, ← List.cons_append,
          ← List.append_assoc, ← List.append_assoc] at hfront
        obtain rfl : c = ']' := List.singleton_injective (List.append_inj_right' hfront rfl)
        exact absurd (by simp) hq
  · intro hsuf
    exact hsuf.trans ((List.suffix_append _ seg).trans (List.suffix_append xs _))

theorem close_not_mem_markerHead (k : ℕ) : ']' ∉ markerHead k :=
  fun hmem => close_not_mem_tmpMarker k (by rw [tmpMarker_eq]; exact List.mem_append_left _ hmem)

/-- Whether a marker fits does not depend on the numbers of the placeholders in front. -/
theorem markerFits_renumber (k first : ℕ) (head : Chars) (parts : List (ℕ × Chars)) :
    MarkerFits k (weave head (renumberParts first parts)) ↔ MarkerFits k (weave head parts) := by
  rcases List.eq_nil_or_concat' parts with rfl | ⟨parts, last, rfl⟩
  · rfl
  · have hone := close_not_mem_markerHead k
    have htwo : ']' ∉ markerHead k ++ ['_'] := by simp [hone]
    have hlast : ∀ (front : List (ℕ × Chars)) (idx : ℕ), weave head (front ++ [(idx, last.2)]) =
        weave head front ++ (bugRefPlaceholder idx ++ last.2) := fun front idx => by
      rw [weave_append, joinParts_cons, weave_nil]
    rw [renumberParts_append, renumberParts, renumberParts, hlast, hlast parts last.1, MarkerFits,
      MarkerFits, suffix_placeholder_append hone, suffix_placeholder_append htwo,
      suffix_placeholder_append hone, suffix_placeholder_append htwo]

theorem allFit_iff (first : ℕ) (head : Chars) (parts : List (ℕ × Chars)) :
    AllFit first head parts ↔ ∀ before part after, parts = before ++ part :: after →
      MarkerFits (first + before.length) (weave head (renumberParts first before)) := by
  induction parts generalizing first head with
  | nil => simp [AllFit]
  | cons part parts ih =>
    have hnext : ∀ before, weave (head ++ (bugRefPlaceholder first ++ part.2))
        (renumberParts (first + 1) before) =
          weave head (renumberParts first (part :: before)) := fun before => by
      rw [renumberParts, weave_cons, weave, weave]
      simp only [List.append_assoc]
    rw [AllFit, ih]
    constructor
    · rintro ⟨hfirst, hrest⟩ before later after heq
      cases before with
      | nil => rwa [renumberParts, weave_nil]
      | cons _ before =>
        obtain ⟨rfl, rfl⟩ := List.cons.inj heq
        have hlater := hrest before later after rfl
        rwa [hnext, Nat.add_assoc, Nat.add_comm 1] at hlater
    · intro h
      have hhead := h [] part parts rfl
      rw [renumberParts, weave_nil] at hhead
      refine ⟨hhead, ?_⟩
      intro before later after heq
      rw [hnext, Nat.add_assoc, Nat.add_comm 1]
      exact h (part :: before) later after (by rw [heq, List.cons_append])

theorem allFit_iff_markersFit (h : Cut n head parts) (hnodup : (parts.map (·.1)).Nodup) :
    AllFit 0 head parts ↔ MarkersFit n (weave head parts) := by
  have hcount : ∀ before after, parts = before ++ after →
      placeholdersIn n (weave head before) = before.length := by
    rintro before after rfl
    rw [List.map_append] at hnodup
    exact placeholdersIn_weave h.append_left hnodup.of_append_left
  rw [allFit_iff]
  constructor
  · intro hall i hi left right heq
    obtain ⟨before, seg, after, hparts, rfl⟩ := h.exists_part hi heq
    have hfit := hall before _ after hparts
    rwa [markerFits_renumber, Nat.zero_add, ← hcount before _ hparts] at hfit
  · intro hfits before part after hparts
    have heq : weave head parts =
        weave head before ++ (bugRefPlaceholder part.1 ++ weave part.2 after) := by
      rw [hparts, weave_append, joinParts_cons]
    have hfit := hfits part.1 (h.lt part (by simp [hparts])) _ _ heq
    rwa [markerFits_renumber, Nat.zero_add, ← hcount before _ hparts]

/-! ### The whole alignment -/

theorem Json.insertField_insertField (key : String) (value : Json)
    (fields : List (String × Json)) :
    Json.insertField key value (Json.insertField key value fields) =
      Json.insertField key value fields := by
  induction fields with
  | nil => simp [Json.insertField]
  | cons field fields ih =>
    obtain ⟨k, v⟩ := field
    by_cases hkey : k = key
    · simp [Json.insertField, hkey]
    · by_cases hlt : textLt key k = true
      · simp [Json.insertField, hkey, hlt]
      · simp [Json.insertField, hkey, hlt, ih]

theorem fillReportText_fillReportText (report : Chars) (item : Json) (idx : ℕ) :
    fillReportText report (fillReportText report item idx) idx =
      fillReportText report item idx := by
  unfold fillReportText
  cases extractInlineCommentWithPlaceholder report (bugRefPlaceholder idx) with
  | none => rfl
  | some comment =>
    cases item with
    | obj fields => exact congrArg Json.obj (Json.insertField_insertField _ _ fields)
    | _ => rfl

theorem getElem?_fillReportTexts (report : Chars) (related : List Json) (k : ℕ) :
    (fillReportTexts report related)[k]? =
      related[k]?.map fun item => fillReportText report item k := by
  rw [fillReportTexts, List.getElem?_map, List.getElem?_zipIdx, Option.map_map]
  simp [Function.comp_def]

theorem length_fillReportTexts (report : Chars) (related : List Json) :
    (fillReportTexts report related).length = related.length := by
  rw [fillReportTexts, List.length_map, List.length_zipIdx]

theorem fillReportTexts_fillReportTexts (report : Chars) (related : List Json) :
    fillReportTexts report (fillReportTexts report related) = fillReportTexts report related := by
  refine List.ext_getElem? fun k => ?_
  rw [getElem?_fillReportTexts, getElem?_fillReportTexts, Option.map_map]
  congr 1
  exact funext fun item => fillReportText_fillReportText report item k

theorem align_of_ordered {related : List Json} {text : Chars}
    (h : reportOrder related.length text = List.range related.length) :
    alignRelatedPreexistingToReportOrder related text = (fillReportTexts text related, text) :=
  if_neg fun hmove => hmove.2 h

/-- In a report in order the comments are filled in once and for all. -/
theorem align_again {related : List Json} {text : Chars}
    (h : reportOrder related.length text = List.range related.length) :
    alignRelatedPreexistingToReportOrder (fillReportTexts text related) text =
      (fillReportTexts text related, text) := by
  rw [align_of_ordered (by rwa [length_fillReportTexts]), fillReportTexts_fillReportTexts]

theorem map_fst_renumberParts (first : ℕ) (parts : List (ℕ × Chars)) :
    (renumberParts first parts).map (·.1) = List.range' first parts.length := by
  induction parts generalizing first with
  | nil => rfl
  | cons part parts ih => rw [renumberParts, List.map_cons, ih, List.length_cons, List.range'_succ]

theorem mem_snd_renumberParts {part : ℕ × Chars} (first : ℕ)
    (hpart : part ∈ renumberParts first parts) : ∃ old ∈ parts, old.2 = part.2 := by
  induction parts generalizing first with
  | nil => cases hpart
  | cons old parts ih =>
    rcases List.mem_cons.mp hpart with rfl | hpart
    · exact ⟨old, List.mem_cons_self, rfl⟩
    · obtain ⟨other, hother, hsame⟩ := ih _ hpart
      exact ⟨other, List.mem_cons_of_mem _ hother, hsame⟩

theorem renumberParts_of_ordered (first : ℕ)
    (h : parts.map (·.1) = List.range' first parts.length) : renumberParts first parts = parts := by
  induction parts generalizing first with
  | nil => rfl
  | cons part parts ih =>
    rw [List.map_cons, List.length_cons, List.range'_succ] at h
    obtain ⟨hfirst, htail⟩ := List.cons.inj h
    rw [renumberParts, ih _ htail, ← hfirst]

theorem Cut.renumber (h : Cut n head parts) (hlen : parts.length = n) :
    Cut n head (renumberParts 0 parts) where
  head := h.head
  lt := fun part hpart => by
    have hmem := List.mem_map_of_mem (f := (·.1)) hpart
    rw [map_fst_renumberParts, hlen, ← List.range_eq_range'] at hmem
    exact List.mem_range.mp hmem
  clean := fun part hpart => by
    obtain ⟨old, hold, hsame⟩ := mem_snd_renumberParts 0 hpart
    exact hsame ▸ h.clean old hold

theorem map_getD_range (related : List Json) :
    (List.range related.length).map (related.getD · .null) = related := by
  refine List.ext_getElem (by simp) fun k _ hk => ?_
  rw [List.getElem_map, List.getElem_range, List.getD_eq_getElem?_getD,
    List.getElem?_eq_getElem hk, Option.getD_some]

theorem map_getD_parts (related : List Json) (parts : List (ℕ × Chars)) :
    (parts.map fun part => related.getD part.1 .null) =
      (parts.map (·.1)).map (related.getD · .null) := by
  rw [List.map_map]
  rfl

theorem reportOrder_renumber (h : Cut n head parts)
    (hperm : (parts.map (·.1)).Perm (List.range n)) :
    reportOrder n (weave head (renumberParts 0 parts)) = List.range n := by
  have hlen : parts.length = n := by simpa using hperm.length_eq
  have hfst : (renumberParts 0 parts).map (·.1) = List.range n := by
    rw [map_fst_renumberParts, hlen, List.range_eq_range']
  rw [reportOrder_weave (h.renumber hlen) (hfst ▸ .refl _), hfst]

/-- The pieces under the new numbers are what the alignment is for. -/
theorem aligned_renumber {related : List Json} (h : Cut related.length head parts)
    (hperm : (parts.map (·.1)).Perm (List.range related.length)) :
    Aligned related (weave head parts) head parts
      (fillReportTexts (weave head (renumberParts 0 parts))
        (parts.map fun part => related.getD part.1 .null))
      (weave head (renumberParts 0 parts)) := by
  have hlen : parts.length = related.length := by simpa using hperm.length_eq
  have hfst : (renumberParts 0 parts).map (·.1) = List.range related.length := by
    rw [map_fst_renumberParts, hlen, List.range_eq_range']
  have hcut := h.renumber hlen
  refine ⟨h, rfl, hperm, rfl, fun k hk => ?_, ?_, ?_, rfl⟩
  · rw [occurrences_weave hcut hk, hfst]
    exact List.count_eq_one_of_mem List.nodup_range (List.mem_range.mpr hk)
  · rw [← hfst]
    exact pairwise_placeOf hcut (hfst ▸ List.nodup_range) (List.nil_append _).symm
  · have hbugs := hperm.map (related.getD · .null)
    rwa [map_getD_range, ← map_getD_parts] at hbugs

section Report

variable {related : List Json} {text : Chars}

theorem align_weave (h : Cut related.length head parts)
    (hperm : (parts.map (·.1)).Perm (List.range related.length))
    (horder : parts.map (·.1) ≠ List.range related.length) :
    alignRelatedPreexistingToReportOrder related (weave head parts) =
      (fillReportTexts (unmarkPlaceholders 0 parts.length
          (head ++ joinParts tmpMarker (renumberParts 0 parts)))
        (parts.map fun part => related.getD part.1 .null),
      unmarkPlaceholders 0 parts.length
        (head ++ joinParts tmpMarker (renumberParts 0 parts))) := by
  have hreport := reportOrder_weave h hperm
  have htwo : 2 ≤ related.length := by
    -- there is one order only of fewer than two bugs
    by_contra hfew
    match hn : related.length, hperm, horder with
    | 0, hperm, horder => exact horder (List.perm_nil.mp hperm)
    | 1, hperm, horder => exact horder (List.perm_singleton.mp hperm)
    | _ + 2, _, _ => omega
  have hmarked := markPlaceholders_append h 0
  unfold alignRelatedPreexistingToReportOrder
  rw [hreport, if_pos ⟨htwo, horder⟩, renamePlaceholders, hmarked, List.length_map,
    map_getD_parts]

/-- Where the text is aligned the markers fit. -/
theorem aligned_iff (h : Cut related.length head parts)
    (hperm : (parts.map (·.1)).Perm (List.range related.length))
    (horder : parts.map (·.1) ≠ List.range related.length)
    (hunmarked : Unmarked related.length (weave head parts)) :
    (∃ head' parts', Aligned related (weave head parts) head' parts'
        (alignRelatedPreexistingToReportOrder related (weave head parts)).1
        (alignRelatedPreexistingToReportOrder related (weave head parts)).2) ↔
      MarkersFit related.length (weave head parts) := by
  have hlen : 0 + parts.length ≤ related.length := by
    have := hperm.length_eq
    rw [List.length_map, List.length_range] at this
    omega
  have hhead : Unmarked related.length head :=
    fun k hk hin => hunmarked k hk (hin.trans (List.prefix_append head _).isInfix)
  have hparts : ∀ part ∈ parts, Unmarked related.length part.2 := by
    intro part hpart k hk hin
    obtain ⟨before, after, rfl⟩ := List.append_of_mem hpart
    refine hunmarked k hk (hin.trans ⟨weave head before ++ bugRefPlaceholder part.1,
      joinParts bugRefPlaceholder after, ?_⟩)
    rw [weave_append, joinParts_cons, weave, weave]
    simp only [List.append_assoc]
  rw [align_weave h hperm horder,
    ← allFit_iff_markersFit h (hperm.nodup_iff.mpr List.nodup_range)]
  constructor
  · rintro ⟨head', parts', haligned⟩
    obtain ⟨rfl, rfl⟩ := h.unique haligned.cut haligned.text_eq
    by_contra hfit
    exact unmarkPlaceholders_ne hhead hparts hlen hfit haligned.renamed
  · intro hfit
    rw [unmarkPlaceholders_append hhead hparts hlen hfit]
    exact ⟨head, parts, aligned_renumber h hperm⟩

/-- The related bugs and their placeholders are permuted alike, once and for all: in every report
that is in order already, and in the others when the markers fit. -/
theorem align_related_preexisting_iff
    (honce : ∀ k < related.length, occurrences (bugRefPlaceholder k) text = 1)
    (hunmarked : ∀ k < related.length, ¬tmpMarker k <:+: text) :
    ((∃ head parts, Aligned related text head parts
        (alignRelatedPreexistingToReportOrder related text).1
        (alignRelatedPreexistingToReportOrder related text).2) ∧
      alignRelatedPreexistingToReportOrder
          (alignRelatedPreexistingToReportOrder related text).1
          (alignRelatedPreexistingToReportOrder related text).2 =
        alignRelatedPreexistingToReportOrder related text) ↔
      reportOrder related.length text = List.range related.length ∨
        MarkersFit related.length text := by
  obtain ⟨head, parts, rfl, hcut⟩ := exists_cut related.length text
  have hperm := hcut.perm honce
  have hreport := reportOrder_weave hcut hperm
  by_cases horder : parts.map (·.1) = List.range related.length
  · have hsame : renumberParts 0 parts = parts := by
      refine renumberParts_of_ordered 0 ?_
      rw [horder, List.range_eq_range', ← hperm.length_eq.trans List.length_range, List.length_map]
    have haligned := aligned_renumber hcut hperm
    rw [hsame, map_getD_parts, horder, map_getD_range] at haligned
    rw [align_of_ordered (hreport.trans horder), align_again (hreport.trans horder)]
    exact iff_of_true ⟨⟨head, parts, haligned⟩, rfl⟩ (.inl (hreport.trans horder))
  · have hiff := aligned_iff hcut hperm horder hunmarked
    rw [hreport, or_iff_right horder, ← hiff, and_iff_left_iff_imp]
    -- what is aligned is in order
    rintro ⟨head', parts', haligned⟩
    generalize alignRelatedPreexistingToReportOrder related (weave head parts) = out at haligned
    obtain ⟨related', text'⟩ := out
    obtain ⟨hcut', -, hperm', hrenamed, -, -, hlossless, hbugs⟩ := haligned
    have hordered := reportOrder_renumber hcut' hperm'
    simp only at hrenamed hbugs ⊢
    rw [← hrenamed, ← hlossless.length_eq] at hordered
    rw [hbugs, align_again hordered]

end Report

theorem align_related_preexisting_swapped :
    (∃ head parts, Aligned [.str "leak", .str "race"] "[BUG_REF:2] a [BUG_REF] b".toList head parts
        (alignRelatedPreexistingToReportOrder [.str "leak", .str "race"]
          "[BUG_REF:2] a [BUG_REF] b".toList).1
        (alignRelatedPreexistingToReportOrder [.str "leak", .str "race"]
          "[BUG_REF:2] a [BUG_REF] b".toList).2) ∧
      alignRelatedPreexistingToReportOrder
          (alignRelatedPreexistingToReportOrder [.str "leak", .str "race"]
            "[BUG_REF:2] a [BUG_REF] b".toList).1
          (alignRelatedPreexistingToReportOrder [.str "leak", .str "race"]
            "[BUG_REF:2] a [BUG_REF] b".toList).2 =
        alignRelatedPreexistingToReportOrder [.str "leak", .str "race"]
          "[BUG_REF:2] a [BUG_REF] b".toList :=
  (align_related_preexisting_iff (by decide) (by decide)).mpr
    (.inr (markersFit_of_absent (by decide) 2))

/-- Behind `__SASHIKO_BUG_REF_TMP_0` the first marker begins too early. -/
theorem align_related_preexisting_marker_in_text :
    ¬∀ (related : List Json) (text : Chars),
      (∀ k < related.length, occurrences (bugRefPlaceholder k) text = 1) →
      (∀ k < related.length, ¬tmpMarker k <:+: text) →
      ∃ head parts, Aligned related text head parts
        (alignRelatedPreexistingToReportOrder related text).1
        (alignRelatedPreexistingToReportOrder related text).2 := by
  intro h
  have hcut : Cut 2 "__SASHIKO_BUG_REF_TMP_0".toList [(1, " a ".toList), (0, " b".toList)] :=
    ⟨by unfold Clean; decide, by decide, by unfold Clean; decide⟩
  have hfits := (@aligned_iff _ _ [.str "leak", .str "race"] hcut (by decide) (by decide)
    (by unfold Unmarked; decide)).mp (h _ _ (by decide) (by decide))
  have hfit := hfits 1 (by decide) "__SASHIKO_BUG_REF_TMP_0".toList
    " a [BUG_REF] b".toList (by decide)
  exact hfit.1 (by decide)

end Sashiko
