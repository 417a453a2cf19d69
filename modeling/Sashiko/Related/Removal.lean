import Sashiko.Related.ReviewLayout

/-! Taking one comment out of a review: what the next comment takes over, and that the text stays
a text of the same form. -/

namespace Sashiko

variable {quote lines : List Chars} {line : Chars} {units : List CommentUnit}

/-! ### File headers among quoted lines -/

theorem startsFileHeader_of_isFileHeaderLine (h : isFileHeaderLine line = true) :
    startsFileHeader line = true := by
  obtain ⟨rest, hrest⟩ := List.isPrefixOf_iff_prefix.mp h
  rw [← hrest]
  rfl

theorem not_isBlank_of_startsFileHeader (h : startsFileHeader line = true) :
    isBlank line = false := by
  rw [Bool.eq_false_iff]
  intro hblank
  have hall := isBlank_iff.mp hblank
  have hnil : trimStart line = [] := List.dropWhile_eq_nil_iff.mpr hall
  rw [startsFileHeader, unquoted, hnil] at h
  have hstrip : stripChars? ['>'] ([] : Chars) = none := rfl
  rw [hstrip, Option.getD_none, hnil] at h
  revert h
  decide

theorem extractFrom_sublist (seenDiff : Bool) (quote : List Chars) :
    List.Sublist (extractFrom seenDiff quote) quote := by
  induction quote generalizing seenDiff with
  | nil => exact List.Sublist.slnil
  | cons line quote ih =>
    unfold extractFrom
    split_ifs
    · exact (ih true).cons_cons line
    · exact (ih true).cons_cons line
    · exact List.nil_sublist _
    · exact (ih false).cons line

theorem extractFileHeader_sublist : List.Sublist (extractFileHeader quote) quote :=
  extractFrom_sublist false quote

theorem hasFileHeader_cons : hasFileHeader (line :: quote) =
    (startsFileHeader line || hasFileHeader quote) := rfl

theorem head_extractFileHeader (h : line ∈ (extractFileHeader quote).head?) :
    startsFileHeader line = true := by
  rw [extractFileHeader] at h
  induction quote with
  | nil => cases h
  | cons l quote ih =>
    unfold extractFrom at h
    by_cases hl : startsFileHeader l = true
    · rw [if_pos hl] at h
      cases h
      exact hl
    · rw [if_neg hl] at h
      exact ih (by simpa using h)

theorem extractFileHeader_eq_nil : extractFileHeader quote = [] ↔ hasFileHeader quote = false := by
  rw [extractFileHeader]
  induction quote with
  | nil => exact ⟨fun _ => rfl, fun _ => rfl⟩
  | cons l quote ih =>
    rw [hasFileHeader_cons]
    unfold extractFrom
    by_cases hl : startsFileHeader l = true
    · simp [hl]
    · simp [hl, ih]

/-! ### The next unit -/

/-- The unit behind a dropped one: it takes the dropped hunk where it has none of its own, and the
dropped file header where its own lines hold none. -/
def CommentUnit.takeOver (dropped unit : CommentUnit) : CommentUnit :=
  if unit.quoteLines = [] then ⟨dropped.quoteLines, unit.commentLines⟩
  else if hasFileHeader unit.quoteLines = true ∨ extractFileHeader dropped.quoteLines = [] then unit
  else ⟨extractFileHeader dropped.quoteLines ++ [] :: unit.quoteLines, unit.commentLines⟩

def CommentUnit.attach (dropped : CommentUnit) : List CommentUnit → List CommentUnit
  | [] => []
  | unit :: units => dropped.takeOver unit :: units

namespace CommentUnit

variable {dropped unit : CommentUnit}

@[simp] theorem takeOver_commentLines :
    (dropped.takeOver unit).commentLines = unit.commentLines := by
  unfold takeOver
  split_ifs <;> rfl

theorem attach_commentLines :
    (dropped.attach units).map commentLines = units.map commentLines := by
  cases units with
  | nil => rfl
  | cons unit units => rw [attach, List.map_cons, takeOver_commentLines, List.map_cons]

theorem mem_takeOver_quoteLines (h : line ∈ (dropped.takeOver unit).quoteLines) :
    line = [] ∨ line ∈ dropped.quoteLines ∨ line ∈ unit.quoteLines := by
  unfold takeOver at h
  split_ifs at h with hshared hkeep
  · exact Or.inr (Or.inl h)
  · exact Or.inr (Or.inr h)
  · rcases List.mem_append.mp h with h | h
    · exact Or.inr (Or.inl (extractFileHeader_sublist.subset h))
    · exact (List.mem_cons.mp h).imp id Or.inr

end CommentUnit

/-- A header extracted from one hunk, above another hunk. -/
theorem Quotes.merge {above below : List Chars} (habove : Quotes above) (hbelow : Quotes below)
    (hne : below ≠ []) (hheader : extractFileHeader above ≠ [])
    (hnone : hasFileHeader below = false) : Quotes (extractFileHeader above ++ [] :: below) where
  quoted := by
    intro l hl
    rcases List.mem_append.mp hl with hl | hl
    · exact habove.quoted l (extractFileHeader_sublist.subset hl)
    · rcases List.mem_cons.mp hl with rfl | hl
      · exact Or.inr rfl
      · exact hbelow.quoted l hl
  first := by
    intro l hl
    rw [List.head?_append_of_ne_nil _ hheader] at hl
    exact not_isBlank_of_startsFileHeader (head_extractFileHeader hl)
  last := by
    intro l hl
    rw [List.getLast?_append_of_ne_nil _ (List.cons_ne_nil _ _), List.getLast?_cons_of_ne_nil hne]
      at hl
    exact hbelow.last l hl
  oneFile := by
    intro l hl
    rw [List.tail_append_of_ne_nil hheader] at hl
    rcases List.mem_append.mp hl with hl | hl
    · exact habove.oneFile l (extractFileHeader_sublist.tail.subset hl)
    · rcases List.mem_cons.mp hl with rfl | hl
      · rfl
      · rw [Bool.eq_false_iff]
        intro hfile
        have hstarts := startsFileHeader_of_isFileHeaderLine hfile
        rw [hasFileHeader, List.any_eq_false] at hnone
        exact hnone l hl hstarts

namespace CommentUnit

variable {dropped unit : CommentUnit}

theorem WellBuilt.takeOver (hdropped : dropped.WellBuilt) (hunit : unit.WellBuilt) :
    (dropped.takeOver unit).WellBuilt where
  quotes := by
    unfold CommentUnit.takeOver
    split_ifs with hshared hkeep
    · exact hdropped.quotes
    · exact hunit.quotes
    · rw [not_or] at hkeep
      exact hdropped.quotes.merge hunit.quotes hshared hkeep.2 (by simpa using hkeep.1)
  comments := by
    rw [takeOver_commentLines]
    exact hunit.comments
  lines := by
    intro l hl
    rw [List.mem_append, takeOver_commentLines] at hl
    rcases hl with hl | hl
    · rcases mem_takeOver_quoteLines hl with rfl | hl | hl
      · exact ⟨by simp, by simp⟩
      · exact hdropped.lines l (List.mem_append_left _ hl)
      · exact hunit.lines l (List.mem_append_left _ hl)
    · exact hunit.lines l (List.mem_append_right _ hl)

theorem WellBuilt.attach (hdropped : dropped.WellBuilt) (hunits : ∀ u ∈ units, u.WellBuilt) :
    ∀ u ∈ dropped.attach units, u.WellBuilt := by
  cases units with
  | nil => exact fun u hu => absurd hu List.not_mem_nil
  | cons unit units =>
    intro u hu
    rcases List.mem_cons.mp hu with rfl | hu
    · exact hdropped.takeOver (hunits unit List.mem_cons_self)
    · exact hunits u (List.mem_cons_of_mem _ hu)

end CommentUnit

/-! ### One pass over the units -/

section Pass

variable {placeholder : Chars}

theorem dropWhile_quoteLines (h : Quotes quote) : quote.dropWhile isBlank = quote := by
  cases quote with
  | nil => rfl
  | cons l quote => rw [List.dropWhile_cons_of_neg (by simp [h.first l rfl])]

theorem keepUnits_of_clean (h : ∀ u ∈ units, u.WellBuilt)
    (hclean : ∀ u ∈ units, unitMatches placeholder u.quoteLines u.commentLines = false) :
    keepUnits placeholder Carry.empty units = units := by
  induction units with
  | nil => rfl
  | cons unit units ih =>
    have hrest := ih (fun u hu => h u (List.mem_cons_of_mem _ hu))
      fun u hu => hclean u (List.mem_cons_of_mem _ hu)
    have hq := dropWhile_quoteLines (h unit List.mem_cons_self).quotes
    have hm := hclean unit List.mem_cons_self
    rw [keepUnits]
    simpa [hq, hm, Carry.empty] using hrest

theorem keepUnits_attach {dropped : CommentUnit} (h : ∀ u ∈ units, u.WellBuilt)
    (hclean : ∀ u ∈ units, unitMatches placeholder u.quoteLines u.commentLines = false) :
    keepUnits placeholder ⟨dropped.quoteLines, extractFileHeader dropped.quoteLines⟩ units =
      dropped.attach units := by
  cases units with
  | nil => rfl
  | cons unit units =>
    have hrest := keepUnits_of_clean (fun u hu => h u (List.mem_cons_of_mem _ hu))
      fun u hu => hclean u (List.mem_cons_of_mem _ hu)
    have hq := dropWhile_quoteLines (h unit List.mem_cons_self).quotes
    have hm := hclean unit List.mem_cons_self
    rw [keepUnits, CommentUnit.attach, CommentUnit.takeOver]
    simp only [hq, hm, hrest, Bool.false_eq_true, if_false]
    by_cases hshared : unit.quoteLines = []
    · by_cases hdropped : dropped.quoteLines = []
      · simp [hshared, hdropped, hasFileHeader, extractFileHeader, extractFrom]
      · simp [hshared, hdropped]
    · by_cases hheader : hasFileHeader unit.quoteLines = true
      · simp [hshared, hheader]
      · by_cases hextract : extractFileHeader dropped.quoteLines = []
        · simp [hshared, hheader, hextract]
        · simp [hshared, hheader, hextract]

/-- Where one unit matches, it goes, and the next one takes over what it needs. -/
theorem keepUnits_eq {pre post : List CommentUnit} {dropped : CommentUnit}
    (h : ∀ u ∈ pre ++ dropped :: post, u.WellBuilt)
    (hdropped : unitMatches placeholder dropped.quoteLines dropped.commentLines = true)
    (hclean : ∀ u ∈ pre ++ post, unitMatches placeholder u.quoteLines u.commentLines = false) :
    keepUnits placeholder Carry.empty (pre ++ dropped :: post) = pre ++ dropped.attach post := by
  induction pre with
  | nil =>
    have hq := dropWhile_quoteLines (h dropped List.mem_cons_self).quotes
    have hrest : keepUnits placeholder
        ⟨dropped.quoteLines, extractFileHeader dropped.quoteLines⟩ post = dropped.attach post :=
      keepUnits_attach (fun u hu => h u (List.mem_cons_of_mem _ hu)) hclean
    rw [List.nil_append, List.nil_append, keepUnits]
    simp only [hq, hdropped, if_true]
    by_cases hnil : dropped.quoteLines = []
    · rw [hnil] at hrest
      simp only [hnil, ne_eq, not_true, if_false]
      exact hrest
    · by_cases hextract : extractFileHeader dropped.quoteLines = []
      · rw [if_pos hnil, ← hrest]
        simp [hextract, Carry.empty]
      · rw [if_pos hnil, ← hrest]
        simp [hextract]
  | cons unit pre ih =>
    have hrest := ih (fun u hu => h u (List.mem_cons_of_mem _ hu))
      fun u hu => hclean u (List.mem_cons_of_mem _ hu)
    have hq := dropWhile_quoteLines (h unit List.mem_cons_self).quotes
    have hm := hclean unit List.mem_cons_self
    rw [List.cons_append, keepUnits]
    simpa [hq, hm, Carry.empty] using hrest

end Pass

/-! ### The text that is written back -/

section Writing

variable {header footnotes : List Chars}

/-- The lines of the units, a blank line between two parts. -/
def unitParts (units : List CommentUnit) : List (List Chars) :=
  (units.flatMap fun u => [u.quoteLines, u.commentLines]).filter (· ≠ [])

def gapBy (lines : List Chars) : List Chars := if lines = [] then [] else [[]]

theorem isGap_gapBy : IsGap (gapBy lines) := by
  unfold gapBy
  split_ifs
  · exact fun l hl => absurd hl List.not_mem_nil
  · intro l hl
    rw [List.mem_singleton.mp hl]
    exact ⟨⟨List.not_mem_nil, by simp⟩, rfl⟩

theorem gapBy_of_ne_nil (h : lines ≠ []) : gapBy lines = [[]] := if_neg h

theorem intercalate_filter_cons {parts : List (List Chars)}
    (h : parts.filter (· ≠ []) ≠ []) (lines : List Chars) :
    [[]].intercalate ((lines :: parts).filter (· ≠ [])) =
      lines ++ gapBy lines ++ [[]].intercalate (parts.filter (· ≠ [])) := by
  by_cases hnil : lines = []
  · rw [hnil, List.filter_cons_of_neg (by simp), gapBy, if_pos rfl]
    rfl
  · rw [List.filter_cons_of_pos (by simpa using hnil), List.intercalate_cons_of_ne_nil h,
      gapBy_of_ne_nil hnil]

theorem intercalate_append_footnotes {parts : List (List Chars)} (h : parts ≠ []) :
    [[]].intercalate (parts ++ [footnotes].filter (· ≠ [])) =
      [[]].intercalate parts ++ gapBy footnotes ++ footnotes := by
  by_cases hnil : footnotes = []
  · rw [hnil, List.filter_cons_of_neg (by simp), gapBy, if_pos rfl]
    simp
  · rw [List.filter_cons_of_pos (by simpa using hnil), List.filter_nil,
      intercalate_append _ h (List.cons_ne_nil _ _), gapBy_of_ne_nil hnil,
      List.intercalate_singleton]

theorem unitParts_cons (unit : CommentUnit) (units : List CommentUnit) :
    unitParts (unit :: units) =
      (unit.quoteLines :: unit.commentLines :: unitParts units).filter (· ≠ []) := by
  simp [unitParts, List.flatMap_cons, List.filter_cons]

theorem filter_unitParts (units : List CommentUnit) :
    (unitParts units).filter (· ≠ []) = unitParts units :=
  List.filter_eq_self.mpr fun _ hl => (List.mem_filter.mp hl).2

theorem Comments.ne_nil (h : Comments lines) : lines ≠ [] := by
  obtain ⟨severity, prose, rfl, -⟩ := h.opens
  exact List.cons_ne_nil _ _

theorem unitParts_ne_nil {unit : CommentUnit} (h : unit.WellBuilt) (units : List CommentUnit) :
    unitParts (unit :: units) ≠ [] := by
  have hmem : unit.commentLines ∈ unitParts (unit :: units) := by
    rw [unitParts, List.flatMap_cons, List.mem_filter]
    exact ⟨by simp, by simpa using h.comments.ne_nil⟩
  exact List.ne_nil_of_mem hmem

theorem laidOut_unitParts (hne : units ≠ []) (h : ∀ u ∈ units, u.WellBuilt) :
    LaidOut units ([[]].intercalate (unitParts units)) := by
  induction units with
  | nil => exact absurd rfl hne
  | cons unit units ih =>
    have hcomment := (h unit List.mem_cons_self).comments.ne_nil
    have hshared : unit.quoteLines = [] → gapBy unit.quoteLines = [] := fun hq => if_pos hq
    rw [unitParts_cons]
    have hfilter : (unit.commentLines :: unitParts units).filter (· ≠ []) ≠ [] := by
      rw [List.filter_cons_of_pos (by simpa using hcomment)]
      exact List.cons_ne_nil _ _
    rw [intercalate_filter_cons hfilter]
    cases units with
    | nil =>
      have hlast : [[]].intercalate ([unit.commentLines].filter (· ≠ [])) = unit.commentLines := by
        rw [List.filter_cons_of_pos (by simpa using hcomment), List.filter_nil,
          List.intercalate_singleton]
      have hnil : unitParts [] = [] := rfl
      rw [hnil, hlast]
      exact LaidOut.last unit isGap_gapBy hshared
    | cons next units =>
      have hnext := unitParts_ne_nil (h next (by simp)) units
      rw [intercalate_filter_cons (by rwa [filter_unitParts]), filter_unitParts,
        ← List.append_assoc, ← List.append_assoc]
      exact LaidOut.cons unit isGap_gapBy hshared isGap_gapBy
        (ih (List.cons_ne_nil _ _) fun u hu => h u (List.mem_cons_of_mem _ hu))

theorem inlineText_eq_joinLines (header : List Chars) (units : List CommentUnit)
    (footnotes : List Chars) :
    inlineText header units footnotes = joinLinesWith ([[]].intercalate
      ((header :: (unitParts units ++ [footnotes].filter (· ≠ []))).filter (· ≠ []))) := by
  have hparts : (header :: (unitParts units ++ [footnotes].filter (· ≠ []))).filter (· ≠ []) =
      (header :: units.flatMap (fun u => [u.quoteLines, u.commentLines]) ++ [footnotes]).filter
        (· ≠ []) := by
    have hrest : (unitParts units ++ [footnotes].filter (· ≠ [])).filter (· ≠ []) =
        (units.flatMap (fun u => [u.quoteLines, u.commentLines]) ++ [footnotes]).filter
          (· ≠ []) := by
      rw [List.filter_append, filter_unitParts, List.filter_filter, List.filter_append, unitParts]
      simp only [Bool.and_self]
    rw [List.cons_append, ← List.singleton_append, List.filter_append, hrest, ← List.filter_append,
      List.singleton_append]
  rw [hparts, inlineText,
    intercalate_joinLines fun b hb => by simpa using (List.mem_filter.mp hb).2]

/-- What is written back is built from the same header and footnotes. -/
theorem builds_inlineText {r : ReviewParts} (hr : r.WellBuilt) (hne : r.units ≠ []) :
    r.Builds (inlineText r.header r.units r.footnotes) := by
  obtain ⟨unit, units, hunits⟩ := List.exists_cons_of_ne_nil hne
  have hparts : unitParts r.units ≠ [] := by
    rw [hunits]
    exact unitParts_ne_nil (hr.units unit (by rw [hunits]; exact List.mem_cons_self)) units
  have hall : (unitParts r.units ++ [r.footnotes].filter (· ≠ [])).filter (· ≠ []) =
      unitParts r.units ++ [r.footnotes].filter (· ≠ []) := by
    rw [List.filter_append, filter_unitParts, List.filter_filter]
    simp
  have hlines : [[]].intercalate
      ((r.header :: (unitParts r.units ++ [r.footnotes].filter (· ≠ []))).filter (· ≠ [])) =
        r.header ++ gapBy r.header ++ [[]].intercalate (unitParts r.units) ++
          gapBy r.footnotes ++ r.footnotes ++ [] := by
    rw [intercalate_filter_cons (by rw [hall]; exact List.append_ne_nil_of_left_ne_nil hparts _),
      hall, intercalate_append_footnotes hparts]
    simp only [List.append_assoc, List.append_nil]
  exact ⟨hr, gapBy r.header, [[]].intercalate (unitParts r.units), gapBy r.footnotes, [],
    isGap_gapBy, laidOut_unitParts hne hr.units, isGap_gapBy,
    fun l hl => absurd hl List.not_mem_nil, by rw [inlineText_eq_joinLines, hlines]⟩

end Writing

/-! ### One pass over the text -/

theorem LaidOut.mem_of_mem_commentLines {units : List CommentUnit} {lines : List Chars}
    (h : LaidOut units lines) {unit : CommentUnit} (hunit : unit ∈ units) {l : Chars}
    (hl : l ∈ unit.commentLines) : l ∈ lines := by
  induction h with
  | last u _ _ =>
    rw [List.mem_singleton.mp hunit] at hl
    exact List.mem_append_right _ hl
  | cons u _ _ _ _ ih =>
    rcases List.mem_cons.mp hunit with rfl | hunit
    · simp [hl]
    · exact List.mem_append_right _ (ih hunit)

namespace ReviewParts

variable {r : ReviewParts} {text placeholder : Chars}

theorem Builds.contains (h : r.Builds text) {unit : CommentUnit} (hunit : unit ∈ r.units)
    {l : Chars} (hl : l ∈ unit.commentLines) (hin : placeholder <:+: l) :
    containsChars text placeholder = true := by
  obtain ⟨-, gap, lines, gap', trailing, -, hlaid, -, -, rfl⟩ := h
  refine containsChars_iff.mpr (hin.trans (infix_joinLines ?_))
  have hmem := hlaid.mem_of_mem_commentLines hunit hl
  simp [hmem]

/-- Taking out the one unit that matches: the text is written back with what is left. -/
theorem Builds.remove (h : r.Builds text) {pre post : List CommentUnit} {dropped : CommentUnit}
    (hunits : r.units = pre ++ dropped :: post) {l : Chars} (hl : l ∈ dropped.commentLines)
    (hin : placeholder <:+: l)
    (hclean : ∀ u ∈ pre ++ post, unitMatches placeholder u.quoteLines u.commentLines = false) :
    removeInlineCommentWithPlaceholder text placeholder =
      if pre ++ dropped.attach post = [] then noIssuesFound
      else inlineText r.header (pre ++ dropped.attach post) r.footnotes := by
  have hmem : dropped ∈ r.units := by rw [hunits]; simp
  have hmatch : unitMatches placeholder dropped.quoteLines dropped.commentLines = true :=
    Bool.or_eq_true_iff.mpr (Or.inl (List.any_eq_true.mpr ⟨l, hl, containsChars_iff.mpr hin⟩))
  have hcontains := h.contains hmem hl hin
  obtain ⟨gap, lines, nextRef, hgap, hlaid, hsplit⟩ := h.split
  have hr := h.1
  have hread : linesOf (joinLinesWith (r.header ++ gap ++ lines)) = r.header ++ gap ++ lines := by
    obtain ⟨front, last, hlines, hlast, -⟩ := hlaid.closes hr.units
    have hclean : ∀ x ∈ r.header ++ gap ++ lines, IsLine x := by
      simp only [List.mem_append]
      rintro x ((hx | hx) | hx)
      · exact (hr.header x hx).1
      · exact (hgap x hx).1
      · exact hlaid.isLine hr.units x hx
    rw [hlines, ← List.append_assoc] at hclean ⊢
    exact linesOf_joinLines hclean hlast.ne_nil
  have hkeep : keepUnits placeholder Carry.empty (commentUnits lines) =
      pre ++ dropped.attach post := by
    rw [hlaid.commentUnits hr.units, hunits]
    exact keepUnits_eq (fun u hu => hr.units u (by rwa [hunits])) hmatch hclean
  simp only [removeInlineCommentWithPlaceholder, hcontains, hsplit, hread, hr.findIdx? hgap hlaid,
    Bool.not_true, Bool.false_eq_true, if_false, List.take_left, List.drop_left, hkeep,
    hr.popBlank_header hgap]

end ReviewParts

end Sashiko
