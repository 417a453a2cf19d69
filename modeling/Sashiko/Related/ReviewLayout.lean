import Sashiko.Related.InlineReview

/-! How an inline review is laid out: a header, comments under the hunks they quote, footnotes, and
blank lines between them. What the code reads back from such a text. -/

namespace Sashiko

variable {line : Chars} {lines gap : List Chars} {unit : CommentUnit} {units : List CommentUnit}

/-! ### Kinds of lines -/

theorem not_isBlank_of_endsVisibly (h : EndsVisibly line) : isBlank line = false := by
  obtain ⟨c, hc, hspace⟩ := h
  rw [Bool.eq_false_iff]
  intro hblank
  rw [isBlank_iff.mp hblank c (List.mem_of_getLast? hc)] at hspace
  cases hspace

theorem trimChars_of_isBlank (h : isBlank line = true) : trimChars line = [] :=
  List.isEmpty_iff.mp h

theorem isQuoteOrSnip_of_isBlank (h : isBlank line = true) : isQuoteOrSnip line = false := by
  rw [isQuoteOrSnip, trimChars_of_isBlank h]
  decide

theorem isSeverityLine_of_isBlank (h : isBlank line = true) : isSeverityLine line = false := by
  rw [isSeverityLine, trimChars_of_isBlank h]
  decide

theorem isQuoteOrSnip_of_isSeverityLine (h : isSeverityLine line = true) :
    isQuoteOrSnip line = false := by
  rw [isSeverityLine, Bool.and_eq_true, List.isPrefixOf_iff_prefix] at h
  obtain ⟨rest, hrest⟩ := h.1
  rw [isQuoteOrSnip, ← hrest]
  simp

theorem not_isBlank_of_isSeverityLine (h : isSeverityLine line = true) : isBlank line = false := by
  rw [Bool.eq_false_iff]
  intro hblank
  rw [isSeverityLine_of_isBlank hblank] at h
  cases h

theorem not_isBlank_of_isQuoteOrSnip (h : isQuoteOrSnip line = true) : isBlank line = false := by
  rw [Bool.eq_false_iff]
  intro hblank
  rw [isQuoteOrSnip_of_isBlank hblank] at h
  cases h

theorem popBlank_append (h : ∀ l ∈ gap, isBlank l = true) :
    popBlank (lines ++ gap) = popBlank lines := by
  induction gap using List.reverseRecOn with
  | nil => rw [List.append_nil]
  | append_singleton gap l ih =>
    rw [popBlank, ← List.append_assoc, List.rdropWhile_concat_pos _ _ _ (h l (by simp))]
    exact ih fun l' hl' => h l' (by simp [hl'])

theorem popBlank_eq_self (h : ∀ l, lines.getLast? = some l → isBlank l = false) :
    popBlank lines = lines := by
  refine List.rdropWhile_eq_self_iff.mpr fun hne => ?_
  rw [h _ (List.getLast?_eq_some_getLast hne)]
  exact Bool.false_ne_true

/-! ### The parts of a review -/

/-- A quoted file header. A line inside a quoted hunk has its marker behind the quote, so it reads
otherwise. -/
def isFileHeaderLine (line : Chars) : Bool := "> diff --git ".toList.isPrefixOf line

/-- The lines quoted above a comment: none where it shares the hunk of the comment before it, else
a hunk of one file, with the file's header or without it. -/
structure Quotes (quote : List Chars) : Prop where
  quoted : ∀ l ∈ quote, isQuoteOrSnip l = true ∨ isBlank l = true
  first : ∀ l, quote.head? = some l → isBlank l = false
  last : ∀ l, quote.getLast? = some l → isBlank l = false
  oneFile : ∀ l ∈ quote.tail, isFileHeaderLine l = false

/-- A severity line and prose. The prose ends in a line that is not blank, does not end in white
space and would not be taken for a footnote. -/
structure Comments (comment : List Chars) : Prop where
  opens : ∃ severity prose, comment = severity :: prose ∧ isSeverityLine severity = true ∧
    ∀ l ∈ prose, isQuoteOrSnip l = false ∧ isSeverityLine l = false
  closes : ∃ front last, comment = front ++ [last] ∧ EndsVisibly last ∧
    parseFootnoteDefinitionLine last = none

namespace CommentUnit

structure WellBuilt (unit : CommentUnit) : Prop where
  quotes : Quotes unit.quoteLines
  comments : Comments unit.commentLines
  lines : ∀ l ∈ unit.quoteLines ++ unit.commentLines, IsLine l

end CommentUnit

structure ReviewParts where
  header : List Chars
  units : List CommentUnit
  footnotes : List Chars
  deriving DecidableEq, Repr

namespace ReviewParts

structure WellBuilt (r : ReviewParts) : Prop where
  header : ∀ l ∈ r.header, IsLine l ∧ isQuoteOrSnip l = false ∧ isSeverityLine l = false
  headerEnd : ∀ l, r.header.getLast? = some l → isBlank l = false
  units : ∀ unit ∈ r.units, unit.WellBuilt
  footnotes : ∀ l ∈ r.footnotes,
    IsLine l ∧ trimChars l = l ∧ (parseFootnoteDefinitionLine l).isSome = true

end ReviewParts

/-- Blank lines. -/
def IsGap (gap : List Chars) : Prop := ∀ l ∈ gap, IsLine l ∧ isBlank l = true

theorem IsGap.blank (h : IsGap gap) : ∀ l ∈ gap, isBlank l = true := fun l hl => (h l hl).2

/-- The units in their order, with any blank lines between hunks and comments. -/
inductive LaidOut : List CommentUnit → List Chars → Prop
  | last (unit : CommentUnit) {gap : List Chars} (hgap : IsGap gap)
      (hshared : unit.quoteLines = [] → gap = []) :
      LaidOut [unit] (unit.quoteLines ++ gap ++ unit.commentLines)
  | cons (unit : CommentUnit) {gap below lines : List Chars} {units : List CommentUnit}
      (hgap : IsGap gap) (hshared : unit.quoteLines = [] → gap = []) (hbelow : IsGap below)
      (hrest : LaidOut units lines) :
      LaidOut (unit :: units) (unit.quoteLines ++ gap ++ unit.commentLines ++ below ++ lines)

/-- The text is built from these parts. -/
def ReviewParts.Builds (r : ReviewParts) (text : Chars) : Prop :=
  r.WellBuilt ∧ ∃ gap lines gap' trailing, IsGap gap ∧ LaidOut r.units lines ∧ IsGap gap' ∧
    IsGap trailing ∧
      text = joinLinesWith (r.header ++ gap ++ lines ++ gap' ++ r.footnotes ++ trailing)

/-! ### Reading the units -/

/-- The loop stands below a comment, with nothing but blank lines since. -/
structure UnitScan.Below (s : UnitScan) (done : List CommentUnit) (unit : CommentUnit) : Prop where
  units : s.units = done
  quote : s.curQuote = unit.quoteLines
  comment : ∃ gap, (∀ l ∈ gap, isBlank l = true) ∧ s.curComment = unit.commentLines ++ gap
  inComment : s.inComment = true

theorem scan_quotes {s : UnitScan} (hs : s.inComment = false)
    (h : ∀ l ∈ lines, isQuoteOrSnip l = true ∨ isBlank l = true) :
    lines.foldl scanLine s = { s with curQuote := s.curQuote ++ lines } := by
  induction lines generalizing s with
  | nil => rw [List.append_nil]; rfl
  | cons l lines ih =>
    have hl : (isQuoteOrSnip l || isBlank l) = true :=
      Bool.or_eq_true_iff.mpr (h l List.mem_cons_self)
    have hstep : scanLine s l = { s with curQuote := s.curQuote ++ [l] } := by
      simp [scanLine, hs, hl]
    rw [List.foldl_cons, hstep, ih (by exact hs) fun l' hl' => h l' (List.mem_cons_of_mem _ hl')]
    simp

theorem scan_prose {s : UnitScan} (hs : s.inComment = true)
    (h : ∀ l ∈ lines, isQuoteOrSnip l = false ∧ isSeverityLine l = false) :
    lines.foldl scanLine s = { s with curComment := s.curComment ++ lines } := by
  induction lines generalizing s with
  | nil => rw [List.append_nil]; rfl
  | cons l lines ih =>
    obtain ⟨hquote, hseverity⟩ := h l List.mem_cons_self
    have hstep : scanLine s l = { s with curComment := s.curComment ++ [l] } := by
      simp [scanLine, hs, hquote, hseverity]
    rw [List.foldl_cons, hstep, ih (by exact hs) fun l' hl' => h l' (List.mem_cons_of_mem _ hl')]
    simp

theorem quiet_of_isBlank (h : ∀ l ∈ gap, isBlank l = true) :
    ∀ l ∈ gap, isQuoteOrSnip l = false ∧ isSeverityLine l = false := fun l hl =>
  ⟨isQuoteOrSnip_of_isBlank (h l hl), isSeverityLine_of_isBlank (h l hl)⟩

theorem Comments.popBlank (h : Comments lines) (hgap : ∀ l ∈ gap, isBlank l = true) :
    popBlank (lines ++ gap) = lines := by
  rw [popBlank_append hgap]
  refine popBlank_eq_self fun l hl => ?_
  obtain ⟨front, last, rfl, hlast, -⟩ := h.closes
  rw [List.getLast?_concat] at hl
  exact Option.some.inj hl ▸ not_isBlank_of_endsVisibly hlast

namespace UnitScan.Below

variable {s : UnitScan} {done : List CommentUnit}

theorem blankLines (h : s.Below done unit) (hgap : ∀ l ∈ gap, isBlank l = true) :
    UnitScan.Below (gap.foldl scanLine s) done unit := by
  obtain ⟨above, habove, hcomment⟩ := h.comment
  rw [scan_prose h.inComment (quiet_of_isBlank hgap)]
  refine ⟨h.units, h.quote, ⟨above ++ gap, ?_, ?_⟩, h.inComment⟩
  · intro l hl
    exact (List.mem_append.mp hl).elim (habove l) (hgap l)
  · rw [hcomment, List.append_assoc]

theorem pushUnit (h : s.Below done unit) (hunit : Comments unit.commentLines) :
    s.pushUnit = ⟨done ++ [unit], [], [], true⟩ := by
  obtain ⟨gap, hgap, hcomment⟩ := h.comment
  rw [UnitScan.pushUnit, h.units, h.quote, hcomment, hunit.popBlank hgap, h.inComment]

theorem finish (h : s.Below done unit) (hunit : Comments unit.commentLines) :
    s.finish = done ++ [unit] := by
  have hne : s.curComment ≠ [] := by
    obtain ⟨gap, -, hcomment⟩ := h.comment
    obtain ⟨severity, prose, hopens, -⟩ := hunit.opens
    rw [hcomment, hopens]
    exact List.cons_ne_nil _ _
  rw [UnitScan.finish, if_pos hne, h.pushUnit hunit]

end UnitScan.Below

/-- From the lines quoted so far to the end of the comment. -/
theorem scan_toComment {s : UnitScan} (hs : s.inComment = false) (hcomment : s.curComment = [])
    (hunit : unit.WellBuilt) (hquote : s.curQuote ++ lines = unit.quoteLines) (hgap : IsGap gap) :
    UnitScan.Below ((lines ++ gap ++ unit.commentLines).foldl scanLine s) s.units unit := by
  obtain ⟨severity, prose, hopens, hseverity, hprose⟩ := hunit.comments.opens
  have hquoted : ∀ l ∈ lines ++ gap, isQuoteOrSnip l = true ∨ isBlank l = true := by
    intro l hl
    rcases List.mem_append.mp hl with hl | hl
    · exact hunit.quotes.quoted l (hquote ▸ List.mem_append_right _ hl)
    · exact Or.inr (hgap.blank l hl)
  have hpop : popBlank (s.curQuote ++ (lines ++ gap)) = unit.quoteLines := by
    rw [← List.append_assoc, hquote, popBlank_append hgap.blank,
      popBlank_eq_self hunit.quotes.last]
  have hstep : scanLine { s with curQuote := s.curQuote ++ (lines ++ gap) } severity =
      { s with curQuote := unit.quoteLines, inComment := true, curComment := [severity] } := by
    simp [scanLine, hs, hcomment, isQuoteOrSnip_of_isSeverityLine hseverity,
      not_isBlank_of_isSeverityLine hseverity, hpop]
  rw [List.foldl_append, scan_quotes hs hquoted, hopens, List.foldl_cons, hstep,
    scan_prose rfl hprose]
  exact ⟨rfl, rfl, ⟨[], by simp, by rw [hopens, List.append_nil]; rfl⟩, rfl⟩

theorem scan_nextUnit {s : UnitScan} {done : List CommentUnit} {above : CommentUnit}
    (h : s.Below done above) (habove : Comments above.commentLines) (hunit : unit.WellBuilt)
    (hgap : IsGap gap) (hshared : unit.quoteLines = [] → gap = []) :
    UnitScan.Below ((unit.quoteLines ++ gap ++ unit.commentLines).foldl scanLine s)
      (done ++ [above]) unit := by
  cases hq : unit.quoteLines with
  | nil =>
    obtain ⟨severity, prose, hopens, hseverity, hprose⟩ := hunit.comments.opens
    have hstep : scanLine s severity = ⟨done ++ [above], [], [severity], true⟩ := by
      simp [scanLine, h.inComment, isQuoteOrSnip_of_isSeverityLine hseverity, hseverity,
        h.pushUnit habove]
    rw [hshared hq, hopens, List.append_nil, List.nil_append, List.foldl_cons, hstep,
      scan_prose rfl hprose]
    exact ⟨rfl, hq.symm, ⟨[], by simp, by rw [hopens, List.append_nil]; rfl⟩, rfl⟩
  | cons l quote =>
    have hl : isQuoteOrSnip l = true := by
      refine (hunit.quotes.quoted l (hq ▸ List.mem_cons_self)).resolve_right ?_
      rw [hunit.quotes.first l (by rw [hq]; rfl)]
      exact Bool.false_ne_true
    have hstep : scanLine s l = ⟨done ++ [above], [l], [], false⟩ := by
      simp [scanLine, h.inComment, hl, h.pushUnit habove]
    rw [List.cons_append, List.cons_append, List.foldl_cons, hstep]
    exact scan_toComment rfl rfl hunit (by rw [hq]; rfl) hgap

theorem LaidOut.finish_below (h : LaidOut units lines) {s : UnitScan} {done : List CommentUnit}
    {above : CommentUnit} (hs : s.Below done above) (habove : Comments above.commentLines)
    (hunits : ∀ unit ∈ units, unit.WellBuilt) :
    (lines.foldl scanLine s).finish = done ++ above :: units := by
  induction h generalizing s done above with
  | last unit hgap hshared =>
    have hunit := hunits unit List.mem_cons_self
    rw [(scan_nextUnit hs habove hunit hgap hshared).finish hunit.comments, List.append_assoc]
    rfl
  | cons unit hgap hshared hbelow _ ih =>
    have hunit := hunits unit List.mem_cons_self
    have hnext := (scan_nextUnit hs habove hunit hgap hshared).blankLines hbelow.blank
    rw [← List.foldl_append] at hnext
    rw [List.foldl_append, ih hnext hunit.comments fun u hu => hunits u (List.mem_cons_of_mem _ hu),
      List.append_assoc]
    rfl

/-- The units of the layout are the units the loop collects. -/
theorem LaidOut.commentUnits (h : LaidOut units lines)
    (hunits : ∀ unit ∈ units, unit.WellBuilt) : commentUnits lines = units := by
  cases h with
  | last unit hgap hshared =>
    have hunit := hunits unit List.mem_cons_self
    exact (scan_toComment (s := UnitScan.init) rfl rfl hunit rfl hgap).finish hunit.comments
  | cons unit hgap hshared hbelow hrest =>
    have hunit := hunits unit List.mem_cons_self
    have hcomment := scan_toComment (s := UnitScan.init) rfl rfl hunit rfl hgap
    have hfirst := hcomment.blankLines hbelow.blank
    rw [← List.foldl_append] at hfirst
    rw [Sashiko.commentUnits, List.foldl_append,
      hrest.finish_below hfirst hunit.comments fun u hu => hunits u (List.mem_cons_of_mem _ hu)]
    rfl

/-! ### Reading the parts -/

theorem LaidOut.isLine (h : LaidOut units lines) (hunits : ∀ unit ∈ units, unit.WellBuilt) :
    ∀ l ∈ lines, IsLine l := by
  induction h with
  | last unit hgap _ =>
    intro l hl
    have hunit := (hunits unit List.mem_cons_self).lines l
    simp only [List.mem_append] at hl hunit
    rcases hl with (hl | hl) | hl
    · exact hunit (Or.inl hl)
    · exact (hgap l hl).1
    · exact hunit (Or.inr hl)
  | cons unit hgap _ hbelow _ ih =>
    intro l hl
    have hunit := (hunits unit List.mem_cons_self).lines l
    simp only [List.mem_append] at hl hunit
    rcases hl with (((hl | hl) | hl) | hl) | hl
    · exact hunit (Or.inl hl)
    · exact (hgap l hl).1
    · exact hunit (Or.inr hl)
    · exact (hbelow l hl).1
    · exact ih (fun u hu => hunits u (List.mem_cons_of_mem _ hu)) l hl

theorem LaidOut.closes (h : LaidOut units lines) (hunits : ∀ unit ∈ units, unit.WellBuilt) :
    ∃ front last, lines = front ++ [last] ∧ EndsVisibly last ∧
      parseFootnoteDefinitionLine last = none := by
  induction h with
  | @last unit gap _ _ =>
    obtain ⟨front, last, hcomment, hclose⟩ := (hunits unit List.mem_cons_self).comments.closes
    exact ⟨unit.quoteLines ++ gap ++ front, last, by rw [hcomment, List.append_assoc _ front],
      hclose⟩
  | @cons unit gap below lines _ _ _ _ _ ih =>
    obtain ⟨front, last, hlines, hclose⟩ := ih fun u hu => hunits u (List.mem_cons_of_mem _ hu)
    exact ⟨unit.quoteLines ++ gap ++ unit.commentLines ++ below ++ front, last,
      by rw [hlines, List.append_assoc _ front], hclose⟩

theorem CommentUnit.WellBuilt.opens (h : unit.WellBuilt) (hshared : unit.quoteLines = [] → gap = [])
    (rest : List Chars) :
    ∃ l after, unit.quoteLines ++ gap ++ unit.commentLines ++ rest = l :: after ∧
      (isQuoteOrSnip l || isSeverityLine l) = true := by
  cases hq : unit.quoteLines with
  | nil =>
    obtain ⟨severity, prose, hopens, hseverity, -⟩ := h.comments.opens
    exact ⟨severity, prose ++ rest, by rw [hshared hq, hopens]; rfl,
      by rw [hseverity, Bool.or_true]⟩
  | cons l quote =>
    have hl : isQuoteOrSnip l = true := by
      refine (h.quotes.quoted l (hq ▸ List.mem_cons_self)).resolve_right ?_
      rw [h.quotes.first l (by rw [hq]; rfl)]
      exact Bool.false_ne_true
    exact ⟨l, _, rfl, by rw [hl, Bool.true_or]⟩

theorem LaidOut.opens (h : LaidOut units lines) (hunits : ∀ unit ∈ units, unit.WellBuilt) :
    ∃ l rest, lines = l :: rest ∧ (isQuoteOrSnip l || isSeverityLine l) = true := by
  cases h with
  | last unit _ hshared =>
    obtain ⟨l, rest, hlines, hl⟩ := (hunits unit List.mem_cons_self).opens hshared []
    exact ⟨l, rest, by rw [← hlines, List.append_nil], hl⟩
  | cons unit _ hshared _ _ =>
    obtain ⟨l, rest, hlines, hl⟩ := (hunits unit List.mem_cons_self).opens hshared _
    exact ⟨l, rest, by rw [← hlines, List.append_assoc], hl⟩

theorem scanFootnotes_definitions {footnotes : List Chars} (above : List Chars) (acc : FootnoteScan)
    (h : ∀ l ∈ footnotes, isBlank l = false ∧ trimChars l = l ∧
      (parseFootnoteDefinitionLine l).isSome = true) :
    ∃ start maxRef, scanFootnotes (footnotes.reverse ++ above) acc =
        scanFootnotes above ⟨footnotes ++ acc.footnotes, start, maxRef⟩ ∧
      (footnotes = [] → start = acc.footnoteStart) ∧ (footnotes ≠ [] → start = above.length) := by
  induction footnotes using List.reverseRecOn generalizing acc with
  | nil => exact ⟨acc.footnoteStart, acc.maxRef, rfl, fun _ => rfl, fun h => absurd rfl h⟩
  | append_singleton footnotes l ih =>
    obtain ⟨hblank, htrim, hsome⟩ := h l (by simp)
    obtain ⟨n, hn⟩ := Option.isSome_iff_exists.mp hsome
    obtain ⟨start, maxRef, hscan, hnil, hcons⟩ :=
      ih ⟨l :: acc.footnotes, (footnotes.reverse ++ above).length, max acc.maxRef n⟩
        fun l' hl' => h l' (by simp [hl'])
    refine ⟨start, maxRef, ?_, fun heq => absurd heq (by simp), fun _ => ?_⟩
    · rw [List.reverse_concat, List.cons_append, scanFootnotes, if_neg (by simp [hblank]), hn]
      simp only [htrim]
      rw [hscan, List.append_assoc, List.singleton_append]
    · by_cases hempty : footnotes = []
      · rw [hnil hempty, hempty]
        rfl
      · exact hcons hempty

theorem scanFootnotes_stop {acc : FootnoteScan} (hacc : acc.footnotes ≠ [])
    (hgap : ∀ l ∈ gap, isBlank l = true) (hblank : isBlank line = false)
    (hline : parseFootnoteDefinitionLine line = none) (above : List Chars) :
    scanFootnotes (gap ++ line :: above) acc = acc := by
  cases gap with
  | nil => rw [List.nil_append, scanFootnotes, if_neg (by simp [hblank]), hline]
  | cons l gap =>
    rw [List.cons_append, scanFootnotes, if_pos (hgap l List.mem_cons_self), if_pos hacc]

theorem IsGap.white (h : IsGap gap) : ∀ l ∈ gap, ∀ c ∈ l, isRustWhitespace c = true :=
  fun l hl => isBlank_iff.mp (h l hl).2

section Split

variable {above footnotes trailing : List Chars} {last : Chars}

theorem split_withoutFootnotes (hclean : ∀ l ∈ above ++ [last], IsLine l)
    (hlast : EndsVisibly last) (hparse : parseFootnoteDefinitionLine last = none)
    (hgap : ∀ l ∈ gap, ∀ c ∈ l, isRustWhitespace c = true) :
    splitInlineReviewFootnotes (joinLinesWith (above ++ [last] ++ gap)) =
      (joinLinesWith (above ++ [last]), [], 1) := by
  have hstop : ∀ acc, scanFootnotes (above ++ [last]).reverse acc = acc := by
    intro acc
    rw [List.reverse_concat, scanFootnotes, if_neg (by simp [not_isBlank_of_endsVisibly hlast]),
      hparse]
  simp only [splitInlineReviewFootnotes]
  rw [trimEnd_joinLines hlast hgap, if_neg (endsVisibly_joinLines hlast above).ne_nil,
    linesOf_joinLines hclean hlast.ne_nil, hstop, if_pos rfl]

theorem split_withFootnotes (hbody : ∀ l ∈ above ++ [last], IsLine l) (hlast : EndsVisibly last)
    (hparse : parseFootnoteDefinitionLine last = none) (hgap : IsGap gap)
    (hfootnotes : ∀ l ∈ footnotes, IsLine l ∧ EndsVisibly l ∧ trimChars l = l ∧
      (parseFootnoteDefinitionLine l).isSome = true)
    (hne : footnotes ≠ []) (htrailing : IsGap trailing) :
    ∃ nextRef, splitInlineReviewFootnotes
        (joinLinesWith (above ++ [last] ++ gap ++ footnotes ++ trailing)) =
      (joinLinesWith (above ++ [last]), footnotes, nextRef) := by
  obtain ⟨front, f, hfront⟩ : ∃ front f, footnotes = front ++ [f] :=
    ⟨_, _, (List.dropLast_append_getLast hne).symm⟩
  have hvisible : EndsVisibly f := (hfootnotes f (by simp [hfront])).2.1
  have hjoin : above ++ [last] ++ gap ++ footnotes = (above ++ [last] ++ gap ++ front) ++ [f] := by
    rw [hfront, List.append_assoc _ front]
  have hclean : ∀ l ∈ above ++ [last] ++ gap ++ footnotes, IsLine l := by
    intro l hl
    rcases List.mem_append.mp hl with hl | hl
    · exact (List.mem_append.mp hl).elim (hbody l) fun hl => (hgap l hl).1
    · exact (hfootnotes l hl).1
  have htrim : trimEnd (joinLinesWith (above ++ [last] ++ gap ++ footnotes ++ trailing)) =
      joinLinesWith (above ++ [last] ++ gap ++ footnotes) := by
    rw [hjoin]
    exact trimEnd_joinLines hvisible htrailing.white
  have hnonempty : joinLinesWith (above ++ [last] ++ gap ++ footnotes) ≠ [] := by
    rw [hjoin]
    exact (endsVisibly_joinLines hvisible _).ne_nil
  have hread : linesOf (joinLinesWith (above ++ [last] ++ gap ++ footnotes)) =
      above ++ [last] ++ gap ++ footnotes := by
    rw [hjoin] at hclean ⊢
    exact linesOf_joinLines hclean hvisible.ne_nil
  obtain ⟨start, maxRef, hscan, -, hstart⟩ := scanFootnotes_definitions
    (above ++ [last] ++ gap).reverse
    ⟨[], (above ++ [last] ++ gap ++ footnotes).length, 0⟩ fun l hl =>
      ⟨not_isBlank_of_endsVisibly (hfootnotes l hl).2.1, (hfootnotes l hl).2.2⟩
  have hstop : scanFootnotes (above ++ [last] ++ gap).reverse
      ⟨footnotes ++ [], start, maxRef⟩ = ⟨footnotes, start, maxRef⟩ := by
    rw [List.append_nil, List.reverse_append, List.reverse_concat]
    exact scanFootnotes_stop hne (fun l hl => hgap.blank l (List.mem_reverse.mp hl))
      (not_isBlank_of_endsVisibly hlast) hparse _
  have hbefore : trimEnd (((above ++ [last] ++ gap ++ footnotes).take start).flatMap
      (· ++ ['\n'])) = joinLinesWith (above ++ [last]) := by
    rw [hstart hne, List.length_reverse, List.take_left, joinLines_flatMap, List.append_assoc _ gap]
    refine trimEnd_joinLines hlast fun l hl => ?_
    rcases List.mem_append.mp hl with hl | hl
    · exact hgap.white l hl
    · rw [List.mem_singleton.mp hl]
      exact fun c hc => absurd hc List.not_mem_nil
  rw [hstop, ← List.reverse_append] at hscan
  refine ⟨maxRef + 1, ?_⟩
  simp only [splitInlineReviewFootnotes]
  rw [htrim, if_neg hnonempty, hread, hscan, if_neg hne,
    splitChars_joinLines (by simp) fun l hl => (hclean l hl).1, hbefore]

end Split

namespace ReviewParts

variable {r : ReviewParts} {text : Chars}

theorem WellBuilt.footnote_endsVisibly (h : r.WellBuilt) {l : Chars} (hl : l ∈ r.footnotes) :
    EndsVisibly l := by
  obtain ⟨-, htrim, hsome⟩ := h.footnotes l hl
  have hne : l ≠ [] := by
    rintro rfl
    cases hsome
  refine ⟨l.getLast hne, List.getLast?_eq_some_getLast hne, ?_⟩
  have hlast : ∀ h : trimChars l ≠ [], ¬isRustWhitespace ((trimChars l).getLast h) = true :=
    List.rdropWhile_last_not isRustWhitespace _
  simp only [htrim] at hlast
  simpa using hlast hne

/-- The body goes to its last comment, and the footnotes are the definitions. -/
theorem Builds.split (h : r.Builds text) :
    ∃ gap lines nextRef, IsGap gap ∧ LaidOut r.units lines ∧
      splitInlineReviewFootnotes text =
        (joinLinesWith (r.header ++ gap ++ lines), r.footnotes, nextRef) := by
  obtain ⟨hr, gap, lines, gap', trailing, hgap, hlaid, hgap', htrailing, rfl⟩ := h
  obtain ⟨front, last, hlines, hlast, hparse⟩ := hlaid.closes hr.units
  have hbody : r.header ++ gap ++ lines = (r.header ++ gap ++ front) ++ [last] := by
    rw [hlines, List.append_assoc _ front]
  have hclean : ∀ l ∈ r.header ++ gap ++ lines, IsLine l := by
    simp only [List.mem_append]
    rintro l ((hl | hl) | hl)
    · exact (hr.header l hl).1
    · exact (hgap l hl).1
    · exact hlaid.isLine hr.units l hl
  rw [hbody] at hclean ⊢
  by_cases hnil : r.footnotes = []
  · refine ⟨gap, lines, 1, hgap, hlaid, ?_⟩
    rw [hbody, hnil, List.append_nil, List.append_assoc _ gap']
    refine split_withoutFootnotes hclean hlast hparse fun l hl => ?_
    exact (List.mem_append.mp hl).elim (hgap'.white l) (htrailing.white l)
  · obtain ⟨nextRef, hsplit⟩ := split_withFootnotes hclean hlast hparse hgap'
      (fun l hl => ⟨(hr.footnotes l hl).1, hr.footnote_endsVisibly hl, (hr.footnotes l hl).2⟩)
      hnil htrailing
    exact ⟨gap, lines, nextRef, hgap, hlaid, by rw [hbody, hsplit]⟩

/-- The lines above the first unit are the header and the gap below it. -/
theorem WellBuilt.findIdx? (h : r.WellBuilt) (hgap : IsGap gap) (hlaid : LaidOut r.units lines) :
    (r.header ++ gap ++ lines).findIdx? (fun l => isQuoteOrSnip l || isSeverityLine l) =
      some (r.header ++ gap).length := by
  obtain ⟨l, rest, hlines, hl⟩ := hlaid.opens h.units
  have hquiet : ∀ x ∈ r.header ++ gap, (isQuoteOrSnip x || isSeverityLine x) = false := by
    intro x hx
    rw [Bool.or_eq_false_iff]
    rcases List.mem_append.mp hx with hx | hx
    · exact (h.header x hx).2
    · exact quiet_of_isBlank hgap.blank x hx
  rw [List.findIdx?_append, List.findIdx?_eq_none_iff.mpr hquiet, hlines, List.findIdx?_cons, hl]
  simp

theorem WellBuilt.popBlank_header (h : r.WellBuilt) (hgap : IsGap gap) :
    popBlank (r.header ++ gap) = r.header := by
  rw [popBlank_append hgap.blank, popBlank_eq_self h.headerEnd]

end ReviewParts

end Sashiko
