import Sashiko.Prior.QuoteRuns
import Sashiko.Prior.SpokenLines

/-! Trimmed quotes and the speaker's own words. A blank line that is trimmed away with a long quote
no longer stands between an `On …` line and an attribution line, which then takes it along. -/

namespace Sashiko

variable {line : String} {lines run part : List String} {kept : List (String × Bool)}

theorem isQuotedLine_rustTrim (h : isQuotedLine line = true) :
    isQuotedLine (rustTrim line) = true := by
  obtain ⟨rest, hrest⟩ : ['>'] <+: line.toList.dropWhile isRustWhitespace :=
    List.isPrefixOf_iff_prefix.mp h
  have hmem : '>' ∈ line.toList := by
    refine (List.dropWhile_suffix isRustWhitespace).subset ?_
    rw [← hrest]
    exact List.mem_cons_self
  obtain ⟨c, trimmed, hcons⟩ : ∃ c trimmed, trimChars line.toList = c :: trimmed :=
    List.exists_cons_of_ne_nil (List.ne_nil_of_mem (mem_trimChars hmem (by decide)))
  have hpre : c :: trimmed <+: '>' :: rest := by
    have hall : ['>'] ++ rest = '>' :: rest := rfl
    rw [← hcons, ← hall, hrest]
    exact List.rdropWhile_prefix _ _
  obtain rfl : c = '>' := (List.cons_prefix_cons.mp hpre).1
  rw [isQuotedLine, toList_rustTrim, hcons, List.dropWhile_cons_of_neg (by decide)]
  rfl

/-! ### What is trimmed away -/

/-- The lines of a run, each with whether it is trimmed away. -/
def markRun (run : List String) (hasReplyAfter : Bool) : List (String × Bool) :=
  if hasReplyAfter then
    if maxQuoteRunBeforeTrim < run.length then
      (run.take (run.length - keptQuoteLinesBeforeReply)).map (·, true) ++
        (run.drop (run.length - keptQuoteLinesBeforeReply)).map (·, false)
    else run.map (·, false)
  else if maxTrailingQuoteLines < run.length then
    (run.take keptTrailingQuoteLines).map (·, false) ++
      (run.drop keptTrailingQuoteLines).map (·, true)
  else run.map (·, false)

def markOmitted (lines : List String) : List (String × Bool) :=
  scanQuoteRuns (·, false) markRun 0 lines

/-- A blank line within the part of a quote run that is trimmed away. -/
def omittedBlank (line : String × Bool) : Bool := line.2 && isBlankText line.1

/-- The scan for own words, over lines marked as trimmed away or not. -/
def markedScan : LookBack (String × Bool) := ownScan.comap Prod.fst

/-- No attribution line stands behind an own `On …` line such that everything in between is
skipped, or trimmed away, or attribution lines with their own `On …` lines, one of it being a blank
line that is trimmed away. -/
def AttributionsUndisturbed (lines : List String) : Prop :=
  markedScan.Undisturbed omittedBlank (markOmitted lines)

def saysText (line : String) : Bool := !isBlankText line

theorem isBlankText_iff : isBlankText line = true ↔ rustTrim line = "" := decide_eq_true_iff

theorem markedScan_opens (line : String × Bool) :
    markedScan.opens line = startsWithText (asciiLower (rustTrim line.1)) "on " := by
  simp only [markedScan, LookBack.comap, ownScan]

theorem markedScan_closes (line : String × Bool) :
    markedScan.closes line = isReplyAttributionLine (rustTrim line.1) := by
  simp only [markedScan, LookBack.comap, ownScan]

theorem markedScan_skips (line : String × Bool) : markedScan.skips line =
    (isQuotedLine (rustTrim line.1) || isQuoteTrimMarker (rustTrim line.1)) := by
  simp only [markedScan, LookBack.comap, ownScan]

theorem isBlankText_of_omittedBlank {line : String × Bool} (h : omittedBlank line = true) :
    isBlankText line.1 = true := by
  rw [omittedBlank, Bool.and_eq_true] at h
  exact h.2

/-- A blank line neither opens nor closes. -/
theorem not_opens_of_isBlankText (h : isBlankText line = true) :
    startsWithText (asciiLower (rustTrim line)) "on " = false := by
  rw [isBlankText_iff.mp h]
  decide

theorem not_closes_of_isBlankText (h : isBlankText line = true) :
    isReplyAttributionLine (rustTrim line) = false := by
  rw [isBlankText_iff.mp h]
  decide

theorem leaves_markedScan :
    markedScan.Leaves (fun line => saysText line.1) omittedBlank where
  said_of_opens line hopens := by
    rw [markedScan_opens] at hopens
    by_contra hsaid
    have hblank : isBlankText line.1 = true := by simpa [saysText] using hsaid
    rw [not_opens_of_isBlankText hblank] at hopens
    cases hopens
  not_said line h := by rw [saysText, isBlankText_of_omittedBlank h, Bool.not_true]
  not_closes line h := by
    rw [markedScan_closes, not_closes_of_isBlankText (isBlankText_of_omittedBlank h)]

theorem map_fst_marked (part : List String) (omitted : Bool) :
    (part.map (·, omitted)).map Prod.fst = part := by
  rw [List.map_map]
  exact List.map_id'' (fun _ => rfl) part

theorem map_fst_markRun (run : List String) (hasReplyAfter : Bool) :
    (markRun run hasReplyAfter).map Prod.fst = run := by
  unfold markRun
  split_ifs <;> simp only [List.map_append, map_fst_marked, List.take_append_drop]

theorem map_fst_markOmitted (lines : List String) : (markOmitted lines).map Prod.fst = lines := by
  unfold markOmitted
  induction lines using quoteRuns_induction with
  | nil => rfl
  | line line rest hline ih => rw [scanQuoteRuns_line hline, List.map_cons, ih]
  | run run rest hrun hrest ih =>
    rw [scanQuoteRuns_run hrun hrest, List.map_append, map_fst_markRun, ih]

/-! ### The markers -/

/-- A marker: its first words, a count and its last words. -/
def IsMarker (marker : String) : Prop :=
  ∃ n words, marker.toList = "...[trimmed ".toList ++ (Nat.toDigits 10 n ++ words) ∧
    words.getLast? = some '.' ∧ '\n' ∉ words

theorem isMarker_quotedMarker (n : ℕ) : IsMarker (quotedMarker n) := by
  have hdigits : (toString n).toList = Nat.toDigits 10 n := Nat.toList_repr
  refine ⟨n, " quoted lines]...".toList, ?_, by decide, by decide⟩
  rw [quotedMarker, ← hdigits, ← List.append_assoc, ← String.toList_append, ← String.toList_append]
  rfl

theorem isMarker_trailingMarker (n : ℕ) : IsMarker (trailingMarker n) := by
  have hdigits : (toString n).toList = Nat.toDigits 10 n := Nat.toList_repr
  refine ⟨n, " trailing quoted lines]...".toList, ?_, by decide, by decide⟩
  rw [trailingMarker, ← hdigits, ← List.append_assoc, ← String.toList_append,
    ← String.toList_append]
  rfl

theorem IsMarker.skipped {marker : String} (h : IsMarker marker) :
    ownScan.skips marker = true := by
  obtain ⟨n, words, hlist, hlast, -⟩ := h
  have hne : words ≠ [] := fun hnil => by simp [hnil] at hlast
  have hend : marker.toList.getLast? = some '.' := by
    rw [hlist, LookBack.getLast?_append_ne_nil _ (by simp [hne]),
      LookBack.getLast?_append_ne_nil _ hne, hlast]
  have htrim : rustTrim marker = marker :=
    @rustTrim_eq_self marker '.' '.' _ hlist hend (by decide) (by decide)
  have hmarker : isQuoteTrimMarker marker = true := by
    rw [isQuoteTrimMarker, Bool.or_eq_true]
    left
    rw [startsWithText, hlist]
    exact List.isPrefixOf_iff_prefix.mpr (List.prefix_append _ _)
  rw [ownScan_skips, htrim, hmarker, Bool.or_true]

theorem IsMarker.newline_not_mem {marker : String} (h : IsMarker marker) :
    '\n' ∉ marker.toList := by
  obtain ⟨n, words, hlist, -, hwords⟩ := h
  have hdigits : '\n' ∉ Nat.toDigits 10 n := fun hmem => by
    have hdigit := Nat.isDigit_of_mem_toDigits (by omega) (by omega) hmem
    exact absurd hdigit (by decide)
  have hfirst : '\n' ∉ "...[trimmed ".toList := by decide
  rw [hlist, List.mem_append, List.mem_append, not_or, not_or]
  exact ⟨hfirst, hdigits, hwords⟩

/-! ### The trimmed lines read again -/

theorem foldl_kept_lines (part : List String) (kept : List (String × Bool)) :
    ((part.map (·, false)).foldl (markedScan.without omittedBlank).keep kept).map Prod.fst =
      part.foldl ownScan.keep (kept.map Prod.fst) := by
  induction part generalizing kept with
  | nil => rfl
  | cons line part ih =>
    have hstep : (markedScan.without omittedBlank).keep kept (line, false) =
        markedScan.keep kept (line, false) := LookBack.keep_without rfl kept
    have hmap : ownScan.keep (kept.map Prod.fst) line =
        (markedScan.keep kept (line, false)).map Prod.fst :=
      ownScan.keep_map Prod.fst kept (line, false)
    rw [List.map_cons, List.foldl_cons, hstep, ih, List.foldl_cons, hmap]

/-- The lines of a run that are trimmed away leave nothing. -/
theorem foldl_omitted_lines (h : ∀ line ∈ part, isQuotedLine line = true ∨ isBlankText line = true)
    (kept : List (String × Bool)) :
    (part.map (·, true)).foldl (markedScan.without omittedBlank).keep kept = kept := by
  induction part with
  | nil => rfl
  | cons line part ih =>
    obtain ⟨hline, hpart⟩ := List.forall_mem_cons.mp h
    have hskip : (markedScan.without omittedBlank).skips (line, true) = true := by
      rw [LookBack.without_skips, Bool.or_eq_true]
      rcases hline with hquoted | hblank
      · left
        rw [markedScan_skips, isQuotedLine_rustTrim hquoted, Bool.true_or]
      · right
        rw [omittedBlank, hblank, Bool.true_and]
    rw [List.map_cons, List.foldl_cons, LookBack.keep_skip hskip, ih hpart]

theorem foldl_appendTrimmedQuoteRun (hrun : QuoteRun run) (hasReplyAfter : Bool)
    (kept : List (String × Bool)) :
    ((markRun run hasReplyAfter).foldl (markedScan.without omittedBlank).keep kept).map Prod.fst =
      (appendTrimmedQuoteRun run hasReplyAfter).foldl ownScan.keep (kept.map Prod.fst) := by
  have hpart : ∀ part, part ⊆ run →
      ∀ line ∈ part, isQuotedLine line = true ∨ isBlankText line = true :=
    fun part hsub line hline => hrun.quoted_or_blank line (hsub hline)
  unfold markRun appendTrimmedQuoteRun
  split_ifs
  · rw [List.foldl_append, foldl_omitted_lines (hpart _ (List.take_subset _ _)), foldl_kept_lines,
      List.foldl_cons, LookBack.keep_skip (isMarker_quotedMarker _).skipped]
  · exact foldl_kept_lines run kept
  · rw [List.foldl_append, foldl_omitted_lines (hpart _ (List.drop_subset _ _)), foldl_kept_lines,
      List.foldl_append, List.foldl_cons, List.foldl_nil,
      LookBack.keep_skip (isMarker_trailingMarker _).skipped]
  · exact foldl_kept_lines run kept

/-- What is kept of the trimmed lines is what is kept of all lines once the blank ones that are
trimmed away are passed over. -/
theorem foldl_trimmedLines (lines : List String) (kept : List (String × Bool)) :
    ((markOmitted lines).foldl (markedScan.without omittedBlank).keep kept).map Prod.fst =
      (trimmedLines lines).foldl ownScan.keep (kept.map Prod.fst) := by
  unfold markOmitted trimmedLines
  induction lines using quoteRuns_induction generalizing kept with
  | nil => rfl
  | line line rest hline ih =>
    rw [scanQuoteRuns_line hline, scanQuoteRuns_line hline, List.foldl_cons, ih, List.foldl_cons]
    have hstep := foldl_kept_lines [line] kept
    simp only [List.map_cons, List.map_nil, List.foldl_cons, List.foldl_nil] at hstep
    rw [hstep]
  | run run rest hrun hrest ih =>
    rw [scanQuoteRuns_run hrun hrest, scanQuoteRuns_run hrun hrest, List.foldl_append, ih,
      foldl_appendTrimmedQuoteRun hrun, List.foldl_append]

theorem foldl_lines (lines : List String) :
    lines.foldl ownScan.keep [] = ((markOmitted lines).foldl markedScan.keep []).map Prod.fst := by
  have h := ownScan.foldl_keep_map Prod.fst (markOmitted lines) []
  rw [map_fst_markOmitted] at h
  exact h

/-! ### The speaker's own words -/

theorem saysSomething_toList (line : String) :
    saysSomething (dropReturns line.toList) = saysText line := by
  have hblank : (trimChars line.toList).isEmpty = isBlankText line := by
    rw [Bool.eq_iff_iff, List.isEmpty_iff, isBlankText_iff, ← toList_rustTrim]
    exact String.toList_eq_nil_iff
  rw [saysSomething, trimChars_dropReturns, hblank, saysText]

/-- What is said in lines, read off the scan over their texts. -/
theorem saidBy_ownChars (lines : List String) :
    saidBy ownChars (lines.map String.toList) =
      outerTrim (((lines.foldl ownScan.keep []).filter saysText).map
        fun line => dropReturns line.toList) := by
  have hcomap : ownChars.comap (fun line : String => dropReturns line.toList) = ownScan := by
    have htrim : ∀ line : String,
        rustTrim (String.ofList (dropReturns line.toList)) = rustTrim line := by
      intro line
      refine String.toList_injective ?_
      rw [toList_rustTrim, toList_rustTrim, String.toList_ofList, trimChars_dropReturns]
    simp only [LookBack.comap, ownChars, ownScan, htrim]
  have hmap := ownChars.foldl_keep_map (fun line : String => dropReturns line.toList) lines []
  rw [hcomap, List.map_nil] at hmap
  rw [saidBy, List.map_map]
  have hfun : dropReturns ∘ String.toList = fun line : String => dropReturns line.toList := rfl
  rw [hfun, hmap, List.filter_map]
  congr 2
  exact List.filter_congr fun line _ => saysSomething_toList line

theorem newline_not_mem_textLines {text : String} (h : line ∈ textLines text) :
    '\n' ∉ line.toList := by
  obtain ⟨chars, hchars, rfl⟩ := List.mem_map.mp h
  rw [String.toList_ofList]
  exact (mem_linesOf hchars).1

theorem newline_not_mem_trimmedLines (h : ∀ line ∈ lines, '\n' ∉ line.toList) :
    ∀ line ∈ trimmedLines lines, '\n' ∉ line.toList := by
  unfold trimmedLines
  induction lines using quoteRuns_induction with
  | nil => exact h
  | line first rest hfirst ih =>
    obtain ⟨hline, hrest⟩ := List.forall_mem_cons.mp h
    rw [scanQuoteRuns_line hfirst]
    exact List.forall_mem_cons.mpr ⟨hline, ih hrest⟩
  | run run rest hrun hrest ih =>
    obtain ⟨hlines, hrest'⟩ := List.forall_mem_append.mp h
    rw [scanQuoteRuns_run hrun hrest]
    refine List.forall_mem_append.mpr ⟨fun line hline => ?_, ih hrest'⟩
    unfold appendTrimmedQuoteRun at hline
    split_ifs at hline
    · rcases List.mem_cons.mp hline with rfl | hline
      · exact (isMarker_quotedMarker _).newline_not_mem
      · exact hlines line (List.mem_of_mem_drop hline)
    · exact hlines line hline
    · rcases List.mem_append.mp hline with hline | hline
      · exact hlines line (List.mem_of_mem_take hline)
      · rw [List.mem_singleton.mp hline]
        exact (isMarker_trailingMarker _).newline_not_mem
    · exact hlines line hline

/-- The speaker's own words stay the same exactly when no attribution line comes next to an own
`On …` line by the trimming. -/
theorem saidBy_trimmedLines_iff (lines : List String) :
    saidBy ownChars ((trimmedLines lines).map String.toList) =
        saidBy ownChars (lines.map String.toList) ↔ AttributionsUndisturbed lines := by
  have hfilter : ∀ marked : List (String × Bool), (marked.map Prod.fst).filter saysText =
      (marked.filter fun line => saysText line.1).map Prod.fst := fun marked => List.filter_map
  have htrimmed : (trimmedLines lines).foldl ownScan.keep [] =
      ((markOmitted lines).foldl (markedScan.without omittedBlank).keep []).map Prod.fst :=
    (foldl_trimmedLines lines []).symm
  rw [saidBy_ownChars, saidBy_ownChars, htrimmed, foldl_lines, hfilter, hfilter]
  constructor
  · intro heq
    have hlength := congrArg List.length heq
    simp only [length_outerTrim, List.length_map, ← List.countP_eq_length_filter] at hlength
    by_contra hdisturbed
    have hlt := leaves_markedScan.countP_lt hdisturbed
    omega
  · intro hundisturbed
    rw [leaves_markedScan.filter_said_iff.mpr hundisturbed]

theorem cleanedBody_lines (rawBody : String) :
    (textLines (cleanedBody rawBody)).map String.toList = linesOf (cleanedBody rawBody).toList := by
  rw [textLines, List.map_map]
  exact List.map_id'' (fun line => String.toList_ofList) _

/-- Trimming leaves the speaker's own words alone exactly when no attribution line comes next to an
own `On …` line by it. It loses no line that is not quoted, and of every quote run it keeps one end
and counts the rest. -/
theorem trim_email_quotes_iff (rawBody : String) :
    (spokenLines (messageOwnText (trimEmailQuotes rawBody)) =
        spokenLines (messageOwnText (cleanedBody rawBody)) ↔
      AttributionsUndisturbed (textLines (cleanedBody rawBody))) ∧
    ∃ outLines, trimEmailQuotes rawBody = rustTrim ("\n".intercalate outLines) ∧
      ((textLines (cleanedBody rawBody)).filter fun line =>
        !isQuotedLine line && !isBlankText line).Sublist outLines ∧
      ∀ before run after, textLines (cleanedBody rawBody) = before ++ run ++ after →
        MaximalRun before run after →
        ∃ front out back, outLines = front ++ out ++ back ∧
          IsTrimmed run (after.any (!isBlankText ·)) out := by
  refine ⟨?_, trimmedLines (textLines (cleanedBody rawBody)), rfl,
    unquoted_sublist_trimmedLines _, ?_⟩
  · have hbreaks := @newline_not_mem_trimmedLines (textLines (cleanedBody rawBody))
      fun line hline => newline_not_mem_textLines hline
    rw [trimEmailQuotes, spokenLines_messageOwnText_join hbreaks, spokenLines_messageOwnText,
      ← cleanedBody_lines]
    exact saidBy_trimmedLines_iff _
  · intro before run after hlines hmaximal
    obtain ⟨front, out, heq, htrimmed⟩ := trimmedLines_maximal hmaximal
    exact ⟨front, out, trimmedLines after, by rw [hlines, heq], htrimmed⟩

/-- An answer below a quote stays. -/
theorem trim_email_quotes_answer :
    spokenLines (messageOwnText (trimEmailQuotes "> Why?\nYes.")) =
      spokenLines (messageOwnText (cleanedBody "> Why?\nYes.")) :=
  (trim_email_quotes_iff "> Why?\nYes.").1.mpr (by
    have hopens : ((markOmitted (textLines (cleanedBody "> Why?\nYes."))).all
        fun line => !markedScan.opens line) = true := by decide
    intro before x mid y after hsplit hopener
    have hx := List.all_eq_true.mp hopens x (by rw [hsplit]; simp)
    rw [hopener.2.2] at hx
    cases hx)

set_option maxRecDepth 4000 in
/-- The blank line of the quote is trimmed away, and the attribution line below the quote takes the
answer above it along. -/
theorem trim_email_quotes_loses_answer :
    spokenLines (messageOwnText (trimEmailQuotes
        "On it.\n>\n\n>\n>\n>\n>\n>\n>\n>\nBob wrote:\nNo.")) ≠
      spokenLines (messageOwnText (cleanedBody
        "On it.\n>\n\n>\n>\n>\n>\n>\n>\n>\nBob wrote:\nNo.")) := by
  decide

end Sashiko
