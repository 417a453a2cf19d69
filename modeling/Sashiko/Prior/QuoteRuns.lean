import Sashiko.Prior.Context
import Sashiko.Prior.TagEscape
import Sashiko.Lib.Lines

/-! `trim_email_quotes`: the signature is cut off, tags are escaped and long quotes are trimmed.
Every line that is not quoted stays, and of every quote run the lines next to the reply stay, or
its first ones when no reply follows. -/

namespace Sashiko

def maxQuoteRunBeforeTrim : ℕ := 8

def keptQuoteLinesBeforeReply : ℕ := 6

def maxTrailingQuoteLines : ℕ := 4

def keptTrailingQuoteLines : ℕ := 2

/-- `str::rfind`, as what stands before and behind the last `pat`, which is not empty. -/
def rsplitPattern (pat : List Char) : List Char → Option (List Char × List Char)
  | [] => none
  | c :: cs =>
    match rsplitPattern pat cs with
    | some (before, behind) => some (c :: before, behind)
    | none =>
      if pat.isPrefixOf (c :: cs) then some ([], (c :: cs).drop pat.length) else none

def signatureMarkers : List String := ["\n-- \n", "\n-- \r\n"]

def stripTrailingEmailSignature (body : List Char) : List Char :=
  (signatureMarkers.findSome? fun marker =>
    (rsplitPattern marker.toList body).bind fun parts =>
      if (linesOf parts.2).length ≤ 12 ∧
          containsText (String.ofList parts.2) "diff --git " = false then some parts.1
      else none).getD body

/-- The body without its signature and with its tags escaped. -/
def cleanedBody (rawBody : String) : String :=
  String.ofList (sanitizeUntrustedDiscussionText (stripTrailingEmailSignature rawBody.toList))

/-- `str::lines` -/
def textLines (text : String) : List String := (linesOf text.toList).map String.ofList

/-! ### The loop -/

/-- `line.trim().is_empty()` -/
def isBlankText (line : String) : Bool := rustTrim line = ""

/-- How many of the lines behind a quoted one still belong to its run. -/
def quoteRunRest : List String → ℕ
  | [] => 0
  | line :: rest =>
    if isQuotedLine line || (isBlankText line && rest.head?.any isQuotedLine) then
      quoteRunRest rest + 1
    else 0

/-- The loop over the lines, which goes on behind a quote run; the first argument counts the lines
of the run still to be passed. A run is handed over with whether a reply follows it. -/
def scanQuoteRuns {β : Type} (onLine : String → β) (onRun : List String → Bool → List β) :
    ℕ → List String → List β
  | _, [] => []
  | n + 1, _ :: rest => scanQuoteRuns onLine onRun n rest
  | 0, line :: rest =>
    if isQuotedLine line then
      onRun (line :: rest.take (quoteRunRest rest))
          ((rest.drop (quoteRunRest rest)).any (!isBlankText ·)) ++
        scanQuoteRuns onLine onRun (quoteRunRest rest) rest
    else onLine line :: scanQuoteRuns onLine onRun 0 rest

def quotedMarker (trimmedCount : ℕ) : String := s!"...[trimmed {trimmedCount} quoted lines]..."

def trailingMarker (trimmedCount : ℕ) : String :=
  s!"...[trimmed {trimmedCount} trailing quoted lines]..."

def appendTrimmedQuoteRun (run : List String) (hasReplyAfter : Bool) : List String :=
  if hasReplyAfter then
    if maxQuoteRunBeforeTrim < run.length then
      quotedMarker (run.length - keptQuoteLinesBeforeReply) ::
        run.drop (run.length - keptQuoteLinesBeforeReply)
    else run
  else if maxTrailingQuoteLines < run.length then
    run.take keptTrailingQuoteLines ++ [trailingMarker (run.length - keptTrailingQuoteLines)]
  else run

/-- The `out_lines` -/
def trimmedLines (lines : List String) : List String :=
  scanQuoteRuns (fun line => line) appendTrimmedQuoteRun 0 lines

def trimEmailQuotes (rawBody : String) : String :=
  rustTrim ("\n".intercalate (trimmedLines (textLines (cleanedBody rawBody))))

/-! ### Quote runs -/

variable {β : Type} {onLine : String → β} {onRun : List String → Bool → List β} {line : String}
  {lines run rest before after : List String}

/-- Quoted lines, between two of which one blank line may stand. -/
inductive QuoteRun : List String → Prop
  | single {line : String} (hline : isQuotedLine line = true) : QuoteRun [line]
  | quoted {line : String} {run : List String} (hline : isQuotedLine line = true)
      (hrun : QuoteRun run) : QuoteRun (line :: run)
  | across {line blank : String} {run : List String} (hline : isQuotedLine line = true)
      (hblank : isBlankText blank = true) (hrun : QuoteRun run) : QuoteRun (line :: blank :: run)

/-- A quote run that is part of no longer one. -/
structure MaximalRun (before run after : List String) : Prop where
  isRun : QuoteRun run
  maximal : ∀ head tail, head <:+ before → tail <+: after → QuoteRun (head ++ run ++ tail) →
    head = [] ∧ tail = []

theorem QuoteRun.head (h : QuoteRun run) : ∃ line rest, run = line :: rest ∧
    isQuotedLine line = true := by
  cases h with
  | single hline => exact ⟨_, _, rfl, hline⟩
  | quoted hline hrun => exact ⟨_, _, rfl, hline⟩
  | across hline hblank hrun => exact ⟨_, _, rfl, hline⟩

theorem QuoteRun.quoted_or_blank (h : QuoteRun run) :
    ∀ line ∈ run, isQuotedLine line = true ∨ isBlankText line = true := by
  induction h with
  | single hline => simp [hline]
  | quoted hline _ ih => exact List.forall_mem_cons.mpr ⟨.inl hline, ih⟩
  | across hline hblank _ ih =>
    exact List.forall_mem_cons.mpr ⟨.inl hline, List.forall_mem_cons.mpr ⟨.inr hblank, ih⟩⟩

theorem QuoteRun.append (h : QuoteRun run) (hline : isQuotedLine line = true) :
    QuoteRun (run ++ [line]) := by
  induction h with
  | single hfirst => exact .quoted hfirst (.single hline)
  | quoted hfirst _ ih => exact .quoted hfirst ih
  | across hfirst hblank _ ih => exact .across hfirst hblank ih

theorem QuoteRun.append_across (h : QuoteRun run) {blank : String}
    (hblank : isBlankText blank = true) (hline : isQuotedLine line = true) :
    QuoteRun (run ++ [blank, line]) := by
  induction h with
  | single hfirst => exact .across hfirst hblank (.single hline)
  | quoted hfirst _ ih => exact .quoted hfirst ih
  | across hfirst hblank' _ ih => exact .across hfirst hblank' ih

theorem quoteRunRest_quoted (h : isQuotedLine line = true) (rest : List String) :
    quoteRunRest (line :: rest) = quoteRunRest rest + 1 := by
  simp [quoteRunRest, h]

/-- The loop counts a whole run and goes on behind it. -/
theorem QuoteRun.quoteRunRest_append (h : QuoteRun run) (rest : List String) :
    quoteRunRest (run ++ rest) = run.length + quoteRunRest rest := by
  induction h with
  | single hline =>
    rw [List.singleton_append, quoteRunRest_quoted hline, List.length_singleton, Nat.add_comm]
  | quoted hline _ ih =>
    rw [List.cons_append, quoteRunRest_quoted hline, ih, List.length_cons]
    omega
  | @across line blank run hline hblank hrun ih =>
    obtain ⟨next, more, rfl, hnext⟩ := hrun.head
    have hstep : quoteRunRest (blank :: (next :: more ++ rest)) =
        quoteRunRest (next :: more ++ rest) + 1 := by
      simp [quoteRunRest, hblank, hnext]
    rw [List.cons_append, List.cons_append, quoteRunRest_quoted hline, hstep, ih]
    simp only [List.length_cons]
    omega

theorem quoteRunRest_append (h : before.length ≤ quoteRunRest (before ++ rest)) :
    quoteRunRest (before ++ rest) = before.length + quoteRunRest rest := by
  induction before with
  | nil => simp
  | cons line before ih =>
    rw [List.cons_append, quoteRunRest] at h ⊢
    split_ifs at h ⊢ with hline
    · rw [List.length_cons] at h ⊢
      rw [ih (by omega)]
      omega
    · simp at h

theorem quoteRunRest_le (rest : List String) : quoteRunRest rest ≤ rest.length := by
  induction rest with
  | nil => exact Nat.le_refl _
  | cons line rest ih =>
    rw [quoteRunRest]
    split_ifs
    · exact Nat.succ_le_succ ih
    · exact Nat.zero_le _

/-- What the loop takes for a run is one. -/
theorem quoteRun_take (h : isQuotedLine line = true) (rest : List String) :
    QuoteRun (line :: rest.take (quoteRunRest rest)) := by
  induction hlen : rest.length using Nat.strongRecOn generalizing line rest with
  | ind n ih =>
    subst hlen
    cases rest with
    | nil => exact .single h
    | cons next rest =>
      cases hnext : isQuotedLine next with
      | true =>
        rw [quoteRunRest_quoted hnext, List.take_succ_cons]
        exact .quoted h (ih _ (by simp) hnext rest rfl)
      | false =>
        by_cases hacross : (isBlankText next && rest.head?.any isQuotedLine) = true
        · rw [Bool.and_eq_true] at hacross
          obtain ⟨hblank, hhead⟩ := hacross
          cases rest with
          | nil => simp at hhead
          | cons third rest =>
            have hthird : isQuotedLine third = true := by simpa using hhead
            have hstep : quoteRunRest (next :: third :: rest) =
                quoteRunRest (third :: rest) + 1 := by
              simp [quoteRunRest, hblank, hthird]
            rw [hstep, List.take_succ_cons, quoteRunRest_quoted hthird, List.take_succ_cons]
            exact .across h hblank (ih _ (by simp only [List.length_cons]; omega) hthird rest rfl)
        · have hzero : quoteRunRest (next :: rest) = 0 := by
            simp [quoteRunRest, hnext, hacross]
          rw [hzero]
          exact .single h

theorem quoteRunRest_drop (rest : List String) :
    quoteRunRest (rest.drop (quoteRunRest rest)) = 0 := by
  have htake : (rest.take (quoteRunRest rest)).length = quoteRunRest rest := by
    rw [List.length_take]
    exact Nat.min_eq_left (quoteRunRest_le rest)
  have hle : (rest.take (quoteRunRest rest)).length ≤
      quoteRunRest (rest.take (quoteRunRest rest) ++ rest.drop (quoteRunRest rest)) := by
    rw [List.take_append_drop, htake]
  have h := quoteRunRest_append hle
  rw [List.take_append_drop, htake] at h
  omega

/-! ### The loop over quote runs -/

theorem scanQuoteRuns_skip (n : ℕ) (lines : List String) :
    scanQuoteRuns onLine onRun n lines = scanQuoteRuns onLine onRun 0 (lines.drop n) := by
  induction n generalizing lines with
  | zero => rfl
  | succ n ih =>
    cases lines with
    | nil => rfl
    | cons line rest => rw [scanQuoteRuns, ih, List.drop_succ_cons]

theorem scanQuoteRuns_line (h : isQuotedLine line = false) (rest : List String) :
    scanQuoteRuns onLine onRun 0 (line :: rest) =
      onLine line :: scanQuoteRuns onLine onRun 0 rest := by
  rw [scanQuoteRuns, h]
  rfl

theorem scanQuoteRuns_run (hrun : QuoteRun run) (hrest : quoteRunRest rest = 0) :
    scanQuoteRuns onLine onRun 0 (run ++ rest) =
      onRun run (rest.any (!isBlankText ·)) ++ scanQuoteRuns onLine onRun 0 rest := by
  have hcount := hrun.quoteRunRest_append rest
  obtain ⟨line, more, rfl, hline⟩ := hrun.head
  rw [List.cons_append, quoteRunRest_quoted hline, hrest, List.length_cons, Nat.add_zero,
    Nat.add_right_cancel_iff] at hcount
  rw [List.cons_append, scanQuoteRuns, if_pos hline, hcount, List.take_left, List.drop_left,
    scanQuoteRuns_skip, List.drop_left]

/-- Lines are read one unquoted line or one whole quote run at a time. -/
theorem quoteRuns_induction {motive : List String → Prop} (nil : motive [])
    (line : ∀ line rest, isQuotedLine line = false → motive rest → motive (line :: rest))
    (run : ∀ run rest, QuoteRun run → quoteRunRest rest = 0 → motive rest → motive (run ++ rest))
    (lines : List String) : motive lines := by
  induction hlen : lines.length using Nat.strongRecOn generalizing lines with
  | ind n ih =>
    subst hlen
    cases lines with
    | nil => exact nil
    | cons first rest =>
      cases hfirst : isQuotedLine first with
      | false => exact line first rest hfirst (ih _ (by simp) rest rfl)
      | true =>
        have hsplit : first :: rest = (first :: rest.take (quoteRunRest rest)) ++
            rest.drop (quoteRunRest rest) := by
          rw [List.cons_append, List.take_append_drop]
        rw [hsplit]
        refine run _ _ (quoteRun_take hfirst rest) (quoteRunRest_drop rest) (ih _ ?_ _ rfl)
        simp only [List.length_drop, List.length_cons]
        omega

theorem MaximalRun.quoteRunRest_after (h : MaximalRun before run after) :
    quoteRunRest after = 0 := by
  cases after with
  | nil => rfl
  | cons next after =>
    have hnext : isQuotedLine next = false := by
      by_contra hquoted
      rw [Bool.not_eq_false] at hquoted
      have := h.maximal [] [next] (List.nil_suffix ..) ⟨after, rfl⟩ (h.isRun.append hquoted)
      simp at this
    have hacross : ¬(isBlankText next && after.head?.any isQuotedLine) = true := by
      intro hacross
      rw [Bool.and_eq_true] at hacross
      obtain ⟨hblank, hhead⟩ := hacross
      cases after with
      | nil => simp at hhead
      | cons third after =>
        have := h.maximal [] [next, third] (List.nil_suffix ..) ⟨after, rfl⟩
          (h.isRun.append_across hblank (by simpa using hhead))
        simp at this
    simp [quoteRunRest, hnext, hacross]

theorem MaximalRun.of_suffix (h : MaximalRun before run after) {back : List String}
    (hback : back <:+ before) : MaximalRun back run after where
  isRun := h.isRun
  maximal := fun head tail hhead => h.maximal head tail (hhead.trans hback)

/-- Every maximal quote run is handed over as a whole. -/
theorem scanQuoteRuns_maximal (h : MaximalRun before run after) :
    ∃ front, scanQuoteRuns onLine onRun 0 (before ++ run ++ after) =
      front ++ onRun run (after.any (!isBlankText ·)) ++ scanQuoteRuns onLine onRun 0 after := by
  induction hlen : before.length using Nat.strongRecOn generalizing before with
  | ind n ih =>
    subst hlen
    cases before with
    | nil => exact ⟨[], scanQuoteRuns_run h.isRun h.quoteRunRest_after⟩
    | cons first before =>
      cases hfirst : isQuotedLine first with
      | false =>
        obtain ⟨front, hfront⟩ := ih _ (by simp) (h.of_suffix (List.suffix_cons _ _)) rfl
        refine ⟨onLine first :: front, ?_⟩
        rw [List.cons_append, List.cons_append, scanQuoteRuns_line hfirst, hfront]
        rfl
      | true =>
        -- The run that starts at `first` ends before `run`: reaching it, it would be longer.
        set rest := before ++ run ++ after with hrest
        have hle : quoteRunRest rest ≤ before.length := by
          by_contra hlong
          have hassoc : rest = before ++ (run ++ after) := List.append_assoc ..
          have hcount : quoteRunRest rest = (before ++ run).length := by
            have hreach : before.length ≤ quoteRunRest (before ++ (run ++ after)) := by
              rw [← hassoc]
              omega
            have hsum := quoteRunRest_append hreach
            rw [hassoc, hsum, h.isRun.quoteRunRest_append, h.quoteRunRest_after,
              List.length_append, Nat.add_zero]
          have hwhole := quoteRun_take hfirst rest
          rw [hcount, hrest, List.take_left] at hwhole
          have := h.maximal (first :: before) [] (List.suffix_refl _) (List.nil_prefix ..)
            (by simpa using hwhole)
          simp at this
        have hdrop : rest.drop (quoteRunRest rest) =
            before.drop (quoteRunRest rest) ++ run ++ after := by
          generalize quoteRunRest rest = k at hle ⊢
          rw [hrest, List.append_assoc, List.drop_append_of_le_length hle, ← List.append_assoc]
        obtain ⟨front, hfront⟩ := ih (before.drop (quoteRunRest rest)).length
          (by simp only [List.length_drop, List.length_cons]; omega)
          (h.of_suffix ((List.drop_suffix _ _).trans (List.suffix_cons _ _))) rfl
        have hsplit : first :: rest = (first :: rest.take (quoteRunRest rest)) ++
            rest.drop (quoteRunRest rest) := by
          rw [List.cons_append, List.take_append_drop]
        refine ⟨onRun (first :: rest.take (quoteRunRest rest))
          ((rest.drop (quoteRunRest rest)).any (!isBlankText ·)) ++ front, ?_⟩
        rw [List.cons_append, List.cons_append, ← hrest, hsplit,
          scanQuoteRuns_run (quoteRun_take hfirst rest) (quoteRunRest_drop rest), hdrop, hfront]
        simp only [List.append_assoc]

/-! ### What stays -/

/-- No line that is not quoted is lost. -/
theorem unquoted_sublist_trimmedLines (lines : List String) :
    (lines.filter fun line => !isQuotedLine line && !isBlankText line).Sublist
      (trimmedLines lines) := by
  unfold trimmedLines
  induction lines using quoteRuns_induction with
  | nil => exact List.Sublist.refl _
  | line line rest hline ih =>
    rw [scanQuoteRuns_line hline, List.filter_cons]
    split_ifs
    · exact ih.cons_cons line
    · exact ih.cons line
  | run run rest hrun hrest ih =>
    have hnone : (run.filter fun line => !isQuotedLine line && !isBlankText line) = [] := by
      refine List.filter_eq_nil_iff.mpr fun line hline => ?_
      rcases hrun.quoted_or_blank line hline with h | h <;> simp [h]
    rw [scanQuoteRuns_run hrun hrest, List.filter_append, hnone, List.nil_append]
    exact ih.trans (List.sublist_append_right ..)

/-- A run in the trimmed text: what is kept of it and a marker that counts the rest. -/
def IsTrimmed (run : List String) (hasReplyAfter : Bool) (out : List String) : Prop :=
  ∃ kept count, kept.length + count = run.length ∧
    if hasReplyAfter then
      kept <:+ run ∧ out = (if count = 0 then [] else [quotedMarker count]) ++ kept
    else kept <+: run ∧ out = kept ++ if count = 0 then [] else [trailingMarker count]

theorem isTrimmed_appendTrimmedQuoteRun (run : List String) (hasReplyAfter : Bool) :
    IsTrimmed run hasReplyAfter (appendTrimmedQuoteRun run hasReplyAfter) := by
  cases hasReplyAfter with
  | true =>
    unfold appendTrimmedQuoteRun
    rw [if_pos rfl]
    split_ifs with hlong
    · simp only [maxQuoteRunBeforeTrim] at hlong
      refine ⟨run.drop (run.length - keptQuoteLinesBeforeReply),
        run.length - keptQuoteLinesBeforeReply, ?_, ?_⟩
      · simp only [List.length_drop]
        omega
      · rw [if_pos rfl, if_neg (by simp only [keptQuoteLinesBeforeReply]; omega)]
        exact ⟨List.drop_suffix _ _, rfl⟩
    · exact ⟨run, 0, rfl, List.suffix_refl _, rfl⟩
  | false =>
    unfold appendTrimmedQuoteRun
    rw [if_neg Bool.false_ne_true]
    split_ifs with hlong
    · simp only [maxTrailingQuoteLines] at hlong
      refine ⟨run.take keptTrailingQuoteLines, run.length - keptTrailingQuoteLines, ?_, ?_⟩
      · simp only [List.length_take, keptTrailingQuoteLines]
        omega
      · rw [if_neg Bool.false_ne_true,
          if_neg (by simp only [keptTrailingQuoteLines]; omega)]
        exact ⟨List.take_prefix _ _, rfl⟩
    · exact ⟨run, 0, rfl, List.prefix_refl _, (List.append_nil run).symm⟩

/-- Every maximal quote run is trimmed at the end that is far from the reply. -/
theorem trimmedLines_maximal (h : MaximalRun before run after) :
    ∃ front out, trimmedLines (before ++ run ++ after) = front ++ out ++ trimmedLines after ∧
      IsTrimmed run (after.any (!isBlankText ·)) out := by
  have hscan : ∃ front, trimmedLines (before ++ run ++ after) =
      front ++ appendTrimmedQuoteRun run (after.any (!isBlankText ·)) ++ trimmedLines after :=
    scanQuoteRuns_maximal h
  obtain ⟨front, hfront⟩ := hscan
  exact ⟨front, _, hfront, isTrimmed_appendTrimmedQuoteRun _ _⟩

end Sashiko
