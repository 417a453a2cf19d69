import Sashiko.Subject.Indexes

/-! What a reply is promoted to: the subject has no reply prefix, and reads the version and the part
counter, but where the rewriting makes another one of the text. -/

namespace Sashiko

variable {t : CharTables} {b : Option Char} {s u y y' : Text}

/-! ### Reply prefixes -/

theorem startsWithReply_bracket (x : Text) : startsWithReply t ('[' :: x) = false := by
  have hnone : foundPrefix replyPrefixes [] = none := by decide
  have hat := trimChars_append_bracket [] x
  have hfound := foundPrefix_append_bracket replyPrefixes_subset [] (x.rdropWhile isRustWhitespace)
  rw [List.dropWhile_nil, List.nil_append, List.nil_append] at hat
  rw [List.nil_append] at hfound
  rw [startsWithReply_eq_false, hat, hfound, hnone]

theorem Rewrite.no_reply {version : ℕ} {r : Text} (h : Rewrite t s version r)
    (hs : startsWithReply t s = false) : startsWithReply t r = false := by
  cases h with
  | kept => exact hs
  | replaced _ _ heq hversion _ =>
    rw [heq, hversion.text] at hs
    rw [startsWithReply_append_bracket, hs]
  | inserted _ _ _ heq htag _ =>
    rw [heq, htag.text] at hs
    rw [startsWithReply_append_bracket, hs]
  | added => exact startsWithReply_bracket _

/-! ### Words that are tags -/

theorem isDot_of_word {c : Char} (h : t.word c = true) : isDot c = true := by
  refine decide_eq_true fun heq => ?_
  rw [heq, t.not_word_of_space '\n' (by decide)] at h
  cases h

theorem ne_of_word {c d : Char} (h : t.word c = true) (hd : t.word d = false) : c ≠ d := by
  rintro rfl
  rw [h] at hd
  cases hd

theorem not_word_slash : t.word '/' = false := t.word_ascii '/' (by decide)

/-- A word that is a tag where no word is before and none follows, and is no part of a counter. -/
structure IsTag (t : CharTables) (u : Text) : Prop where
  ne : u ≠ []
  word : ∀ c ∈ u, t.word c = true
  letter : u.head?.any t.digit = false
  found : ∀ b y, b.any t.word = false → Unworded t y → anyTagAt t b (u ++ y) = some y
  uncounted : ∀ w y, w <:+ u → w ≠ [] → NoCounterAhead t y → counterAt t (w ++ y) = none

theorem counterBehind_append (hrun : ∀ c ∈ u, isDot c = true)
    (hnone : ∀ w, w <:+ u → w ≠ [] → counterAt t (w ++ y) = none) :
    counterBehind t (u ++ y) = counterBehind t y := by
  unfold counterBehind
  rw [firstMatch_append hrun fun u₁ u₂ hu hne => ?_, Option.map_map,
    firstMatch_const (lastBefore none u) none]
  · rfl
  · rw [counterToClose, hnone u₂ ⟨u₁, hu.symm⟩ hne, Option.bind_none]

theorem anyTagAt_within {c : Char} {x : Text} (hb : b.any t.word = true) (hc : t.word c = true) :
    anyTagAt t b (c :: x) = none := by
  have hedge : t.edge b (c :: x) = false := by
    rw [CharTables.edge, hb, List.head?_cons, Option.any_some, hc]
    rfl
  rw [anyTagAt, wordAt, hedge]
  rfl

theorem looseCounterAt_within {c : Char} {x : Text} (hb : b.any t.word = true)
    (hc : t.word c = true) : looseCounterAt t b (c :: x) = none := by
  have hedge : t.edge b (c :: x) = false := by
    rw [CharTables.edge, hb, List.head?_cons, Option.any_some, hc]
    rfl
  rw [looseCounterAt, hedge, if_neg Bool.false_ne_true]

theorem innerCounter_within (hb : b.any t.word = true) (hu : ∀ c ∈ u, t.word c = true) (y : Text) :
    innerCounter t b (u ++ y) = innerCounter t b y := by
  induction u generalizing b with
  | nil => rfl
  | cons c u ih =>
    obtain ⟨hc, hu⟩ := List.forall_mem_cons.mp hu
    have hnone : tagThenCounter t b (c :: (u ++ y)) = none := by
      rw [tagThenCounter, anyTagAt_within hb hc, Option.bind_none]
    have hrest := ih (b := some c) hc hu
    have hedge : b.any t.word = (some c).any t.word := hb.trans hc.symm
    rw [innerCounter_edge hedge y, ← hrest, innerCounter,
      List.cons_append, firstMatch_cons_of_none hnone, if_pos (isDot_of_word hc), Option.map_map]
    rfl

theorem looseCounter_within (hb : b.any t.word = true) (hu : ∀ c ∈ u, t.word c = true) (y : Text) :
    looseCounter t b (u ++ y) = looseCounter t b y := by
  induction u generalizing b with
  | nil => rfl
  | cons c u ih =>
    obtain ⟨hc, hu⟩ := List.forall_mem_cons.mp hu
    have hnone : looseCounterAt t b (c :: (u ++ y)) = none := looseCounterAt_within hb hc
    have hrest := ih (b := some c) hc hu
    have hedge : b.any t.word = (some c).any t.word := hb.trans hc.symm
    rw [looseCounter_edge hedge y, ← hrest, looseCounter,
      List.cons_append, firstMatch_cons_of_none hnone, if_pos rfl, Option.map_map]
    rfl

namespace IsTag

variable {u' : Text}

theorem not_mem (h : IsTag t u) {c : Char} (hc : t.word c = false) : c ∉ u := fun hmem =>
  ne_of_word (h.word c hmem) hc rfl

theorem ahead (h : IsTag t u) (y : Text) : NoCounterAhead t (u ++ y) := by
  obtain ⟨c, u', rfl⟩ := List.exists_cons_of_ne_nil h.ne
  have hc := h.word c List.mem_cons_self
  exact noCounterAhead_of_ne h.letter (ne_of_word hc not_word_slash) (u' ++ y)

theorem head_word (h : IsTag t u) (y : Text) : (u ++ y).head?.any t.word = true := by
  obtain ⟨c, u', rfl⟩ := List.exists_cons_of_ne_nil h.ne
  exact h.word c List.mem_cons_self

theorem close_iff (h : IsTag t u) (y : Text) :
    ']' ∈ (u ++ y).takeWhile isDot ↔ ']' ∈ y.takeWhile isDot := by
  have hnone : ']' ∉ u.takeWhile isDot := fun hmem =>
    h.not_mem not_word_close ((List.takeWhile_prefix _).subset hmem)
  have hline : '\n' ∉ u := h.not_mem (t.not_word_of_space '\n' (by decide))
  rw [close_append, or_iff_right hnone, and_iff_right hline]

theorem counterBehind (h : IsTag t u) (hy : NoCounterAhead t y) :
    counterBehind t (u ++ y) = Sashiko.counterBehind t y :=
  counterBehind_append (fun c hc => isDot_of_word (h.word c hc)) fun w hw hne =>
    h.uncounted w y hw hne hy

theorem blank (h : IsTag t u) (hy : NoCounterAhead t y) :
    counterAt t ((u ++ y).dropWhile isRustWhitespace) = none := by
  have hat := h.uncounted u y (List.suffix_refl u) h.ne hy
  obtain ⟨c, u', rfl⟩ := List.exists_cons_of_ne_nil h.ne
  have hc : ¬ isRustWhitespace c = true := fun hspace =>
    ne_of_word (h.word c List.mem_cons_self) (t.not_word_of_space c hspace) rfl
  rwa [List.cons_append, List.dropWhile_cons_of_neg hc]

/-- What is read behind the tag, or behind a tag that follows. -/
theorem innerCounter (h : IsTag t u) (hb : b.any t.word = false) (hy : Unworded t y) :
    innerCounter t b (u ++ y) =
      (Sashiko.counterBehind t y).or (Sashiko.innerCounter t (some 'v') y) := by
  have hat : tagThenCounter t b (u ++ y) = Sashiko.counterBehind t y := by
    rw [tagThenCounter, h.found b y hb hy, Option.bind_some]
  obtain ⟨c, u', rfl⟩ := List.exists_cons_of_ne_nil h.ne
  obtain ⟨hc, hu'⟩ := List.forall_mem_cons.mp h.word
  have hv : t.word 'v' = true := t.word_ascii 'v' (by decide)
  have hedge : (some c).any t.word = (some 'v').any t.word := hc.trans hv.symm
  rw [List.cons_append] at hat ⊢
  unfold Sashiko.innerCounter
  cases hbehind : Sashiko.counterBehind t y with
  | some m => rw [firstMatch_of_some (hat.trans hbehind), Option.map_some, Option.some_or]
  | none =>
    rw [firstMatch_cons_of_none (hat.trans hbehind), if_pos (isDot_of_word hc), Option.none_or,
      Option.map_map]
    exact (innerCounter_within (b := some c) hc hu' y).trans (innerCounter_edge hedge y)

theorem bracketCounter (h : IsTag t u) (y : Text) :
    bracketCounter t (u ++ y) = Sashiko.bracketCounter t y :=
  bracketCounter_append (h.not_mem not_word_bracket) y

theorem looseCounter (h : IsTag t u) (hat : looseCounterAt t b (u ++ y) = none) :
    looseCounter t b (u ++ y) = Sashiko.looseCounter t (some 'v') y := by
  obtain ⟨c, u', rfl⟩ := List.exists_cons_of_ne_nil h.ne
  obtain ⟨hc, hu'⟩ := List.forall_mem_cons.mp h.word
  have hv : t.word 'v' = true := t.word_ascii 'v' (by decide)
  have hedge : (some c).any t.word = (some 'v').any t.word := hc.trans hv.symm
  rw [← looseCounter_edge hedge, ← looseCounter_within (b := some c) hc hu' y]
  rw [List.cons_append] at hat ⊢
  unfold Sashiko.looseCounter
  rw [firstMatch_cons_of_none hat, if_pos rfl, Option.map_map]
  rfl

/-- Two tags read alike in front of texts that do. -/
theorem alike (h : IsTag t u) (h' : IsTag t u') (hy : Unworded t y) (hy' : Unworded t y')
    (hsame : SameCounters t y y')
    (hinner : (Sashiko.counterBehind t y).or (Sashiko.innerCounter t (some 'v') y) =
      (Sashiko.counterBehind t y').or (Sashiko.innerCounter t (some 'v') y')) :
    Alike t (u ++ y) (u' ++ y') where
  ahead := h.ahead y
  ahead' := h'.ahead y'
  close := by rw [h.close_iff, h'.close_iff, hsame.close]
  behind := by rw [h.counterBehind hsame.ahead, h'.counterBehind hsame.ahead', hsame.behind]
  word := by rw [h.head_word, h'.head_word]
  blank := h.blank hsame.ahead
  blank' := h'.blank hsame.ahead'
  inner b hb := by
    have hnot : ¬ Unworded t (u ++ y) := fun hnone => by
      rw [Unworded, h.head_word] at hnone
      cases hnone
    have hbefore := hb.resolve_right hnot
    rw [h.innerCounter hbefore hy, h'.innerCounter hbefore hy', hinner]

end IsTag

/-! ### The version, and the tag before it -/

theorem counterAt_digits (h : ∀ c ∈ u, t.digit c = true) : counterAt t u = none := by
  unfold counterAt
  rw [List.dropWhile_eq_nil_iff.mpr h]

theorem stripWord?_version {v : Char} (hv : sameLetter 'v' v = true) {word : Text}
    (hword : word ∈ counterWords) (x : Text) : stripWord? word (v :: x) = none := by
  have hfirst : (counterWords.all fun word => word.head?.any fun l => l ≠ 'v' && l ≠ 's') =
      true := by decide
  have hne := List.all_eq_true.mp hfirst word hword
  have hlower : v.toLower = 'v' := by simpa [sameLetter] using hv
  cases word with
  | nil => cases hne
  | cons letter word =>
    rw [List.head?_cons, Option.any_some, Bool.and_eq_true, decide_eq_true_eq,
      decide_eq_true_eq] at hne
    have hother : sameLetter letter v = false := by
      rw [sameLetter, hlower]
      simp [hne.2, Ne.symm hne.1]
    rw [stripWord?, hother, if_neg Bool.false_ne_true]

theorem looseCounterAt_version {v : Char} (hv : sameLetter 'v' v = true) (x : Text) :
    looseCounterAt t b (v :: x) = none := by
  have hnone : (counterWords.findSome? fun word =>
      (stripWord? word (v :: x)).bind (spacedCounterAt t)) = none := by
    rw [List.findSome?_eq_none_iff]
    intro word hword
    rw [stripWord?_version hv hword, Option.bind_none]
  rw [looseCounterAt, hnone, ite_self]

theorem isTag_version {v : Char} {ds : Text} (hv : sameLetter 'v' v = true)
    (hds : ds ≠ [] ∧ ∀ c ∈ ds, t.digit c = true) : IsTag t (v :: ds) where
  ne := List.cons_ne_nil _ _
  word := List.forall_mem_cons.mpr
    ⟨word_of_sameLetter (by decide) hv, fun c hc => t.word_of_digit c (hds.2 c hc)⟩
  letter := not_digit_of_sameLetter (by decide) hv
  found b y hb hy := by
    have hword : wordAt t counterWords b (v :: (ds ++ y)) = none := by
      have hnone : (counterWords.findSome? fun word => (stripWord? word (v :: (ds ++ y))).filter
          fun rest => rest.head?.any t.word = false) = none := by
        rw [List.findSome?_eq_none_iff]
        intro word hword
        rw [stripWord?_version hv hword, Option.filter_none]
      rw [wordAt, hnone, ite_self]
    have hedge : t.edge b (v :: (ds ++ y)) = true := by
      rw [CharTables.edge, hb, List.head?_cons, Option.any_some,
        word_of_sameLetter (by decide) hv]
      rfl
    rw [List.cons_append, anyTagAt, hword, Option.none_or, if_pos hedge, versionAt_cons hv,
      numberAt_digits hds.1 hds.2 hy, Option.map_some]
  uncounted w y hw hne hy := by
    rcases List.suffix_cons_iff.mp hw with rfl | hw
    · exact counterAt_eq_none (not_digit_of_sameLetter (by decide) hv)
    · rw [counterAt_append hy, counterAt_digits fun c hc => hds.2 c (hw.subset hc),
        Option.map_none]

theorem sameLetter_of_stripWord? {word cs : Text} (h : stripWord? word cs = some []) :
    ∀ c ∈ cs, ∃ letter ∈ word, sameLetter letter c = true := by
  induction word generalizing cs with
  | nil =>
    obtain rfl := Option.some.inj h
    exact nofun
  | cons letter word ih =>
    cases cs with
    | nil => exact nofun
    | cons c cs =>
      rw [stripWord?] at h
      split_ifs at h with hc
      refine List.forall_mem_cons.mpr ⟨⟨letter, List.mem_cons_self, hc⟩, fun d hd => ?_⟩
      obtain ⟨l, hl, hsame⟩ := ih h d hd
      exact ⟨l, List.mem_cons_of_mem _ hl, hsame⟩

theorem findSome?_eq_some_of_forall {α β : Type} {f : α → Option β} {xs : List α} {y : β} {x : α}
    (hx : x ∈ xs) (hfound : f x = some y) (hall : ∀ x ∈ xs, ∀ z, f x = some z → z = y) :
    xs.findSome? f = some y := by
  cases h : xs.findSome? f with
  | none =>
    have hnone := List.findSome?_eq_none_iff.mp h x hx
    rw [hfound] at hnone
    cases hnone
  | some z =>
    obtain ⟨x', hx', hz⟩ := List.exists_of_findSome?_eq_some h
    rw [hall x' hx' z hz]

theorem isTag_of_isPatchTag {word : Text} (h : IsPatchTag t b word) : IsTag t word := by
  obtain ⟨-, letters, hmem, hstrip⟩ := h
  have hsub : (patchTags.all fun letters => counterWords.contains letters &&
      letters.all "patchrfcecommitv".toList.contains) = true := by decide
  have hletters := List.all_eq_true.mp hsub letters hmem
  rw [Bool.and_eq_true, List.contains_iff_mem] at hletters
  have htag := isTagWord_of_mem hletters.1
  have hsame := sameLetter_of_stripWord? hstrip
  have hword : ∀ c ∈ word, t.word c = true := fun c hc => by
    obtain ⟨letter, hletter, hc⟩ := hsame c hc
    exact word_of_sameLetter (htag.2 letter hletter) hc
  have hdigit : ∀ c ∈ word, t.digit c = false := fun c hc => by
    obtain ⟨letter, hletter, hc⟩ := hsame c hc
    exact not_digit_of_sameLetter (mem_of_all_contains hletters.2 letter hletter) hc
  have hne : word ≠ [] := by
    rintro rfl
    have hlength := stripWord?_length hstrip
    exact htag.1 (List.length_eq_zero_iff.mp (by simpa using hlength))
  obtain ⟨c, word', rfl⟩ := List.exists_cons_of_ne_nil hne
  refine ⟨hne, hword, hdigit c List.mem_cons_self, fun b y hb hy => ?_, fun w y hw hwne _ => ?_⟩
  · have hedge : t.edge b (c :: word' ++ y) = true := by
      rw [CharTables.edge, hb, List.cons_append, List.head?_cons, Option.any_some,
        hword c List.mem_cons_self]
      rfl
    have hstop : decide (y.head?.any t.word = false) = true := decide_eq_true hy
    have hfound : (counterWords.findSome? fun word => (stripWord? word (c :: word' ++ y)).filter
        fun rest => rest.head?.any t.word = false) = some y := by
      refine findSome?_eq_some_of_forall hletters.1 ?_ fun other hother z hz => ?_
      · rw [stripWord?_append htag.2 hy, hstrip, Option.map_some, List.nil_append,
          Option.filter_some, if_pos hstop]
      · obtain ⟨hat, hend⟩ := Option.filter_eq_some_iff.mp hz
        rw [stripWord?_append (isTagWord_of_mem hother).2 hy] at hat
        obtain ⟨rest, hrest, rfl⟩ := Option.map_eq_some_iff.mp hat
        obtain ⟨taken, htaken, -⟩ := stripWord?_eq_some (t := t) (isTagWord_of_mem hother).2 hrest
        cases rest with
        | nil => rfl
        | cons d rest =>
          have hd : t.word d = true := hword d (by rw [htaken]; simp)
          have hnot : t.word d = false := of_decide_eq_true hend
          rw [hd] at hnot
          cases hnot
    rw [anyTagAt, wordAt, if_pos hedge, hfound, Option.some_or]
  · obtain ⟨d, w', rfl⟩ := List.exists_cons_of_ne_nil hwne
    exact counterAt_eq_none (hdigit d (hw.subset List.mem_cons_self))

theorem looseCounterAt_tag (h : IsTag t u) (hy : Unworded t y)
    (hspaced : spacedCounterAt t y = none) :
    looseCounterAt t b (u ++ y) = none := by
  have hnone : (counterWords.findSome? fun word =>
      (stripWord? word (u ++ y)).bind (spacedCounterAt t)) = none := by
    rw [List.findSome?_eq_none_iff]
    intro word hword
    have htag := isTagWord_of_mem hword
    rw [stripWord?_append htag.2 hy]
    cases hrest : stripWord? word u with
    | none => rfl
    | some rest =>
      obtain ⟨taken, rfl, -⟩ := stripWord?_eq_some (t := t) htag.2 hrest
      rw [Option.map_some, Option.bind_some]
      cases rest with
      | nil => exact hspaced
      | cons c rest =>
        have hc : isRustWhitespace c = false := by
          by_contra hspace
          have hnot := t.not_word_of_space c (Bool.not_eq_false _ ▸ hspace)
          exact h.not_mem hnot (by simp)
        rw [spacedCounterAt, List.cons_append, List.head?_cons, Option.any_some, hc,
          if_neg Bool.false_ne_true]
  rw [looseCounterAt, hnone, ite_self]

/-! ### Characters that are skipped -/

theorem counterBehind_cons {c : Char} (hdot : isDot c = true) (hc : t.digit c = false) (x : Text) :
    counterBehind t (c :: x) = counterBehind t x := by
  refine counterBehind_append (u := [c]) (by simpa using hdot) fun w hw hne => ?_
  have hone : w = [c] := hw.eq_of_length_le (List.length_pos_iff.mpr hne)
  rw [hone]
  exact counterAt_eq_none hc

theorem innerCounter_cons {c : Char} (hdot : isDot c = true) (hc : t.word c = false) (x : Text) :
    innerCounter t b (c :: x) = innerCounter t (some c) x := by
  have hnone : tagThenCounter t b (c :: x) = none := by
    rw [tagThenCounter, anyTagAt_eq_none (unworded_cons hc x), Option.bind_none]
  rw [innerCounter, firstMatch_cons_of_none hnone, if_pos hdot, Option.map_map]
  rfl

theorem bracketCounter_cons {c : Char} (hc : c ≠ '[') (x : Text) :
    bracketCounter t (c :: x) = bracketCounter t x := by
  have hopen : '[' ∉ [c] := fun hmem => hc (List.mem_singleton.mp hmem).symm
  exact bracketCounter_append hopen x

theorem looseCounter_cons {c : Char} (hc : t.word c = false) (x : Text) :
    looseCounter t b (c :: x) = looseCounter t (some c) x := by
  rw [looseCounter, firstMatch_cons_of_none (looseCounterAt_eq_none (unworded_cons hc x)),
    if_pos rfl, Option.map_map]
  rfl

/-! ### The counter at the start -/

theorem startCounter_rewritten {inside inside' : Text} (h : ']' ∉ inside) (h' : ']' ∉ inside')
    (hline : '\n' ∉ inside ↔ '\n' ∉ inside') (before after : Text) :
    startCounter t (cleanSubject t (before ++ '[' :: (inside ++ ']' :: after))) =
      startCounter t (cleanSubject t (before ++ '[' :: (inside' ++ ']' :: after))) := by
  have hbracket : ∀ x : Text, ']' ∈ ('[' :: x).takeWhile isDot ↔ ']' ∈ x.takeWhile isDot :=
    fun x => by
      rw [List.takeWhile_cons_of_pos (by decide), List.mem_cons, or_iff_right (by decide)]
  have hclose : ']' ∈ ('[' :: (inside ++ ']' :: after)).takeWhile isDot ↔
      ']' ∈ ('[' :: (inside' ++ ']' :: after)).takeWhile isDot := by
    rw [hbracket, hbracket, close_mem_iff h, close_mem_iff h', hline]
  obtain ⟨out, within, hz, hz'⟩ := dropGroups_append hclose before false
  refine startCounter_cleanSubject ?_
  rw [hz, hz']
  rcases dropGroups_bracket h h' hline after within with heq | ⟨x, x', hx, hx'⟩
  · left
    rw [heq]
  · right
    rw [hx, hx']
    exact ⟨out, x, x', rfl, rfl⟩

/-! ### The counter that is read -/

theorem parted_bracket (before : Text) {head : Text}
    (h : (lastBefore (some '[') head).any t.word = false)
    (z : Text) : Parted t (before ++ '[' :: head) z := by
  left
  have hlast := lastBefore_append_cons none before '[' head
  rw [lastBefore, Option.or_none] at hlast
  rw [hlast, h]

theorem HasVersion.index {before z head ds tail after : Text} {v : Char}
    (h : HasVersion t z head ds tail after v) {ds' : Text}
    (hds' : ds' ≠ [] ∧ ∀ c ∈ ds', t.digit c = true)
    (hahead : NoCounterAhead t (tail ++ ']' :: after)) :
    parseSubjectIndex t (before ++ '[' :: (head ++ 'v' :: (ds' ++ (tail ++ ']' :: after)))) =
      parseSubjectIndex t (before ++ z) := by
  have htag := isTag_version (t := t) h.letter h.digits
  have htag' := isTag_version (t := t) sameLetter_v hds'
  have halike := htag'.alike htag h.stop h.stop ⟨hahead, hahead, Iff.rfl, rfl⟩ rfl
  have hbefore : (lastBefore (some '[') head).any t.word = false := by
    have hedge := h.edge
    rw [CharTables.edge, List.head?_cons, Option.any_some,
      word_of_sameLetter (by decide) h.letter] at hedge
    simpa using hedge
  have hparted := parted_bracket before hbefore
    ('v' :: ds' ++ (tail ++ ']' :: after))
  have hbracket := halike.bracketCounter hparted (by rw [htag.bracketCounter, htag'.bracketCounter])
  have hloose := halike.looseCounter (b := none) hparted (by
    rw [htag.looseCounter (looseCounterAt_version h.letter _),
      htag'.looseCounter (looseCounterAt_version sameLetter_v _)])
  have hclosed : ∀ {w : Text}, IsTag t w → ']' ∉ head ++ (w ++ tail) := fun hw => by
    rw [List.mem_append, List.mem_append]
    rintro (hmem | hmem | hmem)
    · exact h.head_open hmem
    · exact hw.not_mem not_word_close hmem
    · exact h.tail_open hmem
  have hline : ∀ {w : Text}, IsTag t w → ('\n' ∈ head ++ (w ++ tail) ↔ '\n' ∈ head ∨ '\n' ∈ tail) :=
    fun hw => by
      rw [List.mem_append, List.mem_append,
        or_iff_right (hw.not_mem (t.not_word_of_space '\n' (by decide)))]
  have hstart := startCounter_rewritten (t := t) (hclosed htag') (hclosed htag)
    (not_congr ((hline htag').trans (hline htag).symm)) before after
  rw [h.text]
  simp only [List.append_assoc, List.cons_append] at hbracket hloose hstart ⊢
  exact parseSubjectIndex_congr hbracket (fun _ => hloose) hstart

theorem HasTag.index {before z front tail after : Text} (h : HasTag t z front tail after)
    {ds' : Text} (hds' : ds' ≠ [] ∧ ∀ c ∈ ds', t.digit c = true)
    (hahead : NoCounterAhead t (tail ++ ']' :: after))
    (hspaced : bracketCounter t (before ++ z) = none →
      spacedCounterAt t (tail ++ ']' :: after) = none) :
    parseSubjectIndex t
        (before ++ '[' :: (front ++ ' ' :: 'v' :: (ds' ++ (tail ++ ']' :: after)))) =
      parseSubjectIndex t (before ++ z) := by
  obtain ⟨head, word, rfl, hpatch⟩ := h.tag
  have htag := isTag_of_isPatchTag hpatch
  have hversion := isTag_version (t := t) sameLetter_v hds'
  have hdot : isDot ' ' = true := by decide
  have hblank : Unworded t (' ' :: ('v' :: ds' ++ (tail ++ ']' :: after))) := not_word_blank
  have hdigit := not_digit_of_not_word (t := t) not_word_blank
  have hbehind : counterBehind t (' ' :: ('v' :: ds' ++ (tail ++ ']' :: after))) =
      counterBehind t (tail ++ ']' :: after) := by
    rw [counterBehind_cons hdot hdigit, hversion.counterBehind hahead]
  have hclose : ']' ∈ (tail ++ ']' :: after).takeWhile isDot ↔
      ']' ∈ (' ' :: ('v' :: ds' ++ (tail ++ ']' :: after))).takeWhile isDot := by
    rw [List.takeWhile_cons_of_pos hdot, List.mem_cons, or_iff_right (by decide),
      hversion.close_iff]
  have halike : Alike t (word ++ (tail ++ ']' :: after))
      (word ++ ' ' :: ('v' :: ds' ++ (tail ++ ']' :: after))) := by
    refine htag.alike htag h.stop hblank
      ⟨hahead, noCounterAhead_of_ne hdigit (by decide) _, hclose, hbehind.symm⟩ ?_
    rw [hbehind, innerCounter_cons hdot not_word_blank,
      hversion.innerCounter not_word_blank h.stop, ← Option.or_assoc, Option.or_self]
  have hparted := parted_bracket before hpatch.1 (word ++ (tail ++ ']' :: after))
  have hbracket := halike.bracketCounter hparted (by
    rw [htag.bracketCounter, htag.bracketCounter,
      bracketCounter_cons (by decide), hversion.bracketCounter])
  have hloose : bracketCounter t (before ++ z) = none → _ := fun hnone =>
    halike.looseCounter (b := none) hparted (by
      have hnospace : spacedCounterAt t (' ' :: ('v' :: ds' ++ (tail ++ ']' :: after))) = none := by
        have hv := hversion.blank hahead
        rw [spacedCounterAt, List.dropWhile_cons_of_pos (by decide), hv, Option.filter_none,
          Option.map_none, ite_self]
      rw [htag.looseCounter (looseCounterAt_tag htag h.stop (hspaced hnone)),
        htag.looseCounter (looseCounterAt_tag htag hblank hnospace),
        looseCounter_cons not_word_blank, hversion.looseCounter (looseCounterAt_version sameLetter_v _)])
  have hclosed : ']' ∉ head ++ (word ++ tail) := fun hmem => by
    rw [← List.append_assoc, List.mem_append] at hmem
    exact hmem.elim h.front_open h.tail_open
  have hmem : ∀ c, c ≠ ' ' → c ∉ 'v' :: ds' →
      (c ∈ head ++ (word ++ ' ' :: ('v' :: ds' ++ tail)) ↔ c ∈ head ++ (word ++ tail)) := by
    intro c hc hds
    simp only [List.mem_append, List.mem_cons, or_iff_right hc] at hds ⊢
    rw [or_iff_right hds]
  have hline := t.not_word_of_space '\n' (by decide)
  have hstart := startCounter_rewritten (t := t) hclosed
    (mt (hmem ']' (by decide) (hversion.not_mem not_word_close)).mp hclosed)
    (not_congr (hmem '\n' (by decide) (hversion.not_mem hline)).symm) before after
  rw [h.text] at hloose ⊢
  simp only [List.append_assoc, List.cons_append] at hbracket hloose hstart ⊢
  exact (parseSubjectIndex_congr hbracket hloose hstart).symm

theorem anyTagAt_eq_some {z rest : Text} (h : anyTagAt t b z = some rest) :
    ∃ taken, z = taken ++ rest ∧ ∀ c ∈ taken, t.word c = true := by
  rcases Option.or_eq_some_iff.mp h with hword | ⟨-, hversion⟩
  · unfold wordAt at hword
    split_ifs at hword
    obtain ⟨word, hmem, hfilter⟩ := List.exists_of_findSome?_eq_some hword
    obtain ⟨taken, htaken, -, hall⟩ :=
      stripWord?_eq_some (isTagWord_of_mem hmem).2 (Option.filter_eq_some_iff.mp hfilter).1
    exact ⟨taken, htaken, hall⟩
  · split_ifs at hversion
    obtain ⟨⟨ds, rest'⟩, hat, rfl⟩ := Option.map_eq_some_iff.mp hversion
    obtain ⟨v, hv, rfl, hnumber⟩ := versionAt_eq_some hat
    obtain ⟨-, hds⟩ := numberAt_eq_some hnumber
    exact ⟨v :: ds, rfl, (isTag_version hv ⟨hds.1, hds.2.1⟩).word⟩

/-- A counter behind a tag is a counter. -/
theorem innerCounter_eq_none (h : counterBehind t s = none) : innerCounter t b s = none := by
  cases hfound : firstMatch isDot (tagThenCounter t) b s with
  | none => rw [innerCounter, hfound, Option.map_none]
  | some found =>
    exfalso
    obtain ⟨z, rfl, hat, hrun, -⟩ := firstMatch_eq_some hfound
    obtain ⟨rest, htag, hbehind⟩ := Option.bind_eq_some_iff.mp hat
    obtain ⟨taken, rfl, hword⟩ := anyTagAt_eq_some htag
    have hdots : ∀ c ∈ found.1 ++ taken, isDot c = true := fun c hc =>
      (List.mem_append.mp hc).elim (hrun c) fun hmem => isDot_of_word (hword c hmem)
    rw [← List.append_assoc] at h
    have hnone := eq_none_of_firstMatch (Option.map_eq_none_iff.mp h) hdots
    rw [counterBehind, firstMatch_const none (lastBefore none (found.1 ++ taken)), hnone] at hbehind
    cases hbehind

section Added

variable {ds : Text}

/-- The tag that is put in front of a subject without one. -/
def addedTag (ds s : Text) : Text :=
  '[' :: ("PATCH".toList ++ ' ' :: ('v' :: ds ++ ']' :: ' ' :: s))

theorem isTag_patch : IsTag t "PATCH".toList :=
  isTag_of_isPatchTag (b := some '[') ⟨not_word_bracket, "patch".toList, by decide, by decide⟩

theorem bracketCounter_added (hds : ds ≠ [] ∧ ∀ c ∈ ds, t.digit c = true) :
    bracketCounter t (addedTag ds s) = (counterBehind t s).or (bracketCounter t s) := by
  have hversion := isTag_version (t := t) sameLetter_v hds
  have hclose := not_digit_of_not_word (t := t) not_word_close
  have hblank := not_digit_of_not_word (t := t) not_word_blank
  have hahead : NoCounterAhead t (']' :: ' ' :: s) := noCounterAhead_of_ne hclose (by decide) _
  have hbehind : counterBehind t (' ' :: ('v' :: ds ++ ']' :: ' ' :: s)) = counterBehind t s := by
    rw [counterBehind_cons (by decide) hblank, hversion.counterBehind hahead,
      counterBehind_cons (by decide) hclose, counterBehind_cons (by decide) hblank]
  have hinner : bracketCounterAt t (addedTag ds s) = counterBehind t s := by
    have hread := (isTag_patch (t := t)).innerCounter (b := some '[') not_word_bracket
      (unworded_cons not_word_blank ('v' :: ds ++ ']' :: ' ' :: s))
    rw [hbehind, innerCounter_cons (by decide) not_word_blank,
      hversion.innerCounter not_word_blank (unworded_cons not_word_close _),
      counterBehind_cons (by decide) hclose, counterBehind_cons (by decide) hblank,
      innerCounter_cons (by decide) not_word_close, innerCounter_cons (by decide) not_word_blank,
      ← Option.or_assoc, Option.or_self] at hread
    refine Eq.trans hread ?_
    cases hs : counterBehind t s with
    | some m => rfl
    | none => rw [innerCounter_eq_none hs, Option.or_none]
  cases hs : counterBehind t s with
  | some m =>
    rw [bracketCounter, firstMatch_of_some (hinner.trans hs), Option.map_some, Option.some_or]
  | none =>
    have hrest : bracketCounter t (addedTag ds s) =
        bracketCounter t ("PATCH".toList ++ ' ' :: ('v' :: ds ++ ']' :: ' ' :: s)) := by
      rw [bracketCounter, addedTag, firstMatch_cons_of_none (hinner.trans hs), if_pos rfl,
        Option.map_map, bracketCounter, firstMatch_const none (some '[')]
      rfl
    rw [hrest, isTag_patch.bracketCounter, bracketCounter_cons (by decide), hversion.bracketCounter,
      bracketCounter_cons (by decide), bracketCounter_cons (by decide), Option.none_or]

theorem looseCounter_added (hds : ds ≠ [] ∧ ∀ c ∈ ds, t.digit c = true) :
    looseCounter t none (addedTag ds s) = looseCounter t none s := by
  have hversion := isTag_version (t := t) sameLetter_v hds
  have hclose := not_digit_of_not_word (t := t) not_word_close
  have hahead : NoCounterAhead t (']' :: ' ' :: s) := noCounterAhead_of_ne hclose (by decide) _
  have hnospace : spacedCounterAt t (' ' :: ('v' :: ds ++ ']' :: ' ' :: s)) = none := by
    have hv := hversion.blank hahead
    rw [spacedCounterAt, List.dropWhile_cons_of_pos (by decide), hv, Option.filter_none,
      Option.map_none, ite_self]
  rw [addedTag, looseCounter_cons not_word_bracket,
    isTag_patch.looseCounter
      (looseCounterAt_tag isTag_patch (unworded_cons not_word_blank _) hnospace),
    looseCounter_cons not_word_blank, hversion.looseCounter (looseCounterAt_version sameLetter_v _),
    looseCounter_cons not_word_close, looseCounter_cons not_word_blank]
  exact looseCounter_edge not_word_blank s

theorem cleanSubject_added (hds : ds ≠ [] ∧ ∀ c ∈ ds, t.digit c = true) :
    cleanSubject t (addedTag ds s) = cleanSubject t s := by
  have hversion := isTag_version (t := t) sameLetter_v hds
  have hinside : ∀ c, c ≠ ' ' → t.word c = false →
      c ∉ "PATCH".toList ++ ' ' :: ('v' :: ds) := fun c hc hword hmem => by
    rw [List.mem_append, List.mem_cons, or_iff_right hc] at hmem
    exact hmem.elim (isTag_patch.not_mem hword) (hversion.not_mem hword)
  have hclosed := hinside ']' (by decide) not_word_close
  have hline := hinside '\n' (by decide) (t.not_word_of_space '\n' (by decide))
  have hdrop : dropGroups false (addedTag ds s) = ' ' :: dropGroups false s := by
    have htext : addedTag ds s =
        '[' :: (("PATCH".toList ++ ' ' :: ('v' :: ds)) ++ ']' :: ' ' :: s) := by
      rw [addedTag]
      simp only [List.append_assoc, List.cons_append]
    rw [htext, dropGroups, if_pos ⟨rfl, (close_mem_iff hclosed _).mpr hline⟩,
      dropGroups_to_close hclosed, dropGroups, if_neg (by simp)]
  have hlength : s.length ≤ (addedTag ds s).length := by
    simp only [addedTag, List.length_append, List.length_cons]
    omega
  have hspace : ∀ c ∈ [' '], isRustWhitespace c = true :=
    List.all_eq_true.mp (by decide : [' '].all isRustWhitespace = true)
  rw [cleanSubject_eq (Nat.le_refl _), cleanSubject_eq hlength, hdrop, ← List.singleton_append,
    trimChars_append_white hspace]

theorem parseSubjectIndex_added (hds : ds ≠ [] ∧ ∀ c ∈ ds, t.digit c = true)
    (h : ∀ m, counterBehind t s = some m → bracketCounter t s = some m) :
    parseSubjectIndex t (addedTag ds s) = parseSubjectIndex t s := by
  refine parseSubjectIndex_congr ?_ (fun _ => looseCounter_added hds)
    (by rw [cleanSubject_added hds])
  rw [bracketCounter_added hds]
  cases hs : counterBehind t s with
  | none => rw [Option.none_or]
  | some m => rw [h m hs, Option.some_or]

end Added

/-! ### What is read back -/

/-- The rewriting makes no counter of the version it writes, and splits none: behind the version or
the tag that is rewritten stand no slash and digits, a counter that is read without a bracket is
not parted from its tag, and a tag put in front of the subject finds the counter that was read. -/
def KeepsCounter (t : CharTables) (s : Text) : Prop :=
  match bracketVersion t s, bracketTag t s with
  | some (_, _, _, tail, after), _ => NoCounterAhead t (tail ++ ']' :: after)
  | none, some (_, _, _, tail, after) => NoCounterAhead t (tail ++ ']' :: after) ∧
    (bracketCounter t s = none → spacedCounterAt t (tail ++ ']' :: after) = none)
  | none, none => ∀ m, counterBehind t s = some m → bracketCounter t s = some m

theorem Rewrite.index {version : ℕ} {r : Text} (h : Rewrite t s version r)
    (hkeeps : parseSubjectVersion t s = some version ∨ KeepsCounter t s) :
    parseSubjectIndex t r = parseSubjectIndex t s := by
  have hdigits := versionDigits_digits (t := t) version
  cases h with
  | kept => rfl
  | replaced hne hfound hs hversion _ =>
    have hahead := hkeeps.resolve_left hne
    rw [KeepsCounter, hfound] at hahead
    rw [hversion.index hdigits hahead, ← hs]
  | inserted hne hv hfound hs htag _ =>
    have hboth := hkeeps.resolve_left hne
    rw [KeepsCounter, hv, hfound] at hboth
    rw [htag.index hdigits hboth.1 (by rw [← hs]; exact hboth.2), ← hs]
  | added hne hv htag =>
    have hread := hkeeps.resolve_left hne
    rw [KeepsCounter, hv, htag] at hread
    have hadded := parseSubjectIndex_added hdigits hread
    rw [addedTag] at hadded
    simp only [List.cons_append] at hadded
    exact hadded

/-- A promoted subject has no reply prefix. Its version is read back if and only if the subject has
it already or none is read from the text before the bracket that is rewritten; its part counter is
read as before where the rewriting keeps it. -/
theorem promoteReplyPatchSubject_reads (t : CharTables) (subject : Text) {version : ℕ}
    (hlow : 2 ≤ version) (hlt : version < 2 ^ 32) :
    startsWithReply t (promoteReplyPatchSubject t subject version) = false ∧
    (parseSubjectVersion t (promoteReplyPatchSubject t subject version) = some version ↔
      parseSubjectVersion t (stripReplies t subject) = some version ∨
        NoVersionBefore t (stripReplies t subject)) ∧
    (parseSubjectVersion t (stripReplies t subject) = some version ∨
        KeepsCounter t (stripReplies t subject) →
      parseSubjectIndex t (promoteReplyPatchSubject t subject version) =
        parseSubjectIndex t subject) := by
  have hrewrite := promote_cases (t := t) subject hlow
  refine ⟨hrewrite.no_reply (startsWithReply_stripReplies subject), hrewrite.parse_iff hlt,
    fun hkeeps => ?_⟩
  rw [hrewrite.index hkeeps, parseSubjectIndex_stripReplies]

theorem promoteReplyPatchSubject_reads_counted :
    parseSubjectVersion asciiTables
        (promoteReplyPatchSubject asciiTables "Re: [PATCH v2 1/3] lra".toList 3) = some 3 ∧
      parseSubjectIndex asciiTables
          (promoteReplyPatchSubject asciiTables "Re: [PATCH v2 1/3] lra".toList 3) =
        parseSubjectIndex asciiTables "Re: [PATCH v2 1/3] lra".toList := by
  have hreads := @promoteReplyPatchSubject_reads asciiTables "Re: [PATCH v2 1/3] lra".toList 3
    (by decide) (by decide)
  refine ⟨by decide, hreads.2.2 (.inr ?_)⟩
  have hfound : bracketVersion asciiTables
      (stripReplies asciiTables "Re: [PATCH v2 1/3] lra".toList) =
        some ([], "PATCH ".toList, "2".toList, " 1/3".toList, " lra".toList) := by decide
  rw [KeepsCounter, hfound]
  exact noCounterAhead_of_ne (by decide) (by decide) _

/-- A version in front of a slash is part of a counter, and one in front of the bracket is read
before the one in it. -/
theorem promoted_misread :
    (isPromotableReplyPatchSubject asciiTables "Re: [PATCH v1/3] lra".toList = true ∧
      parseSubjectIndex asciiTables "Re: [PATCH v1/3] lra".toList = (1, 3) ∧
      parseSubjectIndex asciiTables
        (promoteReplyPatchSubject asciiTables "Re: [PATCH v1/3] lra".toList 3) = (3, 3)) ∧
    isPromotableReplyPatchSubject asciiTables "Re: PATCH v1 [PATCH v2] lra".toList = true ∧
      parseSubjectVersion asciiTables
        (promoteReplyPatchSubject asciiTables "Re: PATCH v1 [PATCH v2] lra".toList 3) = some 1 := by
  decide

end Sashiko
