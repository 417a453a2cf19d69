import Sashiko.Subject.Frames

/-! The part counter of a subject without its reply prefixes, and of what it is promoted to. -/

namespace Sashiko

variable {t : CharTables} {b : Option Char} {s front spaces : Text}

/-! ### Text that is not read -/

theorem counterAt_eq_none {z : Text} (h : z.head?.any t.digit = false) : counterAt t z = none := by
  have htake : z.takeWhile t.digit = [] := by
    have hspan := (span_append_stop (u := []) h).1
    rwa [List.nil_append, List.takeWhile_nil] at hspan
  unfold counterAt
  split
  · rw [if_neg fun hne => hne.1 htake]
  · rfl

theorem firstMatch_eq_none {β : Type} {p : Char → Bool} {k : Option Char → Text → Option β}
    (hk : ∀ b w, w <:+ s → k b w = none) : firstMatch p k b s = none := by
  induction s generalizing b with
  | nil => rw [firstMatch_nil, hk b [] (List.suffix_refl _), Option.map_none]
  | cons c s ih =>
    rw [firstMatch_cons_of_none (hk b _ (List.suffix_refl _)),
      ih fun b w hw => hk b w (hw.trans (List.suffix_cons c s)), Option.map_none, ite_self]

theorem looseCounterAt_eq_none {z : Text} (hz : Unworded t z) : looseCounterAt t b z = none := by
  have hnone : (counterWords.findSome? fun word =>
      (stripWord? word z).bind (spacedCounterAt t)) = none := by
    rw [List.findSome?_eq_none_iff]
    intro word hword
    rw [stripWord?_eq_none (isTagWord_of_mem hword) hz, Option.bind_none]
  rw [looseCounterAt, hnone, ite_self]

theorem bracketCounterAt_eq_none {c : Char} (h : c ≠ '[') (z : Text) :
    bracketCounterAt t (c :: z) = none := by
  unfold bracketCounterAt
  split
  · next heq => exact absurd (List.cons.inj heq).1 h
  · rfl

theorem looseCounter_edge {b' : Option Char} (h : b.any t.word = b'.any t.word) (z : Text) :
    looseCounter t b z = looseCounter t b' z := by
  have hat : ∀ w, looseCounterAt t b w = looseCounterAt t b' w := fun w => by
    rw [looseCounterAt, looseCounterAt, CharTables.edge, CharTables.edge, h]
  unfold looseCounter
  cases z <;> rw [firstMatch, firstMatch, hat]

theorem innerCounter_edge {b' : Option Char} (h : b.any t.word = b'.any t.word) (z : Text) :
    innerCounter t b z = innerCounter t b' z := by
  have hat : ∀ w, tagThenCounter t b w = tagThenCounter t b' w := fun w => by
    rw [tagThenCounter, tagThenCounter, anyTagAt, anyTagAt, wordAt, wordAt, CharTables.edge,
      CharTables.edge, h]
  unfold innerCounter
  cases z <;> rw [firstMatch, firstMatch, hat]

theorem bracketCounter_append (h : '[' ∉ front) (z : Text) :
    bracketCounter t (front ++ z) = bracketCounter t z := by
  unfold bracketCounter
  rw [firstMatch_append (fun _ _ => rfl) fun u₁ u₂ hu hne => ?_, Option.map_map,
    firstMatch_const (lastBefore none front) none]
  · rfl
  · obtain ⟨c, u₃, rfl⟩ := List.exists_cons_of_ne_nil hne
    refine bracketCounterAt_eq_none (fun hc => h ?_) _
    rw [hu, hc]
    exact List.mem_append_right _ List.mem_cons_self

/-- A text in which no search finds anything, whatever follows. -/
structure Unread (t : CharTables) (front : Text) : Prop where
  closed : '[' ∉ front
  loose : ∀ b w z, w <:+ front → w ≠ [] → looseCounterAt t b (w ++ z) = none
  ends : front.getLast?.any t.word = false

namespace Unread

theorem looseCounter_append (h : Unread t front) (hb : b.any t.word = false) (z : Text) :
    looseCounter t b (front ++ z) = looseCounter t none z := by
  have hlast : (lastBefore b front).any t.word = (none : Option Char).any t.word := by
    rw [lastBefore]
    cases hlast : front.getLast? with
    | none => exact hb
    | some c =>
      have hends := h.ends
      rw [hlast] at hends
      exact hends
  rw [← looseCounter_edge hlast]
  unfold looseCounter
  rw [firstMatch_append (fun _ _ => rfl) fun u₁ u₂ hu hne => h.loose _ _ _ ⟨u₁, hu.symm⟩ hne,
    Option.map_map]
  rfl

end Unread

theorem dropGroups_of_closed (h : '[' ∉ front) (z : Text) :
    dropGroups false (front ++ z) = front ++ dropGroups false z := by
  induction front with
  | nil => rfl
  | cons c front ih =>
    rw [List.mem_cons, not_or] at h
    rw [List.cons_append, dropGroups, if_neg fun hopen => h.1 hopen.1.symm, ih h.2,
      List.cons_append]

/-! ### White space -/

theorem unworded_of_whitespace (h : ∀ c ∈ spaces, isRustWhitespace c = true) :
    Unworded t spaces := by
  cases spaces with
  | nil => rfl
  | cons c spaces => exact t.not_word_of_space c (h c List.mem_cons_self)

theorem unread_of_whitespace (h : ∀ c ∈ spaces, isRustWhitespace c = true) : Unread t spaces where
  closed hmem := absurd (h _ hmem) (by decide)
  loose b w z hw hne := by
    obtain ⟨c, w', rfl⟩ := List.exists_cons_of_ne_nil hne
    exact looseCounterAt_eq_none
      (t.not_word_of_space c (h c (hw.subset List.mem_cons_self)))
  ends := by
    cases hlast : spaces.getLast? with
    | none => rfl
    | some c => exact t.not_word_of_space c (h c (List.mem_of_getLast? hlast))

theorem parseSubjectIndex_leading (h : ∀ c ∈ spaces, isRustWhitespace c = true) (z : Text) :
    parseSubjectIndex t (spaces ++ z) = parseSubjectIndex t z := by
  have hunread := unread_of_whitespace (t := t) h
  refine parseSubjectIndex_congr (bracketCounter_append hunread.closed z)
    (fun _ => hunread.looseCounter_append rfl z) ?_
  have hlength : z.length ≤ (spaces ++ z).length := by
    rw [List.length_append]
    exact Nat.le_add_left _ _
  rw [cleanSubject_eq (Nat.le_refl _), cleanSubject_eq hlength, dropGroups_of_closed hunread.closed,
    trimChars_append_white h]

/-- White space behind a text reads like nothing. -/
theorem alike_whitespace (h : ∀ c ∈ spaces, isRustWhitespace c = true) : Alike t spaces [] := by
  have hsuffix : ∀ w, w <:+ spaces → Unworded t w := fun w hw =>
    unworded_of_whitespace fun c hc => h c (hw.subset hc)
  have hdigit : ∀ w, w <:+ spaces → counterAt t w = none := fun w hw =>
    counterAt_eq_none (head_digit_of_unworded (hsuffix w hw))
  have hclosed : ']' ∉ spaces.takeWhile isDot := fun hmem =>
    absurd (h _ ((List.takeWhile_prefix _).subset hmem)) (by decide)
  have hall := List.dropWhile_eq_nil_iff.mpr h
  refine ⟨⟨⟨head_digit_of_unworded (hsuffix _ (List.suffix_refl _)), fun rest heq => ?_⟩,
    ⟨rfl, nofun⟩, iff_of_false hclosed List.not_mem_nil, ?_⟩, hsuffix _ (List.suffix_refl _), ?_, rfl,
    fun b _ => ?_⟩
  · exact absurd (h '/' (heq ▸ List.mem_cons_self)) (by decide)
  · have hnil : counterBehind t [] = none := rfl
    rw [hnil, counterBehind, firstMatch_eq_none fun _ w hw => ?_, Option.map_none]
    rw [counterToClose, hdigit w hw, Option.bind_none]
  · rw [hall]
    rfl
  · have hnone : ∀ b w, w <:+ spaces → tagThenCounter t b w = none := fun b w hw => by
      rw [tagThenCounter, anyTagAt_eq_none (hsuffix w hw), Option.bind_none]
    have hnil : innerCounter t b [] = none := by
      rw [innerCounter, firstMatch_nil, hnone b [] (List.nil_suffix), Option.map_none,
        Option.map_none]
    rw [hnil, innerCounter, firstMatch_eq_none hnone, Option.map_none]

theorem parseSubjectIndex_trailing (h : ∀ c ∈ spaces, isRustWhitespace c = true) (z : Text) :
    parseSubjectIndex t (z ++ spaces) = parseSubjectIndex t z := by
  have halike := alike_whitespace (t := t) h
  have hunread := unread_of_whitespace (t := t) h
  have hparted : Parted t z spaces := .inr (unworded_of_whitespace h)
  have hbracket := halike.bracketCounter hparted (by
    have hnil := bracketCounter_append (t := t) hunread.closed []
    rwa [List.append_nil] at hnil)
  have hloose := halike.looseCounter (b := none) hparted (by
    have hnone : ∀ b w, w <:+ spaces → looseCounterAt t b w = none := fun b w hw =>
      looseCounterAt_eq_none (unworded_of_whitespace fun c hc => h c (hw.subset hc))
    rw [looseCounter, looseCounter, firstMatch_eq_none hnone, firstMatch_eq_none fun b w hw =>
      hnone b w (hw.trans List.nil_suffix)])
  rw [List.append_nil] at hbracket hloose
  refine parseSubjectIndex_congr hbracket (fun _ => hloose) ?_
  have hlength : z.length ≤ (z ++ spaces).length := by
    rw [List.length_append]
    exact Nat.le_add_right _ _
  obtain ⟨out, within, hz, hz'⟩ := dropGroups_append halike.close z false
  rw [List.append_nil] at hz'
  have htrim : trimChars (dropGroups false (z ++ spaces)) = trimChars (dropGroups false z) := by
    have hkept : ∀ c ∈ dropGroups within spaces, isRustWhitespace c = true :=
      fun c hc => h c (mem_of_mem_dropGroups hc)
    have hnil : dropGroups within [] = [] := by
      rw [dropGroups]
    rw [hz, hz', hnil, List.append_nil, trimChars_append_trailing hkept]
  rw [cleanSubject_eq (Nat.le_refl _), cleanSubject_eq hlength, htrim]

theorem parseSubjectIndex_trim (s : Text) :
    parseSubjectIndex t (trimChars s) = parseSubjectIndex t s := by
  obtain ⟨before, after, hs, hbefore, hafter⟩ := exists_trimChars s
  conv_rhs => rw [hs, List.append_assoc]
  rw [parseSubjectIndex_leading hbefore, parseSubjectIndex_trailing hafter]

/-! ### Reply prefixes -/

theorem toLower_of_not_upper {c : Char} (h : c.toNat < 65 ∨ 90 < c.toNat) : c.toLower = c := by
  rw [toLower_def]
  rw [dif_neg]
  intro hupper
  have hlow : 65 ≤ c.toNat := hupper.1
  have hhigh : c.toNat ≤ 90 := hupper.2
  omega

theorem toLower_of_whitespace {c : Char} (h : isRustWhitespace c = true) : c.toLower = c := by
  refine toLower_of_not_upper ?_
  rw [isRustWhitespace] at h
  simp at h
  omega

theorem lower_or_eq (c : Char) :
    (97 ≤ c.toLower.toNat ∧ c.toLower.toNat ≤ 122) ∨ c.toLower = c := by
  rw [toLower_def]
  split
  · next h =>
    left
    have hlow : 65 ≤ c.toNat := h.1
    have hhigh : c.toNat ≤ 90 := h.2
    have hval : (c.val + ('a'.val - 'A'.val)).toNat = c.toNat + 32 := by
      have hdiff : ('a'.val - 'A'.val).toNat = 32 := rfl
      have hc : c.val.toNat = c.toNat := rfl
      rw [UInt32.toNat_add, hdiff, hc]
      omega
    change 97 ≤ (c.val + ('a'.val - 'A'.val)).toNat ∧ (c.val + ('a'.val - 'A'.val)).toNat ≤ 122
    omega
  · exact .inr rfl

/-- A prefix of a reply, in any case: two characters, none of them blank, and a colon. -/
structure IsReplyHead (t : CharTables) (head : Text) : Prop where
  lower : head.map Char.toLower ∈ replyPrefixes
  visible : ∀ c ∈ head, isRustWhitespace c = false
  colon : ∃ front c, head = front ++ [c] ∧ front.length ≤ 2 ∧ t.word c = false

theorem isReplyHead_of_lower {head : Text} (h : head.map Char.toLower ∈ replyPrefixes) :
    IsReplyHead t head := by
  have hvisible : (replyPrefixes.all fun pre => pre.all fun c => !isRustWhitespace c) = true := by
    decide
  have hcolon : (replyPrefixes.all fun pre => pre.length = 3 &&
      (pre.getLast? = some ':' || pre.getLast? = some '：')) = true := by decide
  refine ⟨h, fun c hc => ?_, ?_⟩
  · by_contra hspace
    rw [Bool.not_eq_false] at hspace
    have hmem : c ∈ head.map Char.toLower := List.mem_map.mpr ⟨c, hc, toLower_of_whitespace hspace⟩
    have hall := List.all_eq_true.mp (List.all_eq_true.mp hvisible _ h) c hmem
    rw [hspace] at hall
    cases hall
  · have hend := List.all_eq_true.mp hcolon _ h
    rw [Bool.and_eq_true, decide_eq_true_eq, Bool.or_eq_true, decide_eq_true_eq, decide_eq_true_eq,
      List.length_map] at hend
    obtain ⟨hlength, hlast⟩ := hend
    have hne : head ≠ [] := fun hnil => by simp [hnil] at hlength
    obtain ⟨front, c, rfl⟩ := (List.eq_nil_or_concat head).resolve_left hne
    rw [List.concat_eq_append] at *
    rw [List.map_append, List.map_singleton, List.getLast?_concat] at hlast
    rw [List.length_append, List.length_singleton] at hlength
    refine ⟨front, c, rfl, by omega, ?_⟩
    rcases lower_or_eq c with hlower | hsame
    · rcases hlast with hlast | hlast
      · rw [Option.some.inj hlast] at hlower
        exact absurd hlower (by decide)
      · rw [Option.some.inj hlast] at hlower
        exact absurd hlower (by decide)
    · rw [hsame] at hlast
      rcases hlast with hlast | hlast
      · rw [Option.some.inj hlast]
        exact t.word_ascii ':' (by decide)
      · rw [Option.some.inj hlast]
        exact t.not_word_colon

namespace IsReplyHead

variable {head : Text}

theorem unread (h : IsReplyHead t head) : Unread t head where
  closed hmem := by
    have hopen : (replyPrefixes.all fun pre => !pre.contains '[') = true := by decide
    have hpre := List.all_eq_true.mp hopen _ h.lower
    have hbracket : '[' ∈ head.map Char.toLower := List.mem_map.mpr ⟨'[', hmem, by decide⟩
    simp [hbracket] at hpre
  loose b w z hw hne := by
    obtain ⟨front, c, rfl, hlength, hc⟩ := h.colon
    obtain ⟨above, habove⟩ := hw
    obtain ⟨w', d, rfl⟩ := (List.eq_nil_or_concat w).resolve_left hne
    rw [List.concat_eq_append] at *
    rw [← List.append_assoc] at habove
    obtain ⟨rfl, hlast⟩ := List.append_inj' habove rfl
    obtain rfl : d = c := (List.cons.inj hlast).1
    rw [List.length_append] at hlength
    have hz : Unworded t (d :: z) := hc
    have hnone : (counterWords.findSome? fun word =>
        (stripWord? word (w' ++ [d] ++ z)).bind (spacedCounterAt t)) = none := by
      have hlong : (counterWords.all fun word => 3 ≤ word.length) = true := by decide
      rw [List.findSome?_eq_none_iff]
      intro word hword
      have hthree := of_decide_eq_true (List.all_eq_true.mp hlong word hword)
      rw [List.append_assoc, List.singleton_append,
        stripWord?_append (isTagWord_of_mem hword).2 hz]
      cases hstrip : stripWord? word w' with
      | none => rfl
      | some rest =>
        have hword' := stripWord?_length hstrip
        omega
    rw [looseCounterAt, hnone, ite_self]
  ends := by
    obtain ⟨front, c, rfl, -, hc⟩ := h.colon
    rw [List.getLast?_concat]
    exact hc

theorem trimChars_append (h : IsReplyHead t head) (z : Text) :
    trimChars (head ++ z) = head ++ z.rdropWhile isRustWhitespace := by
  obtain ⟨front, c, rfl, -, -⟩ := h.colon
  have hdrop : (front ++ [c] ++ z).dropWhile isRustWhitespace = front ++ [c] ++ z := by
    cases front with
    | nil => exact List.dropWhile_cons_of_neg (by simp [h.visible c (by simp)])
    | cons d front => exact List.dropWhile_cons_of_neg (by simp [h.visible d (by simp)])
  rw [trimChars, hdrop, List.append_assoc, List.singleton_append,
    rdropWhile_append_visible (h.visible c (by simp)), List.append_assoc, List.singleton_append]

end IsReplyHead

theorem trimChars_rdropWhile (s : Text) :
    trimChars (s.rdropWhile isRustWhitespace) = trimChars s := by
  conv_rhs => rw [← List.rdropWhile_append_rtakeWhile (p := isRustWhitespace) (l := s)]
  rw [trimChars_append_trailing fun _ => List.mem_rtakeWhile_imp]

/-- No prefix is the start of another one. -/
theorem foundPrefix_of_isPrefix {pre cs : Text} (hmem : pre ∈ cleanPrefixes)
    (hpre : pre <+: cs.map Char.toLower) : foundPrefix cleanPrefixes cs = some pre := by
  have hpairs : (cleanPrefixes.all fun p => cleanPrefixes.all fun q =>
      !p.isPrefixOf q || p = q) = true := by decide
  have hunique : ∀ p ∈ cleanPrefixes, ∀ q ∈ cleanPrefixes, p <+: q → p = q := by
    intro p hp q hq hpq
    have hall := List.all_eq_true.mp (List.all_eq_true.mp hpairs p hp) q hq
    rw [List.isPrefixOf_iff_prefix.mpr hpq] at hall
    simpa using hall
  unfold foundPrefix
  cases hfind : cleanPrefixes.find? fun pre => pre.isPrefixOf (cs.map Char.toLower) with
  | none =>
    have hnone := List.find?_eq_none.mp hfind pre hmem
    exact absurd (List.isPrefixOf_iff_prefix.mpr hpre) hnone
  | some q =>
    have hstarts := List.find?_some hfind
    have hq := List.isPrefixOf_iff_prefix.mp hstarts
    have hqmem := List.mem_of_find?_eq_some hfind
    rcases List.prefix_or_prefix_of_prefix hpre hq with hle | hle
    · rw [hunique pre hmem q hqmem hle]
    · rw [hunique q hqmem pre hmem hle]

theorem parseSubjectIndex_reply {head : Text} (h : IsReplyHead t head) (z : Text) :
    parseSubjectIndex t (head ++ z) = parseSubjectIndex t z := by
  refine parseSubjectIndex_congr (bracketCounter_append h.unread.closed z)
    (fun _ => h.unread.looseCounter_append rfl z) ?_
  have hlength : z.length ≤ (head ++ z).length := by
    rw [List.length_append]
    exact Nat.le_add_left _ _
  have hfound : foundPrefix cleanPrefixes (head ++ (dropGroups false z).rdropWhile isRustWhitespace) =
      some (head.map Char.toLower) := by
    refine foundPrefix_of_isPrefix (replyPrefixes_subset _ h.lower) ?_
    rw [List.map_append]
    exact List.prefix_append _ _
  rw [cleanSubject_eq hlength, cleanSubject_eq (Nat.le_succ _), dropGroups_of_closed h.unread.closed,
    h.trimChars_append, stripPrefixes_succ fun _ hpre => hpre, hfound]
  simp only [List.length_map, List.drop_left, trimChars_rdropWhile]

theorem parseSubjectIndex_stripReplies (s : Text) :
    parseSubjectIndex t (stripReplies t s) = parseSubjectIndex t s := by
  refine stripPrefixes_induction (motive := fun cs => parseSubjectIndex t cs = parseSubjectIndex t s)
    replyPrefixes_subset (fun cs pre hfound hcs => ?_) _ (parseSubjectIndex_trim s)
  obtain ⟨hmem, head, rest, rfl, rfl⟩ := mem_of_foundPrefix hfound
  rw [List.length_map, List.drop_left, parseSubjectIndex_trim,
    ← parseSubjectIndex_reply (isReplyHead_of_lower hmem), hcs]

end Sashiko
