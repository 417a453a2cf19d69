import Mathlib.Data.Nat.Digits.Lemmas
import Sashiko.Subject.Promotion

/-! What is read back from a promoted subject. -/

namespace Sashiko

variable {t : CharTables}

/-! ### The bracket that is rewritten -/

theorem bracketVersion_eq_some {s before head ds tail after : Text}
    (h : bracketVersion t s = some (before, head, ds, tail, after)) :
    ∃ z v, s = before ++ z ∧ HasVersion t z head ds tail after v ∧
      ∀ u, u <:+ before → u ≠ [] → bracketVersionAt t (u ++ z) = none := by
  obtain ⟨z, rfl, hmatch, -, hearlier⟩ := firstMatch_eq_some h
  obtain ⟨v, hversion⟩ := hasVersion_of_bracketVersionAt hmatch
  refine ⟨z, v, rfl, hversion, fun u hu hne => ?_⟩
  obtain ⟨u₁, hsplit⟩ := hu
  exact hearlier u₁ u hsplit.symm hne

theorem stripWord?_eq_some {word cs rest : Text}
    (hword : ∀ letter ∈ word, letter ∈ "patchrfcresendcommitv".toList)
    (h : stripWord? word cs = some rest) :
    ∃ taken, cs = taken ++ rest ∧ taken.length = word.length ∧ ∀ c ∈ taken, t.word c = true := by
  induction word generalizing cs with
  | nil =>
    obtain rfl := Option.some.inj h
    exact ⟨[], rfl, rfl, nofun⟩
  | cons letter word ih =>
    cases cs with
    | nil => cases h
    | cons c cs =>
      rw [stripWord?] at h
      split_ifs at h with hc
      obtain ⟨taken, rfl, hlength, htaken⟩ := ih (fun l hl => hword l (List.mem_cons_of_mem _ hl)) h
      refine ⟨c :: taken, rfl, by rw [List.length_cons, hlength, List.length_cons], ?_⟩
      exact List.forall_mem_cons.mpr
        ⟨word_of_sameLetter (hword letter List.mem_cons_self) hc, htaken⟩

theorem tagToClose_eq_some {b : Option Char} {cs word tail after : Text}
    (h : tagToClose t b cs = some (word, tail, after)) :
    cs = word ++ (tail ++ ']' :: after) ∧ (word ≠ [] ∧ ∀ c ∈ word, t.word c = true) ∧
      ']' ∉ tail ∧ Unworded t (tail ++ ']' :: after) ∧ IsPatchTag t b word := by
  obtain ⟨rest, hat, hmap⟩ := Option.bind_eq_some_iff.mp h
  obtain ⟨⟨tail', after'⟩, hclosing, heq⟩ := Option.map_eq_some_iff.mp hmap
  obtain ⟨rfl, hpair⟩ := Prod.mk.inj heq
  obtain ⟨rfl, rfl⟩ := Prod.mk.inj hpair
  unfold wordAt at hat
  split_ifs at hat with hedge
  obtain ⟨letters, hletters, hfilter⟩ := List.exists_of_findSome?_eq_some hat
  obtain ⟨hstrip, hstop⟩ := Option.filter_eq_some_iff.mp hfilter
  have hletters' : (∀ l ∈ letters, l ∈ "patchrfcresendcommitv".toList) ∧ letters ≠ [] := by
    rcases List.mem_cons.mp hletters with rfl | hletters
    · exact ⟨mem_of_all_contains (by decide), by decide⟩
    · rw [List.mem_singleton.mp hletters]
      exact ⟨mem_of_all_contains (by decide), by decide⟩
  obtain ⟨taken, rfl, hlength, htaken⟩ := stripWord?_eq_some (t := t) hletters'.1 hstrip
  obtain ⟨rfl, htail⟩ := closing_eq_some hclosing
  have hword : (taken ++ (tail' ++ ']' :: after')).take
      ((taken ++ (tail' ++ ']' :: after')).length - (tail' ++ ']' :: after').length) = taken := by
    rw [List.length_append, Nat.add_sub_cancel, List.take_left]
  have hstop' : (tail' ++ ']' :: after').head?.any t.word = false := of_decide_eq_true hstop
  have hne : taken ≠ [] := fun hnil => hletters'.2 (by
    rw [hnil, List.length_nil] at hlength
    exact List.length_eq_zero_iff.mp hlength.symm)
  rw [hword]
  refine ⟨rfl, ⟨hne, htaken⟩, htail, hstop', ?_, letters, hletters, ?_⟩
  · obtain ⟨c, taken', rfl⟩ := List.exists_cons_of_ne_nil hne
    have hc : t.word c = true := htaken c List.mem_cons_self
    rw [CharTables.edge, List.cons_append, List.head?_cons, Option.any_some, hc] at hedge
    simpa using hedge
  · rw [stripWord?_append hletters'.1 hstop'] at hstrip
    obtain ⟨rest, hrest, heq⟩ := Option.map_eq_some_iff.mp hstrip
    rw [hrest, List.append_left_eq_self.mp heq]

theorem bracketVersionAt_eq_none {u z : Text} (h : bracketVersion t (u ++ z) = none) :
    bracketVersionAt t z = none :=
  match_none_of_firstMatch (eq_none_of_firstMatch h fun _ _ => rfl)

theorem bracketTag_eq_some {s before head word tail after : Text}
    (h : bracketTag t s = some (before, head, word, tail, after))
    (hno : bracketVersion t s = none) :
    ∃ z, s = before ++ z ∧ HasTag t z (head ++ word) tail after ∧
      ∀ u, '[' :: u <:+ before → ']' ∈ u ∧ bracketVersionAt t ('[' :: (u ++ z)) = none := by
  obtain ⟨z, rfl, hmatch, -, hearlier⟩ := firstMatch_eq_some h
  unfold bracketTagAt at hmatch
  split at hmatch
  · rename_i cs
    obtain ⟨w, rfl, hat, hrun, -⟩ := firstMatch_eq_some hmatch
    obtain ⟨rfl, ⟨hne, hword⟩, htail, hstop, htag⟩ := tagToClose_eq_some hat
    have hhead : ']' ∉ head := fun hmem => by simpa using hrun _ hmem
    refine ⟨_, rfl, ?_, ?_⟩
    · obtain ⟨c, word', hc⟩ := List.exists_cons_of_ne_nil hne
      have hmem : c ∈ word := hc ▸ List.mem_cons_self
      refine ⟨by rw [List.append_assoc], fun hclose => ?_, ⟨c, List.mem_append_right _ hmem,
        hword c hmem⟩, htail, hstop, bracketVersionAt_eq_none hno, head, word, rfl, htag⟩
      rcases List.mem_append.mp hclose with hclose | hclose
      · exact hhead hclose
      · have := hword _ hclose
        rw [not_word_close] at this
        cases this
    · intro u hu
      obtain ⟨u₁, hsplit⟩ := hu
      constructor
      · have hnone := hearlier u₁ ('[' :: u) hsplit.symm (List.cons_ne_nil _ _)
        rw [List.cons_append] at hnone
        exact close_mem_of_earlier hhead hat hnone
      · rw [← hsplit, List.append_assoc] at hno
        exact bracketVersionAt_eq_none hno
  · cases hmatch

/-- The digits that are written for a version. -/
abbrev versionDigits (version : ℕ) : Text := Nat.toDigits 10 version

theorem versionDigits_digits (version : ℕ) :
    versionDigits version ≠ [] ∧ ∀ c ∈ versionDigits version, t.digit c = true := by
  refine ⟨Nat.toDigits_ne_nil, fun c hc => ?_⟩
  have hdigit : c.isDigit = true := Nat.isDigit_of_mem_toDigits (by decide) (by decide) hc
  have hascii : c.toNat < 128 := by
    rw [Char.isDigit, Bool.and_eq_true, decide_eq_true_eq, decide_eq_true_eq] at hdigit
    exact lt_of_le_of_lt hdigit.2 (by decide)
  rw [t.digit_ascii c hascii, hdigit]

theorem parseU32_versionDigits {version : ℕ} (h : version < 2 ^ 32) :
    parseU32 (versionDigits version) = some version := by
  have hall : ∀ c ∈ versionDigits version, c.isDigit = true := fun c hc =>
    Nat.isDigit_of_mem_toDigits (by decide) (by decide) hc
  rw [parseU32, Nat.ofDigitChars_ten_toDigits, if_pos ⟨List.all_eq_true.mpr hall, h⟩]

/-- What a subject without its reply prefixes is promoted to. -/
inductive Rewrite (t : CharTables) (s : Text) (version : ℕ) : Text → Prop
  | kept : parseSubjectVersion t s = some version → Rewrite t s version s
  | replaced {before z head ds tail after : Text} {v : Char} :
    parseSubjectVersion t s ≠ some version →
    bracketVersion t s = some (before, head, ds, tail, after) →
    s = before ++ z → HasVersion t z head ds tail after v →
    (∀ u, u <:+ before → u ≠ [] → bracketVersionAt t (u ++ z) = none) →
    Rewrite t s version
      (before ++ '[' :: (head ++ 'v' :: (versionDigits version ++ (tail ++ ']' :: after))))
  | inserted {before z head word tail after : Text} :
    parseSubjectVersion t s ≠ some version → bracketVersion t s = none →
    bracketTag t s = some (before, head, word, tail, after) → s = before ++ z →
    HasTag t z (head ++ word) tail after →
    (∀ u, '[' :: u <:+ before → ']' ∈ u ∧ bracketVersionAt t ('[' :: (u ++ z)) = none) →
    Rewrite t s version
      (before ++ '[' ::
        (head ++ word ++ ' ' :: 'v' :: (versionDigits version ++ (tail ++ ']' :: after))))
  | added : parseSubjectVersion t s ≠ some version → bracketVersion t s = none →
    bracketTag t s = none →
    Rewrite t s version
      ('[' :: ("PATCH".toList ++ ' ' :: 'v' :: (versionDigits version ++ ']' :: ' ' :: s)))

theorem promote_cases (subject : Text) {version : ℕ} (hversion : 2 ≤ version) :
    Rewrite t (stripReplies t subject) version (promoteReplyPatchSubject t subject version) := by
  unfold promoteReplyPatchSubject
  generalize stripReplies t subject = s
  by_cases hkept : parseSubjectVersion t s = some version
  · rw [if_pos (.inr hkept)]
    exact .kept hkept
  · rw [if_neg fun hor => hor.elim (fun hle => absurd hle (by omega)) hkept]
    cases hv : bracketVersion t s with
    | some m =>
      obtain ⟨before, head, ds, tail, after⟩ := m
      obtain ⟨z, v, hs, hversion, hearlier⟩ := bracketVersion_eq_some hv
      have hrewrite := Rewrite.replaced hkept hv hs hversion hearlier
      simpa [versionText] using hrewrite
    | none =>
      cases htag : bracketTag t s with
      | some m =>
        obtain ⟨before, head, word, tail, after⟩ := m
        obtain ⟨z, hs, hwords, hclosed⟩ := bracketTag_eq_some htag hv
        have hrewrite := Rewrite.inserted hkept hv htag hs hwords hclosed
        simpa [versionText] using hrewrite
      | none =>
        have hrewrite := Rewrite.added hkept hv htag
        simpa [versionText] using hrewrite

/-! ### The version that is read -/

/-- The text before the bracket that is rewritten. -/
def rewrittenBefore (t : CharTables) (s : Text) : Option Text :=
  ((bracketVersion t s).map (·.1)).or ((bracketTag t s).map (·.1))

/-- No version is read from the text before the bracket that is rewritten: where one is read, the
match ends behind the start of the bracket. -/
def NoVersionBefore (t : CharTables) (s : Text) : Prop :=
  ∀ before, rewrittenBefore t s = some before → ∀ m, versionTag t s = some m →
    before.length + m.2.2.length < s.length

theorem Rewritten.parse {before inside inside' digits : Text} {version : ℕ}
    (h : Rewritten t before inside inside' digits) (hdigits : parseU32 digits = some version)
    (hne : parseSubjectVersion t (before ++ '[' :: inside) ≠ some version) :
    parseSubjectVersion t (before ++ '[' :: inside') = some version ↔
      ∀ m, versionTag t (before ++ '[' :: inside) = some m → m.2.2.length ≤ inside.length := by
  have hread := h.versionRead (b := none) (List.suffix_refl before)
  unfold parseSubjectVersion versionTag at *
  rcases hread with ⟨run, ds, rest, hfound, hfound'⟩ | ⟨⟨run, rest, hfound'⟩, hshort⟩
  · rw [hfound] at hne
    rw [hfound, hfound']
    refine iff_of_false hne fun hshort => ?_
    have hlength := hshort _ rfl
    simp only [List.length_append, List.length_cons] at hlength
    omega
  · rw [hfound']
    exact iff_of_true hdigits hshort

theorem hasTag_patch (after : Text) :
    HasTag t ('[' :: ("PATCH".toList ++ ([] ++ ']' :: after))) "PATCH".toList [] after where
  text := rfl
  front_open := by decide
  front_word := ⟨'P', by decide, t.word_ascii 'P' (by decide)⟩
  tail_open := by decide
  stop := not_word_close
  no_version := by
    have hletters : "PATCH".toList.all (fun c => !sameLetter 'v' c) = true := by decide
    have hletter : ∀ c ∈ "PATCH".toList, sameLetter 'v' c = false := fun c hc => by
      simpa using List.all_eq_true.mp hletters c hc
    have hinside : "PATCH".toList.all (fun c => decide (c ≠ ']')) = true := by decide
    have hrun : ∀ c ∈ "PATCH".toList, decide (c ≠ ']') = true := List.all_eq_true.mp hinside
    rw [bracketVersionAt, List.nil_append, firstMatch_append hrun fun u₁ u₂ hsplit hne => ?_,
      firstMatch_close, Option.map_none]
    obtain ⟨c, u₃, rfl⟩ := List.exists_cons_of_ne_nil hne
    have hc : sameLetter 'v' c = false := hletter c (by rw [hsplit]; simp)
    rw [List.cons_append, versionToClose, versionAt_cons_of_ne hc, Option.bind_none, ite_self]
  tag := ⟨[], "PATCH".toList, rfl, not_word_bracket, "patch".toList, by decide, by decide⟩

/-- The version is read back if and only if the subject has it, or none is read from the text before
the bracket that is rewritten. -/
theorem Rewrite.parse_iff {s r : Text} {version : ℕ} (h : Rewrite t s version r)
    (hlt : version < 2 ^ 32) :
    parseSubjectVersion t r = some version ↔
      parseSubjectVersion t s = some version ∨ NoVersionBefore t s := by
  have hdigits := versionDigits_digits (t := t) version
  have hparse := parseU32_versionDigits hlt
  cases h with
  | kept hkept => exact iff_of_true hkept (.inl hkept)
  | @replaced before z head ds tail after v hne hbefore hs hversion hearlier =>
    have hrewritten := hversion.rewritten hdigits hearlier
    have hread := hrewritten.parse hparse (by rw [← hversion.text, ← hs]; exact hne)
    rw [hread, or_iff_right hne, NoVersionBefore, rewrittenBefore, hbefore, Option.map_some,
      Option.some_or,
      ← hversion.text, ← hs]
    have hlength : s.length = before.length + (head ++ v :: (ds ++ (tail ++ ']' :: after))).length +
        1 := by
      rw [hs, hversion.text, List.length_append, List.length_cons, Nat.add_assoc]
    constructor
    · intro hshort b hb m hm
      obtain rfl : before = b := Option.some.inj hb
      have := hshort m hm
      omega
    · intro hshort m hm
      have := hshort before rfl m hm
      omega
  | @inserted before z head word tail after hne hv hbefore hs htag hclosed =>
    have hrewritten := htag.rewritten hdigits hclosed
    have hread := hrewritten.parse hparse (by rw [← htag.text, ← hs]; exact hne)
    rw [hread, or_iff_right hne, NoVersionBefore, rewrittenBefore, hv, hbefore, Option.map_none,
      Option.none_or, Option.map_some, ← htag.text, ← hs]
    have hlength : s.length =
        before.length + (head ++ word ++ (tail ++ ']' :: after)).length + 1 := by
      rw [hs, htag.text, List.length_append, List.length_cons, Nat.add_assoc]
    constructor
    · intro hshort b hb m hm
      obtain rfl : before = b := Option.some.inj hb
      have := hshort m hm
      omega
    · intro hshort m hm
      have := hshort before rfl m hm
      omega
  | added hne hv htag =>
    have hread := (hasTag_patch (t := t) (' ' :: s)).insert hdigits
    rw [List.append_assoc] at hread
    refine iff_of_true ?_ (.inr fun b hb => ?_)
    · unfold parseSubjectVersion versionTag
      rw [firstMatch_of_some (m := (versionDigits version, ' ' :: s)) ?_]
      · exact hparse
      · rw [versionTagAt]
        simp only [List.nil_append, List.cons_append] at hread
        rw [hread]
        rfl
    · rw [rewrittenBefore, hv, htag] at hb
      cases hb

end Sashiko
