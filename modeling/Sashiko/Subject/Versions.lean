import Sashiko.Subject.Tags

/-! The version that a promoted subject is read to have. -/

namespace Sashiko

variable {t : CharTables}

/-! ### Characters -/

theorem ascii_of_sameLetter {letter c : Char} (hletter : letter ∈ "patchrfcresendcommitv".toList)
    (h : sameLetter letter c = true) : c = 'ſ' ∧ letter = 's' ∨ c.toNat < 128 ∧ c.isAlpha = true := by
  rw [sameLetter, Bool.or_eq_true, decide_eq_true_eq, Bool.and_eq_true, decide_eq_true_eq,
    decide_eq_true_eq] at h
  rcases h with h | ⟨hs, hc⟩
  · right
    rw [toLower_def] at h
    split at h
    · rename_i hupper
      have hup : c.isUpper = true := decide_eq_true hupper
      exact ⟨lt_of_le_of_lt hupper.2 (by decide), by rw [isAlpha_def, hup, Bool.true_or]⟩
    · have hletters : ("patchrfcresendcommitv".toList.all fun l => l.toNat < 128 && l.isAlpha) =
          true := by decide
      have hl := List.all_eq_true.mp hletters letter hletter
      rw [Bool.and_eq_true, decide_eq_true_eq] at hl
      rwa [h]
  · exact .inl ⟨hc, hs⟩

theorem word_of_sameLetter {letter c : Char} (hletter : letter ∈ "patchrfcresendcommitv".toList)
    (h : sameLetter letter c = true) : t.word c = true := by
  rcases ascii_of_sameLetter hletter h with ⟨rfl, -⟩ | ⟨hascii, halpha⟩
  · exact t.word_long_s
  · rw [t.word_ascii c hascii, Char.isAlphanum, halpha, Bool.true_or, Bool.true_or]

theorem not_digit_of_sameLetter {letter c : Char} (hletter : letter ∈ "patchrfcecommitv".toList)
    (h : sameLetter letter c = true) : t.digit c = false := by
  have hsub : ("patchrfcecommitv".toList.all fun l =>
      l ≠ 's' && "patchrfcresendcommitv".toList.contains l) = true := by decide
  have hl := List.all_eq_true.mp hsub letter hletter
  rw [Bool.and_eq_true, decide_eq_true_eq, List.contains_iff_mem] at hl
  rcases ascii_of_sameLetter hl.2 h with ⟨-, hs⟩ | ⟨hascii, halpha⟩
  · exact absurd hs hl.1
  · rw [t.digit_ascii c hascii]
    by_contra hdigit
    have hd : c.isDigit = true := Bool.not_eq_false _ ▸ hdigit
    simp only [isAlpha_def, isUpper_def, isLower_def, Char.isDigit, Bool.or_eq_true,
      decide_eq_true_eq, Bool.and_eq_true, UInt32.le_iff_toNat_le, ge_iff_le] at halpha hd
    have h9 : ('9' : Char).val.toNat = 57 := rfl
    have hA : ('A' : Char).val.toNat = 65 := rfl
    have ha : ('a' : Char).val.toNat = 97 := rfl
    omega

theorem not_digit_of_not_word {c : Char} (h : t.word c = false) : t.digit c = false := by
  by_contra hdigit
  rw [t.word_of_digit c (Bool.not_eq_false _ ▸ hdigit)] at h
  cases h

/-- The text does not start with a word character. -/
def Unworded (t : CharTables) (cs : Text) : Prop := cs.head?.any t.word = false

theorem unworded_cons {c : Char} (h : t.word c = false) (cs : Text) : Unworded t (c :: cs) := h

theorem head_digit_of_unworded {cs : Text} (h : Unworded t cs) : cs.head?.any t.digit = false := by
  cases cs with
  | nil => rfl
  | cons c cs => exact not_digit_of_not_word h

/-! ### Numbers -/

theorem numberAt_append {u z : Text} (hz : z.head?.any t.digit = false) :
    numberAt t (u ++ z) =
      if u.all t.digit then if u ≠ [] ∧ z.head?.any t.word = false then some (u, z) else none
      else (numberAt t u).map fun p => (p.1, p.2 ++ z) := by
  obtain ⟨htake, hdrop⟩ := span_append_stop (u := u) hz
  by_cases hall : u.all t.digit = true
  · have hdigits := List.all_eq_true.mp hall
    rw [if_pos hall, numberAt, htake, hdrop, List.takeWhile_eq_self_iff.mpr hdigits,
      List.dropWhile_eq_nil_iff.mpr hdigits, List.nil_append]
  · have hsome : ∃ c ∈ u, t.digit c = false := by simpa using hall
    obtain ⟨-, -, hne⟩ := span_append hsome z
    obtain ⟨c, cs, hcs⟩ := List.exists_cons_of_ne_nil hne
    rw [if_neg hall, numberAt, numberAt, htake, hdrop, hcs, List.cons_append, List.head?_cons,
      List.head?_cons]
    split_ifs <;> rfl

theorem numberAt_eq_some {cs ds rest : Text} (h : numberAt t cs = some (ds, rest)) :
    cs = ds ++ rest ∧ ds ≠ [] ∧ (∀ c ∈ ds, t.digit c = true) ∧ Unworded t rest := by
  unfold numberAt at h
  split_ifs at h with hcond
  obtain ⟨rfl, rfl⟩ := Prod.mk.inj (Option.some.inj h)
  exact ⟨List.takeWhile_append_dropWhile.symm, hcond.1, fun c => List.mem_takeWhile_imp, hcond.2⟩

theorem numberAt_digits {ds rest : Text} (hne : ds ≠ []) (hds : ∀ c ∈ ds, t.digit c = true)
    (hrest : Unworded t rest) : numberAt t (ds ++ rest) = some (ds, rest) := by
  rw [numberAt_append (head_digit_of_unworded hrest), if_pos (List.all_eq_true.mpr hds),
    if_pos ⟨hne, hrest⟩]

/-- In front of a `v` no number ends, and a number before it ends before it. -/
theorem numberAt_eq_none_congr {u z z' : Text} (hz : z.head?.any t.digit = false)
    (hz' : z'.head?.any t.digit = false) (hword : z.head?.any t.word = z'.head?.any t.word) :
    numberAt t (u ++ z) = none ↔ numberAt t (u ++ z') = none := by
  rw [numberAt_append hz, numberAt_append hz', hword]
  split_ifs
  · exact iff_of_false nofun nofun
  · exact Iff.rfl
  · rw [Option.map_eq_none_iff, Option.map_eq_none_iff]

theorem versionAt_cons {c : Char} (h : sameLetter 'v' c = true) (cs : Text) :
    versionAt t (c :: cs) = numberAt t cs := by
  rw [versionAt, stripWord?, if_pos h, stripWord?, Option.bind_some]

theorem versionAt_cons_of_ne {c : Char} (h : sameLetter 'v' c = false) (cs : Text) :
    versionAt t (c :: cs) = none := by
  rw [versionAt, stripWord?, if_neg (by rw [h]; exact Bool.false_ne_true), Option.bind_none]

theorem versionAt_eq_some {cs ds rest : Text} (h : versionAt t cs = some (ds, rest)) :
    ∃ c, sameLetter 'v' c = true ∧ cs = c :: (ds ++ rest) ∧ numberAt t (ds ++ rest) = some (ds, rest)
      := by
  cases cs with
  | nil => cases h
  | cons c cs =>
    cases hc : sameLetter 'v' c with
    | false =>
      rw [versionAt_cons_of_ne hc] at h
      cases h
    | true =>
      rw [versionAt_cons hc] at h
      obtain ⟨rfl, -, -, -⟩ := numberAt_eq_some h
      exact ⟨c, hc, rfl, h⟩

/-! ### Brackets -/

theorem closing_append {tail : Text} (h : ']' ∉ tail) (after : Text) :
    closing (tail ++ ']' :: after) = some (tail, after) := by
  have hpos : ∀ c ∈ tail, decide (c ≠ ']') = true := fun c hc =>
    decide_eq_true fun heq => h (heq ▸ hc)
  rw [closing, if_pos (by simp), List.takeWhile_append_of_pos hpos,
    List.dropWhile_append_of_pos hpos, List.takeWhile_cons_of_neg (by simp),
    List.dropWhile_cons_of_neg (by simp), List.append_nil, List.tail_cons]

theorem closing_eq_some {cs tail after : Text} (h : closing cs = some (tail, after)) :
    cs = tail ++ ']' :: after ∧ ']' ∉ tail := by
  have hmem : ']' ∈ cs := by
    by_contra hnot
    rw [closing, if_neg hnot] at h
    cases h
  obtain ⟨tail', after', rfl, hnot⟩ := List.eq_append_cons_of_mem hmem
  rw [closing_append hnot] at h
  obtain ⟨rfl, rfl⟩ := Prod.mk.inj (Option.some.inj h)
  exact ⟨rfl, hnot⟩

theorem isSome_closing {cs : Text} (h : ']' ∈ cs) : ∃ q, closing cs = some q := ⟨_, if_pos h⟩

/-- Where the text is closed, a version fails on the characters up to the end of its number. -/
theorem versionToClose_eq_none_iff {b : Option Char} {c : Char} {cs : Text} (h : ']' ∈ cs) :
    versionToClose t b (c :: cs) = none ↔
      t.edge b [c] = false ∨ sameLetter 'v' c = false ∨ numberAt t cs = none := by
  have hedge : t.edge b (c :: cs) = t.edge b [c] := rfl
  rw [versionToClose, hedge]
  cases t.edge b [c] with
  | false => simp
  | true =>
    cases hc : sameLetter 'v' c with
    | false => simp [versionAt_cons_of_ne hc]
    | true =>
      rw [if_pos rfl, versionAt_cons hc]
      cases hnumber : numberAt t cs with
      | none => simp
      | some p =>
        obtain ⟨ds, rest⟩ := p
        obtain ⟨hcs, -, hds, -⟩ := numberAt_eq_some hnumber
        have hrest : ']' ∈ rest := by
          rw [hcs, List.mem_append] at h
          refine h.resolve_left fun hmem => ?_
          have hdigit := hds _ hmem
          rw [t.digit_ascii ']' (by decide)] at hdigit
          cases hdigit
        obtain ⟨q, hq⟩ := isSome_closing hrest
        simp [hq]

/-- A bracket with a version, taken apart. -/
structure HasVersion (t : CharTables) (z head ds tail after : Text) (v : Char) : Prop where
  text : z = '[' :: (head ++ v :: (ds ++ (tail ++ ']' :: after)))
  letter : sameLetter 'v' v = true
  digits : ds ≠ [] ∧ ∀ c ∈ ds, t.digit c = true
  head_open : ']' ∉ head
  tail_open : ']' ∉ tail
  edge : t.edge (lastBefore (some '[') head) [v] = true
  stop : Unworded t (tail ++ ']' :: after)
  earlier : ∀ u₁ u₂, head = u₁ ++ u₂ → u₂ ≠ [] →
    versionToClose t (lastBefore (some '[') u₁)
      (u₂ ++ v :: (ds ++ (tail ++ ']' :: after))) = none

theorem versionToClose_eq_some {b : Option Char} {cs ds tail after : Text}
    (h : versionToClose t b cs = some (ds, tail, after)) :
    ∃ v, cs = v :: (ds ++ (tail ++ ']' :: after)) ∧ sameLetter 'v' v = true ∧ t.edge b [v] = true ∧
      (ds ≠ [] ∧ ∀ c ∈ ds, t.digit c = true) ∧ ']' ∉ tail ∧ Unworded t (tail ++ ']' :: after) := by
  unfold versionToClose at h
  split_ifs at h with hedge
  obtain ⟨⟨ds', rest⟩, hversion, hmap⟩ := Option.bind_eq_some_iff.mp h
  obtain ⟨⟨tail', after'⟩, hclosing, heq⟩ := Option.map_eq_some_iff.mp hmap
  obtain ⟨rfl, hpair⟩ := Prod.mk.inj heq
  obtain ⟨rfl, rfl⟩ := Prod.mk.inj hpair
  obtain ⟨v, hv, rfl, hnumber⟩ := versionAt_eq_some hversion
  obtain ⟨rfl, htail⟩ := closing_eq_some hclosing
  obtain ⟨-, hne, hds, hstop⟩ := numberAt_eq_some hnumber
  exact ⟨v, rfl, hv, hedge, ⟨hne, hds⟩, htail, hstop⟩

theorem hasVersion_of_bracketVersionAt {z head ds tail after : Text}
    (h : bracketVersionAt t z = some (head, ds, tail, after)) :
    ∃ v, HasVersion t z head ds tail after v := by
  unfold bracketVersionAt at h
  split at h
  · rename_i cs
    obtain ⟨w, rfl, hmatch, hrun, hearlier⟩ := firstMatch_eq_some h
    obtain ⟨v, rfl, hv, hedge, hds, htail, hstop⟩ := versionToClose_eq_some hmatch
    exact ⟨v, rfl, hv, hds, fun hmem => by simpa using hrun _ hmem, htail, hedge, hstop, hearlier⟩
  · cases h

theorem versionToClose_version {b : Option Char} {v : Char} {ds tail : Text} (after : Text)
    (hv : sameLetter 'v' v = true) (hedge : t.edge b [v] = true)
    (hds : ds ≠ [] ∧ ∀ c ∈ ds, t.digit c = true) (htail : ']' ∉ tail)
    (hstop : Unworded t (tail ++ ']' :: after)) :
    versionToClose t b (v :: (ds ++ (tail ++ ']' :: after))) = some (ds, tail, after) := by
  have hedge' : t.edge b (v :: (ds ++ (tail ++ ']' :: after))) = true := hedge
  rw [versionToClose, if_pos hedge', versionAt_cons hv, numberAt_digits hds.1 hds.2 hstop,
    Option.bind_some, closing_append htail, Option.map_some]

/-- A bracket whose first version is the one behind `head`. -/
theorem bracketVersionAt_of {v : Char} {head ds tail : Text} (after : Text)
    (hv : sameLetter 'v' v = true) (hhead : ']' ∉ head)
    (hedge : t.edge (lastBefore (some '[') head) [v] = true)
    (hds : ds ≠ [] ∧ ∀ c ∈ ds, t.digit c = true) (htail : ']' ∉ tail)
    (hstop : Unworded t (tail ++ ']' :: after))
    (hearlier : ∀ u₁ u₂, head = u₁ ++ u₂ → u₂ ≠ [] →
      versionToClose t (lastBefore (some '[') u₁)
        (u₂ ++ v :: (ds ++ (tail ++ ']' :: after))) = none) :
    bracketVersionAt t ('[' :: (head ++ v :: (ds ++ (tail ++ ']' :: after)))) =
      some (head, ds, tail, after) := by
  have hrun : ∀ c ∈ head, decide (c ≠ ']') = true := fun c hc =>
    decide_eq_true fun heq => hhead (heq ▸ hc)
  rw [bracketVersionAt, firstMatch_append hrun hearlier,
    firstMatch_of_some (versionToClose_version after hv hedge hds htail hstop), Option.map_some,
    List.append_nil]

theorem sameLetter_v : sameLetter 'v' 'v' = true := by decide

theorem HasVersion.earlier_replaced {z head ds tail after : Text} {v : Char}
    (h : HasVersion t z head ds tail after v) (ds' : Text) {u₁ u₂ : Text} (hsplit : head = u₁ ++ u₂)
    (hne : u₂ ≠ []) :
    versionToClose t (lastBefore (some '[') u₁) (u₂ ++ 'v' :: (ds' ++ (tail ++ ']' :: after))) =
      none := by
  have hdigit : ∀ c, sameLetter 'v' c = true → t.digit c = false := fun c =>
    not_digit_of_sameLetter (by decide)
  have hnone := h.earlier u₁ u₂ hsplit hne
  obtain ⟨c, u₃, rfl⟩ := List.exists_cons_of_ne_nil hne
  rw [List.cons_append, versionToClose_eq_none_iff (by simp)] at hnone ⊢
  refine hnone.imp id (Or.imp id fun hnumber => (numberAt_eq_none_congr ?_ ?_ ?_).mp hnumber)
  · exact hdigit _ h.letter
  · exact hdigit _ sameLetter_v
  · rw [List.head?_cons, List.head?_cons, Option.any_some, Option.any_some,
      word_of_sameLetter (by decide) h.letter, word_of_sameLetter (by decide) sameLetter_v]

/-- The version of a bracket replaced by another. -/
theorem HasVersion.replace {z head ds tail after : Text} {v : Char}
    (h : HasVersion t z head ds tail after v) {ds' : Text}
    (hds' : ds' ≠ [] ∧ ∀ c ∈ ds', t.digit c = true) :
    bracketVersionAt t ('[' :: (head ++ 'v' :: (ds' ++ (tail ++ ']' :: after)))) =
      some (head, ds', tail, after) := by
  refine bracketVersionAt_of after sameLetter_v h.head_open ?_ hds' h.tail_open h.stop
    fun u₁ u₂ => h.earlier_replaced ds'
  have hedge := h.edge
  simp only [CharTables.edge, List.head?_cons, Option.any_some,
    word_of_sameLetter (t := t) (by decide) h.letter,
    word_of_sameLetter (t := t) (by decide) sameLetter_v] at hedge ⊢
  exact hedge

end Sashiko
