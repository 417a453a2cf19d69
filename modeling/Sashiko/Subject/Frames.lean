import Sashiko.Subject.Cleaning
import Sashiko.Subject.Counters
import Sashiko.Subject.ReadBack

/-! The searches for a part counter in two texts that differ in a part that reads alike. -/

namespace Sashiko

variable {t : CharTables} {b : Option Char} {u w z z' : Text}

/-! ### The searches -/

def bracketCounter (t : CharTables) (s : Text) : Option (Text × Text) :=
  (firstMatch (fun _ => true) (fun _ => bracketCounterAt t) none s).map (·.2)

def looseCounter (t : CharTables) (b : Option Char) (s : Text) : Option (Text × Text) :=
  (firstMatch (fun _ => true) (looseCounterAt t) b s).map (·.2)

/-- The search behind an open bracket. -/
def innerCounter (t : CharTables) (b : Option Char) (s : Text) : Option (Text × Text) :=
  (firstMatch isDot (tagThenCounter t) b s).map (·.2)

theorem parseSubjectIndex_congr {s s' : Text} (hbracket : bracketCounter t s = bracketCounter t s')
    (hloose : bracketCounter t s = none → looseCounter t none s = looseCounter t none s')
    (hstart : startCounter t (cleanSubject t s) = startCounter t (cleanSubject t s')) :
    parseSubjectIndex t s = parseSubjectIndex t s' := by
  unfold parseSubjectIndex
  rw [← hstart]
  unfold bracketCounter looseCounter at *
  rw [← hbracket]
  cases hs : (firstMatch (fun _ => true) (fun _ => bracketCounterAt t) none s).map (·.2) with
  | some m => rfl
  | none => rw [← hloose hs]

/-! ### Tags -/

/-- A word that is searched for: not empty, of letters. -/
def IsTagWord (word : Text) : Prop :=
  word ≠ [] ∧ ∀ letter ∈ word, letter ∈ "patchrfcresendcommitv".toList

theorem isTagWord_of_mem {word : Text} (h : word ∈ counterWords) : IsTagWord word := by
  have hall : (counterWords.all fun word =>
      !word.isEmpty && word.all "patchrfcresendcommitv".toList.contains) = true := by decide
  have hword := List.all_eq_true.mp hall word h
  rw [Bool.and_eq_true] at hword
  exact ⟨by simpa using hword.1, mem_of_all_contains hword.2⟩

theorem stripWord?_eq_none {word : Text} (hword : IsTagWord word) (hz : Unworded t z) :
    stripWord? word z = none := by
  obtain ⟨letter, word', rfl⟩ := List.exists_cons_of_ne_nil hword.1
  cases z with
  | nil => rfl
  | cons c z =>
    have hc : sameLetter letter c = false :=
      not_sameLetter_of_not_word (hword.2 letter List.mem_cons_self) hz
    rw [stripWord?, hc, if_neg Bool.false_ne_true]

theorem versionAt_eq_none (hz : Unworded t z) : versionAt t z = none := by
  have hv : IsTagWord ['v'] := ⟨by decide, mem_of_all_contains (by decide)⟩
  rw [versionAt, stripWord?_eq_none hv hz, Option.bind_none]

theorem wordAt_eq_none (hz : Unworded t z) : wordAt t counterWords b z = none := by
  have hnone : (counterWords.findSome? fun word =>
      (stripWord? word z).filter fun rest => rest.head?.any t.word = false) = none := by
    rw [List.findSome?_eq_none_iff]
    intro word hword
    rw [stripWord?_eq_none (isTagWord_of_mem hword) hz, Option.filter_none]
  rw [wordAt, hnone, ite_self]

theorem anyTagAt_eq_none (hz : Unworded t z) : anyTagAt t b z = none := by
  rw [anyTagAt, wordAt_eq_none hz, versionAt_eq_none hz, Option.map_none, ite_self, Option.or_none]

theorem findSome?_congr_mem {α β : Type} {f g : α → Option β} {xs : List α}
    (h : ∀ x ∈ xs, f x = g x) : xs.findSome? f = xs.findSome? g := by
  induction xs with
  | nil => rfl
  | cons x xs ih =>
    rw [List.findSome?_cons, List.findSome?_cons, h x List.mem_cons_self,
      ih fun y hy => h y (List.mem_cons_of_mem _ hy)]

theorem wordAt_append (hz : Unworded t z) {c : Char} {u : Text} :
    wordAt t counterWords b (c :: u ++ z) = (wordAt t counterWords b (c :: u)).map (· ++ z) := by
  unfold wordAt
  rw [List.cons_append, CharTables.edge, CharTables.edge, List.head?_cons, List.head?_cons]
  split_ifs
  · rw [List.map_findSome?]
    refine findSome?_congr_mem fun word hword => ?_
    have hfilter : ∀ rest : Text, ((rest ++ z).head?.any t.word = false ↔
        rest.head?.any t.word = false) := fun rest => by
      cases rest with
      | nil => exact iff_of_true hz rfl
      | cons d rest => exact Iff.rfl
    rw [Function.comp_apply, ← List.cons_append, stripWord?_append (isTagWord_of_mem hword).2 hz]
    cases stripWord? word (c :: u) with
    | none => rfl
    | some rest =>
      rw [Option.map_some, Option.filter_some, Option.filter_some]
      simp only [hfilter]
      split_ifs <;> rfl
  · rfl

theorem anyTagAt_append (hz : Unworded t z) (u : Text) :
    anyTagAt t b (u ++ z) = (anyTagAt t b u).map (· ++ z) := by
  cases u with
  | nil =>
    have hnil : Unworded t [] := rfl
    rw [List.nil_append, anyTagAt_eq_none hz, anyTagAt_eq_none hnil, Option.map_none]
  | cons c u =>
    have hedge : t.edge b (c :: u ++ z) = t.edge b (c :: u) := rfl
    rw [anyTagAt, anyTagAt, wordAt_append hz, versionAt_append hz, hedge]
    cases wordAt t counterWords b (c :: u) with
    | some rest => rfl
    | none =>
      rw [Option.map_none, Option.none_or, Option.none_or]
      split_ifs
      · rw [Option.map_map, Option.map_map]
        rfl
      · rfl

/-- No word runs from the one text into the other. -/
def Parted (t : CharTables) (u z : Text) : Prop := u.getLast?.any t.word = false ∨ Unworded t z

theorem Parted.suffix (h : Parted t u z) (hw : w <:+ u) (hne : w ≠ []) : Parted t w z := by
  refine h.imp_left fun hlast => ?_
  obtain ⟨front, rfl⟩ := hw
  rwa [List.getLast?_append_of_ne_nil _ hne] at hlast

/-- A text that ends in no word is one to which a text that starts with none was added. -/
theorem Parted.exists_of_ne_nil (h : Parted t u z) (hne : u ≠ []) :
    ∃ v x, u = v ++ x ∧ Unworded t (x ++ z) ∧ Unworded t x := by
  rcases h with hlast | hz
  · obtain ⟨v, c, rfl⟩ := (List.eq_nil_or_concat u).resolve_left hne
    rw [List.concat_eq_append, List.getLast?_concat] at hlast
    exact ⟨v, [c], List.concat_eq_append, hlast, hlast⟩
  · exact ⟨u, [], (List.append_nil u).symm, hz, rfl⟩

theorem anyTagAt_parted (h : Parted t u z) (hne : u ≠ []) :
    anyTagAt t b (u ++ z) = (anyTagAt t b u).map (· ++ z) := by
  obtain ⟨v, x, rfl, hxz, hx⟩ := h.exists_of_ne_nil hne
  rw [List.append_assoc, anyTagAt_append hxz, anyTagAt_append hx, Option.map_map]
  simp only [Function.comp_def, List.append_assoc]

theorem stripWord?_parted {word : Text} (hword : IsTagWord word) (h : Parted t u z) (hne : u ≠ []) :
    stripWord? word (u ++ z) = (stripWord? word u).map (· ++ z) := by
  obtain ⟨v, x, rfl, hxz, hx⟩ := h.exists_of_ne_nil hne
  rw [List.append_assoc, stripWord?_append hword.2 hxz, stripWord?_append hword.2 hx,
    Option.map_map]
  simp only [Function.comp_def, List.append_assoc]

/-! ### Texts that read alike -/

/-- Texts that continue every text before them alike. -/
structure Alike (t : CharTables) (z z' : Text) : Prop extends SameCounters t z z' where
  word : z.head?.any t.word = z'.head?.any t.word
  blank : counterAt t (z.dropWhile isRustWhitespace) = none
  blank' : counterAt t (z'.dropWhile isRustWhitespace) = none
  inner : ∀ b, b.any t.word = false ∨ Unworded t z → innerCounter t b z = innerCounter t b z'

theorem Alike.tagThenCounter (h : Alike t z z') (hp : Parted t u z) (hne : u ≠ []) :
    tagThenCounter t b (u ++ z) = tagThenCounter t b (u ++ z') := by
  have hp' : Parted t u z' := hp.imp_right fun hz => h.word.symm.trans hz
  rw [Sashiko.tagThenCounter, Sashiko.tagThenCounter, anyTagAt_parted hp hne,
    anyTagAt_parted hp' hne]
  cases anyTagAt t b u with
  | none => rfl
  | some rest => exact h.append rest

theorem Alike.bracketCounterAt (h : Alike t z z') (hp : Parted t u z) (hne : u ≠ []) :
    bracketCounterAt t (u ++ z) = bracketCounterAt t (u ++ z') := by
  obtain ⟨c, v, rfl⟩ := List.exists_cons_of_ne_nil hne
  by_cases hc : c = '['
  · subst hc
    refine firstMatch_frame (fun b x hx hxne => ?_) (h.inner _ ?_)
    · exact h.tagThenCounter (hp.suffix (hx.trans (List.suffix_cons _ _)) hxne) hxne
    · refine hp.imp_left fun hlast => ?_
      rcases List.eq_nil_or_concat v with rfl | ⟨v', d, rfl⟩
      · exact not_word_bracket
      · rw [List.concat_eq_append, ← List.cons_append, List.getLast?_concat] at hlast
        rw [List.concat_eq_append, lastBefore_append_cons, lastBefore_nil]
        exact hlast
  · have hother : ∀ x, Sashiko.bracketCounterAt t (c :: x) = none := by
      intro x
      unfold Sashiko.bracketCounterAt
      split
      · next heq => exact absurd (List.cons.inj heq).1 hc
      · rfl
    rw [List.cons_append, List.cons_append, hother, hother]

theorem Alike.bracketCounter (h : Alike t z z') (hp : Parted t u z)
    (hz : bracketCounter t z = bracketCounter t z') :
    bracketCounter t (u ++ z) = bracketCounter t (u ++ z') := by
  refine firstMatch_frame (fun _ x hx hne => h.bracketCounterAt (hp.suffix hx hne) hne) ?_
  rw [firstMatch_const (lastBefore none u) none, firstMatch_const (lastBefore none u) none]
  exact hz

theorem Alike.spacedCounterAt (h : Alike t z z') (q : Text) :
    spacedCounterAt t (q ++ z) = spacedCounterAt t (q ++ z') := by
  by_cases hall : ∀ c ∈ q, isRustWhitespace c = true
  · have hnone : ∀ x : Text, counterAt t (x.dropWhile isRustWhitespace) = none →
        Sashiko.spacedCounterAt t (q ++ x) = none := fun x hx => by
      rw [Sashiko.spacedCounterAt, List.dropWhile_append_of_pos hall, hx, Option.filter_none,
        Option.map_none, ite_self]
    rw [hnone z h.blank, hnone z' h.blank']
  · have hsome : ∃ c ∈ q, isRustWhitespace c = false := by simpa using hall
    have hhead : ∀ x : Text, (q ++ x).head?.any isRustWhitespace = q.head?.any isRustWhitespace :=
      fun x => by
        obtain ⟨c, hc, -⟩ := hsome
        obtain ⟨d, q', rfl⟩ := List.exists_cons_of_ne_nil (List.ne_nil_of_mem hc)
        rfl
    rw [Sashiko.spacedCounterAt, Sashiko.spacedCounterAt, hhead, hhead, (span_append hsome z).2.1,
      (span_append hsome z').2.1, counterAt_append h.ahead, counterAt_append h.ahead']
    cases counterAt t (q.dropWhile isRustWhitespace) with
    | none => rfl
    | some m =>
      have hword : (m.2.2 ++ z).head?.any t.word = (m.2.2 ++ z').head?.any t.word := by
        cases m.2.2 with
        | nil => exact h.word
        | cons c rest => rfl
      rw [Option.map_some, Option.map_some, Option.filter_some, Option.filter_some]
      simp only [hword]
      split_ifs <;> rfl

theorem Alike.looseCounterAt (h : Alike t z z') (hp : Parted t u z) (hne : u ≠ []) :
    looseCounterAt t b (u ++ z) = looseCounterAt t b (u ++ z') := by
  have hp' : Parted t u z' := hp.imp_right fun hz => h.word.symm.trans hz
  obtain ⟨c, v, rfl⟩ := List.exists_cons_of_ne_nil hne
  unfold Sashiko.looseCounterAt
  have hedge : t.edge b (c :: v ++ z) = t.edge b (c :: v ++ z') := rfl
  rw [hedge]
  split_ifs
  · refine findSome?_congr_mem fun word hword => ?_
    have htag := isTagWord_of_mem hword
    rw [stripWord?_parted htag hp hne, stripWord?_parted htag hp' hne]
    cases stripWord? word (c :: v) with
    | none => rfl
    | some rest => exact h.spacedCounterAt rest
  · rfl

theorem Alike.looseCounter (h : Alike t z z') (hp : Parted t u z)
    (hz : looseCounter t (lastBefore b u) z = looseCounter t (lastBefore b u) z') :
    looseCounter t b (u ++ z) = looseCounter t b (u ++ z') :=
  firstMatch_frame (fun _ _ hx hne => h.looseCounterAt (hp.suffix hx hne) hne) hz

/-! ### Dropped groups -/

theorem length_dropGroups (within : Bool) (s : Text) : (dropGroups within s).length ≤ s.length := by
  induction s generalizing within with
  | nil =>
    rw [dropGroups]
  | cons c s ih =>
    cases within with
    | true =>
      rw [dropGroups]
      split_ifs
      · exact (ih false).trans (Nat.le_succ _)
      · exact (ih true).trans (Nat.le_succ _)
    | false =>
      rw [dropGroups]
      split_ifs
      · exact (ih true).trans (Nat.le_succ _)
      · exact Nat.succ_le_succ (ih false)

theorem mem_of_mem_dropGroups {within : Bool} {s : Text} {c : Char} (h : c ∈ dropGroups within s) :
    c ∈ s := by
  induction s generalizing within with
  | nil =>
    rw [dropGroups] at h
    exact h
  | cons d s ih =>
    cases within with
    | true =>
      rw [dropGroups] at h
      split_ifs at h
      · exact List.mem_cons_of_mem _ (ih h)
      · exact List.mem_cons_of_mem _ (ih h)
    | false =>
      rw [dropGroups] at h
      split_ifs at h
      · exact List.mem_cons_of_mem _ (ih h)
      · rcases List.mem_cons.mp h with rfl | h
        · exact List.mem_cons_self
        · exact List.mem_cons_of_mem _ (ih h)

/-- What is kept of a text depends on what follows only by whether it closes a bracket. -/
theorem dropGroups_append (h : ']' ∈ z.takeWhile isDot ↔ ']' ∈ z'.takeWhile isDot) (u : Text)
    (within : Bool) :
    ∃ out within', dropGroups within (u ++ z) = out ++ dropGroups within' z ∧
      dropGroups within (u ++ z') = out ++ dropGroups within' z' := by
  induction u generalizing within with
  | nil => exact ⟨[], within, rfl, rfl⟩
  | cons c u ih =>
    cases within with
    | true =>
      rw [List.cons_append, List.cons_append, dropGroups, dropGroups]
      split_ifs
      · exact ih false
      · exact ih true
    | false =>
      rw [List.cons_append, List.cons_append, dropGroups, dropGroups]
      simp only [close_congr h u]
      split_ifs
      · exact ih true
      · obtain ⟨out, within', hz, hz'⟩ := ih false
        exact ⟨c :: out, within', by rw [hz, List.cons_append], by rw [hz', List.cons_append]⟩

theorem dropGroups_to_close {inside : Text} (h : ']' ∉ inside) (after : Text) :
    dropGroups true (inside ++ ']' :: after) = dropGroups false after := by
  induction inside with
  | nil => rw [List.nil_append, dropGroups, if_pos rfl]
  | cons c inside ih =>
    rw [List.mem_cons, not_or] at h
    rw [List.cons_append, dropGroups, if_neg (Ne.symm h.1), ih h.2]

theorem close_mem_iff {inside : Text} (h : ']' ∉ inside) (after : Text) :
    ']' ∈ (inside ++ ']' :: after).takeWhile isDot ↔ '\n' ∉ inside := by
  have hnone : ']' ∉ inside.takeWhile isDot := fun hmem =>
    h ((List.takeWhile_prefix _).subset hmem)
  have hclose : ']' ∈ (']' :: after).takeWhile isDot := by
    rw [List.takeWhile_cons_of_pos (by decide)]
    exact List.mem_cons_self
  rw [close_append, or_iff_right hnone, and_iff_left hclose]

/-- A bracket is dropped whatever is in it, or kept where its lines are not one. -/
theorem dropGroups_bracket {inside inside' : Text} (h : ']' ∉ inside) (h' : ']' ∉ inside')
    (hline : '\n' ∉ inside ↔ '\n' ∉ inside') (after : Text) (within : Bool) :
    dropGroups within ('[' :: (inside ++ ']' :: after)) =
        dropGroups within ('[' :: (inside' ++ ']' :: after)) ∨
      ∃ x x', dropGroups within ('[' :: (inside ++ ']' :: after)) = '[' :: x ∧
        dropGroups within ('[' :: (inside' ++ ']' :: after)) = '[' :: x' := by
  cases within with
  | true =>
    left
    rw [dropGroups, dropGroups, if_neg (by decide), if_neg (by decide), dropGroups_to_close h,
      dropGroups_to_close h']
  | false =>
    rw [dropGroups, dropGroups]
    by_cases hone : '\n' ∉ inside
    · left
      rw [if_pos ⟨rfl, (close_mem_iff h after).mpr hone⟩,
        if_pos ⟨rfl, (close_mem_iff h' after).mpr (hline.mp hone)⟩, dropGroups_to_close h,
        dropGroups_to_close h']
    · right
      rw [if_neg fun hopen => hone ((close_mem_iff h after).mp hopen.2),
        if_neg fun hopen => hone (hline.mpr ((close_mem_iff h' after).mp hopen.2))]
      exact ⟨_, _, rfl, rfl⟩

/-! ### The counter at the start -/

theorem cleanSubject_eq {s : Text} {n : ℕ} (h : s.length ≤ n) :
    cleanSubject t s = stripPrefixes t cleanPrefixes n (trimChars (dropGroups false s)) := by
  have hlength := (length_trimChars (dropGroups false s)).trans (length_dropGroups false s)
  exact stripPrefixes_enough (fun _ hpre => hpre) hlength (hlength.trans h)

/-- Prefixes are stripped from what is before a bracket. -/
theorem stripPrefixes_bracket (n : ℕ) (front x x' : Text) :
    ∃ out y y', stripPrefixes t cleanPrefixes n (front ++ '[' :: x) = out ++ '[' :: y ∧
      stripPrefixes t cleanPrefixes n (front ++ '[' :: x') = out ++ '[' :: y' := by
  induction n generalizing front x x' with
  | zero => exact ⟨front, x, x', rfl, rfl⟩
  | succ n ih =>
    have hall : ∀ pre ∈ cleanPrefixes, pre ∈ cleanPrefixes := fun _ hpre => hpre
    rw [stripPrefixes_succ hall, stripPrefixes_succ hall, foundPrefix_append_bracket hall,
      foundPrefix_append_bracket hall]
    cases hfound : foundPrefix cleanPrefixes front with
    | none => exact ⟨front, x, x', rfl, rfl⟩
    | some pre =>
      obtain ⟨-, head, rest, rfl, rfl⟩ := mem_of_foundPrefix hfound
      have hdrop : ∀ x, ((head ++ rest) ++ '[' :: x).drop (head.map Char.toLower).length =
          rest ++ '[' :: x := fun x => by
        rw [List.length_map, List.append_assoc, List.drop_left]
      simp only [hdrop, trimChars_append_bracket]
      exact ih _ _ _

theorem startCounter_bracket (front x x' : Text) :
    startCounter t (front ++ '[' :: x) = startCounter t (front ++ '[' :: x') := by
  have hslash : ∀ x, NoCounterAhead t ('[' :: x) := fun x =>
    noCounterAhead_of_ne (not_digit_of_not_word not_word_bracket) (by decide) x
  have hdrop : ∀ x, (front ++ '[' :: x).dropWhile isRustWhitespace =
      front.dropWhile isRustWhitespace ++ '[' :: x := fun x => by
    have hhead : ('[' :: x).head?.any isRustWhitespace = false := not_white_bracket
    exact (span_append_stop (u := front) hhead).2
  have hword : ∀ (rest x : Text), (rest ++ '[' :: x).head?.any t.word = rest.head?.any t.word := by
    intro rest x
    cases rest with
    | nil => exact not_word_bracket
    | cons c rest => rfl
  rw [startCounter, startCounter, hdrop, hdrop, counterAt_append (hslash x),
    counterAt_append (hslash x')]
  cases counterAt t (front.dropWhile isRustWhitespace) with
  | none => rfl
  | some m =>
    rw [Option.map_some, Option.map_some, Option.filter_some, Option.filter_some]
    simp only [hword]
    split_ifs <;> rfl

theorem startCounter_cleanSubject {s s' : Text}
    (h : dropGroups false s = dropGroups false s' ∨ ∃ front x x',
      dropGroups false s = front ++ '[' :: x ∧ dropGroups false s' = front ++ '[' :: x') :
    startCounter t (cleanSubject t s) = startCounter t (cleanSubject t s') := by
  rw [cleanSubject_eq (Nat.le_max_left s.length s'.length),
    cleanSubject_eq (Nat.le_max_right s.length s'.length)]
  rcases h with h | ⟨front, x, x', h, h'⟩
  · rw [h]
  · rw [h, h', trimChars_append_bracket, trimChars_append_bracket]
    obtain ⟨out, y, y', hy, hy'⟩ := stripPrefixes_bracket (t := t) (max s.length s'.length)
      (front.dropWhile isRustWhitespace) (x.rdropWhile isRustWhitespace)
      (x'.rdropWhile isRustWhitespace)
    rw [hy, hy']
    exact startCounter_bracket out y y'

end Sashiko
