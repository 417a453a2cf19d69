import Sashiko.Subject.Versions

/-! The version that is read back from a promoted subject: a bracket is rewritten, and a version may
be read from the text before it. -/

namespace Sashiko

variable {t : CharTables}

/-! ### Text before what is not a word -/

theorem not_sameLetter_of_not_word {letter c : Char}
    (hletter : letter ∈ "patchrfcresendcommitv".toList) (h : t.word c = false) :
    sameLetter letter c = false := by
  by_contra hsame
  rw [word_of_sameLetter hletter (Bool.not_eq_false _ ▸ hsame)] at h
  cases h

theorem not_word_bracket : t.word '[' = false := t.word_ascii '[' (by decide)

theorem not_word_close : t.word ']' = false := t.word_ascii ']' (by decide)

theorem not_word_blank : t.word ' ' = false := t.word_ascii ' ' (by decide)

theorem mem_of_all_contains {word letters : Text} (h : word.all letters.contains = true) :
    ∀ letter ∈ word, letter ∈ letters :=
  fun letter hletter => List.contains_iff_mem.mp (List.all_eq_true.mp h letter hletter)

theorem stripWord?_append {word u z : Text}
    (hword : ∀ letter ∈ word, letter ∈ "patchrfcresendcommitv".toList) (hz : Unworded t z) :
    stripWord? word (u ++ z) = (stripWord? word u).map (· ++ z) := by
  induction word generalizing u with
  | nil => rfl
  | cons letter word ih =>
    have hletter := hword letter List.mem_cons_self
    cases u with
    | nil =>
      cases z with
      | nil => rfl
      | cons c z =>
        have hc : sameLetter letter c = false := not_sameLetter_of_not_word hletter hz
        simp [stripWord?, hc]
    | cons c u =>
      rw [List.cons_append, stripWord?, stripWord?,
        ih fun l hl => hword l (List.mem_cons_of_mem _ hl)]
      split_ifs <;> rfl

theorem numberAt_append_unworded {u z : Text} (hz : Unworded t z) :
    numberAt t (u ++ z) = (numberAt t u).map fun p => (p.1, p.2 ++ z) := by
  rw [numberAt_append (head_digit_of_unworded hz)]
  by_cases hall : u.all t.digit = true
  · have hu := numberAt_append (t := t) (u := u) (z := []) rfl
    rw [List.append_nil, if_pos hall] at hu
    have hz' : z.head?.any t.word = false := hz
    rw [if_pos hall, hu]
    by_cases hne : u ≠ []
    · rw [if_pos ⟨hne, hz'⟩, if_pos ⟨hne, rfl⟩]
      rfl
    · rw [if_neg fun h => hne h.1, if_neg fun h => hne h.1, Option.map_none]
  · rw [if_neg hall]

theorem versionAt_append {u z : Text} (hz : Unworded t z) :
    versionAt t (u ++ z) = (versionAt t u).map fun p => (p.1, p.2 ++ z) := by
  rw [versionAt, versionAt, stripWord?_append (mem_of_all_contains (by decide)) hz]
  cases stripWord? ['v'] u with
  | none => rfl
  | some rest => exact numberAt_append_unworded hz

/-- The text ends with `PATCH\W*`. -/
def endsPatch (t : CharTables) (u : Text) : Bool :=
  (stripWord? "patch".toList u).any fun rest => rest.all fun c => t.word c = false

theorem patchVersionAt_append {u z : Text} (hz : Unworded t z) :
    patchVersionAt t (u ++ z) = ((patchVersionAt t u).map fun p => (p.1, p.2 ++ z)).or
      (if endsPatch t u then versionAt t (z.dropWhile fun c => t.word c = false) else none) := by
  rw [patchVersionAt, patchVersionAt, endsPatch,
    stripWord?_append (mem_of_all_contains (by decide)) hz]
  cases stripWord? "patch".toList u with
  | none => rfl
  | some rest =>
    rw [Option.map_some, Option.bind_some, Option.bind_some, Option.any_some]
    by_cases hall : (rest.all fun c => t.word c = false) = true
    · have hrest : ∀ c ∈ rest, decide (t.word c = false) = true := List.all_eq_true.mp hall
      have hnil : rest.dropWhile (fun c => t.word c = false) = [] :=
        List.dropWhile_eq_nil_iff.mpr hrest
      rw [if_pos hall, List.dropWhile_append_of_pos hrest, hnil]
      rfl
    · have hsome : ∃ c ∈ rest, decide (t.word c = false) = false := by simpa using hall
      rw [if_neg hall, (span_append hsome z).2.1, versionAt_append hz, Option.or_none]

theorem leadingVersionAt_append {b : Option Char} {u x : Text} :
    leadingVersionAt t b (u ++ '[' :: x) =
      (leadingVersionAt t b u).map fun p => (p.1, p.2 ++ '[' :: x) := by
  have hz : Unworded t ('[' :: x) := not_word_bracket
  rw [leadingVersionAt, leadingVersionAt]
  split_ifs
  · by_cases hall : ∀ c ∈ u, isRustWhitespace c = true
    · have hstop : ('[' :: x).dropWhile isRustWhitespace = '[' :: x :=
        List.dropWhile_cons_of_neg (by decide)
      rw [List.dropWhile_append_of_pos hall, List.dropWhile_eq_nil_iff.mpr hall, hstop]
      exact versionAt_append (u := []) hz
    · have hsome : ∃ c ∈ u, isRustWhitespace c = false := by simpa using hall
      rw [(span_append hsome _).2.1, versionAt_append hz]
  · rfl

/-! ### Text before a bracket -/

section Before

variable {β : Type} {k : Option Char → Text → Option β}

/-- A bracket that is left open before another one reads what the other one reads. -/
theorem close_mem_of_earlier {u head w : Text} {m : β} (hhead : ']' ∉ head)
    (hat : k (lastBefore (some '[') head) w = some m)
    (hnone : firstMatch (· ≠ ']') k (some '[') (u ++ '[' :: (head ++ w)) = none) : ']' ∈ u := by
  by_contra hopen
  have hrun : ∀ c ∈ u ++ '[' :: head, decide (c ≠ ']') = true := by
    intro c hc
    refine decide_eq_true fun heq => ?_
    rw [heq, List.mem_append, List.mem_cons] at hc
    rcases hc with hc | hc | hc
    · exact hopen hc
    · cases hc
    · exact hhead hc
  have hsplit : u ++ '[' :: (head ++ w) = (u ++ '[' :: head) ++ w := by
    rw [List.append_assoc, List.cons_append]
  rw [hsplit] at hnone
  have hw := match_none_of_firstMatch (eq_none_of_firstMatch hnone hrun)
  rw [lastBefore_append_cons, hat] at hw
  cases hw

end Before

theorem firstMatch_close (b : Option Char) (z : Text) :
    firstMatch (· ≠ ']') (versionToClose t) b (']' :: z) = none := by
  have hletter : sameLetter 'v' ']' = false := by decide
  have hnone : versionToClose t b (']' :: z) = none := by
    rw [versionToClose, versionAt_cons_of_ne hletter, Option.bind_none, ite_self]
  rw [firstMatch_cons_of_none hnone, if_neg (by decide)]

/-- Whether a closed bracket has a version does not depend on what follows it. -/
theorem bracketVersionAt_congr {u : Text} (h : ']' ∈ u) (z z' : Text) :
    bracketVersionAt t ('[' :: (u ++ z)) = none ↔ bracketVersionAt t ('[' :: (u ++ z')) = none := by
  obtain ⟨inside, behind, rfl, -⟩ := List.eq_append_cons_of_mem h
  have hdigit : ∀ z : Text, (']' :: z).head?.any t.digit = false := fun z =>
    not_digit_of_not_word not_word_close
  rw [bracketVersionAt, bracketVersionAt, List.append_assoc, List.append_assoc, List.cons_append,
    List.cons_append]
  refine firstMatch_none_congr (fun b u₂ _ hne => ?_) ?_
  · obtain ⟨c, u₃, rfl⟩ := List.exists_cons_of_ne_nil hne
    rw [List.cons_append, List.cons_append, versionToClose_eq_none_iff (by simp),
      versionToClose_eq_none_iff (by simp)]
    exact or_congr Iff.rfl (or_congr Iff.rfl (numberAt_eq_none_congr (hdigit _) (hdigit _) rfl))
  · rw [firstMatch_close, firstMatch_close]

/-- A version in the text before a bracket, or behind `PATCH` at its end. -/
theorem versionTagAt_append {b : Option Char} {u x : Text}
    (h : bracketVersionAt t (u ++ '[' :: x) = none) :
    versionTagAt t b (u ++ '[' :: x) =
      (((leadingVersionAt t b u).or (patchVersionAt t u)).map fun p => (p.1, p.2 ++ '[' :: x)).or
        (if endsPatch t u then versionAt t (('[' :: x).dropWhile fun c => t.word c = false)
          else none) := by
  have hz : Unworded t ('[' :: x) := not_word_bracket
  rw [versionTagAt, h, Option.map_none, Option.none_or, leadingVersionAt_append,
    patchVersionAt_append hz]
  cases leadingVersionAt t b u <;> cases patchVersionAt t u <;> rfl

/-! ### A version is not empty -/

theorem stripWord?_length {word cs rest : Text} (h : stripWord? word cs = some rest) :
    rest.length + word.length = cs.length := by
  induction word generalizing cs with
  | nil =>
    obtain rfl := Option.some.inj h
    rfl
  | cons letter word ih =>
    cases cs with
    | nil => cases h
    | cons c cs =>
      rw [stripWord?] at h
      split_ifs at h
      rw [List.length_cons, List.length_cons, ← ih h, Nat.add_assoc]

theorem versionAt_length {cs ds rest : Text} (h : versionAt t cs = some (ds, rest)) :
    rest.length < cs.length := by
  obtain ⟨c, -, rfl, -⟩ := versionAt_eq_some h
  rw [List.length_cons, List.length_append]
  omega

theorem versionTagAt_length {b : Option Char} {cs ds rest : Text}
    (h : versionTagAt t b cs = some (ds, rest)) : rest.length < cs.length := by
  rw [versionTagAt, Option.or_eq_some_iff, Option.or_eq_some_iff, Option.map_eq_some_iff] at h
  rcases h with (⟨⟨head, ds', tail, after⟩, hbracket, heq⟩ | ⟨-, hleading⟩) | ⟨-, hpatch⟩
  · obtain ⟨rfl, rfl⟩ := Prod.mk.inj heq
    obtain ⟨v, hversion⟩ := hasVersion_of_bracketVersionAt hbracket
    rw [hversion.text]
    simp only [List.length_cons, List.length_append]
    omega
  · unfold leadingVersionAt at hleading
    split_ifs at hleading
    exact lt_of_lt_of_le (versionAt_length hleading) (List.dropWhile_suffix _).length_le
  · obtain ⟨word, hword, hversion⟩ := Option.bind_eq_some_iff.mp hpatch
    have hlength := stripWord?_length hword
    have hdrop : (word.dropWhile fun c => t.word c = false).length ≤ word.length :=
      (List.dropWhile_suffix _).length_le
    have := versionAt_length hversion
    omega

theorem versionTag_length {b : Option Char} {cs run ds rest : Text}
    (h : firstMatch (fun _ => true) (versionTagAt t) b cs = some (run, ds, rest)) :
    rest.length < cs.length := by
  obtain ⟨z, rfl, hmatch, -, -⟩ := firstMatch_eq_some h
  rw [List.length_append]
  exact lt_of_lt_of_le (versionTagAt_length hmatch) (Nat.le_add_left _ _)

/-! ### A bracket rewritten -/

/-- A bracket is rewritten to read `digits`: no bracket before it has a version, and `PATCH` in front
of it is attached to the version it has. -/
structure Rewritten (t : CharTables) (before inside inside' digits : Text) : Prop where
  closed : ∀ u, '[' :: u <:+ before →
    ']' ∈ u ∧ bracketVersionAt t ('[' :: (u ++ '[' :: inside)) = none
  attached :
    (versionAt t (('[' :: inside).dropWhile fun c => t.word c = false) = none ∧
      versionAt t (('[' :: inside').dropWhile fun c => t.word c = false) = none) ∨
    ∃ ds tail, versionAt t (('[' :: inside).dropWhile fun c => t.word c = false) = some (ds, tail) ∧
      versionAt t (('[' :: inside').dropWhile fun c => t.word c = false) = some (digits, tail)
  read : ∃ head tail after, bracketVersionAt t ('[' :: inside') = some (head, digits, tail, after)

section Rewritten

variable {before inside inside' digits : Text}

theorem Rewritten.bracket_none (h : Rewritten t before inside inside' digits) {c : Char} {u : Text}
    (hu : c :: u <:+ before) :
    bracketVersionAt t (c :: u ++ '[' :: inside) = none ∧
      bracketVersionAt t (c :: u ++ '[' :: inside') = none := by
  by_cases hc : c = '['
  · subst hc
    obtain ⟨hclose, hnone⟩ := h.closed u hu
    exact ⟨hnone, (bracketVersionAt_congr hclose _ _).mp hnone⟩
  · have hother : ∀ z, bracketVersionAt t (c :: u ++ z) = none := by
      intro z
      rw [List.cons_append, bracketVersionAt]
      intro cs heq
      exact hc (List.cons.inj heq).1
    exact ⟨hother _, hother _⟩

/-- What is found before and after: a version in the text before the bracket, in both, or the one
that is written. -/
def VersionRead (inside inside' digits : Text) (found found' : Option (Text × Text × Text)) : Prop :=
  (∃ run ds rest, found = some (run, ds, rest ++ '[' :: inside) ∧
    found' = some (run, ds, rest ++ '[' :: inside')) ∨
  (∃ run rest, found' = some (run, digits, rest)) ∧
    ∀ m, found = some m → m.2.2.length ≤ inside.length

theorem VersionRead.cons {found found' : Option (Text × Text × Text)}
    (h : VersionRead inside inside' digits found found') (c : Char) :
    VersionRead inside inside' digits (found.map fun m => (c :: m.1, m.2))
      (found'.map fun m => (c :: m.1, m.2)) := by
  rcases h with ⟨run, ds, rest, rfl, rfl⟩ | ⟨⟨run, rest, rfl⟩, hshort⟩
  · exact .inl ⟨c :: run, ds, rest, rfl, rfl⟩
  · refine .inr ⟨⟨c :: run, rest, rfl⟩, fun m hm => ?_⟩
    obtain ⟨found, hfound, rfl⟩ := Option.map_eq_some_iff.mp hm
    exact hshort found hfound

theorem Rewritten.versionRead (h : Rewritten t before inside inside' digits) {b : Option Char}
    {u : Text} (hu : u <:+ before) :
    VersionRead inside inside' digits
      (firstMatch (fun _ => true) (versionTagAt t) b (u ++ '[' :: inside))
      (firstMatch (fun _ => true) (versionTagAt t) b (u ++ '[' :: inside')) := by
  induction u generalizing b with
  | nil =>
    obtain ⟨head, tail, after, hread⟩ := h.read
    refine .inr ⟨⟨[], after, firstMatch_of_some ?_⟩, fun m hm => ?_⟩
    · rw [List.nil_append, versionTagAt, hread]
      rfl
    · exact Nat.lt_succ_iff.mp (versionTag_length hm)
  | cons c u ih =>
    obtain ⟨hnone, hnone'⟩ := h.bracket_none hu
    have hat := versionTagAt_append (b := b) hnone
    have hat' := versionTagAt_append (b := b) hnone'
    cases hwithin : (leadingVersionAt t b (c :: u)).or (patchVersionAt t (c :: u)) with
    | some p =>
      rw [hwithin, Option.map_some, Option.some_or] at hat hat'
      exact .inl ⟨[], p.1, p.2, firstMatch_of_some hat, firstMatch_of_some hat'⟩
    | none =>
      rw [hwithin, Option.map_none, Option.none_or] at hat hat'
      by_cases hcross : endsPatch t (c :: u) = true ∧
          ¬ versionAt t (('[' :: inside).dropWhile fun c => t.word c = false) = none
      · obtain ⟨ds, tail, hfound, hfound'⟩ := h.attached.resolve_left fun hmiss => hcross.2 hmiss.1
        rw [if_pos hcross.1] at hat hat'
        refine .inr ⟨⟨[], tail, firstMatch_of_some (hat'.trans hfound')⟩, fun m hm => ?_⟩
        rw [firstMatch_of_some (hat.trans hfound)] at hm
        obtain rfl := Option.some.inj hm
        have hshort := versionAt_length hfound
        have hbracket : ('[' :: inside).dropWhile (fun c => t.word c = false) =
            inside.dropWhile fun c => t.word c = false :=
          List.dropWhile_cons_of_pos (decide_eq_true not_word_bracket)
        rw [hbracket] at hshort
        exact hshort.le.trans (List.dropWhile_suffix _).length_le
      · have hmiss : versionTagAt t b (c :: u ++ '[' :: inside) = none ∧
            versionTagAt t b (c :: u ++ '[' :: inside') = none := by
          rw [hat, hat']
          by_cases hends : endsPatch t (c :: u) = true
          · rw [if_pos hends, if_pos hends]
            have hleft : versionAt t (('[' :: inside).dropWhile fun c => t.word c = false) = none :=
              not_not.mp fun hfound => hcross ⟨hends, hfound⟩
            refine h.attached.resolve_right fun ⟨ds, tail, hfound, _⟩ => ?_
            rw [hleft] at hfound
            cases hfound
          · rw [if_neg hends, if_neg hends]
            exact ⟨rfl, rfl⟩
        rw [List.cons_append, List.cons_append] at hmiss
        rw [List.cons_append, List.cons_append, firstMatch_cons_of_none hmiss.1,
          firstMatch_cons_of_none hmiss.2, if_pos rfl, if_pos rfl]
        exact (ih ((List.suffix_cons c u).trans hu)).cons c

/-- Behind `PATCH\W*` stands what follows the first word character of the bracket. -/
theorem attached_none {u : Text} {c : Char} {cs : Text} (hu : ∀ d ∈ u, t.word d = false)
    (hc : t.word c = true) (hclose : ']' ∈ cs)
    (hnone : versionToClose t (lastBefore (some '[') u) (c :: cs) = none) :
    versionAt t (('[' :: (u ++ c :: cs)).dropWhile fun c => t.word c = false) = none := by
  have hrun : ∀ d ∈ '[' :: u, decide (t.word d = false) = true := by
    intro d hd
    rcases List.mem_cons.mp hd with rfl | hd
    · exact decide_eq_true not_word_bracket
    · exact decide_eq_true (hu d hd)
  have hlast : (lastBefore (some '[') u).any t.word = false := by
    rcases List.eq_nil_or_concat u with rfl | ⟨w, d, rfl⟩
    · exact not_word_bracket
    · rw [List.concat_eq_append, lastBefore_append_cons]
      exact hu d (by simp)
  have hedge : t.edge (lastBefore (some '[') u) [c] = true := by
    rw [CharTables.edge, hlast, List.head?_cons, Option.any_some, hc]
    rfl
  rw [← List.cons_append, List.dropWhile_append_of_pos hrun,
    List.dropWhile_cons_of_neg (by rw [hc]; decide)]
  rcases (versionToClose_eq_none_iff hclose).mp hnone with hno | hletter | hnumber
  · rw [hedge] at hno
    cases hno
  · exact versionAt_cons_of_ne hletter cs
  · cases hletter : sameLetter 'v' c with
    | false => exact versionAt_cons_of_ne hletter cs
    | true => rw [versionAt_cons hletter, hnumber]

/-- The first word character of a text that has one. -/
theorem exists_first_word {u : Text} (h : ∃ c ∈ u, t.word c = true) :
    ∃ u₁ c u₂, u = u₁ ++ c :: u₂ ∧ (∀ d ∈ u₁, t.word d = false) ∧ t.word c = true := by
  obtain ⟨c, hc, hword⟩ := h
  have hsome : ∃ c ∈ u, decide (t.word c = false) = false := ⟨c, hc, by rw [hword]; rfl⟩
  obtain ⟨-, -, hne⟩ := span_append hsome []
  obtain ⟨d, u₂, hd⟩ := List.exists_cons_of_ne_nil hne
  refine ⟨u.takeWhile fun c => t.word c = false, d, u₂, ?_, fun d hd => ?_, ?_⟩
  · rw [← hd, List.takeWhile_append_dropWhile]
  · simpa using List.mem_takeWhile_imp hd
  · have hhead := List.head?_dropWhile_not (fun c => decide (t.word c = false)) u
    rw [hd, List.head?_cons] at hhead
    simpa using hhead

/-- The version that follows `PATCH\W*` is attached to it, where no other word is between. -/
theorem HasVersion.attached {z head ds tail after : Text} {v : Char}
    (h : HasVersion t z head ds tail after v) {ds' : Text}
    (hds' : ds' ≠ [] ∧ ∀ c ∈ ds', t.digit c = true) :
    (versionAt t (z.dropWhile fun c => t.word c = false) = none ∧
      versionAt t (('[' :: (head ++ 'v' :: (ds' ++ (tail ++ ']' :: after)))).dropWhile
        fun c => t.word c = false) = none) ∨
    versionAt t (z.dropWhile fun c => t.word c = false) = some (ds, tail ++ ']' :: after) ∧
      versionAt t (('[' :: (head ++ 'v' :: (ds' ++ (tail ++ ']' :: after)))).dropWhile
        fun c => t.word c = false) = some (ds', tail ++ ']' :: after) := by
  rw [h.text]
  by_cases hhead : ∃ c ∈ head, t.word c = true
  · left
    obtain ⟨u₁, c, u₂, hsplit, hu, hc⟩ := exists_first_word hhead
    have hnone := h.earlier u₁ (c :: u₂) hsplit (List.cons_ne_nil _ _)
    have hnone' := h.earlier_replaced ds' hsplit (List.cons_ne_nil _ _)
    rw [List.cons_append] at hnone hnone'
    rw [hsplit, List.append_assoc, List.append_assoc, List.cons_append, List.cons_append]
    exact ⟨attached_none hu hc (by simp) hnone, attached_none hu hc (by simp) hnone'⟩
  · right
    have hrun : ∀ c ∈ '[' :: head, decide (t.word c = false) = true := by
      intro c hc
      rcases List.mem_cons.mp hc with rfl | hc
      · exact decide_eq_true not_word_bracket
      · exact decide_eq_true (Bool.eq_false_iff.mpr fun hword => hhead ⟨c, hc, hword⟩)
    have hv := word_of_sameLetter (t := t) (by decide) h.letter
    have hv' := word_of_sameLetter (t := t) (by decide) sameLetter_v
    have hdrop : ∀ x : Text, ('[' :: (head ++ x)).dropWhile (fun c => t.word c = false) =
        x.dropWhile fun c => t.word c = false := fun x => by
      rw [← List.cons_append, List.dropWhile_append_of_pos hrun]
    rw [hdrop, hdrop, List.dropWhile_cons_of_neg (by rw [hv]; decide),
      List.dropWhile_cons_of_neg (by rw [hv']; decide), versionAt_cons h.letter,
      versionAt_cons sameLetter_v]
    exact ⟨numberAt_digits h.digits.1 h.digits.2 h.stop, numberAt_digits hds'.1 hds'.2 h.stop⟩

theorem HasVersion.rewritten {z head ds tail after : Text} {v : Char}
    (h : HasVersion t z head ds tail after v) {ds' : Text}
    (hds' : ds' ≠ [] ∧ ∀ c ∈ ds', t.digit c = true)
    (hearlier : ∀ u, u <:+ before → u ≠ [] → bracketVersionAt t (u ++ z) = none) :
    Rewritten t before (head ++ v :: (ds ++ (tail ++ ']' :: after)))
      (head ++ 'v' :: (ds' ++ (tail ++ ']' :: after))) ds' where
  closed := by
    intro u hu
    have hnone := hearlier _ hu (List.cons_ne_nil _ _)
    rw [h.text, List.cons_append] at hnone
    have hat := versionToClose_version after h.letter h.edge h.digits h.tail_open h.stop
    exact ⟨close_mem_of_earlier h.head_open hat hnone, hnone⟩
  attached := by
    have hattached := h.attached hds'
    rw [h.text] at hattached
    exact hattached.imp id fun hboth => ⟨ds, _, hboth⟩
  read := ⟨head, tail, after, h.replace hds'⟩

/-! ### A bracket with a tag -/

/-- A bracket with a tag and no version, taken apart behind the tag. -/
def patchTags : List Text := ["patch".toList, "rfc".toList]

/-- One of the tags, in any case, where a word starts. -/
def IsPatchTag (t : CharTables) (before : Option Char) (word : Text) : Prop :=
  before.any t.word = false ∧ ∃ letters ∈ patchTags, stripWord? letters word = some []

structure HasTag (t : CharTables) (z front tail after : Text) : Prop where
  text : z = '[' :: (front ++ (tail ++ ']' :: after))
  front_open : ']' ∉ front
  front_word : ∃ c ∈ front, t.word c = true
  tail_open : ']' ∉ tail
  stop : Unworded t (tail ++ ']' :: after)
  no_version : bracketVersionAt t z = none
  tag : ∃ head word, front = head ++ word ∧ IsPatchTag t (lastBefore (some '[') head) word

theorem HasTag.earlier {z front tail after : Text} (h : HasTag t z front tail after) {u₁ u₂ : Text}
    (hsplit : front = u₁ ++ u₂) :
    versionToClose t (lastBefore (some '[') u₁) (u₂ ++ (tail ++ ']' :: after)) = none := by
  have hnone := h.no_version
  rw [h.text, bracketVersionAt, hsplit, List.append_assoc] at hnone
  refine match_none_of_firstMatch (eq_none_of_firstMatch hnone fun c hc => ?_)
  exact decide_eq_true fun heq => h.front_open (by
    rw [hsplit, ← heq]
    exact List.mem_append_left _ hc)

theorem HasTag.earlier_inserted {z front tail after : Text} (h : HasTag t z front tail after)
    (ds' : Text) {u₁ u₂ : Text} (hsplit : front = u₁ ++ u₂) (hne : u₂ ≠ []) :
    versionToClose t (lastBefore (some '[') u₁)
      (u₂ ++ ' ' :: 'v' :: (ds' ++ (tail ++ ']' :: after))) = none := by
  have hnone := h.earlier hsplit
  obtain ⟨c, u₃, rfl⟩ := List.exists_cons_of_ne_nil hne
  rw [List.cons_append, versionToClose_eq_none_iff (by simp)] at hnone ⊢
  refine hnone.imp id (Or.imp id fun hnumber => (numberAt_eq_none_congr ?_ ?_ ?_).mp hnumber)
  · exact head_digit_of_unworded h.stop
  · exact not_digit_of_not_word not_word_blank
  · have hstop : (tail ++ ']' :: after).head?.any t.word = false := h.stop
    rw [hstop, List.head?_cons, Option.any_some, not_word_blank]

theorem HasTag.insert {z front tail after : Text} (h : HasTag t z front tail after) {ds' : Text}
    (hds' : ds' ≠ [] ∧ ∀ c ∈ ds', t.digit c = true) :
    bracketVersionAt t ('[' :: ((front ++ [' ']) ++ 'v' :: (ds' ++ (tail ++ ']' :: after)))) =
      some (front ++ [' '], ds', tail, after) := by
  refine bracketVersionAt_of after sameLetter_v ?_ ?_ hds' h.tail_open h.stop ?_
  · intro hmem
    rcases List.mem_append.mp hmem with hmem | hmem
    · exact h.front_open hmem
    · simp at hmem
  · rw [lastBefore_append_cons, lastBefore_nil, CharTables.edge, List.head?_cons, Option.any_some,
      Option.any_some, not_word_blank, word_of_sameLetter (by decide) sameLetter_v]
    rfl
  · intro u₁ u₂ hsplit hne
    obtain ⟨u₃, d, rfl⟩ := (List.eq_nil_or_concat u₂).resolve_left hne
    rw [List.concat_eq_append, ← List.append_assoc] at hsplit
    obtain ⟨hfront, hd⟩ := List.append_inj' hsplit rfl
    obtain rfl : ' ' = d := (List.cons.inj hd).1
    rw [List.concat_eq_append, List.append_assoc, List.cons_append, List.nil_append]
    by_cases hu : u₃ = []
    · have hletter : sameLetter 'v' ' ' = false := by decide
      rw [hu, List.nil_append, versionToClose, versionAt_cons_of_ne hletter, Option.bind_none,
        ite_self]
    · exact h.earlier_inserted ds' hfront hu

theorem HasTag.rewritten {z front tail after : Text} (h : HasTag t z front tail after) {ds' : Text}
    (hds' : ds' ≠ [] ∧ ∀ c ∈ ds', t.digit c = true)
    (hearlier : ∀ u, '[' :: u <:+ before →
      ']' ∈ u ∧ bracketVersionAt t ('[' :: (u ++ z)) = none) :
    Rewritten t before (front ++ (tail ++ ']' :: after))
      (front ++ ' ' :: 'v' :: (ds' ++ (tail ++ ']' :: after))) ds' where
  closed := by
    intro u hu
    rw [← h.text]
    exact hearlier u hu
  attached := by
    left
    obtain ⟨u₁, c, u₂, hsplit, hu, hc⟩ := exists_first_word h.front_word
    have hnone := h.earlier hsplit
    have hnone' := h.earlier_inserted ds' hsplit (List.cons_ne_nil _ _)
    rw [List.cons_append] at hnone hnone'
    rw [hsplit, List.append_assoc, List.append_assoc, List.cons_append, List.cons_append]
    exact ⟨attached_none hu hc (by simp) hnone, attached_none hu hc (by simp) hnone'⟩
  read := by
    have hread := h.insert hds'
    rw [List.append_assoc, List.cons_append, List.nil_append] at hread
    exact ⟨_, _, _, hread⟩

end Rewritten

end Sashiko
