import Sashiko.Workflow.JsonAnswer

/-! An answer with a code fence around it, and what is decoded from it. -/

namespace Sashiko

open JsonText

/-! ### The fence -/

section Fence
variable {text a b c d : List Char} {x : Char}

def IsSpace (t : List Char) : Prop := ∀ c ∈ t, isRustWhitespace c = true

theorem exists_trimStart (t : List Char) : ∃ w, t = w ++ trimStart t ∧ IsSpace w :=
  ⟨t.takeWhile isRustWhitespace, (List.takeWhile_append_dropWhile).symm,
    fun _ hc => List.mem_takeWhile_imp hc⟩

theorem stripPrefix_eq_some {pre t rest : List Char} (h : stripPrefix pre t = some rest) :
    t = pre ++ rest := by
  obtain ⟨hstart, heq⟩ := Option.ite_none_right_eq_some.mp h
  obtain ⟨rest', rfl⟩ := List.isPrefixOf_iff_prefix.mp hstart
  rw [← Option.some.inj heq, List.drop_left]

theorem stripSuffix_eq_some {suf t rest : List Char} (h : stripSuffix suf t = some rest) :
    t = rest ++ suf := by
  obtain ⟨hsuffix, heq⟩ := Option.ite_none_right_eq_some.mp h
  obtain ⟨rest', rfl⟩ := List.isSuffixOf_iff_suffix.mp hsuffix
  rw [← Option.some.inj heq, List.length_append, Nat.add_sub_cancel, List.take_left]

theorem afterLineBreak_eq_some {t body : List Char} (h : afterLineBreak t = some body) :
    ∃ line, t = line ++ '\n' :: body ∧ '\n' ∉ line := by
  obtain ⟨hmem, heq⟩ := Option.ite_none_right_eq_some.mp h
  obtain ⟨line, rest, rfl, hline⟩ := List.eq_append_cons_of_mem hmem
  have hinside : ∀ c ∈ line, decide (c ≠ '\n') = true := fun c hc =>
    decide_eq_true (ne_of_mem_of_not_mem hc hline)
  have hdrop : (line ++ '\n' :: rest).dropWhile (· ≠ '\n') = '\n' :: rest := by
    rw [List.dropWhile_append_of_pos hinside, List.dropWhile_cons_of_neg (by simp)]
  refine ⟨line, ?_, hline⟩
  rw [← Option.some.inj heq, hdrop, List.drop_one, List.tail_cons]

/-- What is taken off is a fence with its line and a fence at the end, with the space there. -/
theorem stripLeadingJsonFence_cases (text : List Char) :
    stripLeadingJsonFence text = text ∨
      ∃ w line gap tail, IsSpace w ∧ '\n' ∉ line ∧ IsSpace gap ∧ IsSpace tail ∧
        text = w ++ fence ++ (line ++ '\n' ::
          (stripLeadingJsonFence text ++ (gap ++ (fence ++ tail)))) := by
  cases hbody : (stripPrefix fence (trimStart text)).bind afterLineBreak with
  | none => exact .inl (by rw [stripLeadingJsonFence, hbody])
  | some body =>
    cases hinner : stripSuffix fence (trimEnd body) with
    | none => exact .inl (by rw [stripLeadingJsonFence, hbody]; simp only [hinner])
    | some inner =>
      have hstrip : stripLeadingJsonFence text = trimEnd inner := by
        rw [stripLeadingJsonFence, hbody]
        simp only [hinner]
      obtain ⟨rest, hrest, hline⟩ := Option.bind_eq_some_iff.mp hbody
      obtain ⟨w, htext, hw⟩ := exists_trimStart text
      obtain ⟨line, rfl, hbreak⟩ := afterLineBreak_eq_some hline
      obtain ⟨tail, htailSpace, htail⟩ := exists_trimEnd body
      obtain ⟨gap, hgapSpace, hgap⟩ := exists_trimEnd inner
      refine .inr ⟨w, line, gap, tail, hw, hbreak, hgapSpace, htailSpace, ?_⟩
      have hbodyEq : body = trimEnd inner ++ (gap ++ (fence ++ tail)) := by
        rw [← List.append_assoc, ← hgap, ← List.append_assoc, ← stripSuffix_eq_some hinner,
          ← htail]
      rw [hstrip, ← hbodyEq, List.append_assoc, ← stripPrefix_eq_some hrest, ← htext]

/-- A part without a character ends before the first of them. -/
theorem exists_of_append_eq (h : a ++ b = c ++ x :: d) (hx : x ∉ a) :
    ∃ k, c = a ++ k ∧ b = k ++ x :: d := by
  rcases List.append_eq_append_iff.mp h with ⟨k, rfl, rfl⟩ | ⟨k, rfl, hk⟩
  · exact ⟨k, rfl, rfl⟩
  · cases k with
    | nil => exact ⟨[], by rw [List.append_nil, List.append_nil], hk.symm⟩
    | cons y k =>
      obtain ⟨rfl, -⟩ := List.cons.inj hk
      exact absurd (List.mem_append_right _ List.mem_cons_self) hx

/-- A part without a character starts after the last of them. -/
theorem exists_of_eq_append (h : a ++ b = c ++ x :: d) (hx : x ∉ b) :
    ∃ k, a = c ++ x :: k ∧ d = k ++ b := by
  rcases List.append_eq_append_iff.mp h with ⟨k, rfl, rfl⟩ | ⟨k, rfl, hk⟩
  · exact absurd (List.mem_append_right _ List.mem_cons_self) hx
  · cases k with
    | nil =>
      rw [List.nil_append] at hk
      exact absurd (hk ▸ List.mem_cons_self) hx
    | cons y k =>
      obtain ⟨rfl, rfl⟩ := List.cons.inj hk
      exact ⟨k, rfl, rfl⟩

end Fence

/-! ### Decoding -/

section Decoding
variable {T : Type} {numeral : List Char → Json → Prop} {d : Decoder T} {v : Json} {x : T}
  {loose : Bool} {before after s : List Char}

/-- What the source relies on: only JSON texts are decoded, those of `v` to `x`, as `v` is. -/
structure Decoder.Reads (d : Decoder T) (numeral : List Char → Json → Prop) (v : Json) (x : T) :
    Prop where
  onlyText : ∀ t y, d.fromStr t = .ok y → ∃ j, IsText numeral t j
  text : ∀ t, IsText numeral t v → d.fromStr t = .ok x
  parse : ∀ t, Writes numeral false t (.value v) → d.parse t = some v
  value : d.fromValue v = some x

/-- Where nothing else can be decoded, the object is. -/
theorem parseJsonFromText_eq_ok {text : List Char} (hd : d.Reads numeral v x)
    (hclean : ∀ j, IsText numeral (cleanJsonString (stripLeadingJsonFence text)) j →
      IsText numeral (cleanJsonString (stripLeadingJsonFence text)) v)
    (hplain : ∀ j, IsText numeral (stripLeadingJsonFence text) j →
      IsText numeral (stripLeadingJsonFence text) v)
    (hfound : findJsonCandidates d.parse text = [v]) : parseJsonFromText d text = .ok x := by
  unfold parseJsonFromText
  cases hfirst : d.fromStr (cleanJsonString (stripLeadingJsonFence text)) with
  | ok y =>
    obtain ⟨j, hj⟩ := hd.onlyText _ y hfirst
    rw [hd.text _ (hclean j hj)] at hfirst
    exact hfirst.symm
  | error primary =>
    dsimp only
    cases hsecond : d.fromStr (stripLeadingJsonFence text) with
    | ok y =>
      obtain ⟨j, hj⟩ := hd.onlyText _ y hsecond
      rw [hd.text _ (hplain j hj)] at hsecond
      exact hsecond.symm
    | error _ =>
      dsimp only
      rw [hfound, List.reverse_singleton, List.findSome?_singleton, hd.value]

/-- The text after a line break in an object, outside of its literals, is no JSON text. -/
theorem not_isText_of_lineBreak (hs : Writes numeral loose s (.value v)) (hv : v.isObject = true)
    {s₁ s₂ : List Char} (hsplit : s = s₁ ++ '\n' :: s₂) (houtside : EndsOutside s₁)
    (rest : List Char) (j : Json) :
    ¬ IsText numeral (s₂ ++ rest) j ∧ ¬ IsText numeral (cleanJsonString (s₂ ++ rest)) j := by
  obtain ⟨inner, hshape, -⟩ := hs.exists_braces hv
  have hmatch := findMatchingBrace_object hs hv rest
  cases s₁ with
  | nil =>
    rw [hshape, List.nil_append] at hsplit
    exact absurd (List.cons.inj hsplit).1 (by decide)
  | cons c s₁ =>
    rw [hshape, List.cons_append] at hsplit
    obtain ⟨rfl, htail⟩ := List.cons.inj hsplit
    -- The object ends in its brace, so there is more of it after the line break.
    have hlen : s₁.length + 1 ≤ inner.length := by
      cases s₂ using List.reverseRecOn with
      | nil =>
        have hlast := congrArg List.getLast? htail
        rw [List.getLast?_concat, List.getLast?_concat] at hlast
        exact absurd (Option.some.inj hlast) (by decide)
      | append_singleton s₂ last =>
        have hlen := congrArg List.length htail
        simp only [List.length_append, List.length_cons, List.length_nil] at hlen
        omega
    rw [findMatchingBrace, hshape, List.cons_append, closingBraceFrom, if_neg (by decide),
      if_pos rfl, htail, List.append_assoc, List.cons_append] at hmatch
    obtain ⟨last, hlast, hend⟩ := Option.map_eq_some_iff.mp hmatch
    have hstate : EndsOutside s₁ := houtside
    have hs₁ : s₁.length ≤ last := by
      simp only [List.length_cons, List.length_append] at hend
      have := congrArg List.length htail
      simp only [List.length_cons, List.length_append, List.length_nil] at this
      omega
    obtain ⟨depth, hdepth, hsome⟩ :=
      closingBraceFrom_behind (q := .outside) (show (1 : ℤ) ≤ 0 + 1 by omega) hlast hs₁
    rw [hstate] at hsome
    change (closingBraceFrom depth false false ('\n' :: (s₂ ++ rest))).isSome = true at hsome
    rw [closingBraceFrom, if_neg (by decide), if_neg (by decide), if_neg (by decide),
      Option.isSome_map] at hsome
    constructor
    · intro h
      rw [isText_closingBraceFrom h hdepth] at hsome
      cases hsome
    · intro h
      have hclean := (isSome_closingBraceFrom_clean depth (s₂ ++ rest)).1
      rw [hsome] at hclean
      have hnone := isText_closingBraceFrom h hdepth
      rw [cleanJsonString] at hnone
      rw [hnone] at hclean
      cases hclean

theorem brace_mem_of_isText {u : List Char} {j : Json} (hj : j.isObject = true)
    (h : IsText numeral u j ∨ IsText numeral (cleanJsonString u) j) : '\x7b' ∈ u := by
  rcases h with ⟨blank, o, rest, heq, -, -, ho⟩ | ⟨blank, o, rest, heq, hblank, -, ho⟩
  · obtain ⟨inner, rfl, -⟩ := ho.exists_braces hj
    rw [heq]
    exact List.mem_append_right _ List.mem_cons_self
  · obtain ⟨inner, rfl, -⟩ := ho.exists_braces hj
    rw [List.cons_append] at heq
    obtain ⟨u', rfl⟩ := exists_of_clean hblank heq
    exact List.mem_append_right _ List.mem_cons_self

/-- The text opens with a fence, and `line` is what stands behind it. -/
def OpensFence (t line : List Char) : Prop := ∃ w, IsSpace w ∧ t = w ++ fence ++ line

/-- The text ends in a fence. -/
def ClosesFence (t : List Char) : Prop := ∃ rest tail, IsSpace tail ∧ t = rest ++ (fence ++ tail)

theorem IsSpace.not_mem {w : List Char} (h : IsSpace w) {c : Char}
    (hc : isRustWhitespace c = false) : c ∉ w := fun hmem => by
  rw [h c hmem] at hc
  cases hc

/-- What is left without its fence holds the object whole, or can be no JSON text, or holds no
object at all. -/
theorem stripLeadingJsonFence_object (hs : Writes numeral loose s (.value v))
    (hv : v.isObject = true) (hbefore : '\x7b' ∉ before) (hafter : '\x7b' ∉ after)
    (hline : ∀ line s₁ s₂, OpensFence before line → '\n' ∉ line → ClosesFence after →
      s = s₁ ++ '\n' :: s₂ → '\n' ∉ s₁ → EndsOutside s₁)
    {u : List Char} (hstrip : stripLeadingJsonFence (before ++ (s ++ after)) = u) :
    (∃ before' after', '\x7b' ∉ before' ∧ u = before' ++ (s ++ after')) ∨
      (∀ j, ¬ IsText numeral u j ∧ ¬ IsText numeral (cleanJsonString u) j) ∨ '\x7b' ∉ u := by
  have hcases := stripLeadingJsonFence_cases (before ++ (s ++ after))
  rw [hstrip] at hcases
  rcases hcases with hsame | ⟨w, line, gap, tail, hw, hbreak, hgap, htail, htext⟩
  · exact .inl ⟨before, after, hbefore, hsame⟩
  obtain ⟨inner, hshape, -⟩ := hs.exists_braces hv
  have hopening : '\x7b' ∉ w ++ fence := fun h => (List.mem_append.mp h).elim
    (hw.not_mem (by decide)) (by decide)
  have hclosing : '\x7d' ∉ gap ++ (fence ++ tail) := fun h => (List.mem_append.mp h).elim
    (hgap.not_mem (by decide)) fun h => (List.mem_append.mp h).elim (by decide)
      (htail.not_mem (by decide))
  have hopen : s ++ after = '\x7b' :: (inner ++ '\x7d' :: after) := by
    rw [hshape, List.cons_append, List.append_assoc, List.singleton_append]
  obtain ⟨k, hk, hrest⟩ := exists_of_append_eq (htext.symm.trans (by rw [hopen])) hopening
  rw [← hopen] at hrest
  by_cases hbefore' : '\n' ∈ k
  · -- The line ends before the object.
    obtain ⟨k₁, k₂, rfl, hk₁⟩ := List.eq_append_cons_of_mem hbefore'
    rw [List.append_assoc, List.cons_append] at hrest
    obtain ⟨rfl, hbody⟩ := append_cons_inj hbreak hk₁ hrest
    have hlast : k₂ ++ (s ++ after) = (k₂ ++ '\x7b' :: inner) ++ '\x7d' :: after := by
      rw [hopen, List.append_assoc, List.cons_append]
    obtain ⟨after', hu, -⟩ := exists_of_eq_append (hbody.trans hlast) hclosing
    refine .inl ⟨k₂, after', fun h => hbefore ?_, ?_⟩
    · rw [hk]
      exact List.mem_append_right _ (List.mem_append_right _ (List.mem_cons_of_mem _ h))
    · rw [hshape, List.cons_append, List.append_assoc, List.singleton_append]
      rw [List.append_assoc, List.cons_append] at hu
      exact hu
  by_cases hinside : '\n' ∈ s
  · -- It ends in the object.
    obtain ⟨s₁, s₂, hsplit, hs₁⟩ := List.eq_append_cons_of_mem hinside
    have hcut : k ++ (s ++ after) = (k ++ s₁) ++ '\n' :: (s₂ ++ after) := by
      rw [hsplit]
      simp only [List.append_assoc, List.cons_append]
    obtain ⟨-, hbody⟩ := append_cons_inj hbreak
      (fun h => (List.mem_append.mp h).elim hbefore' hs₁) (hrest.trans hcut)
    cases s₂ using List.reverseRecOn with
    | nil =>
      rw [hshape, ← List.cons_append] at hsplit
      have hlast := congrArg List.getLast? hsplit
      rw [List.getLast?_concat, List.getLast?_concat] at hlast
      exact absurd (Option.some.inj hlast) (by decide)
    | append_singleton s₂ last =>
      have hlast : last = '\x7d' := by
        rw [hshape, ← List.cons_append, ← List.cons_append, ← List.append_assoc] at hsplit
        exact (List.singleton_inj.mp (List.append_inj' hsplit rfl).2).symm
      subst hlast
      rw [List.append_assoc, List.singleton_append] at hbody
      obtain ⟨rest, hu, hend⟩ := exists_of_eq_append hbody hclosing
      have houtside := hline k s₁ _ ⟨w, hw, hk⟩ hbefore'
        ⟨rest ++ gap, tail, htail, by rw [hend, List.append_assoc]⟩ hsplit hs₁
      have hnot := not_isText_of_lineBreak hs hv hsplit houtside rest
      rw [List.append_assoc, List.singleton_append, ← hu] at hnot
      exact .inr (.inl hnot)
  · -- It ends behind the object.
    obtain ⟨m, -, hend⟩ := exists_of_append_eq
      ((List.append_assoc k s after).trans hrest.symm)
      (fun h => (List.mem_append.mp h).elim hbefore' hinside)
    refine .inr (.inr fun h => hafter ?_)
    rw [hend]
    exact List.mem_append_right _ (List.mem_cons_of_mem _ (List.mem_append_left _ h))

/-- The object of an answer is decoded, whatever stands around it: unless that makes another value
of the whole, or the line of an opening fence ends in one of its literals. -/
theorem parseJsonFromText_object (hv : v.isObject = true) (hd : d.Reads numeral v x)
    (hs : Writes numeral true s (.value v)) (hbefore : '\x7b' ∉ before) (hafter : '\x7b' ∉ after)
    (hwhole : ∀ j, IsText numeral (stripLeadingJsonFence (before ++ (s ++ after))) j ∨
      IsText numeral (cleanJsonString (stripLeadingJsonFence (before ++ (s ++ after)))) j →
        j.isObject = true)
    (hline : ∀ line s₁ s₂, OpensFence before line → '\n' ∉ line → ClosesFence after →
      s = s₁ ++ '\n' :: s₂ → '\n' ∉ s₁ → EndsOutside s₁) :
    parseJsonFromText d (before ++ (s ++ after)) = .ok x ∧
      ∀ t j, IsText numeral t j → cleanJsonString t = t := by
  refine ⟨?_, fun t j h => cleanJsonString_isText h⟩
  have hfound := findJsonCandidates_object hbefore hafter hs hv hd.parse
  rcases stripLeadingJsonFence_object hs hv hbefore hafter hline rfl with
    ⟨before', after', hbefore', hu⟩ | hnot | hnone
  · refine parseJsonFromText_eq_ok hd (fun j h => ?_) (fun j h => ?_) hfound
    · have hj := hwhole j (.inr h)
      rw [hu] at h ⊢
      exact isText_of_clean hbefore' hs hv hj h
    · have hj := hwhole j (.inl h)
      rw [hu] at h ⊢
      exact isText_of_plain hbefore' hs hv hj h
  · exact parseJsonFromText_eq_ok hd (fun j h => ((hnot j).2 h).elim)
      (fun j h => ((hnot j).1 h).elim) hfound
  · exact parseJsonFromText_eq_ok hd
      (fun j h => (hnone (brace_mem_of_isText (hwhole j (.inr h)) (.inr h))).elim)
      (fun j h => (hnone (brace_mem_of_isText (hwhole j (.inl h)) (.inl h))).elim) hfound

end Decoding

/-! ### A decoder -/

section Example
variable {numeral : List Char → Json → Prop} {loose : Bool} {t rest u : List Char} {j : Json}

theorem isObject_of_brace (h : Writes numeral loose t (.value j)) (heq : t ++ rest = '\x7b' :: u) :
    j.isObject = true := by
  cases h with
  | emptyObj _ => rfl
  | obj _ _ => rfl
  | number h _ _ =>
    cases t with
    | nil => exact absurd rfl h.1
    | cons c t => exact absurd (List.cons.inj heq).1 (h.ne List.mem_cons_self).2.1
  | _ => exact absurd (List.cons.inj heq).1 (by decide)

def blankless (t : List Char) : List Char := t.filter fun c => !isJsonBlank c

theorem blankless_of_blank {a : List Char} (ha : Blank a) : blankless a = [] :=
  List.filter_eq_nil_iff.mpr fun c hc => by rw [ha c hc]; exact Bool.false_ne_true

theorem blankless_append (a b : List Char) : blankless (a ++ b) = blankless a ++ blankless b :=
  List.filter_append ..

theorem exists_of_blankless {c : Char} {cs : List Char} (h : blankless t = c :: cs) :
    ∃ a t', Blank a ∧ t = a ++ c :: t' ∧ blankless t' = cs := by
  induction t with
  | nil => cases h
  | cons d t ih =>
    cases hd : isJsonBlank d with
    | true =>
      rw [blankless, List.filter_cons_of_neg (by rw [hd]; exact Bool.false_ne_true)] at h
      obtain ⟨a, t', ha, rfl, hrest⟩ := ih h
      exact ⟨d :: a, t', List.forall_mem_cons.mpr ⟨hd, ha⟩, rfl, hrest⟩
    | false =>
      rw [blankless, List.filter_cons_of_pos (by rw [hd]; rfl)] at h
      obtain ⟨rfl, hrest⟩ := List.cons.inj h
      exact ⟨[], t, fun c hc => absurd hc List.not_mem_nil, rfl, hrest⟩

theorem blank_of_blankless (h : blankless t = []) : Blank t := fun c hc => by
  have hfalse := List.filter_eq_nil_iff.mp h c hc
  rwa [Bool.not_eq_true, Bool.not_eq_false'] at hfalse

/-- Decodes any value, of the two texts that it knows. -/
def valueDecoder : Decoder Json where
  fromStr t :=
    if blankless t = ['\x7b', '\x7d'] then .ok (.obj [])
    else if blankless t = ['[', '\x7b', '\x7d', ']'] then .ok (.arr [.obj []])
    else .error "expected value"
  parse t := if blankless t = ['\x7b', '\x7d'] then some (.obj []) else none
  fromValue := some

/-- Natural numbers in decimal. -/
def decimal (t : List Char) (j : Json) : Prop := ∃ n : ℕ, t = Nat.toDigits 10 n ∧ j = .int n

theorem blankless_emptyObj (h : Writes numeral loose t (.value (.obj []))) :
    blankless t = ['\x7b', '\x7d'] := by
  cases h with
  | number _ _ h => cases h
  | emptyObj ha =>
    rw [← List.singleton_append, blankless_append, blankless_append, blankless_of_blank ha]
    decide
  | obj h hperm =>
    rw [List.nil_perm.mp hperm] at h
    cases h

theorem valueDecoder_reads : valueDecoder.Reads decimal (.obj []) (.obj []) where
  onlyText t y h := by
    unfold valueDecoder at h
    dsimp only at h
    split_ifs at h with hobj harr
    · obtain ⟨a, t₁, ha, rfl, h₁⟩ := exists_of_blankless hobj
      obtain ⟨b, t₂, hb, rfl, h₂⟩ := exists_of_blankless h₁
      refine ⟨.obj [], a, '\x7b' :: (b ++ ['\x7d']), t₂, ?_, ha, blank_of_blankless h₂,
        .emptyObj hb⟩
      simp only [List.cons_append, List.append_assoc, List.nil_append]
    · obtain ⟨a, t₁, ha, rfl, h₁⟩ := exists_of_blankless harr
      obtain ⟨b, t₂, hb, rfl, h₂⟩ := exists_of_blankless h₁
      obtain ⟨c, t₃, hc, rfl, h₃⟩ := exists_of_blankless h₂
      obtain ⟨e, t₄, he, rfl, h₄⟩ := exists_of_blankless h₃
      refine ⟨.arr [.obj []], a, '[' :: ((b ++ ('\x7b' :: (c ++ ['\x7d']) ++ e)) ++ [']']), t₄,
        ?_, ha, blank_of_blankless h₄, .arr (.lastItem hb (.emptyObj hc) he)⟩
      simp only [List.cons_append, List.append_assoc, List.nil_append]
  text t h := by
    obtain ⟨a, o, b, rfl, ha, hb, ho⟩ := h
    refine if_pos ?_
    rw [blankless_append, blankless_append, blankless_of_blank ha, blankless_of_blank hb,
      blankless_emptyObj ho]
    rfl
  parse t h := if_pos (blankless_emptyObj h)
  value := rfl

/-- A fenced object. -/
theorem parseJsonFromText_object_fenced :
    parseJsonFromText valueDecoder
        ("```json\n".toList ++ (['\x7b', '\x7d'] ++ "\n```".toList)) = .ok (.obj []) ∧
      ∀ t j, IsText decimal t j → cleanJsonString t = t := by
  have hwrites : Writes decimal true ['\x7b', '\x7d'] (.value (.obj [])) :=
    .emptyObj fun c hc => absurd hc List.not_mem_nil
  have hstrip : stripLeadingJsonFence
      ("```json\n".toList ++ (['\x7b', '\x7d'] ++ "\n```".toList)) = ['\x7b', '\x7d'] := by
    decide
  have hclean : cleanJsonString ['\x7b', '\x7d'] = ['\x7b', '\x7d'] := by decide
  refine parseJsonFromText_object rfl valueDecoder_reads hwrites (by decide) (by decide) ?_ ?_
  · intro j h
    rw [hstrip, hclean, or_self] at h
    obtain ⟨a, o, b, heq, ha, -, ho⟩ := h
    cases a with
    | nil => exact isObject_of_brace ho heq.symm
    | cons c a =>
      have hc := ha c List.mem_cons_self
      rw [← (List.cons.inj heq).1] at hc
      exact absurd hc (by decide)
  · intro line s₁ s₂ _ _ _ hsplit
    have hmem : '\n' ∈ ['\x7b', '\x7d'] := by
      rw [hsplit]
      exact List.mem_append_right _ List.mem_cons_self
    exact absurd hmem (by decide)

/-- Within brackets the object is an item, and the array is decoded. -/
theorem bracketed_object_decoded_as_array :
    '\x7b' ∉ ['['] ∧ '\x7b' ∉ [']'] ∧
      Writes decimal true ['\x7b', '\x7d'] (.value (.obj [])) ∧
      valueDecoder.Reads decimal (.obj []) (.obj []) ∧
      parseJsonFromText valueDecoder (['['] ++ (['\x7b', '\x7d'] ++ [']'])) =
        .ok (.arr [.obj []]) :=
  ⟨by decide, by decide, .emptyObj fun c hc => absurd hc List.not_mem_nil, valueDecoder_reads, rfl⟩

end Example

end Sashiko
