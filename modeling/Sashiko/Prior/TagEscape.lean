import Sashiko.Lib.Tokens

/-! `sanitize_untrusted_discussion_text`: the angle brackets of what looks like a tag are
escaped. -/

namespace Sashiko

/-! ### Tags -/

def isTagNameStart (c : Char) : Bool := c.isAlpha || c = '_'

def isTagNameChar (c : Char) : Bool := c.isAlphanum || ['_', '-', ':', '.'].contains c

/-- Past the white space and the slash in front of a name. -/
def tagBody (rest : List Char) : List Char :=
  match rest.dropWhile isRustWhitespace with
  | '/' :: rest => rest.dropWhile isRustWhitespace
  | rest => rest

def endsTagName : List Char → Bool
  | [] => false
  | '>' :: _ => true
  | '/' :: rest => rest.head? = some '>'
  | c :: _ => isRustWhitespace c

def startsXmlTag (rest : List Char) : Bool :=
  (tagBody rest).head?.any isTagNameStart && endsTagName ((tagBody rest).dropWhile isTagNameChar)

/-- The loop over the characters. -/
def escapeTags : Bool → List Char → List Char
  | _, [] => []
  | pendingClose, c :: rest =>
    if c = '<' && startsXmlTag rest then "&lt;".toList ++ escapeTags true rest
    else if c = '>' && pendingClose then "&gt;".toList ++ escapeTags false rest
    else if c = '\n' then c :: escapeTags false rest
    else c :: escapeTags pendingClose rest

def sanitizeUntrustedDiscussionText (text : List Char) : List Char :=
  if '<' ∈ text then escapeTags false text else text

variable {pendingClose : Bool} {c : Char} {a b rest s text x y : List Char}

/-! ### Tags and what follows -/

/-- No blank, slash or character of a name: here it is decided whether a tag begins. -/
def IsTagStop (c : Char) : Prop :=
  isRustWhitespace c = false ∧ c ≠ '/' ∧ isTagNameStart c = false ∧ isTagNameChar c = false

theorem tagBody_append (h : tagBody a ≠ []) (y : List Char) :
    tagBody (a ++ y) = tagBody a ++ y := by
  unfold tagBody at h ⊢
  rw [List.dropWhile_append]
  cases hblank : a.dropWhile isRustWhitespace with
  | nil => exact absurd (by rw [hblank]) h
  | cons c body =>
    rw [hblank] at h
    by_cases hslash : c = '/'
    · subst hslash
      simp only at h
      simp [List.dropWhile_append, h]
    · simp [hslash]

theorem tagBody_append_stop (h : tagBody a = []) (hc : IsTagStop c) (x : List Char) :
    tagBody (a ++ c :: x) = c :: x := by
  obtain ⟨hspace, hslash, -, -⟩ := hc
  unfold tagBody at h ⊢
  rw [List.dropWhile_append]
  cases hblank : a.dropWhile isRustWhitespace with
  | nil => simp [hspace, hslash]
  | cons d body =>
    rw [hblank] at h
    by_cases hd : d = '/'
    · subst hd
      simp only at h
      simp [List.dropWhile_append, h, hspace]
    · simp [hd] at h

theorem dropWhile_name_append_stop (hc : IsTagStop c) (a x : List Char) :
    (a ++ c :: x).dropWhile isTagNameChar = a.dropWhile isTagNameChar ++ c :: x := by
  rw [List.dropWhile_append]
  cases a.dropWhile isTagNameChar with
  | nil => simp [hc.2.2.2]
  | cons d name => rfl

theorem endsTagName_append (h : endsTagName a = true) (y : List Char) :
    endsTagName (a ++ y) = true := by
  fun_cases endsTagName a with
  | case1 => cases h
  | case2 => rfl
  | case3 rest =>
    obtain ⟨rest, rfl⟩ : ∃ tail, rest = '>' :: tail :=
      List.head?_eq_some_iff.mp (by simpa [endsTagName] using h)
    rfl
  | case4 c rest hclose hslash =>
    unfold endsTagName at h ⊢
    simpa [hclose, hslash] using h

/-- Text that begins a tag begins one whatever comes behind. -/
theorem startsXmlTag_append (h : startsXmlTag a = true) (y : List Char) :
    startsXmlTag (a ++ y) = true := by
  unfold startsXmlTag at h ⊢
  rw [Bool.and_eq_true] at h ⊢
  have hbody : tagBody a ≠ [] := fun hnil => by simp [hnil] at h
  rw [tagBody_append hbody, List.head?_append_of_ne_nil _ hbody]
  refine ⟨h.1, ?_⟩
  rw [List.dropWhile_append]
  cases hname : (tagBody a).dropWhile isTagNameChar with
  | nil => simp [hname, endsTagName] at h
  | cons d name =>
    rw [hname] at h
    exact endsTagName_append h.2 y

theorem endsTagName_append_stop (hc : IsTagStop c) (hclose : c ≠ '>') (a x : List Char) :
    endsTagName (a ++ c :: x) = endsTagName a := by
  obtain ⟨hspace, hslash, -, -⟩ := hc
  fun_cases endsTagName a with
  | case1 => simp [endsTagName, hspace]
  | case2 => rfl
  | case3 rest => cases rest <;> simp [endsTagName, hclose]
  | case4 d rest hdclose hdslash => simp [endsTagName]

/-- At a stop that is no closing bracket nothing is decided that was not before. -/
theorem startsXmlTag_append_stop (hc : IsTagStop c) (hclose : c ≠ '>') (a x : List Char) :
    startsXmlTag (a ++ c :: x) = startsXmlTag a := by
  unfold startsXmlTag
  by_cases hbody : tagBody a = []
  · rw [tagBody_append_stop hbody hc, hbody, List.head?_cons, Option.any_some, hc.2.2.1]
    rfl
  · rw [tagBody_append hbody, List.head?_append_of_ne_nil _ hbody, dropWhile_name_append_stop hc,
      endsTagName_append_stop hc hclose]

/-- A closing bracket decides it. -/
theorem startsXmlTag_append_close (a x : List Char) :
    startsXmlTag (a ++ '>' :: x) = startsXmlTag (a ++ ['>']) := by
  have hc : IsTagStop '>' := ⟨by decide, by decide, by decide, by decide⟩
  have hends : ∀ y : List Char, endsTagName (y ++ '>' :: x) = endsTagName (y ++ ['>']) := by
    intro y
    fun_cases endsTagName y with
    | case1 => rfl
    | case2 => rfl
    | case3 rest => cases rest <;> rfl
    | case4 d rest hdclose hdslash => simp [endsTagName]
  unfold startsXmlTag
  by_cases hbody : tagBody a = []
  · rw [tagBody_append_stop hbody hc, tagBody_append_stop hbody hc]
    rfl
  · rw [tagBody_append hbody, tagBody_append hbody, List.head?_append_of_ne_nil _ hbody,
      List.head?_append_of_ne_nil _ hbody, dropWhile_name_append_stop hc,
      dropWhile_name_append_stop hc, hends]

/-! ### The escaped text -/

/-- Up to the first bracket the text is as it was. -/
theorem escapeTags_append (h : ∀ c ∈ a, c ≠ '<' ∧ c ≠ '>') (pendingClose : Bool)
    (b : List Char) : ∃ pending, escapeTags pendingClose (a ++ b) = a ++ escapeTags pending b := by
  induction a generalizing pendingClose with
  | nil => exact ⟨pendingClose, rfl⟩
  | cons c a ih =>
    obtain ⟨⟨hopen, hclose⟩, ha⟩ := List.forall_mem_cons.mp h
    by_cases hbreak : c = '\n'
    · obtain ⟨pending, hpending⟩ := ih ha false
      exact ⟨pending, by simp [escapeTags, hbreak, hpending]⟩
    · obtain ⟨pending, hpending⟩ := ih ha pendingClose
      exact ⟨pending, by simp [escapeTags, hopen, hclose, hbreak, hpending]⟩

theorem exists_bracket_split (rest : List Char) : ∃ a b, rest = a ++ b ∧
    (∀ c ∈ a, c ≠ '<' ∧ c ≠ '>') ∧ ∀ c ∈ b.head?, c = '<' ∨ c = '>' := by
  refine ⟨rest.takeWhile fun c => c ≠ '<' && c ≠ '>', rest.dropWhile fun c => c ≠ '<' && c ≠ '>',
    List.takeWhile_append_dropWhile.symm, fun c hc => ?_, fun c hc => ?_⟩
  · simpa using List.mem_takeWhile_imp hc
  · have hstop := List.head?_dropWhile_not (fun c => c ≠ '<' && c ≠ '>') rest
    rw [Option.mem_def.mp hc] at hstop
    by_contra hneither
    rw [not_or] at hneither
    simp [hneither] at hstop

/-- Escaping what is behind an opening bracket does not make it one of a tag. -/
theorem startsXmlTag_escapeTags (h : startsXmlTag rest = false) (pendingClose : Bool)
    (s : List Char) :
    startsXmlTag (escapeTags pendingClose rest ++ s) = startsXmlTag (rest ++ s) := by
  obtain ⟨a, b, rfl, ha, hb⟩ := exists_bracket_split rest
  obtain ⟨pending, hescaped⟩ := escapeTags_append ha pendingClose b
  have hamp : IsTagStop '&' := ⟨by decide, by decide, by decide, by decide⟩
  have hlt : IsTagStop '<' := ⟨by decide, by decide, by decide, by decide⟩
  rw [hescaped]
  cases b with
  | nil => rfl
  | cons c b =>
    rcases hb c rfl with rfl | rfl
    · have hhead : ∃ d x, (d = '<' ∨ d = '&') ∧ escapeTags pending ('<' :: b) = d :: x := by
        by_cases htag : startsXmlTag b = true
        · exact ⟨'&', _, .inr rfl, by simp [escapeTags, htag]; rfl⟩
        · exact ⟨'<', _, .inl rfl, by simp [escapeTags, htag]; rfl⟩
      obtain ⟨d, x, hd, hx⟩ := hhead
      rw [hx, List.append_assoc, List.append_assoc, List.cons_append, List.cons_append,
        startsXmlTag_append_stop hlt (by decide)]
      rcases hd with rfl | rfl
      · exact startsXmlTag_append_stop hlt (by decide) _ _
      · exact startsXmlTag_append_stop hamp (by decide) _ _
    · rw [startsXmlTag_append_close] at h
      have ha' : startsXmlTag a = false := by
        by_contra htag
        rw [startsXmlTag_append (by simpa using htag)] at h
        cases h
      rw [List.append_assoc, List.append_assoc, List.cons_append, startsXmlTag_append_close, h]
      cases pending with
      | false =>
        have hx : escapeTags false ('>' :: b) = '>' :: escapeTags false b := by
          simp [escapeTags]
        rw [hx, List.cons_append, startsXmlTag_append_close, h]
      | true =>
        have hx : escapeTags true ('>' :: b) = '&' :: ("gt;".toList ++ escapeTags false b) := by
          simp [escapeTags]
        rw [hx, List.cons_append, startsXmlTag_append_stop hamp (by decide), ha']

end Sashiko
