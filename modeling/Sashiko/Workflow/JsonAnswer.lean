import Sashiko.Workflow.LooseJson

/-! The object in a model's answer: whatever stands around it, it is the object that is decoded. -/

namespace Sashiko

open JsonText

/-! ### Where literals are open -/

inductive Quoting where
  | outside
  | inside
  | escaped
  deriving DecidableEq, Repr

def Quoting.next : Quoting → Char → Quoting
  | outside, c => if c = '"' then inside else outside
  | inside, c => if c = '\\' then escaped else if c = '"' then outside else inside
  | escaped, _ => inside

def Quoting.inString (q : Quoting) : Bool := q ≠ outside

def Quoting.escape (q : Quoting) : Bool := q = escaped

/-- No literal is open at the end of the text. -/
def EndsOutside (t : List Char) : Prop := t.foldl Quoting.next .outside = .outside

section Scanning
variable {numeral : List Char → Json → Prop} {a b t : List Char}

/-- A brace that is found behind a part of the text is found from the end of that part on. -/
theorem closingBraceFrom_behind {depth : ℤ} {q : Quoting} {last : ℕ} (hdepth : 1 ≤ depth)
    (h : closingBraceFrom depth q.inString q.escape (a ++ b) = some last) (hlen : a.length ≤ last) :
    ∃ depth', 1 ≤ depth' ∧ (closingBraceFrom depth' (a.foldl Quoting.next q).inString
      (a.foldl Quoting.next q).escape b).isSome = true := by
  induction a generalizing depth q last with
  | nil => exact ⟨depth, hdepth, by rw [List.nil_append] at h; rw [List.foldl_nil, h]; rfl⟩
  | cons c a ih =>
    have hgo {depth' : ℤ} (hdepth' : 1 ≤ depth')
        (h : (closingBraceFrom depth' (q.next c).inString (q.next c).escape (a ++ b)).map (· + 1) =
          some last) : ∃ depth', 1 ≤ depth' ∧
        (closingBraceFrom depth' ((c :: a).foldl Quoting.next q).inString
          ((c :: a).foldl Quoting.next q).escape b).isSome = true := by
      obtain ⟨n, hn, rfl⟩ := Option.map_eq_some_iff.mp h
      exact ih hdepth' hn (Nat.le_of_succ_le_succ hlen)
    rw [List.cons_append] at h
    cases q with
    | outside =>
      have hnot (hc : c ≠ '"') : Quoting.next .outside c = .outside := if_neg hc
      by_cases hquote : c = '"'
      · subst hquote
        exact hgo hdepth h
      rw [hnot hquote] at hgo
      change closingBraceFrom depth false false (c :: (a ++ b)) = some last at h
      rw [closingBraceFrom, if_neg hquote] at h
      split_ifs at h with hopen hclose hzero
      · exact hgo (by omega) h
      · cases h
        exact absurd hlen (Nat.not_succ_le_zero _)
      · exact hgo (by omega) h
      · exact hgo hdepth h
    | inside =>
      change closingBraceFrom depth true false (c :: (a ++ b)) = some last at h
      rw [closingBraceFrom] at h
      split_ifs at h with hslash
      · exact hgo hdepth (by rw [Quoting.next, if_pos hslash]; exact h)
      · by_cases hquote : c = '"'
        · refine hgo hdepth ?_
          rw [Quoting.next, if_neg hslash, if_pos hquote]
          rw [hquote] at h
          exact h
        · refine hgo hdepth ?_
          rw [Quoting.next, if_neg hslash, if_neg hquote]
          rw [decide_eq_true hquote] at h
          exact h
    | escaped => exact hgo hdepth h

/-- Cleaning keeps whether the brace is found. -/
theorem isSome_closingBraceFrom_clean (depth : ℤ) (t : List Char) :
    (closingBraceFrom depth false false (cleanFrom false false t)).isSome =
        (closingBraceFrom depth false false t).isSome ∧
      (closingBraceFrom depth true false (cleanFrom true false t)).isSome =
        (closingBraceFrom depth true false t).isSome ∧
      (closingBraceFrom depth true false (cleanFrom true true t)).isSome =
        (closingBraceFrom depth true true t).isSome := by
  induction t generalizing depth with
  | nil => exact ⟨rfl, rfl, rfl⟩
  | cons c t ih =>
    have hshort (e : Char) :
        (closingBraceFrom depth true false ('\\' :: e :: cleanFrom true false t)).isSome =
          (closingBraceFrom depth true false t).isSome := by
      rw [closingBraceFrom_escape, Option.isSome_map, (ih depth).2.1]
    refine ⟨?_, ?_, ?_⟩
    · rw [cleanFrom, closingBraceFrom, closingBraceFrom]
      by_cases hquote : c = '"'
      · rw [if_pos hquote, if_pos hquote, decide_eq_true hquote, Option.isSome_map,
          Option.isSome_map, (ih depth).2.1]
      · rw [if_neg hquote, if_neg hquote, decide_eq_false hquote]
        split_ifs with hopen hclose hzero
        · rw [Option.isSome_map, Option.isSome_map, (ih _).1]
        · rfl
        · rw [Option.isSome_map, Option.isSome_map, (ih _).1]
        · rw [Option.isSome_map, Option.isSome_map, (ih _).1]
    · rw [cleanFrom]
      by_cases hslash : c = '\\'
      · rw [if_pos hslash, (ih depth).2.2, closingBraceFrom, if_pos hslash, Option.isSome_map]
      rw [if_neg hslash]
      by_cases hquote : c = '"'
      · subst hquote
        rw [if_pos rfl, closingBraceFrom, if_neg hslash, closingBraceFrom, if_neg hslash,
          Option.isSome_map, Option.isSome_map]
        exact (ih depth).1
      have hplain : (closingBraceFrom depth true false (c :: t)).isSome =
          (closingBraceFrom depth true false t).isSome := by
        rw [closingBraceFrom, if_neg hslash, decide_eq_true hquote, Option.isSome_map]
      rw [if_neg hquote, hplain]
      split_ifs with hn hr htab hlt
      · exact hshort 'n'
      · exact hshort 'r'
      · exact hshort 't'
      · have hunit := codeUnit_ne (codeUnit_controlEscape hlt)
        have hfour := closingBraceFrom_plain depth hunit (cleanFrom true false t)
        rw [controlEscape, List.cons_append, List.cons_append, closingBraceFrom_escape, hfour,
          Option.isSome_map, Option.isSome_map, (ih depth).2.1]
      · rw [closingBraceFrom, if_neg hslash, decide_eq_true hquote, Option.isSome_map,
          (ih depth).2.1]
    · rw [cleanFrom, closingBraceFrom_escape, Option.isSome_map, (ih depth).2.1, closingBraceFrom,
        Option.isSome_map]

/-- Nothing is left open by a JSON text. -/
theorem isText_closingBraceFrom {j : Json} (h : IsText numeral t j) {depth : ℤ}
    (hdepth : 1 ≤ depth) : closingBraceFrom depth false false t = none := by
  obtain ⟨before, o, after, rfl, hbefore, hafter, ho⟩ := h
  have hpasses := (Passes.blank hbefore).append ((writes_passes ho).append (Passes.blank hafter))
  have hnil : closingBraceFrom depth false false [] = none := by rw [closingBraceFrom]
  rw [← List.append_nil (before ++ (o ++ after)), hpasses depth [] hdepth, hnil, Option.map_none]

end Scanning

/-! ### Objects in the text of an answer -/

section Finding
variable {numeral : List Char → Json → Prop} {loose : Bool} {before after s : List Char} {v : Json}
  {parse : List Char → Option Json}

theorem append_cons_inj {α : Type} {x : α} {a a' b b' : List α} (ha : x ∉ a) (ha' : x ∉ a')
    (h : a ++ x :: b = a' ++ x :: b') : a = a' ∧ b = b' := by
  induction a generalizing a' with
  | nil =>
    cases a' with
    | nil => exact ⟨rfl, (List.cons.inj h).2⟩
    | cons y a' => exact absurd ((List.cons.inj h).1 ▸ List.mem_cons_self) ha'
  | cons y a ih =>
    cases a' with
    | nil => exact absurd ((List.cons.inj h).1 ▸ List.mem_cons_self) ha
    | cons z a' =>
      obtain ⟨rfl, hrest⟩ := List.cons.inj h
      obtain ⟨rfl, rfl⟩ := ih (fun hx => ha (List.mem_cons_of_mem _ hx))
        (fun hx => ha' (List.mem_cons_of_mem _ hx)) hrest
      exact ⟨rfl, rfl⟩

theorem findJsonCandidates_append (h : '\x7b' ∉ before) (rest : List Char) :
    findJsonCandidates parse (before ++ rest) = findJsonCandidates parse rest := by
  induction before with
  | nil => rfl
  | cons c before ih =>
    have hc : c ≠ '\x7b' := fun hc => h (hc ▸ List.mem_cons_self)
    rw [List.cons_append, findJsonCandidates, if_neg hc, ih fun hx => h (List.mem_cons_of_mem _ hx)]

theorem findJsonCandidates_eq_nil (h : '\x7b' ∉ after) : findJsonCandidates parse after = [] := by
  rw [← List.append_nil after, findJsonCandidates_append h, findJsonCandidates]

/-- The object is the only candidate. -/
theorem findJsonCandidates_object (hbefore : '\x7b' ∉ before) (hafter : '\x7b' ∉ after)
    (hs : Writes numeral loose s (.value v)) (hv : v.isObject = true)
    (hparse : ∀ t, Writes numeral false t (.value v) → parse t = some v) :
    findJsonCandidates parse (before ++ (s ++ after)) = [v] := by
  obtain ⟨t', ht', -, hclean⟩ := writes_clean hs
  have hcleaned : cleanJsonString s = t' := by
    have hall := hclean []
    have hnil : cleanJsonString [] = [] := rfl
    rwa [List.append_nil, hnil, List.append_nil] at hall
  have hmatch := findMatchingBrace_object hs hv after
  obtain ⟨inner, hshape, -⟩ := hs.exists_braces hv
  have hpos : s.length - 1 + 1 = s.length := by
    rw [hshape, List.length_cons, Nat.add_sub_cancel]
  have hcandidate : candidateAt parse (s ++ after) = some (s.length - 1, v) := by
    simp only [candidateAt, hmatch, Option.bind_eq_bind, Option.bind_some, hpos, List.take_left,
      hcleaned, hparse t' ht', Option.some_or, Option.pure_def]
  have hcons : s ++ after = '\x7b' :: (inner ++ '\x7d' :: after) := by
    rw [hshape, List.cons_append, List.append_assoc, List.singleton_append]
  have hdrop : (inner ++ '\x7d' :: after).drop (s.length - 1) = after := by
    have hlen : s.length - 1 = (inner ++ ['\x7d']).length := by
      rw [hshape, List.length_cons, Nat.add_sub_cancel]
    have hsplit : inner ++ '\x7d' :: after = inner ++ ['\x7d'] ++ after := by
      rw [List.append_assoc, List.singleton_append]
    rw [hlen, hsplit, List.drop_left]
  rw [findJsonCandidates_append hbefore, hcons, findJsonCandidates, if_pos rfl, ← hcons,
    hcandidate]
  dsimp only
  rw [hdrop, findJsonCandidates_eq_nil hafter]

/-- Cleaning leaves the start of a text alone up to its first literal. -/
theorem exists_of_clean {u w : List Char} (hbefore : Blank before)
    (h : cleanJsonString u = before ++ '\x7b' :: w) : ∃ u', u = before ++ '\x7b' :: u' := by
  induction before generalizing u with
  | nil =>
    cases u with
    | nil => cases h
    | cons c u =>
      rw [cleanJsonString, cleanFrom] at h
      exact ⟨u, congrArg (· :: u) (List.cons.inj h).1⟩
  | cons b before ih =>
    cases u with
    | nil => cases h
    | cons c u =>
      have hb := (hbefore.ne List.mem_cons_self).1
      rw [cleanJsonString, cleanFrom] at h
      obtain ⟨rfl, hrest⟩ := List.cons.inj h
      rw [decide_eq_false hb] at hrest
      obtain ⟨u', rfl⟩ := ih (fun c hc => hbefore c (List.mem_cons_of_mem _ hc)) hrest
      exact ⟨u', rfl⟩

/-- An object that the text is, once cleaned, is the one that stands in it. -/
theorem isText_of_clean (hbefore : '\x7b' ∉ before) (hs : Writes numeral loose s (.value v))
    (hv : v.isObject = true) {j : Json} (hj : j.isObject = true)
    (h : IsText numeral (cleanJsonString (before ++ (s ++ after))) j) :
    IsText numeral (cleanJsonString (before ++ (s ++ after))) v := by
  obtain ⟨blank, o, rest, heq, hblank, hrest, ho⟩ := h
  obtain ⟨t', ht', -, hclean⟩ := writes_clean hs
  obtain ⟨inner, hshape, -⟩ := hs.exists_braces hv
  obtain ⟨inner', rfl, -⟩ := ho.exists_braces hj
  rw [List.cons_append] at heq
  obtain ⟨u', hu'⟩ := exists_of_clean hblank heq
  have hfirst : before = blank := by
    rw [hshape, List.cons_append] at hu'
    exact (append_cons_inj hbefore (fun hx => (hblank.ne hx).2.2.1 rfl) hu').1
  subst hfirst
  rw [Cleans.blank hblank, hclean, ← List.cons_append] at heq
  obtain ⟨hsame, hend⟩ := object_unique ht' hv ho hj (List.append_cancel_left heq)
  rw [Cleans.blank hblank, hclean, hend]
  exact ⟨before, t', rest, rfl, hblank, hrest, ht'⟩

/-- An object that the text is, as it stands, is the one that stands in it. -/
theorem isText_of_plain (hbefore : '\x7b' ∉ before) (hs : Writes numeral loose s (.value v))
    (hv : v.isObject = true) {j : Json} (hj : j.isObject = true)
    (h : IsText numeral (before ++ (s ++ after)) j) :
    IsText numeral (before ++ (s ++ after)) v := by
  have hsame := cleanJsonString_isText h
  rw [← hsame] at h ⊢
  rw [hsame] at h
  exact isText_of_clean hbefore hs hv hj (by rwa [hsame])

end Finding

end Sashiko
