import Sashiko.Workflow.JsonOutput

/-! Loose JSON texts under the cleaner and under the brace matcher, and in the text of an answer. -/

namespace Sashiko

open JsonText

variable {numeral : List Char → Json → Prop} {loose : Bool} {t s : List Char} {node : Node}

/-! ### Cleaning -/

/-- From outside of literals the text is cleaned to `t'`, which leads outside again. -/
def Cleans (t t' : List Char) : Prop :=
  ∀ rest, cleanJsonString (t ++ rest) = t' ++ cleanJsonString rest

theorem Cleans.append {a a' b b' : List Char} (ha : Cleans a a') (hb : Cleans b b') :
    Cleans (a ++ b) (a' ++ b') := by
  intro rest
  rw [List.append_assoc, ha, hb, List.append_assoc]

theorem Cleans.cons {a a' : List Char} {c : Char} (hc : c ≠ '"') (ha : Cleans a a') :
    Cleans (c :: a) (c :: a') := by
  intro rest
  have hstep (x : List Char) : cleanJsonString (c :: x) = c :: cleanJsonString x := by
    rw [cleanJsonString, cleanFrom, decide_eq_false hc]
    rfl
  rw [List.cons_append, hstep, ha, List.cons_append]

theorem Cleans.nil : Cleans [] [] := fun _ => rfl

theorem Cleans.same {a : List Char} (ha : ∀ c ∈ a, c ≠ '"') : Cleans a a := by
  induction a with
  | nil => exact Cleans.nil
  | cons c a ih =>
    exact Cleans.cons (ha c List.mem_cons_self) (ih fun x hx => ha x (List.mem_cons_of_mem _ hx))

theorem Cleans.blank {a : List Char} (ha : Blank a) : Cleans a a :=
  Cleans.same fun _ hc => (ha.ne hc).1

theorem cleanFrom_plain {a : List Char}
    (ha : ∀ c ∈ a, c ≠ '"' ∧ c ≠ '\\' ∧ 32 ≤ c.toNat) (rest : List Char) :
    cleanFrom true false (a ++ rest) = a ++ cleanFrom true false rest := by
  induction a with
  | nil => rfl
  | cons c a ih =>
    obtain ⟨hquote, hslash, hcontrol⟩ := ha c List.mem_cons_self
    have hne (d : Char) (hd : d.toNat < 32) : c ≠ d := by
      rintro rfl
      omega
    rw [List.cons_append, cleanFrom, if_neg hslash, if_neg hquote,
      if_neg (hne '\n' (by decide)), if_neg (hne '\r' (by decide)), if_neg (hne '\t' (by decide)),
      if_neg (Nat.not_lt.mpr hcontrol), ih fun x hx => ha x (List.mem_cons_of_mem _ hx)]
    rfl

theorem codeUnit_controlEscape {c : Char} (h : c.toNat < 32) :
    codeUnit ['0', '0', Json.hexDigit (c.toNat / 16), Json.hexDigit (c.toNat % 16)] =
      some c.toNat := by
  have hall : ∀ n < 32, codeUnit ['0', '0', Json.hexDigit (n / 16), Json.hexDigit (n % 16)] =
      some n := by decide
  exact hall _ h

/-- The characters of a literal are cleaned to strict ones that stand for the same. -/
theorem chars_clean (h : LiteralText loose t s) :
    ∃ t', LiteralText false t' s ∧ (loose = false → t' = t) ∧
      ∀ rest, cleanFrom true false (t ++ rest) = t' ++ cleanFrom true false rest := by
  have hslash (c : Char) (x : List Char) :
      cleanFrom true false ('\\' :: c :: x) = '\\' :: c :: cleanFrom true false x := by
    rw [cleanFrom, if_pos rfl, cleanFrom]
  induction h with
  | nil => exact ⟨[], .nil, fun _ => rfl, fun _ => rfl⟩
  | @plain c t s hquote hback hcontrol _ ih =>
    obtain ⟨t', ht', hsame, hclean⟩ := ih
    have hstrict (h : loose = false) (hlt : c.toNat < 32) : False :=
      Nat.not_lt.mpr (hcontrol h) hlt
    by_cases hn : c = '\n'
    · subst hn
      refine ⟨'\\' :: 'n' :: t', .escape (by decide) ht', fun h => (hstrict h (by decide)).elim,
        fun rest => ?_⟩
      rw [List.cons_append, cleanFrom, if_neg hback, if_neg hquote, if_pos rfl, hclean]
      rfl
    by_cases hr : c = '\r'
    · subst hr
      refine ⟨'\\' :: 'r' :: t', .escape (by decide) ht', fun h => (hstrict h (by decide)).elim,
        fun rest => ?_⟩
      rw [List.cons_append, cleanFrom, if_neg hback, if_neg hquote, if_neg hn, if_pos rfl, hclean]
      rfl
    by_cases htab : c = '\t'
    · subst htab
      refine ⟨'\\' :: 't' :: t', .escape (by decide) ht', fun h => (hstrict h (by decide)).elim,
        fun rest => ?_⟩
      rw [List.cons_append, cleanFrom, if_neg hback, if_neg hquote, if_neg hn, if_neg hr,
        if_pos rfl, hclean]
      rfl
    by_cases hlt : c.toNat < 32
    · have hunit := LiteralText.codePoint (codeUnit_controlEscape hlt) (.inl (by omega)) ht'
      rw [Char.ofNat_toNat] at hunit
      refine ⟨_, hunit, fun h => (hstrict h hlt).elim, fun rest => ?_⟩
      rw [List.cons_append, cleanFrom, if_neg hback, if_neg hquote, if_neg hn, if_neg hr,
        if_neg htab, if_pos hlt, hclean]
      rfl
    · refine ⟨c :: t', .plain hquote hback (fun _ => Nat.not_lt.mp hlt) ht',
        fun h => by rw [hsame h], fun rest => ?_⟩
      rw [List.cons_append, cleanFrom, if_neg hback, if_neg hquote, if_neg hn, if_neg hr,
        if_neg htab, if_neg hlt, hclean]
      rfl
  | @escape e c t s hmem _ ih =>
    obtain ⟨t', ht', hsame, hclean⟩ := ih
    refine ⟨'\\' :: e :: t', .escape hmem ht', fun h => by rw [hsame h], fun rest => ?_⟩
    rw [List.cons_append, List.cons_append, hslash, hclean]
    rfl
  | @codePoint digits n t s hunit hvalid _ ih =>
    obtain ⟨t', ht', hsame, hclean⟩ := ih
    refine ⟨_, .codePoint hunit hvalid ht', fun h => by rw [hsame h], fun rest => ?_⟩
    rw [List.cons_append, List.cons_append, hslash, List.append_assoc,
      cleanFrom_plain (codeUnit_ne hunit), hclean]
    simp only [List.cons_append, List.append_assoc]
  | @surrogates high low a b t s hhigh hhighRange hlow hlowRange _ ih =>
    obtain ⟨t', ht', hsame, hclean⟩ := ih
    refine ⟨_, .surrogates hhigh hhighRange hlow hlowRange ht', fun h => by rw [hsame h],
      fun rest => ?_⟩
    rw [List.cons_append, List.cons_append, hslash, List.append_assoc,
      cleanFrom_plain (codeUnit_ne hhigh), List.cons_append, List.cons_append, hslash,
      List.append_assoc, cleanFrom_plain (codeUnit_ne hlow), hclean]
    simp only [List.cons_append, List.append_assoc]

theorem literal_clean (h : LiteralText loose t s) :
    ∃ t', LiteralText false t' s ∧ (loose = false → t' = t) ∧
      Cleans ('"' :: (t ++ ['"'])) ('"' :: (t' ++ ['"'])) := by
  obtain ⟨t', ht', hsame, hclean⟩ := chars_clean h
  refine ⟨t', ht', hsame, fun rest => ?_⟩
  have hopen (x : List Char) : cleanJsonString ('"' :: x) = '"' :: cleanFrom true false x := rfl
  rw [List.cons_append, hopen, List.append_assoc, hclean, List.singleton_append, cleanFrom,
    if_neg (by decide), if_pos rfl, List.cons_append, List.append_assoc]
  rfl

/-- A loose text is cleaned to a strict text of the same value, and a strict one stays as it is. -/
theorem writes_clean (h : Writes numeral loose t node) :
    ∃ t', Writes numeral false t' node ∧ (loose = false → t' = t) ∧ Cleans t t' := by
  have hplain {a : List Char} (ha : a.all (· ≠ '"') = true) : Cleans a a :=
    Cleans.same fun c hc => of_decide_eq_true (List.all_eq_true.mp ha c hc)
  have hbrackets {opening closing : Char} {a a' : List Char} (hopening : opening ≠ '"')
      (hclosing : closing ≠ '"') (ha : Cleans a a') :
      Cleans (opening :: (a ++ [closing])) (opening :: (a' ++ [closing])) :=
    (ha.append (Cleans.nil.cons hclosing)).cons hopening
  induction h with
  | null => exact ⟨_, .null, fun _ => rfl, hplain (by decide)⟩
  | boolFalse => exact ⟨_, .boolFalse, fun _ => rfl, hplain (by decide)⟩
  | boolTrue => exact ⟨_, .boolTrue, fun _ => rfl, hplain (by decide)⟩
  | number h hj hnumber =>
    exact ⟨_, .number h hj hnumber, fun _ => rfl, Cleans.same fun c hc => (h.ne hc).1⟩
  | str h =>
    obtain ⟨t', ht', hsame, hclean⟩ := literal_clean h
    exact ⟨_, .str ht', fun h => by rw [hsame h], hclean⟩
  | emptyArr ha =>
    exact ⟨_, .emptyArr ha, fun _ => rfl, hbrackets (by decide) (by decide) (.blank ha)⟩
  | arr _ ih =>
    obtain ⟨t', ht', hsame, hclean⟩ := ih
    exact ⟨_, .arr ht', fun h => by rw [hsame h], hbrackets (by decide) (by decide) hclean⟩
  | emptyObj ha =>
    exact ⟨_, .emptyObj ha, fun _ => rfl, hbrackets (by decide) (by decide) (.blank ha)⟩
  | obj _ hperm ih =>
    obtain ⟨t', ht', hsame, hclean⟩ := ih
    exact ⟨_, .obj ht' hperm, fun h => by rw [hsame h], hbrackets (by decide) (by decide) hclean⟩
  | lastItem ha _ hb ih =>
    obtain ⟨t', ht', hsame, hclean⟩ := ih
    exact ⟨_, .lastItem ha ht' hb, fun h => by rw [hsame h],
      (Cleans.blank ha).append (hclean.append (.blank hb))⟩
  | item ha _ hb _ ih ihrest =>
    obtain ⟨t', ht', hsame, hclean⟩ := ih
    obtain ⟨r', hr', hrsame, hrclean⟩ := ihrest
    exact ⟨_, .item ha ht' hb hr', fun h => by rw [hsame h, hrsame h],
      (Cleans.blank ha).append (hclean.append ((Cleans.blank hb).append
        (hrclean.cons (by decide))))⟩
  | lastMember ha hkey hb hc _ hd ih =>
    obtain ⟨t', ht', hsame, hclean⟩ := ih
    obtain ⟨k', hk', hksame, hkclean⟩ := literal_clean hkey
    exact ⟨_, .lastMember ha hk' hb hc ht' hd, fun h => by rw [hsame h, hksame h],
      (Cleans.blank ha).append (hkclean.append ((Cleans.blank hb).append
        (((Cleans.blank hc).append (hclean.append (.blank hd))).cons (by decide))))⟩
  | member ha hkey hb hc _ hd _ ih ihrest =>
    obtain ⟨t', ht', hsame, hclean⟩ := ih
    obtain ⟨k', hk', hksame, hkclean⟩ := literal_clean hkey
    obtain ⟨r', hr', hrsame, hrclean⟩ := ihrest
    exact ⟨_, .member ha hk' hb hc ht' hd hr', fun h => by rw [hsame h, hksame h, hrsame h],
      (Cleans.blank ha).append (hkclean.append ((Cleans.blank hb).append
        (((Cleans.blank hc).append (hclean.append ((Cleans.blank hd).append
          (hrclean.cons (by decide))))).cons (by decide))))⟩

/-- Valid JSON is left as it is. -/
theorem cleanJsonString_isText {j : Json} (h : IsText numeral t j) : cleanJsonString t = t := by
  obtain ⟨before, o, after, rfl, hbefore, hafter, ho⟩ := h
  obtain ⟨o', -, hsame, hclean⟩ := writes_clean ho
  rw [hsame rfl] at hclean
  have hall := (Cleans.blank hbefore).append (hclean.append (Cleans.blank hafter)) []
  have hnil : cleanJsonString [] = [] := rfl
  rwa [List.append_nil, hnil, List.append_nil] at hall

/-! ### Matching braces -/

/-- Inside of an object the text is passed over. -/
def Passes (t : List Char) : Prop :=
  ∀ (depth : ℤ) rest, 1 ≤ depth →
    closingBraceFrom depth false false (t ++ rest) =
      (closingBraceFrom depth false false rest).map (· + t.length)

theorem map_add_map (o : Option ℕ) (a b : ℕ) :
    (o.map (· + a)).map (· + b) = o.map (· + (a + b)) := by
  cases o with
  | none => rfl
  | some n => exact congrArg some (Nat.add_assoc n a b)

theorem Passes.append {a b : List Char} (ha : Passes a) (hb : Passes b) : Passes (a ++ b) := by
  intro depth rest hdepth
  rw [List.append_assoc, ha depth _ hdepth, hb depth _ hdepth, map_add_map, List.length_append,
    Nat.add_comm a.length]

theorem Passes.nil : Passes [] := by
  intro depth rest _
  cases h : closingBraceFrom depth false false rest with
  | none => rw [List.nil_append, h, Option.map_none]
  | some n => rw [List.nil_append, h, Option.map_some, List.length_nil, Nat.add_zero]

theorem Passes.char {c : Char} (hquote : c ≠ '"') (hopen : c ≠ '\x7b') (hclose : c ≠ '\x7d') :
    Passes [c] := by
  intro depth rest _
  rw [List.singleton_append, closingBraceFrom, if_neg hquote, if_neg hopen, if_neg hclose,
    List.length_singleton]

theorem Passes.blank {a : List Char} (ha : Blank a) : Passes a := by
  induction a with
  | nil => exact Passes.nil
  | cons c a ih =>
    have hc := ha.ne List.mem_cons_self
    exact (Passes.char hc.1 hc.2.2.1 hc.2.2.2).append
      (ih fun x hx => ha x (List.mem_cons_of_mem _ hx))

theorem closingBraceFrom_plain (depth : ℤ) {a : List Char}
    (ha : ∀ c ∈ a, c ≠ '"' ∧ c ≠ '\\' ∧ 32 ≤ c.toNat) (rest : List Char) :
    closingBraceFrom depth true false (a ++ rest) =
      (closingBraceFrom depth true false rest).map (· + a.length) := by
  induction a with
  | nil =>
    cases h : closingBraceFrom depth true false rest with
    | none => rw [List.nil_append, h, Option.map_none]
    | some n => rw [List.nil_append, h, Option.map_some, List.length_nil, Nat.add_zero]
  | cons c a ih =>
    obtain ⟨hquote, hslash, -⟩ := ha c List.mem_cons_self
    rw [List.cons_append, closingBraceFrom, if_neg hslash, decide_eq_true hquote,
      ih fun x hx => ha x (List.mem_cons_of_mem _ hx), map_add_map, List.length_cons]

theorem closingBraceFrom_escape (depth : ℤ) (c : Char) (rest : List Char) :
    closingBraceFrom depth true false ('\\' :: c :: rest) =
      (closingBraceFrom depth true false rest).map (· + 2) := by
  rw [closingBraceFrom, if_pos rfl, closingBraceFrom, map_add_map]

/-- The characters of a literal leave the depth alone. -/
theorem closingBraceFrom_chars (depth : ℤ) (h : LiteralText loose t s) (rest : List Char) :
    closingBraceFrom depth true false (t ++ rest) =
      (closingBraceFrom depth true false rest).map (· + t.length) := by
  induction h with
  | nil => exact closingBraceFrom_plain depth (fun c hc => absurd hc List.not_mem_nil) rest
  | @plain c t s hquote hslash _ _ ih =>
    rw [List.cons_append, closingBraceFrom, if_neg hslash, decide_eq_true hquote, ih, map_add_map,
      List.length_cons]
  | @escape e c t s _ _ ih =>
    rw [List.cons_append, List.cons_append, closingBraceFrom_escape, ih, map_add_map,
      List.length_cons, List.length_cons]
  | @codePoint digits n t s hunit _ _ ih =>
    rw [List.cons_append, List.cons_append, closingBraceFrom_escape, List.append_assoc,
      closingBraceFrom_plain depth (codeUnit_ne hunit), ih, map_add_map, map_add_map]
    simp only [List.length_cons, List.length_append]
    congr 2
    funext n
    omega
  | @surrogates high low a b t s hhigh _ hlow _ _ ih =>
    rw [List.cons_append, List.cons_append, closingBraceFrom_escape, List.append_assoc,
      closingBraceFrom_plain depth (codeUnit_ne hhigh), List.cons_append, List.cons_append,
      closingBraceFrom_escape, List.append_assoc, closingBraceFrom_plain depth (codeUnit_ne hlow),
      ih, map_add_map, map_add_map, map_add_map, map_add_map]
    simp only [List.length_cons, List.length_append]
    congr 2
    funext n
    omega

theorem Passes.literal (h : LiteralText loose t s) : Passes ('"' :: (t ++ ['"'])) := by
  intro depth rest _
  rw [List.cons_append, closingBraceFrom, if_pos rfl, List.append_assoc,
    closingBraceFrom_chars depth h, List.singleton_append, closingBraceFrom, if_neg (by decide),
    map_add_map, map_add_map]
  simp only [List.length_cons, List.length_append, List.length_nil]
  congr 2
  funext n
  omega

theorem Passes.braces (h : Passes t) : Passes ('\x7b' :: (t ++ ['\x7d'])) := by
  intro depth rest hdepth
  rw [List.cons_append, closingBraceFrom, if_neg (by decide), if_pos rfl, List.append_assoc,
    h (depth + 1) _ (by omega), List.singleton_append, closingBraceFrom, if_neg (by decide),
    if_neg (by decide), if_pos rfl, if_neg (by omega), Int.add_sub_cancel, map_add_map,
    map_add_map]
  simp only [List.length_cons, List.length_append, List.length_nil]
  congr 2
  funext n
  omega

theorem writes_passes (h : Writes numeral loose t node) : Passes t :=
  h.closed Passes.nil Passes.append (fun _ hquote hopen hclose => .char hquote hopen hclose)
    Passes.literal Passes.braces

/-- The brace that closes an object is its last character. -/
theorem findMatchingBrace_object {j : Json} (h : Writes numeral loose t (.value j))
    (hj : j.isObject = true) (rest : List Char) :
    findMatchingBrace (t ++ rest) = some (t.length - 1) := by
  obtain ⟨inner, rfl, hinner⟩ := h.exists_braces hj
  have hpasses : Passes inner := by
    rcases hinner with hblank | ⟨fields, hwrites⟩
    · exact Passes.blank hblank
    · exact writes_passes hwrites
  rw [findMatchingBrace, List.cons_append, closingBraceFrom, if_neg (by decide), if_pos rfl,
    List.append_assoc, hpasses _ _ (by omega), List.singleton_append, closingBraceFrom,
    if_neg (by decide), if_neg (by decide), if_pos rfl, if_pos (by omega), Option.map_some,
    Option.map_some]
  simp only [List.length_cons, List.length_append, List.length_nil]
  congr 1
  omega

/-- Where one object starts, no other one ends elsewhere. -/
theorem object_unique {loose' : Bool} {t' a a' : List Char} {j j' : Json}
    (h : Writes numeral loose t (.value j)) (hj : j.isObject = true)
    (h' : Writes numeral loose' t' (.value j')) (hj' : j'.isObject = true)
    (heq : t ++ a = t' ++ a') : t = t' ∧ a = a' := by
  have hlen := findMatchingBrace_object h hj a
  rw [heq, findMatchingBrace_object h' hj' a'] at hlen
  obtain ⟨inner, ht, -⟩ := h.exists_braces hj
  obtain ⟨inner', ht', -⟩ := h'.exists_braces hj'
  refine List.append_inj heq ?_
  have := Option.some.inj hlen
  rw [ht, ht'] at this ⊢
  simp only [List.length_cons, List.length_append, List.length_nil] at this ⊢
  omega

end Sashiko
