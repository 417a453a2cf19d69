import Sashiko.Text

/-! The file names in the headers of a unified diff. Lines and names are lists of characters. -/

namespace Sashiko

abbrev Chars := List Char

def stripChars? (pre cs : Chars) : Option Chars :=
  if pre.isPrefixOf cs then some (cs.drop pre.length) else none

/-- The text before the first `pat`, and the text from there on. -/
def splitAtFirst (pat : Chars) : Chars → Option (Chars × Chars)
  | [] => none
  | c :: cs =>
    if pat.isPrefixOf (c :: cs) then some ([], c :: cs)
    else (splitAtFirst pat cs).map fun p => (c :: p.1, p.2)

/-- The text before the last `pat`, and the text after it. -/
def splitAtLast (pat cs : Chars) : Option (Chars × Chars) :=
  (splitAtFirst pat.reverse cs.reverse).map fun p =>
    ((p.2.drop pat.length).reverse, p.1.reverse)

def aSlash : Chars := ['a', '/']

def bSlash : Chars := ['b', '/']

def devNull : Chars := "/dev/null".toList

def diffGit : Chars := "diff --git ".toList

/-- The text up to the closing quote, and the text after it; the flag says whether the character
before was a backslash that escapes. -/
def quotedInside : Bool → Chars → Option (Chars × Chars)
  | _, [] => none
  | true, c :: cs => (quotedInside false cs).map fun p => (c :: p.1, p.2)
  | false, c :: cs =>
    if c = '"' then some ([], cs)
    else (quotedInside (c = '\\') cs).map fun p => (c :: p.1, p.2)

def parseCQuotedPath : Chars → Option (Chars × Chars)
  | '"' :: cs => quotedInside false cs
  | _ => none

def unescaped (cs : Chars) : Chars :=
  replaceChars ['\\', '\\'] ['\\'] 0 (replaceChars ['\\', '"'] ['"'] 0 cs)

/-- Without the side's letter; a name may carry either. -/
def stripSide (first second cs : Chars) : Chars :=
  ((stripChars? first cs).or (stripChars? second cs)).getD cs

def unescapeCPath (cs : Chars) : Chars := stripSide aSlash bSlash (unescaped cs)

/-! ### `diff --git` -/

def quotedSource (rest : Chars) : Option (Chars × Chars) :=
  (parseCQuotedPath rest).bind fun p =>
    if (trimChars p.2).head? = some '"' then
      (parseCQuotedPath (trimChars p.2)).map fun q => (unescapeCPath p.1, unescapeCPath q.1)
    else some (unescapeCPath p.1, stripSide bSlash aSlash (trimChars p.2))

def quotedTarget (rest : Chars) : Option (Chars × Chars) :=
  ((splitAtFirst [' ', '"', 'b', '/'] rest).or (splitAtFirst [' ', '"'] rest)).bind fun p =>
    (parseCQuotedPath (trimChars (p.2.drop 1))).map fun q =>
      ((stripChars? aSlash p.1).getD p.1, unescapeCPath q.1)

/-- `a/<path> b/<path>`. Two equal halves are found at the same place whether characters or bytes
are counted. -/
def symmetricPaths (rest : Chars) : Option (Chars × Chars) :=
  if aSlash.isPrefixOf rest ∧ 5 ≤ rest.length ∧ (rest.length - 5) % 2 = 0 ∧
      (rest.drop (2 + (rest.length - 5) / 2)).take 3 = [' ', 'b', '/'] ∧
      (rest.drop 2).take ((rest.length - 5) / 2) = rest.drop (2 + (rest.length - 5) / 2 + 3) then
    some ((rest.drop 2).take ((rest.length - 5) / 2), (rest.drop 2).take ((rest.length - 5) / 2))
  else none

/-- Split at the only ` b/`, or at the last of several. -/
def splitPaths (rest : Chars) : Option (Chars × Chars) :=
  (splitAtLast [' ', 'b', '/'] rest).map fun p =>
    ((stripChars? aSlash p.1).getD p.1, (stripChars? bSlash p.2).getD p.2)

def parseGitRest (rest : Chars) : Option (Chars × Chars) :=
  if rest.head? = some '"' then quotedSource rest
  else (quotedTarget rest).or ((symmetricPaths rest).or (splitPaths rest))

def parseDiffGitPaths (line : Chars) : Option (Chars × Chars) :=
  (stripChars? diffGit line).bind fun rest => parseGitRest (trimChars rest)

/-! ### `---` and `+++` -/

/-- What follows three or four marks and a blank. -/
def afterMarks (mark : Char) (line : Chars) : Option Chars :=
  (stripChars? [mark, mark, mark, mark, ' '] line).or (stripChars? [mark, mark, mark, ' '] line)

def headerPath (first second rest : Chars) : Option Chars :=
  if rest = devNull then none
  else
    match parseCQuotedPath rest with
    | some p => some (unescapeCPath p.1)
    | none => some (stripSide first second (unescaped (rest.takeWhile (· ≠ '\t'))))

def extractTargetFile (line : Chars) : Option Chars :=
  (afterMarks '+' line).bind fun rest => headerPath bSlash aSlash (trimChars rest)

def extractSourceFile (line : Chars) : Option Chars :=
  (afterMarks '-' line).bind fun rest => headerPath aSlash bSlash (trimChars rest)

def isDiffHeader (mark : Char) (line : Chars) : Bool :=
  match afterMarks mark line with
  | some rest =>
    aSlash.isPrefixOf (trimChars rest) || bSlash.isPrefixOf (trimChars rest) ||
      trimChars rest = devNull || ['"', 'a', '/'].isPrefixOf (trimChars rest) ||
      ['"', 'b', '/'].isPrefixOf (trimChars rest) || rest.contains '\t'
  | none => false

def isDiffPreImageHeader (line : Chars) : Bool := isDiffHeader '-' line

def isDiffPostImageHeader (line : Chars) : Bool := isDiffHeader '+' line

/-! ### Names that git prints without quotes -/

/-- No quote, no backslash and no control character. -/
def IsUnquoted (path : Chars) : Prop :=
  ∀ c ∈ path, c ≠ '"' ∧ c ≠ '\\' ∧ 32 ≤ c.toNat ∧ c.toNat ≠ 127

/-- The name does not end in white space. -/
def EndsVisible (path : Chars) : Prop := ∀ c ∈ path.getLast?, isRustWhitespace c = false

instance : DecidablePred IsUnquoted := fun path => List.decidableBAll _ path

instance : DecidablePred EndsVisible := fun path => Option.decidableForallMem path.getLast?

theorem stripChars?_append (pre cs : Chars) : stripChars? pre (pre ++ cs) = some cs := by
  rw [stripChars?, if_pos (List.isPrefixOf_iff_prefix.mpr (List.prefix_append _ _)),
    List.drop_left]

theorem replaceChars_of_not_mem {first : Char} {pat new cs : Chars} (h : first ∉ cs) :
    replaceChars (first :: pat) new 0 cs = cs := by
  induction cs with
  | nil => rfl
  | cons c cs ih =>
    rw [List.mem_cons, not_or] at h
    obtain ⟨hc, hcs⟩ := h
    rw [replaceChars, List.isPrefixOf, beq_false_of_ne hc, Bool.false_and, if_neg Bool.false_ne_true,
      ih hcs]

theorem unescaped_of_no_backslash {cs : Chars} (h : '\\' ∉ cs) : unescaped cs = cs := by
  rw [unescaped, replaceChars_of_not_mem h, replaceChars_of_not_mem h]

theorem splitAtFirst_eq_none {x : Char} {pat cs : Chars} (hx : x ∈ pat) (h : x ∉ cs) :
    splitAtFirst pat cs = none := by
  induction cs with
  | nil => rfl
  | cons c cs ih =>
    have hprefix : pat.isPrefixOf (c :: cs) = false := by
      by_contra hp
      rw [Bool.not_eq_false, List.isPrefixOf_iff_prefix] at hp
      exact h (hp.subset hx)
    rw [List.mem_cons, not_or] at h
    rw [splitAtFirst, hprefix, if_neg Bool.false_ne_true, ih h.2, Option.map_none]

/-- The first occurrence is the one after `before`, when none starts earlier. -/
theorem splitAtFirst_append {pat before after : Chars} (hpat : pat ≠ [])
    (h : ∀ x y, before = x ++ y → y ≠ [] → pat.isPrefixOf (y ++ (pat ++ after)) = false) :
    splitAtFirst pat (before ++ (pat ++ after)) = some (before, pat ++ after) := by
  induction before with
  | nil =>
    obtain ⟨p, ps, rfl⟩ := List.exists_cons_of_ne_nil hpat
    have hprefix : (p :: ps).isPrefixOf (p :: ps ++ after) = true :=
      List.isPrefixOf_iff_prefix.mpr (List.prefix_append _ _)
    rw [List.nil_append, List.cons_append, splitAtFirst, ← List.cons_append, if_pos hprefix]
  | cons c before ih =>
    have hfirst := h [] (c :: before) rfl (List.cons_ne_nil _ _)
    rw [List.cons_append] at hfirst ⊢
    rw [splitAtFirst, hfirst, if_neg Bool.false_ne_true,
      ih fun x y heq hne => h (c :: x) y (by rw [heq, List.cons_append]) hne]
    rfl

/-! ### Reading the names back -/

theorem not_mem_of_unquoted {path : Chars} (h : IsUnquoted path) : '"' ∉ path ∧ '\\' ∉ path :=
  ⟨fun hmem => (h _ hmem).1 rfl, fun hmem => (h _ hmem).2.1 rfl⟩

theorem tab_not_mem_of_unquoted {path : Chars} (h : IsUnquoted path) : '\t' ∉ path :=
  fun hmem => absurd (h _ hmem).2.2.1 (by decide)

/-- A text that starts visibly and ends in a visible name, white space behind it apart. -/
theorem trimChars_append_path {first : Char} {pre path spaces : Chars}
    (hfirst : isRustWhitespace first = false) (hends : EndsVisible path) (hne : path ≠ [])
    (hspaces : ∀ c ∈ spaces, isRustWhitespace c = true) :
    trimChars (first :: pre ++ path ++ spaces) = first :: pre ++ path := by
  have hdrop : (first :: pre ++ path ++ spaces).dropWhile isRustWhitespace =
      first :: pre ++ path ++ spaces := by
    rw [List.cons_append, List.cons_append, List.dropWhile_cons_of_neg (by simp [hfirst])]
  have hrdrop : (first :: pre ++ path ++ spaces).rdropWhile isRustWhitespace =
      (first :: pre ++ path).rdropWhile isRustWhitespace := by
    rw [List.rdropWhile, List.reverse_append,
      List.dropWhile_append_of_pos fun c hc => hspaces c (List.mem_reverse.mp hc), List.rdropWhile]
  rw [trimChars, hdrop, hrdrop]
  refine List.rdropWhile_eq_self_iff.mpr fun hnonempty => ?_
  have hlast : (first :: pre ++ path).getLast hnonempty = path.getLast hne :=
    List.getLast_append_of_ne_nil _ hne
  rw [hlast, hends _ (List.getLast?_eq_some_getLast hne)]
  exact Bool.false_ne_true

theorem afterMarks_marks {mark : Char} (h : mark ≠ ' ') (rest : Chars) :
    afterMarks mark (mark :: mark :: mark :: ' ' :: rest) = some rest := by
  simp [afterMarks, stripChars?, List.isPrefixOf, h]

theorem headerPath_side {side : Char} (hside : side ≠ '/' ∧ side ≠ '"' ∧ side ≠ '\t' ∧ side ≠ '\\')
    (second : Chars) {path : Chars} (hpath : IsUnquoted path) :
    headerPath [side, '/'] second (side :: '/' :: path) = some path := by
  obtain ⟨hslash, hquote, htab, hback⟩ := hside
  have hnull : side :: '/' :: path ≠ devNull := fun h => hslash (List.cons.inj h).1
  have hplain : parseCQuotedPath (side :: '/' :: path) = none := by
    unfold parseCQuotedPath
    split
    · rename_i cs heq
      exact absurd (List.cons.inj heq).1 hquote
    · rfl
  have htake : (side :: '/' :: path).takeWhile (· ≠ '\t') = side :: '/' :: path := by
    refine List.takeWhile_eq_self_iff.mpr fun c hc => decide_eq_true ?_
    rcases List.mem_cons.mp hc with rfl | hc
    · exact htab
    · rcases List.mem_cons.mp hc with rfl | hc
      · decide
      · exact fun heq => tab_not_mem_of_unquoted hpath (heq ▸ hc)
  have hunescaped : unescaped (side :: '/' :: path) = side :: '/' :: path := by
    refine unescaped_of_no_backslash ?_
    simp only [List.mem_cons, not_or]
    exact ⟨hback.symm, by decide, (not_mem_of_unquoted hpath).2⟩
  have hstrip : stripChars? [side, '/'] (side :: '/' :: path) = some path :=
    stripChars?_append [side, '/'] path
  rw [headerPath, if_neg hnull, hplain]
  simp only [htake, hunescaped, stripSide, hstrip, Option.some_or, Option.getD_some]

/-! ### Reading `diff --git` back -/

theorem symmetricPaths_cases (rest : Chars) :
    symmetricPaths rest = none ∨ ∃ w, symmetricPaths rest = some (w, w) := by
  unfold symmetricPaths
  split_ifs
  · exact .inr ⟨_, rfl⟩
  · exact .inl rfl

theorem symmetricPaths_same (p : Chars) :
    symmetricPaths ('a' :: '/' :: (p ++ [' ', 'b', '/'] ++ p)) = some (p, p) := by
  have hlen : ('a' :: '/' :: (p ++ [' ', 'b', '/'] ++ p)).length = 2 * p.length + 5 := by
    simp only [List.length_cons, List.length_append, List.length_nil]
    omega
  have hhalf : (('a' :: '/' :: (p ++ [' ', 'b', '/'] ++ p)).length - 5) / 2 = p.length := by
    rw [hlen]
    omega
  have hmid : ('a' :: '/' :: (p ++ [' ', 'b', '/'] ++ p)).drop (2 + p.length) =
      ' ' :: 'b' :: '/' :: p := by
    rw [← List.drop_drop]
    simp
  have hend : ('a' :: '/' :: (p ++ [' ', 'b', '/'] ++ p)).drop (2 + p.length + 3) = p := by
    rw [← List.drop_drop, hmid]
    rfl
  have hstart : (('a' :: '/' :: (p ++ [' ', 'b', '/'] ++ p)).drop 2).take p.length = p := by
    simp
  rw [symmetricPaths, hhalf, hmid, hend, hstart, if_pos]
  exact ⟨rfl, by rw [hlen]; omega, by rw [hlen]; omega, rfl, rfl⟩

/-- The target of a rename as the header can name it. -/
def ReadTarget (new : Chars) : Prop := ¬bSlash <+: new ∧ ¬[' ', 'b', '/'] <:+: new

/-- The last ` b/` is the one between the names, unless the second holds another. -/
theorem splitAtLast_names {old new : Chars} (h : ¬[' ', 'b', '/'] <:+: new) :
    splitAtLast [' ', 'b', '/'] ('a' :: '/' :: (old ++ [' ', 'b', '/'] ++ new)) =
      some ('a' :: '/' :: old, new) := by
  have hreverse : ('a' :: '/' :: (old ++ [' ', 'b', '/'] ++ new)).reverse =
      new.reverse ++ (['/', 'b', ' '] ++ ('a' :: '/' :: old).reverse) := by simp
  have hfirst : splitAtFirst ['/', 'b', ' ']
      (new.reverse ++ (['/', 'b', ' '] ++ ('a' :: '/' :: old).reverse)) =
        some (new.reverse, ['/', 'b', ' '] ++ ('a' :: '/' :: old).reverse) := by
    refine splitAtFirst_append (List.cons_ne_nil _ _) fun x y heq hne => ?_
    -- an occurrence that starts in the name ends in it as well
    by_contra hp
    rw [Bool.not_eq_false] at hp
    match y, hne with
    | [c], _ => simp [List.isPrefixOf] at hp
    | [c, d], _ => simp [List.isPrefixOf] at hp
    | c :: d :: e :: rest, _ =>
      simp only [List.cons_append, List.isPrefixOf, Bool.and_eq_true, beq_iff_eq] at hp
      obtain ⟨rfl, rfl, rfl, -⟩ := hp
      refine h ⟨rest.reverse, x.reverse, ?_⟩
      rw [← List.reverse_reverse new, heq]
      simp
  rw [splitAtLast, hreverse]
  change (splitAtFirst ['/', 'b', ' '] _).map _ = _
  rw [hfirst]
  simp

theorem splitPaths_names {old new : Chars} (h : ¬[' ', 'b', '/'] <:+: new) :
    splitPaths ('a' :: '/' :: (old ++ [' ', 'b', '/'] ++ new)) =
      some (old, (stripChars? bSlash new).getD new) := by
  have hold : stripChars? aSlash ('a' :: '/' :: old) = some old := stripChars?_append aSlash old
  rw [splitPaths, splitAtLast_names h]
  simp only [Option.map_some, hold, Option.getD_some]

theorem splitPaths_append {old new : Chars} (h : ReadTarget new) :
    splitPaths ('a' :: '/' :: (old ++ [' ', 'b', '/'] ++ new)) = some (old, new) := by
  have hnew : stripChars? bSlash new = none := by
    rw [stripChars?, if_neg]
    exact fun hp => h.1 (List.isPrefixOf_iff_prefix.mp hp)
  rw [splitPaths_names h.2, hnew, Option.getD_none]

/-- The two names after `diff --git `. -/
def gitNames (old new : Chars) : Chars := 'a' :: '/' :: (old ++ [' ', 'b', '/'] ++ new)

theorem parseDiffGitPaths_names {old new : Chars} (hold : IsUnquoted old) (hnew : IsUnquoted new)
    (hne : new ≠ []) (hends : EndsVisible new) :
    parseDiffGitPaths (diffGit ++ gitNames old new) =
      (symmetricPaths (gitNames old new)).or (splitPaths (gitNames old new)) := by
  have htrim : trimChars (gitNames old new) = gitNames old new := by
    have h : trimChars ('a' :: ('/' :: (old ++ [' ', 'b', '/'])) ++ new ++ []) =
        'a' :: ('/' :: (old ++ [' ', 'b', '/'])) ++ new :=
      trimChars_append_path (by decide) hends hne fun _ h => absurd h List.not_mem_nil
    simpa [gitNames] using h
  have hquote : '"' ∉ gitNames old new := by
    simp only [gitNames, List.mem_cons, List.mem_append, List.not_mem_nil, not_or]
    refine ⟨by decide, by decide, ⟨(not_mem_of_unquoted hold).1, by decide, by decide, by decide,
      not_false⟩, (not_mem_of_unquoted hnew).1⟩
  have htarget : quotedTarget (gitNames old new) = none := by
    rw [quotedTarget, splitAtFirst_eq_none (by decide) hquote,
      splitAtFirst_eq_none (by decide) hquote]
    rfl
  have hhead : (gitNames old new).head? ≠ some '"' := by
    rw [gitNames, List.head?_cons]
    decide
  rw [parseDiffGitPaths, stripChars?_append, Option.bind_some, htrim, parseGitRest, if_neg hhead,
    htarget, Option.none_or]

/-- One name on both sides is read as it stands. -/
theorem parseDiffGitPaths_same {p : Chars} (hp : IsUnquoted p) (hne : p ≠ [])
    (hends : EndsVisible p) : parseDiffGitPaths (diffGit ++ gitNames p p) = some (p, p) := by
  rw [parseDiffGitPaths_names hp hp hne hends, gitNames, symmetricPaths_same, Option.some_or]

/-- The names of a rename are read as they stand, or as one and the same name. -/
theorem parseDiffGitPaths_rename {old new : Chars} (hold : IsUnquoted old) (hnew : IsUnquoted new)
    (hne : new ≠ []) (hends : EndsVisible new) (htarget : ReadTarget new) :
    parseDiffGitPaths (diffGit ++ gitNames old new) = some (old, new) ∨
      ∃ w, parseDiffGitPaths (diffGit ++ gitNames old new) = some (w, w) := by
  rw [parseDiffGitPaths_names hold hnew hne hends]
  rcases symmetricPaths_cases (gitNames old new) with hnone | ⟨w, hw⟩
  · rw [hnone, Option.none_or, gitNames, splitPaths_append htarget]
    exact .inl rfl
  · rw [hw, Option.some_or]
    exact .inr ⟨w, rfl⟩

end Sashiko
