import Mathlib.Data.List.DropRight
import Mathlib.Data.List.Lex
import Mathlib.Data.List.Sort
import Mathlib.Data.Char
import Mathlib.Data.Prod.Lex
import Sashiko.Lib.Regex
import Sashiko.Text

/-! The file patterns of MAINTAINERS sections, and the sections that own a file. -/

namespace Sashiko

open RegexAtom

/-! ### Globs -/

/-- What one character of a glob stands for, a second `*` behind it apart. -/
def globPiece (c : Char) : List Char :=
  if c = '*' then ['[', '^', '/', ']', '*']
  else if c = '?' then ['[', '^', '/', ']']
  else if ['.', '+', '(', ')', '|', '^', '$', '[', ']', '{', '}', '\\'].contains c then ['\\', c]
  else [c]

def globBody : List Char → List Char
  | '*' :: '*' :: cs => '.' :: '*' :: globBody cs
  | c :: cs => globPiece c ++ globBody cs
  | [] => []

def globToRegex (glob : List Char) : List Char := '^' :: (globBody glob ++ ['$'])

/-! ### Patterns -/

/-- `trim_start_matches("./")` -/
def trimDotSlash (cs : List Char) : List Char := dropAllPrefix ['.', '/'] cs.length cs

inductive CompiledPattern where
  | prefixDir (pre : List Char) (depth : ℕ)
  | dirSingleLevel (dirPrefix : List Char) (depth : ℕ)
  | exactFile (path : List Char) (depth : ℕ)
  | glob (regex : List Char → Bool) (depth : ℕ) (anchor : List Char)

namespace CompiledPattern

def isWildcard (cs : List Char) : Bool := cs.contains '*' || cs.contains '?'

/-- The text up to its last `/`. -/
def upToSlash (cs : List Char) : List Char := cs.rdropWhile (· ≠ '/')

def anchorOf (pattern : List Char) : List Char :=
  upToSlash (pattern.takeWhile fun c => c ≠ '*' && c ≠ '?')

section Compile

variable (compiler : RegexCompiler)

/-- A glob that is no expression matches nothing. -/
def globRegex (glob : List Char) : List Char → Bool :=
  (compiler.compile (globToRegex glob)).getD fun _ => false

def compileTrimmed (pattern : List Char) : CompiledPattern :=
  if pattern.getLast? = some '*' ∧ pattern.dropLast.getLast? = some '/' ∧
      isWildcard pattern.dropLast = false then
    dirSingleLevel pattern.dropLast (pattern.count '/')
  else if pattern.getLast? = some '/' ∧ isWildcard pattern = false then
    prefixDir pattern (pattern.count '/')
  else if isWildcard pattern = false then exactFile pattern (pattern.count '/')
  -- a trailing slash covers the whole subtree
  else if pattern.getLast? = some '/' then
    glob (globRegex compiler (pattern ++ ['*', '*'])) (pattern.count '/') (anchorOf pattern)
  else glob (globRegex compiler pattern) (pattern.count '/') (anchorOf pattern)

def compile (rawPattern : List Char) : CompiledPattern :=
  compileTrimmed compiler (trimDotSlash (trimChars rawPattern))

end Compile

/-- The test of `is_match` on a path without `./` before it. -/
def matchesPath (path : List Char) : CompiledPattern → Bool
  | prefixDir pre _ => pre.isPrefixOf path
  | dirSingleLevel dirPrefix _ =>
    dirPrefix.isPrefixOf path && !(path.drop dirPrefix.length).contains '/' &&
      !(path.drop dirPrefix.length).isEmpty
  | exactFile expected _ => path = expected
  | glob regex _ _ => regex path

def isMatch (pattern : CompiledPattern) (filePath : List Char) : Bool :=
  pattern.matchesPath (trimDotSlash filePath)

def depth : CompiledPattern → ℕ
  | prefixDir _ depth => depth
  | dirSingleLevel _ depth => depth
  | exactFile _ depth => depth + 1
  | glob _ depth _ => depth

end CompiledPattern

/-! ### Sections -/

/-- A section whose file patterns were compiled. -/
structure MaintainerSection (compiler : RegexCompiler) where
  name : List Char
  files : List CompiledPattern
  excludes : List CompiledPattern
  regexes : List (List Char → Bool)
  compiled : ∀ p ∈ files, ∃ raw, p = .compile compiler raw

variable {compiler : RegexCompiler}

namespace MaintainerSection

def deepen (best : Option ℕ) (depth : ℕ) : Option ℕ := some (best.elim depth (max · depth))

def bestDepth (files : List CompiledPattern) (path : List Char) : Option ℕ :=
  files.foldl (fun best p => if p.isMatch path then deepen best p.depth else best) none

def matchFile (s : MaintainerSection compiler) (filePath : List Char) : Option ℕ :=
  if s.excludes.any (·.isMatch (trimDotSlash filePath)) then none
  else
    match bestDepth s.files (trimDotSlash filePath) with
    | some depth => some depth
    | none => if s.regexes.any (· (trimDotSlash filePath)) then some 0 else none

end MaintainerSection

/-! ### The index -/

abbrev SectionMatch (compiler : RegexCompiler) := MaintainerSection compiler × ℕ

/-- The deepest first, then by name. -/
def SectionMatch.key (m : SectionMatch compiler) : ℕᵒᵈ ×ₗ List Char :=
  toLex (OrderDual.toDual m.2, m.1.name)

def sortMatches (ms : List (SectionMatch compiler)) : List (SectionMatch compiler) :=
  ms.insertionSort fun a b => SectionMatch.key a ≤ SectionMatch.key b

namespace MaintainersIndex

def matchFile (sections : List (MaintainerSection compiler)) (filePath : List Char) :
    List (List Char) :=
  (sortMatches (sections.filterMap fun s => (s.matchFile filePath).map fun d => (s, d))).map
    (·.1.name)

end MaintainersIndex

/-! ### The deepest pattern -/

/-- The greatest of the depths, if there is any. -/
def Deepest (P : ℕ → Prop) : Option ℕ → Prop
  | none => ∀ d, ¬P d
  | some d => P d ∧ ∀ d', P d' → d' ≤ d

theorem Deepest.unique {P : ℕ → Prop} {a b : Option ℕ} (ha : Deepest P a) (hb : Deepest P b) :
    a = b := by
  cases a with
  | none =>
    cases b with
    | none => rfl
    | some b => exact absurd hb.1 (ha b)
  | some a =>
    cases b with
    | none => exact absurd ha.1 (hb a)
    | some b => exact congrArg some (le_antisymm (hb.2 a ha.1) (ha.2 b hb.1))

theorem deepest_deepen {P Q : ℕ → Prop} {best : Option ℕ} {depth : ℕ} (h : Deepest P best)
    (hQ : ∀ d, Q d ↔ P d ∨ d = depth) : Deepest Q (MaintainerSection.deepen best depth) := by
  cases best with
  | none =>
    refine ⟨(hQ depth).mpr (.inr rfl), fun d hd => ?_⟩
    exact ((hQ d).mp hd).elim (fun hP => absurd hP (h d)) (le_of_eq ·)
  | some best =>
    constructor
    · change Q (max best depth)
      rcases le_total best depth with hle | hle
      · rw [max_eq_right hle]
        exact (hQ depth).mpr (.inr rfl)
      · rw [max_eq_left hle]
        exact (hQ best).mpr (.inl h.1)
    · intro d hd
      rcases (hQ d).mp hd with hP | rfl
      · exact (h.2 d hP).trans (le_max_left _ _)
      · exact le_max_right _ _

theorem Deepest.congr {P Q : ℕ → Prop} {best : Option ℕ} (h : Deepest P best)
    (hPQ : ∀ d, Q d ↔ P d) : Deepest Q best := by
  rwa [funext fun d => propext (hPQ d)]

/-- The deepest of the values that a loop meets. -/
theorem deepest_foldl {α : Type} (meets : α → Bool) (depthOf : α → ℕ) (xs : List α)
    {P : ℕ → Prop} {best : Option ℕ} (h : Deepest P best) :
    Deepest (fun d => P d ∨ ∃ x ∈ xs, meets x = true ∧ depthOf x = d)
      (xs.foldl (fun best x => if meets x then MaintainerSection.deepen best (depthOf x) else best)
        best) := by
  induction xs generalizing P best with
  | nil => exact h.congr fun d => by simp
  | cons x xs ih =>
    rw [List.foldl_cons]
    by_cases hx : meets x = true
    · rw [if_pos hx]
      refine (ih (deepest_deepen h fun d => Iff.rfl)).congr fun d => ?_
      rw [List.exists_mem_cons_iff, or_assoc, eq_comm (a := d)]
      simp only [hx, true_and]
    · rw [if_neg hx]
      refine (ih h).congr fun d => ?_
      simp [hx]

theorem deepest_bestDepth (files : List CompiledPattern) (path : List Char) :
    Deepest (fun d => ∃ p ∈ files, p.isMatch path = true ∧ p.depth = d)
      (MaintainerSection.bestDepth files path) := by
  have hnone : Deepest (fun _ => False) none := fun _ => id
  refine (deepest_foldl (·.isMatch path) CompiledPattern.depth files hnone).congr fun d => ?_
  rw [false_or]

/-! ### Paths and their ancestors -/

theorem not_isPrefixOf_dropAllPrefix {pre : List Char} (hpre : pre ≠ []) (n : ℕ)
    {cs : List Char} (h : cs.length ≤ n) : pre.isPrefixOf (dropAllPrefix pre n cs) = false := by
  induction n generalizing cs with
  | zero =>
    rw [List.eq_nil_of_length_eq_zero (Nat.le_zero.mp h), dropAllPrefix]
    obtain ⟨p, ps, rfl⟩ := List.exists_cons_of_ne_nil hpre
    rfl
  | succ n ih =>
    rw [dropAllPrefix]
    by_cases hp : pre.isPrefixOf cs = true
    · rw [if_pos hp]
      apply ih
      have hpos : 0 < pre.length := List.length_pos_iff.mpr hpre
      rw [List.length_drop]
      omega
    · rw [if_neg hp]
      exact Bool.eq_false_iff.mpr hp

theorem dropAllPrefix_suffix (pre : List Char) (n : ℕ) (cs : List Char) :
    dropAllPrefix pre n cs <:+ cs := by
  induction n generalizing cs with
  | zero => exact List.suffix_refl cs
  | succ n ih =>
    rw [dropAllPrefix]
    split_ifs
    · exact (ih _).trans (List.drop_suffix _ _)
    · exact List.suffix_refl cs

theorem trimDotSlash_idem (cs : List Char) : trimDotSlash (trimDotSlash cs) = trimDotSlash cs := by
  have hpre : ['.', '/'].isPrefixOf (trimDotSlash cs) = false :=
    not_isPrefixOf_dropAllPrefix (List.cons_ne_nil _ _) _ le_rfl
  cases hlen : (trimDotSlash cs).length with
  | zero => rw [List.eq_nil_of_length_eq_zero hlen]; rfl
  | succ n =>
    conv_lhs => rw [trimDotSlash, hlen, dropAllPrefix]
    rw [hpre, if_neg Bool.false_ne_true]

namespace CompiledPattern

theorem isMatch_trimDotSlash (p : CompiledPattern) (path : List Char) :
    p.isMatch (trimDotSlash path) = p.matchesPath (trimDotSlash path) := by
  rw [isMatch, trimDotSlash_idem]

theorem upToSlash_isPrefix (cs : List Char) : upToSlash cs <+: cs := List.rdropWhile_prefix _ _

theorem upToSlash_ends (cs : List Char) :
    upToSlash cs = [] ∨ (upToSlash cs).getLast? = some '/' := by
  by_cases h : upToSlash cs = []
  · exact .inl h
  · have hlast := List.rdropWhile_last_not (fun c => decide (c ≠ '/')) cs h
    rw [decide_eq_true_eq, not_not] at hlast
    exact .inr (by rw [List.getLast?_eq_some_getLast h]; exact congrArg some hlast)

theorem upToSlash_split (cs : List Char) : ∃ rest, cs = upToSlash cs ++ rest ∧ '/' ∉ rest := by
  refine ⟨(cs.reverse.takeWhile (· ≠ '/')).reverse, ?_, fun hmem => ?_⟩
  · rw [upToSlash, List.rdropWhile, ← List.reverse_append, List.takeWhile_append_dropWhile,
      List.reverse_reverse]
  · have hne := List.mem_takeWhile_imp (List.mem_reverse.mp hmem)
    rw [decide_eq_true_eq] at hne
    exact hne rfl

theorem upToSlash_append {dir rest : List Char} (hdir : dir.getLast? = some '/')
    (hrest : '/' ∉ rest) : upToSlash (dir ++ rest) = dir := by
  have hno : ∀ c ∈ rest.reverse, decide (c ≠ '/') = true := fun c hc =>
    decide_eq_true fun heq => hrest (heq ▸ List.mem_reverse.mp hc)
  rw [upToSlash, List.rdropWhile, List.reverse_append, List.dropWhile_append_of_pos hno]
  refine List.rdropWhile_eq_self_iff.mpr fun hne => ?_
  rw [List.getLast?_eq_some_getLast hne, Option.some_inj] at hdir
  simp [hdir]

end CompiledPattern

/-! ### The expression of a glob -/

/-- What a glob is read as. -/
def globAtoms : List Char → List RegexAtom
  | '*' :: '*' :: cs => anyRun :: globAtoms cs
  | c :: cs =>
    (if c = '*' then segmentRun else if c = '?' then segmentChar else literal c) :: globAtoms cs
  | [] => []

theorem readAtoms_escaped {c : Char} (h : isRegexMeta c = true) (cs : List Char) :
    readAtoms ('\\' :: c :: cs) = (readAtoms cs).map (literal c :: ·) := by
  rw [readAtoms, if_pos h]

theorem readAtoms_plain {c : Char} (h : isRegexMeta c = false) (cs : List Char) :
    readAtoms (c :: cs) = (readAtoms cs).map (literal c :: ·) := by
  rw [readAtoms, if_neg (by simp [h])]
  all_goals
    intros
    subst_vars
    cases h

theorem readAtoms_segmentChar {cs : List Char} (h : cs.head? ≠ some '*') :
    readAtoms ('[' :: '^' :: '/' :: ']' :: cs) = (readAtoms cs).map (segmentChar :: ·) := by
  rw [readAtoms]
  rintro rest rfl
  exact h rfl

theorem head?_globPiece {c : Char} : ∃ d ds, globPiece c = d :: ds ∧ d ≠ '*' := by
  unfold globPiece
  split_ifs with hstar
  · exact ⟨_, _, rfl, by decide⟩
  · exact ⟨_, _, rfl, by decide⟩
  · exact ⟨_, _, rfl, by decide⟩
  · exact ⟨_, _, rfl, hstar⟩

theorem head?_globBody (glob : List Char) : (globBody glob ++ ['$']).head? ≠ some '*' := by
  induction glob using globBody.induct with
  | case1 cs ih =>
    rw [globBody]
    exact fun h => absurd (Option.some.inj h) (by decide)
  | case2 c cs hstar ih =>
    obtain ⟨d, ds, hpiece, hd⟩ := head?_globPiece (c := c)
    rw [globBody, hpiece]
    · exact fun h => hd (Option.some.inj h)
    · exact hstar
  | case3 => exact fun h => absurd (Option.some.inj h) (by decide)

/-- Every character of a glob is escaped so that the expression says what the glob means. -/
theorem readAtoms_globBody (glob : List Char) :
    readAtoms (globBody glob ++ ['$']) = some (globAtoms glob) := by
  induction glob using globBody.induct with
  | case1 cs ih =>
    rw [globBody, globAtoms, List.cons_append, List.cons_append, readAtoms, ih, Option.map_some]
  | case2 c cs hstar ih =>
    rw [globBody, globAtoms, List.append_assoc]
    · unfold globPiece
      split_ifs with hone hmark hmeta
      · change readAtoms ('[' :: '^' :: '/' :: ']' :: '*' :: (globBody cs ++ ['$'])) = _
        rw [readAtoms, ih, Option.map_some]
      · change readAtoms ('[' :: '^' :: '/' :: ']' :: (globBody cs ++ ['$'])) = _
        rw [readAtoms_segmentChar (head?_globBody cs), ih, Option.map_some]
      · have hesc : isRegexMeta c = true := by
          simp only [isRegexMeta, List.contains_cons, Bool.or_eq_true, beq_iff_eq] at hmeta ⊢
          tauto
        change readAtoms ('\\' :: c :: (globBody cs ++ ['$'])) = _
        rw [readAtoms_escaped hesc, ih, Option.map_some]
      · have hplain : isRegexMeta c = false := by
          simp only [isRegexMeta, List.contains_cons, List.contains_nil, Bool.not_eq_true,
            Bool.or_eq_false_iff, beq_eq_false_iff_ne] at hmeta ⊢
          tauto
        rw [List.singleton_append, readAtoms_plain hplain, ih, Option.map_some]
    · exact hstar
    · exact hstar
  | case3 => rfl

theorem globAtoms_append {literals : List Char} (h : ∀ c ∈ literals, c ≠ '*' ∧ c ≠ '?')
    (rest : List Char) :
    globAtoms (literals ++ rest) = literals.map literal ++ globAtoms rest := by
  induction literals with
  | nil => rfl
  | cons c literals ih =>
    obtain ⟨hstar, hmark⟩ := h c List.mem_cons_self
    have htail := ih fun d hd => h d (List.mem_cons_of_mem _ hd)
    rw [List.cons_append, globAtoms, if_neg hstar, if_neg hmark, htail]
    · rfl
    · exact fun cs hc => absurd hc hstar

namespace CompiledPattern

/-- A path that a glob matches starts with any text before its wildcards. -/
theorem prefix_of_globRegex {glob literals path : List Char}
    (h : globRegex compiler glob path = true) (hliterals : ∀ c ∈ literals, c ≠ '*' ∧ c ≠ '?')
    (hpre : literals <+: glob) : literals <+: path := by
  unfold globRegex at h
  cases hregex : compiler.compile (globToRegex glob) with
  | none =>
    rw [hregex] at h
    cases h
  | some regex =>
    obtain ⟨rest, rfl⟩ := hpre
    have hread : readRegex (globToRegex (literals ++ rest)) = some (globAtoms (literals ++ rest)) :=
      readAtoms_globBody _
    rw [hregex, Option.getD_some, compiler.reads _ _ hread _ hregex,
      globAtoms_append hliterals] at h
    exact prefix_of_matchAll h

theorem anchorOf_isPrefix (pattern : List Char) : anchorOf pattern <+: pattern :=
  (upToSlash_isPrefix _).trans (List.takeWhile_prefix _)

theorem anchorOf_literal {pattern : List Char} {c : Char} (h : c ∈ anchorOf pattern) :
    c ≠ '*' ∧ c ≠ '?' := by
  have hc := List.mem_takeWhile_imp ((upToSlash_isPrefix _).subset h)
  simpa using hc

/-- What is true of every compiled pattern: a directory ends in `/`, and the paths of a glob lie
below its anchor. -/
def Anchored : CompiledPattern → Prop
  | prefixDir pre _ => pre.getLast? = some '/'
  | dirSingleLevel dirPrefix _ => dirPrefix.getLast? = some '/'
  | exactFile _ _ => True
  | glob regex _ anchor => (anchor = [] ∨ anchor.getLast? = some '/') ∧
      ∀ path, regex path = true → anchor <+: path

theorem anchored_compile (compiler : RegexCompiler) (raw : List Char) :
    (compile compiler raw).Anchored := by
  have hends := upToSlash_ends (((trimDotSlash (trimChars raw)).takeWhile
    fun c => c ≠ '*' && c ≠ '?'))
  unfold compile
  generalize trimDotSlash (trimChars raw) = pattern at hends ⊢
  unfold compileTrimmed
  split_ifs with hsingle hdir hexact htree
  · exact hsingle.2.1
  · exact hdir.1
  · trivial
  · exact ⟨hends, fun path h => prefix_of_globRegex h (fun c => anchorOf_literal)
      ((anchorOf_isPrefix pattern).trans (List.prefix_append _ _))⟩
  · exact ⟨hends, fun path h => prefix_of_globRegex h (fun c => anchorOf_literal)
      (anchorOf_isPrefix pattern)⟩

end CompiledPattern

end Sashiko
