import Mathlib.Data.List.Infix
import Mathlib.Logic.Function.Basic
import Sashiko.Access.Maintainers

/-! The matcher for many files, which looks patterns up by the directories above a file, agrees with
the scan of all patterns. -/

namespace Sashiko

open CompiledPattern

/-- The order in which a hash map gives the indices it holds. -/
structure HashOrder where
  indices : ℕ → List ℕ
  perm : ∀ n, (indices n).Perm (List.range n)

theorem perm_range (n : ℕ) : (List.range n).Perm (List.range n) := .refl _

def HashOrder.ascending : HashOrder := ⟨List.range, perm_range⟩

/-! ### The tables -/

/-- A key that a table does not have stands for no entries. -/
def pushEntry {α : Type} (m : List Char → List α) (key : List Char) (x : α) : List Char → List α :=
  Function.update m key (m key ++ [x])

structure FileMatcher (compiler : RegexCompiler) where
  sections : List (MaintainerSection compiler)
  exact : List Char → List (ℕ × ℕ)
  prefixDirs : List Char → List (ℕ × ℕ)
  singleLevel : List Char → List (ℕ × ℕ)
  globs : List Char → List (ℕ × (List Char → Bool) × ℕ)
  withRegexes : List ℕ

variable {compiler : RegexCompiler}

namespace FileMatcher

def empty (sections : List (MaintainerSection compiler)) : FileMatcher compiler where
  sections := sections
  exact := fun _ => []
  prefixDirs := fun _ => []
  singleLevel := fun _ => []
  globs := fun _ => []
  withRegexes := []

def addPattern (idx : ℕ) (m : FileMatcher compiler) (p : CompiledPattern) : FileMatcher compiler :=
  match p with
  | .exactFile path _ => { m with exact := pushEntry m.exact path (idx, p.depth) }
  | .prefixDir pre _ => { m with prefixDirs := pushEntry m.prefixDirs pre (idx, p.depth) }
  | .dirSingleLevel dirPrefix _ =>
    { m with singleLevel := pushEntry m.singleLevel dirPrefix (idx, p.depth) }
  | .glob regex _ anchor => { m with globs := pushEntry m.globs anchor (idx, regex, p.depth) }

def addSection (m : FileMatcher compiler) (entry : MaintainerSection compiler × ℕ) :
    FileMatcher compiler :=
  entry.1.files.foldl (addPattern entry.2)
    (if entry.1.regexes.isEmpty then m else { m with withRegexes := m.withRegexes ++ [entry.2] })

def new (sections : List (MaintainerSection compiler)) : FileMatcher compiler :=
  sections.zipIdx.foldl addSection (empty sections)

/-! ### Looking a file up -/

/-- Every ancestor directory, and the empty anchor. -/
def ancestors (path : List Char) : List (List Char) :=
  [] :: path.inits.filter fun dir => dir.getLast? = some '/'

/-- The sections and depths that the lookups give, in their order. -/
def hits (m : FileMatcher compiler) (path : List Char) : List (ℕ × ℕ) :=
  m.exact path ++ m.singleLevel (upToSlash path) ++ (ancestors path).flatMap fun dir =>
    m.prefixDirs dir ++ ((m.globs dir).filter fun g => g.2.1 path).map fun g => (g.1, g.2.2)

def record (best : ℕ → Option ℕ) (hit : ℕ × ℕ) : ℕ → Option ℕ :=
  Function.update best hit.1 (MaintainerSection.deepen (best hit.1) hit.2)

def excluded (m : FileMatcher compiler) (path : List Char) (idx : ℕ) : Bool :=
  (m.sections[idx]?).any fun s => s.excludes.any (·.isMatch path)

def matchedByRegex (m : FileMatcher compiler) (path : List Char) (idx : ℕ) : Bool :=
  (m.sections[idx]?).any fun s => s.regexes.any (· path)

def retain (m : FileMatcher compiler) (path : List Char) (best : ℕ → Option ℕ) : ℕ → Option ℕ :=
  fun idx => if m.excluded path idx then none else best idx

def addByRegex (m : FileMatcher compiler) (path : List Char) (best : ℕ → Option ℕ) (idx : ℕ) :
    ℕ → Option ℕ :=
  if (best idx).isNone && !m.excluded path idx && m.matchedByRegex path idx then
    Function.update best idx (some 0)
  else best

def bestMatches (m : FileMatcher compiler) (path : List Char) : ℕ → Option ℕ :=
  m.withRegexes.foldl (m.addByRegex path) (m.retain path ((m.hits path).foldl record fun _ => none))

/-- The entries of the map, in whatever order they come. -/
def entries (m : FileMatcher compiler) (order : HashOrder) (best : ℕ → Option ℕ) :
    List (SectionMatch compiler) :=
  (order.indices m.sections.length).filterMap fun idx =>
    (m.sections[idx]?).bind fun s => (best idx).map fun d => (s, d)

def matchFile (m : FileMatcher compiler) (order : HashOrder) (filePath : List Char) :
    List (List Char) :=
  (sortMatches (m.entries order (m.bestMatches (trimDotSlash filePath)))).map (·.1.name)

end FileMatcher

/-! ### What the tables hold -/

theorem mem_pushEntry {α : Type} {m : List Char → List α} {key dir : List Char} {x y : α} :
    y ∈ pushEntry m key x dir ↔ y ∈ m dir ∨ (dir = key ∧ y = x) := by
  unfold pushEntry
  by_cases h : dir = key
  · subst h
    rw [Function.update_self, List.mem_append, List.mem_singleton]
    tauto
  · rw [Function.update_of_ne h]
    tauto

namespace FileMatcher

/-- The patterns that stand in the tables are those listed here, each for its section. -/
structure Holds (m : FileMatcher compiler) (listed : ℕ → CompiledPattern → Prop) : Prop where
  exact : ∀ path x, x ∈ m.exact path ↔ ∃ d, listed x.1 (.exactFile path d) ∧ x.2 = d + 1
  prefixDirs : ∀ dir x, x ∈ m.prefixDirs dir ↔ listed x.1 (.prefixDir dir x.2)
  singleLevel : ∀ dir x, x ∈ m.singleLevel dir ↔ listed x.1 (.dirSingleLevel dir x.2)
  globs : ∀ dir x, x ∈ m.globs dir ↔ listed x.1 (.glob x.2.1 x.2.2 dir)

theorem Holds.congr {m : FileMatcher compiler} {listed listed' : ℕ → CompiledPattern → Prop}
    (h : m.Holds listed) (heq : ∀ idx p, listed' idx p ↔ listed idx p) : m.Holds listed' := by
  have hsame : listed' = listed := funext fun idx => funext fun p => propext (heq idx p)
  rwa [hsame]

theorem holds_addPattern {m : FileMatcher compiler} {listed : ℕ → CompiledPattern → Prop}
    (h : m.Holds listed) (idx : ℕ) (p : CompiledPattern) :
    (addPattern idx m p).Holds fun i q => listed i q ∨ (i = idx ∧ q = p) := by
  cases p with
  | exactFile path d =>
    refine ⟨fun dir x => ?_, fun dir x => ?_, fun dir x => ?_, fun dir x => ?_⟩
    · change x ∈ pushEntry m.exact path (idx, d + 1) dir ↔ _
      rw [mem_pushEntry, h.exact]
      constructor
      · rintro (⟨e, hlisted, hd⟩ | ⟨rfl, rfl⟩)
        · exact ⟨e, .inl hlisted, hd⟩
        · exact ⟨d, .inr ⟨rfl, rfl⟩, rfl⟩
      · rintro ⟨e, hlisted | ⟨hidx, heq⟩, hd⟩
        · exact .inl ⟨e, hlisted, hd⟩
        · obtain ⟨rfl, rfl⟩ := exactFile.inj heq
          exact .inr ⟨rfl, Prod.ext hidx hd⟩
    · simpa [addPattern] using h.prefixDirs dir x
    · simpa [addPattern] using h.singleLevel dir x
    · simpa [addPattern] using h.globs dir x
  | prefixDir pre d =>
    refine ⟨fun dir x => ?_, fun dir x => ?_, fun dir x => ?_, fun dir x => ?_⟩
    · simpa [addPattern] using h.exact dir x
    · change x ∈ pushEntry m.prefixDirs pre (idx, d) dir ↔ _
      rw [mem_pushEntry, h.prefixDirs, prefixDir.injEq, Prod.ext_iff]
      tauto
    · simpa [addPattern] using h.singleLevel dir x
    · simpa [addPattern] using h.globs dir x
  | dirSingleLevel dirPrefix d =>
    refine ⟨fun dir x => ?_, fun dir x => ?_, fun dir x => ?_, fun dir x => ?_⟩
    · simpa [addPattern] using h.exact dir x
    · simpa [addPattern] using h.prefixDirs dir x
    · change x ∈ pushEntry m.singleLevel dirPrefix (idx, d) dir ↔ _
      rw [mem_pushEntry, h.singleLevel, dirSingleLevel.injEq, Prod.ext_iff]
      tauto
    · simpa [addPattern] using h.globs dir x
  | glob regex d anchor =>
    refine ⟨fun dir x => ?_, fun dir x => ?_, fun dir x => ?_, fun dir x => ?_⟩
    · simpa [addPattern] using h.exact dir x
    · simpa [addPattern] using h.prefixDirs dir x
    · simpa [addPattern] using h.singleLevel dir x
    · change x ∈ pushEntry m.globs anchor (idx, regex, d) dir ↔ _
      rw [mem_pushEntry, h.globs, glob.injEq, Prod.ext_iff, Prod.ext_iff]
      tauto

theorem addPattern_frame (idx : ℕ) (m : FileMatcher compiler) (p : CompiledPattern) :
    (addPattern idx m p).sections = m.sections ∧
      (addPattern idx m p).withRegexes = m.withRegexes := by
  cases p <;> exact ⟨rfl, rfl⟩

theorem foldl_addPattern (idx : ℕ) (files : List CompiledPattern) {m : FileMatcher compiler}
    {listed : ℕ → CompiledPattern → Prop} (h : m.Holds listed) :
    (files.foldl (addPattern idx) m).Holds (fun i q => listed i q ∨ (i = idx ∧ q ∈ files)) ∧
      (files.foldl (addPattern idx) m).sections = m.sections ∧
      (files.foldl (addPattern idx) m).withRegexes = m.withRegexes := by
  induction files generalizing m listed with
  | nil => exact ⟨h.congr fun i q => by simp, rfl, rfl⟩
  | cons p files ih =>
    obtain ⟨hholds, hsections, hregexes⟩ := ih (holds_addPattern h idx p)
    obtain ⟨hsections', hregexes'⟩ := addPattern_frame idx m p
    refine ⟨hholds.congr fun i q => ?_, hsections.trans hsections', hregexes.trans hregexes'⟩
    rw [List.mem_cons]
    tauto

/-- What the matcher holds once all sections are entered. -/
structure Built (sections : List (MaintainerSection compiler)) (m : FileMatcher compiler) :
    Prop where
  holds : m.Holds fun i q => ∃ s, sections[i]? = some s ∧ q ∈ s.files
  regexes : ∀ i, i ∈ m.withRegexes ↔ ∃ s, sections[i]? = some s ∧ s.regexes ≠ []

theorem built_foldl (all sections : List (MaintainerSection compiler)) :
    Built sections (sections.zipIdx.foldl addSection (empty all)) ∧
      (sections.zipIdx.foldl addSection (empty all)).sections = all := by
  induction sections using List.reverseRecOn with
  | nil =>
    refine ⟨⟨⟨?_, ?_, ?_, ?_⟩, ?_⟩, rfl⟩ <;> simp [empty]
  | append_singleton sections s ih =>
    obtain ⟨⟨hholds, hregexes⟩, hsections⟩ := ih
    rw [List.zipIdx_append, List.foldl_append, List.zipIdx_singleton, List.foldl_cons,
      List.foldl_nil]
    generalize sections.zipIdx.foldl addSection (empty all) = m at hholds hregexes hsections ⊢
    have hnth : ∀ i t, (sections ++ [s])[i]? = some t ↔
        sections[i]? = some t ∨ (i = 0 + sections.length ∧ t = s) := by
      intro i t
      rw [List.getElem?_append]
      split_ifs with hi
      · refine ⟨.inl, fun h => h.resolve_right fun h => ?_⟩
        omega
      · have hnone : sections[i]? = none := List.getElem?_eq_none (not_lt.mp hi)
        rw [hnone, List.getElem?_singleton]
        split_ifs with hzero
        · simp only [Option.some_inj, false_or]
          constructor
          · rintro rfl
            exact ⟨by omega, rfl⟩
          · exact fun h => h.2.symm
        · simp only [false_or, false_iff]
          omega
    have hentered : (if s.regexes.isEmpty then m else
        { m with withRegexes := m.withRegexes ++ [0 + sections.length] }).Holds
          fun i q => ∃ s, sections[i]? = some s ∧ q ∈ s.files := by
      split_ifs
      · exact hholds
      · exact ⟨hholds.exact, hholds.prefixDirs, hholds.singleLevel, hholds.globs⟩
    obtain ⟨hfold, hsections', hregexes'⟩ :=
      foldl_addPattern (0 + sections.length) s.files hentered
    refine ⟨⟨hfold.congr fun i q => ?_, fun i => ?_⟩, ?_⟩
    · simp only [hnth]
      constructor
      · rintro ⟨t, hold | ⟨hi, rfl⟩, hq⟩
        · exact .inl ⟨t, hold, hq⟩
        · exact .inr ⟨hi, hq⟩
      · rintro (⟨t, hold, hq⟩ | ⟨hi, hq⟩)
        · exact ⟨t, .inl hold, hq⟩
        · exact ⟨s, .inr ⟨hi, rfl⟩, hq⟩
    · rw [addSection, hregexes']
      simp only [hnth]
      by_cases hempty : s.regexes = []
      · rw [if_pos (List.isEmpty_iff.mpr hempty), hregexes]
        constructor
        · rintro ⟨t, hold, hne⟩
          exact ⟨t, .inl hold, hne⟩
        · rintro ⟨t, hold | ⟨-, rfl⟩, hne⟩
          · exact ⟨t, hold, hne⟩
          · exact absurd hempty hne
      · rw [if_neg (mt List.isEmpty_iff.mp hempty)]
        change i ∈ m.withRegexes ++ [0 + sections.length] ↔ _
        rw [List.mem_append, List.mem_singleton, hregexes]
        constructor
        · rintro (⟨t, hold, hne⟩ | rfl)
          · exact ⟨t, .inl hold, hne⟩
          · exact ⟨s, .inr ⟨rfl, rfl⟩, hempty⟩
        · rintro ⟨t, hold | ⟨hi, rfl⟩, hne⟩
          · exact .inl ⟨t, hold, hne⟩
          · exact .inr hi
    · rw [addSection, hsections']
      split_ifs
      · exact hsections
      · exact hsections

theorem built_new (sections : List (MaintainerSection compiler)) :
    Built sections (new sections) ∧ (new sections).sections = sections :=
  built_foldl sections sections

/-! ### Every pattern that matches is looked up -/

theorem mem_ancestors {path dir : List Char} :
    dir ∈ ancestors path ↔ dir = [] ∨ (dir <+: path ∧ dir.getLast? = some '/') := by
  rw [ancestors, List.mem_cons, List.mem_filter, List.mem_inits, decide_eq_true_eq]

theorem upToSlash_eq_iff {path dir : List Char} (hdir : dir.getLast? = some '/')
    (hpath : path.getLast? ≠ some '/') (depth : ℕ) :
    upToSlash path = dir ↔ (dirSingleLevel dir depth).matchesPath path = true := by
  simp only [matchesPath, Bool.and_eq_true, Bool.not_eq_true', List.isPrefixOf_iff_prefix,
    List.contains_eq_mem, decide_eq_false_iff_not]
  constructor
  · rintro rfl
    obtain ⟨rest, hsplit, hrest⟩ := upToSlash_split path
    have hdrop : (upToSlash path ++ rest).drop (upToSlash path).length = rest := List.drop_left
    rw [← hsplit] at hdrop
    rw [hdrop]
    refine ⟨⟨upToSlash_isPrefix path, hrest⟩, List.isEmpty_eq_false_iff.mpr ?_⟩
    rintro rfl
    rw [List.append_nil] at hsplit
    exact hpath (hsplit ▸ hdir)
  · rintro ⟨⟨⟨rest, rfl⟩, hslash⟩, -⟩
    rw [List.drop_left] at hslash
    exact upToSlash_append hdir hslash

theorem mem_ancestors_iff {path dir : List Char} (hdir : dir = [] ∨ dir.getLast? = some '/') :
    dir ∈ ancestors path ↔ dir <+: path := by
  rw [mem_ancestors]
  constructor
  · rintro (rfl | h)
    · exact List.nil_prefix
    · exact h.1
  · exact fun h => hdir.imp_right fun hlast => ⟨h, hlast⟩

section Hits

variable {sections : List (MaintainerSection compiler)} {m : FileMatcher compiler}
  {path : List Char}

theorem anchored_of_listed {i : ℕ} {p : CompiledPattern}
    (h : ∃ s, sections[i]? = some s ∧ p ∈ s.files) : p.Anchored := by
  obtain ⟨s, -, hp⟩ := h
  obtain ⟨raw, rfl⟩ := s.compiled p hp
  exact anchored_compile compiler raw

/-- The lookups find a pattern exactly if it matches the file. -/
theorem mem_hits (hm : Built sections m) (hpath : path.getLast? ≠ some '/') (i d : ℕ) :
    (i, d) ∈ m.hits path ↔
      ∃ p, (∃ s, sections[i]? = some s ∧ p ∈ s.files) ∧ p.matchesPath path = true ∧ p.depth = d := by
  have hholds := hm.holds
  simp only [hits, List.mem_append, List.mem_flatMap, List.mem_map, List.mem_filter]
  constructor
  · rintro ((hexact | hsingle) | ⟨dir, hdir, hprefix | ⟨g, ⟨hglob, hregex⟩, hg⟩⟩)
    · obtain ⟨e, hlisted, hd⟩ := (hholds.exact _ _).mp hexact
      exact ⟨_, hlisted, decide_eq_true rfl, hd.symm⟩
    · have hlisted := (hholds.singleLevel _ _).mp hsingle
      exact ⟨_, hlisted, (upToSlash_eq_iff (anchored_of_listed hlisted) hpath d).mp rfl, rfl⟩
    · have hlisted := (hholds.prefixDirs _ _).mp hprefix
      exact ⟨_, hlisted, List.isPrefixOf_iff_prefix.mpr
        ((mem_ancestors_iff (.inr (anchored_of_listed hlisted))).mp hdir), rfl⟩
    · obtain ⟨rfl, rfl⟩ := Prod.mk.inj hg
      exact ⟨_, (hholds.globs _ _).mp hglob, hregex, rfl⟩
  · rintro ⟨p, hlisted, hmatch, rfl⟩
    have hanchored := anchored_of_listed hlisted
    cases p with
    | exactFile expected e =>
      obtain rfl : path = expected := of_decide_eq_true hmatch
      exact .inl (.inl ((hholds.exact _ _).mpr ⟨e, hlisted, rfl⟩))
    | dirSingleLevel dir e =>
      rw [← upToSlash_eq_iff hanchored hpath] at hmatch
      exact .inl (.inr ((hholds.singleLevel _ _).mpr (hmatch.symm ▸ hlisted)))
    | prefixDir dir e =>
      exact .inr ⟨dir, (mem_ancestors_iff (.inr hanchored)).mpr
        (List.isPrefixOf_iff_prefix.mp hmatch), .inl ((hholds.prefixDirs _ _).mpr hlisted)⟩
    | glob regex e anchor =>
      exact .inr ⟨anchor, (mem_ancestors_iff hanchored.1).mpr (hanchored.2 path hmatch),
        .inr ⟨(i, regex, e), ⟨(hholds.globs _ _).mpr hlisted, hmatch⟩, rfl⟩⟩

/-! ### The best match of each section -/

theorem deepest_record (hits : List (ℕ × ℕ)) (i : ℕ) (best : ℕ → Option ℕ) {P : ℕ → Prop}
    (h : Deepest P (best i)) :
    Deepest (fun d => P d ∨ (i, d) ∈ hits) (hits.foldl record best i) := by
  induction hits generalizing P best with
  | nil => exact h.congr fun d => by simp
  | cons hit hits ih =>
    rw [List.foldl_cons]
    by_cases hi : i = hit.1
    · have hbest : record best hit i = MaintainerSection.deepen (best i) hit.2 := by
        rw [record, hi, Function.update_self]
      refine (ih _ (hbest ▸ deepest_deepen h fun d => Iff.rfl)).congr fun d => ?_
      rw [List.mem_cons, Prod.ext_iff, or_assoc]
      simp [hi]
    · have hbest : record best hit i = best i := Function.update_of_ne hi _ _
      refine (ih _ (hbest.symm ▸ h)).congr fun d => ?_
      rw [List.mem_cons, Prod.ext_iff]
      simp [hi]

theorem foldl_record_hits (hm : Built sections m) (hpath : path.getLast? ≠ some '/')
    (htrim : trimDotSlash path = path) (i : ℕ) :
    (m.hits path).foldl record (fun _ => none) i =
      (sections[i]?).bind fun s => MaintainerSection.bestDepth s.files path := by
  have hnone : Deepest (fun _ => False) none := fun _ => id
  have hfound := (deepest_record (m.hits path) i (fun _ => none) hnone).congr
    (Q := fun d => (i, d) ∈ m.hits path) fun d => by rw [false_or]
  refine hfound.unique ?_
  have hiff : ∀ d, (i, d) ∈ m.hits path ↔ ∃ p, (∃ s, sections[i]? = some s ∧ p ∈ s.files) ∧
      p.matchesPath path = true ∧ p.depth = d := mem_hits hm hpath i
  cases hs : sections[i]? with
  | none =>
    intro d hd
    obtain ⟨p, ⟨s, hs', -⟩, -⟩ := (hiff d).mp hd
    rw [hs] at hs'
    cases hs'
  | some s =>
    refine (deepest_bestDepth s.files path).congr fun d => ?_
    rw [hiff, hs]
    simp only [Option.some_inj, isMatch, htrim]
    constructor
    · rintro ⟨p, ⟨t, rfl, hp⟩, h⟩
      exact ⟨p, hp, h⟩
    · rintro ⟨p, hp, h⟩
      exact ⟨p, ⟨s, rfl, hp⟩, h⟩

theorem excluded_eq (hm : m.sections = sections) (i : ℕ) :
    m.excluded path i = (sections[i]?).any fun s => s.excludes.any (·.isMatch path) := by
  rw [excluded, hm]

theorem foldl_addByRegex (path : List Char) (idxs : List ℕ) (best : ℕ → Option ℕ) (i : ℕ) :
    idxs.foldl (m.addByRegex path) best i =
      if i ∈ idxs ∧ best i = none ∧ m.excluded path i = false ∧ m.matchedByRegex path i = true then
        some 0
      else best i := by
  induction idxs generalizing best with
  | nil => rw [List.foldl_nil, if_neg (by simp)]
  | cons idx idxs ih =>
    rw [List.foldl_cons, ih, addByRegex]
    by_cases hadd : best idx = none ∧ m.excluded path idx = false ∧
        m.matchedByRegex path idx = true
    · have hcond : ((best idx).isNone && !m.excluded path idx && m.matchedByRegex path idx) =
          true := by simp [hadd]
      rw [if_pos hcond]
      by_cases hi : i = idx
      · subst hi
        simp [hadd]
      · simp [hi]
    · have hcond : ¬((best idx).isNone && !m.excluded path idx && m.matchedByRegex path idx) =
          true := by simpa [and_assoc] using hadd
      rw [if_neg hcond]
      by_cases hi : i = idx
      · subst hi
        have hnot : ∀ p : Prop, ¬(p ∧ best i = none ∧ m.excluded path i = false ∧
            m.matchedByRegex path i = true) := fun p h => hadd h.2
        rw [if_neg (hnot _), if_neg (hnot _)]
      · simp [hi]

/-- Each section has the depth that the scan finds. -/
theorem bestMatches_eq (hm : Built sections m) (hsections : m.sections = sections)
    (hpath : path.getLast? ≠ some '/') (htrim : trimDotSlash path = path) (i : ℕ) :
    m.bestMatches path i = (sections[i]?).bind fun s => s.matchFile path := by
  rw [bestMatches, foldl_addByRegex, retain, foldl_record_hits hm hpath htrim, matchedByRegex,
    excluded, hsections]
  simp only [hm.regexes]
  cases hs : sections[i]? with
  | none => simp
  | some s =>
    simp only [Option.any_some, Option.bind_some, MaintainerSection.matchFile, htrim]
    by_cases hexcluded : s.excludes.any (·.isMatch path) = true
    · simp [hexcluded]
    · rw [Bool.not_eq_true] at hexcluded
      simp only [hexcluded, Bool.false_eq_true, if_false, true_and]
      cases hbest : MaintainerSection.bestDepth s.files path with
      | some d => simp
      | none =>
        by_cases hregex : s.regexes.any (· path) = true
        · have hne : s.regexes ≠ [] := fun hnil => by simp [hnil] at hregex
          simp [hregex, hne]
        · simp [hregex]

end Hits

/-! ### The order of the matches -/

theorem filterMap_range (sections : List (MaintainerSection compiler)) {β : Type}
    (f : MaintainerSection compiler → Option β) :
    (List.range sections.length).filterMap (fun i => (sections[i]?).bind f) =
      sections.filterMap f := by
  induction sections using List.reverseRecOn with
  | nil => rfl
  | append_singleton sections s ih =>
    rw [List.length_append, List.length_singleton, List.range_succ, List.filterMap_append,
      List.filterMap_append, ← ih]
    congr 1
    · refine List.filterMap_congr fun i hi => ?_
      rw [List.getElem?_append_left (List.mem_range.mp hi)]
    · have hlast : (sections ++ [s])[sections.length]? = some s := List.getElem?_concat_length
      rw [List.filterMap_cons, List.filterMap_cons, hlast, Option.bind_some, List.filterMap_nil,
        List.filterMap_nil]

/-- Matches that come in another order are sorted to the same names. -/
theorem sortMatches_perm {a b : List (SectionMatch compiler)} (h : a.Perm b) :
    (sortMatches a).map (·.1.name) = (sortMatches b).map (·.1.name) := by
  have hsorted : ∀ ms : List (SectionMatch compiler),
      ((sortMatches ms).map SectionMatch.key).Pairwise (· ≤ ·) := fun ms =>
    List.pairwise_map.mpr (List.pairwise_insertionSort _ ms)
  have hperm : (sortMatches a).Perm (sortMatches b) :=
    (List.perm_insertionSort _ a).trans (h.trans (List.perm_insertionSort _ b).symm)
  have hkeys : (sortMatches a).map SectionMatch.key = (sortMatches b).map SectionMatch.key :=
    (hperm.map SectionMatch.key).eq_of_pairwise' (hsorted a) (hsorted b)
  have hname : ∀ ms : List (SectionMatch compiler),
      ms.map (·.1.name) = (ms.map SectionMatch.key).map fun k => (ofLex k).2 := fun ms => by
    rw [List.map_map]
    rfl
  rw [hname, hkeys, ← hname]

/-- The fast matcher and the scan give the same sections in the same order. -/
theorem matchFile_eq_scan (order : HashOrder) (sections : List (MaintainerSection compiler))
    (filePath : List Char) (hpath : filePath.getLast? ≠ some '/') :
    (new sections).matchFile order filePath = MaintainersIndex.matchFile sections filePath := by
  obtain ⟨hbuilt, hsections⟩ := built_new sections
  have htrimmed : (trimDotSlash filePath).getLast? ≠ some '/' := by
    obtain ⟨pre, hpre⟩ := dropAllPrefix_suffix ['.', '/'] filePath.length filePath
    intro hlast
    refine hpath ?_
    rw [← hpre, List.getLast?_append_of_ne_nil]
    · exact hlast
    · exact List.ne_nil_of_mem (List.mem_of_getLast? hlast)
  have hmatch : ∀ s : MaintainerSection compiler,
      s.matchFile (trimDotSlash filePath) = s.matchFile filePath := fun s => by
    rw [MaintainerSection.matchFile, MaintainerSection.matchFile, trimDotSlash_idem]
  have hentries : ((new sections).entries order
      ((new sections).bestMatches (trimDotSlash filePath))).Perm
        (sections.filterMap fun s => (s.matchFile filePath).map fun d => (s, d)) := by
    have hfound : ∀ i, ((sections[i]?).bind fun s =>
        ((new sections).bestMatches (trimDotSlash filePath) i).map fun d => (s, d)) =
          (sections[i]?).bind fun s => (s.matchFile filePath).map fun d => (s, d) := by
      intro i
      rw [bestMatches_eq hbuilt hsections htrimmed (trimDotSlash_idem filePath)]
      cases sections[i]? with
      | none => rfl
      | some s => rw [Option.bind_some, Option.bind_some, Option.bind_some, hmatch]
    rw [entries, hsections, ← filterMap_range]
    simp only [hfound]
    exact (order.perm sections.length).filterMap _
  exact sortMatches_perm hentries

def sampleSection : MaintainerSection fragmentCompiler where
  name := "NETWORKING".toList
  files := [.compile fragmentCompiler "net/".toList, .compile fragmentCompiler "*/net/*.h".toList]
  excludes := [.compile fragmentCompiler "net/sched/".toList]
  regexes := [fun cs => "netdev".toList.isPrefixOf cs]
  compiled := by
    intro p hp
    simp only [List.mem_cons, List.not_mem_nil, or_false] at hp
    rcases hp with rfl | rfl
    · exact ⟨_, rfl⟩
    · exact ⟨_, rfl⟩

theorem matchFile_eq_scan_sample :
    (new [sampleSection]).matchFile .ascending "include/net/sock.h".toList =
      MaintainersIndex.matchFile [sampleSection] "include/net/sock.h".toList :=
  matchFile_eq_scan .ascending [sampleSection] "include/net/sock.h".toList (by decide)

example : MaintainersIndex.matchFile [sampleSection] "./x/net/sock.h".toList =
    ["NETWORKING".toList] := by
  decide

end FileMatcher

end Sashiko
