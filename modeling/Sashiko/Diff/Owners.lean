import Sashiko.Access.Attribution
import Sashiko.Diff.Touched

/-! The files that a diff is attributed by, and the files that it touches. -/

namespace Sashiko

/-- Without an index nobody is identified. -/
def sectionsForDiff {compiler : RegexCompiler} (index : Option (MaintainersIndex compiler))
    (diff : String) : List AttributedSubsystem :=
  if (extractFilesFromDiff diff).isEmpty then []
  else
    match index with
    | some index => index.attributeFiles (extractFilesFromDiff diff)
    | none => []

/-! ### The paths that the two-sided reading reports -/

namespace ParsedDiff

def Reports (d : ParsedDiff) (p : Chars) : Prop :=
  d.postRanges p ≠ none ∨ d.preRanges p ≠ none ∨ d.deletedLines p ≠ none ∨
    ∃ q, d.preToPost p = some q ∨ d.preToPost q = some p ∨ d.postToPre p = some q ∨
      d.postToPre q = some p

theorem not_reports_empty (p : Chars) : ¬empty.Reports p := by
  rintro (h | h | h | ⟨q, h | h | h | h⟩)
  · exact h rfl
  · exact h rfl
  · exact h rfl
  all_goals cases h

theorem reports_addPair {d : ParsedDiff} {pre post : Option Chars} {p : Chars}
    (h : (d.addPair pre post).Reports p) : d.Reports p ∨ ∃ old new, pre = some old ∧
      post = some new ∧ old ≠ new ∧ (p = old ∨ p = new) := by
  rcases addPair_cases pre post d with hsame | ⟨old, new, hpre, hpost, hne, hadd⟩
  · rw [hsame] at h
    exact .inl h
  rw [hadd] at h
  by_cases hp : p = old ∨ p = new
  · exact .inr ⟨old, new, hpre, hpost, hne, hp⟩
  rw [not_or] at hp
  refine .inl (h.imp_right (.imp_right (.imp_right ?_)))
  rintro ⟨q, h | h | h | h⟩
  · exact ⟨q, .inl (by rwa [← Function.update_of_ne hp.1 (some new) d.preToPost])⟩
  · dsimp only at h
    by_cases hq : q = old
    · subst hq
      rw [Function.update_self] at h
      exact absurd (Option.some.inj h).symm hp.2
    · rw [Function.update_of_ne hq] at h
      exact ⟨q, .inr (.inl h)⟩
  · exact ⟨q, .inr (.inr (.inl (by rwa [← Function.update_of_ne hp.2 (some old) d.postToPre])))⟩
  · dsimp only at h
    by_cases hq : q = new
    · subst hq
      rw [Function.update_self] at h
      exact absurd (Option.some.inj h).symm hp.1
    · rw [Function.update_of_ne hq] at h
      exact ⟨q, .inr (.inr (.inr h))⟩

theorem reports_hunkEffect {d : ParsedDiff} {pre post : Option Chars} {k : Hunk} {p : Chars}
    (h : (hunkEffect pre post d k).Reports p) : d.Reports p ∨ pre = some p ∨ post = some p := by
  by_cases hpre : pre = some p
  · exact .inr (.inl hpre)
  by_cases hpost : post = some p
  · exact .inr (.inr hpost)
  refine .inl ?_
  have hranges : ((d.addPost post k.postRuns).addPre pre k.preRuns
      (readTexts k.deletedLines)).Reports p := by
    rcases reports_addPair h with h | ⟨old, new, hold, hnew, -, rfl | rfl⟩
    · exact h
    · exact absurd hold hpre
    · exact absurd hnew hpost
  have hpairs : ∀ d' : ParsedDiff, d'.preToPost = d.preToPost → d'.postToPre = d.postToPre →
      d'.postRanges p = d.postRanges p → d'.preRanges p = d.preRanges p →
        d'.deletedLines p = d.deletedLines p → d'.Reports p → d.Reports p := by
    intro d' h1 h2 h3 h4 h5 h6
    unfold Reports at h6 ⊢
    rwa [h1, h2, h3, h4, h5] at h6
  refine hpairs _ ?_ ?_ ?_ ?_ ?_ hranges
  · cases pre <;> cases post <;> rfl
  · cases pre <;> cases post <;> rfl
  · have hlookup := postRanges_hunkEffect pre post d k p
    rw [if_neg hpost, hunkEffect, (addPair_ranges _ _ _).1] at hlookup
    exact hlookup
  · have hlookup := preRanges_hunkEffect pre post d k p
    rw [if_neg hpre, hunkEffect, (addPair_ranges _ _ _).2.1] at hlookup
    exact hlookup
  · have hlookup := deletedLines_hunkEffect pre post d k p
    rw [if_neg hpre, hunkEffect, (addPair_ranges _ _ _).2.2] at hlookup
    exact hlookup

theorem reports_hunks {pre post : Option Chars} (hunks : List Hunk) {d : ParsedDiff} {p : Chars}
    (h : (hunks.foldl (hunkEffect pre post) d).Reports p) :
    d.Reports p ∨ pre = some p ∨ post = some p := by
  induction hunks generalizing d with
  | nil => exact .inl h
  | cons k hunks ih => exact (ih h).elim reports_hunkEffect .inr

theorem postToPre_isSome_addPair {d : ParsedDiff} {pre post : Option Chars} {p : Chars}
    (h : (d.postToPre p).isSome) : ((d.addPair pre post).postToPre p).isSome := by
  rcases addPair_cases pre post d with hsame | ⟨old, new, -, -, -, hadd⟩
  · rwa [hsame]
  · rw [hadd]
    dsimp only
    by_cases hp : p = new
    · rw [hp, Function.update_self]
      rfl
    · rwa [Function.update_of_ne hp]

/-- A path stays reported as the new name of a rename. -/
theorem postToPre_isSome_hunks (pre post : Option Chars) (hunks : List Hunk) {d : ParsedDiff}
    {p : Chars} (h : (d.postToPre p).isSome) :
    ((hunks.foldl (hunkEffect pre post) d).postToPre p).isSome := by
  induction hunks generalizing d with
  | nil => exact h
  | cons k hunks ih =>
    refine ih ?_
    have hranges : (((d.addPost post k.postRuns).addPre pre k.preRuns
        (readTexts k.deletedLines)).postToPre p).isSome := by
      cases pre <;> cases post <;> exact h
    exact postToPre_isSome_addPair hranges

end ParsedDiff

/-! ### Names in a `diff --git` line without blanks -/

theorem symmetricPaths_spec {rest a b : Chars} (h : symmetricPaths rest = some (a, b)) :
    rest = 'a' :: '/' :: (a ++ [' ', 'b', '/'] ++ a) := by
  unfold symmetricPaths at h
  split_ifs at h with hsym
  obtain ⟨hside, hlen, -, hmid, hsame⟩ := hsym
  obtain ⟨rfl, -⟩ := Prod.mk.inj (Option.some.inj h)
  obtain ⟨tail, rfl⟩ := List.isPrefixOf_iff_prefix.mp hside
  generalize ((aSlash ++ tail).length - 5) / 2 = n at hmid hsame ⊢
  have hdrop : ∀ k, (aSlash ++ tail).drop (2 + k) = tail.drop k := fun k => by
    rw [← List.drop_drop]
    rfl
  have htail : (aSlash ++ tail).drop 2 = tail := rfl
  rw [hdrop] at hmid
  rw [Nat.add_assoc, hdrop, htail] at hsame
  rw [htail]
  have hsplit : tail = tail.take n ++ ((tail.drop n).take 3 ++ tail.drop (n + 3)) := by
    rw [← List.drop_drop, List.take_append_drop, List.take_append_drop]
  conv_lhs => rw [hsplit, hmid, ← hsame]
  simp [aSlash]

/-- Without blanks in the names the line has one middle only. -/
theorem symmetricPaths_eq_none {old new : Chars} (hold : ' ' ∉ old) (hnew : ' ' ∉ new)
    (hne : old ≠ new) : symmetricPaths (gitNames old new) = none := by
  rcases symmetricPaths_cases (gitNames old new) with hnone | ⟨w, hw⟩
  · exact hnone
  have htext := symmetricPaths_spec hw
  rw [gitNames, List.cons.injEq, List.cons.injEq, List.append_assoc, List.append_assoc] at htext
  have hnames := htext.2.2
  have hcount := congrArg (List.count ' ') hnames
  simp only [List.count_append, List.count_eq_zero.mpr hold, List.count_eq_zero.mpr hnew] at hcount
  have hblank : ' ' ∉ w := List.count_eq_zero.mp (by omega)
  have hfirst : old = w := by
    have htake := congrArg (List.takeWhile (· ≠ ' ')) hnames
    rwa [List.cons_append, List.cons_append, takeWhile_append_stop hold, List.cons_append,
      takeWhile_append_stop hblank] at htake
  rw [hfirst, List.append_cancel_left_eq, List.append_cancel_left_eq] at hnames
  exact absurd (hfirst.trans hnames.symm) hne

theorem parseDiffGitPaths_plain {old new : Chars} (hold : needsQuotes true old = false)
    (hnew : needsQuotes true new = false) (hne : new ≠ []) (holdBlank : ' ' ∉ old)
    (hnewBlank : ' ' ∉ new) (hends : EndsVisible new) (hmoved : old ≠ new) :
    parseDiffGitPaths (diffGit ++ gitNames old new) =
      some (old, (stripChars? bSlash new).getD new) := by
  have hinfix : ¬[' ', 'b', '/'] <:+: new := fun h => hnewBlank (h.subset List.mem_cons_self)
  rw [parseDiffGitPaths_names (isUnquoted_of_not hold) (isUnquoted_of_not hnew) hne hends,
    symmetricPaths_eq_none holdBlank hnewBlank hmoved, Option.none_or, gitNames,
    splitPaths_names hinfix]

/-- With `core.quotePath` the only white space of a name without quotes is the blank. -/
theorem endsVisible_of_plain {path : Chars} (h : needsQuotes true path = false)
    (hblank : ' ' ∉ path) : EndsVisible path := by
  intro c hc
  have hmem : c ∈ path := List.mem_of_getLast? hc
  have hplain := isPlain_of_not h c hmem
  have hne : c ≠ ' ' := fun heq => hblank (heq ▸ hmem)
  have hrange : 32 ≤ c.toNat ∧ c.toNat < 128 := by
    simp only [needsEscape, Bool.true_and, Bool.or_eq_false_iff, decide_eq_false_iff_not,
      not_lt, not_le] at hplain
    exact ⟨hplain.1.1, hplain.2⟩
  have hcode : c.toNat ≠ 32 := fun heq => hne (Char.toNat_inj.mp heq)
  simp only [isRustWhitespace, List.contains_cons, List.contains_nil, Bool.or_eq_false_iff,
    Bool.and_eq_false_iff, decide_eq_false_iff_not, beq_eq_false_iff_ne, and_true, not_le]
  omega

/-! ### What a diff touches -/

def Touches (changes : List NamedChange) (p : Chars) : Prop :=
  ∃ c ∈ changes, c.names.pre.map (·.chars) = some p ∨ c.names.post.map (·.chars) = some p

theorem touches_iff {changes : List NamedChange} {p : Chars} :
    Touches changes p ↔ ∃ c ∈ changes, p = c.names.old.chars ∨ p = c.names.new.chars := by
  refine exists_congr fun c => and_congr_right fun _ => ?_
  cases c.names <;>
    simp [PathChange.pre, PathChange.post, PathChange.old, PathChange.new, eq_comm]

/-- The files that the diff is attributed by include every path it touches, so that the owners of
each of them get the change. -/
structure AttributesAll (digit : RegexDigit) (changes : List NamedChange)
    (signature : Option MailSignature) : Prop where
  touched : ∀ p, Touches changes p → p ∈ extractFilesFromDiff (renderNamed changes signature)
  reported : ∀ p, (parseTwoSidedDiff digit (renderNamed changes signature)).Reports p →
    p ∈ extractFilesFromDiff (renderNamed changes signature)
  owners : ∀ (compiler : RegexCompiler) (index : MaintainersIndex compiler) p,
    Touches changes p ∨ (parseTwoSidedDiff digit (renderNamed changes signature)).Reports p →
      index.attributeFiles [p] ⊆ sectionsForDiff (some index) (renderNamed changes signature)

def oldNames (changes : List NamedChange) : List Chars := changes.map (·.names.old.chars)

/-- No name is quoted or holds a blank, and a renamed file's new name stands for an old file too,
also without the `b/` it may start with. -/
structure SimplyNamed (changes : List NamedChange) : Prop where
  plain : ∀ c ∈ changes, needsQuotes true c.names.old.chars = false ∧ ' ' ∉ c.names.old.chars
  known : ∀ c ∈ changes, c.names.new.chars ∈ oldNames changes
  unprefixed : ∀ c ∈ changes, c.names.old.chars ≠ c.names.new.chars →
    ∀ rest, c.names.new.chars = bSlash ++ rest → rest ∈ oldNames changes

section Names

variable {changes : List NamedChange} {signature : Option MailSignature}

theorem listed_of_plain {c : NamedChange} (h : needsQuotes true c.names.old.chars = false ∧
    ' ' ∉ c.names.old.chars) : c.listed = some c.names.old.chars := by
  rw [NamedChange.listed, h.1, if_neg Bool.false_ne_true]
  refine congrArg some (List.takeWhile_eq_self_iff.mpr fun x hx => ?_)
  exact decide_eq_true fun heq => h.2 (heq ▸ hx)

theorem mem_extract_of_plain (h : ∀ c ∈ changes, needsQuotes true c.names.old.chars = false ∧
    ' ' ∉ c.names.old.chars) {p : Chars} :
    p ∈ extractFilesFromDiff (renderNamed changes signature) ↔ p ∈ oldNames changes := by
  rw [mem_extractFilesFromDiff, oldNames, List.mem_map]
  refine exists_congr fun c => and_congr_right fun hc => ?_
  rw [listed_of_plain (h c hc), Option.some_inj]

theorem plain_of_listed {c : NamedChange} {p : Chars} (h : c.listed = some p) :
    needsQuotes true p = false ∧ ' ' ∉ p := by
  unfold NamedChange.listed at h
  split_ifs at h with hq
  rw [Bool.not_eq_true] at hq
  rw [← Option.some.inj h]
  constructor
  · exact List.any_eq_false.mpr fun x hx =>
      List.any_eq_false.mp hq x ((List.takeWhile_prefix _).subset hx)
  · exact fun hmem => absurd (List.mem_takeWhile_imp hmem) (by simp)

theorem SimplyNamed.plain_new (h : SimplyNamed changes) {c : NamedChange} (hc : c ∈ changes) :
    needsQuotes true c.names.new.chars = false ∧ ' ' ∉ c.names.new.chars := by
  obtain ⟨c', hc', hname⟩ := List.mem_map.mp (h.known c hc)
  rw [← hname]
  exact h.plain c' hc'

theorem gitPair_of_plain {c : NamedChange}
    (hold : needsQuotes true c.names.old.chars = false ∧ ' ' ∉ c.names.old.chars)
    (hnew : needsQuotes true c.names.new.chars = false ∧ ' ' ∉ c.names.new.chars)
    (hmoved : c.names.old.chars ≠ c.names.new.chars) : c.gitPair =
      some (c.names.old.chars, (stripChars? bSlash c.names.new.chars).getD c.names.new.chars) := by
  have hline : c.gitLine = diffGit ++ gitNames c.names.old.chars c.names.new.chars := by
    rw [NamedChange.gitLine, renderGitLine, renderName, renderName, hold.1, hnew.1]
    simp [gitNames]
  rw [NamedChange.gitPair, hline, parseDiffGitPaths_plain hold.1 hnew.1 c.names.new.ne_nil hold.2
    hnew.2 (endsVisible_of_plain hnew.1 hnew.2) hmoved]

theorem SimplyNamed.gitPair_same (h : SimplyNamed changes) {c : NamedChange} (hc : c ∈ changes)
    (hsame : c.names.old.chars = c.names.new.chars) :
    c.gitPair = some (c.names.old.chars, c.names.old.chars) := by
  obtain ⟨hold, hblank⟩ := h.plain c hc
  have hline : c.gitLine = diffGit ++ gitNames c.names.old.chars c.names.old.chars := by
    rw [NamedChange.gitLine, renderGitLine, ← hsame, renderName, renderName, hold]
    simp [gitNames]
  rw [NamedChange.gitPair, hline, parseDiffGitPaths_same (isUnquoted_of_not hold)
    c.names.old.ne_nil (endsVisible_of_plain hold hblank)]

theorem SimplyNamed.source_target (h : SimplyNamed changes) {c : NamedChange} (hc : c ∈ changes)
    {p : Chars} (hp : c.source = some p ∨ c.target = some p) : p ∈ oldNames changes := by
  have hread : ∀ {side : Char} {path : Chars}, side = 'a' ∨ side = 'b' →
      needsQuotes true path = false ∧ ' ' ∉ path → headerName true side path = path :=
    fun hside hpath => (headerName_iff hside).mpr
      ⟨isPlain_of_not hpath.1, fun _ => endsVisible_of_plain hpath.1 hpath.2⟩
  have hold : c.names.old.chars ∈ oldNames changes := List.mem_map_of_mem hc
  have hnew := h.known c hc
  have hplainOld := h.plain c hc
  have hplainNew := h.plain_new hc
  unfold NamedChange.source NamedChange.target at hp
  rcases hp with hp | hp
  · obtain ⟨path, hpath, rfl⟩ := Option.map_eq_some_iff.mp hp
    cases hnames : c.names <;> rw [hnames] at hpath hold hplainOld <;> cases hpath <;>
      exact (hread (.inl rfl) hplainOld).symm.subst (motive := (· ∈ oldNames changes)) hold
  · obtain ⟨path, hpath, rfl⟩ := Option.map_eq_some_iff.mp hp
    cases hnames : c.names <;> rw [hnames] at hpath hnew hplainNew <;> cases hpath <;>
      exact (hread (.inr rfl) hplainNew).symm.subst (motive := (· ∈ oldNames changes)) hnew

theorem SimplyNamed.reports_effect (h : SimplyNamed changes) {c : NamedChange} (hc : c ∈ changes)
    {d : ParsedDiff} {p : Chars} (hp : (c.effect d).Reports p) :
    d.Reports p ∨ p ∈ oldNames changes := by
  rcases ParsedDiff.reports_hunks c.hunks hp with hp | hp
  · by_cases hmoved : c.names.old.chars = c.names.new.chars
    · rw [h.gitPair_same hc hmoved] at hp
      rcases ParsedDiff.reports_addPair hp with hp | ⟨old, new, hold, hnew, hne, -⟩
      · exact .inl hp
      · exact absurd ((Option.some.inj hold).symm.trans (Option.some.inj hnew)) hne
    · rw [gitPair_of_plain (h.plain c hc) (h.plain_new hc) hmoved] at hp
      rcases ParsedDiff.reports_addPair hp with hp | ⟨old, new, hold, hnew, -, rfl | rfl⟩
      · exact .inl hp
      · exact .inr (Option.some.inj hold ▸ List.mem_map_of_mem hc)
      · refine .inr (Option.some.inj hnew ▸ ?_)
        dsimp only
        cases hstrip : stripChars? bSlash c.names.new.chars with
        | none => exact h.known c hc
        | some rest =>
          refine h.unprefixed c hc hmoved rest ?_
          unfold stripChars? at hstrip
          split_ifs at hstrip with hpre
          obtain ⟨tail, htail⟩ := List.isPrefixOf_iff_prefix.mp hpre
          rw [← htail, List.drop_left, Option.some_inj] at hstrip
          rw [← htail, hstrip]
  · exact .inr (h.source_target hc hp)

theorem SimplyNamed.reports (h : SimplyNamed changes) {p : Chars} (seen : List NamedChange)
    (hseen : seen ⊆ changes) (hp : (seen.foldl NamedChange.effect .empty).Reports p) :
    p ∈ oldNames changes := by
  induction seen using List.reverseRecOn with
  | nil => exact absurd hp (ParsedDiff.not_reports_empty p)
  | append_singleton seen c ih =>
    rw [List.foldl_append] at hp
    rcases h.reports_effect (hseen (List.mem_append_right _ List.mem_cons_self)) hp with hp | hp
    · exact ih (fun x hx => hseen (List.mem_append_left _ hx)) hp
    · exact hp

/-- The new name that a `diff --git` line gives stays reported to the end. -/
theorem reports_gitPair {c : NamedChange} (hc : c ∈ changes) {old new : Chars}
    (hpair : c.gitPair = some (old, new)) (hne : old ≠ new) :
    (changes.foldl NamedChange.effect .empty).Reports new := by
  have hkept : ∀ (rest : List NamedChange) (d : ParsedDiff), (d.postToPre new).isSome →
      ((rest.foldl NamedChange.effect d).postToPre new).isSome := by
    intro rest
    induction rest with
    | nil => exact fun d h => h
    | cons c rest ih =>
      exact fun d h => ih _ (ParsedDiff.postToPre_isSome_hunks _ _ c.hunks
        (ParsedDiff.postToPre_isSome_addPair h))
  obtain ⟨before, after, rfl⟩ := List.append_of_mem hc
  rw [List.foldl_append, List.foldl_cons]
  have hadded : ((c.effect (before.foldl NamedChange.effect .empty)).postToPre new).isSome := by
    refine ParsedDiff.postToPre_isSome_hunks _ _ c.hunks ?_
    rw [hpair]
    change ((ParsedDiff.addPair _ (some old) (some new)).postToPre new).isSome
    rw [ParsedDiff.addPair, if_pos hne]
    simp
  obtain ⟨q, hq⟩ := Option.isSome_iff_exists.mp (hkept after _ hadded)
  exact .inr (.inr (.inr ⟨q, .inr (.inr (.inl hq))⟩))

end Names

/-- A diff is attributed by all it touches exactly if its names are simple. -/
theorem attributesAll_iff (digit : RegexDigit) (changes : List NamedChange)
    (signature : Option MailSignature) :
    AttributesAll digit changes signature ↔ SimplyNamed changes := by
  constructor
  · intro h
    have hlisted : ∀ p, Touches changes p → ∃ c ∈ changes, c.listed = some p := fun p hp =>
      mem_extractFilesFromDiff.mp (h.touched p hp)
    have hplain : ∀ c ∈ changes, needsQuotes true c.names.old.chars = false ∧
        ' ' ∉ c.names.old.chars := by
      intro c hc
      obtain ⟨c', -, hname⟩ := hlisted _ (touches_iff.mpr ⟨c, hc, .inl rfl⟩)
      exact plain_of_listed hname
    have hknown : ∀ c ∈ changes, c.names.new.chars ∈ oldNames changes := fun c hc =>
      (mem_extract_of_plain hplain).mp (h.touched _ (touches_iff.mpr ⟨c, hc, .inr rfl⟩))
    refine ⟨hplain, hknown, fun c hc hmoved rest hrest => ?_⟩
    by_cases hsame : c.names.old.chars = rest
    · exact hsame ▸ List.mem_map_of_mem hc
    -- the two-sided reading reports the new name without its `b/`
    have hnew : needsQuotes true c.names.new.chars = false ∧ ' ' ∉ c.names.new.chars := by
      obtain ⟨c', hc', hname⟩ := List.mem_map.mp (hknown c hc)
      rw [← hname]
      exact hplain c' hc'
    have hpair := gitPair_of_plain (hplain c hc) hnew hmoved
    rw [hrest, stripChars?_append, Option.getD_some] at hpair
    have hreports := reports_gitPair hc hpair hsame
    rw [← parseTwoSidedDiff_renderNamed digit changes signature] at hreports
    exact (mem_extract_of_plain hplain).mp (h.reported rest hreports)
  · intro h
    have htouched : ∀ p, Touches changes p →
        p ∈ extractFilesFromDiff (renderNamed changes signature) := by
      intro p hp
      obtain ⟨c, hc, rfl | rfl⟩ := touches_iff.mp hp
      · exact (mem_extract_of_plain h.plain).mpr (List.mem_map_of_mem hc)
      · exact (mem_extract_of_plain h.plain).mpr (h.known c hc)
    have hreported : ∀ p, (parseTwoSidedDiff digit (renderNamed changes signature)).Reports p →
        p ∈ extractFilesFromDiff (renderNamed changes signature) := by
      intro p hp
      rw [parseTwoSidedDiff_renderNamed] at hp
      exact (mem_extract_of_plain h.plain).mpr (h.reports changes (List.Subset.refl _) hp)
    refine ⟨htouched, hreported, fun compiler index p hp => ?_⟩
    have hmem : p ∈ extractFilesFromDiff (renderNamed changes signature) :=
      hp.elim (htouched p) (hreported p)
    rw [sectionsForDiff, if_neg fun hempty => List.not_mem_nil (List.isEmpty_iff.mp hempty ▸ hmem)]
    exact index.attributeFiles_mono hmem

/-- A file that is moved without a change. -/
def sampleMove : NamedChange where
  names := .renamed ⟨"net/a.c".toList, by decide⟩ ⟨"mm/b.c".toList, by decide⟩ (by decide)
  extended := []
  hunks := []

/-- The new place of a moved file is not attributed. -/
theorem move_missed :
    extractFilesFromDiff (renderNamed [sampleMove] none) = ["net/a.c".toList] ∧
    (parseTwoSidedDiff asciiDigit (renderNamed [sampleMove] none)).postToPre "mm/b.c".toList =
      some "net/a.c".toList ∧
    ¬AttributesAll asciiDigit [sampleMove] none := by
  have hfiles : extractFilesFromDiff (renderNamed [sampleMove] none) = ["net/a.c".toList] := by
    decide
  refine ⟨hfiles, by decide, fun h => ?_⟩
  have hmem := h.touched "mm/b.c".toList ⟨sampleMove, List.mem_cons_self, .inr rfl⟩
  rw [hfiles] at hmem
  exact absurd (List.mem_singleton.mp hmem) (by decide)

end Sashiko
