import Sashiko.Diff.Covered
import Sashiko.Diff.Location
import Sashiko.Diff.RoundTrip
import Sashiko.Diff.Spans

/-! Where `resolve_single_location_two_sided` places a location. -/

namespace Sashiko

/-! ### What a route can return -/

/-- The location is the span, on the side. -/
structure SpanOf (scene : Scene) (span : ℕ × ℕ) (side : Side) (inDiff : Bool)
    (loc : ResolvedLocation) : Prop where
  file : loc.file = scene.normFile
  line : loc.line = span.1 + 1
  endLine : loc.endLine = span.2 + 1
  lineRange : loc.lineRange = lineRangeText (span.1 + 1) (span.2 + 1)
  side : loc.side = side
  inDiff : loc.inDiff = inDiff

inductive FoundIn (scene : Scene) (loc : ResolvedLocation) : Prop
  | post (lines : List Chars) (span : ℕ × ℕ) (hlines : scene.postLines = some lines)
      (hspan : Within lines.length span)
      (hloc : SpanOf scene span .revision (overlaps scene.postDiff span.1 span.2) loc)
  | parent (lines : List Chars) (span : ℕ × ℕ) (hlines : scene.parentLines = some lines)
      (hspan : Within lines.length span)
      (hloc : SpanOf scene span .parent (overlaps scene.preDiff span.1 span.2) loc)
  | deleted (lines : DeletedLines) (span : ℕ × ℕ) (hlines : scene.delLines = some lines)
      (hspan : AllDeleted lines span) (hloc : SpanOf scene span .parent true loc)

theorem spanOf_makeLocation (scene : Scene) (span : ℕ × ℕ) (firstText lastText : Chars)
    (inDiff : Bool) (side : Side) (snippet : Option Chars) :
    SpanOf scene span side inDiff
      (makeLocation scene.normFile span.1 span.2 firstText lastText inDiff side snippet) :=
  ⟨rfl, rfl, rfl, rfl, rfl, rfl⟩

theorem yields_makeResolvedLineLocation (scene : Scene) (side : Side) {lines : List Chars}
    (ranges : Option (List (ℕ × ℕ))) {span : ℕ × ℕ} (h : Within lines.length span) :
    Yields (makeResolvedLineLocation side scene.normFile lines ranges span)
      (SpanOf scene span side (overlaps ranges span.1 span.2)) := by
  refine (yields_itemAt (h.1.trans_lt h.2)).bind fun firstText _ => ?_
  refine (yields_itemAt h.2).bind fun lastText _ => ?_
  exact yields_ok (spanOf_makeLocation scene span firstText lastText _ side none)

/-- Both finders look within the lines they are given. -/
structure Finder.Sound (finder : Finder) : Prop where
  inLines : ∀ lines snippet hintLine ranges symbolLine,
    Yields (finder.inLines lines snippet hintLine ranges symbolLine)
      fun r => ∀ span ∈ r, Within lines.length span
  inDeleted : ∀ deleted snippet hintLine, Yields (finder.inDeleted deleted snippet hintLine)
    fun r => ∀ span ∈ r, AllDeleted deleted span

theorem sound_exactFinder : exactFinder.Sound :=
  ⟨yields_findSnippetInLinesExact, yields_findSnippetInDeletedLinesExact⟩

theorem sound_fallbackFinder : fallbackFinder.Sound :=
  ⟨yields_findSnippetInLinesFallback, yields_findSnippetInDeletedLinesFallback⟩

section Routes

variable (scene : Scene) {finder : Finder} (snippet : Chars)

theorem yields_resolveInDeletedLines (hf : finder.Sound) :
    Yields (scene.resolveInDeletedLines finder snippet) fun r => ∀ loc ∈ r, FoundIn scene loc := by
  unfold Scene.resolveInDeletedLines
  cases hlines : scene.delLines with
  | none => exact yields_ok nofun
  | some deleted =>
    refine (hf.inDeleted deleted snippet scene.hintLine).map fun r hr loc hloc => ?_
    obtain ⟨span, hspan, rfl⟩ := Option.map_eq_some_iff.mp hloc
    exact .deleted deleted span hlines (hr span hspan) (spanOf_makeLocation ..)

theorem yields_resolveInLines (hf : finder.Sound) (side : Side) {lines : Option (List Chars)}
    {ranges : Option (List (ℕ × ℕ))}
    (hfound : ∀ ls span loc, lines = some ls → Within ls.length span →
      SpanOf scene span side (overlaps ranges span.1 span.2) loc → FoundIn scene loc) :
    Yields (scene.resolveInLines finder snippet side lines ranges)
      fun r => ∀ loc ∈ r, FoundIn scene loc := by
  unfold Scene.resolveInLines
  cases lines with
  | none => exact yields_ok nofun
  | some ls =>
    refine (hf.inLines ls snippet scene.hintLine ranges _).bind fun r hr => ?_
    cases r with
    | none => exact yields_ok nofun
    | some span =>
      refine (yields_makeResolvedLineLocation scene side ranges (hr span rfl)).map ?_
      intro loc hloc loc' hloc'
      obtain rfl := Option.some.inj hloc'
      exact hfound ls span _ rfl (hr span rfl) hloc

theorem yields_tryResolve (hf : finder.Sound) (preferParent : Bool) :
    Yields (scene.tryResolve finder snippet preferParent)
      fun r => ∀ loc ∈ r, FoundIn scene loc := by
  have hdeleted := yields_resolveInDeletedLines scene snippet hf
  have hparent : Yields (scene.resolveInParentLines finder snippet)
      fun r => ∀ loc ∈ r, FoundIn scene loc :=
    yields_resolveInLines scene snippet hf .parent
      fun ls span _ hls hspan hloc => .parent ls span hls hspan hloc
  have hpost : Yields (scene.resolveInPostLines finder snippet)
      fun r => ∀ loc ∈ r, FoundIn scene loc :=
    yields_resolveInLines scene snippet hf .revision
      fun ls span _ hls hspan hloc => .post ls span hls hspan hloc
  unfold Scene.tryResolve
  by_cases hempty : snippet.isEmpty = true
  · rw [if_pos hempty]
    exact yields_ok nofun
  rw [if_neg hempty]
  cases preferParent with
  | true => exact hdeleted.orTry (hparent.orTry hpost)
  | false =>
    refine hpost.bind fun r hr => ?_
    cases r with
    | none => exact hdeleted.orTry hparent
    | some loc =>
      dsimp only
      split_ifs
      · exact yields_ok hr
      · exact hdeleted.orTry (yields_ok hr)

theorem FoundIn.withSnippet {scene : Scene} {loc : ResolvedLocation} (h : FoundIn scene loc)
    (codeSnippet : Option Chars) : FoundIn scene { loc with codeSnippet := codeSnippet } := by
  cases h with
  | post ls span hlines hspan hloc => exact .post ls span hlines hspan { hloc with }
  | parent ls span hlines hspan hloc => exact .parent ls span hlines hspan { hloc with }
  | deleted ls span hlines hspan hloc => exact .deleted ls span hlines hspan { hloc with }

theorem yields_resolveCandidates (hf : finder.Sound) (cands : List SnippetCandidate) :
    Yields (scene.resolveCandidates finder cands) fun r => ∀ loc ∈ r, FoundIn scene loc := by
  induction cands with
  | nil => exact yields_ok nofun
  | cons cand cands ih =>
    refine (yields_tryResolve scene cand.matchText hf cand.preferParent).bind fun r hr => ?_
    cases r with
    | none => exact ih
    | some loc =>
      refine yields_ok fun loc' hloc' => ?_
      obtain rfl := Option.some.inj hloc'
      exact (hr loc rfl).withSnippet _

theorem lt_of_symbolIndex {lines : List Chars} {sym : Chars} {i : ℕ}
    (h : symbolIndex lines sym = some i) : i < lines.length := by
  unfold symbolIndex at h
  split_ifs at h
  exact (List.findIdx?_eq_some_iff_findIdx_eq.mp h).1

theorem lt_of_fallbackIndex {lines : List Chars} (hne : ¬lines.isEmpty = true) {i : ℕ}
    (h : scene.fallbackIndex lines = some i) : i < lines.length := by
  rcases Option.or_eq_some_iff.mp h with h | ⟨-, h⟩
  · obtain ⟨l, hl, rfl⟩ := Option.map_eq_some_iff.mp h
    have hle := (Option.filter_eq_some_iff.mp hl).2
    rw [decide_eq_true_eq] at hle
    have hpos : 0 < lines.length := by
      rw [List.length_pos_iff]
      exact fun hnil => hne (by rw [hnil]; rfl)
    omega
  · exact lt_of_symbolIndex h

theorem yields_resolveByHint (side : Side) {lines : Option (List Chars)}
    {ranges : Option (List (ℕ × ℕ))} (noSnippet : Bool)
    (hfound : ∀ ls span loc, lines = some ls → Within ls.length span →
      SpanOf scene span side (overlaps ranges span.1 span.2) loc → FoundIn scene loc) :
    Yields (scene.resolveByHint side lines ranges noSnippet)
      fun r => ∀ loc ∈ r, FoundIn scene loc := by
  unfold Scene.resolveByHint
  cases lines with
  | none => exact yields_ok nofun
  | some ls =>
    by_cases hempty : ls.isEmpty = true
    · simp only [if_pos hempty]
      exact yields_ok nofun
    simp only [if_neg hempty]
    cases hi : scene.fallbackIndex ls with
    | none => exact yields_ok nofun
    | some i =>
      have hlt := lt_of_fallbackIndex scene hempty hi
      refine (yields_itemAt hlt).bind fun firstText _ => ?_
      refine (yields_itemAt hlt).bind fun lastText _ => ?_
      have hsnippet : Yields (snippetOut ls i i noSnippet) fun _ => True := by
        unfold snippetOut
        split_ifs
        · exact (yields_sliceAt (Nat.le_succ i) hlt).map fun _ _ => trivial
        · exact yields_ok trivial
      refine hsnippet.bind fun snippet _ => yields_ok ?_
      intro loc hloc
      obtain rfl := Option.some.inj hloc
      exact hfound ls (i, i) _ rfl ⟨le_rfl, hlt⟩ (spanOf_makeLocation scene (i, i) _ _ _ side _)

end Routes

theorem yields_resolve (scene : Scene) (rawSnippet : Chars) (parentHint : Bool) :
    Yields (scene.resolve rawSnippet parentHint) fun r => ∀ loc ∈ r, FoundIn scene loc := by
  have hsnippet : Yields (scene.resolveBySnippet rawSnippet parentHint)
      fun r => ∀ loc ∈ r, FoundIn scene loc := by
    unfold Scene.resolveBySnippet
    split_ifs
    · exact yields_ok nofun
    · exact (yields_resolveCandidates scene sound_exactFinder _).orTry
        (yields_resolveCandidates scene sound_fallbackFinder _)
  refine hsnippet.orTry ?_
  split_ifs
  · exact yields_resolveByHint scene .parent _
      fun ls span _ hls hspan hloc => .parent ls span hls hspan hloc
  · exact yields_resolveByHint scene .revision _
      fun ls span _ hls hspan hloc => .post ls span hls hspan hloc

/-! ### Lines of the file that is named -/

/-- The changed ranges of the side, for a file as the revision names it. -/
def ParsedDiff.sideRanges (d : ParsedDiff) (file : Chars) : Side → Option (List (ℕ × ℕ))
  | .revision => d.postRanges file
  | .parent => d.preRanges (d.parentFile file)

structure WellPlaced (tree : Worktree) (revision : Option Chars) (d : ParsedDiff)
    (loc : ResolvedLocation) : Prop where
  first : 1 ≤ loc.line
  ordered : loc.line ≤ loc.endLine
  lineRange : loc.lineRange = lineRangeText loc.line loc.endLine
  onRevision : loc.side = .revision → ∃ content,
    tree.readFileContent revision loc.file = some content ∧
      loc.endLine ≤ (linesOf content).length
  onParent : loc.side = .parent →
    (∃ parent content, parentRevision revision = some parent ∧
      tree.readFileContent (some parent) (d.parentFile loc.file) = some content ∧
        loc.endLine ≤ (linesOf content).length) ∨
    ∃ deleted, d.deletedLines (d.parentFile loc.file) = some deleted ∧
      AllDeleted deleted (loc.line - 1, loc.endLine - 1)
  inDiff : loc.inDiff =
    overlaps (d.sideRanges loc.file loc.side) (loc.line - 1) (loc.endLine - 1)

/-- The file keeps its name, and no other file takes a name under which it was changed. -/
structure KeepsName (d : ParsedDiff) (file : Chars) : Prop where
  post : d.postFile file = file
  parent : d.parentFile file = file ∨ d.preRanges file = none

theorem or_self_eq {α : Type} (o : Option α) : o.or o = o := by cases o <;> rfl

section Named

variable {tree : Worktree} {revision : Option Chars} {d : ParsedDiff} {file : Chars}
  {hintLine : Option ℕ} {sym : Chars}

theorem KeepsName.pre_eq (h : KeepsName d file) (hd : Covered d) :
    (d.preRanges file).or (d.preRanges (d.parentFile file)) = d.preRanges (d.parentFile file) ∧
      (d.deletedLines file).or (d.deletedLines (d.parentFile file)) =
        d.deletedLines (d.parentFile file) := by
  rcases h.parent with hsame | hnone
  · rw [hsame, or_self_eq, or_self_eq]
    exact ⟨rfl, rfl⟩
  · have hdeleted : d.deletedLines file = none := by
      cases hlines : d.deletedLines file with
      | none => rfl
      | some lines =>
        obtain ⟨ranges, hranges, -⟩ := hd file lines hlines
        rw [hnone] at hranges
        cases hranges
    rw [hnone, hdeleted]
    exact ⟨rfl, rfl⟩

theorem overlaps_of_allDeleted (hd : Covered d) {deleted : DeletedLines}
    (hlines : d.deletedLines file = some deleted) {span : ℕ × ℕ} (h : AllDeleted deleted span) :
    overlaps (d.preRanges file) span.1 span.2 = true := by
  obtain ⟨ranges, hranges, hheld⟩ := hd file deleted hlines
  obtain ⟨text, htext⟩ := h.2 span.1 le_rfl h.1
  obtain ⟨r, hr, hlo, hhi⟩ := hheld _ htext
  have hle := h.1
  rw [hranges, overlaps, Option.any_some, List.any_eq_true]
  refine ⟨r, hr, ?_⟩
  rw [Bool.and_eq_true, decide_eq_true_eq, decide_eq_true_eq]
  dsimp only at hlo hhi
  omega

theorem wellPlaced_of_found (h : KeepsName d file) (hd : Covered d) {loc : ResolvedLocation}
    (hfound : FoundIn (sceneOf tree revision d file hintLine sym) loc) :
    WellPlaced tree revision d loc := by
  obtain ⟨hpre, hdel⟩ := h.pre_eq hd
  cases hfound with
  | post lines span hlines hspan hloc =>
    obtain ⟨hfile, hline, hend, hrange, hside, hin⟩ := hloc
    change loc.file = file at hfile
    change (tree.readFileContent revision (d.postFile file)).map linesOf = some lines at hlines
    obtain ⟨content, hcontent, rfl⟩ := Option.map_eq_some_iff.mp hlines
    rw [h.post] at hcontent
    have hpost : (d.postRanges file).or (d.postRanges (d.postFile file)) = d.postRanges file := by
      rw [h.post, or_self_eq]
    obtain ⟨hle, hlt⟩ := hspan
    refine ⟨by omega, by omega, by rw [hline, hend]; exact hrange, fun _ => ?_, ?_, ?_⟩
    · exact ⟨content, hfile ▸ hcontent, by omega⟩
    · exact fun hparent => absurd (hside.symm.trans hparent) nofun
    · rw [hin, hline, hend, hside, hfile]
      exact congrArg (overlaps · span.1 span.2) hpost
  | parent lines span hlines hspan hloc =>
    obtain ⟨hfile, hline, hend, hrange, hside, hin⟩ := hloc
    change loc.file = file at hfile
    obtain ⟨parent, hparent, hread⟩ := Option.bind_eq_some_iff.mp hlines
    obtain ⟨content, hcontent, rfl⟩ := Option.map_eq_some_iff.mp hread
    obtain ⟨hle, hlt⟩ := hspan
    refine ⟨by omega, by omega, by rw [hline, hend]; exact hrange, ?_, fun _ => .inl ?_, ?_⟩
    · exact fun hrevision => absurd (hside.symm.trans hrevision) nofun
    · exact ⟨parent, content, hparent, hfile ▸ hcontent, by omega⟩
    · rw [hin, hline, hend, hside, hfile]
      exact congrArg (overlaps · span.1 span.2) hpre
  | deleted lines span hlines hspan hloc =>
    obtain ⟨hfile, hline, hend, hrange, hside, hin⟩ := hloc
    change loc.file = file at hfile
    have hlines' : d.deletedLines (d.parentFile file) = some lines := hdel.symm.trans hlines
    have hle := hspan.1
    refine ⟨by omega, by omega, by rw [hline, hend]; exact hrange, ?_, fun _ => .inr ?_, ?_⟩
    · exact fun hrevision => absurd (hside.symm.trans hrevision) nofun
    · rw [hfile, hline, hend]
      exact ⟨lines, hlines', hspan⟩
    · rw [hin, hline, hend, hside, hfile]
      exact (overlaps_of_allDeleted hd hlines' hspan).symm

end Named

/-! ### Every location of a file -/

/-- Whatever the files hold and the location says, the location of this file is well placed. -/
def AlwaysWellPlaced (fileExists : Option Chars → Chars → Bool) (revision : Option Chars)
    (d : ParsedDiff) (rawFile : String) : Prop :=
  ∀ (read : Option Chars → Chars → Option Chars) (location : Json),
    location.getStr "file" = some rawFile →
      Yields (resolveSingleLocationTwoSided ⟨fileExists, read⟩ revision d location)
        fun r => ∀ loc ∈ r, WellPlaced ⟨fileExists, read⟩ revision d loc

/-- The first line of the file, by its number. -/
def firstLine (rawFile : String) : Json := .obj [("file", .str rawFile), ("line", .int 1)]

theorem resolve_eq_scene {tree : Worktree} {revision : Option Chars} {rawFile : String}
    {file : Chars} (hfile : normFileOf (tree.fileExists revision) rawFile.toList = some file)
    (d : ParsedDiff) {location : Json} (hraw : location.getStr "file" = some rawFile) :
    resolveSingleLocationTwoSided tree revision d location =
      (sceneOf tree revision d file (hintLineOf location)
        (trimmedField location "function_or_symbol")).resolve
          (trimmedField location "code_snippet") (isParentHint location) := by
  rw [resolveSingleLocationTwoSided, hraw, Option.bind_some, hfile]

theorem alwaysWellPlaced_of_keepsName {fileExists : Option Chars → Chars → Bool}
    {revision : Option Chars} {d : ParsedDiff} {rawFile : String} {file : Chars}
    (hfile : normFileOf (fileExists revision) rawFile.toList = some file) (hd : Covered d)
    (h : KeepsName d file) : AlwaysWellPlaced fileExists revision d rawFile := by
  intro read location hraw
  rw [resolve_eq_scene hfile d hraw]
  exact (yields_resolve _ _ _).mono fun r hr loc hloc => wellPlaced_of_found h hd (hr loc hloc)

theorem firstLine_fields (rawFile : String) :
    (firstLine rawFile).getStr "file" = some rawFile ∧ hintLineOf (firstLine rawFile) = some 1 ∧
      trimmedField (firstLine rawFile) "code_snippet" = [] ∧
        isParentHint (firstLine rawFile) = false :=
  ⟨rfl, rfl, rfl, rfl⟩

/-- A location by its number alone, in a file that is one line. -/
theorem resolve_hint {scene : Scene} {text : Chars} (hhint : scene.hintLine = some 1)
    (hlines : scene.postLines = some [text]) : ∃ loc : ResolvedLocation,
      scene.resolve [] false = .ok (some loc) ∧ loc.file = scene.normFile ∧
        loc.side = .revision := by
  have hindex : scene.fallbackIndex [text] = some 0 := by
    rw [Scene.fallbackIndex, hhint]
    rfl
  refine ⟨makeLocation scene.normFile 0 0 text text (overlaps scene.postDiff 0 0) .revision
    (some (joinLines [text])), ?_, rfl, rfl⟩
  have hby : scene.resolveByHint .revision (some [text]) scene.postDiff true =
      .ok (some (makeLocation scene.normFile 0 0 text text (overlaps scene.postDiff 0 0) .revision
        (some (joinLines [text])))) := by
    simp only [Scene.resolveByHint, hindex]
    rfl
  unfold Scene.resolve Scene.resolveBySnippet
  rw [hlines]
  exact hby

/-- A repository with one file of one line. -/
def onlyFile (revision : Option Chars) (path : Chars) : Option Chars → Chars → Option Chars :=
  fun rev p => if rev = revision ∧ p = path then some ['x'] else none

theorem onlyFile_self (revision : Option Chars) (path : Chars) :
    onlyFile revision path revision path = some ['x'] :=
  if_pos ⟨rfl, rfl⟩

/-- Only the file of the new name can be read: the line is its line, and the name is the old. -/
theorem keepsPost_of_alwaysWellPlaced {fileExists : Option Chars → Chars → Bool}
    {revision : Option Chars} {d : ParsedDiff} {rawFile : String} {file : Chars}
    (hfile : normFileOf (fileExists revision) rawFile.toList = some file)
    (h : AlwaysWellPlaced fileExists revision d rawFile) : d.postFile file = file := by
  by_contra hmoved
  obtain ⟨hraw, hhint, hsnippet, hparent⟩ := firstLine_fields rawFile
  obtain ⟨r, hr, hplaced⟩ := h (onlyFile revision (d.postFile file)) (firstLine rawFile) hraw
  rw [resolve_eq_scene hfile d hraw, hhint, hsnippet, hparent] at hr
  have hlines : (sceneOf ⟨fileExists, onlyFile revision (d.postFile file)⟩ revision d file (some 1)
      (trimmedField (firstLine rawFile) "function_or_symbol")).postLines = some [['x']] :=
    congrArg (Option.map linesOf) (onlyFile_self revision (d.postFile file))
  obtain ⟨loc, hloc, hname, hside⟩ := resolve_hint rfl hlines
  rw [hloc] at hr
  cases hr
  obtain ⟨content, hcontent, -⟩ := (hplaced loc rfl).onRevision hside
  rw [hname] at hcontent
  have hnone : onlyFile revision (d.postFile file) revision file = none :=
    if_neg fun hsame => hmoved hsame.2.symm
  exact absurd (hcontent.symm.trans hnone) nofun

/-- For every diff: the locations of a file are well placed when the file keeps its name, and no
longer when the diff gives it another. Never is a line out of bounds. -/
theorem resolve_wellPlaced (digit : RegexDigit) (diff : String)
    (fileExists : Option Chars → Chars → Bool) (revision : Option Chars) (rawFile : String)
    (file : Chars) (hfile : normFileOf (fileExists revision) rawFile.toList = some file) :
    (KeepsName (parseTwoSidedDiff digit diff) file →
      AlwaysWellPlaced fileExists revision (parseTwoSidedDiff digit diff) rawFile) ∧
    (AlwaysWellPlaced fileExists revision (parseTwoSidedDiff digit diff) rawFile →
      (parseTwoSidedDiff digit diff).postFile file = file) ∧
    ∀ (read : Option Chars → Chars → Option Chars) (location : Json),
      location.getStr "file" = some rawFile →
        Yields (resolveSingleLocationTwoSided ⟨fileExists, read⟩ revision
          (parseTwoSidedDiff digit diff) location) fun _ => True := by
  refine ⟨alwaysWellPlaced_of_keepsName hfile (covered_parseTwoSidedDiff digit diff),
    keepsPost_of_alwaysWellPlaced hfile, fun read location hraw => ?_⟩
  rw [resolve_eq_scene hfile _ hraw]
  exact (yields_resolve _ _ _).mono fun _ _ => trivial

/-- A rename without edits. -/
def renameDiff : String := "diff --git a/o.c b/n.c\nrename from o.c\nrename to n.c\n"

theorem resolve_wellPlaced_newName :
    (KeepsName (parseTwoSidedDiff asciiDigit renameDiff) "n.c".toList →
      AlwaysWellPlaced (fun _ _ => true) none (parseTwoSidedDiff asciiDigit renameDiff) "n.c") ∧
    (AlwaysWellPlaced (fun _ _ => true) none (parseTwoSidedDiff asciiDigit renameDiff) "n.c" →
      (parseTwoSidedDiff asciiDigit renameDiff).postFile "n.c".toList = "n.c".toList) ∧
    ∀ (read : Option Chars → Chars → Option Chars) (location : Json),
      location.getStr "file" = some "n.c" →
        Yields (resolveSingleLocationTwoSided ⟨fun _ _ => true, read⟩ none
          (parseTwoSidedDiff asciiDigit renameDiff) location) fun _ => True :=
  resolve_wellPlaced asciiDigit renameDiff (fun _ _ => true) none "n.c" "n.c".toList
    (by decide)

/-- Named by its old name, the file is looked up by its new one, and placed under the old. -/
theorem oldName_misplaced :
    resolveSingleLocationTwoSided ⟨fun _ _ => true, onlyFile none "n.c".toList⟩ none
        (parseTwoSidedDiff asciiDigit renameDiff) (firstLine "o.c") =
      .ok (some
        { file := "o.c".toList, line := 1, endLine := 1, lineRange := ['1']
          startCharacter := some 0, endCharacter := some 1, inDiff := false, side := .revision
          codeSnippet := some ['x'] }) ∧
    onlyFile none "n.c".toList none "o.c".toList = none ∧
    ¬AlwaysWellPlaced (fun _ _ => true) none (parseTwoSidedDiff asciiDigit renameDiff) "o.c" := by
  have hfile : normFileOf (fun _ => true) "o.c".toList = some "o.c".toList := by decide
  refine ⟨by rfl, by decide, fun h => ?_⟩
  exact absurd (keepsPost_of_alwaysWellPlaced hfile h) (by decide)

end Sashiko
