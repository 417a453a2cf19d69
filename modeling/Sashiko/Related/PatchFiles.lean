import Sashiko.Diff.Trees
import Sashiko.Lib.Lines

/-! The files that a patch touches, split by whether they survive it. The lines of the diff are read
one by one, whether they are in a hunk or not. -/

namespace Sashiko

structure PatchFiles where
  surviving : List Chars
  deleted : List Chars

namespace PatchFiles

def empty : PatchFiles := ⟨[], []⟩

/-- What the file is filed under when the next one begins. -/
def finish (path : Option Chars) (isDeleted : Bool) (files : PatchFiles) : PatchFiles :=
  match path with
  | some path =>
    if isDeleted then { files with deleted := files.deleted.insert path }
    else { files with surviving := files.surviving.insert path }
  | none => files

end PatchFiles

/-- The name behind the last ` b/`. -/
def postPathOf (rest : Chars) : Option Chars :=
  (splitAtLast [' ', 'b', '/'] rest).map fun p => trimMatches (· = '"') (trimChars p.2)

def deletedFileMode : Chars := "deleted file mode".toList

def removedSide : Chars := "+++ /dev/null".toList

def tellsDeletion (line : Chars) : Bool :=
  deletedFileMode.isPrefixOf line || trimEnd line = removedSide

structure PatchScan where
  files : PatchFiles
  current : Option Chars
  currentDeleted : Bool

namespace PatchScan

def init : PatchScan := ⟨.empty, none, false⟩

def close (s : PatchScan) : PatchFiles := s.files.finish s.current s.currentDeleted

def step (s : PatchScan) (line : Chars) : PatchScan :=
  match stripChars? diffGit line with
  | some rest => ⟨s.close, postPathOf rest, false⟩
  | none => if tellsDeletion line then { s with currentDeleted := true } else s

end PatchScan

def PatchFiles.fromDiff (diff : String) : PatchFiles :=
  ((linesOf diff.toList).foldl PatchScan.step .init).close

/-! ### What is read of one file -/

/-- The line of a hunk reads as if the file had no new side. -/
def BodyLine.readsRemoval (line : BodyLine) : Bool :=
  trimEnd (line.kind.mark :: line.text) = removedSide

namespace TreeChange

/-- A line of the file's hunks reads as if the file were deleted. -/
def HidesRemoval (c : TreeChange) : Prop :=
  ∃ hunk ∈ c.hunks, ∃ line ∈ hunk.body, line.readsRemoval = true

def readPath (c : TreeChange) : Option Chars :=
  postPathOf (gitNames c.names.old.chars c.names.new.chars)

def readDeleted (c : TreeChange) : Bool := (c.innerLines.map dropReturn).any tellsDeletion

end TreeChange

/-- A name that has white space neither before nor behind it, and no ` b/` in it. -/
def IsPlainName (path : Chars) : Prop := ¬[' ', 'b', '/'] <:+: path ∧ trimChars path = path

/-- The deleted files are listed as such, and the others by their names behind the change. -/
structure ListsFiles (changes : List TreeChange) (files : PatchFiles) : Prop where
  deleted : ∀ p, p ∈ files.deleted ↔
    ∃ c ∈ changes, c.names.post = none ∧ c.names.old.chars = p
  surviving : ∀ p, p ∈ files.surviving ↔
    ∃ c ∈ changes, ∃ path, c.names.post = some path ∧ path.chars = p

/-- No path is touched twice. -/
def TouchesOnce (changes : List TreeChange) : Prop := (changes.map (·.names.new.chars)).Nodup

/-- Every name is read as it stands, and a file that only seems deleted is deleted elsewhere in the
diff as well as kept elsewhere in it. -/
structure ReadsFiles (changes : List TreeChange) : Prop where
  plain : ∀ c ∈ changes, IsPlainName c.names.new.chars
  hidden : ∀ c ∈ changes, c.names.isDeletion = false → c.HidesRemoval →
    (∃ d ∈ changes, d.names.isDeletion = true ∧ d.names.new.chars = c.names.new.chars) ∧
      ∃ k ∈ changes, k.names.isDeletion = false ∧ ¬k.HidesRemoval ∧
        k.names.new.chars = c.names.new.chars

/-! ### The last ` b/` -/

theorem not_infix_of_splitAtFirst {pat cs before rest : Chars} (hpat : pat ≠ [])
    (h : splitAtFirst pat cs = some (before, rest)) : cs = before ++ rest ∧ ¬pat <:+: before := by
  induction cs generalizing before with
  | nil => cases h
  | cons c cs ih =>
    rw [splitAtFirst] at h
    split at h
    · cases h
      exact ⟨rfl, fun hin => hpat (List.infix_nil.mp hin)⟩
    · next hmiss =>
      obtain ⟨⟨front, back⟩, hsplit, heq⟩ := Option.map_eq_some_iff.mp h
      cases heq
      obtain ⟨rfl, hnot⟩ := ih hsplit
      refine ⟨rfl, fun hin => ?_⟩
      rcases List.infix_cons_iff.mp hin with hpre | hin
      · exact hmiss (List.isPrefixOf_iff_prefix.mpr (hpre.trans (List.prefix_append _ _)))
      · exact hnot hin

theorem not_infix_of_splitAtLast {pat cs before after : Chars} (hpat : pat ≠ [])
    (h : splitAtLast pat cs = some (before, after)) : after ⊆ cs ∧ ¬pat <:+: after := by
  obtain ⟨⟨front, back⟩, hsplit, heq⟩ := Option.map_eq_some_iff.mp h
  cases heq
  obtain ⟨hcs, hnot⟩ := not_infix_of_splitAtFirst (by simpa using hpat) hsplit
  constructor
  · intro c hc
    have hmem : c ∈ cs.reverse := by
      rw [hcs]
      exact List.mem_append_left _ (List.mem_reverse.mp hc)
    exact List.mem_reverse.mp hmem
  · intro hin
    exact hnot (by simpa using List.reverse_infix.mpr hin)

theorem quote_not_mem_gitNames (old new : GitPath) : '"' ∉ gitNames old.chars new.chars := by
  have hold := (not_mem_of_unquoted old.unquoted).1
  have hnew := (not_mem_of_unquoted new.unquoted).1
  simp [gitNames, hold, hnew]

theorem readPath_of_isPlainName {c : TreeChange} (h : IsPlainName c.names.new.chars) :
    c.readPath = some c.names.new.chars := by
  have hquote : ∀ x ∈ c.names.new.chars, decide (x = '"') = false := fun x hx => by
    simp only [decide_eq_false_iff_not]
    rintro rfl
    exact (not_mem_of_unquoted c.names.new.unquoted).1 hx
  rw [TreeChange.readPath, postPathOf, gitNames, splitAtLast_names h.1, Option.map_some]
  dsimp only
  rw [h.2, trimMatches_eq_self hquote]

/-- Whatever is read for a name is plain. -/
theorem isPlainName_of_readPath {c : TreeChange} {p : Chars} (h : c.readPath = some p) :
    IsPlainName p := by
  obtain ⟨⟨before, after⟩, hsplit, rfl⟩ := Option.map_eq_some_iff.mp h
  obtain ⟨hsubset, hnot⟩ := not_infix_of_splitAtLast (List.cons_ne_nil _ _) hsplit
  have htrimmed : trimChars after <:+: after :=
    (List.rdropWhile_prefix _ _).isInfix.trans (List.dropWhile_suffix _).isInfix
  have hquote : ∀ x ∈ trimChars after, decide (x = '"') = false := fun x hx => by
    simp only [decide_eq_false_iff_not]
    rintro rfl
    exact quote_not_mem_gitNames _ _ (hsubset (htrimmed.subset hx))
  dsimp only
  rw [trimMatches_eq_self hquote]
  exact ⟨fun hin => hnot (hin.trans htrimmed), trimChars_idempotent _⟩

/-! ### Lines that tell of a deletion -/

theorem tellsDeletion_iff {line : Chars} :
    tellsDeletion line = true ↔ deletedFileMode <+: line ∨ trimEnd line = removedSide := by
  rw [tellsDeletion, Bool.or_eq_true, List.isPrefixOf_iff_prefix, decide_eq_true_eq]

theorem tellsDeletion_dropReturn (line : Chars) :
    tellsDeletion (dropReturn line) = tellsDeletion line := by
  rw [Bool.eq_iff_iff, tellsDeletion_iff, tellsDeletion_iff, trimEnd_dropReturn]
  refine or_congr_left ⟨fun h => h.trans <| dropReturn_prefix line, ?_⟩
  rintro ⟨rest, rfl⟩
  rw [dropReturn_append (by decide)]
  exact List.prefix_append _ _

/-- A line that starts in another way tells nothing. -/
theorem tellsDeletion_eq_false {line : Chars} (hmode : line.take 2 ≠ ['d', 'e'])
    (hside : line.take 2 ≠ ['+', '+']) : tellsDeletion line = false := by
  rw [← Bool.not_eq_true, tellsDeletion_iff]
  rintro (⟨rest, rfl⟩ | htrim)
  · exact hmode rfl
  · obtain ⟨rest, hrest⟩ : removedSide <+: line := htrim ▸ List.rdropWhile_prefix _ _
    exact hside (by rw [← hrest]; rfl)

theorem tellsDeletion_extended (e : ExtendedHeader) :
    tellsDeletion (e.keyword ++ e.rest) = true ↔ e.keyword = deletedMode := by
  have hother : extendedKeywords.all (fun k => k = deletedMode ||
      (2 ≤ k.length && k.take 2 ≠ ['d', 'e'] && k.take 2 ≠ ['+', '+'])) = true := by decide
  have hkeyword := List.all_eq_true.mp hother e.keyword e.known
  simp only [Bool.or_eq_true, Bool.and_eq_true, decide_eq_true_eq] at hkeyword
  constructor
  · intro htells
    refine hkeyword.resolve_right fun ⟨⟨hlength, hmode⟩, hside⟩ => ?_
    have htake : (e.keyword ++ e.rest).take 2 = e.keyword.take 2 :=
      List.take_append_of_le_length hlength
    rw [tellsDeletion_eq_false (htake ▸ hmode) (htake ▸ hside)] at htells
    cases htells
  · intro heq
    refine tellsDeletion_iff.mpr (.inl ?_)
    rw [heq]
    exact ⟨' ' :: e.rest, rfl⟩

theorem tellsDeletion_postLine (names : ChangedNames) :
    tellsDeletion (fileLine '+' 'b' names.post) = names.isDeletion := by
  cases names with
  | deleted path => exact (by decide : tellsDeletion (fileLine '+' 'b' none) = true)
  | modified path | created path | renamed _ path _ =>
    change tellsDeletion (fileLine '+' 'b' (some path)) = false
    rw [← Bool.not_eq_true, tellsDeletion_iff]
    rintro (⟨rest, hrest⟩ | htrim)
    · cases (List.cons.inj hrest).1
    · obtain ⟨rest, hrest⟩ : removedSide <+: fileLine '+' 'b' (some path) :=
        htrim ▸ List.rdropWhile_prefix _ _
      have hfifth : (removedSide ++ rest)[4]? = some '/' := rfl
      rw [hrest] at hfifth
      cases hfifth

theorem tellsDeletion_bodyLine (line : BodyLine) :
    tellsDeletion (line.kind.mark :: line.text) = line.readsRemoval := by
  have hmark : deletedFileMode.isPrefixOf (line.kind.mark :: line.text) = false := by
    rw [← Bool.not_eq_true, List.isPrefixOf_iff_prefix]
    rintro ⟨rest, hrest⟩
    have hd : 'd' = line.kind.mark := (List.cons.inj hrest).1
    cases hkind : line.kind <;> rw [hkind] at hd <;> cases hd
  rw [tellsDeletion, hmark, Bool.false_or, BodyLine.readsRemoval]

theorem exists_readsRemoval {hunk : Hunk} {line : Chars} (h : line ∈ hunk.lines)
    (htells : tellsDeletion line = true) : ∃ l ∈ hunk.body, l.readsRemoval = true := by
  rcases List.mem_cons.mp h with rfl | h
  · have hnone : tellsDeletion (hunk.headerText ++ hunk.heading) = false :=
      tellsDeletion_eq_false nofun nofun
    rw [hnone] at htells
    cases htells
  · obtain ⟨l, hl, hline⟩ := List.mem_flatMap.mp h
    rcases List.mem_cons.mp hline with rfl | hmarker
    · exact ⟨l, hl, tellsDeletion_bodyLine l ▸ htells⟩
    · have hnone : tellsDeletion noNewlineMarker = false := by decide
      split_ifs at hmarker
      · rw [List.mem_singleton.mp hmarker, hnone] at htells
        cases htells
      · cases hmarker

/-- A file is taken to be deleted where it is, and where a line of its hunks reads as if it were. -/
theorem readDeleted_iff {c : TreeChange} :
    c.readDeleted = true ↔ c.names.isDeletion = true ∨ c.HidesRemoval := by
  have hany : c.readDeleted = c.innerLines.any tellsDeletion := by
    rw [TreeChange.readDeleted, List.any_map]
    congr 1
    exact funext tellsDeletion_dropReturn
  rw [hany, List.any_eq_true]
  constructor
  · rintro ⟨line, hline, htells⟩
    rcases mem_innerLines hline with ⟨e, he, rfl⟩ | ⟨text, -, rfl⟩ | rfl | rfl | ⟨hunk, hhunk, hmem⟩
    · exact .inl (c.declared.mp ⟨e, he, (tellsDeletion_extended e).mp htells⟩)
    · have hnone : tellsDeletion (binaryFiles ++ text) = false :=
        tellsDeletion_eq_false nofun nofun
      rw [hnone] at htells
      cases htells
    · have hnone : tellsDeletion (fileLine '-' 'a' c.names.pre) = false := by
        refine tellsDeletion_eq_false ?_ ?_ <;> cases c.names.pre <;> exact nofun
      rw [hnone] at htells
      cases htells
    · exact .inl (tellsDeletion_postLine c.names ▸ htells)
    · exact .inr ⟨hunk, hhunk, exists_readsRemoval hmem htells⟩
  · rintro (hdeletion | ⟨hunk, hhunk, l, hl, hreads⟩)
    · obtain ⟨e, he, hkeyword⟩ := c.declared.mpr hdeletion
      exact ⟨_, List.mem_append_left _ (List.mem_map_of_mem he),
        (tellsDeletion_extended e).mpr hkeyword⟩
    · have hedit : c.hunks.isEmpty = false := by
        rw [List.isEmpty_eq_false_iff]
        exact List.ne_nil_of_mem hhunk
      have hbody : l.kind.mark :: l.text ∈ hunk.lines :=
        List.mem_cons_of_mem _ (List.mem_flatMap.mpr ⟨l, hl, List.mem_cons_self⟩)
      refine ⟨_, List.mem_append_right _ (List.mem_append_right _ ?_),
        (tellsDeletion_bodyLine l).trans hreads⟩
      rw [TreeChange.editLines, hedit, if_neg Bool.false_ne_true]
      exact List.mem_cons_of_mem _ (List.mem_cons_of_mem _
        (List.mem_flatMap.mpr ⟨hunk, hhunk, hbody⟩))

/-! ### The whole diff -/

namespace PatchScan

theorem foldl_step_quiet {lines : List Chars}
    (h : ∀ line ∈ lines, stripChars? diffGit line = none) (s : PatchScan) :
    lines.foldl step s =
      { s with currentDeleted := s.currentDeleted || lines.any tellsDeletion } := by
  induction lines generalizing s with
  | nil => simp
  | cons line lines ih =>
    have hstep : s.step line = { s with currentDeleted := s.currentDeleted || tellsDeletion line } := by
      rw [step, h line List.mem_cons_self]
      cases htells : tellsDeletion line <;> simp
    rw [List.foldl_cons, hstep, ih fun l hl => h l (List.mem_cons_of_mem _ hl), List.any_cons,
      Bool.or_assoc]

/-- A file is read as a whole: its name from the first line, and its fate from the others. -/
theorem foldl_step_change (c : TreeChange) (s : PatchScan) :
    (c.lines.map dropReturn).foldl step s = ⟨s.close, c.readPath, c.readDeleted⟩ := by
  have hreturn : dropReturn c.gitLine = c.gitLine :=
    dropReturn_of_not_mem (control_not_mem_gitNames _ _ (by decide))
  have hfirst : s.step c.gitLine = ⟨s.close, c.readPath, false⟩ := by
    rw [step, TreeChange.gitLine, stripChars?_append]
    rfl
  have hinner : ∀ line ∈ c.innerLines.map dropReturn, stripChars? diffGit line = none := by
    intro line hline
    obtain ⟨raw, hraw, rfl⟩ := List.mem_map.mp hline
    exact stripChars?_innerLine hraw
  rw [TreeChange.lines, List.map_cons, List.foldl_cons, hreturn, hfirst, foldl_step_quiet hinner,
    TreeChange.readDeleted, Bool.false_or]

theorem close_foldl_step (changes : List TreeChange) (s : PatchScan) :
    (((treeLines changes).map dropReturn).foldl step s).close =
      changes.foldl (fun files c => files.finish c.readPath c.readDeleted) s.close := by
  induction changes generalizing s with
  | nil => rfl
  | cons c changes ih =>
    have hlines : treeLines (c :: changes) = c.lines ++ treeLines changes := rfl
    rw [hlines, List.map_append, List.foldl_append, foldl_step_change, ih, List.foldl_cons]
    rfl

end PatchScan

theorem mem_deleted_finish {files : PatchFiles} {path : Option Chars} {isDeleted : Bool}
    {p : Chars} : p ∈ (files.finish path isDeleted).deleted ↔
      p ∈ files.deleted ∨ (path = some p ∧ isDeleted = true) := by
  cases path with
  | none => simp [PatchFiles.finish]
  | some path =>
    cases isDeleted
    · simp [PatchFiles.finish]
    · simp [PatchFiles.finish, or_comm, eq_comm]

theorem mem_surviving_finish {files : PatchFiles} {path : Option Chars} {isDeleted : Bool}
    {p : Chars} : p ∈ (files.finish path isDeleted).surviving ↔
      p ∈ files.surviving ∨ (path = some p ∧ isDeleted = false) := by
  cases path with
  | none => simp [PatchFiles.finish]
  | some path =>
    cases isDeleted
    · simp [PatchFiles.finish, or_comm, eq_comm]
    · simp [PatchFiles.finish]

theorem fromDiff_renderTree (changes : List TreeChange) :
    PatchFiles.fromDiff (renderTree changes) =
      changes.foldl (fun files c => files.finish c.readPath c.readDeleted) .empty := by
  rw [PatchFiles.fromDiff, linesOf_renderTree, PatchScan.close_foldl_step]
  rfl

theorem mem_foldl_finish (changes : List TreeChange) (files : PatchFiles) (p : Chars) :
    (p ∈ (changes.foldl (fun files c => files.finish c.readPath c.readDeleted) files).deleted ↔
      p ∈ files.deleted ∨ ∃ c ∈ changes, c.readPath = some p ∧ c.readDeleted = true) ∧
    (p ∈ (changes.foldl (fun files c => files.finish c.readPath c.readDeleted) files).surviving ↔
      p ∈ files.surviving ∨ ∃ c ∈ changes, c.readPath = some p ∧ c.readDeleted = false) := by
  induction changes generalizing files with
  | nil => simp
  | cons c changes ih =>
    obtain ⟨hdeleted, hsurviving⟩ := ih (files.finish c.readPath c.readDeleted)
    rw [List.foldl_cons, hdeleted, hsurviving, mem_deleted_finish, mem_surviving_finish,
      List.exists_mem_cons_iff, List.exists_mem_cons_iff, or_assoc, or_assoc]
    exact ⟨Iff.rfl, Iff.rfl⟩

theorem mem_deleted_fromDiff (changes : List TreeChange) (p : Chars) :
    p ∈ (PatchFiles.fromDiff (renderTree changes)).deleted ↔
      ∃ c ∈ changes, c.readPath = some p ∧ c.readDeleted = true := by
  rw [fromDiff_renderTree, (mem_foldl_finish changes .empty p).1]
  exact or_iff_right List.not_mem_nil

theorem mem_surviving_fromDiff (changes : List TreeChange) (p : Chars) :
    p ∈ (PatchFiles.fromDiff (renderTree changes)).surviving ↔
      ∃ c ∈ changes, c.readPath = some p ∧ c.readDeleted = false := by
  rw [fromDiff_renderTree, (mem_foldl_finish changes .empty p).2]
  exact or_iff_right List.not_mem_nil

/-! ### When the files are listed as they are -/

theorem post_eq_none_iff (names : ChangedNames) (p : Chars) :
    (names.post = none ∧ names.old.chars = p) ↔
      (names.isDeletion = true ∧ names.new.chars = p) := by
  cases names <;> simp [ChangedNames.post, ChangedNames.isDeletion, ChangedNames.old,
    ChangedNames.new]

theorem post_eq_some_iff (names : ChangedNames) (p : Chars) :
    (∃ path, names.post = some path ∧ path.chars = p) ↔
      (names.isDeletion = false ∧ names.new.chars = p) := by
  cases names <;> simp [ChangedNames.post, ChangedNames.isDeletion, ChangedNames.new]

theorem listsFiles_iff {changes : List TreeChange} {files : PatchFiles} :
    ListsFiles changes files ↔
      (∀ p, p ∈ files.deleted ↔
        ∃ c ∈ changes, c.names.isDeletion = true ∧ c.names.new.chars = p) ∧
      ∀ p, p ∈ files.surviving ↔
        ∃ c ∈ changes, c.names.isDeletion = false ∧ c.names.new.chars = p := by
  simp only [← post_eq_none_iff, ← post_eq_some_iff]
  exact ⟨fun h => ⟨h.deleted, h.surviving⟩, fun h => ⟨h.1, h.2⟩⟩

theorem readDeleted_eq_false_iff {c : TreeChange} :
    c.readDeleted = false ↔ c.names.isDeletion = false ∧ ¬c.HidesRemoval := by
  rw [← Bool.not_eq_true, readDeleted_iff, not_or, Bool.not_eq_true]

theorem readsFiles_of_listsFiles {changes : List TreeChange}
    (h : ListsFiles changes (.fromDiff (renderTree changes))) : ReadsFiles changes := by
  obtain ⟨hdeleted, hsurviving⟩ := listsFiles_iff.mp h
  have hplain : ∀ c ∈ changes, IsPlainName c.names.new.chars := by
    intro c hc
    cases hdeletion : c.names.isDeletion with
    | true =>
      have hmem := (hdeleted _).mpr ⟨c, hc, hdeletion, rfl⟩
      obtain ⟨c', -, hread, -⟩ := (mem_deleted_fromDiff changes _).mp hmem
      exact isPlainName_of_readPath hread
    | false =>
      have hmem := (hsurviving _).mpr ⟨c, hc, hdeletion, rfl⟩
      obtain ⟨c', -, hread, -⟩ := (mem_surviving_fromDiff changes _).mp hmem
      exact isPlainName_of_readPath hread
  refine ⟨hplain, fun c hc hkept hhides => ⟨?_, ?_⟩⟩
  · have hmem := (mem_deleted_fromDiff changes _).mpr
      ⟨c, hc, readPath_of_isPlainName (hplain c hc), readDeleted_iff.mpr (.inr hhides)⟩
    exact (hdeleted _).mp hmem
  · have hmem := (hsurviving _).mpr ⟨c, hc, hkept, rfl⟩
    obtain ⟨k, hk, hread, hreadKept⟩ := (mem_surviving_fromDiff changes _).mp hmem
    obtain ⟨hkept', hopen⟩ := readDeleted_eq_false_iff.mp hreadKept
    rw [readPath_of_isPlainName (hplain k hk)] at hread
    exact ⟨k, hk, hkept', hopen, Option.some.inj hread⟩

theorem listsFiles_of_readsFiles {changes : List TreeChange} (h : ReadsFiles changes) :
    ListsFiles changes (.fromDiff (renderTree changes)) := by
  refine listsFiles_iff.mpr ⟨fun p => ?_, fun p => ?_⟩
  · rw [mem_deleted_fromDiff]
    constructor
    · rintro ⟨c, hc, hread, hreadDeleted⟩
      rw [readPath_of_isPlainName (h.plain c hc)] at hread
      obtain rfl := Option.some.inj hread
      cases hdeletion : c.names.isDeletion with
      | true => exact ⟨c, hc, hdeletion, rfl⟩
      | false =>
        rw [readDeleted_iff, hdeletion, or_iff_right Bool.false_ne_true] at hreadDeleted
        exact (h.hidden c hc hdeletion hreadDeleted).1
    · rintro ⟨c, hc, hdeletion, rfl⟩
      exact ⟨c, hc, readPath_of_isPlainName (h.plain c hc), readDeleted_iff.mpr (.inl hdeletion)⟩
  · rw [mem_surviving_fromDiff]
    constructor
    · rintro ⟨c, hc, hread, hreadKept⟩
      rw [readPath_of_isPlainName (h.plain c hc)] at hread
      exact ⟨c, hc, (readDeleted_eq_false_iff.mp hreadKept).1, Option.some.inj hread⟩
    · rintro ⟨c, hc, hkept, rfl⟩
      by_cases hhides : c.HidesRemoval
      · obtain ⟨-, k, hk, hkept', hopen, hsame⟩ := h.hidden c hc hkept hhides
        refine ⟨k, hk, ?_, readDeleted_eq_false_iff.mpr ⟨hkept', hopen⟩⟩
        rw [readPath_of_isPlainName (h.plain k hk), hsame]
      · exact ⟨c, hc, readPath_of_isPlainName (h.plain c hc),
          readDeleted_eq_false_iff.mpr ⟨hkept, hhides⟩⟩

/-- The two lists are those of the diff, and have no path in common where none is touched twice, if
and only if every name is plain and no kept file hides a removal. -/
theorem listsFiles_fromDiff_iff (changes : List TreeChange) :
    (ListsFiles changes (.fromDiff (renderTree changes)) ∧
      (TouchesOnce changes →
        (PatchFiles.fromDiff (renderTree changes)).deleted.Disjoint
          (PatchFiles.fromDiff (renderTree changes)).surviving)) ↔
      ReadsFiles changes := by
  refine ⟨fun h => readsFiles_of_listsFiles h.1, fun h => ?_⟩
  have hlists := listsFiles_of_readsFiles h
  refine ⟨hlists, fun honce p hdeleted hsurviving => ?_⟩
  obtain ⟨hdeleted', hsurviving'⟩ := listsFiles_iff.mp hlists
  obtain ⟨c, hc, hdeletion, rfl⟩ := (hdeleted' p).mp hdeleted
  obtain ⟨k, hk, hkept, hsame⟩ := (hsurviving' _).mp hsurviving
  rw [List.inj_on_of_nodup_map honce hk hc hsame, hdeletion] at hkept
  cases hkept

/-- A script `x` that gets a line `++ /dev/null`. -/
def nullLineChange : TreeChange where
  names := .modified ⟨['x'], by decide, by decide⟩
  extended := []
  binary := none
  hunks := [
    { preIndex := 0, postIndex := 0, heading := []
      body := [⟨.context, ['y'], false, newline_not_mem_y⟩,
        ⟨.added, "++ /dev/null".toList, false, by decide⟩]
      heading_clean := newline_not_mem_nil, body_ne_nil := by decide
      pre_fits := by decide, post_fits := by decide }]
  binary_clean := clean_none
  declared := by simp [ChangedNames.isDeletion]
  created_whole := nofun

theorem nullLine_not_listed :
    ¬ListsFiles [nullLineChange] (.fromDiff (renderTree [nullLineChange])) := by
  intro h
  have hmem := (h.surviving ['x']).mpr ⟨nullLineChange, List.mem_singleton_self _, _, rfl, rfl⟩
  exact absurd hmem (by decide)

end Sashiko
