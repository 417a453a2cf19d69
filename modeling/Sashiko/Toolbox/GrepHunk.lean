import Mathlib.Algebra.GroupWithZero.Nat
import Mathlib.Data.List.Chain
import Sashiko.Diff.Paths

/-! `cap_grep_hunk`: a long hunk of `git grep` is cut down to what lies around its anchors. -/

namespace Sashiko

def maxGrepHunkLines : ℕ := 200

def grepAnchorRadius : ℕ := 25

structure GrepLine where
  anchor : Bool
  text : Chars
  deriving DecidableEq, Repr

/-- `keep[lo..=hi]` is set. -/
def keepSpan (lo hi : ℕ) (keep : List Bool) : List Bool :=
  keep.mapIdx fun i kept => kept || (decide (lo ≤ i) && decide (i ≤ hi))

def keepAround (total : ℕ) (keep : List Bool) (entry : GrepLine × ℕ) : List Bool :=
  if entry.1.anchor then
    keepSpan (entry.2 - grepAnchorRadius) (min (entry.2 + grepAnchorRadius) (total - 1)) keep
  else keep

def keptFlags (hunk : List GrepLine) : List Bool :=
  hunk.zipIdx.foldl (keepAround hunk.length) ((List.replicate hunk.length false).set 0 true)

def omissionMarker (count : ℕ) : Chars :=
  "  ... [".toList ++ Nat.toDigits 10 count ++ " lines of enclosing block omitted] ...".toList

/-- Each run of lines that are not kept becomes a marker. -/
def elide : List (Bool × Chars) → List Chars
  | [] => []
  | (true, text) :: rest => text :: elide rest
  | (false, _) :: rest =>
    omissionMarker ((rest.takeWhile fun l => !l.1).length + 1) ::
      elide (rest.dropWhile fun l => !l.1)
termination_by lines => lines.length
decreasing_by
  · simp
  · exact Nat.lt_succ_of_le (List.length_dropWhile_le _ _)

def capGrepHunk (hunk : List GrepLine) : List Chars :=
  if hunk.length ≤ maxGrepHunkLines then hunk.map (·.text)
  else elide ((keptFlags hunk).zip (hunk.map (·.text)))

/-! ### The lines around the anchors -/

/-- The first line, and those within the radius of an anchor. -/
def NearAnchor (hunk : List GrepLine) (i : ℕ) : Prop :=
  i = 0 ∨ ∃ j line, hunk[j]? = some line ∧ line.anchor = true ∧
    i ≤ j + grepAnchorRadius ∧ j ≤ i + grepAnchorRadius

theorem getElem?_keepAround {total i : ℕ} {keep : List Bool} {entry : GrepLine × ℕ} :
    (keepAround total keep entry)[i]? = keep[i]?.map fun kept => kept || (entry.1.anchor &&
      (decide (entry.2 - grepAnchorRadius ≤ i) &&
        decide (i ≤ min (entry.2 + grepAnchorRadius) (total - 1)))) := by
  rw [keepAround]
  split_ifs with hanchor
  · rw [keepSpan, List.getElem?_mapIdx, hanchor]
    simp
  · simp [hanchor]

theorem getElem?_foldl_keepAround {total i : ℕ} (entries : List (GrepLine × ℕ))
    (keep : List Bool) :
    (entries.foldl (keepAround total) keep)[i]? = keep[i]?.map fun kept => kept ||
      entries.any fun entry => entry.1.anchor && (decide (entry.2 - grepAnchorRadius ≤ i) &&
        decide (i ≤ min (entry.2 + grepAnchorRadius) (total - 1))) := by
  induction entries generalizing keep with
  | nil => simp
  | cons entry entries ih =>
    rw [List.foldl_cons, ih, getElem?_keepAround, Option.map_map]
    congr 1
    funext kept
    simp [Bool.or_assoc]

theorem length_keptFlags (hunk : List GrepLine) : (keptFlags hunk).length = hunk.length := by
  have hstep : ∀ (entries : List (GrepLine × ℕ)) (keep : List Bool),
      (entries.foldl (keepAround hunk.length) keep).length = keep.length := by
    intro entries
    induction entries with
    | nil => exact fun _ => rfl
    | cons entry entries ih =>
      intro keep
      rw [List.foldl_cons, ih, keepAround]
      split_ifs
      · rw [keepSpan, List.length_mapIdx]
      · rfl
  rw [keptFlags, hstep, List.length_set, List.length_replicate]

/-- The windows, cut off at both ends of the hunk, cover just the lines near an anchor. -/
theorem getElem?_keptFlags {hunk : List GrepLine} {i : ℕ} (h : i < hunk.length) :
    (keptFlags hunk)[i]? = some true ↔ NearAnchor hunk i := by
  have hinit : ((List.replicate hunk.length false).set 0 true)[i]? = some (decide (i = 0)) := by
    rw [List.getElem?_set]
    by_cases hi : i = 0
    · simp [hi, Nat.zero_lt_of_lt h]
    · rw [if_neg (Ne.symm hi), List.getElem?_replicate, if_pos h, decide_eq_false hi]
  rw [keptFlags, getElem?_foldl_keepAround, hinit]
  simp only [Option.map_some, Option.some.injEq, Bool.or_eq_true, decide_eq_true_eq,
    List.any_eq_true, Bool.and_eq_true, NearAnchor, Prod.exists, List.mk_mem_zipIdx_iff_getElem?]
  refine or_congr_right ⟨?_, ?_⟩
  · rintro ⟨line, j, hline, hanchor, hlo, hhi⟩
    exact ⟨j, line, hline, hanchor, by omega, by omega⟩
  · rintro ⟨j, line, hline, hanchor, hhi, hlo⟩
    exact ⟨line, j, hline, hanchor, by omega, by omega⟩

/-! ### Kept lines and markers -/

/-- What one line of the output stands for. -/
inductive HunkPiece where
  | kept (text : Chars)
  | omitted (texts : List Chars)
  deriving DecidableEq, Repr

namespace HunkPiece

def texts : HunkPiece → List Chars
  | kept text => [text]
  | omitted texts => texts

/-- For each line that it stands for, whether the line is kept. -/
def flags : HunkPiece → List Bool
  | kept _ => [true]
  | omitted texts => List.replicate texts.length false

def keptCount : HunkPiece → ℕ
  | kept _ => 1
  | omitted _ => 0

/-- The count in its marker. -/
def omittedCount : HunkPiece → ℕ
  | kept _ => 0
  | omitted texts => texts.length

def shown : HunkPiece → Chars
  | kept text => text
  | omitted texts => omissionMarker texts.length

def IsOmitted : HunkPiece → Prop
  | kept _ => False
  | omitted _ => True

theorem length_texts (p : HunkPiece) : p.texts.length = p.keptCount + p.omittedCount := by
  cases p with
  | kept text => rfl
  | omitted texts => exact (Nat.zero_add _).symm

theorem length_flatMap_texts (pieces : List HunkPiece) :
    (pieces.flatMap texts).length =
      (pieces.map keptCount).sum + (pieces.map omittedCount).sum := by
  induction pieces with
  | nil => rfl
  | cons p pieces ih =>
    rw [List.flatMap_cons, List.length_append, ih, length_texts, List.map_cons, List.map_cons,
      List.sum_cons, List.sum_cons]
    omega

end HunkPiece

/-- The pieces hold all the lines in order, and no two markers come in a row. -/
structure HunkPieces (pieces : List HunkPiece) (lines : List (Bool × Chars)) : Prop where
  texts : pieces.flatMap HunkPiece.texts = lines.map (·.2)
  flags : pieces.flatMap HunkPiece.flags = lines.map (·.1)
  nonempty : ∀ p ∈ pieces, p.texts ≠ []
  maximal : pieces.IsChain fun p q => ¬(p.IsOmitted ∧ q.IsOmitted)

section Pieces

variable {pieces : List HunkPiece} {lines : List (Bool × Chars)}

theorem HunkPieces.kept (h : HunkPieces pieces lines) (text : Chars) :
    HunkPieces (.kept text :: pieces) ((true, text) :: lines) where
  texts := by simp [HunkPiece.texts, h.texts]
  flags := by simp [HunkPiece.flags, h.flags]
  nonempty := List.forall_mem_cons.mpr ⟨List.cons_ne_nil _ _, h.nonempty⟩
  maximal := List.isChain_cons.mpr ⟨fun _ _ hboth => hboth.1, h.maximal⟩

/-- Where a line is kept no marker stands. -/
theorem HunkPieces.not_omitted (h : HunkPieces pieces lines)
    (hkept : ∀ l ∈ lines.head?, l.1 = true) : ∀ p ∈ pieces.head?, ¬p.IsOmitted := by
  intro p hp homitted
  obtain ⟨rest, rfl⟩ := List.head?_eq_some_iff.mp hp
  cases p with
  | kept text => exact homitted
  | omitted texts =>
    cases texts with
    | nil => exact h.nonempty _ List.mem_cons_self rfl
    | cons text texts =>
      have hflags := h.flags
      cases lines with
      | nil => simp [HunkPiece.flags, List.replicate_succ] at hflags
      | cons l lines =>
        have hl := hkept l rfl
        simp [HunkPiece.flags, List.replicate_succ, hl] at hflags

theorem HunkPieces.omitted {skipped : List (Bool × Chars)} (h : HunkPieces pieces lines)
    (hne : skipped ≠ []) (hskipped : ∀ l ∈ skipped, l.1 = false)
    (hkept : ∀ l ∈ lines.head?, l.1 = true) :
    HunkPieces (.omitted (skipped.map (·.2)) :: pieces) (skipped ++ lines) where
  texts := by simp [HunkPiece.texts, h.texts]
  flags := by
    have hfalse : skipped.map (·.1) = List.replicate skipped.length false :=
      List.eq_replicate_iff.mpr ⟨List.length_map _, by simpa using hskipped⟩
    simp [HunkPiece.flags, h.flags, hfalse]
  nonempty := List.forall_mem_cons.mpr ⟨by simpa [HunkPiece.texts] using hne, h.nonempty⟩
  maximal := List.isChain_cons.mpr
    ⟨fun p hp hboth => h.not_omitted hkept p hp hboth.2, h.maximal⟩

theorem exists_hunkPieces (lines : List (Bool × Chars)) :
    ∃ pieces, elide lines = pieces.map HunkPiece.shown ∧ HunkPieces pieces lines := by
  induction lines using elide.induct with
  | case1 => exact ⟨[], by simp [elide], rfl, rfl, by simp, .nil⟩
  | case2 text rest ih =>
    obtain ⟨pieces, hshown, hpieces⟩ := ih
    exact ⟨.kept text :: pieces, by rw [elide, hshown]; rfl, hpieces.kept text⟩
  | case3 text rest ih =>
    obtain ⟨pieces, hshown, hpieces⟩ := ih
    -- The run goes to the first kept line behind it.
    have hsplit : (false, text) :: rest = ((false, text) :: rest.takeWhile fun l => !l.1) ++
        rest.dropWhile fun l => !l.1 := by
      rw [List.cons_append, List.takeWhile_append_dropWhile]
    have hskipped : ∀ l ∈ (false, text) :: rest.takeWhile fun l => !l.1, l.1 = false := by
      intro l hl
      rcases List.mem_cons.mp hl with rfl | hl
      · rfl
      · simpa using List.mem_takeWhile_imp hl
    have hkept : ∀ l ∈ (rest.dropWhile fun l => !l.1).head?, l.1 = true := fun l hl => by
      have hhead := List.head?_dropWhile_not (fun l : Bool × Chars => !l.1) rest
      rw [Option.mem_def.mp hl] at hhead
      simpa using hhead
    refine ⟨_, ?_, hsplit ▸ hpieces.omitted (List.cons_ne_nil _ _) hskipped hkept⟩
    rw [elide, hshown]
    simp [HunkPiece.shown]

theorem mem_elide {text : Chars} (h : (true, text) ∈ lines) : text ∈ elide lines := by
  induction lines using elide.induct with
  | case1 => cases h
  | case2 first rest ih =>
    rw [elide]
    rcases List.mem_cons.mp h with heq | h
    · exact (Prod.mk.inj heq).2 ▸ List.mem_cons_self
    · exact List.mem_cons_of_mem _ (ih h)
  | case3 first rest ih =>
    rw [elide]
    refine List.mem_cons_of_mem _ (ih ?_)
    exact mem_dropWhile_of_not ((List.mem_cons.mp h).resolve_left (by simp)) rfl

end Pieces

/-- The output of `cap_grep_hunk`, line by line. -/
structure CapsHunk (hunk : List GrepLine) (out : List Chars) (pieces : List HunkPiece) : Prop where
  shown : out = pieces.map HunkPiece.shown
  texts : pieces.flatMap HunkPiece.texts = hunk.map (·.text)
  kept_iff : ∀ i < hunk.length,
    (pieces.flatMap HunkPiece.flags)[i]? = some true ↔ NearAnchor hunk i
  nonempty : ∀ p ∈ pieces, p.texts ≠ []
  maximal : pieces.IsChain fun p q => ¬(p.IsOmitted ∧ q.IsOmitted)
  total : (pieces.map HunkPiece.keptCount).sum + (pieces.map HunkPiece.omittedCount).sum =
    hunk.length

theorem exists_capsHunk {hunk : List GrepLine} (h : maxGrepHunkLines < hunk.length) :
    ∃ pieces, CapsHunk hunk (capGrepHunk hunk) pieces := by
  obtain ⟨pieces, hshown, hpieces⟩ :=
    exists_hunkPieces ((keptFlags hunk).zip (hunk.map (·.text)))
  have hlen : (keptFlags hunk).length = (hunk.map (·.text)).length := by
    rw [length_keptFlags, List.length_map]
  have htexts : pieces.flatMap HunkPiece.texts = hunk.map (·.text) := by
    rw [hpieces.texts]
    exact List.map_snd_zip hlen.ge
  refine ⟨pieces, ?_, htexts, fun i hi => ?_, hpieces.nonempty, hpieces.maximal, ?_⟩
  · rw [capGrepHunk, if_neg (Nat.not_le.mpr h), hshown]
  · have hflags := hpieces.flags.trans (List.map_fst_zip hlen.le)
    rw [hflags, getElem?_keptFlags hi]
  · rw [← HunkPiece.length_flatMap_texts, htexts, List.length_map]

/-- Of a long hunk without an anchor only the first line is left. -/
theorem capGrepHunk_unanchored {first : GrepLine} {rest : List GrepLine}
    (hlong : maxGrepHunkLines ≤ rest.length) (hne : rest ≠ [])
    (h : ∀ l ∈ first :: rest, l.anchor = false) :
    capGrepHunk (first :: rest) = [first.text, omissionMarker rest.length] := by
  have hflags : keptFlags (first :: rest) = true :: List.replicate rest.length false := by
    have hstay : ∀ (entries : List (GrepLine × ℕ)) (keep : List Bool) (total : ℕ),
        (∀ e ∈ entries, e.1.anchor = false) → entries.foldl (keepAround total) keep = keep := by
      intro entries keep total hentries
      induction entries with
      | nil => rfl
      | cons e entries ih =>
        obtain ⟨he, hentries⟩ := List.forall_mem_cons.mp hentries
        rw [List.foldl_cons, keepAround, he]
        exact ih hentries
    rw [keptFlags, hstay _ _ _ fun e he => h e.1 (List.fst_mem_of_mem_zipIdx he)]
    rfl
  have hskipped : ∀ l ∈ (List.replicate rest.length false).zip (rest.map (·.text)),
      (!l.1) = true := fun l hl => by
    rw [List.eq_of_mem_replicate (List.of_mem_zip hl).1]
    rfl
  rw [capGrepHunk, if_neg (by rw [List.length_cons]; omega), hflags, List.map_cons,
    List.zip_cons_cons, elide]
  obtain ⟨second, rest, rfl⟩ := List.exists_cons_of_ne_nil hne
  rw [List.length_cons, List.replicate_succ, List.map_cons, List.zip_cons_cons] at hskipped ⊢
  obtain ⟨-, hskipped⟩ := List.forall_mem_cons.mp hskipped
  rw [elide, List.takeWhile_eq_self_iff.mpr hskipped, List.dropWhile_eq_nil_iff.mpr hskipped, elide]
  simp

/-- An anchor is kept, however long the hunk. -/
theorem mem_capGrepHunk {hunk : List GrepLine} {text : Chars} (h : ⟨true, text⟩ ∈ hunk) :
    text ∈ capGrepHunk hunk := by
  rw [capGrepHunk]
  split_ifs
  · exact List.mem_map.mpr ⟨_, h, rfl⟩
  · obtain ⟨i, hi, hget⟩ := List.mem_iff_getElem.mp h
    have hline : hunk[i]? = some ⟨true, text⟩ := List.getElem?_eq_some_iff.mpr ⟨hi, hget⟩
    have hflag : (keptFlags hunk)[i]? = some true :=
      (getElem?_keptFlags hi).mpr (.inr ⟨i, _, hline, rfl, by omega, by omega⟩)
    refine mem_elide (List.mem_of_getElem? (i := i) ?_)
    rw [List.getElem?_zip_eq_some]
    exact ⟨hflag, by rw [List.getElem?_map, hline]; rfl⟩

end Sashiko
