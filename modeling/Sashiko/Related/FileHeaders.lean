import Sashiko.Related.Removal

/-! Reading a review from the top: the hunk and the file header each comment stands under, and when
dropping other comments leaves both in place. -/

namespace Sashiko

variable {quote : List Chars} {line : Chars} {units : List CommentUnit}

/-- The last file header among the quoted lines. -/
def quotedFile (quote : List Chars) : Option Chars := (quote.filter isFileHeaderLine).getLast?

/-- A comment with the hunk above it and the header of the file that the hunk is in. -/
structure Reading where
  file : Option Chars
  quote : List Chars
  comment : List Chars
  deriving DecidableEq, Repr

def readingsFrom : Option Chars → List Chars → List CommentUnit → List Reading
  | _, _, [] => []
  | file, quote, unit :: units =>
    let file' := (quotedFile unit.quoteLines).or file
    let quote' := if unit.quoteLines = [] then quote else unit.quoteLines
    ⟨file', quote', unit.commentLines⟩ :: readingsFrom file' quote' units

def readings (units : List CommentUnit) : List Reading := readingsFrom none [] units

/-! ### Which headers are safe -/

section Safe

variable (gone : List Chars → Bool)

/-- Every comment is dropped up to the next hunk that quotes its file's header. -/
def deserted : List CommentUnit → Bool
  | [] => true
  | unit :: units =>
    (quotedFile unit.quoteLines).isSome || (gone unit.commentLines && deserted units)

/-- While every comment since a file header is dropped, no hunk holds a line that reads as a file
header once the quote mark and blanks are taken off, unless no comment that stays is in the file.
The flag says whether the comments since the header are all dropped. -/
def headersSafe : Bool → List CommentUnit → Bool
  | _, [] => true
  | pending, unit :: units =>
    (!(pending && hasFileHeader unit.quoteLines) || deserted gone (unit :: units)) &&
      headersSafe
        (gone unit.commentLines && (pending || (quotedFile unit.quoteLines).isSome)) units

end Safe

/-! ### The file of a quote -/

theorem quotedFile_of_hasFileHeader_false (h : hasFileHeader quote = false) :
    quotedFile quote = none := by
  have hnil : quote.filter isFileHeaderLine = [] := by
    rw [List.filter_eq_nil_iff]
    intro l hl hfile
    rw [hasFileHeader, List.any_eq_false] at h
    exact h l hl (startsFileHeader_of_isFileHeaderLine hfile)
  rw [quotedFile, hnil]
  rfl

theorem hasFileHeader_of_quotedFile (h : (quotedFile quote).isSome = true) :
    hasFileHeader quote = true := by
  by_contra hnone
  rw [quotedFile_of_hasFileHeader_false (by simpa using hnone)] at h
  cases h

theorem Quotes.quotedFile_eq (h : Quotes quote) :
    quotedFile quote = quote.head?.filter isFileHeaderLine := by
  cases quote with
  | nil => rfl
  | cons l quote =>
    have htail : quote.filter isFileHeaderLine = [] :=
      List.filter_eq_nil_iff.mpr fun x hx => by simp [h.oneFile x hx]
    by_cases hl : isFileHeaderLine l = true
    · simp [quotedFile, htail, hl, Option.filter]
    · simp [quotedFile, htail, hl, Option.filter]

/-- The header above another hunk is the header that was extracted. -/
theorem quotedFile_merge {above below : List Chars} (habove : Quotes above) (hbelow : Quotes below)
    (hne : below ≠ []) (hheader : extractFileHeader above ≠ [])
    (hnone : hasFileHeader below = false) :
    quotedFile (extractFileHeader above ++ [] :: below) = quotedFile above := by
  rw [(habove.merge hbelow hne hheader hnone).quotedFile_eq, habove.quotedFile_eq,
    List.head?_append_of_ne_nil _ hheader]
  cases above with
  | nil => exact absurd rfl hheader
  | cons l above =>
    by_cases hl : startsFileHeader l = true
    · simp [extractFileHeader, extractFrom, hl]
    · have hfile : isFileHeaderLine l = false := by
        rw [Bool.eq_false_iff]
        exact fun h => hl (startsFileHeader_of_isFileHeaderLine h)
      have hextract : extractFileHeader (l :: above) = extractFileHeader above := by
        simp [extractFileHeader, extractFrom, hl]
      rw [hextract]
      cases hhead : (extractFileHeader above).head? with
      | none => simp [hfile, Option.filter]
      | some x =>
        have hx : x ∈ above := extractFileHeader_sublist.subset (List.mem_of_head? hhead)
        have hxfile : isFileHeaderLine x = false := habove.oneFile x hx
        simp [hfile, hxfile, Option.filter]

/-- What a dropped unit leaves in force is what the next one then quotes. -/
theorem quotedFile_takeOver {dropped unit : CommentUnit} (hdropped : dropped.WellBuilt)
    (hunit : unit.WellBuilt) :
    quotedFile (dropped.takeOver unit).quoteLines =
      if hasFileHeader unit.quoteLines = true then quotedFile unit.quoteLines
      else quotedFile dropped.quoteLines := by
  unfold CommentUnit.takeOver
  by_cases hshared : unit.quoteLines = []
  · have hnone : hasFileHeader unit.quoteLines = false := by
      rw [hshared]
      rfl
    rw [if_pos hshared, if_neg (by simp [hnone])]
  · rw [if_neg hshared]
    by_cases hheader : hasFileHeader unit.quoteLines = true
    · rw [if_pos (Or.inl hheader), if_pos hheader]
    · have hnone : hasFileHeader unit.quoteLines = false := by simpa using hheader
      rw [if_neg hheader]
      by_cases hextract : extractFileHeader dropped.quoteLines = []
      · rw [if_pos (Or.inr hextract), quotedFile_of_hasFileHeader_false hnone,
          quotedFile_of_hasFileHeader_false (extractFileHeader_eq_nil.mp hextract)]
      · rw [if_neg (by simp [hnone, hextract])]
        exact quotedFile_merge hdropped.quotes hunit.quotes hshared hextract hnone

/-! ### One dropped unit -/

section Step

variable {gone : List Chars → Bool} {dropped unit : CommentUnit}

theorem headersSafe_mono {p q : Bool} (hpq : q = true → p = true)
    (h : headersSafe gone p units = true) : headersSafe gone q units = true := by
  induction units generalizing p q with
  | nil => rfl
  | cons unit units ih =>
    simp only [headersSafe, Bool.and_eq_true, Bool.or_eq_true, Bool.not_eq_true'] at h ⊢
    refine ⟨h.1.imp_left fun hhead => ?_, ih ?_ h.2⟩
    · rw [Bool.and_eq_false_iff] at hhead ⊢
      exact hhead.imp_left fun hp => by simpa [hp] using hpq
    · simp only [Bool.and_eq_true, Bool.or_eq_true]
      exact fun hq => ⟨hq.1, hq.2.imp_left hpq⟩

theorem hasFileHeader_takeOver (h : hasFileHeader (dropped.takeOver unit).quoteLines = true) :
    hasFileHeader unit.quoteLines = true ∨ hasFileHeader dropped.quoteLines = true := by
  simp only [hasFileHeader, List.any_eq_true] at h ⊢
  obtain ⟨l, hl, hstarts⟩ := h
  rcases CommentUnit.mem_takeOver_quoteLines hl with rfl | hl | hl
  · cases hstarts
  · exact Or.inr ⟨l, hl, hstarts⟩
  · exact Or.inl ⟨l, hl, hstarts⟩

/-- Dropping a unit keeps the headers safe for what is still to be dropped. -/
theorem headersSafe_takeOver (hdropped : dropped.WellBuilt) (hunit : unit.WellBuilt)
    (hgone : gone dropped.commentLines = true) {pending : Bool}
    (h : headersSafe gone pending (dropped :: unit :: units) = true) :
    headersSafe gone pending (dropped.takeOver unit :: units) = true := by
  have hfile := quotedFile_takeOver hdropped hunit
  simp only [headersSafe, deserted, hgone, Bool.true_and, Bool.and_eq_true, Bool.or_eq_true,
    Bool.not_eq_true', Bool.and_eq_false_iff, CommentUnit.takeOver_commentLines] at h ⊢
  obtain ⟨hd, hu, hrest⟩ := h
  by_cases hheader : hasFileHeader unit.quoteLines = true
  · rw [if_pos hheader] at hfile
    rw [hfile]
    refine ⟨?_, headersSafe_mono ?_ hrest⟩
    · rcases hu with (hpending | hnone) | hu
      · exact Or.inl (Or.inl (Bool.or_eq_false_iff.mp hpending).1)
      · rw [hheader] at hnone
        cases hnone
      · exact Or.inr hu
    · simp only [Bool.and_eq_true, Bool.or_eq_true]
      exact fun hq => ⟨hq.1, hq.2.elim (fun hp => Or.inl (Or.inl hp)) Or.inr⟩
  · have hnone : hasFileHeader unit.quoteLines = false := by simpa using hheader
    rw [if_neg hheader] at hfile
    rw [quotedFile_of_hasFileHeader_false hnone, Option.isSome_none, Bool.or_false] at hrest
    rw [hfile]
    refine ⟨?_, hrest⟩
    by_cases hfake : hasFileHeader dropped.quoteLines = true
    · rcases hd with (hpending | hclean) | hd
      · exact Or.inl (Or.inl hpending)
      · rw [hfake] at hclean
        cases hclean
      · refine Or.inr (hd.imp_right fun hd => hd.resolve_left ?_)
        rw [quotedFile_of_hasFileHeader_false hnone]
        exact Bool.false_ne_true
    · refine Or.inl (Or.inr ?_)
      rw [Bool.eq_false_iff]
      exact fun htake => (hasFileHeader_takeOver htake).elim hheader hfake

theorem deserted_takeOver (hdropped : dropped.WellBuilt) (hunit : unit.WellBuilt)
    {pending : Bool} (h : headersSafe gone pending (dropped :: unit :: units) = true)
    (hgone : gone dropped.commentLines = true)
    (hdeserted : deserted gone (dropped :: unit :: units) = true) :
    deserted gone (dropped.takeOver unit :: units) = true := by
  have hfile := quotedFile_takeOver hdropped hunit
  simp only [headersSafe, deserted, hgone, Bool.true_and, Bool.and_eq_true, Bool.or_eq_true,
    Bool.not_eq_true', Bool.and_eq_false_iff, CommentUnit.takeOver_commentLines] at h hdeserted ⊢
  obtain ⟨-, hu, -⟩ := h
  by_cases hheader : hasFileHeader unit.quoteLines = true
  · rw [if_pos hheader] at hfile
    rw [hfile]
    rcases hdeserted with hdeserted | hdeserted
    · rcases hu with (hpending | hnone) | hu
      · rw [(Bool.or_eq_false_iff.mp hpending).2] at hdeserted
        cases hdeserted
      · rw [hheader] at hnone
        cases hnone
      · exact hu
    · exact hdeserted
  · have hnone : hasFileHeader unit.quoteLines = false := by simpa using hheader
    rw [if_neg hheader] at hfile
    rw [hfile]
    refine hdeserted.imp_right fun hd => hd.resolve_left ?_
    rw [quotedFile_of_hasFileHeader_false hnone]
    exact Bool.false_ne_true

/-- The same behind any units. -/
theorem headersSafe_attach {pre post : List CommentUnit}
    (hbuilt : ∀ u ∈ pre ++ dropped :: post, u.WellBuilt)
    (hgone : gone dropped.commentLines = true) {pending : Bool}
    (h : headersSafe gone pending (pre ++ dropped :: post) = true) :
    headersSafe gone pending (pre ++ dropped.attach post) = true ∧
      (deserted gone (pre ++ dropped :: post) = true →
        deserted gone (pre ++ dropped.attach post) = true) := by
  induction pre generalizing pending with
  | nil =>
    cases post with
    | nil => exact ⟨rfl, fun _ => rfl⟩
    | cons unit post =>
      have hdropped := hbuilt dropped (by simp)
      have hunit := hbuilt unit (by simp)
      exact ⟨headersSafe_takeOver hdropped hunit hgone h, deserted_takeOver hdropped hunit h hgone⟩
  | cons unit pre ih =>
    simp only [List.cons_append, headersSafe, Bool.and_eq_true, Bool.or_eq_true,
      Bool.not_eq_true'] at h ⊢
    obtain ⟨hrest, hdesert⟩ := ih (fun u hu => hbuilt u (List.mem_cons_of_mem _ hu)) h.2
    have hstep : deserted gone (unit :: (pre ++ dropped :: post)) = true →
        deserted gone (unit :: (pre ++ dropped.attach post)) = true := by
      simp only [deserted, Bool.or_eq_true, Bool.and_eq_true]
      exact fun hd => hd.imp_right fun hd => ⟨hd.1, hdesert hd.2⟩
    exact ⟨⟨h.1.imp_right hstep, hrest⟩, hstep⟩

end Step

/-! ### Reading on -/

/-- The comment is kept, with its hunk right above it and under the header of its file. -/
structure Reading.Keeps (o r : Reading) : Prop where
  comment : r.comment = o.comment
  quote : o.quote <:+ r.quote
  file : r.file = o.file

theorem Reading.Keeps.refl (o : Reading) : o.Keeps o := ⟨rfl, List.suffix_rfl, rfl⟩

theorem Reading.Keeps.trans {o p r : Reading} (h : o.Keeps p) (h' : p.Keeps r) : o.Keeps r :=
  ⟨h'.comment.trans h.comment, h.quote.trans h'.quote, h'.file.trans h.file⟩

section Reading

variable {gone : List Chars → Bool} {dropped unit : CommentUnit}

/-- The comments are the same, and those that stay are kept. -/
structure Reading.KeepsUnless (gone : List Chars → Bool) (o r : Reading) : Prop where
  comment : r.comment = o.comment
  kept : gone o.comment = false → o.Keeps r

theorem readingsFrom_keepsUnless {file file' : Option Chars} {quote quote' : List Chars}
    (hfile : file' = file ∨ deserted gone units = true) (hquote : quote <:+ quote') :
    List.Forall₂ (Reading.KeepsUnless gone) (readingsFrom file quote units)
      (readingsFrom file' quote' units) := by
  induction units generalizing file file' quote quote' with
  | nil => exact List.Forall₂.nil
  | cons unit units ih =>
    have hq : (if unit.quoteLines = [] then quote else unit.quoteLines) <:+
        if unit.quoteLines = [] then quote' else unit.quoteLines := by
      split_ifs
      · exact hquote
      · exact List.suffix_rfl
    have hf : (quotedFile unit.quoteLines).or file' = (quotedFile unit.quoteLines).or file ∨
        (gone unit.commentLines = true ∧ deserted gone units = true) := by
      rcases hfile with rfl | hdesert
      · exact Or.inl rfl
      · simp only [deserted, Bool.or_eq_true, Bool.and_eq_true] at hdesert
        refine hdesert.imp_left fun hsome => ?_
        obtain ⟨f, hf⟩ := Option.isSome_iff_exists.mp hsome
        rw [hf]
        rfl
    refine List.Forall₂.cons ⟨rfl, fun hkept => ⟨rfl, hq, ?_⟩⟩ (ih (hf.imp_right And.right) hq)
    refine hf.resolve_right fun hgone => ?_
    rw [hgone.1] at hkept
    cases hkept

theorem readings_takeOver (hdropped : dropped.WellBuilt) (hunit : unit.WellBuilt)
    (hgone : gone dropped.commentLines = true) {pending : Bool}
    (h : headersSafe gone pending (dropped :: unit :: units) = true) (file : Option Chars)
    (quote : List Chars) :
    List.Forall₂ (Reading.KeepsUnless gone)
      (readingsFrom ((quotedFile dropped.quoteLines).or file)
        (if dropped.quoteLines = [] then quote else dropped.quoteLines) (unit :: units))
      (readingsFrom file quote (dropped.takeOver unit :: units)) := by
  have htake := quotedFile_takeOver hdropped hunit
  have hsame : ∀ r : Reading, r.KeepsUnless gone r := fun r => ⟨rfl, fun _ => Reading.Keeps.refl r⟩
  by_cases hshared : unit.quoteLines = []
  · have hunfold : dropped.takeOver unit = ⟨dropped.quoteLines, unit.commentLines⟩ := if_pos hshared
    have hnone : quotedFile ([] : List Chars) = none := rfl
    rw [hunfold, readingsFrom, readingsFrom]
    simp only [hshared, hnone, Option.none_or, if_true]
    exact List.Forall₂.cons (hsame _)
      (readingsFrom_keepsUnless (Or.inl rfl) List.suffix_rfl)
  by_cases hheader : hasFileHeader unit.quoteLines = true
  · have hunfold : dropped.takeOver unit = unit := by
      rw [CommentUnit.takeOver, if_neg hshared, if_pos (Or.inl hheader)]
    have hfile : (quotedFile unit.quoteLines).or file =
          (quotedFile unit.quoteLines).or ((quotedFile dropped.quoteLines).or file) ∨
        (gone unit.commentLines = true ∧ deserted gone units = true) := by
      simp only [headersSafe, deserted, hgone, Bool.true_and, Bool.and_eq_true, Bool.or_eq_true,
        Bool.not_eq_true', Bool.and_eq_false_iff] at h
      rcases h.2.1 with (hpending | hnone) | hu
      · have hd : quotedFile dropped.quoteLines = none := by
          simpa using (Bool.or_eq_false_iff.mp hpending).2
        rw [hd, Option.none_or]
        exact Or.inl rfl
      · rw [hheader] at hnone
        cases hnone
      · refine hu.imp_left fun hsome => ?_
        obtain ⟨f, hf⟩ := Option.isSome_iff_exists.mp hsome
        rw [hf]
        rfl
    rw [hunfold, readingsFrom, readingsFrom]
    simp only [hshared, if_false]
    refine List.Forall₂.cons ⟨rfl, fun hkept => ⟨rfl, List.suffix_rfl, ?_⟩⟩
      (readingsFrom_keepsUnless (hfile.imp_right And.right) List.suffix_rfl)
    refine hfile.resolve_right fun hgone => ?_
    rw [hgone.1] at hkept
    cases hkept
  · have hnone : quotedFile unit.quoteLines = none :=
      quotedFile_of_hasFileHeader_false (by simpa using hheader)
    have hquote : unit.quoteLines <:+ (dropped.takeOver unit).quoteLines := by
      rw [CommentUnit.takeOver, if_neg hshared]
      split_ifs
      · exact List.suffix_rfl
      · exact (List.suffix_cons _ _).trans (List.suffix_append _ _)
    have hne : (dropped.takeOver unit).quoteLines ≠ [] := by
      intro hnil
      rw [hnil, List.suffix_nil] at hquote
      exact hshared hquote
    rw [if_neg hheader] at htake
    rw [readingsFrom, readingsFrom]
    simp only [hshared, hne, hnone, htake, if_false, Option.none_or,
      CommentUnit.takeOver_commentLines]
    exact List.Forall₂.cons ⟨rfl, fun _ => ⟨rfl, hquote, rfl⟩⟩
      (readingsFrom_keepsUnless (Or.inl rfl) hquote)

theorem forall₂_filter_kept {os rs : List Reading}
    (h : List.Forall₂ (Reading.KeepsUnless gone) os rs) :
    List.Forall₂ Reading.Keeps (os.filter fun o => !gone o.comment)
      (rs.filter fun r => !gone r.comment) := by
  induction h with
  | nil => exact List.Forall₂.nil
  | @cons o r os rs hor _ ih =>
    cases hgone : gone o.comment with
    | true =>
      rw [List.filter_cons_of_neg (by simp [hgone]),
        List.filter_cons_of_neg (by simp [hor.comment, hgone])]
      exact ih
    | false =>
      rw [List.filter_cons_of_pos (by simp [hgone]),
        List.filter_cons_of_pos (by simp [hor.comment, hgone])]
      exact List.Forall₂.cons (hor.kept hgone) ih

/-- Dropping one comment keeps every other that stays. -/
theorem readings_attach {pre post : List CommentUnit}
    (hbuilt : ∀ u ∈ pre ++ dropped :: post, u.WellBuilt)
    (hgone : gone dropped.commentLines = true) {pending : Bool}
    (h : headersSafe gone pending (pre ++ dropped :: post) = true) (file : Option Chars)
    (quote : List Chars) :
    List.Forall₂ Reading.Keeps
      ((readingsFrom file quote (pre ++ dropped :: post)).filter fun o => !gone o.comment)
      ((readingsFrom file quote (pre ++ dropped.attach post)).filter fun r => !gone r.comment) := by
  induction pre generalizing pending file quote with
  | nil =>
    have hdropped := hbuilt dropped (by simp)
    rw [List.nil_append, readingsFrom, List.filter_cons_of_neg (by simp [hgone])]
    cases post with
    | nil => exact List.Forall₂.nil
    | cons unit post =>
      exact forall₂_filter_kept
        (readings_takeOver hdropped (hbuilt unit (by simp)) hgone h file quote)
  | cons unit pre ih =>
    rw [List.cons_append, headersSafe, Bool.and_eq_true] at h
    have hrest := ih (fun u hu => hbuilt u (List.mem_cons_of_mem _ hu)) h.2
      ((quotedFile unit.quoteLines).or file)
      (if unit.quoteLines = [] then quote else unit.quoteLines)
    rw [List.cons_append, List.cons_append, readingsFrom, readingsFrom]
    cases hkeep : gone unit.commentLines with
    | true =>
      rw [List.filter_cons_of_neg (by simp [hkeep]), List.filter_cons_of_neg (by simp [hkeep])]
      exact hrest
    | false =>
      rw [List.filter_cons_of_pos (by simp [hkeep]), List.filter_cons_of_pos (by simp [hkeep])]
      exact List.Forall₂.cons (Reading.Keeps.refl _) hrest

end Reading

end Sashiko
