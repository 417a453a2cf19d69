import Sashiko.Related.FileHeaders

/-! Taking out the comments of all dismissed bugs, one pass for each, and renumbering the
placeholders of the bugs that stay. -/

namespace Sashiko

variable {idx i j : ℕ} {line : Chars} {comment : List Chars} {units : List CommentUnit}

/-! ### Placeholders are tokens -/

theorem isToken_bugRefPlaceholder (idx : ℕ) : IsToken (bugRefPlaceholder idx) := by
  unfold bugRefPlaceholder
  split_ifs
  · exact ⟨"BUG_REF".toList, rfl, by decide, by decide⟩
  · have hdigits : (toString (idx + 1)).toList = Nat.toDigits 10 (idx + 1) := Nat.toList_repr
    have hdigit : ∀ c ∈ (toString (idx + 1)).toList, c.isDigit = true := fun c hc =>
      Nat.isDigit_of_mem_toDigits (by omega) (by omega) (hdigits ▸ hc)
    refine ⟨"BUG_REF:".toList ++ (toString (idx + 1)).toList, rfl, ?_, ?_⟩ <;>
    · rw [List.mem_append, not_or]
      refine ⟨by decide, fun hc => ?_⟩
      have := hdigit _ hc
      revert this
      decide

theorem bugRefPlaceholder_injective : Function.Injective bugRefPlaceholder := by
  intro i j h
  unfold bugRefPlaceholder at h
  have hcolon : ∀ n : ℕ, "[BUG_REF]".toList ≠
      "[BUG_REF:".toList ++ (toString n).toList ++ [']'] := fun n heq => by
    have := congrArg (fun cs => cs.getD 8 ' ') heq
    revert this
    simp
  split_ifs at h with hi hj hj
  · rw [hi, hj]
  · exact absurd h (hcolon _)
  · exact absurd h.symm (hcolon _)
  · rw [List.append_left_inj, List.append_right_inj] at h
    have htext : toString (i + 1) = toString (j + 1) := String.toList_injective h
    have hnumbered : "" ++ toString (i + 1) = "" ++ toString (j + 1) := congrArg ("" ++ ·) htext
    have := eq_of_numbered_eq hnumbered
    omega

theorem newline_not_mem_bugRefPlaceholder (idx : ℕ) : '\n' ∉ bugRefPlaceholder idx := by
  unfold bugRefPlaceholder
  split_ifs
  · decide
  · have hdigits : (toString (idx + 1)).toList = Nat.toDigits 10 (idx + 1) := Nat.toList_repr
    simp only [List.mem_append, not_or]
    refine ⟨⟨by decide, fun hc => ?_⟩, by decide⟩
    have : Char.isDigit '\n' = true :=
      Nat.isDigit_of_mem_toDigits (by omega) (by omega) (hdigits ▸ hc)
    revert this
    decide

/-! ### Which bug a comment is about -/

def mentions (comment : List Chars) (idx : ℕ) : Bool :=
  comment.any (containsChars · (bugRefPlaceholder idx))

theorem mentions_iff :
    mentions comment idx = true ↔ ∃ l ∈ comment, bugRefPlaceholder idx <:+: l := by
  rw [mentions, List.any_eq_true]
  simp only [containsChars_iff]

/-- Each related bug has one comment with its own placeholder, no comment has two, and the
placeholders stand in the comments. -/
structure PlacesBugs (units : List CommentUnit) (bugs : List ℕ) : Prop where
  once : ∀ idx ∈ bugs, (units.map CommentUnit.commentLines).countP (mentions · idx) = 1
  single : ∀ u ∈ units, ∀ i j, mentions u.commentLines i = true →
    mentions u.commentLines j = true → i = j
  quoted : ∀ u ∈ units, ∀ l ∈ u.quoteLines, ∀ idx, ¬bugRefPlaceholder idx <:+: l

/-! ### One pass for each dismissed bug -/

def removeComments (dropped : List ℕ) (text : Chars) : Chars :=
  dropped.foldl (fun s idx => removeInlineCommentWithPlaceholder s (bugRefPlaceholder idx)) text

theorem exists_split_of_mentioned
    (h : (units.map CommentUnit.commentLines).countP (mentions · idx) = 1) :
    ∃ pre unit post, units = pre ++ unit :: post ∧ mentions unit.commentLines idx = true ∧
      ∀ u ∈ pre ++ post, mentions u.commentLines idx = false := by
  rw [List.countP_map] at h
  have hpos : 0 < units.countP ((mentions · idx) ∘ CommentUnit.commentLines) := by omega
  obtain ⟨unit, hmem, hunit⟩ := List.countP_pos_iff.mp hpos
  obtain ⟨pre, post, rfl⟩ := List.append_of_mem hmem
  refine ⟨pre, unit, post, rfl, hunit, ?_⟩
  rw [List.countP_append, List.countP_cons_of_pos hunit] at h
  have hzero : (pre ++ post).countP ((mentions · idx) ∘ CommentUnit.commentLines) = 0 := by
    rw [List.countP_append]
    omega
  intro u hu
  simpa using List.countP_eq_zero.mp hzero u hu

/-- The comment is about one of these bugs. -/
def aboutAny (bugs : List ℕ) (comment : List Chars) : Bool := bugs.any (mentions comment)

theorem aboutAny_cons (idx : ℕ) (bugs : List ℕ) (comment : List Chars) :
    aboutAny (idx :: bugs) comment = (mentions comment idx || aboutAny bugs comment) := rfl

theorem unitMatches_eq_mentions {unit : CommentUnit}
    (h : ∀ l ∈ unit.quoteLines, ∀ idx, ¬bugRefPlaceholder idx <:+: l) (idx : ℕ) :
    unitMatches (bugRefPlaceholder idx) unit.quoteLines unit.commentLines =
      mentions unit.commentLines idx := by
  have hquote : unit.quoteLines.any (containsChars · (bugRefPlaceholder idx)) = false := by
    rw [List.any_eq_false]
    exact fun l hl hin => h l hl idx (containsChars_iff.mp hin)
  rw [unitMatches, hquote, Bool.or_false, mentions]

theorem commentLines_attach {pre post : List CommentUnit} {dropped : CommentUnit}
    (hdropped : mentions dropped.commentLines idx = true)
    (hclean : ∀ u ∈ pre ++ post, mentions u.commentLines idx = false) :
    (pre ++ dropped.attach post).map CommentUnit.commentLines =
      ((pre ++ dropped :: post).map CommentUnit.commentLines).filter (!mentions · idx) := by
  have hkeep : ∀ us : List CommentUnit, (∀ u ∈ us, mentions u.commentLines idx = false) →
      (us.map CommentUnit.commentLines).filter (!mentions · idx) =
        us.map CommentUnit.commentLines := by
    intro us hus
    refine List.filter_eq_self.mpr fun c hc => ?_
    obtain ⟨u, hu, rfl⟩ := List.mem_map.mp hc
    rw [hus u hu]
    rfl
  rw [List.map_append, CommentUnit.attach_commentLines, List.map_append, List.filter_append,
    hkeep pre fun u hu => hclean u (List.mem_append_left _ hu), List.map_cons,
    List.filter_cons_of_neg (by simp [hdropped]),
    hkeep post fun u hu => hclean u (List.mem_append_right _ hu)]

/-- After one pass the units that are left place the bugs that are left. -/
theorem PlacesBugs.attach {bugs : List ℕ} {pre post : List CommentUnit} {dropped : CommentUnit}
    (h : PlacesBugs (pre ++ dropped :: post) (idx :: bugs)) (hnodup : idx ∉ bugs)
    (hdropped : mentions dropped.commentLines idx = true)
    (hclean : ∀ u ∈ pre ++ post, mentions u.commentLines idx = false) :
    PlacesBugs (pre ++ dropped.attach post) bugs := by
  have hcomments := commentLines_attach hdropped hclean
  have hmem : ∀ u ∈ pre ++ dropped.attach post, ∃ v ∈ pre ++ dropped :: post,
      v.commentLines = u.commentLines := by
    intro u hu
    have hu' := List.mem_map_of_mem (f := CommentUnit.commentLines) hu
    rw [hcomments] at hu'
    obtain ⟨v, hv, heq⟩ := List.mem_map.mp (List.mem_filter.mp hu').1
    exact ⟨v, hv, heq⟩
  refine ⟨fun i hi => ?_, fun u hu => ?_, fun u hu l hl => ?_⟩
  · have hother : ∀ c ∈ (pre ++ dropped :: post).map CommentUnit.commentLines,
        (mentions c i && !mentions c idx) = mentions c i := by
      intro c hc
      obtain ⟨v, hv, rfl⟩ := List.mem_map.mp hc
      cases hi' : mentions v.commentLines i with
      | false => rfl
      | true =>
        have hne : mentions v.commentLines idx = false := by
          rw [Bool.eq_false_iff]
          intro hidx
          exact hnodup (h.single v hv i idx hi' hidx ▸ hi)
        rw [hne]
        rfl
    rw [hcomments, List.countP_filter, ← h.once i (List.mem_cons_of_mem _ hi)]
    exact List.countP_congr fun c hc => by rw [hother c hc]
  · obtain ⟨v, hv, heq⟩ := hmem u hu
    rw [← heq]
    exact h.single v hv
  · rcases List.mem_append.mp hu with hu | hu
    · exact h.quoted u (List.mem_append_left _ hu) l hl
    · cases post with
      | nil => exact absurd hu List.not_mem_nil
      | cons unit post =>
        rcases List.mem_cons.mp hu with rfl | hu
        · intro i hin
          rcases CommentUnit.mem_takeOver_quoteLines hl with rfl | hl | hl
          · exact (isToken_bugRefPlaceholder i).ne_nil (List.infix_nil.mp hin)
          · exact h.quoted dropped (by simp) l hl i hin
          · exact h.quoted unit (by simp) l hl i hin
        · exact h.quoted u (by simp [hu]) l hl

theorem forall₂_trans {os ps rs : List Reading} (h : List.Forall₂ Reading.Keeps os ps)
    (h' : List.Forall₂ Reading.Keeps ps rs) : List.Forall₂ Reading.Keeps os rs := by
  induction h generalizing rs with
  | nil => exact h'
  | cons hop _ ih =>
    cases h' with
    | cons hpr hrest => exact List.Forall₂.cons (hop.trans hpr) (ih hrest)

/-- What is left of the units when these bugs are dropped. -/
structure LeftOver (dropped : List ℕ) (units left : List CommentUnit) : Prop where
  built : ∀ u ∈ left, u.WellBuilt
  quoted : ∀ u ∈ left, ∀ l ∈ u.quoteLines, ∀ idx, ¬bugRefPlaceholder idx <:+: l
  comments : left.map CommentUnit.commentLines =
    (units.map CommentUnit.commentLines).filter (!aboutAny dropped ·)

def writeBack (header : List Chars) (units : List CommentUnit) (footnotes : List Chars) : Chars :=
  if units = [] then noIssuesFound else inlineText header units footnotes

/-- The passes over the text are passes over its units. -/
theorem removeComments_eq {dropped : List ℕ} (hne : dropped ≠ []) (hnodup : dropped.Nodup)
    {r : ReviewParts} {text : Chars} (h : r.Builds text) (hplaces : PlacesBugs r.units dropped)
    {gone : List Chars → Bool}
    (hgone : ∀ comment, aboutAny dropped comment = true → gone comment = true)
    (hsafe : headersSafe gone false r.units = true) :
    ∃ left, LeftOver dropped r.units left ∧
      removeComments dropped text = writeBack r.header left r.footnotes ∧
      List.Forall₂ Reading.Keeps
        ((readings r.units).filter fun o => !gone o.comment)
        ((readings left).filter fun o => !gone o.comment) := by
  induction dropped generalizing r text with
  | nil => exact absurd rfl hne
  | cons idx dropped ih =>
    obtain ⟨hfresh, hnodup⟩ := List.nodup_cons.mp hnodup
    obtain ⟨pre, unit, post, hunits, hunit, hclean⟩ :=
      exists_split_of_mentioned (hplaces.once idx List.mem_cons_self)
    have hr := h.1
    have hbuilt : ∀ u ∈ pre ++ unit :: post, u.WellBuilt := fun u hu =>
      hr.units u (by rwa [hunits])
    rw [hunits] at hplaces hsafe
    have hgone' : gone unit.commentLines = true :=
      hgone _ (by rw [aboutAny_cons, hunit, Bool.true_or])
    obtain ⟨l, hl, hin⟩ := mentions_iff.mp hunit
    have hremove := h.remove hunits hl hin fun u hu => by
      rw [unitMatches_eq_mentions (hplaces.quoted u (by
        simp only [List.mem_append, List.mem_cons] at hu ⊢
        tauto)), hclean u hu]
    have hleft : ∀ u ∈ pre ++ unit.attach post, u.WellBuilt := by
      intro u hu
      rcases List.mem_append.mp hu with hu | hu
      · exact hbuilt u (List.mem_append_left _ hu)
      · exact (hbuilt unit (by simp)).attach (fun v hv => hbuilt v (by simp [hv])) u hu
    have hplaces' := hplaces.attach hfresh hunit hclean
    have hsafe' := (headersSafe_attach hbuilt hgone' hsafe).1
    have hkept := readings_attach hbuilt hgone' hsafe none []
    have hcomments := commentLines_attach hunit hclean
    by_cases hlast : dropped = []
    · subst hlast
      refine ⟨pre ++ unit.attach post, ⟨hleft, hplaces'.quoted, ?_⟩, hremove, ?_⟩
      · rw [hcomments, hunits]
        refine List.filter_congr fun c _ => ?_
        simp [aboutAny]
      · rw [hunits]
        exact hkept
    · have hnonempty : pre ++ unit.attach post ≠ [] := by
        obtain ⟨i, rest, rfl⟩ := List.exists_cons_of_ne_nil hlast
        have hone := hplaces'.once i List.mem_cons_self
        rintro hnil
        rw [hnil] at hone
        cases hone
      have hr' : ReviewParts.WellBuilt ⟨r.header, pre ++ unit.attach post, r.footnotes⟩ :=
        ⟨hr.header, hr.headerEnd, hleft, hr.footnotes⟩
      obtain ⟨left, hover, htext, hreadings⟩ := ih hlast hnodup (builds_inlineText hr' hnonempty)
        hplaces' (fun c hc => hgone c (by rw [aboutAny_cons, hc, Bool.or_true])) hsafe'
      refine ⟨left, ⟨hover.built, hover.quoted, ?_⟩, ?_, ?_⟩
      · rw [hover.comments, hcomments, hunits, List.filter_filter]
        refine List.filter_congr fun c _ => ?_
        rw [aboutAny_cons, Bool.not_or, Bool.and_comm]
      · rw [← htext, removeComments, List.foldl_cons, hremove, if_neg hnonempty]
        rfl
      · rw [hunits]
        exact forall₂_trans hkept hreadings

/-! ### Renumbering -/

/-- The loop over the kept indices, from the new index on. -/
def renumberFrom : ℕ → List ℕ → Chars → Chars
  | _, [], s => s
  | newIdx, oldIdx :: kept, s =>
    renumberFrom (newIdx + 1) kept
      (if newIdx ≠ oldIdx then
        replaceChars (bugRefPlaceholder oldIdx) (bugRefPlaceholder newIdx) 0 s
      else s)

theorem replaceChars_self {p : Chars} (hp : p ≠ []) (cs : Chars) : replaceChars p p 0 cs = cs := by
  induction cs using replace_induction hp with
  | nil => rfl
  | hit rest ih => rw [replaceChars_hit hp, ih]
  | miss c cs hmiss ih => rw [replaceChars_miss hmiss, ih]

theorem renumberFrom_cons (newIdx oldIdx : ℕ) (kept : List ℕ) (s : Chars) :
    renumberFrom newIdx (oldIdx :: kept) s = renumberFrom (newIdx + 1) kept
      (replaceChars (bugRefPlaceholder oldIdx) (bugRefPlaceholder newIdx) 0 s) := by
  rw [renumberFrom]
  by_cases h : newIdx = oldIdx
  · rw [if_neg (not_not.mpr h), h, replaceChars_self (isToken_bugRefPlaceholder oldIdx).ne_nil]
  · rw [if_pos h]

theorem renumberFrom_joinLines (newIdx : ℕ) (kept : List ℕ) (lines : List Chars) :
    renumberFrom newIdx kept (joinLinesWith lines) =
      joinLinesWith (lines.map (renumberFrom newIdx kept)) := by
  induction kept generalizing newIdx lines with
  | nil => exact (congrArg joinLinesWith (List.map_id lines)).symm
  | cons oldIdx kept ih =>
    rw [renumberFrom_cons, joinLinesWith, replaceChars_intercalate
      (isToken_bugRefPlaceholder oldIdx).ne_nil (newline_not_mem_bugRefPlaceholder oldIdx),
      ← joinLinesWith, ih, List.map_map]
    exact congrArg joinLinesWith (List.map_congr_left fun l _ => (renumberFrom_cons ..).symm)

theorem infix_replace_iff (oldIdx newIdx i : ℕ) (line : Chars) :
    bugRefPlaceholder i <:+:
        replaceChars (bugRefPlaceholder oldIdx) (bugRefPlaceholder newIdx) 0 line ↔
      (bugRefPlaceholder i <:+: line ∧ i ≠ oldIdx) ∨
        (i = newIdx ∧ bugRefPlaceholder oldIdx <:+: line) := by
  rw [(isToken_bugRefPlaceholder oldIdx).infix_replaceChars_iff (isToken_bugRefPlaceholder newIdx)
    (isToken_bugRefPlaceholder i), bugRefPlaceholder_injective.eq_iff, Ne,
    bugRefPlaceholder_injective.eq_iff]

theorem renumberFrom_of_clean {kept : List ℕ} (newIdx : ℕ)
    (h : ∀ i ∈ kept, ¬bugRefPlaceholder i <:+: line) : renumberFrom newIdx kept line = line := by
  induction kept generalizing newIdx with
  | nil => rfl
  | cons oldIdx kept ih =>
    rw [renumberFrom_cons, replaceChars_eq_self (h oldIdx List.mem_cons_self)]
    exact ih _ fun i hi => h i (List.mem_cons_of_mem _ hi)

/-- A line with the placeholder of one bug gets that bug's new number, whatever else is
renumbered before and after it. -/
theorem renumberFrom_own {kept : List ℕ} (hsorted : kept.Pairwise (· < ·)) {newIdx : ℕ}
    (hle : ∀ i ∈ kept, newIdx ≤ i) {k oldIdx : ℕ} (hk : kept[k]? = some oldIdx)
    (hline : ∀ i ∈ kept, bugRefPlaceholder i <:+: line → i = oldIdx) :
    renumberFrom newIdx kept line =
      replaceChars (bugRefPlaceholder oldIdx) (bugRefPlaceholder (newIdx + k)) 0 line := by
  induction kept generalizing newIdx k with
  | nil => cases hk
  | cons first kept ih =>
    obtain ⟨hfirst, hsorted⟩ := List.pairwise_cons.mp hsorted
    rw [renumberFrom_cons]
    cases k with
    | zero =>
      obtain rfl : first = oldIdx := Option.some.inj hk
      refine renumberFrom_of_clean _ fun i hi hin => ?_
      have hlt := hfirst i hi
      have hnew := hle first List.mem_cons_self
      -- the placeholders behind are above the new number, so the new text has none of them
      rcases (infix_replace_iff _ _ _ _).mp hin with ⟨hin, hne⟩ | ⟨heq, -⟩
      · exact hne (hline i (List.mem_cons_of_mem _ hi) hin)
      · omega
    | succ k =>
      have hmem : oldIdx ∈ kept := List.mem_of_getElem? hk
      have hclean : ¬bugRefPlaceholder first <:+: line := fun hin => by
        have heq := hline first List.mem_cons_self hin
        have hlt := hfirst oldIdx hmem
        omega
      have hle' : ∀ i ∈ kept, newIdx + 1 ≤ i := fun i hi => by
        have hlt := hfirst i hi
        have hnew := hle first List.mem_cons_self
        omega
      rw [replaceChars_eq_self hclean,
        ih hsorted hle' hk fun i hi => hline i (List.mem_cons_of_mem _ hi)]
      congr 2
      omega

/-! ### Renumbering the text that was written back -/

def CommentUnit.mapLines (f : Chars → Chars) (u : CommentUnit) : CommentUnit :=
  ⟨u.quoteLines.map f, u.commentLines.map f⟩

theorem map_intercalate_lines (f : Chars → Chars) (hf : f [] = []) (parts : List (List Chars)) :
    ([[]].intercalate parts).map f = [[]].intercalate (parts.map (List.map f)) := by
  induction parts with
  | nil => rfl
  | cons part parts ih =>
    cases parts with
    | nil => simp only [List.map_cons, List.map_nil, List.intercalate_singleton]
    | cons next parts =>
      rw [List.intercalate_cons_cons, List.map_append, List.map_append, ih]
      simp only [List.map_cons, List.map_nil, hf, List.intercalate_cons_cons]

theorem filter_map_lines (f : Chars → Chars) (parts : List (List Chars)) :
    (parts.filter (· ≠ [])).map (List.map f) = (parts.map (List.map f)).filter (· ≠ []) := by
  rw [List.filter_map]
  congr 1
  refine List.filter_congr fun part _ => ?_
  simp

theorem unitParts_mapLines (f : Chars → Chars) (units : List CommentUnit) :
    unitParts (units.map (CommentUnit.mapLines f)) = (unitParts units).map (List.map f) := by
  rw [unitParts, unitParts, filter_map_lines, List.map_flatMap, List.flatMap_map]
  rfl

theorem inlineText_mapLines {f g : Chars → Chars} (hf : f [] = [])
    (hjoin : ∀ lines, g (joinLinesWith lines) = joinLinesWith (lines.map f))
    (header : List Chars) (units : List CommentUnit) (footnotes : List Chars) :
    g (inlineText header units footnotes) =
      inlineText (header.map f) (units.map (CommentUnit.mapLines f)) (footnotes.map f) := by
  have hfoot : ([footnotes].filter (· ≠ [])).map (List.map f) =
      [footnotes.map f].filter (· ≠ []) := by
    rw [filter_map_lines]
    rfl
  rw [inlineText_eq_joinLines, hjoin, inlineText_eq_joinLines, map_intercalate_lines f hf,
    filter_map_lines, List.map_cons, List.map_append, hfoot, unitParts_mapLines]

theorem writeBack_renumber (kept : List ℕ) (header : List Chars) (units : List CommentUnit)
    (footnotes : List Chars) :
    renumberFrom 0 kept (writeBack header units footnotes) =
      writeBack (header.map (renumberFrom 0 kept))
        (units.map (CommentUnit.mapLines (renumberFrom 0 kept)))
        (footnotes.map (renumberFrom 0 kept)) := by
  have hclean : ∀ i (s : Chars), '[' ∉ s → ¬bugRefPlaceholder i <:+: s := by
    intro i s hs hin
    obtain ⟨w, hw, -⟩ := isToken_bugRefPlaceholder i
    exact hs (hin.subset (by rw [hw]; exact List.mem_cons_self))
  unfold writeBack
  by_cases hnil : units = []
  · rw [if_pos hnil, hnil, List.map_nil, if_pos rfl]
    exact renumberFrom_of_clean 0 fun i _ => hclean i _ (by decide)
  · rw [if_neg hnil, if_neg (by simpa using hnil)]
    exact inlineText_mapLines (renumberFrom_of_clean 0 fun i _ => hclean i _ List.not_mem_nil)
      (renumberFrom_joinLines 0 kept) _ _ _

/-! ### What survives -/

/-- A comment that stays: under its hunk and its file's header, the bug's placeholder renumbered
and nothing else changed. -/
structure Reading.Survives (kept : List ℕ) (o v : Reading) : Prop where
  quote : o.quote <:+ v.quote
  file : v.file = o.file
  bug : ∀ i oldIdx, kept[i]? = some oldIdx → mentions o.comment oldIdx = true →
    v.comment = o.comment.map
        (replaceChars (bugRefPlaceholder oldIdx) (bugRefPlaceholder i) 0) ∧
      ∀ j, mentions v.comment j = true ↔ j = i
  other : (∀ oldIdx ∈ kept, mentions o.comment oldIdx = false) → v.comment = o.comment

/-- The text afterwards: the comments of the bugs that were not dropped, in their order. -/
def Reflects (r : ReviewParts) (kept dropped : List ℕ) (text : Chars) : Prop :=
  ∃ units, text = writeBack (r.header.map (renumberFrom 0 kept)) units
      (r.footnotes.map (renumberFrom 0 kept)) ∧
    List.Forall₂ (Reading.Survives kept)
      ((readings r.units).filter fun o => !aboutAny dropped o.comment) (readings units)

theorem readingsFrom_comments (file : Option Chars) (quote : List Chars)
    (units : List CommentUnit) :
    (readingsFrom file quote units).map Reading.comment = units.map CommentUnit.commentLines := by
  induction units generalizing file quote with
  | nil => rfl
  | cons unit units ih => rw [readingsFrom, List.map_cons, ih, List.map_cons]

theorem readingsFrom_mapLines {f : Chars → Chars} {units : List CommentUnit}
    (h : ∀ u ∈ units, ∀ l ∈ u.quoteLines, f l = l) (file : Option Chars) (quote : List Chars) :
    readingsFrom file quote (units.map (CommentUnit.mapLines f)) =
      (readingsFrom file quote units).map fun o => { o with comment := o.comment.map f } := by
  induction units generalizing file quote with
  | nil => rfl
  | cons unit units ih =>
    have hquote : unit.quoteLines.map f = unit.quoteLines :=
      (List.map_congr_left fun l hl => h unit List.mem_cons_self l hl).trans (List.map_id _)
    rw [List.map_cons, readingsFrom, readingsFrom, List.map_cons]
    simp only [CommentUnit.mapLines, hquote]
    exact congrArg _ (ih (fun u hu => h u (List.mem_cons_of_mem _ hu)) _ _)

theorem Reading.Keeps.survives {kept : List ℕ} (hsorted : kept.Pairwise (· < ·)) {o p : Reading}
    (h : o.Keeps p) (hsingle : ∀ i j, mentions o.comment i = true →
      mentions o.comment j = true → i = j) :
    o.Survives kept { p with comment := p.comment.map (renumberFrom 0 kept) } where
  quote := h.quote
  file := h.file
  bug := by
    intro i oldIdx hi hmentions
    have hmap : o.comment.map (renumberFrom 0 kept) =
        o.comment.map (replaceChars (bugRefPlaceholder oldIdx) (bugRefPlaceholder i) 0) := by
      refine List.map_congr_left fun l hl => ?_
      have hown := renumberFrom_own hsorted (fun _ _ => Nat.zero_le _) hi fun j _ hin =>
        hsingle j oldIdx (mentions_iff.mpr ⟨l, hl, hin⟩) hmentions
      rwa [Nat.zero_add] at hown
    refine ⟨by rw [h.comment, hmap], fun j => ?_⟩
    rw [h.comment, hmap, mentions_iff]
    constructor
    · rintro ⟨l', hl', hin⟩
      obtain ⟨l, hl, rfl⟩ := List.mem_map.mp hl'
      rcases (infix_replace_iff _ _ _ _).mp hin with ⟨hin, hne⟩ | ⟨heq, -⟩
      · exact absurd (hsingle j oldIdx (mentions_iff.mpr ⟨l, hl, hin⟩) hmentions) hne
      · exact heq
    · rintro rfl
      obtain ⟨l, hl, hin⟩ := mentions_iff.mp hmentions
      exact ⟨_, List.mem_map_of_mem hl, (infix_replace_iff _ _ _ _).mpr (Or.inr ⟨rfl, hin⟩)⟩
  other := by
    intro hnone
    rw [h.comment]
    refine (List.map_congr_left fun l hl => ?_).trans (List.map_id _)
    refine renumberFrom_of_clean 0 fun i hi hin => ?_
    have hmentions := mentions_iff.mpr ⟨l, hl, hin⟩
    rw [hnone i hi] at hmentions
    cases hmentions

theorem forall₂_survives {kept : List ℕ} (hsorted : kept.Pairwise (· < ·)) {os ps : List Reading}
    (h : List.Forall₂ Reading.Keeps os ps)
    (hsingle : ∀ o ∈ os, ∀ i j, mentions o.comment i = true → mentions o.comment j = true →
      i = j) :
    List.Forall₂ (Reading.Survives kept) os
      (ps.map fun p => { p with comment := p.comment.map (renumberFrom 0 kept) }) := by
  induction h with
  | nil => exact List.Forall₂.nil
  | cons hop _ ih =>
    exact List.Forall₂.cons (hop.survives hsorted (hsingle _ List.mem_cons_self))
      (ih fun o ho => hsingle o (List.mem_cons_of_mem _ ho))

/-- Where the file headers are safe, the removals and the renumbering leave every other comment in
its place. -/
theorem reflects_of_headersSafe {kept dropped : List ℕ} (hne : dropped ≠ [])
    (hnodup : dropped.Nodup) (hsorted : kept.Pairwise (· < ·)) {r : ReviewParts} {text : Chars}
    (h : r.Builds text) (hplaces : PlacesBugs r.units dropped)
    (hsafe : headersSafe (aboutAny dropped) false r.units = true) :
    Reflects r kept dropped (renumberFrom 0 kept (removeComments dropped text)) := by
  obtain ⟨left, hover, htext, hkeeps⟩ :=
    removeComments_eq hne hnodup h hplaces (fun _ hc => hc) hsafe
  refine ⟨left.map (CommentUnit.mapLines (renumberFrom 0 kept)), ?_, ?_⟩
  · rw [htext, writeBack_renumber]
  · have hall : (readings left).filter (fun o => !aboutAny dropped o.comment) = readings left := by
      refine List.filter_eq_self.mpr fun o ho => ?_
      have hmem := List.mem_map_of_mem (f := Reading.comment) ho
      rw [readings, readingsFrom_comments, hover.comments] at hmem
      exact (List.mem_filter.mp hmem).2
    rw [hall] at hkeeps
    have hmap := readingsFrom_mapLines (f := renumberFrom 0 kept) (fun u hu l hl =>
      renumberFrom_of_clean 0 fun i _ => hover.quoted u hu l hl i) none []
    rw [readings.eq_def (left.map _), hmap]
    refine forall₂_survives hsorted hkeeps fun o ho => ?_
    have hmem := List.mem_map_of_mem (f := Reading.comment) (List.mem_filter.mp ho).1
    rw [readings, readingsFrom_comments] at hmem
    obtain ⟨u, hu, heq⟩ := List.mem_map.mp hmem
    rw [← heq]
    exact hplaces.single u hu

end Sashiko
