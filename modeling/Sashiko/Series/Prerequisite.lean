import Sashiko.Email.Authors
import Sashiko.Lib.Fallible
import Sashiko.Lib.Saturation
import Sashiko.Lib.SortedSet

/-! The patches of a prerequisite series, picked out of the messages of its thread: the head that
was asked for, the messages that descend from it, and of these the parts of its series. -/

namespace Sashiko

structure PatchsetMetadata where
  messageId : String
  subject : String
  author : String
  date : ℤ
  inReplyTo : Option String
  references : List String
  index : ℕ
  total : ℕ
  isPatchOrCover : Bool
  version : Option ℕ
  body : String
  deriving DecidableEq, Repr

structure SeriesPatch where
  messageId : String
  body : String
  diff : String
  partIndex : ℕ
  deriving DecidableEq, Repr

/-- A parsed message of the thread, with its patch if it has one. -/
abbrev ThreadMessage := PatchsetMetadata × Option SeriesPatch

def maxPrerequisitePatchIds : ℕ := 128

def cleanMessageId (messageId : String) : String :=
  String.ofList (trimMatches (fun c => c = '<' || c = '>') (trimChars messageId.toList))

def metadataDescendsFrom (metadata : PatchsetMetadata) (ancestors : Finset String) : Bool :=
  metadata.inReplyTo.any (fun parent => decide (cleanMessageId parent ∈ ancestors)) ||
    metadata.references.any fun reference => decide (cleanMessageId reference ∈ ancestors)

def expandDescendants (parsed : List ThreadMessage) (descendants : Finset String) :
    Finset String :=
  saturate (fun m : ThreadMessage => cleanMessageId m.1.messageId)
    (fun m => metadataDescendsFrom m.1) parsed descendants

structure ParsedSeriesHead where
  sourceIndex : ℕ
  messageId : String
  author : String
  body : String
  total : ℕ
  version : ℕ
  deriving DecidableEq, Repr

section Selection

variable (toLowercase : String → String)

def metadataMatchesSeries (metadata : PatchsetMetadata) (head : ParsedSeriesHead) : Bool :=
  metadata.total = head.total && metadata.version.getD 1 = head.version &&
    authorsMatch toLowercase head.author metadata.author

/-- The ids of the cover letters that fit the head. -/
def coverIds (parsed : List ThreadMessage) (head : PatchsetMetadata) : Finset String :=
  ((parsed.filter fun m => m.1.isPatchOrCover && m.1.index = 0 && m.2.isNone &&
    m.1.total = head.total && m.1.version.getD 1 = head.version.getD 1 &&
    authorsMatch toLowercase head.author m.1.author).map
      fun m => cleanMessageId m.1.messageId).toFinset

def hasMatchingCoverAncestor (parsed : List ThreadMessage) (head : PatchsetMetadata) : Bool :=
  decide (coverIds toLowercase parsed head ≠ ∅) &&
    decide (cleanMessageId head.messageId ∈
      expandDescendants parsed (coverIds toLowercase parsed head))

/-- The checks on the one message that has the requested id. -/
def checkSeriesHead (parsed : List ThreadMessage) (requestedMessageId : String) (headIndex : ℕ)
    (message : ThreadMessage) : Except String ParsedSeriesHead :=
  let head := message.1
  let headPatch := message.2
  if !head.isPatchOrCover then
    .error ("prerequisite message " ++ requestedMessageId ++ " is not a patch series head")
  else if !((head.index = 0 && headPatch.isNone) || (head.index = 1 && headPatch.isSome &&
      !hasMatchingCoverAncestor toLowercase parsed head)) then
    .error ("prerequisite message " ++ requestedMessageId ++ " is not the head of its series")
  else if head.total = 0 then
    .error ("prerequisite series " ++ requestedMessageId ++ " has no patches")
  else if head.total > maxPrerequisitePatchIds then
    .error ("prerequisite series " ++ requestedMessageId ++ " contains more than " ++
      toString maxPrerequisitePatchIds ++ " patches")
  else
    .ok ⟨headIndex, head.messageId, head.author, head.body, head.total, head.version.getD 1⟩

def selectSeriesHead (parsed : List ThreadMessage) (requestedMessageId : String) :
    Except String ParsedSeriesHead :=
  match parsed.zipIdx.filter fun m => cleanMessageId m.1.1.messageId = requestedMessageId with
  | [] => .error ("lore thread does not contain message ID " ++ requestedMessageId)
  | [(message, headIndex)] => checkSeriesHead toLowercase parsed requestedMessageId headIndex message
  | _ => .error ("lore thread contains duplicate message ID " ++ requestedMessageId)

def partError (problem requestedMessageId : String) (part total : ℕ) : String :=
  "prerequisite series " ++ requestedMessageId ++ " has " ++ problem ++ " part " ++
    toString part ++ "/" ++ toString total

/-- One message, on the patches selected so far and the parts they have. -/
def selectSeriesPatch (requestedMessageId : String) (head : ParsedSeriesHead)
    (descendants : Finset String) (state : List (PatchsetMetadata × SeriesPatch) × Finset ℕ)
    (entry : ThreadMessage × ℕ) :
    Except String (List (PatchsetMetadata × SeriesPatch) × Finset ℕ) :=
  let metadata := entry.1.1
  if !metadata.isPatchOrCover then .ok state
  else
    match entry.1.2 with
    | none => .ok state
    | some patch =>
      if entry.2 ≠ head.sourceIndex ∧ cleanMessageId metadata.messageId ∉ descendants then .ok state
      else if !metadataMatchesSeries toLowercase metadata head then .ok state
      else if metadata.index = 0 ∨ metadata.index > head.total ∨
          metadata.index ≠ patch.partIndex then
        .error (partError "invalid" requestedMessageId metadata.index head.total)
      else if metadata.index ∈ state.2 then
        .error (partError "duplicate" requestedMessageId metadata.index head.total)
      else .ok (state.1 ++ [(metadata, patch)], insert metadata.index state.2)

def selectSeriesPatches (parsed : List ThreadMessage) (requestedMessageId : String)
    (head : ParsedSeriesHead) (descendants : Finset String) :
    Except String (List (PatchsetMetadata × SeriesPatch)) := do
  let (selected, _) ← parsed.zipIdx.foldlM
    (selectSeriesPatch toLowercase requestedMessageId head descendants) ([], ∅)
  if selected.length ≠ head.total then
    .error ("prerequisite series " ++ requestedMessageId ++ " is incomplete: found " ++
      toString selected.length ++ " of " ++ toString head.total ++ " patches")
  else .ok (sortByKey (fun s => s.1.index) selected)

/-- The head and the patches that `series_from_mbox` selects. -/
def selectFromMbox (parsed : List ThreadMessage) (requestedMessageId : String) :
    Except String (ParsedSeriesHead × List (PatchsetMetadata × SeriesPatch)) := do
  let requestedMessageId := cleanMessageId requestedMessageId
  let head ← selectSeriesHead toLowercase parsed requestedMessageId
  let descendants := expandDescendants parsed {cleanMessageId head.messageId}
  let selected ← selectSeriesPatches toLowercase parsed requestedMessageId head descendants
  .ok (head, selected)

end Selection

/-! ### Chains of replies -/

/-- The ids a message names in `In-Reply-To` and `References`. -/
def parentIds (metadata : PatchsetMetadata) : List String :=
  (metadata.inReplyTo.toList ++ metadata.references).map cleanMessageId

/-- A chain of such links from the message through messages of the thread to the id. -/
inductive ChainTo (parsed : List ThreadMessage) (target : String) : ThreadMessage → Prop where
  | link {m : ThreadMessage} : target ∈ parentIds m.1 → ChainTo parsed target m
  | via {m m' : ThreadMessage} : m' ∈ parsed → cleanMessageId m'.1.messageId ∈ parentIds m.1 →
      ChainTo parsed target m' → ChainTo parsed target m

variable {parsed parsed' : List ThreadMessage}

theorem metadataDescendsFrom_iff (m : ThreadMessage) (ancestors : Finset String) :
    metadataDescendsFrom m.1 ancestors = true ↔ ∃ a ∈ parentIds m.1, a ∈ ancestors := by
  rw [metadataDescendsFrom, parentIds]
  cases m.1.inReplyTo <;> simp

theorem chain_of_adds {a x : String}
    (h : Relation.ReflTransGen (Adds (fun m : ThreadMessage => cleanMessageId m.1.messageId)
      (fun m => parentIds m.1) parsed) a x) :
    x = a ∨ ∃ m ∈ parsed, cleanMessageId m.1.messageId = x ∧ ChainTo parsed a m := by
  induction h with
  | refl => exact .inl rfl
  | tail _ hstep ih =>
    obtain ⟨m, hm, rfl, hparent⟩ := hstep
    refine .inr ⟨m, hm, rfl, ?_⟩
    rcases ih with rfl | ⟨m', hm', rfl, hchain⟩
    · exact .link hparent
    · exact .via hm' hparent hchain

theorem ChainTo.adds {a : String} {m : ThreadMessage} (h : ChainTo parsed a m) (hm : m ∈ parsed) :
    Relation.ReflTransGen (Adds (fun m : ThreadMessage => cleanMessageId m.1.messageId)
      (fun m => parentIds m.1) parsed) a (cleanMessageId m.1.messageId) := by
  induction h with
  | link hparent => exact .single ⟨_, hm, rfl, hparent⟩
  | via hm' hparent _ ih => exact (ih hm').tail ⟨_, hm, rfl, hparent⟩

/-- The loop ends, with the given ids and those of the messages that a chain leads from. -/
theorem mem_expandDescendants {descendants : Finset String} {x : String} :
    x ∈ expandDescendants parsed descendants ↔ x ∈ descendants ∨
      ∃ m ∈ parsed, cleanMessageId m.1.messageId = x ∧ ∃ a ∈ descendants, ChainTo parsed a m := by
  rw [expandDescendants, mem_saturate_iff metadataDescendsFrom_iff]
  constructor
  · rintro ⟨a, ha, hax⟩
    rcases chain_of_adds hax with rfl | ⟨m, hm, hx, hchain⟩
    · exact .inl ha
    · exact .inr ⟨m, hm, hx, a, ha, hchain⟩
  · rintro (hx | ⟨m, hm, rfl, a, ha, hchain⟩)
    · exact ⟨x, hx, .refl⟩
    · exact ⟨a, ha, hchain.adds hm⟩

theorem expandDescendants_perm (h : parsed.Perm parsed') (descendants : Finset String) :
    expandDescendants parsed descendants = expandDescendants parsed' descendants :=
  saturate_perm metadataDescendsFrom_iff h descendants

/-! ### The head -/

section Head

variable {lower : String → String} {requested : String}

theorem hasMatchingCoverAncestor_perm (h : parsed.Perm parsed') (head : PatchsetMetadata) :
    hasMatchingCoverAncestor lower parsed head = hasMatchingCoverAncestor lower parsed' head := by
  have hids : coverIds lower parsed head = coverIds lower parsed' head :=
    List.toFinset_eq_of_perm _ _ ((h.filter _).map _)
  rw [hasMatchingCoverAncestor, hasMatchingCoverAncestor, hids, expandDescendants_perm h]

/-- The messages with the requested id. -/
def matchingHeads (parsed : List ThreadMessage) (requested : String) : List ThreadMessage :=
  parsed.filter fun m => cleanMessageId m.1.messageId = requested

theorem map_fst_matching (parsed : List ThreadMessage) (requested : String) :
    (parsed.zipIdx.filter fun m => cleanMessageId m.1.1.messageId = requested).map Prod.fst =
      matchingHeads parsed requested := by
  rw [matchingHeads]
  conv_rhs => rw [← List.zipIdx_map_fst 0 parsed, List.filter_map]
  rfl

/-- A head is the one message with the requested id, and passes every check. -/
theorem selectSeriesHead_ok {head : ParsedSeriesHead}
    (h : selectSeriesHead lower parsed requested = .ok head) :
    ∃ message, matchingHeads parsed requested = [message] ∧
      parsed[head.sourceIndex]? = some message ∧
      checkSeriesHead lower parsed requested head.sourceIndex message = .ok head := by
  have hfst := map_fst_matching parsed requested
  rw [selectSeriesHead] at h
  split at h
  · cases h
  · next message headIndex hmatch =>
    rw [hmatch] at hfst
    have hmem : (message, headIndex) ∈ parsed.zipIdx :=
      List.mem_of_mem_filter (hmatch ▸ List.mem_singleton_self (message, headIndex))
    have hindex : head.sourceIndex = headIndex := by
      rw [checkSeriesHead] at h
      split_ifs at h
      cases h
      rfl
    exact ⟨message, hfst.symm, hindex ▸ List.mem_zipIdx_iff_getElem?.mp hmem, hindex ▸ h⟩
  · cases h

theorem exists_selectSeriesHead {message : ThreadMessage}
    (h : matchingHeads parsed requested = [message]) :
    ∃ i, selectSeriesHead lower parsed requested =
      checkSeriesHead lower parsed requested i message := by
  rw [← map_fst_matching] at h
  obtain ⟨⟨m, i⟩, hmatch, rfl⟩ := List.map_eq_singleton_iff.mp h
  exact ⟨i, by rw [selectSeriesHead, hmatch]⟩

theorem checkSeriesHead_perm (h : parsed.Perm parsed') (message : ThreadMessage) (i j : ℕ) :
    checkSeriesHead lower parsed' requested j message =
      (checkSeriesHead lower parsed requested i message).map
        fun head => { head with sourceIndex := j } := by
  rw [checkSeriesHead, checkSeriesHead]
  simp only [hasMatchingCoverAncestor_perm h]
  split_ifs <;> rfl

theorem selectSeriesHead_perm (h : parsed.Perm parsed') {head : ParsedSeriesHead}
    (hhead : selectSeriesHead lower parsed requested = .ok head) :
    ∃ i, selectSeriesHead lower parsed' requested = .ok { head with sourceIndex := i } := by
  obtain ⟨message, hmatch, -, hcheck⟩ := selectSeriesHead_ok hhead
  have hmatch' : matchingHeads parsed' requested = [message] := by
    have hperm : (matchingHeads parsed requested).Perm (matchingHeads parsed' requested) :=
      h.filter _
    rw [hmatch] at hperm
    exact (List.singleton_perm.mp hperm).symm
  obtain ⟨i, hi⟩ := @exists_selectSeriesHead parsed' lower requested message hmatch'
  refine ⟨i, ?_⟩
  rw [hi, checkSeriesHead_perm h message head.sourceIndex i, hcheck]
  rfl

end Head

/-! ### The parts -/

section Parts

variable {lower : String → String} {requested : String} {head : ParsedSeriesHead}
  {descendants : Finset String}

/-- The message as a part of the series, if it is one. -/
def partOf (lower : String → String) (head : ParsedSeriesHead) (descendants : Finset String)
    (m : ThreadMessage) : Option (PatchsetMetadata × SeriesPatch) :=
  if m.1.isPatchOrCover && decide (cleanMessageId m.1.messageId ∈ descendants) &&
      metadataMatchesSeries lower m.1 head then m.2.map (m.1, ·) else none

/-- The part has a place in the series, and its patch says the same. -/
def ValidPart (head : ParsedSeriesHead) (s : PatchsetMetadata × SeriesPatch) : Prop :=
  s.1.index ≠ 0 ∧ s.1.index ≤ head.total ∧ s.1.index = s.2.partIndex

def partIndexes (selected : List (PatchsetMetadata × SeriesPatch)) : List ℕ :=
  selected.map fun s => s.1.index

theorem partOf_eq_some {m : ThreadMessage} {s : PatchsetMetadata × SeriesPatch}
    (h : partOf lower head descendants m = some s) : m = (s.1, some s.2) ∧
      cleanMessageId s.1.messageId ∈ descendants ∧
      metadataMatchesSeries lower s.1 head = true := by
  rw [partOf] at h
  split_ifs at h with hcond
  obtain ⟨patch, hpatch, rfl⟩ := Option.map_eq_some_iff.mp h
  rw [Bool.and_eq_true, Bool.and_eq_true, decide_eq_true_iff] at hcond
  exact ⟨Prod.ext rfl hpatch, hcond.1.2, hcond.2⟩

/-- The position of a message adds nothing where the head descends from itself. -/
theorem selectSeriesPatch_of_none {state} {entry : ThreadMessage × ℕ}
    (hself : entry.2 = head.sourceIndex → cleanMessageId entry.1.1.messageId ∈ descendants)
    (h : partOf lower head descendants entry.1 = none) :
    selectSeriesPatch lower requested head descendants state entry = .ok state := by
  rcases entry with ⟨⟨metadata, patch⟩, i⟩
  rw [selectSeriesPatch]
  dsimp only at hself ⊢
  rcases hpatch : metadata.isPatchOrCover with _ | _
  · rfl
  rcases patch with _ | patch
  · rfl
  by_cases hmem : cleanMessageId metadata.messageId ∈ descendants
  · have hmatches : metadataMatchesSeries lower metadata head = false := by
      by_contra hmatches
      rw [partOf, if_pos (by simp [hpatch, hmem, hmatches])] at h
      cases h
    simp [hmem, hmatches]
  · simp [hmem, mt hself hmem]

theorem selectSeriesPatch_of_some {state} {entry : ThreadMessage × ℕ}
    {s : PatchsetMetadata × SeriesPatch} (h : partOf lower head descendants entry.1 = some s) :
    selectSeriesPatch lower requested head descendants state entry =
      if s.1.index = 0 ∨ s.1.index > head.total ∨ s.1.index ≠ s.2.partIndex then
        .error (partError "invalid" requested s.1.index head.total)
      else if s.1.index ∈ state.2 then
        .error (partError "duplicate" requested s.1.index head.total)
      else .ok (state.1 ++ [s], insert s.1.index state.2) := by
  rcases entry with ⟨m, i⟩
  obtain ⟨rfl, hmem, hmatches⟩ := partOf_eq_some h
  have hpatch : s.1.isPatchOrCover = true := by
    by_contra hnot
    rw [partOf, if_neg (by simp [hnot])] at h
    cases h
  rw [selectSeriesPatch]
  simp [hpatch, hmem, hmatches]

/-- The parts of the series among the messages. -/
def partsOf (lower : String → String) (head : ParsedSeriesHead) (descendants : Finset String)
    (messages : List ThreadMessage) : List (PatchsetMetadata × SeriesPatch) :=
  messages.filterMap (partOf lower head descendants)

/-- The loop takes every part of the series, if each is valid and none comes twice. -/
theorem foldlM_selectSeriesPatch (entries : List (ThreadMessage × ℕ))
    (hself : ∀ e ∈ entries, e.2 = head.sourceIndex →
      cleanMessageId e.1.1.messageId ∈ descendants)
    (selected selected' : List (PatchsetMetadata × SeriesPatch)) (seen : Finset ℕ) :
    (∃ seen', entries.foldlM (selectSeriesPatch lower requested head descendants)
      (selected, seen) = .ok (selected', seen')) ↔
    (∀ s ∈ partsOf lower head descendants (entries.map Prod.fst),
      ValidPart head s ∧ s.1.index ∉ seen) ∧
      (partIndexes (partsOf lower head descendants (entries.map Prod.fst))).Nodup ∧
      selected' = selected ++ partsOf lower head descendants (entries.map Prod.fst) := by
  induction entries generalizing selected seen with
  | nil =>
    constructor
    · rintro ⟨seen', h⟩
      cases h
      simp [partsOf, partIndexes]
    · rintro ⟨-, -, rfl⟩
      exact ⟨seen, by simp [partsOf]; rfl⟩
  | cons entry entries ih =>
    have ih := ih fun e he => hself e (List.mem_cons_of_mem _ he)
    rw [List.foldlM_cons, List.map_cons]
    rcases hpart : partOf lower head descendants entry.1 with _ | s
    · rw [selectSeriesPatch_of_none (hself entry List.mem_cons_self) hpart, partsOf,
        List.filterMap_cons_none hpart]
      exact ih selected seen
    · rw [selectSeriesPatch_of_some hpart, partsOf, List.filterMap_cons_some hpart, partIndexes,
        List.map_cons, List.nodup_cons, List.forall_mem_cons]
      split_ifs with hinvalid hseen
      · refine iff_of_false (fun ⟨_, h⟩ => by cases h) fun ⟨⟨hfirst, _⟩, _⟩ => ?_
        have := hfirst.1
        unfold ValidPart at this
        omega
      · exact iff_of_false (fun ⟨_, h⟩ => by cases h) fun ⟨⟨hfirst, _⟩, _⟩ => hfirst.2 hseen
      · have hvalid : ValidPart head s := by
          unfold ValidPart
          omega
        refine (ih (selected ++ [s]) (insert s.1.index seen)).trans ?_
        simp only [Finset.mem_insert, not_or, List.append_assoc, List.singleton_append,
          List.mem_map, not_exists, not_and, partsOf, partIndexes]
        constructor
        · rintro ⟨hall, hnodup, rfl⟩
          exact ⟨⟨⟨hvalid, hseen⟩, fun x hx => ⟨(hall x hx).1, (hall x hx).2.2⟩⟩,
            ⟨fun x hx => (hall x hx).2.1, hnodup⟩, rfl⟩
        · rintro ⟨⟨-, hall⟩, ⟨hfresh, hnodup⟩, rfl⟩
          exact ⟨fun x hx => ⟨(hall x hx).1, hfresh x hx, (hall x hx).2⟩, hnodup, rfl⟩

/-- Success is a matter of the parts alone: each is valid, none comes twice, and all are there. -/
theorem selectSeriesPatches_ok
    (hself : ∀ m, parsed[head.sourceIndex]? = some m → cleanMessageId m.1.messageId ∈ descendants)
    {selected : List (PatchsetMetadata × SeriesPatch)} :
    selectSeriesPatches lower parsed requested head descendants = .ok selected ↔
      (∀ s ∈ partsOf lower head descendants parsed, ValidPart head s) ∧
      (partIndexes (partsOf lower head descendants parsed)).Nodup ∧
      (partsOf lower head descendants parsed).length = head.total ∧
      selected = sortByKey (fun s => s.1.index) (partsOf lower head descendants parsed) := by
  have hentries : ∀ e ∈ parsed.zipIdx, e.2 = head.sourceIndex →
      cleanMessageId e.1.1.messageId ∈ descendants :=
    fun e he hi => hself e.1 (hi ▸ List.mem_zipIdx_iff_getElem?.mp he)
  have hloop := fun taken =>
    @foldlM_selectSeriesPatch lower requested head descendants parsed.zipIdx hentries [] taken ∅
  simp only [List.zipIdx_map_fst, Finset.notMem_empty, not_false_eq_true, and_true,
    List.nil_append] at hloop
  constructor
  · intro h
    obtain ⟨⟨taken, seen⟩, hfold, h⟩ := bind_ok h
    obtain ⟨hvalid, hnodup, rfl⟩ := (hloop taken).mp ⟨seen, hfold⟩
    dsimp only at h
    split_ifs at h with hcount
    cases h
    exact ⟨hvalid, hnodup, not_not.mp hcount, rfl⟩
  · rintro ⟨hvalid, hnodup, hcount, rfl⟩
    obtain ⟨seen, hfold⟩ := (hloop _).mpr ⟨hvalid, hnodup, rfl⟩
    rw [selectSeriesPatches, hfold]
    change (if _ then _ else _) = _
    rw [if_neg (not_not.mpr hcount)]

end Parts

/-! ### The selection -/

section Spec

variable {lower : String → String} {requested : String} {head : ParsedSeriesHead}
  {selected : List (PatchsetMetadata × SeriesPatch)}

/-- The head is the message at its place, and the only one with its id. -/
theorem head_message (hhead : selectSeriesHead lower parsed requested = .ok head) :
    ∃ message, parsed[head.sourceIndex]? = some message ∧
      message.1.messageId = head.messageId ∧ cleanMessageId head.messageId = requested ∧
      ∀ m ∈ parsed, cleanMessageId m.1.messageId = requested → m = message := by
  obtain ⟨message, hmatch, hat, hcheck⟩ := selectSeriesHead_ok hhead
  have hid : head.messageId = message.1.messageId := by
    rw [checkSeriesHead] at hcheck
    split_ifs at hcheck
    exact (congrArg ParsedSeriesHead.messageId (Except.ok.inj hcheck)).symm
  have hmem : message ∈ matchingHeads parsed requested := hmatch ▸ List.mem_singleton_self message
  have hrequested : cleanMessageId message.1.messageId = requested :=
    of_decide_eq_true (List.mem_filter.mp hmem).2
  refine ⟨message, hat, hid.symm, hid ▸ hrequested, fun m hm hmid => ?_⟩
  have hmatches : m ∈ matchingHeads parsed requested :=
    List.mem_filter.mpr ⟨hm, decide_eq_true hmid⟩
  rw [hmatch] at hmatches
  exact List.mem_singleton.mp hmatches

theorem head_descends (hhead : selectSeriesHead lower parsed requested = .ok head) :
    ∀ m, parsed[head.sourceIndex]? = some m → cleanMessageId m.1.messageId ∈
      expandDescendants parsed {cleanMessageId head.messageId} := by
  intro m hm
  obtain ⟨message, hat, hid, -⟩ := head_message hhead
  obtain rfl : message = m := Option.some.inj (hat.symm.trans hm)
  rw [hid]
  exact mem_expandDescendants.mpr (.inl (Finset.mem_singleton_self _))

theorem selectFromMbox_ok : selectFromMbox lower parsed requested = .ok (head, selected) ↔
    selectSeriesHead lower parsed (cleanMessageId requested) = .ok head ∧
      selectSeriesPatches lower parsed (cleanMessageId requested) head
        (expandDescendants parsed {cleanMessageId head.messageId}) = .ok selected := by
  constructor
  · intro h
    obtain ⟨head', hhead, h⟩ := bind_ok h
    obtain ⟨selected', hselected, h⟩ := bind_ok h
    cases h
    exact ⟨hhead, hselected⟩
  · rintro ⟨hhead, hselected⟩
    rw [selectFromMbox, hhead]
    change (selectSeriesPatches lower parsed _ head _ >>= _) = _
    rw [hselected]
    rfl

theorem sortByKey_parts_perm {parts parts' : List (PatchsetMetadata × SeriesPatch)}
    (h : parts.Perm parts') (hnodup : (partIndexes parts).Nodup) :
    sortByKey (fun s => s.1.index) parts = sortByKey (fun s => s.1.index) parts' :=
  sortByKey_perm (fun _ ha _ hb hab => List.inj_on_of_nodup_map hnodup ha hb hab) h

theorem selectFromMbox_perm (h : parsed.Perm parsed')
    (hok : selectFromMbox lower parsed requested = .ok (head, selected)) :
    ∃ i, selectFromMbox lower parsed' requested = .ok ({ head with sourceIndex := i }, selected) := by
  obtain ⟨hhead, hselected⟩ := selectFromMbox_ok.mp hok
  obtain ⟨i, hhead'⟩ := selectSeriesHead_perm h hhead
  refine ⟨i, selectFromMbox_ok.mpr ⟨hhead', ?_⟩⟩
  obtain ⟨hvalid, hnodup, hcount, rfl⟩ :=
    (selectSeriesPatches_ok (head_descends hhead)).mp hselected
  have hsame : expandDescendants parsed' {cleanMessageId head.messageId} =
      expandDescendants parsed {cleanMessageId head.messageId} := (expandDescendants_perm h _).symm
  have hparts : (partsOf lower head (expandDescendants parsed {cleanMessageId head.messageId})
      parsed).Perm (partsOf lower head
        (expandDescendants parsed' {cleanMessageId head.messageId}) parsed') := by
    rw [hsame]
    exact h.filterMap _
  refine (selectSeriesPatches_ok (head_descends hhead')).mpr ⟨?_, ?_, ?_, ?_⟩
  · exact fun s hs => hvalid s (hparts.mem_iff.mpr hs)
  · exact ((hparts.map _).nodup_iff).mp hnodup
  · exact hparts.length_eq.symm.trans hcount
  · exact sortByKey_parts_perm hparts hnodup

/-- Parts with places from one to the total, each once and as many as the total, are all of them. -/
theorem partIndexes_sorted {parts : List (PatchsetMetadata × SeriesPatch)}
    (hvalid : ∀ s ∈ parts, ValidPart head s) (hnodup : (partIndexes parts).Nodup)
    (hcount : parts.length = head.total) :
    partIndexes (sortByKey (fun s => s.1.index) parts) = List.range' 1 head.total := by
  have hwithin : partIndexes parts ⊆ List.range' 1 head.total := by
    intro i hi
    obtain ⟨s, hs, rfl⟩ := List.mem_map.mp hi
    obtain ⟨hne, hle, -⟩ := hvalid s hs
    rw [List.mem_range'_1]
    omega
  have hall : (partIndexes parts).Perm (List.range' 1 head.total) := by
    refine (List.subperm_of_subset hnodup hwithin).perm_of_length_le ?_
    rw [List.length_range', partIndexes, List.length_map, hcount]
  have hperm : (partIndexes (sortByKey (fun s => s.1.index) parts)).Perm (partIndexes parts) :=
    (List.mergeSort_perm _ _).map _
  have hsorted : (partIndexes (sortByKey (fun s => s.1.index) parts)).Pairwise (· ≤ ·) :=
    List.pairwise_map.mpr (pairwise_sortByKey _ parts)
  have hrange : (List.range' 1 head.total).Pairwise (· < ·) := List.pairwise_lt_range'
  exact (hperm.trans hall).eq_of_pairwise' hsorted (hrange.imp le_of_lt)

/-- What a part of the selection owes to the head. -/
structure BelongsTo (lower : String → String) (parsed : List ThreadMessage)
    (head : ParsedSeriesHead) (s : PatchsetMetadata × SeriesPatch) : Prop where
  mem : (s.1, some s.2) ∈ parsed
  part : s.2.partIndex = s.1.index
  author : authorsMatch lower head.author s.1.author = true
  total : s.1.total = head.total
  version : s.1.version.getD 1 = head.version
  descends : parsed[head.sourceIndex]? = some (s.1, some s.2) ∨
    ∃ m ∈ parsed, cleanMessageId m.1.messageId = cleanMessageId s.1.messageId ∧
      ChainTo parsed (cleanMessageId head.messageId) m

theorem selectFromMbox_parts
    (hok : selectFromMbox lower parsed requested = .ok (head, selected)) :
    partIndexes selected = List.range' 1 head.total ∧
      ∀ s ∈ selected, BelongsTo lower parsed head s := by
  obtain ⟨hhead, hselected⟩ := selectFromMbox_ok.mp hok
  obtain ⟨hvalid, hnodup, hcount, rfl⟩ :=
    (selectSeriesPatches_ok (head_descends hhead)).mp hselected
  refine ⟨partIndexes_sorted hvalid hnodup hcount, fun s hs => ?_⟩
  have hpart := mem_sortByKey.mp hs
  obtain ⟨m, hm, hsome⟩ := List.mem_filterMap.mp hpart
  obtain ⟨rfl, hdescends, hmatches⟩ := partOf_eq_some hsome
  simp only [metadataMatchesSeries, Bool.and_eq_true, decide_eq_true_iff] at hmatches
  refine ⟨hm, (hvalid s hpart).2.2.symm, hmatches.2, hmatches.1.1, hmatches.1.2, ?_⟩
  rcases mem_expandDescendants.mp hdescends with hself | ⟨m', hm', hid, a, ha, hchain⟩
  · obtain ⟨message, hat, -, hrequested, hunique⟩ := head_message hhead
    left
    rw [hat, hunique _ hm ((Finset.mem_singleton.mp hself).trans hrequested)]
  · rw [Finset.mem_singleton.mp ha] at hchain
    exact .inr ⟨m', hm', hid, hchain⟩

/-- The selection does not depend on the order of the messages. It is the parts of the series from
the first to the last, each of them the head or under the id of a message from which a chain leads
to the head; and what descends from given ids is just what chains lead from. -/
theorem selectFromMbox_spec (lower : String → String) (parsed : List ThreadMessage)
    (requested : String) :
    (∀ parsed', parsed'.Perm parsed → (selectFromMbox lower parsed' requested).toOption.map Prod.snd =
      (selectFromMbox lower parsed requested).toOption.map Prod.snd) ∧
    (∀ head selected, selectFromMbox lower parsed requested = .ok (head, selected) →
      partIndexes selected = List.range' 1 head.total ∧
        ∀ s ∈ selected, BelongsTo lower parsed head s) ∧
    ∀ descendants x, x ∈ expandDescendants parsed descendants ↔ x ∈ descendants ∨
      ∃ m ∈ parsed, cleanMessageId m.1.messageId = x ∧
        ∃ a ∈ descendants, ChainTo parsed a m := by
  refine ⟨fun parsed' h => ?_, fun head selected => selectFromMbox_parts,
    fun descendants x => mem_expandDescendants⟩
  rcases hok : selectFromMbox lower parsed requested with e | ⟨head, selected⟩
  · rcases hok' : selectFromMbox lower parsed' requested with e' | ⟨head', selected'⟩
    · rfl
    · obtain ⟨i, hi⟩ := selectFromMbox_perm h hok'
      rw [hok] at hi
      cases hi
  · obtain ⟨i, hi⟩ := selectFromMbox_perm h.symm hok
    rw [hi]
    rfl

end Spec

/-- A cover letter, its first part, and another message under the id of that part. -/
def sharedIdThread : List ThreadMessage :=
  [(⟨"c", "[PATCH 0/2] x", "ann@b.org", 0, none, [], 0, 2, true, none, ""⟩, none),
    (⟨"a", "[PATCH 1/2] x", "ann@b.org", 0, some "<c>", [], 1, 2, true, none, ""⟩,
      some ⟨"a", "", "", 1⟩),
    (⟨"a", "[PATCH 2/2] x", "ann@b.org", 0, none, [], 2, 2, true, none, ""⟩,
      some ⟨"a", "", "", 2⟩)]

theorem expandDescendants_sharedId :
    expandDescendants sharedIdThread {"c"} = {"a", "c"} := by
  rw [expandDescendants, saturate, if_pos (by decide), saturate,
    if_neg (by decide)]
  decide

def sharedIdHead : ParsedSeriesHead := ⟨0, "c", "ann@b.org", "", 2, 1⟩

def sharedIdParts : List (PatchsetMetadata × SeriesPatch) :=
  [(⟨"a", "[PATCH 1/2] x", "ann@b.org", 0, some "<c>", [], 1, 2, true, none, ""⟩,
      ⟨"a", "", "", 1⟩),
    (⟨"a", "[PATCH 2/2] x", "ann@b.org", 0, none, [], 2, 2, true, none, ""⟩, ⟨"a", "", "", 2⟩)]

/-- The other message is taken for a part, though nothing in it leads to the head. -/
theorem sharedId_selected : ∃ head selected,
    selectFromMbox asciiLower sharedIdThread "c" = .ok (head, selected) ∧
      ∃ s ∈ selected, sharedIdThread[head.sourceIndex]? ≠ some (s.1, some s.2) ∧
        ¬ChainTo sharedIdThread (cleanMessageId head.messageId) (s.1, some s.2) := by
  have hclean : cleanMessageId "c" = "c" := by decide
  have hhead : selectSeriesHead asciiLower sharedIdThread "c" = .ok sharedIdHead := by
    decide
  have hparts : partsOf asciiLower sharedIdHead {"a", "c"} sharedIdThread = sharedIdParts := by
    decide
  have hvalid : ∀ s ∈ sharedIdParts, ValidPart sharedIdHead s := by
    simp [sharedIdParts, ValidPart, sharedIdHead]
  have hself : ∀ m, sharedIdThread[sharedIdHead.sourceIndex]? = some m →
      cleanMessageId m.1.messageId ∈ ({"a", "c"} : Finset String) := by
    intro m hm
    obtain rfl := Option.some.inj hm
    decide
  have hselected : selectSeriesPatches asciiLower sharedIdThread "c" sharedIdHead {"a", "c"} =
      .ok (sortByKey (fun s => s.1.index) sharedIdParts) :=
    (selectSeriesPatches_ok hself).mpr (by
      rw [hparts]
      exact ⟨hvalid, by decide, rfl, rfl⟩)
  refine ⟨sharedIdHead, sortByKey (fun s => s.1.index) sharedIdParts,
    selectFromMbox_ok.mpr ⟨hclean.symm ▸ hhead, ?_⟩, _,
    mem_sortByKey.mpr (List.mem_cons_of_mem _ List.mem_cons_self), ?_, ?_⟩
  · rw [show sharedIdHead.messageId = "c" from rfl, hclean, expandDescendants_sharedId]
    exact hselected
  · decide
  · rintro (hlink | ⟨-, hlink, -⟩) <;> cases hlink

end Sashiko
