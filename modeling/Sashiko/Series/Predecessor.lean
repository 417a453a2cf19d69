import Mathlib.Data.Prod.Lex
import Mathlib.Order.MinMax
import Sashiko.Lib.SortedSet

/-! The previous version of a series, picked among the qualifying candidates. A candidate drops out
once a later posting follows it in the series, and of those that are left the highest tag wins.

That a posting replaces an earlier one is no order: tags may restart, so that a candidate replaces
one that itself replaces it by the tags alone. What keeps the choice sound is the date, by which
the last posting is never replaced. -/

namespace Sashiko

/-- Stage of a posting as declared by its subject tags. -/
inductive SeriesStage where
  | rfc
  | patch
  deriving DecidableEq, Repr

/-- How a newer posting's subject tag relates to an older posting's tag. -/
inductive RevisionStep where
  | advances
  | sameLabel
  | regresses
  deriving DecidableEq, Repr

structure SubjectRevision where
  stage : SeriesStage
  number : ℕ
  deriving DecidableEq, Repr

/-- Classifies an older posting followed by `next`. -/
def SubjectRevision.stepTo (self next : SubjectRevision) : RevisionStep :=
  if self.stage = .rfc ∧ next.stage = .patch then .advances
  else if next.number > self.number then .advances
  else if next.number = self.number then .sameLabel
  else .regresses

/-- What linked a series to its previous version, strongest first. -/
inductive VersionLinkSignal where
  | changeId
  | messageRef
  | subjectAuthor
  deriving DecidableEq, Repr

namespace VersionLinkSignal

/-- Message references can name unrelated series; the other signals identify one. -/
def sameVersionIsSameSeries : VersionLinkSignal → Bool
  | .changeId | .subjectAuthor => true
  | .messageRef => false

def laterCandidateReplaces (signal : VersionLinkSignal) : RevisionStep → Bool
  | .advances => true
  | .sameLabel => signal.sameVersionIsSameSeries
  | .regresses => false

end VersionLinkSignal

structure LineageCandidate where
  id : ℤ
  subject : String
  subjectIndex : ℕ
  author : String
  date : ℤ
  totalParts : ℕ
  coverId : Option String
  version : ℕ
  revision : SubjectRevision
  deriving DecidableEq, Repr

inductive PredecessorChoice where
  | noCandidate
  | ambiguous (ids : List ℤ)
  | chosen (pred : LineageCandidate)
  deriving DecidableEq, Repr

namespace LineageCandidate

def posting (c : LineageCandidate) : ℤ ×ₗ ℤ := toLex (c.date, c.id)

def tagRank (c : LineageCandidate) : ℕ ×ₗ Bool :=
  toLex (c.revision.number, c.revision.stage = .patch)

/-- The newer candidate was posted later and follows the older one in the series. -/
def replaces (signal : VersionLinkSignal) (newer older : LineageCandidate) : Bool :=
  newer.date > older.date &&
    signal.laterCandidateReplaces (older.revision.stepTo newer.revision)

end LineageCandidate

open LineageCandidate

def newestPostings (candidates : List LineageCandidate) (signal : VersionLinkSignal) :
    List LineageCandidate :=
  candidates.filter fun older => !candidates.any (replaces signal · older)

def choosePredecessor (candidates : List LineageCandidate) (signal : VersionLinkSignal) :
    PredecessorChoice :=
  let newest := newestPostings (dedupByKey (·.id) (sortByKey posting candidates)) signal
  match (newest.map tagRank).max? with
  | none => .noCandidate
  | some top =>
    let topRanked := newest.filter (tagRank · = top)
    if topRanked.length > 1 && !signal.sameVersionIsSameSeries then
      .ambiguous (topRanked.map (·.id))
    else
      match topRanked.getLast? with
      | some latest => .chosen latest
      | none => .noCandidate

/-- No candidate was posted strictly later that follows this one in the series. -/
def Undominated (signal : VersionLinkSignal) (candidates : List LineageCandidate)
    (c : LineageCandidate) : Prop :=
  ∀ newer ∈ candidates, c.date < newer.date →
    signal.laterCandidateReplaces (c.revision.stepTo newer.revision) = false

/-- An undominated candidate that no other undominated candidate outranks. -/
structure TopRanked (signal : VersionLinkSignal) (candidates : List LineageCandidate)
    (c : LineageCandidate) : Prop where
  mem : c ∈ candidates
  undominated : Undominated signal candidates c
  highest : ∀ x ∈ candidates, Undominated signal candidates x → tagRank x ≤ tagRank c

variable {signal : VersionLinkSignal} {cs : List LineageCandidate}

theorem posting_injective (a b : LineageCandidate) (h : posting a = posting b) : a.id = b.id :=
  congrArg (fun p : ℤ ×ₗ ℤ => (ofLex p).2) h

/-! ### What one list of distinct candidates gives -/

theorem mem_newestPostings {c : LineageCandidate} :
    c ∈ newestPostings cs signal ↔ c ∈ cs ∧ Undominated signal cs c := by
  simp [newestPostings, Undominated, replaces]

/-- The posting of the latest date is never replaced. -/
theorem exists_newestPostings (h : cs ≠ []) : ∃ c, c ∈ newestPostings cs signal := by
  obtain ⟨m, hm⟩ : ∃ m, (cs.map (·.date)).max? = some m :=
    Option.ne_none_iff_exists'.mp (by simpa using h)
  obtain ⟨hmem, hmax⟩ := List.max?_eq_some_iff.mp hm
  obtain ⟨c, hc, rfl⟩ := List.mem_map.mp hmem
  refine ⟨c, mem_newestPostings.mpr ⟨hc, fun newer hnewer hlt => ?_⟩⟩
  exact absurd (hmax _ (List.mem_map_of_mem hnewer)) (not_le.mpr hlt)

/-- The top-ranked postings of the candidates, in the order of the list. -/
def topPostings (candidates : List LineageCandidate) (signal : VersionLinkSignal) :
    List LineageCandidate :=
  match ((newestPostings candidates signal).map tagRank).max? with
  | none => []
  | some top => (newestPostings candidates signal).filter (tagRank · = top)

theorem mem_topPostings {c : LineageCandidate} :
    c ∈ topPostings cs signal ↔ TopRanked signal cs c := by
  unfold topPostings
  rcases hmax : ((newestPostings cs signal).map tagRank).max? with _ | top
  · refine iff_of_false List.not_mem_nil fun h => ?_
    have hnil := List.map_eq_nil_iff.mp (List.max?_eq_none_iff.mp hmax)
    exact List.not_mem_nil (hnil ▸ mem_newestPostings.mpr ⟨h.mem, h.undominated⟩)
  · obtain ⟨hmem, hle⟩ := List.max?_eq_some_iff.mp hmax
    rw [List.mem_filter, decide_eq_true_iff, mem_newestPostings]
    constructor
    · rintro ⟨⟨hc, hund⟩, rfl⟩
      refine ⟨hc, hund, fun x hx hxund => hle _ ?_⟩
      exact List.mem_map_of_mem (mem_newestPostings.mpr ⟨hx, hxund⟩)
    · intro h
      obtain ⟨x, hx, hxtop⟩ := List.mem_map.mp hmem
      obtain ⟨hxmem, hxund⟩ := mem_newestPostings.mp hx
      refine ⟨⟨h.mem, h.undominated⟩, le_antisymm (hle _ ?_) ?_⟩
      · exact List.mem_map_of_mem (mem_newestPostings.mpr ⟨h.mem, h.undominated⟩)
      · exact hxtop ▸ h.highest x hxmem hxund

theorem topPostings_ne_nil (h : cs ≠ []) : topPostings cs signal ≠ [] := by
  obtain ⟨c, hc⟩ := @exists_newestPostings signal _ h
  unfold topPostings
  rcases hmax : ((newestPostings cs signal).map tagRank).max? with _ | top
  · rw [List.max?_eq_none_iff, List.map_eq_nil_iff] at hmax
    exact absurd (hmax ▸ hc) List.not_mem_nil
  · obtain ⟨x, hx, hxtop⟩ := List.mem_map.mp (List.max?_mem hmax)
    exact List.ne_nil_of_mem (List.mem_filter.mpr ⟨hx, decide_eq_true hxtop⟩)

theorem topPostings_sublist : (topPostings cs signal).Sublist cs := by
  unfold topPostings
  split
  · exact List.nil_sublist cs
  · exact List.filter_sublist.trans List.filter_sublist

/-! ### What a list with repeated candidates gives -/

/-- The candidates in the order of their dates, each once. -/
def distinctCandidates (candidates : List LineageCandidate) : List LineageCandidate :=
  sortedSet posting (·.id) candidates

theorem choosePredecessor_eq (candidates : List LineageCandidate) (signal : VersionLinkSignal) :
    choosePredecessor candidates signal =
      let top := topPostings (distinctCandidates candidates) signal
      if top.length > 1 && !signal.sameVersionIsSameSeries then .ambiguous (top.map (·.id))
      else (top.getLast?.map .chosen).getD .noCandidate := by
  unfold choosePredecessor topPostings distinctCandidates sortedSet
  generalize newestPostings _ signal = newest
  dsimp only
  rcases (newest.map tagRank).max? with _ | top
  · rfl
  · dsimp only
    split_ifs
    · rfl
    · rcases (newest.filter (tagRank · = top)).getLast? with _ | latest <;> rfl

theorem undominated_congr {ds : List LineageCandidate} (h : ∀ c, c ∈ ds ↔ c ∈ cs)
    (c : LineageCandidate) : Undominated signal ds c ↔ Undominated signal cs c := by
  simp only [Undominated, h]

theorem topRanked_congr {ds : List LineageCandidate} (h : ∀ c, c ∈ ds ↔ c ∈ cs)
    (c : LineageCandidate) : TopRanked signal ds c ↔ TopRanked signal cs c := by
  constructor
  · intro ht
    exact ⟨(h c).mp ht.mem, (undominated_congr h c).mp ht.undominated,
      fun x hx hund => ht.highest x ((h x).mpr hx) ((undominated_congr h x).mpr hund)⟩
  · intro ht
    exact ⟨(h c).mpr ht.mem, (undominated_congr h c).mpr ht.undominated,
      fun x hx hund => ht.highest x ((h x).mp hx) ((undominated_congr h x).mp hund)⟩

variable (hids : SeparatedBy LineageCandidate.id cs)
include hids

theorem mem_distinctCandidates {c : LineageCandidate} : c ∈ distinctCandidates cs ↔ c ∈ cs :=
  mem_sortedSet hids

theorem mem_topPostings_distinct {c : LineageCandidate} :
    c ∈ topPostings (distinctCandidates cs) signal ↔ TopRanked signal cs c :=
  mem_topPostings.trans (topRanked_congr (fun _ => mem_distinctCandidates hids) c)

theorem nodup_topPostings_ids :
    ((topPostings (distinctCandidates cs) signal).map (·.id)).Nodup := by
  have hnodup : (distinctCandidates cs).Nodup :=
    (pairwise_sortedSet posting_injective cs).imp fun h hab => (hab ▸ h).ne rfl
  refine (hnodup.sublist topPostings_sublist).map_on fun a ha b hb hab => ?_
  have ha' := (mem_topPostings_distinct hids).mp ha
  have hb' := (mem_topPostings_distinct hids).mp hb
  exact hids a ha'.mem b hb'.mem hab

theorem choosePredecessor_chosen {c : LineageCandidate}
    (h : choosePredecessor cs signal = .chosen c) : TopRanked signal cs c := by
  rw [choosePredecessor_eq] at h
  simp only at h
  split_ifs at h
  rcases hlast : (topPostings (distinctCandidates cs) signal).getLast? with _ | latest
  · rw [hlast] at h
    cases h
  · rw [hlast] at h
    obtain rfl : latest = c := PredecessorChoice.chosen.inj h
    exact (mem_topPostings_distinct hids).mp (List.mem_of_getLast? hlast)

theorem choosePredecessor_noCandidate (h : choosePredecessor cs signal = .noCandidate) :
    cs = [] := by
  rw [choosePredecessor_eq] at h
  simp only at h
  split_ifs at h
  rcases hlast : (topPostings (distinctCandidates cs) signal).getLast? with _ | latest
  · have hnil : distinctCandidates cs = [] :=
      not_not.mp fun hne => topPostings_ne_nil hne (List.getLast?_eq_none_iff.mp hlast)
    refine List.eq_nil_iff_forall_not_mem.mpr fun c hc => ?_
    exact List.not_mem_nil (hnil ▸ (mem_distinctCandidates hids).mpr hc)
  · rw [hlast] at h
    cases h

theorem choosePredecessor_ambiguous {ids : List ℤ}
    (h : choosePredecessor cs signal = .ambiguous ids) :
    signal.sameVersionIsSameSeries = false ∧ ids.Nodup ∧ 2 ≤ ids.length ∧
      ∀ id, id ∈ ids ↔ ∃ c, c.id = id ∧ TopRanked signal cs c := by
  rw [choosePredecessor_eq] at h
  simp only at h
  split_ifs at h with hmany
  · obtain rfl := PredecessorChoice.ambiguous.inj h
    rw [Bool.and_eq_true, decide_eq_true_iff, Bool.not_eq_true'] at hmany
    refine ⟨hmany.2, nodup_topPostings_ids hids, ?_, fun id => ?_⟩
    · rw [List.length_map]
      exact hmany.1
    · simp only [List.mem_map, mem_topPostings_distinct hids, and_comm]
  · rcases hlast : (topPostings (distinctCandidates cs) signal).getLast? with _ | latest <;>
      rw [hlast] at h <;> cases h

theorem choosePredecessor_congr {ds : List LineageCandidate} (h : ∀ c, c ∈ ds ↔ c ∈ cs) :
    choosePredecessor ds signal = choosePredecessor cs signal := by
  have hsame : distinctCandidates ds = distinctCandidates cs :=
    sortedSet_congr posting_injective hids h
  rw [choosePredecessor_eq, choosePredecessor_eq, hsame]

/-- The choice depends on which candidates there are, not on their order or on repetitions. What
is chosen is the newest posting of the series with the highest tag, and nothing is chosen only
where there is no candidate, or where the signal cannot tell two of the highest tag apart. -/
theorem choosePredecessor_spec :
    (∀ ds : List LineageCandidate, (∀ c, c ∈ ds ↔ c ∈ cs) →
      choosePredecessor ds signal = choosePredecessor cs signal) ∧
    (∀ c, choosePredecessor cs signal = .chosen c → c ∈ cs ∧
      (∀ newer ∈ cs, c.date < newer.date →
        signal.laterCandidateReplaces (c.revision.stepTo newer.revision) = false) ∧
      ∀ x ∈ cs, Undominated signal cs x → tagRank x ≤ tagRank c) ∧
    (choosePredecessor cs signal = .noCandidate → cs = []) ∧
    ∀ ids, choosePredecessor cs signal = .ambiguous ids →
      signal.sameVersionIsSameSeries = false ∧ ids.Nodup ∧ 2 ≤ ids.length ∧
        ∀ id, id ∈ ids ↔ ∃ c, c.id = id ∧ TopRanked signal cs c := by
  refine ⟨fun ds => choosePredecessor_congr hids, fun c hc => ?_,
    choosePredecessor_noCandidate hids, fun ids => choosePredecessor_ambiguous hids⟩
  have h := choosePredecessor_chosen hids hc
  exact ⟨h.mem, h.undominated, h.highest⟩

omit hids

/-- The postings `RFC v2`, `v1`, `v2` of one series, each of which replaces the one before. -/
def restartedTags : List LineageCandidate :=
  [⟨1, "[RFC PATCH v2] x", 1, "", 10, 1, none, 2, ⟨.rfc, 2⟩⟩,
    ⟨2, "[PATCH] x", 1, "", 20, 1, none, 1, ⟨.patch, 1⟩⟩,
    ⟨3, "[PATCH v2] x", 1, "", 30, 1, none, 2, ⟨.patch, 2⟩⟩]

theorem choosePredecessor_restartedTags :
    (∀ ds : List LineageCandidate, (∀ c, c ∈ ds ↔ c ∈ restartedTags) →
      choosePredecessor ds .messageRef = choosePredecessor restartedTags .messageRef) ∧
    choosePredecessor restartedTags .messageRef =
      .chosen ⟨3, "[PATCH v2] x", 1, "", 30, 1, none, 2, ⟨.patch, 2⟩⟩ := by
  have hids : SeparatedBy LineageCandidate.id restartedTags := by
    unfold SeparatedBy
    decide
  have hsorted : sortByKey posting restartedTags = restartedTags :=
    List.mergeSort_of_pairwise (by decide)
  refine ⟨(choosePredecessor_spec hids).1, ?_⟩
  rw [choosePredecessor, hsorted]
  decide

end Sashiko
