import Sashiko.Access.Principal
import Sashiko.Lib.Paging
import Mathlib.Data.List.Dedup

/-! The rows that attribute bugs to sections, read for one bug's page and for the list of bugs. -/

namespace Sashiko

inductive SubsystemSource where
  | maintainersSection
  | pathPrefix
  | callerSupplied
  | upstreamGrant
  deriving DecidableEq, Repr

structure ListedBugRow where
  id : ℤ
  createdAt : ℤ
  deriving DecidableEq, Repr

/-- A row of `bug_subsystems`. -/
structure BugSubsystemRow where
  bugId : ℤ
  subsystem : String
  source : SubsystemSource
  deriving DecidableEq, Repr

/-- A row of `bug_upstream_sections`. -/
structure BugUpstreamSectionRow where
  bugId : ℤ
  subsystem : String
  deriving DecidableEq, Repr

structure AttributionStore where
  bugs : List ListedBugRow
  bugSubsystems : List BugSubsystemRow
  bugUpstreamSections : List BugUpstreamSectionRow

structure ListBugsParams where
  page : Option ℕ
  limit : Option ℕ
  visibility : BugVisibility

namespace AttributionStore

/-- `SELECT bug_id, subsystem`, from the two tables that confer authority. -/
def authorizingRows (s : AttributionStore) : List (ℤ × String) :=
  ((s.bugSubsystems.filter (·.source = .maintainersSection)).map fun r => (r.bugId, r.subsystem)) ++
    s.bugUpstreamSections.map fun r => (r.bugId, r.subsystem)

/-- The entry of the map is missing where no row names the bug. -/
def authorizingSectionsForBugs (s : AttributionStore) (bugIds : List ℤ) (id : ℤ) :
    Option (List String) :=
  let rows := (s.authorizingRows.filter fun r => bugIds.contains r.1 && r.1 = id).dedup
  if rows.isEmpty then none
  else some ((rows.map Prod.snd).mergeSort fun a b => !textLt b a)

def authorizingSectionsForBug (s : AttributionStore) (bugId : ℤ) : List String :=
  (s.authorizingSectionsForBugs [bugId] bugId).getD []

def authorizedBugIds (s : AttributionStore) (titles : List String) : List ℤ :=
  (s.authorizingRows.filter fun r => titles.any (eqIgnoreAsciiCase r.2)).map Prod.fst

/-- `ORDER BY created_at DESC, id DESC` -/
def newestFirst (a b : ListedBugRow) : Bool :=
  b.createdAt < a.createdAt || (a.createdAt = b.createdAt && b.id ≤ a.id)

def selectPage (params : ListBugsParams) (bugs : List ListedBugRow) : List ListedBugRow × ℕ :=
  (pageOf (params.limit.getD 50) (params.page.getD 1) (bugs.mergeSort newestFirst), bugs.length)

/-- The page of bugs and the number of all bugs in scope; the caller gives no other filter. -/
def listBugs (s : AttributionStore) (params : ListBugsParams) : List ListedBugRow × ℕ :=
  match params.visibility with
  | .unrestricted => selectPage params s.bugs
  | .sections scope =>
    let titles := (scope.map rustTrim).filter (· ≠ "")
    if titles.isEmpty then ([], 0)
    else selectPage params (s.bugs.filter fun b => (s.authorizedBugIds titles).contains b.id)

end AttributionStore

namespace AttributionStore

/-- Some page of the list of bugs under this visibility shows the bug. -/
def ListedUnder (s : AttributionStore) (limit : Option ℕ) (visibility : BugVisibility)
    (b : ListedBugRow) : Prop :=
  ∃ page, b ∈ (s.listBugs { page, limit, visibility }).1

/-- The bug is attributed, by a row that confers authority, to this title. -/
def Attributed (s : AttributionStore) (b : ListedBugRow) (title : String) : Prop :=
  (b.id, title) ∈ s.authorizingRows

theorem exists_mem_selectPage {limit : Option ℕ} (hlimit : limit ≠ some 0)
    (visibility : BugVisibility) {bugs : List ListedBugRow} {b : ListedBugRow} :
    (∃ page, b ∈ (selectPage { page, limit, visibility } bugs).1) ↔ b ∈ bugs := by
  have hpos : 0 < limit.getD 50 := by
    cases limit with
    | none => exact Nat.zero_lt_succ 49
    | some n => exact Nat.pos_of_ne_zero fun h => hlimit (congrArg some h)
  have hsorted : b ∈ bugs.mergeSort newestFirst ↔ b ∈ bugs := List.mem_mergeSort
  rw [← hsorted, ← exists_mem_pageOf_iff hpos]
  refine ⟨fun ⟨page, h⟩ => ⟨page.getD 1, h⟩, fun ⟨page, h⟩ => ⟨some page, h⟩⟩

theorem listedUnder_unrestricted {s : AttributionStore} {limit : Option ℕ} (hlimit : limit ≠ some 0)
    {b : ListedBugRow} : s.ListedUnder limit .unrestricted b ↔ b ∈ s.bugs :=
  exists_mem_selectPage hlimit _

theorem listedUnder_sections {s : AttributionStore} {limit : Option ℕ} (hlimit : limit ≠ some 0)
    {scope : List String} {b : ListedBugRow} :
    s.ListedUnder limit (.sections scope) b ↔ b ∈ s.bugs ∧ ∃ title, s.Attributed b title ∧
      ∃ name ∈ scope, rustTrim name ≠ "" ∧ eqIgnoreAsciiCase title (rustTrim name) = true := by
  have htitles : ∀ {title},
      ((scope.map rustTrim).filter (· ≠ "")).any (eqIgnoreAsciiCase title) = true ↔
        ∃ name ∈ scope, rustTrim name ≠ "" ∧ eqIgnoreAsciiCase title (rustTrim name) = true := by
    intro title
    simp [List.any_eq_true]
  simp only [ListedUnder, listBugs]
  by_cases hempty : ((scope.map rustTrim).filter (· ≠ "")).isEmpty = true
  · simp only [hempty, if_true, List.not_mem_nil, exists_false, false_iff, not_and, not_exists]
    intro _ title _ name hname hblank
    have hmem : rustTrim name ∈ (scope.map rustTrim).filter (· ≠ "") :=
      List.mem_filter.mpr ⟨List.mem_map_of_mem hname, decide_eq_true hblank⟩
    rw [List.isEmpty_iff.mp hempty] at hmem
    cases hmem
  · simp only [hempty, if_false, Bool.false_eq_true]
    rw [exists_mem_selectPage hlimit, List.mem_filter, and_congr_right_iff]
    intro _
    simp only [authorizedBugIds, List.contains_iff_mem, List.mem_map, List.mem_filter, htitles,
      Attributed]
    constructor
    · rintro ⟨⟨id, title⟩, ⟨hrow, hmatch⟩, rfl⟩
      exact ⟨title, hrow, hmatch⟩
    · rintro ⟨title, hrow, hmatch⟩
      exact ⟨(b.id, title), ⟨hrow, hmatch⟩, rfl⟩

theorem listedUnder_nil {s : AttributionStore} {limit : Option ℕ} {b : ListedBugRow} :
    ¬s.ListedUnder limit (.sections []) b := fun ⟨_, h⟩ => List.not_mem_nil h

theorem mem_authorizingSectionsForBug {s : AttributionStore} {b : ListedBugRow} {title : String} :
    title ∈ s.authorizingSectionsForBug b.id ↔ s.Attributed b title := by
  simp only [authorizingSectionsForBug, authorizingSectionsForBugs, Attributed]
  split_ifs with hempty
  · simp only [Option.getD_none, List.not_mem_nil, false_iff]
    intro h
    have hmem : (b.id, title) ∈
        (s.authorizingRows.filter fun r => [b.id].contains r.1 && r.1 = b.id).dedup :=
      List.mem_dedup.mpr (List.mem_filter.mpr ⟨h, by simp⟩)
    rw [List.isEmpty_iff.mp hempty] at hmem
    cases hmem
  · simp only [Option.getD_some, List.mem_mergeSort, List.mem_map, List.mem_dedup,
      List.mem_filter, Bool.and_eq_true, decide_eq_true_eq]
    constructor
    · rintro ⟨⟨id, title⟩, ⟨hrow, -, rfl⟩, rfl⟩
      exact hrow
    · intro h
      exact ⟨(b.id, title), ⟨h, by simp, rfl⟩, rfl⟩

end AttributionStore

end Sashiko
