import Sashiko.Access.Listing

/-! The list of bugs and the page of a bug agree on who may read it, as long as the titles stored
on bugs are spelled as MAINTAINERS spells them. -/

namespace Sashiko

variable {lower : CharLowercase}

/-! ### Ceilings -/

namespace Principal

/-- The principal without the ceiling of its token. -/
def unlimited (p : Principal lower) : Principal lower := { p with maxAccess := none }

theorem accessToWithBugid_le_unlimited (p : Principal lower)
    (attributed : List (SectionTitle lower)) (hasBugid : Bool) :
    (p.accessToWithBugid attributed hasBugid).rank ≤
      (p.unlimited.accessToWithBugid attributed hasBugid).rank := by
  unfold accessToWithBugid
  split
  · rw [BugAccess.rank_min]
    exact Nat.min_le_left _ _
  · exact le_rfl

theorem accessToWithBugid_le_limit {p : Principal lower} {limit : BugAccess}
    (h : p.maxAccess = some limit) (attributed : List (SectionTitle lower)) (hasBugid : Bool) :
    (p.accessToWithBugid attributed hasBugid).rank ≤ limit.rank := by
  rw [accessToWithBugid, h, BugAccess.rank_min]
  exact Nat.min_le_right _ _

theorem withMaxAccess_eq (p : Principal lower) (max : Option BugAccess) :
    p.withMaxAccess max = { p with maxAccess := max, mayCreate := (p.withMaxAccess max).mayCreate } := by
  unfold withMaxAccess
  split
  · split_ifs <;> rfl
  · rfl

theorem mayCreate_of_withMaxAccess {p : Principal lower} {max : Option BugAccess}
    (h : (p.withMaxAccess max).mayCreate = true) : p.mayCreate = true := by
  unfold withMaxAccess at h
  split at h
  · split_ifs at h
    exact h
  · exact h

theorem hasGlobalBugVisibility_unlimited {p : Principal lower}
    (h : p.hasGlobalBugVisibility = true) : p.unlimited.hasGlobalBugVisibility = true := by
  simp only [hasGlobalBugVisibility, Bool.and_eq_true] at h ⊢
  exact ⟨h.1, rfl⟩

theorem mayViewEmbargoed_unlimited {p : Principal lower} {attributed : List (SectionTitle lower)}
    (h : p.mayViewEmbargoed attributed = true) : p.unlimited.mayViewEmbargoed attributed = true := by
  unfold mayViewEmbargoed at h
  split_ifs at h
  exact h

theorem mayReleaseEmbargo_unlimited {p : Principal lower} {attributed : List (SectionTitle lower)}
    (h : p.mayReleaseEmbargo attributed = true) :
    p.unlimited.mayReleaseEmbargo attributed = true :=
  BugAccess.canManage_of_le (p.accessToWithBugid_le_unlimited attributed false) h

theorem visibility_cases (p : Principal lower) (scope : List String) :
    p.visibility scope = .sections [] ∨ p.visibility scope = p.unlimited.visibility scope := by
  by_cases hceiling : p.ceilingReads = true
  · right
    have hglobal : p.hasGlobalBugVisibility = p.unlimited.hasGlobalBugVisibility := by
      rw [hasGlobalBugVisibility, hceiling]
      rfl
    simp only [visibility, hceiling, hglobal]
    rfl
  · left
    rw [visibility, if_pos (by simpa using hceiling)]

end Principal

/-- What the principal with the ceiling `max` may do, the principal without a ceiling may do, and
no access level is above the ceiling. -/
structure CeilingSound (p : Principal lower) (max : Option BugAccess) : Prop where
  access : ∀ attributed hasBugid,
    ((p.withMaxAccess max).accessToWithBugid attributed hasBugid).rank ≤
      (p.unlimited.accessToWithBugid attributed hasBugid).rank
  limited : ∀ limit, max = some limit → ∀ attributed hasBugid,
    ((p.withMaxAccess max).accessToWithBugid attributed hasBugid).rank ≤ limit.rank
  visibility : ∀ (s : AttributionStore) scope limit b,
    s.ListedUnder limit ((p.withMaxAccess max).visibility scope) b →
      s.ListedUnder limit (p.unlimited.visibility scope) b
  mayViewEmbargoed : ∀ attributed, (p.withMaxAccess max).mayViewEmbargoed attributed = true →
    p.unlimited.mayViewEmbargoed attributed = true
  mayReleaseEmbargo : ∀ attributed, (p.withMaxAccess max).mayReleaseEmbargo attributed = true →
    p.unlimited.mayReleaseEmbargo attributed = true
  mayCreate : (p.withMaxAccess max).mayCreate = true → p.unlimited.mayCreate = true
  hasGlobalBugVisibility : (p.withMaxAccess max).hasGlobalBugVisibility = true →
    p.unlimited.hasGlobalBugVisibility = true

theorem ceilingSound (p : Principal lower) (max : Option BugAccess) : CeilingSound p max := by
  -- apart from `may_create`, the ceiling is all that `with_max_access` changes
  have hshape := p.withMaxAccess_eq max
  refine ⟨fun attributed hasBugid => ?_, fun limit hlimit attributed hasBugid => ?_,
    fun s scope limit b hlisted => ?_, fun attributed h => ?_, fun attributed h => ?_,
    Principal.mayCreate_of_withMaxAccess, fun h => ?_⟩
  · have hle := (p.withMaxAccess max).accessToWithBugid_le_unlimited attributed hasBugid
    rw [hshape] at hle ⊢
    exact hle
  · rw [hshape]
    exact Principal.accessToWithBugid_le_limit hlimit attributed hasBugid
  · rw [hshape] at hlisted
    rcases Principal.visibility_cases _ scope with hnone | hsame
    · rw [hnone] at hlisted
      exact absurd hlisted AttributionStore.listedUnder_nil
    · rw [hsame] at hlisted
      exact hlisted
  · rw [hshape] at h
    have hfree := Principal.mayViewEmbargoed_unlimited h
    exact hfree
  · rw [hshape] at h
    have hfree := Principal.mayReleaseEmbargo_unlimited h
    exact hfree
  · rw [hshape] at h
    have hfree := Principal.hasGlobalBugVisibility_unlimited h
    exact hfree

/-! ### Titles -/

namespace Principal

/-- The title is one the principal maintains, as comparisons in the program see it. -/
def Maintains (p : Principal lower) (title : String) : Prop :=
  ∃ t ∈ p.maintainedSections.titles, t.normalized = normalizeTitle lower title

/-- The title is, up to ASCII case, spelled as one the principal maintains. -/
def Spells (p : Principal lower) (title : String) : Prop :=
  ∃ t ∈ p.maintainedSections.titles, t.original ≠ "" ∧ eqIgnoreAsciiCase title t.original = true

theorem Spells.maintains {p : Principal lower} {title : String} (h : p.Spells title) :
    p.Maintains title := by
  obtain ⟨t, ht, -, heq⟩ := h
  refine ⟨t, ht, ?_⟩
  rw [← t.normalizes, normalizeTitle_eq_of_eqIgnoreAsciiCase lower heq]

theorem maintainsAny_iff {p : Principal lower} {titles : List String} :
    p.maintainsAny (titles.map (SectionTitle.new lower)) = true ↔
      ∃ title ∈ titles, p.Maintains title := by
  simp only [maintainsAny, SectionSet.contains, List.any_map, List.any_eq_true,
    Function.comp_apply, decide_eq_true_eq]
  rfl

theorem mem_maintainedSectionNames {p : Principal lower} {name : String} :
    name ∈ p.maintainedSectionNames ↔ ∃ t ∈ p.maintainedSections.titles, t.original = name := by
  rw [maintainedSectionNames, List.mem_mergeSort, List.mem_map]

/-- The principal sees every bug. -/
def SeesAll (p : Principal lower) : Prop :=
  p.operator = true ∨ p.security = true ∨ p.globalMaintainer = true

theorem canRead_accessTo_iff {p : Principal lower} {titles : List String} :
    (p.accessTo (titles.map (SectionTitle.new lower))).canRead = true ↔
      p.ceilingReads = true ∧ (p.SeesAll ∨ ∃ title ∈ titles, p.Maintains title) := by
  have hbase : (p.base (titles.map (SectionTitle.new lower)) false).canRead = true ↔
      p.SeesAll ∨ ∃ title ∈ titles, p.Maintains title := by
    rw [← maintainsAny_iff]
    unfold base SeesAll
    cases p.operator <;> cases p.security <;> cases p.globalMaintainer <;>
      cases p.maintainsAny (titles.map (SectionTitle.new lower)) <;> decide
  rw [accessTo, accessToWithBugid, ceilingReads]
  split
  · rw [BugAccess.canRead_min, Bool.and_eq_true, hbase, and_comm]
  · rw [hbase, eq_self_iff_true, true_and]

end Principal

/-! ### The list and the page -/

namespace AttributionStore

/-- Some page of the principal's list of bugs shows the bug. -/
def AppearsInList (s : AttributionStore) (p : Principal lower) (limit : Option ℕ)
    (b : ListedBugRow) : Prop :=
  s.ListedUnder limit (p.visibility p.maintainedSectionNames) b

/-- The page of the bug may be read. -/
def PageReadable (s : AttributionStore) (p : Principal lower) (b : ListedBugRow) : Prop :=
  (p.accessTo ((s.authorizingSectionsForBug b.id).map (SectionTitle.new lower))).canRead = true

/-- Whatever the page size, the list shows the bugs whose page may be read. -/
def ListAgreesWithPages (s : AttributionStore) (p : Principal lower) : Prop :=
  ∀ b ∈ s.bugs, ∀ limit, limit ≠ some 0 → (s.AppearsInList p limit b ↔ s.PageReadable p b)

/-- A bug with a title that the principal maintains carries one spelled as MAINTAINERS does. -/
def SpelledAsMaintained (s : AttributionStore) (p : Principal lower) : Prop :=
  ∀ b ∈ s.bugs, ∀ title, s.Attributed b title → p.Maintains title →
    ∃ spelled, s.Attributed b spelled ∧ p.Spells spelled

theorem pageReadable_iff {s : AttributionStore} {p : Principal lower} {b : ListedBugRow} :
    s.PageReadable p b ↔ p.ceilingReads = true ∧
      (p.SeesAll ∨ ∃ title, s.Attributed b title ∧ p.Maintains title) := by
  rw [PageReadable, Principal.canRead_accessTo_iff]
  simp only [mem_authorizingSectionsForBug]

theorem appearsInList_iff {s : AttributionStore} {p : Principal lower} {limit : Option ℕ}
    (hlimit : limit ≠ some 0) {b : ListedBugRow} :
    s.AppearsInList p limit b ↔ b ∈ s.bugs ∧ p.ceilingReads = true ∧
      (p.SeesAll ∨ ∃ title, s.Attributed b title ∧ p.Spells title) := by
  have hseesAll : p.ceilingReads = true → (p.hasGlobalBugVisibility = true ↔ p.SeesAll) := by
    intro hceiling
    simp only [Principal.hasGlobalBugVisibility, hceiling, Bool.and_true, Bool.or_eq_true,
      Principal.SeesAll, or_assoc]
  have hscope : ∀ title, (∃ name ∈ p.maintainedSectionNames,
      rustTrim name ≠ "" ∧ eqIgnoreAsciiCase title (rustTrim name) = true) ↔ p.Spells title := by
    intro title
    simp only [Principal.mem_maintainedSectionNames, Principal.Spells]
    constructor
    · rintro ⟨_, ⟨t, ht, rfl⟩, hname⟩
      exact ⟨t, ht, by rwa [t.trimmed] at hname⟩
    · rintro ⟨t, ht, hname⟩
      exact ⟨_, ⟨t, ht, rfl⟩, by rwa [t.trimmed]⟩
  unfold AppearsInList Principal.visibility
  by_cases hceiling : p.ceilingReads = true
  · by_cases hglobal : p.hasGlobalBugVisibility = true
    · have hall := (hseesAll hceiling).mp hglobal
      simp [hceiling, hglobal, hall, listedUnder_unrestricted hlimit]
    · have hall := mt (hseesAll hceiling).mpr hglobal
      simp only [hceiling, hglobal, Bool.not_true, Bool.false_eq_true, if_false,
        listedUnder_sections hlimit, hscope, hall, false_or, true_and]
  · have hnone : (!p.ceilingReads) = true := by simpa using hceiling
    rw [if_pos hnone]
    exact ⟨fun h => absurd h listedUnder_nil, fun h => absurd h.2.1 hceiling⟩

/-- The list never shows a bug whose page may not be read. -/
theorem pageReadable_of_appearsInList {s : AttributionStore} {p : Principal lower}
    {limit : Option ℕ} (hlimit : limit ≠ some 0) {b : ListedBugRow}
    (h : s.AppearsInList p limit b) : s.PageReadable p b := by
  obtain ⟨-, hceiling, hsees⟩ := (appearsInList_iff hlimit).mp h
  refine pageReadable_iff.mpr ⟨hceiling, hsees.imp_right ?_⟩
  rintro ⟨title, hrow, hspells⟩
  exact ⟨title, hrow, hspells.maintains⟩

/-- The list and the pages agree unless a bug carries maintained titles in other spellings only,
and the principal neither sees all bugs nor holds a token that forbids reading. -/
theorem listAgreesWithPages_iff (s : AttributionStore) (p : Principal lower) :
    (s.ListAgreesWithPages p ∧ ∀ max, CeilingSound p max) ↔
      p.ceilingReads = false ∨ p.SeesAll ∨ s.SpelledAsMaintained p := by
  constructor
  · rintro ⟨hagrees, -⟩
    by_cases hceiling : p.ceilingReads = true
    · refine Or.inr (or_iff_not_imp_left.mpr fun hnotAll b hb title hrow hmaintains => ?_)
      have hreadable : s.PageReadable p b :=
        pageReadable_iff.mpr ⟨hceiling, Or.inr ⟨title, hrow, hmaintains⟩⟩
      have hlisted := (hagrees b hb none (by decide)).mpr hreadable
      exact ((appearsInList_iff (by decide)).mp hlisted).2.2.resolve_left hnotAll
    · exact Or.inl (by simpa using hceiling)
  · intro hcondition
    refine ⟨fun b hb limit hlimit => ⟨pageReadable_of_appearsInList hlimit, fun hreadable => ?_⟩,
      ceilingSound p⟩
    obtain ⟨hceiling, hsees⟩ := pageReadable_iff.mp hreadable
    refine (appearsInList_iff hlimit).mpr ⟨hb, hceiling, ?_⟩
    rcases hcondition with hblocked | hall | hspelled
    · rw [hblocked] at hceiling
      cases hceiling
    · exact Or.inl hall
    · exact hsees.imp_right fun ⟨title, hrow, hmaintains⟩ => hspelled b hb title hrow hmaintains

/-! ### A title with two spaces -/

def asciiLowercase : CharLowercase := ⟨fun c => [c.toLower], fun _ _ => rfl⟩

def netdevMaintainer : Principal asciiLowercase :=
  { (Principal.anonymous : Principal asciiLowercase) with
    maintainedSections := .ofTitles ["NETWORKING DRIVERS"] }

def doubleSpaced : AttributionStore where
  bugs := [{ id := 1, createdAt := 0 }]
  bugSubsystems :=
    [{ bugId := 1, subsystem := "NETWORKING  DRIVERS", source := .maintainersSection }]
  bugUpstreamSections := []

/-- The two spellings are one title, yet the list compares them letter by letter. -/
theorem doubleSpaced_unlisted : ¬doubleSpaced.ListAgreesWithPages netdevMaintainer := by
  intro hagrees
  have hrows : doubleSpaced.authorizingRows = [(1, "NETWORKING  DRIVERS")] := by decide
  have htitles : netdevMaintainer.maintainedSections.titles =
      [SectionTitle.new asciiLowercase "NETWORKING DRIVERS"] := rfl
  have hreadable : doubleSpaced.PageReadable netdevMaintainer { id := 1, createdAt := 0 } :=
    pageReadable_iff.mpr ⟨rfl, Or.inr ⟨"NETWORKING  DRIVERS",
      by rw [Attributed, hrows]; exact List.mem_cons_self,
      SectionTitle.new asciiLowercase "NETWORKING DRIVERS", htitles ▸ List.mem_cons_self,
      by decide⟩⟩
  have hlisted := (hagrees _ List.mem_cons_self none (by decide)).mpr hreadable
  obtain ⟨-, -, hall | ⟨title, hrow, t, ht, -, heq⟩⟩ := (appearsInList_iff (by decide)).mp hlisted
  · simp [Principal.SeesAll, netdevMaintainer, Principal.anonymous] at hall
  · rw [Attributed, hrows] at hrow
    obtain rfl : title = "NETWORKING  DRIVERS" :=
      congrArg Prod.snd (List.mem_singleton.mp hrow)
    rw [htitles] at ht
    obtain rfl := List.mem_singleton.mp ht
    revert heq
    decide

end AttributionStore

end Sashiko
