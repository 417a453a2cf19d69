import Sashiko.Access.Titles

/-! What one caller may do to a bug: the standing it was resolved to, and the ceiling of a scoped
token. -/

namespace Sashiko

inductive BugAccess where
  | none
  | read
  | comment
  | manage
  deriving DecidableEq, Repr

namespace BugAccess

/-- The derived order of the enumeration. -/
def rank : BugAccess → ℕ
  | none => 0
  | read => 1
  | comment => 2
  | manage => 3

def min (a b : BugAccess) : BugAccess := if b.rank < a.rank then b else a

def canRead (a : BugAccess) : Bool := read.rank ≤ a.rank

def canManage (a : BugAccess) : Bool := manage.rank ≤ a.rank

theorem rank_min (a b : BugAccess) : (a.min b).rank = Nat.min a.rank b.rank := by
  unfold min
  split_ifs with h
  · exact (Nat.min_eq_right h.le).symm
  · exact (Nat.min_eq_left (not_lt.mp h)).symm

theorem canRead_min (a b : BugAccess) : (a.min b).canRead = (a.canRead && b.canRead) := by
  cases a <;> cases b <;> rfl

theorem canRead_of_le {a b : BugAccess} (h : a.rank ≤ b.rank) (ha : a.canRead = true) :
    b.canRead = true :=
  decide_eq_true (le_trans (of_decide_eq_true ha) h)

theorem canManage_of_le {a b : BugAccess} (h : a.rank ≤ b.rank) (ha : a.canManage = true) :
    b.canManage = true :=
  decide_eq_true (le_trans (of_decide_eq_true ha) h)

end BugAccess

/-- A set of titles: no two have the same normalized form. -/
structure SectionSet (lower : CharLowercase) where
  titles : List (SectionTitle lower)
  distinct : (titles.map SectionTitle.normalized).Nodup

namespace SectionSet

variable {lower : CharLowercase}

def empty : SectionSet lower := ⟨[], List.nodup_nil⟩

def contains (s : SectionSet lower) (title : SectionTitle lower) : Bool :=
  s.titles.any fun t => t.normalized = title.normalized

/-- `HashSet::insert`: of two equal titles the one already there stays. -/
def insert (s : SectionSet lower) (title : SectionTitle lower) : SectionSet lower :=
  if h : s.contains title = true then s
  else
    { titles := title :: s.titles
      distinct := List.nodup_cons.mpr ⟨fun hmem => h (by
        obtain ⟨t, ht, heq⟩ := List.mem_map.mp hmem
        exact List.any_eq_true.mpr ⟨t, ht, decide_eq_true heq⟩), s.distinct⟩ }

def ofTitles (titles : List String) : SectionSet lower :=
  titles.foldl (fun s title => s.insert (SectionTitle.new lower title)) empty

end SectionSet

/-- `BugVisibility` -/
inductive BugVisibility where
  | unrestricted
  | sections (scope : List String)
  deriving DecidableEq, Repr

structure Principal (lower : CharLowercase) where
  operator : Bool
  security : Bool
  globalMaintainer : Bool
  maintainedSections : SectionSet lower
  mayCreate : Bool
  maxAccess : Option BugAccess

namespace Principal

variable {lower : CharLowercase}

def anonymous : Principal lower where
  operator := false
  security := false
  globalMaintainer := false
  maintainedSections := .empty
  mayCreate := false
  maxAccess := none

def withMaxAccess (p : Principal lower) (max : Option BugAccess) : Principal lower :=
  match max with
  | some limit =>
    if limit.rank < BugAccess.manage.rank then { p with maxAccess := max, mayCreate := false }
    else { p with maxAccess := max }
  | none => { p with maxAccess := max }

def maintainsAny (p : Principal lower) (attributed : List (SectionTitle lower)) : Bool :=
  attributed.any p.maintainedSections.contains

/-- `base` in `access_to_with_bugid` -/
def base (p : Principal lower) (attributed : List (SectionTitle lower)) (hasBugid : Bool) :
    BugAccess :=
  if p.operator || p.globalMaintainer || p.maintainsAny attributed then .manage
  else if p.security then .comment
  else if hasBugid then .read
  else .none

def accessToWithBugid (p : Principal lower) (attributed : List (SectionTitle lower))
    (hasBugid : Bool) : BugAccess :=
  match p.maxAccess with
  | some limit => (p.base attributed hasBugid).min limit
  | none => p.base attributed hasBugid

def accessTo (p : Principal lower) (attributed : List (SectionTitle lower)) : BugAccess :=
  p.accessToWithBugid attributed false

/-- `self.max_access.is_none_or(|m| m.can_read())` -/
def ceilingReads (p : Principal lower) : Bool :=
  match p.maxAccess with
  | some limit => limit.canRead
  | none => true

def hasGlobalBugVisibility (p : Principal lower) : Bool :=
  (p.operator || p.security || p.globalMaintainer) && p.ceilingReads

def mayViewEmbargoed (p : Principal lower) (attributed : List (SectionTitle lower)) : Bool :=
  if !p.ceilingReads then false
  else p.operator || p.globalMaintainer || p.maintainsAny attributed

def hasGlobalEmbargoVisibility (p : Principal lower) : Bool :=
  p.ceilingReads && (p.operator || p.globalMaintainer)

def hasAnyEmbargoVisibility (p : Principal lower) : Bool :=
  p.ceilingReads &&
    (p.operator || p.globalMaintainer || !p.maintainedSections.titles.isEmpty)

def mayReleaseEmbargo (p : Principal lower) (attributed : List (SectionTitle lower)) : Bool :=
  (p.accessTo attributed).canManage

def maintainedSectionNames (p : Principal lower) : List String :=
  (p.maintainedSections.titles.map SectionTitle.original).mergeSort fun a b => !textLt b a

def visibility (p : Principal lower) (scope : List String) : BugVisibility :=
  if !p.ceilingReads then .sections []
  else if p.hasGlobalBugVisibility then .unrestricted
  else .sections scope

end Principal

end Sashiko
