import Sashiko.Access.Listing
import Sashiko.Access.Maintainers

/-! The sections that get access to a change, by the files it touches. -/

namespace Sashiko

structure AttributedSubsystem where
  name : List Char
  source : SubsystemSource
  deriving DecidableEq, Repr

/-- A section whose maintainers also receive changes to other paths. -/
structure UpstreamGrant where
  sectionName : List Char
  paths : List CompiledPattern

def UpstreamGrant.covers (g : UpstreamGrant) (filePath : List Char) : Bool :=
  g.paths.any (·.isMatch filePath)

structure MaintainersIndex (compiler : RegexCompiler) where
  sections : List (MaintainerSection compiler)
  upstreamGrants : List UpstreamGrant

namespace MaintainersIndex

variable {compiler : RegexCompiler}

attribute [local instance] lawfulBEq_texts in
/-- A name that was seen before is left out. -/
def insertNew (out : List (List Char)) (name : List Char) : List (List Char) :=
  if name ∈ out then out else out ++ [name]

def matchFiles (index : MaintainersIndex compiler) (files : List (List Char)) :
    List (List Char) :=
  files.foldl (fun out file => (matchFile index.sections file).foldl insertNew out) []

def upstreamGrantSections (index : MaintainersIndex compiler) (files : List (List Char)) :
    List (List Char) :=
  index.upstreamGrants.foldl (fun out g =>
    if g.sectionName ∈ out then out
    else if files.any g.covers then out ++ [g.sectionName] else out) []

def attributeFiles (index : MaintainersIndex compiler) (files : List (List Char)) :
    List AttributedSubsystem :=
  (index.matchFiles files).map (⟨·, .maintainersSection⟩) ++
    (index.upstreamGrantSections files).map (⟨·, .upstreamGrant⟩)

/-! ### What one file is owed, the change is owed -/

theorem mem_foldl_insertNew {names out : List (List Char)} {name : List Char} :
    name ∈ names.foldl insertNew out ↔ name ∈ out ∨ name ∈ names := by
  induction names generalizing out with
  | nil => simp
  | cons x names ih =>
    rw [List.foldl_cons, ih, insertNew, List.mem_cons]
    by_cases hx : x ∈ out
    · rw [if_pos hx]
      constructor
      · exact fun h => h.imp_right .inr
      · rintro (h | rfl | h)
        · exact .inl h
        · exact .inl hx
        · exact .inr h
    · rw [if_neg hx, List.mem_append, List.mem_singleton, or_assoc]

theorem mem_matchFiles (index : MaintainersIndex compiler) {files : List (List Char)}
    {name : List Char} :
    name ∈ index.matchFiles files ↔ ∃ file ∈ files, name ∈ matchFile index.sections file := by
  have hfold : ∀ out, name ∈ files.foldl
      (fun out file => (matchFile index.sections file).foldl insertNew out) out ↔
        name ∈ out ∨ ∃ file ∈ files, name ∈ matchFile index.sections file := by
    induction files with
    | nil => simp
    | cons file files ih =>
      intro out
      rw [List.foldl_cons, ih, mem_foldl_insertNew, List.exists_mem_cons_iff, or_assoc]
  rw [matchFiles, hfold]
  simp

theorem mem_upstreamGrantSections (index : MaintainersIndex compiler) {files : List (List Char)}
    {name : List Char} :
    name ∈ index.upstreamGrantSections files ↔
      ∃ g ∈ index.upstreamGrants, g.sectionName = name ∧ files.any g.covers = true := by
  have hfold : ∀ (grants : List UpstreamGrant) (out : List (List Char)),
      name ∈ grants.foldl (fun out g => if g.sectionName ∈ out then out
        else if files.any g.covers then out ++ [g.sectionName] else out) out ↔
        name ∈ out ∨ ∃ g ∈ grants, g.sectionName = name ∧ files.any g.covers = true := by
    intro grants
    induction grants with
    | nil => simp
    | cons g grants ih =>
      intro out
      rw [List.foldl_cons, ih, List.exists_mem_cons_iff, ← or_assoc]
      refine or_congr_left ?_
      by_cases hseen : g.sectionName ∈ out
      · rw [if_pos hseen]
        exact ⟨.inl, fun h => h.elim id fun h => h.1 ▸ hseen⟩
      · rw [if_neg hseen]
        by_cases hcovers : files.any g.covers = true
        · rw [if_pos hcovers, List.mem_append, List.mem_singleton]
          exact or_congr_right ⟨fun h => ⟨h.symm, hcovers⟩, fun h => h.1.symm⟩
        · rw [if_neg hcovers]
          exact ⟨.inl, fun h => h.elim id fun h => absurd h.2 hcovers⟩
  rw [upstreamGrantSections, hfold]
  simp

theorem attributeFiles_mono (index : MaintainersIndex compiler) {files : List (List Char)}
    {file : List Char} (h : file ∈ files) :
    index.attributeFiles [file] ⊆ index.attributeFiles files := by
  intro s hs
  rw [attributeFiles, List.mem_append, List.mem_map, List.mem_map] at hs ⊢
  rcases hs with ⟨name, hname, rfl⟩ | ⟨name, hname, rfl⟩
  · obtain ⟨file', hfile', hmatch⟩ := index.mem_matchFiles.mp hname
    rw [List.mem_singleton.mp hfile'] at hmatch
    exact .inl ⟨name, index.mem_matchFiles.mpr ⟨file, h, hmatch⟩, rfl⟩
  · obtain ⟨g, hg, hsection, hcovers⟩ := index.mem_upstreamGrantSections.mp hname
    rw [List.any_cons, List.any_nil, Bool.or_false] at hcovers
    exact .inr ⟨name, index.mem_upstreamGrantSections.mpr
      ⟨g, hg, hsection, List.any_eq_true.mpr ⟨file, h, hcovers⟩⟩, rfl⟩

end MaintainersIndex

end Sashiko
