import Sashiko.Diff.Paths
import Sashiko.Lib.Sorting

/-! Prompt templates: where their included files go and where the values of their variables. -/

namespace Sashiko

/-! ### Templates -/

/-- A directive to include external files. -/
inductive InclusionDirective where
  | file (path : String)
  | directory (path : String) (filter : String → Bool)

def InclusionDirective.path : InclusionDirective → String
  | .file path => path
  | .directory path _ => path

structure PromptTemplate (S : Type) where
  rawTemplate : Chars
  vars : List (String × (S → Chars))
  staticInclusions : List InclusionDirective
  dynamicInclusions : List (S → List String)

def dynamicIncludeMarker : Chars := "@includes".toList

def includeDirective (path : String) : Chars := "@include(\"".toList ++ path.toList ++ "\")".toList

/-- A rendered prompt in two kinds of piece; directives are matched against the template alone. -/
inductive Segment (β : Type) where
  | template (text : Chars)
  | included (block : β)

section Place

variable {β γ : Type}

/-- Splits the first template segment that has the directive. -/
def place (directive : Chars) (block : β) : List (Segment β) → Option (List (Segment β))
  | [] => none
  | .included b :: rest => (place directive block rest).map (.included b :: ·)
  | .template text :: rest =>
    match splitAtFirst directive text with
    | some (before, found) =>
      some (.template before :: .included block :: .template (found.drop directive.length) :: rest)
    | none => (place directive block rest).map (.template text :: ·)

/-- The segments, and the blocks whose directive no segment has. -/
structure Draft (β : Type) where
  segments : List (Segment β)
  trailing : List β

def Draft.put (draft : Draft β) (directive : Chars) (block : β) : Draft β :=
  match place directive block draft.segments with
  | some segments => { draft with segments }
  | none => { draft with trailing := draft.trailing ++ [block] }

/-! ### Variables -/

/-- The variable whose placeholder the text starts with, and the text behind it. -/
def boundAt (vars : List (String × β)) (candidate : Chars) : Option (β × Chars) :=
  vars.findSome? fun var =>
    ((stripChars? ['{', '{'] candidate).bind fun body =>
      (stripChars? var.1.toList body).bind (stripChars? ['}', '}'])).map fun after => (var.2, after)

theorem length_splitAtFirst {pat text before found : Chars}
    (h : splitAtFirst pat text = some (before, found)) :
    found.length ≤ text.length ∧ found ≠ [] := by
  induction text generalizing before with
  | nil => cases h
  | cons c text ih =>
    unfold splitAtFirst at h
    split_ifs at h
    · obtain ⟨-, rfl⟩ := Prod.mk.inj (Option.some.inj h)
      exact ⟨le_rfl, List.cons_ne_nil _ _⟩
    · obtain ⟨p, hp, heq⟩ := Option.map_eq_some_iff.mp h
      obtain ⟨-, rfl⟩ := Prod.mk.inj heq
      obtain ⟨hle, hne⟩ := ih hp
      exact ⟨hle.trans (Nat.le_succ _), hne⟩

theorem length_stripChars {pre cs rest : Chars} (h : stripChars? pre cs = some rest) :
    rest.length = cs.length - pre.length ∧ pre.length ≤ cs.length := by
  unfold stripChars? at h
  split_ifs at h with hpre
  obtain rfl := Option.some.inj h
  exact ⟨List.length_drop, (List.isPrefixOf_iff_prefix.mp hpre).length_le⟩

theorem length_boundAt {vars : List (String × β)} {candidate after : Chars} {value : β}
    (h : boundAt vars candidate = some (value, after)) : after.length < candidate.length := by
  obtain ⟨var, -, hvar⟩ := List.exists_of_findSome?_eq_some h
  obtain ⟨rest, hrest, heq⟩ := Option.map_eq_some_iff.mp hvar
  obtain ⟨-, rfl⟩ := Prod.mk.inj heq
  obtain ⟨body, hbody, hkey⟩ := Option.bind_eq_some_iff.mp hrest
  obtain ⟨tail, htail, hclose⟩ := Option.bind_eq_some_iff.mp hkey
  have h₁ := length_stripChars hbody
  have h₂ := length_stripChars htail
  have h₃ := length_stripChars hclose
  simp only [List.length_cons, List.length_nil] at h₁ h₃
  omega

/-- Each placeholder replaced by its value, in one pass. -/
def substituteVars (vars : List (String × Chars)) (text : Chars) : Chars :=
  match _hfound : splitAtFirst ['{', '{'] text with
  | none => text
  | some (before, candidate) =>
    match _hbound : boundAt vars candidate with
    | some (value, after) => before ++ value ++ substituteVars vars after
    -- Not a placeholder: one brace is kept, so that `{{{key}}}` still binds.
    | none => before ++ '{' :: substituteVars vars candidate.tail
termination_by text.length
decreasing_by
  · have h₁ := length_splitAtFirst _hfound
    have h₂ := length_boundAt _hbound
    omega
  · obtain ⟨hle, hne⟩ := length_splitAtFirst _hfound
    have hpos := List.length_pos_iff.mpr hne
    rw [List.length_tail]
    omega

end Place

/-! ### Rendering -/

/-- A file of an included directory: its name, its path below the base directory, and what reading
it gives. -/
structure DirEntry (E : Type) where
  name : String
  shownPath : String
  content : Except E Chars

/-- What is below the base directory: nothing for a path that does not exist. -/
structure PromptDir (E : Type) where
  file : String → Option (Except E Chars)
  entries : String → Option (Except E (List (DirEntry E)))

section Render

variable {E S : Type}

def fileBlock (path : String) (content : Chars) : Chars :=
  "\n\n# ".toList ++ path.toList ++ '\n' :: content ++ ['\n']

def entryBlock (entry : DirEntry E) : Except E Chars :=
  entry.content.map fun content =>
    "\n\n## ".toList ++ entry.shownPath.toList ++ '\n' :: content ++ ['\n']

def isMarkdown (name : String) : Bool := endsWithText name ".md" && name ≠ ".md"

/-- A file that is not there resolves to nothing. -/
def existingFileBlock (dir : PromptDir E) (path : String) : Except E Chars :=
  match dir.file path with
  | none => .ok []
  | some content => content.map (fileBlock path)

def modelBlock (dir : PromptDir E) : InclusionDirective → Except E Chars
  | .file path => existingFileBlock dir path
  | .directory path filter =>
    match dir.entries path with
    | none => .ok []
    | some entries => do
      let chosen := (← entries).filter fun entry => isMarkdown entry.name && filter entry.name
      let blocks ← (chosen.mergeSort fun a b => textLe a.name b.name).mapM entryBlock
      return blocks.flatten

namespace PromptTemplate

variable (t : PromptTemplate S) (state : S)

def start {β : Type} : Draft β := ⟨[.template t.rawTemplate], []⟩

def values : List (String × Chars) := t.vars.map fun var => (var.1, var.2 state)

def assemble (draft : Draft Chars) : Chars :=
  (draft.segments.flatMap fun
    | .template text => substituteVars (t.values state) text
    | .included block => block) ++ draft.trailing.flatten

/-- The prompt that is sent to the model. -/
def renderForModel (dir : PromptDir E) : Except E Chars := do
  let draft ← t.staticInclusions.foldlM (fun draft inclusion => do
    let block ← modelBlock dir inclusion
    return draft.put (includeDirective inclusion.path) block) t.start
  let dynamic ← (t.dynamicInclusions.flatMap (· state)).mapM (existingFileBlock dir)
  return t.assemble state (draft.put dynamicIncludeMarker dynamic.flatten)

def logToken : InclusionDirective → Chars
  | .file path => "\n\n@".toList ++ path.toList ++ ['\n']
  | .directory path _ => "\n\n@".toList ++ path.toList ++ "/\n".toList

def logTags (files : List String) : Chars :=
  if files = [] then []
  else "\n\n".toList ++ ", ".toList.intercalate (files.map fun path => '@' :: path.toList) ++ ['\n']

/-- The prompt that is stored. -/
def renderForLog : Chars :=
  let draft := t.staticInclusions.foldl
    (fun draft inclusion => draft.put (includeDirective inclusion.path) (logToken inclusion)) t.start
  t.assemble state
    (draft.put dynamicIncludeMarker (t.dynamicInclusions.flatMap fun files => logTags (files state)))

end PromptTemplate

end Render

end Sashiko
