import Sashiko.Workflow.Prompt

/-! A rendered prompt is put together from pieces that the template alone decides: what a variable or
a file holds is never looked at. -/

namespace Sashiko

/-! ### Drafts do not look into their blocks -/

section Natural

variable {β γ : Type}

def Segment.map (f : β → γ) : Segment β → Segment γ
  | .template text => .template text
  | .included block => .included (f block)

def Draft.map (f : β → γ) (draft : Draft β) : Draft γ :=
  ⟨draft.segments.map (Segment.map f), draft.trailing.map f⟩

theorem place_map (f : β → γ) (directive : Chars) (block : β) (segments : List (Segment β)) :
    place directive (f block) (segments.map (Segment.map f)) =
      (place directive block segments).map (List.map (Segment.map f)) := by
  induction segments with
  | nil => rfl
  | cons segment rest ih =>
    cases segment with
    | included b =>
      rw [List.map_cons, Segment.map, place, place, ih, Option.map_map, Option.map_map]
      rfl
    | template text =>
      rw [List.map_cons, Segment.map, place, place]
      cases splitAtFirst directive text with
      | some found => rfl
      | none =>
        rw [ih, Option.map_map, Option.map_map]
        rfl

theorem put_map (f : β → γ) (draft : Draft β) (directive : Chars) (block : β) :
    (draft.map f).put directive (f block) = (draft.put directive block).map f := by
  unfold Draft.put
  rw [Draft.map, place_map]
  cases place directive block draft.segments with
  | some segments => rfl
  | none => simp [Draft.map]

/-- The draft after a run of directives, each with its block. -/
def Draft.putAll (draft : Draft β) (blocks : List (Chars × β)) : Draft β :=
  blocks.foldl (fun draft placed => draft.put placed.1 placed.2) draft

theorem putAll_map (f : β → γ) (blocks : List (Chars × β)) : ∀ draft : Draft β,
    (draft.map f).putAll (blocks.map (Prod.map id f)) = (draft.putAll blocks).map f := by
  induction blocks with
  | nil => exact fun _ => rfl
  | cons placed blocks ih =>
    intro draft
    rw [List.map_cons, Draft.putAll, List.foldl_cons, Prod.map_fst, Prod.map_snd, id_eq, put_map]
    exact ih _

/-- The blocks of a draft, in the order they stand. -/
def Draft.blocks (draft : Draft β) : List β :=
  (draft.segments.flatMap fun
    | .template _ => []
    | .included block => [block]) ++ draft.trailing

theorem blocks_place {directive : Chars} {block : β} {segments placed : List (Segment β)}
    (h : place directive block segments = some placed) (trailing : List β) :
    (Draft.mk placed trailing).blocks.Perm (block :: (Draft.mk segments trailing).blocks) := by
  induction segments generalizing placed with
  | nil => cases h
  | cons segment rest ih =>
    cases segment with
    | included b =>
      obtain ⟨placed', hplaced, rfl⟩ := Option.map_eq_some_iff.mp h
      exact ((ih hplaced).cons b).trans (List.Perm.swap block b _)
    | template text =>
      rw [place] at h
      cases hfound : splitAtFirst directive text with
      | some found =>
        rw [hfound] at h
        obtain rfl := Option.some.inj h
        exact List.Perm.refl _
      | none =>
        rw [hfound] at h
        obtain ⟨placed', hplaced, rfl⟩ := Option.map_eq_some_iff.mp h
        have hrest := ih hplaced
        exact hrest

/-- A block that is put has one place. -/
theorem blocks_put (draft : Draft β) (directive : Chars) (block : β) :
    (draft.put directive block).blocks.Perm (block :: draft.blocks) := by
  unfold Draft.put
  cases h : place directive block draft.segments with
  | some segments => exact blocks_place h draft.trailing
  | none =>
    rw [Draft.blocks, ← List.append_assoc]
    exact List.perm_append_singleton block draft.blocks

theorem blocks_putAll (blocks : List (Chars × β)) : ∀ draft : Draft β,
    (draft.putAll blocks).blocks.Perm (blocks.map Prod.snd ++ draft.blocks) := by
  induction blocks with
  | nil => exact fun _ => List.Perm.refl _
  | cons placed blocks ih =>
    intro draft
    refine (ih (draft.put placed.1 placed.2)).trans ?_
    rw [List.map_cons, List.cons_append]
    exact ((blocks_put draft placed.1 placed.2).append_left _).trans List.perm_middle

end Natural

/-! ### Pieces -/

/-- What a block belongs to: a static inclusion, or those that the state decides. -/
inductive Placed where
  | static (idx : ℕ)
  | dynamic
  deriving DecidableEq, Repr

inductive Piece where
  | literal (text : Chars)
  | variable (idx : ℕ)
  | included (block : Placed)
  deriving DecidableEq, Repr

def Piece.render (value : ℕ → Chars) (block : Placed → Chars) : Piece → Chars
  | .literal text => text
  | .variable idx => value idx
  | .included placed => block placed

/-- Where the template has the placeholders of the variables with the given names. -/
def placeholders (keys : List (String × ℕ)) (text : Chars) : List Piece :=
  match _hfound : splitAtFirst ['{', '{'] text with
  | none => [.literal text]
  | some (before, candidate) =>
    match _hbound : boundAt keys candidate with
    | some (idx, after) => .literal before :: .variable idx :: placeholders keys after
    | none => .literal (before ++ ['{']) :: placeholders keys candidate.tail
termination_by text.length
decreasing_by
  · have h₁ := length_splitAtFirst _hfound
    have h₂ := length_boundAt _hbound
    omega
  · obtain ⟨hle, hne⟩ := length_splitAtFirst _hfound
    have hpos := List.length_pos_iff.mpr hne
    rw [List.length_tail]
    omega

/-- The inclusions by their paths, and the directives they are placed by. -/
def directives (paths : List String) : List (Chars × Placed) :=
  (paths.zipIdx.map fun path => (includeDirective path.1, Placed.static path.2)) ++
    [(dynamicIncludeMarker, .dynamic)]

/-- Where the template has its inclusions. -/
def layout (rawTemplate : Chars) (paths : List String) : Draft Placed :=
  Draft.putAll ⟨[.template rawTemplate], []⟩ (directives paths)

def Draft.pieces (keys : List (String × ℕ)) (draft : Draft Placed) : List Piece :=
  (draft.segments.flatMap fun
    | .template text => placeholders keys text
    | .included placed => [.included placed]) ++ draft.trailing.map .included

/-- The pieces of a prompt, from the template's text, the names of its variables and the paths of its
inclusions. -/
def promptPieces (rawTemplate : Chars) (names paths : List String) : List Piece :=
  (layout rawTemplate paths).pieces names.zipIdx

/-! ### Values are not looked into -/

theorem boundAt_map {β γ : Type} (f : β → γ) (vars : List (String × β)) (candidate : Chars) :
    boundAt (vars.map (Prod.map id f)) candidate =
      (boundAt vars candidate).map (Prod.map f id) := by
  unfold boundAt
  induction vars with
  | nil => rfl
  | cons var vars ih =>
    rw [List.map_cons, List.findSome?_cons, List.findSome?_cons, ih]
    simp only [Prod.map_fst, id_eq, Prod.map_snd]
    cases (stripChars? ['{', '{'] candidate).bind fun body =>
        (stripChars? var.1.toList body).bind (stripChars? ['}', '}']) with
    | none => rfl
    | some after => rfl

section Substitute

variable {vars : List (String × Chars)} {text before candidate : Chars}

theorem substituteVars_of_none (h : splitAtFirst ['{', '{'] text = none) :
    substituteVars vars text = text := by
  rw [substituteVars]
  split
  · rfl
  · rename_i heq
    rw [h] at heq
    cases heq

theorem substituteVars_of_bound {value after : Chars}
    (h : splitAtFirst ['{', '{'] text = some (before, candidate))
    (hbound : boundAt vars candidate = some (value, after)) :
    substituteVars vars text = before ++ value ++ substituteVars vars after := by
  rw [substituteVars]
  split
  · rename_i heq
    rw [h] at heq
    cases heq
  · rename_i heq
    obtain ⟨rfl, rfl⟩ := Prod.mk.inj (Option.some.inj (h.symm.trans heq))
    split
    · rename_i heq'
      obtain ⟨rfl, rfl⟩ := Prod.mk.inj (Option.some.inj (hbound.symm.trans heq'))
      rfl
    · rename_i heq'
      rw [hbound] at heq'
      cases heq'

theorem substituteVars_of_unbound (h : splitAtFirst ['{', '{'] text = some (before, candidate))
    (hbound : boundAt vars candidate = none) :
    substituteVars vars text = before ++ '{' :: substituteVars vars candidate.tail := by
  rw [substituteVars]
  split
  · rename_i heq
    rw [h] at heq
    cases heq
  · rename_i heq
    obtain ⟨rfl, rfl⟩ := Prod.mk.inj (Option.some.inj (h.symm.trans heq))
    split
    · rename_i heq'
      rw [hbound] at heq'
      cases heq'
    · rfl

end Substitute

/-- Substitution puts the values where the names alone say. -/
theorem substituteVars_eq (keys : List (String × ℕ)) (value : ℕ → Chars) (block : Placed → Chars)
    (text : Chars) :
    substituteVars (keys.map (Prod.map id value)) text =
      (placeholders keys text).flatMap (Piece.render value block) := by
  fun_induction placeholders keys text with
  | case1 text hfound =>
    rw [substituteVars_of_none hfound, List.flatMap_cons, List.flatMap_nil, List.append_nil]
    rfl
  | case2 text before candidate hfound idx after hbound ih =>
    have hvalue : boundAt (keys.map (Prod.map id value)) candidate = some (value idx, after) := by
      rw [boundAt_map, hbound]
      rfl
    rw [substituteVars_of_bound hfound hvalue, ih, List.flatMap_cons, List.flatMap_cons,
      List.append_assoc]
    rfl
  | case3 text before candidate hfound hbound ih =>
    have hnone : boundAt (keys.map (Prod.map id value)) candidate = none := by
      rw [boundAt_map, hbound]
      rfl
    rw [substituteVars_of_unbound hfound hnone, ih, List.flatMap_cons, Piece.render,
      List.append_assoc]
    rfl

/-! ### Whole prompts -/

section Whole

variable {E S : Type} (t : PromptTemplate S) (state : S)

namespace PromptTemplate

def names : List String := t.vars.map Prod.fst

def paths : List String := t.staticInclusions.map InclusionDirective.path

/-- The value of a variable. -/
def valueOf (idx : ℕ) : Chars := ((t.values state)[idx]?.map Prod.snd).getD []

/-- The blocks of the static inclusions and the one of those that the state decides. -/
def blockOf (statics : List Chars) (dynamic : Chars) : Placed → Chars
  | .static idx => statics[idx]?.getD []
  | .dynamic => dynamic

theorem values_eq : t.values state = t.names.zipIdx.map (Prod.map id (t.valueOf state)) := by
  refine List.ext_getElem ?_ fun idx h₁ h₂ => ?_
  · simp [values, names]
  · simp [values, names, valueOf] at h₁ h₂ ⊢
    simp [h₁]

theorem assemble_map (block : Placed → Chars) (draft : Draft Placed) :
    t.assemble state (draft.map block) =
      (draft.pieces t.names.zipIdx).flatMap (Piece.render (t.valueOf state) block) := by
  rw [assemble, Draft.pieces, List.flatMap_append, List.flatMap_assoc, Draft.map, List.flatMap_map]
  congr 1
  · refine List.flatMap_congr fun segment _ => ?_
    cases segment with
    | template text =>
      rw [Segment.map, values_eq]
      exact substituteVars_eq _ _ block text
    | included placed =>
      rw [List.flatMap_cons, List.flatMap_nil, List.append_nil]
      rfl
  · rw [List.flatMap_map, List.flatMap_def]
    rfl

/-- The directives with the blocks they are replaced by. -/
theorem directives_map {statics : List Chars} (h : statics.length = t.staticInclusions.length)
    (dynamic : Chars) :
    (directives t.paths).map (Prod.map id (blockOf statics dynamic)) =
      (t.staticInclusions.map fun inclusion => includeDirective inclusion.path).zip statics ++
        [(dynamicIncludeMarker, dynamic)] := by
  rw [directives, List.map_append]
  congr 1
  refine List.ext_getElem ?_ fun idx h₁ h₂ => ?_
  · simp [paths, h]
  · have hidx : idx < statics.length := by
      rw [List.length_zip] at h₂
      omega
    simp [paths, blockOf, hidx]

theorem assemble_putAll {statics : List Chars} (h : statics.length = t.staticInclusions.length)
    (dynamic : Chars) :
    t.assemble state ((t.start.putAll ((t.staticInclusions.map fun inclusion =>
        includeDirective inclusion.path).zip statics)).put dynamicIncludeMarker dynamic) =
      (promptPieces t.rawTemplate t.names t.paths).flatMap
        (Piece.render (t.valueOf state) (blockOf statics dynamic)) := by
  have hdraft : (t.start.putAll ((t.staticInclusions.map fun inclusion =>
      includeDirective inclusion.path).zip statics)).put dynamicIncludeMarker dynamic =
      (layout t.rawTemplate t.paths).map (blockOf statics dynamic) := by
    rw [layout, ← putAll_map, directives_map t h, Draft.putAll, Draft.putAll, List.foldl_append]
    rfl
  rw [hdraft, assemble_map, promptPieces]

theorem length_mapM {α : Type} {g : α → Except E Chars} {xs : List α} {blocks : List Chars}
    (h : xs.mapM g = .ok blocks) : blocks.length = xs.length := by
  induction xs generalizing blocks with
  | nil =>
    cases h
    rfl
  | cons x xs ih =>
    rw [List.mapM_cons] at h
    cases hx : g x with
    | error e =>
      rw [hx] at h
      cases h
    | ok block =>
      cases hxs : xs.mapM g with
      | error e =>
        rw [hx, hxs] at h
        cases h
      | ok rest =>
        rw [hx, hxs] at h
        cases h
        rw [List.length_cons, List.length_cons, ih hxs]

/-- Reading and placing one inclusion after the other is reading them all, then placing them. -/
theorem foldlM_put {α : Type} (directive : α → Chars) (g : α → Except E Chars) (xs : List α) :
    ∀ draft : Draft Chars,
      xs.foldlM (fun draft x => do
        let block ← g x
        return draft.put (directive x) block) draft = (do
        let blocks ← xs.mapM g
        return draft.putAll ((xs.map directive).zip blocks)) := by
  induction xs with
  | nil => exact fun _ => rfl
  | cons x xs ih =>
    intro draft
    rw [List.foldlM_cons, List.mapM_cons]
    cases hx : g x with
    | error e => rfl
    | ok block =>
      have hrest := ih (draft.put (directive x) block)
      cases hxs : xs.mapM g with
      | error e =>
        rw [hxs] at hrest
        exact hrest
      | ok rest =>
        rw [hxs] at hrest
        exact hrest

theorem foldl_put {α : Type} (directive : α → Chars) (g : α → Chars) (xs : List α) :
    ∀ draft : Draft Chars, xs.foldl (fun draft x => draft.put (directive x) (g x)) draft =
      draft.putAll ((xs.map directive).zip (xs.map g)) := by
  induction xs with
  | nil => exact fun _ => rfl
  | cons x xs ih => exact fun draft => ih _

theorem renderForModel_eq (dir : PromptDir E) :
    t.renderForModel state dir = (do
      let statics ← t.staticInclusions.mapM (modelBlock dir)
      let dynamic ← (t.dynamicInclusions.flatMap (· state)).mapM (existingFileBlock dir)
      return (promptPieces t.rawTemplate t.names t.paths).flatMap
        (Piece.render (t.valueOf state) (blockOf statics dynamic.flatten))) := by
  rw [renderForModel, foldlM_put (fun inclusion : InclusionDirective =>
    includeDirective inclusion.path) (modelBlock dir) t.staticInclusions t.start]
  cases hstatics : t.staticInclusions.mapM (modelBlock dir) with
  | error e => rfl
  | ok statics =>
    cases hdynamic : (t.dynamicInclusions.flatMap (· state)).mapM (existingFileBlock dir) with
    | error e => rfl
    | ok dynamic => exact congrArg Except.ok (t.assemble_putAll state (length_mapM hstatics) _)

theorem renderForLog_eq :
    t.renderForLog state = (promptPieces t.rawTemplate t.names t.paths).flatMap
      (Piece.render (t.valueOf state) (blockOf (t.staticInclusions.map logToken)
        (t.dynamicInclusions.flatMap fun files => logTags (files state)))) := by
  rw [renderForLog, foldl_put (fun inclusion : InclusionDirective =>
    includeDirective inclusion.path) logToken t.staticInclusions t.start]
  exact t.assemble_putAll state (List.length_map _) _

end PromptTemplate

/-! ### Each inclusion has one place -/

def Piece.placed? : Piece → Option Placed
  | .included placed => some placed
  | _ => none

theorem placed?_placeholders (keys : List (String × ℕ)) (text : Chars) :
    (placeholders keys text).filterMap Piece.placed? = [] := by
  fun_induction placeholders keys text with
  | case1 text hfound => rfl
  | case2 text before candidate hfound idx after hbound ih => exact ih
  | case3 text before candidate hfound hbound ih => exact ih

theorem placed?_pieces (keys : List (String × ℕ)) (draft : Draft Placed) :
    (draft.pieces keys).filterMap Piece.placed? = draft.blocks := by
  rw [Draft.pieces, Draft.blocks, List.filterMap_append, List.filterMap_flatMap]
  congr 1
  · refine List.flatMap_congr fun segment _ => ?_
    cases segment with
    | template text => exact placed?_placeholders keys text
    | included placed => rfl
  · rw [List.filterMap_map]
    exact List.filterMap_some

/-- The pieces that are included are the inclusions, each once. -/
theorem placed?_promptPieces (rawTemplate : Chars) (names paths : List String) :
    ((promptPieces rawTemplate names paths).filterMap Piece.placed?).Perm
      ((List.range paths.length).map .static ++ [.dynamic]) := by
  rw [promptPieces, placed?_pieces]
  refine (blocks_putAll _ _).trans (List.Perm.of_eq ?_)
  rw [directives, List.map_append, List.map_map]
  have hidx : paths.zipIdx.map (Prod.snd ∘ fun path => (includeDirective path.1, Placed.static path.2))
      = (List.range paths.length).map Placed.static := by
    rw [List.range_eq_range', ← List.zipIdx_map_snd 0 paths, List.map_map]
    rfl
  rw [hidx]
  exact List.append_nil _

/-- A prompt is put together from pieces that the template's text, the names of its variables and the
paths of its inclusions decide; each inclusion is one of them, and the model and the log are given
the same pieces. -/
theorem rendered_from_pieces : ∃ pieces : Chars → List String → List String → List Piece,
    ∀ {E S : Type} (t : PromptTemplate S) (state : S),
      ((pieces t.rawTemplate t.names t.paths).filterMap Piece.placed?).Perm
        ((List.range t.staticInclusions.length).map .static ++ [.dynamic]) ∧
      (∀ dir : PromptDir E, t.renderForModel state dir = (do
        let statics ← t.staticInclusions.mapM (modelBlock dir)
        let dynamic ← (t.dynamicInclusions.flatMap (· state)).mapM (existingFileBlock dir)
        return (pieces t.rawTemplate t.names t.paths).flatMap
          (Piece.render (t.valueOf state) (PromptTemplate.blockOf statics dynamic.flatten)))) ∧
      t.renderForLog state = (pieces t.rawTemplate t.names t.paths).flatMap
        (Piece.render (t.valueOf state) (PromptTemplate.blockOf
          (t.staticInclusions.map PromptTemplate.logToken)
          (t.dynamicInclusions.flatMap fun files => PromptTemplate.logTags (files state)))) := by
  refine ⟨promptPieces, fun t state => ⟨?_, t.renderForModel_eq state, t.renderForLog_eq state⟩⟩
  have hcount : t.paths.length = t.staticInclusions.length := List.length_map _
  rw [← hcount]
  exact placed?_promptPieces t.rawTemplate t.names t.paths

end Whole

end Sashiko
