import Mathlib.Data.List.MinMax
import Mathlib.Data.List.Nodup
import Mathlib.Data.Prod.Lex
import Sashiko.Subject.Tags

/-! Patch-to-patch matching between two versions of a series: three passes over the current
patches, each linking what it accepts and no earlier pass has taken. -/

namespace Sashiko

/-- `str::to_lowercase`, of which the code relies on what it does to the case of ASCII letters. -/
structure FoldingLowercase where
  apply : Text → Text
  folds : ∀ a b : Text, a.map Char.toLower = b.map Char.toLower → apply a = apply b

/-- One patch of a series as seen by lineage reconciliation. -/
structure LineagePatch where
  id : ℤ
  partIndex : ℤ
  gitPatchId : Option String
  cleanSubject : Text
  existingPrevId : Option ℤ
  existingPrevStatus : Option String
  deriving DecidableEq, Repr

/-! ### Subjects -/

/-- `eq_ignore_ascii_case` -/
def sameAsciiCase (a b : Text) : Bool := a.map Char.toLower = b.map Char.toLower

def utf8Len (cs : Text) : ℕ := (String.ofList cs).utf8ByteSize

/-- A cleaned subject split into its leading subsystem prefix components and the summary that
follows them. -/
structure SubjectParts where
  pre : List Text
  summary : Text
  deriving DecidableEq, Repr

namespace SubjectParts

def minSummaryLen : ℕ := 16
def maxPrefixComponentLen : ℕ := 40

def isComponent (head tail : Text) : Bool :=
  !head.isEmpty && utf8Len head ≤ maxPrefixComponentLen && !head.any isRustWhitespace &&
    tail.head?.any isRustWhitespace

theorem length_splitOnce {sep : Char} {cs head tail : Text}
    (h : splitOnce sep cs = some (head, tail)) : tail.length < cs.length := by
  induction cs generalizing head tail with
  | nil => cases h
  | cons c cs ih =>
    rw [splitOnce] at h
    split_ifs at h
    · obtain ⟨-, rfl⟩ := Prod.mk.inj (Option.some.inj h)
      exact Nat.lt_succ_self _
    · obtain ⟨⟨head', tail'⟩, hsplit, heq⟩ := Option.map_eq_some_iff.mp h
      obtain ⟨-, rfl⟩ := Prod.mk.inj heq
      exact (ih hsplit).trans (Nat.lt_succ_self _)

/-- The components in front of the first part that is none, and what is left. -/
def splitPrefix (rest : Text) : List Text × Text :=
  match _h : splitOnce ':' rest with
  | none => ([], rest)
  | some (head, tail) =>
    if isComponent (trimChars head) tail then
      let (pre, summary) := splitPrefix (tail.dropWhile isRustWhitespace)
      (trimChars head :: pre, summary)
    else ([], rest)
termination_by rest.length
decreasing_by
  exact Nat.lt_of_le_of_lt (List.length_dropWhile_le ..) (length_splitOnce ‹_›)

def parse (subject : Text) : Option SubjectParts :=
  let (pre, rest) := splitPrefix (trimChars subject)
  if !pre.isEmpty && minSummaryLen ≤ utf8Len (trimChars rest) then some ⟨pre, trimChars rest⟩
  else none

end SubjectParts

def isComponentSubsequence : List Text → List Text → Bool
  | [], _ => true
  | _ :: _, [] => false
  | s :: short, l :: long =>
    if sameAsciiCase l s then isComponentSubsequence short long
    else isComponentSubsequence (s :: short) long

/-- Two subjects name the same patch when their summaries match, their first subsystem component
matches, and one prefix only adds components to the other. -/
def summariesLink (prev curr : SubjectParts) : Bool :=
  match prev.pre.head?, curr.pre.head? with
  | some p, some c =>
    sameAsciiCase p c && sameAsciiCase prev.summary curr.summary &&
      (isComponentSubsequence prev.pre curr.pre || isComponentSubsequence curr.pre prev.pre)
  | _, _ => false

/-! ### Passes -/

structure LineageTiers where
  matchedPrevIds : List ℤ
  /-- `curr patch id -> (previous patch id, previous_patch_status)` -/
  assignments : List (ℤ × ℤ × String)
  deriving DecidableEq, Repr

/-- What a pass links, and which of the patches it may link it prefers. -/
structure LineageTier where
  status : String
  accepts : LineagePatch → LineagePatch → Bool
  rank : LineagePatch → LineagePatch → ℕ

namespace LineageTier

/-- The lowest rank, then the closest part index, then the earliest part. -/
def order (tier : LineageTier) (prev curr : LineagePatch) : ℕ ×ₗ ℕ ×ₗ ℤ :=
  toLex (tier.rank prev curr, toLex ((prev.partIndex - curr.partIndex).natAbs, prev.partIndex))

end LineageTier

/-- The order as it is computed, whatever other order of the integers is in scope. -/
instance lineageTierOrder : Preorder (ℕ ×ₗ ℕ ×ₗ ℤ) :=
  @Prod.Lex.instPreorder ℕ (ℕ ×ₗ ℤ) _
    (@Prod.Lex.instPreorder ℕ ℤ _ Int.instLinearOrder.toPreorder)

namespace LineageTiers

def start : LineageTiers := ⟨[], []⟩

variable (prevPatches : List LineagePatch) (tier : LineageTier)

def bestPrev (t : LineageTiers) (curr : LineagePatch) : Option LineagePatch :=
  (prevPatches.filter fun prev => prev.id ∉ t.matchedPrevIds ∧ tier.accepts prev curr = true).argmin
    (tier.order · curr)

def assignOne (t : LineageTiers) (curr : LineagePatch) : LineageTiers :=
  if t.assignments.any (·.1 = curr.id) then t
  else match bestPrev prevPatches tier t curr with
    | some prev => ⟨t.matchedPrevIds ++ [prev.id],
        t.assignments ++ [(curr.id, prev.id, tier.status)]⟩
    | none => t

def assign (currPatches : List LineagePatch) (t : LineageTiers) : LineageTiers :=
  currPatches.foldl (assignOne prevPatches tier) t

end LineageTiers

section Tiers
variable (lower : FoldingLowercase)

def summaryKey (p : LineagePatch) : Option Text :=
  (SubjectParts.parse p.cleanSubject).map fun parts => lower.apply parts.summary

/-- `summary_counts`, at a key. -/
def summaryCount (patches : List LineagePatch) (key : Text) : ℕ :=
  (patches.filterMap (summaryKey lower)).count key

def gitPatchIdTier : LineageTier where
  status := "unchanged"
  accepts prev curr := curr.gitPatchId.isSome && prev.gitPatchId = curr.gitPatchId
  rank prev curr := if prev.cleanSubject ≠ curr.cleanSubject then 1 else 0

def subjectTier : LineageTier where
  status := "modified"
  accepts prev curr := !curr.cleanSubject.isEmpty && prev.cleanSubject = curr.cleanSubject
  rank _ _ := 0

def summaryTier (prevPatches currPatches : List LineagePatch) : LineageTier where
  status := "modified"
  accepts prev curr :=
    match SubjectParts.parse prev.cleanSubject, SubjectParts.parse curr.cleanSubject with
    | some p, some c =>
      summaryCount lower prevPatches (lower.apply p.summary) = 1 &&
        summaryCount lower currPatches (lower.apply p.summary) = 1 && summariesLink p c
    | _, _ => false
  rank _ _ := 0

def matchPatchLineage (prevPatches currPatches : List LineagePatch) : LineageTiers :=
  ((LineageTiers.start.assign prevPatches gitPatchIdTier currPatches).assign prevPatches subjectTier
    currPatches).assign prevPatches (summaryTier lower prevPatches currPatches) currPatches

end Tiers

/-! ### What a link rests on -/

section Grounds
variable (lower : FoldingLowercase) (prevPatches currPatches : List LineagePatch)

/-- One prefix only adds components to the other, the first being the same, and the summaries are
the same, letter case aside. -/
def CompatiblePrefix (p c : SubjectParts) : Prop :=
  p.summary.map Char.toLower = c.summary.map Char.toLower ∧
    (∃ x y, p.pre.head? = some x ∧ c.pre.head? = some y ∧ x.map Char.toLower = y.map Char.toLower) ∧
    ((p.pre.map (List.map Char.toLower)).Sublist (c.pre.map (List.map Char.toLower)) ∨
      (c.pre.map (List.map Char.toLower)).Sublist (p.pre.map (List.map Char.toLower)))

/-- No other patch of the series has the summary. -/
def OnlySummary (patches : List LineagePatch) (p : LineagePatch) : Prop :=
  ∀ q ∈ patches, summaryKey lower q = summaryKey lower p → q = p

/-- Why a current patch may be linked to a previous one, and as what. -/
inductive LinkGround (p c : LineagePatch) : String → Prop
  | gitPatchId {g : String} (hp : p.gitPatchId = some g) (hc : c.gitPatchId = some g) :
    LinkGround p c "unchanged"
  | subject (hne : c.cleanSubject ≠ []) (heq : p.cleanSubject = c.cleanSubject) :
    LinkGround p c "modified"
  | summary {P C : SubjectParts} (hp : SubjectParts.parse p.cleanSubject = some P)
    (hc : SubjectParts.parse c.cleanSubject = some C) (hprev : OnlySummary lower prevPatches p)
    (hcurr : OnlySummary lower currPatches c) (hcompatible : CompatiblePrefix P C) :
    LinkGround p c "modified"

theorem isComponentSubsequence_iff (short long : List Text) :
    isComponentSubsequence short long = true ↔
      (short.map (List.map Char.toLower)).Sublist (long.map (List.map Char.toLower)) := by
  induction long generalizing short with
  | nil =>
    cases short with
    | nil => simp [isComponentSubsequence]
    | cons s short => simp [isComponentSubsequence]
  | cons l long ih =>
    cases short with
    | nil => simp [isComponentSubsequence]
    | cons s short =>
      rw [isComponentSubsequence]
      by_cases h : l.map Char.toLower = s.map Char.toLower
      · rw [if_pos (by simpa [sameAsciiCase] using h), ih, List.map_cons, List.map_cons, h]
        exact List.cons_sublist_cons.symm
      · rw [if_neg (by simpa [sameAsciiCase] using h), ih, List.map_cons, List.map_cons,
          List.sublist_cons_iff]
        refine ⟨.inl, fun hsub => hsub.resolve_right ?_⟩
        rintro ⟨rest, heq, -⟩
        exact h (List.cons.inj heq).1.symm

theorem summariesLink_iff (p c : SubjectParts) :
    summariesLink p c = true ↔ CompatiblePrefix p c := by
  unfold summariesLink CompatiblePrefix
  cases hp : p.pre.head? with
  | none => simp
  | some x =>
    cases hc : c.pre.head? with
    | none => simp
    | some y =>
      simp only [sameAsciiCase, Bool.and_eq_true, Bool.or_eq_true, decide_eq_true_eq,
        isComponentSubsequence_iff, Option.some.injEq, exists_eq_left', exists_and_left]
      tauto

variable {lower prevPatches currPatches}

/-- A summary counted once is that of one patch. -/
theorem summaryCount_eq_one_iff {patches : List LineagePatch} {p : LineagePatch} {key : Text}
    (hnodup : (patches.map LineagePatch.id).Nodup) (hp : p ∈ patches)
    (hkey : summaryKey lower p = some key) :
    summaryCount lower patches key = 1 ↔ OnlySummary lower patches p := by
  have hcount : summaryCount lower patches key =
      (patches.filter fun q => summaryKey lower q = some key).length := by
    rw [summaryCount, List.count, List.countP_filterMap, List.countP_eq_length_filter]
    congr 2
    funext q
    cases summaryKey lower q with
    | none => simp
    | some k => simpa using beq_eq_decide k key
  have hmem : p ∈ patches.filter fun q => summaryKey lower q = some key :=
    List.mem_filter.mpr ⟨hp, by simpa using hkey⟩
  have hdistinct : (patches.filter fun q => summaryKey lower q = some key).Nodup :=
    (List.Nodup.of_map _ hnodup).filter _
  rw [hcount, List.length_eq_one_iff]
  constructor
  · rintro ⟨only, honly⟩ q hq hsame
    have hq' : q ∈ patches.filter fun q => summaryKey lower q = some key :=
      List.mem_filter.mpr ⟨hq, by simpa [hkey] using hsame⟩
    rw [honly] at hq' hmem
    rw [List.mem_singleton.mp hq', List.mem_singleton.mp hmem]
  · intro honly
    refine ⟨p, List.perm_singleton.mp ((List.perm_ext_iff_of_nodup hdistinct
      (List.nodup_singleton p)).mpr fun q => ?_)⟩
    rw [List.mem_filter, List.mem_singleton]
    refine ⟨fun ⟨hq, hsame⟩ => honly q hq (by simpa [hkey] using hsame), ?_⟩
    rintro rfl
    exact List.mem_filter.mp hmem

theorem summaryTier_accepts_iff {p c : LineagePatch}
    (hprev : (prevPatches.map LineagePatch.id).Nodup)
    (hcurr : (currPatches.map LineagePatch.id).Nodup) (hp : p ∈ prevPatches)
    (hc : c ∈ currPatches) :
    (summaryTier lower prevPatches currPatches).accepts p c = true ↔
      ∃ P C, SubjectParts.parse p.cleanSubject = some P ∧
        SubjectParts.parse c.cleanSubject = some C ∧ OnlySummary lower prevPatches p ∧
          OnlySummary lower currPatches c ∧ CompatiblePrefix P C := by
  simp only [summaryTier]
  cases hP : SubjectParts.parse p.cleanSubject with
  | none => simp
  | some P =>
    cases hC : SubjectParts.parse c.cleanSubject with
    | none => simp
    | some C =>
      have hkey : summaryKey lower p = some (lower.apply P.summary) := by rw [summaryKey, hP]; rfl
      have hkey' : summaryKey lower c = some (lower.apply C.summary) := by rw [summaryKey, hC]; rfl
      simp only [Bool.and_eq_true, decide_eq_true_eq, summariesLink_iff, Option.some.injEq,
        exists_and_left, exists_eq_left']
      rw [summaryCount_eq_one_iff hprev hp hkey, and_assoc]
      refine and_congr_right fun _ => and_congr_left fun hlink => ?_
      rw [lower.folds _ _ hlink.1]
      exact summaryCount_eq_one_iff hcurr hc hkey'

end Grounds

/-! ### One pass -/

namespace LineageTiers

variable {prevPatches currPatches : List LineagePatch} {tier : LineageTier} {t t' : LineageTiers}
variable {c p : LineagePatch}

def Links (t : LineageTiers) (currId : ℤ) : Prop := currId ∈ t.assignments.map (·.1)

def Takes (t : LineageTiers) (prevId : ℤ) : Prop := prevId ∈ t.matchedPrevIds

/-- The links of one current and one previous patch each, among the patches given, on grounds. -/
structure Sound (prevPatches currPatches : List LineagePatch)
    (ground : LineagePatch → LineagePatch → String → Prop) (t : LineageTiers) : Prop where
  taken : t.matchedPrevIds = t.assignments.map (·.2.1)
  once : (t.assignments.map (·.1)).Nodup
  injective : (t.assignments.map (·.2.1)).Nodup
  grounded : ∀ l ∈ t.assignments, ∃ p ∈ prevPatches, ∃ c ∈ currPatches,
    l.1 = c.id ∧ l.2.1 = p.id ∧ ground p c l.2.2

theorem bestPrev_eq_some (h : bestPrev prevPatches tier t c = some p) :
    (p ∈ prevPatches ∧ ¬ t.Takes p.id ∧ tier.accepts p c = true) ∧
      ∀ q ∈ prevPatches, ¬ t.Takes q.id → tier.accepts q c = true →
        tier.order p c ≤ tier.order q c := by
  have hmem := List.argmin_mem h
  rw [List.mem_filter, decide_eq_true_eq] at hmem
  exact ⟨hmem, fun q hq hfree haccepts =>
    List.le_of_mem_argmin (List.mem_filter.mpr ⟨hq, by simpa using ⟨hfree, haccepts⟩⟩) h⟩

theorem bestPrev_eq_none (h : bestPrev prevPatches tier t c = none) :
    ∀ q ∈ prevPatches, ¬ t.Takes q.id → tier.accepts q c = false := by
  intro q hq hfree
  rw [bestPrev, List.argmin_eq_none, List.filter_eq_nil_iff] at h
  have hq' := h q hq
  rw [decide_eq_true_eq, not_and] at hq'
  exact Bool.eq_false_iff.mpr (hq' hfree)

/-- What one patch of a pass does: it is linked already, it finds none, or it takes the best. -/
theorem assignOne_cases (prevPatches : List LineagePatch) (tier : LineageTier) (t : LineageTiers)
    (c : LineagePatch) :
    (t.assignOne prevPatches tier c = t ∧ (t.Links c.id ∨ bestPrev prevPatches tier t c = none)) ∨
      ∃ p, ¬ t.Links c.id ∧ bestPrev prevPatches tier t c = some p ∧
        t.assignOne prevPatches tier c = ⟨t.matchedPrevIds ++ [p.id],
          t.assignments ++ [(c.id, p.id, tier.status)]⟩ := by
  unfold assignOne
  by_cases hlinked : t.Links c.id
  · left
    rw [if_pos]
    · exact ⟨rfl, .inl hlinked⟩
    · obtain ⟨l, hl, heq⟩ := List.mem_map.mp hlinked
      exact List.any_eq_true.mpr ⟨l, hl, by simpa using heq⟩
  · rw [if_neg]
    · cases hbest : bestPrev prevPatches tier t c with
      | none => exact .inl ⟨rfl, .inr rfl⟩
      | some p => exact .inr ⟨p, hlinked, rfl, rfl⟩
    · intro hany
      obtain ⟨l, hl, heq⟩ := List.any_eq_true.mp hany
      exact hlinked (List.mem_map.mpr ⟨l, hl, by simpa using heq⟩)

section Sound
variable {ground : LineagePatch → LineagePatch → String → Prop}

theorem sound_start : start.Sound prevPatches currPatches ground :=
  ⟨rfl, List.nodup_nil, List.nodup_nil, fun _ h => absurd h List.not_mem_nil⟩

theorem Sound.assignOne (h : t.Sound prevPatches currPatches ground) (hc : c ∈ currPatches)
    (hground : ∀ p, ¬ t.Links c.id → bestPrev prevPatches tier t c = some p →
      ground p c tier.status) :
    (t.assignOne prevPatches tier c).Sound prevPatches currPatches ground := by
  rcases assignOne_cases prevPatches tier t c with ⟨heq, -⟩ | ⟨p, hfree, hbest, heq⟩
  · rw [heq]
    exact h
  · obtain ⟨⟨hp, huntaken, -⟩, -⟩ := bestPrev_eq_some hbest
    rw [heq]
    refine ⟨?_, ?_, ?_, fun l hl => ?_⟩
    · rw [h.taken, List.map_append, List.map_singleton]
    · rw [List.map_append, List.map_singleton, ← List.concat_eq_append]
      exact List.Nodup.concat hfree h.once
    · rw [List.map_append, List.map_singleton, ← List.concat_eq_append]
      exact List.Nodup.concat (h.taken ▸ huntaken) h.injective
    · rcases List.mem_append.mp hl with hl | hl
      · exact h.grounded l hl
      · rw [List.mem_singleton.mp hl]
        exact ⟨p, hp, c, hc, rfl, rfl, hground p hfree hbest⟩

/-- A pass keeps the links on grounds if what it picks at each step is. -/
theorem Sound.assign (h : t.Sound prevPatches currPatches ground)
    (hground : ∀ t : LineageTiers, t.Sound prevPatches currPatches ground → ∀ c ∈ currPatches,
      ∀ p, ¬ t.Links c.id → bestPrev prevPatches tier t c = some p → ground p c tier.status) :
    (t.assign prevPatches tier currPatches).Sound prevPatches currPatches ground := by
  have hrun : ∀ cs : List LineagePatch, (∀ c ∈ cs, c ∈ currPatches) → ∀ t : LineageTiers,
      t.Sound prevPatches currPatches ground →
        (t.assign prevPatches tier cs).Sound prevPatches currPatches ground := by
    intro cs
    induction cs with
    | nil => exact fun _ _ h => h
    | cons c cs ih =>
      intro hcs t h
      have hc := hcs c List.mem_cons_self
      exact ih (fun c' hc' => hcs c' (List.mem_cons_of_mem _ hc')) _
        (h.assignOne hc (hground t h c hc))
  exact hrun currPatches (fun _ hc => hc) t h

theorem Sound.assign_of_accepts (h : t.Sound prevPatches currPatches ground)
    (hground : ∀ p ∈ prevPatches, ∀ c ∈ currPatches, tier.accepts p c = true →
      ground p c tier.status) :
    (t.assign prevPatches tier currPatches).Sound prevPatches currPatches ground := by
  refine h.assign fun t _ c hc p _ hbest => ?_
  obtain ⟨⟨hp, -, haccepts⟩, -⟩ := bestPrev_eq_some hbest
  exact hground p hp c hc haccepts

end Sound

/-! ### Nothing acceptable is left -/

/-- Links stay. -/
structure Grows (t t' : LineageTiers) : Prop where
  links : ∀ id, t.Links id → t'.Links id
  takes : ∀ id, t.Takes id → t'.Takes id

theorem Grows.trans {t'' : LineageTiers} (h : t.Grows t') (h' : t'.Grows t'') : t.Grows t'' :=
  ⟨fun id hid => h'.links id (h.links id hid), fun id hid => h'.takes id (h.takes id hid)⟩

theorem grows_assignOne (t : LineageTiers) (c : LineagePatch) :
    t.Grows (t.assignOne prevPatches tier c) := by
  rcases assignOne_cases prevPatches tier t c with ⟨heq, -⟩ | ⟨p, -, -, heq⟩
  · rw [heq]
    exact ⟨fun _ => id, fun _ => id⟩
  · rw [heq]
    refine ⟨fun id hid => ?_, fun id hid => List.mem_append_left _ hid⟩
    rw [Links, List.map_append]
    exact List.mem_append_left _ hid

theorem grows_assign (t : LineageTiers) (cs : List LineagePatch) :
    t.Grows (t.assign prevPatches tier cs) := by
  induction cs generalizing t with
  | nil => exact ⟨fun _ => id, fun _ => id⟩
  | cons c cs ih => exact (grows_assignOne t c).trans (ih _)

/-- The pass accepts no pair of a patch without a link and a patch not taken. -/
def Exhausts (tier : LineageTier) (prevPatches currPatches : List LineagePatch)
    (t : LineageTiers) : Prop :=
  ∀ c ∈ currPatches, ¬ t.Links c.id → ∀ p ∈ prevPatches, ¬ t.Takes p.id →
    tier.accepts p c = false

theorem Exhausts.grows (h : t.Exhausts tier prevPatches currPatches) (hgrows : t.Grows t') :
    t'.Exhausts tier prevPatches currPatches := fun c hc hfree p hp huntaken =>
  h c hc (mt (hgrows.links c.id) hfree) p hp (mt (hgrows.takes p.id) huntaken)

theorem assign_exhausts (t : LineageTiers) (cs : List LineagePatch) :
    (t.assign prevPatches tier cs).Exhausts tier prevPatches cs := by
  induction cs generalizing t with
  | nil => exact fun c hc => absurd hc List.not_mem_nil
  | cons c cs ih =>
    intro c' hc' hfree p hp huntaken
    rcases List.mem_cons.mp hc' with rfl | hc'
    · have hgrows : (t.assignOne prevPatches tier c').Grows
          (t.assign prevPatches tier (c' :: cs)) := grows_assign _ cs
      rcases assignOne_cases prevPatches tier t c' with ⟨heq, hlinked | hnone⟩ | ⟨q, -, -, heq⟩
      · rw [heq] at hgrows
        exact absurd (hgrows.links _ hlinked) hfree
      · rw [heq] at hgrows
        exact bestPrev_eq_none hnone p hp (mt (hgrows.takes p.id) huntaken)
      · refine absurd (hgrows.links c'.id ?_) hfree
        rw [heq, Links, List.map_append]
        exact List.mem_append_right _ List.mem_cons_self
    · exact ih _ c' hc' hfree p hp huntaken

/-! ### The order of the previous patches -/

/-- Patches of different parts are told apart by the order of preference. -/
theorem eq_of_order_eq {q : LineagePatch} (hparts : ∀ p ∈ prevPatches, ∀ q ∈ prevPatches,
    p.partIndex = q.partIndex → p = q) (hp : p ∈ prevPatches) (hq : q ∈ prevPatches)
    (h : tier.order p c = tier.order q c) : p = q :=
  hparts p hp q hq (congrArg (fun k : ℕ ×ₗ ℕ ×ₗ ℤ => (ofLex (ofLex k).2).2) h)

theorem bestPrev_perm {prevPatches' : List LineagePatch} (hperm : prevPatches.Perm prevPatches')
    (hparts : ∀ p ∈ prevPatches, ∀ q ∈ prevPatches, p.partIndex = q.partIndex → p = q) :
    bestPrev prevPatches tier t c = bestPrev prevPatches' tier t c := by
  cases h : bestPrev prevPatches tier t c with
  | none =>
    cases h' : bestPrev prevPatches' tier t c with
    | none => rfl
    | some q =>
      obtain ⟨⟨hq, hfree, haccepts⟩, -⟩ := bestPrev_eq_some h'
      have hnone := bestPrev_eq_none h q (hperm.mem_iff.mpr hq) hfree
      rw [hnone] at haccepts
      cases haccepts
  | some p =>
    obtain ⟨⟨hp, hfree, haccepts⟩, hbest⟩ := bestPrev_eq_some h
    cases h' : bestPrev prevPatches' tier t c with
    | none =>
      rw [bestPrev_eq_none h' p (hperm.mem_iff.mp hp) hfree] at haccepts
      cases haccepts
    | some q =>
      obtain ⟨⟨hq, hfree', haccepts'⟩, hbest'⟩ := bestPrev_eq_some h'
      have hq' := hperm.mem_iff.mpr hq
      rw [eq_of_order_eq hparts hp hq' (le_antisymm (hbest q hq' hfree' haccepts')
        (hbest' p (hperm.mem_iff.mp hp) hfree haccepts))]

theorem assign_perm {prevPatches' : List LineagePatch} (hperm : prevPatches.Perm prevPatches')
    (hparts : ∀ p ∈ prevPatches, ∀ q ∈ prevPatches, p.partIndex = q.partIndex → p = q)
    (cs : List LineagePatch) (t : LineageTiers) :
    t.assign prevPatches tier cs = t.assign prevPatches' tier cs := by
  have hstep : assignOne prevPatches tier = assignOne prevPatches' tier := by
    funext t c
    rw [assignOne, assignOne, bestPrev_perm hperm hparts]
  rw [assign, assign, hstep]

/-- Where every patch has a link, a pass does nothing. -/
theorem assign_of_linked {cs : List LineagePatch} (h : ∀ c ∈ cs, t.Links c.id) :
    t.assign prevPatches tier cs = t := by
  induction cs with
  | nil => rfl
  | cons c cs ih =>
    have hone : t.assignOne prevPatches tier c = t := by
      rcases assignOne_cases prevPatches tier t c with ⟨heq, -⟩ | ⟨p, hfree, -⟩
      · exact heq
      · exact absurd (h c List.mem_cons_self) hfree
    rw [assign, List.foldl_cons, hone]
    exact ih fun c' hc' => h c' (List.mem_cons_of_mem _ hc')

end LineageTiers

/-! ### A series sent again -/

/-- The same patch in two series: the content, the subject and the place. -/
structure SamePatch (p c : LineagePatch) : Prop where
  content : ∃ g, p.gitPatchId = some g ∧ c.gitPatchId = some g
  subject : p.cleanSubject = c.cleanSubject
  place : p.partIndex = c.partIndex

/-- Patches of different parts. -/
def DistinctParts (patches : List LineagePatch) : Prop :=
  (patches.map LineagePatch.partIndex).Nodup

theorem DistinctParts.eq {patches : List LineagePatch} (h : DistinctParts patches)
    {p q : LineagePatch} (hp : p ∈ patches) (hq : q ∈ patches) (heq : p.partIndex = q.partIndex) :
    p = q := List.inj_on_of_nodup_map h hp hq heq

section Resent
variable {prevPatches currPatches : List LineagePatch} {t : LineageTiers} {p q c : LineagePatch}

theorem SamePatch.accepts (h : SamePatch p c) : gitPatchIdTier.accepts p c = true := by
  obtain ⟨g, hp, hc⟩ := h.content
  simp [gitPatchIdTier, hp, hc]

/-- The patch itself is preferred to every other. -/
theorem SamePatch.order_le (h : SamePatch p c) (hle : gitPatchIdTier.order q c ≤
    gitPatchIdTier.order p c) : q.partIndex = c.partIndex := by
  have hp : gitPatchIdTier.order p c = toLex (0, toLex (0, p.partIndex)) := by
    simp [LineageTier.order, gitPatchIdTier, h.subject, h.place]
  rw [hp, LineageTier.order, Prod.Lex.toLex_le_toLex] at hle
  rcases hle with hlt | ⟨-, hle⟩
  · exact absurd hlt (Nat.not_lt_zero _)
  · rw [Prod.Lex.toLex_le_toLex] at hle
    rcases hle with hlt | ⟨hdist, -⟩
    · exact absurd hlt (Nat.not_lt_zero _)
    · have := Int.natAbs_eq_zero.mp hdist
      omega

/-- In a series sent again a previous patch is taken by none but the same patch. -/
theorem not_takes_of_resent (hprev : (prevPatches.map LineagePatch.id).Nodup)
    (hcurrParts : DistinctParts currPatches)
    (h : t.Sound prevPatches currPatches fun p c status => SamePatch p c ∧ status = "unchanged")
    (hp : p ∈ prevPatches) (hc : c ∈ currPatches) (hsame : SamePatch p c)
    (hfree : ¬ t.Links c.id) : ¬ t.Takes p.id := by
  intro htakes
  rw [LineageTiers.Takes, h.taken] at htakes
  obtain ⟨l, hl, hid⟩ := List.mem_map.mp htakes
  obtain ⟨p', hp', c', hc', hlc, hlp, hsame', -⟩ := h.grounded l hl
  obtain rfl : p' = p := List.inj_on_of_nodup_map hprev hp' hp (hlp.symm.trans hid)
  obtain rfl : c' = c := hcurrParts.eq hc' hc (hsame'.place.symm.trans hsame.place)
  exact hfree (List.mem_map.mpr ⟨l, hl, hlc⟩)

/-- The first pass links every patch of a series sent again to the same patch. -/
theorem gitPatchIdTier_resent (hprev : (prevPatches.map LineagePatch.id).Nodup)
    (hprevParts : DistinctParts prevPatches) (hcurrParts : DistinctParts currPatches)
    (hresent : ∀ c ∈ currPatches, ∃ p ∈ prevPatches, SamePatch p c) :
    let t := LineageTiers.start.assign prevPatches gitPatchIdTier currPatches
    (t.Sound prevPatches currPatches fun p c status => SamePatch p c ∧ status = "unchanged") ∧
      ∀ c ∈ currPatches, t.Links c.id := by
  intro t
  have hsound : t.Sound prevPatches currPatches
      fun p c status => SamePatch p c ∧ status = "unchanged" := by
    refine LineageTiers.sound_start.assign fun t h c hc q hfree hbest => ⟨?_, rfl⟩
    obtain ⟨p, hp, hsame⟩ := hresent c hc
    obtain ⟨⟨hq, -, -⟩, hle⟩ := LineageTiers.bestPrev_eq_some hbest
    have huntaken := not_takes_of_resent hprev hcurrParts h hp hc hsame hfree
    have hplace := hsame.order_le (hle p hp huntaken hsame.accepts)
    rw [hprevParts.eq hq hp (hplace.trans hsame.place.symm)]
    exact hsame
  refine ⟨hsound, fun c hc => ?_⟩
  by_contra hfree
  obtain ⟨p, hp, hsame⟩ := hresent c hc
  have huntaken := not_takes_of_resent hprev hcurrParts hsound hp hc hsame hfree
  have hrefused := LineageTiers.assign_exhausts _ currPatches c hc hfree p hp huntaken
  rw [hsame.accepts] at hrefused
  cases hrefused

end Resent

/-! ### The three passes -/

/-- What holds of the links between two series. -/
structure LineageMatched (lower : FoldingLowercase) (prevPatches currPatches : List LineagePatch)
    (t : LineageTiers) : Prop where
  sound : t.Sound prevPatches currPatches (LinkGround lower prevPatches currPatches)
  complete : ∀ c ∈ currPatches, ¬ t.Links c.id → ∀ p ∈ prevPatches, ¬ t.Takes p.id → ∀ status,
    ¬ LinkGround lower prevPatches currPatches p c status
  order : DistinctParts prevPatches → ∀ prevPatches', prevPatches.Perm prevPatches' →
    matchPatchLineage lower prevPatches' currPatches = t
  resent : DistinctParts prevPatches → DistinctParts currPatches →
    (∀ c ∈ currPatches, ∃ p ∈ prevPatches, SamePatch p c) →
      ∀ c ∈ currPatches, ∀ p ∈ prevPatches, SamePatch p c →
        (c.id, p.id, "unchanged") ∈ t.assignments

section Match
variable {lower : FoldingLowercase} {prevPatches currPatches : List LineagePatch}

theorem summaryTier_perm {prevPatches' : List LineagePatch}
    (hperm : prevPatches.Perm prevPatches') :
    summaryTier lower prevPatches currPatches = summaryTier lower prevPatches' currPatches := by
  have hcount : summaryCount lower prevPatches = summaryCount lower prevPatches' := by
    funext key
    exact (hperm.filterMap _).count_eq key
  rw [summaryTier, summaryTier, hcount]

theorem matchPatchLineage_perm {prevPatches' : List LineagePatch}
    (hparts : DistinctParts prevPatches) (hperm : prevPatches.Perm prevPatches') :
    matchPatchLineage lower prevPatches' currPatches =
      matchPatchLineage lower prevPatches currPatches := by
  have heq : ∀ p ∈ prevPatches, ∀ q ∈ prevPatches, p.partIndex = q.partIndex → p = q :=
    fun _ hp _ hq => hparts.eq hp hq
  rw [matchPatchLineage, matchPatchLineage, LineageTiers.assign_perm hperm heq,
    LineageTiers.assign_perm hperm heq, LineageTiers.assign_perm hperm heq, summaryTier_perm hperm]

theorem matchPatchLineage_sound (hprev : (prevPatches.map LineagePatch.id).Nodup)
    (hcurr : (currPatches.map LineagePatch.id).Nodup) :
    (matchPatchLineage lower prevPatches currPatches).Sound prevPatches currPatches
      (LinkGround lower prevPatches currPatches) := by
  refine ((LineageTiers.sound_start.assign_of_accepts ?_).assign_of_accepts ?_).assign_of_accepts ?_
  · intro p _ c _ haccepts
    obtain ⟨hsome, heq⟩ := Bool.and_eq_true_iff.mp haccepts
    obtain ⟨g, hg⟩ := Option.isSome_iff_exists.mp hsome
    exact .gitPatchId ((of_decide_eq_true heq).trans hg) hg
  · intro p _ c _ haccepts
    obtain ⟨hne, heq⟩ := Bool.and_eq_true_iff.mp haccepts
    exact .subject (by simpa using hne) (of_decide_eq_true heq)
  · intro p hp c hc haccepts
    obtain ⟨P, C, hP, hC, hprev, hcurr, hlink⟩ :=
      (summaryTier_accepts_iff hprev hcurr hp hc).mp haccepts
    exact .summary hP hC hprev hcurr hlink

theorem matchPatchLineage_complete (hprev : (prevPatches.map LineagePatch.id).Nodup)
    (hcurr : (currPatches.map LineagePatch.id).Nodup) {c p : LineagePatch} (hc : c ∈ currPatches)
    (hp : p ∈ prevPatches)
    (hfree : ¬ (matchPatchLineage lower prevPatches currPatches).Links c.id)
    (huntaken : ¬ (matchPatchLineage lower prevPatches currPatches).Takes p.id) (status : String) :
    ¬ LinkGround lower prevPatches currPatches p c status := by
  have hlast := @LineageTiers.grows_assign prevPatches (summaryTier lower prevPatches currPatches)
    ((LineageTiers.start.assign prevPatches gitPatchIdTier currPatches).assign prevPatches
      subjectTier currPatches) currPatches
  have hfirst := (@LineageTiers.grows_assign prevPatches subjectTier
    (LineageTiers.start.assign prevPatches gitPatchIdTier currPatches) currPatches).trans hlast
  intro hground
  cases hground with
  | gitPatchId hpid hcid =>
    have h := (LineageTiers.assign_exhausts _ _).grows hfirst c hc hfree p hp huntaken
    simp [gitPatchIdTier, hpid, hcid] at h
  | subject hne heq =>
    have h := (LineageTiers.assign_exhausts _ _).grows hlast c hc hfree p hp huntaken
    simp [subjectTier, hne, heq] at h
  | summary hP hC honly honly' hlink =>
    have h := LineageTiers.assign_exhausts _ _ c hc hfree p hp huntaken
    rw [(summaryTier_accepts_iff hprev hcurr hp hc).mpr ⟨_, _, hP, hC, honly, honly', hlink⟩] at h
    cases h

theorem matchPatchLineage_resent (hprev : (prevPatches.map LineagePatch.id).Nodup)
    (hcurr : (currPatches.map LineagePatch.id).Nodup) (hprevParts : DistinctParts prevPatches)
    (hcurrParts : DistinctParts currPatches)
    (hresent : ∀ c ∈ currPatches, ∃ p ∈ prevPatches, SamePatch p c) {c p : LineagePatch}
    (hc : c ∈ currPatches) (hp : p ∈ prevPatches) (hsame : SamePatch p c) :
    (c.id, p.id, "unchanged") ∈ (matchPatchLineage lower prevPatches currPatches).assignments := by
  obtain ⟨hsound, hlinked⟩ := gitPatchIdTier_resent hprev hprevParts hcurrParts hresent
  rw [matchPatchLineage, LineageTiers.assign_of_linked hlinked,
    LineageTiers.assign_of_linked hlinked]
  obtain ⟨l, hl, hid⟩ := List.mem_map.mp (hlinked c hc)
  obtain ⟨p', hp', c', hc', hlc, hlp, hsame', hstatus⟩ := hsound.grounded l hl
  obtain rfl : c' = c := List.inj_on_of_nodup_map hcurr hc' hc (hlc.symm.trans hid)
  obtain rfl : p' = p := hprevParts.eq hp' hp (hsame'.place.trans hsame.place.symm)
  rwa [← hlc, ← hlp, ← hstatus]

theorem matchPatchLineage_spec (hprev : (prevPatches.map LineagePatch.id).Nodup)
    (hcurr : (currPatches.map LineagePatch.id).Nodup) :
    LineageMatched lower prevPatches currPatches
      (matchPatchLineage lower prevPatches currPatches) where
  sound := matchPatchLineage_sound hprev hcurr
  complete _ hc hfree _ hp huntaken := matchPatchLineage_complete hprev hcurr hc hp hfree huntaken
  order hparts _ := matchPatchLineage_perm hparts
  resent hprevParts hcurrParts hresent _ hc _ hp :=
    matchPatchLineage_resent hprev hcurr hprevParts hcurrParts hresent hc hp

end Match

end Sashiko
