import Mathlib.Data.Finset.Card
import Mathlib.Data.Finset.Dedup
import Mathlib.Logic.Relation
import Mathlib.Tactic.Common

/-! A finite set that a list of rules adds to: the rules are gone through again and again, every one
seeing what the ones before it have added, until a pass adds nothing. The result is the least set
that holds the given one and that no rule adds to, in whatever order the rules stand. -/

namespace Sashiko

open Relation

variable {ι α : Type*} [DecidableEq α] (out : ι → α) (enabled : ι → Finset α → Bool)

/-- One rule, on the set found so far and the note whether this pass has added something. -/
def saturateStep (state : Finset α × Bool) (i : ι) : Finset α × Bool :=
  if out i ∉ state.1 ∧ enabled i state.1 = true then (insert (out i) state.1, true) else state

def saturatePass (items : List ι) (found : Finset α) : Finset α × Bool :=
  items.foldl (saturateStep out enabled) (found, false)

variable {out enabled}

/-! ### A pass -/

theorem foldl_saturateStep_subset (items : List ι) (state : Finset α × Bool) :
    state.1 ⊆ (items.foldl (saturateStep out enabled) state).1 := by
  induction items generalizing state with
  | nil => exact Finset.Subset.refl _
  | cons i items ih =>
    refine Finset.Subset.trans ?_ (ih _)
    rw [saturateStep]
    split_ifs
    · exact Finset.subset_insert _ _
    · exact Finset.Subset.refl _

theorem foldl_saturateStep_within {S : Finset α → Prop} (items : List ι)
    (hstep : ∀ i ∈ items, ∀ found, S found → enabled i found = true → S (insert (out i) found))
    {state : Finset α × Bool} (h : S state.1) :
    S (items.foldl (saturateStep out enabled) state).1 := by
  induction items generalizing state with
  | nil => exact h
  | cons i items ih =>
    refine ih (fun j hj => hstep j (List.mem_cons_of_mem _ hj)) ?_
    rw [saturateStep]
    split_ifs with hi
    · exact hstep i List.mem_cons_self _ h hi.2
    · exact h

/-- The note tells whether the set has grown, and a set that has not grown is closed. -/
theorem foldl_saturateStep_cases (items : List ι) (state : Finset α × Bool) :
    (items.foldl (saturateStep out enabled) state = state ∧
      ∀ i ∈ items, enabled i state.1 = true → out i ∈ state.1) ∨
    ((items.foldl (saturateStep out enabled) state).2 = true ∧
      state.1 ⊂ (items.foldl (saturateStep out enabled) state).1) := by
  induction items generalizing state with
  | nil => exact .inl ⟨rfl, nofun⟩
  | cons i items ih =>
    rw [List.foldl_cons]
    by_cases hi : out i ∉ state.1 ∧ enabled i state.1 = true
    · rw [saturateStep, if_pos hi]
      have hgrown : state.1 ⊂ insert (out i) state.1 := Finset.ssubset_insert hi.1
      have hkept := @foldl_saturateStep_subset _ _ _ out enabled items
        (insert (out i) state.1, true)
      refine .inr ⟨?_, hgrown.trans_subset hkept⟩
      rcases ih (insert (out i) state.1, true) with ⟨hsame, -⟩ | ⟨htrue, -⟩
      · rw [hsame]
      · exact htrue
    · rw [saturateStep, if_neg hi]
      refine (ih state).imp_left fun ⟨hsame, hclosed⟩ => ⟨hsame, fun j hj hj' => ?_⟩
      rcases List.mem_cons.mp hj with rfl | hj
      · by_contra hnot
        exact hi ⟨hnot, hj'⟩
      · exact hclosed j hj hj'

theorem saturatePass_within_outs (items : List ι) (found : Finset α) :
    (saturatePass out enabled items found).1 ⊆ found ∪ (items.map out).toFinset := by
  refine foldl_saturateStep_within (S := (· ⊆ found ∪ (items.map out).toFinset)) items
    (fun i hi X hX _ => Finset.insert_subset ?_ hX) Finset.subset_union_left
  exact Finset.mem_union_right _ (List.mem_toFinset.mpr (List.mem_map_of_mem hi))

/-! ### All passes -/

variable (out enabled)

def saturate (items : List ι) (found : Finset α) : Finset α :=
  if (saturatePass out enabled items found).2 = true then
    saturate items (saturatePass out enabled items found).1
  else (saturatePass out enabled items found).1
termination_by ((items.map out).toFinset \ found).card
decreasing_by
  rename_i hchanged
  rcases @foldl_saturateStep_cases _ _ _ out enabled items (found, false) with
    ⟨hsame, -⟩ | ⟨-, hgrown⟩
  · rw [saturatePass, hsame] at hchanged
    cases hchanged
  · obtain ⟨x, hx, hnew⟩ := Finset.exists_of_ssubset hgrown
    have hout := Finset.mem_union.mp (saturatePass_within_outs items found hx)
    refine Finset.card_lt_card ⟨Finset.sdiff_subset_sdiff subset_rfl hgrown.subset, fun hsub => ?_⟩
    have hmem := hsub (Finset.mem_sdiff.mpr ⟨hout.resolve_left hnew, hnew⟩)
    exact (Finset.mem_sdiff.mp hmem).2 hx

variable {out enabled}

theorem subset_saturate (items : List ι) (found : Finset α) :
    found ⊆ saturate out enabled items found := by
  fun_induction saturate out enabled items found with
  | case1 found _ ih => exact (foldl_saturateStep_subset items (found, false)).trans ih
  | case2 found _ => exact foldl_saturateStep_subset items (found, false)

theorem saturate_closed (items : List ι) (found : Finset α) :
    ∀ i ∈ items, enabled i (saturate out enabled items found) = true →
      out i ∈ saturate out enabled items found := by
  fun_induction saturate out enabled items found with
  | case1 found _ ih => exact ih
  | case2 found hstop =>
    rcases @foldl_saturateStep_cases _ _ _ out enabled items (found, false) with
      ⟨hsame, hclosed⟩ | ⟨htrue, -⟩
    · rw [saturatePass, hsame]
      exact hclosed
    · exact absurd htrue hstop

theorem saturate_within {S : Finset α → Prop} (items : List ι)
    (hstep : ∀ i ∈ items, ∀ found, S found → enabled i found = true → S (insert (out i) found))
    {found : Finset α} (h : S found) : S (saturate out enabled items found) := by
  fun_induction saturate out enabled items found with
  | case1 found _ ih => exact ih (foldl_saturateStep_within items hstep h)
  | case2 found _ => exact foldl_saturateStep_within items hstep h

/-! ### Rules that each need one of their parents -/

variable {parents : ι → List α}

/-- Some rule adds `b` as soon as `a` is found. -/
def Adds (out : ι → α) (parents : ι → List α) (items : List ι) (a b : α) : Prop :=
  ∃ i ∈ items, out i = b ∧ a ∈ parents i

theorem mem_saturate_iff (henabled : ∀ i X, enabled i X = true ↔ ∃ a ∈ parents i, a ∈ X)
    {items : List ι} {found : Finset α} {x : α} :
    x ∈ saturate out enabled items found ↔
      ∃ a ∈ found, ReflTransGen (Adds out parents items) a x := by
  constructor
  · revert x
    refine saturate_within (S := fun X => ∀ {x}, x ∈ X → ∃ a ∈ found,
      ReflTransGen (Adds out parents items) a x) items (fun i hi X hX hen x hx => ?_)
      fun {x} hx => ⟨x, hx, .refl⟩
    rcases Finset.mem_insert.mp hx with rfl | hx
    · obtain ⟨p, hp, hpX⟩ := (henabled i X).mp hen
      obtain ⟨a, ha, hap⟩ := hX hpX
      exact ⟨a, ha, hap.tail ⟨i, hi, rfl, hp⟩⟩
    · exact hX hx
  · rintro ⟨a, ha, hax⟩
    induction hax with
    | refl => exact subset_saturate items found ha
    | tail _ hstep ih =>
      obtain ⟨i, hi, rfl, hp⟩ := hstep
      exact saturate_closed items found i hi ((henabled i _).mpr ⟨_, hp, ih⟩)

theorem saturate_perm (henabled : ∀ i X, enabled i X = true ↔ ∃ a ∈ parents i, a ∈ X)
    {items items' : List ι} (h : items.Perm items') (found : Finset α) :
    saturate out enabled items found = saturate out enabled items' found := by
  have hadds : Adds out parents items = Adds out parents items' := by
    funext a b
    simp only [Adds, h.mem_iff]
  ext x
  rw [mem_saturate_iff henabled, mem_saturate_iff henabled, hadds]

end Sashiko
