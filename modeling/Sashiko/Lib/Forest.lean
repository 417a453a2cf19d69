import Mathlib.Order.WellFoundedSet
import Mathlib.Logic.Function.Basic
import Mathlib.Tactic.Common

/-! Parent pointers: chains, cycles and roots, and what it does to them to add a node or to hang
one under a root. -/

namespace Sashiko

open Relation

variable {α : Type*}

def ParentOf (parent : α → Option α) (a b : α) : Prop := parent a = some b

/-- `b` is `a` or one of its ancestors. -/
def Below (parent : α → Option α) (a b : α) : Prop := ReflTransGen (ParentOf parent) a b

def Acyclic (parent : α → Option α) : Prop := ∀ a, ¬TransGen (ParentOf parent) a a

/-- Some node lies above both. -/
def SameTree (parent : α → Option α) (a b : α) : Prop := ∃ r, Below parent a r ∧ Below parent b r

variable {parent : α → Option α} {a b c r x y : α}

theorem parentOf_rightUnique (parent : α → Option α) : Relator.RightUnique (ParentOf parent) :=
  fun _ _ _ hb hc => Option.some_injective _ (hb.symm.trans hc)

theorem Below.refl (a : α) : Below parent a a := ReflTransGen.refl

theorem Below.eq_of_root (hroot : parent r = none) (h : Below parent r x) : x = r := by
  rcases ReflTransGen.cases_head h with rfl | ⟨y, hy, _⟩
  · rfl
  · rw [ParentOf, hroot] at hy
    cases hy

/-- Above one node, everything is above or below a given ancestor. -/
theorem Below.to_root (ha : Below parent a x) (hr : Below parent a r) (hroot : parent r = none) :
    Below parent x r := by
  rcases ReflTransGen.total_of_right_unique (parentOf_rightUnique parent) ha hr with h | h
  · exact h
  · rw [Below.eq_of_root hroot h]
    exact Below.refl r

theorem root_unique (h : Below parent a r) (hroot : parent r = none) (h' : Below parent a x)
    (hroot' : parent x = none) : x = r :=
  Below.eq_of_root hroot (h.to_root h' hroot')

theorem SameTree.to_root (h : SameTree parent a b) (hr : Below parent a r)
    (hroot : parent r = none) : Below parent b r := by
  obtain ⟨x, hax, hbx⟩ := h
  exact ReflTransGen.trans hbx (hax.to_root hr hroot)

/-- With finitely many nodes and no cycle, every node has a root above it. -/
theorem exists_root (hacyclic : Acyclic parent) (hfinite : {a | parent a ≠ none}.Finite) (a : α) :
    ∃ r, Below parent a r ∧ parent r = none := by
  have : IsStrictOrder α fun x y => TransGen (ParentOf parent) y x :=
    { irrefl := hacyclic, trans := fun _ _ _ hxy hyz => TransGen.trans hyz hxy }
  by_cases ha : parent a = none
  · exact ⟨a, Below.refl a, ha⟩
  · have hwf := hfinite.wellFoundedOn (r := fun x y => TransGen (ParentOf parent) y x)
    refine hwf.induction (P := fun a => ∃ r, Below parent a r ∧ parent r = none) ha ?_
    intro x hx ih
    obtain ⟨y, hy⟩ := Option.ne_none_iff_exists'.mp hx
    by_cases hroot : parent y = none
    · exact ⟨y, ReflTransGen.single hy, hroot⟩
    · obtain ⟨r, hyr, hr⟩ := ih y hroot (TransGen.single hy)
      exact ⟨r, ReflTransGen.head hy hyr, hr⟩

/-! ### Pointing a node elsewhere -/

section Update

variable [DecidableEq α] {e : α} {p : Option α}

theorem parentOf_update_cases (h : ParentOf (Function.update parent e p) x y) :
    (x = e ∧ p = some y) ∨ ParentOf parent x y := by
  unfold ParentOf at h
  by_cases hx : x = e
  · subst hx
    rw [Function.update_self] at h
    exact .inl ⟨rfl, h⟩
  · rw [Function.update_of_ne hx] at h
    exact .inr h

theorem parentOf_update (hx : x ≠ e) (h : ParentOf parent x y) :
    ParentOf (Function.update parent e p) x y := by
  unfold ParentOf
  rw [Function.update_of_ne hx]
  exact h

/-- A chain that does not leave `e` is as it was. -/
theorem Below.update (h : Below parent a r)
    (hfree : Below parent a e → Below parent e r → e = r) :
    Below (Function.update parent e p) a r := by
  induction h using ReflTransGen.head_induction_on with
  | refl => exact Below.refl r
  | @head x y hxy hyr ih =>
    by_cases hxe : x = e
    · subst hxe
      rw [hfree (Below.refl x) (.head hxy hyr)]
      exact Below.refl r
    · exact .head (parentOf_update hxe hxy) (ih fun hye => hfree (.head hxy hye))

/-- A new node that nothing points at closes no cycle. -/
theorem acyclic_add (hacyclic : Acyclic parent) (hfree : ∀ x, parent x ≠ some e)
    (hp : p ≠ some e) : Acyclic (Function.update parent e p) := by
  have he : ∀ {x}, ¬ParentOf (Function.update parent e p) x e := by
    intro x hx
    rcases parentOf_update_cases hx with ⟨_, h⟩ | h
    · exact hp h
    · exact hfree x h
  have hchain : ∀ {x y}, TransGen (ParentOf (Function.update parent e p)) x y →
      x = e ∨ TransGen (ParentOf parent) x y := by
    intro x y hxy
    induction hxy using TransGen.head_induction_on with
    | single h =>
      rcases parentOf_update_cases h with ⟨rfl, _⟩ | h
      · exact .inl rfl
      · exact .inr (.single h)
    | head h _ ih =>
      rcases ih with rfl | hold
      · exact absurd h he
      · rcases parentOf_update_cases h with ⟨rfl, _⟩ | h
        · exact .inl rfl
        · exact .inr (.head h hold)
  intro a ha
  rcases hchain ha with rfl | hold
  · obtain ⟨z, _, hz⟩ := TransGen.tail'_iff.mp ha
    exact he hz
  · exact hacyclic a hold

/-- Hanging a node under a root, other than itself, closes no cycle. -/
theorem acyclic_hang (hacyclic : Acyclic parent) (hroot : parent c = none) (hne : e ≠ c) :
    Acyclic (Function.update parent e (some c)) := by
  have hc : ∀ {z}, ¬ParentOf (Function.update parent e (some c)) c z := by
    intro z hz
    rw [ParentOf, Function.update_of_ne (Ne.symm hne), hroot] at hz
    cases hz
  have hchain : ∀ {x y}, TransGen (ParentOf (Function.update parent e (some c))) x y →
      y = c ∨ TransGen (ParentOf parent) x y := by
    intro x y hxy
    induction hxy with
    | single h =>
      rcases parentOf_update_cases h with ⟨_, h⟩ | h
      · exact .inl (Option.some_injective _ h).symm
      · exact .inr (.single h)
    | tail _ h ih =>
      rcases ih with rfl | hold
      · exact absurd h hc
      · rcases parentOf_update_cases h with ⟨_, h⟩ | h
        · exact .inl (Option.some_injective _ h).symm
        · exact .inr (.tail hold h)
  intro a ha
  rcases hchain ha with rfl | hold
  · obtain ⟨z, hz, _⟩ := TransGen.head'_iff.mp ha
    exact hc hz
  · exact hacyclic a hold

theorem below_hang (ha : Below parent a e) : Below (Function.update parent e (some c)) a c := by
  have hstep : ParentOf (Function.update parent e (some c)) e c := by
    unfold ParentOf
    rw [Function.update_self]
  exact ReflTransGen.tail (ha.update fun _ _ => rfl) hstep

end Update

end Sashiko
