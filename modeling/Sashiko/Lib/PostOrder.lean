import Mathlib.Data.List.Basic
import Mathlib.Logic.Relation

/-! Lists in which every key stands after the keys that it depends on. -/

namespace Sashiko

variable {κ : Type} {deps : κ → κ → Prop} {done : List κ} {k d : κ}

/-- What a key depends on stands before it. -/
def PostOrdered (deps : κ → κ → Prop) (done : List κ) : Prop :=
  ∀ front k back, done = front ++ k :: back → ∀ d, deps k d → d ∈ front

theorem postOrdered_nil : PostOrdered deps [] := fun front k back h => by simp at h

theorem PostOrdered.concat (h : PostOrdered deps done) (hk : ∀ d, deps k d → d ∈ done) :
    PostOrdered deps (done ++ [k]) := by
  intro front j back heq d hd
  rcases back.eq_nil_or_concat' with rfl | ⟨back, last, rfl⟩
  · obtain ⟨rfl, hlast⟩ := List.append_inj' heq rfl
    obtain rfl := List.singleton_inj.mp hlast
    exact hk d hd
  · have heq' : done ++ [k] = (front ++ j :: back) ++ [last] := by
      rw [heq, List.append_assoc, List.cons_append]
    exact h front j back (List.append_inj' heq' rfl).1 d hd

theorem PostOrdered.mono {deps' : κ → κ → Prop} (h : PostOrdered deps done)
    (hdeps : ∀ k ∈ done, ∀ d, deps' k d → deps k d) : PostOrdered deps' done :=
  fun front k back heq d hd =>
    h front k back heq d (hdeps k (heq ▸ List.mem_append_right _ List.mem_cons_self) d hd)

theorem PostOrdered.mem (h : PostOrdered deps done) (hk : k ∈ done) (hd : deps k d) : d ∈ done := by
  obtain ⟨front, back, rfl⟩ := List.append_of_mem hk
  exact List.mem_append_left _ (h front k back rfl d hd)

/-- A key comes first after everything that it depends on, over any number of steps. -/
theorem PostOrdered.mem_of_transGen (h : PostOrdered deps done) (hd : Relation.TransGen deps k d) :
    ∀ {front back : List κ}, done = front ++ k :: back → d ∈ front := by
  induction hd using Relation.TransGen.head_induction_on with
  | single hkd => exact fun heq => h _ _ _ heq _ hkd
  | @head i j hij _ ih =>
    intro front back heq
    obtain ⟨before, after, rfl⟩ := List.append_of_mem (h _ _ _ heq _ hij)
    have hsplit : done = before ++ j :: (after ++ i :: back) := by
      rw [heq, List.append_assoc, List.cons_append]
    exact List.mem_append_left _ (ih hsplit)

/-- Nothing depends on itself, however many steps away. -/
theorem PostOrdered.not_transGen_self (h : PostOrdered deps done) (hk : k ∈ done) :
    ¬Relation.TransGen deps k k := by
  intro hcycle
  -- The first occurrence of the key has no other before it.
  obtain ⟨front, back, heq, hfirst⟩ := List.eq_append_cons_of_mem hk
  exact hfirst (h.mem_of_transGen hcycle heq)

end Sashiko
