import Mathlib.Tactic.Common

/-! Programs over a state that may fail, and then leave the state as it was at the failure. -/

namespace Sashiko

variable {ε σ α β ι : Type}

/-- The state that is left, whether the program succeeded or not. -/
def endState : EStateM.Result ε σ α → σ
  | .ok _ s => s
  | .error _ s => s

/-! ### Programs that succeed -/

theorem attempt_bind_ok {x : EStateM ε σ α} {f : α → EStateM ε σ β} {s s' : σ} {b : β}
    (h : (x >>= f).run s = .ok b s') : ∃ a s₁, x.run s = .ok a s₁ ∧ (f a).run s₁ = .ok b s' := by
  rw [EStateM.run_bind] at h
  cases hx : x.run s with
  | ok a s₁ => exact ⟨a, s₁, rfl, by rwa [hx] at h⟩
  | error e s₁ =>
    rw [hx] at h
    cases h

theorem attempt_pure_ok {s s' : σ} {a b : α}
    (h : (pure a : EStateM ε σ α).run s = .ok b s') : a = b ∧ s = s' := by
  cases h
  exact ⟨rfl, rfl⟩

theorem attempt_modify_ok {f : σ → σ} {s s' : σ} {u : PUnit}
    (h : (modify f : EStateM ε σ PUnit).run s = .ok u s') : f s = s' := by
  cases h
  rfl

/-- A loop that succeeds keeps an invariant that each of its steps keeps. What a step
establishes for its item still holds at the end if no step takes it back. -/
theorem forM_ok {I : σ → Prop} {R : σ → σ → Prop} {Q : ι → σ → Prop} {f : ι → EStateM ε σ PUnit}
    {xs : List ι} (hrefl : ∀ s, R s s) (htrans : ∀ s₁ s₂ s₃, R s₁ s₂ → R s₂ s₃ → R s₁ s₃)
    (hstable : ∀ x s s', Q x s → R s s' → Q x s')
    (hstep : ∀ x ∈ xs, ∀ s s', I s → (f x).run s = .ok ⟨⟩ s' → I s' ∧ R s s' ∧ Q x s') :
    ∀ {s s' : σ}, I s → (forM xs f).run s = .ok ⟨⟩ s' → I s' ∧ R s s' ∧ ∀ x ∈ xs, Q x s' := by
  induction xs with
  | nil =>
    intro s s' hI h
    cases h
    exact ⟨hI, hrefl _, fun x hx => absurd hx List.not_mem_nil⟩
  | cons x xs ih =>
    intro s s' hI h
    rw [List.forM_cons] at h
    obtain ⟨⟨⟩, s₁, hx, hxs⟩ := attempt_bind_ok h
    obtain ⟨hI₁, hR₁, hQ₁⟩ := hstep x List.mem_cons_self s s₁ hI hx
    obtain ⟨hI', hR', hQ'⟩ := ih (fun y hy => hstep y (List.mem_cons_of_mem _ hy)) hI₁ hxs
    refine ⟨hI', htrans _ _ _ hR₁ hR', fun y hy => ?_⟩
    rcases List.mem_cons.mp hy with rfl | hy
    · exact hstable y s₁ s' hQ₁ hR'
    · exact hQ' y hy

/-! ### What a program does to the state, also when it fails -/

/-- Every end of the program, success or failure, is related to its start. -/
def Tends (R : σ → σ → Prop) (x : EStateM ε σ α) : Prop := ∀ s, R s (endState (x.run s))

section Tends

variable {R : σ → σ → Prop}

theorem tends_pure (hrefl : ∀ s, R s s) (a : α) : Tends R (pure a : EStateM ε σ α) := hrefl

theorem tends_throw (hrefl : ∀ s, R s s) (e : ε) : Tends R (throw e : EStateM ε σ α) := hrefl

theorem tends_get (hrefl : ∀ s, R s s) : Tends R (get : EStateM ε σ σ) := hrefl

theorem tends_modify {f : σ → σ} (h : ∀ s, R s (f s)) : Tends R (modify f : EStateM ε σ PUnit) := h

theorem Tends.bind {x : EStateM ε σ α} {f : α → EStateM ε σ β}
    (htrans : ∀ s₁ s₂ s₃, R s₁ s₂ → R s₂ s₃ → R s₁ s₃) (hx : Tends R x) (hf : ∀ a, Tends R (f a)) :
    Tends R (x >>= f) := by
  intro s
  have hs := hx s
  rw [EStateM.run_bind]
  cases h : x.run s with
  | ok a s₁ =>
    rw [h] at hs
    exact htrans _ _ _ hs (hf a s₁)
  | error e s₁ =>
    rw [h] at hs
    exact hs

theorem tends_forM (hrefl : ∀ s, R s s) (htrans : ∀ s₁ s₂ s₃, R s₁ s₂ → R s₂ s₃ → R s₁ s₃)
    {f : ι → EStateM ε σ PUnit} {xs : List ι} (h : ∀ x ∈ xs, Tends R (f x)) :
    Tends R (forM xs f) := by
  induction xs with
  | nil => exact hrefl
  | cons x xs ih =>
    rw [List.forM_cons]
    exact (h x List.mem_cons_self).bind htrans fun _ =>
      ih fun y hy => h y (List.mem_cons_of_mem _ hy)

end Tends

end Sashiko
