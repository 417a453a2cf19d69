import Mathlib.Tactic.Common

/-! Fallible steps: a sequence or a loop of steps that succeeds came from steps that did. -/

namespace Sashiko

variable {ε α β : Type}

theorem bind_ok {x : Except ε α} {f : α → Except ε β} {b : β} (h : x >>= f = .ok b) :
    ∃ a, x = .ok a ∧ f a = .ok b := by
  rcases x with e | a
  · cases h
  · exact ⟨a, rfl, h⟩

theorem map_ok {x : Except ε α} {f : α → β} {b : β} (h : x.map f = .ok b) :
    ∃ a, x = .ok a ∧ f a = b := by
  rcases x with e | a
  · cases h
  · cases h
    exact ⟨a, rfl, rfl⟩

/-- A loop over the items with their indices that stops at the first error. -/
def foldIdx {ι : Type} (f : ℕ → β → ι → Except ε β) : ℕ → β → List ι → Except ε β
  | _, b, [] => .ok b
  | i, b, x :: xs => f i b x >>= fun b => foldIdx f (i + 1) b xs

theorem foldIdx_invariant {ι : Type} {f : ℕ → β → ι → Except ε β} {P : β → Prop}
    {xs : List ι} (hstep : ∀ i b x b', x ∈ xs → P b → f i b x = .ok b' → P b') :
    ∀ {i : ℕ} {b b' : β}, P b → foldIdx f i b xs = .ok b' → P b' := by
  induction xs with
  | nil =>
    intro i b b' hb h
    cases h
    exact hb
  | cons x xs ih =>
    intro i b b' hb h
    obtain ⟨b₁, hx, hxs⟩ := bind_ok h
    exact ih (fun i b y b' hy => hstep i b y b' (List.mem_cons_of_mem _ hy))
      (hstep i b x b₁ List.mem_cons_self hb hx) hxs

/-- No item of a loop that succeeds was refused. -/
theorem foldIdx_step {ι : Type} {f : ℕ → β → ι → Except ε β} {xs : List ι} :
    ∀ {i : ℕ} {b b' : β}, foldIdx f i b xs = .ok b' →
      ∀ x ∈ xs, ∃ j c c', f j c x = .ok c' := by
  induction xs with
  | nil => exact fun _ x hx => absurd hx List.not_mem_nil
  | cons y ys ih =>
    intro i b b' h x hx
    obtain ⟨b₁, hy, hys⟩ := bind_ok h
    rcases List.mem_cons.mp hx with rfl | hx
    · exact ⟨i, b, b₁, hy⟩
    · exact ih hys x hx

theorem foldlM_invariant {ι : Type} {I : β → Prop} {f : β → ι → Except ε β} {xs : List ι}
    (hstep : ∀ b x b', I b → f b x = .ok b' → I b') :
    ∀ {b b' : β}, I b → xs.foldlM f b = .ok b' → I b' := by
  induction xs with
  | nil =>
    intro b b' hb h
    cases h
    exact hb
  | cons x xs ih =>
    intro b b' hb h
    rw [List.foldlM_cons] at h
    obtain ⟨b₁, hx, hxs⟩ := bind_ok h
    exact ih (hstep b x b₁ hb hx) hxs

/-! ### Steps that cannot fail -/

/-- The step succeeds, with a result that satisfies `P`. -/
def Yields (x : Except ε α) (P : α → Prop) : Prop := ∃ a, x = .ok a ∧ P a

theorem yields_ok {P : α → Prop} {a : α} (h : P a) : Yields (.ok a : Except ε α) P := ⟨a, rfl, h⟩

theorem Yields.bind {P : α → Prop} {Q : β → Prop} {x : Except ε α} {f : α → Except ε β}
    (h : Yields x P) (hf : ∀ a, P a → Yields (f a) Q) : Yields (x >>= f) Q := by
  obtain ⟨a, rfl, ha⟩ := h
  exact hf a ha

theorem Yields.map {P : α → Prop} {Q : β → Prop} {x : Except ε α} {f : α → β}
    (h : Yields x P) (hf : ∀ a, P a → Q (f a)) : Yields (x.map f) Q := by
  obtain ⟨a, rfl, ha⟩ := h
  exact ⟨f a, rfl, hf a ha⟩

theorem Yields.mono {P Q : α → Prop} {x : Except ε α} (h : Yields x P) (hPQ : ∀ a, P a → Q a) :
    Yields x Q := by
  obtain ⟨a, rfl, ha⟩ := h
  exact ⟨a, rfl, hPQ a ha⟩

theorem Yields.of_ok {P : α → Prop} {x : Except ε α} {a : α} (h : Yields x P) (hx : x = .ok a) :
    P a := by
  obtain ⟨b, hb, hP⟩ := h
  rw [hx] at hb
  cases hb
  exact hP

end Sashiko
