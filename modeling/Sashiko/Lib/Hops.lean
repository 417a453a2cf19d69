import Mathlib.Tactic.Common

/-! A partial map followed for a bounded number of hops, and where such a walk stops. -/

namespace Sashiko

variable {α : Type*} {next : α → Option α} {a b c : α} {k n : ℕ}

def hops (next : α → Option α) : ℕ → α → α
  | 0, a => a
  | n + 1, a =>
    match next a with
    | some b => hops next n b
    | none => a

/-- So many hops lead from `a` to `b`. -/
inductive Leads (next : α → Option α) : ℕ → α → α → Prop
  | refl (a : α) : Leads next 0 a a
  | step {n : ℕ} {a b c : α} : next a = some b → Leads next n b c → Leads next (n + 1) a c

/-- At most `n` hops lead to where the map has nothing. -/
def EndsWithin (next : α → Option α) (n : ℕ) (a : α) : Prop :=
  ∃ k ≤ n, ∃ b, Leads next k a b ∧ next b = none

theorem Leads.hops_eq (h : Leads next n a b) : hops next n a = b := by
  induction h with
  | refl => rfl
  | step hnext _ ih => simp only [hops, hnext, ih]

theorem hops_of_none (h : next a = none) : hops next n a = a := by
  cases n with
  | zero => rfl
  | succ n => simp only [hops, h]

/-- More hops than lead to the end stop there. -/
theorem Leads.hops_eq_of_none (h : Leads next k a b) (hend : next b = none) (hk : k ≤ n) :
    hops next n a = b := by
  induction h generalizing n with
  | refl => exact hops_of_none hend
  | @step k a b c hnext _ ih =>
    obtain ⟨n, rfl⟩ : ∃ m, n = m + 1 := ⟨n - 1, by omega⟩
    simp only [hops, hnext]
    exact ih hend (by omega)

/-- One hop more. -/
theorem Leads.hops_succ (h : Leads next n a b) : hops next (n + 1) a = (next b).getD b := by
  induction h with
  | refl a => cases hnext : next a <;> simp only [hops, hnext, Option.getD]
  | step hnext _ ih =>
    rw [hops, hnext]
    exact ih

theorem EndsWithin.step (hnext : next a = some b) (h : EndsWithin next n b) :
    EndsWithin next (n + 1) a := by
  obtain ⟨k, hk, c, hleads, hend⟩ := h
  exact ⟨k + 1, by omega, c, .step hnext hleads, hend⟩

theorem leads_or_endsWithin (next : α → Option α) (n : ℕ) (a : α) :
    (∃ b, Leads next n a b) ∨ EndsWithin next n a := by
  induction n generalizing a with
  | zero => exact .inl ⟨a, .refl a⟩
  | succ n ih =>
    cases hnext : next a with
    | none => exact .inr ⟨0, Nat.zero_le _, a, .refl a, hnext⟩
    | some b =>
      rcases ih b with ⟨c, hleads⟩ | hends
      · exact .inl ⟨c, .step hnext hleads⟩
      · exact .inr (hends.step hnext)

/-- What holds of the start and of all that the map gives holds where a walk stops. -/
theorem hops_mem {P : α → Prop} (hnext : ∀ a b, next a = some b → P b) (h : P a) :
    P (hops next n a) := by
  induction n generalizing a with
  | zero => exact h
  | succ n ih =>
    cases hb : next a with
    | none =>
      rw [hops_of_none hb]
      exact h
    | some b =>
      simp only [hops, hb]
      exact ih (hnext a b hb)

/-- A second walk stays where the first one stopped if and only if that is the end, or the walk
goes round from there. -/
theorem hops_hops_iff :
    hops next n (hops next n a) = hops next n a ↔
      EndsWithin next n a ∨ ∃ b, Leads next n a b ∧ Leads next n b b := by
  constructor
  · intro h
    rcases leads_or_endsWithin next n a with ⟨b, hleads⟩ | hends
    · rw [hleads.hops_eq] at h
      rcases leads_or_endsWithin next n b with ⟨c, hround⟩ | ⟨k, hk, c, hround, hend⟩
      · rw [hround.hops_eq] at h
        exact .inr ⟨b, hleads, h ▸ hround⟩
      · rw [hround.hops_eq_of_none hend hk] at h
        exact .inl ⟨n, Nat.le_refl n, b, hleads, h ▸ hend⟩
    · exact .inl hends
  · rintro (⟨k, hk, b, hleads, hend⟩ | ⟨b, hleads, hround⟩)
    · rw [hleads.hops_eq_of_none hend hk, hops_of_none hend]
    · rw [hleads.hops_eq, hround.hops_eq]

/-- What is one hop ahead ends elsewhere, unless the walk ends. -/
theorem hops_eq_hops_iff (hself : ∀ a, next a ≠ some a) (hnext : next a = some b) :
    hops next (n + 1) a = hops next (n + 1) b ↔ EndsWithin next (n + 1) a := by
  have hhop : hops next (n + 1) a = hops next n b := by simp only [hops, hnext]
  rw [hhop]
  constructor
  · intro h
    rcases leads_or_endsWithin next n b with ⟨c, hleads⟩ | hends
    · rw [hleads.hops_eq, hleads.hops_succ] at h
      cases hc : next c with
      | none => exact ⟨n + 1, Nat.le_refl _, c, .step hnext hleads, hc⟩
      | some d =>
        rw [hc, Option.getD_some] at h
        exact absurd (h ▸ hc) (hself c)
    · exact hends.step hnext
  · rintro ⟨k, hk, c, hleads, hend⟩
    cases hleads with
    | refl =>
      rw [hnext] at hend
      cases hend
    | @step k _ b' _ hnext' hleads =>
      obtain rfl := Option.some.inj (hnext.symm.trans hnext')
      rw [hleads.hops_eq_of_none hend (by omega), hleads.hops_eq_of_none hend (by omega)]

end Sashiko
