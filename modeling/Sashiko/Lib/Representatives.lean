import Mathlib.Data.List.Induction
import Mathlib.Tactic.Common

/-! Keeping one representative for what is the same, the best one seen so far: a newcomer takes the
place of the first representative that it is the same as, if it ranks higher, and is added where
there is none. What is the same need not be transitive, so a newcomer may be the same as a second
representative, or not the same as what the old one stood for. -/

namespace Sashiko

variable {α : Type*} {same : α → α → Bool} {rank : α → ℕ} {seen accepted xs : List α} {x : α}

def enroll (same : α → α → Bool) (rank : α → ℕ) (x : α) : List α → List α
  | [] => [x]
  | a :: rest =>
    if same a x then if rank a < rank x then x :: rest else a :: rest
    else a :: enroll same rank x rest

def representatives (same : α → α → Bool) (rank : α → ℕ) (xs : List α) : List α :=
  xs.foldl (fun accepted x => enroll same rank x accepted) []

/-- The representative stands for `x`. -/
def StandsFor (same : α → α → Bool) (rank : α → ℕ) (a x : α) : Prop :=
  a = x ∨ (same a x = true ∧ rank x ≤ rank a)

/-- No two of the accepted are the same, and each one seen is represented. -/
structure Represents (same : α → α → Bool) (rank : α → ℕ) (seen accepted : List α) : Prop where
  distinct : accepted.Pairwise fun a b => same a b = false
  covered : ∀ x ∈ seen, ∃ a ∈ accepted, StandsFor same rank a x

/-- A newcomer that takes a place is the same as no other representative, and as all that the old
one alone stood for. -/
def PlacesWell (same : α → α → Bool) (rank : α → ℕ) (seen accepted : List α) (x : α) : Prop :=
  ∀ before a after, accepted = before ++ a :: after → (∀ b ∈ before, same b x = false) →
    same a x = true → rank a < rank x →
      (∀ b ∈ after, same x b = false) ∧
      ∀ y ∈ seen, (∃ b ∈ before ++ after, StandsFor same rank b y) ∨ x = y ∨ same x y = true

/-! ### One step -/

theorem enroll_eq_append (h : ∀ a ∈ accepted, same a x = false) :
    enroll same rank x accepted = accepted ++ [x] := by
  induction accepted with
  | nil => rfl
  | cons a rest ih =>
    rw [enroll, h a List.mem_cons_self, if_neg Bool.false_ne_true,
      ih fun b hb => h b (List.mem_cons_of_mem _ hb), List.cons_append]

theorem enroll_append {before after : List α} {a : α} (h : ∀ b ∈ before, same b x = false)
    (ha : same a x = true) :
    enroll same rank x (before ++ a :: after) =
      before ++ (if rank a < rank x then x else a) :: after := by
  induction before with
  | nil =>
    rw [List.nil_append, enroll, if_pos ha, List.nil_append]
    split <;> rfl
  | cons b before ih =>
    rw [List.cons_append, enroll, h b List.mem_cons_self, if_neg Bool.false_ne_true,
      ih fun c hc => h c (List.mem_cons_of_mem _ hc), List.cons_append]

/-- The first of the accepted that the newcomer is the same as, if there is one. -/
theorem exists_first (same : α → α → Bool) (accepted : List α) (x : α) :
    (∀ a ∈ accepted, same a x = false) ∨
      ∃ before a after, accepted = before ++ a :: after ∧
        (∀ b ∈ before, same b x = false) ∧ same a x = true := by
  induction accepted with
  | nil => exact .inl (fun _ => nofun)
  | cons a rest ih =>
    cases ha : same a x with
    | true => exact .inr ⟨[], a, rest, rfl, fun _ => nofun, ha⟩
    | false =>
      rcases ih with hnone | ⟨before, b, after, rfl, hbefore, hb⟩
      · exact .inl (List.forall_mem_cons.mpr ⟨ha, hnone⟩)
      · exact .inr ⟨a :: before, b, after, rfl, List.forall_mem_cons.mpr ⟨ha, hbefore⟩, hb⟩

theorem eq_of_first {before after before' after' : List α} {a a' : α}
    (heq : before ++ a :: after = before' ++ a' :: after')
    (hbefore : ∀ b ∈ before, same b x = false) (ha : same a x = true)
    (hbefore' : ∀ b ∈ before', same b x = false) (ha' : same a' x = true) :
    before = before' ∧ a = a' ∧ after = after' := by
  induction before generalizing before' with
  | nil =>
    cases before' with
    | nil => exact ⟨rfl, List.cons.inj heq⟩
    | cons b before' =>
      rw [(List.cons.inj heq).1, hbefore' b List.mem_cons_self] at ha
      cases ha
  | cons b before ih =>
    cases before' with
    | nil =>
      rw [← (List.cons.inj heq).1, hbefore b List.mem_cons_self] at ha'
      cases ha'
    | cons b' before' =>
      obtain ⟨rfl, hrest⟩ := List.cons.inj heq
      obtain ⟨rfl, hsame⟩ := ih hrest (fun c hc => hbefore c (List.mem_cons_of_mem _ hc))
        fun c hc => hbefore' c (List.mem_cons_of_mem _ hc)
      exact ⟨rfl, hsame⟩

theorem mem_enroll {y : α} (h : y ∈ enroll same rank x accepted) : y ∈ accepted ∨ y = x := by
  rcases exists_first same accepted x with hnone | ⟨before, a, after, rfl, hbefore, ha⟩
  · rw [enroll_eq_append hnone, List.mem_append, List.mem_singleton] at h
    exact h
  · rw [enroll_append hbefore ha] at h
    split at h <;> simp only [List.mem_append, List.mem_cons] at h ⊢ <;> tauto

/-- What is accepted was among what came. -/
theorem mem_representatives (h : x ∈ representatives same rank xs) : x ∈ xs := by
  induction xs using List.reverseRecOn with
  | nil => cases h
  | append_singleton xs y ih =>
    rw [representatives, List.foldl_append, List.foldl_cons, List.foldl_nil] at h
    rcases mem_enroll h with hmem | rfl
    · exact List.mem_append_left _ (ih hmem)
    · simp

theorem represents_nil : Represents same rank [] [] := ⟨.nil, fun _ => nofun⟩

/-- A newcomer that opens a place of its own. -/
theorem Represents.append (h : Represents same rank seen accepted)
    (hnone : ∀ a ∈ accepted, same a x = false) :
    Represents same rank (seen ++ [x]) (accepted ++ [x]) := by
  constructor
  · rw [List.pairwise_append]
    refine ⟨h.distinct, List.pairwise_singleton _ _, fun a ha b hb => ?_⟩
    rw [List.mem_singleton.mp hb]
    exact hnone a ha
  · intro y hy
    rcases List.mem_append.mp hy with hy | hy
    · obtain ⟨a, ha, hstands⟩ := h.covered y hy
      exact ⟨a, List.mem_append_left _ ha, hstands⟩
    · exact ⟨x, by simp, .inl (List.mem_singleton.mp hy).symm⟩

/-- A newcomer that is left out. -/
theorem Represents.skip (h : Represents same rank seen accepted) {a : α} (ha : a ∈ accepted)
    (hsame : same a x = true) (hrank : rank x ≤ rank a) :
    Represents same rank (seen ++ [x]) accepted := by
  refine ⟨h.distinct, fun y hy => ?_⟩
  rcases List.mem_append.mp hy with hy | hy
  · exact h.covered y hy
  · rw [List.mem_singleton.mp hy]
    exact ⟨a, ha, .inr ⟨hsame, hrank⟩⟩

/-- A newcomer that takes a place. -/
theorem represents_replace_iff {before after : List α} {a : α}
    (h : Represents same rank seen (before ++ a :: after))
    (hbefore : ∀ b ∈ before, same b x = false) (hsame : same a x = true)
    (hrank : rank a < rank x) :
    Represents same rank (seen ++ [x]) (before ++ x :: after) ↔
      (∀ b ∈ after, same x b = false) ∧
        ∀ y ∈ seen, (∃ b ∈ before ++ after, StandsFor same rank b y) ∨ x = y ∨ same x y = true := by
  obtain ⟨hpair, hpair', hcross⟩ := List.pairwise_append.mp h.distinct
  constructor
  · intro hnew
    obtain ⟨-, hnew', -⟩ := List.pairwise_append.mp hnew.distinct
    refine ⟨(List.pairwise_cons.mp hnew').1, fun y hy => ?_⟩
    obtain ⟨b, hb, hstands⟩ := hnew.covered y (List.mem_append_left _ hy)
    rw [List.mem_append, List.mem_cons] at hb
    rcases hb with hb | rfl | hb
    · exact .inl ⟨b, List.mem_append_left _ hb, hstands⟩
    · exact .inr (hstands.imp_right And.left)
    · exact .inl ⟨b, List.mem_append_right _ hb, hstands⟩
  · rintro ⟨hafter, hseen⟩
    constructor
    · rw [List.pairwise_append, List.pairwise_cons]
      refine ⟨hpair, ⟨hafter, (List.pairwise_cons.mp hpair').2⟩, fun b hb c hc => ?_⟩
      rcases List.mem_cons.mp hc with rfl | hc
      · exact hbefore b hb
      · exact hcross b hb c (List.mem_cons_of_mem _ hc)
    · intro y hy
      rcases List.mem_append.mp hy with hy | hy
      · rcases hseen y hy with ⟨b, hb, hstands⟩ | hx
        · refine ⟨b, ?_, hstands⟩
          rw [List.mem_append] at hb
          rw [List.mem_append, List.mem_cons]
          exact hb.imp_right .inr
        · -- the newcomer ranks above what the old one stood for
          obtain ⟨b, hb, hstands⟩ := h.covered y hy
          rw [List.mem_append, List.mem_cons] at hb
          rcases hb with hb | rfl | hb
          · exact ⟨b, List.mem_append_left _ hb, hstands⟩
          · refine ⟨x, by simp, hx.imp_right fun hxy => ⟨hxy, ?_⟩⟩
            rcases hstands with rfl | ⟨-, hle⟩
            · omega
            · omega
          · exact ⟨b, by simp [hb], hstands⟩
      · exact ⟨x, by simp, .inl (List.mem_singleton.mp hy).symm⟩

/-- One step keeps what is asked if and only if the newcomer is placed well. -/
theorem represents_enroll_iff (h : Represents same rank seen accepted) :
    Represents same rank (seen ++ [x]) (enroll same rank x accepted) ↔
      PlacesWell same rank seen accepted x := by
  rcases exists_first same accepted x with hnone | ⟨before, a, after, rfl, hbefore, hsame⟩
  · rw [enroll_eq_append hnone]
    refine iff_of_true (h.append hnone) fun before a after heq _ hsame _ => ?_
    rw [hnone a (by simp [heq])] at hsame
    cases hsame
  · rw [enroll_append hbefore hsame]
    by_cases hrank : rank a < rank x
    · rw [if_pos hrank, represents_replace_iff h hbefore hsame hrank]
      constructor
      · intro hwell before' a' after' heq hbefore' hsame' _
        obtain ⟨rfl, rfl, rfl⟩ := eq_of_first heq hbefore hsame hbefore' hsame'
        exact hwell
      · exact fun hwell => hwell before a after rfl hbefore hsame hrank
    · rw [if_neg hrank]
      refine iff_of_true (h.skip (by simp) hsame (Nat.le_of_not_lt hrank)) ?_
      intro before' a' after' heq hbefore' hsame' hrank'
      obtain ⟨rfl, rfl, rfl⟩ := eq_of_first heq hbefore hsame hbefore' hsame'
      exact absurd hrank' hrank

/-! ### Runs -/

/-- What is asked holds after every step of a run if and only if every newcomer is placed well. -/
theorem represents_run_iff (xs : List α) :
    (∀ seen, seen <+: xs → Represents same rank seen (representatives same rank seen)) ↔
      ∀ seen x, seen ++ [x] <+: xs →
        PlacesWell same rank seen (representatives same rank seen) x := by
  have hstep : ∀ seen x, representatives same rank (seen ++ [x]) =
      enroll same rank x (representatives same rank seen) := fun seen x => by
    rw [representatives, List.foldl_append]
    rfl
  constructor
  · intro h seen x hpre
    have hseen := h seen ((List.prefix_append seen [x]).trans hpre)
    exact (represents_enroll_iff hseen).mp (hstep seen x ▸ h _ hpre)
  · intro h seen hpre
    induction seen using List.reverseRecOn with
    | nil => exact represents_nil
    | append_singleton seen x ih =>
      rw [hstep]
      have hseen := ih ((List.prefix_append seen [x]).trans hpre)
      exact (represents_enroll_iff hseen).mpr (h seen x hpre)

end Sashiko
