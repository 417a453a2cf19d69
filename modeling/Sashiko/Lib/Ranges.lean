import Mathlib.Data.List.Induction
import Mathlib.Data.List.Pairwise
import Mathlib.Data.List.Sort
import Mathlib.Logic.Relation
import Mathlib.Tactic.Common

/-! Ranges of numbers, both ends included, put together where no more than a gap is between them. -/

namespace Sashiko

/-- A range lengthens the last one when it starts no further than the gap behind it. -/
def mergeRange (gap : ℕ) (merged : List (ℕ × ℕ)) (r : ℕ × ℕ) : List (ℕ × ℕ) :=
  match merged.getLast? with
  | some (a, b) =>
    if r.1 ≤ b + gap then merged.dropLast ++ [(a, max b r.2)] else merged ++ [r]
  | none => merged ++ [r]

def mergeRanges (gap : ℕ) (ranges : List (ℕ × ℕ)) : List (ℕ × ℕ) :=
  (ranges.mergeSort fun r s => r.1 ≤ s.1).foldl (mergeRange gap) []

/-- No more than the gap is between the two ranges. -/
def Near (gap : ℕ) (r s : ℕ × ℕ) : Prop := s.1 ≤ r.2 + gap ∧ r.1 ≤ s.2 + gap

/-- The range lies between the start of one of the ranges and the end of one that is reached from it
by gaps that are not too wide. -/
def Bridged (gap : ℕ) (ranges : List (ℕ × ℕ)) (run : ℕ × ℕ) : Prop :=
  ∃ r ∈ ranges, ∃ s, Relation.ReflTransGen (fun a b => b ∈ ranges ∧ Near gap a b) r s ∧
    s ∈ ranges ∧ r.1 ≤ run.1 ∧ run.2 ≤ s.2

def Covers (ranges : List (ℕ × ℕ)) (run : ℕ × ℕ) : Prop := ∃ m ∈ ranges, m.1 ≤ run.1 ∧ run.2 ≤ m.2

/-- The ranges put together. -/
structure Merged (gap : ℕ) (ranges merged : List (ℕ × ℕ)) : Prop where
  nonempty : ∀ m ∈ merged, m.1 ≤ m.2
  apart : merged.Pairwise fun m n => m.2 + gap < n.1
  covers : ∀ r ∈ ranges, Covers merged r
  starts : ∀ m ∈ merged, ∃ r ∈ ranges, r.1 = m.1
  bridged : ∀ m ∈ merged, Bridged gap ranges m

variable {gap : ℕ} {ranges merged : List (ℕ × ℕ)}

theorem bridged_of_mem {r run : ℕ × ℕ} (h : r ∈ ranges) (hfirst : r.1 ≤ run.1)
    (hlast : run.2 ≤ r.2) : Bridged gap ranges run :=
  ⟨r, h, r, .refl, h, hfirst, hlast⟩

theorem Bridged.mono {ranges' : List (ℕ × ℕ)} {run : ℕ × ℕ} (h : Bridged gap ranges run)
    (hsub : ranges ⊆ ranges') : Bridged gap ranges' run := by
  obtain ⟨r, hr, s, hchain, hs, hfirst, hlast⟩ := h
  have hlinks : (fun a b => b ∈ ranges ∧ Near gap a b) ≤ fun a b => b ∈ ranges' ∧ Near gap a b :=
    fun a b hab => ⟨hsub hab.1, hab.2⟩
  exact ⟨r, hsub hr, s, Relation.ReflTransGen.mono hlinks _ _ hchain, hsub hs, hfirst, hlast⟩

theorem Bridged.within {run part : ℕ × ℕ} (h : Bridged gap ranges run) (hfirst : run.1 ≤ part.1)
    (hlast : part.2 ≤ run.2) : Bridged gap ranges part := by
  obtain ⟨r, hr, s, hchain, hs, hr1, hs2⟩ := h
  exact ⟨r, hr, s, hchain, hs, hr1.trans hfirst, hlast.trans hs2⟩

/-- One more range is put to the last one. -/
theorem Bridged.extend {a b : ℕ} {r : ℕ × ℕ} (h : Bridged gap ranges (a, b))
    (hbelow : ∀ s ∈ ranges, s.1 ≤ r.1) (hnear : r.1 ≤ b + gap) :
    Bridged gap (ranges ++ [r]) (a, max b r.2) := by
  obtain ⟨first, hfirst, s, hchain, hs, ha, hb⟩ := h.mono (List.subset_append_left ranges [r])
  have hmem : r ∈ ranges ++ [r] := by simp
  rcases le_total r.2 b with hle | hle
  · exact ⟨first, hfirst, s, hchain, hs, ha, by rwa [max_eq_left hle]⟩
  · have hbefore : s.1 ≤ r.1 := by
      rcases List.mem_append.mp hs with hs | hs
      · exact hbelow s hs
      · rw [List.mem_singleton.mp hs]
    dsimp only at hb
    have hlink : Near gap s r := ⟨by omega, by omega⟩
    exact ⟨first, hfirst, r, hchain.tail ⟨hmem, hlink⟩, hmem, ha, by rw [max_eq_right hle]⟩

/-- One step, for a range that starts no earlier than those before it. -/
theorem Merged.step (h : Merged gap ranges merged) {r : ℕ × ℕ} (hr : r.1 ≤ r.2)
    (hbelow : ∀ s ∈ ranges, s.1 ≤ r.1) : Merged gap (ranges ++ [r]) (mergeRange gap merged r) := by
  rcases merged.eq_nil_or_concat with rfl | ⟨front, ⟨a, b⟩, rfl⟩
  · have hnil : ranges = [] := by
      refine List.eq_nil_iff_forall_not_mem.mpr fun s hs => ?_
      obtain ⟨m, hm, -⟩ := h.covers s hs
      cases hm
    rw [hnil]
    refine ⟨?_, List.pairwise_singleton _ _, ?_, ?_, ?_⟩ <;> refine List.forall_mem_singleton.mpr ?_
    · exact hr
    · exact ⟨r, List.mem_singleton_self r, le_rfl, le_rfl⟩
    · exact ⟨r, List.mem_singleton_self r, rfl⟩
    · exact bridged_of_mem List.mem_cons_self le_rfl le_rfl
  rw [List.concat_eq_append] at h ⊢
  obtain ⟨hfront, hlast⟩ := List.forall_mem_append.mp h.nonempty
  obtain ⟨happart, -, hbetween⟩ := List.pairwise_append.mp h.apart
  have hab : a ≤ b := hlast (a, b) List.mem_cons_self
  have har : a ≤ r.1 := by
    obtain ⟨s, hs, hsa⟩ := h.starts (a, b) (by simp)
    exact hsa.symm.le.trans (hbelow s hs)
  have hstarts : ∀ m ∈ front ++ [(a, b)], ∃ s ∈ ranges ++ [r], s.1 = m.1 := fun m hm => by
    obtain ⟨s, hs, hsm⟩ := h.starts m hm
    exact ⟨s, List.mem_append_left _ hs, hsm⟩
  have hbridged : ∀ m ∈ front ++ [(a, b)], Bridged gap (ranges ++ [r]) m := fun m hm =>
    (h.bridged m hm).mono (List.subset_append_left _ _)
  rw [mergeRange, List.getLast?_concat]
  dsimp only
  by_cases hnear : r.1 ≤ b + gap
  · rw [if_pos hnear, List.dropLast_concat]
    have hnew : (a, max b r.2) ∈ front ++ [(a, max b r.2)] := by simp
    refine ⟨?_, ?_, ?_, ?_, ?_⟩
    · exact List.forall_mem_append.mpr
        ⟨hfront, List.forall_mem_singleton.mpr (hab.trans (le_max_left _ _))⟩
    · refine List.pairwise_append.mpr ⟨happart, List.pairwise_singleton _ _, fun m hm n hn => ?_⟩
      rw [List.mem_singleton.mp hn]
      exact hbetween m hm (a, b) List.mem_cons_self
    · refine List.forall_mem_append.mpr ⟨fun s hs => ?_, List.forall_mem_singleton.mpr ?_⟩
      · obtain ⟨m, hm, hm1, hm2⟩ := h.covers s hs
        rcases List.mem_append.mp hm with hm | hm
        · exact ⟨m, List.mem_append_left _ hm, hm1, hm2⟩
        · obtain rfl := List.mem_singleton.mp hm
          exact ⟨_, hnew, hm1, hm2.trans (le_max_left _ _)⟩
      · exact ⟨_, hnew, har, le_max_right _ _⟩
    · exact List.forall_mem_append.mpr ⟨fun m hm => hstarts m (List.mem_append_left _ hm),
        List.forall_mem_singleton.mpr (hstarts (a, b) (by simp))⟩
    · exact List.forall_mem_append.mpr ⟨fun m hm => hbridged m (List.mem_append_left _ hm),
        List.forall_mem_singleton.mpr ((h.bridged (a, b) (by simp)).extend hbelow hnear)⟩
  · rw [if_neg hnear]
    have hmem : r ∈ ranges ++ [r] := by simp
    refine ⟨?_, ?_, ?_, ?_, ?_⟩
    · exact List.forall_mem_append.mpr ⟨h.nonempty, List.forall_mem_singleton.mpr hr⟩
    · refine List.pairwise_append.mpr ⟨h.apart, List.pairwise_singleton _ _, fun m hm n hn => ?_⟩
      rw [List.mem_singleton.mp hn]
      rcases List.mem_append.mp hm with hm | hm
      · have hfar := hbetween m hm (a, b) List.mem_cons_self
        dsimp only at hfar
        omega
      · rw [List.mem_singleton.mp hm]
        exact not_le.mp hnear
    · refine List.forall_mem_append.mpr ⟨fun s hs => ?_, List.forall_mem_singleton.mpr ?_⟩
      · obtain ⟨m, hm, hm12⟩ := h.covers s hs
        exact ⟨m, List.mem_append_left _ hm, hm12⟩
      · exact ⟨r, by simp, le_rfl, le_rfl⟩
    · exact List.forall_mem_append.mpr ⟨hstarts, List.forall_mem_singleton.mpr ⟨r, hmem, rfl⟩⟩
    · exact List.forall_mem_append.mpr
        ⟨hbridged, List.forall_mem_singleton.mpr (bridged_of_mem hmem le_rfl le_rfl)⟩

theorem merged_foldl (hsorted : ranges.Pairwise fun r s => r.1 ≤ s.1)
    (hranges : ∀ r ∈ ranges, r.1 ≤ r.2) :
    Merged gap ranges (ranges.foldl (mergeRange gap) []) := by
  induction ranges using List.reverseRecOn with
  | nil => exact ⟨nofun, .nil, nofun, nofun, nofun⟩
  | append_singleton ranges r ih =>
    obtain ⟨hbefore, -, hbelow⟩ := List.pairwise_append.mp hsorted
    obtain ⟨hfront, hlast⟩ := List.forall_mem_append.mp hranges
    rw [List.foldl_append]
    exact (ih hbefore hfront).step (hlast r List.mem_cons_self) fun s hs =>
      hbelow s hs r List.mem_cons_self

theorem merged_mergeRanges (hranges : ∀ r ∈ ranges, r.1 ≤ r.2) :
    Merged gap ranges (mergeRanges gap ranges) := by
  have hsorted : (ranges.mergeSort fun r s => r.1 ≤ s.1).Pairwise fun r s => r.1 ≤ s.1 := by
    refine (List.pairwise_mergeSort ?_ ?_ ranges).imp fun h => of_decide_eq_true h
    · intro a b c hab hbc
      exact decide_eq_true ((of_decide_eq_true hab).trans (of_decide_eq_true hbc))
    · intro a b
      rw [Bool.or_eq_true, decide_eq_true_eq, decide_eq_true_eq]
      exact le_total _ _
  have hmem : ∀ r, r ∈ ranges.mergeSort (fun r s => r.1 ≤ s.1) ↔ r ∈ ranges := fun r =>
    (List.mergeSort_perm ranges _).mem_iff
  have hfold := @merged_foldl gap _ hsorted fun r hr => hranges r ((hmem r).mp hr)
  exact ⟨hfold.nonempty, hfold.apart, fun r hr => hfold.covers r ((hmem r).mpr hr),
    fun m hm => (hfold.starts m hm).imp fun r hr => ⟨(hmem r).mp hr.1, hr.2⟩,
    fun m hm => (hfold.bridged m hm).mono fun r hr => (hmem r).mp hr⟩

/-- A range that is near one within a merged range is within it too. -/
theorem Merged.near (h : Merged gap ranges merged) {m r s : ℕ × ℕ} (hm : m ∈ merged)
    (hr : m.1 ≤ r.1 ∧ r.2 ≤ m.2) (hs : s ∈ ranges) (hnear : Near gap r s) :
    m.1 ≤ s.1 ∧ s.2 ≤ m.2 := by
  obtain ⟨n, hn, hn1, hn2⟩ := h.covers s hs
  have hsame : n = m := by
    -- two merged ranges are apart, and these hold ranges that are near each other
    by_contra hne
    have hcontains : m.2 + gap < n.1 ∨ n.2 + gap < m.1 := by
      have hpair : merged.Pairwise fun m n => m.2 + gap < n.1 ∨ n.2 + gap < m.1 :=
        h.apart.imp fun hmn => .inl hmn
      have : Std.Symm fun m n : ℕ × ℕ => m.2 + gap < n.1 ∨ n.2 + gap < m.1 :=
        ⟨fun _ _ => Or.symm⟩
      exact hpair.forall hm hn (Ne.symm hne)
    have hm12 := h.nonempty m hm
    obtain ⟨hnear1, hnear2⟩ := hnear
    omega
  rw [← hsame]
  exact ⟨hn1, hn2⟩

/-- The merged ranges cover what the ranges bridge, and nothing else. -/
theorem Merged.covers_iff (h : Merged gap ranges merged) (run : ℕ × ℕ) :
    Covers merged run ↔ Bridged gap ranges run := by
  constructor
  · rintro ⟨m, hm, hfirst, hlast⟩
    exact (h.bridged m hm).within hfirst hlast
  · rintro ⟨r, hr, s, hchain, -, hfirst, hlast⟩
    obtain ⟨m, hm, hm12⟩ := h.covers r hr
    have hs : m.1 ≤ s.1 ∧ s.2 ≤ m.2 := by
      clear hlast
      induction hchain with
      | refl => exact hm12
      | tail _ hlink ih => exact h.near hm ih hlink.1 hlink.2
    exact ⟨m, hm, hm12.1.trans hfirst, hlast.trans hs.2⟩

end Sashiko
