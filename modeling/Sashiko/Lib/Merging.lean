import Mathlib.Data.List.Induction
import Mathlib.Data.List.Perm.Basic
import Mathlib.Tactic.Common

/-! A map filled entry by entry, in which an entry under a key that is there already is merged into
the one it finds. What a key holds in the end are its entries merged in the order they came. -/

namespace Sashiko

namespace Merging

variable {κ α : Type*} [DecidableEq κ] {merge : α → α → α}

/-- Adds an entry, or merges it into the one under its key. -/
def insertOrMerge (merge : α → α → α) (entries : List (κ × α)) (entry : κ × α) : List (κ × α) :=
  if entry.1 ∈ entries.map (·.1) then
    entries.map fun e => if e.1 = entry.1 then (e.1, merge e.2 entry.2) else e
  else entries ++ [entry]

def under (k : κ) (entries : List (κ × α)) : List α := (entries.filter (·.1 = k)).map (·.2)

def mergeAll (merge : α → α → α) : List α → Option α
  | [] => none
  | a :: as => some (as.foldl merge a)

/-! ### Merging a list -/

@[simp] theorem mergeAll_eq_none {as : List α} : mergeAll merge as = none ↔ as = [] := by
  cases as with
  | nil => exact iff_of_true rfl rfl
  | cons a as => exact iff_of_false nofun nofun

theorem exists_mergeAll (merge : α → α → α) {as : List α} (h : as ≠ []) :
    ∃ a, mergeAll merge as = some a :=
  Option.ne_none_iff_exists'.mp (mt mergeAll_eq_none.mp h)

theorem mergeAll_concat (as : List α) (b : α) :
    mergeAll merge (as ++ [b]) = some (((mergeAll merge as).map (merge · b)).getD b) := by
  cases as with
  | nil => rfl
  | cons a as =>
    rw [List.cons_append, mergeAll, List.foldl_append]
    rfl

/-- What holds of one entry, and is kept as one more is merged in, holds of the whole. -/
theorem mergeAll_induct {R : List α → α → Prop} (one : ∀ a, R [a] a)
    (more : ∀ as a b, R as a → R (as ++ [b]) (merge a b)) {as : List α} {a : α}
    (h : mergeAll merge as = some a) : R as a := by
  induction as using List.reverseRecOn generalizing a with
  | nil => cases h
  | append_singleton as b ih =>
    rw [mergeAll_concat, Option.some_inj] at h
    cases has : mergeAll merge as with
    | none =>
      rw [mergeAll_eq_none.mp has] at h ⊢
      exact h ▸ one b
    | some a' =>
      rw [has] at h
      exact h ▸ more as a' b (ih has)

/-! ### The entries under a key -/

theorem mem_under {k : κ} {entries : List (κ × α)} {a : α} :
    a ∈ under k entries ↔ (k, a) ∈ entries := by
  rw [under, List.mem_map]
  constructor
  · rintro ⟨⟨k', a'⟩, hmem, rfl⟩
    obtain ⟨hmem, hkey⟩ := List.mem_filter.mp hmem
    exact of_decide_eq_true hkey ▸ hmem
  · exact fun hmem => ⟨(k, a), List.mem_filter.mpr ⟨hmem, decide_eq_true rfl⟩, rfl⟩

theorem under_perm {xs ys : List (κ × α)} (h : xs.Perm ys) (k : κ) :
    (under k xs).Perm (under k ys) :=
  (h.filter _).map _

theorem under_concat (entries : List (κ × α)) (e : κ × α) (k : κ) :
    under k (entries ++ [e]) = under k entries ++ if e.1 = k then [e.2] else [] := by
  rw [under, List.filter_append, List.map_append]
  by_cases hkey : e.1 = k <;> simp [under, hkey]

/-! ### Filling the map -/

/-- The map holds under each key the merged entries of the key. -/
def HoldsMerged (merge : α → α → α) (entries held : List (κ × α)) : Prop :=
  ∀ k a, (k, a) ∈ held ↔ mergeAll merge (under k entries) = some a

theorem HoldsMerged.insertOrMerge {entries held : List (κ × α)}
    (h : HoldsMerged merge entries held) (e : κ × α) :
    HoldsMerged merge (entries ++ [e]) (insertOrMerge merge held e) := by
  intro k a
  rw [under_concat]
  unfold Merging.insertOrMerge
  split_ifs with hheld hkey hkey
  · subst hkey
    obtain ⟨⟨k, v⟩, hv, hk⟩ := List.mem_map.mp hheld
    obtain rfl : k = e.1 := hk
    rw [mergeAll_concat, (h _ v).mp hv, Option.map_some, Option.getD_some, Option.some_inj,
      List.mem_map]
    constructor
    · rintro ⟨⟨k', v'⟩, hv', heq⟩
      split_ifs at heq with hk'
      · obtain ⟨rfl, rfl⟩ := Prod.mk.inj heq
        rw [Option.some_inj.mp (((h _ v).mp hv).symm.trans ((h _ v').mp hv'))]
      · exact absurd (congrArg Prod.fst heq) hk'
    · rintro rfl
      exact ⟨(e.1, v), hv, if_pos rfl⟩
  · rw [List.append_nil, ← h, List.mem_map]
    constructor
    · rintro ⟨e', he', heq⟩
      split_ifs at heq with hk'
      · exact absurd (hk'.symm.trans (Prod.mk.inj heq).1) hkey
      · exact heq ▸ he'
    · exact fun hmem => ⟨(k, a), hmem, if_neg (Ne.symm hkey)⟩
  · subst hkey
    have hnone : under e.1 entries = [] :=
      mergeAll_eq_none.mp (Option.eq_none_iff_forall_ne_some.mpr fun v hv =>
        hheld (List.mem_map.mpr ⟨(e.1, v), (h _ v).mpr hv, rfl⟩))
    rw [hnone, List.mem_append, List.mem_singleton]
    constructor
    · rintro (hmem | heq)
      · exact absurd (List.mem_map.mpr ⟨_, hmem, rfl⟩) hheld
      · exact congrArg some (congrArg Prod.snd heq).symm
    · intro heq
      obtain rfl : e.2 = a := Option.some_inj.mp heq
      exact .inr rfl
  · rw [List.append_nil, ← h, List.mem_append, List.mem_singleton]
    exact or_iff_left fun heq => hkey (congrArg Prod.fst heq).symm

theorem holdsMerged_foldl (entries : List (κ × α)) :
    HoldsMerged merge entries (entries.foldl (Merging.insertOrMerge merge) []) := by
  induction entries using List.reverseRecOn with
  | nil => exact fun k a => iff_of_false List.not_mem_nil nofun
  | append_singleton entries e ih =>
    rw [List.foldl_append]
    exact ih.insertOrMerge e

end Merging

end Sashiko
