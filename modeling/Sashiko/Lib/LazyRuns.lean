import Mathlib.Data.List.TakeWhile
import Mathlib.Tactic.Common

/-! A match behind a run of characters that is no longer than needed, as a regular expression has it
in `[^x]*?r`; with any character in the run it is the leftmost match of `r`. -/

namespace Sashiko

section Runs

variable {β : Type} {p : Char → Bool} {k : Option Char → List Char → Option β} {b : Option Char}
  {u z : List Char}

/-- The run and the match behind it. `k` is given the character before and the text behind. -/
def firstMatch {β : Type} (p : Char → Bool) (k : Option Char → List Char → Option β) :
    Option Char → List Char → Option (List Char × β)
  | before, [] => (k before []).map fun m => ([], m)
  | before, c :: cs =>
    match k before (c :: cs) with
    | some m => some ([], m)
    | none =>
      if p c then (firstMatch p k (some c) cs).map fun found => (c :: found.1, found.2) else none

/-- The character before what follows a text. -/
def lastBefore (before : Option Char) (cs : List Char) : Option Char := cs.getLast?.or before

@[simp] theorem lastBefore_nil (b : Option Char) : lastBefore b [] = b := by simp [lastBefore]

@[simp] theorem lastBefore_cons (b : Option Char) (c : Char) (cs : List Char) :
    lastBefore b (c :: cs) = lastBefore (some c) cs := by
  cases cs with
  | nil => rfl
  | cons d cs =>
    rw [lastBefore, lastBefore, List.getLast?_cons_cons,
      List.getLast?_eq_some_getLast (List.cons_ne_nil d cs), Option.some_or, Option.some_or]

theorem lastBefore_append_cons (b : Option Char) (u : List Char) (c : Char) (cs : List Char) :
    lastBefore b (u ++ c :: cs) = lastBefore (some c) cs := by
  induction u generalizing b with
  | nil => simp
  | cons d u ih => rw [List.cons_append, lastBefore_cons, ih]

theorem firstMatch_of_some {cs : List Char} {m : β} (h : k b cs = some m) :
    firstMatch p k b cs = some ([], m) := by
  cases cs with
  | nil => rw [firstMatch, h, Option.map_some]
  | cons c cs => rw [firstMatch, h]

theorem firstMatch_nil (p : Char → Bool) (k : Option Char → List Char → Option β)
    (b : Option Char) : firstMatch p k b [] = (k b []).map fun m => ([], m) := rfl

theorem firstMatch_cons_of_none {c : Char} {cs : List Char} (h : k b (c :: cs) = none) :
    firstMatch p k b (c :: cs) =
      if p c then (firstMatch p k (some c) cs).map fun found => (c :: found.1, found.2)
      else none := by
  rw [firstMatch, h]

/-- A run over characters at none of which there is a match. -/
theorem firstMatch_append (hp : ∀ c ∈ u, p c = true)
    (hk : ∀ u₁ u₂, u = u₁ ++ u₂ → u₂ ≠ [] → k (lastBefore b u₁) (u₂ ++ z) = none) :
    firstMatch p k b (u ++ z) =
      (firstMatch p k (lastBefore b u) z).map fun found => (u ++ found.1, found.2) := by
  induction u generalizing b with
  | nil => cases h : firstMatch p k b z <;> simp [h]
  | cons c u ih =>
    have hnone := hk [] (c :: u) rfl (List.cons_ne_nil _ _)
    rw [lastBefore_nil, List.cons_append] at hnone
    rw [List.cons_append, firstMatch_cons_of_none hnone, if_pos (hp c List.mem_cons_self),
      ih (fun d hd => hp d (List.mem_cons_of_mem _ hd)) fun u₁ u₂ hu hne => ?_, Option.map_map,
      lastBefore_cons]
    · rfl
    · have := hk (c :: u₁) u₂ (by rw [hu, List.cons_append]) hne
      rwa [lastBefore_cons] at this

/-- What a run and the match behind it are. -/
theorem firstMatch_eq_some {cs : List Char} {m : β} (h : firstMatch p k b cs = some (u, m)) :
    ∃ z, cs = u ++ z ∧ k (lastBefore b u) z = some m ∧ (∀ c ∈ u, p c = true) ∧
      ∀ u₁ u₂, u = u₁ ++ u₂ → u₂ ≠ [] → k (lastBefore b u₁) (u₂ ++ z) = none := by
  induction cs generalizing b u with
  | nil =>
    rw [firstMatch_nil] at h
    obtain ⟨m', hm', heq⟩ := Option.map_eq_some_iff.mp h
    obtain ⟨rfl, rfl⟩ := Prod.mk.inj heq
    refine ⟨[], rfl, by rwa [lastBefore_nil], nofun, fun u₁ u₂ hu hne => ?_⟩
    exact absurd (List.append_eq_nil_iff.mp hu.symm).2 hne
  | cons c cs ih =>
    cases hk : k b (c :: cs) with
    | some m' =>
      rw [firstMatch_of_some hk] at h
      obtain ⟨rfl, rfl⟩ := Prod.mk.inj (Option.some.inj h)
      refine ⟨c :: cs, rfl, by rwa [lastBefore_nil], nofun, fun u₁ u₂ hu hne => ?_⟩
      exact absurd (List.append_eq_nil_iff.mp hu.symm).2 hne
    | none =>
      rw [firstMatch_cons_of_none hk] at h
      split_ifs at h with hc
      obtain ⟨⟨u', m'⟩, hfound, heq⟩ := Option.map_eq_some_iff.mp h
      obtain ⟨rfl, rfl⟩ := Prod.mk.inj heq
      obtain ⟨z, rfl, hm, hp, hnone⟩ := ih hfound
      refine ⟨z, rfl, by rwa [lastBefore_cons], List.forall_mem_cons.mpr ⟨hc, hp⟩, ?_⟩
      intro u₁ u₂ hu hne
      cases u₁ with
      | nil =>
        rw [List.nil_append] at hu
        rw [lastBefore_nil, ← hu]
        exact hk
      | cons d u₁ =>
        obtain ⟨rfl, htail⟩ := List.cons.inj hu
        rw [lastBefore_cons]
        exact hnone u₁ u₂ htail hne

/-- Where there is no match behind any run, there is none at any place the run reaches. -/
theorem eq_none_of_firstMatch (h : firstMatch p k b (u ++ z) = none) (hp : ∀ c ∈ u, p c = true) :
    firstMatch p k (lastBefore b u) z = none := by
  induction u generalizing b with
  | nil => rwa [lastBefore_nil]
  | cons c u ih =>
    rw [List.cons_append] at h
    have hk : k b (c :: (u ++ z)) = none := by
      by_contra hsome
      obtain ⟨m, hm⟩ := Option.ne_none_iff_exists'.mp hsome
      rw [firstMatch_of_some hm] at h
      cases h
    rw [firstMatch_cons_of_none hk, if_pos (hp c List.mem_cons_self), Option.map_eq_none_iff] at h
    rw [lastBefore_cons]
    exact ih h fun d hd => hp d (List.mem_cons_of_mem _ hd)

theorem match_none_of_firstMatch (h : firstMatch p k b z = none) : k b z = none := by
  by_contra hsome
  obtain ⟨m, hm⟩ := Option.ne_none_iff_exists'.mp hsome
  rw [firstMatch_of_some hm] at h
  cases h

/-- Two matchers that fail alike along a text, and behind it. -/
theorem firstMatch_none_congr {γ : Type} {k' : Option Char → List Char → Option γ} {z' : List Char}
    (hu : ∀ b u₂, u₂ <:+ u → u₂ ≠ [] → (k b (u₂ ++ z) = none ↔ k' b (u₂ ++ z') = none))
    (hz : firstMatch p k (lastBefore b u) z = none ↔
      firstMatch p k' (lastBefore b u) z' = none) :
    firstMatch p k b (u ++ z) = none ↔ firstMatch p k' b (u ++ z') = none := by
  induction u generalizing b with
  | nil => rwa [lastBefore_nil] at hz
  | cons c u ih =>
    have hhead := hu b (c :: u) (List.suffix_refl _) (List.cons_ne_nil _ _)
    rw [List.cons_append, List.cons_append] at hhead ⊢
    cases hk : k b (c :: (u ++ z)) with
    | some m =>
      obtain ⟨m', hm'⟩ := Option.ne_none_iff_exists'.mp (mt hhead.mpr (by rw [hk]; nofun))
      rw [firstMatch_of_some hk, firstMatch_of_some hm']
      exact iff_of_false nofun nofun
    | none =>
      rw [firstMatch_cons_of_none hk, firstMatch_cons_of_none (hhead.mp hk)]
      split_ifs
      · rw [Option.map_eq_none_iff, Option.map_eq_none_iff]
        rw [lastBefore_cons] at hz
        exact ih (fun b u₂ hsuffix => hu b u₂ (hsuffix.trans (List.suffix_cons c u))) hz
      · exact iff_of_true rfl rfl

/-- Two matchers that agree along a text, and behind it but for the run, agree but for the run. -/
theorem firstMatch_frame {k' : Option Char → List Char → Option β} {z' : List Char}
    (hu : ∀ b u₂, u₂ <:+ u → u₂ ≠ [] → k b (u₂ ++ z) = k' b (u₂ ++ z'))
    (hz : (firstMatch p k (lastBefore b u) z).map Prod.snd =
      (firstMatch p k' (lastBefore b u) z').map Prod.snd) :
    (firstMatch p k b (u ++ z)).map Prod.snd = (firstMatch p k' b (u ++ z')).map Prod.snd := by
  induction u generalizing b with
  | nil => rwa [lastBefore_nil] at hz
  | cons c u ih =>
    have hhead := hu b (c :: u) (List.suffix_refl _) (List.cons_ne_nil _ _)
    rw [List.cons_append, List.cons_append] at hhead ⊢
    cases hk : k b (c :: (u ++ z)) with
    | some m => rw [firstMatch_of_some hk, firstMatch_of_some (hhead ▸ hk)]
    | none =>
      rw [firstMatch_cons_of_none hk, firstMatch_cons_of_none (hhead ▸ hk)]
      split_ifs
      · rw [Option.map_map, Option.map_map]
        rw [lastBefore_cons] at hz
        exact ih (fun b u₂ hsuffix => hu b u₂ (hsuffix.trans (List.suffix_cons c u))) hz
      · rfl

/-- A run that ends within a text is the same whatever follows the text. -/
theorem span_append (h : ∃ c ∈ u, p c = false) (z : List Char) :
    (u ++ z).takeWhile p = u.takeWhile p ∧ (u ++ z).dropWhile p = u.dropWhile p ++ z ∧
      u.dropWhile p ≠ [] := by
  induction u with
  | nil =>
    obtain ⟨c, hc, -⟩ := h
    cases hc
  | cons d u ih =>
    by_cases hd : p d = true
    · obtain ⟨c, hc, hpc⟩ := h
      have hcu : c ∈ u := (List.mem_cons.mp hc).resolve_left fun heq => by
        rw [heq, hd] at hpc
        cases hpc
      obtain ⟨htake, hdrop, hne⟩ := ih ⟨c, hcu, hpc⟩
      rw [List.cons_append, List.takeWhile_cons_of_pos hd, List.dropWhile_cons_of_pos hd,
        List.takeWhile_cons_of_pos hd, List.dropWhile_cons_of_pos hd, htake, hdrop]
      exact ⟨rfl, rfl, hne⟩
    · rw [List.cons_append, List.takeWhile_cons_of_neg hd, List.dropWhile_cons_of_neg hd,
        List.takeWhile_cons_of_neg hd, List.dropWhile_cons_of_neg hd]
      exact ⟨rfl, rfl, List.cons_ne_nil _ _⟩

/-- A run over a text that is followed by what ends the run. -/
theorem span_append_stop (h : z.head?.any p = false) :
    (u ++ z).takeWhile p = u.takeWhile p ∧ (u ++ z).dropWhile p = u.dropWhile p ++ z := by
  have hstop : z.takeWhile p = [] ∧ z.dropWhile p = z := by
    cases z with
    | nil => exact ⟨rfl, rfl⟩
    | cons c z =>
      have hc : p c = false := h
      exact ⟨List.takeWhile_cons_of_neg (by simp [hc]), List.dropWhile_cons_of_neg (by simp [hc])⟩
  by_cases hall : ∀ c ∈ u, p c = true
  · rw [List.takeWhile_append_of_pos hall, List.dropWhile_append_of_pos hall, hstop.1, hstop.2,
      List.append_nil, List.takeWhile_eq_self_iff.mpr hall, List.dropWhile_eq_nil_iff.mpr hall]
    exact ⟨rfl, rfl⟩
  · have hsome : ∃ c ∈ u, p c = false := by simpa using hall
    exact ⟨(span_append hsome z).1, (span_append hsome z).2.1⟩

/-- A matcher that does not look at the character before. -/
theorem firstMatch_const {f : List Char → Option β} {cs : List Char} (b b' : Option Char) :
    firstMatch p (fun _ => f) b cs = firstMatch p (fun _ => f) b' cs := by
  cases cs <;> rfl

end Runs

end Sashiko
