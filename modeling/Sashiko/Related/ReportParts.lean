import Sashiko.Related.Renumbering
import Sashiko.Related.ReportOrder

/-! What `align_related_preexisting_to_report_order` does to the text of a report: the placeholders
and the text between them. -/

namespace Sashiko

variable {n k : ℕ} {head rest : Chars} {parts : List (ℕ × Chars)}

/-- No placeholder of the first `n` bugs. -/
def Clean (n : ℕ) (cs : Chars) : Prop := ∀ k < n, ¬bugRefPlaceholder k <:+: cs

/-- The text is cut at the placeholders of the first `n` bugs. -/
structure Cut (n : ℕ) (head : Chars) (parts : List (ℕ × Chars)) : Prop where
  head : Clean n head
  lt : ∀ part ∈ parts, part.1 < n
  clean : ∀ part ∈ parts, Clean n part.2

def weave (head : Chars) (parts : List (ℕ × Chars)) : Chars :=
  head ++ joinParts bugRefPlaceholder parts

theorem Cut.cons {part : ℕ × Chars} (h : Cut n head (part :: parts)) : Cut n part.2 parts where
  head := h.clean part List.mem_cons_self
  lt := fun p hp => h.lt p (List.mem_cons_of_mem _ hp)
  clean := fun p hp => h.clean p (List.mem_cons_of_mem _ hp)

theorem joinParts_cons (part : ℕ × Chars) (parts : List (ℕ × Chars)) :
    joinParts bugRefPlaceholder (part :: parts) =
      bugRefPlaceholder part.1 ++ weave part.2 parts := by
  rw [weave, joinParts, List.flatMap_cons, List.append_assoc]
  rfl

theorem weave_append (head : Chars) (before after : List (ℕ × Chars)) :
    weave head (before ++ after) = weave head before ++ joinParts bugRefPlaceholder after := by
  rw [weave, weave, joinParts, List.flatMap_append, List.append_assoc]
  rfl

/-- Every text can be cut. -/
theorem exists_cut (n : ℕ) (text : Chars) :
    ∃ head parts, text = weave head parts ∧ Cut n head parts := by
  induction hlen : text.length using Nat.strong_induction_on generalizing text with
  | _ len ih =>
    subst hlen
    by_cases hstart : ∃ k < n, bugRefPlaceholder k <+: text
    · obtain ⟨k, hk, rest, rfl⟩ := hstart
      have hpos := List.length_pos_iff.mpr (isToken_bugRefPlaceholder k).ne_nil
      obtain ⟨head, parts, rfl, hcut⟩ := ih rest.length (by rw [List.length_append]; omega) rest rfl
      refine ⟨[], (k, head) :: parts, (joinParts_cons (k, head) parts).symm, ?_, ?_, ?_⟩
      · exact fun j _ hj => (isToken_bugRefPlaceholder j).ne_nil (List.infix_nil.mp hj)
      · exact List.forall_mem_cons.mpr ⟨hk, hcut.lt⟩
      · exact List.forall_mem_cons.mpr ⟨hcut.head, hcut.clean⟩
    · cases text with
      | nil =>
        exact ⟨[], [], rfl, fun j _ hj =>
          (isToken_bugRefPlaceholder j).ne_nil (List.infix_nil.mp hj), by simp, by simp⟩
      | cons c text =>
        obtain ⟨head, parts, rfl, hcut⟩ := ih text.length (Nat.lt_succ_self _) text rfl
        refine ⟨c :: head, parts, rfl, fun j hj hin => ?_, hcut.lt, hcut.clean⟩
        rcases List.infix_cons_iff.mp hin with hpre | hin
        · exact hstart ⟨j, hj, hpre.trans (List.prefix_append (c :: head) _)⟩
        · exact hcut.head j hj hin

/-! ### Where the placeholders stand -/

theorem head_joinParts (parts : List (ℕ × Chars)) :
    ∀ c ∈ (joinParts bugRefPlaceholder parts).head?, c = '[' := by
  cases parts with
  | nil => exact fun c hc => by cases hc
  | cons part parts =>
    obtain ⟨w, hw, -⟩ := isToken_bugRefPlaceholder part.1
    intro c hc
    rw [joinParts, List.flatMap_cons, hw] at hc
    exact (Option.some.inj hc).symm

/-- A token that is not within `pre` does not begin there when a bracket opens behind. -/
theorem IsToken.noStart {p pre : Chars} (hp : IsToken p) (hpre : ¬p <:+: pre)
    (hrest : ∀ c ∈ rest.head?, c = '[') : NoStart p pre rest := by
  refine noStart_of_not_infix hpre fun q₁ q₂ heq hq₁ hq₂ _ hq => ?_
  obtain ⟨w, hw, hopen, -⟩ := hp
  obtain ⟨a, q₁, rfl⟩ := List.exists_cons_of_ne_nil hq₁
  obtain ⟨b, q₂, rfl⟩ := List.exists_cons_of_ne_nil hq₂
  obtain ⟨after, rfl⟩ := hq
  obtain rfl : b = '[' := hrest b rfl
  rw [hw] at heq
  have htail : w ++ [']'] = q₁ ++ '[' :: q₂ := (List.cons.inj heq).2
  have hmem : '[' ∈ w ++ [']'] := by rw [htail]; simp
  exact hopen (by simpa using hmem)

/-- A token does not begin within another one. -/
theorem IsToken.noStart_tail {p q : Chars} (hp : IsToken p) (hq : IsToken q) (rest : Chars) :
    NoStart q p.tail rest := by
  intro v hv hne hpre
  obtain ⟨w, rfl, hopen, -⟩ := hp
  obtain ⟨u, rfl, -⟩ := hq
  obtain ⟨a, v, rfl⟩ := List.exists_cons_of_ne_nil hne
  obtain rfl : '[' = a := (List.cons_prefix_cons.mp hpre).1
  have hmem : '[' ∈ w ++ [']'] := hv.mem List.mem_cons_self
  exact hopen (by simpa using hmem)

theorem IsToken.occurrences_append {p q : Chars} (hp : IsToken p) (hq : IsToken q)
    (rest : Chars) :
    occurrences q (p ++ rest) = (if q = p then 1 else 0) + occurrences q rest := by
  have htail := hp.noStart_tail hq rest
  have hsame : q <+: p ++ rest ↔ q = p :=
    ⟨hp.eq_of_prefix_append hq, fun h => h ▸ List.prefix_append q rest⟩
  obtain ⟨w, rfl, -⟩ := id hp
  rw [List.cons_append, occurrences, ← List.cons_append]
  rw [List.tail_cons] at htail
  rw [Sashiko.occurrences_append htail]
  congr 1
  exact if_congr (List.isPrefixOf_iff_prefix.trans hsame) rfl rfl

theorem occurrences_weave (h : Cut n head parts) (hk : k < n) :
    occurrences (bugRefPlaceholder k) (weave head parts) = (parts.map (·.1)).count k := by
  have htoken := isToken_bugRefPlaceholder
  induction parts generalizing head with
  | nil =>
    have hstart : NoStart (bugRefPlaceholder k) head [] :=
      (htoken k).noStart (h.head k hk) (by simp)
    exact occurrences_append hstart
  | cons part parts ih =>
    have hstart : NoStart (bugRefPlaceholder k) head
        (joinParts bugRefPlaceholder (part :: parts)) :=
      (htoken k).noStart (h.head k hk) (head_joinParts _)
    have hsame : (bugRefPlaceholder k = bugRefPlaceholder part.1) = (part.1 = k) :=
      propext (bugRefPlaceholder_injective.eq_iff.trans eq_comm)
    rw [weave, occurrences_append hstart, joinParts_cons,
      (htoken part.1).occurrences_append (htoken k), ih h.cons, List.map_cons, List.count_cons,
      Nat.add_comm]
    simp only [hsame, beq_iff_eq]

/-- Each placeholder once: the parts are numbered by a permutation. -/
theorem Cut.perm (h : Cut n head parts)
    (honce : ∀ k < n, occurrences (bugRefPlaceholder k) (weave head parts) = 1) :
    (parts.map (·.1)).Perm (List.range n) := by
  refine List.perm_iff_count.mpr fun k => ?_
  by_cases hk : k < n
  · rw [← occurrences_weave h hk, honce k hk, List.count_eq_one_of_mem List.nodup_range
      (List.mem_range.mpr hk)]
  · rw [List.count_eq_zero_of_not_mem fun hmem => hk (List.mem_range.mp hmem),
      List.count_eq_zero_of_not_mem fun hmem => ?_]
    obtain ⟨part, hpart, rfl⟩ := List.mem_map.mp hmem
    exact hk (h.lt part hpart)

/-- Before a part that is not among them the placeholder does not begin. -/
theorem noStart_weave (h : Cut n head parts) (hk : k < n) (hnot : k ∉ parts.map (·.1))
    (hrest : ∀ c ∈ rest.head?, c = '[') :
    NoStart (bugRefPlaceholder k) (weave head parts) rest := by
  have htoken := isToken_bugRefPlaceholder
  induction parts generalizing head with
  | nil =>
    rw [weave, joinParts, List.flatMap_nil, List.append_nil]
    exact (htoken k).noStart (h.head k hk) hrest
  | cons part parts ih =>
    rw [List.map_cons, List.mem_cons, not_or] at hnot
    have hpart := ih h.cons hnot.2
    have hother : ¬bugRefPlaceholder k <+:
        bugRefPlaceholder part.1 ++ (weave part.2 parts ++ rest) := fun hpre =>
      hnot.1 (bugRefPlaceholder_injective ((htoken part.1).eq_of_prefix_append (htoken k) hpre))
    have htail := (htoken part.1).noStart_tail (htoken k) (weave part.2 parts ++ rest)
    obtain ⟨w, hw, -⟩ := htoken part.1
    rw [hw, List.tail_cons] at htail
    rw [hw] at hother
    rw [weave, noStart_append, joinParts_cons, hw, List.cons_append, noStart_cons, noStart_append]
    refine ⟨(htoken k).noStart (h.head k hk) ?_, ?_, htail, hpart⟩
    · intro c hc
      exact (Option.some.inj hc).symm
    · rwa [← List.append_assoc] at hother

theorem firstAt_weave {before after : List (ℕ × Chars)} {seg : Chars}
    (h : Cut n head (before ++ (k, seg) :: after)) (hnot : k ∉ before.map (·.1)) :
    firstAt (bugRefPlaceholder k) (weave head (before ++ (k, seg) :: after)) =
      some (weave head before).length := by
  have hk : k < n := h.lt _ (List.mem_append_right _ List.mem_cons_self)
  have hbefore : Cut n head before :=
    ⟨h.head, fun p hp => h.lt p (List.mem_append_left _ hp),
      fun p hp => h.clean p (List.mem_append_left _ hp)⟩
  rw [weave_append, firstAt_append (noStart_weave hbefore hk hnot (head_joinParts _)),
    joinParts_cons, firstAt_hit (isToken_bugRefPlaceholder k).ne_nil]
  rfl

/-! ### The order of the report -/

theorem placeLe_iff {a b : ℕ × ℕ} :
    placeLe a b = true ↔ a.1 < b.1 ∨ (a.1 = b.1 ∧ a.2 ≤ b.2) := by
  simp [placeLe]

theorem placeLe_trans (a b c : ℕ × ℕ) (hab : placeLe a b = true) (hbc : placeLe b c = true) :
    placeLe a c = true := by
  rw [placeLe_iff] at hab hbc ⊢
  omega

theorem placeLe_total (a b : ℕ × ℕ) : (placeLe a b || placeLe b a) = true := by
  rw [Bool.or_eq_true, placeLe_iff, placeLe_iff]
  omega

theorem placeLe_antisymm {a b : ℕ × ℕ} (hab : placeLe a b = true) (hba : placeLe b a = true) :
    a = b := by
  rw [placeLe_iff] at hab hba
  exact Prod.ext (by omega) (by omega)

/-- One placeholder after the other is found. -/
theorem pairwise_placeOf (h : Cut n head parts) (hnodup : (parts.map (·.1)).Nodup)
    {before after : List (ℕ × Chars)} (hparts : parts = before ++ after) :
    (after.map (·.1)).Pairwise fun i j =>
      (placeOf (weave head parts) i).1 < (placeOf (weave head parts) j).1 := by
  induction after generalizing before with
  | nil => exact .nil
  | cons part after ih =>
    refine List.pairwise_cons.mpr ⟨fun j hj => ?_, @ih (before ++ [part]) ?_⟩
    · obtain ⟨⟨later, seg⟩, hmem, rfl⟩ := List.mem_map.mp hj
      obtain ⟨mid, post, rfl⟩ := List.append_of_mem hmem
      have hfirst : parts = before ++ (part.1, part.2) :: (mid ++ (later, seg) :: post) := hparts
      have hsecond : parts = (before ++ part :: mid) ++ (later, seg) :: post := by simp [hparts]
      have hnodup₁ := hfirst ▸ hnodup
      have hnodup₂ := hsecond ▸ hnodup
      rw [List.map_append, List.map_cons, List.nodup_middle, List.nodup_cons] at hnodup₁ hnodup₂
      have hplace₁ := firstAt_weave (hfirst ▸ h) fun hm =>
        hnodup₁.1 (List.mem_append_left _ hm)
      have hplace₂ := firstAt_weave (hsecond ▸ h) fun hm =>
        hnodup₂.1 (List.mem_append_left _ hm)
      rw [← hfirst] at hplace₁
      rw [← hsecond] at hplace₂
      have hpos := List.length_pos_iff.mpr (isToken_bugRefPlaceholder part.1).ne_nil
      rw [placeOf, placeOf, hplace₁, hplace₂, Option.getD_some, Option.getD_some, weave_append,
        joinParts_cons, List.length_append, List.length_append]
      omega
    · rw [hparts, List.append_assoc, List.singleton_append]

theorem reportOrder_weave (h : Cut n head parts)
    (hperm : (parts.map (·.1)).Perm (List.range n)) :
    reportOrder n (weave head parts) = parts.map (·.1) := by
  have hnodup : (parts.map (·.1)).Nodup := hperm.nodup_iff.mpr List.nodup_range
  have hsorted : ((parts.map (·.1)).map (placeOf (weave head parts))).Pairwise
      fun a b => placeLe a b = true :=
    List.pairwise_map.mpr ((pairwise_placeOf h hnodup (List.nil_append _).symm).imp
      fun hlt => placeLe_iff.mpr (.inl hlt))
  have hsame : ((List.range n).map (placeOf (weave head parts))).mergeSort placeLe =
      (parts.map (·.1)).map (placeOf (weave head parts)) :=
    ((List.mergeSort_perm _ _).trans (hperm.symm.map _)).eq_of_pairwise
      (fun _ _ _ _ => placeLe_antisymm) (List.pairwise_mergeSort placeLe_trans placeLe_total _)
      hsorted
  rw [reportOrder, hsame, List.map_map]
  exact List.map_id' _

end Sashiko
