import Mathlib.Data.List.Chain
import Sashiko.Diff.Snippet

/-! A span that is found lies within the lines it was looked for in. -/

namespace Sashiko

/-- The span lies within so many lines. -/
def Within (n : ℕ) (span : ℕ × ℕ) : Prop := span.1 ≤ span.2 ∧ span.2 < n

/-- Every line of the span is a deleted line. -/
def AllDeleted (deleted : DeletedLines) (span : ℕ × ℕ) : Prop :=
  span.1 ≤ span.2 ∧ ∀ i, span.1 ≤ i → i ≤ span.2 → ∃ text, (i, text) ∈ deleted

/-! ### Indices -/

theorem yields_itemAt {α : Type} {xs : List α} {i : ℕ} (h : i < xs.length) :
    Yields (itemAt xs i) (· ∈ xs) := by
  rw [itemAt, List.getElem?_eq_getElem h]
  exact yields_ok (List.getElem_mem h)

theorem yields_sliceAt {α : Type} {xs : List α} {first last : ℕ} (h : first ≤ last)
    (hlast : last ≤ xs.length) : Yields (sliceAt xs first last) fun _ => True := by
  rw [sliceAt, if_pos ⟨h, hlast⟩]
  exact yields_ok trivial

theorem yields_parseSnippetLines (snippet : Chars) :
    Yields (parseSnippetLines snippet) fun _ => True := by
  unfold parseSnippetLines
  split_ifs with h
  · exact yields_ok trivial
  · refine (yields_sliceAt ?_ ?_).map fun _ _ => trivial
    · omega
    · unfold endTrim
      omega

theorem Yields.orTry {α : Type} {P : α → Prop} {x y : Checked (Option α)}
    (hx : Yields x fun r => ∀ a ∈ r, P a) (hy : Yields y fun r => ∀ a ∈ r, P a) :
    Yields (orTry x y) fun r => ∀ a ∈ r, P a := by
  refine hx.bind fun r hr => ?_
  cases r with
  | none => exact hy
  | some a => exact yields_ok hr

/-! ### The choice is one of the candidates -/

section Picking

variable {α : Type} {start : α → ℕ} {meets : α → ℕ × ℕ → Bool}

theorem mem_of_nearest {line : ℕ} {candidates : List α} {c : α}
    (h : c ∈ nearest start line candidates) : c ∈ candidates :=
  List.argmin_mem h

theorem yields_pickFromDiff {inDiff : List α} (h : 0 < inDiff.length) (symbolLine : Option ℕ) :
    Yields (pickFromDiff start inDiff symbolLine) fun r => ∀ c ∈ r, c ∈ inDiff := by
  have hfirst : Yields ((itemAt inDiff 0).map some) fun r => ∀ c ∈ r, c ∈ inDiff :=
    (yields_itemAt h).map fun c hc _ hc' => Option.some.inj hc' ▸ hc
  unfold pickFromDiff
  split_ifs
  · exact hfirst
  · cases symbolLine with
    | none => exact hfirst
    | some line => exact yields_ok fun c => mem_of_nearest

theorem yields_pickClosest (candidates : List α) (hintLine : Option ℕ)
    (ranges : Option (List (ℕ × ℕ))) (symbolLine : Option ℕ) :
    Yields (pickClosest start meets candidates hintLine ranges symbolLine)
      fun r => ∀ c ∈ r, c ∈ candidates := by
  have hdiff : ∀ c ∈ inDiffCandidates meets ranges candidates, c ∈ candidates := by
    intro c hc
    cases ranges with
    | none => cases hc
    | some diff => exact (List.mem_filter.mp hc).1
  unfold pickClosest
  by_cases hempty : candidates.isEmpty = true
  · rw [if_pos hempty]
    exact yields_ok nofun
  rw [if_neg hempty]
  cases hintLine with
  | some hint => exact yields_ok fun c => mem_of_nearest
  | none =>
    by_cases hlength : 0 < (inDiffCandidates meets ranges candidates).length
    · simp only [if_pos hlength]
      exact (yields_pickFromDiff hlength symbolLine).mono fun r hr c hc => hdiff c (hr c hc)
    · simp only [if_neg hlength]
      cases symbolLine with
      | some line => exact yields_ok fun c => mem_of_nearest
      | none => exact yields_ok fun c hc => List.mem_of_head? hc

theorem mem_of_pickDeleted {candidates : List (ℕ × ℕ)} {hintLine : Option ℕ} {c : ℕ × ℕ}
    (h : c ∈ pickDeleted candidates hintLine) : c ∈ candidates := by
  cases hintLine with
  | some hint => exact mem_of_nearest h
  | none => exact List.mem_of_head? h

end Picking

/-! ### Among the lines of a file -/

theorem matchFrom_bounds {file snip : List Chars} {i last e : ℕ} (hlast : last ≤ i)
    (h : matchFrom file snip i last = some e) : last ≤ e ∧ (e = last ∨ e < i + file.length) := by
  induction file generalizing snip i last with
  | nil =>
    rw [matchFrom] at h
    split_ifs at h
    obtain rfl := Option.some.inj h
    exact ⟨le_rfl, .inl rfl⟩
  | cons f file ih =>
    rw [matchFrom] at h
    have hlen : i + (f :: file).length = i + 1 + file.length := by
      rw [List.length_cons]
      omega
    rw [hlen]
    split at h
    · obtain rfl := Option.some.inj h
      exact ⟨le_rfl, .inl rfl⟩
    · split_ifs at h with hblank hequal
      · have hnext := ih (by omega) h
        exact hnext
      · obtain ⟨hle, hend⟩ := ih (by omega) h
        exact ⟨by omega, .inr (by omega)⟩

theorem within_of_mem_exactCandidates {file snip : List Chars} {first : Chars} {c : ℕ × ℕ}
    (h : c ∈ exactCandidates file snip first) : Within file.length c := by
  obtain ⟨⟨line, i⟩, hmem, hc⟩ := List.mem_filterMap.mp h
  have hi : i < file.length := (List.mem_zipIdx' hmem).1
  dsimp only at hc
  split_ifs at hc
  obtain ⟨e, he, rfl⟩ := Option.map_eq_some_iff.mp hc
  obtain ⟨hle, hend⟩ := matchFrom_bounds le_rfl he
  rw [List.length_drop] at hend
  exact ⟨hle, by omega⟩

theorem yields_findSnippetInLinesExact (file : List Chars) (snippet : Chars)
    (hintLine : Option ℕ) (ranges : Option (List (ℕ × ℕ))) (symbolLine : Option ℕ) :
    Yields (findSnippetInLinesExact file snippet hintLine ranges symbolLine)
      fun r => ∀ span ∈ r, Within file.length span := by
  unfold findSnippetInLinesExact
  split_ifs
  · exact yields_ok nofun
  refine (yields_parseSnippetLines snippet).bind fun snip _ => ?_
  cases snip with
  | none => exact yields_ok nofun
  | some snip =>
    dsimp only
    cases snip.find? (!·.isEmpty) with
    | none => exact yields_ok nofun
    | some first =>
      exact (yields_pickClosest _ _ _ _).mono
        fun r hr span hspan => within_of_mem_exactCandidates (hr span hspan)

theorem length_of_nextAbove {raw : Chars} {above rest : List Chars}
    (h : nextAbove raw above = some rest) : rest.length < above.length := by
  induction above with
  | nil => cases h
  | cons f above ih =>
    rw [nextAbove] at h
    rw [List.length_cons]
    split_ifs at h
    · have hlt := ih h
      omega
    · obtain rfl := Option.some.inj h
      omega

theorem expandBackwards_le (raws above : List Chars) {start : ℕ} (h : above.length ≤ start) :
    expandBackwards raws above start ≤ start := by
  induction raws generalizing above start with
  | nil => exact le_rfl
  | cons raw raws ih =>
    unfold expandBackwards
    split_ifs
    · exact ih above h
    · split
      · rename_i rest hrest
        have hlt := length_of_nextAbove hrest
        have hle := ih rest (le_refl rest.length)
        omega
      · exact le_rfl

theorem bounds_of_nextBelow {raw : Chars} {i j : ℕ} {below rest : List Chars}
    (h : nextBelow raw i below = some (j, rest)) :
    i ≤ j ∧ j + 1 + rest.length = i + below.length := by
  induction below generalizing i with
  | nil => cases h
  | cons f below ih =>
    rw [nextBelow] at h
    rw [List.length_cons]
    split_ifs at h
    · obtain ⟨hle, hsum⟩ := ih h
      omega
    · cases h
      omega

theorem expandForwards_bounds (raws below : List Chars) {last n : ℕ}
    (h : last + 1 + below.length = n) :
    last ≤ expandForwards raws below last ∧ expandForwards raws below last < n := by
  induction raws generalizing below last with
  | nil =>
    unfold expandForwards
    omega
  | cons raw raws ih =>
    unfold expandForwards
    split_ifs
    · exact ih below h
    · split
      · rename_i i rest hrest
        obtain ⟨hle, hsum⟩ := bounds_of_nextBelow hrest
        obtain ⟨hstart, hend⟩ := ih rest (by omega : i + 1 + rest.length = n)
        omega
      · omega

theorem yields_expandAround {file snip : List Chars} {candIdx best : ℕ}
    (hcand : candIdx < snip.length) (hbest : best < file.length) :
    Yields (expandAround file snip candIdx best) (Within file.length) := by
  refine (yields_sliceAt (Nat.zero_le _) hcand.le).bind fun before _ => ?_
  refine (yields_sliceAt hcand le_rfl).bind fun after _ => yields_ok ?_
  have habove : (file.take best).reverse.length ≤ best := by
    rw [List.length_reverse, List.length_take]
    omega
  have hback := expandBackwards_le before.reverse _ habove
  have hbelow : best + 1 + (file.drop (best + 1)).length = file.length := by
    rw [List.length_drop]
    omega
  obtain ⟨hfirst, hlast⟩ := expandForwards_bounds after _ hbelow
  exact ⟨by dsimp only; omega, hlast⟩

theorem lt_of_mem_matchingLines {file : List Chars} {cand : Chars} {i : ℕ}
    (h : i ∈ matchingLines file cand) : i < file.length := by
  obtain ⟨⟨line, j⟩, hmem, hi⟩ := List.mem_filterMap.mp h
  dsimp only at hi
  split_ifs at hi
  obtain rfl := Option.some.inj hi
  exact (List.mem_zipIdx' hmem).1

theorem lt_of_mem_candidateLines {snip : List Chars} {p : Chars × ℕ}
    (h : p ∈ candidateLines snip) : p.2 < snip.length := by
  obtain ⟨hmem, -⟩ := List.mem_filter.mp ((List.mem_insertionSort _).mp h)
  exact (List.mem_zipIdx' hmem).1

theorem yields_fallbackFrom (file snip : List Chars) (hintLine : Option ℕ)
    (ranges : Option (List (ℕ × ℕ))) (symbolLine : Option ℕ) {cands : List (Chars × ℕ)}
    (hcands : ∀ p ∈ cands, p.2 < snip.length) :
    Yields (fallbackFrom file snip hintLine ranges symbolLine cands)
      fun r => ∀ span ∈ r, Within file.length span := by
  induction cands with
  | nil => exact yields_ok nofun
  | cons p cands ih =>
    obtain ⟨cand, candIdx⟩ := p
    refine (yields_pickClosest (matchingLines file cand) _ _ _).bind fun best hbest => ?_
    cases best with
    | none => exact ih fun p hp => hcands p (List.mem_cons_of_mem _ hp)
    | some best =>
      have hlt := lt_of_mem_matchingLines (hbest best rfl)
      exact (yields_expandAround (hcands _ List.mem_cons_self) hlt).map
        fun span hspan _ h => Option.some.inj h ▸ hspan

theorem yields_findSnippetInLinesFallback (file : List Chars) (snippet : Chars)
    (hintLine : Option ℕ) (ranges : Option (List (ℕ × ℕ))) (symbolLine : Option ℕ) :
    Yields (findSnippetInLinesFallback file snippet hintLine ranges symbolLine)
      fun r => ∀ span ∈ r, Within file.length span := by
  unfold findSnippetInLinesFallback
  split_ifs
  · exact yields_ok nofun
  refine (yields_parseSnippetLines snippet).bind fun snip _ => ?_
  cases snip with
  | none => exact yields_ok nofun
  | some snip => exact yields_fallbackFrom _ _ _ _ _ fun p => lt_of_mem_candidateLines

/-! ### Among deleted lines -/

theorem nextDeleted_spec {snip : Chars} {last next : ℕ} {deleted rest : DeletedLines}
    (h : nextDeleted snip last deleted = some (next, rest)) :
    last ≤ next ∧ (∀ i, last < i → i ≤ next → ∃ text, (i, text) ∈ deleted) ∧
      ∀ p ∈ rest, p ∈ deleted := by
  induction deleted generalizing last with
  | nil => cases h
  | cons p deleted ih =>
    obtain ⟨line, text⟩ := p
    rw [nextDeleted] at h
    split_ifs at h with hgap hblank hequal
    · obtain rfl := not_not.mp hgap
      obtain ⟨hle, hall, hsub⟩ := ih h
      refine ⟨by omega, fun i hlo hhi => ?_, fun p hp => List.mem_cons_of_mem _ (hsub p hp)⟩
      by_cases hi : i = last + 1
      · exact ⟨text, hi ▸ List.mem_cons_self⟩
      · obtain ⟨t, ht⟩ := hall i (by omega) hhi
        exact ⟨t, List.mem_cons_of_mem _ ht⟩
    · obtain rfl := not_not.mp hgap
      cases h
      refine ⟨by omega, fun i hlo hhi => ⟨text, ?_⟩, fun p hp => List.mem_cons_of_mem _ hp⟩
      obtain rfl : i = last + 1 := by omega
      exact List.mem_cons_self

theorem matchDeleted_spec {snips : List Chars} {last e : ℕ} {deleted : DeletedLines}
    (h : matchDeleted snips last deleted = some e) :
    last ≤ e ∧ ∀ i, last < i → i ≤ e → ∃ text, (i, text) ∈ deleted := by
  induction snips generalizing last deleted with
  | nil =>
    obtain rfl := Option.some.inj h
    exact ⟨le_rfl, fun i hlo hhi => absurd hlo (by omega)⟩
  | cons snip snips ih =>
    obtain ⟨⟨next, rest⟩, hnext, hrest⟩ := Option.bind_eq_some_iff.mp h
    obtain ⟨hle, hall, hsub⟩ := nextDeleted_spec hnext
    obtain ⟨hle', hall'⟩ := ih hrest
    refine ⟨by dsimp only at hle'; omega, fun i hlo hhi => ?_⟩
    by_cases hi : i ≤ next
    · exact hall i hlo hi
    · obtain ⟨text, htext⟩ := hall' i (by dsimp only; omega) hhi
      exact ⟨text, hsub _ htext⟩

theorem allDeleted_of_mem_deletedCandidates {first : Chars} {snips : List Chars}
    {deleted : DeletedLines} {c : ℕ × ℕ} (h : c ∈ deletedCandidates first snips deleted) :
    AllDeleted deleted c := by
  induction deleted with
  | nil => cases h
  | cons p deleted ih =>
    obtain ⟨line, text⟩ := p
    rw [deletedCandidates] at h
    rcases List.mem_append.mp h with h | h
    · split_ifs at h
      · obtain ⟨e, he, rfl⟩ := Option.map_eq_some_iff.mp (Option.mem_toList.mp h)
        obtain ⟨hle, hall⟩ := matchDeleted_spec he
        refine ⟨hle, fun i hlo hhi => ?_⟩
        by_cases hi : i = line
        · exact ⟨text, hi ▸ List.mem_cons_self⟩
        · obtain ⟨t, ht⟩ := hall i (by dsimp only at hlo; omega) hhi
          exact ⟨t, List.mem_cons_of_mem _ ht⟩
      · cases h
    · obtain ⟨hle, hall⟩ := ih h
      refine ⟨hle, fun i hlo hhi => ?_⟩
      obtain ⟨t, ht⟩ := hall i hlo hhi
      exact ⟨t, List.mem_cons_of_mem _ ht⟩

theorem yields_findSnippetInDeletedLinesExact (deleted : DeletedLines) (snippet : Chars)
    (hintLine : Option ℕ) : Yields (findSnippetInDeletedLinesExact deleted snippet hintLine)
      fun r => ∀ span ∈ r, AllDeleted deleted span := by
  unfold findSnippetInDeletedLinesExact
  split_ifs
  · exact yields_ok nofun
  refine (yields_parseSnippetLines snippet).bind fun snip _ => ?_
  cases snip with
  | none => exact yields_ok nofun
  | some snip =>
    dsimp only
    split
    · exact yields_ok nofun
    · exact yields_ok fun span hspan =>
        allDeleted_of_mem_deletedCandidates (mem_of_pickDeleted hspan)

theorem allDeleted_of_mem_matchingDeleted {deleted : DeletedLines} {cand : Chars} {c : ℕ × ℕ}
    (h : c ∈ matchingDeleted deleted cand) : AllDeleted deleted c := by
  obtain ⟨⟨line, text⟩, hmem, hc⟩ := List.mem_filterMap.mp h
  dsimp only at hc
  split_ifs at hc
  obtain rfl := Option.some.inj hc
  refine ⟨le_rfl, fun i hlo hhi => ⟨text, ?_⟩⟩
  obtain rfl : i = line := by
    dsimp only at hlo hhi
    omega
  exact hmem

theorem yields_findSnippetInDeletedLinesFallback (deleted : DeletedLines) (snippet : Chars)
    (hintLine : Option ℕ) : Yields (findSnippetInDeletedLinesFallback deleted snippet hintLine)
      fun r => ∀ span ∈ r, AllDeleted deleted span := by
  unfold findSnippetInDeletedLinesFallback
  split_ifs
  · exact yields_ok nofun
  refine (yields_parseSnippetLines snippet).map fun snip _ span hspan => ?_
  obtain ⟨lines, -, hfound⟩ := Option.bind_eq_some_iff.mp hspan
  obtain ⟨cand, -, hpick⟩ := List.exists_of_findSome?_eq_some hfound
  exact allDeleted_of_mem_matchingDeleted (mem_of_pickDeleted hpick)

end Sashiko
