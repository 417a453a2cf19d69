import Sashiko.Diff.Paths
import Sashiko.Email.Authors

/-! Addresses of the b4 web relay: what they may stand for to the one who ranks speakers, and what
they are taken for where the owner of a series is looked up. -/

namespace Sashiko

/-! ### Addresses of entries -/

/-- The text between the brackets of an entry, if it has some. -/
def addressCandidate (entry : String) : String :=
  match (splitOnce '<' entry.toList).bind fun p => rsplitOnce '>' p.2 with
  | some (c :: inner, _) => String.ofList (c :: inner)
  | _ => entry

def looksLikeAnAddress (address localPart domain : List Char) : Bool :=
  localPart ≠ [] && domain.contains '.' && domain.head? ≠ some '.' && domain.getLast? ≠ some '.' &&
    !address.any isRustWhitespace && address.count '@' = 1

def maintainerAddress (entry : String) : Option String :=
  let address := asciiLower (rustTrim (trimQuotes (rustTrim (addressCandidate entry))))
  match splitOnce '@' address.toList with
  | some (localPart, domain) =>
    if looksLikeAnAddress address.toList localPart domain then some address else none
  | none => none

def normalizeEmailToken (raw : String) : Option String := maintainerAddress raw

/-! ### The decoder -/

/-- Where the dots are. -/
def dotPositions : List Char → List ℕ
  | [] => []
  | c :: cs =>
    if c = '.' then 0 :: (dotPositions cs).map (· + 1) else (dotPositions cs).map (· + 1)

def decodeAt (encoded : List Char) (pos : ℕ) : String :=
  String.ofList (encoded.take pos ++ '@' :: encoded.drop (pos + 1))

def decodeAtDot (encoded : List Char) (candidates : List String) (pos : ℕ) : List String :=
  if (normalizeEmailToken (decodeAt encoded pos)).isSome &&
      !candidates.contains (decodeAt encoded pos) then
    candidates ++ [decodeAt encoded pos]
  else candidates

def relayDomains : List (List Char) := ["kernel.org".toList, "linux.dev".toList]

attribute [local instance] lawfulBEq_texts in
def decodeB4RelayCandidates (emailLower : String) : List String :=
  match (stripChars? "devnull+".toList emailLower.toList).bind (rsplitOnce '@') with
  | some (encoded, relayDomain) =>
    if relayDomain ∈ relayDomains then
      (((dotPositions encoded).reverse.drop 1).take 3).foldl (decodeAtDot encoded) []
    else []
  | none => []

/-! ### What they agree on -/

/-- `str::to_lowercase`: whether it leaves a text as it is depends on the characters alone, and `@`
is one it leaves. -/
structure LowercaseByChar where
  apply : String → String
  stays : Char → Bool
  apply_eq_self : ∀ s, apply s = s ↔ ∀ c ∈ s.toList, stays c = true
  at_stays : stays '@' = true

/-- The text is an alias of the relay, with this between `devnull+` and the last `@`. -/
def IsRelayAlias (aliasEmail : String) (encoded : List Char) : Prop :=
  ∃ relayDomain ∈ relayDomains,
    aliasEmail.toList = "devnull+".toList ++ (encoded ++ '@' :: relayDomain)

/-- A dot of `encoded` that may stand for the `@`, with two to four labels behind it. -/
def SplitsAt (encoded before after : List Char) : Prop :=
  encoded = before ++ '.' :: after ∧ 1 ≤ after.count '.' ∧ after.count '.' ≤ 3

/-- An address in lower case, with a domain of two to four labels. -/
structure RelayableAddress (lower : LowercaseByChar) (real : String) : Prop where
  lowercase : lower.apply real = real
  accepted : (maintainerAddress real).isSome = true
  labels : ∃ localPart domain, real.toList = localPart ++ '@' :: domain ∧ '@' ∉ localPart ∧
    '@' ∉ domain ∧ 1 ≤ domain.count '.' ∧ domain.count '.' ≤ 3

/-- What is encoded has an `@` of its own, and a reading of it is accepted nevertheless. -/
def HidesAt (aliasEmail : String) : Prop :=
  ∃ encoded before after, IsRelayAlias aliasEmail encoded ∧ '@' ∈ encoded ∧
    SplitsAt encoded before after ∧
    (maintainerAddress (String.ofList (before ++ '@' :: after))).isSome = true

/-! ### Splitting -/

theorem eq_of_splitOnce {c : Char} {cs before after : List Char}
    (h : splitOnce c cs = some (before, after)) : cs = before ++ c :: after ∧ c ∉ before := by
  induction cs generalizing before with
  | nil => cases h
  | cons x cs ih =>
    rw [splitOnce] at h
    split at h
    · next hx =>
      cases h
      exact ⟨by rw [hx, List.nil_append], List.not_mem_nil⟩
    · next hx =>
      obtain ⟨⟨front, back⟩, hsplit, heq⟩ := Option.map_eq_some_iff.mp h
      cases heq
      obtain ⟨rfl, hnot⟩ := ih hsplit
      refine ⟨rfl, ?_⟩
      rw [List.mem_cons, not_or]
      exact ⟨Ne.symm hx, hnot⟩

theorem rsplitOnce_eq_some_iff {c : Char} {cs before after : List Char} :
    rsplitOnce c cs = some (before, after) ↔ cs = before ++ c :: after ∧ c ∉ after := by
  constructor
  · intro h
    obtain ⟨⟨front, back⟩, hsplit, heq⟩ := Option.map_eq_some_iff.mp h
    cases heq
    obtain ⟨hcs, hnot⟩ := eq_of_splitOnce hsplit
    refine ⟨?_, fun hmem => hnot (List.mem_reverse.mp hmem)⟩
    rw [← List.reverse_reverse cs, hcs]
    simp
  · rintro ⟨rfl, hnot⟩
    have hrev : c ∉ after.reverse := fun hmem => hnot (List.mem_reverse.mp hmem)
    rw [rsplitOnce, List.reverse_append, List.reverse_cons, List.append_assoc,
      List.singleton_append, splitOnce_append hrev]
    simp

theorem stripChars?_eq_some_iff {pre cs rest : Chars} :
    stripChars? pre cs = some rest ↔ cs = pre ++ rest := by
  constructor
  · intro h
    rw [stripChars?] at h
    split at h
    · next hpre =>
      obtain ⟨back, rfl⟩ := List.isPrefixOf_iff_prefix.mp hpre
      rw [List.drop_left] at h
      rw [Option.some.inj h]
    · cases h
  · rintro rfl
    exact stripChars?_append pre rest

/-! ### Positions of dots -/

theorem length_dotPositions (cs : List Char) : (dotPositions cs).length = cs.count '.' := by
  induction cs with
  | nil => rfl
  | cons c cs ih =>
    rw [dotPositions, List.count_cons]
    split <;> simp_all

/-- The list of positions counts the dots from the right. -/
theorem getElem?_dotPositions {encoded : List Char} {i pos : ℕ} :
    (dotPositions encoded).reverse[i]? = some pos ↔
      ∃ before after, encoded = before ++ '.' :: after ∧ before.length = pos ∧
        after.count '.' = i := by
  induction encoded generalizing pos with
  | nil => simp [dotPositions]
  | cons c cs ih =>
    have hmap : ((dotPositions cs).map (· + 1)).reverse[i]? = some pos ↔
        ∃ before after, c :: cs = (c :: before) ++ '.' :: after ∧ (c :: before).length = pos ∧
          after.count '.' = i := by
      rw [← List.map_reverse, List.getElem?_map, Option.map_eq_some_iff]
      constructor
      · rintro ⟨p, hp, rfl⟩
        obtain ⟨before, after, rfl, rfl, rfl⟩ := ih.mp hp
        exact ⟨before, after, rfl, rfl, rfl⟩
      · rintro ⟨before, after, heq, rfl, rfl⟩
        exact ⟨_, ih.mpr ⟨before, after, (List.cons.inj heq).2, rfl, rfl⟩, rfl⟩
    by_cases hc : c = '.'
    · subst hc
      rw [dotPositions, if_pos rfl, List.reverse_cons, List.getElem?_append]
      split
      · next hlt =>
        rw [hmap]
        refine ⟨fun ⟨before, after, h⟩ => ⟨_, after, h⟩, ?_⟩
        rintro ⟨before, after, heq, rfl, rfl⟩
        cases before with
        | nil =>
          obtain ⟨-, rfl⟩ := List.cons.inj heq
          simp [length_dotPositions] at hlt
        | cons d before =>
          obtain ⟨rfl, hcs⟩ := List.cons.inj heq
          exact ⟨before, after, heq, rfl, rfl⟩
      · next hge =>
        rw [List.length_reverse, List.length_map, length_dotPositions] at hge ⊢
        constructor
        · intro h
          obtain ⟨hzero, hpos⟩ : i - cs.count '.' = 0 ∧ 0 = pos := by
            simpa [List.getElem?_singleton] using h
          exact ⟨[], cs, rfl, hpos, by omega⟩
        · rintro ⟨before, after, heq, rfl, rfl⟩
          cases before with
          | nil =>
            obtain ⟨-, rfl⟩ := List.cons.inj heq
            simp
          | cons d before =>
            obtain ⟨-, rfl⟩ : '.' = d ∧ cs = before ++ '.' :: after := List.cons.inj heq
            rw [List.count_append, List.count_cons_self] at hge
            omega
    · rw [dotPositions, if_neg hc, hmap]
      refine ⟨fun ⟨before, after, h⟩ => ⟨_, after, h⟩, ?_⟩
      rintro ⟨before, after, heq, rfl, rfl⟩
      cases before with
      | nil => exact absurd (List.cons.inj heq).1 hc
      | cons d before =>
        obtain ⟨rfl, hcs⟩ := List.cons.inj heq
        exact ⟨before, after, heq, rfl, rfl⟩

/-! ### What is returned -/

theorem decodeAt_append (before after : List Char) (c : Char) :
    decodeAt (before ++ c :: after) before.length = String.ofList (before ++ '@' :: after) := by
  rw [decodeAt, List.take_left, ← List.drop_drop, List.drop_left]
  rfl

theorem mem_foldl_decodeAtDot {encoded : List Char} {real : String} (positions : List ℕ)
    (candidates : List String) :
    real ∈ positions.foldl (decodeAtDot encoded) candidates ↔
      real ∈ candidates ∨ ∃ pos ∈ positions, real = decodeAt encoded pos ∧
        (maintainerAddress real).isSome = true := by
  induction positions generalizing candidates with
  | nil => simp
  | cons pos positions ih =>
    have hpush : real ∈ decodeAtDot encoded candidates pos ↔ real ∈ candidates ∨
        (real = decodeAt encoded pos ∧ (maintainerAddress real).isSome = true) := by
      rw [decodeAtDot, normalizeEmailToken]
      split
      · next hadd =>
        rw [Bool.and_eq_true] at hadd
        rw [List.mem_append, List.mem_singleton]
        exact or_congr_right ⟨fun heq => ⟨heq, heq ▸ hadd.1⟩, And.left⟩
      · next hskip =>
        refine ⟨.inl, ?_⟩
        rintro (hmem | ⟨rfl, haccepted⟩)
        · exact hmem
        · by_contra hnew
          exact hskip (by simp [haccepted, hnew])
    rw [List.foldl_cons, ih, hpush, List.exists_mem_cons_iff, or_assoc]

theorem mem_tried {encoded : List Char} {pos : ℕ} :
    pos ∈ ((dotPositions encoded).reverse.drop 1).take 3 ↔
      ∃ before after, SplitsAt encoded before after ∧ before.length = pos := by
  constructor
  · intro h
    obtain ⟨i, hi, hget⟩ := List.mem_take_iff_getElem.mp h
    have hsome : (dotPositions encoded).reverse[i + 1]? = some pos := by
      rw [← hget, List.getElem_drop, Nat.add_comm]
      exact List.getElem?_eq_getElem _
    obtain ⟨before, after, heq, hlength, hcount⟩ := getElem?_dotPositions.mp hsome
    exact ⟨before, after, ⟨heq, by omega, by omega⟩, hlength⟩
  · rintro ⟨before, after, ⟨heq, hone, hthree⟩, rfl⟩
    have hsome := getElem?_dotPositions.mpr ⟨before, after, heq, rfl, rfl⟩
    refine List.mem_of_getElem? (i := after.count '.' - 1) ?_
    rw [List.getElem?_take_of_lt (by omega), List.getElem?_drop, Nat.add_sub_cancel' hone, hsome]

theorem at_not_mem_relayDomains {relayDomain : List Char} (h : relayDomain ∈ relayDomains) :
    '@' ∉ relayDomain := by
  rcases List.mem_cons.mp h with rfl | h
  · decide
  · rw [List.mem_singleton.mp h]
    decide

theorem relayParts_eq_some_iff {aliasEmail : String} {encoded relayDomain : List Char}
    (h : relayDomain ∈ relayDomains) :
    (stripChars? "devnull+".toList aliasEmail.toList).bind (rsplitOnce '@') =
        some (encoded, relayDomain) ↔
      aliasEmail.toList = "devnull+".toList ++ (encoded ++ '@' :: relayDomain) := by
  rw [Option.bind_eq_some_iff]
  constructor
  · rintro ⟨rest, hrest, hsplit⟩
    rw [stripChars?_eq_some_iff.mp hrest, (rsplitOnce_eq_some_iff.mp hsplit).1]
  · intro heq
    exact ⟨_, stripChars?_eq_some_iff.mpr heq,
      rsplitOnce_eq_some_iff.mpr ⟨rfl, at_not_mem_relayDomains h⟩⟩

/-- What an alias encodes is told by the alias. -/
theorem IsRelayAlias.unique {aliasEmail : String} {encoded encoded' : List Char}
    (h : IsRelayAlias aliasEmail encoded) (h' : IsRelayAlias aliasEmail encoded') :
    encoded = encoded' := by
  obtain ⟨relayDomain, hdomain, heq⟩ := h
  obtain ⟨relayDomain', hdomain', heq'⟩ := h'
  have hparts := (relayParts_eq_some_iff hdomain).mpr heq
  rw [(relayParts_eq_some_iff hdomain').mpr heq'] at hparts
  exact (Prod.mk.inj (Option.some.inj hparts)).1.symm

theorem mem_decodeB4RelayCandidates {aliasEmail real : String} :
    real ∈ decodeB4RelayCandidates aliasEmail ↔
      ∃ encoded before after, IsRelayAlias aliasEmail encoded ∧ SplitsAt encoded before after ∧
        real = String.ofList (before ++ '@' :: after) ∧
        (maintainerAddress real).isSome = true := by
  constructor
  · intro h
    rw [decodeB4RelayCandidates] at h
    split at h
    · next encoded relayDomain hparts =>
      split at h
      · next hdomain =>
        rw [mem_foldl_decodeAtDot, or_iff_right List.not_mem_nil] at h
        obtain ⟨pos, hpos, hreal, haccepted⟩ := h
        obtain ⟨before, after, hsplit, rfl⟩ := mem_tried.mp hpos
        refine ⟨encoded, before, after,
          ⟨relayDomain, hdomain, (relayParts_eq_some_iff hdomain).mp hparts⟩, hsplit, ?_,
          haccepted⟩
        rw [hreal, hsplit.1, decodeAt_append]
      · cases h
    · cases h
  · rintro ⟨encoded, before, after, ⟨relayDomain, hdomain, heq⟩, hsplit, hreal, haccepted⟩
    rw [decodeB4RelayCandidates, (relayParts_eq_some_iff hdomain).mpr heq]
    dsimp only
    rw [if_pos hdomain, mem_foldl_decodeAtDot]
    refine .inr ⟨before.length, mem_tried.mpr ⟨before, after, hsplit, rfl⟩, ?_, haccepted⟩
    rw [hreal, hsplit.1, decodeAt_append]

/-! ### What the alias test takes -/

theorem eight_lt_utf8ByteSize {encoded : List Char} (h : encoded ≠ []) :
    8 < (String.ofList ("devnull+".toList ++ encoded)).utf8ByteSize := by
  have hpos : (String.ofList encoded).utf8ByteSize ≠ 0 := by
    rw [Ne, String.utf8ByteSize_eq_zero_iff]
    intro hempty
    refine h ?_
    rw [← String.toList_ofList (l := encoded), hempty]
    rfl
  have hsize : (String.ofList "devnull+".toList).utf8ByteSize = 8 := by decide
  rw [String.ofList_append, String.utf8ByteSize_append, hsize]
  omega

theorem drop_relayPrefix {encoded : List Char} :
    ("devnull+".toList ++ encoded).drop 8 = encoded :=
  List.drop_left' (by decide)

/-- What comes up to an `@` has the beginning of the alias in it. -/
theorem prefix_of_prefix_append_at {pre upToAt rest : List Char} (hpre : '@' ∉ pre)
    (h : pre <+: upToAt ++ '@' :: rest) : pre <+: upToAt := by
  rcases Nat.lt_or_ge upToAt.length pre.length with hshort | hlong
  · have hat : upToAt ++ ['@'] <+: upToAt ++ '@' :: rest := ⟨rest, by simp⟩
    have hlength : (upToAt ++ ['@']).length ≤ pre.length := by
      rw [List.length_append, List.length_singleton]
      exact hshort
    exact absurd ((List.prefix_of_prefix_length_le hat h hlength).subset (by simp)) hpre
  · exact List.prefix_of_prefix_length_le h (List.prefix_append _ _) hlong

/-- The alias test compares what is encoded with the address without its `@`. -/
theorem isB4Alias_iff {lower : LowercaseByChar} {aliasEmail real : String}
    (h : lower.apply aliasEmail = aliasEmail) :
    isB4Alias lower.apply aliasEmail real = true ↔
      ∃ encoded, IsRelayAlias aliasEmail encoded ∧ encoded ≠ [] ∧
        encoded = (replaceChar (lower.apply real) '@' '.').toList := by
  rw [isB4Alias, h]
  constructor
  · intro hmatch
    obtain ⟨hstarts, hmatch⟩ := Bool.and_eq_true_iff.mp hmatch
    split at hmatch
    · cases hmatch
    · next upToAt aliasDomain hsplit =>
      simp only [Bool.and_eq_true, Bool.or_eq_true, decide_eq_true_eq] at hmatch
      obtain ⟨⟨hlong, hdomain⟩, hdrop⟩ := hmatch
      obtain ⟨heq, -⟩ := rsplitOnce_eq_some_iff.mp hsplit
      have hpre := List.isPrefixOf_iff_prefix.mp hstarts
      rw [heq] at hpre
      obtain ⟨encoded, rfl⟩ := prefix_of_prefix_append_at (by decide) hpre
      rw [drop_relayPrefix] at hdrop
      refine ⟨encoded, ⟨aliasDomain, ?_, ?_⟩, ?_, hdrop⟩
      · simpa [relayDomains] using hdomain
      · rw [heq, List.append_assoc]
      · rintro rfl
        exact absurd hlong (by decide)
  · rintro ⟨encoded, ⟨relayDomain, hdomain, heq⟩, hne, hencoded⟩
    have hsplit : rsplitOnce '@' aliasEmail.toList =
        some ("devnull+".toList ++ encoded, relayDomain) :=
      rsplitOnce_eq_some_iff.mpr
        ⟨by rw [heq, List.append_assoc], at_not_mem_relayDomains hdomain⟩
    have hstarts : startsWithText aliasEmail "devnull+" = true := by
      rw [startsWithText, heq]
      exact List.isPrefixOf_iff_prefix.mpr (List.prefix_append _ _)
    have hdomain' : relayDomain = "kernel.org".toList ∨ relayDomain = "linux.dev".toList := by
      simpa [relayDomains] using hdomain
    rw [hstarts, hsplit]
    simp only [Bool.true_and, Bool.and_eq_true, Bool.or_eq_true, decide_eq_true_eq]
    exact ⟨⟨eight_lt_utf8ByteSize hne, hdomain'⟩, drop_relayPrefix.trans hencoded⟩

/-! ### When they agree -/

theorem toList_replaceAt {s : String} {before after : List Char}
    (h : s.toList = before ++ '@' :: after) (hbefore : '@' ∉ before) (hafter : '@' ∉ after) :
    (replaceChar s '@' '.').toList = before ++ '.' :: after := by
  have hkept : ∀ {cs : List Char}, '@' ∉ cs →
      cs.map (fun c => if c = '@' then '.' else c) = cs := fun {cs} hcs => by
    refine (List.map_congr_left fun c hc => if_neg ?_).trans (List.map_id cs)
    rintro rfl
    exact hcs hc
  rw [replaceChar, String.toList_ofList, h, List.map_append, List.map_cons, hkept hbefore,
    hkept hafter, if_pos rfl]

theorem at_not_mem_replaceAt (s : String) : '@' ∉ (replaceChar s '@' '.').toList := by
  rw [replaceChar, String.toList_ofList]
  intro hmem
  obtain ⟨c, -, hc⟩ := List.mem_map.mp hmem
  split at hc
  · cases hc
  · next hne => exact hne hc

/-- A candidate is as much in lower case as the alias it is read from. -/
theorem apply_candidate {lower : LowercaseByChar} {aliasEmail real : String}
    (h : lower.apply aliasEmail = aliasEmail) {encoded before after : List Char}
    (hencoded : IsRelayAlias aliasEmail encoded) (hsplit : encoded = before ++ '.' :: after)
    (hreal : real.toList = before ++ '@' :: after) : lower.apply real = real := by
  obtain ⟨relayDomain, -, heq⟩ := hencoded
  have hstays := (lower.apply_eq_self aliasEmail).mp h
  refine (lower.apply_eq_self real).mpr fun c hc => ?_
  rw [hreal, List.mem_append, List.mem_cons] at hc
  rcases hc with hc | rfl | hc
  · exact hstays c (by simp [heq, hsplit, hc])
  · exact lower.at_stays
  · exact hstays c (by simp [heq, hsplit, hc])

/-- What is asked of one address: it is a candidate, or it is no match. -/
theorem mem_candidates_iff {lower : LowercaseByChar} {aliasEmail real : String}
    (h : lower.apply aliasEmail = aliasEmail) (hreal : RelayableAddress lower real) :
    real ∈ decodeB4RelayCandidates aliasEmail ↔
      isB4Alias lower.apply aliasEmail real = true := by
  obtain ⟨localPart, domain, hparts, hlocal, hdomain, hone, hthree⟩ := hreal.labels
  rw [mem_decodeB4RelayCandidates, isB4Alias_iff h, hreal.lowercase,
    toList_replaceAt hparts hlocal hdomain]
  constructor
  · rintro ⟨encoded, before, after, hencoded, hsplit, rfl, -⟩
    rw [String.toList_ofList] at hparts
    obtain ⟨rfl, -, rfl⟩ := (List.append_cons_inj_of_notMem hlocal hdomain).mp hparts.symm
    exact ⟨encoded, hencoded, by simp [hsplit.1], hsplit.1⟩
  · rintro ⟨encoded, hencoded, -, rfl⟩
    refine ⟨_, localPart, domain, hencoded, ⟨rfl, hone, hthree⟩, ?_, hreal.accepted⟩
    rw [← hparts, String.ofList_toList]

/-- The candidates of an alias are all matches, unless an `@` is hidden in it. -/
theorem forall_candidates_iff {lower : LowercaseByChar} {aliasEmail : String}
    (h : lower.apply aliasEmail = aliasEmail) :
    (∀ real ∈ decodeB4RelayCandidates aliasEmail, isB4Alias lower.apply aliasEmail real = true) ↔
      ¬HidesAt aliasEmail := by
  constructor
  · rintro hall ⟨encoded, before, after, hencoded, hat, hsplit, haccepted⟩
    have hmem := mem_decodeB4RelayCandidates.mpr
      ⟨encoded, before, after, hencoded, hsplit, rfl, haccepted⟩
    obtain ⟨encoded', hencoded', -, heq⟩ := (isB4Alias_iff h).mp (hall _ hmem)
    rw [hencoded.unique hencoded', heq] at hat
    exact at_not_mem_replaceAt _ hat
  · intro hhides real hreal
    obtain ⟨encoded, before, after, hencoded, hsplit, rfl, haccepted⟩ :=
      mem_decodeB4RelayCandidates.mp hreal
    have hat : '@' ∉ encoded := fun hmem =>
      hhides ⟨encoded, before, after, hencoded, hmem, hsplit, haccepted⟩
    have heq := hsplit.1
    have hlower := apply_candidate h hencoded heq String.toList_ofList
    rw [heq, List.mem_append, List.mem_cons, not_or, not_or] at hat
    refine (isB4Alias_iff h).mpr ⟨encoded, hencoded, by simp [heq], ?_⟩
    rw [hlower, toList_replaceAt String.toList_ofList hat.1 hat.2.2, heq]

/-- The decoder and the alias test agree on an alias, on every address and on every candidate, if
and only if no `@` is hidden in it. -/
theorem relay_agrees_iff (lower : LowercaseByChar) {aliasEmail : String}
    (h : lower.apply aliasEmail = aliasEmail) :
    ((∀ real, RelayableAddress lower real →
        (real ∈ decodeB4RelayCandidates aliasEmail ↔
          isB4Alias lower.apply aliasEmail real = true)) ∧
      ∀ real ∈ decodeB4RelayCandidates aliasEmail,
        isB4Alias lower.apply aliasEmail real = true) ↔ ¬HidesAt aliasEmail := by
  rw [forall_candidates_iff h, and_iff_right]
  exact fun real hreal => mem_candidates_iff h hreal

/-- Lower case where only the ASCII letters have one. -/
def asciiByChar : LowercaseByChar where
  apply := asciiLower
  stays c := c.toLower = c
  apply_eq_self s := by
    rw [← String.toList_inj, asciiLower, String.toList_ofList]
    simp only [decide_eq_true_eq]
    induction s.toList with
    | nil => simp
    | cons c cs ih => rw [List.map_cons, List.cons.injEq, ih, List.forall_mem_cons]
  at_stays := by decide

/-- A plain alias is decoded, and matched. -/
theorem relay_agrees_ann :
    "ann@b.org" ∈ decodeB4RelayCandidates "devnull+ann.b.org@kernel.org" ∧
      isB4Alias asciiByChar.apply "devnull+ann.b.org@kernel.org" "ann@b.org" = true := by
  have hhides : ¬HidesAt "devnull+ann.b.org@kernel.org" := by
    rintro ⟨encoded, -, -, hencoded, hat, -⟩
    have hann : IsRelayAlias "devnull+ann.b.org@kernel.org" "ann.b.org".toList :=
      ⟨_, List.mem_cons_self, rfl⟩
    rw [hencoded.unique hann] at hat
    exact absurd hat (by decide)
  have hmem : "ann@b.org" ∈ decodeB4RelayCandidates "devnull+ann.b.org@kernel.org" := by decide
  exact ⟨hmem, ((relay_agrees_iff asciiByChar (by decide)).mpr hhides).2 _ hmem⟩

/-- An alias that is decoded to an address in brackets, which it does not match. -/
theorem brackets_hide_at :
    asciiByChar.apply "devnull+x@<a.b.c>@kernel.org" = "devnull+x@<a.b.c>@kernel.org" ∧
      ¬∀ real ∈ decodeB4RelayCandidates "devnull+x@<a.b.c>@kernel.org",
        isB4Alias asciiByChar.apply "devnull+x@<a.b.c>@kernel.org" real = true := by
  have hmem : "x@<a@b.c>" ∈ decodeB4RelayCandidates "devnull+x@<a.b.c>@kernel.org" := by decide
  have hmatch : isB4Alias asciiByChar.apply "devnull+x@<a.b.c>@kernel.org" "x@<a@b.c>" = false := by
    decide
  refine ⟨by decide, fun hall => ?_⟩
  rw [hall _ hmem] at hmatch
  cases hmatch

end Sashiko
