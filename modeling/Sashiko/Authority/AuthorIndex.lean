import Sashiko.Access.Titles
import Sashiko.Authority.Relay
import Sashiko.Lib.Lines

/-! The index of patchsets by the address of their author. The address that the database computes
for a stored author is looked up among a few guesses for the author at hand, and the two have to
meet wherever the authors count as one person. -/

namespace Sashiko

/-! ### The address that the database computes -/

/-- `INSTR`: where the character is first, counted from one, and zero if it is nowhere. -/
def instr (cs : List Char) (c : Char) : ℕ := if c ∈ cs then cs.idxOf c + 1 else 0

/-- `SUBSTR` -/
def substr (cs : List Char) (start length : ℕ) : List Char := (cs.drop (start - 1)).take length

/-- What the `CASE` takes of an author: the text between the first brackets, or all of it. -/
def bareAuthor (author : List Char) : List Char :=
  if instr author '<' > 0 ∧ instr author '>' > instr author '<' then
    substr author (instr author '<' + 1) (instr author '>' - instr author '<' - 1)
  else author

/-- `TRIM`, which takes spaces only. -/
def sqlTrim (cs : List Char) : List Char := trimMatches (· = ' ') cs

/-- `AUTHOR_EMAIL_EXPR`; `LOWER` knows the ASCII letters only. -/
def authorEmailExpr (author : String) : String :=
  String.ofList ((sqlTrim (bareAuthor author.toList)).map Char.toLower)

/-! ### The guesses -/

def decodedOnce (encoded : List Char) (out : List String) (pos : ℕ) : List String :=
  if out.contains (decodeAt encoded pos) then out else out ++ [decodeAt encoded pos]

def relayAlias (encoded relayDomain : List Char) : String :=
  String.ofList ("devnull+".toList ++ (encoded ++ '@' :: relayDomain))

attribute [local instance] lawfulBEq_texts in
/-- The guesses before they are filled up to four. -/
def authorEmailGuesses (email : String) : List String :=
  match (stripChars? "devnull+".toList email.toList).bind (rsplitOnce '@') with
  | some (encoded, domain) =>
    if domain ∈ relayDomains then
      (((dotPositions encoded).reverse.drop 1).take 3).foldl (decodedOnce encoded) [email]
    else [email]
  | none =>
    if '@' ∈ email.toList then
      [email, relayAlias (replaceChar email '@' '.').toList "kernel.org".toList,
        relayAlias (replaceChar email '@' '.').toList "linux.dev".toList]
    else [email]

def authorEmailCandidates (toLowercase : String → String) (author : String) : List String :=
  let email := toLowercase (extractEmail author)
  if email = "" then ["", "", "", ""]
  else
    let out := authorEmailGuesses email
    (out ++ List.replicate (4 - out.length) email).take 4

/-- `same_author_email` -/
def sameAuthorEmail (toLowercase : String → String) (a b : String) : Bool :=
  (extractEmail a).toList.contains '@' && (extractEmail b).toList.contains '@' &&
    (eqIgnoreAsciiCase (extractEmail a) (extractEmail b) || authorsMatch toLowercase a b)

/-! ### What they agree on -/

/-- `str::to_lowercase`: doing it twice changes nothing more, and a text whose other letters are in
lower case already is lowered as an ASCII text is. -/
structure LowercaseText extends LowercaseByChar where
  settled : ∀ s, ∀ c ∈ (apply s).toList, stays c = true
  ascii : ∀ s, (∀ c ∈ s.toList, 128 ≤ c.toNat → stays c = true) → apply s = asciiLower s

/-- Only spaces stand around the address, and its letters outside ASCII are in lower case. -/
structure StoredPlainly (lower : LowercaseText) (author : String) : Prop where
  spaces : ∃ m n, bareAuthor author.toList =
    List.replicate m ' ' ++ (extractEmail author).toList ++ List.replicate n ' '
  letters : ∀ c ∈ (extractEmail author).toList, 128 ≤ c.toNat → lower.stays c = true

/-- An address with one `@` and a domain of two to four labels, and no alias of the relay itself. -/
structure RelayedPlainly (lower : LowercaseText) (real : String) : Prop where
  no_alias : startsWithText (lower.apply real) "devnull+" = false
  labels : ∃ localPart domain, (lower.apply real).toList = localPart ++ '@' :: domain ∧
    '@' ∉ localPart ∧ '@' ∉ domain ∧ 1 ≤ domain.count '.' ∧ domain.count '.' ≤ 3

/-! ### The bracketed text -/

theorem instr_of_not_mem {cs : List Char} {c : Char} (h : c ∉ cs) : instr cs c = 0 := if_neg h

theorem instr_append {c : Char} {before after : List Char} (h : c ∉ before) :
    instr (before ++ c :: after) c = before.length + 1 := by
  rw [instr, if_pos (by simp), List.idxOf_append_of_notMem h, List.idxOf_cons_self, Nat.add_zero]

theorem instr_append_of_mem {c : Char} {before : List Char} (h : c ∈ before) (after : List Char) :
    instr (before ++ after) c ≤ before.length := by
  rw [instr, if_pos (List.mem_append_left _ h), List.idxOf_append_of_mem h]
  exact List.idxOf_lt_length_of_mem h

theorem bareAuthor_of_not_mem {author : List Char} (h : '<' ∉ author) :
    bareAuthor author = author := by
  rw [bareAuthor, instr_of_not_mem h, if_neg (by simp)]

theorem bareAuthor_of_early {before rest : List Char} (hopen : '<' ∉ before)
    (hclose : '>' ∈ before ∨ '>' ∉ rest) :
    bareAuthor (before ++ '<' :: rest) = before ++ '<' :: rest := by
  have hle : instr (before ++ '<' :: rest) '>' ≤ before.length := by
    by_cases hmem : '>' ∈ before
    · exact instr_append_of_mem hmem _
    · rw [instr_of_not_mem (by simp [hmem, hclose.resolve_left hmem])]
      exact Nat.zero_le _
  rw [bareAuthor, instr_append hopen, if_neg (by omega)]

theorem bareAuthor_bracketed {before inner after : List Char} (hopen : '<' ∉ before)
    (hbefore : '>' ∉ before) (hinner : '>' ∉ inner) :
    bareAuthor (before ++ '<' :: (inner ++ '>' :: after)) = inner := by
  have hclose : instr (before ++ '<' :: (inner ++ '>' :: after)) '>' =
      before.length + inner.length + 2 := by
    have happend : before ++ '<' :: (inner ++ '>' :: after) =
        (before ++ '<' :: inner) ++ '>' :: after := by simp
    rw [happend, instr_append (by simp [hbefore, hinner])]
    simp only [List.length_append, List.length_cons]
    omega
  rw [bareAuthor, instr_append hopen, hclose, if_pos (by omega), substr]
  have hdrop : (before ++ '<' :: (inner ++ '>' :: after)).drop (before.length + 1 + 1 - 1) =
      inner ++ '>' :: after := by
    rw [Nat.add_sub_cancel, ← List.drop_drop, List.drop_left]
    rfl
  rw [hdrop, show before.length + inner.length + 2 - (before.length + 1) - 1 = inner.length by omega,
    List.take_left]

/-- The database and the server take the same text out of the brackets. -/
theorem extractEmail_eq (author : String) :
    extractEmail author = rustTrim (String.ofList (bareAuthor author.toList)) := by
  by_cases hopen : '<' ∈ author.toList
  · obtain ⟨before, rest, hauthor, hbefore⟩ := List.eq_append_cons_of_mem hopen
    by_cases hclose : '>' ∈ rest
    · obtain ⟨inner, after, rfl, hinner⟩ := List.eq_append_cons_of_mem hclose
      rw [extractEmail_bracketed hauthor hbefore hinner]
      split_ifs with hearly
      · rw [hauthor, bareAuthor_of_early hbefore (.inl hearly), ← hauthor, String.ofList_toList]
      · rw [hauthor, bareAuthor_bracketed hbefore hearly hinner]
    · rw [extractEmail, hauthor, splitOnce_append hbefore]
      dsimp only
      rw [splitOnce_of_not_mem hclose, bareAuthor_of_early hbefore (.inr hclose), ← hauthor,
        String.ofList_toList]
  · rw [extractEmail_of_no_open hopen, bareAuthor_of_not_mem hopen, String.ofList_toList]

/-! ### The guesses for an author -/

variable {lower : LowercaseText}

theorem mem_foldl_decodedOnce {encoded : List Char} {real : String} (positions : List ℕ)
    (out : List String) : real ∈ positions.foldl (decodedOnce encoded) out ↔
      real ∈ out ∨ ∃ pos ∈ positions, real = decodeAt encoded pos := by
  induction positions generalizing out with
  | nil => simp
  | cons pos positions ih =>
    have hpush : real ∈ decodedOnce encoded out pos ↔
        real ∈ out ∨ real = decodeAt encoded pos := by
      rw [decodedOnce]
      split_ifs with h
      · rw [List.contains_iff_mem] at h
        exact ⟨.inl, fun hreal => hreal.elim id fun heq => heq ▸ h⟩
      · rw [List.mem_append, List.mem_singleton]
    rw [List.foldl_cons, ih, hpush, List.exists_mem_cons_iff, or_assoc]

theorem length_foldl_decodedOnce (encoded : List Char) (positions : List ℕ) (out : List String) :
    (positions.foldl (decodedOnce encoded) out).length ≤ out.length + positions.length := by
  induction positions generalizing out with
  | nil => exact Nat.le_refl _
  | cons pos positions ih =>
    have hpush : (decodedOnce encoded out pos).length ≤ out.length + 1 := by
      rw [decodedOnce]
      split_ifs <;> simp
    rw [List.foldl_cons, List.length_cons]
    have := ih (decodedOnce encoded out pos)
    omega

theorem length_authorEmailGuesses (email : String) : (authorEmailGuesses email).length ≤ 4 := by
  unfold authorEmailGuesses
  split
  · split_ifs
    · refine (length_foldl_decodedOnce _ _ _).trans ?_
      rw [List.length_singleton, List.length_take]
      omega
    · simp
  · split_ifs <;> simp

theorem mem_authorEmailGuesses_self (email : String) : email ∈ authorEmailGuesses email := by
  unfold authorEmailGuesses
  split
  · split_ifs
    · exact (mem_foldl_decodedOnce _ _).mpr (.inl List.mem_cons_self)
    · exact List.mem_cons_self
  · split_ifs <;> exact List.mem_cons_self

theorem mem_authorEmailCandidates {author guess : String} :
    guess ∈ authorEmailCandidates lower.apply author ↔
      guess ∈ authorEmailGuesses (lower.apply (extractEmail author)) := by
  unfold authorEmailCandidates
  dsimp only
  generalize lower.apply (extractEmail author) = email
  split_ifs with hempty
  · subst hempty
    rw [show authorEmailGuesses "" = [""] from rfl]
    simp
  · have hlength := length_authorEmailGuesses email
    have hself := mem_authorEmailGuesses_self email
    rw [List.take_of_length_le (by simp; omega), List.mem_append, List.mem_replicate]
    exact ⟨fun h => h.elim id fun h => h.2 ▸ hself, .inl⟩

/-- What is read as an alias has what it may stand for among the guesses. -/
theorem mem_guesses_of_alias {email guess : String} {encoded : List Char}
    (h : IsRelayAlias email encoded) : guess ∈ authorEmailGuesses email ↔ guess = email ∨
      ∃ before after, SplitsAt encoded before after ∧
        guess = String.ofList (before ++ '@' :: after) := by
  obtain ⟨relayDomain, hdomain, heq⟩ := h
  rw [authorEmailGuesses, (relayParts_eq_some_iff hdomain).mpr heq]
  dsimp only
  rw [if_pos hdomain, mem_foldl_decodedOnce, List.mem_singleton]
  refine or_congr_right ⟨?_, ?_⟩
  · rintro ⟨pos, hpos, rfl⟩
    obtain ⟨before, after, hsplit, rfl⟩ := mem_tried.mp hpos
    exact ⟨before, after, hsplit, by rw [hsplit.1, decodeAt_append]⟩
  · rintro ⟨before, after, hsplit, rfl⟩
    exact ⟨before.length, mem_tried.mpr ⟨before, after, hsplit, rfl⟩,
      by rw [hsplit.1, decodeAt_append]⟩

theorem exists_rsplitOnce {c : Char} {cs : List Char} (h : c ∈ cs) :
    ∃ p, rsplitOnce c cs = some p := by
  obtain ⟨before, after, heq, hbefore⟩ := List.eq_append_cons_of_mem (List.mem_reverse.mpr h)
  rw [rsplitOnce, heq, splitOnce_append hbefore]
  exact ⟨_, rfl⟩

theorem startsWithText_eq_false {email pre : String} :
    startsWithText email pre = false ↔ stripChars? pre.toList email.toList = none := by
  rw [startsWithText, stripChars?]
  split_ifs with h <;> simp [h]

theorem mem_guesses_of_real {email guess : String}
    (hno : startsWithText email "devnull+" = false) (hat : '@' ∈ email.toList) :
    guess ∈ authorEmailGuesses email ↔ guess = email ∨ ∃ relayDomain ∈ relayDomains,
      guess = relayAlias (replaceChar email '@' '.').toList relayDomain := by
  rw [authorEmailGuesses, startsWithText_eq_false.mp hno]
  dsimp only [Option.bind_none]
  rw [if_pos hat]
  simp [relayDomains]

theorem toList_relayAlias (encoded relayDomain : List Char) :
    (relayAlias encoded relayDomain).toList =
      "devnull+".toList ++ (encoded ++ '@' :: relayDomain) := String.toList_ofList

theorem length_relayAlias (encoded relayDomain : List Char) :
    (relayAlias encoded relayDomain).toList.length =
      encoded.length + relayDomain.length + 9 := by
  have hprefix : "devnull+".toList.length = 8 := by decide
  rw [toList_relayAlias, List.length_append, List.length_append, List.length_cons, hprefix]
  omega

theorem length_decoded {encoded before after : List Char} (h : encoded = before ++ '.' :: after) :
    (String.ofList (before ++ '@' :: after)).toList.length = encoded.length := by
  rw [String.toList_ofList, h, List.length_append, List.length_append]
  rfl

/-- A guess is the address, or what it may stand for as an alias, or an alias of it. -/
theorem guess_cases {email guess : String} (h : guess ∈ authorEmailGuesses email) :
    guess = email ∨
      (∃ encoded before after, IsRelayAlias email encoded ∧ SplitsAt encoded before after ∧
        guess = String.ofList (before ++ '@' :: after)) ∨
      (startsWithText email "devnull+" = false ∧ '@' ∈ email.toList ∧
        ∃ relayDomain ∈ relayDomains,
          guess = relayAlias (replaceChar email '@' '.').toList relayDomain) := by
  rcases hparts : (stripChars? "devnull+".toList email.toList).bind (rsplitOnce '@')
    with _ | ⟨encoded, relayDomain⟩
  · by_cases hat : '@' ∈ email.toList
    · have hno : startsWithText email "devnull+" = false := by
        rw [startsWithText_eq_false]
        rcases hstrip : stripChars? "devnull+".toList email.toList with _ | rest
        · rfl
        · rw [hstrip, Option.bind_some] at hparts
          have heq := stripChars?_eq_some_iff.mp hstrip
          have hrest : '@' ∈ rest := by
            rw [heq, List.mem_append] at hat
            exact hat.resolve_left (by decide)
          obtain ⟨p, hp⟩ := exists_rsplitOnce hrest
          rw [hp] at hparts
          cases hparts
      exact ((mem_guesses_of_real hno hat).mp h).imp_right fun h => .inr ⟨hno, hat, h⟩
    · rw [authorEmailGuesses, hparts] at h
      dsimp only at h
      rw [if_neg hat, List.mem_singleton] at h
      exact .inl h
  · by_cases hdomain : relayDomain ∈ relayDomains
    · have heq := (relayParts_eq_some_iff hdomain).mp hparts
      refine ((mem_guesses_of_alias ⟨relayDomain, hdomain, heq⟩).mp h).imp_right ?_
      rintro ⟨before, after, hsplit, rfl⟩
      exact .inl ⟨encoded, before, after, ⟨relayDomain, hdomain, heq⟩, hsplit, rfl⟩
    · rw [authorEmailGuesses, hparts] at h
      dsimp only at h
      rw [if_neg hdomain, List.mem_singleton] at h
      exact .inl h

/-! ### What the database computes -/

/-- The spaces that `TRIM` takes. -/
theorem exists_sqlTrim (cs : List Char) : ∃ m n,
    cs = List.replicate m ' ' ++ sqlTrim cs ++ List.replicate n ' ' := by
  have hspaces : ∀ xs : List Char, (∀ c ∈ xs, decide (c = ' ') = true) →
      xs = List.replicate xs.length ' ' := fun xs h =>
    List.eq_replicate_of_mem fun c hc => of_decide_eq_true (h c hc)
  refine ⟨(cs.takeWhile (· = ' ')).length, ((cs.dropWhile (· = ' ')).rtakeWhile (· = ' ')).length,
    ?_⟩
  rw [← hspaces _ fun c => List.mem_takeWhile_imp, ← hspaces _ fun c => List.mem_rtakeWhile_imp,
    List.append_assoc, sqlTrim, trimMatches, List.rdropWhile_append_rtakeWhile,
    List.takeWhile_append_dropWhile]

theorem white_replicate (n : ℕ) : ∀ c ∈ List.replicate n ' ', isRustWhitespace c = true := by
  intro c hc
  rw [List.eq_of_mem_replicate hc]
  decide

theorem trimChars_sqlTrim (cs : List Char) : trimChars (sqlTrim cs) = trimChars cs := by
  obtain ⟨m, n, heq⟩ := exists_sqlTrim cs
  conv_rhs => rw [heq]
  rw [List.append_assoc, trimChars_append_white (white_replicate m),
    trimChars_append_trailing (white_replicate n)]

theorem head_trimmed {first : Char} {mid : List Char}
    (h : trimChars (first :: mid) = first :: mid) : isRustWhitespace first = false := by
  by_contra hspace
  rw [Bool.not_eq_false] at hspace
  have hmid : trimChars ([first] ++ mid) = trimChars mid :=
    trimChars_append_white fun c hc => List.mem_singleton.mp hc ▸ hspace
  have hlength := (trimChars_within mid).length_le
  rw [← hmid, List.singleton_append, h, List.length_cons] at hlength
  omega

theorem last_trimmed {front : List Char} {last : Char}
    (h : trimChars (front ++ [last]) = front ++ [last]) : isRustWhitespace last = false := by
  by_contra hspace
  rw [Bool.not_eq_false] at hspace
  have hfront : trimChars (front ++ [last]) = trimChars front :=
    trimChars_append_trailing fun c hc => List.mem_singleton.mp hc ▸ hspace
  have hlength := (trimChars_within front).length_le
  rw [← hfront, h, List.length_append, List.length_singleton] at hlength
  omega

theorem ne_space_of_not_white {c : Char} (h : isRustWhitespace c = false) :
    decide (c = ' ') = false := by
  rw [decide_eq_false_iff_not]
  rintro rfl
  cases h

/-- Both trims take the same exactly if all the white space around is spaces. -/
theorem sqlTrim_eq_iff {cs : List Char} : sqlTrim cs = trimChars cs ↔
    ∃ m n, cs = List.replicate m ' ' ++ trimChars cs ++ List.replicate n ' ' := by
  refine ⟨fun h => h ▸ exists_sqlTrim cs, ?_⟩
  rintro ⟨m, n, heq⟩
  have htrimmed := trimChars_idempotent cs
  revert heq htrimmed
  generalize trimChars cs = address
  rintro rfl htrimmed
  have hspaces : ∀ k, ∀ c ∈ List.replicate k ' ', decide (c = ' ') = true :=
    fun k c hc => decide_eq_true (List.eq_of_mem_replicate hc)
  rw [sqlTrim, trimMatches, List.append_assoc, List.dropWhile_append_of_pos (hspaces m)]
  rcases address.eq_nil_or_concat with rfl | ⟨front, last, rfl⟩
  · rw [List.nil_append, List.dropWhile_eq_nil_iff.mpr (hspaces n)]
    rfl
  · rw [List.concat_eq_append] at htrimmed ⊢
    have hfirst : ((front ++ [last]) ++ List.replicate n ' ').dropWhile (· = ' ') =
        (front ++ [last]) ++ List.replicate n ' ' := by
      rcases hx : front ++ [last] with _ | ⟨first, mid⟩
      · simp at hx
      · rw [hx] at htrimmed
        rw [List.cons_append, List.dropWhile_cons_of_neg]
        simp [ne_space_of_not_white (head_trimmed htrimmed)]
    rw [hfirst]
    clear hfirst
    induction n with
    | zero =>
      rw [List.replicate_zero, List.append_nil, List.rdropWhile_concat_neg]
      simp [ne_space_of_not_white (last_trimmed htrimmed)]
    | succ n ih =>
      rw [List.replicate_succ', ← List.append_assoc, List.rdropWhile_concat_pos _ _ _ (by simp)]
      exact ih

theorem toList_extractEmail (author : String) :
    (extractEmail author).toList = trimChars (sqlTrim (bareAuthor author.toList)) := by
  rw [extractEmail_eq, toList_rustTrim, String.toList_ofList, trimChars_sqlTrim]

theorem toList_authorEmailExpr (author : String) : (authorEmailExpr author).toList =
    (sqlTrim (bareAuthor author.toList)).map Char.toLower := String.toList_ofList

theorem toList_asciiLower (s : String) : (asciiLower s).toList = s.toList.map Char.toLower :=
  String.toList_ofList

theorem spaces_iff {author : String} :
    (∃ m n, bareAuthor author.toList =
      List.replicate m ' ' ++ (extractEmail author).toList ++ List.replicate n ' ') ↔
    sqlTrim (bareAuthor author.toList) = (extractEmail author).toList := by
  rw [toList_extractEmail, trimChars_sqlTrim, sqlTrim_eq_iff]

/-- An address that is as long as what the database computes is what the database takes. -/
theorem spaces_of_length {author : String}
    (h : (authorEmailExpr author).toList.length ≤ (extractEmail author).toList.length) :
    sqlTrim (bareAuthor author.toList) = (extractEmail author).toList := by
  rw [toList_authorEmailExpr, List.length_map, toList_extractEmail] at h
  rw [toList_extractEmail]
  exact (List.IsInfix.eq_of_length_le (trimChars_within _) h).symm

theorem length_extractEmail_le (author : String) :
    (extractEmail author).toList.length ≤ (authorEmailExpr author).toList.length := by
  rw [toList_authorEmailExpr, List.length_map, toList_extractEmail]
  exact (trimChars_within _).length_le

theorem endsVisibly_relayDomain {relayDomain : List Char} (h : relayDomain ∈ relayDomains) :
    EndsVisibly relayDomain := by
  rcases List.mem_cons.mp h with rfl | h
  · exact ⟨'g', by decide, by decide⟩
  · rw [List.mem_singleton.mp h]
    exact ⟨'v', by decide, by decide⟩

/-- What starts and ends like an alias has no white space around it. -/
theorem spaces_of_alias {author : String} {encoded relayDomain : List Char}
    (hdomain : relayDomain ∈ relayDomains)
    (h : authorEmailExpr author = relayAlias encoded relayDomain) :
    sqlTrim (bareAuthor author.toList) = (extractEmail author).toList := by
  rw [toList_extractEmail]
  have hlist := (toList_authorEmailExpr author).symm.trans
    ((congrArg String.toList h).trans (toList_relayAlias encoded relayDomain))
  generalize sqlTrim (bareAuthor author.toList) = stored at hlist
  obtain ⟨first, mid, rfl, hstart⟩ : ∃ first mid, stored = first :: mid ∧
      isRustWhitespace first = false := by
    cases stored with
    | nil => cases hlist
    | cons first mid =>
      refine ⟨first, mid, rfl, ?_⟩
      rw [← isRustWhitespace_toLower, (List.cons.inj hlist).1]
      decide
  obtain ⟨last, hlast, hend⟩ : ∃ last, (first :: mid).getLast? = some last ∧
      isRustWhitespace last = false := by
    obtain ⟨c, hc, hspace⟩ := endsVisibly_relayDomain hdomain
    have hmap : ((first :: mid).map Char.toLower).getLast? = some c := by
      rw [hlist, List.getLast?_append, List.getLast?_append,
        List.getLast?_cons_of_ne_nil (by rintro rfl; cases hc), hc, Option.some_or, Option.some_or]
    rw [List.getLast?_map] at hmap
    obtain ⟨last, hlast, rfl⟩ := Option.map_eq_some_iff.mp hmap
    exact ⟨last, hlast, (isRustWhitespace_toLower last).symm.trans hspace⟩
  have htrim := rustTrim_eq_self (s := String.ofList (first :: mid)) String.toList_ofList
    (by rwa [String.toList_ofList]) hstart hend
  exact (String.ofList_injective (by rw [← htrim, rustTrim, String.toList_ofList]; rfl)).symm

/-! ### Lower case -/

theorem stays_ascii {c : Char} (hc : c.toNat < 128) (hlower : c.toLower = c) :
    lower.stays c = true := by
  have happly : lower.apply (String.singleton c) = String.singleton c := by
    rw [lower.ascii _ (by simp [Nat.not_le.mpr hc])]
    exact String.toList_injective (by simp [asciiLower, hlower])
  exact (lower.apply_eq_self _).mp happly c (by simp)

theorem apply_apply (s : String) : lower.apply (lower.apply s) = lower.apply s :=
  (lower.apply_eq_self _).mpr (lower.settled s)

/-- The letters outside ASCII of what the database computes are those of the author. -/
theorem letters_of_settled {author : String}
    (h : ∀ c ∈ (authorEmailExpr author).toList, lower.stays c = true) :
    ∀ c ∈ (extractEmail author).toList, 128 ≤ c.toNat → lower.stays c = true := by
  intro c hc hbig
  rw [toList_extractEmail] at hc
  have hmem := (trimChars_within _).subset hc
  have hsame : c.toLower = c := (toLower_cases c).resolve_right (by omega)
  refine h c ?_
  rw [toList_authorEmailExpr]
  exact List.mem_map.mpr ⟨c, hmem, hsame⟩

theorem authorEmailExpr_eq_iff {author : String} :
    authorEmailExpr author = lower.apply (extractEmail author) ↔ StoredPlainly lower author := by
  constructor
  · intro h
    have hletters : ∀ c ∈ (extractEmail author).toList, 128 ≤ c.toNat → lower.stays c = true :=
      letters_of_settled (h ▸ lower.settled _)
    refine ⟨spaces_iff.mpr (spaces_of_length ?_), hletters⟩
    rw [h, lower.ascii _ hletters, toList_asciiLower, List.length_map]
  · rintro ⟨hspaces, hletters⟩
    rw [lower.ascii _ hletters, asciiLower, authorEmailExpr, spaces_iff.mp hspaces]

theorem stays_replaceAt {s : String} (h : ∀ c ∈ s.toList, lower.stays c = true) :
    ∀ c ∈ (replaceChar s '@' '.').toList, lower.stays c = true := by
  intro c hc
  rw [replaceChar, String.toList_ofList] at hc
  obtain ⟨x, hx, rfl⟩ := List.mem_map.mp hc
  split_ifs
  · exact stays_ascii (by decide) (by decide)
  · exact h x hx

theorem stays_relayAlias {encoded relayDomain : List Char} (hdomain : relayDomain ∈ relayDomains)
    (h : ∀ c ∈ encoded, lower.stays c = true) :
    ∀ c ∈ (relayAlias encoded relayDomain).toList, lower.stays c = true := by
  have hfixed : ∀ part : List Char, (part.all fun c => c.toNat < 128 && c.toLower = c) = true →
      ∀ c ∈ part, lower.stays c = true := by
    intro part hpart c hc
    have := List.all_eq_true.mp hpart c hc
    rw [Bool.and_eq_true, decide_eq_true_iff, decide_eq_true_iff] at this
    exact stays_ascii this.1 this.2
  intro c hc
  rw [toList_relayAlias, List.mem_append, List.mem_append, List.mem_cons] at hc
  rcases hc with hc | hc | rfl | hc
  · exact hfixed _ (by decide) c hc
  · exact h c hc
  · exact lower.at_stays
  · refine hfixed relayDomain ?_ c hc
    rcases List.mem_cons.mp hdomain with rfl | hdomain
    · decide
    · rw [List.mem_singleton.mp hdomain]
      decide

/-- Every guess for an author is in lower case. -/
theorem settled_guess {author guess : String}
    (h : guess ∈ authorEmailGuesses (lower.apply author)) :
    ∀ c ∈ guess.toList, lower.stays c = true := by
  have hown := lower.settled author
  rcases guess_cases h with rfl | ⟨encoded, before, after, ⟨relayDomain, -, heq⟩, hsplit, rfl⟩ |
    ⟨-, -, relayDomain, hdomain, rfl⟩
  · exact hown
  · intro c hc
    rw [String.toList_ofList, List.mem_append, List.mem_cons] at hc
    rw [heq, hsplit.1] at hown
    rcases hc with hc | rfl | hc
    · exact hown c (by simp [hc])
    · exact lower.at_stays
    · exact hown c (by simp [hc])
  · exact stays_relayAlias hdomain (stays_replaceAt hown)

theorem IsRelayAlias.length_lt {email : String} {encoded : List Char}
    (h : IsRelayAlias email encoded) : encoded.length < email.toList.length := by
  obtain ⟨relayDomain, -, heq⟩ := h
  rw [heq, List.length_append, List.length_append, List.length_cons]
  omega

theorem length_replaceAt (s : String) : (replaceChar s '@' '.').toList.length = s.toList.length := by
  rw [replaceChar, String.toList_ofList, List.length_map]

variable {a b : String}

theorem length_apply {s : String}
    (h : ∀ c ∈ s.toList, 128 ≤ c.toNat → lower.stays c = true) :
    (lower.apply s).toList.length = s.toList.length := by
  rw [lower.ascii s h, toList_asciiLower, List.length_map]

/-- A guess that is at least as long as the address, and not the alias of something else, shows
that the address is stored plainly. -/
theorem storedPlainly_of_relayAlias {encoded relayDomain : List Char}
    (hdomain : relayDomain ∈ relayDomains)
    (hletters : ∀ c ∈ (extractEmail a).toList, 128 ≤ c.toNat → lower.stays c = true)
    (h : authorEmailExpr a = relayAlias encoded relayDomain) : StoredPlainly lower a :=
  ⟨spaces_iff.mpr (spaces_of_alias hdomain h), hletters⟩

/-! ### Equal addresses -/

theorem candidates_of_equal (h : eqIgnoreAsciiCase (extractEmail a) (extractEmail b) = true)
    (ha : StoredPlainly lower a) (hb : StoredPlainly lower b) :
    authorEmailExpr a ∈ authorEmailCandidates lower.apply b := by
  have hsame : lower.apply (extractEmail a) = lower.apply (extractEmail b) := by
    rw [lower.ascii _ ha.letters, lower.ascii _ hb.letters]
    exact of_decide_eq_true h
  rw [mem_authorEmailCandidates, authorEmailExpr_eq_iff.mpr ha, hsame]
  exact mem_authorEmailGuesses_self _

theorem storedPlainly_of_equal
    (h : eqIgnoreAsciiCase (extractEmail a) (extractEmail b) = true)
    (hb : ∀ c ∈ (extractEmail b).toList, 128 ≤ c.toNat → lower.stays c = true)
    (hmem : authorEmailExpr a ∈ authorEmailCandidates lower.apply b) : StoredPlainly lower a := by
  rw [mem_authorEmailCandidates] at hmem
  have hletters := letters_of_settled (settled_guess hmem)
  have hsame : lower.apply (extractEmail a) = lower.apply (extractEmail b) := by
    rw [lower.ascii _ hletters, lower.ascii _ hb]
    exact of_decide_eq_true h
  have hle := length_extractEmail_le a
  rw [← length_apply hletters] at hle
  rcases guess_cases hmem with heq | ⟨encoded, before, after, halias, hsplit, heq⟩ |
    ⟨-, -, relayDomain, hdomain, heq⟩
  · exact authorEmailExpr_eq_iff.mp (heq.trans hsame.symm)
  · have := halias.length_lt
    rw [heq, length_decoded hsplit.1, hsame] at hle
    omega
  · exact storedPlainly_of_relayAlias hdomain hletters heq

/-! ### An address and its alias -/

/-- What the alias test takes, whatever the case of the alias. -/
theorem isB4Alias_lowered (h : isB4Alias lower.apply (extractEmail a) (extractEmail b) = true) :
    IsRelayAlias (lower.apply (extractEmail a))
      (replaceChar (lower.apply (extractEmail b)) '@' '.').toList := by
  have hlowered : isB4Alias lower.apply (lower.apply (extractEmail a)) (extractEmail b) = true := by
    rw [isB4Alias, apply_apply]
    exact h
  obtain ⟨encoded, halias, -, rfl⟩ := (isB4Alias_iff (apply_apply _)).mp hlowered
  exact halias

theorem alias_mem_candidates_iff
    (h : isB4Alias lower.apply (extractEmail a) (extractEmail b) = true) :
    authorEmailExpr a ∈ authorEmailCandidates lower.apply b ↔ StoredPlainly lower a ∧
      startsWithText (lower.apply (extractEmail b)) "devnull+" = false ∧
      '@' ∈ (lower.apply (extractEmail b)).toList := by
  have halias := isB4Alias_lowered h
  have hlonger := halias.length_lt
  rw [length_replaceAt] at hlonger
  rw [mem_authorEmailCandidates]
  constructor
  · intro hmem
    have hletters := letters_of_settled (settled_guess hmem)
    have hle := length_extractEmail_le a
    rw [← length_apply hletters] at hle
    rcases guess_cases hmem with heq | ⟨encoded, before, after, halias', hsplit, heq⟩ |
      ⟨hno, hat, relayDomain, hdomain, heq⟩
    · rw [heq] at hle
      omega
    · have := halias'.length_lt
      rw [heq, length_decoded hsplit.1] at hle
      omega
    · exact ⟨storedPlainly_of_relayAlias hdomain hletters heq, hno, hat⟩
  · rintro ⟨hplain, hno, hat⟩
    obtain ⟨relayDomain, hdomain, heq⟩ := halias
    refine (mem_guesses_of_real hno hat).mpr (.inr ⟨relayDomain, hdomain, ?_⟩)
    rw [authorEmailExpr_eq_iff.mpr hplain]
    exact String.toList_injective (heq.trans (toList_relayAlias _ _).symm)

theorem real_mem_candidates_iff
    (h : isB4Alias lower.apply (extractEmail a) (extractEmail b) = true) :
    authorEmailExpr b ∈ authorEmailCandidates lower.apply a ↔ StoredPlainly lower b ∧
      ∃ localPart domain, (lower.apply (extractEmail b)).toList = localPart ++ '@' :: domain ∧
        '@' ∉ localPart ∧ '@' ∉ domain ∧ 1 ≤ domain.count '.' ∧ domain.count '.' ≤ 3 := by
  have halias := isB4Alias_lowered h
  have hlonger := halias.length_lt
  rw [length_replaceAt] at hlonger
  rw [mem_authorEmailCandidates, mem_guesses_of_alias halias]
  constructor
  · intro hmem
    have hletters := letters_of_settled
      (@settled_guess lower _ _ ((mem_guesses_of_alias halias).mpr hmem))
    rcases hmem with heq | ⟨before, after, hsplit, heq⟩
    · obtain ⟨relayDomain, hdomain, hparts⟩ := halias
      have hrelay : authorEmailExpr b = relayAlias _ relayDomain :=
        heq.trans (String.toList_injective (hparts.trans (toList_relayAlias _ _).symm))
      have hplain := storedPlainly_of_relayAlias hdomain hletters hrelay
      rw [← heq, authorEmailExpr_eq_iff.mpr hplain] at hlonger
      omega
    · have hlength : (authorEmailExpr b).toList.length = (extractEmail b).toList.length := by
        rw [heq, length_decoded hsplit.1, length_replaceAt, length_apply hletters]
      have hplain : StoredPlainly lower b :=
        ⟨spaces_iff.mpr (spaces_of_length hlength.le), hletters⟩
      rw [authorEmailExpr_eq_iff.mpr hplain] at heq
      have hat := at_not_mem_replaceAt (lower.apply (extractEmail b))
      rw [hsplit.1, List.mem_append, List.mem_cons, not_or, not_or] at hat
      exact ⟨hplain, before, after, by rw [heq, String.toList_ofList], hat.1, hat.2.2,
        hsplit.2.1, hsplit.2.2⟩
  · rintro ⟨hplain, localPart, domain, hparts, hlocal, hdomain, hone, hthree⟩
    rw [authorEmailExpr_eq_iff.mpr hplain]
    refine .inr ⟨localPart, domain, ⟨toList_replaceAt hparts hlocal hdomain, hone, hthree⟩, ?_⟩
    rw [← hparts, String.ofList_toList]

/-! ### Two authors that are one person -/

theorem not_alias_of_equal (h : lower.apply (extractEmail a) = lower.apply (extractEmail b)) :
    isB4Alias lower.apply (extractEmail a) (extractEmail b) ≠ true := by
  intro halias
  have hlonger := (isB4Alias_lowered halias).length_lt
  rw [length_replaceAt, h] at hlonger
  omega

theorem apply_eq_of_equal (h : eqIgnoreAsciiCase (extractEmail a) (extractEmail b) = true)
    (ha : StoredPlainly lower a) (hb : StoredPlainly lower b) :
    lower.apply (extractEmail a) = lower.apply (extractEmail b) := by
  rw [lower.ascii _ ha.letters, lower.ascii _ hb.letters]
  exact of_decide_eq_true h

theorem candidates_iff_of_equal
    (h : eqIgnoreAsciiCase (extractEmail a) (extractEmail b) = true) :
    (authorEmailExpr a ∈ authorEmailCandidates lower.apply b ∧
      authorEmailExpr b ∈ authorEmailCandidates lower.apply a) ↔
    StoredPlainly lower a ∧ StoredPlainly lower b := by
  have hsymm : eqIgnoreAsciiCase (extractEmail b) (extractEmail a) = true :=
    decide_eq_true (of_decide_eq_true h).symm
  constructor
  · rintro ⟨ha, hb⟩
    have hlettersA := letters_of_settled (settled_guess (mem_authorEmailCandidates.mp ha))
    have hlettersB := letters_of_settled (settled_guess (mem_authorEmailCandidates.mp hb))
    exact ⟨storedPlainly_of_equal h hlettersB ha, storedPlainly_of_equal hsymm hlettersA hb⟩
  · rintro ⟨ha, hb⟩
    exact ⟨candidates_of_equal h ha hb, candidates_of_equal hsymm hb ha⟩

theorem candidates_iff_of_alias
    (h : isB4Alias lower.apply (extractEmail a) (extractEmail b) = true) :
    (authorEmailExpr a ∈ authorEmailCandidates lower.apply b ∧
      authorEmailExpr b ∈ authorEmailCandidates lower.apply a) ↔
    StoredPlainly lower a ∧ StoredPlainly lower b ∧ RelayedPlainly lower (extractEmail b) := by
  rw [alias_mem_candidates_iff h, real_mem_candidates_iff h]
  constructor
  · rintro ⟨⟨ha, hno, -⟩, hb, hlabels⟩
    exact ⟨ha, hb, hno, hlabels⟩
  · rintro ⟨ha, hb, hno, localPart, domain, hparts, hlabels⟩
    exact ⟨⟨ha, hno, by simp [hparts]⟩, hb, localPart, domain, hparts, hlabels⟩

/-- Whoever counts as the author is found by the index, in both directions, if and only if both are
stored plainly and an address that is matched through the relay is one that the guesses reach. -/
theorem author_candidates_iff (lower : LowercaseText) {a b : String}
    (h : eqIgnoreAsciiCase (extractEmail a) (extractEmail b) = true ∨
      authorsMatch lower.apply a b = true) :
    (authorEmailExpr a ∈ authorEmailCandidates lower.apply b ∧
      authorEmailExpr b ∈ authorEmailCandidates lower.apply a) ↔
    StoredPlainly lower a ∧ StoredPlainly lower b ∧
      (isB4Alias lower.apply (extractEmail a) (extractEmail b) = true →
        RelayedPlainly lower (extractEmail b)) ∧
      (isB4Alias lower.apply (extractEmail b) (extractEmail a) = true →
        RelayedPlainly lower (extractEmail a)) := by
  have hexclusive : isB4Alias lower.apply (extractEmail a) (extractEmail b) = true →
      isB4Alias lower.apply (extractEmail b) (extractEmail a) = true → False := by
    intro hab hba
    have hlonger := (isB4Alias_lowered hab).length_lt
    have hlonger' := (isB4Alias_lowered hba).length_lt
    rw [length_replaceAt] at hlonger hlonger'
    omega
  by_cases hequal : eqIgnoreAsciiCase (extractEmail a) (extractEmail b) = true
  · rw [candidates_iff_of_equal hequal]
    refine and_congr_right fun ha => (and_iff_left_of_imp fun hb => ?_).symm
    have hsame := apply_eq_of_equal hequal ha hb
    exact ⟨fun halias => absurd halias (not_alias_of_equal hsame),
      fun halias => absurd halias (not_alias_of_equal hsame.symm)⟩
  · have hmatch := h.resolve_left hequal
    rw [authorsMatch, Bool.or_eq_true, Bool.or_eq_true, decide_eq_true_iff] at hmatch
    rcases hmatch with hsame | hab | hba
    · exact absurd (decide_eq_true (congrArg asciiLower hsame)) hequal
    · rw [candidates_iff_of_alias hab]
      refine and_congr_right fun _ => and_congr_right fun _ => ⟨fun hreal => ?_, fun hreal => ?_⟩
      · exact ⟨fun _ => hreal, fun hba => (hexclusive hab hba).elim⟩
      · exact hreal.1 hab
    · rw [and_comm, candidates_iff_of_alias hba]
      constructor
      · rintro ⟨hb, ha, hreal⟩
        exact ⟨ha, hb, fun hab => (hexclusive hab hba).elim, fun _ => hreal⟩
      · rintro ⟨ha, hb, -, hreal⟩
        exact ⟨hb, ha, hreal hba⟩

/-- What `same_author_email` accepts is among what the index has to find. -/
theorem sameAuthorEmail_found (h : sameAuthorEmail lower.apply a b = true) :
    eqIgnoreAsciiCase (extractEmail a) (extractEmail b) = true ∨
      authorsMatch lower.apply a b = true := by
  rw [sameAuthorEmail, Bool.and_eq_true, Bool.or_eq_true] at h
  exact h.2

/-- Lower case where only the ASCII letters have one. -/
def asciiText : LowercaseText where
  toLowercaseByChar := asciiByChar
  settled s c hc := by
    change c ∈ (asciiLower s).toList at hc
    rw [toList_asciiLower] at hc
    obtain ⟨x, -, rfl⟩ := List.mem_map.mp hc
    exact decide_eq_true (toLower_idempotent x)
  ascii _ _ := rfl

theorem letters_of_ascii {s : String} (h : (s.toList.all fun c => c.toNat < 128) = true) :
    ∀ c ∈ s.toList, 128 ≤ c.toNat → lower.stays c = true := by
  intro c hc hbig
  have := of_decide_eq_true (List.all_eq_true.mp h c hc)
  omega

theorem author_candidates_ann :
    authorsMatch asciiText.apply "Ann <devnull+ann.b.org@kernel.org>" "Ann <Ann@b.org>" = true ∧
    authorEmailExpr "Ann <devnull+ann.b.org@kernel.org>" ∈
      authorEmailCandidates asciiText.apply "Ann <Ann@b.org>" ∧
    authorEmailExpr "Ann <Ann@b.org>" ∈
      authorEmailCandidates asciiText.apply "Ann <devnull+ann.b.org@kernel.org>" := by
  have hmatch : authorsMatch asciiText.apply "Ann <devnull+ann.b.org@kernel.org>"
      "Ann <Ann@b.org>" = true := by decide
  have hreverse : isB4Alias asciiText.apply (extractEmail "Ann <Ann@b.org>")
      (extractEmail "Ann <devnull+ann.b.org@kernel.org>") = false := by decide
  refine ⟨hmatch, (author_candidates_iff asciiText (.inr hmatch)).mpr
    ⟨⟨⟨0, 0, by decide⟩, letters_of_ascii (by decide)⟩,
      ⟨⟨0, 0, by decide⟩, letters_of_ascii (by decide)⟩, fun _ => ?_, fun h => ?_⟩⟩
  · exact ⟨by decide, "ann".toList, "b.org".toList, by decide, by decide, by decide,
      by decide, by decide⟩
  · rw [hreverse] at h
    cases h

/-- A domain of five labels is not among the guesses for its alias. -/
theorem five_labels_unguessed :
    authorsMatch asciiText.apply "ann@lab.cs.uni.ac.uk"
      "Ann <devnull+ann.lab.cs.uni.ac.uk@kernel.org>" = true ∧
    authorEmailExpr "ann@lab.cs.uni.ac.uk" ∉
      authorEmailCandidates asciiText.apply "Ann <devnull+ann.lab.cs.uni.ac.uk@kernel.org>" := by
  decide

end Sashiko
