import Sashiko.Authority.Relay
import Sashiko.Lib.Hops

/-! `.mailmap`: the lines that are read into the map, and the identity that an address is given. -/

namespace Sashiko

/-- The line up to a `#` that is in no brackets. -/
def stripMailmapComment : Bool → List Char → List Char
  | _, [] => []
  | inBrackets, c :: cs =>
    if c = '#' && !inBrackets then []
    else c :: stripMailmapComment (if c = '<' then true else if c = '>' then false else inBrackets) cs

def textBetween (s : List Char) (first last : ℕ) : List Char := (s.drop first).take (last - first)

/-- The spans in angle brackets from `pos` on: where each opens and closes, and what is inside. -/
def bracketedSpansFrom (s : List Char) : ℕ → Option ℕ → List Char → List (ℕ × ℕ × List Char)
  | _, _, [] => []
  | pos, openIdx, c :: cs =>
    if c = '<' then bracketedSpansFrom s (pos + 1) (some pos) cs
    else if c = '>' then
      match openIdx with
      | some start =>
        if pos > start + 1 then
          (start, pos, textBetween s (start + 1) pos) :: bracketedSpansFrom s (pos + 1) none cs
        else bracketedSpansFrom s (pos + 1) none cs
      | none => bracketedSpansFrom s (pos + 1) none cs
    else bracketedSpansFrom s (pos + 1) openIdx cs

def extractBracketedSpans (s : List Char) : List (ℕ × ℕ × List Char) :=
  bracketedSpansFrom s 0 none s

def normalizeDisplayName (raw : List Char) : String :=
  asciiLower (String.ofList
    (joinWords (splitWhitespace (trimMatches (· = '"') (trimChars raw)))))

structure Mailmap where
  emailToCanonical : List (String × String)
  nameEmailToCanonical : List ((String × String) × String)
  knownCanonicals : List String

namespace Mailmap

def empty : Mailmap := ⟨[], [], []⟩

/-- Two addresses: the second is read as the first, under the name between them if there is one. -/
def insertPair (m : Mailmap) (between : List Char) (properEmail commitEmail : String) : Mailmap :=
  if between = [] then
    if commitEmail ≠ properEmail then
      { m with emailToCanonical := (commitEmail, properEmail) :: m.emailToCanonical }
    else m
  else if normalizeDisplayName between ≠ "" then
    { m with nameEmailToCanonical :=
        ((normalizeDisplayName between, commitEmail), properEmail) :: m.nameEmailToCanonical }
  else m

def insertMailmapLine (m : Mailmap) (rawLine : List Char) : Mailmap :=
  let stripped := trimChars (stripMailmapComment false rawLine)
  match extractBracketedSpans stripped with
  | [] => m
  | [(_, _, onlyEmail)] =>
    match normalizeEmailToken (String.ofList onlyEmail) with
    | some clean => { m with knownCanonicals := clean :: m.knownCanonicals }
    | none => m
  | (_, endFirst, properRaw) :: (startSecond, _, commitRaw) :: _ =>
    match normalizeEmailToken (String.ofList properRaw),
      normalizeEmailToken (String.ofList commitRaw) with
    | some properEmail, some commitEmail =>
      insertPair { m with knownCanonicals := properEmail :: m.knownCanonicals }
        (trimChars (textBetween stripped (endFirst + 1) startSecond)) properEmail commitEmail
    | _, _ => m

def fromReader (text : String) : Mailmap := (linesOf text.toList).foldl insertMailmapLine empty

/-- The address that the lookup takes next. -/
def nextEmail (m : Mailmap) (current : String) : Option String :=
  (m.emailToCanonical.lookup current).filter (· ≠ current)

/-- The text that is looked up for an address. -/
def lookupKey (email : String) : String := asciiLower (trimQuotes (rustTrim email))

/-- The address that a name and an address are mapped to together, or the address itself. -/
def namedEmail (m : Mailmap) (displayName : Option String) (current : String) : String :=
  match displayName with
  | some name =>
    if normalizeDisplayName name.toList ≠ "" then
      (m.nameEmailToCanonical.lookup (normalizeDisplayName name.toList, current)).getD current
    else current
  | none => current

def canonicalizeEmailWithName (m : Mailmap) (displayName : Option String) (email : String) :
    String :=
  if lookupKey email = "" then lookupKey email
  else hops m.nextEmail 4 (m.namedEmail displayName (lookupKey email))

def canonicalizeEmail (m : Mailmap) (email : String) : String :=
  m.canonicalizeEmailWithName none email

end Mailmap

open Mailmap

/-! ### Pure lines -/

/-- The commit address and the proper address of a line that has nothing between the two. -/
def pureLine (rawLine : List Char) : Option (String × String) :=
  let stripped := trimChars (stripMailmapComment false rawLine)
  match extractBracketedSpans stripped with
  | (_, endFirst, properRaw) :: (startSecond, _, commitRaw) :: _ =>
    match normalizeEmailToken (String.ofList properRaw),
      normalizeEmailToken (String.ofList commitRaw) with
    | some properEmail, some commitEmail =>
      if trimChars (textBetween stripped (endFirst + 1) startSecond) = [] then
        some (commitEmail, properEmail)
      else none
    | _, _ => none
  | _ => none

/-- The text is looked up as it stands. -/
def IsLookupKey (email : String) : Prop := lookupKey email = email

/-- The line is the last one for its commit address. -/
structure IsLastPureLine (text commitEmail properEmail : String) : Prop where
  split : ∃ above line below, linesOf text.toList = above ++ line :: below ∧
    pureLine line = some (commitEmail, properEmail) ∧
    ∀ later ∈ below, ∀ p, pureLine later = some p → p.1 ≠ commitEmail

theorem emailToCanonical_insertPair (m : Mailmap) (between : List Char)
    (properEmail commitEmail : String) :
    (m.insertPair between properEmail commitEmail).emailToCanonical =
      if between = [] ∧ commitEmail ≠ properEmail then
        (commitEmail, properEmail) :: m.emailToCanonical
      else m.emailToCanonical := by
  rw [insertPair]
  split_ifs <;> simp_all

/-- What a line adds to the map of addresses. -/
def pureEntry (rawLine : List Char) : List (String × String) :=
  ((pureLine rawLine).filter fun p => p.1 ≠ p.2).toList

/-- A line adds to the map of addresses what it says as a pure line, unless it says nothing. -/
theorem emailToCanonical_insertMailmapLine (m : Mailmap) (rawLine : List Char) :
    (m.insertMailmapLine rawLine).emailToCanonical = pureEntry rawLine ++ m.emailToCanonical := by
  rw [insertMailmapLine, pureEntry, pureLine]
  generalize trimChars (stripMailmapComment false rawLine) = stripped
  split
  · next h => simp [h]
  · next start stop onlyEmail h =>
    rw [h]
    split <;> simp
  · next start endFirst properRaw startSecond stop commitRaw rest h =>
    rw [h]
    dsimp only
    split
    · next properEmail commitEmail hproper hcommit =>
      rw [emailToCanonical_insertPair]
      by_cases hbetween : trimChars (textBetween stripped (endFirst + 1) startSecond) = []
      · by_cases hne : commitEmail = properEmail <;>
          simp [hbetween, hne, Option.filter]
      · simp [hbetween]
    · rfl

theorem mem_pureEntry {rawLine : List Char} {p : String × String} :
    p ∈ pureEntry rawLine ↔ pureLine rawLine = some p ∧ p.1 ≠ p.2 := by
  rw [pureEntry, Option.mem_toList, Option.filter_eq_some_iff, decide_eq_true_eq]

theorem emailToCanonical_foldl (lines : List (List Char)) (m : Mailmap) :
    (lines.foldl insertMailmapLine m).emailToCanonical =
      lines.reverse.flatMap pureEntry ++ m.emailToCanonical := by
  induction lines generalizing m with
  | nil => rfl
  | cons line lines ih =>
    rw [List.foldl_cons, ih, emailToCanonical_insertMailmapLine, List.reverse_cons,
      List.flatMap_append, List.flatMap_singleton, List.append_assoc]

/-- The map of addresses has the pure lines, the last one first. -/
theorem emailToCanonical_fromReader (text : String) :
    (fromReader text).emailToCanonical = (linesOf text.toList).reverse.flatMap pureEntry := by
  rw [fromReader, emailToCanonical_foldl, Mailmap.empty, List.append_nil]

theorem nextEmail_ne_self (m : Mailmap) (a : String) : m.nextEmail a ≠ some a := by
  intro h
  simpa using (Option.filter_eq_some_iff.mp h).2

theorem exists_of_nextEmail {text a b : String} (h : (fromReader text).nextEmail a = some b) :
    ∃ line ∈ linesOf text.toList, pureLine line = some (a, b) := by
  obtain ⟨hlookup, -⟩ := Option.filter_eq_some_iff.mp h
  obtain ⟨above, below, hsplit, -⟩ := List.lookup_eq_some_iff.mp hlookup
  have hmem : (a, b) ∈ (linesOf text.toList).reverse.flatMap pureEntry := by
    rw [← emailToCanonical_fromReader, hsplit]
    simp
  obtain ⟨line, hline, hentry⟩ := List.mem_flatMap.mp hmem
  exact ⟨line, List.mem_reverse.mp hline, (mem_pureEntry.mp hentry).1⟩

/-- The last pure line for an address decides what it is mapped to. -/
theorem nextEmail_of_isLastPureLine {text commitEmail properEmail : String}
    (h : IsLastPureLine text commitEmail properEmail) (hne : commitEmail ≠ properEmail) :
    (fromReader text).nextEmail commitEmail = some properEmail := by
  obtain ⟨above, line, below, hlines, hline, hlast⟩ := h.split
  have hbelow : (below.reverse.flatMap pureEntry).lookup commitEmail = none := by
    refine List.lookup_eq_none_iff.mpr fun p hp => ?_
    obtain ⟨later, hlater, hentry⟩ := List.mem_flatMap.mp hp
    simpa using (hlast later (List.mem_reverse.mp hlater) p (mem_pureEntry.mp hentry).1).symm
  have hentry : pureEntry line = [(commitEmail, properEmail)] := by
    simp [pureEntry, hline, hne]
  have hlookup : (fromReader text).emailToCanonical.lookup commitEmail = some properEmail := by
    rw [emailToCanonical_fromReader, hlines, List.reverse_append, List.reverse_cons,
      List.append_assoc, List.flatMap_append, List.lookup_append, hbelow, Option.none_or,
      List.singleton_append, List.flatMap_cons, hentry, List.singleton_append,
      List.lookup_cons_self]
  rw [nextEmail, hlookup]
  simp [hne.symm]

/-! ### Keys -/

theorem maintainerAddress_ne_empty {entry address : String}
    (h : maintainerAddress entry = some address) : address ≠ "" := by
  unfold maintainerAddress at h
  generalize asciiLower (rustTrim (trimQuotes (rustTrim (addressCandidate entry)))) = found at h
  have hempty : splitOnce '@' "".toList = none := by decide
  rintro rfl
  cases hsplit : splitOnce '@' found.toList with
  | none => simp [hsplit] at h
  | some parts =>
    simp only [hsplit] at h
    split_ifs at h
    rw [Option.some.inj h, hempty] at hsplit
    cases hsplit

theorem pureLine_ne_empty {rawLine : List Char} {p : String × String}
    (h : pureLine rawLine = some p) : p.1 ≠ "" := by
  rw [pureLine] at h
  split at h
  · split at h
    · next hcommit =>
      split at h
      · rw [← Option.some.inj h]
        exact maintainerAddress_ne_empty hcommit
      · cases h
    · cases h
  · cases h

theorem canonicalizeEmail_eq (text email : String) :
    (fromReader text).canonicalizeEmail email =
      hops (fromReader text).nextEmail 4 (lookupKey email) := by
  rw [canonicalizeEmail, canonicalizeEmailWithName, namedEmail]
  split
  · next hempty =>
    have hnone : (fromReader text).nextEmail "" = none := by
      refine Option.eq_none_iff_forall_ne_some.mpr fun b hb => ?_
      obtain ⟨line, -, hline⟩ := exists_of_nextEmail hb
      exact pureLine_ne_empty hline rfl
    rw [hempty, hops_of_none hnone]
  · rfl

/-- The addresses of the pure lines are looked up as they stand. -/
def PlainAddresses (text : String) : Prop :=
  ∀ line ∈ linesOf text.toList, ∀ p, pureLine line = some p → IsLookupKey p.1 ∧ IsLookupKey p.2

theorem isLookupKey_canonicalizeEmail {text email : String} (h : PlainAddresses text)
    (hemail : IsLookupKey (lookupKey email)) :
    IsLookupKey ((fromReader text).canonicalizeEmail email) := by
  rw [canonicalizeEmail_eq]
  refine hops_mem (fun a b hb => ?_) hemail
  obtain ⟨line, hline, hpure⟩ := exists_of_nextEmail hb
  exact (h line hline _ hpure).2

/-! ### The two readings -/

theorem canonicalizeEmail_idempotent_iff {text email : String} (h : PlainAddresses text)
    (hemail : IsLookupKey (lookupKey email)) :
    (fromReader text).canonicalizeEmail ((fromReader text).canonicalizeEmail email) =
        (fromReader text).canonicalizeEmail email ↔
      EndsWithin (fromReader text).nextEmail 4 (lookupKey email) ∨
        ∃ b, Leads (fromReader text).nextEmail 4 (lookupKey email) b ∧
          Leads (fromReader text).nextEmail 4 b b := by
  have hkey : lookupKey ((fromReader text).canonicalizeEmail email) =
      (fromReader text).canonicalizeEmail email := isLookupKey_canonicalizeEmail h hemail
  rw [canonicalizeEmail_eq text ((fromReader text).canonicalizeEmail email), hkey,
    canonicalizeEmail_eq, hops_hops_iff]

theorem sameIdentity_iff {text commitEmail properEmail : String} (h : PlainAddresses text)
    (hlast : IsLastPureLine text commitEmail properEmail) :
    (fromReader text).canonicalizeEmail commitEmail =
        (fromReader text).canonicalizeEmail properEmail ↔
      commitEmail = properEmail ∨ EndsWithin (fromReader text).nextEmail 4 commitEmail := by
  obtain ⟨above, line, below, hlines, hline, -⟩ := hlast.split
  obtain ⟨hcommit, hproper⟩ := h line (by simp [hlines]) _ hline
  rcases eq_or_ne commitEmail properEmail with rfl | hne
  · simp
  · have hcommit' : lookupKey commitEmail = commitEmail := hcommit
    have hproper' : lookupKey properEmail = properEmail := hproper
    rw [canonicalizeEmail_eq, canonicalizeEmail_eq, hcommit', hproper', or_iff_right hne]
    exact hops_eq_hops_iff (nextEmail_ne_self _) (nextEmail_of_isLastPureLine hlast hne)

/-- Where the walk over the pure lines ends in four hops or goes round in four, and nowhere else, an
identity is its own; and a commit address has the identity of its proper address exactly where the
walk ends. -/
theorem mailmap_identities {text : String} (h : PlainAddresses text) :
    (∀ email, IsLookupKey (lookupKey email) →
      ((fromReader text).canonicalizeEmail ((fromReader text).canonicalizeEmail email) =
          (fromReader text).canonicalizeEmail email ↔
        EndsWithin (fromReader text).nextEmail 4 (lookupKey email) ∨
          ∃ b, Leads (fromReader text).nextEmail 4 (lookupKey email) b ∧
            Leads (fromReader text).nextEmail 4 b b)) ∧
    ∀ commitEmail properEmail, IsLastPureLine text commitEmail properEmail →
      ((fromReader text).canonicalizeEmail commitEmail =
          (fromReader text).canonicalizeEmail properEmail ↔
        commitEmail = properEmail ∨ EndsWithin (fromReader text).nextEmail 4 commitEmail) :=
  ⟨fun _ hemail => canonicalizeEmail_idempotent_iff h hemail,
    fun _ _ hlast => sameIdentity_iff h hlast⟩

def oneLine : String := "<b@x.y> <a@x.y>"

theorem pureLine_oneLine : linesOf oneLine.toList = [oneLine.toList] ∧
    pureLine oneLine.toList = some ("a@x.y", "b@x.y") := by
  decide

theorem isLastPureLine_oneLine : IsLastPureLine oneLine "a@x.y" "b@x.y" :=
  ⟨[], _, [], pureLine_oneLine.1, pureLine_oneLine.2, nofun⟩

theorem mailmap_identities_oneLine :
    (fromReader oneLine).canonicalizeEmail ((fromReader oneLine).canonicalizeEmail "a@x.y") =
        (fromReader oneLine).canonicalizeEmail "a@x.y" ∧
      (fromReader oneLine).canonicalizeEmail "a@x.y" =
        (fromReader oneLine).canonicalizeEmail "b@x.y" := by
  have hplain : PlainAddresses oneLine := by
    intro line hline p hp
    rw [pureLine_oneLine.1, List.mem_singleton] at hline
    rw [hline, pureLine_oneLine.2] at hp
    obtain rfl := Option.some.inj hp
    exact ⟨(by decide : lookupKey "a@x.y" = "a@x.y"), (by decide : lookupKey "b@x.y" = "b@x.y")⟩
  have hkey : lookupKey "a@x.y" = "a@x.y" := by decide
  have hends : EndsWithin (fromReader oneLine).nextEmail 4 "a@x.y" :=
    ⟨1, by decide, "b@x.y",
      .step (nextEmail_of_isLastPureLine isLastPureLine_oneLine (by decide)) (.refl _),
      by decide⟩
  have hemail : IsLookupKey (lookupKey "a@x.y") := congrArg lookupKey hkey
  exact ⟨((mailmap_identities hplain).1 "a@x.y" hemail).mpr (.inl (hkey.symm ▸ hends)),
    ((mailmap_identities hplain).2 _ _ isLastPureLine_oneLine).mpr (.inr hends)⟩

/-- Five addresses behind `a@x.y`, each mapped to the next one. -/
def fiveHops : String :=
  "<b@x.y> <a@x.y>\n<c@x.y> <b@x.y>\n<d@x.y> <c@x.y>\n<e@x.y> <d@x.y>\n<f@x.y> <e@x.y>"

theorem lines_fiveHops : (linesOf fiveHops.toList).map pureLine =
    [some ("a@x.y", "b@x.y"), some ("b@x.y", "c@x.y"), some ("c@x.y", "d@x.y"),
      some ("d@x.y", "e@x.y"), some ("e@x.y", "f@x.y")] := by
  decide

theorem isLastPureLine_fiveHops : IsLastPureLine fiveHops "a@x.y" "b@x.y" := by
  have hlines := lines_fiveHops
  cases hsplit : linesOf fiveHops.toList with
  | nil => simp [hsplit] at hlines
  | cons line below =>
    rw [hsplit, List.map_cons, List.cons.injEq] at hlines
    refine ⟨[], line, below, hsplit, hlines.1, fun later hlater p hp => ?_⟩
    have hmem := List.mem_map_of_mem (f := pureLine) hlater
    rw [hlines.2, hp] at hmem
    simp only [List.mem_cons, Option.some.injEq, List.not_mem_nil, or_false] at hmem
    rcases hmem with rfl | rfl | rfl | rfl <;> decide

/-- A walk of five hops stops short, and does so elsewhere from the next address; and an address in
two pairs of quotes, with white space between them, loses one pair at a time. -/
theorem identities_move :
    (fromReader fiveHops).canonicalizeEmail ((fromReader fiveHops).canonicalizeEmail "a@x.y") ≠
        (fromReader fiveHops).canonicalizeEmail "a@x.y" ∧
      IsLastPureLine fiveHops "a@x.y" "b@x.y" ∧
      (fromReader fiveHops).canonicalizeEmail "a@x.y" ≠
        (fromReader fiveHops).canonicalizeEmail "b@x.y" ∧
      (fromReader "").canonicalizeEmail ((fromReader "").canonicalizeEmail "\" a@x.y \"") ≠
        (fromReader "").canonicalizeEmail "\" a@x.y \"" := by
  have hwalk : (fromReader fiveHops).canonicalizeEmail "a@x.y" = "e@x.y" ∧
      (fromReader fiveHops).canonicalizeEmail "b@x.y" = "f@x.y" ∧
      (fromReader fiveHops).canonicalizeEmail "e@x.y" = "f@x.y" := by
    decide +kernel
  obtain ⟨ha, hb, he⟩ := hwalk
  refine ⟨?_, isLastPureLine_fiveHops, ?_, by decide +kernel⟩
  · rw [ha, he]
    decide
  · rw [ha, hb]
    decide

end Sashiko
