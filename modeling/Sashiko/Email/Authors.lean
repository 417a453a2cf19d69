import Sashiko.Email.DisplayNames
import Sashiko.Prior.Context

/-! Authors of patches: the address that is read from a stored author, and when two stored authors
are the same. -/

namespace Sashiko

def cleanDisplayName (name : String) : String :=
  rustTrim (String.ofList (name.toList.filter fun c => !isRustControl c))

/-- The local part of an alias that b4 makes is the author's address with dots for `@`. -/
def isB4Alias (toLowercase : String → String) (aliasEmail real : String) : Bool :=
  startsWithText (toLowercase aliasEmail) "devnull+" &&
    match rsplitOnce '@' (toLowercase aliasEmail).toList with
    | none => false
    | some (upToAt, aliasDomain) =>
      8 < (String.ofList upToAt).utf8ByteSize &&
        (aliasDomain = "kernel.org".toList || aliasDomain = "linux.dev".toList) &&
        upToAt.drop 8 = (replaceChar (toLowercase real) '@' '.').toList

def authorsMatch (toLowercase : String → String) (a b : String) : Bool :=
  extractEmail a = extractEmail b ||
    (isB4Alias toLowercase (extractEmail a) (extractEmail b) ||
      isB4Alias toLowercase (extractEmail b) (extractEmail a))

/-- An address without brackets or white space. -/
structure IsAddress (address : String) : Prop where
  at_sign : '@' ∈ address.toList
  no_open : '<' ∉ address.toList
  no_close : '>' ∉ address.toList
  no_space : ∀ c ∈ address.toList, isRustWhitespace c = false

/-- The name has no angle bracket, or its own first pair of them holds the address. -/
def BracketsAddress (name address : String) : Prop :=
  ('<' ∉ name.toList ∧ '>' ∉ name.toList) ∨
    ∃ before inner after, name.toList = before ++ '<' :: (inner ++ '>' :: after) ∧
      '<' ∉ before ∧ '>' ∉ before ∧ '>' ∉ inner ∧
      rustTrim (String.ofList (escapeChars inner)) = address

/-- The stored author stands for its address, alone and beside any other author. -/
structure StandsForAddress (toLowercase : String → String) (author address : String) : Prop where
  email : extractEmail author = address
  matches_left : ∀ other,
    authorsMatch toLowercase author other = authorsMatch toLowercase address other
  matches_right : ∀ other,
    authorsMatch toLowercase other author = authorsMatch toLowercase other address

/-! ### The brackets of a text -/

theorem splitOnce_append {c : Char} {pre : List Char} (h : c ∉ pre) (rest : List Char) :
    splitOnce c (pre ++ c :: rest) = some (pre, rest) := by
  induction pre with
  | nil => exact if_pos rfl
  | cons x xs ih =>
    rw [List.mem_cons, not_or] at h
    rw [List.cons_append, splitOnce, if_neg (Ne.symm h.1), ih h.2]
    rfl

theorem splitOnce_of_not_mem {c : Char} {cs : List Char} (h : c ∉ cs) : splitOnce c cs = none := by
  induction cs with
  | nil => rfl
  | cons x xs ih =>
    rw [List.mem_cons, not_or] at h
    rw [splitOnce, if_neg (Ne.symm h.1), ih h.2]
    rfl

theorem extractEmail_bracketed {s : String} {before inner after : List Char}
    (hs : s.toList = before ++ '<' :: (inner ++ '>' :: after)) (hopen : '<' ∉ before)
    (hclose : '>' ∉ inner) :
    extractEmail s = if '>' ∈ before then rustTrim s else rustTrim (String.ofList inner) := by
  rw [extractEmail, hs, splitOnce_append hopen]
  dsimp only
  rw [splitOnce_append hclose]

theorem extractEmail_of_no_open {s : String} (h : '<' ∉ s.toList) :
    extractEmail s = rustTrim s := by
  rw [extractEmail, splitOnce_of_not_mem h]

theorem trimChars_eq_self {cs : List Char} (h : ∀ c ∈ cs, isRustWhitespace c = false) :
    trimChars cs = cs := by
  have hdrop : cs.dropWhile isRustWhitespace = cs :=
    List.dropWhile_eq_self_iff.mpr fun hpos => by
      simp [h _ (List.getElem_mem hpos)]
  rw [trimChars, hdrop, List.rdropWhile_eq_self_iff]
  exact fun hne => by simp [h _ (List.getLast_mem hne)]

section Address

variable {name address : String}

theorem rustTrim_address (h : IsAddress address) : rustTrim address = address :=
  String.toList_injective (by rw [toList_rustTrim, trimChars_eq_self h.no_space])

theorem extractEmail_address (h : IsAddress address) : extractEmail address = address := by
  rw [extractEmail_of_no_open h.no_open, rustTrim_address h]

theorem ne_address_of_open {s : String} (h : IsAddress address) (hopen : '<' ∈ s.toList) :
    rustTrim s ≠ address := by
  intro heq
  refine h.no_open (heq ▸ ?_)
  rw [toList_rustTrim]
  exact mem_trimChars hopen (by decide)

theorem open_mem_formatMailbox (name address : String) :
    '<' ∈ (formatMailbox name address).toList := by
  rw [toList_formatMailbox]
  simp

theorem escapeChars_append (xs ys : List Char) :
    escapeChars (xs ++ ys) = escapeChars xs ++ escapeChars ys :=
  List.flatMap_append

theorem not_mem_escapeChars {c : Char} (hslash : c ≠ '\\') (hquote : c ≠ '"') {cs : List Char}
    (h : c ∉ cs) : c ∉ escapeChars cs := fun hmem => h ((mem_escapeChars hslash hquote cs).mp hmem)

/-- The address is in the first brackets, unless a closing one comes before. -/
theorem extractEmail_of_no_open_name (h : IsAddress address) (hname : '<' ∉ name.toList) :
    extractEmail (formatMailbox name address) =
      if '>' ∈ name.toList then rustTrim (formatMailbox name address) else address := by
  have hs : (formatMailbox name address).toList =
      ('"' :: escapeChars name.toList ++ ['"', ' ']) ++ '<' :: (address.toList ++ '>' :: []) := by
    simp [toList_formatMailbox]
  have hopen : '<' ∉ '"' :: escapeChars name.toList ++ ['"', ' '] := by
    simp [mem_escapeChars, hname]
  have hclose : '>' ∈ '"' :: escapeChars name.toList ++ ['"', ' '] ↔ '>' ∈ name.toList := by
    simp [mem_escapeChars]
  rw [extractEmail_bracketed hs hopen h.no_close, String.ofList_toList, rustTrim_address h]
  simp only [hclose]

/-- A bracket that the name opens and closes is read instead of the address. -/
theorem extractEmail_of_bracketed_name {before inner after : List Char}
    (hname : name.toList = before ++ '<' :: (inner ++ '>' :: after)) (hopen : '<' ∉ before)
    (hclose : '>' ∉ inner) :
    extractEmail (formatMailbox name address) =
      if '>' ∈ before then rustTrim (formatMailbox name address)
      else rustTrim (String.ofList (escapeChars inner)) := by
  have hs : (formatMailbox name address).toList = ('"' :: escapeChars before) ++
      '<' :: (escapeChars inner ++ '>' :: (escapeChars after ++ ['"', ' ', '<'] ++
        address.toList ++ ['>'])) := by
    rw [toList_formatMailbox, hname, escapeChars_append]
    change '"' :: (escapeChars before ++ escapeChars (['<'] ++ (inner ++ (['>'] ++ after)))) ++ _ ++
      _ ++ _ = _
    rw [escapeChars_append, escapeChars_append, escapeChars_append]
    simp [escapeChars]
  have hopen' : '<' ∉ '"' :: escapeChars before := by
    simp [mem_escapeChars, hopen]
  have hclose' : '>' ∈ '"' :: escapeChars before ↔ '>' ∈ before := by
    simp [mem_escapeChars]
  rw [extractEmail_bracketed hs hopen' (not_mem_escapeChars (by decide) (by decide) hclose)]
  simp only [hclose']

/-- A bracket that the name leaves open takes the bracket of the address with it. -/
theorem extractEmail_of_open_name {before rest : List Char} (h : IsAddress address)
    (hname : name.toList = before ++ '<' :: rest) (hopen : '<' ∉ before) (hrest : '>' ∉ rest) :
    extractEmail (formatMailbox name address) ≠ address := by
  have hs : (formatMailbox name address).toList = ('"' :: escapeChars before) ++
      '<' :: ((escapeChars rest ++ ['"', ' ', '<'] ++ address.toList) ++ '>' :: []) := by
    rw [toList_formatMailbox, hname, escapeChars_append]
    change '"' :: (escapeChars before ++ escapeChars (['<'] ++ rest)) ++ _ ++ _ ++ _ = _
    rw [escapeChars_append]
    simp [escapeChars]
  have hopen' : '<' ∉ '"' :: escapeChars before := by
    simp [mem_escapeChars, hopen]
  have hclose : '>' ∉ escapeChars rest ++ ['"', ' ', '<'] ++ address.toList := by
    simp [mem_escapeChars, hrest, h.no_close]
  rw [extractEmail_bracketed hs hopen' hclose]
  split_ifs
  · exact ne_address_of_open h (open_mem_formatMailbox name address)
  · exact ne_address_of_open h (by simp)

theorem extractEmail_formatMailbox_iff (h : IsAddress address) :
    extractEmail (formatMailbox name address) = address ↔ BracketsAddress name address := by
  have hwhole : rustTrim (formatMailbox name address) ≠ address :=
    ne_address_of_open h (open_mem_formatMailbox name address)
  constructor
  · intro hread
    by_cases hopen : '<' ∈ name.toList
    · obtain ⟨before, rest, hname, hbefore⟩ := List.eq_append_cons_of_mem hopen
      by_cases hclose : '>' ∈ rest
      · obtain ⟨inner, after, rfl, hinner⟩ := List.eq_append_cons_of_mem hclose
        rw [extractEmail_of_bracketed_name hname hbefore hinner] at hread
        split_ifs at hread with hearly
        · exact absurd hread hwhole
        · exact .inr ⟨before, inner, after, hname, hbefore, hearly, hinner, hread⟩
      · exact absurd hread (extractEmail_of_open_name h hname hbefore hclose)
    · rw [extractEmail_of_no_open_name h hopen] at hread
      split_ifs at hread with hclose
      · exact absurd hread hwhole
      · exact .inl ⟨hopen, hclose⟩
  · rintro (⟨hopen, hclose⟩ | ⟨before, inner, after, hname, hbefore, hearly, hinner, hread⟩)
    · rw [extractEmail_of_no_open_name h hopen, if_neg hclose]
    · rw [extractEmail_of_bracketed_name hname hbefore hinner, if_neg hearly, hread]

end Address

/-! ### Two authors -/

theorem standsForAddress_of_email (toLowercase : String → String) {author address : String}
    (h : IsAddress address) (hread : extractEmail author = address) :
    StandsForAddress toLowercase author address where
  email := hread
  matches_left other := by
    rw [authorsMatch, authorsMatch, hread, extractEmail_address h]
  matches_right other := by
    rw [authorsMatch, authorsMatch, hread, extractEmail_address h]

/-- A stored author stands for its address exactly if the display name has no angle brackets, or
brackets that very address. -/
theorem standsForAddress_iff (toLowercase : String → String) (name address : String)
    (h : IsAddress address) :
    StandsForAddress toLowercase (formatMailbox (cleanDisplayName name) address) address ↔
      BracketsAddress (cleanDisplayName name) address :=
  ⟨fun hstands => (extractEmail_formatMailbox_iff h).mp hstands.email,
    fun hname => standsForAddress_of_email toLowercase h
      ((extractEmail_formatMailbox_iff h).mpr hname)⟩

/-- A sender is taken for the author that the display name brackets. -/
theorem bracketed_name_taken :
    authorsMatch asciiLower (formatMailbox (cleanDisplayName "<ann@kernel.org>") "eve@example.com")
      "ann@kernel.org" = true ∧
    authorsMatch asciiLower "eve@example.com" "ann@kernel.org" = false ∧
    extractEmail (formatMailbox (cleanDisplayName "<ann@kernel.org>") "eve@example.com") ≠
      "eve@example.com" := by
  decide

theorem standsForAddress_quoted :
    StandsForAddress asciiLower (formatMailbox (cleanDisplayName "Ann \"A\" @home")
      "ann@kernel.org") "ann@kernel.org" ↔
      BracketsAddress (cleanDisplayName "Ann \"A\" @home") "ann@kernel.org" := by
  have hspace : ("ann@kernel.org".toList.all fun c => !isRustWhitespace c) = true := by decide
  exact standsForAddress_iff asciiLower _ "ann@kernel.org" ⟨by decide, by decide, by decide,
    fun c hc => by simpa using List.all_eq_true.mp hspace c hc⟩

end Sashiko
