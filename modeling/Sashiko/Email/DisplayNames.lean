import Sashiko.Email.Router

/-! What a display name can do to the routing of a review: nothing, unless it opens an angle
bracket of its own. -/

namespace Sashiko

/-! ### How an address is read -/

theorem afterFirst_of_not_mem {c : Char} {cs : List Char} (h : c ∉ cs) :
    afterFirst c cs = none := by
  induction cs with
  | nil => rfl
  | cons x xs ih =>
    rw [List.mem_cons, not_or] at h
    rw [afterFirst, if_neg (Ne.symm h.1), ih h.2]

theorem afterFirst_append {c : Char} {pre : List Char} (h : c ∉ pre) (rest : List Char) :
    afterFirst c (pre ++ c :: rest) = some rest := by
  induction pre with
  | nil => exact if_pos rfl
  | cons x xs ih =>
    rw [List.mem_cons, not_or] at h
    rw [List.cons_append, afterFirst, if_neg (Ne.symm h.1), ih h.2]

theorem takeWhile_append_of_mem {c : Char} {xs : List Char} (h : c ∈ xs) (rest : List Char) :
    (xs ++ rest).takeWhile (· ≠ c) = xs.takeWhile (· ≠ c) := by
  obtain ⟨pre, post, rfl, hpre⟩ := List.eq_append_cons_of_mem h
  rw [List.append_assoc, List.cons_append, takeWhile_append_stop hpre,
    takeWhile_append_stop hpre]

theorem mem_escapeChars {c : Char} (hslash : c ≠ '\\') (hquote : c ≠ '"') (cs : List Char) :
    c ∈ escapeChars cs ↔ c ∈ cs := by
  unfold escapeChars
  rw [List.mem_flatMap]
  constructor
  · rintro ⟨x, hx, hc⟩
    split_ifs at hc with h1 h2
    · simp [hslash] at hc
    · simp [hslash, hquote] at hc
    · exact List.mem_singleton.mp hc ▸ hx
  · intro hc
    refine ⟨c, hc, ?_⟩
    rw [if_neg hslash, if_neg hquote]
    exact List.mem_singleton_self c

theorem toList_formatMailbox (name address : String) :
    (formatMailbox name address).toList =
      '"' :: escapeChars name.toList ++ ['"', ' ', '<'] ++ address.toList ++ ['>'] :=
  String.toList_ofList

theorem rustTrim_formatMailbox (name address : String) :
    rustTrim (formatMailbox name address) = formatMailbox name address := by
  have hlast : (formatMailbox name address).toList.getLast? = some '>' := by
    rw [toList_formatMailbox, List.getLast?_concat]
  exact rustTrim_eq_self (toList_formatMailbox name address) hlast (by decide) (by decide)

/-- The angle brackets of a plain address. -/
def IsPlainAddress (address : String) : Prop := '<' ∉ address.toList ∧ '>' ∉ address.toList

instance (address : String) : Decidable (IsPlainAddress address) :=
  inferInstanceAs (Decidable (_ ∧ _))

/-- The display name opens no angle bracket, or the text it brackets is the address itself. -/
def HarmlessName (name address : String) : Prop :=
  match bracketText (escapeChars name.toList) with
  | some inner => asciiLower (rustTrim (String.ofList inner)) = asciiLower (rustTrim address)
  | none => '<' ∉ name.toList

theorem extractBareEmail_plain {address : String} (h : IsPlainAddress address) :
    extractBareEmail address = asciiLower (rustTrim address) := by
  have hnone : bracketText (rustTrim address).toList = none := by
    rw [bracketText, afterFirst_of_not_mem]
    rw [toList_rustTrim]
    exact fun hmem => h.1 ((trimChars_within _).subset hmem)
  rw [extractBareEmail, hnone]

theorem bracketText_of_no_open {name address : String} (haddr : IsPlainAddress address)
    (hname : '<' ∉ name.toList) :
    bracketText (formatMailbox name address).toList = some address.toList := by
  have hpre : '<' ∉ '"' :: escapeChars name.toList ++ ['"', ' '] := by
    simp [mem_escapeChars, hname]
  have hsplit : (formatMailbox name address).toList =
      ('"' :: escapeChars name.toList ++ ['"', ' ']) ++ '<' :: (address.toList ++ ['>']) := by
    simp [toList_formatMailbox]
  rw [bracketText, hsplit, afterFirst_append hpre]
  simp only [List.mem_append, List.mem_singleton, or_true, if_true]
  rw [takeWhile_append_stop haddr.2]

/-- Once the name opens a bracket, the address is read from the name. -/
theorem bracketText_of_open {name : String} (address : String) {pre rest : List Char}
    (hname : escapeChars name.toList = pre ++ '<' :: rest) (hpre : '<' ∉ pre) :
    bracketText (formatMailbox name address).toList =
      some (if '>' ∈ rest then rest.takeWhile (· ≠ '>')
        else (rest ++ ['"', ' ', '<'] ++ address.toList ++ ['>']).takeWhile (· ≠ '>')) := by
  have hsplit : (formatMailbox name address).toList =
      ('"' :: pre) ++ '<' :: (rest ++ (['"', ' ', '<'] ++ address.toList ++ ['>'])) := by
    simp [toList_formatMailbox, hname]
  have hpre' : '<' ∉ '"' :: pre := by simp [hpre]
  rw [bracketText, hsplit, afterFirst_append hpre']
  simp only [List.mem_append, List.mem_singleton, or_true, if_true]
  split_ifs with hclose
  · rw [takeWhile_append_of_mem hclose]
  · simp only [List.append_assoc]

theorem open_mem_read {inner : List Char} (h : '<' ∈ inner) :
    '<' ∈ (asciiLower (rustTrim (String.ofList inner))).toList := by
  rw [asciiLower, String.toList_ofList]
  refine List.mem_map.mpr ⟨'<', ?_, by decide⟩
  rw [toList_rustTrim, String.toList_ofList]
  exact mem_trimChars h (by decide)

theorem toLower_ne_open {c : Char} (h : c ≠ '<') : c.toLower ≠ '<' := by
  have hupper : ∀ n < 91, 65 ≤ n → (Char.ofNat n).toLower ≠ '<' := by decide
  by_cases hrange : c.toNat < 91 ∧ 65 ≤ c.toNat
  · have hne := hupper c.toNat hrange.1 hrange.2
    rwa [Char.ofNat_toNat] at hne
  · rw [toLower_def, dif_neg]
    · exact h
    · simp only [ge_iff_le, UInt32.le_iff_toNat_le]
      exact fun hle => hrange ⟨Nat.lt_succ_of_le hle.2, hle.1⟩

theorem not_mem_asciiLower_open {s : String} (h : '<' ∉ s.toList) :
    '<' ∉ (asciiLower s).toList := by
  rw [asciiLower, String.toList_ofList, List.mem_map]
  rintro ⟨c, hc, hlower⟩
  exact toLower_ne_open (fun heq => h (heq ▸ hc)) hlower

theorem extractBareEmail_of_bracket {raw : String} {inner : List Char}
    (h : bracketText (rustTrim raw).toList = some inner) :
    extractBareEmail raw = asciiLower (rustTrim (String.ofList inner)) := by
  rw [extractBareEmail, h]

theorem reading_of_no_open {name address : String} (haddr : IsPlainAddress address)
    (hname : '<' ∉ name.toList) :
    extractBareEmail (formatMailbox name address) = extractBareEmail address := by
  rw [extractBareEmail_plain haddr, extractBareEmail_of_bracket
    ((rustTrim_formatMailbox name address).symm ▸ bracketText_of_no_open haddr hname),
    String.ofList_toList]

/-- The address that stands in an entry is the one that is read from it, exactly for the
harmless names. -/
theorem reading_iff {name address : String} (haddr : IsPlainAddress address) :
    extractBareEmail (formatMailbox name address) = extractBareEmail address ↔
      HarmlessName name address := by
  by_cases hopen : '<' ∈ name.toList
  · obtain ⟨pre, rest, hsplit, hpre⟩ := List.eq_append_cons_of_mem
      ((mem_escapeChars (by decide) (by decide) name.toList).mpr hopen)
    have hread := extractBareEmail_of_bracket
      ((rustTrim_formatMailbox name address).symm ▸ bracketText_of_open address hsplit hpre)
    have hname : bracketText (escapeChars name.toList) =
        if '>' ∈ rest then some (rest.takeWhile (· ≠ '>')) else none := by
      rw [bracketText, hsplit, afterFirst_append hpre]
    rw [hread, extractBareEmail_plain haddr, HarmlessName, hname]
    by_cases hclose : '>' ∈ rest
    · rw [if_pos hclose, if_pos hclose]
    · rw [if_neg hclose, if_neg hclose]
      refine ⟨fun heq => ?_, fun hno => absurd hopen hno⟩
      -- the text read from the name still holds the bracket of the address
      have hread : '<' ∈ (rest ++ ['"', ' ', '<'] ++ address.toList ++ ['>']).takeWhile
          (· ≠ '>') := by
        have hno : '>' ∉ rest ++ ['"', ' ', '<'] ++ address.toList := by simp [hclose, haddr.2]
        rw [takeWhile_append_stop hno]
        simp
      have hmem := open_mem_read hread
      rw [heq] at hmem
      refine absurd hmem (not_mem_asciiLower_open ?_)
      rw [toList_rustTrim]
      exact fun h => haddr.1 ((trimChars_within _).subset h)
  · have hnone : bracketText (escapeChars name.toList) = none := by
      rw [bracketText, afterFirst_of_not_mem]
      rwa [mem_escapeChars (by decide) (by decide)]
    rw [HarmlessName, hnone]
    exact ⟨fun _ => hopen, fun _ => reading_of_no_open haddr hopen⟩

end Sashiko
