import Sashiko.Prior.Context
import Sashiko.Lib.Lines
import Sashiko.Lib.LookBack

/-! What `message_own_text` keeps of a text, line by line. It takes no notice of white space around
the text, nor of how the lines end. -/

namespace Sashiko

/-- A line without the carriage returns that belong to its end. -/
def dropReturns (line : List Char) : List Char := line.rdropWhile (· = '\r')

def saysSomething (line : List Char) : Bool := !(trimChars line).isEmpty

/-- The white space before the first and behind the last line left aside. -/
def outerTrim (lines : List (List Char)) : List (List Char) :=
  ((lines.modifyHead trimStart).reverse.modifyHead trimEnd).reverse

/-- The lines of a text that are not blank, surrounding white space of the first and of the last
one aside. -/
def spokenLines (text : String) : List (List Char) :=
  outerTrim (((linesOf text.toList).map dropReturns).filter saysSomething)

/-- The scan of `message_own_text`: an attribution line takes the `On …` line before it along. -/
def ownScan : LookBack String where
  skips line := isQuotedLine (rustTrim line) || isQuoteTrimMarker (rustTrim line)
  closes line := isReplyAttributionLine (rustTrim line)
  opens line := startsWithText (asciiLower (rustTrim line)) "on "

section

variable (line : String)

theorem ownScan_skips : ownScan.skips line =
    (isQuotedLine (rustTrim line) || isQuoteTrimMarker (rustTrim line)) := by
  simp only [ownScan]

theorem ownScan_closes : ownScan.closes line = isReplyAttributionLine (rustTrim line) := by
  simp only [ownScan]

theorem ownScan_opens :
    ownScan.opens = fun line => startsWithText (asciiLower (rustTrim line)) "on " := by
  simp only [ownScan]

end

theorem keepOwnLine_eq : keepOwnLine = ownScan.keep := by
  funext kept line
  rw [keepOwnLine, LookBack.keep, ownScan_skips, ownScan_closes, ownScan_opens]

def ownChars : LookBack (List Char) := ownScan.comap String.ofList

/-- The scan that keeps every line. -/
def keepAll : LookBack (List Char) := ⟨fun _ => false, fun _ => false, fun _ => false⟩

theorem foldl_keepAll (lines kept : List (List Char)) :
    lines.foldl keepAll.keep kept = kept ++ lines := by
  induction lines generalizing kept with
  | nil => simp
  | cons line lines ih =>
    rw [List.foldl_cons, LookBack.keep_push rfl rfl, ih, List.append_assoc, List.singleton_append]

/-- The scan sees a line without the white space around it, and nothing in a blank one. -/
structure TrimBlind (S : LookBack (List Char)) : Prop where
  skips : ∀ {a b}, trimChars a = trimChars b → S.skips a = S.skips b
  closes : ∀ {a b}, trimChars a = trimChars b → S.closes a = S.closes b
  opens : ∀ {a b}, trimChars a = trimChars b → S.opens a = S.opens b
  blank : S.closes [] = false ∧ S.opens [] = false

theorem trimBlind_keepAll : TrimBlind keepAll := by
  constructor <;> simp [keepAll]

theorem trimBlind_ownChars : TrimBlind ownChars := by
  have htrim : ∀ {a b : List Char}, trimChars a = trimChars b →
      rustTrim (String.ofList a) = rustTrim (String.ofList b) := by
    intro a b h
    refine String.toList_injective ?_
    rw [toList_rustTrim, toList_rustTrim, String.toList_ofList, String.toList_ofList, h]
  refine ⟨?_, ?_, ?_, by decide⟩
  · intro a b h
    simp only [ownChars, LookBack.comap, ownScan, htrim h]
  · intro a b h
    simp only [ownChars, LookBack.comap, ownScan, htrim h]
  · intro a b h
    simp only [ownChars, LookBack.comap, ownScan, htrim h]

variable {S : LookBack (List Char)} {c : Char} {line a b : List Char}
  {lines kept : List (List Char)}

/-! ### Lines and the white space around them -/

theorem exists_dropReturns (line : List Char) :
    ∃ returns, (∀ c ∈ returns, isRustWhitespace c = true) ∧ line = dropReturns line ++ returns := by
  refine ⟨line.rtakeWhile (· = '\r'), fun c hc => ?_, (List.rdropWhile_append_rtakeWhile ..).symm⟩
  have hreturn : c = '\r' := by simpa using List.mem_rtakeWhile_imp hc
  rw [hreturn]
  decide

theorem trimChars_dropReturns (line : List Char) :
    trimChars (dropReturns line) = trimChars line := by
  obtain ⟨returns, hwhite, hline⟩ := exists_dropReturns line
  conv_rhs => rw [hline]
  exact (trimChars_append_trailing hwhite).symm

theorem trimEnd_dropReturns (line : List Char) : trimEnd (dropReturns line) = trimEnd line := by
  obtain ⟨returns, hwhite, hline⟩ := exists_dropReturns line
  conv_rhs => rw [hline]
  exact (trimEnd_append_of_whitespace hwhite).symm

theorem dropReturns_dropReturn (line : List Char) :
    dropReturns (dropReturn line) = dropReturns line := by
  unfold dropReturn
  split_ifs with hlast
  · obtain ⟨front, rfl⟩ := List.getLast?_eq_some_iff.mp hlast
    rw [List.dropLast_concat, dropReturns, dropReturns, List.rdropWhile_concat_pos _ _ _ (by simp)]
  · rfl

theorem saysSomething_congr (h : trimChars a = trimChars b) :
    saysSomething a = saysSomething b := by
  rw [saysSomething, h, saysSomething]

theorem trimChars_cons_white (hc : isRustWhitespace c = true) (line : List Char) :
    trimChars (c :: line) = trimChars line := by
  rw [trimChars, List.dropWhile_cons_of_pos hc, trimChars]

theorem dropReturns_cons (h : dropReturns line ≠ []) (c : Char) :
    dropReturns (c :: line) = c :: dropReturns line := by
  have hrev : line.reverse.dropWhile (· = '\r') ≠ [] := fun hnil => h (by
    rw [dropReturns, List.rdropWhile, hnil, List.reverse_nil])
  rw [dropReturns, dropReturns, List.rdropWhile, List.rdropWhile, List.reverse_cons,
    List.dropWhile_append, if_neg (by simpa using hrev), List.reverse_append]
  rfl

@[simp] theorem length_outerTrim (lines : List (List Char)) :
    (outerTrim lines).length = lines.length := by
  simp [outerTrim]

theorem outerTrim_cons_congr (h : trimStart a = trimStart b) (lines : List (List Char)) :
    outerTrim (a :: lines) = outerTrim (b :: lines) := by
  rw [outerTrim, outerTrim, List.modifyHead_cons, List.modifyHead_cons, h]

theorem outerTrim_concat_congr (hend : trimEnd a = trimEnd b) (hchars : trimChars a = trimChars b)
    (lines : List (List Char)) : outerTrim (lines ++ [a]) = outerTrim (lines ++ [b]) := by
  cases lines with
  | nil =>
    have hboth : ∀ l, outerTrim [l] = [trimChars l] := fun l => rfl
    rw [List.nil_append, List.nil_append, hboth, hboth, hchars]
  | cons first lines =>
    simp only [outerTrim, List.cons_append, List.modifyHead_cons, List.reverse_cons,
      List.reverse_append, List.reverse_nil, List.nil_append, hend]

/-! ### What a scan keeps of a text -/

/-- The lines that a scan keeps and that say something. -/
def saidBy (S : LookBack (List Char)) (lines : List (List Char)) : List (List Char) :=
  outerTrim (((lines.map dropReturns).foldl S.keep []).filter saysSomething)

theorem saidBy_concat_blank (hS : TrimBlind S) (hline : trimChars line = [])
    (lines : List (List Char)) : saidBy S (lines ++ [line]) = saidBy S lines := by
  have hblank : trimChars (dropReturns line) = trimChars [] := by
    rw [trimChars_dropReturns, hline]
    rfl
  have hclose : S.closes (dropReturns line) = false := (hS.closes hblank).trans hS.blank.1
  have hsaid : saysSomething (dropReturns line) = false := saysSomething_congr hblank
  rw [saidBy, List.map_append, List.foldl_append, List.map_singleton, List.foldl_cons,
    List.foldl_nil, saidBy]
  cases hskip : S.skips (dropReturns line) with
  | true => rw [LookBack.keep_skip hskip]
  | false =>
    rw [LookBack.keep_push hskip hclose, List.filter_append]
    simp [hsaid]

theorem saidBy_concat_white (hS : TrimBlind S) (hc : isRustWhitespace c = true)
    (lines : List (List Char)) (line : List Char) :
    saidBy S (lines ++ [line ++ [c]]) = saidBy S (lines ++ [line]) := by
  have hwhite : ∀ x ∈ [c], isRustWhitespace x = true := by simpa using hc
  have hchars : trimChars (dropReturns (line ++ [c])) = trimChars (dropReturns line) := by
    rw [trimChars_dropReturns, trimChars_dropReturns, trimChars_append_trailing hwhite]
  have hend : trimEnd (dropReturns (line ++ [c])) = trimEnd (dropReturns line) := by
    rw [trimEnd_dropReturns, trimEnd_dropReturns, trimEnd_append_of_whitespace hwhite]
  simp only [saidBy, List.map_append, List.foldl_append, List.map_singleton, List.foldl_cons,
    List.foldl_nil]
  rcases S.skips_or_push_or_closer (dropReturns line) with hskip | ⟨hskip, hclose⟩ | hcloser
  · rw [LookBack.keep_skip hskip, LookBack.keep_skip ((hS.skips hchars).trans hskip)]
  · rw [LookBack.keep_push hskip hclose,
      LookBack.keep_push ((hS.skips hchars).trans hskip) ((hS.closes hchars).trans hclose),
      List.filter_append, List.filter_append]
    have hsaid := saysSomething_congr hchars
    cases hline : saysSomething (dropReturns line) with
    | true =>
      rw [List.filter_singleton, List.filter_singleton, hsaid, hline]
      exact outerTrim_concat_congr hend hchars _
    | false => simp [hsaid, hline]
  · have hkeep : ∀ k, S.keep k (dropReturns (line ++ [c])) = S.keep k (dropReturns line) := by
      intro k
      simp only [LookBack.keep, hS.skips hchars, hS.closes hchars, hcloser.1, hcloser.2,
        Bool.false_eq_true, if_false, if_true]
    rw [hkeep]

theorem saidBy_cons_blank (hS : TrimBlind S) (hline : trimChars line = [])
    (lines : List (List Char)) : saidBy S (line :: lines) = saidBy S lines := by
  have hblank : trimChars (dropReturns line) = trimChars [] := by
    rw [trimChars_dropReturns, hline]
    rfl
  have hclose : S.closes (dropReturns line) = false := (hS.closes hblank).trans hS.blank.1
  have hopen : S.opens (dropReturns line) = false := (hS.opens hblank).trans hS.blank.2
  have hsaid : saysSomething (dropReturns line) = false := saysSomething_congr hblank
  rw [saidBy, List.map_cons, List.foldl_cons, saidBy]
  cases hskip : S.skips (dropReturns line) with
  | true => rw [LookBack.keep_skip hskip]
  | false =>
    rw [LookBack.keep_push hskip hclose, List.nil_append, LookBack.foldl_keep_cons hopen,
      List.filter_cons_of_neg (by simp [hsaid])]

theorem saidBy_cons_white (hS : TrimBlind S) (hc : isRustWhitespace c = true) (line : List Char)
    (lines : List (List Char)) : saidBy S ((c :: line) :: lines) = saidBy S (line :: lines) := by
  by_cases hblank : trimChars line = []
  · rw [saidBy_cons_blank hS hblank,
      saidBy_cons_blank hS ((trimChars_cons_white hc line).trans hblank)]
  have hne : dropReturns line ≠ [] := by
    intro hnil
    rw [← trimChars_dropReturns, hnil] at hblank
    exact hblank rfl
  have hdrop := dropReturns_cons hne c
  have hchars : trimChars (dropReturns (c :: line)) = trimChars (dropReturns line) := by
    rw [hdrop, trimChars_cons_white hc]
  have hstart : trimStart (dropReturns (c :: line)) = trimStart (dropReturns line) := by
    rw [hdrop, trimStart, List.dropWhile_cons_of_pos hc, trimStart]
  simp only [saidBy, List.map_cons, List.foldl_cons]
  rcases S.skips_or_push_or_closer (dropReturns line) with hskip | ⟨hskip, hclose⟩ | hcloser
  · rw [LookBack.keep_skip hskip, LookBack.keep_skip ((hS.skips hchars).trans hskip)]
  · rw [LookBack.keep_push hskip hclose,
      LookBack.keep_push ((hS.skips hchars).trans hskip) ((hS.closes hchars).trans hclose),
      List.nil_append, List.nil_append]
    obtain ⟨tail, ⟨h, h'⟩ | ⟨h, h'⟩⟩ := LookBack.foldl_keep_cons_or (hS.opens hchars)
      (lines.map dropReturns) []
    · have hsaid : saysSomething (dropReturns line) = true := by
        rw [saysSomething, trimChars_dropReturns]
        simpa using hblank
      rw [h, h', List.filter_cons_of_pos hsaid,
        List.filter_cons_of_pos ((saysSomething_congr hchars).trans hsaid)]
      exact outerTrim_cons_congr hstart _
    · rw [h, h']
  · have hcloser' : S.Closer (dropReturns (c :: line)) :=
      ⟨(hS.skips hchars).trans hcloser.1, (hS.closes hchars).trans hcloser.2⟩
    rw [LookBack.keep_closer_stuck hcloser (by simp),
      LookBack.keep_closer_stuck hcloser' (by simp)]

/-! ### Texts and their lines -/

theorem splitChars_cons_other {sep : Char} (h : c ≠ sep) {cs part : List Char}
    {parts : List (List Char)} (hcs : splitChars sep cs = part :: parts) :
    splitChars sep (c :: cs) = (c :: part) :: parts := by
  rw [splitChars, if_neg h, hcs]

theorem exists_splitChars (sep : Char) (cs : List Char) :
    ∃ parts part, splitChars sep cs = parts ++ [part] := by
  induction cs with
  | nil => exact ⟨[], [], rfl⟩
  | cons c cs ih =>
    obtain ⟨parts, part, hcs⟩ := ih
    by_cases hc : c = sep
    · exact ⟨[] :: parts, part, by rw [splitChars, if_pos hc, hcs, List.cons_append]⟩
    · cases parts with
      | nil => exact ⟨[], c :: part, splitChars_cons_other hc hcs⟩
      | cons first parts => exact ⟨(c :: first) :: parts, part, splitChars_cons_other hc hcs⟩

/-- One more character behind a text. -/
theorem splitChars_concat (sep : Char) (cs : List Char) (c : Char) {parts : List (List Char)}
    {part : List Char} (h : splitChars sep cs = parts ++ [part]) :
    splitChars sep (cs ++ [c]) =
      if c = sep then parts ++ [part, []] else parts ++ [part ++ [c]] := by
  induction cs generalizing parts part with
  | nil =>
    have hsplit : [[]] = parts ++ [part] := h
    obtain ⟨rfl, rfl⟩ : parts = [] ∧ part = [] := by
      cases parts with
      | nil => exact ⟨rfl, (List.cons.inj hsplit).1.symm⟩
      | cons first parts => simp at hsplit
    simp [splitChars]
  | cons d cs ih =>
    obtain ⟨front, last, hcs⟩ := exists_splitChars sep cs
    have hrest := ih hcs
    by_cases hd : d = sep
    · have hsplit : ([] :: front) ++ [last] = parts ++ [part] := by
        rw [← h, splitChars, if_pos hd, hcs, List.cons_append]
      obtain ⟨rfl, hpart⟩ := List.append_inj' hsplit rfl
      obtain rfl := (List.cons.inj hpart).1
      rw [List.cons_append, splitChars, if_pos hd, hrest]
      split_ifs <;> rfl
    · cases front with
      | nil =>
        have hsplit : [] ++ [d :: last] = parts ++ [part] :=
          (splitChars_cons_other hd hcs).symm.trans h
        obtain ⟨rfl, hpart⟩ := List.append_inj' hsplit rfl
        obtain rfl := (List.cons.inj hpart).1
        by_cases hc : c = sep
        · rw [if_pos hc] at hrest ⊢
          exact splitChars_cons_other hd hrest
        · rw [if_neg hc] at hrest ⊢
          exact splitChars_cons_other hd hrest
      | cons first front =>
        have hsplit : ((d :: first) :: front) ++ [last] = parts ++ [part] :=
          (splitChars_cons_other hd hcs).symm.trans h
        obtain ⟨rfl, hpart⟩ := List.append_inj' hsplit rfl
        obtain rfl := (List.cons.inj hpart).1
        by_cases hc : c = sep
        · rw [if_pos hc] at hrest ⊢
          exact splitChars_cons_other hd hrest
        · rw [if_neg hc] at hrest ⊢
          exact splitChars_cons_other hd hrest

theorem saidBy_split_cons (hS : TrimBlind S) (hc : isRustWhitespace c = true) (cs : List Char) :
    saidBy S (splitChars '\n' (c :: cs)) = saidBy S (splitChars '\n' cs) := by
  by_cases hbreak : c = '\n'
  · rw [splitChars, if_pos hbreak, saidBy_cons_blank hS rfl]
  · obtain ⟨parts, part, hcs⟩ := exists_splitChars '\n' cs
    cases parts with
    | nil =>
      rw [splitChars_cons_other hbreak hcs, hcs]
      exact saidBy_cons_white hS hc _ _
    | cons first parts =>
      rw [splitChars_cons_other hbreak hcs, hcs]
      exact saidBy_cons_white hS hc _ _

theorem saidBy_split_concat (hS : TrimBlind S) (hc : isRustWhitespace c = true) (cs : List Char) :
    saidBy S (splitChars '\n' (cs ++ [c])) = saidBy S (splitChars '\n' cs) := by
  obtain ⟨parts, part, hcs⟩ := exists_splitChars '\n' cs
  rw [splitChars_concat '\n' cs c hcs, hcs]
  split_ifs
  · rw [← saidBy_concat_blank hS (rfl : trimChars [] = []) (parts ++ [part]), List.append_assoc,
      List.singleton_append]
  · exact saidBy_concat_white hS hc parts part

theorem saidBy_split_append (hS : TrimBlind S) {white : List Char}
    (hwhite : ∀ c ∈ white, isRustWhitespace c = true) (cs : List Char) :
    saidBy S (splitChars '\n' (cs ++ white)) = saidBy S (splitChars '\n' cs) := by
  induction white using List.reverseRecOn with
  | nil => rw [List.append_nil]
  | append_singleton white c ih =>
    rw [← List.append_assoc, saidBy_split_concat hS (hwhite c (by simp))]
    exact ih fun c hc => hwhite c (by simp [hc])

theorem saidBy_split_white_append (hS : TrimBlind S) {white : List Char}
    (hwhite : ∀ c ∈ white, isRustWhitespace c = true) (cs : List Char) :
    saidBy S (splitChars '\n' (white ++ cs)) = saidBy S (splitChars '\n' cs) := by
  induction white with
  | nil => rfl
  | cons c white ih =>
    rw [List.cons_append, saidBy_split_cons hS (hwhite c List.mem_cons_self)]
    exact ih fun c hc => hwhite c (List.mem_cons_of_mem _ hc)

/-- Trimming a text takes nothing of what is said in it. -/
theorem saidBy_split_trimChars (hS : TrimBlind S) (cs : List Char) :
    saidBy S (splitChars '\n' (trimChars cs)) = saidBy S (splitChars '\n' cs) := by
  obtain ⟨before, after, hcs, hbefore, hafter⟩ := exists_trimChars cs
  conv_rhs => rw [hcs]
  rw [saidBy_split_append hS hafter, saidBy_split_white_append hS hbefore]

theorem saidBy_linesOf (hS : TrimBlind S) (cs : List Char) :
    saidBy S (linesOf cs) = saidBy S (splitChars '\n' cs) := by
  obtain ⟨parts, part, hcs⟩ := exists_splitChars '\n' cs
  have hmap : (parts.map dropReturn).map dropReturns = parts.map dropReturns := by
    rw [List.map_map]
    exact List.map_congr_left fun line _ => dropReturns_dropReturn line
  have hlines : ∀ last, saidBy S (parts.map dropReturn ++ last) = saidBy S (parts ++ last) := by
    intro last
    rw [saidBy, saidBy, List.map_append, hmap, List.map_append]
  rw [linesOf, hcs, List.dropLast_concat, List.getLast?_concat, hlines]
  cases part with
  | nil =>
    rw [saidBy_concat_blank hS rfl]
    exact congrArg (saidBy S) (List.append_nil parts)
  | cons c part => rfl

/-- A scan may as well keep everything of what it has kept. -/
theorem saidBy_keepAll (hS : TrimBlind S) (lines : List (List Char)) :
    saidBy keepAll (lines.foldl S.keep []) = saidBy S lines := by
  have hcomap : S.comap dropReturns = S := by
    unfold LookBack.comap
    congr 1 <;> funext line
    · exact hS.skips (trimChars_dropReturns line)
    · exact hS.closes (trimChars_dropReturns line)
    · exact hS.opens (trimChars_dropReturns line)
  have hmap := S.foldl_keep_map dropReturns lines []
  rw [hcomap, List.map_nil] at hmap
  rw [saidBy, saidBy, foldl_keepAll, List.nil_append, hmap]

theorem saidBy_split_joinLines (hS : TrimBlind S) (h : ∀ line ∈ lines, '\n' ∉ line) :
    saidBy S (splitChars '\n' (joinLinesWith lines)) = saidBy S lines := by
  by_cases hnil : lines = []
  · rw [hnil]
    exact saidBy_cons_blank hS (rfl : trimChars [] = []) []
  · rw [splitChars_joinLines hnil h]

/-! ### `message_own_text` -/

theorem toList_messageOwnText (body : String) :
    (messageOwnText body).toList =
      trimChars (joinLinesWith ((linesOf body.toList).foldl ownChars.keep [])) := by
  have hown : ownLines body =
      ((linesOf body.toList).foldl ownChars.keep []).map String.ofList := by
    rw [ownLines, keepOwnLine_eq]
    exact ownScan.foldl_keep_map String.ofList (linesOf body.toList) []
  rw [messageOwnText, toList_rustTrim, String.toList_intercalate, hown, List.map_map,
    joinLinesWith]
  congr 2
  exact List.map_id'' (fun l => String.toList_ofList) _

theorem spokenLines_eq (text : String) :
    spokenLines text = saidBy keepAll (linesOf text.toList) := by
  rw [spokenLines, saidBy, foldl_keepAll, List.nil_append]

/-- What the speaker says in a text, read off its lines. -/
theorem spokenLines_messageOwnText (body : String) :
    spokenLines (messageOwnText body) = saidBy ownChars (linesOf body.toList) := by
  have hbreaks : ∀ line ∈ (linesOf body.toList).foldl ownChars.keep [], '\n' ∉ line := by
    intro line hline
    rcases LookBack.mem_of_mem_foldl_keep hline with h | h
    · cases h
    · exact (mem_linesOf h).1
  rw [spokenLines_eq, toList_messageOwnText, saidBy_linesOf trimBlind_keepAll,
    saidBy_split_trimChars trimBlind_keepAll, saidBy_split_joinLines trimBlind_keepAll hbreaks,
    saidBy_keepAll trimBlind_ownChars]

/-- Lines joined and trimmed are read back as they were. -/
theorem spokenLines_messageOwnText_join {lines : List String}
    (h : ∀ line ∈ lines, '\n' ∉ line.toList) :
    spokenLines (messageOwnText (rustTrim ("\n".intercalate lines))) =
      saidBy ownChars (lines.map String.toList) := by
  have hbreaks : ∀ line ∈ lines.map String.toList, '\n' ∉ line := by
    intro line hline
    obtain ⟨text, htext, rfl⟩ := List.mem_map.mp hline
    exact h text htext
  have hjoin : "\n".toList.intercalate (lines.map String.toList) =
      joinLinesWith (lines.map String.toList) := rfl
  rw [spokenLines_messageOwnText, toList_rustTrim, String.toList_intercalate, hjoin,
    saidBy_linesOf trimBlind_ownChars, saidBy_split_trimChars trimBlind_ownChars,
    saidBy_split_joinLines trimBlind_ownChars hbreaks]

end Sashiko
