import Sashiko.Email.DisplayNames
import Sashiko.Lib.Lines

/-! Recipient lists: what a parsed mail joins with commas, and splitting it again. -/

namespace Sashiko

/-- The variables of the splitting loop. -/
structure AddressSplit where
  result : List String
  current : List Char
  inQuotes : Bool
  escaped : Bool
  deriving DecidableEq, Repr

namespace AddressSplit

def init : AddressSplit := ⟨[], [], false, false⟩

/-- The current entry is pushed, trimmed, unless nothing is left of it. -/
def flush (s : AddressSplit) : List String :=
  if trimChars s.current ≠ [] then s.result ++ [String.ofList (trimChars s.current)] else s.result

def step (s : AddressSplit) (ch : Char) : AddressSplit :=
  if s.escaped then { s with current := s.current ++ [ch], escaped := false }
  else if s.inQuotes && ch = '\\' then { s with current := s.current ++ [ch], escaped := true }
  else if ch = '"' then { s with inQuotes := !s.inQuotes, current := s.current ++ [ch] }
  else if ch = ',' && !s.inQuotes then { s with result := s.flush, current := [] }
  else { s with current := s.current ++ [ch] }

end AddressSplit

def splitAddressList (list : String) : List String :=
  (list.toList.foldl AddressSplit.step AddressSplit.init).flush

/-! ### Recipients -/

structure Recipient where
  name : String
  address : String
  deriving DecidableEq, Repr

namespace Recipient

/-- An entry of `to` or `cc`. -/
def render (r : Recipient) : String :=
  if r.name = "" then r.address else formatMailbox r.name r.address

/-- No comma, no double quote, no white space around it. -/
def CleanAddress (r : Recipient) : Prop :=
  ',' ∉ r.address.toList ∧ '"' ∉ r.address.toList ∧ rustTrim r.address = r.address

end Recipient

/-- `recipients.map(render).join(", ")` -/
def joinRecipients (recipients : List Recipient) : String :=
  String.intercalate ", " (recipients.map Recipient.render)

/-! ### The flags along an entry -/

namespace AddressSplit

variable {s : AddressSplit} {cs : List Char}

/-- Outside quotes, characters that are no comma and no quote are collected. -/
theorem foldl_plain (hquotes : s.inQuotes = false) (hescaped : s.escaped = false)
    (hcomma : ',' ∉ cs) (hquote : '"' ∉ cs) :
    cs.foldl step s = { s with current := s.current ++ cs } := by
  induction cs generalizing s with
  | nil => rw [List.append_nil]; rfl
  | cons c cs ih =>
    rw [List.mem_cons, not_or] at hcomma hquote
    have hstep : step s c = { s with current := s.current ++ [c] } := by
      simp [step, hquotes, hescaped, Ne.symm hcomma.1, Ne.symm hquote.1]
    rw [List.foldl_cons, hstep, ih (by exact hquotes) (by exact hescaped) hcomma.2 hquote.2,
      List.append_assoc, List.singleton_append]

/-- Inside quotes an escaped name is collected, and the flags are back where they were. -/
theorem foldl_escapeChars (hquotes : s.inQuotes = true) (hescaped : s.escaped = false)
    (name : List Char) :
    (escapeChars name).foldl step s = { s with current := s.current ++ escapeChars name } := by
  induction name generalizing s with
  | nil => rw [escapeChars, List.flatMap_nil, List.append_nil]; rfl
  | cons c name ih =>
    have hsplit : escapeChars (c :: name) = escapeChars [c] ++ escapeChars name := by
      rw [escapeChars, List.flatMap_cons, escapeChars, List.flatMap_singleton, escapeChars]
    have hone : (escapeChars [c]).foldl step s =
        { s with current := s.current ++ escapeChars [c] } := by
      rw [escapeChars, List.flatMap_singleton]
      split_ifs with hslash hquote
      · simp [step, hquotes, hescaped]
      · simp [step, hquotes, hescaped]
      · simp [step, hquotes, hescaped, hslash, hquote]
    rw [hsplit, List.foldl_append, hone, ih (by exact hquotes) (by exact hescaped),
      List.append_assoc]

/-- A rendered entry is collected whole. -/
theorem foldl_render (hquotes : s.inQuotes = false) (hescaped : s.escaped = false)
    {r : Recipient} (h : r.CleanAddress) :
    r.render.toList.foldl step s = { s with current := s.current ++ r.render.toList } := by
  obtain ⟨hcomma, hquote, -⟩ := h
  unfold Recipient.render
  split_ifs with hname
  · exact foldl_plain hquotes hescaped hcomma hquote
  · have hopen : step s '"' = { s with inQuotes := true, current := s.current ++ ['"'] } := by
      simp [step, hquotes, hescaped]
    have hclose : ∀ t : AddressSplit, t.inQuotes = true → t.escaped = false →
        step t '"' = { t with inQuotes := false, current := t.current ++ ['"'] } :=
      fun t hq he => by simp [step, hq, he]
    have hsplit : (formatMailbox r.name r.address).toList =
        '"' :: (escapeChars r.name.toList ++ '"' :: ([' ', '<'] ++ r.address.toList ++ ['>'])) := by
      simp [toList_formatMailbox]
    rw [hsplit, List.foldl_cons, hopen, List.foldl_append,
      foldl_escapeChars rfl (by exact hescaped), List.foldl_cons, hclose _ rfl (by exact hescaped),
      foldl_plain rfl (by exact hescaped) (by simp [hcomma]) (by simp [hquote])]
    cases s
    simp_all

end AddressSplit

/-! ### The whole list -/

namespace Recipient

variable {r : Recipient}

theorem trimChars_render (h : r.CleanAddress) : trimChars r.render.toList = r.render.toList := by
  rw [← toList_rustTrim]
  unfold render
  split_ifs
  · rw [h.2.2]
  · rw [rustTrim_formatMailbox]

theorem render_ne_empty (h : r.name = "" → r.address ≠ "") : r.render.toList ≠ [] := by
  unfold render
  split_ifs with hname
  · exact fun hnil => h hname (String.toList_injective hnil)
  · rw [toList_formatMailbox]
    simp

end Recipient

theorem flush_join {recipients : List Recipient} (hclean : ∀ r ∈ recipients, r.CleanAddress)
    (hsome : ∀ r ∈ recipients, r.name = "" → r.address ≠ "") {s : AddressSplit}
    (hquotes : s.inQuotes = false) (hescaped : s.escaped = false)
    (hwhite : ∀ c ∈ s.current, isRustWhitespace c = true) :
    ((joinRecipients recipients).toList.foldl AddressSplit.step s).flush =
      s.result ++ recipients.map Recipient.render := by
  induction recipients generalizing s with
  | nil =>
    have hnil : trimChars s.current = [] := by
      rw [← List.append_nil s.current, trimChars_append_white hwhite]
      rfl
    have hempty : joinRecipients [] = "" := rfl
    simp [hempty, AddressSplit.flush, hnil]
  | cons r rest ih =>
    have hr := hclean r List.mem_cons_self
    have hrender := AddressSplit.foldl_render hquotes hescaped hr
    have htrim : trimChars (s.current ++ r.render.toList) = r.render.toList := by
      rw [trimChars_append_white hwhite, Recipient.trimChars_render hr]
    have hflush : AddressSplit.flush { s with current := s.current ++ r.render.toList } =
        s.result ++ [r.render] := by
      rw [AddressSplit.flush]
      simp only [htrim]
      rw [if_pos (Recipient.render_ne_empty (hsome r List.mem_cons_self)), String.ofList_toList]
    by_cases hrest : rest = []
    · subst hrest
      have hone : joinRecipients [r] = r.render := String.intercalate_singleton
      rw [hone, hrender, hflush]
      rfl
    · have hjoin : (joinRecipients (r :: rest)).toList =
          r.render.toList ++ ',' :: ' ' :: (joinRecipients rest).toList := by
        rw [joinRecipients, List.map_cons,
          String.intercalate_cons_of_ne_nil (by simpa using hrest), String.toList_append,
          String.toList_append, List.append_assoc]
        rfl
      have hcomma : AddressSplit.step { s with current := s.current ++ r.render.toList } ',' =
          { s with result := s.result ++ [r.render], current := [] } := by
        rw [← hflush]
        simp [AddressSplit.step, hquotes, hescaped, AddressSplit.flush]
      have hspace :
          AddressSplit.step { s with result := s.result ++ [r.render], current := [] } ' ' =
          { s with result := s.result ++ [r.render], current := [' '] } := by
        simp [AddressSplit.step, hquotes, hescaped]
      rw [hjoin, List.foldl_append, hrender, List.foldl_cons, hcomma, List.foldl_cons, hspace,
        ih (fun q hq => hclean q (List.mem_cons_of_mem _ hq))
          (fun q hq => hsome q (List.mem_cons_of_mem _ hq)) (by exact hquotes) (by exact hescaped)
          (by
            intro c hc
            obtain rfl := List.mem_singleton.mp hc
            rfl),
        List.append_assoc]
      rfl

/-- Splitting a joined list gives back its entries, whatever stands in the names. -/
theorem splitAddressList_joinRecipients {recipients : List Recipient}
    (hclean : ∀ r ∈ recipients, r.CleanAddress)
    (hsome : ∀ r ∈ recipients, r.name = "" → r.address ≠ "") :
    splitAddressList (joinRecipients recipients) = recipients.map Recipient.render :=
  flush_join hclean hsome rfl rfl fun _ hc => absurd hc List.not_mem_nil

theorem splitAddressList_joinRecipients_quoted :
    let recipients : List Recipient := [⟨"Doe, \"Jr,.,\" John", "john@example.com"⟩,
      ⟨"Trail\\", "trail@example.com"⟩, ⟨"", "list@vger.kernel.org"⟩]
    splitAddressList (joinRecipients recipients) = recipients.map Recipient.render :=
  splitAddressList_joinRecipients (by unfold Recipient.CleanAddress; decide) (by decide)

/-- An entry without name and address is not seen again. -/
theorem splitAddressList_drops_empty :
    let recipients : List Recipient := [⟨"", ""⟩]
    (∀ r ∈ recipients, r.CleanAddress) ∧
      splitAddressList (joinRecipients recipients) ≠ recipients.map Recipient.render := by
  unfold Recipient.CleanAddress
  decide

end Sashiko
