import Sashiko.Prior.InterDiff

/-! The lines of a text that mark a change, and those that the compact form prints. -/

namespace Sashiko

/-! ### The lines of a text that mark a change -/

def isChangeLine (line : Chars) : Bool := line.head? = some '-' || line.head? = some '+'

def changeLines (text : Chars) : List Chars := (splitChars '\n' text).filter isChangeLine

theorem changeLines_of_lines {lines : List Chars} (h : ∀ line ∈ lines, '\n' ∉ line) :
    changeLines (lines.flatMap (· ++ ['\n'])) = lines.filter isChangeLine := by
  have hsplit : ∀ line ∈ lines ++ [[]], '\n' ∉ line := by
    intro line hline
    rcases List.mem_append.mp hline with hline | hline
    · exact h line hline
    · rw [List.mem_singleton.mp hline]
      exact List.not_mem_nil
  rw [changeLines, joinLines_flatMap, splitChars_joinLines (by simp) hsplit, List.filter_append]
  simp [isChangeLine]

/-- What follows a text goes on in its last line. -/
theorem splitChars_append {sep : Char} {xs : Chars} {init : List Chars} {last : Chars}
    (h : splitChars sep xs = init ++ [last]) (ys : Chars) :
    ∃ first rest, splitChars sep ys = first :: rest ∧
      splitChars sep (xs ++ ys) = init ++ (last ++ first) :: rest := by
  induction xs generalizing init last with
  | nil =>
    obtain ⟨hi, hl⟩ := List.append_inj' (show [] ++ [[]] = init ++ [last] from h) rfl
    obtain ⟨first, rest, hys⟩ := List.exists_cons_of_ne_nil (splitChars_ne_nil sep ys)
    refine ⟨first, rest, hys, ?_⟩
    rw [← hi, ← List.singleton_inj.mp hl]
    exact hys
  | cons c xs ih =>
    obtain ⟨part, parts, hxs⟩ := List.exists_cons_of_ne_nil (splitChars_ne_nil sep xs)
    obtain ⟨init', last', hinit⟩ : ∃ init' last', splitChars sep xs = init' ++ [last'] :=
      ⟨_, _, (List.dropLast_append_getLast (splitChars_ne_nil sep xs)).symm⟩
    obtain ⟨first, rest, hys, happend⟩ := ih hinit
    refine ⟨first, rest, hys, ?_⟩
    rw [List.cons_append, splitChars, happend]
    rw [splitChars, hinit] at h
    split_ifs at h ⊢ with hc
    · obtain ⟨hi, hl⟩ :=
        List.append_inj' (show ([] :: init') ++ [last'] = init ++ [last] from h) rfl
      rw [← hi, ← List.singleton_inj.mp hl]
      rfl
    · cases init' with
      | nil =>
        obtain ⟨hi, hl⟩ := List.append_inj' (show [] ++ [c :: last'] = init ++ [last] from h) rfl
        rw [← hi, ← List.singleton_inj.mp hl]
        rfl
      | cons start init' =>
        obtain ⟨hi, hl⟩ :=
          List.append_inj'
            (show ((c :: start) :: init') ++ [last'] = init ++ [last] from h) rfl
        rw [← hi, ← List.singleton_inj.mp hl]
        rfl

theorem not_isChangeLine_of_whitespace {line : Chars}
    (h : ∀ c ∈ line, isRustWhitespace c = true) : isChangeLine line = false := by
  cases line with
  | nil => rfl
  | cons c line =>
    have hc := h c List.mem_cons_self
    simp only [isChangeLine, List.head?_cons, Option.some.injEq, Bool.or_eq_false_iff,
      decide_eq_false_iff_not]
    constructor <;> rintro rfl <;> revert hc <;> decide

/-- White space after a text can add to its last line, and nothing else. -/
theorem changeLines_append {text spaces : Chars} {init : List Chars} {last : Chars}
    (h : splitChars '\n' text = init ++ [last])
    (hspaces : ∀ c ∈ spaces, isRustWhitespace c = true) :
    ∃ tail, (∀ c ∈ tail, isRustWhitespace c = true) ∧
      changeLines (text ++ spaces) = init.filter isChangeLine ++
        [last ++ tail].filter isChangeLine := by
  obtain ⟨first, rest, hsplit, happend⟩ := splitChars_append h spaces
  have hwhite : ∀ line ∈ first :: rest, ∀ c ∈ line, isRustWhitespace c = true :=
    fun line hline c hc => hspaces c ((mem_splitChars (hsplit ▸ hline)).2 hc)
  have hrest : rest.filter isChangeLine = [] := List.filter_eq_nil_iff.mpr fun line hline => by
    rw [not_isChangeLine_of_whitespace (hwhite line (List.mem_cons_of_mem _ hline))]
    exact Bool.false_ne_true
  refine ⟨first, hwhite first List.mem_cons_self, ?_⟩
  rw [changeLines, happend, List.filter_append, List.filter_cons, List.filter_cons, hrest,
    List.filter_nil]

/-- Two texts that are the same once trimmed mark the same changes, but for the end of the last. -/
theorem changeLines_of_trimEnd {text other : Chars} (h : trimEnd text = trimEnd other) :
    changeLines text = changeLines other ∨
      ∃ init sign m m', changeLines text = init ++ [sign :: m] ∧
        changeLines other = init ++ [sign :: m'] := by
  obtain ⟨spaces, hspaces, htext⟩ := exists_trimEnd text
  obtain ⟨spaces', hspaces', hother⟩ := exists_trimEnd other
  rw [← h] at hother
  obtain ⟨init, last, hsplit⟩ : ∃ init last, splitChars '\n' (trimEnd text) = init ++ [last] :=
    ⟨_, _, (List.dropLast_append_getLast (splitChars_ne_nil '\n' _)).symm⟩
  obtain ⟨tail, htail, hlines⟩ := changeLines_append hsplit hspaces
  obtain ⟨tail', htail', hlines'⟩ := changeLines_append hsplit hspaces'
  rw [htext, hother, hlines, hlines']
  cases last with
  | nil =>
    left
    rw [List.nil_append, List.nil_append, List.filter_singleton, List.filter_singleton,
      not_isChangeLine_of_whitespace htail, not_isChangeLine_of_whitespace htail']
    rfl
  | cons sign m =>
    have hsame : isChangeLine (sign :: m ++ tail') = isChangeLine (sign :: m ++ tail) := rfl
    rw [List.filter_singleton, List.filter_singleton, hsame]
    cases isChangeLine (sign :: m ++ tail) with
    | false => exact .inl rfl
    | true => exact .inr ⟨_, sign, m ++ tail, m ++ tail', rfl, rfl⟩

/-! ### What is printed -/

theorem isChangeLine_opLine (op : DiffOp) : isChangeLine (opLine op) = op.isChange := by
  cases op <;> rfl

theorem opLine_injective : Function.Injective opLine := by
  intro op op' h
  cases op <;> cases op' <;> simp_all [opLine]

theorem keepFlag_of_isChange {ops : List DiffOp} {op : DiffOp} {idx : ℕ}
    (h : (op, idx) ∈ ops.zipIdx) (hchange : op.isChange = true) : keepFlag ops idx = true := by
  have hlt : idx < ops.length := (List.mem_zipIdx' h).1
  refine List.any_eq_true.mpr ⟨(op, idx), h, ?_⟩
  simp only [hchange, Bool.true_and, Bool.and_eq_true, decide_eq_true_eq]
  omega

/-- The lines printed are those of the operations kept, and the dots between them. -/
theorem exists_printKept (ops : List DiffOp) {rest : List (DiffOp × ℕ)}
    (hkeep : ∀ q ∈ rest, q.1.isChange = true → keepFlag ops q.2 = true)
    (hline : ∀ q ∈ rest, '\n' ∉ opLine q.1) (skipped : Bool) (out : Chars) :
    ∃ lines : List Chars, printKept ops rest skipped out = out ++ lines.flatMap (· ++ ['\n']) ∧
      (∀ line ∈ lines, '\n' ∉ line) ∧
      lines.filter isChangeLine = ((rest.map Prod.fst).filter EditOp.isChange).map opLine := by
  induction rest generalizing skipped out with
  | nil => exact ⟨[], by simp [printKept], by simp, rfl⟩
  | cons q rest ih =>
    obtain ⟨op, idx⟩ := q
    have hop := hline (op, idx) List.mem_cons_self
    have ih := ih (fun q hq => hkeep q (List.mem_cons_of_mem _ hq))
      (fun q hq => hline q (List.mem_cons_of_mem _ hq))
    rw [printKept]
    cases hflag : keepFlag ops idx with
    | false =>
      obtain ⟨lines, hout, hlines, hchanges⟩ := ih true out
      have hequal : op.isChange = false := by
        by_contra hop
        have := hkeep (op, idx) List.mem_cons_self (by simpa using hop)
        rw [hflag] at this
        cases this
      refine ⟨lines, hout, hlines, ?_⟩
      rw [List.map_cons, List.filter_cons_of_neg (by simp [hequal]), hchanges]
    | true =>
      have hcons : ∀ lines : List Chars, lines.filter isChangeLine =
          ((rest.map Prod.fst).filter EditOp.isChange).map opLine →
          (opLine op :: lines).filter isChangeLine =
            (((op, idx) :: rest).map Prod.fst |>.filter EditOp.isChange).map opLine := by
        intro lines hchanges
        rw [List.map_cons, List.filter_cons, List.filter_cons, isChangeLine_opLine, hchanges]
        split_ifs <;> rfl
      simp only [Bool.not_true, Bool.false_eq_true, if_false]
      split_ifs with hdots
      · obtain ⟨lines, hout, hlines, hchanges⟩ :=
          ih false (out ++ "...\n".toList ++ opLine op ++ ['\n'])
        refine ⟨['.', '.', '.'] :: opLine op :: lines, ?_, ?_, ?_⟩
        · rw [hout, List.flatMap_cons, List.flatMap_cons]
          simp
        · intro line hmem
          rcases List.mem_cons.mp hmem with rfl | hmem
          · decide
          · exact (List.mem_cons.mp hmem).elim (· ▸ hop) (hlines line)
        · rw [List.filter_cons_of_neg (by decide)]
          exact hcons lines hchanges
      · obtain ⟨lines, hout, hlines, hchanges⟩ := ih false (out ++ opLine op ++ ['\n'])
        refine ⟨opLine op :: lines, ?_, ?_, hcons lines hchanges⟩
        · rw [hout, List.flatMap_cons]
          simp
        · exact fun line hmem => (List.mem_cons.mp hmem).elim (· ▸ hop) (hlines line)

/-- Context is left out, a change never. -/
theorem exists_formatCompact {ops : List DiffOp} (hline : ∀ op ∈ ops, '\n' ∉ opLine op) :
    ∃ text, trimEnd text = formatCompactDiffOps ops ∧
      changeLines text = (EditScript.changes ops).map opLine := by
  have hmem : ∀ q ∈ ops.zipIdx, q.1 ∈ ops := fun q hq =>
    List.fst_mem_of_mem_zipIdx hq
  obtain ⟨lines, hout, hlines, hchanges⟩ := exists_printKept ops
    (fun q hq => keepFlag_of_isChange hq) (fun q hq => hline q.1 (hmem q hq)) false []
  refine ⟨printKept ops ops.zipIdx false [], rfl, ?_⟩
  rw [hout, List.nil_append, changeLines_of_lines hlines, hchanges, List.zipIdx_map_fst]
  rfl

end Sashiko
