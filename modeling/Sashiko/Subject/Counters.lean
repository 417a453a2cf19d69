import Sashiko.Subject.Promotion

/-! The part counters of a subject, and the text before and behind them. -/

namespace Sashiko

variable {t : CharTables}

/-! ### One counter -/

/-- The text does not start with a digit, nor with a slash and a digit. -/
def NoCounterAhead (t : CharTables) (z : Text) : Prop :=
  z.head?.any t.digit = false ∧ ∀ rest, z = '/' :: rest → rest.head?.any t.digit = false

theorem noCounterAhead_of_ne {c : Char} (hdigit : t.digit c = false) (hslash : c ≠ '/') (z : Text) :
    NoCounterAhead t (c :: z) :=
  ⟨hdigit, fun _ heq => absurd (List.cons.inj heq).1 hslash⟩

theorem counterAt_append {u z : Text} (hz : NoCounterAhead t z) :
    counterAt t (u ++ z) = (counterAt t u).map fun m => (m.1, m.2.1, m.2.2 ++ z) := by
  obtain ⟨htake, hdrop⟩ := span_append_stop (u := u) hz.1
  unfold counterAt
  rw [htake, hdrop]
  cases hu : u.dropWhile t.digit with
  | nil =>
    rw [List.nil_append]
    cases z with
    | nil => rfl
    | cons c rest =>
      by_cases hc : c = '/'
      · subst hc
        have hrest := (span_append_stop (u := []) (hz.2 rest rfl)).1
        simp only [List.nil_append, List.takeWhile_nil] at hrest
        simp [hrest]
      · simp [hc]
  | cons c rest =>
    by_cases hc : c = '/'
    · subst hc
      obtain ⟨htake', hdrop'⟩ := span_append_stop (u := rest) hz.1
      simp only [List.cons_append, htake', hdrop']
      split_ifs <;> rfl
    · simp [hc]

/-- A bracket is closed in the same line. -/
theorem close_append {w z : Text} :
    ']' ∈ (w ++ z).takeWhile isDot ↔
      ']' ∈ w.takeWhile isDot ∨ '\n' ∉ w ∧ ']' ∈ z.takeWhile isDot := by
  by_cases hline : '\n' ∈ w
  · have hsome : ∃ c ∈ w, isDot c = false := ⟨'\n', hline, by decide⟩
    rw [(span_append hsome z).1]
    simp [hline]
  · have hall : ∀ c ∈ w, isDot c = true := fun c hc =>
      decide_eq_true fun heq => hline (heq ▸ hc)
    rw [List.takeWhile_append_of_pos hall, List.mem_append, List.takeWhile_eq_self_iff.mpr hall]
    simp [hline]

/-- Whether a bracket is closed is the same for two texts wherever it is opened before them. -/
theorem close_congr {z z' : Text} (h : ']' ∈ z.takeWhile isDot ↔ ']' ∈ z'.takeWhile isDot)
    (w : Text) : ']' ∈ (w ++ z).takeWhile isDot ↔ ']' ∈ (w ++ z').takeWhile isDot := by
  rw [close_append, close_append, h]

/-- Texts that continue every text before them alike, but for tags. -/
structure SameCounters (t : CharTables) (z z' : Text) : Prop where
  ahead : NoCounterAhead t z
  ahead' : NoCounterAhead t z'
  close : ']' ∈ z.takeWhile isDot ↔ ']' ∈ z'.takeWhile isDot
  behind : counterBehind t z = counterBehind t z'

theorem SameCounters.counterToClose {z z' : Text} (h : SameCounters t z z') (u : Text) :
    counterToClose t (u ++ z) = counterToClose t (u ++ z') := by
  rw [Sashiko.counterToClose, Sashiko.counterToClose, counterAt_append h.ahead,
    counterAt_append h.ahead']
  cases counterAt t u with
  | none => rfl
  | some m =>
    rw [Option.map_some, Option.map_some, Option.bind_some, Option.bind_some]
    simp only [close_congr h.close]

theorem SameCounters.append {z z' : Text} (h : SameCounters t z z') (w : Text) :
    counterBehind t (w ++ z) = counterBehind t (w ++ z') := by
  refine firstMatch_frame (fun b u₂ _ _ => h.counterToClose u₂) ?_
  rw [firstMatch_const (lastBefore none w) none, firstMatch_const (lastBefore none w) none]
  exact h.behind

end Sashiko
