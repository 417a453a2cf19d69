import Mathlib.Data.List.TakeWhile
import Mathlib.Tactic.Common

/-! Transcripts in which some entries owe a block of answers. An entry that owes `ks` is settled
when exactly the keys `ks` stand between it and the next entry that speaks. -/

namespace Sashiko

variable {α β : Type*} (speaks : α → Bool) (owes : α → Option (List β)) (key : α → β)

def Settled : List α → Prop
  | [] => True
  | m :: rest =>
    (∀ ks, owes m = some ks → (rest.takeWhile (!speaks ·)).map key = ks) ∧ Settled rest

def StartsSpeaking : List α → Prop
  | [] => True
  | m :: _ => speaks m = true

def decidableSettled [DecidableEq β] : (xs : List α) → Decidable (Settled speaks owes key xs)
  | [] => .isTrue trivial
  | m :: rest =>
    have : Decidable (Settled speaks owes key rest) := decidableSettled rest
    have : Decidable (∀ ks, owes m = some ks → (rest.takeWhile (!speaks ·)).map key = ks) :=
      match owes m with
      | none => .isTrue (by simp)
      | some ks => decidable_of_iff ((rest.takeWhile (!speaks ·)).map key = ks) (by simp)
    inferInstanceAs (Decidable (_ ∧ _))

variable {speaks owes key}

theorem takeWhile_append_speaking {b : List α} (hb : StartsSpeaking speaks b) (a : List α) :
    (a ++ b).takeWhile (!speaks ·) = a.takeWhile (!speaks ·) := by
  induction a with
  | nil =>
    cases b with
    | nil => rfl
    | cons m rest =>
      have hm : speaks m = true := hb
      simp [hm]
  | cons x a ih => simp only [List.cons_append, List.takeWhile_cons, ih]

/-- A block that starts by speaking closes what came before it, and only that. -/
theorem settled_append {b : List α} (hb : StartsSpeaking speaks b) (a : List α) :
    Settled speaks owes key (a ++ b) ↔
      Settled speaks owes key a ∧ Settled speaks owes key b := by
  induction a with
  | nil => simp [Settled]
  | cons x a ih =>
    simp only [List.cons_append, Settled, ih, takeWhile_append_speaking hb, and_assoc]

theorem settled_of_owes_none {xs : List α} (h : ∀ x ∈ xs, owes x = none) :
    Settled speaks owes key xs := by
  induction xs with
  | nil => trivial
  | cons x xs ih =>
    refine ⟨fun ks hk => ?_, ih fun y hy => h y (List.mem_cons_of_mem x hy)⟩
    rw [h x List.mem_cons_self] at hk
    exact absurd hk (by simp)

/-- The one way a debt is paid: its answers follow at once and none of them speaks. -/
theorem settled_cons_answers {m : α} {answers : List α} {ks : List β}
    (howes : owes m = some ks) (hsilent : ∀ x ∈ answers, speaks x = false)
    (hnone : ∀ x ∈ answers, owes x = none) (hkeys : answers.map key = ks) :
    Settled speaks owes key (m :: answers) := by
  refine ⟨fun ks' hk => ?_, settled_of_owes_none hnone⟩
  rw [howes] at hk
  have hall : answers.takeWhile (!speaks ·) = answers :=
    List.takeWhile_eq_self_iff.mpr fun x hx => by simp [hsilent x hx]
  rw [hall, hkeys, Option.some.inj hk]

theorem not_settled_of_interrupted {m x : α} {rest : List α} {ks : List β}
    (howes : owes m = some ks) (hks : ks ≠ []) (hx : speaks x = true) :
    ¬ Settled speaks owes key (m :: x :: rest) := by
  rintro ⟨h, -⟩
  have h := h ks howes
  simp only [List.takeWhile_cons, hx, Bool.not_true, Bool.false_eq_true, if_false,
    List.map_nil] at h
  exact hks h.symm

end Sashiko
