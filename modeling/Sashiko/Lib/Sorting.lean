import Mathlib.Data.List.Basic
import Mathlib.Tactic.Common
import Sashiko.Text

/-! Stable sorts, and the order of texts that they sort by. -/

namespace Sashiko

/-! ### Stable sorts -/

section Stable

variable {α : Type} {le : α → α → Bool}

/-- What the order does not tell apart stays as it was. -/
theorem filter_mergeSort (htrans : ∀ a b c, le a b = true → le b c = true → le a c = true)
    (htotal : ∀ a b, (le a b || le b a) = true) {p : α → Bool}
    (hp : ∀ a b, p a = true → p b = true → le a b = true) (xs : List α) :
    (xs.mergeSort le).filter p = xs.filter p := by
  have hsorted : (xs.filter p).Pairwise (le · · = true) :=
    List.pairwise_of_forall_mem_list fun a ha b hb =>
      hp a b (List.mem_filter.mp ha).2 (List.mem_filter.mp hb).2
  have hsub : (xs.filter p).Sublist (xs.mergeSort le) :=
    List.sublist_mergeSort htrans htotal hsorted List.filter_sublist
  have hkept : (xs.filter p).Sublist ((xs.mergeSort le).filter p) := by
    have h := hsub.filter p
    rwa [List.filter_filter, List.filter_congr fun x _ => Bool.and_self (p x)] at h
  have hlength := ((List.mergeSort_perm xs le).filter p).length_eq
  exact (hkept.eq_of_length hlength.symm).symm

end Stable

/-! ### The order of texts -/

theorem charsLt_irrefl (a : List Char) : charsLt a a = false := by
  induction a with
  | nil => rfl
  | cons c a ih => simp [charsLt, ih]

theorem charsLt_trans {a b c : List Char} (hab : charsLt a b = true) (hbc : charsLt b c = true) :
    charsLt a c = true := by
  induction a generalizing b c with
  | nil =>
    cases c with
    | nil => cases b <;> cases hbc
    | cons z c => rfl
  | cons x a ih =>
    cases b with
    | nil => cases hab
    | cons y b =>
      cases c with
      | nil => cases hbc
      | cons z c =>
        simp only [charsLt, Bool.or_eq_true, decide_eq_true_eq, Bool.and_eq_true] at hab hbc ⊢
        rcases hab with hxy | ⟨hxy, hab⟩
        · rcases hbc with hyz | ⟨hyz, -⟩
          · exact .inl (hxy.trans hyz)
          · exact .inl (hyz ▸ hxy)
        · rcases hbc with hyz | ⟨hyz, hbc⟩
          · exact .inl (hxy ▸ hyz)
          · exact .inr ⟨hxy.trans hyz, ih hab hbc⟩

theorem charsLt_total {a b : List Char} (hab : charsLt a b = false) (hba : charsLt b a = false) :
    a = b := by
  induction a generalizing b with
  | nil =>
    cases b with
    | nil => rfl
    | cons y b => cases hab
  | cons x a ih =>
    cases b with
    | nil => cases hba
    | cons y b =>
      simp only [charsLt, Bool.or_eq_false_iff, decide_eq_false_iff_not, Bool.and_eq_false_iff,
        not_lt] at hab hba
      have hxy : x.toNat = y.toNat := le_antisymm hba.1 hab.1
      have hchar : x = y := Char.toNat_inj.mp hxy
      rw [hchar, ih (hab.2.resolve_left fun hne => hne hxy)
        (hba.2.resolve_left fun hne => hne hxy.symm)]

theorem textLt_irrefl (a : String) : textLt a a = false := charsLt_irrefl a.toList

theorem textLt_trans {a b c : String} (hab : textLt a b = true) (hbc : textLt b c = true) :
    textLt a c = true := charsLt_trans hab hbc

theorem textLt_asymm {a b : String} (h : textLt a b = true) : textLt b a = false := by
  by_contra hba
  have := textLt_trans h (Bool.not_eq_false _ ▸ hba)
  rw [textLt_irrefl] at this
  cases this

theorem textLt_total {a b : String} (hab : textLt a b = false) (hba : textLt b a = false) :
    a = b := String.toList_injective (charsLt_total hab hba)

/-- `Ordering::is_le` of `str::cmp` -/
def textLe (a b : String) : Bool := !textLt b a

theorem textLe_trans {a b c : String} (hab : textLe a b = true) (hbc : textLe b c = true) :
    textLe a c = true := by
  rw [textLe, Bool.not_eq_true'] at hab hbc ⊢
  by_contra hca
  have hlt := Bool.not_eq_false _ ▸ hca
  cases hab' : textLt a b with
  | true =>
    rw [textLt_trans hlt hab'] at hbc
    cases hbc
  | false =>
    obtain rfl := textLt_total hab' hab
    rw [hlt] at hbc
    cases hbc

theorem textLe_total (a b : String) : (textLe a b || textLe b a) = true := by
  rw [textLe, textLe]
  cases h : textLt b a with
  | true => rw [textLt_asymm h]; rfl
  | false => rfl

theorem textLe_antisymm {a b : String} (hab : textLe a b = true) (hba : textLe b a = true) :
    a = b := by
  rw [textLe, Bool.not_eq_true'] at hab hba
  exact textLt_total hba hab

end Sashiko
