import Mathlib.Data.List.Basic
import Mathlib.Tactic.Common

/-! Pages of a list, numbered from one. -/

namespace Sashiko

variable {α : Type*}

/-- `LIMIT limit OFFSET limit * (page - 1)` -/
def pageOf (limit page : ℕ) (rows : List α) : List α := (rows.drop (limit * (page - 1))).take limit

theorem mem_of_mem_pageOf {limit page : ℕ} {rows : List α} {x : α} (h : x ∈ pageOf limit page rows) :
    x ∈ rows := List.mem_of_mem_drop (List.mem_of_mem_take h)

/-- The pages cover the list. -/
theorem exists_mem_pageOf_iff {limit : ℕ} (hlimit : 0 < limit) {rows : List α} {x : α} :
    (∃ page, x ∈ pageOf limit page rows) ↔ x ∈ rows := by
  refine ⟨fun ⟨page, h⟩ => mem_of_mem_pageOf h, fun h => ?_⟩
  obtain ⟨i, hi, rfl⟩ := List.mem_iff_getElem.mp h
  have hsplit : limit * (i / limit) + i % limit = i := Nat.div_add_mod i limit
  have hmod : i % limit < limit := Nat.mod_lt i hlimit
  refine ⟨i / limit + 1, List.mem_iff_getElem.mpr ⟨i % limit, ?_, ?_⟩⟩
  · simp only [pageOf, List.length_take, List.length_drop, Nat.add_sub_cancel]
    omega
  · simp only [pageOf, List.getElem_take, List.getElem_drop, Nat.add_sub_cancel, hsplit]

end Sashiko
