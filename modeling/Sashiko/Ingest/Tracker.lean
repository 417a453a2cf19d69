import Mathlib.Order.Lattice
import Sashiko.Lib.Table

/-! Receipts for the articles handed downstream, and the mark of a group: what `events.rs` keeps in
memory and what `db.rs` keeps in `mailing_lists`. -/

namespace Sashiko

/-! ### The tracker -/

structure TrackerState where
  inFlight : ℕ
  lowestLost : Option ℕ
  deriving DecidableEq, Repr

structure IngestReceipt where
  article : ℕ
  settled : Bool
  deriving DecidableEq, Repr

def IngestReceipt.settle (r : IngestReceipt) : IngestReceipt := { r with settled := true }

namespace TrackerState

def new : TrackerState := ⟨0, none⟩

def issue (t : TrackerState) (article : ℕ) : TrackerState × IngestReceipt :=
  ({ t with inFlight := t.inFlight + 1 }, ⟨article, false⟩)

/-- The record of what was lost is cleared. -/
def takeSafeMark (t : TrackerState) (handedOffUpTo : ℕ) : TrackerState × ℕ :=
  ({ t with lowestLost := none },
    match t.lowestLost with
    | some lost => min handedOffUpTo (lost - 1)
    | none => handedOffUpTo)

def lose (t : TrackerState) (article : ℕ) : Option ℕ :=
  some (match t.lowestLost with
    | some lowest => min lowest article
    | none => article)

/-- A receipt goes out of scope. -/
def drop (t : TrackerState) (r : IngestReceipt) : TrackerState where
  inFlight := t.inFlight - 1
  lowestLost := if r.settled then t.lowestLost else t.lose r.article

/-- Something at or below the article was lost since the record was cleared. -/
def LostUpTo (t : TrackerState) (a : ℕ) : Prop := ∃ lost, t.lowestLost = some lost ∧ lost ≤ a

variable {t : TrackerState} {r : IngestReceipt} {a : ℕ}

theorem LostUpTo.drop (h : t.LostUpTo a) (r : IngestReceipt) : (t.drop r).LostUpTo a := by
  obtain ⟨lost, hlost, hle⟩ := h
  unfold TrackerState.drop
  by_cases hr : r.settled
  · exact ⟨lost, by rw [if_pos hr]; exact hlost, hle⟩
  · refine ⟨min lost r.article, ?_, (Nat.min_le_left _ _).trans hle⟩
    rw [if_neg hr, lose, hlost]

theorem lostUpTo_drop (h : r.settled = false) : (t.drop r).LostUpTo r.article := by
  have hr : ¬r.settled = true := by rw [h]; exact Bool.false_ne_true
  unfold TrackerState.drop
  cases hlost : t.lowestLost with
  | none => exact ⟨r.article, by rw [if_neg hr, lose, hlost], Nat.le_refl _⟩
  | some lost =>
    exact ⟨min lost r.article, by rw [if_neg hr, lose, hlost], Nat.min_le_right _ _⟩

theorem takeSafeMark_le (t : TrackerState) (n : ℕ) : (t.takeSafeMark n).2 ≤ n := by
  unfold takeSafeMark
  split
  · exact Nat.min_le_left _ _
  · exact Nat.le_refl _

/-- The mark stays below everything that was lost. -/
theorem not_lostUpTo_takeSafeMark {n : ℕ} (hpos : 0 < a) (ha : a ≤ (t.takeSafeMark n).2) :
    ¬t.LostUpTo a := by
  rintro ⟨lost, hlost, hle⟩
  rw [takeSafeMark, hlost] at ha
  have hlt : a ≤ lost - 1 := ha.trans (Nat.min_le_right _ _)
  omega

end TrackerState

/-! ### The marks -/

/-- A row of `mailing_lists`; `linked` says that `messages_mailing_lists` has a message for it. -/
structure MailingList where
  name : String
  nntpGroup : String
  lastArticleNum : ℕ
  linked : Bool
  deriving DecidableEq, Repr

abbrev MailingLists := Table MailingList.nntpGroup

namespace MailingLists

def ensureMailingList (lists : MailingLists) (name group : String) : MailingLists :=
  Table.upsert
    (lists.delete fun l =>
      l.name = name && l.nntpGroup != group && l.lastArticleNum = 0 && !l.linked)
    ⟨name, group, 0, false⟩ fun l => { l with name := name }

def getLastArticleNum (lists : MailingLists) (group : String) : ℕ :=
  ((lists.lookup group).map MailingList.lastArticleNum).getD 0

def updateLastArticleNum (lists : MailingLists) (group : String) (num : ℕ) : MailingLists :=
  lists.update (·.nntpGroup = group) fun l => { l with lastArticleNum := num }

/-- A message of the list was stored. -/
def linkMessage (lists : MailingLists) (group : String) : MailingLists :=
  lists.update (·.nntpGroup = group) fun l => { l with linked := true }

theorem lookup_delete_getD {lists : MailingLists} {p : MailingList → Bool} {f : MailingList → ℕ}
    (hp : ∀ l, p l = true → f l = 0) (group : String) :
    (((lists.delete p).lookup group).map f).getD 0 = ((lists.lookup group).map f).getD 0 := by
  cases hfound : lists.lookup group with
  | none =>
    have hnone : (lists.delete p).lookup group = none :=
      Table.lookup_eq_none.mpr fun l hl =>
        Table.lookup_eq_none.mp hfound l (Table.mem_delete.mp hl).1
    rw [hnone]
  | some l =>
    obtain ⟨hl, hkey⟩ := Table.lookup_eq_some.mp hfound
    cases hdel : p l with
    | false =>
      rw [Table.lookup_eq_some.mpr ⟨Table.mem_delete.mpr ⟨hl, hdel⟩, hkey⟩]
    | true =>
      have hnone : (lists.delete p).lookup group = none :=
        Table.lookup_eq_none.mpr fun l' hl' hkey' => by
          obtain ⟨hmem, hkept⟩ := Table.mem_delete.mp hl'
          rw [Table.eq_of_key_eq hmem hl (hkey'.trans hkey.symm), hdel] at hkept
          cases hkept
      rw [hnone]
      exact (hp l hdel).symm

/-- Only lists whose mark was never moved are renamed away, so no mark changes. -/
theorem getLastArticleNum_ensureMailingList (lists : MailingLists) (name group g : String) :
    (lists.ensureMailingList name group).getLastArticleNum g = lists.getLastArticleNum g := by
  unfold ensureMailingList getLastArticleNum
  rw [Table.lookup_upsert]
  generalize hkept : lists.delete _ = kept
  have hsame : ((kept.lookup g).map MailingList.lastArticleNum).getD 0 =
      ((lists.lookup g).map MailingList.lastArticleNum).getD 0 := by
    rw [← hkept]
    refine lookup_delete_getD (fun l hl => ?_) g
    simp only [Bool.and_eq_true, decide_eq_true_eq] at hl
    exact hl.1.2
  rw [← hsame]
  split_ifs with hkey
  · subst hkey
    cases kept.lookup group <;> rfl
  · rfl

theorem mem_ensureMailingList (lists : MailingLists) (name group : String) :
    group ∈ (lists.ensureMailingList name group).rows.map MailingList.nntpGroup :=
  Table.key_mem_upsert _ _ _

theorem getLastArticleNum_updateLastArticleNum {lists : MailingLists} {group : String}
    (hgroup : group ∈ lists.rows.map MailingList.nntpGroup) (num : ℕ) (g : String) :
    (lists.updateLastArticleNum group num).getLastArticleNum g =
      if g = group then num else lists.getLastArticleNum g := by
  unfold updateLastArticleNum getLastArticleNum
  rw [Table.lookup_update]
  cases hfound : lists.lookup g with
  | none =>
    have hne : g ≠ group := by
      rintro rfl
      obtain ⟨l, hl, hkey⟩ := List.mem_map.mp hgroup
      exact Table.lookup_eq_none.mp hfound l hl hkey
    rw [if_neg hne]
    rfl
  | some l =>
    obtain ⟨-, rfl⟩ := Table.lookup_eq_some.mp hfound
    simp only [Option.map_some, Option.getD_some, Table.updateRow, decide_eq_true_eq]
    split_ifs <;> rfl

theorem mem_updateLastArticleNum {lists : MailingLists} {group g : String} {num : ℕ} :
    g ∈ (lists.updateLastArticleNum group num).rows.map MailingList.nntpGroup ↔
      g ∈ lists.rows.map MailingList.nntpGroup := by
  rw [updateLastArticleNum, Table.keys_update]

theorem getLastArticleNum_linkMessage (lists : MailingLists) (group g : String) :
    (lists.linkMessage group).getLastArticleNum g = lists.getLastArticleNum g := by
  unfold linkMessage getLastArticleNum
  rw [Table.lookup_update, Option.map_map]
  congr 2
  funext l
  simp only [Function.comp_apply, Table.updateRow]
  split_ifs <;> rfl

theorem mem_linkMessage {lists : MailingLists} {group g : String} :
    g ∈ (lists.linkMessage group).rows.map MailingList.nntpGroup ↔
      g ∈ lists.rows.map MailingList.nntpGroup := by
  rw [linkMessage, Table.keys_update]

end MailingLists

end Sashiko
