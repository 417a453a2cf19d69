import Mathlib.Data.List.Induction
import Mathlib.Tactic.Common

/-! Scans with a look-back of one entry: an entry is passed over, or it is kept, or it closes the
entry kept last when that is an opener. What such a scan keeps may change when some of the entries
are left out first; it changes exactly when one of them stands between an opener and what would
then close it. -/

namespace Sashiko

structure LookBack (α : Type*) where
  skips : α → Bool
  closes : α → Bool
  opens : α → Bool

namespace LookBack

variable {α : Type*} (S : LookBack α)

def keep (kept : List α) (x : α) : List α :=
  if S.skips x then kept
  else if S.closes x then if kept.getLast?.any S.opens then kept.dropLast else kept
  else kept ++ [x]

def Opener (x : α) : Prop := S.skips x = false ∧ S.closes x = false ∧ S.opens x = true

def Closer (x : α) : Prop := S.skips x = false ∧ S.closes x = true

/-- Entries that leave nothing behind: what they open they close. -/
inductive Closed : List α → Prop
  | nil : Closed []
  | skip {x : α} {xs : List α} (hx : S.skips x = true) (hxs : Closed xs) : Closed (x :: xs)
  | pair {x y : α} {inside xs : List α} (hx : S.Opener x) (hy : S.Closer y)
      (hinside : Closed inside) (hxs : Closed xs) : Closed (x :: (inside ++ y :: xs))

variable {S} {x y : α} {xs ys mid kept : List α}

/-! ### One step -/

theorem keep_skip (h : S.skips x = true) (kept : List α) : S.keep kept x = kept := if_pos h

theorem keep_push (hskip : S.skips x = false) (hclose : S.closes x = false) (kept : List α) :
    S.keep kept x = kept ++ [x] := by
  rw [keep, hskip, hclose]
  rfl

theorem keep_closer (h : S.Closer y) (hx : S.opens x = true) (kept : List α) :
    S.keep (kept ++ [x]) y = kept := by
  simp [keep, h.1, h.2, hx]

theorem keep_closer_stuck (h : S.Closer y) (hlast : ∀ x ∈ kept.getLast?, S.opens x = false) :
    S.keep kept y = kept := by
  have hany : kept.getLast?.any S.opens = false := by
    cases hkept : kept.getLast? with
    | none => rfl
    | some x => exact hlast x hkept
  simp [keep, h.1, h.2, hany]

theorem getLast?_append_ne_nil (kept : List α) (h : xs ≠ []) :
    (kept ++ xs).getLast? = xs.getLast? := by
  rw [List.getLast?_append, List.getLast?_eq_some_getLast h, Option.some_or]

theorem skips_or_push_or_closer (S : LookBack α) (x : α) :
    S.skips x = true ∨ (S.skips x = false ∧ S.closes x = false) ∨ S.Closer x := by
  unfold Closer
  cases S.skips x <;> cases S.closes x <;> simp

/-! ### Closed entries -/

theorem Closed.append (hxs : S.Closed xs) (hys : S.Closed ys) : S.Closed (xs ++ ys) := by
  induction hxs with
  | nil => exact hys
  | skip hx _ ih => exact .skip hx ih
  | pair hx hy hinside _ _ ih =>
    rw [List.cons_append, List.append_assoc, List.cons_append]
    exact .pair hx hy hinside ih

theorem Closed.foldl_keep (h : S.Closed mid) (kept : List α) : mid.foldl S.keep kept = kept := by
  induction h generalizing kept with
  | nil => rfl
  | skip hx _ ih => rw [List.foldl_cons, keep_skip hx, ih]
  | pair hx hy _ _ ihinside ihxs =>
    rw [List.foldl_cons, keep_push hx.1 hx.2.1, List.foldl_append, ihinside, List.foldl_cons,
      keep_closer hy hx.2.2, ihxs]

/-- An opener that is the last entry kept has only closed entries behind it. -/
theorem exists_opener (h : xs.foldl S.keep [] = kept ++ [x]) (hx : S.opens x = true) :
    ∃ before mid, xs = before ++ x :: mid ∧ S.Opener x ∧ S.Closed mid ∧
      before.foldl S.keep [] = kept := by
  induction hlen : xs.length using Nat.strongRecOn generalizing xs kept x with
  | ind n ih =>
    subst hlen
    rcases xs.eq_nil_or_concat with rfl | ⟨front, y, rfl⟩
    · simp at h
    rw [List.concat_eq_append] at h ih ⊢
    rw [List.foldl_append, List.foldl_cons, List.foldl_nil] at h
    have hshort : front.length < (front ++ [y]).length := by simp
    rcases S.skips_or_push_or_closer y with hskip | ⟨hskip, hclose⟩ | hy
    · rw [keep_skip hskip] at h
      obtain ⟨before, mid, rfl, hopener, hmid, hbefore⟩ := ih _ hshort h hx rfl
      exact ⟨before, mid ++ [y], by simp, hopener, hmid.append (.skip hskip .nil), hbefore⟩
    · rw [keep_push hskip hclose] at h
      obtain ⟨rfl, hlast⟩ := List.append_inj' h rfl
      obtain rfl : y = x := (List.cons.inj hlast).1
      exact ⟨front, [], rfl, ⟨hskip, hclose, hx⟩, .nil, rfl⟩
    · rcases (front.foldl S.keep []).eq_nil_or_concat with hnil | ⟨rest, z, hconcat⟩
      · rw [hnil, keep_closer_stuck hy (by simp)] at h
        simp at h
      rw [List.concat_eq_append] at hconcat
      cases hz : S.opens z with
      | false =>
        rw [hconcat, keep_closer_stuck hy (by simpa using hz)] at h
        obtain rfl : z = x := (List.cons.inj (List.append_inj' h rfl).2).1
        rw [hz] at hx
        cases hx
      | true =>
        -- The closer took `z`: look for `x` in what stands before `z`.
        rw [hconcat, keep_closer hy hz] at h
        obtain ⟨before, inside, rfl, hopener, hinside, hbefore⟩ := ih _ hshort hconcat hz rfl
        obtain ⟨before, mid, rfl, hopener', hmid, hbefore'⟩ :=
          ih before.length (by simp) (hbefore.trans h) hx rfl
        exact ⟨before, mid ++ z :: (inside ++ [y]), by simp, hopener',
          hmid.append (.pair hopener hy hinside .nil), hbefore'⟩

/-! ### Other entries, and the entry kept first -/

/-- The scan of entries read through `f`. -/
def comap {β : Type*} (S : LookBack α) (f : β → α) : LookBack β :=
  ⟨fun x => S.skips (f x), fun x => S.closes (f x), fun x => S.opens (f x)⟩

theorem keep_map {β : Type*} (f : β → α) (kept : List β) (x : β) :
    S.keep (kept.map f) (f x) = ((S.comap f).keep kept x).map f := by
  have hany : (kept.map f).getLast?.any S.opens = kept.getLast?.any (S.comap f).opens := by
    rw [List.getLast?_map, Option.any_map]
    rfl
  have hskip : (S.comap f).skips x = S.skips (f x) := rfl
  have hclose : (S.comap f).closes x = S.closes (f x) := rfl
  rw [keep, keep, hany, hskip, hclose]
  split_ifs <;> simp

theorem foldl_keep_map {β : Type*} (f : β → α) (xs kept : List β) :
    (xs.map f).foldl S.keep (kept.map f) = (xs.foldl (S.comap f).keep kept).map f := by
  induction xs generalizing kept with
  | nil => rfl
  | cons x xs ih => rw [List.map_cons, List.foldl_cons, keep_map, ih, List.foldl_cons]

theorem mem_of_mem_foldl_keep (h : x ∈ xs.foldl S.keep kept) : x ∈ kept ∨ x ∈ xs := by
  induction xs generalizing kept with
  | nil => exact .inl h
  | cons y xs ih =>
    rcases ih h with hkept | hxs
    · rcases S.skips_or_push_or_closer y with hskip | ⟨hskip, hclose⟩ | hy
      · rw [keep_skip hskip] at hkept
        exact .inl hkept
      · rw [keep_push hskip hclose] at hkept
        rcases List.mem_append.mp hkept with hkept | hkept
        · exact .inl hkept
        · exact .inr (List.mem_cons.mpr (.inl (List.mem_singleton.mp hkept)))
      · simp only [keep, hy.1, hy.2, Bool.false_eq_true, if_false, if_true] at hkept
        split_ifs at hkept
        · exact .inl (List.dropLast_subset kept hkept)
        · exact .inl hkept
    · exact .inr (List.mem_cons_of_mem y hxs)

/-- What no closer takes stays at the bottom. -/
theorem foldl_keep_cons (hx : S.opens x = false) (xs kept : List α) :
    xs.foldl S.keep (x :: kept) = x :: xs.foldl S.keep kept := by
  induction xs generalizing kept with
  | nil => rfl
  | cons y xs ih =>
    have hstep : S.keep (x :: kept) y = x :: S.keep kept y := by
      rcases kept.eq_nil_or_concat with rfl | ⟨front, z, rfl⟩
      · simp only [keep, List.getLast?_singleton, Option.any_some, hx, List.getLast?_nil,
          Option.any_none, Bool.false_eq_true, if_false, List.nil_append, List.singleton_append]
        split_ifs <;> rfl
      · rw [List.concat_eq_append]
        have hlast : (x :: (front ++ [z])).getLast? = (front ++ [z]).getLast? :=
          List.getLast?_cons_of_ne_nil (by simp)
        have hdrop : (x :: (front ++ [z])).dropLast = x :: (front ++ [z]).dropLast :=
          List.dropLast_cons_of_ne_nil (by simp)
        simp only [keep, hlast, hdrop, List.cons_append]
        split_ifs <;> rfl
    rw [List.foldl_cons, hstep, ih, List.foldl_cons]

/-- Of two entries that open alike either both stay at the bottom or none does. -/
theorem foldl_keep_cons_or (h : S.opens x = S.opens y) (xs kept : List α) :
    ∃ tail, (xs.foldl S.keep (x :: kept) = x :: tail ∧ xs.foldl S.keep (y :: kept) = y :: tail) ∨
      xs.foldl S.keep (x :: kept) = tail ∧ xs.foldl S.keep (y :: kept) = tail := by
  induction xs generalizing kept with
  | nil => exact ⟨kept, .inl ⟨rfl, rfl⟩⟩
  | cons z xs ih =>
    have hstep : (S.keep (x :: kept) z = x :: S.keep kept z ∧
        S.keep (y :: kept) z = y :: S.keep kept z) ∨
        S.keep (x :: kept) z = [] ∧ S.keep (y :: kept) z = [] := by
      rcases kept.eq_nil_or_concat with rfl | ⟨front, w, rfl⟩
      · simp only [keep, List.getLast?_singleton, Option.any_some, h, List.getLast?_nil,
          Option.any_none, Bool.false_eq_true, if_false, List.nil_append, List.singleton_append,
          List.dropLast_singleton]
        split_ifs <;> simp
      · rw [List.concat_eq_append]
        have hlast : ∀ v : α, (v :: (front ++ [w])).getLast? = (front ++ [w]).getLast? := fun v =>
          List.getLast?_cons_of_ne_nil (by simp)
        have hdrop : ∀ v : α, (v :: (front ++ [w])).dropLast = v :: (front ++ [w]).dropLast :=
          fun v => List.dropLast_cons_of_ne_nil (by simp)
        left
        simp only [keep, hlast, hdrop, List.cons_append]
        split_ifs <;> simp
    rw [List.foldl_cons, List.foldl_cons]
    rcases hstep with ⟨hx, hy⟩ | ⟨hx, hy⟩
    · rw [hx, hy]
      exact ih _
    · rw [hx, hy]
      exact ⟨_, .inr ⟨rfl, rfl⟩⟩

/-! ### Leaving entries out -/

/-- The scan that passes over `gone` entries as well. -/
def without (S : LookBack α) (gone : α → Bool) : LookBack α :=
  { S with skips := fun x => S.skips x || gone x }

theorem without_skips (S : LookBack α) (gone : α → Bool) (x : α) :
    (S.without gone).skips x = (S.skips x || gone x) := rfl

theorem keep_without {gone : α → Bool} (h : gone x = false) (kept : List α) :
    (S.without gone).keep kept x = S.keep kept x := by
  rw [keep, without_skips, h, Bool.or_false, keep]
  rfl

/-- Entries that may be left out: they say nothing, and what opens says something. -/
structure Leaves (S : LookBack α) (said gone : α → Bool) : Prop where
  said_of_opens : ∀ x, S.opens x = true → said x = true
  not_said : ∀ x, gone x = true → said x = false
  not_closes : ∀ x, gone x = true → S.closes x = false

variable {said gone : α → Bool}

theorem Leaves.not_opens (h : S.Leaves said gone) (hx : gone x = true) : S.opens x = false := by
  by_contra hopens
  rw [Bool.not_eq_false] at hopens
  exact absurd (h.said_of_opens x hopens) (by simp [h.not_said x hx])

theorem Leaves.opener_iff (h : S.Leaves said gone) :
    (S.without gone).Opener x ↔ S.Opener x := by
  have hgone : S.opens x = true → gone x = false := fun hopens => by
    by_contra hx
    rw [Bool.not_eq_false] at hx
    exact absurd hopens (by simp [h.not_opens hx])
  constructor
  · exact fun hx => ⟨(Bool.or_eq_false_iff.mp hx.1).1, hx.2⟩
  · exact fun hx => ⟨Bool.or_eq_false_iff.mpr ⟨hx.1, hgone hx.2.2⟩, hx.2⟩

theorem Leaves.closer_iff (h : S.Leaves said gone) :
    (S.without gone).Closer x ↔ S.Closer x := by
  have hgone : S.closes x = true → gone x = false := fun hcloses => by
    by_contra hx
    rw [Bool.not_eq_false] at hx
    exact absurd hcloses (by simp [h.not_closes x hx])
  constructor
  · exact fun hx => ⟨(Bool.or_eq_false_iff.mp hx.1).1, hx.2⟩
  · exact fun hx => ⟨Bool.or_eq_false_iff.mpr ⟨hx.1, hgone hx.2⟩, hx.2⟩

/-- What the full scan keeps of entries that are closed once some are left out: nothing, or
something that no closer takes. -/
theorem Leaves.foldl_keep (h : S.Leaves said gone) (hmid : (S.without gone).Closed mid)
    (kept : List α) :
    ∃ left, mid.foldl S.keep kept = kept ++ left ∧ (∀ x ∈ left.getLast?, S.opens x = false) ∧
      (left = [] ↔ ∀ x ∈ mid, gone x = true → S.skips x = true) := by
  induction hmid generalizing kept with
  | nil => exact ⟨[], by simp⟩
  | @skip x xs hx _ ih =>
    cases hskip : S.skips x with
    | true =>
      obtain ⟨left, hfold, hlast, hnil⟩ := ih kept
      exact ⟨left, by rw [List.foldl_cons, keep_skip hskip, hfold], hlast, by simp [hnil, hskip]⟩
    | false =>
      have hgone : gone x = true := by simpa [without, hskip] using hx
      obtain ⟨left, hfold, hlast, -⟩ := ih (kept ++ [x])
      refine ⟨x :: left, ?_, ?_, by simp [hgone, hskip]⟩
      · rw [List.foldl_cons, keep_push hskip (h.not_closes x hgone), hfold]
        simp
      · rcases left.eq_nil_or_concat with rfl | ⟨front, z, rfl⟩
        · simpa using h.not_opens hgone
        · simpa [List.getLast?_cons] using hlast
  | @pair x y inside xs hx hy _ _ ihinside ihxs =>
    rw [h.opener_iff] at hx
    rw [h.closer_iff] at hy
    have hkeeps : ∀ z, S.Opener z ∨ S.Closer z → (gone z = true → S.skips z = true) := by
      intro z hz hgone
      rcases hz with hz | hz
      · exact absurd hz.2.2 (by simp [h.not_opens hgone])
      · exact absurd hz.2 (by simp [h.not_closes z hgone])
    obtain ⟨left, hfold, hlast, hnil⟩ := ihinside (kept ++ [x])
    by_cases hleft : left = []
    · obtain ⟨left', hfold', hlast', hnil'⟩ := ihxs kept
      refine ⟨left', ?_, hlast', ?_⟩
      · rw [List.foldl_cons, keep_push hx.1 hx.2.1, List.foldl_append, hfold, hleft,
          List.append_nil, List.foldl_cons, keep_closer hy hx.2.2, hfold']
      · rw [hnil', List.forall_mem_cons, List.forall_mem_append, List.forall_mem_cons]
        exact ⟨fun hall => ⟨hkeeps x (.inl hx), hnil.mp hleft, hkeeps y (.inr hy), hall⟩,
          fun hall => hall.2.2.2⟩
    · obtain ⟨left', hfold', hlast', -⟩ := ihxs (kept ++ [x] ++ left)
      have hstuck : ∀ z ∈ (kept ++ [x] ++ left).getLast?, S.opens z = false := by
        intro z hz
        rw [getLast?_append_ne_nil _ hleft] at hz
        exact hlast z hz
      refine ⟨x :: (left ++ left'), ?_, ?_, ?_⟩
      · rw [List.foldl_cons, keep_push hx.1 hx.2.1, List.foldl_append, hfold, List.foldl_cons,
          keep_closer_stuck hy hstuck, hfold']
        simp
      · intro z hz
        by_cases hleft' : left' = []
        · rw [hleft', List.append_nil, List.getLast?_cons_of_ne_nil hleft] at hz
          exact hlast z hz
        · rw [List.getLast?_cons_of_ne_nil (by simp [hleft]),
            getLast?_append_ne_nil _ hleft'] at hz
          exact hlast' z hz
      · refine iff_of_false (by simp) fun hall => hleft (hnil.mpr fun z hz => hall z ?_)
        simp [hz]

/-- No opener is closed across an entry that is left out and would be kept. -/
def Undisturbed (S : LookBack α) (gone : α → Bool) (xs : List α) : Prop :=
  ∀ before x mid y after, xs = before ++ x :: (mid ++ y :: after) → S.Opener x → S.Closer y →
    (S.without gone).Closed mid → ∀ z ∈ mid, gone z = true → S.skips z = true

theorem Undisturbed.of_append (h : S.Undisturbed gone (xs ++ ys)) : S.Undisturbed gone xs := by
  rintro before x mid y after rfl
  exact h before x mid y (after ++ ys) (by simp)

/-- Undisturbed, the two scans keep the same but for the entries left out. -/
theorem Leaves.foldl_without (h : S.Leaves said gone) (hxs : S.Undisturbed gone xs) :
    xs.foldl (S.without gone).keep [] = (xs.foldl S.keep []).filter (!gone ·) := by
  induction xs using List.reverseRecOn with
  | nil => rfl
  | append_singleton xs y ih =>
    rw [List.foldl_append, List.foldl_append, ih hxs.of_append, List.foldl_cons, List.foldl_nil,
      List.foldl_cons, List.foldl_nil]
    set kept := xs.foldl S.keep [] with hkept
    rcases S.skips_or_push_or_closer y with hskip | ⟨hskip, hclose⟩ | hy
    · have hskip' : (S.without gone).skips y = true := by simp [without, hskip]
      rw [keep_skip hskip, keep_skip hskip']
    · rw [keep_push hskip hclose, List.filter_append]
      cases hgone : gone y with
      | true =>
        have hskip' : (S.without gone).skips y = true := by simp [without, hgone]
        rw [keep_skip hskip']
        simp [hgone]
      | false =>
        have hskip' : (S.without gone).skips y = false := by simp [without, hskip, hgone]
        rw [keep_push hskip' hclose]
        simp [hgone]
    · have hy' := h.closer_iff.mpr hy
      rcases kept.eq_nil_or_concat with hnil | ⟨front, x, hconcat⟩
      · rw [hnil, List.filter_nil, keep_closer_stuck hy (by simp),
          keep_closer_stuck hy' (by simp), List.filter_nil]
      rw [List.concat_eq_append] at hconcat
      cases hx : S.opens x with
      | true =>
        have hgone : gone x = false := by
          by_contra hgone
          rw [Bool.not_eq_false] at hgone
          exact absurd hx (by simp [h.not_opens hgone])
        rw [hconcat, keep_closer hy hx, List.filter_append]
        have hsingle : [x].filter (!gone ·) = [x] := by simp [hgone]
        rw [hsingle]
        exact keep_closer hy' hx _
      | false =>
        rw [hconcat, keep_closer_stuck hy (by simpa using hx)]
        refine keep_closer_stuck hy' fun z hz => ?_
        by_contra hopens
        rw [Bool.not_eq_false] at hopens
        -- An opener kept last only without the entries left out: it would be closed across one.
        obtain ⟨rest, hrest⟩ := List.getLast?_eq_some_iff.mp hz
        rw [← hconcat, ← ih hxs.of_append] at hrest
        obtain ⟨before, mid, rfl, hopener, hmid, -⟩ := exists_opener hrest hopens
        have hall := hxs before z mid y [] (by simp) (h.opener_iff.mp hopener) hy hmid
        obtain ⟨left, hfold, -, hleft⟩ := h.foldl_keep hmid (before.foldl S.keep [] ++ [z])
        have hopener' := h.opener_iff.mp hopener
        rw [List.foldl_append, List.foldl_cons, keep_push hopener'.1 hopener'.2.1, hfold,
          hleft.mpr hall, List.append_nil, hconcat] at hkept
        obtain rfl : x = z := (List.cons.inj (List.append_inj' hkept rfl).2).1
        exact absurd hopener'.2.2 (by simp [hx])

/-- How the two scans stand: a common end, and before it in the full one at least `n` more
entries that say something, the last of them beyond the reach of a closer. -/
def Apart (S : LookBack α) (said : α → Bool) (n : ℕ) (kept kept' : List α) : Prop :=
  ∃ before before' common, kept = before ++ common ∧ kept' = before' ++ common ∧
    before'.countP said + n ≤ before.countP said ∧ ∀ x ∈ before.getLast?, S.opens x = false

theorem Apart.countP_le {n : ℕ} {kept' : List α} (h : S.Apart said n kept kept') :
    kept'.countP said + n ≤ kept.countP said := by
  obtain ⟨before, before', common, rfl, rfl, hcount, -⟩ := h
  simp only [List.countP_append]
  omega

theorem countP_keep_closer_le (hy : S.Closer y) (kept : List α) :
    (S.keep kept y).countP said ≤ kept.countP said := by
  rcases kept.eq_nil_or_concat with rfl | ⟨front, x, rfl⟩
  · have heq : S.keep [] y = [] := keep_closer_stuck hy (by simp)
    simp [heq]
  rw [List.concat_eq_append]
  cases hx : S.opens x with
  | true =>
    rw [keep_closer hy hx, List.countP_append]
    omega
  | false =>
    have heq : S.keep (front ++ [x]) y = front ++ [x] :=
      keep_closer_stuck hy (by simpa using hx)
    simp [heq]

/-- A step brings the two scans no closer to each other. -/
theorem Leaves.apart_keep (h : S.Leaves said gone) {n : ℕ} {kept' : List α}
    (hapart : S.Apart said n kept kept') (y : α) :
    S.Apart said n (S.keep kept y) ((S.without gone).keep kept' y) := by
  obtain ⟨before, before', common, rfl, rfl, hcount, hlast⟩ := hapart
  rcases S.skips_or_push_or_closer y with hskip | ⟨hskip, hclose⟩ | hy
  · have hskip' : (S.without gone).skips y = true := by simp [without, hskip]
    rw [keep_skip hskip, keep_skip hskip']
    exact ⟨before, before', common, rfl, rfl, hcount, hlast⟩
  · rw [keep_push hskip hclose]
    cases hgone : gone y with
    | true =>
      have hskip' : (S.without gone).skips y = true := by simp [without, hgone]
      rw [keep_skip hskip']
      refine ⟨before ++ common ++ [y], before' ++ common, [], by simp, by simp, ?_, ?_⟩
      · simp only [List.countP_append]
        omega
      · simpa using h.not_opens hgone
    | false =>
      have hskip' : (S.without gone).skips y = false := by simp [without, hskip, hgone]
      rw [keep_push hskip' hclose]
      exact ⟨before, before', common ++ [y], by simp, by simp, hcount, hlast⟩
  · have hy' := h.closer_iff.mpr hy
    rcases common.eq_nil_or_concat with rfl | ⟨front, x, rfl⟩
    · rw [List.append_nil, List.append_nil, keep_closer_stuck hy hlast]
      refine ⟨before, (S.without gone).keep before' y, [], by simp, by simp, ?_, hlast⟩
      have hle : ((S.without gone).keep before' y).countP said ≤ before'.countP said :=
        countP_keep_closer_le hy' before'
      omega
    · rw [List.concat_eq_append, ← List.append_assoc, ← List.append_assoc]
      cases hx : S.opens x with
      | true =>
        rw [keep_closer hy hx, keep_closer hy' hx]
        exact ⟨before, before', front, rfl, rfl, hcount, hlast⟩
      | false =>
        have hx' : (S.without gone).opens x = false := hx
        rw [keep_closer_stuck hy (by simpa using hx), keep_closer_stuck hy' (by simpa using hx')]
        exact ⟨before, before', front ++ [x], by simp, by simp, hcount, hlast⟩

theorem Leaves.apart_foldl (h : S.Leaves said gone) {n : ℕ} {kept' : List α}
    (hapart : S.Apart said n kept kept') (xs : List α) :
    S.Apart said n (xs.foldl S.keep kept) (xs.foldl (S.without gone).keep kept') := by
  induction xs generalizing kept kept' with
  | nil => exact hapart
  | cons y xs ih => exact ih (h.apart_keep hapart y)

/-- Once an opener is closed across an entry that is left out, more is kept with that entry than
without it. -/
theorem Leaves.countP_lt (h : S.Leaves said gone) (hxs : ¬S.Undisturbed gone xs) :
    (xs.foldl (S.without gone).keep []).countP said < (xs.foldl S.keep []).countP said := by
  unfold Undisturbed at hxs
  push Not at hxs
  obtain ⟨before, x, mid, y, after, rfl, hx, hy, hmid, z, hz, hgone, hkept⟩ := hxs
  have hstart : S.Apart said 0 (before.foldl S.keep []) (before.foldl (S.without gone).keep []) :=
    h.apart_foldl ⟨[], [], [], rfl, rfl, Nat.le_refl _, by simp⟩ before
  obtain ⟨left, hfold, hlast, hnil⟩ := h.foldl_keep hmid (before.foldl S.keep [] ++ [x])
  have hleft : left ≠ [] := fun hleft => hkept (hnil.mp hleft z hz hgone)
  have hclosed : (S.without gone).Closed (x :: (mid ++ [y])) :=
    .pair (h.opener_iff.mpr hx) (h.closer_iff.mpr hy) hmid .nil
  have hbehind : ∀ w ∈ (before.foldl S.keep [] ++ [x] ++ left).getLast?, S.opens w = false := by
    intro w hw
    rw [getLast?_append_ne_nil _ hleft] at hw
    exact hlast w hw
  have hfull : (x :: (mid ++ [y])).foldl S.keep (before.foldl S.keep []) =
      before.foldl S.keep [] ++ [x] ++ left := by
    rw [List.foldl_cons, keep_push hx.1 hx.2.1, List.foldl_append, hfold, List.foldl_cons,
      List.foldl_nil, keep_closer_stuck hy hbehind]
  have hapart : S.Apart said 1 ((x :: (mid ++ [y])).foldl S.keep (before.foldl S.keep []))
      ((x :: (mid ++ [y])).foldl (S.without gone).keep
        (before.foldl (S.without gone).keep [])) := by
    rw [hfull, hclosed.foldl_keep]
    refine ⟨_, _, [], (List.append_nil _).symm, (List.append_nil _).symm, ?_, hbehind⟩
    have hcount := hstart.countP_le
    simp only [List.countP_append, List.countP_singleton, h.said_of_opens x hx.2.2, if_true]
    omega
  have hend := (h.apart_foldl hapart after).countP_le
  have heq : before ++ x :: (mid ++ y :: after) = before ++ (x :: (mid ++ [y])) ++ after := by simp
  rw [heq, List.foldl_append, List.foldl_append, List.foldl_append, List.foldl_append]
  omega

/-- What is said comes out the same exactly when no opener is closed across an entry that is left
out. -/
theorem Leaves.filter_said_iff (h : S.Leaves said gone) :
    (xs.foldl (S.without gone).keep []).filter said = (xs.foldl S.keep []).filter said ↔
      S.Undisturbed gone xs := by
  constructor
  · intro heq
    by_contra hxs
    have hlt := h.countP_lt hxs
    rw [List.countP_eq_length_filter, List.countP_eq_length_filter, heq] at hlt
    omega
  · intro hxs
    rw [h.foldl_without hxs, List.filter_filter]
    refine List.filter_congr fun x _ => ?_
    cases hgone : gone x with
    | true => simp [h.not_said x hgone]
    | false => simp

end LookBack

end Sashiko
