import Mathlib.Algebra.Order.Group.Int
import Mathlib.Data.List.Nodup
import Mathlib.Tactic.Common

/-! Tables with a primary key: rows whose keys are pairwise distinct. Statements that update,
delete or insert keep the key by construction, so a table never holds two rows of one key. -/

namespace Sashiko

@[ext]
structure Table {ρ κ : Type*} (key : ρ → κ) where
  rows : List ρ
  nodup : (rows.map key).Nodup

namespace Table

variable {ρ κ : Type*} {key : ρ → κ}

def empty : Table key := ⟨[], List.nodup_nil⟩

def any (t : Table key) (p : ρ → Bool) : Bool := t.rows.any p

def updateRow (p : ρ → Bool) (f : ρ → ρ) (r : ρ) : ρ := if p r then f r else r

theorem key_updateRow {f : ρ → ρ} (hf : ∀ r, key (f r) = key r) (p : ρ → Bool) (r : ρ) :
    key (updateRow p f r) = key r := by
  unfold updateRow
  split_ifs
  · exact hf r
  · rfl

/-- `UPDATE … SET f WHERE p`, for an `f` that leaves the key alone. -/
def update (t : Table key) (p : ρ → Bool) (f : ρ → ρ)
    (hf : ∀ r, key (f r) = key r := by intro _; rfl) : Table key where
  rows := t.rows.map (updateRow p f)
  nodup := by
    have hkeys : (t.rows.map (updateRow p f)).map key = t.rows.map key := by
      rw [List.map_map]
      exact List.map_congr_left fun r _ => key_updateRow hf p r
    rw [hkeys]
    exact t.nodup

/-- `DELETE … WHERE p`. -/
def delete (t : Table key) (p : ρ → Bool) : Table key where
  rows := t.rows.filter (!p ·)
  nodup := t.nodup.sublist (List.filter_sublist.map key)

def insert (t : Table key) (r : ρ) (h : key r ∉ t.rows.map key) : Table key where
  rows := t.rows ++ [r]
  nodup := by
    rw [List.map_append, List.nodup_append]
    refine ⟨t.nodup, List.nodup_singleton _, ?_⟩
    intro a ha b hb hab
    rw [List.map_singleton, List.mem_singleton] at hb
    exact h (hb ▸ hab ▸ ha)

theorem eq_of_key_eq {t : Table key} {r r' : ρ} (hr : r ∈ t.rows) (hr' : r' ∈ t.rows)
    (h : key r = key r') : r = r' :=
  List.inj_on_of_nodup_map t.nodup hr hr' h

theorem mem_update {t : Table key} {p : ρ → Bool} {f : ρ → ρ} (hf : ∀ r, key (f r) = key r)
    {r : ρ} :
    r ∈ (t.update p f hf).rows ↔ ∃ r₀ ∈ t.rows, updateRow p f r₀ = r := List.mem_map

theorem keys_update {t : Table key} {p : ρ → Bool} {f : ρ → ρ} (hf : ∀ r, key (f r) = key r) :
    (t.update p f hf).rows.map key = t.rows.map key := by
  change (t.rows.map (updateRow p f)).map key = t.rows.map key
  rw [List.map_map]
  exact List.map_congr_left fun r _ => key_updateRow hf p r

/-- What a statement does not select, it leaves in place. -/
theorem mem_update_of_not {t : Table key} {r : ρ} (hr : r ∈ t.rows) {p : ρ → Bool} {f : ρ → ρ}
    (hp : p r = false) (hf : ∀ r, key (f r) = key r := by intro _; rfl) :
    r ∈ (t.update p f hf).rows :=
  (mem_update hf).mpr ⟨r, hr, by rw [updateRow, hp, if_neg Bool.false_ne_true]⟩

theorem mem_update_of {t : Table key} {r : ρ} (hr : r ∈ t.rows) {p : ρ → Bool} {f : ρ → ρ}
    (hp : p r = true) (hf : ∀ r, key (f r) = key r := by intro _; rfl) :
    f r ∈ (t.update p f hf).rows :=
  (mem_update hf).mpr ⟨r, hr, by rw [updateRow, if_pos hp]⟩

theorem mem_delete {t : Table key} {p : ρ → Bool} {r : ρ} :
    r ∈ (t.delete p).rows ↔ r ∈ t.rows ∧ p r = false := by
  simp [delete]

theorem mem_insert {t : Table key} {r x : ρ} {h} :
    x ∈ (t.insert r h).rows ↔ x ∈ t.rows ∨ x = r := by
  simp [insert]

/-- What a statement does not select, it leaves in place and in order. -/
theorem filter_update {t : Table key} {p q : ρ → Bool} {f : ρ → ρ} (hf : ∀ r, key (f r) = key r)
    (h : ∀ r ∈ t.rows, p r = true → q r = false ∧ q (f r) = false) :
    (t.update p f hf).rows.filter q = t.rows.filter q := by
  change (t.rows.map (updateRow p f)).filter q = t.rows.filter q
  generalize t.rows = rows at h
  induction rows with
  | nil => rfl
  | cons r rows ih =>
    have hrest := ih fun x hx => h x (List.mem_cons_of_mem _ hx)
    simp only [List.map_cons, List.filter_cons]
    rw [hrest]
    by_cases hp : p r = true
    · obtain ⟨hr, hfr⟩ := h r List.mem_cons_self hp
      simp [updateRow, hp, hr, hfr]
    · simp [updateRow, hp]

theorem filter_delete {t : Table key} {p q : ρ → Bool}
    (h : ∀ r ∈ t.rows, p r = true → q r = false) :
    (t.delete p).rows.filter q = t.rows.filter q := by
  unfold delete
  rw [List.filter_filter]
  apply List.filter_congr
  intro r hr
  cases hp : p r with
  | true => simp [h r hr hp]
  | false => simp

theorem filter_insert {t : Table key} {r : ρ} {h} {q : ρ → Bool} (hq : q r = false) :
    (t.insert r h).rows.filter q = t.rows.filter q := by
  simp [insert, hq]

theorem update_none {t : Table key} {p : ρ → Bool} {f : ρ → ρ} {hf}
    (h : ∀ r ∈ t.rows, p r = false) : t.update p f hf = t := by
  ext1
  calc t.rows.map (updateRow p f) = t.rows.map id :=
        List.map_congr_left fun r hr => by simp [updateRow, h r hr]
    _ = t.rows := List.map_id _

theorem any_update {t : Table key} {p q : ρ → Bool} {f : ρ → ρ} (hf : ∀ r, key (f r) = key r)
    (h : ∀ r, q (f r) = q r) : (t.update p f hf).any q = t.any q := by
  have hrow : ∀ r, q (updateRow p f r) = q r := by
    intro r
    unfold updateRow
    split_ifs
    · exact h r
    · rfl
  simp [any, update, List.any_map, Function.comp_def, hrow]

theorem any_eq_true {t : Table key} {p : ρ → Bool} :
    t.any p = true ↔ ∃ r ∈ t.rows, p r = true := List.any_eq_true

section Lookup

variable [DecidableEq κ]

def lookup (t : Table key) (k : κ) : Option ρ := t.rows.find? (key · = k)

theorem lookup_eq_some {t : Table key} {k : κ} {r : ρ} :
    t.lookup k = some r ↔ r ∈ t.rows ∧ key r = k := by
  constructor
  · intro h
    exact ⟨List.mem_of_find?_eq_some h, by simpa using List.find?_some h⟩
  · rintro ⟨hr, rfl⟩
    have hsome : (t.rows.find? (key · = key r)).isSome :=
      List.find?_isSome.mpr ⟨r, hr, by simp⟩
    obtain ⟨r', hr'⟩ := Option.isSome_iff_exists.mp hsome
    have hkey : key r' = key r := by simpa using List.find?_some hr'
    unfold lookup
    rw [hr', eq_of_key_eq (List.mem_of_find?_eq_some hr') hr hkey]

theorem lookup_eq_none {t : Table key} {k : κ} :
    t.lookup k = none ↔ ∀ r ∈ t.rows, key r ≠ k := by
  simp [lookup]

theorem lookup_update {t : Table key} {p : ρ → Bool} {f : ρ → ρ} (hf : ∀ r, key (f r) = key r)
    (k : κ) : (t.update p f hf).lookup k = (t.lookup k).map (updateRow p f) := by
  change (t.rows.map (updateRow p f)).find? _ = _
  rw [List.find?_map]
  simp only [Function.comp_def, key_updateRow hf]
  rfl

/-- `INSERT … ON CONFLICT(key) DO UPDATE SET f`. -/
def upsert (t : Table key) (r : ρ) (f : ρ → ρ) (hf : ∀ r, key (f r) = key r := by intro _; rfl) :
    Table key :=
  if h : key r ∈ t.rows.map key then t.update (key · = key r) f hf else t.insert r h

theorem mem_upsert_of_mem {t : Table key} {r x : ρ} {f : ρ → ρ} {hf} (hx : x ∈ t.rows) :
    updateRow (key · = key r) f x ∈ (t.upsert r f hf).rows := by
  unfold upsert
  split_ifs with h
  · exact (mem_update hf).mpr ⟨x, hx, rfl⟩
  · have hne : key x ≠ key r := fun heq => h (heq ▸ List.mem_map_of_mem hx)
    rw [updateRow, if_neg (by simpa using hne)]
    exact mem_insert.mpr (.inl hx)

theorem key_mem_of_mem_upsert {t : Table key} {r x : ρ} {f : ρ → ρ} {hf}
    (hx : x ∈ (t.upsert r f hf).rows) : key x ∈ t.rows.map key ∨ key x = key r := by
  unfold upsert at hx
  split_ifs at hx with h
  · obtain ⟨x₀, hx₀, rfl⟩ := (mem_update hf).mp hx
    exact .inl (key_updateRow hf _ x₀ ▸ List.mem_map_of_mem hx₀)
  · rcases mem_insert.mp hx with hx | rfl
    · exact .inl (List.mem_map_of_mem hx)
    · exact .inr rfl

theorem lookup_insert {t : Table key} {r : ρ} (h : key r ∉ t.rows.map key) (k : κ) :
    (t.insert r h).lookup k = if key r = k then some r else t.lookup k := by
  refine Option.ext fun x => ?_
  rw [lookup_eq_some, mem_insert]
  split_ifs with hk
  · rw [Option.some_inj]
    constructor
    · rintro ⟨hx | rfl, hkey⟩
      · exact absurd (hk.trans hkey.symm ▸ List.mem_map_of_mem hx) h
      · rfl
    · rintro rfl
      exact ⟨.inr rfl, hk⟩
  · rw [lookup_eq_some]
    exact ⟨fun ⟨hx, hkey⟩ => ⟨hx.resolve_right fun h => hk (h ▸ hkey), hkey⟩,
      fun ⟨hx, hkey⟩ => ⟨.inl hx, hkey⟩⟩

theorem lookup_upsert {t : Table key} {r : ρ} {f : ρ → ρ} (hf : ∀ r, key (f r) = key r) (k : κ) :
    (t.upsert r f hf).lookup k =
      if key r = k then some (((t.lookup k).map f).getD r) else t.lookup k := by
  unfold upsert
  split_ifs with h hk hk
  · rw [lookup_update]
    cases hfound : t.lookup k with
    | none =>
      obtain ⟨x, hx, hkey⟩ := List.mem_map.mp h
      exact absurd (hkey.trans hk) (lookup_eq_none.mp hfound x hx)
    | some x =>
      obtain ⟨-, hkey⟩ := lookup_eq_some.mp hfound
      simp [updateRow, hkey, hk]
  · rw [lookup_update]
    cases hfound : t.lookup k with
    | none => rfl
    | some x =>
      obtain ⟨-, hkey⟩ := lookup_eq_some.mp hfound
      have hne : ¬key x = key r := fun heq => hk (heq.symm.trans hkey)
      simp [updateRow, hne]
  · have hnone : t.lookup k = none :=
      lookup_eq_none.mpr fun x hx hkey => h (hk ▸ hkey ▸ List.mem_map_of_mem hx)
    rw [lookup_insert h, if_pos hk, hnone]
    rfl
  · rw [lookup_insert h, if_neg hk]

theorem key_mem_upsert (t : Table key) (r : ρ) (f : ρ → ρ) {hf} :
    key r ∈ (t.upsert r f hf).rows.map key := by
  unfold upsert
  split_ifs with h
  · rw [keys_update]
    exact h
  · exact List.mem_map_of_mem (mem_insert.mpr (.inr rfl))

/-- `INSERT OR REPLACE`. -/
def insertOrReplace (t : Table key) (r : ρ) : Table key :=
  (t.delete (key · = key r)).insert r fun h => by
    obtain ⟨x, hx, hkey⟩ := List.mem_map.mp h
    exact of_decide_eq_false (mem_delete.mp hx).2 hkey

theorem mem_insertOrReplace {t : Table key} {r x : ρ} :
    x ∈ (t.insertOrReplace r).rows ↔ (x ∈ t.rows ∧ key x ≠ key r) ∨ x = r := by
  rw [insertOrReplace, mem_insert, mem_delete, decide_eq_false_iff_not]

theorem lookup_insertOrReplace (t : Table key) (r : ρ) (k : κ) :
    (t.insertOrReplace r).lookup k = if key r = k then some r else t.lookup k := by
  refine Option.ext fun x => ?_
  rw [lookup_eq_some, mem_insertOrReplace]
  split_ifs with hk
  · rw [Option.some_inj, ← hk]
    exact ⟨fun ⟨hx, hkey⟩ => (hx.resolve_left fun h => h.2 hkey).symm,
      fun hx => ⟨.inr hx.symm, by rw [← hx]⟩⟩
  · rw [lookup_eq_some]
    exact ⟨fun ⟨hx, hkey⟩ => ⟨(hx.resolve_right fun h => hk (h ▸ hkey)).1, hkey⟩,
      fun ⟨hx, hkey⟩ => ⟨.inl ⟨hx, fun h => hk (h ▸ hkey)⟩, hkey⟩⟩

/-- Deleting by key. -/
theorem lookup_delete (t : Table key) (q : κ → Bool) (k : κ) :
    (t.delete fun r => q (key r)).lookup k = if q k then none else t.lookup k := by
  refine Option.ext fun x => ?_
  rw [lookup_eq_some, mem_delete]
  split_ifs with hk
  · refine ⟨fun ⟨⟨_, hq⟩, hkey⟩ => ?_, nofun⟩
    rw [hkey, hk] at hq
    cases hq
  · rw [lookup_eq_some]
    exact ⟨fun ⟨⟨hx, _⟩, hkey⟩ => ⟨hx, hkey⟩,
      fun ⟨hx, hkey⟩ => ⟨⟨hx, by rw [hkey]; exact Bool.eq_false_iff.mpr hk⟩, hkey⟩⟩

/-- `INSERT OR IGNORE`. -/
def insertOrIgnore (t : Table key) (r : ρ) : Table key :=
  if h : key r ∈ t.rows.map key then t else t.insert r h

def insertAllOrIgnore (t : Table key) (rs : List ρ) : Table key := rs.foldl insertOrIgnore t

theorem mem_insertOrIgnore {t : Table key} {r x : ρ} :
    x ∈ (t.insertOrIgnore r).rows ↔ x ∈ t.rows ∨ (key r ∉ t.rows.map key ∧ x = r) := by
  unfold insertOrIgnore
  split_ifs with h
  · simp [h]
  · simp [mem_insert, h]

theorem mem_of_mem_insertAllOrIgnore {rs : List ρ} {x : ρ} :
    ∀ t : Table key, x ∈ (t.insertAllOrIgnore rs).rows → x ∈ t.rows ∨ x ∈ rs := by
  induction rs with
  | nil => exact fun t hx => .inl hx
  | cons r rs ih =>
    intro t hx
    rcases ih (t.insertOrIgnore r) hx with hx | hx
    · rcases mem_insertOrIgnore.mp hx with hx | ⟨_, rfl⟩
      · exact .inl hx
      · exact .inr List.mem_cons_self
    · exact .inr (List.mem_cons_of_mem _ hx)

theorem mem_insertAllOrIgnore_of_mem {rs : List ρ} {x : ρ} :
    ∀ t : Table key, x ∈ t.rows → x ∈ (t.insertAllOrIgnore rs).rows := by
  induction rs with
  | nil => exact fun t hx => hx
  | cons r rs ih => exact fun t hx => ih _ (mem_insertOrIgnore.mpr (.inl hx))

/-- Every row of an `INSERT OR IGNORE` ends up in the table, itself or the one it met there. -/
theorem key_mem_insertAllOrIgnore {rs : List ρ} {r : ρ} (hr : r ∈ rs) :
    ∀ t : Table key, ∃ x ∈ (t.insertAllOrIgnore rs).rows, key x = key r := by
  induction rs with
  | nil => cases hr
  | cons r₀ rs ih =>
    intro t
    rcases List.mem_cons.mp hr with rfl | hr
    · by_cases h : key r ∈ t.rows.map key
      · obtain ⟨x, hx, hkey⟩ := List.mem_map.mp h
        exact ⟨x, mem_insertAllOrIgnore_of_mem (t.insertOrIgnore r)
          (mem_insertOrIgnore.mpr (.inl hx)), hkey⟩
      · exact ⟨r, mem_insertAllOrIgnore_of_mem (t.insertOrIgnore r)
          (mem_insertOrIgnore.mpr (.inr ⟨h, rfl⟩)), rfl⟩
    · exact ih hr _

end Lookup

section IntegerKeys

variable {key : ρ → ℤ}

/-- `COALESCE(MAX(key), 0)`. -/
def maxKey (t : Table key) : ℤ := (t.rows.map key).max?.getD 0

theorem le_maxKey {t : Table key} {k : ℤ} (hk : k ∈ t.rows.map key) : k ≤ t.maxKey := by
  unfold maxKey
  cases hmax : (t.rows.map key).max? with
  | none => rw [List.max?_eq_none_iff.mp hmax] at hk; cases hk
  | some m => exact (List.max?_eq_some_iff.mp hmax).2 k hk

theorem maxKey_lt_notMem {t : Table key} {k : ℤ} (hk : t.maxKey < k) : k ∉ t.rows.map key :=
  fun h => absurd (le_maxKey h) (not_le.mpr hk)

/-- `SELECT … WHERE p ORDER BY key ASC LIMIT 1`. -/
def firstWhere (t : Table key) (p : ρ → Bool) : Option ρ :=
  ((t.rows.filter p).map key).min?.bind fun k => t.rows.find? (key · = k)

/-- `SELECT … WHERE p ORDER BY key DESC LIMIT 1`. -/
def lastWhere (t : Table key) (p : ρ → Bool) : Option ρ :=
  ((t.rows.filter p).map key).max?.bind fun k => t.rows.find? (key · = k)

theorem selected_of_find {t : Table key} {p : ρ → Bool} {k : ℤ} {r : ρ}
    (hk : k ∈ (t.rows.filter p).map key) (hr : t.rows.find? (key · = k) = some r) :
    r ∈ t.rows ∧ p r = true := by
  obtain ⟨r₀, hr₀, rfl⟩ := List.mem_map.mp hk
  obtain ⟨hmem, hp⟩ := List.mem_filter.mp hr₀
  have hr' := List.mem_of_find?_eq_some hr
  have hkey : key r = key r₀ := by simpa using List.find?_some hr
  rw [eq_of_key_eq hr' hmem hkey]
  exact ⟨hmem, hp⟩

theorem selected_of_firstWhere {t : Table key} {p : ρ → Bool} {r : ρ}
    (h : t.firstWhere p = some r) : r ∈ t.rows ∧ p r = true := by
  obtain ⟨k, hk, hr⟩ := Option.bind_eq_some_iff.mp h
  exact selected_of_find (List.min?_eq_some_iff.mp hk).1 hr

theorem selected_of_lastWhere {t : Table key} {p : ρ → Bool} {r : ρ}
    (h : t.lastWhere p = some r) : r ∈ t.rows ∧ p r = true := by
  obtain ⟨k, hk, hr⟩ := Option.bind_eq_some_iff.mp h
  exact selected_of_find (List.max?_eq_some_iff.mp hk).1 hr

/-- `SELECT … WHERE p ORDER BY f ASC, key ASC LIMIT 1`. -/
def earliestBy (t : Table key) (p : ρ → Bool) (f : ρ → ℤ) : Option ρ :=
  ((t.rows.filter p).map f).min?.bind fun m => t.firstWhere fun r => p r && f r = m

/-- `SELECT … WHERE p ORDER BY f DESC, key DESC LIMIT 1`. -/
def latestBy (t : Table key) (p : ρ → Bool) (f : ρ → ℤ) : Option ρ :=
  ((t.rows.filter p).map f).max?.bind fun m => t.lastWhere fun r => p r && f r = m

theorem firstWhere_isSome {t : Table key} {p : ρ → Bool} {r : ρ} (hr : r ∈ t.rows)
    (hp : p r = true) : (t.firstWhere p).isSome := by
  have hmem : key r ∈ (t.rows.filter p).map key :=
    List.mem_map_of_mem (List.mem_filter.mpr ⟨hr, hp⟩)
  obtain ⟨k, hk⟩ := Option.isSome_iff_exists.mp (List.isSome_min?_of_mem hmem)
  obtain ⟨r₀, hr₀, hkey⟩ := List.mem_map.mp (List.min?_eq_some_iff.mp hk).1
  unfold firstWhere
  rw [hk, Option.bind_some, List.find?_isSome]
  exact ⟨r₀, (List.mem_filter.mp hr₀).1, decide_eq_true hkey⟩

theorem lastWhere_isSome {t : Table key} {p : ρ → Bool} {r : ρ} (hr : r ∈ t.rows)
    (hp : p r = true) : (t.lastWhere p).isSome := by
  have hmem : key r ∈ (t.rows.filter p).map key :=
    List.mem_map_of_mem (List.mem_filter.mpr ⟨hr, hp⟩)
  obtain ⟨k, hk⟩ := Option.isSome_iff_exists.mp (List.isSome_max?_of_mem hmem)
  obtain ⟨r₀, hr₀, hkey⟩ := List.mem_map.mp (List.max?_eq_some_iff.mp hk).1
  unfold lastWhere
  rw [hk, Option.bind_some, List.find?_isSome]
  exact ⟨r₀, (List.mem_filter.mp hr₀).1, decide_eq_true hkey⟩

theorem selected_of_earliestBy {t : Table key} {p : ρ → Bool} {f : ρ → ℤ} {r : ρ}
    (h : t.earliestBy p f = some r) : r ∈ t.rows ∧ p r = true := by
  obtain ⟨m, -, hr⟩ := Option.bind_eq_some_iff.mp h
  obtain ⟨hmem, hsel⟩ := selected_of_firstWhere hr
  rw [Bool.and_eq_true] at hsel
  exact ⟨hmem, hsel.1⟩

theorem earliestBy_le {t : Table key} {p : ρ → Bool} {f : ρ → ℤ} {r m : ρ}
    (hm : t.earliestBy p f = some m) (hr : r ∈ t.rows) (hp : p r = true) : f m ≤ f r := by
  obtain ⟨v, hv, hsel⟩ := Option.bind_eq_some_iff.mp hm
  have hmv : f m = v := by
    have hpm := (selected_of_firstWhere hsel).2
    rw [Bool.and_eq_true, decide_eq_true_eq] at hpm
    exact hpm.2
  rw [hmv]
  exact (List.min?_eq_some_iff.mp hv).2 _
    (List.mem_map_of_mem (List.mem_filter.mpr ⟨hr, hp⟩))

theorem earliestBy_isSome {t : Table key} {p : ρ → Bool} {f : ρ → ℤ} {r : ρ}
    (hr : r ∈ t.rows) (hp : p r = true) : (t.earliestBy p f).isSome := by
  have hmem : f r ∈ (t.rows.filter p).map f :=
    List.mem_map_of_mem (List.mem_filter.mpr ⟨hr, hp⟩)
  obtain ⟨m, hm⟩ := Option.isSome_iff_exists.mp (List.isSome_min?_of_mem hmem)
  obtain ⟨r₀, hr₀, hval⟩ := List.mem_map.mp (List.min?_eq_some_iff.mp hm).1
  obtain ⟨hmem₀, hp₀⟩ := List.mem_filter.mp hr₀
  unfold earliestBy
  rw [hm, Option.bind_some]
  exact firstWhere_isSome hmem₀ (by rw [hp₀, Bool.true_and, decide_eq_true_eq]; exact hval)

/-- The key a new row gets: above every key in the table and above `floor`. -/
def nextKey (t : Table key) (floor : ℤ) : ℤ := max t.maxKey floor + 1

def insertNext (t : Table key) (floor : ℤ) (row : ℤ → ρ)
    (hrow : ∀ k, key (row k) = k := by intro _; rfl) : Table key :=
  t.insert (row (t.nextKey floor)) (by
    rw [hrow]
    apply maxKey_lt_notMem
    unfold nextKey
    omega)

theorem mem_insertNext {t : Table key} {floor : ℤ} {row : ℤ → ρ} {hrow} {x : ρ} :
    x ∈ (t.insertNext floor row hrow).rows ↔ x ∈ t.rows ∨ x = row (t.nextKey floor) :=
  List.mem_append.trans (by rw [List.mem_singleton])

theorem key_ne_nextKey {t : Table key} {r : ρ} (hr : r ∈ t.rows) (floor : ℤ) :
    key r ≠ t.nextKey floor := by
  have hle := le_maxKey (List.mem_map_of_mem (f := key) hr)
  unfold nextKey
  omega

theorem lookup_insertNext {t : Table key} {floor : ℤ} {row : ℤ → ρ} {hrow} (k : ℤ) :
    (t.insertNext floor row hrow).lookup k =
      if k = t.nextKey floor then some (row k) else t.lookup k := by
  change (t.rows ++ [row (t.nextKey floor)]).find? _ = _
  rw [List.find?_append]
  by_cases hk : k = t.nextKey floor
  · subst hk
    have hnone : t.lookup (t.nextKey floor) = none :=
      lookup_eq_none.mpr fun r hr => key_ne_nextKey hr floor
    unfold lookup at hnone
    simp [hnone, hrow]
  · have hne : ¬t.nextKey floor = k := fun h => hk h.symm
    simp [hk, hrow, hne, lookup]

theorem filter_insertNext {t : Table key} {floor : ℤ} {row : ℤ → ρ} {hrow} {q : ρ → Bool}
    (hq : ∀ k, q (row k) = false) :
    (t.insertNext floor row hrow).rows.filter q = t.rows.filter q :=
  filter_insert (hq _)

end IntegerKeys

end Table

end Sashiko
