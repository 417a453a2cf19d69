import Mathlib.Data.List.Perm.Basic
import Sashiko.Lib.Table

/-! The dispatch priority of a series. Every message that arrives may raise or lower the priority of
the row it is filed under, and when two rows turn out to be one series their priorities are merged.

The two rules are one merge of single messages, save in one pair of branches: a message that an
elevating rule matches lifts a row again that a demoting one had lowered, while in a merge the
demotion wins. A series with a message of each kind has the priority of the last of them. -/

namespace Sashiko

structure PriorityRow where
  id : ℤ
  priority : Option ℤ
  deriving DecidableEq, Repr

abbrev PriorityTable := Table PriorityRow.id

/-- The `CASE` of `update_patchset_priority_on_ingest`. -/
def ingestedPriority (calculatedPriority defaultPriority : ℤ) : Option ℤ → Option ℤ
  | none => some calculatedPriority
  | some priority =>
    if calculatedPriority > defaultPriority then some (max priority calculatedPriority)
    else if calculatedPriority < defaultPriority then some (min priority calculatedPriority)
    else some priority

/-- The `CASE` with which `create_patchset_inner` merges the priority of another row. -/
def mergedPriority (otherPrio defaultPriority : ℤ) : Option ℤ → Option ℤ
  | none => some otherPrio
  | some priority =>
    if priority < defaultPriority ∧ otherPrio < defaultPriority then some (min priority otherPrio)
    else if priority < defaultPriority ∧ otherPrio ≥ defaultPriority then some priority
    else if priority ≥ defaultPriority ∧ otherPrio < defaultPriority then some otherPrio
    else some (max priority otherPrio)

/-- The rule of the merge, on the columns of the two rows: a row without a priority adds nothing. -/
def mergePriorities (defaultPriority : ℤ) (priority : Option ℤ) : Option ℤ → Option ℤ
  | none => priority
  | some otherPrio => mergedPriority otherPrio defaultPriority priority

namespace PriorityTable

def priorityOf (t : PriorityTable) (id : ℤ) : Option ℤ := (t.lookup id).bind (·.priority)

def updatePatchsetPriorityOnIngest (t : PriorityTable)
    (id calculatedPriority defaultPriority : ℤ) : PriorityTable :=
  t.update (·.id = id)
    fun r => { r with priority := ingestedPriority calculatedPriority defaultPriority r.priority }

/-- What `create_patchset_inner` does to the priority of `targetId` as it folds `mergeFromId`
into it. -/
def mergePatchsetPriority (t : PriorityTable)
    (targetId mergeFromId defaultPriority : ℤ) : PriorityTable :=
  match t.priorityOf mergeFromId with
  | some otherPrio =>
    t.update (·.id = targetId)
      fun r => { r with priority := mergedPriority otherPrio defaultPriority r.priority }
  | none => t

/-- The messages as they arrive, each with the row it is filed under and its own priority. -/
def ingestAll (t : PriorityTable) (defaultPriority : ℤ) (arrivals : List (ℤ × ℤ)) :
    PriorityTable :=
  arrivals.foldl (fun t a => t.updatePatchsetPriorityOnIngest a.1 a.2 defaultPriority) t

end PriorityTable

variable {d : ℤ}

/-! ### The merge

Of two priorities the merge keeps one: the lower one as soon as either is demoted, and the higher
one otherwise. -/

def decisive (d p q : ℤ) : ℤ := if p < d ∨ q < d then min p q else max p q

theorem decisive_comm (p q : ℤ) : decisive d p q = decisive d q p := by
  unfold decisive
  split_ifs <;> omega

theorem decisive_assoc (p q r : ℤ) :
    decisive d (decisive d p q) r = decisive d p (decisive d q r) := by
  unfold decisive
  split_ifs <;> omega

theorem decisive_self (p : ℤ) : decisive d p p = p := by
  unfold decisive
  split_ifs <;> omega

theorem mergePriorities_some (p q : ℤ) :
    mergePriorities d (some p) (some q) = some (decisive d p q) := by
  simp only [mergePriorities, mergedPriority, decisive]
  split_ifs <;> exact congrArg some (by omega)

theorem mergePriorities_none (q : Option ℤ) : mergePriorities d none q = q := by
  cases q <;> rfl

theorem mergePriorities_comm (p q : Option ℤ) :
    mergePriorities d p q = mergePriorities d q p := by
  rcases p with _ | p
  · exact mergePriorities_none q
  rcases q with _ | q
  · rfl
  · rw [mergePriorities_some, mergePriorities_some, decisive_comm]

theorem mergePriorities_assoc (p q r : Option ℤ) :
    mergePriorities d (mergePriorities d p q) r = mergePriorities d p (mergePriorities d q r) := by
  rcases p with _ | p
  · rw [mergePriorities_none, mergePriorities_none]
  rcases q with _ | q
  · rw [mergePriorities_none]
    rfl
  rcases r with _ | r
  · rfl
  · simp only [mergePriorities_some, decisive_assoc]

theorem mergePriorities_self (p : Option ℤ) : mergePriorities d p p = p := by
  rcases p with _ | p
  · rfl
  · rw [mergePriorities_some, decisive_self]

/-! ### A message is a row of one message, unless it lifts a demoted row -/

theorem ingestedPriority_eq {c p : ℤ} (h : ¬(p < d ∧ d < c)) :
    ingestedPriority c d (some p) = mergePriorities d (some p) (some c) := by
  rw [mergePriorities_some]
  unfold ingestedPriority decisive
  split_ifs <;> exact congrArg some (by omega)

/-- What is lifted again, or lowered, shows the message that came last. -/
theorem le_of_ingestedPriority {c p' : ℤ} {p : Option ℤ} (hc : c < d)
    (h : ingestedPriority c d p = some p') : p' ≤ c := by
  rcases p with _ | p
  · exact (Option.some_inj.mp h).ge
  · rw [ingestedPriority, if_neg (by omega), if_pos hc, Option.some_inj] at h
    omega

theorem ge_of_ingestedPriority {c p' : ℤ} {p : Option ℤ} (hc : d < c)
    (h : ingestedPriority c d p = some p') : c ≤ p' := by
  rcases p with _ | p
  · exact (Option.some_inj.mp h).le
  · rw [ingestedPriority, if_pos hc, Option.some_inj] at h
    omega

/-! ### Runs of messages -/

theorem lookup_updateOnIngest (t : PriorityTable) (id c d k : ℤ) :
    (t.updatePatchsetPriorityOnIngest id c d).lookup k =
      (t.lookup k).map (Table.updateRow (·.id = id)
        fun r => { r with priority := ingestedPriority c d r.priority }) :=
  Table.lookup_update _ k

/-- The messages filed under the row, in the order they arrive. -/
def filedUnder (id : ℤ) (arrivals : List (ℤ × ℤ)) : List ℤ :=
  (arrivals.filter (·.1 = id)).map (·.2)

def ingestedSeries (d : ℤ) (cs : List ℤ) (priority : Option ℤ) : Option ℤ :=
  cs.foldl (fun p c => ingestedPriority c d p) priority

theorem lookup_ingestAll (t : PriorityTable) (d k : ℤ) (arrivals : List (ℤ × ℤ)) :
    (t.ingestAll d arrivals).lookup k = (t.lookup k).map fun r =>
      { r with priority := ingestedSeries d (filedUnder k arrivals) r.priority } := by
  induction arrivals generalizing t with
  | nil => simp [PriorityTable.ingestAll, filedUnder, ingestedSeries]
  | cons a as ih =>
    refine (ih _).trans ?_
    rw [lookup_updateOnIngest]
    rcases hk : t.lookup k with _ | r
    · rfl
    obtain ⟨_, rfl⟩ := Table.lookup_eq_some.mp hk
    by_cases h : r.id = a.1
    · simp [Table.updateRow, filedUnder, h, ingestedSeries]
    · simp [Table.updateRow, filedUnder, h, Ne.symm h, ingestedSeries]

theorem priorityOf_ingestAll {t : PriorityTable} {id : ℤ} (h : t.lookup id = some ⟨id, none⟩)
    (d : ℤ) (arrivals : List (ℤ × ℤ)) : (t.ingestAll d arrivals).priorityOf id =
      ingestedSeries d (filedUnder id arrivals) none := by
  rw [PriorityTable.priorityOf, lookup_ingestAll, h]
  rfl

theorem priorityOf_mergePatchsetPriority {t : PriorityTable} {a b : ℤ} {r : PriorityRow}
    (ha : t.lookup a = some r) (d : ℤ) : (t.mergePatchsetPriority a b d).priorityOf a =
      mergePriorities d r.priority (t.priorityOf b) := by
  obtain ⟨-, hid⟩ := Table.lookup_eq_some.mp ha
  rcases hb : t.priorityOf b with _ | other <;>
    rw [PriorityTable.mergePatchsetPriority, hb, PriorityTable.priorityOf]
  · rw [ha]
    rfl
  · simp [Table.lookup_update, ha, Table.updateRow, hid, mergePriorities]

theorem filedUnder_map (id : ℤ) (cs : List ℤ) : filedUnder id (cs.map (id, ·)) = cs := by
  simp [filedUnder, List.filter_map, Function.comp_def]

theorem filedUnder_perm {a b : ℤ} (hab : a ≠ b) {arrivals : List (ℤ × ℤ)}
    (h : ∀ x ∈ arrivals, x.1 = a ∨ x.1 = b) :
    (filedUnder a arrivals ++ filedUnder b arrivals).Perm (arrivals.map (·.2)) := by
  have hb : arrivals.filter (·.1 = b) = arrivals.filter fun x => !decide (x.1 = a) := by
    refine List.filter_congr fun x hx => ?_
    rcases h x hx with hx | hx
    · simp [hx, hab]
    · simp [hx, hab.symm]
  unfold filedUnder
  rw [hb, ← List.map_append]
  exact (List.filter_append_perm _ _).map _

/-- Every message a row of its own, and all of them merged. -/
def mergedSeries (d : ℤ) (cs : List ℤ) (priority : Option ℤ) : Option ℤ :=
  cs.foldl (fun p c => mergePriorities d p (some c)) priority

theorem mergedSeries_perm {cs cs' : List ℤ} (h : cs.Perm cs') (p : Option ℤ) :
    mergedSeries d cs p = mergedSeries d cs' p := by
  refine h.foldl_eq' (fun x _ y _ z => ?_) p
  rw [mergePriorities_assoc, mergePriorities_comm (some x), mergePriorities_assoc]

theorem mergedSeries_start (cs : List ℤ) (p : Option ℤ) :
    mergedSeries d cs p = mergePriorities d p (mergedSeries d cs none) := by
  induction cs generalizing p with
  | nil => rfl
  | cons c cs ih =>
    change mergedSeries d cs _ = mergePriorities d p (mergedSeries d cs _)
    rw [ih, ih (mergePriorities d none _), mergePriorities_assoc, mergePriorities_none]

theorem mergedSeries_append (cs cs' : List ℤ) : mergedSeries d (cs ++ cs') none =
    mergePriorities d (mergedSeries d cs none) (mergedSeries d cs' none) := by
  rw [mergedSeries, List.foldl_append]
  exact mergedSeries_start cs' _

/-- A message of the series lowers its priority and another one lifts it. -/
def Mixed (d : ℤ) (cs : List ℤ) : Prop := (∃ c ∈ cs, c < d) ∧ ∃ c ∈ cs, d < c

/-- Along a series in which nothing lifts what another message lowers, both rules are one. -/
theorem ingestedSeries_eq (cs : List ℤ) (p : Option ℤ)
    (h : (∃ q ∈ p, q < d) ∨ (∃ c ∈ cs, c < d) → ∀ c ∈ cs, ¬d < c) :
    ingestedSeries d cs p = mergedSeries d cs p := by
  induction cs generalizing p with
  | nil => rfl
  | cons c cs ih =>
    have hone : ingestedPriority c d p = mergePriorities d p (some c) := by
      rcases p with _ | q
      · rfl
      · refine ingestedPriority_eq fun hq => ?_
        exact h (.inl ⟨q, rfl, hq.1⟩) c List.mem_cons_self hq.2
    change ingestedSeries d cs (ingestedPriority c d p) = mergedSeries d cs _
    rw [hone]
    refine ih _ fun hlow => ?_
    have hlow' : (∃ q ∈ p, q < d) ∨ ∃ x ∈ c :: cs, x < d := by
      rcases hlow with ⟨q, hq, hqd⟩ | ⟨x, hx, hxd⟩
      · rcases p with _ | p
        · exact .inr ⟨c, List.mem_cons_self, by cases hq; exact hqd⟩
        · rw [mergePriorities_some, Option.mem_some_iff, decisive] at hq
          by_cases hp : p < d
          · exact .inl ⟨p, rfl, hp⟩
          · exact .inr ⟨c, List.mem_cons_self, by split_ifs at hq <;> omega⟩
      · exact .inr ⟨x, List.mem_cons_of_mem _ hx, hxd⟩
    exact fun x hx => h hlow' x (List.mem_cons_of_mem _ hx)

theorem ingestedSeries_of_not_mixed {cs : List ℤ} (h : ¬Mixed d cs) :
    ingestedSeries d cs none = mergedSeries d cs none := by
  refine ingestedSeries_eq cs none fun hlow c hc hcd => ?_
  rcases hlow with ⟨q, hq, -⟩ | hlow
  · cases hq
  · exact h ⟨hlow, c, hc, hcd⟩

theorem mixed_perm {cs cs' : List ℤ} (h : cs.Perm cs') : Mixed d cs ↔ Mixed d cs' := by
  simp only [Mixed, h.mem_iff]

theorem Mixed.of_append {cs cs' : List ℤ} (h : Mixed d cs) : Mixed d (cs ++ cs') := by
  obtain ⟨⟨x, hx, hxd⟩, y, hy, hyd⟩ := h
  exact ⟨⟨x, List.mem_append_left _ hx, hxd⟩, y, List.mem_append_left _ hy, hyd⟩

/-! ### The order of arrival -/

/-- The messages of the series leave one priority, in whatever order they arrive and however they
are spread over two rows that are merged in the end. -/
structure ArrivalFree (d : ℤ) (cs : List ℤ) : Prop where
  one_row : ∀ (t : PriorityTable) (id : ℤ), t.lookup id = some ⟨id, none⟩ → ∀ l : List ℤ,
    l.Perm cs → (t.ingestAll d (l.map (id, ·))).priorityOf id =
      (t.ingestAll d (cs.map (id, ·))).priorityOf id
  two_rows : ∀ (t : PriorityTable) (a b : ℤ), a ≠ b → t.lookup a = some ⟨a, none⟩ →
    t.lookup b = some ⟨b, none⟩ → ∀ arrivals : List (ℤ × ℤ),
    (∀ x ∈ arrivals, x.1 = a ∨ x.1 = b) → (arrivals.map (·.2)).Perm cs →
    ((t.ingestAll d arrivals).mergePatchsetPriority a b d).priorityOf a =
      (t.ingestAll d (cs.map (a, ·))).priorityOf a

theorem arrivalFree_of_not_mixed {cs : List ℤ} (h : ¬Mixed d cs) : ArrivalFree d cs where
  one_row t id hid l hl := by
    rw [priorityOf_ingestAll hid, priorityOf_ingestAll hid, filedUnder_map, filedUnder_map,
      ingestedSeries_of_not_mixed h, ingestedSeries_of_not_mixed (mt (mixed_perm hl).mp h)]
    exact mergedSeries_perm hl none
  two_rows t a b hab ha hb arrivals hids hperm := by
    have hsplit := (filedUnder_perm hab hids).trans hperm
    have hfree := mt (mixed_perm hsplit).mp h
    have hfreeA : ¬Mixed d (filedUnder a arrivals) := mt Mixed.of_append hfree
    have hfreeB : ¬Mixed d (filedUnder b arrivals) :=
      fun hm => hfree ((mixed_perm List.perm_append_comm).mp hm.of_append)
    have hrow : (t.ingestAll d arrivals).lookup a =
        some ⟨a, ingestedSeries d (filedUnder a arrivals) none⟩ := by
      rw [lookup_ingestAll, ha]
      rfl
    rw [priorityOf_mergePatchsetPriority hrow, priorityOf_ingestAll hb, priorityOf_ingestAll ha,
      filedUnder_map, ingestedSeries_of_not_mixed hfreeA, ingestedSeries_of_not_mixed hfreeB,
      ingestedSeries_of_not_mixed h, ← mergedSeries_append]
    exact mergedSeries_perm hsplit none

def freshRow (id : ℤ) : PriorityTable := ⟨[⟨id, none⟩], List.nodup_singleton _⟩

theorem ingestedSeries_concat (cs : List ℤ) (c : ℤ) (p : Option ℤ) :
    ingestedSeries d (cs ++ [c]) p = ingestedPriority c d (ingestedSeries d cs p) :=
  List.foldl_concat _ _ _ _

theorem exists_ingestedPriority (c : ℤ) (p : Option ℤ) :
    ∃ p', ingestedPriority c d p = some p' := by
  rcases p with _ | p
  · exact ⟨c, rfl⟩
  · unfold ingestedPriority
    split_ifs <;> exact ⟨_, rfl⟩

theorem not_mixed_of_arrivalFree {cs : List ℤ} (h : ArrivalFree d cs) : ¬Mixed d cs := by
  rintro ⟨⟨lo, hlo, hlod⟩, hi, hhi, hhid⟩
  -- the same messages, with the lowering one last, and with the lifting one last
  have hone : ∀ c ∈ cs, ingestedPriority c d (ingestedSeries d (cs.erase c) none) =
      ingestedSeries d cs none := by
    intro c hc
    have hperm : (cs.erase c ++ [c]).Perm cs :=
      (List.perm_append_singleton _ _).trans (List.perm_cons_erase hc).symm
    have := h.one_row (freshRow 0) 0 rfl _ hperm
    rwa [priorityOf_ingestAll rfl, priorityOf_ingestAll rfl, filedUnder_map, filedUnder_map,
      ingestedSeries_concat] at this
  obtain ⟨p, hp⟩ := exists_ingestedPriority (d := d) lo (ingestedSeries d (cs.erase lo) none)
  have hlow := le_of_ingestedPriority hlod hp
  have hhigh := ge_of_ingestedPriority hhid ((hone hi hhi).trans ((hone lo hlo).symm.trans hp))
  omega

/-- The priority of a series is free of the order of arrival exactly if no message lowers it that
another one lifts; the merge is commutative, associative and idempotent always. -/
theorem priority_arrivalFree_iff (d : ℤ) :
    (∀ cs, ArrivalFree d cs ↔ ¬((∃ c ∈ cs, c < d) ∧ ∃ c ∈ cs, d < c)) ∧
      (∀ p q, mergePriorities d p q = mergePriorities d q p) ∧
      (∀ p q r, mergePriorities d (mergePriorities d p q) r =
        mergePriorities d p (mergePriorities d q r)) ∧
      ∀ p, mergePriorities d p p = p :=
  ⟨fun _ => ⟨not_mixed_of_arrivalFree, arrivalFree_of_not_mixed⟩, mergePriorities_comm,
    mergePriorities_assoc, mergePriorities_self⟩

/-- A demoting and an elevating message: the last one decides. -/
theorem priority_by_arrival : ¬ArrivalFree 500 [900, 300] := by
  intro h
  have := h.one_row (freshRow 1) 1 rfl [300, 900] (List.Perm.swap _ _ _)
  exact absurd this (by decide)

end Sashiko
