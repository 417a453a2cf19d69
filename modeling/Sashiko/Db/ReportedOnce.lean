import Mathlib.Logic.Relation
import Sashiko.Db.MailRuns

/-! No pre-existing bug is reported twice, as long as no reservation runs out while a worker that
has already read the clock is about to stamp it. -/

namespace Sashiko

open MailStore Relation

/-! ### The duplicate rule -/

/-- The bug itself, without the name it is tracked under. -/
def PreexistingDisclosureRow.described (d : PreexistingDisclosureRow) :
    NewPreexistingDisclosure where
  fingerprint := d.fingerprint
  problem := d.problem
  severity := d.severity
  relation := d.relation
  locationsJson := d.locationsJson
  bugKeyJson := d.bugKeyJson
  reportText := d.reportText
  bugId := d.bugId
  bugid := none
  files := d.files

def NewPreexistingDisclosure.described (c : NewPreexistingDisclosure) : NewPreexistingDisclosure :=
  { c with bugid := none, files := uniqueTexts c.files }

/-- `isDuplicate` decides an equivalence of bugs, and duplicates have a file in common. -/
structure DuplicateRule (isDuplicate : NewPreexistingDisclosure → PreexistingDisclosure → Bool)
    (same : NewPreexistingDisclosure → NewPreexistingDisclosure → Prop) : Prop where
  equivalence : Equivalence same
  commonFile : ∀ a b, a.files ≠ [] → b.files ≠ [] → same a b → ∃ f ∈ a.files, f ∈ b.files
  decides : ∀ c d, isDuplicate c d = true ↔
    same c.described d.toPreexistingDisclosureRow.described

/-- Two rows stand for one bug: by the rule, or by the tracked bug they were reserved under. -/
def SameBug (same : NewPreexistingDisclosure → NewPreexistingDisclosure → Prop)
    (d d' : PreexistingDisclosureRow) : Prop :=
  same d.described d'.described ∨ d.bugId ≠ none ∧ d.bugId = d'.bugId

theorem live_mono {d : PreexistingDisclosureRow} {now now' : ℤ} (h : now ≤ now')
    (hlive : d.live now' = true) : d.live now = true := by
  unfold PreexistingDisclosureRow.live at hlive ⊢
  rw [Bool.or_eq_true, decide_eq_true_eq] at hlive ⊢
  exact hlive.imp_right fun hlive => by omega

theorem expired_mono {d : PreexistingDisclosureRow} {now now' : ℤ} (h : now ≤ now')
    (hexpired : d.live now = false) : d.live now' = false := by
  by_contra hlive
  rw [live_mono h (Bool.eq_true_of_not_eq_false hlive)] at hexpired
  cases hexpired

/-! ### What a call does to the disclosures -/

abbrev DisclosureTable := Table PreexistingDisclosureRow.id

/-- One more reservation, of a bug whose other rows have all expired. -/
structure Reserves (same : NewPreexistingDisclosure → NewPreexistingDisclosure → Prop) (now : ℤ)
    (t t' : DisclosureTable) (d : PreexistingDisclosureRow) : Prop where
  rows : t'.rows = t.rows ++ [d]
  files : d.files ≠ []
  unmailed : d.disclosedAt = none
  free : ∀ e ∈ t.rows, SameBug same e d → e.live now = false

def stamped (patchMessageId : String) (clock : ℤ) (d : PreexistingDisclosureRow) : Bool :=
  unmailed patchMessageId d && clock - reservationTtlSecs < d.reservedAt

inductive DisclosureStep (same : NewPreexistingDisclosure → NewPreexistingDisclosure → Prop)
    (now : ℤ) (t t' : DisclosureTable) : Prop
  | unchanged (h : t' = t)
  | released (p : String) (h : t' = t.delete (unmailed p))
  | stamped (p : String) (clock : ℤ)
      (hlive : ∀ d ∈ t.rows, stamped p clock d = true → d.live now = true)
      (h : t' = t.update (stamped p clock) fun d => { d with disclosedAt := some clock })
  | reserved (p : String)
      (h : ReflTransGen (fun t t' => ∃ d, Reserves same now t t' d) (t.delete (unmailed p)) t')

/-- The reservations that the call is about to stamp have not expired since it read the clock. -/
def MailCall.markInTime (s : MailStore) (now : ℤ) : MailCall → Prop
  | markPreexistingDisclosed patchMessageId clock =>
    ∀ d ∈ s.preexistingDisclosures.rows, stamped patchMessageId clock d = true → d.live now = true
  | _ => True

def MailCall.FilesGiven : MailCall → Prop
  | reservePreexistingDisclosures _ _ candidates _ => ∀ c ∈ candidates, c.files ≠ []
  | _ => True

section Step

variable {isDuplicate : NewPreexistingDisclosure → PreexistingDisclosure → Bool}
  {same : NewPreexistingDisclosure → NewPreexistingDisclosure → Prop} {s : MailStore}

theorem live_of_stamped {p : String} {now : ℤ} {d : PreexistingDisclosureRow}
    (h : stamped p now d = true) : d.live now = true := by
  unfold stamped at h
  unfold PreexistingDisclosureRow.live
  rw [(Bool.and_eq_true_iff.mp h).2, Bool.or_true]

/-- A candidate that nothing stands against describes a bug whose other rows have expired. -/
theorem free_of_reservable (rule : DuplicateRule isDuplicate same) {p : String} {now : ℤ}
    {candidate c : NewPreexistingDisclosure} (hc : c.files ≠ [])
    (hfiles : ∀ e ∈ s.preexistingDisclosures.rows, e.files ≠ [])
    (heffective : s.effectiveCandidate now candidate = some c)
    (hreservable : s.reservable isDuplicate p now c = true) {e : PreexistingDisclosureRow} {id : ℤ}
    (he : e ∈ s.preexistingDisclosures.rows) (hsame : SameBug same e (reservedRow p now c id)) :
    e.live now = false := by
  by_contra hlive
  rw [Bool.not_eq_false] at hlive
  rcases hsame with hsame | ⟨hne, hbug⟩
  · have hunique : uniqueTexts c.files ≠ [] := by
      obtain ⟨f, hf⟩ := List.exists_mem_of_ne_nil _ hc
      exact List.ne_nil_of_mem (mem_uniqueTexts.mpr hf)
    obtain ⟨f, hfe, hfc⟩ := rule.commonFile _ _ (hfiles e he) hunique hsame
    have hin : s.disclosureFromRow e ∈ s.disclosuresInFilesOn c.files now := by
      refine List.mem_map_of_mem (List.mem_filter.mpr ⟨he, ?_⟩)
      rw [hlive, Bool.and_true]
      exact List.any_eq_true.mpr ⟨f, hfe, List.elem_eq_true_of_mem hfc⟩
    have hdup : isDuplicate c (s.disclosureFromRow e) = true :=
      (rule.decides _ _).mpr (rule.equivalence.symm hsame)
    unfold reservable at hreservable
    rw [List.any_eq_true.mpr ⟨_, hin, hdup⟩] at hreservable
    cases hreservable
  · have hlisted : ∀ bugId, e.bugId = some bugId → s.hasLiveDisclosureForBugOn bugId now = true :=
      fun bugId heq => Table.any_eq_true.mpr ⟨e, he, by simp [heq, hlive]⟩
    change e.bugId = c.bugId at hbug
    unfold effectiveCandidate at heffective
    split at heffective
    · split at heffective
      · split_ifs at heffective with hnone
        obtain rfl := Option.some.inj heffective
        exact hnone (hlisted _ hbug)
      · cases heffective
    · rename_i hnone
      obtain rfl := Option.some.inj heffective
      exact hne (hbug.trans hnone)

theorem files_effectiveCandidate {now : ℤ} {candidate c : NewPreexistingDisclosure}
    (h : s.effectiveCandidate now candidate = some c) : c.files = candidate.files := by
  unfold effectiveCandidate at h
  split at h
  · split at h
    · split_ifs at h
      obtain rfl := Option.some.inj h
      rfl
    · cases h
  · obtain rfl := Option.some.inj h
    rfl

/-- Each candidate of a call is refused or reserved. -/
theorem reserves_candidates (rule : DuplicateRule isDuplicate same) {p : String} {clock now : ℤ}
    (hclock : clock ≤ now) (candidates : List NewPreexistingDisclosure) :
    ∀ (acc : List PreexistingDisclosure × MailStore), (∀ c ∈ candidates, c.files ≠ []) →
      (∀ e ∈ acc.2.preexistingDisclosures.rows, e.files ≠ []) →
      ReflTransGen (fun t t' => ∃ d, Reserves same now t t' d) acc.2.preexistingDisclosures
        (candidates.foldl (reserveCandidate isDuplicate p clock)
          acc).2.preexistingDisclosures := by
  induction candidates with
  | nil => exact fun acc _ _ => .refl
  | cons candidate candidates ih =>
    intro acc hgiven hfiles
    rw [List.foldl_cons]
    have hrest := fun c hc => hgiven c (List.mem_cons_of_mem _ hc)
    unfold reserveCandidate
    split
    · rename_i c heffective
      split_ifs with hreservable
      · have hc : c.files ≠ [] := by
          rw [files_effectiveCandidate heffective]
          exact hgiven _ List.mem_cons_self
        have hnew : uniqueTexts c.files ≠ [] := by
          obtain ⟨f, hf⟩ := List.exists_mem_of_ne_nil _ hc
          exact List.ne_nil_of_mem (mem_uniqueTexts.mpr hf)
        refine .head ⟨_, rfl, hnew, rfl, fun e he hsame => ?_⟩ (ih _ hrest ?_)
        · exact expired_mono hclock
            (free_of_reservable rule hc hfiles heffective hreservable he hsame)
        · intro e he
          rcases List.mem_append.mp he with he | he
          · exact hfiles e he
          · rw [List.mem_singleton.mp he]
            exact hnew
      · exact ih _ hrest hfiles
    · exact ih _ hrest hfiles

theorem disclosureStep_stampDisclosuresIn {t : DisclosureTable} (h : s.preexistingDisclosures = t)
    (status : EmailStatus) (discloseFor : Option String) (now : ℤ) :
    DisclosureStep same now t
      (s.stampDisclosuresIn status discloseFor now).preexistingDisclosures := by
  subst h
  unfold stampDisclosuresIn
  split
  · split_ifs
    · exact .stamped _ now (fun d _ => live_of_stamped) rfl
    · exact .unchanged rfl
  · exact .unchanged rfl

theorem disclosureStep (rule : DuplicateRule isDuplicate same) {now : ℤ} {call : MailCall}
    (hfiles : ∀ e ∈ s.preexistingDisclosures.rows, e.files ≠ []) (hgiven : call.FilesGiven)
    (hclock : call.clockRead now ≤ now) (hmark : call.markInTime s now) :
    DisclosureStep same now s.preexistingDisclosures
      (call.step isDuplicate s now).preexistingDisclosures := by
  cases call with
  | insertReviewEmailOutbox claim email =>
    simp only [MailCall.step, insertReviewEmailOutbox]
    split_ifs
    · exact .unchanged rfl
    · split
      · split_ifs
        · apply disclosureStep_stampDisclosuresIn
          rfl
        · exact .unchanged rfl
      · apply disclosureStep_stampDisclosuresIn
        rfl
  | lockPendingEmail preferred =>
    simp only [MailCall.step, lockPendingEmail]
    split <;> exact .unchanged rfl
  | cancelPatchset id force =>
    simp only [MailCall.step, MailStore.cancelPatchset]
    split_ifs <;> exact .unchanged rfl
  | reservePreexistingDisclosures claim patchMessageId candidates clock =>
    simp only [MailCall.step, reservePreexistingDisclosures]
    split_ifs
    · have hread : clock ≤ now := hclock
      exact .reserved patchMessageId (reserves_candidates rule hread candidates
        ([], s.deleteDisclosures (unmailed patchMessageId)) hgiven
        fun e he => hfiles e (Table.mem_delete.mp he).1)
    · exact .unchanged rfl
  | releasePreexistingReservations claim patchMessageId =>
    simp only [MailCall.step, releasePreexistingReservations]
    split_ifs
    · exact .released _ rfl
    · exact .unchanged rfl
  | markPreexistingDisclosed patchMessageId clock => exact .stamped _ clock hmark rfl
  | _ => exact .unchanged rfl

end Step

/-! ### The invariant -/

section Invariant

variable {same : NewPreexistingDisclosure → NewPreexistingDisclosure → Prop} {now : ℤ}
  {t t' : DisclosureTable}

/-- Of two rows that stand for one bug, one is an expired reservation. -/
def Exclusive (same : NewPreexistingDisclosure → NewPreexistingDisclosure → Prop) (now : ℤ)
    (t : DisclosureTable) : Prop :=
  ∀ d ∈ t.rows, ∀ d' ∈ t.rows, d.id ≠ d'.id → SameBug same d d' →
    d.live now = false ∨ d'.live now = false

structure Disclosed (same : NewPreexistingDisclosure → NewPreexistingDisclosure → Prop) (now : ℤ)
    (t : DisclosureTable) : Prop where
  exclusive : Exclusive same now t
  files : ∀ d ∈ t.rows, d.files ≠ []

theorem SameBug.symm (hsymm : ∀ {a b}, same a b → same b a) {d d' : PreexistingDisclosureRow}
    (h : SameBug same d d') : SameBug same d' d :=
  h.imp hsymm fun ⟨hne, heq⟩ => ⟨heq ▸ hne, heq.symm⟩

theorem Disclosed.later (h : Disclosed same now t) {later : ℤ} (hle : now ≤ later) :
    Disclosed same later t :=
  ⟨fun d hd d' hd' hne hsame =>
    (h.exclusive d hd d' hd' hne hsame).imp (expired_mono hle) (expired_mono hle), h.files⟩

theorem Disclosed.delete (h : Disclosed same now t) (p : PreexistingDisclosureRow → Bool) :
    Disclosed same now (t.delete p) :=
  ⟨fun d hd d' hd' => h.exclusive d (Table.mem_delete.mp hd).1 d' (Table.mem_delete.mp hd').1,
    fun d hd => h.files d (Table.mem_delete.mp hd).1⟩

theorem Disclosed.reserve (hsymm : ∀ {a b}, same a b → same b a) (h : Disclosed same now t)
    {r : PreexistingDisclosureRow} (hr : Reserves same now t t' r) : Disclosed same now t' := by
  constructor
  · intro d hd d' hd' hne hsame
    rw [hr.rows, List.mem_append, List.mem_singleton] at hd hd'
    rcases hd with hd | rfl <;> rcases hd' with hd' | rfl
    · exact h.exclusive d hd d' hd' hne hsame
    · exact .inl (hr.free d hd hsame)
    · exact .inr (hr.free d' hd' (hsame.symm hsymm))
    · exact absurd rfl hne
  · intro d hd
    rw [hr.rows, List.mem_append, List.mem_singleton] at hd
    rcases hd with hd | rfl
    · exact h.files d hd
    · exact hr.files

/-- Stamping changes nothing but the stamp, and a row it changes was live before. -/
theorem stamp_spec {p : String} {clock : ℤ}
    (hlive : ∀ d ∈ t.rows, stamped p clock d = true → d.live now = true)
    {e : PreexistingDisclosureRow}
    (he : e ∈ (t.update (stamped p clock) fun d => { d with disclosedAt := some clock }).rows) :
    ∃ d ∈ t.rows, d.id = e.id ∧ d.described = e.described ∧
      (e = d ∨ d.disclosedAt = none ∧ d.live now = true) := by
  obtain ⟨d, hd, rfl⟩ := List.mem_map.mp he
  unfold Table.updateRow
  split_ifs with hstamped
  · refine ⟨d, hd, rfl, rfl, .inr ⟨?_, hlive d hd hstamped⟩⟩
    simp only [stamped, unmailed, Bool.and_eq_true, decide_eq_true_eq] at hstamped
    exact hstamped.1.2
  · exact ⟨d, hd, rfl, rfl, .inl rfl⟩

theorem Disclosed.stamp (h : Disclosed same now t) {p : String} {clock : ℤ}
    (hlive : ∀ d ∈ t.rows, stamped p clock d = true → d.live now = true) :
    Disclosed same now
      (t.update (stamped p clock) fun d => { d with disclosedAt := some clock }) := by
  constructor
  · intro e he e' he' hne hsame
    obtain ⟨d, hd, hid, hdescribed, hkept⟩ := stamp_spec hlive he
    obtain ⟨d', hd', hid', hdescribed', hkept'⟩ := stamp_spec hlive he'
    have hbug : d.bugId = e.bugId := congrArg NewPreexistingDisclosure.bugId hdescribed
    have hbug' : d'.bugId = e'.bugId := congrArg NewPreexistingDisclosure.bugId hdescribed'
    have hsame₀ : SameBug same d d' := by
      unfold SameBug at hsame ⊢
      rwa [hdescribed, hdescribed', hbug, hbug']
    -- the expired row of the pair was not stamped
    have hstays : ∀ {e d : PreexistingDisclosureRow},
        e = d ∨ d.disclosedAt = none ∧ d.live now = true → d.live now = false →
        e.live now = false := by
      rintro e d (rfl | ⟨-, hlive⟩) hexpired
      · exact hexpired
      · rw [hlive] at hexpired
        cases hexpired
    exact (h.exclusive d hd d' hd' (by rwa [hid, hid']) hsame₀).imp (hstays hkept) (hstays hkept')
  · intro e he
    obtain ⟨d, hd, -, hdescribed, -⟩ := stamp_spec hlive he
    have hsamefiles : d.files = e.files := congrArg NewPreexistingDisclosure.files hdescribed
    rw [← hsamefiles]
    exact h.files d hd

theorem Disclosed.step (hsymm : ∀ {a b}, same a b → same b a) (h : Disclosed same now t)
    (hstep : DisclosureStep same now t t') : Disclosed same now t' := by
  cases hstep with
  | unchanged heq => exact heq ▸ h
  | released p heq => exact heq ▸ h.delete _
  | stamped p clock hlive heq => exact heq ▸ h.stamp hlive
  | reserved p hreserves =>
    induction hreserves with
    | refl => exact h.delete _
    | tail _ hr ih => exact ih.reserve hsymm hr.choose_spec

/-! ### What stays of a row -/

/-- A mailed row stays as it is. -/
theorem mailed_step (hstep : DisclosureStep same now t t') {d : PreexistingDisclosureRow}
    (hd : d ∈ t.rows) (hmailed : d.disclosedAt ≠ none) : d ∈ t'.rows := by
  have hnot : ∀ p, unmailed p d = false := by
    intro p
    simp [unmailed, hmailed]
  cases hstep with
  | unchanged heq => exact heq ▸ hd
  | released p heq =>
    rw [heq]
    exact Table.mem_delete.mpr ⟨hd, hnot p⟩
  | stamped p clock hlive heq =>
    rw [heq]
    exact Table.mem_update_of_not hd (by rw [stamped, hnot, Bool.false_and])
  | reserved p hreserves =>
    induction hreserves with
    | refl => exact Table.mem_delete.mpr ⟨hd, hnot p⟩
    | tail _ hr ih =>
      obtain ⟨r, hr⟩ := hr
      rw [hr.rows]
      exact List.mem_append_left _ ih

/-- What is mailed after a call was mailed before, or was a live reservation. -/
theorem of_mailed_step (hstep : DisclosureStep same now t t') {e : PreexistingDisclosureRow}
    (he : e ∈ t'.rows) (hmailed : e.disclosedAt ≠ none) :
    ∃ d ∈ t.rows, d.id = e.id ∧ d.live now = true := by
  have hlive : e.live now = true := by
    rw [PreexistingDisclosureRow.live, Option.isSome_iff_ne_none.mpr hmailed, Bool.true_or]
  cases hstep with
  | unchanged heq => exact ⟨e, heq ▸ he, rfl, hlive⟩
  | released p heq => exact ⟨e, (Table.mem_delete.mp (heq ▸ he)).1, rfl, hlive⟩
  | stamped p clock hstamped heq =>
    rw [heq] at he
    obtain ⟨d, hd, hid, -, rfl | ⟨-, hlive⟩⟩ := stamp_spec hstamped he
    · exact ⟨e, hd, rfl, hlive⟩
    · exact ⟨d, hd, hid, hlive⟩
  | reserved p hreserves =>
    refine ⟨e, ?_, rfl, hlive⟩
    induction hreserves with
    | refl => exact (Table.mem_delete.mp he).1
    | tail _ hr ih =>
      obtain ⟨r, hr⟩ := hr
      rw [hr.rows, List.mem_append, List.mem_singleton] at he
      rcases he with he | rfl
      · exact ih he
      · exact absurd hr.unmailed hmailed

end Invariant

/-! ### Runs -/

variable (isDuplicate : NewPreexistingDisclosure → PreexistingDisclosure → Bool)

/-- Every mark stamps before a reservation that it is about to stamp expires. -/
def MarksInTime : MailStore → List (ℤ × MailCall) → Prop
  | _, [] => True
  | s, (now, call) :: rest =>
    call.markInTime s now ∧ MarksInTime (call.step isDuplicate s now) rest

/-- What every run keeps of the disclosures. -/
structure ReportedOnce (same : NewPreexistingDisclosure → NewPreexistingDisclosure → Prop)
    (s₀ : MailStore) (calls : List (ℤ × MailCall)) : Prop where
  /-- Two duplicates are never both mailed. -/
  mailedOnce : ∀ before after, calls = before ++ after →
    ∀ d ∈ (s₀.run isDuplicate before).preexistingDisclosures.rows,
    ∀ d' ∈ (s₀.run isDuplicate before).preexistingDisclosures.rows, d.id ≠ d'.id →
    same d.described d'.described → d.disclosedAt = none ∨ d'.disclosedAt = none
  /-- Two rows reserved under one tracked bug are never both unexpired. -/
  reservedOnce : ∀ before now call after, calls = before ++ (now, call) :: after →
    ∀ d ∈ (s₀.run isDuplicate (before ++ [(now, call)])).preexistingDisclosures.rows,
    ∀ d' ∈ (s₀.run isDuplicate (before ++ [(now, call)])).preexistingDisclosures.rows,
    d.id ≠ d'.id → d.bugId ≠ none → d.bugId = d'.bugId →
    d.live now = false ∨ d'.live now = false
  mailed_stays : ∀ before mid after, calls = before ++ (mid ++ after) →
    ∀ d ∈ (s₀.run isDuplicate before).preexistingDisclosures.rows, d.disclosedAt ≠ none →
    d ∈ (s₀.run isDuplicate (before ++ mid)).preexistingDisclosures.rows
  /-- An expired reservation is never stamped, whoever reserved its bug since. -/
  expired_unstamped : ∀ before now call after, calls = before ++ (now, call) :: after →
    ∀ d ∈ (s₀.run isDuplicate before).preexistingDisclosures.rows, d.live now = false →
    ∀ e ∈ (call.step isDuplicate (s₀.run isDuplicate before) now).preexistingDisclosures.rows,
    e.id = d.id → e.disclosedAt = none

variable {isDuplicate} {same : NewPreexistingDisclosure → NewPreexistingDisclosure → Prop}

/-- The conditions on a run, as they stand for the calls that are left. -/
structure InTime (isDuplicate : NewPreexistingDisclosure → PreexistingDisclosure → Bool)
    (s : MailStore) (calls : List (ℤ × MailCall)) : Prop where
  timed : Timed calls
  files : ∀ e ∈ calls, e.2.FilesGiven
  marks : MarksInTime isDuplicate s calls

theorem InTime.tail {s : MailStore} {now : ℤ} {call : MailCall} {rest : List (ℤ × MailCall)}
    (h : InTime isDuplicate s ((now, call) :: rest)) :
    InTime isDuplicate (call.step isDuplicate s now) rest where
  timed := ⟨(List.pairwise_cons.mp h.timed.sorted).2,
    fun e he => h.timed.read e (List.mem_cons_of_mem _ he)⟩
  files := fun e he => h.files e (List.mem_cons_of_mem _ he)
  marks := h.marks.2

theorem InTime.drop {after : List (ℤ × MailCall)} (before : List (ℤ × MailCall)) :
    ∀ s : MailStore, InTime isDuplicate s (before ++ after) →
      InTime isDuplicate (s.run isDuplicate before) after := by
  induction before with
  | nil => exact fun s h => h
  | cons e before ih =>
    obtain ⟨now, call⟩ := e
    exact fun s h => ih _ h.tail

theorem InTime.le_of_mem {s : MailStore} {e : ℤ × MailCall} {rest : List (ℤ × MailCall)}
    (h : InTime isDuplicate s (e :: rest)) : ∀ x ∈ rest, e.1 ≤ x.1 :=
  (List.pairwise_cons.mp h.timed.sorted).1

theorem disclosureStep_of_inTime (rule : DuplicateRule isDuplicate same) {s : MailStore} {now : ℤ}
    {call : MailCall} {rest : List (ℤ × MailCall)} (h : InTime isDuplicate s ((now, call) :: rest))
    (hfiles : ∀ e ∈ s.preexistingDisclosures.rows, e.files ≠ []) :
    DisclosureStep same now s.preexistingDisclosures
      (call.step isDuplicate s now).preexistingDisclosures :=
  disclosureStep rule hfiles (h.files _ List.mem_cons_self)
    (h.timed.read _ List.mem_cons_self) h.marks.1

theorem disclosed_run (rule : DuplicateRule isDuplicate same) {after : List (ℤ × MailCall)}
    (before : List (ℤ × MailCall)) :
    ∀ (s : MailStore) (now : ℤ), Disclosed same now s.preexistingDisclosures →
      (∀ e ∈ before ++ after, now ≤ e.1) → InTime isDuplicate s (before ++ after) →
      ∃ now', Disclosed same now' (s.run isDuplicate before).preexistingDisclosures ∧
        ∀ e ∈ after, now' ≤ e.1 := by
  induction before with
  | nil => exact fun s now h hle _ => ⟨now, h, hle⟩
  | cons e before ih =>
    obtain ⟨now', call⟩ := e
    intro s now h hle hin
    have hnow := h.later (hle (now', call) List.mem_cons_self)
    have hstep := disclosureStep_of_inTime rule hin hnow.files
    exact ih _ now' (hnow.step rule.equivalence.symm hstep) hin.le_of_mem hin.tail

section Main

variable {s₀ : MailStore}

/-- Before a call, the disclosures are in order at the call's own time. -/
theorem disclosed_before (rule : DuplicateRule isDuplicate same)
    (hempty : s₀.preexistingDisclosures.rows = []) {before after : List (ℤ × MailCall)}
    (h : InTime isDuplicate s₀ (before ++ after)) :
    ∃ now, Disclosed same now (s₀.run isDuplicate before).preexistingDisclosures ∧
      ∀ e ∈ after, now ≤ e.1 := by
  have hstart : ∀ now, Disclosed same now s₀.preexistingDisclosures := by
    intro now
    constructor
    · intro d hd
      rw [hempty] at hd
      cases hd
    · intro d hd
      rw [hempty] at hd
      cases hd
  have hfirst : ∃ now, ∀ e ∈ before ++ after, now ≤ e.1 := by
    cases hcalls : before ++ after with
    | nil => exact ⟨0, fun e he => absurd he List.not_mem_nil⟩
    | cons e rest =>
      rw [hcalls] at h
      exact ⟨e.1, List.forall_mem_cons.mpr ⟨le_rfl, h.le_of_mem⟩⟩
  obtain ⟨now, hle⟩ := hfirst
  exact disclosed_run rule before s₀ now (hstart now) hle h

theorem mailed_run (rule : DuplicateRule isDuplicate same) {d : PreexistingDisclosureRow}
    (hmailed : d.disclosedAt ≠ none) {after : List (ℤ × MailCall)} (mid : List (ℤ × MailCall)) :
    ∀ (s : MailStore) (now : ℤ), Disclosed same now s.preexistingDisclosures →
      (∀ e ∈ mid ++ after, now ≤ e.1) → InTime isDuplicate s (mid ++ after) →
      d ∈ s.preexistingDisclosures.rows →
      d ∈ (s.run isDuplicate mid).preexistingDisclosures.rows := by
  induction mid with
  | nil => exact fun s now _ _ _ hd => hd
  | cons e mid ih =>
    obtain ⟨now', call⟩ := e
    intro s now h hle hin hd
    have hnow := h.later (hle (now', call) List.mem_cons_self)
    have hstep := disclosureStep_of_inTime rule hin hnow.files
    exact ih _ now' (hnow.step rule.equivalence.symm hstep) hin.le_of_mem hin.tail
      (mailed_step hstep hd hmailed)

theorem unmailed_of_expired {d : PreexistingDisclosureRow} {now : ℤ} (h : d.live now = false) :
    d.disclosedAt = none := by
  rw [PreexistingDisclosureRow.live, Bool.or_eq_false_iff] at h
  simpa using h.1

theorem reportedOnce (rule : DuplicateRule isDuplicate same)
    (hempty : s₀.preexistingDisclosures.rows = []) {calls : List (ℤ × MailCall)}
    (htimed : Timed calls) (hfiles : ∀ e ∈ calls, e.2.FilesGiven)
    (hmarks : MarksInTime isDuplicate s₀ calls) : ReportedOnce isDuplicate same s₀ calls := by
  have hin : InTime isDuplicate s₀ calls := ⟨htimed, hfiles, hmarks⟩
  refine ⟨?mailedOnce, ?reservedOnce, ?mailed_stays, ?expired_unstamped⟩
  case mailedOnce =>
    rintro before after rfl d hd d' hd' hne hsame
    obtain ⟨now, hdisclosed, -⟩ := disclosed_before rule hempty hin
    exact (hdisclosed.exclusive d hd d' hd' hne (.inl hsame)).imp
      unmailed_of_expired unmailed_of_expired
  case reservedOnce =>
    rintro before now call after rfl d hd d' hd' hne hbug heq
    obtain ⟨now', hdisclosed, hle⟩ := disclosed_before rule hempty hin
    have hnow := hdisclosed.later (hle (now, call) List.mem_cons_self)
    have hstep := disclosureStep_of_inTime rule (hin.drop before) hnow.files
    rw [MailStore.run_append] at hd hd'
    exact (hnow.step rule.equivalence.symm hstep).exclusive d hd d' hd' hne (.inr ⟨hbug, heq⟩)
  case mailed_stays =>
    rintro before mid after rfl d hd hmailed
    obtain ⟨now, hdisclosed, hle⟩ := disclosed_before rule hempty hin
    rw [MailStore.run_append]
    exact mailed_run rule hmailed mid _ now hdisclosed hle (hin.drop before) hd
  case expired_unstamped =>
    rintro before now call after rfl d hd hexpired e he hid
    obtain ⟨now', hdisclosed, hle⟩ := disclosed_before rule hempty hin
    have hstep := disclosureStep_of_inTime rule (hin.drop before) hdisclosed.files
    by_contra hmailed
    obtain ⟨x, hx, hxid, hlive⟩ := of_mailed_step hstep he hmailed
    obtain rfl := Table.eq_of_key_eq hx hd (hxid.trans hid)
    rw [hlive] at hexpired
    cases hexpired

end Main

/-! ### The mark that stamps an expired reservation -/

/-- Bugs are told apart by their first file. -/
def byFirstFile (c : NewPreexistingDisclosure) (d : PreexistingDisclosure) : Bool :=
  (uniqueTexts c.files).head? = d.files.head?

def SameFirstFile (a b : NewPreexistingDisclosure) : Prop := a.files.head? = b.files.head?

theorem duplicateRule_byFirstFile : DuplicateRule byFirstFile SameFirstFile where
  equivalence := ⟨fun _ => rfl, Eq.symm, Eq.trans⟩
  commonFile := by
    intro a b ha hb hsame
    obtain ⟨f, fs, hfa⟩ := List.exists_cons_of_ne_nil ha
    refine ⟨f, hfa ▸ List.mem_cons_self, List.mem_of_mem_head? ?_⟩
    rw [← hsame, hfa]
    rfl
  decides := fun _ _ => decide_eq_true_iff

def leakIn (file : String) : NewPreexistingDisclosure :=
  ⟨"f", "leak", .high, .other, "[]", "{}", "a leak", none, none, [file]⟩

/-- One review reserves the bug and is about to mark it; the reservation expires, another review
reserves the bug and is queued; then the mark runs, with the clock value `clock`. -/
def markedLate (clock : ℤ) : List (ℤ × MailCall) :=
  [(0, .reservePreexistingDisclosures none "p1@x" [leakIn "mm/foo.c"] 0),
   (reservationTtlSecs, .reservePreexistingDisclosures none "p2@x" [leakIn "mm/foo.c"]
     reservationTtlSecs),
   (reservationTtlSecs, .insertReviewEmailOutbox none
     ⟨5, .pending, "", "", "", "", "", "", some "p2@x"⟩),
   (reservationTtlSecs, .markPreexistingDisclosed "p1@x" clock)]

theorem reportedOnce_markedLate :
    ReportedOnce byFirstFile SameFirstFile noMail (markedLate reservationTtlSecs) :=
  reportedOnce duplicateRule_byFirstFile rfl ⟨by decide, by decide⟩
    (by simp [markedLate, MailCall.FilesGiven, leakIn]) ⟨trivial, trivial, trivial, by
      unfold MailCall.markInTime; decide, trivial⟩

/-- With a clock value one second old, both reviews report the bug. -/
theorem markedLate_reportedTwice :
    Timed (markedLate (reservationTtlSecs - 1)) ∧
      (∀ e ∈ markedLate (reservationTtlSecs - 1), e.2.FilesGiven) ∧
      DuplicateRule byFirstFile SameFirstFile ∧
      ¬ReportedOnce byFirstFile SameFirstFile noMail
        (markedLate (reservationTtlSecs - 1)) := by
  refine ⟨⟨by decide, by decide⟩, by simp [markedLate, MailCall.FilesGiven, leakIn],
    duplicateRule_byFirstFile, fun h => ?_⟩
  have hone := h.mailedOnce (markedLate (reservationTtlSecs - 1)) [] (List.append_nil _).symm
  unfold SameFirstFile at hone
  revert hone
  decide

end Sashiko
