import Sashiko.Ingest.FetchLoop

/-! The stored mark of a group never passes an article whose fate is open, in whatever order the
workers report, and wherever the process ends; and a pass that nothing is lost in moves it up to the
tip. -/

namespace Sashiko

open MailingLists

/-- There is nothing left to fetch: the article was dealt with, does not exist, or was taken as read
when the group was opened. -/
def DealtWith (facts : List IngestFact) (group : String) (a : ℕ) : Prop :=
  .stored group a ∈ facts ∨ .rejected group a ∈ facts ∨ .absent group a ∈ facts ∨
    ∃ mark, .opened group mark ∈ facts ∧ a ≤ mark

theorem DealtWith.mono {facts facts' : List IngestFact} {group : String} {a : ℕ}
    (h : DealtWith facts group a) (hsub : facts ⊆ facts') : DealtWith facts' group a := by
  rcases h with h | h | h | ⟨mark, h, hle⟩
  · exact .inl (hsub h)
  · exact .inr (.inl (hsub h))
  · exact .inr (.inr (.inl (hsub h)))
  · exact .inr (.inr (.inr ⟨mark, hsub h, hle⟩))

theorem DealtWith.of_mem_start {lists : MailingLists} {group : String} {a : ℕ} (hpos : 0 < a)
    (ha : a ≤ lists.getLastArticleNum group) :
    DealtWith (IngestState.start lists).facts group a := by
  unfold getLastArticleNum at ha
  cases hfound : lists.lookup group with
  | none =>
    rw [hfound] at ha
    exact absurd ha (Nat.not_le.mpr hpos)
  | some l =>
    rw [hfound] at ha
    obtain ⟨hl, rfl⟩ := Table.lookup_eq_some.mp hfound
    exact .inr (.inr (.inr ⟨_, List.mem_map.mpr ⟨l, hl, rfl⟩, ha⟩))

namespace IngestState

def mark (s : IngestState) (group : String) : ℕ := s.lists.getLastArticleNum group

def Known (s : IngestState) (group : String) : Prop :=
  group ∈ s.lists.rows.map MailingList.nntpGroup

/-- The article is covered, or its receipt is still out, or the tracker remembers a loss that holds
the mark below it. -/
def Accounted (s : IngestState) (group : String) (a : ℕ) : Prop :=
  DealtWith s.facts group a ∨ (∃ c ∈ s.carried, c.group = group ∧ c.receipt.article = a) ∨
    s.tracker.LostUpTo a

structure PassOk (s : IngestState) (p : GroupPass) : Prop where
  known : s.Known p.group
  mark_eq : s.mark p.group = p.committed
  current_eq : p.current = p.handedOff
  committed_le : p.committed ≤ p.handedOff
  accounted : ∀ a, p.committed < a → a ≤ p.handedOff → s.Accounted p.group a

structure WriteOk (s : IngestState) (p : GroupPass) (safe : ℕ) : Prop where
  known : s.Known p.group
  mark_eq : s.mark p.group = p.committed
  current_eq : p.current = p.handedOff
  committed_le : p.committed ≤ safe
  safe_le : safe ≤ p.handedOff
  covered : ∀ a, p.committed < a → a ≤ safe → DealtWith s.facts p.group a

def PhaseOk (s : IngestState) : FetchPhase → Prop
  | .between => True
  | .fetching p | .committing p _ => s.PassOk p
  | .writing p safe _ => s.WriteOk p safe

/-- What holds after every step. -/
structure Sound (s : IngestState) : Prop where
  outstanding : s.tracker.inFlight = s.carried.length
  unsettled : ∀ c ∈ s.carried, c.receipt.settled = false
  marks : ∀ group a, 0 < a → a ≤ s.mark group → DealtWith s.facts group a
  phaseOk : s.PhaseOk s.phase

/-! ### What the workers do -/

/-- What a step of the workers leaves to the fetch loop. -/
structure Keeps (s s' : IngestState) : Prop where
  mark_eq : ∀ group, s'.mark group = s.mark group
  known : ∀ group, s.Known group → s'.Known group
  facts : s.facts ⊆ s'.facts
  phase_eq : s'.phase = s.phase
  accounted : ∀ group a, s.Accounted group a → s'.Accounted group a

variable {s s' : IngestState}

theorem PassOk.keeps {p : GroupPass} (h : s.PassOk p) (hk : Keeps s s') : s'.PassOk p where
  known := hk.known _ h.known
  mark_eq := (hk.mark_eq _).trans h.mark_eq
  current_eq := h.current_eq
  committed_le := h.committed_le
  accounted a hlt hle := hk.accounted _ a (h.accounted a hlt hle)

theorem WriteOk.keeps {p : GroupPass} {safe : ℕ} (h : s.WriteOk p safe) (hk : Keeps s s') :
    s'.WriteOk p safe where
  known := hk.known _ h.known
  mark_eq := (hk.mark_eq _).trans h.mark_eq
  current_eq := h.current_eq
  committed_le := h.committed_le
  safe_le := h.safe_le
  covered a hlt hle := (h.covered a hlt hle).mono hk.facts

theorem Sound.keeps (h : s.Sound) (hk : Keeps s s')
    (hout : s'.tracker.inFlight = s'.carried.length)
    (hun : ∀ c ∈ s'.carried, c.receipt.settled = false) : s'.Sound where
  outstanding := hout
  unsettled := hun
  marks group a hpos ha :=
    (h.marks group a hpos (by rw [← hk.mark_eq]; exact ha)).mono hk.facts
  phaseOk := by
    rw [hk.phase_eq]
    have hphase := h.phaseOk
    cases hs : s.phase with
    | between => trivial
    | fetching p => rw [hs] at hphase; exact PassOk.keeps hphase hk
    | committing p last => rw [hs] at hphase; exact PassOk.keeps hphase hk
    | writing p safe last => rw [hs] at hphase; exact WriteOk.keeps hphase hk

theorem mem_of_mem_eraseIdx {c d : Carried} {k : ℕ} (hc : s.carried[k]? = some c)
    (hd : d ∈ s.carried) : d = c ∨ d ∈ s.carried.eraseIdx k := by
  obtain ⟨i, hi⟩ := List.mem_iff_getElem?.mp hd
  by_cases hik : i = k
  · exact .inl (Option.some_inj.mp (hi.symm.trans (hik ▸ hc)))
  · exact .inr (List.mem_eraseIdx_iff_getElem?.mpr ⟨i, hik, hi⟩)

/-- An article that leaves the pipeline is covered or lost. -/
theorem Sound.release (h : s.Sound) {k : ℕ} {c : Carried} (hc : s.carried[k]? = some c)
    {receipt : IngestReceipt} {facts : List IngestFact} (hfacts : s.facts ⊆ facts)
    (hfate : DealtWith facts c.group c.receipt.article ∨
      receipt.settled = false ∧ receipt.article = c.receipt.article) :
    { s.release k receipt with facts := facts }.Sound := by
  have hlt : k < s.carried.length := (List.getElem?_eq_some_iff.mp hc).1
  refine h.keeps ⟨fun _ => rfl, fun _ => id, hfacts, rfl, ?_⟩ ?_ ?_
  · rintro group a (hcov | ⟨d, hd, hgroup, harticle⟩ | hlost)
    · exact .inl (hcov.mono hfacts)
    · rcases mem_of_mem_eraseIdx hc hd with rfl | hd
      · rcases hfate with hcov | ⟨hun, hart⟩
        · rw [hgroup, harticle] at hcov
          exact .inl hcov
        · refine .inr (.inr ?_)
          rw [← harticle, ← hart]
          exact TrackerState.lostUpTo_drop hun
      · exact .inr (.inl ⟨d, hd, hgroup, harticle⟩)
    · exact .inr (.inr (hlost.drop receipt))
  · change s.tracker.inFlight - 1 = (s.carried.eraseIdx k).length
    rw [List.length_eraseIdx_of_lt hlt, h.outstanding]
  · exact fun d hd => h.unsettled d (List.mem_of_mem_eraseIdx hd)

theorem Sound.settle (h : s.Sound) {k : ℕ} {c : Carried} (hc : s.carried[k]? = some c)
    {fact : IngestFact} (hfact : DealtWith [fact] c.group c.receipt.article) :
    (s.settle k c fact).Sound :=
  h.release hc (List.subset_cons_self _ _)
    (.inl (hfact.mono (List.cons_subset_cons _ (List.nil_subset _))))

theorem Sound.lose (h : s.Sound) {k : ℕ} {c : Carried} (hc : s.carried[k]? = some c) :
    (s.release k c.receipt).Sound :=
  h.release hc (List.Subset.refl _) (.inr ⟨h.unsettled c (List.mem_of_getElem? hc), rfl⟩)

theorem Sound.parse (h : s.Sound) {k : ℕ} {c : Carried} (hc : s.carried[k]? = some c)
    (outcome : ParseOutcome) : (s.parse k c outcome).Sound := by
  cases outcome with
  | parsed =>
    have hmem : ∀ d ∈ s.carried.set k { c with parsed := true },
        ∃ d₀ ∈ s.carried, d₀.group = d.group ∧ d₀.receipt = d.receipt := by
      intro d hd
      rcases List.mem_or_eq_of_mem_set hd with hd | rfl
      · exact ⟨d, hd, rfl, rfl⟩
      · exact ⟨c, List.mem_of_getElem? hc, rfl, rfl⟩
    refine h.keeps ⟨fun _ => rfl, fun _ => id, List.Subset.refl _, rfl, ?_⟩ ?_ ?_
    · rintro group a (hcov | ⟨d, hd, hgroup, harticle⟩ | hlost)
      · exact .inl hcov
      · obtain ⟨i, hi⟩ := List.mem_iff_getElem?.mp hd
        obtain ⟨hlt, rfl⟩ := List.getElem?_eq_some_iff.mp hi
        refine .inr (.inl ?_)
        by_cases hik : k = i
        · subst hik
          obtain ⟨-, rfl⟩ := List.getElem?_eq_some_iff.mp hc
          exact ⟨_, List.mem_set hlt _, hgroup, harticle⟩
        · refine ⟨_, List.mem_iff_getElem?.mpr ⟨i, ?_⟩, hgroup, harticle⟩
          exact (List.getElem?_set_ne hik).trans hi
      · exact .inr (.inr hlost)
    · exact h.outstanding.trans (List.length_set).symm
    · intro d hd
      obtain ⟨d₀, hd₀, -, hreceipt⟩ := hmem d hd
      rw [← hreceipt]
      exact h.unsettled d₀ hd₀
  | beforeCutoff => exact h.settle hc (.inr (.inl (List.mem_singleton.mpr rfl)))
  | unparseable => exact h.settle hc (.inr (.inl (List.mem_singleton.mpr rfl)))
  | panicked => exact h.settle hc (.inr (.inl (List.mem_singleton.mpr rfl)))

theorem Sound.process (h : s.Sound) {k : ℕ} {c : Carried} (hc : s.carried[k]? = some c)
    (status : ProcessStatus) : (s.process k c status).Sound := by
  cases status with
  | ingested => exact h.settle hc (.inl (List.mem_singleton.mpr rfl))
  | error => exact h.lose hc

/-! ### What the fetch loop does -/

theorem Sound.flush (h : s.Sound) {p : GroupPass} (hp : s.PassOk p) :
    { s with phase := p.flush }.Sound where
  outstanding := h.outstanding
  unsettled := h.unsettled
  marks := h.marks
  phaseOk := by
    change PhaseOk _ p.flush
    unfold GroupPass.flush
    split_ifs
    · exact ⟨hp.known, hp.mark_eq, hp.current_eq, hp.committed_le, hp.accounted⟩
    · trivial

theorem Sound.loopHead (h : s.Sound) {p : GroupPass} (hp : s.PassOk p) :
    { s with phase := p.loopHead }.Sound := by
  unfold GroupPass.loopHead
  split_ifs
  · exact ⟨h.outstanding, h.unsettled, h.marks,
      ⟨hp.known, hp.mark_eq, hp.current_eq, hp.committed_le, hp.accounted⟩⟩
  · exact h.flush hp

/-- The articles up to the next one are accounted for when that one is. -/
theorem PassOk.advance {p : GroupPass} (hp : s.PassOk p)
    (hnext : s.Accounted p.group (p.current + 1)) : s.PassOk p.advance where
  known := hp.known
  mark_eq := hp.mark_eq
  current_eq := rfl
  committed_le := by
    change p.committed ≤ p.current + 1
    rw [hp.current_eq]
    exact hp.committed_le.trans (Nat.le_succ _)
  accounted a hlt hle := by
    rcases Nat.lt_or_eq_of_le hle with hle | rfl
    · exact hp.accounted a hlt (hp.current_eq ▸ Nat.lt_succ_iff.mp hle)
    · exact hnext

/-- The fetch loop ends in front of the next group. -/
theorem Sound.between (h : s.Sound) : { s with phase := .between }.Sound :=
  ⟨h.outstanding, h.unsettled, h.marks, trivial⟩

theorem keeps_hand (s : IngestState) (p : GroupPass) : Keeps s (s.hand p) := by
  refine ⟨fun _ => rfl, fun _ => id, List.Subset.refl _, rfl, ?_⟩
  rintro group a (hcov | ⟨c, hc, hrest⟩ | hlost)
  · exact .inl hcov
  · exact .inr (.inl ⟨c, List.mem_append_left _ hc, hrest⟩)
  · exact .inr (.inr hlost)

theorem Sound.hand (h : s.Sound) (p : GroupPass) : (s.hand p).Sound := by
  refine h.keeps (keeps_hand s p) ?_ ?_
  · change s.tracker.inFlight + 1 = (s.carried ++ [_]).length
    rw [List.length_append, h.outstanding, List.length_singleton]
  · intro c hc
    rcases List.mem_append.mp hc with hc | hc
    · exact h.unsettled c hc
    · rw [List.mem_singleton.mp hc]

theorem Sound.passOk (h : s.Sound) {p : GroupPass} (hphase : s.phase = .fetching p) :
    s.PassOk p := by
  have hok := h.phaseOk
  rw [hphase] at hok
  exact hok

theorem Sound.articleFetched (h : s.Sound) {p : GroupPass} (hphase : s.phase = .fetching p) :
    (s.articleFetched p).Sound := by
  have hs := h.hand p
  have hp : (s.hand p).PassOk p.advance :=
    ((h.passOk hphase).keeps (keeps_hand s p)).advance
      (.inr (.inl ⟨_, List.mem_append_right _ (List.mem_singleton.mpr rfl), rfl, rfl⟩))
  unfold IngestState.articleFetched
  split_ifs
  · exact ⟨hs.outstanding, hs.unsettled, hs.marks,
      ⟨hp.known, hp.mark_eq, hp.current_eq, hp.committed_le, hp.accounted⟩⟩
  · exact hs.loopHead hp

theorem Sound.sendFailed (h : s.Sound) (p : GroupPass) : (s.sendFailed p).Sound :=
  ⟨h.outstanding, h.unsettled, h.marks, trivial⟩

theorem Sound.articleMissing (h : s.Sound) {p : GroupPass} (hphase : s.phase = .fetching p) :
    (s.articleMissing p).Sound := by
  have hp := h.passOk hphase
  unfold IngestState.articleMissing
  split_ifs
  · exact h.flush hp
  · have hk : Keeps s { s with facts := .absent p.group (p.current + 1) :: s.facts } :=
      ⟨fun _ => rfl, fun _ => id, List.subset_cons_self _ _, rfl, fun group a => Or.imp_left
        fun hcov => hcov.mono (List.subset_cons_self _ _)⟩
    refine (h.keeps hk h.outstanding h.unsettled).loopHead ((hp.keeps hk).advance ?_)
    exact .inl (.inr (.inr (.inl List.mem_cons_self)))

/-- Once the tracker is quiet, what it lets the mark move up to is covered. -/
theorem Sound.takeSafeMark (h : s.Sound) {p : GroupPass} {last : Bool}
    (hphase : s.phase = .committing p last) (hquiet : s.tracker.inFlight = 0) :
    (s.takeSafeMark p last).Sound := by
  have hp : s.PassOk p := by
    have hok := h.phaseOk
    rw [hphase] at hok
    exact hok
  have hempty : s.carried = [] := List.eq_nil_of_length_eq_zero (h.outstanding ▸ hquiet)
  refine ⟨h.outstanding, h.unsettled, h.marks, ?_⟩
  refine ⟨hp.known, hp.mark_eq, hp.current_eq, Nat.le_max_right _ _,
    Nat.max_le.mpr ⟨s.tracker.takeSafeMark_le _, hp.committed_le⟩, fun a hlt hle => ?_⟩
  have hsafe : a ≤ (s.tracker.takeSafeMark p.handedOff).2 :=
    (le_max_iff.mp hle).resolve_right (Nat.not_le.mpr hlt)
  have hacc := hp.accounted a hlt (hsafe.trans (s.tracker.takeSafeMark_le _))
  rcases hacc with hcov | ⟨c, hc, -⟩ | hlost
  · exact hcov
  · rw [hempty] at hc
    cases hc
  · exact absurd hlost
      (TrackerState.not_lostUpTo_takeSafeMark (Nat.zero_lt_of_lt hlt) hsafe)

/-- The mark of a group is moved, and what is up to it is covered. -/
theorem Sound.update (h : s.Sound) {group : String} (hknown : s.Known group) {num : ℕ}
    (hcov : ∀ a, 0 < a → a ≤ num → DealtWith s.facts group a) :
    { s with lists := s.lists.updateLastArticleNum group num, phase := .between }.Sound := by
  refine ⟨h.outstanding, h.unsettled, fun g a hpos ha => ?_, trivial⟩
  change a ≤ (s.lists.updateLastArticleNum group num).getLastArticleNum g at ha
  rw [getLastArticleNum_updateLastArticleNum hknown] at ha
  split_ifs at ha with hg
  · subst hg
    exact hcov a hpos ha
  · exact h.marks g a hpos ha

theorem WriteOk.all_covered {p : GroupPass} {safe : ℕ} (hw : s.WriteOk p safe) (h : s.Sound)
    {a : ℕ} (hpos : 0 < a) (ha : a ≤ safe) : DealtWith s.facts p.group a := by
  rcases Nat.lt_or_ge p.committed a with hlt | hle
  · exact hw.covered a hlt ha
  · exact h.marks p.group a hpos (by rw [hw.mark_eq]; exact hle)

theorem Sound.writeMark (h : s.Sound) {p : GroupPass} {safe : ℕ} {last : Bool}
    (hphase : s.phase = .writing p safe last) (written : Bool) :
    (s.writeMark p safe last written).Sound := by
  have hw : s.WriteOk p safe := by
    have hok := h.phaseOk
    rw [hphase] at hok
    exact hok
  have hupd := h.update hw.known fun a hpos ha => hw.all_covered h hpos ha
  unfold IngestState.writeMark
  split_ifs with hwritten hlast hheld
  · exact hupd
  · exact hupd
  · refine hupd.loopHead
      ⟨mem_updateLastArticleNum.mpr hw.known, ?_, hw.current_eq, hw.safe_le, ?_⟩
    · change getLastArticleNum _ _ = _
      rw [getLastArticleNum_updateLastArticleNum hw.known, if_pos rfl]
    · exact fun a hlt hle => absurd (hlt.trans_le hle) (by omega)
  · exact h.between

theorem Sound.ensure (h : s.Sound) (name group : String) :
    { s with lists := s.lists.ensureMailingList name group, phase := .between }.Sound :=
  ⟨h.outstanding, h.unsettled, fun g a hpos ha =>
    h.marks g a hpos (ha.trans (getLastArticleNum_ensureMailingList s.lists name group g).le),
    trivial⟩

theorem Sound.openPass (h : s.Sound) {group : String} (hknown : s.Known group) {high mark : ℕ}
    (hmark : s.mark group = mark) : (s.openPass s.lists group high mark).Sound :=
  h.loopHead ⟨hknown, hmark, rfl, Nat.le_refl _,
    fun _ hlt hle => absurd (hlt.trans_le hle) (Nat.lt_irrefl _)⟩

/-- The tip is behind the stored mark, or nothing was stored yet. -/
theorem resetMark_lt {downloaded : Bool} {lastKnown high mark : ℕ}
    (h : resetMark downloaded lastKnown high = some mark) (hne : lastKnown ≠ 0) :
    mark < lastKnown := by
  rw [resetMark, if_neg fun h₀ => hne h₀.1] at h
  split_ifs at h with hbehind
  have hmark := Option.some.inj h
  omega

theorem Sound.selectGroup (h : s.Sound) (downloaded : Bool) (name group : String) (high : ℕ)
    (written : Bool) (hphase : s.phase = .between) :
    (s.selectGroup downloaded name group high written).Sound := by
  have hens := h.ensure name group
  have hknown := mem_ensureMailingList s.lists name group
  unfold IngestState.selectGroup
  generalize s.lists.ensureMailingList name group = lists at hens hknown ⊢
  dsimp only
  split
  · exact hens.openPass hknown rfl
  · rename_i mark hreset
    split_ifs with hwritten hzero
    · have hcov : ∀ a, 0 < a → a ≤ mark →
          DealtWith (.opened group mark :: s.facts) group a :=
        fun a _ ha => .inr (.inr (.inr ⟨mark, List.mem_cons_self, ha⟩))
      have hopened : { s with
          lists := lists
          phase := .between
          facts := .opened group mark :: s.facts }.Sound :=
        ⟨hens.outstanding, hens.unsettled,
          fun g a hpos ha => (hens.marks g a hpos ha).mono (List.subset_cons_self _ _), trivial⟩
      refine (hopened.update hknown hcov).openPass (mem_updateLastArticleNum.mpr hknown) ?_
      change getLastArticleNum _ _ = _
      rw [getLastArticleNum_updateLastArticleNum hknown, if_pos rfl]
    · have hcov : ∀ a, 0 < a → a ≤ mark → DealtWith s.facts group a := fun a hpos ha =>
        hens.marks group a hpos (ha.trans (resetMark_lt hreset hzero).le)
      refine (hens.update hknown hcov).openPass (mem_updateLastArticleNum.mpr hknown) ?_
      change getLastArticleNum _ _ = _
      rw [getLastArticleNum_updateLastArticleNum hknown, if_pos rfl]
    · refine ⟨hens.outstanding, hens.unsettled, hens.marks, ?_⟩
      change PhaseOk _ s.phase
      rw [hphase]
      trivial

theorem fetching?_eq_some {p : GroupPass} (h : s.fetching? = some p) : s.phase = .fetching p := by
  unfold fetching? at h
  split at h
  · cases h
    assumption
  · cases h

theorem Sound.step {downloaded : Bool} {act : IngestAction} (h : s.Sound)
    (hstep : s.step downloaded act = some s') : s'.Sound := by
  cases act with
  | selectGroup name group high written =>
    simp only [IngestState.step] at hstep
    split_ifs at hstep with hphase
    cases hstep
    exact h.selectGroup downloaded name group high written hphase
  | articleFetched =>
    obtain ⟨p, hp, rfl⟩ := Option.map_eq_some_iff.mp hstep
    exact h.articleFetched (fetching?_eq_some hp)
  | sendFailed =>
    obtain ⟨p, hp, rfl⟩ := Option.map_eq_some_iff.mp hstep
    exact h.sendFailed p
  | articleMissing =>
    obtain ⟨p, hp, rfl⟩ := Option.map_eq_some_iff.mp hstep
    exact h.articleMissing (fetching?_eq_some hp)
  | articleFailed =>
    obtain ⟨p, hp, rfl⟩ := Option.map_eq_some_iff.mp hstep
    exact h.flush (h.passOk (fetching?_eq_some hp))
  | takeSafeMark =>
    simp only [IngestState.step] at hstep
    split at hstep
    · rename_i p last hphase
      split_ifs at hstep with hquiet
      cases hstep
      exact h.takeSafeMark hphase hquiet
    · cases hstep
  | updateLastArticleNum written =>
    simp only [IngestState.step] at hstep
    split at hstep
    · rename_i p safe last hphase
      cases hstep
      exact h.writeMark hphase written
    · cases hstep
  | parse k outcome =>
    obtain ⟨c, hc, rfl⟩ := Option.map_eq_some_iff.mp hstep
    exact h.parse (Option.filter_eq_some_iff.mp hc).1 outcome
  | process k status =>
    obtain ⟨c, hc, rfl⟩ := Option.map_eq_some_iff.mp hstep
    exact h.process (Option.filter_eq_some_iff.mp hc).1 status
  | lose k =>
    obtain ⟨c, hc, rfl⟩ := Option.map_eq_some_iff.mp hstep
    exact h.lose hc
  | linkMessage group =>
    cases hstep
    exact h.keeps ⟨getLastArticleNum_linkMessage s.lists group, fun _ => mem_linkMessage.mpr,
      List.Subset.refl _, rfl, fun _ _ => id⟩ h.outstanding h.unsettled
  | restart =>
    cases hstep
    exact ⟨rfl, fun _ hc => absurd hc List.not_mem_nil, h.marks, trivial⟩

theorem sound_start (lists : MailingLists) : (start lists).Sound :=
  ⟨rfl, fun _ hc => absurd hc List.not_mem_nil, fun _ _ => DealtWith.of_mem_start, trivial⟩

theorem sound_run {downloaded : Bool} {acts : List IngestAction} (h : s.Sound)
    (hrun : s.run downloaded acts = some s') : s'.Sound :=
  runGuarded_invariant (fun _ _ _ _ h hstep => h.step hstep) h hrun

/-- Whatever the marks were when the database was opened, in whatever order the server, the workers
and the database answer, and however often the process is started again. -/
theorem mark_covered (downloaded : Bool) (lists : MailingLists) (acts : List IngestAction)
    (s : IngestState) (hrun : (start lists).run downloaded acts = some s) (group : String) (a : ℕ)
    (hpos : 0 < a) (ha : a ≤ s.lists.getLastArticleNum group) : DealtWith s.facts group a :=
  (sound_run (sound_start lists) hrun).marks group a hpos ha

/-- Two articles are fetched; the parser drops the first as too old and the second is stored. -/
def twoArticles : List IngestAction :=
  [.selectGroup "lkml" "org.kernel.lkml" 2 true, .articleFetched, .articleFetched,
    .parse 0 .beforeCutoff, .parse 0 .parsed, .process 0 .ingested, .takeSafeMark,
    .updateLastArticleNum true]

theorem twoArticles_runs : ((start Table.empty).run false twoArticles).isSome = true := by decide

theorem mark_covered_twoArticles :
    let s := ((start Table.empty).run false twoArticles).get twoArticles_runs
    DealtWith s.facts "org.kernel.lkml" 1 ∧ DealtWith s.facts "org.kernel.lkml" 2 :=
  have hrun := (Option.some_get twoArticles_runs).symm
  ⟨mark_covered false Table.empty twoArticles _ hrun _ 1 (by decide) (by decide),
    mark_covered false Table.empty twoArticles _ hrun _ 2 (by decide) (by decide)⟩

end IngestState

end Sashiko
