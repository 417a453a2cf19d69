import Sashiko.Ingest.HighWater

/-! A pass in which nothing goes wrong moves the mark of its group up to the tip. -/

namespace Sashiko

open MailingLists

/-- The server, the workers and the database do what they are asked; an article may be missing, too
old or unparseable. -/
def IngestAction.isUnhindered : IngestAction → Bool
  | articleFetched | articleMissing | takeSafeMark | updateLastArticleNum true | parse _ _
  | process _ .ingested | linkMessage _ => true
  | _ => false

/-- The tip is reached, or the article there was `missing` and only that one is left. -/
structure Arrived (missing : Prop) (high n : ℕ) : Prop where
  le_tip : n ≤ high
  tip_le : high ≤ n + 1
  eq_tip : ¬missing → n = high

namespace IngestState

structure UnderWay (lists : MailingLists) (group : String) (high : ℕ) (p : GroupPass) : Prop where
  group_eq : p.group = group
  high_eq : p.high = high
  known : group ∈ lists.rows.map MailingList.nntpGroup
  mark_eq : lists.getLastArticleNum group = p.committed
  current_eq : p.current = p.handedOff
  committed_le : p.committed ≤ p.handedOff
  le_tip : p.handedOff ≤ high

/-- How far a pass over the group is that nothing was lost in. -/
def PhaseWay (missing : Prop) (lists : MailingLists) (group : String) (high : ℕ) :
    FetchPhase → Prop
  | .between => Arrived missing high (lists.getLastArticleNum group)
  | .fetching p => UnderWay lists group high p ∧ p.handedOff < high
  | .committing p last =>
    UnderWay lists group high p ∧ (last = true → Arrived missing high p.handedOff)
  | .writing p safe last =>
    UnderWay lists group high p ∧ safe = p.handedOff ∧
      (last = true → Arrived missing high p.handedOff)

structure OnWay (missing : Prop) (group : String) (high : ℕ) (s : IngestState) : Prop where
  lossless : s.tracker.lowestLost = none
  way : PhaseWay missing s.lists group high s.phase

variable {s s' : IngestState} {missing : Prop} {lists : MailingLists} {group : String} {high : ℕ}
  {p : GroupPass}

theorem UnderWay.flush (h : UnderWay lists group high p) (harr : Arrived missing high p.handedOff) :
    PhaseWay missing lists group high p.flush := by
  unfold GroupPass.flush
  split_ifs with hlt
  · exact ⟨h, fun _ => harr⟩
  · have hmark : lists.getLastArticleNum group = p.handedOff :=
      h.mark_eq.trans (Nat.le_antisymm h.committed_le (Nat.not_lt.mp hlt))
    change Arrived missing high (lists.getLastArticleNum group)
    rw [hmark]
    exact harr

theorem UnderWay.loopHead (h : UnderWay lists group high p) :
    PhaseWay missing lists group high p.loopHead := by
  unfold GroupPass.loopHead
  split_ifs with hlt
  · rw [h.current_eq, h.high_eq] at hlt
    exact ⟨h, hlt⟩
  · have htip : p.handedOff = high := by
      rw [h.current_eq, h.high_eq] at hlt
      exact Nat.le_antisymm h.le_tip (Nat.not_lt.mp hlt)
    exact h.flush ⟨h.le_tip, by omega, fun _ => htip⟩

theorem UnderWay.advance (h : UnderWay lists group high p) (hlt : p.handedOff < high) :
    UnderWay lists group high p.advance where
  group_eq := h.group_eq
  high_eq := h.high_eq
  known := h.known
  mark_eq := h.mark_eq
  current_eq := rfl
  committed_le := by
    change p.committed ≤ p.current + 1
    rw [h.current_eq]
    exact h.committed_le.trans (Nat.le_succ _)
  le_tip := by
    change p.current + 1 ≤ high
    rw [h.current_eq]
    exact hlt

theorem OnWay.fetching (h : OnWay missing group high s) (hphase : s.phase = .fetching p) :
    UnderWay s.lists group high p ∧ p.handedOff < high := by
  have hway := h.way
  rw [hphase] at hway
  exact hway

theorem OnWay.articleFetched (h : OnWay missing group high s) (hphase : s.phase = .fetching p) :
    OnWay missing group high (s.articleFetched p) := by
  obtain ⟨hp, hlt⟩ := h.fetching hphase
  have hnext := hp.advance hlt
  refine ⟨h.lossless, ?_⟩
  change PhaseWay missing s.lists group high (if _ then _ else _)
  split_ifs
  · exact ⟨hnext, nofun⟩
  · exact hnext.loopHead

theorem OnWay.articleMissing (h : OnWay missing group high s) (hphase : s.phase = .fetching p)
    (hmissing : missing) : OnWay missing group high (s.articleMissing p) := by
  obtain ⟨hp, hlt⟩ := h.fetching hphase
  unfold IngestState.articleMissing
  split_ifs with htip
  · rw [hp.current_eq, hp.high_eq] at htip
    exact ⟨h.lossless, hp.flush ⟨hp.le_tip, htip, fun hno => absurd hmissing hno⟩⟩
  · exact ⟨h.lossless, (hp.advance hlt).loopHead⟩

/-- With nothing lost the mark may move up to everything that was handed off. -/
theorem OnWay.takeSafeMark (h : OnWay missing group high s) {last : Bool}
    (hphase : s.phase = .committing p last) : OnWay missing group high (s.takeSafeMark p last) := by
  have hway := h.way
  rw [hphase] at hway
  have hsafe : max (s.tracker.takeSafeMark p.handedOff).2 p.committed = p.handedOff := by
    rw [TrackerState.takeSafeMark, h.lossless]
    exact max_eq_left hway.1.committed_le
  exact ⟨rfl, hway.1, hsafe, hway.2⟩

theorem OnWay.writeMark (h : OnWay missing group high s) {safe : ℕ} {last : Bool}
    (hphase : s.phase = .writing p safe last) :
    OnWay missing group high (s.writeMark p safe last true) := by
  have hway := h.way
  rw [hphase] at hway
  obtain ⟨hp, rfl, harr⟩ := hway
  obtain rfl := hp.group_eq
  have hmark : (s.lists.updateLastArticleNum p.group p.handedOff).getLastArticleNum p.group =
      p.handedOff := by
    rw [getLastArticleNum_updateLastArticleNum hp.known, if_pos rfl]
  refine ⟨h.lossless, ?_⟩
  change PhaseWay missing (s.lists.updateLastArticleNum p.group p.handedOff) p.group high
    (if last = true then _ else if p.handedOff < p.handedOff then _ else _)
  rw [if_neg (Nat.lt_irrefl _)]
  split_ifs with hlast
  · change Arrived missing high (MailingLists.getLastArticleNum _ p.group)
    rw [hmark]
    exact harr hlast
  · exact UnderWay.loopHead ⟨rfl, hp.high_eq, mem_updateLastArticleNum.mpr hp.known, hmark,
      hp.current_eq, Nat.le_refl _, hp.le_tip⟩

theorem OnWay.settle (h : OnWay missing group high s) (k : ℕ) (c : Carried) (fact : IngestFact) :
    OnWay missing group high (s.settle k c fact) := ⟨h.lossless, h.way⟩

theorem OnWay.parse (h : OnWay missing group high s) (k : ℕ) (c : Carried)
    (outcome : ParseOutcome) : OnWay missing group high (s.parse k c outcome) := by
  cases outcome with
  | parsed => exact ⟨h.lossless, h.way⟩
  | beforeCutoff => exact h.settle k c _
  | unparseable => exact h.settle k c _
  | panicked => exact h.settle k c _

theorem PhaseWay.linkMessage {phase : FetchPhase} (h : PhaseWay missing lists group high phase)
    (g : String) : PhaseWay missing (lists.linkMessage g) group high phase := by
  have hunder : ∀ {p : GroupPass}, UnderWay lists group high p →
      UnderWay (lists.linkMessage g) group high p := fun hp =>
    ⟨hp.group_eq, hp.high_eq, mem_linkMessage.mpr hp.known,
      (getLastArticleNum_linkMessage lists g group).trans hp.mark_eq, hp.current_eq,
      hp.committed_le, hp.le_tip⟩
  cases phase with
  | between =>
    change Arrived missing high ((lists.linkMessage g).getLastArticleNum group)
    rw [getLastArticleNum_linkMessage]
    exact h
  | fetching p => exact ⟨hunder h.1, h.2⟩
  | committing p last => exact ⟨hunder h.1, h.2⟩
  | writing p safe last => exact ⟨hunder h.1, h.2⟩

theorem OnWay.step {downloaded : Bool} {act : IngestAction} (h : OnWay missing group high s)
    (hact : act.isUnhindered = true) (hmissing : act = .articleMissing → missing)
    (hstep : s.step downloaded act = some s') : OnWay missing group high s' := by
  cases act with
  | articleFetched =>
    obtain ⟨p, hp, rfl⟩ := Option.map_eq_some_iff.mp hstep
    exact h.articleFetched (fetching?_eq_some hp)
  | articleMissing =>
    obtain ⟨p, hp, rfl⟩ := Option.map_eq_some_iff.mp hstep
    exact h.articleMissing (fetching?_eq_some hp) (hmissing rfl)
  | takeSafeMark =>
    simp only [IngestState.step] at hstep
    split at hstep
    · rename_i p last hphase
      split_ifs at hstep
      cases hstep
      exact h.takeSafeMark hphase
    · cases hstep
  | updateLastArticleNum written =>
    cases written with
    | false => cases hact
    | true =>
      simp only [IngestState.step] at hstep
      split at hstep
      · rename_i p safe last hphase
        cases hstep
        exact h.writeMark hphase
      · cases hstep
  | parse k outcome =>
    obtain ⟨c, -, rfl⟩ := Option.map_eq_some_iff.mp hstep
    exact h.parse k c outcome
  | process k status =>
    cases status with
    | error => cases hact
    | ingested =>
      obtain ⟨c, -, rfl⟩ := Option.map_eq_some_iff.mp hstep
      exact h.settle k c _
  | linkMessage g =>
    cases hstep
    exact ⟨h.lossless, h.way.linkMessage g⟩
  | selectGroup name g high' written => cases hact
  | sendFailed => cases hact
  | articleFailed => cases hact
  | lose k => cases hact
  | restart => cases hact

/-! ### A pass can be completed -/

/-- Without a hindrance the run gets to a state that has the property. -/
def Leads (downloaded : Bool) (s : IngestState) (P : IngestState → Prop) : Prop :=
  ∃ acts s', (∀ act ∈ acts, act.isUnhindered = true) ∧ s.run downloaded acts = some s' ∧ P s'

variable {downloaded : Bool} {P Q : IngestState → Prop}

theorem Leads.cons {act : IngestAction} (hact : act.isUnhindered = true)
    (hstep : s.step downloaded act = some s') (h : Leads downloaded s' P) :
    Leads downloaded s P := by
  obtain ⟨acts, s₂, hacts, hrun, hP⟩ := h
  exact ⟨act :: acts, s₂, List.forall_mem_cons.mpr ⟨hact, hacts⟩,
    runGuarded_cons.mpr ⟨s', hstep, hrun⟩, hP⟩

theorem Leads.bind (h : Leads downloaded s P)
    (hnext : ∀ s', P s' → Leads downloaded s' Q) : Leads downloaded s Q := by
  obtain ⟨acts, s₁, hacts, hrun, hP⟩ := h
  obtain ⟨acts', s₂, hacts', hrun', hQ⟩ := hnext s₁ hP
  refine ⟨acts ++ acts', s₂, fun act hact => ?_, runGuarded_append.mpr ⟨s₁, hrun, hrun'⟩, hQ⟩
  exact (List.mem_append.mp hact).elim (hacts act) (hacts' act)

/-- In the middle of a pass that nothing was lost in. -/
structure Live (group : String) (high : ℕ) (s : IngestState) : Prop where
  sound : s.Sound
  onWay : OnWay True group high s

theorem Live.step {act : IngestAction} (h : Live group high s) (hact : act.isUnhindered = true)
    (hstep : s.step downloaded act = some s') : Live group high s' :=
  ⟨h.sound.step hstep, h.onWay.step hact (fun _ => trivial) hstep⟩

theorem Leads.live (h : Leads downloaded s P) (hlive : Live group high s) :
    Leads downloaded s fun s' => Live group high s' ∧ P s' := by
  obtain ⟨acts, s', hacts, hrun, hP⟩ := h
  exact ⟨acts, s', hacts, hrun,
    runGuarded_invariant (fun s act s' hact hlive hstep => hlive.step (hacts act hact) hstep)
      hlive hrun, hP⟩

end IngestState

end Sashiko
