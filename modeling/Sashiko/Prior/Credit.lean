import Mathlib.Data.List.Infix
import Sashiko.Prior.Evidence

/-! Credit rests on evidence: whom an attribution credits, and what of the proposed pairs can
change it. -/

namespace Sashiko

variable {lower : StrLowercase} {ctx : PriorVersionContext} {index : EvidenceIndex}

/-! ### Sources -/

def messageRefs (thread : PriorDiscussionThread) : List String :=
  (List.range thread.messages.length).map (messageRef thread)

/-- Every ref that may be cited. -/
def PriorVersionContext.refs (ctx : PriorVersionContext) : List String :=
  ctx.priorFindings.map (·.id) ++ ctx.discussionThreads.flatMap messageRefs

/-- The source that stands behind a ref. -/
inductive Citable (lower : StrLowercase) (ctx : PriorVersionContext) : String → CitableSource → Prop
  | finding {pf : PriorFindingItem} (h : pf ∈ ctx.priorFindings) :
    Citable lower ctx pf.id (findingSource lower pf)
  | message {thread : PriorDiscussionThread} {msg : PriorCommentMessage} {idx : ℕ}
    (h : thread ∈ ctx.discussionThreads) (hmsg : thread.messages[idx]? = some msg) :
    Citable lower ctx (messageRef thread idx) (messageSource lower thread msg)

theorem citable_of_mem_sources {ref : String} {s : CitableSource}
    (h : (ref, s) ∈ (EvidenceIndex.build lower ctx).sources) : Citable lower ctx ref s := by
  rcases List.mem_append.mp h with h | h
  · obtain ⟨pf, hpf, heq⟩ := List.mem_map.mp h
    cases heq
    exact .finding hpf
  · obtain ⟨thread, hthread, h⟩ := List.mem_flatMap.mp h
    obtain ⟨⟨msg, idx⟩, hm, heq⟩ := List.mem_map.mp h
    cases heq
    exact .message hthread (List.mem_zipIdx_iff_getElem?.mp hm)

theorem mem_sources_of_citable {ref : String} {s : CitableSource} (h : Citable lower ctx ref s) :
    (ref, s) ∈ (EvidenceIndex.build lower ctx).sources := by
  cases h with
  | finding h =>
    exact List.mem_append_left _ (List.mem_map_of_mem (f := fun pf => (pf.id, _)) h)
  | message h hmsg =>
    refine List.mem_append_right _ (List.mem_flatMap.mpr ⟨_, h, List.mem_map.mpr ⟨(_, _), ?_, rfl⟩⟩)
    exact List.mem_zipIdx_iff_getElem?.mpr hmsg

theorem sources_refs : (EvidenceIndex.build lower ctx).sources.map (·.1) = ctx.refs := by
  have hmessages : ∀ thread : PriorDiscussionThread,
      (thread.messages.zipIdx.map fun m => (messageRef thread m.2, messageSource lower thread m.1)).map
        (·.1) = messageRefs thread := by
    intro thread
    rw [List.map_map, messageRefs, List.range_eq_range', ← List.zipIdx_map_snd 0 thread.messages,
      List.map_map]
    rfl
  simp only [EvidenceIndex.build, List.map_append, List.map_map, List.map_flatMap, hmessages]
  rfl

theorem mem_sources_of_get {ref : String} {s : CitableSource} (h : index.get ref = some s) :
    (ref, s) ∈ index.sources := by
  obtain ⟨⟨key, s'⟩, hfind, rfl⟩ := Option.map_eq_some_iff.mp h
  have hkey : key = ref := by simpa using List.find?_some hfind
  subst hkey
  exact List.mem_reverse.mp (List.mem_of_find?_eq_some hfind)

/-- With distinct refs, the index finds the one source behind a ref. -/
theorem get_of_citable (hrefs : ctx.refs.Nodup) {ref : String} {s : CitableSource}
    (h : Citable lower ctx ref s) : (EvidenceIndex.build lower ctx).get ref = some s := by
  have hmem := mem_sources_of_citable h
  cases hget : (EvidenceIndex.build lower ctx).get ref with
  | none =>
    rw [EvidenceIndex.get, Option.map_eq_none_iff, List.find?_eq_none] at hget
    exact absurd (decide_eq_true rfl) (hget _ (List.mem_reverse.mpr hmem))
  | some s' =>
    have hkeys : (EvidenceIndex.build lower ctx).sources.map (·.1) = ctx.refs := sources_refs
    rw [← hkeys] at hrefs
    have heq := List.inj_on_of_nodup_map hrefs (mem_sources_of_get hget) hmem rfl
    rw [(Prod.mk.inj heq).2]

/-! ### Accepted pairs -/

theorem isInfix_of_containsText {s part : String} (h : containsText s part = true) :
    part.toList <:+: s.toList := by
  obtain ⟨tail, htail, hpre⟩ := List.any_eq_true.mp h
  exact (List.isPrefixOf_iff_prefix.mp hpre).isInfix.trans ((List.mem_tails _ _).mp htail).isInfix

/-- The quote is a passage of the text, long enough to be evidence. -/
def Passage (lower : StrLowercase) (text quote : String) : Prop :=
  minQuoteChars ≤ (normalizeQuote lower quote).length ∧
    (normalizeQuote lower quote).toList <:+: (normalizeForMatch lower text).toList

theorem normalizeQuote_rustTrim (lower : StrLowercase) (quote : String) :
    normalizeQuote lower (rustTrim quote) = normalizeQuote lower quote := by
  rw [normalizeQuote, toList_rustTrim, trimChars_idempotent, normalizeQuote]

theorem check_of_accepts {ref quote : String} (h : index.accepts lower ref quote = true) :
    index.check lower ref quote = .ok () := by
  unfold EvidenceIndex.accepts at h
  split at h
  · assumption
  · cases h

/-- What has passed the check. -/
theorem accepts_spec {ref quote : String} (h : index.accepts lower ref quote = true) :
    ∃ s, index.get (rustTrim ref) = some s ∧ s.speaker.isPatchAuthor = false ∧
      minQuoteChars ≤ (normalizeQuote lower quote).length ∧
      (normalizeQuote lower quote).toList <:+: s.ownTextNorm.toList := by
  have hcheck := check_of_accepts h
  unfold EvidenceIndex.check at hcheck
  split at hcheck
  · rename_i s hget
    split_ifs at hcheck with hauthor hshort hmissing
    refine ⟨s, hget, eq_false_of_ne_true hauthor, Nat.le_of_not_lt hshort, ?_⟩
    exact isInfix_of_containsText (by simpa using hmissing)
  · cases hcheck

theorem mem_of_mem_firstCitations {ev : EvidenceSpec} (evidence : List EvidenceSpec) :
    ∀ seen, ev ∈ firstCitations seen evidence → ev ∈ evidence := by
  induction evidence with
  | nil => exact fun _ h => h
  | cons first rest ih =>
    intro seen h
    unfold firstCitations at h
    split_ifs at h
    · exact List.mem_cons_of_mem _ (ih seen h)
    · rcases List.mem_cons.mp h with rfl | h
      · exact List.mem_cons_self
      · exact List.mem_cons_of_mem _ (ih _ h)

/-- Every piece of valid evidence records an accepted pair next to its source. -/
theorem mem_validEvidence {evidence : List EvidenceSpec} {p : CitableSource × AttributionEvidence}
    (h : p ∈ validEvidence lower evidence index) :
    ∃ ev ∈ evidence, index.accepts lower ev.sourceRef ev.quote = true ∧
      index.get (rustTrim ev.sourceRef) = some p.1 ∧ p.2 = evidenceRecord p.1 ev := by
  obtain ⟨ev, hev, hrecord⟩ := List.mem_filterMap.mp h
  obtain ⟨hfirst, haccepts⟩ := List.mem_filter.mp hev
  obtain ⟨s, hget, rfl⟩ := Option.map_eq_some_iff.mp hrecord
  exact ⟨ev, mem_of_mem_firstCitations evidence [] hfirst, haccepts, hget, rfl⟩

/-- A piece of evidence cites this source: it is not the patch author's, and the quote is a passage
of what its speaker wrote. -/
inductive Cites (lower : StrLowercase) (ctx : PriorVersionContext) (e : AttributionEvidence) :
    CitableSource → Prop
  | finding {pf : PriorFindingItem} (h : pf ∈ ctx.priorFindings) (href : e.sourceRef = pf.id)
    (hpassage : Passage lower (findingOwnText pf) e.quote) : Cites lower ctx e (findingSource lower pf)
  | message {thread : PriorDiscussionThread} {msg : PriorCommentMessage} {idx : ℕ}
    (h : thread ∈ ctx.discussionThreads) (hmsg : thread.messages[idx]? = some msg)
    (href : e.sourceRef = messageRef thread idx)
    (hauthor : isSashikoReviewMessage msg.messageId msg.author = true ∨
      msg.authority.speakerRole ≠ .patchAuthor)
    (hpassage : Passage lower (messageOwnText msg.trimmedBody) e.quote) :
    Cites lower ctx e (messageSource lower thread msg)

theorem Cites.citable {e : AttributionEvidence} {s : CitableSource} (h : Cites lower ctx e s) :
    Citable lower ctx e.sourceRef s := by
  cases h with
  | finding h href => exact href ▸ .finding h
  | message h hmsg href => exact href ▸ .message h hmsg

theorem cites_of_mem_validEvidence {evidence : List EvidenceSpec}
    {p : CitableSource × AttributionEvidence}
    (h : p ∈ validEvidence lower evidence (.build lower ctx)) :
    Cites lower ctx p.2 p.1 ∧ p.2.version = p.1.version ∧ p.2.messageId = p.1.messageId := by
  obtain ⟨ev, -, haccepts, hget, hrecord⟩ := mem_validEvidence h
  obtain ⟨s, hs, hauthor, hlong, hpassage⟩ := accepts_spec haccepts
  obtain rfl : s = p.1 := Option.some.inj (hs.symm.trans hget)
  rw [hrecord]
  refine ⟨?_, rfl, rfl⟩
  have hquote : (evidenceRecord p.1 ev).quote = rustTrim ev.quote := rfl
  have hmem := citable_of_mem_sources (mem_sources_of_get hget)
  generalize hkey : rustTrim ev.sourceRef = key at hmem
  generalize p.1 = s at *
  cases hmem with
  | finding hpf =>
    refine .finding hpf hkey ?_
    rw [hquote, Passage, normalizeQuote_rustTrim]
    exact ⟨hlong, hpassage⟩
  | @message thread msg idx hthread hmsg =>
    refine .message hthread hmsg hkey ?_ ?_
    · unfold messageSource messageSpeaker at hauthor
      split_ifs at hauthor with hsashiko
      · exact .inl hsashiko
      · refine .inr fun hrole => ?_
        rw [hrole] at hauthor
        cases hauthor
    · rw [hquote, Passage, normalizeQuote_rustTrim]
      exact ⟨hlong, hpassage⟩

/-! ### The anchor -/

abbrev Valid := List (CitableSource × AttributionEvidence)

theorem mem_chronological {valid : Valid} {p : CitableSource × AttributionEvidence} :
    p ∈ chronological valid ↔ p ∈ valid := List.mem_insertionSort _

theorem sorted_chronological (valid : Valid) :
    (chronological valid).Pairwise fun a b => a.1.chronologyKey ≤ b.1.chronologyKey := by
  have htotal : Std.Total fun a b : CitableSource × AttributionEvidence =>
      a.1.chronologyKey ≤ b.1.chronologyKey := ⟨fun a b => le_total _ _⟩
  have htrans : IsTrans (CitableSource × AttributionEvidence) fun a b =>
      a.1.chronologyKey ≤ b.1.chronologyKey := ⟨fun a b c => le_trans⟩
  exact List.pairwise_insertionSort _ _

/-- The anchor comes first among the sources that are not Sashiko's, or among all of them when
there is no other. -/
structure Anchors (valid : Valid) (p : CitableSource × AttributionEvidence) : Prop where
  mem : p ∈ valid
  person : p.1.speaker.isSashiko = true → ∀ q ∈ valid, q.1.speaker.isSashiko = true
  first : ∀ q ∈ valid, q.1.speaker.isSashiko = p.1.speaker.isSashiko →
    p.1.chronologyKey ≤ q.1.chronologyKey

theorem first_of_find {valid : Valid} {P : CitableSource × AttributionEvidence → Bool}
    {p : CitableSource × AttributionEvidence}
    (hsorted : valid.Pairwise fun a b => a.1.chronologyKey ≤ b.1.chronologyKey)
    (h : valid.find? P = some p) : ∀ q ∈ valid, P q = true →
      p.1.chronologyKey ≤ q.1.chronologyKey := by
  obtain ⟨-, before, after, rfl, hbefore⟩ := List.find?_eq_some_iff_append.mp h
  intro q hq hP
  rcases List.mem_append.mp hq with hq | hq
  · exact absurd hP (by simpa using hbefore q hq)
  · rcases List.mem_cons.mp hq with rfl | hq
    · exact le_rfl
    · exact (List.pairwise_cons.mp (List.pairwise_append.mp hsorted).2.1).1 q hq

theorem anchors_of_anchorOf {valid : Valid} {p : CitableSource × AttributionEvidence}
    (h : anchorOf (chronological valid) = some p) : Anchors valid p := by
  have hsorted := sorted_chronological valid
  rcases Option.or_eq_some_iff.mp h with h | ⟨hnone, h⟩
  · have hperson : p.1.speaker.isSashiko = false := by simpa using List.find?_some h
    refine ⟨mem_chronological.mp (List.mem_of_find?_eq_some h), ?_, ?_⟩
    · intro hsashiko
      rw [hperson] at hsashiko
      cases hsashiko
    · intro q hq heq
      exact first_of_find hsorted h q (mem_chronological.mpr hq) (by rw [heq, hperson]; rfl)
  · have hall : ∀ q ∈ valid, q.1.speaker.isSashiko = true := by
      intro q hq
      simpa using List.find?_eq_none.mp hnone q (mem_chronological.mpr hq)
    obtain ⟨rest, hcons⟩ := List.head?_eq_some_iff.mp h
    refine ⟨mem_chronological.mp (hcons ▸ List.mem_cons_self), fun _ => hall, ?_⟩
    intro q hq _
    rw [hcons] at hsorted
    have hmem := mem_chronological.mpr hq
    rw [hcons] at hmem
    rcases List.mem_cons.mp hmem with rfl | hmem
    · exact le_rfl
    · exact (List.pairwise_cons.mp hsorted).1 q hmem

theorem anchorOf_isSome {valid : Valid} (h : valid ≠ []) :
    (anchorOf (chronological valid)).isSome := by
  obtain ⟨q, hq⟩ := List.exists_mem_of_ne_nil _ h
  have hne : chronological valid ≠ [] := List.ne_nil_of_mem (mem_chronological.mpr hq)
  unfold anchorOf
  rw [Option.isSome_or, Bool.or_eq_true]
  exact .inr (List.isSome_head?.mpr hne)

/-- Only sources that tie can both be anchors. -/
theorem Anchors.key_eq {valid valid' : Valid} {p p' : CitableSource × AttributionEvidence}
    (hperm : valid.Perm valid') (h : Anchors valid p) (h' : Anchors valid' p') :
    p.1.chronologyKey = p'.1.chronologyKey := by
  have hsame : p'.1.speaker.isSashiko = p.1.speaker.isSashiko := by
    cases hp : p.1.speaker.isSashiko with
    | true => exact h.person hp _ (hperm.mem_iff.mpr h'.mem)
    | false =>
      by_contra hne
      rw [Bool.not_eq_false] at hne
      have hsashiko := h'.person hne _ (hperm.mem_iff.mp h.mem)
      rw [hp] at hsashiko
      cases hsashiko
  exact le_antisymm (h.first _ (hperm.mem_iff.mpr h'.mem) hsame)
    (h'.first _ (hperm.mem_iff.mp h.mem) hsame.symm)

theorem anchorOf_perm {valid valid' : Valid} (hperm : valid.Perm valid') :
    anchorOf (chronological valid) = none ∧ anchorOf (chronological valid') = none ∨
      ∃ p ∈ valid, ∃ p' ∈ valid, anchorOf (chronological valid) = some p ∧
        anchorOf (chronological valid') = some p' ∧
        p.1.chronologyKey = p'.1.chronologyKey := by
  by_cases hempty : valid = []
  · have hempty' : valid' = [] := (hempty ▸ hperm).nil_eq.symm
    rw [hempty, hempty']
    exact .inl ⟨rfl, rfl⟩
  · have hempty' : valid' ≠ [] := fun h => hempty (h ▸ hperm).eq_nil
    obtain ⟨p, hp⟩ := Option.isSome_iff_exists.mp (anchorOf_isSome hempty)
    obtain ⟨p', hp'⟩ := Option.isSome_iff_exists.mp (anchorOf_isSome hempty')
    have hanchor := anchors_of_anchorOf hp
    have hanchor' := anchors_of_anchorOf hp'
    exact .inr ⟨p, hanchor.mem, p', hperm.mem_iff.mpr hanchor'.mem, hp, hp',
      hanchor.key_eq hperm hanchor'⟩

/-- At equal standing the key compares the version, then the time. -/
theorem CitableSource.le_of_chronologyKey_le {s s' : CitableSource}
    (h : s.chronologyKey ≤ s'.chronologyKey)
    (hsame : s'.speaker.isSashiko = s.speaker.isSashiko) :
    s.version < s'.version ∨ s.version = s'.version ∧ s.timestamp ≤ s'.timestamp := by
  unfold CitableSource.chronologyKey at h
  rw [Prod.Lex.toLex_le_toLex, Prod.Lex.toLex_le_toLex, hsame] at h
  exact h.imp_right fun ⟨hversion, htime⟩ =>
    ⟨hversion, (htime.resolve_left (lt_irrefl _)).2⟩

/-! ### Which pairs matter -/

section Pairs

attribute [local irreducible] rustTrim

/-- Pairs that the check rejects, under refs of their own, leave the rest as it was. -/
theorem filter_firstCitations (P : String → Bool) (evidence : List EvidenceSpec) :
    ∀ seen seen' : List String,
      (∀ ev ∈ evidence, P (rustTrim ev.sourceRef) = true →
        index.accepts lower ev.sourceRef ev.quote = false) →
      (∀ r, P r = false → (r ∈ seen ↔ r ∈ seen')) →
      (firstCitations seen evidence).filter (fun ev => index.accepts lower ev.sourceRef ev.quote) =
        (firstCitations seen' (evidence.filter fun ev => !P (rustTrim ev.sourceRef))).filter
          fun ev => index.accepts lower ev.sourceRef ev.quote := by
  induction evidence with
  | nil => exact fun _ _ _ _ => rfl
  | cons first rest ih =>
    intro seen seen' hrejected hseen
    have hrest := fun ev hev => hrejected ev (List.mem_cons_of_mem _ hev)
    cases hP : P (rustTrim first.sourceRef) with
    | true =>
      rw [List.filter_cons_of_neg (by simp [hP]), firstCitations]
      split_ifs
      · exact ih seen seen' hrest hseen
      · rw [List.filter_cons_of_neg (by rw [hrejected first List.mem_cons_self hP]; decide)]
        refine ih _ seen' hrest fun r hr => ?_
        rw [List.mem_cons, ← hseen r hr]
        refine or_iff_right fun heq => ?_
        rw [heq, hP] at hr
        cases hr
    | false =>
      rw [List.filter_cons_of_pos (by simp [hP]), firstCitations, firstCitations]
      simp only [hseen _ hP]
      split_ifs
      · exact ih seen seen' hrest hseen
      · rw [List.filter_cons, List.filter_cons,
          ih (rustTrim first.sourceRef :: seen) (rustTrim first.sourceRef :: seen') hrest]
        intro r hr
        rw [List.mem_cons, List.mem_cons, hseen r hr]

theorem firstCitations_eq_self (evidence : List EvidenceSpec) :
    ∀ seen, (evidence.map fun ev => rustTrim ev.sourceRef).Nodup →
      (∀ ev ∈ evidence, rustTrim ev.sourceRef ∉ seen) → firstCitations seen evidence = evidence := by
  induction evidence with
  | nil => exact fun _ _ _ => rfl
  | cons first rest ih =>
    intro seen hnodup hseen
    rw [List.map_cons, List.nodup_cons] at hnodup
    rw [firstCitations, if_neg (hseen first List.mem_cons_self), ih _ hnodup.2]
    intro ev hev hmem
    rcases List.mem_cons.mp hmem with heq | hmem
    · exact hnodup.1 (List.mem_map.mpr ⟨ev, hev, heq⟩)
    · exact hseen ev (List.mem_cons_of_mem _ hev) hmem

theorem validEvidence_perm {evidence evidence' : List EvidenceSpec}
    (hnodup : (evidence.map fun ev => rustTrim ev.sourceRef).Nodup)
    (hperm : evidence.Perm evidence') :
    (validEvidence lower evidence index).Perm (validEvidence lower evidence' index) := by
  have hnodup' := (hperm.map fun ev => rustTrim ev.sourceRef).nodup_iff.mp hnodup
  unfold validEvidence
  rw [firstCitations_eq_self _ _ hnodup fun _ _ => List.not_mem_nil,
    firstCitations_eq_self _ _ hnodup' fun _ _ => List.not_mem_nil]
  exact (hperm.filter _).filterMap _

theorem nodup_of_validateEvidence {idx : ℕ} {fid : String} (evidence : List EvidenceSpec) :
    ∀ evIdx refs, validateEvidence lower index idx fid evIdx refs evidence = .ok () →
      (evidence.map fun ev => rustTrim ev.sourceRef).Nodup ∧
        ∀ ev ∈ evidence, rustTrim ev.sourceRef ∉ refs := by
  induction evidence with
  | nil => exact fun _ _ _ => ⟨List.nodup_nil, fun _ h => absurd h List.not_mem_nil⟩
  | cons first rest ih =>
    intro evIdx refs h
    unfold validateEvidence at h
    split_ifs at h with hrepeats
    split at h
    · cases h
    · obtain ⟨hnodup, hfresh⟩ := ih _ _ h
      refine ⟨List.nodup_cons.mpr ⟨fun hmem => ?_, hnodup⟩, fun ev hev => ?_⟩
      · obtain ⟨ev, hev, heq⟩ := List.mem_map.mp hmem
        exact hfresh ev hev (heq ▸ List.mem_cons_self)
      · rcases List.mem_cons.mp hev with rfl | hev
        · exact hrepeats
        · exact fun hmem => hfresh ev hev (List.mem_cons_of_mem _ hmem)

theorem validateEvidence_of_validateEntries {expected : List String} {entry : FindingAttributionSpec}
    {seen' : List String} (entries : List FindingAttributionSpec) :
    ∀ idx seen, validateEntries lower index expected idx seen entries = .ok seen' →
      entry ∈ entries → ∃ idx', validateEvidence lower index idx' (rustTrim entry.findingId) 0 []
        entry.evidence = .ok () := by
  induction entries with
  | nil => exact fun _ _ _ h => absurd h List.not_mem_nil
  | cons first rest ih =>
    intro idx seen h hentry
    unfold validateEntries at h
    split_ifs at h
    split at h
    · cases h
    · rename_i hevidence
      rcases List.mem_cons.mp hentry with rfl | hentry
      · exact ⟨idx, hevidence⟩
      · exact ih _ _ h hentry

/-- What the validator accepts cites each ref at most once. -/
theorem nodup_of_validate {out : PriorAttributionOutput} {batch : AttributionBatch}
    (h : validatePriorAttributionOutput lower out batch index = .ok ())
    {entry : FindingAttributionSpec} (hentry : entry ∈ out.attributions) :
    (entry.evidence.map fun ev => rustTrim ev.sourceRef).Nodup := by
  unfold validatePriorAttributionOutput at h
  split at h
  · cases h
  · rename_i seen hentries
    obtain ⟨idx, hevidence⟩ := validateEvidence_of_validateEntries _ _ _ hentries hentry
    exact (nodup_of_validateEvidence _ _ _ hevidence).1

end Pairs

/-! ### Credit rests on evidence -/

/-- The attribution names what the source has. -/
structure CreditedTo (attr : PriorAttribution) (s : CitableSource) : Prop where
  name : attr.originallyRaisedBy = creditName s.speaker.display
  version : attr.originallyRaisedInVersion = s.version
  originKind : attr.originKind = s.speaker.originKind
  identity : attr.raisedByIdentities = [s.speaker.identity]
  url : attr.referenceUrl = s.referenceUrl

/-- What any attribution computed from this context rests on. -/
structure CreditRests (lower : StrLowercase) (ctx : PriorVersionContext) : Prop where
  evidence : ∀ pairs attr, computePriorAttribution lower pairs (.build lower ctx) = some attr →
    ∀ e ∈ attr.evidence, ∃ s, Cites lower ctx e s ∧ e.version = s.version ∧
      e.messageId = s.messageId
  /-- Own words hold no quoted line, no trim marker and no attribution line. -/
  ownWords : ∀ body, ∀ line ∈ ownLines body,
    line ∈ (linesOf body.toList).map String.ofList ∧ IsOwnLine line
  /-- A person is credited who spoke first among those cited; Sashiko only anchors when nobody
  else is cited, and that is no credit. -/
  credited : ∀ pairs attr, computePriorAttribution lower pairs (.build lower ctx) = some attr →
    ∃ e ∈ attr.evidence, ∃ s, Cites lower ctx e s ∧ CreditedTo attr s ∧
      (∀ e' ∈ attr.evidence, ∀ s', Citable lower ctx e'.sourceRef s' →
        s'.speaker.isSashiko = s.speaker.isSashiko →
        s.version < s'.version ∨ s.version = s'.version ∧ s.timestamp ≤ s'.timestamp) ∧
      (s.speaker.isSashiko = true → attr.isCredit = false ∧
        ∀ e' ∈ attr.evidence, ∀ s', Citable lower ctx e'.sourceRef s' →
          s'.speaker.isSashiko = true)
  rejected : ∀ (pairs : List EvidenceSpec) (added : String → Bool),
    (∀ ev ∈ pairs, added (rustTrim ev.sourceRef) = true →
      (EvidenceIndex.build lower ctx).accepts lower ev.sourceRef ev.quote = false) →
    computePriorAttribution lower pairs (.build lower ctx) =
      computePriorAttribution lower (pairs.filter fun ev => !added (rustTrim ev.sourceRef))
        (.build lower ctx)
  /-- Another order of accepted pairs credits the same source, or one that ties with it. -/
  reordered : ∀ out batch entry pairs,
    validatePriorAttributionOutput lower out batch (.build lower ctx) = .ok () →
    entry ∈ out.attributions → pairs.Perm entry.evidence →
    (creditedSource lower pairs (.build lower ctx)).map (·.1.chronologyKey) =
        (creditedSource lower entry.evidence (.build lower ctx)).map (·.1.chronologyKey) ∧
      ((∀ ev ∈ pairs, ∀ ev' ∈ pairs, ∀ s s', Citable lower ctx (rustTrim ev.sourceRef) s →
          Citable lower ctx (rustTrim ev'.sourceRef) s' →
          s.chronologyKey = s'.chronologyKey → ev = ev') →
        creditedSource lower pairs (.build lower ctx) =
          creditedSource lower entry.evidence (.build lower ctx))

section Main

attribute [local irreducible] rustTrim creditName validEvidence

theorem exists_anchor {pairs : List EvidenceSpec} {attr : PriorAttribution}
    (h : computePriorAttribution lower pairs index = some attr) :
    ∃ p, Anchors (validEvidence lower pairs index) p ∧ CreditedTo attr p.1 ∧
      ∀ e, e ∈ attr.evidence ↔ ∃ q ∈ validEvidence lower pairs index, q.2 = e := by
  obtain ⟨p, hp, rfl⟩ := Option.map_eq_some_iff.mp h
  refine ⟨p, anchors_of_anchorOf hp, ⟨rfl, rfl, rfl, rfl, rfl⟩, fun e => ?_⟩
  simp only [List.mem_map, mem_chronological]

/-- The source of a piece of evidence is the one its ref leads to. -/
theorem source_of_citable (hrefs : ctx.refs.Nodup) {pairs : List EvidenceSpec}
    {q : CitableSource × AttributionEvidence}
    (hq : q ∈ validEvidence lower pairs (.build lower ctx)) {s : CitableSource}
    (hs : Citable lower ctx q.2.sourceRef s) : s = q.1 := by
  obtain ⟨ev, -, -, hget, hrecord⟩ := mem_validEvidence hq
  have hget' := get_of_citable hrefs hs
  rw [hrecord] at hget'
  exact Option.some.inj (hget'.symm.trans hget)

theorem creditRests (lower : StrLowercase) {ctx : PriorVersionContext} (hrefs : ctx.refs.Nodup) :
    CreditRests lower ctx := by
  refine ⟨?evidence, fun _ _ => isOwnLine_of_mem_ownLines, ?credited, ?rejected, ?reordered⟩
  case evidence =>
    intro pairs attr h e he
    obtain ⟨-, -, -, hevidence⟩ := exists_anchor h
    obtain ⟨q, hq, rfl⟩ := (hevidence e).mp he
    exact ⟨q.1, cites_of_mem_validEvidence hq⟩
  case credited =>
    intro pairs attr h
    obtain ⟨p, hp, hcredited, hevidence⟩ := exists_anchor h
    refine ⟨p.2, (hevidence p.2).mpr ⟨p, hp.mem, rfl⟩, p.1, (cites_of_mem_validEvidence hp.mem).1,
      hcredited, ?_, ?_⟩
    · intro e' he' s' hs' hsame
      obtain ⟨q, hq, rfl⟩ := (hevidence e').mp he'
      obtain rfl := source_of_citable hrefs hq hs'
      exact CitableSource.le_of_chronologyKey_le (hp.first q hq hsame) hsame
    · intro hsashiko
      constructor
      · have hkind : p.1.speaker.originKind = .sashikoReview := by
          revert hsashiko
          cases p.1.speaker <;> simp [SourceSpeaker.isSashiko, SourceSpeaker.originKind]
        rw [PriorAttribution.isCredit, hcredited.originKind, hkind]
        rfl
      · intro e' he' s' hs'
        obtain ⟨q, hq, rfl⟩ := (hevidence e').mp he'
        obtain rfl := source_of_citable hrefs hq hs'
        exact hp.person hsashiko q hq
  case rejected =>
    intro pairs added hadded
    have hsame := filter_firstCitations added pairs [] [] hadded fun _ _ => Iff.rfl
    have hvalid : validEvidence lower pairs (.build lower ctx) = validEvidence lower
        (pairs.filter fun ev => !added (rustTrim ev.sourceRef)) (.build lower ctx) := by
      rw [validEvidence, validEvidence, hsame]
    rw [computePriorAttribution, computePriorAttribution, creditedSource, creditedSource, hvalid]
  case reordered =>
    intro out batch entry pairs hvalid hentry hperm
    have hnodup := (hperm.map fun ev => rustTrim ev.sourceRef).nodup_iff.mpr
      (nodup_of_validate hvalid hentry)
    have hvalidPerm : (validEvidence lower pairs (.build lower ctx)).Perm
        (validEvidence lower entry.evidence (.build lower ctx)) := validEvidence_perm hnodup hperm
    unfold creditedSource
    rcases anchorOf_perm hvalidPerm with ⟨hnone, hnone'⟩ | ⟨p, hp, p', hp', hsome, hsome', hkey⟩
    · rw [hnone, hnone']
      exact ⟨rfl, fun _ => rfl⟩
    · rw [hsome, hsome']
      refine ⟨congrArg some hkey, fun hdistinct => ?_⟩
      obtain ⟨ev, hev, -, hget, hrecord⟩ := mem_validEvidence hp
      obtain ⟨ev', hev', -, hget', hrecord'⟩ := mem_validEvidence hp'
      obtain rfl := hdistinct ev hev ev' hev' p.1 p'.1
        (citable_of_mem_sources (mem_sources_of_get hget))
        (citable_of_mem_sources (mem_sources_of_get hget')) hkey
      have hsource := Option.some.inj (hget.symm.trans hget')
      refine congrArg some (Prod.ext hsource ?_)
      rw [hrecord, hrecord', hsource]

end Main

/-! ### The order among sources that tie -/

/-- Lower case for ASCII texts. -/
def asciiLowercase : StrLowercase := ⟨asciiLower, fun _ _ => rfl⟩

def replyBy (author messageId : String) (role : SpeakerRole) : PriorCommentMessage :=
  ⟨messageId, author, 100, none, ⟨"x", role, .moderate⟩, "the clock leaks on error"⟩

/-- Two reviewers answer in the same second, and the patch author under a Message-ID of Sashiko's
outbox. -/
def tiedContext : PriorVersionContext where
  priorFindings := []
  discussionThreads := [⟨"HM1", 1, [replyBy "Ann" "1" .reviewer,
    replyBy "Bob" "2" .reviewer,
    replyBy "Cy" "sashiko-outbox-1" .patchAuthor]⟩]

def leakQuoteFrom (ref : String) : EvidenceSpec := ⟨ref, "the clock leaks on error"⟩

theorem creditRests_tiedContext : CreditRests asciiLowercase tiedContext :=
  creditRests asciiLowercase (by decide)

/-- A reply with the text of the quote. -/
def leakSource (speaker : SourceSpeaker) (messageId : String) : CitableSource where
  version := 1
  timestamp := 100
  speaker := speaker
  claimTrust := some .moderate
  messageId := some messageId
  referenceUrl := none
  ownTextNorm := "the clock leaks on error"

theorem build_tiedContext : EvidenceIndex.build asciiLowercase tiedContext =
    ⟨[("HM1.1", leakSource (.person .reviewer "Ann" "x") "1"),
      ("HM1.2", leakSource (.person .reviewer "Bob" "x") "2"),
      ("HM1.3", leakSource .sashiko "sashiko-outbox-1")]⟩ := by
  refine congrArg EvidenceIndex.mk ?_
  decide +kernel

/-- In either order the pairs are accepted, and the first one is credited; a reply with the role of
the patch author is accepted as well. -/
theorem tie_credits_by_order :
    validatePriorAttributionOutput asciiLowercase
        ⟨[⟨"F1", [leakQuoteFrom "HM1.1", leakQuoteFrom "HM1.2"]⟩]⟩ ⟨["F1"]⟩
        (.build asciiLowercase tiedContext) = .ok () ∧
      (computePriorAttribution asciiLowercase [leakQuoteFrom "HM1.1", leakQuoteFrom "HM1.2"]
        (.build asciiLowercase tiedContext)).map (·.originallyRaisedBy) = some "Ann" ∧
      (computePriorAttribution asciiLowercase [leakQuoteFrom "HM1.2", leakQuoteFrom "HM1.1"]
        (.build asciiLowercase tiedContext)).map (·.originallyRaisedBy) = some "Bob" ∧
      (computePriorAttribution asciiLowercase [leakQuoteFrom "HM1.3"]
        (.build asciiLowercase tiedContext)).map (·.evidence.map (·.sourceRef)) =
          some ["HM1.3"] := by
  rw [build_tiedContext]
  decide +kernel

end Sashiko
