import Mathlib.Data.List.Nodup
import Mathlib.Data.List.Perm.Subperm
import Sashiko.Email.Readings

/-! A review goes to nobody twice, and to nobody that no policy asked for. -/

namespace Sashiko

open EmailRouter

/-! ### What the policies ask for -/

namespace EmailPolicyConfig

/-- A configured list that is among the addressees. -/
def Matched (policy : EmailPolicyConfig) (incoming : List String)
    (list : String × MailingListPolicy) : Prop :=
  list ∈ policy.lists ∧ ∃ addr ∈ incoming, extractBareEmail addr = extractBareEmail list.1

def listReplyTo (policy : EmailPolicyConfig) (list : String × MailingListPolicy) :
    List ReplyTarget :=
  list.2.replyTo.getD policy.defaults.replyTo

def Unlisted (policy : EmailPolicyConfig) (incoming : List String) : Prop :=
  ∀ list, ¬policy.Matched incoming list

/-- Some matched list, or the defaults when none is matched, reply so. -/
def RepliesTo (policy : EmailPolicyConfig) (incoming : List String) (target : ReplyTarget) :
    Prop :=
  (policy.Unlisted incoming ∧ target ∈ policy.defaults.replyTo) ∨
    ∃ list, policy.Matched incoming list ∧ target ∈ policy.listReplyTo list

def StaticCc (policy : EmailPolicyConfig) (incoming : List String) (cc : String) : Prop :=
  cc ∈ policy.defaults.cc ∨ ∃ list, policy.Matched incoming list ∧ cc ∈ list.2.cc

/-- The list's own policy, or the defaults when no list is matched, reply to lists. -/
def RepliesToList (policy : EmailPolicyConfig) (incoming : List String) (bare : String) : Prop :=
  (policy.Unlisted incoming ∧ .list ∈ policy.defaults.replyTo) ∨
    ∃ list, policy.Matched incoming list ∧ extractBareEmail list.1 = bare ∧
      .list ∈ policy.listReplyTo list

/-- An address in the headers that is no mailing list. -/
def Individual (policy : EmailPolicyConfig) (incoming : List String) (bare : String) : Prop :=
  ∃ addr ∈ incoming, extractBareEmail addr = bare ∧
    isMailingListAddress addr (configuredLists policy) = false

/-- Why an address may receive a review. -/
inductive Permitted (policy : EmailPolicyConfig) (incoming : List String) (author : String) :
    String → Prop
  | author (h : policy.RepliesTo incoming .author) : Permitted policy incoming author
      (extractBareEmail author)
  | staticCc {cc : String} (h : policy.StaticCc incoming cc) :
      Permitted policy incoming author (extractBareEmail cc)
  | list {addr : String} (hmem : addr ∈ incoming)
      (hlist : isMailingListAddress addr (configuredLists policy) = true)
      (h : policy.RepliesToList incoming (extractBareEmail addr)) :
      Permitted policy incoming author (extractBareEmail addr)
  | individual {bare : String} (hmem : policy.Individual incoming bare)
      (h : policy.RepliesTo incoming .recipients) : Permitted policy incoming author bare

end EmailPolicyConfig

open EmailPolicyConfig

/-- What holds of the recipients of a review. -/
structure SentSoundly (policy : EmailPolicyConfig) (incoming : List String)
    (author sashikoAddress : String) (recipients : List String) : Prop where
  once : (recipients.map extractBareEmail).Nodup
  not_bot : extractBareEmail sashikoAddress ∉ recipients.map extractBareEmail
  permitted : ∀ bare ∈ recipients.map extractBareEmail, policy.Permitted incoming author bare
  capped : ∀ bares : List String, bares.Nodup →
    (∀ bare ∈ bares, bare ∈ recipients.map extractBareEmail ∧ policy.Individual incoming bare ∧
      bare ≠ extractBareEmail author ∧
        ∀ cc, policy.StaticCc incoming cc → bare ≠ extractBareEmail cc) →
      bares.length ≤ maxRelayedRecipients
  opted_out : ∀ bare ∈ recipients.map extractBareEmail,
    (bare ∈ configuredLists policy ∨ isKnownMailingListBare bare = true) →
      ¬policy.RepliesToList incoming bare →
        (bare = extractBareEmail author ∧ policy.RepliesTo incoming .author) ∨
          ∃ cc, policy.StaticCc incoming cc ∧ bare = extractBareEmail cc

/-- What holds of the routing of a review. -/
structure RoutedSoundly (toLowercase : String → String) (policy : EmailPolicyConfig)
    (incomingTo incomingCc : List String) (author sashikoAddress : String) : Prop where
  sent : ∀ toAddresses ccAddresses positiveReview,
    resolveRecipients toLowercase policy incomingTo incomingCc author sashikoAddress =
      .send toAddresses ccAddresses positiveReview →
        SentSoundly policy (incomingTo ++ incomingCc) author sashikoAddress
          (toAddresses ++ ccAddresses)
  muted : ∀ list, policy.Matched (incomingTo ++ incomingCc) list →
    list.2.muteAll.getD policy.defaults.muteAll = true →
      resolveRecipients toLowercase policy incomingTo incomingCc author sashikoAddress = .mute

attribute [local irreducible] extractBareEmail containsText

/-! ### What the routing asks for -/

section Routing

variable {policy : EmailPolicyConfig} {incoming : List String}

theorem mem_matchedLists {list : String × MailingListPolicy} :
    list ∈ matchedLists policy incoming ↔
      ∃ l, policy.Matched incoming l ∧ list = (extractBareEmail l.1, l.2) := by
  have hany : ∀ l : String × MailingListPolicy, (incoming.any
      (addressMatchesList · (extractBareEmail l.1))) = true ↔
        ∃ addr ∈ incoming, extractBareEmail addr = extractBareEmail l.1 := fun l => by
    simp only [List.any_eq_true, addressMatchesList, decide_eq_true_eq]
  rw [matchedLists, List.mem_map]
  refine exists_congr fun l => ?_
  rw [List.mem_filter, hany, Matched, eq_comm (a := list)]

theorem unlisted_of_matchedLists_nil (h : matchedLists policy incoming = []) :
    policy.Unlisted incoming := fun list hlist =>
  absurd (mem_matchedLists.mpr ⟨list, hlist, rfl⟩) (h ▸ List.not_mem_nil)

/-- The routing asks for nothing that the given lists do not. -/
structure AskedBy (defaults : DefaultListPolicy) (lists : List (String × MailingListPolicy))
    (routing : Routing) : Prop where
  author : routing.includeAuthor = true →
    ∃ l ∈ lists, .author ∈ l.2.replyTo.getD defaults.replyTo
  recipients : routing.includeRecipients = true →
    ∃ l ∈ lists, .recipients ∈ l.2.replyTo.getD defaults.replyTo
  allowed : ∀ bare ∈ routing.allowedLists,
    ∃ l ∈ lists, l.1 = bare ∧ .list ∈ l.2.replyTo.getD defaults.replyTo
  defaultLists : routing.includeAllListsFromDefaults = false
  staticCc : ∀ cc, cc ∈ routing.staticCc ↔ ∃ l ∈ lists, cc ∈ l.2.cc
  muted : routing.muteAll = lists.any fun l => l.2.muteAll.getD defaults.muteAll

theorem askedBy_nil (defaults : DefaultListPolicy) : AskedBy defaults [] noRouting where
  author := nofun
  recipients := nofun
  allowed := nofun
  defaultLists := rfl
  staticCc := fun cc => by simp [noRouting]
  muted := rfl

theorem AskedBy.addList {defaults : DefaultListPolicy} {lists : List (String × MailingListPolicy)}
    {routing : Routing} (h : AskedBy defaults lists routing) (list : String × MailingListPolicy) :
    AskedBy defaults (lists ++ [list]) (routing.addList defaults list) where
  author := by
    intro hauthor
    rcases Bool.or_eq_true_iff.mp hauthor with hold | hnew
    · obtain ⟨l, hl, hreply⟩ := h.author hold
      exact ⟨l, List.mem_append_left _ hl, hreply⟩
    · exact ⟨list, List.mem_append_right _ List.mem_cons_self, List.contains_iff_mem.mp hnew⟩
  recipients := by
    intro hrecipients
    rcases Bool.or_eq_true_iff.mp hrecipients with hold | hnew
    · obtain ⟨l, hl, hreply⟩ := h.recipients hold
      exact ⟨l, List.mem_append_left _ hl, hreply⟩
    · exact ⟨list, List.mem_append_right _ List.mem_cons_self, List.contains_iff_mem.mp hnew⟩
  allowed := by
    intro bare hbare
    have hkept : bare ∈ routing.allowedLists →
        ∃ l ∈ lists ++ [list], l.1 = bare ∧ .list ∈ l.2.replyTo.getD defaults.replyTo :=
      fun hold => by
        obtain ⟨l, hl, hreply⟩ := h.allowed bare hold
        exact ⟨l, List.mem_append_left _ hl, hreply⟩
    simp only [Routing.addList] at hbare
    split_ifs at hbare with hlist
    · rcases List.mem_append.mp hbare with hold | hnew
      · exact hkept hold
      · exact ⟨list, List.mem_append_right _ List.mem_cons_self, (List.mem_singleton.mp hnew).symm,
          List.contains_iff_mem.mp hlist⟩
    · exact hkept hbare
  defaultLists := h.defaultLists
  staticCc := by
    intro cc
    change cc ∈ routing.staticCc ++ list.2.cc ↔ _
    rw [List.mem_append, h.staticCc]
    simp only [List.mem_append, List.mem_singleton, or_and_right, exists_or, exists_eq_left]
  muted := by
    change (routing.muteAll || _) = _
    rw [h.muted, List.any_append, List.any_cons, List.any_nil, Bool.or_false]

theorem askedBy_foldl (defaults : DefaultListPolicy) (lists : List (String × MailingListPolicy)) :
    AskedBy defaults lists (lists.foldl (Routing.addList defaults) noRouting) := by
  induction lists using List.reverseRecOn with
  | nil => exact askedBy_nil defaults
  | append_singleton lists list ih =>
    rw [List.foldl_append]
    exact ih.addList list

/-- What the routing of a mail asks for, in terms of its policies. -/
structure RoutingSpec (policy : EmailPolicyConfig) (incoming : List String) (routing : Routing) :
    Prop where
  author : routing.includeAuthor = true → policy.RepliesTo incoming .author
  recipients : routing.includeRecipients = true → policy.RepliesTo incoming .recipients
  lists : ∀ bare, routing.includeAllListsFromDefaults = true ∨ bare ∈ routing.allowedLists →
    policy.RepliesToList incoming bare
  staticCc : ∀ cc, cc ∈ routingStaticCc policy routing ↔ policy.StaticCc incoming cc
  muted : ∀ list, policy.Matched incoming list →
    list.2.muteAll.getD policy.defaults.muteAll = true → routing.muteAll = true

theorem routingSpec (policy : EmailPolicyConfig) (incoming : List String) :
    RoutingSpec policy incoming (listRouting policy (matchedLists policy incoming)) := by
  unfold listRouting
  split_ifs with hnil
  · have hunlisted := unlisted_of_matchedLists_nil hnil
    refine ⟨?_, ?_, ?_, ?_, fun list hlist => absurd hlist (hunlisted list)⟩
    · exact fun h => .inl ⟨hunlisted, List.contains_iff_mem.mp h⟩
    · exact fun h => .inl ⟨hunlisted, List.contains_iff_mem.mp h⟩
    · rintro bare (h | h)
      · exact .inl ⟨hunlisted, List.contains_iff_mem.mp h⟩
      · exact absurd h List.not_mem_nil
    · intro cc
      refine ⟨fun h => .inl (by simpa [routingStaticCc, defaultRouting] using h), ?_⟩
      rintro (h | ⟨list, hlist, -⟩)
      · simpa [routingStaticCc, defaultRouting] using h
      · exact absurd hlist (hunlisted list)
  · have hasked := askedBy_foldl policy.defaults
      ((matchedLists policy incoming).mergeSort fun a b => !textLt b.1 a.1)
    generalize (((matchedLists policy incoming).mergeSort fun a b => !textLt b.1 a.1).foldl
      (Routing.addList policy.defaults) noRouting) = routing at hasked ⊢
    have hfound : ∀ l, l ∈ ((matchedLists policy incoming).mergeSort
        fun a b => !textLt b.1 a.1) ↔
          ∃ l', policy.Matched incoming l' ∧ l = (extractBareEmail l'.1, l'.2) := fun l =>
      List.mem_mergeSort.trans mem_matchedLists
    refine ⟨?_, ?_, ?_, ?_, ?_⟩
    · intro h
      obtain ⟨l, hl, hreply⟩ := hasked.author h
      obtain ⟨l', hmatched, rfl⟩ := (hfound l).mp hl
      exact .inr ⟨l', hmatched, hreply⟩
    · intro h
      obtain ⟨l, hl, hreply⟩ := hasked.recipients h
      obtain ⟨l', hmatched, rfl⟩ := (hfound l).mp hl
      exact .inr ⟨l', hmatched, hreply⟩
    · rintro bare (h | h)
      · rw [hasked.defaultLists] at h
        cases h
      · obtain ⟨l, hl, hbare, hreply⟩ := hasked.allowed bare h
        obtain ⟨l', hmatched, rfl⟩ := (hfound l).mp hl
        exact .inr ⟨l', hmatched, hbare, hreply⟩
    · intro cc
      rw [routingStaticCc, List.mem_append, hasked.staticCc, or_comm]
      refine or_congr_right ⟨?_, ?_⟩
      · rintro ⟨l, hl, hcc⟩
        obtain ⟨l', hmatched, rfl⟩ := (hfound l).mp hl
        exact ⟨l', hmatched, hcc⟩
      · rintro ⟨l', hmatched, hcc⟩
        exact ⟨_, (hfound _).mpr ⟨l', hmatched, rfl⟩, hcc⟩
    · intro list hmatched hmute
      rw [hasked.muted, List.any_eq_true]
      exact ⟨_, (hfound _).mpr ⟨list, hmatched, rfl⟩, hmute⟩

end Routing

/-! ### What is kept of the candidates -/

section Dedup

variable {sashikoBare : String} {excludeBare : List String}

/-- Each result is a candidate that is not skipped, under its bare address, and stands once. -/
structure DedupSpec (sashikoBare : String) (excludeBare candidates : List String)
    (result : List (String × String)) : Prop where
  once : (result.map (·.1)).Nodup
  kept : ∀ r ∈ result, ∃ addr ∈ candidates, isSkipped sashikoBare excludeBare addr = false ∧
    r = (extractBareEmail (rustTrim addr), rustTrim addr)

theorem DedupSpec.dedupStep {candidates : List String} {result : List (String × String)}
    (h : DedupSpec sashikoBare excludeBare candidates result) (addr : String) :
    DedupSpec sashikoBare excludeBare (candidates ++ [addr])
      (dedupStep sashikoBare excludeBare result addr) := by
  have hkept : ∀ r ∈ result, ∃ addr' ∈ candidates ++ [addr],
      isSkipped sashikoBare excludeBare addr' = false ∧
        r = (extractBareEmail (rustTrim addr'), rustTrim addr') := fun r hr => by
    obtain ⟨addr', hmem, hrest⟩ := h.kept r hr
    exact ⟨addr', List.mem_append_left _ hmem, hrest⟩
  have hlast : addr ∈ candidates ++ [addr] := List.mem_append_right _ List.mem_cons_self
  unfold EmailRouter.dedupStep
  split_ifs with hskip hseen
  · exact ⟨h.once, hkept⟩
  · refine ⟨?_, fun r hr => ?_⟩
    · have hkeys : (result.map fun r =>
          if r.1 = extractBareEmail (rustTrim addr) ∧ !hasBracket r.2 ∧
            hasBracket (rustTrim addr) then (r.1, rustTrim addr) else r).map (·.1) =
          result.map (·.1) := by
        rw [List.map_map]
        refine List.map_congr_left fun r _ => ?_
        rw [Function.comp_apply, apply_ite Prod.fst, ite_self]
      rw [hkeys]
      exact h.once
    · obtain ⟨r₀, hr₀, rfl⟩ := List.mem_map.mp hr
      split_ifs with hreplace
      · exact ⟨addr, hlast, Bool.eq_false_iff.mpr hskip, by rw [hreplace.1]⟩
      · exact hkept r₀ hr₀
  · refine ⟨?_, fun r hr => ?_⟩
    · rw [List.map_append, List.map_singleton]
      refine List.nodup_append.mpr ⟨h.once, List.nodup_singleton _, fun x hx y hy heq => ?_⟩
      rw [heq, List.mem_singleton.mp hy] at hx
      exact hseen hx
    · rcases List.mem_append.mp hr with hr | hr
      · exact hkept r hr
      · exact ⟨addr, hlast, Bool.eq_false_iff.mpr hskip, List.mem_singleton.mp hr⟩

theorem dedupSpec (sashikoBare : String) (excludeBare candidates : List String) :
    DedupSpec sashikoBare excludeBare candidates
      (dedupAddresses candidates sashikoBare excludeBare) := by
  induction candidates using List.reverseRecOn with
  | nil => exact ⟨List.nodup_nil, fun r hr => absurd hr List.not_mem_nil⟩
  | append_singleton candidates addr ih =>
    rw [dedupAddresses, List.foldl_append]
    exact ih.dedupStep addr

/-- A bare address that is kept is a candidate's, not empty, not the bot's and not excluded. -/
theorem DedupSpec.bare {candidates : List String} {result : List (String × String)}
    (h : DedupSpec sashikoBare excludeBare candidates result) {bare : String}
    (hbare : bare ∈ result.map (·.1)) :
    (∃ addr ∈ candidates, extractBareEmail addr = bare) ∧ bare ≠ "" ∧ bare ≠ sashikoBare ∧
      bare ∉ excludeBare := by
  obtain ⟨r, hr, rfl⟩ := List.mem_map.mp hbare
  obtain ⟨addr, haddr, hkept, rfl⟩ := h.kept r hr
  rw [isSkipped_eq, reading] at hkept
  simp only [skipsReading, Bool.or_eq_false_iff, Bool.and_eq_false_iff, decide_eq_false_iff_not,
    not_not] at hkept
  obtain ⟨⟨hempty, hbot⟩, hexcluded⟩ := hkept
  rw [extractBareEmail_rustTrim]
  refine ⟨⟨addr, haddr, rfl⟩, hempty, ?_, hexcluded⟩
  rcases hbot with hbot | hbot
  · rw [hbot]
    exact hempty
  · exact hbot.1

end Dedup

/-! ### The recipients -/

section Recipients

variable {policy : EmailPolicyConfig} {incoming : List String} {routing : Routing}
  {author sashikoBare : String}

/-- Whether an address is a mailing list shows in its bare address. -/
theorem isMailingListAddress_eq_true {addr : String} :
    isMailingListAddress addr (configuredLists policy) = true ↔
      extractBareEmail addr ∈ configuredLists policy ∨
        isKnownMailingListBare (extractBareEmail addr) = true := by
  rw [isMailingListAddress, Bool.or_eq_true, decide_eq_true_eq]

theorem EmailPolicyConfig.Individual.not_list {bare : String}
    (h : policy.Individual incoming bare) :
    ¬(bare ∈ configuredLists policy ∨ isKnownMailingListBare bare = true) := by
  obtain ⟨addr, -, rfl, hlist⟩ := h
  rw [← isMailingListAddress_eq_true, hlist]
  exact Bool.false_ne_true

theorem permitted_author (h : RoutingSpec policy incoming routing) {addr : String}
    (haddr : addr ∈ rawAuthor routing author) :
    policy.Permitted incoming author (extractBareEmail addr) := by
  unfold rawAuthor at haddr
  split_ifs at haddr with hinclude
  · rw [List.mem_singleton.mp haddr]
    exact .author (h.author (Bool.and_eq_true_iff.mp hinclude).1)
  · cases haddr

/-- An addressee that is relayed is a list that is replied to, or an individual where these are. -/
theorem permitted_relayed (h : RoutingSpec policy incoming routing) {addr : String}
    (haddr : addr ∈ incoming) {relays : Bool}
    (hrelays : relays = true → routing.includeRecipients = true)
    (hrelayed : relaysAddress policy routing relays addr = true) :
    policy.Permitted incoming author (extractBareEmail addr) := by
  unfold relaysAddress at hrelayed
  split_ifs at hrelayed with hlist
  · rw [Bool.or_eq_true, decide_eq_true_eq] at hrelayed
    exact .list haddr hlist (h.lists _ hrelayed)
  · exact .individual ⟨addr, haddr, rfl, Bool.eq_false_iff.mpr hlist⟩
      (h.recipients (hrelays hrelayed))

/-- Where recipients are relayed there are few enough. -/
theorem individuals_le (h : RoutingSpec policy incoming routing)
    (hrelays : relaysRecipients policy routing incoming author sashikoBare = true)
    {bares : List String} (hnodup : bares.Nodup)
    (hbares : ∀ bare ∈ bares, (bare ≠ "" ∧ bare ≠ sashikoBare) ∧
      policy.Individual incoming bare ∧ bare ≠ extractBareEmail author ∧
        ∀ cc, policy.StaticCc incoming cc → bare ≠ extractBareEmail cc) :
    bares.length ≤ maxRelayedRecipients := by
  rw [relaysRecipients, Bool.and_eq_true, Bool.not_eq_true', tooManyIndividuals,
    decide_eq_false_iff_not, not_lt] at hrelays
  refine le_trans (List.subperm_of_subset hnodup fun bare hbare => ?_).length_le hrelays.2
  obtain ⟨⟨hempty, hbot⟩, ⟨addr, haddr, rfl, hlist⟩, hauthor, hstatic⟩ := hbares bare hbare
  rw [List.mem_eraseDups, List.mem_map]
  refine ⟨addr, List.mem_filter.mpr ⟨haddr, ?_⟩, rfl⟩
  have hauthorBare : (if routing.includeAuthor = true then some (extractBareEmail author)
      else none) ≠ some (extractBareEmail addr) := by
    split_ifs
    · exact fun heq => hauthor (Option.some.inj heq).symm
    · exact (Option.some_ne_none _).symm
  have hnotStatic : extractBareEmail addr ∉ (routingStaticCc policy routing).map
      extractBareEmail := by
    rw [List.mem_map]
    rintro ⟨cc, hcc, heq⟩
    exact hstatic cc ((h.staticCc cc).mp hcc) heq.symm
  simp only [isIndividual, hlist, hempty, hbot, hauthorBare, hnotStatic, Bool.not_false, ne_eq,
    not_false_eq_true, decide_true, Bool.and_self]

/-- The bare addresses of a review: each stands once, is not the bot's, and is the author's, a
relayed addressee's or a configured one. -/
structure Addressed (policy : EmailPolicyConfig) (routing : Routing) (relays : Bool)
    (incoming : List String) (author sashikoBare : String) (bares : List String) : Prop where
  once : bares.Nodup
  not_bot : ∀ bare ∈ bares, bare ≠ "" ∧ bare ≠ sashikoBare
  source : ∀ bare ∈ bares, (∃ addr ∈ rawAuthor routing author, extractBareEmail addr = bare) ∨
    (∃ addr ∈ incoming, relaysAddress policy routing relays addr = true ∧
      extractBareEmail addr = bare) ∨
    ∃ cc ∈ routingStaticCc policy routing, extractBareEmail cc = bare

theorem addressed_routeRecipients {incomingTo incomingCc toAddresses ccAddresses : List String}
    {positiveReview : PositiveReviewPolicy}
    (hsend : routeRecipients policy routing incomingTo incomingCc author sashikoBare =
      .send toAddresses ccAddresses positiveReview) :
    Addressed policy routing (relaysRecipients policy routing (incomingTo ++ incomingCc) author
      sashikoBare) (incomingTo ++ incomingCc) author sashikoBare
        ((toAddresses ++ ccAddresses).map extractBareEmail) := by
  unfold routeRecipients sendAction at hsend
  dsimp only at hsend
  generalize relaysRecipients policy routing (incomingTo ++ incomingCc) author sashikoBare =
    relays at hsend ⊢
  split_ifs at hsend
  obtain ⟨rfl, rfl, -⟩ := Action.send.inj hsend
  rw [List.map_append, texts_dedupAddresses, texts_dedupAddresses]
  have hto := dedupSpec sashikoBare []
    (rawAuthor routing author ++ incomingTo.filter (relaysAddress policy routing relays))
  generalize dedupAddresses (rawAuthor routing author ++
    incomingTo.filter (relaysAddress policy routing relays)) sashikoBare [] = finalTo at hto ⊢
  have hcc := dedupSpec sashikoBare (finalTo.map (·.1))
    (incomingCc.filter (relaysAddress policy routing relays) ++ routingStaticCc policy routing)
  generalize dedupAddresses (incomingCc.filter (relaysAddress policy routing relays) ++
    routingStaticCc policy routing) sashikoBare (finalTo.map (·.1)) = finalCc at hcc ⊢
  refine ⟨?_, fun bare hbare => ?_, fun bare hbare => ?_⟩
  · refine List.nodup_append.mpr ⟨hto.once, hcc.once, fun x hx y hy heq => ?_⟩
    exact (hcc.bare hy).2.2.2 (heq ▸ hx)
  · rcases List.mem_append.mp hbare with hbare | hbare
    · exact ⟨(hto.bare hbare).2.1, (hto.bare hbare).2.2.1⟩
    · exact ⟨(hcc.bare hbare).2.1, (hcc.bare hbare).2.2.1⟩
  · rcases List.mem_append.mp hbare with hbare | hbare
    · obtain ⟨addr, haddr, heq⟩ := (hto.bare hbare).1
      rcases List.mem_append.mp haddr with hauthor | hrelayed
      · exact .inl ⟨addr, hauthor, heq⟩
      · obtain ⟨hmem, hrelays⟩ := List.mem_filter.mp hrelayed
        exact .inr (.inl ⟨addr, List.mem_append_left _ hmem, hrelays, heq⟩)
    · obtain ⟨addr, haddr, heq⟩ := (hcc.bare hbare).1
      rcases List.mem_append.mp haddr with hrelayed | hstatic
      · obtain ⟨hmem, hrelays⟩ := List.mem_filter.mp hrelayed
        exact .inr (.inl ⟨addr, List.mem_append_right _ hmem, hrelays, heq⟩)
      · exact .inr (.inr ⟨addr, hstatic, heq⟩)

theorem Addressed.sound {relays : Bool} {bares : List String}
    (haddressed : Addressed policy routing relays incoming author sashikoBare bares)
    (h : RoutingSpec policy incoming routing)
    (hrelays : relays = relaysRecipients policy routing incoming author sashikoBare) :
    (∀ bare ∈ bares, policy.Permitted incoming author bare) ∧
    (∀ individuals : List String, individuals.Nodup →
      (∀ bare ∈ individuals, bare ∈ bares ∧ policy.Individual incoming bare ∧
        bare ≠ extractBareEmail author ∧
          ∀ cc, policy.StaticCc incoming cc → bare ≠ extractBareEmail cc) →
        individuals.length ≤ maxRelayedRecipients) := by
  refine ⟨fun bare hbare => ?_, fun individuals hnodup hindividuals => ?_⟩
  · obtain ⟨addr, haddr, rfl⟩ | ⟨addr, haddr, hrelayed, rfl⟩ | ⟨cc, hcc, rfl⟩ :=
      haddressed.source bare hbare
    · exact permitted_author h haddr
    · refine permitted_relayed h haddr (fun hr => ?_) hrelayed
      exact (Bool.and_eq_true_iff.mp (hrelays ▸ hr)).1
    · exact .staticCc ((h.staticCc cc).mp hcc)
  · cases relays with
    | true =>
      refine individuals_le h hrelays.symm hnodup fun bare hbare => ?_
      obtain ⟨hmem, hrest⟩ := hindividuals bare hbare
      exact ⟨haddressed.not_bot bare hmem, hrest⟩
    | false =>
      -- no individual is relayed, so each of these would be the author or a static address
      suffices hnone : individuals = [] by rw [hnone]; exact Nat.zero_le _
      refine List.eq_nil_iff_forall_not_mem.mpr fun bare hbare => ?_
      obtain ⟨hmem, hindividual, hauthor, hstatic⟩ := hindividuals bare hbare
      obtain ⟨addr, haddr, heq⟩ | ⟨addr, -, hrelayed, heq⟩ | ⟨cc, hcc, heq⟩ :=
        haddressed.source bare hmem
      · unfold rawAuthor at haddr
        split_ifs at haddr
        · rw [List.mem_singleton.mp haddr] at heq
          exact hauthor heq.symm
        · cases haddr
      · unfold relaysAddress at hrelayed
        split_ifs at hrelayed with hlist
        exact hindividual.not_list (heq ▸ isMailingListAddress_eq_true.mp hlist)
      · exact hstatic cc ((h.staticCc cc).mp hcc) heq.symm

/-- A list that is not replied to is reached as the author or as a configured address only. -/
theorem EmailPolicyConfig.Permitted.of_opted_out {bare : String}
    (h : policy.Permitted incoming author bare)
    (hlist : bare ∈ configuredLists policy ∨ isKnownMailingListBare bare = true)
    (hout : ¬policy.RepliesToList incoming bare) :
    (bare = extractBareEmail author ∧ policy.RepliesTo incoming .author) ∨
      ∃ cc, policy.StaticCc incoming cc ∧ bare = extractBareEmail cc := by
  cases h with
  | author hauthor => exact .inl ⟨rfl, hauthor⟩
  | staticCc hcc => exact .inr ⟨_, hcc, rfl⟩
  | list _ _ hreplies => exact absurd hreplies hout
  | individual hindividual _ => exact absurd hlist hindividual.not_list

end Recipients

/-- Whatever the policies and the headers are, a review goes to nobody twice, never to the bot, to
nobody that no matched policy asks for, and to nobody at all where a matched list is muted. -/
theorem routedSoundly (toLowercase : String → String) (policy : EmailPolicyConfig)
    (incomingTo incomingCc : List String) (author sashikoAddress : String) :
    RoutedSoundly toLowercase policy incomingTo incomingCc author sashikoAddress := by
  have hrouting := routingSpec policy (incomingTo ++ incomingCc)
  refine ⟨fun toAddresses ccAddresses positiveReview hsend => ?_, fun list hmatched hmute => ?_⟩
  · unfold resolveRecipients at hsend
    split_ifs at hsend
    have haddressed := addressed_routeRecipients hsend
    obtain ⟨hpermitted, hcapped⟩ := haddressed.sound hrouting rfl
    exact ⟨haddressed.once, fun hbot => (haddressed.not_bot _ hbot).2 rfl, hpermitted, hcapped,
      fun bare hbare => (hpermitted bare hbare).of_opted_out⟩
  · unfold resolveRecipients
    rw [hrouting.muted list hmatched hmute, if_pos rfl, ite_self]

end Sashiko
