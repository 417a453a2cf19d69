import Sashiko.Email.Recipients

/-! A review without findings goes to fewer: `resolve_positive_recipients` runs the routing again
over the lists that want such a review. -/

namespace Sashiko

namespace EmailRouter

/-- `list_pos`, the level a list asks for. -/
def listPositiveReview (defaults : DefaultListPolicy) (list : String × MailingListPolicy) :
    PositiveReviewPolicy :=
  list.2.positiveReview.getD defaults.positiveReview

def listReplies (defaults : DefaultListPolicy) (list : String × MailingListPolicy)
    (target : ReplyTarget) : Bool :=
  (list.2.replyTo.getD defaults.replyTo).contains target

/-- A list of level `author` adds nothing but the author. -/
def Routing.addPositiveList (defaults : DefaultListPolicy) (routing : Routing)
    (list : String × MailingListPolicy) : Routing :=
  if listPositiveReview defaults list = .all then
    { routing with
      includeAuthor := routing.includeAuthor || listReplies defaults list .author
      includeRecipients := routing.includeRecipients || listReplies defaults list .recipients
      allowedLists :=
        if listReplies defaults list .list then routing.allowedLists ++ [list.1]
        else routing.allowedLists
      staticCc := routing.staticCc ++ list.2.cc }
  else if listPositiveReview defaults list = .author && listReplies defaults list .author then
    { routing with includeAuthor := true }
  else routing

def positiveRouting (policy : EmailPolicyConfig) (lists : List (String × MailingListPolicy)) :
    Routing :=
  (lists.mergeSort fun a b => !textLt b.1 a.1).foldl (Routing.addPositiveList policy.defaults)
    noRouting

def Action.recipients : Action → Option (List String × List String)
  | .mute => none
  | .send toAddresses ccAddresses _ => some (toAddresses, ccAddresses)

def resolvePositiveRecipients (toLowercase : String → String) (policy : EmailPolicyConfig)
    (incomingTo incomingCc : List String) (patchAuthor sashikoAddress : String) :
    Option (List String × List String) :=
  match resolveRecipients toLowercase policy incomingTo incomingCc patchAuthor sashikoAddress with
  | .mute => none
  | .send _ _ .none => none
  | .send _ _ .author =>
    if rustTrim patchAuthor = "" then none
    else
      let posTo := dedupAddresses [rustTrim patchAuthor] (extractBareEmail sashikoAddress) []
      if posTo = [] then none else some (posTo.map (·.2), [])
  | .send toAddresses ccAddresses .all =>
    if matchedLists policy (incomingTo ++ incomingCc) = [] then some (toAddresses, ccAddresses)
    else
      Action.recipients (routeRecipients policy
        (positiveRouting policy (matchedLists policy (incomingTo ++ incomingCc)))
        incomingTo incomingCc patchAuthor (extractBareEmail sashikoAddress))

/-- The bare addresses of the recipients, if there are any. -/
def recipientBares : Option (List String × List String) → List String
  | none => []
  | some (toAddresses, ccAddresses) => (toAddresses ++ ccAddresses).map extractBareEmail

end EmailRouter

open EmailRouter

namespace EmailPolicyConfig

/-- The configuration without the matched lists of level `none`. -/
def withoutSilentLists (policy : EmailPolicyConfig) (incoming : List String) :
    EmailPolicyConfig :=
  { policy with
    lists := policy.lists.filter fun l =>
      !((incoming.any (addressMatchesList · (extractBareEmail l.1))) &&
        listPositiveReview policy.defaults l = .none) }

/-- What a list adds to the recipients. -/
def ReachedThrough (policy : EmailPolicyConfig) (incoming : List String) (author : String)
    (list : String × MailingListPolicy) (bare : String) : Prop :=
  (.author ∈ policy.listReplyTo list ∧ bare = extractBareEmail author) ∨
    (.list ∈ policy.listReplyTo list ∧ bare = extractBareEmail list.1) ∨
    (.recipients ∈ policy.listReplyTo list ∧ policy.Individual incoming bare) ∨
    ∃ cc ∈ list.2.cc, bare = extractBareEmail cc

/-- The lists that are left out are recognised as lists without their configuration. -/
def SilentListsKnown (policy : EmailPolicyConfig) (incoming : List String) : Prop :=
  ∀ list, policy.Matched incoming list → listPositiveReview policy.defaults list = .none →
    isKnownMailingListBare (extractBareEmail list.1) = true ∨
      extractBareEmail list.1 ∈ configuredLists (policy.withoutSilentLists incoming)

end EmailPolicyConfig

open EmailPolicyConfig

attribute [local irreducible] extractBareEmail containsText

/-! ### The bare addresses that a routing reaches -/

section Reached

variable {sashikoBare : String}

/-- Some candidate has the bare address, and neither is it empty nor is the bot mentioned. -/
def Reached (sashikoBare : String) (candidates : List String) (bare : String) : Prop :=
  ∃ addr ∈ candidates, extractBareEmail addr = bare ∧
    skipsReading sashikoBare [] (reading sashikoBare addr) = false

theorem Reached.mono {candidates candidates' : List String} (h : candidates ⊆ candidates')
    {bare : String} (hreached : Reached sashikoBare candidates bare) :
    Reached sashikoBare candidates' bare := by
  obtain ⟨addr, haddr, hrest⟩ := hreached
  exact ⟨addr, h haddr, hrest⟩

theorem reached_append {xs ys : List String} {bare : String} :
    Reached sashikoBare (xs ++ ys) bare ↔
      Reached sashikoBare xs bare ∨ Reached sashikoBare ys bare := by
  simp only [Reached, List.mem_append, or_and_right, exists_or]

theorem mem_foldl_keyStep {excludeBare : List String} (readings : List (String × Bool)) :
    ∀ keys : List String, ∀ bare, bare ∈ readings.foldl (keyStep sashikoBare excludeBare) keys ↔
      bare ∈ keys ∨ ∃ r ∈ readings,
        r.1 = bare ∧ skipsReading sashikoBare excludeBare r = false := by
  induction readings with
  | nil => simp
  | cons r readings ih =>
    intro keys bare
    rw [List.foldl_cons, ih]
    have hstep : bare ∈ keyStep sashikoBare excludeBare keys r ↔
        bare ∈ keys ∨ (r.1 = bare ∧ skipsReading sashikoBare excludeBare r = false) := by
      unfold keyStep
      split_ifs with hskip hmem
      · simp [hskip]
      · constructor
        · exact .inl
        · rintro (h | ⟨rfl, -⟩)
          · exact h
          · exact hmem
      · rw [List.mem_append, List.mem_singleton, eq_comm (a := bare)]
        simp [Bool.eq_false_iff.mpr hskip]
    rw [hstep]
    simp only [List.mem_cons, exists_eq_or_imp, or_assoc]

/-- What is excluded from a header stands in the other one already. -/
theorem skipsReading_exclude {excludeBare : List String} {r : String × Bool} :
    skipsReading sashikoBare excludeBare r = false ↔
      skipsReading sashikoBare [] r = false ∧ r.1 ∉ excludeBare := by
  simp only [skipsReading, Bool.or_eq_false_iff, decide_eq_false_iff_not, List.not_mem_nil,
    not_false_eq_true, and_true]

theorem mem_dedupAddresses {excludeBare candidates : List String} {bare : String} :
    bare ∈ (dedupAddresses candidates sashikoBare excludeBare).map (·.1) ↔
      Reached sashikoBare candidates bare ∧ bare ∉ excludeBare := by
  rw [keys_dedupAddresses, mem_foldl_keyStep]
  simp only [List.not_mem_nil, false_or, List.mem_map]
  constructor
  · rintro ⟨_, ⟨addr, haddr, rfl⟩, rfl, hskip⟩
    obtain ⟨hskip, hexcluded⟩ := skipsReading_exclude.mp hskip
    exact ⟨⟨addr, haddr, rfl, hskip⟩, hexcluded⟩
  · rintro ⟨⟨addr, haddr, rfl, hskip⟩, hexcluded⟩
    exact ⟨_, ⟨addr, haddr, rfl⟩, rfl, skipsReading_exclude.mpr ⟨hskip, hexcluded⟩⟩

theorem recipientBares_sendAction (finalTo finalCc : List (String × String))
    (positiveReview : PositiveReviewPolicy) :
    recipientBares (Action.recipients (sendAction finalTo finalCc positiveReview)) =
      (finalTo.map (·.2)).map extractBareEmail ++ (finalCc.map (·.2)).map extractBareEmail := by
  unfold sendAction
  split_ifs with hempty
  · rw [hempty.1, hempty.2]
    rfl
  · exact List.map_append

/-- All that a routing puts into the two headers. -/
def routedCandidates (policy : EmailPolicyConfig) (routing : Routing) (incoming : List String)
    (author sashikoBare : String) : List String :=
  rawAuthor routing author ++ incoming.filter (relaysAddress policy routing
    (relaysRecipients policy routing incoming author sashikoBare)) ++
    routingStaticCc policy routing

theorem mem_routeRecipients {policy : EmailPolicyConfig} {routing : Routing}
    {incomingTo incomingCc : List String} {author bare : String} :
    bare ∈ recipientBares (Action.recipients
        (routeRecipients policy routing incomingTo incomingCc author sashikoBare)) ↔
      Reached sashikoBare (routedCandidates policy routing (incomingTo ++ incomingCc) author
        sashikoBare) bare := by
  unfold routeRecipients routedCandidates
  dsimp only
  generalize relaysRecipients policy routing (incomingTo ++ incomingCc) author sashikoBare =
    relays
  generalize hto : rawAuthor routing author ++
    incomingTo.filter (relaysAddress policy routing relays) = candidatesTo
  generalize hcc : incomingCc.filter (relaysAddress policy routing relays) ++
    routingStaticCc policy routing = candidatesCc
  have hsplit : rawAuthor routing author ++
      (incomingTo ++ incomingCc).filter (relaysAddress policy routing relays) ++
        routingStaticCc policy routing = candidatesTo ++ candidatesCc := by
    rw [← hto, ← hcc, List.filter_append]
    simp only [List.append_assoc]
  rw [recipientBares_sendAction, texts_dedupAddresses, texts_dedupAddresses, hsplit,
    reached_append, List.mem_append, mem_dedupAddresses, mem_dedupAddresses, mem_dedupAddresses]
  simp only [List.not_mem_nil, not_false_eq_true, and_true]
  tauto

end Reached

/-! ### A narrower routing reaches fewer -/

theorem nodup_eraseDups {α : Type*} [DecidableEq α] (xs : List α) : xs.eraseDups.Nodup := by
  induction xs using List.reverseRecOn with
  | nil => exact List.nodup_nil
  | append_singleton xs x ih =>
    rw [List.eraseDups_append]
    by_cases hx : x ∈ xs
    · simpa [List.removeAll, hx] using ih
    · refine List.nodup_append.mpr ⟨ih, by simp [List.removeAll, hx, List.eraseDups_cons], ?_⟩
      rintro a ha b hb rfl
      simp only [List.removeAll, List.mem_eraseDups, List.mem_filter, List.mem_singleton] at ha hb
      exact hx (hb.1 ▸ ha)

theorem append_subset_append {α : Type*} {xs ys xs' ys' : List α} (hx : xs ⊆ xs') (hy : ys ⊆ ys') :
    xs ++ ys ⊆ xs' ++ ys' :=
  List.append_subset.mpr ⟨List.subset_append_of_subset_left _ hx,
    List.subset_append_of_subset_right _ hy⟩

/-- Whatever the first routing asks for, the second does. -/
structure Narrower (r r' : Routing) : Prop where
  author : r.includeAuthor = true → r'.includeAuthor = true
  recipients : r.includeRecipients = true → r'.includeRecipients = true
  allLists : r.includeAllListsFromDefaults = true → r'.includeAllListsFromDefaults = true
  allowed : r.allowedLists ⊆ r'.allowedLists
  staticCc : r.staticCc ⊆ r'.staticCc

section Narrowing

variable {policy policy' : EmailPolicyConfig} {r r' : Routing} {incoming : List String}
  {author sashikoBare : String}

/-- The same addresses are mailing lists, and the same addresses are always copied. -/
structure SameLists (policy policy' : EmailPolicyConfig) (incoming : List String) : Prop where
  lists : ∀ addr ∈ incoming, isMailingListAddress addr (configuredLists policy) =
    isMailingListAddress addr (configuredLists policy')
  cc : policy.defaults.cc = policy'.defaults.cc

theorem SameLists.refl (policy : EmailPolicyConfig) (incoming : List String) :
    SameLists policy policy incoming :=
  ⟨fun _ _ => rfl, rfl⟩

theorem SameLists.symm (h : SameLists policy policy' incoming) :
    SameLists policy' policy incoming :=
  ⟨fun addr haddr => (h.lists addr haddr).symm, h.cc.symm⟩

theorem Narrower.routingStaticCc (h : Narrower r r') (hcc : policy.defaults.cc =
    policy'.defaults.cc) : routingStaticCc policy r ⊆ routingStaticCc policy' r' := by
  intro cc hmem
  rcases List.mem_append.mp hmem with hmem | hmem
  · exact List.mem_append_left _ (h.staticCc hmem)
  · exact List.mem_append_right _ (hcc ▸ hmem)

/-- The exclusions from the count grow with the routing, so it is never over the cap where the
narrower one is not. -/
theorem Narrower.relaysRecipients (h : Narrower r r') (hsame : SameLists policy policy' incoming)
    (hrelays : relaysRecipients policy r incoming author sashikoBare = true) :
    relaysRecipients policy' r' incoming author sashikoBare = true := by
  simp only [EmailRouter.relaysRecipients, Bool.and_eq_true, Bool.not_eq_true',
    tooManyIndividuals, decide_eq_false_iff_not, not_lt] at hrelays ⊢
  refine ⟨h.recipients hrelays.1, le_trans (List.subperm_of_subset (nodup_eraseDups _)
    fun bare hbare => ?_).length_le hrelays.2⟩
  rw [List.mem_eraseDups, List.mem_map] at hbare ⊢
  obtain ⟨addr, haddr, rfl⟩ := hbare
  obtain ⟨hmem, hindividual⟩ := List.mem_filter.mp haddr
  refine ⟨addr, List.mem_filter.mpr ⟨hmem, ?_⟩, rfl⟩
  simp only [isIndividual, Bool.and_eq_true, Bool.not_eq_true', decide_eq_true_eq] at hindividual ⊢
  obtain ⟨⟨⟨⟨hlist, hempty⟩, hbot⟩, hauthor⟩, hstatic⟩ := hindividual
  refine ⟨⟨⟨⟨(hsame.lists addr hmem).trans hlist, hempty⟩, hbot⟩, ?_⟩, fun hmem' => ?_⟩
  · split_ifs with hinclude
    · rwa [if_pos (h.author hinclude)] at hauthor
    · exact (Option.some_ne_none _).symm
  · obtain ⟨cc, hcc, heq⟩ := List.mem_map.mp hmem'
    exact hstatic (List.mem_map.mpr ⟨cc, h.routingStaticCc hsame.cc hcc, heq⟩)

theorem Narrower.relaysAddress (h : Narrower r r') (hsame : SameLists policy policy' incoming)
    {relays relays' : Bool} (hrelays : relays = true → relays' = true) {addr : String}
    (haddr : addr ∈ incoming) (hrelayed : relaysAddress policy r relays addr = true) :
    relaysAddress policy' r' relays' addr = true := by
  unfold EmailRouter.relaysAddress at hrelayed ⊢
  rw [hsame.lists addr haddr] at hrelayed
  split_ifs at hrelayed ⊢
  · rw [Bool.or_eq_true, decide_eq_true_eq] at hrelayed ⊢
    exact hrelayed.imp h.allLists fun hmem => h.allowed hmem
  · exact hrelays hrelayed

theorem Narrower.reached (h : Narrower r r') (hsame : SameLists policy policy' incoming)
    {bare : String}
    (hreached : Reached sashikoBare (routedCandidates policy r incoming author sashikoBare) bare) :
    Reached sashikoBare (routedCandidates policy' r' incoming author sashikoBare) bare := by
  refine hreached.mono (append_subset_append (append_subset_append ?_ ?_)
    (h.routingStaticCc hsame.cc))
  · unfold rawAuthor
    intro addr haddr
    split_ifs at haddr with hinclude
    · rw [Bool.and_eq_true] at hinclude
      rwa [if_pos (Bool.and_eq_true_iff.mpr ⟨h.author hinclude.1, hinclude.2⟩)]
    · cases haddr
  · intro addr haddr
    obtain ⟨hmem, hrelayed⟩ := List.mem_filter.mp haddr
    exact List.mem_filter.mpr ⟨hmem, h.relaysAddress hsame (h.relaysRecipients hsame) hmem
      hrelayed⟩

end Narrowing

/-! ### The routing of a positive review -/

section Positive

variable {defaults : DefaultListPolicy} {lists : List (String × MailingListPolicy)}
  {r r' : Routing}

theorem Narrower.addPositiveList (h : Narrower r r') (list : String × MailingListPolicy) :
    Narrower (r.addPositiveList defaults list) (r'.addList defaults list) := by
  have hkept : Narrower r (r'.addList defaults list) := by
    refine ⟨fun hr => ?_, fun hr => ?_, h.allLists, fun bare hbare => ?_,
      List.subset_append_of_subset_left _ h.staticCc⟩
    · exact Bool.or_eq_true_iff.mpr (.inl (h.author hr))
    · exact Bool.or_eq_true_iff.mpr (.inl (h.recipients hr))
    · simp only [Routing.addList]
      split_ifs
      · exact List.mem_append_left _ (h.allowed hbare)
      · exact h.allowed hbare
  unfold Routing.addPositiveList
  by_cases hall : listPositiveReview defaults list = .all
  · rw [if_pos hall]
    refine ⟨fun hr => ?_, fun hr => ?_, h.allLists, ?_,
      append_subset_append h.staticCc (List.Subset.refl _)⟩
    · exact Bool.or_eq_true_iff.mpr ((Bool.or_eq_true_iff.mp hr).imp_left h.author)
    · exact Bool.or_eq_true_iff.mpr ((Bool.or_eq_true_iff.mp hr).imp_left h.recipients)
    · change (if listReplies defaults list .list then r.allowedLists ++ [list.1]
        else r.allowedLists) ⊆ if listReplies defaults list .list then r'.allowedLists ++ [list.1]
        else r'.allowedLists
      by_cases hlist : listReplies defaults list .list = true
      · rw [if_pos hlist, if_pos hlist]
        exact append_subset_append h.allowed (List.Subset.refl _)
      · rw [if_neg hlist, if_neg hlist]
        exact h.allowed
  · rw [if_neg hall]
    by_cases hauthor : (decide (listPositiveReview defaults list = .author) &&
        listReplies defaults list .author) = true
    · rw [if_pos hauthor]
      exact { hkept with author := fun _ =>
        Bool.or_eq_true_iff.mpr (.inr (Bool.and_eq_true_iff.mp hauthor).2) }
    · rw [if_neg hauthor]
      exact hkept

theorem narrower_foldl (defaults : DefaultListPolicy) (lists : List (String × MailingListPolicy)) :
    Narrower (lists.foldl (Routing.addPositiveList defaults) noRouting)
      (lists.foldl (Routing.addList defaults) noRouting) := by
  induction lists using List.reverseRecOn with
  | nil => exact ⟨id, id, id, List.Subset.refl _, List.Subset.refl _⟩
  | append_singleton lists list ih =>
    rw [List.foldl_append, List.foldl_append]
    exact ih.addPositiveList list

/-- What the lists that want a positive review ask for. -/
structure PositiveSpec (defaults : DefaultListPolicy) (lists : List (String × MailingListPolicy))
    (routing : Routing) : Prop where
  author : routing.includeAuthor = true ↔ ∃ l ∈ lists,
    listPositiveReview defaults l ≠ .none ∧ listReplies defaults l .author = true
  recipients : routing.includeRecipients = true ↔ ∃ l ∈ lists,
    listPositiveReview defaults l = .all ∧ listReplies defaults l .recipients = true
  allLists : routing.includeAllListsFromDefaults = false
  allowed : ∀ bare, bare ∈ routing.allowedLists ↔ ∃ l ∈ lists,
    listPositiveReview defaults l = .all ∧ listReplies defaults l .list = true ∧ l.1 = bare
  staticCc : ∀ cc, cc ∈ routing.staticCc ↔ ∃ l ∈ lists,
    listPositiveReview defaults l = .all ∧ cc ∈ l.2.cc

theorem exists_mem_concat {α : Type*} {xs : List α} {x : α} {p : α → Prop} :
    (∃ y ∈ xs ++ [x], p y) ↔ (∃ y ∈ xs, p y) ∨ p x := by
  simp only [List.mem_append, List.mem_singleton, or_and_right, exists_or, exists_eq_left]

theorem PositiveSpec.addPositiveList (h : PositiveSpec defaults lists r)
    (list : String × MailingListPolicy) :
    PositiveSpec defaults (lists ++ [list]) (r.addPositiveList defaults list) := by
  unfold Routing.addPositiveList
  cases hlevel : listPositiveReview defaults list with
  | all =>
    rw [if_pos rfl]
    refine ⟨?_, ?_, h.allLists, fun bare => ?_, fun cc => ?_⟩
    · rw [exists_mem_concat, ← h.author]
      simp [hlevel]
    · rw [exists_mem_concat, ← h.recipients]
      simp [hlevel]
    · rw [exists_mem_concat, ← h.allowed]
      cases hreplies : listReplies defaults list .list <;> simp [hlevel, eq_comm]
    · rw [exists_mem_concat, ← h.staticCc]
      simp [hlevel]
  | author =>
    rw [if_neg nofun]
    have hrest : PositiveSpec defaults (lists ++ [list])
        { r with includeAuthor := r.includeAuthor || listReplies defaults list .author } := by
      refine ⟨?_, ?_, h.allLists, fun bare => ?_, fun cc => ?_⟩
      · rw [exists_mem_concat, ← h.author]
        simp [hlevel]
      · rw [exists_mem_concat, ← h.recipients]
        simp [hlevel]
      · rw [exists_mem_concat, ← h.allowed]
        simp [hlevel]
      · rw [exists_mem_concat, ← h.staticCc]
        simp [hlevel]
    cases hreplies : listReplies defaults list .author with
    | true => simpa [hreplies] using hrest
    | false => simpa [hreplies] using hrest
  | none =>
    rw [if_neg nofun, if_neg (by simp)]
    refine ⟨?_, ?_, h.allLists, fun bare => ?_, fun cc => ?_⟩
    · rw [exists_mem_concat, ← h.author]
      simp [hlevel]
    · rw [exists_mem_concat, ← h.recipients]
      simp [hlevel]
    · rw [exists_mem_concat, ← h.allowed]
      simp [hlevel]
    · rw [exists_mem_concat, ← h.staticCc]
      simp [hlevel]

theorem positiveSpec_foldl (defaults : DefaultListPolicy)
    (lists : List (String × MailingListPolicy)) :
    PositiveSpec defaults lists (lists.foldl (Routing.addPositiveList defaults) noRouting) := by
  induction lists using List.reverseRecOn with
  | nil => constructor <;> simp [noRouting]
  | append_singleton lists list ih =>
    rw [List.foldl_append]
    exact ih.addPositiveList list

theorem positiveSpec (policy : EmailPolicyConfig) (lists : List (String × MailingListPolicy)) :
    PositiveSpec policy.defaults lists (positiveRouting policy lists) := by
  have h := positiveSpec_foldl policy.defaults (lists.mergeSort fun a b => !textLt b.1 a.1)
  have hmem : ∀ p : String × MailingListPolicy → Prop,
      (∃ l ∈ lists.mergeSort fun a b => !textLt b.1 a.1, p l) ↔ ∃ l ∈ lists, p l := fun p => by
    simp only [List.mem_mergeSort]
  exact ⟨h.author.trans (hmem _), h.recipients.trans (hmem _), h.allLists,
    fun bare => (h.allowed bare).trans (hmem _), fun cc => (h.staticCc cc).trans (hmem _)⟩

/-- A routing that is asked for by the lists of level `none` alone is the same without them. -/
theorem PositiveSpec.narrower {lists' : List (String × MailingListPolicy)}
    (h : PositiveSpec defaults lists r) (h' : PositiveSpec defaults lists' r')
    (hlists : ∀ l ∈ lists, listPositiveReview defaults l ≠ .none → l ∈ lists') :
    Narrower r r' := by
  have hall : ∀ {l}, listPositiveReview defaults l = .all →
      listPositiveReview defaults l ≠ .none := fun hl => hl ▸ nofun
  refine ⟨fun hr => ?_, fun hr => ?_, fun hr => ?_, fun bare hr => ?_, fun cc hr => ?_⟩
  · obtain ⟨l, hl, hlevel, hreplies⟩ := h.author.mp hr
    exact h'.author.mpr ⟨l, hlists l hl hlevel, hlevel, hreplies⟩
  · obtain ⟨l, hl, hlevel, hreplies⟩ := h.recipients.mp hr
    exact h'.recipients.mpr ⟨l, hlists l hl (hall hlevel), hlevel, hreplies⟩
  · rw [h.allLists] at hr
    cases hr
  · obtain ⟨l, hl, hlevel, hreplies⟩ := (h.allowed bare).mp hr
    exact (h'.allowed bare).mpr ⟨l, hlists l hl (hall hlevel), hlevel, hreplies⟩
  · obtain ⟨l, hl, hlevel, hcc⟩ := (h.staticCc cc).mp hr
    exact (h'.staticCc cc).mpr ⟨l, hlists l hl (hall hlevel), hlevel, hcc⟩

end Positive

/-! ### The recipients of a positive review -/

section Resolved

variable {toLowercase : String → String} {policy : EmailPolicyConfig}
  {incoming incomingTo incomingCc toAddresses ccAddresses : List String}
  {author sashikoAddress : String} {positiveReview : PositiveReviewPolicy}

theorem positiveReview_foldl (defaults : DefaultListPolicy)
    (lists : List (String × MailingListPolicy)) :
    (lists.foldl (Routing.addList defaults) noRouting).positiveReview = .all ↔
      ∃ l ∈ lists, listPositiveReview defaults l = .all := by
  induction lists using List.reverseRecOn with
  | nil => exact iff_of_false nofun (by simp)
  | append_singleton lists list ih =>
    rw [exists_mem_concat, ← ih, List.foldl_append]
    generalize lists.foldl (Routing.addList defaults) noRouting = routing
    change (if routing.positiveReview.rank < (listPositiveReview defaults list).rank then
      listPositiveReview defaults list else routing.positiveReview) = .all ↔ _
    cases routing.positiveReview <;> cases listPositiveReview defaults list <;> decide

theorem positiveReview_listRouting (hne : matchedLists policy incoming ≠ []) :
    (listRouting policy (matchedLists policy incoming)).positiveReview = .all ↔
      ∃ l ∈ matchedLists policy incoming, listPositiveReview policy.defaults l = .all := by
  rw [listRouting, if_neg hne, positiveReview_foldl]
  simp only [List.mem_mergeSort]

theorem narrower_listRouting (hne : matchedLists policy incoming ≠ []) :
    Narrower (positiveRouting policy (matchedLists policy incoming))
      (listRouting policy (matchedLists policy incoming)) := by
  rw [listRouting, if_neg hne]
  exact narrower_foldl _ _

theorem routeRecipients_level {routing : Routing} {sashikoBare : String}
    (h : routeRecipients policy routing incomingTo incomingCc author sashikoBare =
      .send toAddresses ccAddresses positiveReview) : positiveReview = routing.positiveReview := by
  unfold routeRecipients sendAction at h
  dsimp only at h
  split_ifs at h
  exact (Action.send.inj h).2.2.symm

/-- Neither the author nor a matched list keeps the review from being sent. -/
def Sendable (toLowercase : String → String) (policy : EmailPolicyConfig) (incoming : List String)
    (author sashikoAddress : String) : Prop :=
  isMutedAuthor toLowercase policy author (extractBareEmail sashikoAddress) = false ∧
    (listRouting policy (matchedLists policy incoming)).muteAll = false

theorem resolveRecipients_sendable
    (h : Sendable toLowercase policy (incomingTo ++ incomingCc) author sashikoAddress) :
    resolveRecipients toLowercase policy incomingTo incomingCc author sashikoAddress =
      routeRecipients policy (listRouting policy (matchedLists policy (incomingTo ++ incomingCc)))
        incomingTo incomingCc author (extractBareEmail sashikoAddress) := by
  rw [resolveRecipients, h.1, h.2]
  rfl

theorem sendable_of_send
    (h : resolveRecipients toLowercase policy incomingTo incomingCc author sashikoAddress =
      .send toAddresses ccAddresses positiveReview) :
    Sendable toLowercase policy (incomingTo ++ incomingCc) author sashikoAddress := by
  unfold resolveRecipients at h
  split_ifs at h with hauthor hmute
  exact ⟨Bool.eq_false_iff.mpr hauthor, Bool.eq_false_iff.mpr hmute⟩

theorem mem_resolvePositiveRecipients {bare : String}
    (hsend : Sendable toLowercase policy (incomingTo ++ incomingCc) author sashikoAddress)
    (hne : matchedLists policy (incomingTo ++ incomingCc) ≠ [])
    (hall : (listRouting policy
      (matchedLists policy (incomingTo ++ incomingCc))).positiveReview = .all) :
    bare ∈ recipientBares (resolvePositiveRecipients toLowercase policy incomingTo incomingCc author
        sashikoAddress) ↔
      Reached (extractBareEmail sashikoAddress) (routedCandidates policy
        (positiveRouting policy (matchedLists policy (incomingTo ++ incomingCc)))
        (incomingTo ++ incomingCc) author (extractBareEmail sashikoAddress)) bare := by
  rw [resolvePositiveRecipients, resolveRecipients_sendable hsend]
  cases hroute : routeRecipients policy (listRouting policy (matchedLists policy
      (incomingTo ++ incomingCc))) incomingTo incomingCc author
        (extractBareEmail sashikoAddress) with
  | mute =>
    -- who is reached here would be reached by the wider routing, which reaches nobody
    refine iff_of_false List.not_mem_nil fun hreached => ?_
    have hwide := mem_routeRecipients.mpr ((narrower_listRouting hne).reached (.refl _ _) hreached)
    rw [hroute] at hwide
    exact List.not_mem_nil hwide
  | send toAddresses ccAddresses positiveReview =>
    obtain rfl : positiveReview = .all := (routeRecipients_level hroute).trans hall
    dsimp only
    rw [if_neg hne]
    exact mem_routeRecipients

/-- A positive review reaches nobody but through the defaults or a list that wants one. -/
theorem reachedThrough_of_reached {bare sashikoBare : String}
    (h : Reached sashikoBare (routedCandidates policy (positiveRouting policy
      (matchedLists policy incoming)) incoming author sashikoBare) bare) :
    (∃ cc ∈ policy.defaults.cc, bare = extractBareEmail cc) ∨
      ∃ list, policy.Matched incoming list ∧ listPositiveReview policy.defaults list ≠ .none ∧
        policy.ReachedThrough incoming author list bare := by
  have hspec := positiveSpec policy (matchedLists policy incoming)
  generalize positiveRouting policy (matchedLists policy incoming) = routing at h hspec
  have hall : ∀ l : String × MailingListPolicy, listPositiveReview policy.defaults l = .all →
      listPositiveReview policy.defaults l ≠ .none := fun l hl => hl ▸ nofun
  obtain ⟨addr, haddr, rfl, -⟩ := h
  rcases List.mem_append.mp haddr with haddr | hstatic
  · rcases List.mem_append.mp haddr with hauthor | hrelayed
    · unfold rawAuthor at hauthor
      split_ifs at hauthor with hinclude
      · obtain ⟨l, hl, hlevel, hreplies⟩ := hspec.author.mp (Bool.and_eq_true_iff.mp hinclude).1
        obtain ⟨l', hmatched, rfl⟩ := mem_matchedLists.mp hl
        rw [List.mem_singleton.mp hauthor]
        exact .inr ⟨l', hmatched, hlevel, .inl ⟨List.contains_iff_mem.mp hreplies, rfl⟩⟩
      · cases hauthor
    · obtain ⟨hmem, hrelays⟩ := List.mem_filter.mp hrelayed
      unfold relaysAddress at hrelays
      split_ifs at hrelays with hlist
      · rw [hspec.allLists, Bool.false_or, decide_eq_true_eq, hspec.allowed] at hrelays
        obtain ⟨l, hl, hlevel, hreplies, hbare⟩ := hrelays
        obtain ⟨l', hmatched, rfl⟩ := mem_matchedLists.mp hl
        exact .inr ⟨l', hmatched, hall _ hlevel,
          .inr (.inl ⟨List.contains_iff_mem.mp hreplies, hbare.symm⟩)⟩
      · obtain ⟨l, hl, hlevel, hreplies⟩ := hspec.recipients.mp (Bool.and_eq_true_iff.mp hrelays).1
        obtain ⟨l', hmatched, rfl⟩ := mem_matchedLists.mp hl
        exact .inr ⟨l', hmatched, hall _ hlevel, .inr (.inr (.inl
          ⟨List.contains_iff_mem.mp hreplies, addr, hmem, rfl, Bool.eq_false_iff.mpr hlist⟩))⟩
  · rcases List.mem_append.mp hstatic with hstatic | hdefault
    · obtain ⟨l, hl, hlevel, hcc⟩ := (hspec.staticCc addr).mp hstatic
      obtain ⟨l', hmatched, rfl⟩ := mem_matchedLists.mp hl
      exact .inr ⟨l', hmatched, hall _ hlevel, .inr (.inr (.inr ⟨addr, hcc, rfl⟩))⟩
    · exact .inl ⟨addr, hdefault, rfl⟩

/-! ### Without the lists of level `none` -/

theorem matched_withoutSilentLists {list : String × MailingListPolicy} :
    (policy.withoutSilentLists incoming).Matched incoming list ↔
      policy.Matched incoming list ∧ listPositiveReview policy.defaults list ≠ .none := by
  simp only [Matched, withoutSilentLists, List.mem_filter, Bool.not_eq_true',
    Bool.and_eq_false_iff, decide_eq_false_iff_not, List.any_eq_false, addressMatchesList,
    decide_eq_true_eq]
  constructor
  · rintro ⟨⟨hmem, hnone | hlevel⟩, addr, haddr, heq⟩
    · exact absurd heq (hnone addr haddr)
    · exact ⟨⟨hmem, addr, haddr, heq⟩, hlevel⟩
  · rintro ⟨⟨hmem, haddr⟩, hlevel⟩
    exact ⟨⟨hmem, .inr hlevel⟩, haddr⟩

theorem mem_matchedLists_withoutSilentLists {list : String × MailingListPolicy} :
    list ∈ matchedLists (policy.withoutSilentLists incoming) incoming ↔
      list ∈ matchedLists policy incoming ∧
        listPositiveReview policy.defaults list ≠ .none := by
  simp only [mem_matchedLists, matched_withoutSilentLists]
  constructor
  · rintro ⟨l, ⟨hmatched, hlevel⟩, rfl⟩
    exact ⟨⟨l, hmatched, rfl⟩, hlevel⟩
  · rintro ⟨⟨l, hmatched, rfl⟩, hlevel⟩
    exact ⟨l, ⟨hmatched, hlevel⟩, rfl⟩

theorem sameLists_withoutSilentLists (hknown : policy.SilentListsKnown incoming) :
    SameLists policy (policy.withoutSilentLists incoming) incoming := by
  refine ⟨fun addr haddr => Bool.eq_iff_iff.mpr ?_, rfl⟩
  rw [isMailingListAddress_eq_true, isMailingListAddress_eq_true]
  constructor
  · rintro (hconfigured | hlist)
    · obtain ⟨l, hl, hbare⟩ := List.mem_map.mp hconfigured
      by_cases hlevel : listPositiveReview policy.defaults l = .none
      · exact hbare ▸ (hknown l ⟨hl, addr, haddr, hbare.symm⟩ hlevel).symm
      · refine .inl (hbare ▸ List.mem_map.mpr ⟨l, List.mem_filter.mpr ⟨hl, ?_⟩, rfl⟩)
        simp [hlevel]
    · exact .inr hlist
  · rintro (hconfigured | hlist)
    · obtain ⟨l, hl, hbare⟩ := List.mem_map.mp hconfigured
      exact .inl (List.mem_map.mpr ⟨l, (List.mem_filter.mp hl).1, hbare⟩)
    · exact .inr hlist

theorem Sendable.withoutSilentLists
    (h : Sendable toLowercase policy incoming author sashikoAddress)
    (hne : matchedLists policy incoming ≠ [])
    (hne' : matchedLists (policy.withoutSilentLists incoming) incoming ≠ []) :
    Sendable toLowercase (policy.withoutSilentLists incoming) incoming author sashikoAddress := by
  obtain ⟨hauthor, hmute⟩ := h
  constructor
  · unfold isMutedAuthor at hauthor ⊢
    rw [Bool.or_eq_false_iff] at hauthor ⊢
    refine ⟨?_, hauthor.2⟩
    have hignored := hauthor.1
    unfold isIgnoredAuthor at hignored ⊢
    rw [List.any_eq_false] at hignored ⊢
    refine fun e he => hignored e ?_
    rcases List.mem_append.mp he with he | he
    · exact List.mem_append_left _ he
    · obtain ⟨l, hl, he⟩ := List.mem_flatMap.mp he
      exact List.mem_append_right _
        (List.mem_flatMap.mpr ⟨l, (List.mem_filter.mp hl).1, he⟩)
  · rw [listRouting, if_neg hne, (askedBy_foldl _ _).muted, List.any_eq_false] at hmute
    rw [listRouting, if_neg hne', (askedBy_foldl _ _).muted, List.any_eq_false]
    intro l hl
    rw [List.mem_mergeSort, mem_matchedLists_withoutSilentLists] at hl
    exact hmute l (List.mem_mergeSort.mpr hl.1)

theorem mem_resolvePositiveRecipients_withoutSilentLists
    (hsend : Sendable toLowercase policy (incomingTo ++ incomingCc) author sashikoAddress)
    (hne : matchedLists policy (incomingTo ++ incomingCc) ≠ [])
    (hall : (listRouting policy
      (matchedLists policy (incomingTo ++ incomingCc))).positiveReview = .all)
    (hknown : policy.SilentListsKnown (incomingTo ++ incomingCc)) (bare : String) :
    bare ∈ recipientBares (resolvePositiveRecipients toLowercase policy incomingTo incomingCc author
        sashikoAddress) ↔
      bare ∈ recipientBares (resolvePositiveRecipients toLowercase
        (policy.withoutSilentLists (incomingTo ++ incomingCc)) incomingTo incomingCc author
          sashikoAddress) := by
  obtain ⟨l, hl, hlevel⟩ := (positiveReview_listRouting hne).mp hall
  have hl' : l ∈ matchedLists (policy.withoutSilentLists (incomingTo ++ incomingCc))
      (incomingTo ++ incomingCc) :=
    mem_matchedLists_withoutSilentLists.mpr ⟨hl, hlevel ▸ nofun⟩
  have hne' := List.ne_nil_of_mem hl'
  have hsame := sameLists_withoutSilentLists hknown
  have hspec := positiveSpec policy (matchedLists policy (incomingTo ++ incomingCc))
  have hspec' := positiveSpec (policy.withoutSilentLists (incomingTo ++ incomingCc))
    (matchedLists (policy.withoutSilentLists (incomingTo ++ incomingCc)) (incomingTo ++ incomingCc))
  rw [mem_resolvePositiveRecipients hsend hne hall,
    mem_resolvePositiveRecipients (hsend.withoutSilentLists hne hne') hne'
      ((positiveReview_listRouting hne').mpr ⟨l, hl', hlevel⟩)]
  constructor
  · exact (hspec.narrower hspec' fun l hl hlevel =>
      mem_matchedLists_withoutSilentLists.mpr ⟨hl, hlevel⟩).reached hsame
  · exact (hspec'.narrower hspec fun l hl _ =>
      (mem_matchedLists_withoutSilentLists.mp hl).1).reached hsame.symm

theorem withoutSilentLists_unlisted (hnil : matchedLists policy incoming = []) :
    policy.withoutSilentLists incoming = policy := by
  have hunmatched : ∀ l ∈ policy.lists,
      (incoming.any (addressMatchesList · (extractBareEmail l.1))) = false := fun l hl => by
    rw [List.any_eq_false]
    intro addr haddr hmatches
    exact unlisted_of_matchedLists_nil hnil l ⟨hl, addr, haddr, of_decide_eq_true hmatches⟩
  rw [withoutSilentLists, List.filter_eq_self.mpr fun l hl => by rw [hunmatched l hl]; rfl]

end Resolved

/-- A positive review of level `all` goes to a part of those a review goes to, and leaving out the
lists that want none changes nothing about it. -/
structure PositiveSoundly (toLowercase : String → String) (policy : EmailPolicyConfig)
    (incomingTo incomingCc : List String) (author sashikoAddress : String) : Prop where
  subset : ∀ toAddresses ccAddresses,
    resolveRecipients toLowercase policy incomingTo incomingCc author sashikoAddress =
      .send toAddresses ccAddresses .all →
        ∀ bare ∈ recipientBares (resolvePositiveRecipients toLowercase policy incomingTo incomingCc
          author sashikoAddress), bare ∈ (toAddresses ++ ccAddresses).map extractBareEmail
  silent : ∀ toAddresses ccAddresses,
    resolveRecipients toLowercase policy incomingTo incomingCc author sashikoAddress =
      .send toAddresses ccAddresses .all →
        ∀ bare, bare ∈ recipientBares (resolvePositiveRecipients toLowercase policy incomingTo
            incomingCc author sashikoAddress) ↔
          bare ∈ recipientBares (resolvePositiveRecipients toLowercase
            (policy.withoutSilentLists (incomingTo ++ incomingCc)) incomingTo incomingCc author
              sashikoAddress)

/-- A positive review goes to a part of those a review goes to, and to them through the defaults or
a list that wants it; the other lists matter only for which addresses are mailing lists. -/
theorem positiveRecipients_narrow (toLowercase : String → String) (policy : EmailPolicyConfig)
    (incomingTo incomingCc : List String) (author sashikoAddress : String)
    (toAddresses ccAddresses : List String)
    (h : resolveRecipients toLowercase policy incomingTo incomingCc author sashikoAddress =
      .send toAddresses ccAddresses .all) :
    (∀ bare ∈ recipientBares (resolvePositiveRecipients toLowercase policy incomingTo incomingCc
        author sashikoAddress), bare ∈ (toAddresses ++ ccAddresses).map extractBareEmail) ∧
      ((∃ list, policy.Matched (incomingTo ++ incomingCc) list) →
        ∀ bare ∈ recipientBares (resolvePositiveRecipients toLowercase policy incomingTo incomingCc
          author sashikoAddress), (∃ cc ∈ policy.defaults.cc, bare = extractBareEmail cc) ∨
            ∃ list, policy.Matched (incomingTo ++ incomingCc) list ∧
              listPositiveReview policy.defaults list ≠ .none ∧
              policy.ReachedThrough (incomingTo ++ incomingCc) author list bare) ∧
      (policy.SilentListsKnown (incomingTo ++ incomingCc) →
        ∀ bare, bare ∈ recipientBares (resolvePositiveRecipients toLowercase policy incomingTo
            incomingCc author sashikoAddress) ↔
          bare ∈ recipientBares (resolvePositiveRecipients toLowercase
            (policy.withoutSilentLists (incomingTo ++ incomingCc)) incomingTo incomingCc author
              sashikoAddress)) := by
  by_cases hnil : matchedLists policy (incomingTo ++ incomingCc) = []
  · have hpositive : resolvePositiveRecipients toLowercase policy incomingTo incomingCc author
        sashikoAddress = some (toAddresses, ccAddresses) := by
      rw [resolvePositiveRecipients, h]
      exact if_pos hnil
    refine ⟨fun bare hbare => ?_, ?_, ?_⟩
    · rwa [hpositive] at hbare
    · rintro ⟨list, hlist⟩
      exact absurd hlist (unlisted_of_matchedLists_nil hnil list)
    · intro _ bare
      rw [withoutSilentLists_unlisted hnil]
  · have hsend := sendable_of_send h
    have hroute := h
    rw [resolveRecipients_sendable hsend] at hroute
    have hall := (routeRecipients_level hroute).symm
    refine ⟨fun bare hbare => ?_, fun _ bare hbare => ?_,
      mem_resolvePositiveRecipients_withoutSilentLists hsend hnil hall⟩
    · have hreached := (mem_resolvePositiveRecipients hsend hnil hall).mp hbare
      have hwide := mem_routeRecipients.mpr
        ((narrower_listRouting hnil).reached (.refl _ _) hreached)
      rwa [hroute] at hwide
    · exact reachedThrough_of_reached ((mem_resolvePositiveRecipients hsend hnil hall).mp hbare)

/-! ### A list that is known by its configuration only -/

def relayingList : MailingListPolicy :=
  { MailingListPolicy.default with
    replyTo := some [.recipients]
    positiveReview := some .all }

/-- A list that relays positive reviews to the addressees, and one of level `none` on a host of its
own. -/
def teamPolicy : EmailPolicyConfig where
  defaults := .default
  lists := [("dev@lists.linux.dev", relayingList), ("team@example.com", .default)]

def teamIncoming : List String := ["dev@lists.linux.dev", "team@example.com", "x@example.org"]

theorem unknown_example_addresses : ∀ bare ∈ ["x@example.org", "team@example.com"],
    knownMailingListAddresses.any (eqIgnoreAsciiCase · bare) = false := by
  decide

theorem unknown_example_domains :
    ∀ domain ∈ [['e', 'x', 'a', 'm', 'p', 'l', 'e', '.', 'o', 'r', 'g'],
        ['e', 'x', 'a', 'm', 'p', 'l', 'e', '.', 'c', 'o', 'm']],
      knownMailingListDomains.any (eqIgnoreAsciiCase · (String.ofList domain)) = false := by
  decide

theorem isKnownMailingListBare_example : ∀ bare ∈ ["x@example.org", "team@example.com"],
    isKnownMailingListBare bare = false := by
  have haddresses := unknown_example_addresses
  have hdomains := unknown_example_domains
  simp only [List.forall_mem_cons, List.not_mem_nil, false_imp_iff, implies_true, and_true]
    at haddresses hdomains ⊢
  simp [isKnownMailingListBare, afterFirst, haddresses, hdomains]

theorem extractBareEmail_team : ∀ addr ∈ teamIncoming ++ ["a@example.org", "bot@example.org"],
    extractBareEmail addr = addr := by
  decide +kernel

theorem resolveRecipients_teamPolicy :
    resolveRecipients asciiLower teamPolicy teamIncoming [] "a@example.org" "bot@example.org" =
      .send ["x@example.org"] [] .all := by
  have hbare := extractBareEmail_team
  have hunknown := isKnownMailingListBare_example
  simp only [teamIncoming, List.cons_append, List.nil_append, List.forall_mem_cons,
    List.not_mem_nil, false_imp_iff, implies_true, and_true] at hbare hunknown
  obtain ⟨hdev, hteam, hx, ha, hbot⟩ := hbare
  have hmatched : matchedLists teamPolicy (teamIncoming ++ []) =
      [("dev@lists.linux.dev", relayingList), ("team@example.com", .default)] := by
    simp [matchedLists, teamPolicy, teamIncoming, addressMatchesList, hdev, hteam]
  have hmuted : isMutedAuthor asciiLower teamPolicy "a@example.org" "bot@example.org" = false := by
    decide +kernel
  have hkept : isSkipped "bot@example.org" [] "x@example.org" = false := by decide +kernel
  have htrim : rustTrim "x@example.org" = "x@example.org" := by decide
  rw [resolveRecipients, hmatched, hbot, hmuted, listRouting, if_neg (List.cons_ne_nil _ _),
    List.mergeSort_of_pairwise (by decide)]
  simp [Routing.addList, noRouting, relayingList, teamPolicy, MailingListPolicy.default,
    DefaultListPolicy.default, PositiveReviewPolicy.rank, routeRecipients, relaysRecipients,
    tooManyIndividuals, maxRelayedRecipients, isIndividual, isMailingListAddress, configuredLists,
    List.eraseDups_cons, relaysAddress, rawAuthor, routingStaticCc, dedupAddresses, dedupStep,
    sendAction, teamIncoming, hdev, hteam, hx, hunknown.1, hkept, htrim]

theorem positiveRecipients_narrow_teamPolicy :
    resolveRecipients asciiLower teamPolicy teamIncoming [] "a@example.org" "bot@example.org" =
        .send ["x@example.org"] [] .all ∧
      ∀ bare ∈ recipientBares (resolvePositiveRecipients asciiLower teamPolicy teamIncoming []
          "a@example.org" "bot@example.org"),
        bare ∈ (["x@example.org"] ++ []).map extractBareEmail :=
  ⟨resolveRecipients_teamPolicy, (positiveRecipients_narrow asciiLower teamPolicy teamIncoming []
    "a@example.org" "bot@example.org" ["x@example.org"] [] resolveRecipients_teamPolicy).1⟩

/-- Once its configuration is gone, the address of the list is that of an individual, to whom the
review is relayed. -/
theorem teamPolicy_not_positiveSoundly :
    ¬PositiveSoundly asciiLower teamPolicy teamIncoming [] "a@example.org" "bot@example.org" := by
  intro h
  have hbare := extractBareEmail_team
  have hunknown := isKnownMailingListBare_example
  simp only [teamIncoming, List.cons_append, List.nil_append, List.forall_mem_cons,
    List.not_mem_nil, false_imp_iff, implies_true, and_true] at hbare hunknown
  obtain ⟨hdev, hteam, hx, -, hbot⟩ := hbare
  have hsame := h.silent _ _ resolveRecipients_teamPolicy "team@example.com"
  have hpolicy : teamPolicy.withoutSilentLists (teamIncoming ++ []) =
      ⟨.default, [("dev@lists.linux.dev", relayingList)]⟩ := by
    simp [EmailPolicyConfig.withoutSilentLists, teamPolicy, teamIncoming, addressMatchesList,
      listPositiveReview, relayingList, MailingListPolicy.default, DefaultListPolicy.default,
      hdev, hteam]
  have hmatched : matchedLists ⟨.default, [("dev@lists.linux.dev", relayingList)]⟩
      (teamIncoming ++ []) = [("dev@lists.linux.dev", relayingList)] := by
    simp [matchedLists, teamIncoming, addressMatchesList, hdev]
  have hmuted : isMutedAuthor asciiLower ⟨.default, [("dev@lists.linux.dev", relayingList)]⟩
      "a@example.org" "bot@example.org" = false := by
    decide +kernel
  have hkept : isSkipped "bot@example.org" [] "team@example.com" = false := by decide +kernel
  have hrelayed : "team@example.com" ∈ recipientBares (resolvePositiveRecipients asciiLower
      (teamPolicy.withoutSilentLists (teamIncoming ++ [])) teamIncoming [] "a@example.org"
        "bot@example.org") := by
    rw [hpolicy, mem_resolvePositiveRecipients ⟨by rw [hbot]; exact hmuted, ?_⟩, hmatched,
      positiveRouting, List.mergeSort_singleton, hbot]
    · refine ⟨"team@example.com", ?_, hteam, hkept⟩
      simp [routedCandidates, Routing.addPositiveList, listPositiveReview, listReplies, noRouting,
        relayingList, MailingListPolicy.default, DefaultListPolicy.default, relaysRecipients,
        tooManyIndividuals, maxRelayedRecipients, isIndividual, isMailingListAddress,
        configuredLists, List.eraseDups_cons, relaysAddress, rawAuthor, routingStaticCc,
        teamIncoming, hdev, hteam, hx, hunknown]
    · rw [hmatched]; exact List.cons_ne_nil _ _
    · rw [hmatched, listRouting, if_neg (List.cons_ne_nil _ _), List.mergeSort_singleton]; rfl
    · rw [hmatched, listRouting, if_neg (List.cons_ne_nil _ _), List.mergeSort_singleton]; rfl
  have hsubset := h.subset _ _ resolveRecipients_teamPolicy _ (hsame.mpr hrelayed)
  simp [hx] at hsubset

end Sashiko
