import Sashiko.Email.Readings

/-! Two mails that differ only in display names are routed alike, as long as no name opens an
angle bracket. -/

namespace Sashiko

open EmailRouter

/-- An addressee as a mail client writes it. -/
structure Mailbox where
  name : Option String
  address : String
  plain : IsPlainAddress address

namespace Mailbox

def render (m : Mailbox) : String :=
  match m.name with
  | some name => formatMailbox name m.address
  | none => m.address

/-- The bot's address does not occur in what the display name adds to the entry. -/
def OmitsBot (sashikoBare : String) (m : Mailbox) : Prop :=
  containsText (asciiLower m.render) sashikoBare = true →
    containsText (asciiLower (rustTrim m.address)) sashikoBare = true

instance (sashikoBare : String) (m : Mailbox) : Decidable (m.OmitsBot sashikoBare) :=
  inferInstanceAs (Decidable (_ → _))

def NamedBy (allowed : String → String → Prop) (m : Mailbox) : Prop :=
  ∀ name, m.name = some name → allowed name m.address

def bare (m : Mailbox) : Mailbox := { m with name := none }

end Mailbox

/-- The same outcome, with the same addresses read from the recipients. -/
def SameDecision : Action → Action → Prop
  | .mute, .mute => True
  | .send to₁ cc₁ positive₁, .send to₂ cc₂ positive₂ =>
    positive₁ = positive₂ ∧
      (∀ a, a ∈ to₁.map extractBareEmail ↔ a ∈ to₂.map extractBareEmail) ∧
      ∀ a, a ∈ cc₁.map extractBareEmail ↔ a ∈ cc₂.map extractBareEmail
  | _, _ => False

theorem sameDecision_of_bare {a b : Action} (h : a.bare = b.bare) : SameDecision a b := by
  rcases a with _ | ⟨to₁, cc₁, positive₁⟩ <;> rcases b with _ | ⟨to₂, cc₂, positive₂⟩
  · trivial
  · cases h
  · cases h
  · obtain ⟨hpositive, hto, hcc⟩ : positive₁ = positive₂ ∧
        to₁.map extractBareEmail = to₂.map extractBareEmail ∧
        cc₁.map extractBareEmail = cc₂.map extractBareEmail := by
      simpa [Action.bare] using h
    exact ⟨hpositive, fun a => by rw [hto], fun a => by rw [hcc]⟩

/-- The routing of a mail to these addressees, and the Patchwork targets it reaches. -/
structure SameRouting (toLowercase : String → String) (policy : EmailPolicyConfig)
    (patchAuthor sashikoAddress : String) (to₁ cc₁ to₂ cc₂ : List Mailbox) : Prop where
  decision : SameDecision
    (resolveRecipients toLowercase policy (to₁.map Mailbox.render) (cc₁.map Mailbox.render)
      patchAuthor sashikoAddress)
    (resolveRecipients toLowercase policy (to₂.map Mailbox.render) (cc₂.map Mailbox.render)
      patchAuthor sashikoAddress)
  patchwork :
    resolvePatchwork toLowercase policy (to₁.map Mailbox.render) (cc₁.map Mailbox.render) =
      resolvePatchwork toLowercase policy (to₂.map Mailbox.render) (cc₂.map Mailbox.render)

theorem SameDecision.symm {a b : Action} (h : SameDecision a b) : SameDecision b a := by
  rcases a with _ | ⟨to₁, cc₁, positive₁⟩ <;> rcases b with _ | ⟨to₂, cc₂, positive₂⟩
  · exact h
  · exact h
  · exact h
  · exact ⟨h.1.symm, fun a => (h.2.1 a).symm, fun a => (h.2.2 a).symm⟩

theorem SameRouting.symm {toLowercase : String → String} {policy : EmailPolicyConfig}
    {patchAuthor sashikoAddress : String} {to₁ cc₁ to₂ cc₂ : List Mailbox}
    (h : SameRouting toLowercase policy patchAuthor sashikoAddress to₁ cc₁ to₂ cc₂) :
    SameRouting toLowercase policy patchAuthor sashikoAddress to₂ cc₂ to₁ cc₁ :=
  ⟨h.decision.symm, h.patchwork.symm⟩

/-! ### Harmless names are not seen -/

theorem containsText_of_infix {s t : List Char} (h : s <:+: t) (part : String)
    (hs : containsText (String.ofList s) part = true) :
    containsText (String.ofList t) part = true := by
  unfold containsText at *
  rw [String.toList_ofList, List.any_eq_true] at *
  obtain ⟨tail, htail, hpre⟩ := hs
  obtain ⟨a, b, rfl⟩ := h
  have hsuffix : tail <:+ s := (List.mem_tails _ _).mp htail
  refine ⟨tail ++ b, (List.mem_tails _ _).mpr ?_, ?_⟩
  · obtain ⟨c, rfl⟩ := hsuffix
    exact ⟨a ++ c, by simp⟩
  · rw [List.isPrefixOf_iff_prefix] at *
    exact hpre.trans (List.prefix_append _ _)

theorem containsText_empty (s : String) : containsText s "" = true := by
  unfold containsText
  rw [List.any_eq_true]
  exact ⟨s.toList, (List.mem_tails _ _).mpr (List.suffix_refl _), by rfl⟩

section Blind

attribute [local irreducible] extractBareEmail containsText

theorem address_infix_render (m : Mailbox) :
    (rustTrim m.address).toList <:+: m.render.toList := by
  rw [toList_rustTrim]
  refine (trimChars_within _).trans ?_
  unfold Mailbox.render
  split
  · rw [toList_formatMailbox]
    exact ⟨_, _, rfl⟩
  · exact List.infix_rfl

theorem asciiLower_within {s t : String} (h : s.toList <:+: t.toList) :
    (s.toList.map Char.toLower) <:+: (t.toList.map Char.toLower) := h.map _

theorem extractBareEmail_render {m : Mailbox} (h : m.NamedBy HarmlessName) :
    extractBareEmail m.render = extractBareEmail m.address := by
  unfold Mailbox.render
  split
  · rename_i name hname
    exact (reading_iff m.plain).mpr (h name hname)
  · rfl

theorem reading_render {sashikoBare : String} {m : Mailbox} (h : m.NamedBy HarmlessName)
    (homits : m.OmitsBot sashikoBare) :
    reading sashikoBare m.render = reading sashikoBare m.address := by
  rw [reading, reading, extractBareEmail_render h]
  refine congrArg (Prod.mk _) ?_
  by_cases hname : m.name = none
  · rw [Mailbox.render, hname]
  · have htrim : rustTrim m.render = m.render := by
      obtain ⟨name, hname⟩ := Option.ne_none_iff_exists'.mp hname
      rw [Mailbox.render, hname]
      exact rustTrim_formatMailbox name m.address
    rw [htrim, Bool.eq_iff_iff]
    exact ⟨homits, containsText_of_infix (asciiLower_within (address_infix_render m)) sashikoBare⟩

theorem readings_of_addresses {sashikoBare : String} {ms₁ ms₂ : List Mailbox}
    (hnames : ∀ m ∈ ms₁ ++ ms₂, m.NamedBy HarmlessName)
    (homits : ∀ m ∈ ms₁ ++ ms₂, m.OmitsBot sashikoBare)
    (haddr : ms₁.map (·.address) = ms₂.map (·.address)) :
    (ms₁.map Mailbox.render).map (reading sashikoBare) =
      (ms₂.map Mailbox.render).map (reading sashikoBare) := by
  have hside : ∀ ms : List Mailbox, (∀ m ∈ ms, m.NamedBy HarmlessName) →
      (∀ m ∈ ms, m.OmitsBot sashikoBare) →
      (ms.map Mailbox.render).map (reading sashikoBare) =
        (ms.map (·.address)).map (reading sashikoBare) := by
    intro ms hn ho
    rw [List.map_map, List.map_map]
    refine List.map_congr_left fun m hm => ?_
    rw [Function.comp_apply, Function.comp_apply, reading_render (hn m hm) (ho m hm)]
  rw [hside ms₁ (fun m hm => hnames m (List.mem_append_left _ hm))
      (fun m hm => homits m (List.mem_append_left _ hm)),
    hside ms₂ (fun m hm => hnames m (List.mem_append_right _ hm))
      (fun m hm => homits m (List.mem_append_right _ hm)), haddr]

/-! ### Any other name can be -/

/-- A policy that mutes one list and otherwise sends to everybody. -/
def mutingPolicy (list : String) : EmailPolicyConfig where
  defaults := { DefaultListPolicy.default with replyTo := [.list, .recipients] }
  lists := [(list, { MailingListPolicy.default with muteAll := some true })]

theorem resolve_muted {list addr : String} (toLowercase : String → String)
    (h : extractBareEmail addr = extractBareEmail list) (patchAuthor sashikoAddress : String) :
    resolveRecipients toLowercase (mutingPolicy list) [addr] [] patchAuthor sashikoAddress =
      .mute := by
  have hmatched : matchedLists (mutingPolicy list) ([addr] ++ []) =
      [(extractBareEmail list, { MailingListPolicy.default with muteAll := some true })] := by
    simp [matchedLists, mutingPolicy, addressMatchesList, h]
  have hmute : (listRouting (mutingPolicy list)
      [(extractBareEmail list, { MailingListPolicy.default with muteAll := some true })]).muteAll =
        true := by
    simp [listRouting, Routing.addList, noRouting]
  unfold resolveRecipients
  rw [hmatched, hmute, if_pos rfl, ite_self]

def everybody : Routing := ⟨false, false, true, true, [], .none, []⟩

theorem not_tooMany_single (addr : String) (configured staticCc : List String) (bot : String)
    (authorBare : Option String) :
    tooManyIndividuals [addr] configured bot authorBare staticCc = false := by
  unfold tooManyIndividuals
  rw [List.filter_singleton]
  cases isIndividual configured staticCc bot authorBare addr <;> rfl

theorem routeEverybody_sent {addr sashikoBare : String} (policy : EmailPolicyConfig)
    (patchAuthor : String) (hskip : isSkipped sashikoBare [] addr = false) :
    routeRecipients policy everybody [addr] [] patchAuthor sashikoBare ≠ .mute := by
  have hrelays : relaysRecipients policy everybody ([addr] ++ []) patchAuthor sashikoBare =
      true := by
    rw [relaysRecipients, List.append_nil, not_tooMany_single]
    rfl
  have hfinal : dedupAddresses (rawAuthor everybody patchAuthor ++
      [addr].filter (relaysAddress policy everybody true)) sashikoBare [] =
        [(extractBareEmail (rustTrim addr), rustTrim addr)] := by
    have hrelay : relaysAddress policy everybody true addr = true := by
      simp [relaysAddress, everybody]
    have hraw : rawAuthor everybody patchAuthor = [] := rfl
    rw [hraw, List.nil_append, List.filter_singleton, hrelay]
    simp [dedupAddresses, dedupStep, hskip]
  simp only [routeRecipients, hrelays, hfinal, sendAction]
  rw [if_neg (by simp)]
  exact Action.noConfusion

theorem mute_eq_of_same {b : Action} (h : SameDecision .mute b) : b = .mute := by
  rcases b with _ | ⟨to₁, cc₁, positive₁⟩
  · rfl
  · cases h

theorem not_sameRouting_of_muted {toLowercase : String → String} {policy : EmailPolicyConfig}
    {patchAuthor sashikoAddress : String} {m₁ m₂ : Mailbox}
    (h₁ : resolveRecipients toLowercase policy [m₁.render] [] patchAuthor sashikoAddress = .mute)
    (h₂ : resolveRecipients toLowercase policy [m₂.render] [] patchAuthor sashikoAddress ≠ .mute) :
    ¬SameRouting toLowercase policy patchAuthor sashikoAddress [m₁] [] [m₂] [] := by
  intro h
  have hdecision := h.decision
  simp only [List.map_cons, List.map_nil, h₁] at hdecision
  exact h₂ (mute_eq_of_same hdecision)

theorem resolve_sent {toLowercase : String → String} {list addr patchAuthor sashikoAddress : String}
    (h : extractBareEmail addr ≠ extractBareEmail list)
    (hmuted : isMutedAuthor toLowercase (mutingPolicy list) patchAuthor
      (extractBareEmail sashikoAddress) = false)
    (hskip : isSkipped (extractBareEmail sashikoAddress) [] addr = false) :
    resolveRecipients toLowercase (mutingPolicy list) [addr] [] patchAuthor sashikoAddress ≠
      .mute := by
  have hmatched : matchedLists (mutingPolicy list) ([addr] ++ []) = [] := by
    simp [matchedLists, mutingPolicy, addressMatchesList, h]
  have hrouting : listRouting (mutingPolicy list) [] = everybody := rfl
  unfold resolveRecipients
  rw [hmatched, hrouting, hmuted, if_neg (by decide), if_neg (by decide)]
  exact routeEverybody_sent _ patchAuthor hskip

/-- Without an author and a bot nothing is muted or skipped but blank addresses. -/
theorem resolve_sent_unnamed {list addr : String} (toLowercase : String → String)
    (h : extractBareEmail addr ≠ extractBareEmail list) (hne : extractBareEmail addr ≠ "") :
    resolveRecipients toLowercase (mutingPolicy list) [addr] [] "" "" ≠ .mute := by
  have hblank : rustTrim addr ≠ "" := fun hb => hne (extractBareEmail_of_blank hb)
  refine resolve_sent h ?_ ?_
  · simp [isMutedAuthor, isIgnoredAuthor, mutingPolicy, DefaultListPolicy.default,
      MailingListPolicy.default, extractBareEmail_empty]
  · simp [isSkipped, hblank, extractBareEmail_rustTrim, hne, extractBareEmail_empty]

/-! ### The routing of mails that differ in display names -/

/-- For a set of display names, a name selects no policy in any mail whose names are in the set,
exactly when all names in the set are harmless. -/
theorem displayNames_blind_iff (toLowercase : String → String)
    (allowed : String → String → Prop) :
    (∀ (policy : EmailPolicyConfig) (patchAuthor sashikoAddress : String)
      (to₁ cc₁ to₂ cc₂ : List Mailbox),
      (∀ m ∈ (to₁ ++ to₂) ++ (cc₁ ++ cc₂), m.NamedBy allowed) →
      (∀ m ∈ (to₁ ++ to₂) ++ (cc₁ ++ cc₂), m.OmitsBot (extractBareEmail sashikoAddress)) →
      to₁.map (·.address) = to₂.map (·.address) → cc₁.map (·.address) = cc₂.map (·.address) →
      SameRouting toLowercase policy patchAuthor sashikoAddress to₁ cc₁ to₂ cc₂) ↔
    ∀ name address, IsPlainAddress address → allowed name address → HarmlessName name address := by
  constructor
  · intro hblind name address hplain hallowed
    rw [← reading_iff hplain]
    by_contra hread
    have hroute : ∀ list, SameRouting toLowercase (mutingPolicy list) "" ""
        [⟨some name, address, hplain⟩] [] [⟨none, address, hplain⟩] [] := by
      intro list
      refine hblind (mutingPolicy list) "" "" _ [] _ [] (fun m hm => ?_) (fun m hm => ?_) rfl rfl
      · intro n hn
        rcases List.mem_cons.mp hm with rfl | hm
        · exact Option.some.inj hn ▸ hallowed
        · obtain rfl := List.mem_singleton.mp hm
          cases hn
      · exact fun _ => extractBareEmail_empty.symm ▸ containsText_empty _
    have hdiffer : extractBareEmail (Mailbox.render ⟨some name, address, hplain⟩) ≠
        extractBareEmail (Mailbox.render ⟨none, address, hplain⟩) := hread
    by_cases hempty : extractBareEmail (Mailbox.render ⟨none, address, hplain⟩) = ""
    · exact not_sameRouting_of_muted (resolve_muted toLowercase rfl "" "")
        (resolve_sent_unnamed toLowercase hdiffer fun h => hdiffer (h.trans hempty.symm))
        (hroute address).symm
    · exact not_sameRouting_of_muted (resolve_muted toLowercase rfl "" "")
        (resolve_sent_unnamed toLowercase hdiffer.symm hempty) (hroute (formatMailbox name address))
  · intro hharmless policy patchAuthor sashikoAddress to₁ cc₁ to₂ cc₂ hnames homits hto hcc
    have hnamed : ∀ m ∈ (to₁ ++ to₂) ++ (cc₁ ++ cc₂), m.NamedBy HarmlessName :=
      fun m hm name hname => hharmless name m.address m.plain (hnames m hm name hname)
    have hreadTo := readings_of_addresses
      (fun m hm => hnamed m (List.mem_append_left _ hm))
      (fun m hm => homits m (List.mem_append_left _ hm)) hto
    have hreadCc := readings_of_addresses
      (fun m hm => hnamed m (List.mem_append_right _ hm))
      (fun m hm => homits m (List.mem_append_right _ hm)) hcc
    exact ⟨sameDecision_of_bare (resolveRecipients_congr hreadTo hreadCc toLowercase policy
      patchAuthor), resolvePatchwork_congr hreadTo hreadCc toLowercase policy⟩

end Blind

/-- A display name that brackets the address of a list. -/
def listInName : Mailbox := ⟨some "linux-mm <linux-mm@kvack.org>", "alice@example.org", by decide⟩

theorem listInName_mutes :
    (∀ m ∈ [listInName, listInName.bare], m.OmitsBot (extractBareEmail "bot@sashiko.dev")) ∧
    ¬SameRouting asciiLower (mutingPolicy "linux-mm@kvack.org") "Bob <bob@example.org>"
      "bot@sashiko.dev" [listInName] [] [listInName.bare] [] := by
  have hmuted := resolve_muted asciiLower
    (by decide : extractBareEmail listInName.render = extractBareEmail "linux-mm@kvack.org")
    "Bob <bob@example.org>" "bot@sashiko.dev"
  exact ⟨by decide, not_sameRouting_of_muted hmuted
    (resolve_sent (by decide) (by decide) (by decide))⟩

end Sashiko
