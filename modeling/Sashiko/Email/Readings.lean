import Sashiko.Email.DisplayNames
import Mathlib.Data.List.Infix

/-! Routing sees of an addressee the address read from it and whether the bot is mentioned, and
nothing else. -/

namespace Sashiko

open EmailRouter

/-- What routing sees of an entry. -/
def reading (sashikoBare addr : String) : String × Bool :=
  (extractBareEmail addr, containsText (asciiLower (rustTrim addr)) sashikoBare)

theorem extractBareEmail_rustTrim (addr : String) :
    extractBareEmail (rustTrim addr) = extractBareEmail addr := by
  rw [extractBareEmail, extractBareEmail, rustTrim_idempotent]

theorem extractBareEmail_empty : extractBareEmail "" = "" := by decide

theorem extractBareEmail_of_blank {addr : String} (h : rustTrim addr = "") :
    extractBareEmail addr = "" := by
  rw [extractBareEmail, h]
  rfl

-- a comparison of two readings never needs to look into how they come about
attribute [local irreducible] extractBareEmail containsText

def skipsReading (sashikoBare : String) (excludeBare : List String) (r : String × Bool) : Bool :=
  r.1 = "" || (sashikoBare ≠ "" && (r.1 = sashikoBare || r.2)) || r.1 ∈ excludeBare

theorem isSkipped_eq (sashikoBare : String) (excludeBare : List String) (addr : String) :
    isSkipped sashikoBare excludeBare addr =
      skipsReading sashikoBare excludeBare (reading sashikoBare addr) := by
  unfold isSkipped skipsReading reading
  rw [extractBareEmail_rustTrim]
  by_cases hblank : rustTrim addr = ""
  · simp [hblank, extractBareEmail_of_blank hblank]
  · simp [hblank]

/-! ### Removing duplicates -/

section Dedup

variable {sashikoBare : String} {excludeBare : List String}

def keyStep (sashikoBare : String) (excludeBare : List String) (keys : List String)
    (r : String × Bool) : List String :=
  if skipsReading sashikoBare excludeBare r then keys
  else if r.1 ∈ keys then keys
  else keys ++ [r.1]

/-- Every result stands under the address read from it. -/
def KeyedByReading (result : List (String × String)) : Prop :=
  ∀ r ∈ result, extractBareEmail r.2 = r.1

theorem KeyedByReading.dedupStep {result : List (String × String)} (h : KeyedByReading result)
    (addr : String) : KeyedByReading (dedupStep sashikoBare excludeBare result addr) := by
  unfold EmailRouter.dedupStep
  split_ifs
  · exact h
  · intro r hr
    obtain ⟨r₀, hr₀, rfl⟩ := List.mem_map.mp hr
    split_ifs with hreplace
    · rw [extractBareEmail_rustTrim, hreplace.1, extractBareEmail_rustTrim]
    · exact h r₀ hr₀
  · intro r hr
    rcases List.mem_append.mp hr with hr | hr
    · exact h r hr
    · obtain rfl := List.mem_singleton.mp hr
      dsimp only

theorem keys_dedupStep (result : List (String × String)) (addr : String) :
    (dedupStep sashikoBare excludeBare result addr).map (·.1) =
      keyStep sashikoBare excludeBare (result.map (·.1)) (reading sashikoBare addr) := by
  unfold dedupStep keyStep
  rw [isSkipped_eq]
  have hread : (reading sashikoBare addr).1 = extractBareEmail (rustTrim addr) := by
    rw [reading, extractBareEmail_rustTrim]
  rw [hread]
  by_cases hskip : skipsReading sashikoBare excludeBare (reading sashikoBare addr) = true
  · rw [if_pos hskip, if_pos hskip]
  · rw [if_neg hskip, if_neg hskip]
    by_cases hmem : extractBareEmail (rustTrim addr) ∈ result.map (·.1)
    · rw [if_pos hmem, if_pos hmem, List.map_map]
      refine List.map_congr_left fun r _ => ?_
      rw [Function.comp_apply, apply_ite Prod.fst, ite_self]
    · rw [if_neg hmem, if_neg hmem, List.map_append, List.map_singleton]

theorem foldl_dedupStep (candidates : List String) :
    ∀ result, KeyedByReading result →
      KeyedByReading (candidates.foldl (dedupStep sashikoBare excludeBare) result) ∧
      (candidates.foldl (dedupStep sashikoBare excludeBare) result).map (·.1) =
        (candidates.map (reading sashikoBare)).foldl (keyStep sashikoBare excludeBare)
          (result.map (·.1)) := by
  induction candidates with
  | nil => exact fun result h => ⟨h, rfl⟩
  | cons addr candidates ih =>
    intro result h
    obtain ⟨hkeyed, hkeys⟩ := ih _ (h.dedupStep addr)
    rw [keys_dedupStep] at hkeys
    rw [List.map_cons, List.foldl_cons, List.foldl_cons]
    exact ⟨hkeyed, hkeys⟩

theorem texts_dedupAddresses (candidates : List String) :
    ((dedupAddresses candidates sashikoBare excludeBare).map (·.2)).map extractBareEmail =
      (dedupAddresses candidates sashikoBare excludeBare).map (·.1) := by
  have hkeyed : KeyedByReading (dedupAddresses candidates sashikoBare excludeBare) :=
    (foldl_dedupStep candidates [] (fun _ hr => absurd hr List.not_mem_nil)).1
  rw [List.map_map]
  refine List.map_congr_left fun r hr => ?_
  rw [Function.comp_apply, hkeyed r hr]

theorem keys_dedupAddresses (candidates : List String) :
    (dedupAddresses candidates sashikoBare excludeBare).map (·.1) =
      (candidates.map (reading sashikoBare)).foldl (keyStep sashikoBare excludeBare) [] :=
  (foldl_dedupStep candidates [] (fun _ hr => absurd hr List.not_mem_nil)).2

end Dedup

/-! ### Two lists of addressees that read the same -/

/-- The outcome, with the addresses read from the recipients in place of their texts. -/
def Action.bare : Action → Option (PositiveReviewPolicy × List String × List String)
  | .mute => none
  | .send toAddresses ccAddresses positiveReview =>
    some (positiveReview, toAddresses.map extractBareEmail, ccAddresses.map extractBareEmail)

theorem bare_sendAction {sashikoBare : String} {excludeTo excludeCc candidatesTo candidatesCc :
    List String} (positiveReview : PositiveReviewPolicy) :
    (sendAction (dedupAddresses candidatesTo sashikoBare excludeTo)
      (dedupAddresses candidatesCc sashikoBare excludeCc) positiveReview).bare =
    if (dedupAddresses candidatesTo sashikoBare excludeTo).map (·.1) = [] ∧
        (dedupAddresses candidatesCc sashikoBare excludeCc).map (·.1) = [] then none
    else some (positiveReview, (dedupAddresses candidatesTo sashikoBare excludeTo).map (·.1),
      (dedupAddresses candidatesCc sashikoBare excludeCc).map (·.1)) := by
  unfold sendAction
  simp only [List.map_eq_nil_iff]
  split_ifs
  · rfl
  · rw [Action.bare, texts_dedupAddresses, texts_dedupAddresses]

section SameReadings

variable {sashikoBare : String} {xs ys : List String}

theorem any_of_readings (h : xs.map (reading sashikoBare) = ys.map (reading sashikoBare))
    (p : String → Bool) :
    (xs.any fun addr => p (extractBareEmail addr)) =
      ys.any fun addr => p (extractBareEmail addr) := by
  have hany : ∀ zs : List String, (zs.any fun addr => p (extractBareEmail addr)) =
      (zs.map (reading sashikoBare)).any fun r => p r.1 := fun zs => by
    rw [List.any_map]
    rfl
  rw [hany, hany, h]

theorem filter_readings (h : xs.map (reading sashikoBare) = ys.map (reading sashikoBare))
    (p : String → Bool) :
    (xs.filter fun addr => p (extractBareEmail addr)).map (reading sashikoBare) =
      (ys.filter fun addr => p (extractBareEmail addr)).map (reading sashikoBare) := by
  have hfilter : ∀ zs : List String,
      (zs.filter fun addr => p (extractBareEmail addr)).map (reading sashikoBare) =
        (zs.map (reading sashikoBare)).filter fun r => p r.1 := fun zs => by
    rw [List.filter_map]
    rfl
  rw [hfilter, hfilter, h]

theorem bares_of_readings (h : xs.map (reading sashikoBare) = ys.map (reading sashikoBare)) :
    xs.map extractBareEmail = ys.map extractBareEmail := by
  have hfst := congrArg (List.map Prod.fst) h
  rwa [List.map_map, List.map_map] at hfst

theorem matchedLists_congr (h : xs.map (reading sashikoBare) = ys.map (reading sashikoBare))
    (policy : EmailPolicyConfig) : matchedLists policy xs = matchedLists policy ys := by
  unfold matchedLists
  refine congrArg _ (List.filter_congr fun l _ => ?_)
  exact any_of_readings h fun bare => bare = extractBareEmail l.1

theorem tooManyIndividuals_congr (h : xs.map (reading sashikoBare) = ys.map (reading sashikoBare))
    (configured staticCc : List String) (bot : String) (authorBare : Option String) :
    tooManyIndividuals xs configured bot authorBare staticCc =
      tooManyIndividuals ys configured bot authorBare staticCc := by
  unfold tooManyIndividuals
  have hfilter := bares_of_readings (filter_readings h fun bare =>
    !(bare ∈ configured || isKnownMailingListBare bare) && bare ≠ "" && bare ≠ bot &&
      authorBare ≠ some bare && bare ∉ staticCc.map extractBareEmail)
  have hsame : ∀ zs : List String,
      zs.filter (isIndividual configured staticCc bot authorBare) =
        zs.filter fun addr => !(extractBareEmail addr ∈ configured ||
          isKnownMailingListBare (extractBareEmail addr)) && extractBareEmail addr ≠ "" &&
          extractBareEmail addr ≠ bot && authorBare ≠ some (extractBareEmail addr) &&
          extractBareEmail addr ∉ staticCc.map extractBareEmail := fun zs => rfl
  rw [hsame, hsame, hfilter]

theorem relayed_congr (h : xs.map (reading sashikoBare) = ys.map (reading sashikoBare))
    (policy : EmailPolicyConfig) (routing : Routing) (relays : Bool) :
    (xs.filter (relaysAddress policy routing relays)).map (reading sashikoBare) =
      (ys.filter (relaysAddress policy routing relays)).map (reading sashikoBare) :=
  filter_readings h fun bare =>
    if bare ∈ configuredLists policy || isKnownMailingListBare bare then
      routing.includeAllListsFromDefaults || bare ∈ routing.allowedLists
    else relays

end SameReadings

section Decision

variable {sashikoBare : String} {incomingTo incomingCc incomingTo' incomingCc' : List String}

theorem routeRecipients_congr
    (hto : incomingTo.map (reading sashikoBare) = incomingTo'.map (reading sashikoBare))
    (hcc : incomingCc.map (reading sashikoBare) = incomingCc'.map (reading sashikoBare))
    (policy : EmailPolicyConfig) (routing : Routing) (patchAuthor : String) :
    (routeRecipients policy routing incomingTo incomingCc patchAuthor sashikoBare).bare =
      (routeRecipients policy routing incomingTo' incomingCc' patchAuthor sashikoBare).bare := by
  have hall : (incomingTo ++ incomingCc).map (reading sashikoBare) =
      (incomingTo' ++ incomingCc').map (reading sashikoBare) := by
    rw [List.map_append, List.map_append, hto, hcc]
  have hrelays : relaysRecipients policy routing (incomingTo ++ incomingCc) patchAuthor
      sashikoBare = relaysRecipients policy routing (incomingTo' ++ incomingCc') patchAuthor
      sashikoBare := by
    rw [relaysRecipients, relaysRecipients, tooManyIndividuals_congr hall]
  simp only [routeRecipients, bare_sendAction, keys_dedupAddresses, List.map_append,
    relayed_congr hto, relayed_congr hcc, hrelays]

theorem resolveRecipients_congr {sashikoAddress : String}
    (hto : incomingTo.map (reading (extractBareEmail sashikoAddress)) =
      incomingTo'.map (reading (extractBareEmail sashikoAddress)))
    (hcc : incomingCc.map (reading (extractBareEmail sashikoAddress)) =
      incomingCc'.map (reading (extractBareEmail sashikoAddress)))
    (toLowercase : String → String) (policy : EmailPolicyConfig) (patchAuthor : String) :
    (resolveRecipients toLowercase policy incomingTo incomingCc patchAuthor sashikoAddress).bare =
      (resolveRecipients toLowercase policy incomingTo' incomingCc' patchAuthor
        sashikoAddress).bare := by
  have hmatched : matchedLists policy (incomingTo ++ incomingCc) =
      matchedLists policy (incomingTo' ++ incomingCc') := by
    have hall := congrArg₂ (· ++ ·) hto hcc
    simp only [← List.map_append] at hall
    exact matchedLists_congr hall policy
  unfold resolveRecipients
  rw [hmatched]
  split_ifs
  · rfl
  · rfl
  · exact routeRecipients_congr hto hcc policy _ patchAuthor

theorem resolvePatchwork_congr
    (hto : incomingTo.map (reading sashikoBare) = incomingTo'.map (reading sashikoBare))
    (hcc : incomingCc.map (reading sashikoBare) = incomingCc'.map (reading sashikoBare))
    (toLowercase : String → String) (policy : EmailPolicyConfig) :
    resolvePatchwork toLowercase policy incomingTo incomingCc =
      resolvePatchwork toLowercase policy incomingTo' incomingCc' := by
  have hmatched : matchedLists policy (incomingTo ++ incomingCc) =
      matchedLists policy (incomingTo' ++ incomingCc') := by
    have hall := congrArg₂ (· ++ ·) hto hcc
    simp only [← List.map_append] at hall
    exact matchedLists_congr hall policy
  unfold resolvePatchwork enabledPolicies
  rw [hmatched]

end Decision

end Sashiko
