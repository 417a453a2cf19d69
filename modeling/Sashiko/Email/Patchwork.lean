import Mathlib.Order.Bounds.Basic
import Sashiko.Email.Router
import Sashiko.Lib.Merging

/-! The lists of a policy are iterated in an order that differs from process to process. A patchwork
target merged from several lists has the same severities in every order; its token is that of the
first list that has one. -/

namespace Sashiko

open EmailRouter

namespace EmailRouter

theorem Severity.rank_injective : Function.Injective Severity.rank := fun a b h => by
  cases a <;> cases b <;> first | rfl | cases h

/-- The derived order of the enumeration. -/
instance : PartialOrder Severity := PartialOrder.lift Severity.rank Severity.rank_injective

end EmailRouter

/-- `str::to_lowercase` on a text of ASCII characters. -/
def LowersAscii (toLowercase : String → String) : Prop :=
  ∀ s : String, s.toList.all (·.toNat < 128) = true → toLowercase s = asciiLower s

/-! ### What a target is merged from -/

/-- The policies that are delivered to a target. -/
def Feeds (target p : PatchworkPolicy) : Prop :=
  (target.apiUrl ≠ none ∧ p.apiUrl = target.apiUrl) ∨
    (target.apiUrl = none ∧ p.email = target.email)

/-- A target has the most inclusive of the severities of the policies it is merged from. -/
structure CarriesLowest (toLowercase : String → String) (contributing : List PatchworkPolicy)
    (target : PatchworkPolicy) : Prop where
  all_findings : target.minSeverity = none ↔
    ∃ p ∈ contributing, Feeds target p ∧ p.minSeverity = none
  min_severity : ∀ s, target.minSeverity = some s →
    IsLeast {severity | ∃ p ∈ contributing, Feeds target p ∧ ∃ s', p.minSeverity = some s' ∧
      severityFromStr toLowercase s' = severity} (severityFromStr toLowercase s)
  fail_severity : IsLeast {severity | ∃ p ∈ contributing, Feeds target p ∧
    severityFromStr toLowercase p.failSeverity = severity}
      (severityFromStr toLowercase target.failSeverity)

/-- The targets are the same in whatever order the lists are iterated. -/
structure MergesAlike (toLowercase : String → String) (policy : EmailPolicyConfig)
    (incomingTo incomingCc : List String) : Prop where
  order : ∀ lists, lists.Perm policy.lists → ∀ target,
    target ∈ resolvePatchwork toLowercase { policy with lists := lists } incomingTo incomingCc ↔
      target ∈ resolvePatchwork toLowercase policy incomingTo incomingCc
  lowest : ∀ target ∈ resolvePatchwork toLowercase policy incomingTo incomingCc,
    CarriesLowest toLowercase (enabledPolicies policy (incomingTo ++ incomingCc)) target

/-- No two of the policies that are delivered to one API carry different tokens. -/
def TokensAgree (policy : EmailPolicyConfig) (incoming : List String) : Prop :=
  ∀ p ∈ enabledPolicies policy incoming, ∀ q ∈ enabledPolicies policy incoming,
    p.apiUrl ≠ none → p.apiUrl = q.apiUrl → ∀ a b, p.token = some a → q.token = some b → a = b

/-! ### Merging severities -/

section Severities

variable {toLowercase : String → String}

theorem severityFromStr_asStr (hlower : LowersAscii toLowercase) (severity : Severity) :
    severityFromStr toLowercase severity.asStr = severity := by
  have htrim : rustTrim severity.asStr = severity.asStr := by cases severity <;> rfl
  have hascii : toLowercase severity.asStr = asciiLower severity.asStr :=
    hlower _ (by cases severity <;> rfl)
  rw [severityFromStr, htrim, hascii]
  cases severity <;> rfl

attribute [local irreducible] severityFromStr

/-- A name stands as it is while it is alone, and under the name of the lowest severity once it is
merged with another. -/
def MergedName (toLowercase : String → String) (names : List String) (name : String) : Prop :=
  names = [name] ∨ (2 ≤ names.length ∧ ∃ severity, name = severity.asStr ∧
    IsLeast {severity | ∃ s ∈ names, severityFromStr toLowercase s = severity} severity)

theorem MergedName.isLeast (hlower : LowersAscii toLowercase) {names : List String} {name : String}
    (h : MergedName toLowercase names name) :
    IsLeast {severity | ∃ s ∈ names, severityFromStr toLowercase s = severity}
      (severityFromStr toLowercase name) := by
  obtain rfl | ⟨-, severity, rfl, hleast⟩ := h
  · refine ⟨⟨name, List.mem_singleton_self name, rfl⟩, ?_⟩
    rintro severity ⟨s, hs, rfl⟩
    rw [List.mem_singleton.mp hs]
  · rwa [severityFromStr_asStr hlower]

theorem MergedName.ne_nil {names : List String} {name : String}
    (h : MergedName toLowercase names name) : names ≠ [] := by
  obtain rfl | ⟨hlength, -⟩ := h
  · exact List.cons_ne_nil _ _
  · exact List.length_pos_iff.mp (by omega)

theorem MergedName.merge (hlower : LowersAscii toLowercase) {names : List String} {name : String}
    (h : MergedName toLowercase names name) (s : String) :
    MergedName toLowercase (names ++ [s]) (minSeverityName toLowercase name s) := by
  have hlength := List.length_pos_iff.mpr h.ne_nil
  obtain ⟨⟨s', hs', heq⟩, hlow⟩ := h.isLeast hlower
  refine .inr ⟨by rw [List.length_append, List.length_singleton]; omega, ?_⟩
  unfold minSeverityName
  split_ifs with hrank
  · refine ⟨severityFromStr toLowercase name, rfl, ⟨s', List.mem_append_left _ hs', heq⟩, ?_⟩
    rintro severity ⟨t, ht, rfl⟩
    rcases List.mem_append.mp ht with ht | ht
    · exact hlow ⟨t, ht, rfl⟩
    · rw [List.mem_singleton.mp ht]
      exact hrank
  · refine ⟨severityFromStr toLowercase s, rfl,
      ⟨s, List.mem_append_right _ List.mem_cons_self, rfl⟩, ?_⟩
    rintro severity ⟨t, ht, rfl⟩
    rcases List.mem_append.mp ht with ht | ht
    · exact le_trans (Nat.le_of_not_le hrank) (hlow ⟨t, ht, rfl⟩)
    · rw [List.mem_singleton.mp ht]

/-- The order of the names does not show in the name they are merged to. -/
theorem MergedName.unique {names names' : List String} {name name' : String}
    (h : MergedName toLowercase names name) (h' : MergedName toLowercase names' name')
    (hperm : names.Perm names') : name = name' := by
  obtain rfl | ⟨hlength, severity, rfl, hleast⟩ := h
  · obtain rfl | ⟨hlength', -⟩ := h'
    · exact List.singleton_perm_singleton.mp hperm
    · have := hperm.length_eq
      rw [List.length_singleton] at this
      omega
  · obtain rfl | ⟨-, severity', rfl, hleast'⟩ := h'
    · have := hperm.length_eq
      rw [List.length_singleton] at this
      omega
    · simp only [hperm.mem_iff] at hleast
      rw [hleast.unique hleast']

end Severities

/-! ### Merging policies -/

section Policies

variable {toLowercase : String → String}

attribute [local irreducible] minSeverityName

/-- What the policies of one target are merged to. -/
structure MergedFrom (toLowercase : String → String) (group : List PatchworkPolicy)
    (target : PatchworkPolicy) : Prop where
  fixed : ∃ p ∈ group, target = { p with
    minSeverity := target.minSeverity
    failSeverity := target.failSeverity
    token := target.token }
  all_findings : target.minSeverity = none ↔ ∃ p ∈ group, p.minSeverity = none
  min_severity : ∀ s, target.minSeverity = some s →
    MergedName toLowercase (group.filterMap (·.minSeverity)) s
  fail_severity : MergedName toLowercase (group.map (·.failSeverity)) target.failSeverity
  token : target.token = (group.filterMap (·.token)).head?

theorem mergedFrom_single (p : PatchworkPolicy) : MergedFrom toLowercase [p] p where
  fixed := ⟨p, List.mem_singleton_self p, rfl⟩
  all_findings := by simp
  min_severity := fun s hs => .inl (by simp [hs])
  fail_severity := .inl rfl
  token := by cases h : p.token <;> simp [h]

theorem MergedFrom.merge (hlower : LowersAscii toLowercase) (group : List PatchworkPolicy)
    (target p : PatchworkPolicy) (h : MergedFrom toLowercase group target) :
    MergedFrom toLowercase (group ++ [p]) (mergePolicies toLowercase target p) where
  fixed := by
    obtain ⟨q, hq, heq⟩ := h.fixed
    refine ⟨q, List.mem_append_left _ hq, ?_⟩
    rw [heq]
    rfl
  all_findings := by
    have hsplit : (∃ q ∈ group ++ [p], q.minSeverity = none) ↔
        target.minSeverity = none ∨ p.minSeverity = none := by
      rw [h.all_findings]
      simp only [List.mem_append, List.mem_singleton, or_and_right, exists_or, exists_eq_left]
    rw [hsplit, mergePolicies]
    cases target.minSeverity <;> cases p.minSeverity <;> simp [mergeSeverityOpt]
  min_severity := by
    intro s hs
    rw [mergePolicies] at hs
    cases htarget : target.minSeverity with
    | none =>
      rw [htarget] at hs
      cases hs
    | some a =>
      cases hp : p.minSeverity with
      | none =>
        rw [htarget, hp] at hs
        cases hs
      | some b =>
        rw [htarget, hp] at hs
        obtain rfl : minSeverityName toLowercase a b = s := Option.some_inj.mp hs
        rw [List.filterMap_append, List.filterMap_cons_some hp]
        exact (h.min_severity a htarget).merge hlower b
  fail_severity := by
    rw [List.map_append]
    exact h.fail_severity.merge hlower p.failSeverity
  token := by
    rw [mergePolicies, List.filterMap_append, List.head?_append, ← h.token]
    cases hp : p.token <;> simp [hp]

theorem mergedFrom_mergeAll (hlower : LowersAscii toLowercase) {group : List PatchworkPolicy}
    {target : PatchworkPolicy}
    (h : Merging.mergeAll (mergePolicies toLowercase) group = some target) :
    MergedFrom toLowercase group target :=
  Merging.mergeAll_induct mergedFrom_single (MergedFrom.merge hlower) h

/-- Policies of one target whose tokens agree merge to the same target in every order. -/
theorem MergedFrom.unique {group group' : List PatchworkPolicy} {target target' : PatchworkPolicy}
    (h : MergedFrom toLowercase group target) (h' : MergedFrom toLowercase group' target')
    (hperm : group.Perm group')
    (hfixed : ∀ p ∈ group, ∀ q ∈ group, p.enabled = q.enabled ∧ p.apiUrl = q.apiUrl ∧
      p.email = q.email)
    (htokens : ∀ p ∈ group, ∀ q ∈ group, ∀ a b, p.token = some a → q.token = some b → a = b) :
    target = target' := by
  have hmin : target.minSeverity = target'.minSeverity := by
    cases htarget : target.minSeverity with
    | none =>
      obtain ⟨p, hp, hnone⟩ := h.all_findings.mp htarget
      exact (h'.all_findings.mpr ⟨p, hperm.mem_iff.mp hp, hnone⟩).symm
    | some s =>
      cases htarget' : target'.minSeverity with
      | none =>
        obtain ⟨p, hp, hnone⟩ := h'.all_findings.mp htarget'
        rw [h.all_findings.mpr ⟨p, hperm.mem_iff.mpr hp, hnone⟩] at htarget
        cases htarget
      | some s' =>
        rw [(h.min_severity s htarget).unique (h'.min_severity s' htarget') (hperm.filterMap _)]
  have hfail : target.failSeverity = target'.failSeverity :=
    h.fail_severity.unique h'.fail_severity (hperm.map _)
  have htoken : target.token = target'.token := by
    rw [h.token, h'.token]
    have htokens' := hperm.filterMap (·.token)
    cases hhead : group.filterMap (·.token) with
    | nil =>
      rw [hhead] at htokens'
      rw [List.nil_perm.mp htokens']
    | cons a as =>
      cases hhead' : group'.filterMap (·.token) with
      | nil => exact absurd (hhead' ▸ htokens').eq_nil (hhead ▸ List.cons_ne_nil a as)
      | cons b bs =>
        have ha : a ∈ group.filterMap (·.token) := hhead ▸ List.mem_cons_self
        have hb : b ∈ group.filterMap (·.token) :=
          htokens'.mem_iff.mpr (hhead' ▸ List.mem_cons_self)
        obtain ⟨p, hp, hpa⟩ := List.mem_filterMap.mp ha
        obtain ⟨q, hq, hqb⟩ := List.mem_filterMap.mp hb
        exact congrArg some (htokens p hp q hq a b hpa hqb)
  obtain ⟨p, hp, htarget⟩ := h.fixed
  obtain ⟨q, hq, htarget'⟩ := h'.fixed
  obtain ⟨henabled, hapi, hemail⟩ := hfixed p hp q (hperm.mem_iff.mpr hq)
  rw [htarget, htarget', PatchworkPolicy.mk.injEq]
  exact ⟨henabled, hapi, htoken, hemail, hmin, hfail⟩

end Policies

/-! ### The targets of the enabled policies -/

section Targets

variable {toLowercase : String → String} {enabled : List PatchworkPolicy}
  {target : PatchworkPolicy}

/-- The policies that are merged to the API target of a url. -/
def apiGroup (enabled : List PatchworkPolicy) (url : String) : List PatchworkPolicy :=
  Merging.under url (enabled.filterMap apiTarget)

def emailGroup (enabled : List PatchworkPolicy) (email : String) : List PatchworkPolicy :=
  Merging.under email (enabled.filterMap emailTarget)

theorem mem_apiGroup {url : String} {p : PatchworkPolicy} :
    p ∈ apiGroup enabled url ↔
      ∃ q ∈ enabled, q.apiUrl = some url ∧ { q with email := none } = p := by
  simp [apiGroup, Merging.mem_under, apiTarget]

theorem mem_emailGroup {email : String} {p : PatchworkPolicy} :
    p ∈ emailGroup enabled email ↔
      ∃ q ∈ enabled, q.email = some email ∧ { q with apiUrl := none, token := none } = p := by
  simp [emailGroup, Merging.mem_under, emailTarget]

theorem mem_resolvePatchwork {policy : EmailPolicyConfig} {incomingTo incomingCc : List String} :
    target ∈ resolvePatchwork toLowercase policy incomingTo incomingCc ↔
      (∃ url, Merging.mergeAll (mergePolicies toLowercase)
        (apiGroup (enabledPolicies policy (incomingTo ++ incomingCc)) url) = some target) ∨
      ∃ email, Merging.mergeAll (mergePolicies toLowercase)
        (emailGroup (enabledPolicies policy (incomingTo ++ incomingCc)) email) = some target := by
  have hheld : ∀ entries : List (String × PatchworkPolicy),
      Merging.HoldsMerged (mergePolicies toLowercase) entries
        (entries.foldl (addTarget toLowercase) []) := Merging.holdsMerged_foldl
  have hmem : ∀ entries : List (String × PatchworkPolicy),
      target ∈ (entries.foldl (addTarget toLowercase) []).map (·.2) ↔
        ∃ k, Merging.mergeAll (mergePolicies toLowercase) (Merging.under k entries) =
          some target := fun entries => by
    simp [← hheld entries _ target]
  rw [resolvePatchwork, List.map_append, List.mem_append, hmem, hmem]
  rfl

theorem apiTarget_fields (hlower : LowersAscii toLowercase) {url : String}
    (h : Merging.mergeAll (mergePolicies toLowercase) (apiGroup enabled url) = some target) :
    target.apiUrl = some url ∧ target.email = none := by
  obtain ⟨p, hp, heq⟩ := (mergedFrom_mergeAll hlower h).fixed
  obtain ⟨q, -, hurl, rfl⟩ := mem_apiGroup.mp hp
  rw [heq]
  exact ⟨hurl, rfl⟩

theorem emailTarget_fields (hlower : LowersAscii toLowercase) {email : String}
    (h : Merging.mergeAll (mergePolicies toLowercase) (emailGroup enabled email) = some target) :
    target.apiUrl = none ∧ target.email = some email := by
  obtain ⟨p, hp, heq⟩ := (mergedFrom_mergeAll hlower h).fixed
  obtain ⟨q, -, hemail, rfl⟩ := mem_emailGroup.mp hp
  rw [heq]
  exact ⟨rfl, hemail⟩

/-- A group that is the policies feeding the target, stripped of what is not delivered there. -/
theorem MergedFrom.carriesLowest (hlower : LowersAscii toLowercase) {group : List PatchworkPolicy}
    (h : MergedFrom toLowercase group target) (strip : PatchworkPolicy → PatchworkPolicy)
    (hmin : ∀ p, (strip p).minSeverity = p.minSeverity)
    (hfail : ∀ p, (strip p).failSeverity = p.failSeverity)
    (hgroup : ∀ p, p ∈ group ↔ ∃ q ∈ enabled, Feeds target q ∧ strip q = p) :
    CarriesLowest toLowercase enabled target where
  all_findings := by
    rw [h.all_findings]
    simp only [hgroup]
    constructor
    · rintro ⟨_, ⟨q, hq, hfeeds, rfl⟩, hnone⟩
      exact ⟨q, hq, hfeeds, hmin q ▸ hnone⟩
    · rintro ⟨q, hq, hfeeds, hnone⟩
      exact ⟨strip q, ⟨q, hq, hfeeds, rfl⟩, (hmin q).trans hnone⟩
  min_severity := by
    intro s hs
    have hset : {severity | ∃ p ∈ enabled, Feeds target p ∧ ∃ s', p.minSeverity = some s' ∧
        severityFromStr toLowercase s' = severity} =
        {severity | ∃ s ∈ group.filterMap (·.minSeverity),
          severityFromStr toLowercase s = severity} := by
      ext severity
      simp only [Set.mem_ofPred_eq, List.mem_filterMap, hgroup]
      constructor
      · rintro ⟨q, hq, hfeeds, s', hs', hsev⟩
        exact ⟨s', ⟨strip q, ⟨q, hq, hfeeds, rfl⟩, (hmin q).trans hs'⟩, hsev⟩
      · rintro ⟨s', ⟨_, ⟨q, hq, hfeeds, rfl⟩, hs'⟩, hsev⟩
        exact ⟨q, hq, hfeeds, s', (hmin q).symm.trans hs', hsev⟩
    rw [hset]
    exact (h.min_severity s hs).isLeast hlower
  fail_severity := by
    have hset : {severity | ∃ p ∈ enabled, Feeds target p ∧
        severityFromStr toLowercase p.failSeverity = severity} =
        {severity | ∃ s ∈ group.map (·.failSeverity),
          severityFromStr toLowercase s = severity} := by
      ext severity
      simp only [Set.mem_ofPred_eq, List.mem_map, hgroup]
      constructor
      · rintro ⟨q, hq, hfeeds, hsev⟩
        exact ⟨q.failSeverity, ⟨strip q, ⟨q, hq, hfeeds, rfl⟩, hfail q⟩, hsev⟩
      · rintro ⟨_, ⟨_, ⟨q, hq, hfeeds, rfl⟩, rfl⟩, hsev⟩
        exact ⟨q, hq, hfeeds, hfail q ▸ hsev⟩
    rw [hset]
    exact h.fail_severity.isLeast hlower

theorem carriesLowest_api (hlower : LowersAscii toLowercase) {url : String}
    (h : Merging.mergeAll (mergePolicies toLowercase) (apiGroup enabled url) = some target) :
    CarriesLowest toLowercase enabled target := by
  obtain ⟨hurl, -⟩ := apiTarget_fields hlower h
  refine (mergedFrom_mergeAll hlower h).carriesLowest hlower (fun p => { p with email := none })
    (fun _ => rfl) (fun _ => rfl) fun p => mem_apiGroup.trans ?_
  refine exists_congr fun q => and_congr_right fun _ => and_congr_left fun _ => ?_
  rw [Feeds, hurl]
  simp

theorem carriesLowest_email (hlower : LowersAscii toLowercase) {email : String}
    (h : Merging.mergeAll (mergePolicies toLowercase) (emailGroup enabled email) = some target) :
    CarriesLowest toLowercase enabled target := by
  obtain ⟨hurl, hemail⟩ := emailTarget_fields hlower h
  refine (mergedFrom_mergeAll hlower h).carriesLowest hlower
    (fun p => { p with apiUrl := none, token := none })
    (fun _ => rfl) (fun _ => rfl) fun p => mem_emailGroup.trans ?_
  refine exists_congr fun q => and_congr_right fun _ => and_congr_left fun _ => ?_
  rw [Feeds, hurl, hemail]
  simp

/-- Merging another order of the same policies gives the same target. -/
theorem mergeAll_of_perm (hlower : LowersAscii toLowercase) {group group' : List PatchworkPolicy}
    (hperm : group.Perm group')
    (hfixed : ∀ p ∈ group, ∀ q ∈ group, p.enabled = q.enabled ∧ p.apiUrl = q.apiUrl ∧
      p.email = q.email)
    (htokens : ∀ p ∈ group, ∀ q ∈ group, ∀ a b, p.token = some a → q.token = some b → a = b)
    (h : Merging.mergeAll (mergePolicies toLowercase) group = some target) :
    Merging.mergeAll (mergePolicies toLowercase) group' = some target := by
  have hne : group' ≠ [] := fun hnil => by
    rw [hnil, List.perm_nil] at hperm
    rw [hperm] at h
    cases h
  obtain ⟨target', h'⟩ := Merging.exists_mergeAll (mergePolicies toLowercase) hne
  rw [h', (mergedFrom_mergeAll hlower h).unique (mergedFrom_mergeAll hlower h') hperm hfixed
    htokens]

end Targets

/-! ### The order of the lists -/

section Order

variable {toLowercase : String → String} {policy : EmailPolicyConfig}

theorem enabledPolicies_perm {lists : List (String × MailingListPolicy)}
    (h : lists.Perm policy.lists) (incoming : List String) :
    (enabledPolicies { policy with lists := lists } incoming).Perm
      (enabledPolicies policy incoming) := by
  have hmatched : (matchedLists { policy with lists := lists } incoming).Perm
      (matchedLists policy incoming) := (h.filter _).map _
  refine List.Perm.filter _ ?_
  by_cases hnil : matchedLists policy incoming = []
  · rw [hnil, List.perm_nil] at hmatched
    rw [if_pos hnil, if_pos hmatched]
  · have hnil' : matchedLists { policy with lists := lists } incoming ≠ [] := fun h' => by
      rw [h', List.nil_perm] at hmatched
      exact hnil hmatched
    rw [if_neg hnil, if_neg hnil']
    exact hmatched.map _

/-- Any enabled policy is the first one in some order of the lists. -/
theorem exists_order_with_head {incoming : List String} {p : PatchworkPolicy}
    (hp : p ∈ enabledPolicies policy incoming) :
    ∃ lists, lists.Perm policy.lists ∧
      ∃ rest, enabledPolicies { policy with lists := lists } incoming = p :: rest := by
  obtain ⟨hp, henabled⟩ := List.mem_filter.mp hp
  split_ifs at hp with hnil
  · refine ⟨policy.lists, .refl _, [], ?_⟩
    rw [enabledPolicies, if_pos hnil, ← List.mem_singleton.mp hp]
    exact List.filter_cons_of_pos henabled
  · obtain ⟨list, hlist, rfl⟩ := List.mem_map.mp hp
    obtain ⟨l, hl, rfl⟩ := List.mem_map.mp hlist
    obtain ⟨hl, hmatched⟩ := List.mem_filter.mp hl
    refine ⟨l :: policy.lists.erase l, (List.perm_cons_erase hl).symm, ?_⟩
    have hfirst : matchedLists { policy with lists := l :: policy.lists.erase l } incoming =
        (extractBareEmail l.1, l.2) ::
          matchedLists { policy with lists := policy.lists.erase l } incoming := by
      simp only [matchedLists, List.filter_cons, hmatched, if_true, List.map_cons]
    rw [enabledPolicies, hfirst, if_neg (List.cons_ne_nil _ _), List.map_cons,
      List.filter_cons_of_pos henabled]
    exact ⟨_, rfl⟩

/-- The token of a target is that of the first policy that feeds it, where that has one. -/
theorem exists_target_with_token (hlower : LowersAscii toLowercase) {incomingTo incomingCc :
    List String} {p : PatchworkPolicy} {rest : List PatchworkPolicy}
    (hfirst : enabledPolicies policy (incomingTo ++ incomingCc) = p :: rest) {url token : String}
    (hurl : p.apiUrl = some url) (htoken : p.token = some token) :
    ∃ target ∈ resolvePatchwork toLowercase policy incomingTo incomingCc,
      target.apiUrl = some url ∧ target.token = some token := by
  have hgroup : apiGroup (p :: rest) url = { p with email := none } :: apiGroup rest url := by
    simp [apiGroup, apiTarget, Merging.under, hurl]
  obtain ⟨target, htarget⟩ := Merging.exists_mergeAll (mergePolicies toLowercase)
    (hgroup ▸ List.cons_ne_nil { p with email := none } (apiGroup rest url))
  refine ⟨target, mem_resolvePatchwork.mpr (.inl ⟨url, hfirst ▸ htarget⟩),
    (apiTarget_fields hlower htarget).1, ?_⟩
  rw [(mergedFrom_mergeAll hlower htarget).token, hgroup]
  simp [htoken]

theorem target_unique (hlower : LowersAscii toLowercase) {incomingTo incomingCc : List String}
    {target target' : PatchworkPolicy} {url : String}
    (h : target ∈ resolvePatchwork toLowercase policy incomingTo incomingCc)
    (h' : target' ∈ resolvePatchwork toLowercase policy incomingTo incomingCc)
    (hurl : target.apiUrl = some url) (hurl' : target'.apiUrl = some url) : target = target' := by
  have hkey : ∀ t ∈ resolvePatchwork toLowercase policy incomingTo incomingCc,
      t.apiUrl = some url → Merging.mergeAll (mergePolicies toLowercase)
        (apiGroup (enabledPolicies policy (incomingTo ++ incomingCc)) url) = some t := by
    intro t ht hturl
    rcases mem_resolvePatchwork.mp ht with ⟨url', hmerged⟩ | ⟨email, hmerged⟩
    · have hsame := (apiTarget_fields hlower hmerged).1
      rw [hturl, Option.some_inj] at hsame
      exact hsame ▸ hmerged
    · rw [(emailTarget_fields hlower hmerged).1] at hturl
      cases hturl
  exact Option.some_inj.mp ((hkey target h hurl).symm.trans (hkey target' h' hurl'))

theorem tokensAgree_of_mergesAlike (hlower : LowersAscii toLowercase)
    {incomingTo incomingCc : List String}
    (h : MergesAlike toLowercase policy incomingTo incomingCc) :
    TokensAgree policy (incomingTo ++ incomingCc) := by
  intro p hp q hq hurl hsame a b ha hb
  obtain ⟨url, hpurl⟩ := Option.ne_none_iff_exists'.mp hurl
  have hfound : ∀ r ∈ enabledPolicies policy (incomingTo ++ incomingCc), r.apiUrl = some url →
      ∀ token, r.token = some token →
        ∃ target ∈ resolvePatchwork toLowercase policy incomingTo incomingCc,
          target.apiUrl = some url ∧ target.token = some token := by
    intro r hr hrurl token htoken
    obtain ⟨lists, hperm, rest, hfirst⟩ := exists_order_with_head hr
    obtain ⟨target, htarget, hfields⟩ := exists_target_with_token hlower hfirst hrurl htoken
    exact ⟨target, (h.order lists hperm target).mp htarget, hfields⟩
  obtain ⟨target, htarget, hturl, hta⟩ := hfound p hp hpurl a ha
  obtain ⟨target', htarget', hturl', htb⟩ := hfound q hq (hsame ▸ hpurl) b hb
  rw [target_unique hlower htarget htarget' hturl hturl', htb] at hta
  exact (Option.some_inj.mp hta).symm

theorem mem_resolvePatchwork_of_perm (hlower : LowersAscii toLowercase)
    (policy : EmailPolicyConfig) (lists : List (String × MailingListPolicy))
    {incomingTo incomingCc : List String}
    {target : PatchworkPolicy} (htokens : TokensAgree policy (incomingTo ++ incomingCc))
    (hperm : (enabledPolicies policy (incomingTo ++ incomingCc)).Perm
      (enabledPolicies { policy with lists := lists } (incomingTo ++ incomingCc)))
    (h : target ∈ resolvePatchwork toLowercase policy incomingTo incomingCc) :
    target ∈ resolvePatchwork toLowercase { policy with lists := lists } incomingTo
      incomingCc := by
  have henabled : ∀ p ∈ enabledPolicies policy (incomingTo ++ incomingCc), p.enabled = true :=
    fun p hp => (List.mem_filter.mp hp).2
  rcases mem_resolvePatchwork.mp h with ⟨url, hmerged⟩ | ⟨email, hmerged⟩
  · refine mem_resolvePatchwork.mpr (.inl ⟨url, mergeAll_of_perm hlower
      (Merging.under_perm (hperm.filterMap _) url) ?_ ?_ hmerged⟩)
    · intro p hp q hq
      obtain ⟨p, hmemp, hpurl, rfl⟩ := mem_apiGroup.mp hp
      obtain ⟨q, hmemq, hqurl, rfl⟩ := mem_apiGroup.mp hq
      exact ⟨(henabled p hmemp).trans (henabled q hmemq).symm, hpurl.trans hqurl.symm, rfl⟩
    · intro p hp q hq a b ha hb
      obtain ⟨p, hmemp, hpurl, rfl⟩ := mem_apiGroup.mp hp
      obtain ⟨q, hmemq, hqurl, rfl⟩ := mem_apiGroup.mp hq
      exact htokens p hmemp q hmemq (hpurl ▸ Option.some_ne_none url) (hpurl.trans hqurl.symm) a b
        ha hb
  · refine mem_resolvePatchwork.mpr (.inr ⟨email, mergeAll_of_perm hlower
      (Merging.under_perm (hperm.filterMap _) email) ?_ ?_ hmerged⟩)
    · intro p hp q hq
      obtain ⟨p, hmemp, hpemail, rfl⟩ := mem_emailGroup.mp hp
      obtain ⟨q, hmemq, hqemail, rfl⟩ := mem_emailGroup.mp hq
      exact ⟨(henabled p hmemp).trans (henabled q hmemq).symm, rfl, hpemail.trans hqemail.symm⟩
    · intro p hp q hq a b ha
      obtain ⟨p, -, -, rfl⟩ := mem_emailGroup.mp hp
      cases ha

theorem TokensAgree.of_perm {lists : List (String × MailingListPolicy)} {incoming : List String}
    (h : TokensAgree policy incoming) (hperm : lists.Perm policy.lists) :
    TokensAgree { policy with lists := lists } incoming := fun p hp q hq =>
  h p ((enabledPolicies_perm hperm incoming).mem_iff.mp hp) q
    ((enabledPolicies_perm hperm incoming).mem_iff.mp hq)

/-- The order of the lists does not show in the targets, each with the most inclusive severities,
exactly where the policies of one API carry no two tokens. -/
theorem mergesAlike_iff (toLowercase : String → String) (hlower : LowersAscii toLowercase)
    (policy : EmailPolicyConfig) (incomingTo incomingCc : List String) :
    MergesAlike toLowercase policy incomingTo incomingCc ↔
      TokensAgree policy (incomingTo ++ incomingCc) := by
  refine ⟨tokensAgree_of_mergesAlike hlower, fun htokens => ⟨fun lists hlists target => ?_,
    fun target htarget => ?_⟩⟩
  · have hperm := enabledPolicies_perm hlists (incomingTo ++ incomingCc)
    exact ⟨mem_resolvePatchwork_of_perm hlower { policy with lists := lists } policy.lists
      (htokens.of_perm hlists) hperm,
      mem_resolvePatchwork_of_perm hlower policy lists htokens hperm.symm⟩
  · rcases mem_resolvePatchwork.mp htarget with ⟨url, hmerged⟩ | ⟨email, hmerged⟩
    · exact carriesLowest_api hlower hmerged
    · exact carriesLowest_email hlower hmerged

theorem lowersAscii_asciiLower : LowersAscii asciiLower := fun _ _ => rfl

def patchworkList (token : String) : MailingListPolicy :=
  { MailingListPolicy.default with
    patchwork := { PatchworkPolicy.default with
      enabled := true
      apiUrl := some "https://patchwork.kernel.org/api"
      token := some token } }

/-- Two lists report to one API under tokens of their own. -/
def twoTokens : EmailPolicyConfig where
  defaults := .default
  lists := [("a@lists.example.org", patchworkList "1"), ("b@lists.example.org", patchworkList "2")]

theorem mergesAlike_iff_twoTokens : LowersAscii asciiLower ∧
    (MergesAlike asciiLower twoTokens ["a@lists.example.org"] ["b@lists.example.org"] ↔
      TokensAgree twoTokens ["a@lists.example.org", "b@lists.example.org"]) :=
  ⟨lowersAscii_asciiLower, mergesAlike_iff asciiLower lowersAscii_asciiLower twoTokens
    ["a@lists.example.org"] ["b@lists.example.org"]⟩

/-- The review is reported under the token of whichever of the two lists comes first. -/
theorem twoTokens_not_mergesAlike :
    ¬MergesAlike asciiLower twoTokens ["a@lists.example.org"] ["b@lists.example.org"] := by
  intro h
  have hswap := (h.order [("b@lists.example.org", patchworkList "2"),
    ("a@lists.example.org", patchworkList "1")] (.swap _ _ _)
    (patchworkList "2").patchwork).mp (by decide)
  revert hswap
  decide

end Order

end Sashiko
