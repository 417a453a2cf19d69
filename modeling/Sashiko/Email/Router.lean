import Sashiko.Email.Policy
import Sashiko.Lib.Table

/-! Who receives a review: the routing of `EmailRouter`. -/

namespace Sashiko

def knownMailingListDomains : List String :=
  ["vger.kernel.org", "lists.linux.dev", "lists.infradead.org", "lists.freedesktop.org",
    "lists.osuosl.org", "kvack.org", "lists.open-mesh.org", "lists.sourceforge.net",
    "lists.oss.qualcomm.com", "lists.subsurface-divelog.org", "acpica.org", "lists.linaro.org",
    "lists.01.org", "lists.xenproject.org", "lists.ozlabs.org", "nongnu.org",
    "lists.nongnu.org"]

def knownMailingListAddresses : List String :=
  ["algol68@gcc.gnu.org", "cobol@gcc.gnu.org", "fortran@gcc.gnu.org", "gcc-bugs@gcc.gnu.org",
    "gcc-cvs@gcc.gnu.org", "gcc-help@gcc.gnu.org", "gcc-patches@gcc.gnu.org",
    "gcc-prs@gcc.gnu.org", "gcc-regression@gcc.gnu.org", "gcc-rust@gcc.gnu.org",
    "gcc-testresults@gcc.gnu.org", "gcc@gcc.gnu.org", "gccadmin@gcc.gnu.org",
    "java-patches@gcc.gnu.org", "jit@gcc.gnu.org", "libstdc++-cvs@gcc.gnu.org",
    "libstdc++@gcc.gnu.org", "binutils@sourceware.org", "cgen@sourceware.org",
    "cygwin-patches@sourceware.org", "dwz@sourceware.org", "elfutils-devel@sourceware.org",
    "gdb-patches@sourceware.org", "libabigail@sourceware.org", "libc-alpha@sourceware.org",
    "newlib@sourceware.org", "overseers@sourceware.org", "systemtap@sourceware.org"]

def isKnownMailingListBare (bare : String) : Bool :=
  knownMailingListAddresses.any (eqIgnoreAsciiCase · bare) ||
    match afterFirst '@' bare.toList with
    | some domain => knownMailingListDomains.any (eqIgnoreAsciiCase · (String.ofList domain))
    | none => false

def maxRelayedRecipients : ℕ := 128

inductive Action where
  | mute
  | send (toAddresses ccAddresses : List String) (positiveReview : PositiveReviewPolicy)
  deriving DecidableEq, Repr

namespace EmailRouter

def addressMatchesList (incoming listBare : String) : Bool := extractBareEmail incoming = listBare

def isMailingListAddress (addr : String) (configuredLists : List String) : Bool :=
  extractBareEmail addr ∈ configuredLists || isKnownMailingListBare (extractBareEmail addr)

def isIndividual (configuredLists staticCc : List String) (sashikoBare : String)
    (authorBare : Option String) (addr : String) : Bool :=
  !isMailingListAddress addr configuredLists && extractBareEmail addr ≠ "" &&
    extractBareEmail addr ≠ sashikoBare && authorBare ≠ some (extractBareEmail addr) &&
    extractBareEmail addr ∉ staticCc.map extractBareEmail

def tooManyIndividuals (allIncoming configuredLists : List String) (sashikoBare : String)
    (authorBare : Option String) (staticCc : List String) : Bool :=
  maxRelayedRecipients <
    ((allIncoming.filter (isIndividual configuredLists staticCc sashikoBare authorBare)).map
      extractBareEmail).eraseDups.length

/-- Whether an address is kept out of the recipients. -/
def isSkipped (sashikoBare : String) (excludeBare : List String) (addr : String) : Bool :=
  rustTrim addr = "" || extractBareEmail (rustTrim addr) = "" ||
    (sashikoBare ≠ "" && (extractBareEmail (rustTrim addr) = sashikoBare ||
      containsText (asciiLower (rustTrim addr)) sashikoBare)) ||
    extractBareEmail (rustTrim addr) ∈ excludeBare

def hasBracket (addr : String) : Bool := '<' ∈ addr.toList

/-- The results so far, each with its bare address; a later entry with a display name takes the
place of an earlier one without. -/
def dedupStep (sashikoBare : String) (excludeBare : List String) (result : List (String × String))
    (addr : String) : List (String × String) :=
  if isSkipped sashikoBare excludeBare addr then result
  else if extractBareEmail (rustTrim addr) ∈ result.map (·.1) then
    result.map fun r =>
      if r.1 = extractBareEmail (rustTrim addr) ∧ !hasBracket r.2 ∧ hasBracket (rustTrim addr) then
        (r.1, rustTrim addr)
      else r
  else result ++ [(extractBareEmail (rustTrim addr), rustTrim addr)]

def dedupAddresses (candidates : List String) (sashikoBare : String) (excludeBare : List String) :
    List (String × String) :=
  candidates.foldl (dedupStep sashikoBare excludeBare) []

/-- The configured lists among the addressees, under their bare addresses. -/
def matchedLists (policy : EmailPolicyConfig) (allIncoming : List String) :
    List (String × MailingListPolicy) :=
  (policy.lists.filter fun l =>
    allIncoming.any (addressMatchesList · (extractBareEmail l.1))).map
      fun l => (extractBareEmail l.1, l.2)

def configuredLists (policy : EmailPolicyConfig) : List String :=
  policy.lists.map (extractBareEmail ·.1)

/-- What the matched lists, or the defaults, ask for. -/
structure Routing where
  muteAll : Bool
  includeAuthor : Bool
  includeRecipients : Bool
  includeAllListsFromDefaults : Bool
  allowedLists : List String
  positiveReview : PositiveReviewPolicy
  staticCc : List String
  deriving DecidableEq, Repr

def Routing.addList (defaults : DefaultListPolicy) (routing : Routing)
    (list : String × MailingListPolicy) : Routing where
  muteAll := routing.muteAll || list.2.muteAll.getD defaults.muteAll
  includeAuthor :=
    routing.includeAuthor || (list.2.replyTo.getD defaults.replyTo).contains .author
  includeRecipients :=
    routing.includeRecipients || (list.2.replyTo.getD defaults.replyTo).contains .recipients
  includeAllListsFromDefaults := routing.includeAllListsFromDefaults
  allowedLists :=
    if (list.2.replyTo.getD defaults.replyTo).contains .list then routing.allowedLists ++ [list.1]
    else routing.allowedLists
  positiveReview :=
    if routing.positiveReview.rank < (list.2.positiveReview.getD defaults.positiveReview).rank then
      list.2.positiveReview.getD defaults.positiveReview
    else routing.positiveReview
  staticCc := routing.staticCc ++ list.2.cc

def defaultRouting (defaults : DefaultListPolicy) : Routing where
  muteAll := defaults.muteAll
  includeAuthor := defaults.replyTo.contains .author
  includeRecipients := defaults.replyTo.contains .recipients
  includeAllListsFromDefaults := defaults.replyTo.contains .list
  allowedLists := []
  positiveReview := defaults.positiveReview
  staticCc := []

def noRouting : Routing := ⟨false, false, false, false, [], .none, []⟩

def listRouting (policy : EmailPolicyConfig) (lists : List (String × MailingListPolicy)) :
    Routing :=
  if lists = [] then defaultRouting policy.defaults
  else
    (lists.mergeSort fun a b => !textLt b.1 a.1).foldl (Routing.addList policy.defaults) noRouting

def routingStaticCc (policy : EmailPolicyConfig) (routing : Routing) : List String :=
  routing.staticCc ++ policy.defaults.cc

def relaysRecipients (policy : EmailPolicyConfig) (routing : Routing) (allIncoming : List String)
    (patchAuthor sashikoBare : String) : Bool :=
  routing.includeRecipients &&
    !tooManyIndividuals allIncoming (configuredLists policy) sashikoBare
      (if routing.includeAuthor then some (extractBareEmail patchAuthor) else none)
      (routingStaticCc policy routing)

def relaysAddress (policy : EmailPolicyConfig) (routing : Routing) (relays : Bool)
    (addr : String) : Bool :=
  if isMailingListAddress addr (configuredLists policy) then
    routing.includeAllListsFromDefaults || extractBareEmail addr ∈ routing.allowedLists
  else relays

def rawAuthor (routing : Routing) (patchAuthor : String) : List String :=
  if routing.includeAuthor && rustTrim patchAuthor ≠ "" then [patchAuthor] else []

def sendAction (finalTo finalCc : List (String × String))
    (positiveReview : PositiveReviewPolicy) : Action :=
  if finalTo = [] ∧ finalCc = [] then .mute
  else .send (finalTo.map (·.2)) (finalCc.map (·.2)) positiveReview

def routeRecipients (policy : EmailPolicyConfig) (routing : Routing)
    (incomingTo incomingCc : List String) (patchAuthor sashikoBare : String) : Action :=
  let relays := relaysRecipients policy routing (incomingTo ++ incomingCc) patchAuthor sashikoBare
  let finalTo := dedupAddresses
    (rawAuthor routing patchAuthor ++ incomingTo.filter (relaysAddress policy routing relays))
    sashikoBare []
  let finalCc := dedupAddresses
    (incomingCc.filter (relaysAddress policy routing relays) ++ routingStaticCc policy routing)
    sashikoBare (finalTo.map (·.1))
  sendAction finalTo finalCc routing.positiveReview

section Lowercase

-- `str::to_lowercase`, the full Unicode one
variable (toLowercase : String → String)

def isIgnoredAuthor (policy : EmailPolicyConfig) (authorEmail : String) : Bool :=
  (policy.defaults.ignoredEmails ++ policy.lists.flatMap (·.2.ignoredEmails)).any fun e =>
    containsText (toLowercase authorEmail) (toLowercase e)

def isMutedAuthor (policy : EmailPolicyConfig) (patchAuthor sashikoBare : String) : Bool :=
  isIgnoredAuthor toLowercase policy patchAuthor ||
    (sashikoBare ≠ "" && extractBareEmail patchAuthor ≠ "" &&
      (extractBareEmail patchAuthor = sashikoBare ||
        containsText (asciiLower patchAuthor) sashikoBare))

def resolveRecipients (policy : EmailPolicyConfig) (incomingTo incomingCc : List String)
    (patchAuthor sashikoAddress : String) : Action :=
  if isMutedAuthor toLowercase policy patchAuthor (extractBareEmail sashikoAddress) then .mute
  else if (listRouting policy (matchedLists policy (incomingTo ++ incomingCc))).muteAll then .mute
  else
    routeRecipients policy (listRouting policy (matchedLists policy (incomingTo ++ incomingCc)))
      incomingTo incomingCc patchAuthor (extractBareEmail sashikoAddress)

/-! ### Patchwork -/

inductive Severity where
  | unknown
  | low
  | medium
  | high
  | critical
  deriving DecidableEq, Repr

def Severity.asStr : Severity → String
  | unknown => "Unknown"
  | low => "Low"
  | medium => "Medium"
  | high => "High"
  | critical => "Critical"

def Severity.rank : Severity → ℕ
  | unknown => 0
  | low => 1
  | medium => 2
  | high => 3
  | critical => 4

def severityFromStr (s : String) : Severity :=
  if eqIgnoreAsciiCase (rustTrim s) "critical" then .critical
  else if startsWithText (toLowercase (rustTrim s)) "high" then .high
  else if startsWithText (toLowercase (rustTrim s)) "medium" then .medium
  else if startsWithText (toLowercase (rustTrim s)) "low" then .low
  else .unknown

def minSeverityName (a b : String) : String :=
  if (severityFromStr toLowercase a).rank ≤ (severityFromStr toLowercase b).rank then
    (severityFromStr toLowercase a).asStr
  else (severityFromStr toLowercase b).asStr

def mergeSeverityOpt : Option String → Option String → Option String
  | some a, some b => some (minSeverityName toLowercase a b)
  | _, _ => none

def mergePolicies (a b : PatchworkPolicy) : PatchworkPolicy :=
  { a with
    minSeverity := mergeSeverityOpt toLowercase a.minSeverity b.minSeverity
    failSeverity := minSeverityName toLowercase a.failSeverity b.failSeverity
    token := a.token.or b.token }

/-- Adds a target, or merges it into the one under its key. -/
def addTarget (targets : List (String × PatchworkPolicy)) (target : String × PatchworkPolicy) :
    List (String × PatchworkPolicy) :=
  if target.1 ∈ targets.map (·.1) then
    targets.map fun t => if t.1 = target.1 then (t.1, mergePolicies toLowercase t.2 target.2) else t
  else targets ++ [target]

def apiTarget (p : PatchworkPolicy) : Option (String × PatchworkPolicy) :=
  p.apiUrl.map fun url => (url, { p with email := none })

def emailTarget (p : PatchworkPolicy) : Option (String × PatchworkPolicy) :=
  p.email.map fun email => (email, { p with apiUrl := none, token := none })

def enabledPolicies (policy : EmailPolicyConfig) (allIncoming : List String) :
    List PatchworkPolicy :=
  (if matchedLists policy allIncoming = [] then [policy.defaults.patchwork]
    else (matchedLists policy allIncoming).map (·.2.patchwork)).filter (·.enabled)

def resolvePatchwork (policy : EmailPolicyConfig) (incomingTo incomingCc : List String) :
    List PatchworkPolicy :=
  let enabled := enabledPolicies policy (incomingTo ++ incomingCc)
  (((enabled.filterMap apiTarget).foldl (addTarget toLowercase) []) ++
    ((enabled.filterMap emailTarget).foldl (addTarget toLowercase) [])).map (·.2)

end Lowercase

end EmailRouter

end Sashiko
