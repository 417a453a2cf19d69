import Mathlib.Data.List.Dedup
import Sashiko.Lib.StableSort
import Sashiko.Subject.Tags

/-! The trees that a patch is tried on, by the votes of its files for the trees of MAINTAINERS. The
votes are in a hash map, whose keys come in any order. -/

namespace Sashiko

/-- A tree's address and branch. -/
structure Tree where
  url : String
  branch : Option String
  deriving DecidableEq, Repr

structure MaintainersEntry where
  subsystem : String
  trees : List Tree
  patterns : List String

structure RemoteTarget where
  url : String
  name : String
  branch : Option String
  deriving DecidableEq, Repr

structure BaselineRegistry where
  entries : List MaintainersEntry
  remoteMap : String → Option String

/-! ### Votes -/

def MaintainersEntry.hasFile (entry : MaintainersEntry) (file : String) : Bool :=
  entry.patterns.any fun pattern =>
    if endsWithText pattern "/" then startsWithText file pattern else pattern = file

/-- A vote for a tree, with the subsystem of the entry that casts it. -/
structure TreeVote where
  tree : Tree
  subsystem : String

def BaselineRegistry.votes (registry : BaselineRegistry) (files : List String) : List TreeVote :=
  files.flatMap fun file =>
    (registry.entries.filter (·.hasFile file)).flatMap fun entry =>
      entry.trees.map fun tree => ⟨tree, entry.subsystem⟩

/-- The keys of `tree_counts`. -/
def votedTrees (votes : List TreeVote) : List Tree := (votes.map TreeVote.tree).dedup

def treeCount (votes : List TreeVote) (tree : Tree) : ℕ := votes.countP (·.tree = tree)

/-- The subsystem of the first vote. -/
def treeSubsystem (votes : List TreeVote) (tree : Tree) : Option String :=
  (votes.find? (·.tree = tree)).map TreeVote.subsystem

/-! ### Names of remotes -/

def suggestRemoteName (url : String) : String :=
  let path := trimEndMatches url "/"
  let last := (splitText path '/').getLast?.getD "unknown"
  let name := (stripSuffix? last ".git").getD last
  if name = "linux" ∧ 2 ≤ (splitText path '/').length then
    (splitText path '/').getD ((splitText path '/').length - 2) ""
  else name
where
  stripSuffix? (s suf : String) : Option String :=
    if endsWithText s suf then some (String.ofList (s.toList.take (s.length - suf.length)))
    else none

def BaselineRegistry.resolveUrl (registry : BaselineRegistry) (url : String)
    (branch : Option String) : RemoteTarget :=
  ⟨url, (registry.remoteMap url).getD (suggestRemoteName url), branch⟩

/-! ### Special trees -/

def memoryBranches : List String := ["mm-new", "mm-unstable", "mm-stable"]

def stagingBranches : List String := ["staging-testing", "staging-next"]

def isMemoryTree (url : String) (subsystem : Option String) : Bool :=
  containsText url "akpm/mm" || containsText url "linux-mm" ||
    subsystem.any (eqIgnoreAsciiCase · "MEMORY MANAGEMENT")

def isStagingTree (url : String) (subsystem : Option String) : Bool :=
  containsText url "gregkh/staging" || subsystem.any (eqIgnoreAsciiCase · "STAGING SUBSYSTEM")

/-- The branches that are tried instead, where the top tree is of memory management or of staging. -/
def specialBranches (url : String) (subsystem : Option String) : Option (List String) :=
  if isMemoryTree url subsystem then some memoryBranches
  else if isStagingTree url subsystem then some stagingBranches
  else none

section Scores

variable (t : CharTables)

/-- `str::to_lowercase` -/
def lowerText (s : String) : String := String.ofList (t.lowercase s.toList)

def queueOf (subject : String) : Option String :=
  if containsText (lowerText t subject) "iwl-next" then some "next-queue"
  else if containsText (lowerText t subject) "iwl-net" then some "net-queue"
  else none

def iwlQueueTree (subject : String) (keys : List Tree) : Option String :=
  (queueOf t subject).bind fun queue => (keys.map Tree.url).find? (containsText · queue)

/-! ### Scores -/

/-- A standard tag, a version or a number. -/
def isStandardToken (token : String) : Bool :=
  lowerText t token ∈ ["patch", "rfc", "resend"] ||
    (startsWithText (lowerText t token) "v" &&
      ((lowerText t token).toList.drop 1).all Char.isDigit) ||
    token.toList.all Char.isDigit

def getSubjectPrefixes (subject : String) : List String :=
  ((((subjectPrefixTokens t subject.toList).map String.ofList).filter
    (!isStandardToken t ·)).mergeSort textLe).eraseDups

def basePrefixes (subject : String) : List String :=
  (getSubjectPrefixes t subject).flatMap fun token =>
    lowerText t token ::
      if containsText (lowerText t token) "-" then
        (splitText (lowerText t token) '-').filter fun part => part ≠ "next" && part ≠ "net"
      else []

def keywords : List String :=
  ["net", "bpf", "drm", "mm", "sched", "x86", "arm", "arm64", "scsi", "usb", "perf"]

/-- What a subject that names `next` or does not says about a tree. -/
def nextScore (isNext : Bool) (url branch : String) : ℤ :=
  if containsText url "mptcp" then
    if isNext then
      (if branch = "export" then 50 else 0) - if branch = "export-net" then 50 else 0
    else (if branch = "export-net" then 50 else 0) - if branch = "export" then 50 else 0
  else if isNext = (containsText url "next" || containsText branch "next") then 50
  else -50

def treeScore (subject : String) (votes : List TreeVote) (tree : Tree) : ℤ :=
  let url := lowerText t tree.url
  let branch := (tree.branch.map (lowerText t)).getD ""
  let tokens := basePrefixes t subject
  treeCount votes tree * 10 +
    (tokens.countP fun token => endsWithText url ("/" ++ token ++ ".git") || branch = token) * 50 +
    (if tokens.any fun token => containsText url token || containsText branch token then 100
      else 0) +
    nextScore (containsText (lowerText t subject) "next") url branch +
    (keywords.countP fun kw =>
      (containsText (lowerText t subject) kw ||
        (treeSubsystem votes tree).any fun s => containsText (lowerText t s) kw) &&
      (containsText url kw || containsText branch kw)) * 10

/-! ### The resolutions -/

/-- More votes first, then by address. -/
def candidateLe (votes : List TreeVote) (a b : Tree) : Bool :=
  treeCount votes b < treeCount votes a ||
    (treeCount votes a = treeCount votes b && textLe a.url b.url)

def scoredResolutions (registry : BaselineRegistry) (subject : String) (votes : List TreeVote)
    (candidates : List Tree) : List RemoteTarget :=
  (((candidates.map fun tree =>
      (treeScore t subject votes tree, registry.resolveUrl tree.url tree.branch)).mergeSort
        fun a b => b.1 ≤ a.1).map Prod.snd).eraseDups

/-- The trees to try, where the hash map gives its keys in the order `keys`. -/
def resolveSubsystemHeuristic (registry : BaselineRegistry) (files : List String)
    (subject : String) (keys : List Tree) : List RemoteTarget :=
  match iwlQueueTree t subject keys with
  | some url => [registry.resolveUrl url (some "dev-queue")]
  | none =>
    match keys.mergeSort (candidateLe (registry.votes files)) with
    | [] => []
    | top :: rest =>
      match specialBranches top.url (treeSubsystem (registry.votes files) top) with
      | some branches => branches.map fun branch => registry.resolveUrl top.url (some branch)
      | none => scoredResolutions t registry subject (registry.votes files) (top :: rest)

end Scores

end Sashiko
