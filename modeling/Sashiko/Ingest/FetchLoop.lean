import Sashiko.Ingest.Tracker
import Sashiko.Lib.Guarded

/-! The fetch loop of the NNTP ingestor with the workers behind it: the parser, and the worker that
writes what was parsed to the database. A step is one reply of the server, one message of a worker,
one call of the database or the end of the process. -/

namespace Sashiko

open MailingLists

def markCommitBatch : ℕ := 100

/-- The variables of the loop over the articles of one group; `high` is what the server said. -/
structure GroupPass where
  group : String
  high : ℕ
  current : ℕ
  committed : ℕ
  handedOff : ℕ
  deriving DecidableEq, Repr

inductive FetchPhase where
  | between
  | fetching (p : GroupPass)
  /-- In `commit_article_mark`, waiting until the tracker is quiet; `last` is the call behind the
  loop. -/
  | committing (p : GroupPass) (last : Bool)
  | writing (p : GroupPass) (safe : ℕ) (last : Bool)
  deriving DecidableEq, Repr

/-- An article on its way to the database. -/
structure Carried where
  group : String
  parsed : Bool
  receipt : IngestReceipt
  deriving DecidableEq, Repr

/-- What has become of an article, or up to where a group was taken as read. -/
inductive IngestFact where
  | stored (group : String) (article : ℕ)
  | rejected (group : String) (article : ℕ)
  | absent (group : String) (article : ℕ)
  | opened (group : String) (mark : ℕ)
  deriving DecidableEq, Repr

structure IngestState where
  lists : MailingLists
  tracker : TrackerState
  carried : List Carried
  phase : FetchPhase
  facts : List IngestFact

inductive ParseOutcome where
  | parsed
  | beforeCutoff
  | unparseable
  | panicked
  deriving DecidableEq, Repr

inductive ProcessStatus where
  | ingested
  | error
  deriving DecidableEq, Repr

inductive IngestAction where
  | selectGroup (name group : String) (high : ℕ) (written : Bool)
  | articleFetched
  | sendFailed
  | articleMissing
  | articleFailed
  | takeSafeMark
  | updateLastArticleNum (written : Bool)
  | parse (k : ℕ) (outcome : ParseOutcome)
  | process (k : ℕ) (status : ProcessStatus)
  | lose (k : ℕ)
  | linkMessage (group : String)
  | restart
  deriving DecidableEq, Repr

namespace GroupPass

/-- Behind the loop: what is not committed yet is committed. -/
def flush (p : GroupPass) : FetchPhase :=
  if p.committed < p.handedOff then .committing p true else .between

def loopHead (p : GroupPass) : FetchPhase :=
  if p.current < p.high then .fetching p else p.flush

def advance (p : GroupPass) : GroupPass :=
  { p with current := p.current + 1, handedOff := p.current + 1 }

end GroupPass

/-- The mark to begin with, where it is not the stored one. -/
def resetMark (downloaded : Bool) (lastKnown high : ℕ) : Option ℕ :=
  if lastKnown = 0 ∧ 0 < high then some (high - if downloaded then 100 else 4000)
  else if high < lastKnown then
    if high = 0 then none else some (high - 100)
  else none

namespace IngestState

def start (lists : MailingLists) : IngestState where
  lists := lists
  tracker := .new
  carried := []
  phase := .between
  facts := lists.rows.map fun l => .opened l.nntpGroup l.lastArticleNum

def openPass (s : IngestState) (lists : MailingLists) (group : String) (high current : ℕ) :
    IngestState :=
  { s with
    lists := lists
    phase := GroupPass.loopHead ⟨group, high, current, current, current⟩ }

/-- `GROUP` was answered with the tip `high`. -/
def selectGroup (s : IngestState) (downloaded : Bool) (name group : String) (high : ℕ)
    (written : Bool) : IngestState :=
  let lists := s.lists.ensureMailingList name group
  let lastKnown := lists.getLastArticleNum group
  match resetMark downloaded lastKnown high with
  | none => s.openPass lists group high lastKnown
  | some mark =>
    if written then
      let s := if lastKnown = 0 then { s with facts := .opened group mark :: s.facts } else s
      s.openPass (lists.updateLastArticleNum group mark) group high mark
    else { s with lists := lists }

/-- The article is sent downstream with its receipt. -/
def hand (s : IngestState) (p : GroupPass) : IngestState :=
  let (tracker, receipt) := s.tracker.issue (p.current + 1)
  { s with tracker := tracker, carried := s.carried ++ [⟨p.group, false, receipt⟩] }

def articleFetched (s : IngestState) (p : GroupPass) : IngestState :=
  { s.hand p with
    phase :=
      if markCommitBatch ≤ p.advance.handedOff - p.advance.committed then
        .committing p.advance false
      else p.advance.loopHead }

/-- The channel is closed: the event is dropped with its receipt, and the cycle ends. -/
def sendFailed (s : IngestState) (p : GroupPass) : IngestState :=
  let (tracker, receipt) := s.tracker.issue (p.current + 1)
  { s with tracker := tracker.drop receipt, phase := .between }

/-- The server answered 423. -/
def articleMissing (s : IngestState) (p : GroupPass) : IngestState :=
  if p.high ≤ p.current + 1 then { s with phase := p.flush }
  else
    { s with
      phase := p.advance.loopHead
      facts := .absent p.group (p.current + 1) :: s.facts }

def takeSafeMark (s : IngestState) (p : GroupPass) (last : Bool) : IngestState :=
  let (tracker, mark) := s.tracker.takeSafeMark p.handedOff
  { s with tracker := tracker, phase := .writing p (max mark p.committed) last }

def writeMark (s : IngestState) (p : GroupPass) (safe : ℕ) (last written : Bool) : IngestState :=
  if written then
    { s with
      lists := s.lists.updateLastArticleNum p.group safe
      phase :=
        if last then .between
        else if safe < p.handedOff then .between
        else GroupPass.loopHead { p with committed := safe } }
  else { s with phase := .between }

/-- An article leaves the pipeline, and its receipt goes out of scope. -/
def release (s : IngestState) (k : ℕ) (receipt : IngestReceipt) : IngestState :=
  { s with tracker := s.tracker.drop receipt, carried := s.carried.eraseIdx k }

/-- An article that there is no point in fetching again leaves the pipeline. -/
def settle (s : IngestState) (k : ℕ) (c : Carried) (fact : IngestFact) : IngestState :=
  { s.release k c.receipt.settle with facts := fact :: s.facts }

def parse (s : IngestState) (k : ℕ) (c : Carried) : ParseOutcome → IngestState
  | .parsed => { s with carried := s.carried.set k { c with parsed := true } }
  | .beforeCutoff | .unparseable | .panicked =>
    s.settle k c (.rejected c.group c.receipt.article)

def process (s : IngestState) (k : ℕ) (c : Carried) : ProcessStatus → IngestState
  | .ingested => s.settle k c (.stored c.group c.receipt.article)
  | .error => s.release k c.receipt

/-- Only the database outlives the process. -/
def restart (s : IngestState) : IngestState :=
  { s with tracker := .new, carried := [], phase := .between }

/-- The article that the loop asked for. -/
def fetching? (s : IngestState) : Option GroupPass :=
  match s.phase with
  | .fetching p => some p
  | _ => none

def step (downloaded : Bool) (s : IngestState) : IngestAction → Option IngestState
  | .selectGroup name group high written =>
    if s.phase = .between then some (s.selectGroup downloaded name group high written) else none
  | .articleFetched => s.fetching?.map s.articleFetched
  | .sendFailed => s.fetching?.map s.sendFailed
  | .articleMissing => s.fetching?.map s.articleMissing
  | .articleFailed => s.fetching?.map fun p => { s with phase := p.flush }
  | .takeSafeMark =>
    match s.phase with
    | .committing p last => if s.tracker.inFlight = 0 then some (s.takeSafeMark p last) else none
    | _ => none
  | .updateLastArticleNum written =>
    match s.phase with
    | .writing p safe last => some (s.writeMark p safe last written)
    | _ => none
  | .parse k outcome => (s.carried[k]?.filter (!·.parsed)).map (s.parse k · outcome)
  | .process k status => (s.carried[k]?.filter (·.parsed)).map (s.process k · status)
  | .lose k => s.carried[k]?.map fun c => s.release k c.receipt
  | .linkMessage group => some { s with lists := s.lists.linkMessage group }
  | .restart => some s.restart

abbrev run (downloaded : Bool) (s : IngestState) (acts : List IngestAction) : Option IngestState :=
  runGuarded (step downloaded) s acts

end IngestState

end Sashiko
