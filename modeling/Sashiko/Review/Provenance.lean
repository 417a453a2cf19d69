import Sashiko.Review.State

/-! Where an output item comes from: the input items it names, or failing that resembles, and what
it takes over from them. -/

namespace Sashiko

/-! ### Stage names and prompt paths -/

def normalizeStageName (name : String) : String :=
  (stripPrefix? (replaceChar (asciiLower (rustTrim name)) '_' '-') "stage-").getD
    (replaceChar (asciiLower (rustTrim name)) '_' '-')

def combinedAnalysisStageName : String := "analysis"

def isPriorFeedbackStageName (name : String) : Bool :=
  ["prior-feedback", "prior-feedback-1", "prior-feedback-2", "prior-feedback-3",
    "prior-feedback-4"].contains (normalizeStageName name)

def normalizePromptRelpath (path : String) : String :=
  (["review-prompts/kernel/", "review-prompts/sashiko/", "review-prompts/",
    "third_party/prompts/kernel/", "projects/sashiko/prompts/", "kernel/",
    "sashiko/"].findSome? (stripPrefix? (rustTrim path))).getD (rustTrim path)

def isPromptFile (path : String) : Bool :=
  match splitText path '/' with
  | [file] => file ≠ ""
  | [dir, file] => (dir = "subsystem" || dir = "patterns") && file ≠ ""
  | _ => false

def sanitizePromptRelpath (path : String) : Bool :=
  normalizePromptRelpath path ≠ "" && !startsWithText (normalizePromptRelpath path) "/" &&
    !containsText (normalizePromptRelpath path) "\\" &&
    !containsText (normalizePromptRelpath path) ".." &&
    endsWithText (normalizePromptRelpath path) ".md" &&
    isPromptFile (normalizePromptRelpath path)

def pushUniquePrompt (prompts : List String) (candidate : String) : List String :=
  if sanitizePromptRelpath (normalizePromptRelpath candidate) &&
      normalizePromptRelpath candidate ∉ prompts then
    prompts ++ [normalizePromptRelpath candidate]
  else prompts

def stringItems (field : String) (item : Json) : List String :=
  ((item.getArray field).getD []).filterMap Json.asStr

section Stages

variable (stageLookup : String → Option AnalysisStage)

/-- The name an item's stage is recorded under. -/
def knownStage (stage : String) : Option String :=
  match stageLookup stage with
  | some stage => some stage.name
  | none =>
    if normalizeStageName stage = combinedAnalysisStageName then some combinedAnalysisStageName
    else if isPriorFeedbackStageName stage then some (normalizeStageName stage)
    else none

def itemStages (item : Json) : List String :=
  (((item.getStr "stage").toList ++ stringItems "stages" item).filterMap
    (knownStage stageLookup)).foldl pushUniqueString []

def stageGuides (stage : String) : List String :=
  match stageLookup stage with
  | some stage => stage.guides
  | none => []

def itemPrompts (item : Json) : List String :=
  (stringItems "prompts" item ++
    (itemStages stageLookup item).flatMap (stageGuides stageLookup)).foldl pushUniquePrompt []

end Stages

/-! ### Items that resemble each other -/

def normalizeSymbolName (sym : String) : String := rustTrim (trimEndMatches (rustTrim sym) "()")

def filePath (path : String) : String := trimStartMatches (rustTrim path) "./"

def filesMatch (a b : String) : Bool :=
  filePath a ≠ "" && filePath b ≠ "" &&
    (filePath a = filePath b || endsWithText (filePath a) ("/" ++ filePath b) ||
      endsWithText (filePath b) ("/" ++ filePath a))

def symbolsMatch (a b : String) : Bool :=
  normalizeSymbolName a ≠ "" && normalizeSymbolName b ≠ "" &&
    eqIgnoreAsciiCase (normalizeSymbolName a) (normalizeSymbolName b)

def linesMatch : Option ℕ → Option ℕ → Bool
  | some a, some b => a ≤ b + 5 && b ≤ a + 5
  | _, _ => false

def locationFile (loc : Json) : String := (loc.getStr "file").getD ""

def locationsMatch (a b : Json) : Bool :=
  filesMatch (locationFile a) (locationFile b) &&
    (symbolsMatch ((a.getStr "function_or_symbol").getD "")
        ((b.getStr "function_or_symbol").getD "") ||
      linesMatch ((a.get? "line").bind Json.asU64) ((b.get? "line").bind Json.asU64))

def anyLocations (p : Json → Json → Bool) (item src : Json) : Bool :=
  ((item.getArray "locations").getD []).any fun loc =>
    ((src.getArray "locations").getD []).any (p loc)

def itemsSharePreciseLocation (item src : Json) : Bool := anyLocations locationsMatch item src

def itemsShareFileLocation (item src : Json) : Bool :=
  anyLocations (fun a b => filesMatch (locationFile a) (locationFile b)) item src

/-- A text long enough to compare, trimmed and in lower case. -/
def comparableText (value : Option Json) : Option String :=
  (((value.bind Json.asStr).map rustTrim).filter fun s => 6 ≤ s.utf8ByteSize).map asciiLower

def itemsShareText (item src : Json) : Bool :=
  (comparableText ((src.get? "description").or (src.get? "problem"))).any fun desc =>
    ["description", "problem", "concern_arguments", "dismissal_arguments",
      "severity_explanation", "reasoning"].any fun key =>
        (comparableText (item.get? key)).any fun field =>
          containsText field desc || containsText desc field

/-! ### Provenance -/

section Provenance

variable (stageLookup : String → Option AnalysisStage)

def namesSource (item src : Json) : Bool :=
  (src.getStr "id").any (· ∈ extractIdList item "source_ids")

def sharesStage (item src : Json) : Bool :=
  (itemStages stageLookup src).any (· ∈ itemStages stageLookup item)

/-- The sources an item names; failing that those it shares a location or its text with, those it
shares a file with, those of its stages, and for an item without a stage all of them. -/
def matchedSources (item : Json) (primary secondary : List Json) : List Json :=
  if (primary ++ secondary).filter (namesSource item) ≠ [] then
    (primary ++ secondary).filter (namesSource item)
  else if (primary ++ secondary).filter
      (fun src => itemsSharePreciseLocation item src || itemsShareText item src) ≠ [] then
    (primary ++ secondary).filter fun src =>
      itemsSharePreciseLocation item src || itemsShareText item src
  else if (primary ++ secondary).filter (itemsShareFileLocation item) ≠ [] then
    (primary ++ secondary).filter (itemsShareFileLocation item)
  else if itemStages stageLookup item ≠ [] then
    (primary ++ secondary).filter (sharesStage stageLookup item)
  else if primary ≠ [] then primary
  else secondary

def pushUniqueValue (sink : List Json) (entry : Json) : List Json :=
  if entry ∈ sink then sink else sink ++ [entry]

structure ItemProvenance where
  inheritedType : Option String
  sourceIds : List String
  rawSourceIds : List String
  priorSourceIds : List String
  priorDiscussionContext : List Json
  authorityEvidence : List Json
  stages : List String
  prompts : List String

/-- The prompts of the item that some source or the shared guides vouch for, then theirs. -/
def provenancePrompts (item : Json) (sources matched : List Json) (selectedGuides : List String)
    (stages : List String) : List String :=
  ((itemPrompts stageLookup item).filter (· ∈
      (selectedGuides ++ sources.flatMap (itemPrompts stageLookup)).foldl pushUniquePrompt []) |>
    (selectedGuides ++ matched.flatMap (itemPrompts stageLookup) ++
      stages.flatMap fun stage => stageGuides stageLookup stage ++
        (sources.filter (stage ∈ itemStages stageLookup ·)).flatMap
          (itemPrompts stageLookup)).foldl pushUniquePrompt)

def provenanceStages (item : Json) (matched : List Json) : List String :=
  (matched.flatMap (itemStages stageLookup)).foldl pushUniqueString (itemStages stageLookup item)

/-- Prior-version lineage comes only from the sources that the item names. -/
def itemProvenance (item : Json) (primary secondary : List Json) (selectedGuides : List String) :
    ItemProvenance :=
  let matched := matchedSources stageLookup item primary secondary
  let named := matched.filter (namesSource item)
  { inheritedType :=
      matched.findSome? fun src => ((src.getStr "type").map rustTrim).filter (· ≠ "")
    sourceIds :=
      (matched.filterMap (·.getStr "id")).foldl pushUniqueString (extractIdList item "source_ids")
    rawSourceIds :=
      (matched.flatMap fun src =>
        extractIdList src "raw_source_ids" ++ extractIdList src "source_ids").foldl
          pushUniqueString []
    priorSourceIds :=
      (named.flatMap (extractIdList · "prior_source_ids")).foldl pushUniqueString []
    priorDiscussionContext :=
      (named.flatMap fun src => (src.getArray "prior_discussion_context").getD []).foldl
        pushUniqueValue []
    authorityEvidence :=
      (named.flatMap fun src => (src.getArray "authority_evidence").getD []).foldl
        pushUniqueValue []
    stages := provenanceStages stageLookup item matched
    prompts :=
      provenancePrompts stageLookup item (primary ++ secondary) matched selectedGuides
        (provenanceStages stageLookup item matched) }

def insertStrings (item : Json) (key : String) (values : List String) : Json :=
  if values = [] then item else item.insert key (Json.strings values)

def insertValues (item : Json) (key : String) (values : List Json) : Json :=
  if values = [] then item else item.insert key (.arr values)

def insertType (item : Json) (inheritedType : Option String) : Json :=
  match inheritedType with
  | some t => if hasText "type" item then item else item.insert "type" (.str t)
  | none => item

def insertStages (item : Json) (stages : List String) : Json :=
  match stages with
  | [] => item
  | first :: _ => (item.insert "stage" (.str first)).insert "stages" (Json.strings stages)

def ItemProvenance.stampIds (p : ItemProvenance) (item : Json) : Json :=
  insertStrings
    (insertStrings (insertType item p.inheritedType) "source_ids" p.sourceIds)
    "raw_source_ids" p.rawSourceIds

def ItemProvenance.stampContext (p : ItemProvenance) (item : Json) : Json :=
  (insertStages
    (insertValues
      (insertValues (insertStrings item "prior_source_ids" p.priorSourceIds)
        "prior_discussion_context" p.priorDiscussionContext)
      "authority_evidence" p.authorityEvidence)
    p.stages).insert "prompts" (Json.strings p.prompts)

def ItemProvenance.stamp (p : ItemProvenance) (item : Json) : Json :=
  p.stampContext (p.stampIds item)

/-- Provenance fields that the model may not set. -/
def stripProvenance (item : Json) : Json :=
  ["prior_attribution", "prior_source_ids", "prior_discussion_context", "authority_evidence",
    "raw_source_ids"].foldl (fun item key => item.remove key) item

def enrichItemProvenance (item : Json) (primary secondary : List Json)
    (selectedGuides : List String) : Json :=
  if item.isObject then
    (itemProvenance stageLookup (stripProvenance item) primary secondary selectedGuides).stamp
      (stripProvenance item)
  else item

end Provenance

end Sashiko
