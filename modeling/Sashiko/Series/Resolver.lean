import Mathlib.Data.Finset.Option
import Sashiko.Lib.Attempts
import Sashiko.Lib.PostOrder
import Sashiko.Series.PrerequisiteMetadata

/-! The patches that a review has to apply first: found in the store or in the archive, each after
what it builds on. -/

namespace Sashiko

structure PrerequisitePatch where
  gitPatchId : String
  messageId : String
  subject : String
  author : String
  date : ℤ
  diff : String
  deriving DecidableEq, Repr

structure PrerequisiteSeries where
  localPatchsetId : Option ℤ
  messageId : String
  body : String
  patches : List PrerequisitePatch
  deriving DecidableEq, Repr

structure StoredPrerequisitePatch where
  gitPatchId : Option String
  messageId : String
  partIndex : ℕ
  subject : String
  author : String
  date : ℤ
  diff : String
  deriving DecidableEq, Repr

structure StoredPrerequisiteSeries where
  patchsetId : ℤ
  messageId : String
  body : String
  patches : List StoredPrerequisitePatch
  deriving DecidableEq, Repr

/-- The store, the archive and `git patch-id`. They may answer anything, and the same question
differently later on. -/
structure PrerequisiteWorld (ω : Type) where
  getStoredPrerequisiteSeries :
    String → ω → Except String (Option StoredPrerequisiteSeries) × ω
  getPatchByGitPatchId :
    String → ω → Except String (Option (String × String × String × String × ℤ)) × ω
  gitPatchId : String → ω → Except String String × ω
  fetchSeries : String → ω → Except String PrerequisiteSeries × ω
  fetchThreadPatches : String → ω → Except String (List PrerequisitePatch) × ω
  searchPatchId : String → ω → Except String (List PrerequisitePatch) × ω

/-- `resolvedSeries` is in the order in which the series were resolved. -/
structure ResolverState (ω : Type) where
  world : ω
  remoteOperations : ℕ
  seriesCache : List (String × PrerequisiteSeries)
  resolvedSeries : List String
  patchCache : List (String × PrerequisitePatch)
  activeMessageIds : Finset String
  activePatchsetIds : Finset ℤ
  seenPatchIds : Finset String
  resolved : List PrerequisitePatch

abbrev Resolve (ω : Type) := EStateM String (ResolverState ω)

section Resolver

variable {ω : Type} (world : PrerequisiteWorld ω)

def ResolverState.new (w : ω) : ResolverState ω := ⟨w, 0, [], [], [], ∅, ∅, ∅, []⟩

/-- The answer, be it an error. -/
def answer {α : Type} (question : ω → Except String α × ω) : Resolve ω (Except String α) :=
  modifyGet fun s => ((question s.world).1, { s with world := (question s.world).2 })

def liftExcept {α : Type} : Except String α → Resolve ω α
  | .ok a => pure a
  | .error e => throw e

def ask {α : Type} (question : ω → Except String α × ω) : Resolve ω α :=
  answer question >>= liftExcept

def calculateGitPatchId (diff : String) (w : ω) : Except String (Option String) × ω :=
  if trimChars diff.toList = [] then (.ok none, w)
  else
    let (output, w) := world.gitPatchId diff w
    let id := output.map fun stdout => (splitWhitespace stdout.toList).head?.map (·.map Char.toLower)
    (id >>= fun id =>
      match id with
      | none => .ok none
      | some id =>
        if isPatchIdText id then .ok (some (String.ofList id))
        else .error "git patch-id returned an invalid patch ID", w)

def calculateGitPatchIdBatch : List (Option String) → ω → List (Except String (Option String)) × ω
  | [], w => ([], w)
  | none :: diffs, w =>
    let (ids, w) := calculateGitPatchIdBatch diffs w
    (.ok none :: ids, w)
  | some diff :: diffs, w =>
    let (id, w) := calculateGitPatchId world diff w
    let (ids, w) := calculateGitPatchIdBatch diffs w
    (id :: ids, w)

def StoredPrerequisitePatch.resolve (seriesMessageId : String) (patch : StoredPrerequisitePatch)
    (calculated : Except String (Option String)) : Except String PrerequisitePatch :=
  (match patch.gitPatchId with
    | some patchId => normalizePatchId patchId
    | none => calculated >>= fun id =>
      match id with
      | some id => .ok id
      | none => .error ("stored prerequisite " ++ seriesMessageId ++ " part " ++
          toString patch.partIndex ++ " has no stable patch ID")).map fun gitPatchId =>
    ⟨gitPatchId, patch.messageId, patch.subject, patch.author, patch.date, patch.diff⟩

def seriesFromStorage (stored : StoredPrerequisiteSeries) (w : ω) :
    Except String PrerequisiteSeries × ω :=
  if stored.patches.length > maxPrerequisitePatchIds then
    (.error ("stored prerequisite series " ++ stored.messageId ++ " contains more than " ++
      toString maxPrerequisitePatchIds ++ " patches"), w)
  else
    let (calculations, w) := calculateGitPatchIdBatch world
      (stored.patches.map fun patch => if patch.gitPatchId.isNone then some patch.diff else none) w
    (((stored.patches.zip calculations).mapM fun p : StoredPrerequisitePatch × _ =>
        p.1.resolve stored.messageId p.2).map
      fun patches => ⟨some stored.patchsetId, stored.messageId, stored.body, patches⟩, w)

/-- `anyhow::Context`: the context comes before the cause. -/
def withContext {α : Type} (context : String) (question : ω → Except String α × ω) (w : ω) :
    Except String α × ω :=
  ((question w).1.mapError fun cause => context ++ ": " ++ cause, (question w).2)

def countRemoteOperation : Resolve ω PUnit := do
  let s ← get
  if s.remoteOperations = maxLoreOperations then
    throw ("resolving prerequisites requires more than " ++ toString maxLoreOperations ++
      " remote Lore operations")
  else set { s with remoteOperations := s.remoteOperations + 1 }

def askRemote {α : Type} (question : ω → Except String α × ω) : Resolve ω (Except String α) :=
  countRemoteOperation >>= fun _ => answer question

/-- The series from the store, or else from the archive. -/
def obtainSeries (messageId : String) : Resolve ω PrerequisiteSeries := do
  match ← ask (world.getStoredPrerequisiteSeries messageId) with
  | some stored => ask (seriesFromStorage world stored)
  | none =>
    askRemote (withContext ("failed to fetch prerequisite series " ++ messageId ++ " from lore")
      (world.fetchSeries messageId)) >>= liftExcept

def loadSeries (messageId : String) : Resolve ω PrerequisiteSeries := do
  let messageId := cleanMessageId messageId
  let s ← get
  match s.seriesCache.lookup messageId with
  | some series => pure series
  | none =>
    if s.seriesCache.length = maxPrerequisiteSeries then
      throw ("resolving prerequisites requires more than " ++ toString maxPrerequisiteSeries ++
        " series")
    else
      let series ← obtainSeries world messageId
      if cleanMessageId series.messageId ≠ messageId then
        throw ("lore returned series " ++ series.messageId ++ " for requested message ID " ++
          messageId)
      else
        modify fun s => { s with seriesCache := (messageId, series) :: s.seriesCache }
        pure series

/-- `entry(..).or_insert(..)` -/
def cachePatch (patch : PrerequisitePatch) : Resolve ω PUnit :=
  modify fun s =>
    if (s.patchCache.lookup patch.gitPatchId).isSome then s
    else { s with patchCache := (patch.gitPatchId, patch) :: s.patchCache }

def cacheLocalPatch (patchId : String) : Resolve ω PUnit := do
  let s ← get
  if (s.patchCache.lookup patchId).isSome then pure ⟨⟩
  else
    match ← ask (world.getPatchByGitPatchId patchId) with
    | some (messageId, diff, subject, author, date) =>
      cachePatch ⟨patchId, messageId, subject, author, date, diff⟩
    | none => pure ⟨⟩

def cacheLocalPatches (patchIds : List String) : Resolve ω PUnit :=
  forM patchIds (cacheLocalPatch world)

def cacheRequiredPatches (wanted : List String) (patches : List PrerequisitePatch) :
    Resolve ω PUnit :=
  forM patches fun patch => do
    let gitPatchId ← liftExcept (normalizePatchId patch.gitPatchId)
    if gitPatchId ∈ wanted then cachePatch { patch with gitPatchId := gitPatchId } else pure ⟨⟩

/-- A hint that cannot be used is no error. -/
def cacheHint (wanted : List String) (messageId : String) : Resolve ω PUnit := do
  match ← askRemote (world.fetchThreadPatches messageId) with
  | .ok patches => cacheRequiredPatches wanted patches
  | .error _ => pure ⟨⟩

def cacheHintedPatches (wanted : List String) : List String → Resolve ω PUnit
  | [] => pure ⟨⟩
  | messageId :: messageIds => do
    let s ← get
    if wanted.all fun id => (s.patchCache.lookup id).isSome then pure ⟨⟩
    else
      cacheHint world wanted messageId
      cacheHintedPatches wanted messageIds

def appendPatch (patch : PrerequisitePatch) : Resolve ω PUnit := do
  let gitPatchId ← liftExcept (normalizePatchId patch.gitPatchId)
  let patch := { patch with gitPatchId := gitPatchId }
  cachePatch patch
  let s ← get
  if gitPatchId ∈ s.seenPatchIds then pure ⟨⟩
  else
    modify fun s => { s with seenPatchIds := insert gitPatchId s.seenPatchIds }
    if s.resolved.length = maxPrerequisitePatchIds then
      throw ("resolved prerequisites contain more than " ++ toString maxPrerequisitePatchIds ++
        " unique patches")
    else modify fun s => { s with resolved := s.resolved ++ [patch] }

def searchMissingPatch (wanted : List String) (patchId : String) : Resolve ω PUnit := do
  let s ← get
  if (s.patchCache.lookup patchId).isSome then pure ⟨⟩
  else
    let fetched ← askRemote (withContext
      ("failed to fetch prerequisite patch " ++ patchId ++ " from lore")
      (world.searchPatchId patchId)) >>= liftExcept
    cacheRequiredPatches wanted fetched

def resolvePatchId (wanted : List String) (patchId : String) : Resolve ω PUnit := do
  searchMissingPatch world wanted patchId
  let s ← get
  match s.patchCache.lookup patchId with
  | none => throw ("lore did not return prerequisite patch ID " ++ patchId)
  | some patch => appendPatch patch

def resolvePatchIds (patchIds messageIds : List String) : Resolve ω PUnit :=
  if patchIds.length > maxPrerequisitePatchIds then
    throw ("cannot resolve more than " ++ toString maxPrerequisitePatchIds ++
      " prerequisite patch IDs")
  else do
    let patchIds ← liftExcept (patchIds.mapM normalizePatchId)
    cacheLocalPatches world patchIds
    cacheHintedPatches world patchIds messageIds
    forM patchIds (resolvePatchId world patchIds)

def resolveMetadata (resolveSeries : String → Resolve ω PUnit) :
    PrerequisiteMetadata → Resolve ω PUnit
  | .patchIds patchIds messageIds => resolvePatchIds world patchIds messageIds
  | .messageIds messageIds => forM messageIds resolveSeries
  | .basedOn messageId => resolveSeries messageId

def resolveDependencies (resolveSeries : String → Resolve ω PUnit) (body : String) :
    Resolve ω PUnit := do
  match ← liftExcept (parsePrerequisiteMetadata body) with
  | some metadata => resolveMetadata world resolveSeries metadata
  | none => pure ⟨⟩

/-- `room` is how many series the chain may still have: `depth` is `9 - room`. After an error
nobody looks at the active ids again. -/
def resolveSeries (room : ℕ) (messageId : String) : Resolve ω PUnit :=
  match room with
  | 0 =>
    throw ("prerequisite dependency chain exceeds " ++ toString maxPrerequisiteDepth ++ " series")
  | room + 1 => do
    let requestedId := cleanMessageId messageId
    let s ← get
    if requestedId ∈ s.activeMessageIds then
      throw ("prerequisite dependency cycle includes " ++ requestedId)
    else if requestedId ∈ s.resolvedSeries then pure ⟨⟩
    else
      let series ← loadSeries world requestedId
      let actualId := cleanMessageId series.messageId
      let s ← get
      if actualId ∈ s.activeMessageIds ∨ ∃ id ∈ series.localPatchsetId, id ∈ s.activePatchsetIds then
        throw ("prerequisite dependency cycle includes " ++ actualId)
      else
        modify fun s => { s with
          activeMessageIds := insert actualId (insert requestedId s.activeMessageIds)
          activePatchsetIds := s.activePatchsetIds ∪ series.localPatchsetId.toFinset }
        resolveDependencies world (resolveSeries room) series.body
        forM series.patches appendPatch
        modify fun s => { s with
          activeMessageIds := (s.activeMessageIds.erase requestedId).erase actualId
          activePatchsetIds := s.activePatchsetIds \ series.localPatchsetId.toFinset
          resolvedSeries :=
            if actualId ∈ s.resolvedSeries then s.resolvedSeries
            else s.resolvedSeries ++ [actualId] }

def resolveTarget (targetPatchsetId : ℤ) (targetMessageId : Option String)
    (metadata : PrerequisiteMetadata) : Resolve ω (List PrerequisitePatch) := do
  modify fun s => { s with
    activePatchsetIds := insert targetPatchsetId s.activePatchsetIds
    activeMessageIds := s.activeMessageIds ∪ (targetMessageId.map cleanMessageId).toFinset }
  resolveMetadata world (resolveSeries world maxPrerequisiteDepth) metadata
  let s ← get
  pure s.resolved

def resolvePrerequisites (targetPatchsetId : ℤ) (targetMessageId : Option String) (body : String) :
    Resolve ω (List PrerequisitePatch) := do
  match ← liftExcept (parsePrerequisiteMetadata body) with
  | none => pure []
  | some metadata => resolveTarget world targetPatchsetId targetMessageId metadata

end Resolver

end Sashiko
