import Sashiko.Ai.Message
import Mathlib.Data.List.Range

/-! `workflow/graph.rs` and `workflow/engine.rs`: a workflow is a tree of steps over a state `S`,
and the engine threads the state and the accumulated outcome through it. -/

namespace Sashiko

structure StageOutcome where
  tokensIn : ℕ
  tokensOut : ℕ
  tokensCached : ℕ
  history : List AiMessage
  skipped : Bool
  deriving DecidableEq, Repr

/-- `StageOutcome::turns`: the assistant messages of the history. -/
def StageOutcome.turns (o : StageOutcome) : ℕ := o.history.countP (·.role = .assistant)

/-- What an isolated stage execution comes to: its outcome and the deferred mutation. -/
abbrev StageResult (S : Type) : Type := Except AnyhowError (StageOutcome × (S → S))

/-- `dyn ExecutableStage<S>`. A stage runs at most once in a workflow run, so one function of the
state covers every behaviour of the model and the tools behind it. -/
structure ExecutableStage (S : Type) where
  name : String
  isRequired : Bool
  executeIsolated : S → StageResult S

/-- The provided method `execute`: apply the mutation at once. -/
def ExecutableStage.execute {S : Type} (stage : ExecutableStage S) (state : S) :
    Except AnyhowError StageOutcome × S :=
  match stage.executeIsolated state with
  | .ok (outcome, mutation) => (.ok outcome, mutation state)
  | .error e => (.error e, state)

inductive ParallelPolicy where
  | failFast | bestEffort
  deriving DecidableEq, Repr

mutual
inductive WorkflowStep (S : Type) where
  | stage (stage : ExecutableStage S)
  | parallel (stages : List (ExecutableStage S)) (policy : ParallelPolicy)
  | dynamicParallel (planner : ExecutableStage S) (resolver : S → List (ExecutableStage S))
      (policy : ParallelPolicy)
  | resolvedParallel (resolver : S → List (ExecutableStage S)) (policy : ParallelPolicy)
  | branch (condition : S → Bool) (thenFlow : Workflow S) (elseFlow : Option (Workflow S))
  | earlyExitIf (condition : S → Bool) (reason : String)
inductive Workflow (S : Type) where
  | mk (name : String) (steps : List (WorkflowStep S))
end

def Workflow.steps {S : Type} : Workflow S → List (WorkflowStep S)
  | .mk _ steps => steps

/-- The joins of `futures_util`. Futures complete in any `order`. `try_join_all` returns the error
of one future that failed, once some set of futures, that one among them, has completed. -/
structure Joins (S : Type) where
  order : ℕ → List ℕ
  order_perm : ∀ n, (order n).Perm (List.range n)
  failed : List (StageResult S) → ℕ
  completed : List (StageResult S) → ℕ → Bool
  failed_spec : ∀ results, (∃ e, Except.error e ∈ results) →
    ∃ e, results[failed results]? = some (.error e) ∧ completed results (failed results) = true

def WorkflowOutcome.default : WorkflowOutcome := ⟨0, 0, 0, [], [], false, none⟩

/-- `u32::try_from(n).unwrap_or(u32::MAX)`. -/
def toU32 (n : ℕ) : ℕ := min n u32Max

def stageOutcomeFromError (err : AnyhowError) : StageOutcome :=
  match err.sessionFailure with
  | some failure =>
    { tokensIn := toU32 failure.usage.promptTokens
      tokensOut := toU32 failure.usage.completionTokens
      tokensCached := toU32 (failure.usage.cachedTokens.getD 0)
      history := failure.history
      skipped := false }
  | none => ⟨0, 0, 0, [], false⟩

def recordStageOutcome (outcome : WorkflowOutcome) (stageName : String) (o : StageOutcome) :
    WorkflowOutcome :=
  { outcome with
    tokensIn := satAdd u32Max outcome.tokensIn o.tokensIn
    tokensOut := satAdd u32Max outcome.tokensOut o.tokensOut
    tokensCached := satAdd u32Max outcome.tokensCached o.tokensCached
    history := outcome.history ++ o.history
    stageRuns := outcome.stageRuns ++ [
      { name := stageName
        skipped := o.skipped
        turns := o.turns
        tokensIn := o.tokensIn
        tokensOut := o.tokensOut
        tokensCached := o.tokensCached
        historyStart := outcome.history.length
        historyEnd := (outcome.history ++ o.history).length }] }

/-- A vector never has `usize::MAX` messages, so the saturating additions are plain ones. -/
def StageRunRecord.rebase (base : ℕ) (rec : StageRunRecord) : StageRunRecord :=
  { rec with historyStart := rec.historyStart + base, historyEnd := rec.historyEnd + base }

def mergeWorkflowOutcome (outcome branchOutcome : WorkflowOutcome) : WorkflowOutcome :=
  { outcome with
    tokensIn := satAdd u32Max outcome.tokensIn branchOutcome.tokensIn
    tokensOut := satAdd u32Max outcome.tokensOut branchOutcome.tokensOut
    tokensCached := satAdd u32Max outcome.tokensCached branchOutcome.tokensCached
    history := outcome.history ++ branchOutcome.history
    stageRuns := outcome.stageRuns ++
      branchOutcome.stageRuns.map (.rebase outcome.history.length) }

section

variable {S : Type}

/-- The outcome a stage leaves in its record, on success and on failure. -/
def slotOutcome : StageResult S → StageOutcome
  | .ok (o, _) => o
  | .error e => stageOutcomeFromError e

/-- The values of the futures if all succeeded, else the error `try_join_all` returns. -/
def tryJoinAll (J : Joins S) (results : List (StageResult S)) :
    Except AnyhowError (List (S → S)) :=
  match results.mapM Except.toOption with
  | some values => .ok (values.map Prod.snd)
  | none => match results[J.failed results]? with
    | some (.error e) => .error e
    | _ => .error (.new (.text ""))

/-- `join_all` fills its slots in completion order and hands them out in the order of the
futures. -/
def joinAll (J : Joins S) (results : List (StageResult S)) : List (StageResult S) :=
  let slots := (J.order results.length).foldl
    (fun slots i => slots.set i results[i]?) (List.replicate results.length none)
  slots.filterMap id

def recordSlots (outcome : WorkflowOutcome) :
    List (ExecutableStage S × Option StageOutcome) → WorkflowOutcome
  | [] => outcome
  | (stage, some o) :: rest => recordSlots (recordStageOutcome outcome stage.name o) rest
  | (_, none) :: rest => recordSlots outcome rest

def failFastBatch (J : Joins S) (stages : List (ExecutableStage S)) (state : S)
    (outcome : WorkflowOutcome) : Except AnyhowError Unit × S × WorkflowOutcome :=
  let results := stages.map (·.executeIsolated state)
  match tryJoinAll J results with
  | .ok mutations =>
    (.ok (), mutations.foldl (fun s mutation => mutation s) state,
      recordSlots outcome (stages.zip (results.map (some <| slotOutcome ·))))
  | .error err =>
    let slots := results.mapIdx fun i r =>
      if J.completed results i then some (slotOutcome r) else none
    (.error err, state, recordSlots outcome (stages.zip slots))

structure BestEffort (S : Type) where
  state : S
  outcome : WorkflowOutcome
  successes : ℕ
  firstError : Option AnyhowError
  requiredError : Option AnyhowError

def requiredFailed (stage : ExecutableStage S) (err : AnyhowError) : AnyhowError :=
  err.context (.text ("Required parallel stage '" ++ stage.name ++ "' failed"))

def allFailed (n : ℕ) (stage : ExecutableStage S) (err : AnyhowError) : AnyhowError :=
  err.context (.text ("All " ++ toString n ++ " parallel stages failed under BestEffort policy " ++
    "(first failure in stage '" ++ stage.name ++ "')"))

/-- One round of the loop over the joined results of `n` stages. -/
def bestEffortStep (n : ℕ) (b : BestEffort S) :
    ExecutableStage S × StageResult S → BestEffort S
  | (stage, .ok (o, mutation)) => { b with
      successes := b.successes + 1
      state := mutation b.state
      outcome := recordStageOutcome b.outcome stage.name o }
  | (stage, .error err) =>
    let b := { b with
      outcome := recordStageOutcome b.outcome stage.name (stageOutcomeFromError err) }
    if stage.isRequired then
      { b with requiredError := b.requiredError.or (some (requiredFailed stage err)) }
    else { b with firstError := b.firstError.or (some (allFailed n stage err)) }

def bestEffortBatch (J : Joins S) (stages : List (ExecutableStage S)) (state : S)
    (outcome : WorkflowOutcome) : Except AnyhowError Unit × S × WorkflowOutcome :=
  let results := joinAll J (stages.map (·.executeIsolated state))
  let b := (stages.zip results).foldl (bestEffortStep stages.length) ⟨state, outcome, 0, none, none⟩
  match b.requiredError with
  | some err => (.error err, b.state, b.outcome)
  | none =>
    if stages ≠ [] ∧ b.successes = 0 then
      match b.firstError with
      | some err => (.error err, b.state, b.outcome)
      | none => (.ok (), b.state, b.outcome)
    else (.ok (), b.state, b.outcome)

def executeParallelBatch (J : Joins S) (stages : List (ExecutableStage S))
    (policy : ParallelPolicy) (state : S) (outcome : WorkflowOutcome) :
    Except AnyhowError Unit × S × WorkflowOutcome :=
  match policy with
  | .failFast => failFastBatch J stages state outcome
  | .bestEffort => bestEffortBatch J stages state outcome

/-- Whether the loop over the steps goes on or leaves by `break`. -/
inductive Flow where
  | next | break
  deriving DecidableEq, Repr

def executeStage (stage : ExecutableStage S) (state : S) (outcome : WorkflowOutcome) :
    Except AnyhowError Unit × S × WorkflowOutcome :=
  match stage.execute state with
  | (.ok o, state) => (.ok (), state, recordStageOutcome outcome stage.name o)
  | (.error err, state) =>
    (.error err, state, recordStageOutcome outcome stage.name (stageOutcomeFromError err))

def executeResolved (J : Joins S) (resolver : S → List (ExecutableStage S))
    (policy : ParallelPolicy) (state : S) (outcome : WorkflowOutcome) :
    Except AnyhowError Unit × S × WorkflowOutcome :=
  let dynamicStages := resolver state
  if dynamicStages.isEmpty then (.ok (), state, outcome)
  else executeParallelBatch J dynamicStages policy state outcome

def flowNext : Except AnyhowError Unit × S × WorkflowOutcome →
    Except AnyhowError Flow × S × WorkflowOutcome
  | (.ok _, state, outcome) => (.ok .next, state, outcome)
  | (.error err, state, outcome) => (.error err, state, outcome)

/-- What the parent does with the result of a branch. -/
def mergeBranch (outcome : WorkflowOutcome) :
    Except AnyhowError WorkflowOutcome × S → Except AnyhowError Flow × S × WorkflowOutcome
  | (.ok branchOutcome, state) =>
    let merged := mergeWorkflowOutcome outcome branchOutcome
    if branchOutcome.earlyExit then
      (.ok .break, state, { merged with
        earlyExit := true, earlyExitReason := branchOutcome.earlyExitReason })
    else (.ok .next, state, merged)
  | (.error err, state) =>
    match err.workflowFailure with
    | some wf => (.error err, state, mergeWorkflowOutcome outcome wf.outcome)
    | none => (.error err, state, outcome)

mutual
/-- One step of the loop in `execute_steps`. -/
def executeStep (J : Joins S) : WorkflowStep S → S → WorkflowOutcome →
    Except AnyhowError Flow × S × WorkflowOutcome
  | .stage stage, state, outcome => flowNext (executeStage stage state outcome)
  | .parallel stages policy, state, outcome =>
    flowNext (executeParallelBatch J stages policy state outcome)
  | .dynamicParallel planner resolver policy, state, outcome =>
    match executeStage planner state outcome with
    | (.error err, state, outcome) => (.error err, state, outcome)
    | (.ok _, state, outcome) => flowNext (executeResolved J resolver policy state outcome)
  | .resolvedParallel resolver policy, state, outcome =>
    flowNext (executeResolved J resolver policy state outcome)
  | .branch condition thenFlow elseFlow, state, outcome =>
    if condition state then mergeBranch outcome (execute J thenFlow state)
    else executeElse J elseFlow state outcome
  | .earlyExitIf condition reason, state, outcome =>
    if condition state then
      (.ok .break, state, { outcome with earlyExit := true, earlyExitReason := some reason })
    else (.ok .next, state, outcome)
def executeElse (J : Joins S) : Option (Workflow S) → S → WorkflowOutcome →
    Except AnyhowError Flow × S × WorkflowOutcome
  | some elseFlow, state, outcome => mergeBranch outcome (execute J elseFlow state)
  | none, state, outcome => (.ok .next, state, outcome)
def executeSteps (J : Joins S) : List (WorkflowStep S) → S → WorkflowOutcome →
    Except AnyhowError Unit × S × WorkflowOutcome
  | [], state, outcome => (.ok (), state, outcome)
  | step :: rest, state, outcome =>
    match executeStep J step state outcome with
    | (.ok .next, state, outcome) => executeSteps J rest state outcome
    | (.ok .break, state, outcome) => (.ok (), state, outcome)
    | (.error err, state, outcome) => (.error err, state, outcome)
/-- `WorkflowEngine::execute`. A failure carries the outcome reached so far. -/
def execute (J : Joins S) : Workflow S → S → Except AnyhowError WorkflowOutcome × S
  | .mk _ steps, state =>
    match executeSteps J steps state .default with
    | (.ok _, state, outcome) => (.ok outcome, state)
    | (.error err, state, outcome) =>
      (.error (err.context (.workflow ⟨err.message, outcome⟩)), state)
end

end

end Sashiko
