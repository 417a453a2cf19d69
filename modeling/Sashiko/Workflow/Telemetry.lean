import Sashiko.Workflow.Engine
import Mathlib.Algebra.Order.Group.Nat
import Mathlib.Data.List.Chain

/-! The outcome of a workflow as a record of the stages that ran. Whatever path the engine takes,
the outcome it returns or attaches to its error is the record of a list of stage runs: their
histories joined, their slices side by side, their tokens summed. -/

namespace Sashiko

/-- The joins hand the results out in the order of the stages. -/
theorem getElem?_fillSlots {α : Type} (results : List α) (order : List ℕ)
    (slots : List (Option α)) (j : ℕ) :
    (order.foldl (fun slots i => slots.set i results[i]?) slots)[j]? =
      if j ∈ order ∧ j < slots.length then some results[j]? else slots[j]? := by
  induction order generalizing slots with
  | nil => simp
  | cons i order ih =>
    rw [List.foldl_cons, ih, List.length_set, List.getElem?_set]
    by_cases hj : j < slots.length
    · by_cases hij : i = j
      · subst hij
        simp [hj]
      · simp [hij, Ne.symm hij, hj]
    · have hnone : slots[j]? = none := List.getElem?_eq_none (not_lt.mp hj)
      by_cases hij : i = j
      · subst hij
        simp [hj]
      · simp [hij, hj]

theorem joinAll_eq {S : Type} (J : Joins S) (results : List (StageResult S)) :
    joinAll J results = results := by
  have hslots : (J.order results.length).foldl (fun slots i => slots.set i results[i]?)
      (List.replicate results.length none) = results.map some := by
    apply List.ext_getElem?
    intro j
    rw [getElem?_fillSlots, List.length_replicate, List.getElem?_map]
    by_cases hj : j < results.length
    · have hmem : j ∈ J.order results.length :=
        (J.order_perm _).mem_iff.mpr (List.mem_range.mpr hj)
      simp [hmem, hj]
    · simp [hj]
  rw [joinAll, hslots, List.filterMap_map]
  exact List.filterMap_some

/-- A stage run as the record sees it: the stage's name and what it left. -/
abbrev StageRun : Type := String × StageOutcome

/-- The records of `runs` laid side by side from `base` on. -/
def records (base : ℕ) : List StageRun → List StageRunRecord
  | [] => []
  | (name, o) :: rest =>
    ⟨name, o.skipped, o.turns, o.tokensIn, o.tokensOut, o.tokensCached, base,
      base + o.history.length⟩ :: records (base + o.history.length) rest

def joinedHistory (runs : List StageRun) : List AiMessage := runs.flatMap (·.2.history)

/-- The outcome is the record of `runs`. -/
structure Recorded (o : WorkflowOutcome) (runs : List StageRun) : Prop where
  tokensIn : o.tokensIn = satSum u32Max (runs.map (·.2.tokensIn))
  tokensOut : o.tokensOut = satSum u32Max (runs.map (·.2.tokensOut))
  tokensCached : o.tokensCached = satSum u32Max (runs.map (·.2.tokensCached))
  history : o.history = joinedHistory runs
  stageRuns : o.stageRuns = records 0 runs

theorem records_append (base : ℕ) (xs ys : List StageRun) :
    records base (xs ++ ys) = records base xs ++ records (base + (joinedHistory xs).length) ys := by
  induction xs generalizing base with
  | nil => simp [records, joinedHistory]
  | cons x xs ih =>
    obtain ⟨name, o⟩ := x
    simp [records, joinedHistory, ih, Nat.add_assoc]

theorem records_rebase (base k : ℕ) (xs : List StageRun) :
    (records base xs).map (.rebase k) = records (base + k) xs := by
  induction xs generalizing base with
  | nil => rfl
  | cons x xs ih =>
    obtain ⟨name, o⟩ := x
    simp only [records, List.map_cons, ih, StageRunRecord.rebase]
    rw [show base + o.history.length + k = base + k + o.history.length by omega]

theorem joinedHistory_append (xs ys : List StageRun) :
    joinedHistory (xs ++ ys) = joinedHistory xs ++ joinedHistory ys := List.flatMap_append

theorem recorded_default : Recorded .default [] := ⟨rfl, rfl, rfl, rfl, rfl⟩

theorem recorded_record {o : WorkflowOutcome} {runs : List StageRun} (h : Recorded o runs)
    (name : String) (so : StageOutcome) :
    Recorded (recordStageOutcome o name so) (runs ++ [(name, so)]) := by
  constructor
  · simp [recordStageOutcome, satSum_concat, h.tokensIn]
  · simp [recordStageOutcome, satSum_concat, h.tokensOut]
  · simp [recordStageOutcome, satSum_concat, h.tokensCached]
  · simp [recordStageOutcome, h.history, joinedHistory]
  · simp [recordStageOutcome, h.history, h.stageRuns, records_append, records]

/-- A merged branch is a record of its stages after those of the parent. -/
theorem recorded_merge {o b : WorkflowOutcome} {runs more : List StageRun} (h : Recorded o runs)
    (hb : Recorded b more) : Recorded (mergeWorkflowOutcome o b) (runs ++ more) := by
  constructor
  · simp [mergeWorkflowOutcome, satSum_append, h.tokensIn, hb.tokensIn]
  · simp [mergeWorkflowOutcome, satSum_append, h.tokensOut, hb.tokensOut]
  · simp [mergeWorkflowOutcome, satSum_append, h.tokensCached, hb.tokensCached]
  · simp [mergeWorkflowOutcome, h.history, hb.history, joinedHistory_append]
  · simp [mergeWorkflowOutcome, h.history, h.stageRuns, hb.stageRuns, records_append,
      records_rebase]

theorem recorded_earlyExit {o : WorkflowOutcome} {runs : List StageRun} (h : Recorded o runs)
    (reason : Option String) :
    Recorded { o with earlyExit := true, earlyExitReason := reason } runs :=
  ⟨h.tokensIn, h.tokensOut, h.tokensCached, h.history, h.stageRuns⟩

section

variable {S : Type}

/-- A run of one of the stages `holds` speaks of, from some state. -/
def RanFrom (holds : ExecutableStage S → Prop) (run : StageRun) : Prop :=
  ∃ stage state, holds stage ∧ run = (stage.name, slotOutcome (stage.executeIsolated state))

theorem RanFrom.mono {p q : ExecutableStage S → Prop} (hpq : ∀ stage, p stage → q stage)
    {run : StageRun} (h : RanFrom p run) : RanFrom q run := by
  obtain ⟨stage, state, hp, rfl⟩ := h
  exact ⟨stage, state, hpq stage hp, rfl⟩

/-- The outcome grew by runs of such stages. -/
def Grows (holds : ExecutableStage S → Prop) (o o' : WorkflowOutcome) : Prop :=
  ∀ runs, Recorded o runs → ∃ more, (∀ run ∈ more, RanFrom holds run) ∧
    Recorded o' (runs ++ more)

theorem Grows.refl (holds : ExecutableStage S → Prop) (o : WorkflowOutcome) : Grows holds o o :=
  fun runs h => ⟨[], fun _ hm => absurd hm List.not_mem_nil, by simpa using h⟩

theorem Grows.trans {holds : ExecutableStage S → Prop} {a b c : WorkflowOutcome}
    (hab : Grows holds a b) (hbc : Grows holds b c) : Grows holds a c := by
  intro runs h
  obtain ⟨m1, hm1, h1⟩ := hab runs h
  obtain ⟨m2, hm2, h2⟩ := hbc _ h1
  refine ⟨m1 ++ m2, fun run hr => ?_, by rwa [← List.append_assoc]⟩
  exact (List.mem_append.mp hr).elim (hm1 run) (hm2 run)

theorem Grows.mono {p q : ExecutableStage S → Prop} (hpq : ∀ stage, p stage → q stage)
    {a b : WorkflowOutcome} (h : Grows p a b) : Grows q a b := by
  intro runs hr
  obtain ⟨more, hm, hrec⟩ := h runs hr
  exact ⟨more, fun run hrun => (hm run hrun).mono hpq, hrec⟩

theorem grows_record {holds : ExecutableStage S → Prop} {stage : ExecutableStage S}
    (hs : holds stage) (state : S) (o : WorkflowOutcome) :
    Grows holds o
      (recordStageOutcome o stage.name (slotOutcome (stage.executeIsolated state))) := by
  intro runs h
  refine ⟨[_], fun run hr => ?_, recorded_record h _ _⟩
  rw [List.mem_singleton.mp hr]
  exact ⟨stage, state, hs, rfl⟩

theorem executeStage_outcome (stage : ExecutableStage S) (state : S) (o : WorkflowOutcome) :
    (executeStage stage state o).2.2 =
      recordStageOutcome o stage.name (slotOutcome (stage.executeIsolated state)) := by
  unfold executeStage ExecutableStage.execute
  cases stage.executeIsolated state <;> rfl

theorem grows_recordSlots {holds : ExecutableStage S → Prop} (state : S)
    (slots : List (ExecutableStage S × Option StageOutcome))
    (hslots : ∀ p ∈ slots, holds p.1 ∧
      ∀ o, p.2 = some o → o = slotOutcome (p.1.executeIsolated state)) (o : WorkflowOutcome) :
    Grows holds o (recordSlots o slots) := by
  induction slots generalizing o with
  | nil => exact .refl holds o
  | cons p rest ih =>
    have hrest := ih fun q hq => hslots q (List.mem_cons_of_mem _ hq)
    obtain ⟨stage, slot⟩ := p
    obtain ⟨hstage, hslot⟩ := hslots _ List.mem_cons_self
    cases slot with
    | none => exact hrest o
    | some so =>
      rw [recordSlots, hslot so rfl]
      exact (grows_record hstage state o).trans (hrest _)

theorem grows_failFastBatch (J : Joins S) (stages : List (ExecutableStage S)) (state : S)
    (o : WorkflowOutcome) :
    Grows (· ∈ stages) o (failFastBatch J stages state o).2.2 := by
  unfold failFastBatch
  simp only
  split
  · refine grows_recordSlots state _ (fun p hp => ?_) o
    rw [List.map_map, ← List.map_prod_left_eq_zip, List.mem_map] at hp
    obtain ⟨stage, hstage, rfl⟩ := hp
    exact ⟨hstage, fun so h => (Option.some.inj h).symm⟩
  · refine grows_recordSlots state _ (fun p hp => ?_) o
    obtain ⟨i, hi⟩ := List.mem_iff_getElem?.mp hp
    obtain ⟨hstage, hslot⟩ := List.getElem?_zip_eq_some.mp hi
    refine ⟨List.mem_of_getElem? hstage, fun so hso => ?_⟩
    -- the slot of stage `i` is empty or holds the result of that very stage
    rw [List.getElem?_mapIdx, List.getElem?_map, hstage, Option.map_some, Option.map_some, hso,
      Option.some.injEq] at hslot
    split_ifs at hslot
    exact (Option.some.inj hslot).symm

theorem bestEffortStep_outcome (n : ℕ) (b : BestEffort S) (stage : ExecutableStage S)
    (r : StageResult S) : (bestEffortStep n b (stage, r)).outcome =
      recordStageOutcome b.outcome stage.name (slotOutcome r) := by
  cases r with
  | ok p => rfl
  | error e =>
    simp only [bestEffortStep]
    split_ifs <;> rfl

theorem grows_bestEffort (n : ℕ) (stages ran : List (ExecutableStage S)) (state : S)
    (hran : ∀ stage ∈ ran, stage ∈ stages) (b : BestEffort S) :
    Grows (· ∈ stages) b.outcome
      ((ran.zip (ran.map (·.executeIsolated state))).foldl (bestEffortStep n) b).outcome := by
  induction ran generalizing b with
  | nil => exact .refl _ _
  | cons stage ran ih =>
    rw [List.map_cons, List.zip_cons_cons, List.foldl_cons]
    have hstep := grows_record (hran stage List.mem_cons_self) state b.outcome
    rw [← bestEffortStep_outcome n b] at hstep
    exact hstep.trans (ih (fun x hx => hran x (List.mem_cons_of_mem _ hx)) _)

theorem grows_bestEffortBatch (J : Joins S) (stages : List (ExecutableStage S)) (state : S)
    (o : WorkflowOutcome) :
    Grows (· ∈ stages) o (bestEffortBatch J stages state o).2.2 := by
  have h := grows_bestEffort stages.length stages stages state (fun _ hx => hx)
    ⟨state, o, 0, none, none⟩
  unfold bestEffortBatch
  simp only [joinAll_eq]
  repeat' split
  all_goals exact h

theorem grows_executeParallelBatch (J : Joins S) (stages : List (ExecutableStage S))
    (policy : ParallelPolicy) (state : S) (o : WorkflowOutcome) :
    Grows (· ∈ stages) o (executeParallelBatch J stages policy state o).2.2 := by
  cases policy with
  | failFast => exact grows_failFastBatch J stages state o
  | bestEffort => exact grows_bestEffortBatch J stages state o

theorem grows_executeStage (stage : ExecutableStage S) (state : S) (o : WorkflowOutcome) :
    Grows (· = stage) o (executeStage stage state o).2.2 := by
  rw [executeStage_outcome]
  exact @grows_record S (· = stage) stage rfl state o

theorem grows_executeResolved (J : Joins S) (resolver : S → List (ExecutableStage S))
    (policy : ParallelPolicy) (state : S) (o : WorkflowOutcome) :
    Grows (fun stage => ∃ s, stage ∈ resolver s) o
      (executeResolved J resolver policy state o).2.2 := by
  unfold executeResolved
  simp only
  split_ifs
  · exact .refl _ _
  · exact (grows_executeParallelBatch J _ policy state o).mono fun stage h => ⟨state, h⟩

@[simp] theorem flowNext_outcome (r : Except AnyhowError Unit × S × WorkflowOutcome) :
    (flowNext r).2.2 = r.2.2 := by
  obtain ⟨_ | _, _, _⟩ := r <;> rfl

mutual
/-- The stages a step can run: its own, those its resolver can return, those of its branches. -/
def WorkflowStep.CanRun : WorkflowStep S → ExecutableStage S → Prop
  | .stage own, stage => stage = own
  | .parallel stages _, stage => stage ∈ stages
  | .dynamicParallel planner resolver _, stage => stage = planner ∨ ∃ s, stage ∈ resolver s
  | .resolvedParallel resolver _, stage => ∃ s, stage ∈ resolver s
  | .branch _ thenFlow elseFlow, stage => thenFlow.CanRun stage ∨ elseCanRun elseFlow stage
  | .earlyExitIf _ _, _ => False
def elseCanRun : Option (Workflow S) → ExecutableStage S → Prop
  | some elseFlow, stage => elseFlow.CanRun stage
  | none, _ => False
def stepsCanRun : List (WorkflowStep S) → ExecutableStage S → Prop
  | [], _ => False
  | step :: rest, stage => step.CanRun stage ∨ stepsCanRun rest stage
def Workflow.CanRun : Workflow S → ExecutableStage S → Prop
  | .mk _ steps, stage => stepsCanRun steps stage
end

/-- The result of a workflow is a record: the returned outcome, or the one attached outermost to
the error. -/
def ResultRecorded (holds : ExecutableStage S → Prop)
    (result : Except AnyhowError WorkflowOutcome) : Prop :=
  ∃ o, (result = .ok o ∨ ∃ e f, result = .error e ∧ e.workflowFailure = some f ∧ f.outcome = o) ∧
    ∃ runs, (∀ run ∈ runs, RanFrom holds run) ∧ Recorded o runs

theorem grows_mergeBranch {holds : ExecutableStage S → Prop}
    {r : Except AnyhowError WorkflowOutcome × S} (h : ResultRecorded holds r.1)
    (o : WorkflowOutcome) : Grows holds o (mergeBranch o r).2.2 := by
  obtain ⟨res, state⟩ := r
  obtain ⟨b, hres, more, hmore, hb⟩ := h
  intro runs hruns
  refine ⟨more, hmore, ?_⟩
  have hmerge := recorded_merge hruns hb
  rcases hres with hok | ⟨e, f, herr, hf, hout⟩
  · cases hok
    simp only [mergeBranch]
    split_ifs
    · exact recorded_earlyExit hmerge _
    · exact hmerge
  · cases herr
    subst hout
    simp only [mergeBranch, hf]
    exact hmerge

mutual
theorem grows_executeStep (J : Joins S) : ∀ (step : WorkflowStep S) (state : S)
    (o : WorkflowOutcome), Grows step.CanRun o (executeStep J step state o).2.2
  | .stage stage, state, o => by
    simp only [executeStep, flowNext_outcome]
    exact (grows_executeStage stage state o).mono fun _ h => by simpa [WorkflowStep.CanRun] using h
  | .parallel stages policy, state, o => by
    simp only [executeStep, flowNext_outcome]
    exact (grows_executeParallelBatch J stages policy state o).mono fun _ h => by
      simpa [WorkflowStep.CanRun] using h
  | .dynamicParallel planner resolver policy, state, o => by
    have hplan := (grows_executeStage planner state o).mono
      (q := (WorkflowStep.dynamicParallel planner resolver policy).CanRun)
      fun _ h => by simp [WorkflowStep.CanRun, h]
    simp only [executeStep]
    split
    · rename_i heq
      rwa [heq] at hplan
    · rename_i state' o' heq
      rw [heq] at hplan
      rw [flowNext_outcome]
      refine hplan.trans ((grows_executeResolved J resolver policy state' o').mono fun _ h => ?_)
      simp only [WorkflowStep.CanRun]
      exact Or.inr h
  | .resolvedParallel resolver policy, state, o => by
    simp only [executeStep, flowNext_outcome]
    exact (grows_executeResolved J resolver policy state o).mono fun _ h => by
      simpa [WorkflowStep.CanRun] using h
  | .branch condition thenFlow elseFlow, state, o => by
    simp only [executeStep]
    split_ifs
    · exact (grows_mergeBranch (execute_recorded J thenFlow state) o).mono fun _ h => by
        simp only [WorkflowStep.CanRun]
        exact Or.inl h
    · exact (grows_executeElse J elseFlow state o).mono fun _ h => by
        simp only [WorkflowStep.CanRun]
        exact Or.inr h
  | .earlyExitIf condition reason, state, o => by
    simp only [executeStep]
    split_ifs
    · exact fun runs h => ⟨[], fun _ hm => absurd hm List.not_mem_nil, by
        rw [List.append_nil]
        exact recorded_earlyExit h _⟩
    · exact .refl _ _
theorem grows_executeElse (J : Joins S) : ∀ (elseFlow : Option (Workflow S)) (state : S)
    (o : WorkflowOutcome), Grows (elseCanRun elseFlow) o (executeElse J elseFlow state o).2.2
  | some elseFlow, state, o => by
    simp only [executeElse]
    exact (grows_mergeBranch (execute_recorded J elseFlow state) o).mono fun _ h => by
      simpa [elseCanRun] using h
  | none, state, o => by
    simp only [executeElse]
    exact .refl _ _
theorem grows_executeSteps (J : Joins S) : ∀ (steps : List (WorkflowStep S)) (state : S)
    (o : WorkflowOutcome), Grows (stepsCanRun steps) o (executeSteps J steps state o).2.2
  | [], state, o => by
    simp only [executeSteps]
    exact .refl _ _
  | step :: rest, state, o => by
    have hstep := (grows_executeStep J step state o).mono (q := stepsCanRun (step :: rest))
      fun _ h => by
        simp only [stepsCanRun]
        exact Or.inl h
    simp only [executeSteps]
    split
    · rename_i state' o' heq
      rw [heq] at hstep
      refine hstep.trans ((grows_executeSteps J rest state' o').mono fun _ h => ?_)
      simp only [stepsCanRun]
      exact Or.inr h
    · rename_i heq
      rwa [heq] at hstep
    · rename_i heq
      rwa [heq] at hstep
theorem execute_recorded (J : Joins S) : ∀ (workflow : Workflow S) (state : S),
    ResultRecorded workflow.CanRun (execute J workflow state).1
  | .mk name steps, state => by
    obtain ⟨runs, hruns, hrec⟩ := grows_executeSteps J steps state .default [] recorded_default
    have hruns' : ∀ run ∈ runs, RanFrom (Workflow.mk name steps).CanRun run := fun run hr =>
      (hruns run hr).mono fun _ h => by simpa [Workflow.CanRun] using h
    simp only [execute]
    split
    · rename_i heq
      rw [heq] at hrec
      exact ⟨_, Or.inl rfl, runs, hruns', hrec⟩
    · rename_i heq
      rw [heq] at hrec
      exact ⟨_, Or.inr ⟨_, _, rfl, AnyhowError.workflowFailure_context _ _, rfl⟩, runs, hruns',
        hrec⟩
end

end

/-- `history[r.history_start..r.history_end]`. -/
def historySlice (history : List AiMessage) (r : StageRunRecord) : List AiMessage :=
  (history.take r.historyEnd).drop r.historyStart

/-- The records tile the history in the order of `runs`, each slice is that stage's own history,
and the totals are the saturating sums of the records. -/
structure ConsistentOutcome (o : WorkflowOutcome) (runs : List StageRun) : Prop where
  named : o.stageRuns.map (fun r => (r.name, r.skipped, r.turns)) =
    runs.map fun run => (run.1, run.2.skipped, run.2.turns)
  first : ∀ r, o.stageRuns.head? = some r → r.historyStart = 0
  chained : o.stageRuns.IsChain fun a b => b.historyStart = a.historyEnd
  last : ∀ r, o.stageRuns.getLast? = some r → r.historyEnd = o.history.length
  covered : o.stageRuns = [] → o.history = []
  slices : o.stageRuns.map (historySlice o.history) = runs.map (·.2.history)
  spent : o.stageRuns.map (fun r => (r.tokensIn, r.tokensOut, r.tokensCached)) =
    runs.map fun run => (run.2.tokensIn, run.2.tokensOut, run.2.tokensCached)
  tokensIn : o.tokensIn = satSum u32Max (o.stageRuns.map (·.tokensIn))
  tokensOut : o.tokensOut = satSum u32Max (o.stageRuns.map (·.tokensOut))
  tokensCached : o.tokensCached = satSum u32Max (o.stageRuns.map (·.tokensCached))

/-- A field of the records that is copied from the stage runs. -/
theorem records_map {α : Type} (f : StageRunRecord → α) (g : StageRun → α)
    (h : ∀ name o base, f ⟨name, o.skipped, o.turns, o.tokensIn, o.tokensOut, o.tokensCached, base,
      base + o.history.length⟩ = g (name, o)) (base : ℕ) (runs : List StageRun) :
    (records base runs).map f = runs.map g := by
  induction runs generalizing base with
  | nil => rfl
  | cons run rest ih =>
    obtain ⟨name, o⟩ := run
    simp only [records, List.map_cons, h, ih]

theorem records_head (base : ℕ) (runs : List StageRun) (r : StageRunRecord)
    (h : (records base runs).head? = some r) : r.historyStart = base := by
  cases runs with
  | nil => simp [records] at h
  | cons run rest =>
    obtain ⟨name, o⟩ := run
    simp only [records, List.head?_cons, Option.some.injEq] at h
    rw [← h]

theorem records_chain (base : ℕ) (runs : List StageRun) :
    (records base runs).IsChain fun a b => b.historyStart = a.historyEnd := by
  induction runs generalizing base with
  | nil => exact .nil
  | cons run rest ih =>
    obtain ⟨name, o⟩ := run
    rw [records, List.isChain_cons]
    exact ⟨fun r hr => records_head _ rest r hr, ih _⟩

theorem records_last (base : ℕ) (runs : List StageRun) (r : StageRunRecord)
    (h : (records base runs).getLast? = some r) :
    r.historyEnd = base + (joinedHistory runs).length := by
  induction runs generalizing base with
  | nil => simp [records] at h
  | cons run rest ih =>
    obtain ⟨name, o⟩ := run
    simp only [records] at h
    cases hrest : records (base + o.history.length) rest with
    | nil =>
      rw [hrest, List.getLast?_singleton, Option.some.injEq] at h
      cases rest with
      | nil => simp [← h, joinedHistory]
      | cons x xs => simp [records] at hrest
    | cons x xs =>
      rw [hrest, List.getLast?_cons_cons, ← hrest] at h
      rw [ih _ h]
      simp [joinedHistory, Nat.add_assoc]

theorem records_slices (pre : List AiMessage) (runs : List StageRun) :
    (records pre.length runs).map (historySlice (pre ++ joinedHistory runs)) =
      runs.map (·.2.history) := by
  induction runs generalizing pre with
  | nil => rfl
  | cons run rest ih =>
    obtain ⟨name, o⟩ := run
    have hjoin : pre ++ joinedHistory ((name, o) :: rest) =
        pre ++ o.history ++ joinedHistory rest := by
      simp [joinedHistory]
    have hlen : pre.length + o.history.length = (pre ++ o.history).length := by simp
    rw [records, List.map_cons, List.map_cons, hjoin, hlen, ih (pre ++ o.history)]
    congr 1
    simp only [historySlice]
    rw [List.take_left, List.drop_left]

theorem consistent_of_recorded {o : WorkflowOutcome} {runs : List StageRun}
    (h : Recorded o runs) : ConsistentOutcome o runs where
  named := by
    rw [h.stageRuns]
    exact records_map _ _ (fun _ _ _ => rfl) 0 runs
  first r hr := by
    rw [h.stageRuns] at hr
    exact records_head 0 runs r hr
  chained := by
    rw [h.stageRuns]
    exact records_chain 0 runs
  last r hr := by
    rw [h.stageRuns] at hr
    rw [records_last 0 runs r hr, h.history, Nat.zero_add]
  covered hnil := by
    rw [h.stageRuns] at hnil
    cases runs with
    | nil => exact h.history
    | cons run rest => simp [records] at hnil
  slices := by
    rw [h.stageRuns, h.history]
    exact records_slices [] runs
  spent := by
    rw [h.stageRuns]
    exact records_map _ _ (fun _ _ _ => rfl) 0 runs
  tokensIn := by
    rw [h.stageRuns, h.tokensIn, records_map _ (·.2.tokensIn) (fun _ _ _ => rfl)]
  tokensOut := by
    rw [h.stageRuns, h.tokensOut, records_map _ (·.2.tokensOut) (fun _ _ _ => rfl)]
  tokensCached := by
    rw [h.stageRuns, h.tokensCached, records_map _ (·.2.tokensCached) (fun _ _ _ => rfl)]

/-- The outcome a workflow returns, or attaches outermost to its error, is consistent with the
runs of stages of the workflow. -/
theorem execute_consistent {S : Type} (J : Joins S) (workflow : Workflow S) (state : S) :
    ∃ o runs,
      ((execute J workflow state).1 = .ok o ∨
        ∃ e f, (execute J workflow state).1 = .error e ∧ e.workflowFailure = some f ∧
          f.outcome = o) ∧
      (∀ run ∈ runs, RanFrom workflow.CanRun run) ∧ ConsistentOutcome o runs := by
  obtain ⟨o, hres, runs, hruns, hrec⟩ := execute_recorded J workflow state
  exact ⟨o, runs, hres, hruns, consistent_of_recorded hrec⟩

end Sashiko
