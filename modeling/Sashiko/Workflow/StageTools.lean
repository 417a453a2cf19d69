import Sashiko.Ai.Pairing

/-! `StageSession::call_tools`: a batch of tool calls in which a call that repeats the one before
it is answered without running. The batch plans first, runs the rest side by side and scatters the
results back; it answers as `call_tool` does call after call. -/

namespace Sashiko

def duplicateToolCall : Json :=
  .obj [("error", .str ("Duplicate tool call blocked. Please change parameters or use a " ++
    "different tool."))]

/-- The slots the duplicate guard fills, the calls left to run with their slots, and the last call
run, from slot `idx` on. -/
structure ToolPlan where
  results : List (Option (String × Json))
  toRun : List (ℕ × ToolCall)
  lastToolCall : Option (String × Json)

def planToolCalls (last : Option (String × Json)) (idx : ℕ) : List ToolCall → ToolPlan
  | [] => ⟨[], [], last⟩
  | call :: rest =>
    if last = some (call.functionName, call.arguments) then
      let plan := planToolCalls last (idx + 1) rest
      { plan with results := some (call.id, duplicateToolCall) :: plan.results }
    else
      let plan := planToolCalls (some (call.functionName, call.arguments)) (idx + 1) rest
      { plan with results := none :: plan.results, toRun := (idx, call) :: plan.toRun }

/-- A rejected call is the model's to read. -/
def runToolCall (toolsCall : String → Json → Except AnyhowError Json) (call : ToolCall) : Json :=
  match toolsCall call.functionName call.arguments with
  | .ok v => v
  | .error e => .obj [("error", .str e.message)]

def fillToolResults (toolsCall : String → Json → Except AnyhowError Json)
    (results : List (Option (String × Json))) (toRun : List (ℕ × ToolCall)) :
    List (Option (String × Json)) :=
  toRun.foldl (fun results p => results.set p.1 (some (p.2.id, runToolCall toolsCall p.2))) results

def stageCallTools (toolsCall : String → Json → Except AnyhowError Json)
    (last : Option (String × Json)) (calls : List ToolCall) :
    Except AnyhowError (List (String × Json)) × Option (String × Json) :=
  let plan := planToolCalls last 0 calls
  (.ok ((fillToolResults toolsCall plan.results plan.toRun).filterMap id), plan.lastToolCall)

/-- `StageSession::call_tool`, which answers a failed call with its error. -/
def stageCallTool (toolsCall : String → Json → Except AnyhowError Json)
    (last : Option (String × Json)) (name : String) (args : Json) :
    Except AnyhowError Json × Option (String × Json) :=
  if last = some (name, args) then (.ok duplicateToolCall, last)
  else
    match toolsCall name args with
    | .ok v => (.ok v, some (name, args))
    | .error e => (.ok (.obj [("error", .str e.message)]), some (name, args))

/-- What the duplicate guard compares. -/
def ToolCall.guardKey (call : ToolCall) : String × Json := (call.functionName, call.arguments)

/-- The `last_tool_call` that a session holds after batch upon batch. -/
def lastAfterBatches (toolsCall : String → Json → Except AnyhowError Json)
    (last : Option (String × Json)) (batches : List (List ToolCall)) : Option (String × Json) :=
  batches.foldl (fun last calls => (stageCallTools toolsCall last calls).2) last

section Sequential

variable (toolsCall : String → Json → Except AnyhowError Json)

theorem stageCallTool_repeated (call : ToolCall) :
    stageCallTool toolsCall (some call.guardKey) call.functionName call.arguments =
      (.ok duplicateToolCall, some call.guardKey) :=
  if_pos rfl

theorem stageCallTool_runs (last : Option (String × Json)) (call : ToolCall)
    (h : last ≠ some call.guardKey) :
    stageCallTool toolsCall last call.functionName call.arguments =
      (.ok (runToolCall toolsCall call), some call.guardKey) := by
  rw [ToolCall.guardKey] at h ⊢
  rw [stageCallTool, if_neg h, runToolCall]
  cases toolsCall call.functionName call.arguments <;> rfl

theorem planToolCalls_repeated (idx : ℕ) (call : ToolCall) (rest : List ToolCall) :
    planToolCalls (some call.guardKey) idx (call :: rest) =
      { planToolCalls (some call.guardKey) (idx + 1) rest with
        results := some (call.id, duplicateToolCall) ::
          (planToolCalls (some call.guardKey) (idx + 1) rest).results } :=
  if_pos rfl

theorem planToolCalls_runs (last : Option (String × Json)) (idx : ℕ) (call : ToolCall)
    (rest : List ToolCall) (h : last ≠ some call.guardKey) :
    planToolCalls last idx (call :: rest) =
      { planToolCalls (some call.guardKey) (idx + 1) rest with
        results := none :: (planToolCalls (some call.guardKey) (idx + 1) rest).results
        toRun := (idx, call) :: (planToolCalls (some call.guardKey) (idx + 1) rest).toRun } :=
  if_neg h

/-- Behind the slots already filled, the batch fills one slot per call with the answer that
`call_tool` gives there, and leaves the guard as the calls one by one do. -/
theorem fillToolResults_sequential (last : Option (String × Json))
    (pre : List (Option (String × Json))) (calls : List ToolCall) :
    ∃ filled : List (String × Json),
      fillToolResults toolsCall (pre ++ (planToolCalls last pre.length calls).results)
        (planToolCalls last pre.length calls).toRun = pre ++ filled.map some ∧
      defaultCallTools (stageCallTool toolsCall) last calls =
        (.ok filled, (planToolCalls last pre.length calls).lastToolCall) := by
  induction calls generalizing last pre with
  | nil => exact ⟨[], rfl, rfl⟩
  | cons call rest ih =>
    by_cases hdup : last = some call.guardKey
    · subst hdup
      obtain ⟨filled, hfill, hseq⟩ := ih (some call.guardKey)
        (pre ++ [some (call.id, duplicateToolCall)])
      refine ⟨(call.id, duplicateToolCall) :: filled, ?_, ?_⟩
      · simpa [planToolCalls_repeated] using hfill
      · rw [List.length_append, List.length_singleton] at hseq
        simp only [defaultCallTools, stageCallTool_repeated, planToolCalls_repeated, hseq]
    · obtain ⟨filled, hfill, hseq⟩ := ih (some call.guardKey)
        (pre ++ [some (call.id, runToolCall toolsCall call)])
      refine ⟨(call.id, runToolCall toolsCall call) :: filled, ?_, ?_⟩
      · simpa [planToolCalls_runs _ _ _ _ hdup, fillToolResults] using hfill
      · rw [List.length_append, List.length_singleton] at hseq
        simp only [defaultCallTools, stageCallTool_runs _ _ _ hdup,
          planToolCalls_runs _ _ _ _ hdup, hseq]

theorem stageCallTools_eq_default (last : Option (String × Json)) (calls : List ToolCall) :
    stageCallTools toolsCall last calls =
      defaultCallTools (stageCallTool toolsCall) last calls := by
  obtain ⟨filled, hfill, hseq⟩ := fillToolResults_sequential toolsCall last [] calls
  simp only [List.nil_append, List.length_nil] at hfill hseq
  rw [hseq, stageCallTools, hfill, List.filterMap_map]
  exact congrArg (fun results => (Except.ok results, _)) List.filterMap_some

/-- One result per call, in call order, as `run` relies on. -/
theorem stageCallTools_ids (last last' : Option (String × Json)) (calls : List ToolCall)
    (results : List (String × Json))
    (h : stageCallTools toolsCall last calls = (.ok results, last')) :
    results.map Prod.fst = calls.map ToolCall.id := by
  rw [stageCallTools_eq_default] at h
  exact defaultCallTools_ids _ _ _ _ _ h

theorem stageCallTools_ok (last : Option (String × Json)) (calls : List ToolCall) :
    ∃ results, (stageCallTools toolsCall last calls).1 = .ok results ∧
      results.map Prod.fst = calls.map ToolCall.id :=
  ⟨_, rfl, stageCallTools_ids toolsCall last _ calls _ rfl⟩

/-! ### The guard across batches -/

/-- A repeat leaves the guard on the call it repeats, so it holds the last call either way. -/
theorem planToolCalls_last (last : Option (String × Json)) (idx : ℕ) (calls : List ToolCall) :
    (planToolCalls last idx calls).lastToolCall =
      (calls.getLast?.map ToolCall.guardKey).or last := by
  induction calls generalizing last idx with
  | nil => rfl
  | cons call rest ih =>
    have hlast : ((call :: rest).getLast?.map ToolCall.guardKey).or last =
        (rest.getLast?.map ToolCall.guardKey).or (some call.guardKey) := by
      rw [List.getLast?_cons]
      cases rest.getLast? <;> rfl
    by_cases hdup : last = some call.guardKey
    · subst hdup
      rw [planToolCalls_repeated, hlast]
      exact ih _ _
    · rw [planToolCalls_runs _ _ _ _ hdup, hlast]
      exact ih _ _

theorem lastAfterBatches_eq (last : Option (String × Json)) (batches : List (List ToolCall)) :
    lastAfterBatches toolsCall last batches =
      (batches.flatten.getLast?.map ToolCall.guardKey).or last := by
  induction batches generalizing last with
  | nil => rfl
  | cons calls batches ih =>
    have hstep : lastAfterBatches toolsCall last (calls :: batches) =
        lastAfterBatches toolsCall (planToolCalls last 0 calls).lastToolCall batches := rfl
    rw [hstep, ih, planToolCalls_last, List.flatten_cons, List.getLast?_append]
    cases batches.flatten.getLast? <;> rfl

theorem planToolCalls_results_length (last : Option (String × Json)) (idx : ℕ)
    (calls : List ToolCall) : (planToolCalls last idx calls).results.length = calls.length := by
  induction calls generalizing last idx with
  | nil => rfl
  | cons call rest ih =>
    by_cases hdup : last = some call.guardKey
    · subst hdup
      rw [planToolCalls_repeated]
      exact congrArg (· + 1) (ih _ _)
    · rw [planToolCalls_runs _ _ _ _ hdup]
      exact congrArg (· + 1) (ih _ _)

theorem planToolCalls_toRun_range (last : Option (String × Json)) (idx : ℕ)
    (calls : List ToolCall) :
    ∀ p ∈ (planToolCalls last idx calls).toRun, idx ≤ p.1 ∧ p.1 < idx + calls.length := by
  induction calls generalizing last idx with
  | nil => exact fun p hp => absurd hp List.not_mem_nil
  | cons call rest ih =>
    intro p hp
    rw [List.length_cons]
    by_cases hdup : last = some call.guardKey
    · subst hdup
      rw [planToolCalls_repeated] at hp
      have hrest := ih _ _ p hp
      omega
    · rw [planToolCalls_runs _ _ _ _ hdup] at hp
      rcases List.mem_cons.mp hp with rfl | hp
      · simp only
        omega
      · have hrest := ih _ _ p hp
        omega

/-- The plan of a longer batch goes on from where the shorter one stopped. -/
theorem planToolCalls_append (last : Option (String × Json)) (idx : ℕ)
    (before after : List ToolCall) :
    (planToolCalls last idx (before ++ after)).results =
        (planToolCalls last idx before).results ++
          (planToolCalls (planToolCalls last idx before).lastToolCall (idx + before.length)
            after).results ∧
      (planToolCalls last idx (before ++ after)).toRun =
        (planToolCalls last idx before).toRun ++
          (planToolCalls (planToolCalls last idx before).lastToolCall (idx + before.length)
            after).toRun := by
  induction before generalizing last idx with
  | nil => exact ⟨rfl, rfl⟩
  | cons call rest ih =>
    have hidx : idx + (call :: rest).length = idx + 1 + rest.length := by
      rw [List.length_cons]
      omega
    rw [hidx, List.cons_append]
    by_cases hdup : last = some call.guardKey
    · subst hdup
      rw [planToolCalls_repeated, planToolCalls_repeated]
      exact ⟨congrArg (_ :: ·) (ih _ _).1, (ih _ _).2⟩
    · rw [planToolCalls_runs _ _ _ _ hdup, planToolCalls_runs _ _ _ _ hdup]
      exact ⟨congrArg (_ :: ·) (ih _ _).1, congrArg (_ :: ·) (ih _ _).2⟩

/-- The slot of a call is the guard's exactly where the guard holds the call. -/
theorem planToolCalls_slot (last : Option (String × Json)) (before after : List ToolCall)
    (call : ToolCall) :
    (planToolCalls last 0 (before ++ call :: after)).results[before.length]? =
        some (if (planToolCalls last 0 before).lastToolCall = some call.guardKey
          then some (call.id, duplicateToolCall) else none) ∧
      ((before.length, call) ∈ (planToolCalls last 0 (before ++ call :: after)).toRun ↔
        (planToolCalls last 0 before).lastToolCall ≠ some call.guardKey) := by
  obtain ⟨hresults, htoRun⟩ := planToolCalls_append last 0 before (call :: after)
  have hbefore : (before.length, call) ∉ (planToolCalls last 0 before).toRun := fun hmem => by
    have hrange := planToolCalls_toRun_range last 0 before _ hmem
    omega
  have hafter : ∀ last', (before.length, call) ∉
      (planToolCalls last' (0 + before.length + 1) after).toRun := fun last' hmem => by
    have hrange := planToolCalls_toRun_range last' _ after _ hmem
    omega
  rw [hresults, htoRun, List.getElem?_append_right
    (Nat.le_of_eq (planToolCalls_results_length last 0 before)),
    planToolCalls_results_length, Nat.sub_self, List.mem_append, or_iff_right hbefore]
  by_cases hdup : (planToolCalls last 0 before).lastToolCall = some call.guardKey
  · rw [hdup, planToolCalls_repeated, if_pos rfl]
    exact ⟨rfl, iff_of_false (hafter _) (not_not_intro rfl)⟩
  · rw [planToolCalls_runs _ _ _ _ hdup, if_neg hdup, Nat.zero_add]
    exact ⟨rfl, iff_of_true List.mem_cons_self hdup⟩

/-- A batch answers as its calls one after another do, and blocks exactly the calls that equal
the one before them in the whole sequence of the session. -/
theorem callTools_sequential :
    (∀ last calls, stageCallTools toolsCall last calls =
        defaultCallTools (stageCallTool toolsCall) last calls) ∧
      (∀ last calls, ∃ results, (stageCallTools toolsCall last calls).1 = .ok results ∧
        results.map Prod.fst = calls.map ToolCall.id) ∧
      ∀ last batches before call after,
        let previous := ((batches.flatten ++ before).getLast?.map ToolCall.guardKey).or last
        let plan := planToolCalls (lastAfterBatches toolsCall last batches) 0
          (before ++ call :: after)
        plan.results[before.length]? = some (if previous = some call.guardKey
            then some (call.id, duplicateToolCall) else none) ∧
          ((before.length, call) ∈ plan.toRun ↔ previous ≠ some call.guardKey) := by
  refine ⟨stageCallTools_eq_default toolsCall, stageCallTools_ok toolsCall, ?_⟩
  intro last batches before call after previous plan
  have hprevious : previous =
      (planToolCalls (lastAfterBatches toolsCall last batches) 0 before).lastToolCall := by
    rw [planToolCalls_last, lastAfterBatches_eq]
    simp only [previous, List.getLast?_append]
    cases before.getLast? <;> rfl
  rw [hprevious]
  exact planToolCalls_slot _ before after call

end Sequential

end Sashiko
