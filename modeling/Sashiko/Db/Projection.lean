import Sashiko.Access.Titles
import Sashiko.Db.BugCalls
import Sashiko.Lib.Latest
import Sashiko.Prior.Evidence

/-! The columns of a bug that triggers copy out of its enrichments, and the same values as read
from the enrichments themselves. -/

namespace Sashiko

/-! ### Severity strings -/

def Severity.fromStr (lower : StrLowercase) (s : String) : Severity :=
  if eqIgnoreAsciiCase (rustTrim s) "critical" then .critical
  else if startsWithText (lower.apply (rustTrim s)) "high" then .high
  else if startsWithText (lower.apply (rustTrim s)) "medium" then .medium
  else if startsWithText (lower.apply (rustTrim s)) "low" then .low
  else .unknown

def Severity.fromI32 (val : ℤ) : Severity :=
  if val = 4 then .critical
  else if val = 3 then .high
  else if val = 2 then .medium
  else if val = 1 then .low
  else .unknown

/-- `as i32` -/
def asI32 (n : ℤ) : ℤ := (n + 2 ^ 31) % 2 ^ 32 - 2 ^ 31

/-! ### What the triggers write -/

/-- `CAST(… AS INTEGER)` of a text and of a real. -/
structure SqliteCast where
  ofText : String → ℤ
  ofReal : String → ℤ

/-- `CAST(json_extract(…) AS INTEGER)`, of the value found. -/
def SqliteCast.integer (cast : SqliteCast) : Json → Option ℤ
  | .null => none
  | .bool b => some (if b then 1 else 0)
  | .int n => some (if -2 ^ 63 ≤ n ∧ n < 2 ^ 63 then n else cast.ofReal (toString n))
  | .float text => some (cast.ofReal text)
  | .str text => some (cast.ofText text)
  | .arr items => some (cast.ofText (Json.arr items).render)
  | .obj fields => some (cast.ofText (Json.obj fields).render)

def severityWord (text : String) : Option ℤ :=
  if text = "critical" then some 4
  else if text = "high" then some 3
  else if text = "medium" then some 2
  else if text = "low" then some 1
  else none

/-- The `CASE`: of the values found under a key, only a string can be one of the words. -/
def severityCase (data : Json) : Option ℤ :=
  (data.getStr "severity").bind fun s => severityWord (asciiLower s)

/-- The number beside the string, and zero where there is none. -/
def severityIntOr0 (cast : SqliteCast) (data : Json) : ℤ :=
  ((data.get? "severity_int").bind cast.integer).getD 0

def projectedSeverity (cast : SqliteCast) (data : Json) : ℤ :=
  (severityCase data).getD (severityIntOr0 cast data)

structure BugColumns where
  id : ℤ
  severityInt : ℤ
  verifiedOnSha : Option String
  deriving DecidableEq, Repr

structure ProjectionStore where
  bugs : Table BugColumns.id
  bugEnrichments : Table BugEnrichmentRow.id

section Calls
variable (cast : SqliteCast) (bugId : ℤ) (e : NewBugEnrichment) (now : ℤ)

/-- `created_at` as it is stored. -/
def NewBugEnrichment.storedAt : ℤ := if 0 < e.createdAt then e.createdAt else now

def NewBugEnrichment.row (id : ℤ) : BugEnrichmentRow where
  id := id
  bugId := bugId
  kind := e.kind
  createdAt := e.storedAt now
  content := e.content
  dataJson := e.dataJson

namespace BugColumns

/-- The trigger on `severity_calibration`, with the check on the column it sets. -/
def projectSeverity (b : BugColumns) : Except String BugColumns :=
  match if e.kind = "severity_calibration" then e.dataJson else none with
  | some data =>
    if 0 ≤ projectedSeverity cast data ∧ projectedSeverity cast data ≤ 4 then
      .ok { b with severityInt := projectedSeverity cast data }
    else .error "CHECK constraint failed: severity_int BETWEEN 0 AND 4"
  | none => .ok b

/-- The trigger on `verification`. -/
def projectVerification (b : BugColumns) : BugColumns :=
  match if e.kind = "verification" then e.dataJson.bind (Json.extractText "verified_on_sha")
    else none with
  | some sha => { b with verifiedOnSha := some sha }
  | none => b

end BugColumns

namespace ProjectionStore

def insertBugEnrichment (s : ProjectionStore) : Except String ProjectionStore :=
  match s.bugs.lookup bugId with
  | none => .error "FOREIGN KEY constraint failed"
  | some b =>
    (b.projectSeverity cast e).map fun b' =>
      { bugs := s.bugs.update (·.id = bugId) fun row =>
          { row with severityInt := (b'.projectVerification e).severityInt,
                     verifiedOnSha := (b'.projectVerification e).verifiedOnSha }
        bugEnrichments := s.bugEnrichments.insertNext 0 (e.row bugId now) fun _ => rfl }

end ProjectionStore

end Calls

/-! ### What the reader sees -/

/-- `get_bug_enrichments` -/
def ProjectionStore.getBugEnrichments (s : ProjectionStore) (bugId : ℤ) : List BugEnrichmentRow :=
  sortByKey (fun e => toLex (e.createdAt, e.id))
    (s.bugEnrichments.rows.filter fun e => e.bugId = bugId)

/-- The severity that one enrichment gives. -/
def severityOfData (lower : StrLowercase) (data : Json) : Option Severity :=
  match data.getStr "severity" with
  | some s => some (Severity.fromStr lower s)
  | none => ((data.get? "severity_int").bind Json.asI64).map fun n => Severity.fromI32 (asI32 n)

def severityReading (lower : StrLowercase) (e : BugEnrichmentRow) : Option Severity :=
  if e.kind = "severity_calibration" then e.dataJson.bind (severityOfData lower) else none

def verifiedReading (e : BugEnrichmentRow) : Option String :=
  if e.kind = "verification" then e.dataJson.bind (Json.getStr "verified_on_sha") else none

namespace Bug

def severity (lower : StrLowercase) (enrichments : List BugEnrichmentRow) : Severity :=
  (enrichments.reverse.findSome? (severityReading lower)).getD .unknown

def verifiedOnSha (enrichments : List BugEnrichmentRow) : Option String :=
  enrichments.reverse.findSome? verifiedReading

end Bug

/-! ### Runs -/

/-- An enrichment inserted for a bug, at a time. -/
structure EnrichmentInsert where
  bugId : ℤ
  enrichment : NewBugEnrichment
  now : ℤ
  deriving DecidableEq, Repr

namespace ProjectionStore

/-- A statement that fails leaves no trace. -/
def step (cast : SqliteCast) (s : ProjectionStore) (i : EnrichmentInsert) : ProjectionStore :=
  match s.insertBugEnrichment cast i.bugId i.enrichment i.now with
  | .ok s' => s'
  | .error _ => s

def run (cast : SqliteCast) (s : ProjectionStore) (inserts : List EnrichmentInsert) :
    ProjectionStore :=
  inserts.foldl (step cast) s

/-- Bugs as created, nothing recorded about them yet. -/
def Fresh (s : ProjectionStore) : Prop :=
  s.bugEnrichments.rows = [] ∧ ∀ b ∈ s.bugs.rows, b.severityInt = 0 ∧ b.verifiedOnSha = none

/-- The columns are what the reader computes. -/
def ColumnsAgree (lower : StrLowercase) (s : ProjectionStore) : Prop :=
  ∀ b ∈ s.bugs.rows,
    b.severityInt = (Bug.severity lower (s.getBugEnrichments b.id)).toInt ∧
      b.verifiedOnSha = Bug.verifiedOnSha (s.getBugEnrichments b.id)

end ProjectionStore

/-! ### The condition -/

/-- The severity string, if there is one, is one of the words and nothing else, or the number
beside it is the value of the severity it is read as. -/
def PlainSeverity (lower : StrLowercase) (cast : SqliteCast) (data : Json) : Prop :=
  ∀ s, data.getStr "severity" = some s →
    asciiLower s ∈ ["critical", "high", "medium", "low"] ∨
      severityIntOr0 cast data = (Severity.fromStr lower s).toInt

/-- No stored enrichment of the bug that gives a value is dated after the time. -/
def NoneAfter {β : Type} (reading : BugEnrichmentRow → Option β) (s : ProjectionStore) (bugId : ℤ)
    (time : ℤ) : Prop :=
  ∀ e ∈ s.bugEnrichments.rows, e.bugId = bugId → (reading e).isSome → e.createdAt ≤ time

/-- An enrichment that the triggers and the reader take alike: one that either of them takes a
value from is dated last, and gives both of them the same value. -/
structure TakenAlike (lower : StrLowercase) (cast : SqliteCast) (s : ProjectionStore)
    (i : EnrichmentInsert) : Prop where
  severity : ∀ data, i.enrichment.kind = "severity_calibration" →
    i.enrichment.dataJson = some data →
      ((data.getStr "severity").isSome ∨ ((data.get? "severity_int").bind Json.asI64).isSome) ∧
        PlainSeverity lower cast data ∧
          NoneAfter (severityReading lower) s i.bugId (i.enrichment.storedAt i.now)
  verification : ∀ data, i.enrichment.kind = "verification" → i.enrichment.dataJson = some data →
    (data.extractText "verified_on_sha").isSome →
      (data.getStr "verified_on_sha").isSome ∧
        NoneAfter verifiedReading s i.bugId (i.enrichment.storedAt i.now)

/-! ### A severity, read twice -/

section Words
variable {lower : StrLowercase} {cast : SqliteCast} {data : Json} {s : String}

theorem letters_of_asciiLower (h : ∀ c ∈ (asciiLower s).toList, 97 ≤ c.toNat ∧ c.toNat ≤ 122) :
    ∀ c ∈ s.toList, 65 ≤ c.toNat ∧ c.toNat ≤ 122 := by
  intro c hc
  have hlower := h c.toLower (by
    rw [asciiLower, String.toList_ofList]
    exact List.mem_map_of_mem hc)
  rcases toLower_cases c with hsame | ⟨hlo, hhi, -⟩
  · rw [hsame] at hlower
    omega
  · omega

/-- A text of letters is not trimmed, and its lower case is that of ASCII. -/
theorem lower_rustTrim_of_letters (h : ∀ c ∈ s.toList, 65 ≤ c.toNat ∧ c.toNat ≤ 122) :
    rustTrim s = s ∧ lower.apply s = asciiLower s := by
  have hspace : ∀ c ∈ s.toList, isRustWhitespace c = false := fun c hc =>
    isRustWhitespace_letter (h c hc).1 (h c hc).2
  constructor
  · refine String.toList_injective ?_
    have hstart : s.toList.dropWhile isRustWhitespace = s.toList := by
      refine List.dropWhile_eq_self_iff.mpr fun hpos => ?_
      rw [hspace _ (List.getElem_mem hpos)]
      exact Bool.false_ne_true
    have hend : s.toList.rdropWhile isRustWhitespace = s.toList := by
      refine List.rdropWhile_eq_self_iff.mpr fun hne => ?_
      rw [hspace _ (List.getLast_mem hne)]
      exact Bool.false_ne_true
    rw [toList_rustTrim, trimChars, hstart, hend]
  · exact lower.ascii s fun c hc => by
      have := h c hc
      omega

theorem severityWord_eq_some {text : String} {n : ℤ} (h : severityWord text = some n) :
    (text = "critical" ∧ n = 4) ∨ (text = "high" ∧ n = 3) ∨ (text = "medium" ∧ n = 2) ∨
      (text = "low" ∧ n = 1) := by
  unfold severityWord at h
  split_ifs at h with h1 h2 h3 h4 <;> simp_all

theorem severityWord_eq_none {text : String} :
    severityWord text = none ↔ text ∉ ["critical", "high", "medium", "low"] := by
  unfold severityWord
  split_ifs with h1 h2 h3 h4 <;> simp_all

/-- The bare words are what `from_str` takes them for. -/
theorem fromStr_of_word {n : ℤ} (h : severityWord (asciiLower s) = some n) :
    (Severity.fromStr lower s).toInt = n := by
  have hword := severityWord_eq_some h
  have hletters : ∀ c ∈ (asciiLower s).toList, 97 ≤ c.toNat ∧ c.toNat ≤ 122 := by
    obtain ⟨hs, -⟩ | ⟨hs, -⟩ | ⟨hs, -⟩ | ⟨hs, -⟩ := hword <;> rw [hs] <;>
      exact fun c hc => of_decide_eq_true
        (List.all_eq_true.mp (by decide : List.all _ fun c =>
          decide (97 ≤ c.toNat ∧ c.toNat ≤ 122)) c hc)
  obtain ⟨htrim, hlower⟩ := @lower_rustTrim_of_letters lower s (letters_of_asciiLower hletters)
  rw [Severity.fromStr, htrim, hlower, eqIgnoreAsciiCase]
  obtain ⟨hs, rfl⟩ | ⟨hs, rfl⟩ | ⟨hs, rfl⟩ | ⟨hs, rfl⟩ := hword <;> rw [hs] <;> decide

theorem fromI32_toInt {n : ℤ} (hlo : 0 ≤ n) (hhi : n ≤ 4) :
    (Severity.fromI32 (asI32 n)).toInt = n := by
  obtain rfl | rfl | rfl | rfl | rfl : n = 0 ∨ n = 1 ∨ n = 2 ∨ n = 3 ∨ n = 4 := by omega
  all_goals decide

theorem asI64_eq_some {v : Json} {n : ℤ} (h : v.asI64 = some n) : cast.integer v = some n := by
  cases v with
  | int m =>
    rw [Json.asI64] at h
    split_ifs at h with hrange
    rw [SqliteCast.integer, if_pos hrange]
    exact h
  | _ => cases h

/-- A severity that the check lets through is the one read, exactly when its string is plain. -/
theorem projectedSeverity_eq_iff {v : Severity} (hv : severityOfData lower data = some v)
    (hlo : 0 ≤ projectedSeverity cast data) (hhi : projectedSeverity cast data ≤ 4) :
    projectedSeverity cast data = v.toInt ↔ PlainSeverity lower cast data := by
  unfold severityOfData at hv
  cases hstr : data.getStr "severity" with
  | some s =>
    rw [hstr] at hv
    obtain rfl : Severity.fromStr lower s = v := Option.some.inj hv
    have hplain : PlainSeverity lower cast data ↔
        asciiLower s ∈ ["critical", "high", "medium", "low"] ∨
          severityIntOr0 cast data = (Severity.fromStr lower s).toInt := by
      simp only [PlainSeverity, hstr, Option.some.injEq, forall_eq']
    rw [hplain, projectedSeverity, severityCase, hstr, Option.bind_some]
    cases hword : severityWord (asciiLower s) with
    | some n =>
      have hmem : asciiLower s ∈ ["critical", "high", "medium", "low"] := by
        by_contra hnot
        rw [severityWord_eq_none.mpr hnot] at hword
        cases hword
      rw [Option.getD_some, fromStr_of_word hword]
      exact iff_of_true rfl (.inl hmem)
    | none =>
      rw [Option.getD_none]
      exact ⟨.inr, fun h => h.resolve_left (severityWord_eq_none.mp hword)⟩
  | none =>
    rw [hstr] at hv
    obtain ⟨n, hn, rfl⟩ := Option.map_eq_some_iff.mp hv
    obtain ⟨value, hvalue, hn⟩ := Option.bind_eq_some_iff.mp hn
    have hprojected : projectedSeverity cast data = n := by
      rw [projectedSeverity, severityCase, hstr, Option.bind_none, Option.getD_none,
        severityIntOr0, hvalue, Option.bind_some, asI64_eq_some hn, Option.getD_some]
    rw [hprojected] at hlo hhi ⊢
    rw [fromI32_toInt hlo hhi]
    exact iff_of_true rfl fun s hs => by rw [hstr] at hs; cases hs

theorem severityOfData_isSome : (severityOfData lower data).isSome ↔
    (data.getStr "severity").isSome ∨ ((data.get? "severity_int").bind Json.asI64).isSome := by
  unfold severityOfData
  cases data.getStr "severity" with
  | some _ => simp
  | none =>
    rw [Option.isSome_map]
    simp

theorem extractText_of_getStr {name : String} (h : data.getStr name = some s) :
    data.extractText name = some s := by
  cases data with
  | obj fields =>
    obtain ⟨value, hvalue, hs⟩ := Option.bind_eq_some_iff.mp h
    change fields.lookup name = some value at hvalue
    cases value <;> cases hs
    rw [Json.extractText, hvalue]
  | _ => cases h

end Words

/-! ### One enrichment more -/

section Step
variable {lower : StrLowercase} {cast : SqliteCast} {s s' : ProjectionStore}
variable {i : EnrichmentInsert}

/-- The order of the reader. -/
abbrev readerRank (e : BugEnrichmentRow) : ℤ ×ₗ ℤ := toLex (e.createdAt, e.id)

/-- The enrichments of a bug, as the table holds them. -/
def ProjectionStore.about (s : ProjectionStore) (bugId : ℤ) : List BugEnrichmentRow :=
  s.bugEnrichments.rows.filter fun e => e.bugId = bugId

theorem separatedBy_readerRank (s : ProjectionStore) (bugId : ℤ) :
    SeparatedBy readerRank (s.about bugId) := by
  intro a ha b hb hrank
  have hid : a.id = b.id := congrArg (fun r : ℤ ×ₗ ℤ => (ofLex r).2) hrank
  exact Table.eq_of_key_eq (List.mem_of_mem_filter ha) (List.mem_of_mem_filter hb) hid

theorem severity_eq_latest (lower : StrLowercase) (s : ProjectionStore) (bugId : ℤ) :
    Bug.severity lower (s.getBugEnrichments bugId) =
      (latest readerRank (severityReading lower) (s.about bugId)).getD .unknown := rfl

theorem verifiedOnSha_eq_latest (s : ProjectionStore) (bugId : ℤ) :
    Bug.verifiedOnSha (s.getBugEnrichments bugId) =
      latest readerRank verifiedReading (s.about bugId) := rfl

/-- What an insert that goes through does to the store. -/
structure Inserted (cast : SqliteCast) (s : ProjectionStore) (i : EnrichmentInsert)
    (s' : ProjectionStore) (b b' : BugColumns) (id : ℤ) : Prop where
  known : b ∈ s.bugs.rows ∧ b.id = i.bugId
  severity : b.projectSeverity cast i.enrichment = .ok b'
  bugs : ∀ c ∈ s'.bugs.rows, (c ∈ s.bugs.rows ∧ c.id ≠ i.bugId) ∨
    (c.id = i.bugId ∧ c.severityInt = (b'.projectVerification i.enrichment).severityInt ∧
      c.verifiedOnSha = (b'.projectVerification i.enrichment).verifiedOnSha)
  newest : ∀ e ∈ s.bugEnrichments.rows, e.id < id
  own : s'.about i.bugId = s.about i.bugId ++ [i.enrichment.row i.bugId i.now id]
  others : ∀ bugId ≠ i.bugId, s'.about bugId = s.about bugId

theorem exists_inserted (h : s.insertBugEnrichment cast i.bugId i.enrichment i.now = .ok s') :
    ∃ b b' id, Inserted cast s i s' b b' id := by
  unfold ProjectionStore.insertBugEnrichment at h
  cases hlookup : s.bugs.lookup i.bugId with
  | none =>
    rw [hlookup] at h
    cases h
  | some b =>
    rw [hlookup] at h
    dsimp only at h
    cases hb' : b.projectSeverity cast i.enrichment with
    | error _ =>
      rw [hb'] at h
      cases h
    | ok b' =>
    rw [hb'] at h
    cases h
    refine ⟨b, b', s.bugEnrichments.nextKey 0, Table.lookup_eq_some.mp hlookup, hb', ?_, ?_, ?_, ?_⟩
    · intro c hc
      obtain ⟨c₀, hc₀, rfl⟩ := List.mem_map.mp (show c ∈ s.bugs.rows.map _ from hc)
      by_cases hid : c₀.id = i.bugId
      · right
        simp [Table.updateRow, hid]
      · left
        simp [Table.updateRow, hid, hc₀]
    · intro e he
      have hle := Table.le_maxKey (List.mem_map_of_mem (f := BugEnrichmentRow.id) he)
      unfold Table.nextKey
      omega
    · exact (List.filter_append ..).trans (by simp [NewBugEnrichment.row, ProjectionStore.about])
    · intro bugId hne
      exact @Table.filter_insertNext _ _ s.bugEnrichments 0
        (i.enrichment.row i.bugId i.now) (fun _ => rfl) _ fun _ => decide_eq_false hne.symm

/-- The new enrichment is read after every other that gives a value and is not dated later. -/
theorem Inserted.newest_rank {b b' : BugColumns} {id : ℤ} {β : Type}
    {reading : BugEnrichmentRow → Option β} (h : Inserted cast s i s' b b' id)
    (hnone : NoneAfter reading s i.bugId (i.enrichment.storedAt i.now)) :
    ∀ e ∈ s.about i.bugId, (reading e).isSome →
      readerRank e < readerRank (i.enrichment.row i.bugId i.now id) := by
  intro e he hsome
  obtain ⟨hmem, hbug⟩ := List.mem_filter.mp he
  have hdate := hnone e hmem (of_decide_eq_true hbug) hsome
  have hid := h.newest e hmem
  refine Prod.Lex.toLex_lt_toLex.mpr ?_
  rcases lt_or_eq_of_le hdate with hlt | heq
  · exact .inl hlt
  · exact .inr ⟨heq, hid⟩

theorem Inserted.severity_agrees {b b' : BugColumns} {id : ℤ} (h : Inserted cast s i s' b b' id)
    (halike : TakenAlike lower cast s i)
    (hb : b.severityInt = (Bug.severity lower (s.getBugEnrichments i.bugId)).toInt) :
    b'.severityInt = (Bug.severity lower (s'.getBugEnrichments i.bugId)).toInt := by
  have hseparated := separatedBy_readerRank s' i.bugId
  have hsev := h.severity
  rw [severity_eq_latest] at hb ⊢
  rw [h.own] at hseparated ⊢
  unfold BugColumns.projectSeverity at hsev
  by_cases hkind : i.enrichment.kind = "severity_calibration"
  · rw [if_pos hkind] at hsev
    cases hdata : i.enrichment.dataJson with
    | none =>
      rw [hdata] at hsev
      cases hsev
      rw [latest_append_of_none hseparated (by simp [severityReading, NewBugEnrichment.row, hdata]),
        hb]
    | some data =>
      obtain ⟨hgiven, hplain, hnone⟩ := halike.severity data hkind hdata
      obtain ⟨v, hv⟩ := Option.isSome_iff_exists.mp
        ((@severityOfData_isSome lower data).mpr hgiven)
      rw [hdata] at hsev
      dsimp only at hsev
      split_ifs at hsev with hcheck
      cases hsev
      have hreading : severityReading lower (i.enrichment.row i.bugId i.now id) = some v := by
        simp [severityReading, NewBugEnrichment.row, hkind, hdata, hv]
      rw [latest_append_newest hreading (h.newest_rank hnone), Option.getD_some]
      exact (projectedSeverity_eq_iff hv hcheck.1 hcheck.2).mpr hplain
  · rw [if_neg hkind] at hsev
    cases hsev
    rw [latest_append_of_none hseparated (by simp [severityReading, NewBugEnrichment.row, hkind]),
      hb]

theorem projectVerification_severityInt (e : NewBugEnrichment) (b : BugColumns) :
    (b.projectVerification e).severityInt = b.severityInt := by
  unfold BugColumns.projectVerification
  split <;> rfl

theorem projectSeverity_verifiedOnSha {e : NewBugEnrichment} {b b' : BugColumns}
    (h : b.projectSeverity cast e = .ok b') : b'.verifiedOnSha = b.verifiedOnSha := by
  unfold BugColumns.projectSeverity at h
  split at h
  · split_ifs at h
    cases h
    rfl
  · cases h
    rfl

theorem Inserted.verified_agrees {b b' : BugColumns} {id : ℤ} (h : Inserted cast s i s' b b' id)
    (halike : TakenAlike lower cast s i)
    (hb : b.verifiedOnSha = Bug.verifiedOnSha (s.getBugEnrichments i.bugId)) :
    (b'.projectVerification i.enrichment).verifiedOnSha =
      Bug.verifiedOnSha (s'.getBugEnrichments i.bugId) := by
  have hseparated := separatedBy_readerRank s' i.bugId
  rw [verifiedOnSha_eq_latest] at hb ⊢
  rw [← projectSeverity_verifiedOnSha h.severity] at hb
  rw [h.own] at hseparated ⊢
  unfold BugColumns.projectVerification
  by_cases hkind : i.enrichment.kind = "verification"
  · rw [if_pos hkind]
    cases hdata : i.enrichment.dataJson with
    | none =>
      rw [latest_append_of_none hseparated (by simp [verifiedReading, NewBugEnrichment.row, hdata])]
      exact hb
    | some data =>
      rw [Option.bind_some]
      cases htext : data.extractText "verified_on_sha" with
      | none =>
        have hstr : data.getStr "verified_on_sha" = none := by
          by_contra hsome
          obtain ⟨sha, hsha⟩ := Option.ne_none_iff_exists'.mp hsome
          rw [extractText_of_getStr hsha] at htext
          cases htext
        rw [latest_append_of_none hseparated
          (by simp [verifiedReading, NewBugEnrichment.row, hdata, hstr])]
        exact hb
      | some text =>
        obtain ⟨hstr, hnone⟩ := halike.verification data hkind hdata (by rw [htext]; rfl)
        obtain ⟨sha, hsha⟩ := Option.isSome_iff_exists.mp hstr
        obtain rfl : text = sha := by
          rw [extractText_of_getStr hsha] at htext
          exact (Option.some.inj htext).symm
        have hreading : verifiedReading (i.enrichment.row i.bugId i.now id) = some text := by
          simp [verifiedReading, NewBugEnrichment.row, hkind, hdata, hsha]
        exact (latest_append_newest hreading (h.newest_rank hnone)).symm
  · rw [if_neg hkind,
      latest_append_of_none hseparated (by simp [verifiedReading, NewBugEnrichment.row, hkind])]
    exact hb

theorem ProjectionStore.ColumnsAgree.step (h : s.ColumnsAgree lower)
    (halike : TakenAlike lower cast s i) :
    (s.step cast i).ColumnsAgree lower := by
  unfold ProjectionStore.step
  cases hinsert : s.insertBugEnrichment cast i.bugId i.enrichment i.now with
  | error _ => exact h
  | ok s' =>
    obtain ⟨b, b', id, hi⟩ := exists_inserted hinsert
    obtain ⟨hbsev, hbsha⟩ := h b hi.known.1
    rw [hi.known.2] at hbsev hbsha
    intro c hc
    rcases hi.bugs c hc with ⟨hmem, hne⟩ | ⟨hid, hsev, hsha⟩
    · have hsame : s'.getBugEnrichments c.id = s.getBugEnrichments c.id :=
        congrArg (sortByKey readerRank) (hi.others c.id hne)
      rw [hsame]
      exact h c hmem
    · rw [hid, hsev, hsha, projectVerification_severityInt]
      exact ⟨hi.severity_agrees halike hbsev, hi.verified_agrees halike hbsha⟩

end Step

/-! ### Runs -/

namespace ProjectionStore

variable {lower : StrLowercase} {cast : SqliteCast} {s : ProjectionStore}

theorem Fresh.columnsAgree (h : s.Fresh) : s.ColumnsAgree lower := by
  intro b hb
  have hnone : s.about b.id = [] := by rw [about, h.1, List.filter_nil]
  obtain ⟨hsev, hsha⟩ := h.2 b hb
  rw [severity_eq_latest, verifiedOnSha_eq_latest, hnone, hsev, hsha]
  exact ⟨by simp [latest, sortByKey, Severity.toInt], by simp [latest, sortByKey]⟩

/-- Where every enrichment inserted is taken alike by the triggers and the reader, the columns are
what the reader computes in every state reached. -/
theorem columns_agree_of_takenAlike (lower : StrLowercase) (cast : SqliteCast)
    (s : ProjectionStore) (hfresh : s.Fresh) (inserts : List EnrichmentInsert)
    (halike : ∀ before i, before ++ [i] <+: inserts → TakenAlike lower cast (s.run cast before) i) :
    ∀ reached, reached <+: inserts → (s.run cast reached).ColumnsAgree lower := by
  intro reached
  induction reached using List.reverseRecOn with
  | nil => exact fun _ => hfresh.columnsAgree
  | append_singleton before i ih =>
    intro hpre
    have hbefore : before <+: inserts := (List.prefix_append before [i]).trans hpre
    rw [run, List.foldl_append]
    exact (ih hbefore).step (halike before i hpre)

/-! ### One bug, one severity -/

theorem asciiLower_ascii (s : String) (_ : ∀ c ∈ s.toList, c.toNat < 128) :
    asciiLower s = asciiLower s := rfl

def asciiOnlyLower : StrLowercase := ⟨asciiLower, asciiLower_ascii⟩

def zeroCast : SqliteCast := ⟨fun _ => 0, fun _ => 0⟩

def oneBug : ProjectionStore where
  bugs := ⟨[⟨1, 0, none⟩], List.nodup_singleton _⟩
  bugEnrichments := ⟨[], List.nodup_nil⟩

def calibration (severity : String) : EnrichmentInsert where
  bugId := 1
  enrichment := ⟨"severity_calibration", 100, none, some (.obj [("severity", .str severity)])⟩
  now := 100

theorem fresh_oneBug : oneBug.Fresh :=
  ⟨rfl, fun b hb => by rw [List.mem_singleton.mp hb]; exact ⟨rfl, rfl⟩⟩

theorem columns_agree_calibrated :
    (oneBug.run zeroCast [calibration "High"]).ColumnsAgree asciiOnlyLower := by
  refine columns_agree_of_takenAlike asciiOnlyLower zeroCast oneBug fresh_oneBug _ ?_ _
    (List.prefix_refl _)
  intro before i hpre
  have hlen : before = [] := by
    have h := hpre.length_le
    simpa using h
  rw [hlen, List.nil_append, List.cons_prefix_cons] at hpre
  rw [hlen, hpre.1]
  refine ⟨fun data _ hdata => ?_, fun data hkind => absurd hkind (by decide)⟩
  obtain rfl : Json.obj [("severity", .str "High")] = data := Option.some.inj hdata
  refine ⟨.inl (by decide), fun s hs => .inl ?_,
    fun e he => absurd he (by simp [run, oneBug])⟩
  rw [← show "High" = s from Option.some.inj hs]
  decide

/-- A severity with its score: the trigger leaves zero, the reader says high. -/
theorem decorated_severity_disagrees :
    oneBug.Fresh ∧
      ¬ (oneBug.run zeroCast [calibration "High (8.1)"]).ColumnsAgree asciiOnlyLower := by
  refine ⟨fresh_oneBug, fun h => ?_⟩
  have hbugs : (oneBug.run zeroCast [calibration "High (8.1)"]).bugs.rows = [⟨1, 0, none⟩] := by
    decide
  have hrows : (oneBug.run zeroCast [calibration "High (8.1)"]).about 1 =
      [(calibration "High (8.1)").enrichment.row 1 100 1] := by decide
  have hsev := (h ⟨1, 0, none⟩ (by rw [hbugs]; exact List.mem_cons_self)).1
  have hread : severityReading asciiOnlyLower
      ((calibration "High (8.1)").enrichment.row 1 100 1) = some .high := by decide
  rw [severity_eq_latest, hrows] at hsev
  simp [latest, sortByKey, hread, Severity.toInt] at hsev

end ProjectionStore

end Sashiko
