import Mathlib.Data.Finset.Card
import Sashiko.Email.Router
import Sashiko.Lib.Representatives
import Sashiko.Related.PatchFiles
import Sashiko.Related.Reservation

/-! The pre-existing bugs that a review may report beside a patch: severe enough, in a file that the
patch touches and keeps, and each of them once. -/

namespace Sashiko

/-! ### The same bug -/

structure BugKey where
  fingerprint : String
  files : List String
  symbols : List String
  problemWords : List String

namespace BugKey

def new (K : BugKeyParts) (problem : String) (locations : Option Json) : BugKey :=
  let items := (locations.bind Json.asArray).getD []
  { fingerprint := Sashiko.fingerprint K problem locations
    files := uniqueTexts (items.filterMap (locationText "file"))
    symbols := uniqueTexts (((items.filterMap (locationText "function_or_symbol")).map
      normalizeSymbol).filter (· ≠ ""))
    problemWords := Sashiko.problemWords K problem }

def fromItem (K : BugKeyParts) (item : Json) : BugKey :=
  new K (problemOf item) (item.get? "locations")

/-- At least half of the words of the two problems are words of both. -/
def similarProblem (a b : BugKey) : Bool :=
  let common := (a.problemWords.toFinset ∩ b.problemWords.toFinset).card
  let all := (a.problemWords.toFinset ∪ b.problemWords.toFinset).card
  all ≠ 0 && all ≤ 2 * common

def isSameBug (a b : BugKey) : Bool :=
  a.fingerprint = b.fingerprint ||
    (a.files.any (b.files.contains ·) &&
      (a.symbols.any (b.symbols.contains ·) || a.similarProblem b))

theorem any_contains_comm (xs ys : List String) :
    xs.any (ys.contains ·) = ys.any (xs.contains ·) := by
  rw [Bool.eq_iff_iff, List.any_eq_true, List.any_eq_true]
  simp only [List.contains_iff_mem]
  exact ⟨fun ⟨x, hx, hy⟩ => ⟨x, hy, hx⟩, fun ⟨x, hx, hy⟩ => ⟨x, hy, hx⟩⟩

theorem isSameBug_comm (a b : BugKey) : a.isSameBug b = b.isSameBug a := by
  have hsimilar : a.similarProblem b = b.similarProblem a := by
    rw [similarProblem, similarProblem, Finset.inter_comm, Finset.union_comm]
  rw [isSameBug, isSameBug, hsimilar, any_contains_comm a.files, any_contains_comm a.symbols]
  congr 1
  exact decide_eq_decide.mpr eq_comm

end BugKey

/-! ### The symbols of a diff -/

/-- The part of a line of the diff that may name symbols. -/
def symbolText (line : Chars) : Option Chars :=
  match stripChars? ['@', '@'] line with
  | some afterAt => some (((splitAtFirst ['@', '@'] afterAt).map fun p => p.2.drop 2).getD [])
  | none =>
    match line with
    | '+' :: text | '-' :: text | ' ' :: text => some text
    | _ => none

def symbolTokens (isAlphanumeric : Char → Bool) (text : Chars) : List String :=
  ((text.splitOnP fun c => !isAlphanumeric c && c != '_').filter fun token =>
    2 ≤ (String.ofList token).utf8ByteSize ∧ token.any Char.isAlpha).map
      fun token => asciiLower (String.ofList token)

def addTokens (file : Chars) (tokens : List String) :
    List (Chars × List String) → List (Chars × List String)
  | [] => [(file, tokens)]
  | (f, known) :: rest =>
    if f = file then (f, known ++ tokens) :: rest else (f, known) :: addTokens file tokens rest

structure SymbolScan where
  byFile : List (Chars × List String)
  currentFile : Option Chars

def SymbolScan.step (isAlphanumeric : Char → Bool) (surviving : List Chars) (s : SymbolScan)
    (line : Chars) : SymbolScan :=
  match stripChars? diffGit line, s.currentFile with
  | some rest, _ => { s with currentFile := (postPathOf rest).filter (surviving.contains ·) }
  | none, none => s
  | none, some file =>
    if "--- ".toList.isPrefixOf line || "+++ ".toList.isPrefixOf line then s
    else match symbolText line with
      | some text =>
        { s with byFile := addTokens file (symbolTokens isAlphanumeric text) s.byFile }
      | none => s

def diffSymbolsByFile (isAlphanumeric : Char → Bool) (diff : String) (surviving : List Chars) :
    List (Chars × List String) :=
  ((linesOf diff.toList).foldl (SymbolScan.step isAlphanumeric surviving) ⟨[], none⟩).byFile

/-- The symbol, or its last part behind `::`, is one of the tokens. -/
def touchesSymbol (tokens : List String) (sym : String) : Bool :=
  2 ≤ sym.utf8ByteSize && (tokens.contains sym ||
    ((splitAtLast [':', ':'] sym.toList).any fun p =>
      3 ≤ (String.ofList p.2).utf8ByteSize && tokens.contains (String.ofList p.2)))

def diffTouchesConcernSymbol (fileSymbols : List (Chars × List String)) (concern : Json) : Bool :=
  ((concern.getArray "locations").getD []).any fun loc =>
    ((locationText "file" loc).bind fun file => fileSymbols.lookup file.toList).any fun tokens =>
      (((loc.get? "function_or_symbol").or (loc.get? "function")).bind Json.asStr).any fun rawSym =>
        touchesSymbol tokens (normalizeSymbol rawSym)

/-! ### Severity -/

inductive SeverityFloor where
  | low
  | medium
  | high
  | critical
  deriving DecidableEq, Repr

namespace SeverityFloor

def asSeverity : SeverityFloor → EmailRouter.Severity
  | low => .low
  | medium => .medium
  | high => .high
  | critical => .critical

def admits (floor : SeverityFloor) (severity : EmailRouter.Severity) : Bool :=
  severity ≠ .unknown && floor.asSeverity.rank ≤ severity.rank

end SeverityFloor

def sameFunctionSeverityFloor : SeverityFloor → SeverityFloor
  | .high => .medium
  | other => other

def severityOf (toLowercase : String → String) (concern : Json) : EmailRouter.Severity :=
  EmailRouter.severityFromStr toLowercase ((concern.getStr "severity").getD "")

/-! ### The candidates -/

/-- The concern as the candidate at this place. -/
def asCandidate (concern : Json) (idx : ℕ) : Json :=
  concern.insert "id" (.str ("RP" ++ toString (idx + 1)))

structure Prefilter where
  accepted : List BugKey
  acceptedSeverities : List EmailRouter.Severity
  out : List Json

namespace Prefilter

def init : Prefilter := ⟨[], [], []⟩

def accept (s : Prefilter) (concern : Json) (key : BugKey) (severity : EmailRouter.Severity) :
    Prefilter :=
  match s.accepted.findIdx? (BugKey.isSameBug · key) with
  | some idx =>
    if (s.acceptedSeverities.getD idx .unknown).rank < severity.rank then
      { accepted := s.accepted.set idx key
        acceptedSeverities := s.acceptedSeverities.set idx severity
        out := s.out.set idx (asCandidate concern idx) }
    else s
  | none =>
    { accepted := s.accepted ++ [key]
      acceptedSeverities := s.acceptedSeverities ++ [severity]
      out := s.out ++ [asCandidate concern s.out.length] }

end Prefilter

section Prefilter

variable (K : BugKeyParts) (toLowercase : String → String) (diff : String)
  (minSeverity : SeverityFloor) (known : List BugKey)

/-- The pass takes concerns of this severity: the first those that meet the floor, the second those
below it in a function that the diff touches. -/
def admitted (belowFloorPass : Bool) (concern : Json) : Bool :=
  let severity := severityOf toLowercase concern
  if belowFloorPass then
    !minSeverity.admits severity && (sameFunctionSeverityFloor minSeverity).admits severity &&
      diffTouchesConcernSymbol
        (diffSymbolsByFile K.isAlphanumeric diff (PatchFiles.fromDiff diff).surviving) concern
  else minSeverity.admits severity

def survives (key : BugKey) : Bool :=
  key.files.any fun f => (PatchFiles.fromDiff diff).surviving.contains f.toList

def Prefilter.acceptConcern (s : Prefilter) (concern : Json) : Prefilter :=
  s.accept concern (.fromItem K concern) (severityOf toLowercase concern)

def Prefilter.step (belowFloorPass : Bool) (s : Prefilter) (concern : Json) : Prefilter :=
  if !admitted K toLowercase diff minSeverity belowFloorPass concern then s
  else if !survives diff (.fromItem K concern) then s
  else if known.any (BugKey.isSameBug · (.fromItem K concern)) then s
  else s.acceptConcern K toLowercase concern

def prefilterCandidates (concerns : List Json) : List Json :=
  ([false, true].foldl (fun s belowFloorPass =>
    concerns.foldl (Prefilter.step K toLowercase diff minSeverity known belowFloorPass) s)
    .init).out

end Prefilter

/-! ### The concerns that qualify, and the candidates as their representatives -/

section Sound

variable (K : BugKeyParts) (toLowercase : String → String) (diff : String)
  (minSeverity : SeverityFloor) (known : List BugKey)

/-- The pass takes the concern: it is severe enough, in a file that survives, and no known bug. -/
def qualifies (belowFloorPass : Bool) (concern : Json) : Bool :=
  admitted K toLowercase diff minSeverity belowFloorPass concern &&
    (survives diff (.fromItem K concern) && !known.any (BugKey.isSameBug · (.fromItem K concern)))

/-- The concerns that qualify, in the order in which they come up. -/
def qualifying (concerns : List Json) : List Json :=
  concerns.filter (qualifies K toLowercase diff minSeverity known false) ++
    concerns.filter (qualifies K toLowercase diff minSeverity known true)

def sameConcern (a b : Json) : Bool := (BugKey.fromItem K a).isSameBug (.fromItem K b)

def severityRank (concern : Json) : ℕ := (severityOf toLowercase concern).rank

/-- The concerns that are accepted when these have come up. -/
def keptConcerns (seen : List Json) : List Json :=
  representatives (sameConcern K) (severityRank toLowercase) seen

/-- The candidates when these concerns have come up. -/
def candidatesAfter (seen : List Json) : List Json :=
  (seen.foldl (Prefilter.acceptConcern K toLowercase) .init).out

/-- No two candidates are the same bug, and each concern that came up is returned, or is the same
bug as a candidate that is as severe at least. -/
structure SoundCandidates (seen out : List Json) : Prop where
  distinct : out.Pairwise fun a b => (BugKey.fromItem K a).isSameBug (.fromItem K b) = false
  covered : ∀ concern ∈ seen, ∃ idx c, out[idx]? = some c ∧
    (c = asCandidate concern idx ∨
      ((BugKey.fromItem K c).isSameBug (.fromItem K concern) = true ∧
        (severityOf toLowercase concern).rank ≤ (severityOf toLowercase c).rank))

/-- A concern that takes the place of an accepted one is the same bug as no other accepted one, and
as every earlier concern that the accepted one alone stood for. -/
def TakesPlaceWell (seen : List Json) (concern : Json) : Prop :=
  PlacesWell (sameConcern K) (severityRank toLowercase) seen (keptConcerns K toLowercase seen)
    concern

variable {K toLowercase diff minSeverity known}

theorem fromItem_asCandidate (concern : Json) (idx : ℕ) :
    BugKey.fromItem K (asCandidate concern idx) = .fromItem K concern := by
  simp [BugKey.fromItem, problemOf, asCandidate]

theorem severityOf_asCandidate (concern : Json) (idx : ℕ) :
    severityOf toLowercase (asCandidate concern idx) = severityOf toLowercase concern := by
  simp [severityOf, asCandidate, Json.getStr]

/-- The state in which these concerns are accepted. -/
def Prefilter.ofConcerns (K : BugKeyParts) (toLowercase : String → String) (reps : List Json) :
    Prefilter where
  accepted := reps.map (.fromItem K)
  acceptedSeverities := reps.map (severityOf toLowercase)
  out := reps.zipIdx.map fun p => asCandidate p.1 p.2

theorem acceptConcern_ofConcerns (reps : List Json) (concern : Json) :
    (Prefilter.ofConcerns K toLowercase reps).acceptConcern K toLowercase concern =
      .ofConcerns K toLowercase
        (enroll (sameConcern K) (severityRank toLowercase) concern reps) := by
  rw [Prefilter.acceptConcern, Prefilter.accept]
  rcases exists_first (sameConcern K) reps concern with
    hnone | ⟨before, a, after, rfl, hbefore, hsame⟩
  · have hfind : (Prefilter.ofConcerns K toLowercase reps).accepted.findIdx?
        (BugKey.isSameBug · (.fromItem K concern)) = none := by
      rw [List.findIdx?_eq_none_iff]
      intro k hk
      obtain ⟨a, ha, rfl⟩ := List.mem_map.mp hk
      exact hnone a ha
    rw [hfind, enroll_eq_append hnone]
    simp [Prefilter.ofConcerns, List.zipIdx_append]
  · have hfind : (Prefilter.ofConcerns K toLowercase (before ++ a :: after)).accepted.findIdx?
        (BugKey.isSameBug · (.fromItem K concern)) = some before.length := by
      rw [Prefilter.ofConcerns, List.map_append, List.map_cons, List.findIdx?_append]
      have hmiss : (before.map (BugKey.fromItem K)).findIdx?
          (BugKey.isSameBug · (.fromItem K concern)) = none := by
        rw [List.findIdx?_eq_none_iff]
        intro k hk
        obtain ⟨b, hb, rfl⟩ := List.mem_map.mp hk
        exact hbefore b hb
      have hhit : (BugKey.fromItem K a).isSameBug (.fromItem K concern) = true := hsame
      rw [hmiss, List.findIdx?_cons, if_pos hhit]
      simp
    have hseverity : (Prefilter.ofConcerns K toLowercase (before ++ a :: after)).acceptedSeverities.getD
        before.length .unknown = severityOf toLowercase a := by
      simp [Prefilter.ofConcerns]
    rw [hfind, enroll_append hbefore hsame]
    dsimp only
    rw [hseverity]
    by_cases hrank : (severityOf toLowercase a).rank < (severityOf toLowercase concern).rank
    · have hrank' : severityRank toLowercase a < severityRank toLowercase concern := hrank
      rw [if_pos hrank, if_pos hrank']
      simp [Prefilter.ofConcerns, List.zipIdx_append]
    · have hrank' : ¬severityRank toLowercase a < severityRank toLowercase concern := hrank
      rw [if_neg hrank, if_neg hrank']

theorem candidatesAfter_eq (seen : List Json) :
    candidatesAfter K toLowercase seen =
      (keptConcerns K toLowercase seen).zipIdx.map fun p => asCandidate p.1 p.2 := by
  have hstate : seen.foldl (Prefilter.acceptConcern K toLowercase) .init =
      .ofConcerns K toLowercase (keptConcerns K toLowercase seen) := by
    induction seen using List.reverseRecOn with
    | nil => rfl
    | append_singleton seen concern ih =>
      rw [List.foldl_append, ih, List.foldl_cons, List.foldl_nil, acceptConcern_ofConcerns,
        keptConcerns, keptConcerns, representatives, representatives, List.foldl_append]
      rfl
  rw [candidatesAfter, hstate]
  rfl

theorem foldl_step (belowFloorPass : Bool) (concerns : List Json) (s : Prefilter) :
    concerns.foldl (Prefilter.step K toLowercase diff minSeverity known belowFloorPass) s =
      (concerns.filter (qualifies K toLowercase diff minSeverity known belowFloorPass)).foldl
        (Prefilter.acceptConcern K toLowercase) s := by
  rw [List.foldl_filter]
  congr 1
  funext s concern
  rw [Prefilter.step, qualifies]
  cases admitted K toLowercase diff minSeverity belowFloorPass concern <;>
    cases survives diff (.fromItem K concern) <;>
    cases known.any (BugKey.isSameBug · (.fromItem K concern)) <;> rfl

/-- The two passes are one run over the concerns that qualify. -/
theorem prefilterCandidates_eq (concerns : List Json) :
    prefilterCandidates K toLowercase diff minSeverity known concerns =
      candidatesAfter K toLowercase
        (qualifying K toLowercase diff minSeverity known concerns) := by
  rw [prefilterCandidates, candidatesAfter, qualifying, List.foldl_append, List.foldl_cons,
    List.foldl_cons, List.foldl_nil, foldl_step, foldl_step]

/-! ### What is asked of the candidates -/

theorem getElem?_candidates (reps : List Json) (idx : ℕ) :
    (reps.zipIdx.map fun p => asCandidate p.1 p.2)[idx]? =
      (reps[idx]?).map fun concern => asCandidate concern idx := by
  simp [List.getElem?_zipIdx, Function.comp_def]

theorem soundCandidates_iff {seen reps : List Json} :
    SoundCandidates K toLowercase seen (reps.zipIdx.map fun p => asCandidate p.1 p.2) ↔
      Represents (sameConcern K) (severityRank toLowercase) seen reps := by
  have hkeys : (reps.zipIdx.map fun p => asCandidate p.1 p.2).map (BugKey.fromItem K) =
      reps.map (BugKey.fromItem K) := by
    rw [List.map_map]
    simp only [Function.comp_def, fromItem_asCandidate]
    rw [← List.zipIdx_map_fst 0 reps, List.map_map]
    simp [Function.comp_def]
  have hdistinct : ((reps.zipIdx.map fun p => asCandidate p.1 p.2).Pairwise fun a b =>
      (BugKey.fromItem K a).isSameBug (.fromItem K b) = false) ↔
        reps.Pairwise fun a b => sameConcern K a b = false := by
    have hout := List.pairwise_map (f := BugKey.fromItem K)
      (R := fun a b => a.isSameBug b = false) (l := reps.zipIdx.map fun p => asCandidate p.1 p.2)
    rw [hkeys, List.pairwise_map] at hout
    exact hout.symm
  constructor
  · rintro ⟨hpair, hcovered⟩
    refine ⟨hdistinct.mp hpair, fun concern hconcern => ?_⟩
    obtain ⟨idx, c, hget, hstands⟩ := hcovered concern hconcern
    rw [getElem?_candidates, Option.map_eq_some_iff] at hget
    obtain ⟨a, ha, rfl⟩ := hget
    refine ⟨a, List.mem_of_getElem? ha, .inr ?_⟩
    rcases hstands with heq | ⟨hsame, hrank⟩
    · -- the two differ in the id at most
      have hkey := congrArg (BugKey.fromItem K) heq
      have hseverity := congrArg (severityOf toLowercase) heq
      rw [fromItem_asCandidate, fromItem_asCandidate] at hkey
      rw [severityOf_asCandidate, severityOf_asCandidate] at hseverity
      refine ⟨?_, ?_⟩
      · rw [sameConcern, hkey, BugKey.isSameBug]
        simp
      · rw [severityRank, severityRank, hseverity]
    · rw [fromItem_asCandidate] at hsame
      rw [severityOf_asCandidate] at hrank
      exact ⟨hsame, hrank⟩
  · rintro ⟨hpair, hcovered⟩
    refine ⟨hdistinct.mpr hpair, fun concern hconcern => ?_⟩
    obtain ⟨a, ha, hstands⟩ := hcovered concern hconcern
    obtain ⟨idx, hidx⟩ := List.getElem?_of_mem ha
    refine ⟨idx, asCandidate a idx, by rw [getElem?_candidates, hidx]; rfl, ?_⟩
    rcases hstands with rfl | ⟨hsame, hrank⟩
    · exact .inl rfl
    · right
      rw [fromItem_asCandidate, severityOf_asCandidate]
      exact ⟨hsame, hrank⟩

theorem soundCandidates_run_iff (concerns : List Json) :
    (∀ seen, seen <+: concerns →
      SoundCandidates K toLowercase seen (candidatesAfter K toLowercase seen)) ↔
      ∀ seen concern, seen ++ [concern] <+: concerns → TakesPlaceWell K toLowercase seen concern := by
  refine Iff.trans ?_ (represents_run_iff concerns)
  refine forall_congr' fun seen => forall_congr' fun _ => ?_
  rw [candidatesAfter_eq]
  exact soundCandidates_iff

theorem isObject_of_survives {item : Json} (h : survives diff (.fromItem K item) = true) :
    item.isObject = true := by
  obtain ⟨f, hf, -⟩ := List.any_eq_true.mp h
  cases hlocations : item.get? "locations" with
  | some value => exact Json.isObject_of_get? hlocations
  | none =>
    simp [BugKey.fromItem, BugKey.new, hlocations, uniqueTexts] at hf

theorem qualifies_of_mem {concerns : List Json} {concern : Json}
    (h : concern ∈ qualifying K toLowercase diff minSeverity known concerns) :
    survives diff (.fromItem K concern) = true ∧
      ∀ k ∈ known, k.isSameBug (.fromItem K concern) = false := by
  have hqualifies : ∃ pass, qualifies K toLowercase diff minSeverity known pass concern = true := by
    rcases List.mem_append.mp h with hmem | hmem
    · exact ⟨_, (List.mem_filter.mp hmem).2⟩
    · exact ⟨_, (List.mem_filter.mp hmem).2⟩
  obtain ⟨pass, hpass⟩ := hqualifies
  rw [qualifies, Bool.and_eq_true, Bool.and_eq_true, Bool.not_eq_true', List.any_eq_false] at hpass
  exact ⟨hpass.2.1, fun k hk => Bool.eq_false_iff.mpr (hpass.2.2 k hk)⟩

/-- What holds of each candidate by itself. -/
theorem candidate_sound {concerns : List Json} {idx : ℕ} {c : Json}
    (h : (prefilterCandidates K toLowercase diff minSeverity known concerns)[idx]? = some c) :
    c.getStr "id" = some ("RP" ++ toString (idx + 1)) ∧
      survives diff (.fromItem K c) = true ∧
      ∀ k ∈ known, k.isSameBug (.fromItem K c) = false := by
  rw [prefilterCandidates_eq, candidatesAfter_eq, getElem?_candidates] at h
  obtain ⟨concern, hget, rfl⟩ := Option.map_eq_some_iff.mp h
  obtain ⟨hsurvives, hknown⟩ := qualifies_of_mem (mem_representatives (List.mem_of_getElem? hget))
  rw [fromItem_asCandidate]
  refine ⟨?_, hsurvives, hknown⟩
  rw [Json.getStr, asCandidate, Json.get?_insert_self (isObject_of_survives hsurvives)]
  rfl

end Sound

/-- Each candidate by itself is as it should be. Together they are so where every concern that takes
the place of another does it well, and after every concern that comes up they are so only then. -/
theorem prefilterCandidates_sound (K : BugKeyParts) (toLowercase : String → String)
    (diff : String) (minSeverity : SeverityFloor) (known : List BugKey) (concerns : List Json) :
    (∀ idx c, (prefilterCandidates K toLowercase diff minSeverity known concerns)[idx]? = some c →
      c.getStr "id" = some ("RP" ++ toString (idx + 1)) ∧
        survives diff (.fromItem K c) = true ∧
        ∀ k ∈ known, k.isSameBug (.fromItem K c) = false) ∧
    ((∀ seen concern, seen ++ [concern] <+:
          qualifying K toLowercase diff minSeverity known concerns →
        TakesPlaceWell K toLowercase seen concern) →
      SoundCandidates K toLowercase (qualifying K toLowercase diff minSeverity known concerns)
        (prefilterCandidates K toLowercase diff minSeverity known concerns)) ∧
    ((∀ seen, seen <+: qualifying K toLowercase diff minSeverity known concerns →
        SoundCandidates K toLowercase seen (candidatesAfter K toLowercase seen)) ↔
      ∀ seen concern, seen ++ [concern] <+:
          qualifying K toLowercase diff minSeverity known concerns →
        TakesPlaceWell K toLowercase seen concern) := by
  refine ⟨fun idx c h => candidate_sound h, fun hwell => ?_, soundCandidates_run_iff _⟩
  rw [prefilterCandidates_eq]
  exact (soundCandidates_run_iff _).mpr hwell _ (List.prefix_refl _)

/-- A concern in `f.c`, in these functions. -/
def concernIn (severity problem : String) (functions : List String) : Json :=
  .obj [("severity", .str severity), ("description", .str problem),
    ("locations", .arr (functions.map fun name =>
      .obj [("file", .str "f.c"), ("function_or_symbol", .str name)]))]

/-- Two leaks in two functions, and a race in both that is more severe. -/
def leaksAndRace : List Json :=
  [concernIn "Low" "probe leaks memory" ["probe"], concernIn "Low" "remove drops nothing" ["remove"],
    concernIn "High" "race on the list" ["probe", "remove"]]

/-- The race takes the place of the first leak, and is the same bug as the second. -/
theorem race_not_distinct :
    ¬SoundCandidates plainKeyParts asciiLower
      (qualifying plainKeyParts asciiLower "diff --git a/f.c b/f.c\n" .low [] leaksAndRace)
      (prefilterCandidates plainKeyParts asciiLower "diff --git a/f.c b/f.c\n" .low []
        leaksAndRace) := by
  intro h
  exact absurd h.distinct (by decide)

end Sashiko
