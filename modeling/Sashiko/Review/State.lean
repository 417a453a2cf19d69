import Sashiko.Json
import Sashiko.Text

/-! The state of a patch review between analysis and report, and what the models return. -/

namespace Sashiko

structure AnalysisStage where
  name : String
  guides : List String
  deriving DecidableEq, Repr

structure LinuxPatchReviewState where
  selectedGuides : List String
  reportPreexisting : Bool
  project : String
  allConcerns : List Json
  allDismissedConcerns : List Json
  deduplicatedClusters : List Json
  verificationFindings : List Json
  verificationDismissed : List Json
  postVerificationFindings : List Json
  postVerificationDismissed : List Json
  deduplicatedDismissedConcerns : List Json
  inconclusiveConcerns : List Json
  concerns : List Json
  findings : List Json
  deriving DecidableEq, Repr

structure DeduplicationClusterSpec where
  id : String
  title : String
  sourceIds : List String
  deriving DecidableEq, Repr

structure DeduplicationOutput where
  clusters : List DeduplicationClusterSpec
  deriving DecidableEq, Repr

structure VerificationOutput where
  findings : List Json
  inconclusiveConcerns : List Json
  dismissedIds : List String
  dismissedConcerns : List Json
  deriving DecidableEq, Repr

structure PostVerificationOutput where
  findings : List Json
  dismissedConcerns : List Json
  deriving DecidableEq, Repr

/-- `item.get(key).and_then(Value::as_str).is_some_and(|s| !s.trim().is_empty())` -/
def hasText (key : String) (item : Json) : Bool := (item.getStr key).any (rustTrim · ≠ "")

/-- An `id` as it is compared: trimmed, and absent when nothing is left. -/
def trimmedId (item : Json) : Option String :=
  ((item.getStr "id").map rustTrim).filter (· ≠ "")

def trimmedIds (items : List Json) : List String := items.filterMap trimmedId

def extractIdList (item : Json) (field : String) : List String :=
  match item.getArray field with
  | some items => ((items.filterMap Json.asStr).map rustTrim).filter (· ≠ "")
  | none => []

def pushUniqueString (list : List String) (candidate : String) : List String :=
  if rustTrim candidate ≠ "" ∧ rustTrim candidate ∉ list then list ++ [rustTrim candidate]
  else list

theorem mem_pushUniqueString_of_mem {list : List String} {x candidate : String}
    (h : x ∈ list) : x ∈ pushUniqueString list candidate := by
  unfold pushUniqueString
  split_ifs
  · exact List.mem_append_left _ h
  · exact h

theorem mem_pushUniqueString_trimmed {list : List String} {x : String} (hne : rustTrim x ≠ "") :
    rustTrim x ∈ pushUniqueString list x := by
  unfold pushUniqueString
  split_ifs with h
  · exact List.mem_append_right _ (List.mem_singleton_self _)
  · by_contra hx
    exact h ⟨hne, hx⟩

theorem mem_foldl_pushUniqueString {x : String} (items : List String) :
    ∀ list : List String, x ∈ list → x ∈ items.foldl pushUniqueString list := by
  induction items with
  | nil => exact fun list h => h
  | cons y items ih => exact fun list h => ih _ (mem_pushUniqueString_of_mem h)

theorem mem_pushAll_trimmed {x y : String} (hne : rustTrim y ≠ "") {items : List String}
    (hy : y ∈ items) (hx : rustTrim y = x) :
    ∀ list : List String, x ∈ items.foldl pushUniqueString list := by
  induction items with
  | nil => cases hy
  | cons z items ih =>
    intro list
    rcases List.mem_cons.mp hy with rfl | hy
    · exact mem_foldl_pushUniqueString items _ (hx ▸ mem_pushUniqueString_trimmed hne)
    · exact ih hy _

theorem mem_pushAll {x : String} (htrim : rustTrim x = x) (hne : x ≠ "") {items : List String}
    (hx : x ∈ items) (list : List String) : x ∈ items.foldl pushUniqueString list :=
  mem_pushAll_trimmed (htrim.symm ▸ hne) hx htrim list

end Sashiko
