import Sashiko.Text

/-! Mail addresses and the delivery policy of mailing lists. -/

namespace Sashiko

/-! ### Addresses -/

/-- What stands after the first `c`. -/
def afterFirst (c : Char) : List Char → Option (List Char)
  | [] => none
  | x :: xs => if x = c then some xs else afterFirst c xs

/-- The text between the first `<` and the `>` that follows it. -/
def bracketText (cs : List Char) : Option (List Char) :=
  match afterFirst '<' cs with
  | some rest => if '>' ∈ rest then some (rest.takeWhile (· ≠ '>')) else none
  | none => none

def extractBareEmail (raw : String) : String :=
  match bracketText (rustTrim raw).toList with
  | some inner => asciiLower (rustTrim (String.ofList inner))
  | none => asciiLower (rustTrim raw)

def escapeChars (cs : List Char) : List Char :=
  cs.flatMap fun c => if c = '\\' then ['\\', '\\'] else if c = '"' then ['\\', '"'] else [c]

def formatMailbox (name address : String) : String :=
  String.ofList ('"' :: escapeChars name.toList ++ ['"', ' ', '<'] ++ address.toList ++ ['>'])

/-! ### Policies -/

inductive ReplyTarget where
  | author
  | list
  | recipients
  deriving DecidableEq, Repr

inductive PositiveReviewPolicy where
  | none
  | author
  | all
  deriving DecidableEq, Repr

/-- The derived order of the enumeration. -/
def PositiveReviewPolicy.rank : PositiveReviewPolicy → ℕ
  | none => 0
  | author => 1
  | all => 2

structure PatchworkPolicy where
  enabled : Bool
  apiUrl : Option String
  token : Option String
  email : Option String
  minSeverity : Option String
  failSeverity : String
  deriving DecidableEq, Repr

def PatchworkPolicy.default : PatchworkPolicy where
  enabled := false
  apiUrl := .none
  token := .none
  email := .none
  minSeverity := .none
  failSeverity := "High"

structure DefaultListPolicy where
  replyTo : List ReplyTarget
  positiveReview : PositiveReviewPolicy
  muteAll : Bool
  cc : List String
  ignoredEmails : List String
  patchwork : PatchworkPolicy
  deriving DecidableEq, Repr

def DefaultListPolicy.default : DefaultListPolicy where
  replyTo := []
  positiveReview := .none
  muteAll := false
  cc := []
  ignoredEmails := []
  patchwork := .default

structure MailingListPolicy where
  replyTo : Option (List ReplyTarget)
  positiveReview : Option PositiveReviewPolicy
  muteAll : Option Bool
  cc : List String
  ignoredEmails : List String
  patchwork : PatchworkPolicy
  deriving DecidableEq, Repr

def MailingListPolicy.default : MailingListPolicy where
  replyTo := .none
  positiveReview := .none
  muteAll := .none
  cc := []
  ignoredEmails := []
  patchwork := .default

/-- The lists stand in the iteration order of the map. -/
structure EmailPolicyConfig where
  defaults : DefaultListPolicy
  lists : List (String × MailingListPolicy)
  deriving DecidableEq, Repr

end Sashiko
