import Sashiko.Db.MailCalls
import Sashiko.Json
import Sashiko.Related.Renumbering

/-! Keeping of a review's related bugs those whose disclosure was reserved. -/

namespace Sashiko

/-! ### Bug keys -/

/-- The hex digest of a text, and `char::is_alphanumeric`. -/
structure BugKeyParts where
  sha256Hex : String → String
  isAlphanumeric : Char → Bool

def stopWords : List String :=
  ["the", "and", "for", "with", "that", "this", "from", "when", "into", "can", "may", "not",
    "its", "are", "was", "but", "via", "after", "before", "without", "missing", "bug", "issue",
    "path"]

def normalizeSymbol (raw : String) : String :=
  asciiLower (rustTrim (trimEndMatches (rustTrim raw) "()"))

def problemWords (K : BugKeyParts) (problem : String) : List String :=
  uniqueTexts (((problem.toList.splitOnP fun c => !K.isAlphanumeric c && c != '_').map
    fun w => asciiLower (String.ofList w)).filter fun w => 3 ≤ w.utf8ByteSize ∧ w ∉ stopWords)

def problemOf (item : Json) : String :=
  (((item.get? "problem").or (item.get? "description")).bind Json.asStr).getD ""

/-- A field of a location, trimmed, where it is not blank. -/
def locationText (key : String) (location : Json) : Option String :=
  ((location.getStr key).map rustTrim).filter (· ≠ "")

/-- The fingerprint of `BugKey::new`: of the first location and the normalized problem, the first
sixteen bytes in hex. -/
def fingerprint (K : BugKeyParts) (problem : String) (locations : Option Json) : String :=
  let first := ((locations.bind Json.asArray).getD []).head?
  let file := (first.bind (locationText "file")).getD ""
  let symbol := ((first.bind (locationText "function_or_symbol")).map normalizeSymbol).getD ""
  let words := String.intercalate " " (problemWords K problem)
  String.ofList ((K.sha256Hex (file ++ "\x00" ++ symbol ++ "\x00" ++ words)).toList.take 32)

def fingerprintOfItem (K : BugKeyParts) (item : Json) : String :=
  fingerprint K (problemOf item) (item.get? "locations")

/-! ### Retaining reserved disclosures -/

def isReserved (K : BugKeyParts) (reserved : List PreexistingDisclosure) (item : Json) : Bool :=
  let bugId := (item.get? "bug_id").bind Json.asI64
  reserved.any fun r =>
    r.fingerprint = fingerprintOfItem K item || (bugId.isSome && r.bugId = bugId)

def markDismissed (item : Json) : Json :=
  (item.insert "dismissed_by" (.str "reservation")).insert "dismissed_reason"
    (.str "Already reserved or disclosed by another patch review.")

/-- The new text of an inline review field. -/
def retainedText (dropAll : Bool) (kept dropped : List ℕ) (text : String) : String :=
  if dropAll then String.ofList noIssuesFound
  else String.ofList (renumberFrom 0 kept (removeComments dropped text.toList))

def retainField (dropAll : Bool) (kept dropped : List ℕ) (review : Json) (field : String) : Json :=
  match review.getStr field with
  | none => review
  | some text => review.insert field (.str (retainedText dropAll kept dropped text))

def appendDismissed (review : Json) (items : List Json) : Json :=
  match review.get? "related_preexisting_dismissed" with
  | none => review.insert "related_preexisting_dismissed" (.arr items)
  | some (.arr before) => review.insert "related_preexisting_dismissed" (.arr (before ++ items))
  | some _ => review

def retainReservedDisclosures (K : BugKeyParts) (reserved : List PreexistingDisclosure)
    (review : Json) : Json :=
  match review.getArray "related_preexisting" with
  | none | some [] => review
  | some items =>
    let kept := items.zipIdx.filter fun p => isReserved K reserved p.1
    let dropped := items.zipIdx.filter fun p => !isReserved K reserved p.1
    let review := review.insert "related_preexisting" (.arr (kept.map Prod.fst))
    if dropped = [] then review
    else
      let review := appendDismissed review (dropped.map fun p => markDismissed p.1)
      let hasAnyFindings := (review.getArray "findings").any fun findings => findings ≠ []
      ["review_inline", "inline_review"].foldl
        (retainField (kept.isEmpty && !hasAnyFindings) (kept.map Prod.snd) (dropped.map Prod.snd))
        review

/-! ### The two lists -/

section Lists

variable {α : Type} (p : α → Bool) (xs : List α)

theorem map_fst_filter_zipIdx (n : ℕ) :
    ((xs.zipIdx n).filter fun q => p q.1).map Prod.fst = xs.filter p := by
  induction xs generalizing n with
  | nil => rfl
  | cons x xs ih =>
    rw [List.zipIdx_cons]
    cases hx : p x with
    | true =>
      rw [List.filter_cons_of_pos (by simpa using hx), List.filter_cons_of_pos hx, List.map_cons,
        ih]
    | false =>
      rw [List.filter_cons_of_neg (by simp [hx]), List.filter_cons_of_neg (by simp [hx]), ih]

theorem map_snd_filter_zipIdx_sublist :
    List.Sublist ((xs.zipIdx.filter fun q => p q.1).map Prod.snd) (List.range xs.length) := by
  have h := (List.filter_sublist (p := fun q : α × ℕ => p q.1) (l := xs.zipIdx)).map Prod.snd
  rwa [List.zipIdx_map_snd, ← List.range_eq_range'] at h

end Lists

section Indices

variable (K : BugKeyParts) (reserved : List PreexistingDisclosure) (items : List Json)

def keptIndices : List ℕ := (items.zipIdx.filter fun q => isReserved K reserved q.1).map Prod.snd

def droppedIndices : List ℕ :=
  (items.zipIdx.filter fun q => !isReserved K reserved q.1).map Prod.snd

theorem keptIndices_sorted : (keptIndices K reserved items).Pairwise (· < ·) :=
  List.pairwise_lt_range.sublist (map_snd_filter_zipIdx_sublist (isReserved K reserved) items)

theorem droppedIndices_sublist :
    List.Sublist (droppedIndices K reserved items) (List.range items.length) :=
  map_snd_filter_zipIdx_sublist (fun item => !isReserved K reserved item) items

theorem droppedIndices_eq_nil :
    droppedIndices K reserved items = [] ↔
      items.zipIdx.filter (fun q => !isReserved K reserved q.1) = [] :=
  List.map_eq_nil_iff

end Indices

theorem PlacesBugs.subset {units : List CommentUnit} {bugs fewer : List ℕ}
    (h : PlacesBugs units bugs) (hsub : fewer ⊆ bugs) : PlacesBugs units fewer :=
  ⟨fun idx hidx => h.once idx (hsub hidx), h.single, h.quoted⟩

/-! ### The fields of the review -/

section Fields

variable {dropAll : Bool} {kept dropped : List ℕ} {review : Json} {field key : String}

theorem get?_retainField_ne (h : key ≠ field) :
    (retainField dropAll kept dropped review field).get? key = review.get? key := by
  unfold retainField
  split
  · rfl
  · exact Json.get?_insert_ne h _ _

theorem getStr_retainField {text : String} (h : review.getStr field = some text) :
    (retainField dropAll kept dropped review field).getStr field =
      some (retainedText dropAll kept dropped text) := by
  obtain ⟨value, hvalue, -⟩ := Option.bind_eq_some_iff.mp h
  have hself := Json.get?_insert_self (Json.isObject_of_get? hvalue) field
    (.str (retainedText dropAll kept dropped text))
  simp only [retainField, h]
  rw [Json.getStr, hself]
  rfl

theorem get?_retainFields_ne (h : key ≠ "review_inline") (h' : key ≠ "inline_review") :
    (["review_inline", "inline_review"].foldl (retainField dropAll kept dropped) review).get? key =
      review.get? key := by
  rw [List.foldl_cons, List.foldl_cons, List.foldl_nil, get?_retainField_ne h',
    get?_retainField_ne h]

theorem getStr_retainFields (hfield : field ∈ ["review_inline", "inline_review"]) {text : String}
    (h : review.getStr field = some text) :
    (["review_inline", "inline_review"].foldl
      (retainField dropAll kept dropped) review).getStr field =
        some (retainedText dropAll kept dropped text) := by
  rw [List.foldl_cons, List.foldl_cons, List.foldl_nil]
  rcases List.mem_cons.mp hfield with rfl | hfield
  · rw [Json.getStr, get?_retainField_ne (by decide)]
    exact getStr_retainField h
  · obtain rfl := List.mem_singleton.mp hfield
    refine getStr_retainField ?_
    rw [Json.getStr, get?_retainField_ne (by decide)]
    exact h

theorem get?_appendDismissed_ne (h : key ≠ "related_preexisting_dismissed") (items : List Json) :
    (appendDismissed review items).get? key = review.get? key := by
  unfold appendDismissed
  split
  · exact Json.get?_insert_ne h _ _
  · exact Json.get?_insert_ne h _ _
  · rfl

end Fields

theorem getArray_appendDismissed {review : Json} (hobject : review.isObject = true)
    (hlist : ∀ value, review.get? "related_preexisting_dismissed" = some value →
      value.asArray.isSome = true) (items : List Json) :
    ((appendDismissed review items).getArray "related_preexisting_dismissed").getD [] =
      (review.getArray "related_preexisting_dismissed").getD [] ++ items := by
  have hself := Json.get?_insert_self hobject "related_preexisting_dismissed"
  unfold appendDismissed Json.getArray
  cases hvalue : review.get? "related_preexisting_dismissed" with
  | none => simp [hself, Json.asArray]
  | some value =>
    have harray := hlist value hvalue
    cases value with
    | arr before => simp [hself, Json.asArray]
    | _ => cases harray

/-! ### What retaining does -/

/-- With findings or related bugs left, the field's review keeps every comment that stays. -/
def InlineRetained (K : BugKeyParts) (reserved : List PreexistingDisclosure) (items : List Json)
    (review review' : Json) (field : String) (r : ReviewParts) : Prop :=
  ∀ text, review.getStr field = some text → r.Builds text.toList →
    PlacesBugs r.units (List.range items.length) →
    (keptIndices K reserved items ≠ [] ∨
      ∃ findings, review.getArray "findings" = some findings ∧ findings ≠ []) →
    ∃ text', review'.getStr field = some text' ∧
      (droppedIndices K reserved items = [] → text' = text) ∧
      (droppedIndices K reserved items ≠ [] →
        Reflects r (keptIndices K reserved items) (droppedIndices K reserved items) text'.toList)

/-- The items are split in order into kept and dismissed. -/
structure ItemsRetained (K : BugKeyParts) (reserved : List PreexistingDisclosure)
    (items : List Json) (review review' : Json) : Prop where
  kept : review'.getArray "related_preexisting" = some (items.filter (isReserved K reserved))
  dismissed : (review'.getArray "related_preexisting_dismissed").getD [] =
    (review.getArray "related_preexisting_dismissed").getD [] ++
      (items.filter fun item => !isReserved K reserved item).map markDismissed

section Retained

variable (K : BugKeyParts) (reserved : List PreexistingDisclosure) {items : List Json}
  {review : Json}

theorem retain_eq (hitems : review.getArray "related_preexisting" = some items)
    (hne : items ≠ []) :
    retainReservedDisclosures K reserved review =
      if droppedIndices K reserved items = [] then
        review.insert "related_preexisting" (.arr (items.filter (isReserved K reserved)))
      else
        ["review_inline", "inline_review"].foldl
          (retainField
            ((keptIndices K reserved items).isEmpty &&
              !(review.getArray "findings").any fun findings => findings ≠ [])
            (keptIndices K reserved items) (droppedIndices K reserved items))
          (appendDismissed
            (review.insert "related_preexisting" (.arr (items.filter (isReserved K reserved))))
            ((items.filter fun item => !isReserved K reserved item).map markDismissed)) := by
  obtain ⟨item, rest, rfl⟩ := List.exists_cons_of_ne_nil hne
  have hkept := map_fst_filter_zipIdx (isReserved K reserved) (item :: rest) 0
  have hdropped : ((item :: rest).zipIdx.filter fun q => !isReserved K reserved q.1).map
      (fun q => markDismissed q.1) =
        ((item :: rest).filter fun item => !isReserved K reserved item).map markDismissed := by
    have hfst := map_fst_filter_zipIdx (fun item => !isReserved K reserved item) (item :: rest) 0
    rw [← hfst, List.map_map]
    rfl
  simp only [retainReservedDisclosures, hitems, hkept, hdropped, droppedIndices_eq_nil]
  split_ifs
  · rfl
  · have hfindings : ∀ review' : Json, review'.get? "findings" = review.get? "findings" →
        review'.getArray "findings" = review.getArray "findings" := fun review' h => by
      rw [Json.getArray, Json.getArray, h]
    rw [hfindings _ (by
      rw [get?_appendDismissed_ne (by decide), Json.get?_insert_ne (by decide)])]
    congr 2
    simp [keptIndices]

theorem itemsRetained (hitems : review.getArray "related_preexisting" = some items)
    (hlist : ∀ value, review.get? "related_preexisting_dismissed" = some value →
      value.asArray.isSome = true) :
    ItemsRetained K reserved items review (retainReservedDisclosures K reserved review) := by
  obtain ⟨value, hvalue, -⟩ := Option.bind_eq_some_iff.mp hitems
  have hobject := Json.isObject_of_get? hvalue
  by_cases hne : items = []
  · subst hne
    refine ⟨?_, ?_⟩ <;> simp [retainReservedDisclosures, hitems]
  rw [retain_eq K reserved hitems hne]
  have hself := Json.get?_insert_self hobject "related_preexisting"
    (.arr (items.filter (isReserved K reserved)))
  split_ifs with hnone
  · have hall : (items.filter fun item => !isReserved K reserved item) = [] := by
      have hfst := map_fst_filter_zipIdx (fun item => !isReserved K reserved item) items 0
      rw [← hfst, (droppedIndices_eq_nil K reserved items).mp hnone, List.map_nil]
    refine ⟨?_, ?_⟩
    · rw [Json.getArray, hself]
      rfl
    · rw [Json.getArray, Json.get?_insert_ne (by decide), hall]
      simp [Json.getArray]
  · refine ⟨?_, ?_⟩
    · rw [Json.getArray, get?_retainFields_ne (by decide) (by decide),
        get?_appendDismissed_ne (by decide), hself]
      rfl
    · rw [Json.getArray, get?_retainFields_ne (by decide) (by decide), ← Json.getArray,
        getArray_appendDismissed (by rwa [Json.isObject_insert]) (by
          rw [Json.get?_insert_ne (by decide)]
          exact hlist)]
      simp [Json.getArray]

theorem getStr_retain (hitems : review.getArray "related_preexisting" = some items)
    (hsome : droppedIndices K reserved items ≠ []) {field : String}
    (hfield : field ∈ ["review_inline", "inline_review"]) {text : String}
    (htext : review.getStr field = some text) :
    (retainReservedDisclosures K reserved review).getStr field = some (retainedText
      ((keptIndices K reserved items).isEmpty &&
        !(review.getArray "findings").any fun findings => findings ≠ [])
      (keptIndices K reserved items) (droppedIndices K reserved items) text) := by
  have hne : items ≠ [] := by
    rintro rfl
    exact hsome rfl
  have hkey : field ≠ "related_preexisting" ∧ field ≠ "related_preexisting_dismissed" := by
    simp only [List.mem_cons, List.not_mem_nil, or_false] at hfield
    rcases hfield with rfl | rfl <;> decide
  rw [retain_eq K reserved hitems hne, if_neg hsome]
  refine getStr_retainFields hfield ?_
  rwa [Json.getStr, get?_appendDismissed_ne hkey.2, Json.get?_insert_ne hkey.1]

/-- Retaining the reserved disclosures splits the items, and takes out of the inline review the
comments of the dismissed bugs and nothing else, where no header of a file is passed over. -/
theorem retainReservedDisclosures_keeps
    (hitems : review.getArray "related_preexisting" = some items)
    (hlist : ∀ value, review.get? "related_preexisting_dismissed" = some value →
      value.asArray.isSome = true) :
    ItemsRetained K reserved items review (retainReservedDisclosures K reserved review) ∧
      ∀ field ∈ ["review_inline", "inline_review"], ∀ r : ReviewParts,
        headersSafe (aboutAny (droppedIndices K reserved items)) false r.units = true →
          InlineRetained K reserved items review (retainReservedDisclosures K reserved review)
            field r := by
  refine ⟨itemsRetained K reserved hitems hlist,
    fun field hfield r hsafe text htext hbuilds hplaces hremain => ?_⟩
  by_cases hne : items = []
  · subst hne
    refine ⟨text, ?_, fun _ => rfl, fun h => absurd rfl h⟩
    simpa [retainReservedDisclosures, hitems] using htext
  by_cases hnone : droppedIndices K reserved items = []
  · have hkey : field ≠ "related_preexisting" := by
      rintro rfl
      exact absurd hfield (by decide)
    refine ⟨text, ?_, fun _ => rfl, fun h => absurd hnone h⟩
    rwa [retain_eq K reserved hitems hne, if_pos hnone, Json.getStr, Json.get?_insert_ne hkey]
  · refine ⟨_, getStr_retain K reserved hitems hnone hfield htext, fun h => absurd h hnone,
      fun _ => ?_⟩
    have hdropAll : ((keptIndices K reserved items).isEmpty &&
        !(review.getArray "findings").any fun findings => findings ≠ []) = false := by
      rcases hremain with hkept | ⟨findings, hfindings, hfne⟩
      · simp [hkept]
      · simp [hfindings, hfne]
    have hsub := droppedIndices_sublist K reserved items
    have hreflects := reflects_of_headersSafe hnone (List.nodup_range.sublist hsub)
      (keptIndices_sorted K reserved items) hbuilds (hplaces.subset hsub.subset) hsafe
    rw [hdropAll, retainedText, if_neg Bool.false_ne_true, String.toList_ofList]
    exact hreflects

end Retained

/-! ### A patch to a document that shows a diff -/

theorem not_infix_of_bracket_not_mem {l : Chars} (h : '[' ∉ l) (idx : ℕ) :
    ¬bugRefPlaceholder idx <:+: l := by
  intro hin
  obtain ⟨w, hw, -⟩ := isToken_bugRefPlaceholder idx
  exact h (hin.subset (by rw [hw]; exact List.mem_cons_self))

theorem second_bugRefPlaceholder (idx : ℕ) : (bugRefPlaceholder idx).getD 1 ' ' = 'B' := by
  unfold bugRefPlaceholder
  split_ifs
  · rfl
  · rw [List.append_assoc]
    rfl

theorem not_infix_of_other_token {t : Chars} (ht : IsToken t) (h : t.getD 1 ' ' ≠ 'B') (idx : ℕ) :
    ¬bugRefPlaceholder idx <:+: t := by
  intro hin
  have htoken := isToken_bugRefPlaceholder idx
  rw [← List.append_nil t, ht.infix_append_iff htoken, List.infix_nil] at hin
  rcases hin with heq | hnil
  · exact h (heq ▸ second_bugRefPlaceholder idx)
  · exact htoken.ne_nil hnil

section Document

def docHeader : Chars := "> diff --git a/Documentation/x.rst b/Documentation/x.rst".toList

/-- Two comments in one file. The first quotes the file's header; the hunk of the second has this
line in it. -/
def docReview (context : Chars) : ReviewParts :=
  ⟨["commit 1234".toList],
    [⟨[docHeader, "> @@ -1,3 +1,4 @@".toList, "> +text".toList],
      ["[Severity: Low]".toList, "This predates the patch [BUG_REF].".toList]⟩,
     ⟨["> @@ -10,3 +10,4 @@".toList, context, "> +more".toList],
      ["[Severity: High]".toList, "Is this right?".toList]⟩], []⟩

/-- One related bug, not reserved, and a finding. -/
def docOutput (context : Chars) : Json :=
  .obj [("findings", .arr [.obj []]), ("related_preexisting", .arr [.obj []]),
    ("review_inline", .str (String.ofList
      (inlineText (docReview context).header (docReview context).units [])))]

def plainKeyParts : BugKeyParts := ⟨id, Char.isAlphanum⟩

variable {context : Chars}

theorem docReview_wellBuilt (hquote : isQuoteOrSnip context = true) (hline : IsLine context)
    (hfile : isFileHeaderLine context = false) : (docReview context).WellBuilt where
  header := by
    intro l hl
    obtain rfl := List.mem_singleton.mp hl
    exact ⟨⟨by decide, by decide⟩, by decide, by decide⟩
  headerEnd := by
    intro l hl
    cases hl
    rfl
  units := by
    intro u hu
    rcases List.mem_cons.mp hu with rfl | hu
    · exact {
        quotes := {
          quoted := fun l hl => Or.inl (by
            revert l
            decide)
          first := fun l hl => by cases hl; rfl
          last := fun l hl => by cases hl; rfl
          oneFile := by decide }
        comments := {
          opens := ⟨_, _, rfl, by decide, by decide⟩
          closes := ⟨["[Severity: Low]".toList], _, rfl, ⟨'.', by decide, by decide⟩,
            by decide⟩ }
        lines := by
          simp only [IsLine]
          decide }
    · obtain rfl := List.mem_singleton.mp hu
      exact {
        quotes := {
          quoted := fun l hl => Or.inl (by
            simp only [List.mem_cons, List.not_mem_nil, or_false] at hl
            rcases hl with rfl | rfl | rfl
            · rfl
            · exact hquote
            · rfl)
          first := fun l hl => by cases hl; rfl
          last := fun l hl => by cases hl; rfl
          oneFile := fun l hl => by
            simp only [List.tail_cons, List.mem_cons, List.not_mem_nil, or_false] at hl
            rcases hl with rfl | rfl
            · exact hfile
            · rfl }
        comments := {
          opens := ⟨_, _, rfl, by decide, by decide⟩
          closes := ⟨["[Severity: High]".toList], _, rfl, ⟨'?', by decide, by decide⟩,
            by decide⟩ }
        lines := fun l hl => by
          simp only [List.cons_append, List.nil_append, List.mem_cons, List.not_mem_nil,
            or_false] at hl
          rcases hl with rfl | rfl | rfl | rfl | rfl
          · exact ⟨by decide, by decide⟩
          · exact hline
          · exact ⟨by decide, by decide⟩
          · exact ⟨by decide, by decide⟩
          · exact ⟨by decide, by decide⟩ }
  footnotes := fun l hl => absurd hl List.not_mem_nil

theorem docReview_builds (h : (docReview context).WellBuilt) :
    (docReview context).Builds
      (inlineText (docReview context).header (docReview context).units []) :=
  builds_inlineText h (List.cons_ne_nil _ _)

theorem mentions_docComment {idx : ℕ}
    (h : mentions ["[Severity: Low]".toList, "This predates the patch [BUG_REF].".toList] idx =
      true) : idx = 0 := by
  obtain ⟨l, hl, hin⟩ := mentions_iff.mp h
  have htoken := isToken_bugRefPlaceholder idx
  simp only [List.mem_cons, List.not_mem_nil, or_false] at hl
  rcases hl with rfl | rfl
  · exact absurd hin (not_infix_of_other_token
      ⟨"Severity: Low".toList, rfl, by decide, by decide⟩ (by decide) idx)
  · have hfront : '[' ∉ "This predates the patch ".toList := by decide
    have hsplit : "This predates the patch [BUG_REF].".toList =
        "This predates the patch ".toList ++ (bugRefPlaceholder 0 ++ ".".toList) := rfl
    rw [hsplit, htoken.infix_append_iff_of_not_mem hfront,
      (isToken_bugRefPlaceholder 0).infix_append_iff htoken] at hin
    rcases hin with heq | hin
    · exact bugRefPlaceholder_injective heq
    · exact absurd hin (not_infix_of_bracket_not_mem (by decide) idx)

theorem docReview_placesBugs (hcontext : '[' ∉ context) :
    PlacesBugs (docReview context).units (List.range 1) where
  once := by
    intro idx hidx
    obtain rfl : idx = 0 := by simpa using hidx
    rfl
  single := by
    intro u hu i j hi hj
    rcases List.mem_cons.mp hu with rfl | hu
    · rw [mentions_docComment hi, mentions_docComment hj]
    · obtain rfl := List.mem_singleton.mp hu
      obtain ⟨l, hl, hin⟩ := mentions_iff.mp hi
      simp only [List.mem_cons, List.not_mem_nil, or_false] at hl
      rcases hl with rfl | rfl
      · exact absurd hin (not_infix_of_other_token
          ⟨"Severity: High".toList, rfl, by decide, by decide⟩ (by decide) i)
      · exact absurd hin (not_infix_of_bracket_not_mem (by decide) i)
  quoted := by
    intro u hu l hl idx
    refine not_infix_of_bracket_not_mem ?_ idx
    rcases List.mem_cons.mp hu with rfl | hu
    · revert l
      decide
    · obtain rfl := List.mem_singleton.mp hu
      simp only [List.mem_cons, List.not_mem_nil, or_false] at hl
      rcases hl with rfl | rfl | rfl
      · decide
      · exact hcontext
      · decide

/-- The hunk shows a diff: its second line reads as a file header without the quote. -/
def shownDiff : Chars := ">  diff --git a/foo b/foo".toList

theorem mem_quoteLines_of_file {units : List CommentUnit} {file : Option Chars}
    {quote : List Chars} {o : Reading} (ho : o ∈ readingsFrom file quote units) {f : Chars}
    (hf : o.file = some f) (hfile : file ≠ some f) : ∃ u ∈ units, f ∈ u.quoteLines := by
  induction units generalizing file quote with
  | nil => cases ho
  | cons unit units ih =>
    by_cases hown : (quotedFile unit.quoteLines).or file = some f
    · cases hq : quotedFile unit.quoteLines with
      | none =>
        rw [hq, Option.none_or] at hown
        exact absurd hown hfile
      | some g =>
        rw [hq, Option.some_or] at hown
        obtain rfl := Option.some.inj hown
        exact ⟨unit, List.mem_cons_self, (List.mem_filter.mp (List.mem_of_getLast? hq)).1⟩
    · rcases List.mem_cons.mp ho with rfl | ho
      · exact absurd hf hown
      · obtain ⟨u, hu, hmem⟩ := ih ho hown
        exact ⟨u, List.mem_cons_of_mem _ hu, hmem⟩

theorem infix_inlineText {header footnotes : List Chars} {units : List CommentUnit}
    {u : CommentUnit} (hu : u ∈ units) {l : Chars} (hl : l ∈ u.quoteLines) :
    l <:+: inlineText header units footnotes := by
  have hpart : u.quoteLines ∈ (header :: units.flatMap (fun u => [u.quoteLines, u.commentLines]) ++
      [footnotes]).filter (· ≠ []) := by
    refine List.mem_filter.mpr ⟨?_, by simpa using List.ne_nil_of_mem hl⟩
    simp only [List.cons_append, List.mem_cons, List.mem_append, List.mem_flatMap]
    exact Or.inr (Or.inl ⟨u, hu, by simp⟩)
  refine (infix_joinLines hl).trans ?_
  rw [inlineText]
  exact infix_intercalate (List.mem_map_of_mem hpart)

theorem docOutput_noDismissed (context : Chars) (value : Json)
    (h : (docOutput context).get? "related_preexisting_dismissed" = some value) :
    value.asArray.isSome = true := by
  have hnone : (docOutput context).get? "related_preexisting_dismissed" = none := rfl
  rw [hnone] at h
  cases h

theorem docOutput_text (context : Chars) :
    (docOutput context).getStr "review_inline" = some (String.ofList
      (inlineText (docReview context).header (docReview context).units [])) := rfl

def plainContext : Chars := "> context".toList

/-- The header of the document stays with the second comment. -/
theorem retainReservedDisclosures_keeps_context :
    let review := docOutput plainContext
    ∃ text', (retainReservedDisclosures plainKeyParts [] review).getStr "review_inline" =
        some text' ∧ Reflects (docReview plainContext) [] [0] text'.toList := by
  have hbuilt : (docReview plainContext).WellBuilt :=
    docReview_wellBuilt (by decide) ⟨by decide, by decide⟩ (by decide)
  have hitems : (docOutput plainContext).getArray "related_preexisting" = some [.obj []] := rfl
  obtain ⟨-, hinline⟩ := retainReservedDisclosures_keeps plainKeyParts [] hitems
    (docOutput_noDismissed _)
  obtain ⟨text', htext', -, hreflects⟩ := hinline "review_inline" (by decide)
    (docReview plainContext) (by decide) _ (docOutput_text _)
    (by rw [String.toList_ofList]; exact docReview_builds hbuilt)
    (docReview_placesBugs (by decide)) (Or.inr ⟨_, rfl, List.cons_ne_nil _ _⟩)
  exact ⟨text', htext', hreflects (by decide)⟩

/-- With the diff shown in the hunk, the second comment has lost the header of its file. -/
theorem shownDiff_loses_header :
    let review := docOutput shownDiff
    ¬(ItemsRetained plainKeyParts [] [.obj []] review
        (retainReservedDisclosures plainKeyParts [] review) ∧
      ∀ field ∈ ["review_inline", "inline_review"], ∀ r : ReviewParts,
        InlineRetained plainKeyParts [] [.obj []] review
          (retainReservedDisclosures plainKeyParts [] review) field r) := by
  rintro review ⟨-, h⟩
  have hbuilt : (docReview shownDiff).WellBuilt :=
    docReview_wellBuilt (by decide) ⟨by decide, by decide⟩ (by decide)
  obtain ⟨text', htext', -, hreflects⟩ := h "review_inline" (by decide) (docReview shownDiff) _
    (docOutput_text _) (by rw [String.toList_ofList]; exact docReview_builds hbuilt)
    (docReview_placesBugs (by decide)) (Or.inr ⟨_, rfl, List.cons_ne_nil _ _⟩)
  obtain ⟨units, htext, hsurvive⟩ := hreflects (by decide)
  have hkept : (readings (docReview shownDiff).units).filter
        (fun o => !aboutAny (droppedIndices plainKeyParts [] [.obj []]) o.comment) =
      [⟨some docHeader, ["> @@ -10,3 +10,4 @@".toList, shownDiff, "> +more".toList],
        ["[Severity: High]".toList, "Is this right?".toList]⟩] := by decide
  rw [hkept, List.forall₂_cons_left_iff] at hsurvive
  obtain ⟨v, rest, hv, -, hreadings⟩ := hsurvive
  have hmem : v ∈ readings units := by rw [hreadings]; exact List.mem_cons_self
  obtain ⟨u, hu, hquote⟩ := mem_quoteLines_of_file hmem hv.file (by simp)
  have hin : docHeader <:+: text'.toList := by
    rw [htext, writeBack, if_neg (List.ne_nil_of_mem hu)]
    exact infix_inlineText hu hquote
  have hitems : (docOutput shownDiff).getArray "related_preexisting" = some [.obj []] := rfl
  have hwritten := getStr_retain plainKeyParts [] hitems (by decide) (by decide)
    (docOutput_text shownDiff)
  have hdropped : droppedIndices plainKeyParts [] [.obj []] = [0] := by decide
  have hkeptIndices : keptIndices plainKeyParts [] [.obj []] = [] := by decide
  rw [hdropped, hkeptIndices] at hwritten
  obtain rfl := Option.some.inj (htext'.symm.trans hwritten)
  have hout : containsChars (renumberFrom 0 [] (removeComments [0]
      (inlineText (docReview shownDiff).header (docReview shownDiff).units []))) docHeader =
        false := by decide
  have hfindings : (([] : List ℕ).isEmpty &&
      !((docOutput shownDiff).getArray "findings").any fun findings => findings ≠ []) = false := rfl
  rw [hfindings, retainedText, if_neg Bool.false_ne_true, String.toList_ofList,
    String.toList_ofList] at hin
  exact absurd (containsChars_iff.mpr hin) (Bool.eq_false_iff.mp hout)

end Document

end Sashiko
