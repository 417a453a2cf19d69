import Mathlib.Algebra.Group.Action.Defs
import Sashiko.Prior.ThreadSelection

/-! What is left of a prior-version context within its byte budget, and what is dropped. -/

namespace Sashiko

namespace Serialized

/-! ### Ids -/

section Ids
variable {base ctx : PriorVersionContext} {kept : List PriorDiscussionThread}

theorem Selected.provisional {refused : Bool} {rest final : List PriorDiscussionThread}
    (h : Selected base kept refused rest final) (hkept : ∀ t ∈ kept, t.provisional = t) :
    ∀ t ∈ final, t.provisional = t := by
  have hconcat {kept : List PriorDiscussionThread} {t : PriorDiscussionThread}
      (hkept : ∀ t ∈ kept, t.provisional = t) (ht : t.provisional = t) :
      ∀ x ∈ kept ++ [t], x.provisional = x := by
    intro x hx
    rcases List.mem_append.mp hx with hx | hx
    · exact hkept x hx
    · rw [List.mem_singleton.mp hx, ht]
  induction h with
  | done => exact hkept
  | whole _ ih => exact ih (hconcat hkept rfl)
  | trimmed _ _ _ _ ih => exact ih (hconcat hkept rfl)
  | dropped _ _ ih => exact ih hkept

theorem toNat_of_isAlphanum {c : Char} (hc : c.isAlphanum = true) :
    48 ≤ c.toNat ∧ c.toNat ≤ 122 ∧ c.toNat ≠ 92 := by
  simp only [Char.isAlphanum, isAlpha_def, isUpper_def, isLower_def, Char.isDigit,
    Bool.or_eq_true, Bool.and_eq_true, decide_eq_true_eq, ge_iff_le, UInt32.le_iff_toNat_le] at hc
  change ((65 ≤ c.toNat ∧ c.toNat ≤ 90) ∨ (97 ≤ c.toNat ∧ c.toNat ≤ 122)) ∨
    (48 ≤ c.toNat ∧ c.toNat ≤ 57) at hc
  omega

theorem escapeChar_of_isAlphanum {c : Char} (hc : c.isAlphanum = true) :
    Json.escapeChar c = String.singleton c ∧ c.utf8Size = 1 := by
  obtain ⟨hlow, hhigh, hslash⟩ := toNat_of_isAlphanum hc
  have hne (d : Char) (hd : d.toNat < 48 ∨ d.toNat = 92) : c ≠ d := by
    rintro rfl
    omega
  constructor
  · rw [Json.escapeChar, if_neg (hne '"' (by decide)), if_neg (hne '\\' (by decide)),
      if_neg (hne '\n' (by decide)), if_neg (hne '\r' (by decide)), if_neg (hne '\t' (by decide)),
      if_neg (by omega), if_neg (by omega), if_neg (by omega)]
  · rw [Char.utf8Size_eq_one_iff, UInt32.le_iff_toNat_le]
    exact hhigh.trans (by decide)

theorem size_quote {s : String} (h : ∀ c ∈ s.toList, c.isAlphanum = true) :
    (Json.quote s).utf8ByteSize = s.length + 2 := by
  have hquote : ("\"").utf8ByteSize = 1 := by decide
  have hjoin : ∀ cs : List Char, (∀ c ∈ cs, c.isAlphanum = true) →
      (String.join (cs.map Json.escapeChar)).utf8ByteSize = cs.length := by
    intro cs
    induction cs with
    | nil => exact fun _ => rfl
    | cons c cs ih =>
      intro hcs
      obtain ⟨hc, hsize⟩ := escapeChar_of_isAlphanum (hcs c List.mem_cons_self)
      rw [List.map_cons, String.join_cons, String.utf8ByteSize_append, hc,
        String.utf8ByteSize_singleton, hsize, ih fun x hx => hcs x (List.mem_cons_of_mem _ hx),
        List.length_cons, Nat.add_comm]
  rw [Json.quote, String.utf8ByteSize_append, String.utf8ByteSize_append, hquote,
    hjoin _ h, String.length_toList]
  omega

/-- Up to four digits take no more than the provisional id. -/
theorem size_quote_id {n : ℕ} (h : n ≤ 9999) :
    (Json.quote ("HM" ++ toString n)).utf8ByteSize ≤ (Json.quote "HM9999").utf8ByteSize := by
  have hlen : n.repr.length ≤ 4 := by
    rw [Nat.length_repr_le_iff (by decide)]
    omega
  have hprovisional : (Json.quote "HM9999").utf8ByteSize = 8 := by decide
  change (Json.quote ("HM" ++ n.repr)).utf8ByteSize ≤ _
  rw [hprovisional, size_quote, String.length_append]
  · have htwo : ("HM").length = 2 := by decide
    omega
  · intro c hc
    rw [String.toList_append, List.mem_append, Nat.toList_repr] at hc
    rcases hc with hc | hc
    · exact List.all_eq_true.mp (show ("HM").toList.all Char.isAlphanum = true by decide) c hc
    · rw [Char.isAlphanum, Nat.isDigit_of_mem_toDigits (by decide) (by decide) hc, Bool.or_true]

theorem byteLen_thread (t : PriorDiscussionThread) :
    t.toJson.byteLen =
      Json.entryLen ("id", .str t.id) + (1 + (t.restFields.map Json.entryLen).sum) := by
  rw [PriorDiscussionThread.toJson, Json.byteLen_obj (List.cons_ne_nil _ _), List.map_cons,
    List.sum_cons, Nat.add_left_comm]

theorem size_numbered {t : PriorDiscussionThread} (ht : t.provisional = t) {n : ℕ}
    (hn : n ≤ 9999) :
    PriorDiscussionThread.size { t with id := "HM" ++ toString n } ≤ t.size := by
  have hid : t.id = "HM9999" := by rw [← ht]; rfl
  have hquote := size_quote_id hn
  have hrest : PriorDiscussionThread.restFields { t with id := "HM" ++ toString n } =
      t.restFields := rfl
  rw [PriorDiscussionThread.size, PriorDiscussionThread.size, byteLen_thread, byteLen_thread,
    hrest, hid]
  refine Nat.add_le_add_right (Nat.add_le_add_right ?_ _) 1
  exact Nat.add_le_add_right (Nat.add_le_add_left hquote _) 1

theorem size_ge (t : PriorDiscussionThread) : 53 ≤ t.size := by
  have htrust : (Json.quote "highest_trust").utf8ByteSize = 15 := by decide
  have hspeaker : (Json.quote "has_high_trust_speaker").utf8ByteSize = 24 := by decide
  have hmessages : (Json.quote "messages").utf8ByteSize = 10 := by decide
  rw [PriorDiscussionThread.size, byteLen_thread, PriorDiscussionThread.restFields]
  simp only [List.map_append, List.sum_append, List.map_cons, List.sum_cons, Json.entryLen,
    htrust, hspeaker, hmessages]
  omega

theorem length_le_of_fits
    (h : serializedLen { ctx with discussionThreads := kept } ≤ maxPriorContextBytes) :
    kept.length ≤ 9999 := by
  by_cases hne : kept = []
  · rw [hne]
    exact Nat.zero_le _
  · have hsum := List.card_nsmul_le_sum (kept.map PriorDiscussionThread.size) 53 (by
      intro n hn
      obtain ⟨t, -, rfl⟩ := List.mem_map.mp hn
      exact size_ge t)
    rw [serializedLen_threads, threadsLen_of_ne_nil hne] at h
    rw [List.length_map, smul_eq_mul] at hsum
    change _ + (23 + (kept.map PriorDiscussionThread.size).sum) ≤ 512 * 1024 at h
    omega

theorem sum_mapIdx_le {α : Type} {f : ℕ → α → α} {w : α → ℕ} {xs : List α}
    (h : ∀ i x, i < xs.length → x ∈ xs → w (f i x) ≤ w x) :
    ((xs.mapIdx f).map w).sum ≤ (xs.map w).sum := by
  induction xs generalizing f with
  | nil => exact le_rfl
  | cons x xs ih =>
    rw [List.mapIdx_cons, List.map_cons, List.map_cons, List.sum_cons, List.sum_cons]
    refine Nat.add_le_add (h 0 x (Nat.succ_pos _) List.mem_cons_self) (ih fun i y hi hy => ?_)
    exact h (i + 1) y (Nat.succ_lt_succ hi) (List.mem_cons_of_mem _ hy)

theorem map_mapIdx_eq {α β : Type} {f : ℕ → α → α} {g : α → β} (h : ∀ i x, g (f i x) = g x)
    (xs : List α) : (xs.mapIdx f).map g = xs.map g := by
  induction xs generalizing f with
  | nil => rfl
  | cons x xs ih =>
    rw [List.mapIdx_cons, List.map_cons, List.map_cons, h, ih fun i y => h (i + 1) y]

theorem threadsLen_presentThreads (hprovisional : ∀ t ∈ kept, t.provisional = t)
    (hlen : kept.length ≤ 9999) : threadsLen (presentThreads kept) ≤ threadsLen kept := by
  by_cases hne : kept = []
  · subst hne
    simp [presentThreads, sortByKey]
  · have hperm := List.mergeSort_perm kept fun a b =>
      decide (a.presentationKey ≤ b.presentationKey)
    have hpresented : presentThreads kept ≠ [] := by
      rw [← List.length_pos_iff, presentThreads, List.length_mapIdx, sortByKey, hperm.length_eq]
      exact List.length_pos_iff.mpr hne
    rw [threadsLen_of_ne_nil hpresented, threadsLen_of_ne_nil hne]
    refine Nat.add_le_add_left ?_ 23
    calc ((presentThreads kept).map PriorDiscussionThread.size).sum
        ≤ ((sortByKey PriorDiscussionThread.presentationKey kept).map
            PriorDiscussionThread.size).sum :=
          sum_mapIdx_le fun i t hi ht => size_numbered (hprovisional t (mem_sortByKey.mp ht)) (by
            rw [sortByKey, hperm.length_eq] at hi
            omega)
      _ = (kept.map PriorDiscussionThread.size).sum := (hperm.map _).sum_eq

/-- The final ids take no more room than the provisional ones. -/
theorem serializedLen_presentThreads (hprovisional : ∀ t ∈ kept, t.provisional = t)
    (h : serializedLen { ctx with discussionThreads := kept } ≤ maxPriorContextBytes) :
    serializedLen { ctx with discussionThreads := presentThreads kept } ≤
      maxPriorContextBytes := by
  have hthreads := threadsLen_presentThreads hprovisional (length_le_of_fits h)
  rw [serializedLen_threads] at h ⊢
  omega

end Ids

/-! ### The whole context -/

section Whole
variable (ctx : PriorVersionContext)

/-- What the loops leave of the context, `out`, for the context they start from. -/
structure Finalized (ctx out : PriorVersionContext) : Prop where
  fits : serializedLen out ≤ maxPriorContextBytes
  frame : out.currentVersion = ctx.currentVersion ∧ out.ancestorVersions = ctx.ancestorVersions ∧
    out.versionLabels = ctx.versionLabels
  findings : ∃ taken, taken <+: ctx.priorFindings ∧ out.priorFindings = numberFindings taken
  changelogs : out.changelogs <+: ctx.changelogs
  ids : ∀ idx t, out.discussionThreads[idx]? = some t → t.id = "HM" ++ toString (idx + 1)
  newestFirst : out.discussionThreads.Pairwise fun t t' => t'.version ≤ t.version
  threads : ∃ order final,
    order.Perm ctx.discussionThreads ∧
    order.Pairwise (fun t t' => t.priorityKey ≤ t'.priorityKey) ∧
    Selected { ctx.bare with priorFindings := out.priorFindings, truncated := true } [] false order
      final ∧
    (out.discussionThreads.map PriorDiscussionThread.provisional).Perm final
  truncated : out.truncated = false →
    out.priorFindings.length = ctx.priorFindings.length ∧
    (out.discussionThreads.map PriorDiscussionThread.provisional).Perm
      (ctx.discussionThreads.map PriorDiscussionThread.provisional) ∧
    out.changelogs = ctx.changelogs ∧ out.interVersionDiff = ctx.interVersionDiff ∧
    (ctx.interVersionDiff ≠ none →
      out.interVersionDiffBaseVersion = ctx.interVersionDiffBaseVersion)

theorem withFindings_spec (hfit : serializedLen ctx.bare ≤ maxPriorContextBytes) :
    serializedLen (withFindings ctx) ≤ maxPriorContextBytes ∧
      ∃ taken flag, taken <+: ctx.priorFindings ∧ (flag = false → taken = ctx.priorFindings) ∧
        withFindings ctx =
          { ctx.bare with priorFindings := numberFindings taken, truncated := flag } := by
  obtain ⟨hlen, taken, htaken, hcase⟩ := @attach_spec _ pushFinding _ hfit ctx.priorFindings
  have hbare : ctx.bare.priorFindings = numberFindings [] := rfl
  rw [foldl_pushFinding hbare, List.nil_append] at hcase
  refine ⟨hlen, taken, ?_⟩
  rcases hcase with ⟨heq, hall⟩ | heq
  · exact ⟨ctx.truncated, htaken, fun _ => hall, heq⟩
  · exact ⟨true, htaken, fun h => absurd h (by decide), heq⟩

theorem withThreads_spec {base : PriorVersionContext}
    (hbase : base.discussionThreads = []) (hfit : serializedLen base ≤ maxPriorContextBytes)
    (threads : List PriorDiscussionThread) :
    ∃ order final flag, order.Perm threads ∧
      order.Pairwise (fun t t' => t.priorityKey ≤ t'.priorityKey) ∧
      Selected { base with truncated := true } [] false order final ∧
      (flag = false → base.truncated = false ∧
        final = order.map PriorDiscussionThread.provisional) ∧
      (selectThreads base threads).keptThreads = final ∧
      (selectThreads base threads).ctx = { base with truncated := flag } ∧
      serializedLen { base with truncated := flag, discussionThreads := final } ≤
        maxPriorContextBytes := by
  have hsize : (",\"discussion_threads\":[]").utf8ByteSize = 24 := by decide
  have hstart : Accounted base
      { ctx := base, used := serializedLen base + (",\"discussion_threads\":[]").utf8ByteSize,
        keptThreads := [], triedTrimming := false } := by
    refine ⟨rfl, id, ?_, ?_⟩
    · rw [hsize, List.map_nil, List.sum_nil, Nat.add_zero]
    · rw [← hbase]
      exact hfit
  have hend := hstart.foldl_keepThread hbase
    (sortByKey PriorDiscussionThread.priorityKey threads)
  refine ⟨_, _, _, List.mergeSort_perm _ _, pairwise_sortByKey _ _,
    hstart.selected hbase (sortByKey PriorDiscussionThread.priorityKey threads),
    keptThreads_of_not_truncated, rfl, hend.context, ?_⟩
  have hfits := hend.fits
  rwa [hend.context] at hfits

theorem attachChangelogs_spec {ctx : PriorVersionContext} (hnil : ctx.changelogs = [])
    (hfit : serializedLen ctx ≤ maxPriorContextBytes) (blocks : List PriorChangelogBlock) :
    serializedLen (attach pushChangelog ctx blocks) ≤ maxPriorContextBytes ∧
      ∃ taken flag, taken <+: blocks ∧ (flag = false → ctx.truncated = false ∧ taken = blocks) ∧
        attach pushChangelog ctx blocks = { ctx with changelogs := taken, truncated := flag } := by
  obtain ⟨hlen, taken, htaken, hcase⟩ := @attach_spec _ pushChangelog _ hfit blocks
  rw [foldl_pushChangelog, hnil, List.nil_append] at hcase
  refine ⟨hlen, taken, ?_⟩
  rcases hcase with ⟨heq, hall⟩ | heq
  · exact ⟨ctx.truncated, htaken, fun h => ⟨h, hall⟩, heq⟩
  · exact ⟨true, htaken, fun h => absurd h (by decide), heq⟩

theorem attachDiff_spec {ctx : PriorVersionContext}
    (hnone : ctx.interVersionDiff = none ∧ ctx.interVersionDiffBaseVersion = none)
    (hfit : serializedLen ctx ≤ maxPriorContextBytes) (diff : Option String) (base : Option ℕ) :
    serializedLen (attachDiff ctx diff base) ≤ maxPriorContextBytes ∧
      ∃ diff' base' flag,
        (flag = false → ctx.truncated = false ∧ diff' = diff ∧ (diff ≠ none → base' = base)) ∧
        attachDiff ctx diff base = { ctx with
          interVersionDiff := diff', interVersionDiffBaseVersion := base', truncated := flag } := by
  cases diff with
  | none =>
    exact ⟨hfit, _, _, _, fun h => ⟨h, hnone.1, fun hne => absurd rfl hne⟩, rfl⟩
  | some diff =>
    by_cases h : oversized { ctx with
        interVersionDiff := some diff, interVersionDiffBaseVersion := base } = true
    · have hstop : attachDiff ctx (some diff) base = { ctx with truncated := true } := by
        rw [attachDiff, if_pos h, ← hnone.1, ← hnone.2]
      rw [hstop]
      exact ⟨(serializedLen_flag ctx).1.trans hfit, _, _, true, fun h => absurd h (by decide), rfl⟩
    · have hgo : attachDiff ctx (some diff) base = { ctx with
          interVersionDiff := some diff, interVersionDiffBaseVersion := base } := by
        rw [attachDiff, if_neg h]
      rw [hgo]
      exact ⟨oversized_eq_false.mp (Bool.eq_false_of_not_eq_true h), _, _, _,
        fun h => ⟨h, rfl, fun _ => rfl⟩, rfl⟩

theorem presentThreads_ids {kept : List PriorDiscussionThread} {idx : ℕ}
    {t : PriorDiscussionThread} (h : (presentThreads kept)[idx]? = some t) :
    t.id = "HM" ++ toString (idx + 1) := by
  rw [presentThreads, List.getElem?_mapIdx] at h
  obtain ⟨t', -, rfl⟩ := Option.map_eq_some_iff.mp h
  rfl

theorem presentThreads_newestFirst (kept : List PriorDiscussionThread) :
    (presentThreads kept).Pairwise fun t t' => t'.version ≤ t.version := by
  have hmap : (presentThreads kept).map PriorDiscussionThread.version =
      (sortByKey PriorDiscussionThread.presentationKey kept).map PriorDiscussionThread.version := by
    rw [presentThreads]
    exact map_mapIdx_eq (by intro _ _; rfl) _
  have hsorted : ((presentThreads kept).map PriorDiscussionThread.version).Pairwise
      fun v v' => v' ≤ v := by
    rw [hmap, List.pairwise_map]
    refine (pairwise_sortByKey _ _).imp fun {t t'} h => ?_
    rcases Prod.Lex.toLex_le_toLex.mp h with hlt | ⟨heq, -⟩ <;> omega
  exact List.pairwise_map.mp hsorted

theorem presentThreads_perm {kept : List PriorDiscussionThread}
    (hprovisional : ∀ t ∈ kept, t.provisional = t) :
    ((presentThreads kept).map PriorDiscussionThread.provisional).Perm kept := by
  have hmap : (presentThreads kept).map PriorDiscussionThread.provisional =
      (sortByKey PriorDiscussionThread.presentationKey kept).map
        PriorDiscussionThread.provisional := by
    rw [presentThreads]
    exact map_mapIdx_eq (by intro _ _; rfl) _
  have hsame : (sortByKey PriorDiscussionThread.presentationKey kept).map
      PriorDiscussionThread.provisional =
        sortByKey PriorDiscussionThread.presentationKey kept := by
    conv_rhs => rw [← List.map_id (sortByKey PriorDiscussionThread.presentationKey kept)]
    exact List.map_congr_left fun t ht => hprovisional t (mem_sortByKey.mp ht)
  rw [hmap, hsame]
  exact List.mergeSort_perm _ _

theorem finalizePriorVersionContext_spec
    (hfit : serializedLen ctx.bare ≤ maxPriorContextBytes) :
    Finalized ctx (finalizePriorVersionContext ctx) := by
  obtain ⟨hfound, taken, found, htaken, hall, hfindings⟩ := withFindings_spec ctx hfit
  obtain ⟨order, final, selected, hperm, hsorted, hselected, hwhole, hkept, hctx, hfits⟩ :=
    withThreads_spec (by rw [hfindings]; rfl) hfound ctx.discussionThreads
  have hprovisional := hselected.provisional fun t ht => absurd ht List.not_mem_nil
  have hthreads : withThreads ctx = { ctx.bare with
      priorFindings := numberFindings taken, truncated := selected,
      discussionThreads := presentThreads final } := by
    rw [withThreads, hkept, hctx, hfindings]
  have hfits' := @serializedLen_presentThreads { withFindings ctx with truncated := selected }
    final hprovisional hfits
  rw [hfindings] at hfits' hselected hwhole
  rw [← hthreads] at hfits'
  obtain ⟨hlen, blocks, attached, hblocks, hattached, hchangelogs⟩ :=
    attachChangelogs_spec (by rw [hthreads]; rfl) hfits' ctx.changelogs
  obtain ⟨hlen', diff, base, flag, hflag, hdiff⟩ := attachDiff_spec
    (by rw [hchangelogs, hthreads]; exact ⟨rfl, rfl⟩) hlen ctx.interVersionDiff
    ctx.interVersionDiffBaseVersion
  have hout : finalizePriorVersionContext ctx = { ctx.bare with
      priorFindings := numberFindings taken, discussionThreads := presentThreads final,
      changelogs := blocks, interVersionDiff := diff, interVersionDiffBaseVersion := base,
      truncated := flag } := by
    rw [finalizePriorVersionContext, hdiff, hchangelogs, hthreads]
  rw [hdiff, hchangelogs, hthreads] at hlen'
  have hpresented := presentThreads_perm hprovisional
  refine {
    fits := ?_
    frame := ?_
    findings := ?_
    changelogs := ?_
    ids := ?_
    newestFirst := ?_
    threads := ?_
    truncated := ?_ }
  all_goals rw [hout]
  · exact hlen'
  · exact ⟨rfl, rfl, rfl⟩
  · exact ⟨taken, htaken, rfl⟩
  · exact hblocks
  · exact fun idx t h => presentThreads_ids h
  · exact presentThreads_newestFirst final
  · exact ⟨order, final, hperm, hsorted, hselected, hpresented⟩
  · intro hfalse
    obtain ⟨hattachedFalse, hdiffSame, hbaseSame⟩ := hflag hfalse
    rw [hchangelogs] at hattachedFalse
    obtain ⟨hselectedFalse, hblocksSame⟩ := hattached hattachedFalse
    rw [hthreads] at hselectedFalse
    obtain ⟨hfoundFalse, hfinal⟩ := hwhole hselectedFalse
    refine ⟨?_, ?_, hblocksSame, hdiffSame, hbaseSame⟩
    · rw [hall hfoundFalse]
      exact List.length_mapIdx
    · refine hpresented.trans ?_
      rw [hfinal]
      exact hperm.map _

/-- A context with one short thread. -/
def shortContext : PriorVersionContext where
  currentVersion := 2
  ancestorVersions := [1]
  versionLabels := [(1, "v1"), (2, "v2")]
  interVersionDiffBaseVersion := some 1
  interVersionDiff := some "+a"
  changelogs := []
  priorFindings := []
  discussionThreads := [
    { id := "", version := 1, scope := .directPatchLineage, subject := some "leak",
      highestTrust := .high, hasHighTrustSpeaker := true, messages := [] }]
  truncated := false

theorem finalizePriorVersionContext_spec_short :
    serializedLen shortContext.bare ≤ maxPriorContextBytes ∧
      Finalized shortContext (finalizePriorVersionContext shortContext) := by
  have hfit : serializedLen shortContext.bare ≤ maxPriorContextBytes := by decide
  exact ⟨hfit, finalizePriorVersionContext_spec shortContext hfit⟩

/-- A context that names the version a diff starts from, but has no diff. -/
def baseOnlyContext : PriorVersionContext :=
  { shortContext with interVersionDiff := none, discussionThreads := [] }

/-- The version is dropped, and the flag is not set. -/
theorem base_version_dropped :
    serializedLen baseOnlyContext.bare ≤ maxPriorContextBytes ∧
      baseOnlyContext.interVersionDiffBaseVersion = some 1 ∧
      (finalizePriorVersionContext baseOnlyContext).interVersionDiffBaseVersion = none ∧
      (finalizePriorVersionContext baseOnlyContext).truncated = false := by
  refine ⟨by decide, rfl, ?_, ?_⟩ <;>
    simp [finalizePriorVersionContext, baseOnlyContext, shortContext, withThreads, withFindings,
      selectThreads, attach, attachDiff, sortByKey, PriorVersionContext.bare]

end Whole

end Serialized

end Sashiko
