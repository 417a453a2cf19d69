import Sashiko.Ai.CanonicalRequest
import Sashiko.Ai.Session
import Sashiko.Lib.Table

/-! `ai/cache.rs`: a provider that answers from its table what it was asked before. -/

namespace Sashiko

/-! ### The provider -/

/-- A row of `response_cache`; its JSON columns are what they decode to. -/
structure CacheRow where
  requestHash : String
  provider : String
  model : String
  request : AiRequest
  response : AiResponse
  tokensSaved : ℕ
  createdAt : ℤ

structure CacheStats where
  hitsThis : ℕ
  hitsPrev : ℕ
  tokensSavedThis : ℕ
  tokensSavedPrev : ℕ

structure CacheState (π : Type) where
  inner : π
  table : Table CacheRow.requestHash
  stats : CacheStats

/-- The inner provider with its cache identity and its model, and the settings of the cache. -/
structure CachingAiProvider (π : Type) where
  inner : Provider π
  innerForget : π → AiRequest → π
  cacheIdentity : String
  modelName : String
  replay : Bool
  resume : Bool
  sessionStart : ℤ

def replaceFirstChars (pat new : List Char) : List Char → List Char
  | [] => if pat = [] then new else []
  | c :: cs =>
    if pat.isPrefixOf (c :: cs) then new ++ (c :: cs).drop pat.length
    else c :: replaceFirstChars pat new cs

/-- `str::replacen` with a count of one. -/
def replaceFirst (s pat new : String) : String :=
  String.ofList (replaceFirstChars pat.toList new.toList s.toList)

/-- The table's pairs of provider and model. -/
def providerPairs (table : Table CacheRow.requestHash) : List (String × String) :=
  (table.rows.map fun row => (row.provider, row.model)).eraseDups

/-- A key in the order of its first occurrence. -/
def pushNew (seen : List String) (x : String) : List String :=
  if x ∈ seen then seen else seen ++ [x]

def pushCandidate (primary : String) (hashes : List String) (hash : String) : List String :=
  if hash ≠ primary ∧ hash ∉ hashes then hashes ++ [hash] else hashes

/-- The answer of a row, as it is served; that of another model or effort loses its
signatures. -/
def replayed (row : CacheRow) (crossModel : Bool) : AiResponse :=
  let resp :=
    if crossModel then
      { row.response with
        thoughtSignature := none
        toolCalls := row.response.toolCalls.map fun calls =>
          calls.map ({ · with thoughtSignature := none }) }
    else row.response
  { resp with usage := resp.usage.map fun u => { u with cachedTokens := some u.promptTokens } }

def tokensOf (resp : AiResponse) : ℕ :=
  (resp.usage.map fun u => u.promptTokens + u.completionTokens).getD 0

/-- The counters are `AtomicU64`s. -/
def CacheStats.countHit (stats : CacheStats) (sessionStart : ℤ) (row : CacheRow) : CacheStats :=
  if sessionStart ≤ row.createdAt then
    { stats with
      hitsThis := (stats.hitsThis + 1) % 2 ^ 64
      tokensSavedThis := (stats.tokensSavedThis + row.tokensSaved) % 2 ^ 64 }
  else
    { stats with
      hitsPrev := (stats.hitsPrev + 1) % 2 ^ 64
      tokensSavedPrev := (stats.tokensSavedPrev + row.tokensSaved) % 2 ^ 64 }

namespace CachingAiProvider

variable {π : Type} (p : CachingAiProvider π) (X : CacheParts)

def candidateIdentities (table : Table CacheRow.requestHash) : List String :=
  ((providerPairs table).flatMap fun pair =>
    [pair.1, replaceFirst p.cacheIdentity p.modelName pair.2, pair.2]).foldl pushNew
      [p.cacheIdentity]

def candidateResumeHashes (table : Table CacheRow.requestHash) (request : AiRequest)
    (primary : String) : List String :=
  ((p.candidateIdentities table).flatMap fun identity =>
    (candidateCanonicals X request).map (computeCacheKeyForIdentity X identity)).foldl
      (pushCandidate primary) []

def primaryHash (request : AiRequest) : String :=
  computeCacheKeyForIdentity X p.cacheIdentity (canonicalRequestJson X request)

/-- The row that answers the request, if any, and whether it was found by another key. -/
def cachedEntry (table : Table CacheRow.requestHash) (request : AiRequest) :
    Option (CacheRow × Bool) :=
  if p.replay then
    match table.lookup (p.primaryHash X request) with
    | some row => some (row, false)
    | none =>
      if p.resume then
        ((p.candidateResumeHashes X table request (p.primaryHash X request)).findSome?
          table.lookup).map (·, true)
      else none
  else none

def generateContent (now : ℤ) (s : CacheState π) (request : AiRequest) :
    Except AnyhowError AiResponse × CacheState π :=
  match p.cachedEntry X s.table request with
  | some (row, crossModel) =>
    (.ok (replayed row crossModel), { s with stats := s.stats.countHit p.sessionStart row })
  | none =>
    match p.inner.generateContent s.inner request with
    | (.error e, inner) => (.error e, { s with inner := inner })
    | (.ok resp, inner) =>
      (.ok resp,
        { s with
          inner := inner
          table := s.table.insertOrReplace
            ⟨p.primaryHash X request, p.cacheIdentity, p.modelName, request, resp, tokensOf resp,
              now⟩ })

def hashesToDelete (table : Table CacheRow.requestHash) (request : AiRequest) : List String :=
  p.primaryHash X request ::
    if p.resume then p.candidateResumeHashes X table request (p.primaryHash X request) else []

def forget (s : CacheState π) (request : AiRequest) : CacheState π :=
  { s with
    table := s.table.delete (·.requestHash ∈ p.hashesToDelete X s.table request)
    inner := p.innerForget s.inner request }

/-- The inner provider is called: nothing is served from the table. -/
def AsksInner (s : CacheState π) (request : AiRequest) : Prop :=
  p.cachedEntry X s.table request = none

end CachingAiProvider

/-! ### Runs -/

inductive CacheCall where
  | generate (now : ℤ) (request : AiRequest)
  | forget (request : AiRequest)

def CacheCall.request : CacheCall → AiRequest
  | generate _ request => request
  | forget request => request

/-- What a call came to: an answer of the inner provider was stored, or none was, or the request
was forgotten. -/
inductive CacheLog where
  | stored (request : AiRequest) (response : AiResponse)
  | unstored (request : AiRequest)
  | forgot (request : AiRequest)

def CacheLog.request : CacheLog → AiRequest
  | stored request _ => request
  | unstored request => request
  | forgot request => request

/-- The log has the newest call first. -/
structure CacheWorld (π : Type) where
  state : CacheState π
  log : List CacheLog

namespace CachingAiProvider

variable {π : Type} (p : CachingAiProvider π) (X : CacheParts)

def logged (s : CacheState π) : CacheCall → CacheLog
  | .generate _ request =>
    match p.cachedEntry X s.table request with
    | some _ => .unstored request
    | none =>
      match (p.inner.generateContent s.inner request).1 with
      | .ok resp => .stored request resp
      | .error _ => .unstored request
  | .forget request => .forgot request

def call (s : CacheState π) : CacheCall → CacheState π
  | .generate now request => (p.generateContent X now s request).2
  | .forget request => p.forget X s request

def step (w : CacheWorld π) (call : CacheCall) : CacheWorld π :=
  ⟨p.call X w.state call, p.logged X w.state call :: w.log⟩

/-- The runs of one provider from a table that earlier sessions left. -/
inductive Run (initial : Table CacheRow.requestHash) : CacheWorld π → Prop
  | start (inner : π) (stats : CacheStats) : Run initial ⟨⟨inner, initial, stats⟩, []⟩
  | snoc {w : CacheWorld π} (h : Run initial w) (call : CacheCall)
      (hprintable : call.request.Printable X) : Run initial (p.step X w call)

/-- The canonical forms under which forgetting a request drops an answer. -/
def forgottenCanonicals (request : AiRequest) : List String :=
  if p.resume then candidateCanonicals X request else [canonicalRequestJson X request]

/-- The last answer stored under a canonical form, unless it was forgotten since. -/
def remembered (initial : Table CacheRow.requestHash) (canonical : String) :
    List CacheLog → Option AiResponse
  | [] =>
    (initial.lookup (computeCacheKeyForIdentity X p.cacheIdentity canonical)).map (·.response)
  | .stored request resp :: older =>
    if canonicalRequestJson X request = canonical then some resp
    else remembered initial canonical older
  | .unstored _ :: older => remembered initial canonical older
  | .forgot request :: older =>
    if canonical ∈ p.forgottenCanonicals X request then none
    else remembered initial canonical older

end CachingAiProvider

/-- What holds after any run: requests that differ in what the canonical form leaves out share a
key; the table has the latest answer to each request that was not forgotten since; with replay on a
request is answered from it exactly when there is one, or, with
resume on, one under a candidate key; a forgotten request is asked afresh, unless an answer was
stored meanwhile that forgetting it would drop; and with replay off nothing is served. -/
structure CacheSound {π : Type} (p : CachingAiProvider π) (X : CacheParts)
    (initial : Table CacheRow.requestHash) (w : CacheWorld π) : Prop where
  alike : ∀ request request' : AiRequest, request.erased X = request'.erased X →
    p.primaryHash X request = p.primaryHash X request'
  latest : ∀ request : AiRequest, request.Printable X →
    (w.state.table.lookup (p.primaryHash X request)).map (·.response) =
      p.remembered X initial (canonicalRequestJson X request) w.log
  served : p.replay = true → ∀ request : AiRequest, request.Printable X →
    (¬p.AsksInner X w.state request ↔
      (p.remembered X initial (canonicalRequestJson X request) w.log).isSome ∨
        (p.resume = true ∧ ∃ hash ∈ p.candidateResumeHashes X w.state.table request
          (p.primaryHash X request), (w.state.table.lookup hash).isSome))
  forgotten : ∀ newer request older, w.log = newer ++ .forgot request :: older →
    (∀ request' resp, .stored request' resp ∈ newer →
      canonicalRequestJson X request' ∉ p.forgottenCanonicals X request) →
        p.AsksInner X w.state request
  recorded : p.replay = false → ∀ request, p.AsksInner X w.state request

/-! ### The keys of a request -/

theorem mem_foldl_pushNew {x : String} (xs : List String) :
    ∀ seen, x ∈ xs.foldl pushNew seen ↔ x ∈ seen ∨ x ∈ xs := by
  induction xs with
  | nil => exact fun seen => by simp
  | cons y ys ih =>
    intro seen
    rw [List.foldl_cons, ih, pushNew, List.mem_cons]
    split_ifs with hy
    · refine ⟨fun h => h.imp_right .inr, fun h => ?_⟩
      rcases h with h | rfl | h
      · exact .inl h
      · exact .inl hy
      · exact .inr h
    · rw [List.mem_append, List.mem_singleton, or_assoc]

theorem mem_foldl_pushCandidate {primary hash : String} (hashes : List String) :
    ∀ seen, hash ∈ hashes.foldl (pushCandidate primary) seen ↔
      hash ∈ seen ∨ (hash ≠ primary ∧ hash ∈ hashes) := by
  induction hashes with
  | nil => exact fun seen => by simp
  | cons first hashes ih =>
    intro seen
    rw [List.foldl_cons, ih, pushCandidate, List.mem_cons]
    split_ifs with hfirst
    · rw [List.mem_append, List.mem_singleton]
      refine ⟨?_, ?_⟩
      · rintro ((h | rfl) | ⟨hne, h⟩)
        · exact .inl h
        · exact .inr ⟨hfirst.1, .inl rfl⟩
        · exact .inr ⟨hne, .inr h⟩
      · rintro (h | ⟨hne, rfl | h⟩)
        · exact .inl (.inl h)
        · exact .inl (.inr rfl)
        · exact .inr ⟨hne, h⟩
    · refine ⟨fun h => h.imp_right fun h => ⟨h.1, .inr h.2⟩, ?_⟩
      rintro (h | ⟨hne, rfl | h⟩)
      · exact .inl h
      · exact .inl (by_contra fun hnot => hfirst ⟨hne, hnot⟩)
      · exact .inr ⟨hne, h⟩

namespace CachingAiProvider

variable {π : Type} {p : CachingAiProvider π} {X : CacheParts}
  {table : Table CacheRow.requestHash} {request : AiRequest}

theorem cacheIdentity_mem_candidates : p.cacheIdentity ∈ p.candidateIdentities table :=
  (mem_foldl_pushNew _ _).mpr (.inl List.mem_cons_self)

/-- The identity of every row is a candidate. -/
theorem provider_mem_candidates {row : CacheRow} (h : row ∈ table.rows) :
    row.provider ∈ p.candidateIdentities table := by
  have hpair : (row.provider, row.model) ∈ providerPairs table :=
    List.mem_eraseDups.mpr (List.mem_map_of_mem h)
  exact (mem_foldl_pushNew _ _).mpr
    (.inr (List.mem_flatMap.mpr ⟨_, hpair, List.mem_cons_self⟩))

theorem mem_candidateResumeHashes {primary hash : String} :
    hash ∈ p.candidateResumeHashes X table request primary ↔
      hash ≠ primary ∧ ∃ identity ∈ p.candidateIdentities table,
        ∃ canonical ∈ candidateCanonicals X request,
          computeCacheKeyForIdentity X identity canonical = hash := by
  rw [candidateResumeHashes, mem_foldl_pushCandidate, List.mem_flatMap]
  simp only [List.not_mem_nil, false_or, List.mem_map]

theorem canonical_mem_forgotten : canonicalRequestJson X request ∈
    p.forgottenCanonicals X request := by
  rw [forgottenCanonicals]
  split_ifs
  · exact canonical_mem_candidates request
  · exact List.mem_cons_self

/-- Forgetting deletes the keys of every candidate form under every candidate identity. -/
theorem mem_hashesToDelete {identity canonical : String}
    (hidentity : if p.resume = true then identity ∈ p.candidateIdentities table
      else identity = p.cacheIdentity)
    (hcanonical : canonical ∈ p.forgottenCanonicals X request) :
    computeCacheKeyForIdentity X identity canonical ∈ p.hashesToDelete X table request := by
  rw [hashesToDelete]
  rw [forgottenCanonicals] at hcanonical
  by_cases hresume : p.resume = true
  · rw [if_pos hresume] at hidentity hcanonical ⊢
    by_cases hprimary : computeCacheKeyForIdentity X identity canonical = p.primaryHash X request
    · rw [hprimary]
      exact List.mem_cons_self
    · exact List.mem_cons_of_mem _ (mem_candidateResumeHashes.mpr
        ⟨hprimary, identity, hidentity, canonical, hcanonical, rfl⟩)
  · rw [if_neg hresume] at hidentity hcanonical
    rw [hidentity, List.mem_singleton.mp hcanonical]
    exact List.mem_cons_self

theorem of_mem_hashesToDelete {hash : String} (h : hash ∈ p.hashesToDelete X table request) :
    ∃ identity, ∃ canonical ∈ p.forgottenCanonicals X request,
      computeCacheKeyForIdentity X identity canonical = hash := by
  rcases List.mem_cons.mp h with rfl | h
  · exact ⟨p.cacheIdentity, _, canonical_mem_forgotten, rfl⟩
  · split_ifs at h with hresume
    · obtain ⟨-, identity, -, canonical, hcanonical, hhash⟩ := mem_candidateResumeHashes.mp h
      exact ⟨identity, canonical, by rwa [forgottenCanonicals, if_pos hresume], hhash⟩
    · cases h

theorem zeroByte_not_mem_forgotten (hprintable : request.Printable X) {canonical : String}
    (h : canonical ∈ p.forgottenCanonicals X request) : zeroByte ∉ canonical.toList := by
  rw [forgottenCanonicals] at h
  split_ifs at h
  · exact zeroByte_not_mem_candidate hprintable h
  · rw [List.mem_singleton.mp h]
    exact zeroByte_not_mem_canonical hprintable

/-- Of the provider's own keys, forgetting drops those of the forgotten forms. -/
theorem ownKey_mem_hashesToDelete (hsha : Function.Injective X.sha256)
    (hprintable : request.Printable X) {canonical : String}
    (hcanonical : zeroByte ∉ canonical.toList) :
    computeCacheKeyForIdentity X p.cacheIdentity canonical ∈ p.hashesToDelete X table request ↔
      canonical ∈ p.forgottenCanonicals X request := by
  refine ⟨fun h => ?_, mem_hashesToDelete ?_⟩
  · obtain ⟨identity, canonical', hmem, hhash⟩ := of_mem_hashesToDelete h
    obtain ⟨-, rfl⟩ := computeCacheKeyForIdentity_inj hsha
      (zeroByte_not_mem_forgotten hprintable hmem) hcanonical hhash
    exact hmem
  · split_ifs
    · exact cacheIdentity_mem_candidates
    · rfl

end CachingAiProvider

/-! ### What a call does to the table -/

/-- The row is kept under the key of its provider and its request. -/
structure CacheRow.Keyed (X : CacheParts) (row : CacheRow) : Prop where
  hash : row.requestHash =
    computeCacheKeyForIdentity X row.provider (canonicalRequestJson X row.request)
  printable : row.request.Printable X

namespace CachingAiProvider

variable {π : Type} (p : CachingAiProvider π) (X : CacheParts)

def storedRow (now : ℤ) (request : AiRequest) (resp : AiResponse) : CacheRow :=
  ⟨p.primaryHash X request, p.cacheIdentity, p.modelName, request, resp, tokensOf resp, now⟩

/-- What a call leaves in the table and in the log. -/
inductive Changed (w w' : CacheWorld π) (request : AiRequest) : Prop
  | unstored (htable : w'.state.table = w.state.table)
      (hlog : w'.log = .unstored request :: w.log)
  | stored (now : ℤ) (resp : AiResponse)
      (htable : w'.state.table = w.state.table.insertOrReplace (p.storedRow X now request resp))
      (hlog : w'.log = .stored request resp :: w.log)
  | forgot (htable : w'.state.table =
        w.state.table.delete (·.requestHash ∈ p.hashesToDelete X w.state.table request))
      (hlog : w'.log = .forgot request :: w.log)

theorem step_cases (w : CacheWorld π) (c : CacheCall) :
    p.Changed X w (p.step X w c) c.request := by
  cases c with
  | forget request => exact .forgot rfl rfl
  | generate now request =>
    cases hentry : p.cachedEntry X w.state.table request with
    | some entry =>
      refine .unstored ?_ ?_
      · simp only [step, call, generateContent, hentry]
      · simp only [step, logged, hentry, CacheCall.request]
    | none =>
      obtain ⟨answer, inner, hinner⟩ : ∃ answer inner,
          p.inner.generateContent w.state.inner request = (answer, inner) := ⟨_, _, rfl⟩
      cases answer with
      | error e =>
        refine .unstored ?_ ?_
        · simp only [step, call, generateContent, hentry, hinner]
        · simp only [step, logged, hentry, hinner, CacheCall.request]
      | ok resp =>
        refine .stored now resp ?_ ?_
        · simp only [step, call, generateContent, hentry, hinner, storedRow, CacheCall.request]
        · simp only [step, logged, hentry, hinner, CacheCall.request]

/-- The invariant of a run. The rows of a forgotten form are gone, under whatever identity where
the cache resumes, until one is stored again. -/
structure Holds (initial : Table CacheRow.requestHash) (w : CacheWorld π) : Prop where
  keyed : ∀ row ∈ w.state.table.rows, row.Keyed X
  printable : ∀ entry ∈ w.log, entry.request.Printable X
  latest : ∀ canonical : String, zeroByte ∉ canonical.toList →
    (w.state.table.lookup (computeCacheKeyForIdentity X p.cacheIdentity canonical)).map
      (·.response) = p.remembered X initial canonical w.log
  dropped : ∀ newer request older, w.log = newer ++ .forgot request :: older →
    (∀ request' resp, .stored request' resp ∈ newer →
      canonicalRequestJson X request' ∉ p.forgottenCanonicals X request) →
        ∀ row ∈ w.state.table.rows, p.resume = true ∨ row.provider = p.cacheIdentity →
          canonicalRequestJson X row.request ∉ p.forgottenCanonicals X request

section Invariant

variable {p X} {initial : Table CacheRow.requestHash} {w w' : CacheWorld π} {request : AiRequest}

theorem storedRow_keyed (now : ℤ) (resp : AiResponse) (h : request.Printable X) :
    (p.storedRow X now request resp).Keyed X := ⟨rfl, h⟩

/-- Forgetting a request leaves no row of its forms. -/
theorem not_mem_forgotten_of_delete (hkeyed : ∀ row ∈ w.state.table.rows, row.Keyed X)
    {row : CacheRow} (hrow : row ∈ (w.state.table.delete
      (·.requestHash ∈ p.hashesToDelete X w.state.table request)).rows)
    (hown : p.resume = true ∨ row.provider = p.cacheIdentity) :
    canonicalRequestJson X row.request ∉ p.forgottenCanonicals X request := by
  obtain ⟨hmem, hkept⟩ := Table.mem_delete.mp hrow
  refine fun hform => of_decide_eq_false hkept ?_
  rw [(hkeyed row hmem).hash]
  refine mem_hashesToDelete ?_ hform
  split_ifs with hresume
  · exact provider_mem_candidates hmem
  · exact hown.resolve_left hresume

theorem Holds.unstored (h : Holds p X initial w) (hprintable : request.Printable X)
    (htable : w'.state.table = w.state.table) (hlog : w'.log = .unstored request :: w.log) :
    Holds p X initial w' := by
  refine ⟨by rw [htable]; exact h.keyed, ?_, fun canonical hzero => ?_, ?_⟩
  · rw [hlog]
    exact List.forall_mem_cons.mpr ⟨hprintable, h.printable⟩
  · rw [htable, hlog]
    exact h.latest canonical hzero
  · intro newer forgotten older heq hnew
    rw [hlog] at heq
    rw [htable]
    cases newer with
    | nil => cases heq
    | cons entry newer =>
      exact h.dropped newer forgotten older (List.cons.inj heq).2 fun request' resp hmem =>
        hnew request' resp (List.mem_cons_of_mem _ hmem)

theorem Holds.stored (hsha : Function.Injective X.sha256) (h : Holds p X initial w)
    (hprintable : request.Printable X) {now : ℤ} {resp : AiResponse}
    (htable : w'.state.table = w.state.table.insertOrReplace (p.storedRow X now request resp))
    (hlog : w'.log = .stored request resp :: w.log) : Holds p X initial w' := by
  refine ⟨?_, ?_, fun canonical hzero => ?_, ?_⟩
  · rw [htable]
    intro row hrow
    rcases Table.mem_insertOrReplace.mp hrow with ⟨hrow, -⟩ | rfl
    · exact h.keyed row hrow
    · exact storedRow_keyed now resp hprintable
  · rw [hlog]
    exact List.forall_mem_cons.mpr ⟨hprintable, h.printable⟩
  · rw [htable, hlog, Table.lookup_insertOrReplace, remembered]
    have hkey : (p.storedRow X now request resp).requestHash =
        computeCacheKeyForIdentity X p.cacheIdentity canonical ↔
          canonicalRequestJson X request = canonical :=
      ⟨fun hkey => (computeCacheKeyForIdentity_inj hsha (zeroByte_not_mem_canonical hprintable)
        hzero hkey).2, fun heq => by rw [← heq]; rfl⟩
    by_cases heq : canonicalRequestJson X request = canonical
    · rw [if_pos heq, if_pos (hkey.mpr heq)]
      rfl
    · rw [if_neg heq, if_neg (mt hkey.mp heq)]
      exact h.latest canonical hzero
  · intro newer forgotten older heq hnew row hrow hown
    rw [hlog] at heq
    rw [htable] at hrow
    cases newer with
    | nil => cases heq
    | cons entry newer =>
      obtain ⟨rfl, hrest⟩ := List.cons.inj heq
      rcases Table.mem_insertOrReplace.mp hrow with ⟨hrow, -⟩ | rfl
      · exact h.dropped newer forgotten older hrest (fun request' resp' hmem =>
          hnew request' resp' (List.mem_cons_of_mem _ hmem)) row hrow hown
      · exact hnew request resp List.mem_cons_self

theorem Holds.forgot (hsha : Function.Injective X.sha256) (h : Holds p X initial w)
    (hprintable : request.Printable X)
    (htable : w'.state.table =
      w.state.table.delete (·.requestHash ∈ p.hashesToDelete X w.state.table request))
    (hlog : w'.log = .forgot request :: w.log) : Holds p X initial w' := by
  refine ⟨?_, ?_, fun canonical hzero => ?_, ?_⟩
  · rw [htable]
    exact fun row hrow => h.keyed row (Table.mem_delete.mp hrow).1
  · rw [hlog]
    exact List.forall_mem_cons.mpr ⟨hprintable, h.printable⟩
  · rw [htable, hlog, Table.lookup_delete _ (· ∈ p.hashesToDelete X w.state.table request),
      remembered]
    simp only [decide_eq_true_eq, ownKey_mem_hashesToDelete hsha hprintable hzero]
    split_ifs
    · rfl
    · exact h.latest canonical hzero
  · intro newer forgotten older heq hnew row hrow hown
    rw [hlog] at heq
    rw [htable] at hrow
    cases newer with
    | nil =>
      obtain rfl : request = forgotten := CacheLog.forgot.inj (List.cons.inj heq).1
      exact not_mem_forgotten_of_delete h.keyed hrow hown
    | cons entry newer =>
      exact h.dropped newer forgotten older (List.cons.inj heq).2 (fun request' resp hmem =>
        hnew request' resp (List.mem_cons_of_mem _ hmem)) row (Table.mem_delete.mp hrow).1 hown

theorem holds_of_run (hsha : Function.Injective X.sha256)
    (hkeyed : ∀ row ∈ initial.rows, row.Keyed X) (h : p.Run X initial w) :
    Holds p X initial w := by
  induction h with
  | start inner stats =>
    refine ⟨hkeyed, fun entry hentry => absurd hentry List.not_mem_nil, fun _ _ => rfl, ?_⟩
    intro newer request older heq
    exact absurd heq.symm (List.append_ne_nil_of_right_ne_nil _ (List.cons_ne_nil _ _))
  | snoc h c hprintable ih =>
    cases p.step_cases X _ c with
    | unstored htable hlog => exact ih.unstored hprintable htable hlog
    | stored now resp htable hlog => exact ih.stored hsha hprintable htable hlog
    | forgot htable hlog => exact ih.forgot hsha hprintable htable hlog

theorem lookup_isSome {table : Table CacheRow.requestHash} {hash : String}
    (h : (table.lookup hash).isSome = true) : ∃ row ∈ table.rows, row.requestHash = hash := by
  obtain ⟨row, hrow⟩ := Option.isSome_iff_exists.mp h
  exact ⟨row, Table.lookup_eq_some.mp hrow⟩

/-- With replay on, a request is served exactly where its own key or a candidate one is found. -/
theorem not_asksInner_iff (hreplay : p.replay = true) (s : CacheState π) (request : AiRequest) :
    ¬p.AsksInner X s request ↔ (s.table.lookup (p.primaryHash X request)).isSome ∨
      (p.resume = true ∧ ∃ hash ∈ p.candidateResumeHashes X s.table request
        (p.primaryHash X request), (s.table.lookup hash).isSome) := by
  rw [AsksInner, ← ne_eq, Option.ne_none_iff_isSome, cachedEntry, if_pos hreplay]
  cases hprimary : s.table.lookup (p.primaryHash X request) with
  | some row => simp
  | none =>
    simp only [Option.isSome_none, Bool.false_eq_true, false_or]
    split_ifs with hresume
    · rw [Option.isSome_map, List.findSome?_isSome_iff]
      simp [hresume]
    · simp [hresume]

/-- No key of a forgotten request finds a row. -/
theorem Holds.asksInner (hsha : Function.Injective X.sha256) (h : Holds p X initial w)
    {newer older : List CacheLog} (hlog : w.log = newer ++ .forgot request :: older)
    (hnew : ∀ request' resp, .stored request' resp ∈ newer →
      canonicalRequestJson X request' ∉ p.forgottenCanonicals X request) :
    p.AsksInner X w.state request := by
  have hprintable : request.Printable X :=
    h.printable (.forgot request) (hlog ▸ List.mem_append_right _ List.mem_cons_self)
  have hrows := h.dropped newer request older hlog hnew
  by_cases hreplay : p.replay = true
  · refine by_contra fun hserved => ?_
    rcases (not_asksInner_iff hreplay w.state request).mp hserved with hfound | ⟨hresume, hfound⟩
    · obtain ⟨row, hrow, hhash⟩ := lookup_isSome hfound
      rw [(h.keyed row hrow).hash] at hhash
      obtain ⟨hprovider, hcanonical⟩ := computeCacheKeyForIdentity_inj hsha
        (zeroByte_not_mem_canonical (h.keyed row hrow).printable)
        (zeroByte_not_mem_canonical hprintable) hhash
      exact hrows row hrow (.inr hprovider) (hcanonical ▸ canonical_mem_forgotten)
    · obtain ⟨hash, hmem, hfound⟩ := hfound
      obtain ⟨row, hrow, hhash⟩ := lookup_isSome hfound
      obtain ⟨-, identity, -, canonical, hform, rfl⟩ := mem_candidateResumeHashes.mp hmem
      rw [(h.keyed row hrow).hash] at hhash
      obtain ⟨-, hcanonical⟩ := computeCacheKeyForIdentity_inj hsha
        (zeroByte_not_mem_canonical (h.keyed row hrow).printable)
        (zeroByte_not_mem_candidate hprintable hform) hhash
      refine hrows row hrow (.inl hresume) ?_
      rwa [hcanonical, forgottenCanonicals, if_pos hresume]
  · exact if_neg hreplay

end Invariant

end CachingAiProvider

/-- Whatever the calls, and whatever earlier sessions left in the table. -/
theorem cacheSound {π : Type} {p : CachingAiProvider π} {X : CacheParts}
    (hsha : Function.Injective X.sha256) {initial : Table CacheRow.requestHash}
    (hkeyed : ∀ row ∈ initial.rows, row.Keyed X) {w : CacheWorld π} (h : p.Run X initial w) :
    CacheSound p X initial w := by
  have hholds := CachingAiProvider.holds_of_run hsha hkeyed h
  have hlatest : ∀ request : AiRequest, request.Printable X →
      (w.state.table.lookup (p.primaryHash X request)).map (·.response) =
        p.remembered X initial (canonicalRequestJson X request) w.log := fun request hprintable =>
    hholds.latest _ (zeroByte_not_mem_canonical hprintable)
  refine ⟨fun request request' herased => ?_, hlatest, fun hreplay request hprintable => ?_,
    fun newer request older hlog hnew =>
    hholds.asksInner hsha hlog hnew, fun hreplay request => ?_⟩
  · rw [CachingAiProvider.primaryHash, canonicalRequestJson_congr X herased,
      CachingAiProvider.primaryHash]
  · rw [CachingAiProvider.not_asksInner_iff hreplay, ← hlatest request hprintable,
      Option.isSome_map]
  · exact if_neg (by rw [hreplay]; exact Bool.false_ne_true)

/-- Prompts without a date, and a digest that is the text itself. -/
def plainParts : CacheParts := ⟨id, fun _ => .null, id⟩

/-- A request that asks for nothing but an effort. -/
def effortRequest (effort : Option ReasoningEffort) : AiRequest :=
  ⟨none, [], none, none, none, none, effort⟩

/-- A cache that resumes, before a model that always gives the same answer. -/
def resumingCache : CachingAiProvider Unit where
  inner := ⟨fun s _ => (.ok ⟨some "ok", none, none, none, none, false⟩, s)⟩
  innerForget s _ := s
  cacheIdentity := "argon"
  modelName := "argon"
  replay := true
  resume := true
  sessionStart := 0

/-- A low effort is forgotten, then a high one is asked for. -/
def lowThenHigh : CacheWorld Unit :=
  resumingCache.step plainParts
    (resumingCache.step plainParts ⟨⟨(), .empty, ⟨0, 0, 0, 0⟩⟩, []⟩
      (.forget (effortRequest (some .low))))
    (.generate 0 (effortRequest (some .high)))

theorem effortRequest_printable (effort : ReasoningEffort) :
    (effortRequest (some effort)).Printable plainParts := by
  refine printableFields_iff.mpr ?_
  cases effort <;>
    exact List.forall_mem_cons.mpr ⟨trivial, List.forall_mem_singleton.mpr trivial⟩

theorem lowThenHigh_run : resumingCache.Run plainParts .empty lowThenHigh :=
  ((CachingAiProvider.Run.start () ⟨0, 0, 0, 0⟩).snoc (.forget (effortRequest (some .low)))
    (effortRequest_printable .low)).snoc (.generate 0 (effortRequest (some .high)))
      (effortRequest_printable .high)

theorem cacheSound_lowThenHigh : CacheSound resumingCache plainParts .empty lowThenHigh :=
  cacheSound Function.injective_id (fun _ hrow => absurd hrow List.not_mem_nil) lowThenHigh_run

/-- The answer to the high effort is then served to the low one, which was forgotten. -/
theorem lowThenHigh_serves_forgotten :
    ¬∀ w, resumingCache.Run plainParts .empty w →
      ∀ newer request older, w.log = newer ++ .forgot request :: older →
        (∀ entry ∈ newer, entry.request ≠ request) →
          resumingCache.AsksInner plainParts w.state request := by
  intro h
  have hasks := h lowThenHigh lowThenHigh_run
    [.stored (effortRequest (some .high)) ⟨some "ok", none, none, none, none, false⟩]
      (effortRequest (some .low)) [] rfl (List.forall_mem_singleton.mpr (by decide))
  have hserved : (resumingCache.cachedEntry plainParts lowThenHigh.state.table
      (effortRequest (some .low))).isSome = true := by decide
  rw [hasks] at hserved
  cases hserved

end Sashiko
