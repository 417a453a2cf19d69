import Sashiko.Baseline.Registry

/-! When the resolutions depend on the order in which the hash map of the votes gives its keys. -/

namespace Sashiko

variable {t : CharTables} {registry : BaselineRegistry} {files : List String} {subject : String}
  {votes : List TreeVote} {trees keys : List Tree} {a b : Tree}

/-! ### The two orders -/

theorem candidateLe_iff : candidateLe votes a b = true ↔
    treeCount votes b < treeCount votes a ∨
      treeCount votes a = treeCount votes b ∧ textLe a.url b.url = true := by
  rw [candidateLe, Bool.or_eq_true, decide_eq_true_eq, Bool.and_eq_true, decide_eq_true_eq]

theorem ranks_candidateLe (votes : List TreeVote) : Ranks (candidateLe votes) where
  trans a b c hab hbc := by
    rw [candidateLe_iff] at hab hbc ⊢
    rcases hab with hab | ⟨hab, hurl⟩
    · rcases hbc with hbc | ⟨hbc, -⟩
      · exact .inl (hbc.trans hab)
      · exact .inl (hbc ▸ hab)
    · rcases hbc with hbc | ⟨hbc, hurl'⟩
      · exact .inl (hab ▸ hbc)
      · exact .inr ⟨hab.trans hbc, textLe_trans hurl hurl'⟩
  total a b := by
    rw [Bool.or_eq_true, candidateLe_iff, candidateLe_iff]
    rcases Nat.lt_trichotomy (treeCount votes a) (treeCount votes b) with h | h | h
    · exact .inr (.inl h)
    · have htotal := textLe_total a.url b.url
      rw [Bool.or_eq_true] at htotal
      exact htotal.imp (fun hle => .inr ⟨h, hle⟩) fun hle => .inr ⟨h.symm, hle⟩
    · exact .inl (.inl h)

theorem tied_of_candidateLe (hab : candidateLe votes a b = true)
    (hba : candidateLe votes b a = true) :
    treeCount votes a = treeCount votes b ∧ a.url = b.url := by
  rw [candidateLe_iff] at hab hba
  rcases hab with hab | ⟨hcount, hurl⟩
  · rcases hba with hba | ⟨hcount, -⟩ <;> omega
  · rcases hba with hba | ⟨-, hurl'⟩
    · omega
    · exact ⟨hcount, textLe_antisymm hurl hurl'⟩

theorem candidateLe_of_tied (hcount : treeCount votes a = treeCount votes b)
    (hurl : a.url = b.url) : candidateLe votes a b = true := by
  rw [candidateLe_iff, hurl, textLe, textLt_irrefl]
  exact .inr ⟨hcount, rfl⟩

/-- The higher score first. -/
def scoreLe (t : CharTables) (subject : String) (votes : List TreeVote) (a b : Tree) : Bool :=
  treeScore t subject votes b ≤ treeScore t subject votes a

theorem ranks_scoreLe (t : CharTables) (subject : String) (votes : List TreeVote) :
    Ranks (scoreLe t subject votes) where
  trans a b c hab hbc :=
    decide_eq_true ((of_decide_eq_true hbc).trans (of_decide_eq_true hab))
  total a b := by
    rw [scoreLe, scoreLe, ← Bool.decide_or]
    exact decide_eq_true (le_total _ _)

/-! ### Resolutions -/

def BaselineRegistry.resolveTree (registry : BaselineRegistry) (tree : Tree) : RemoteTarget :=
  registry.resolveUrl tree.url tree.branch

theorem resolveTree_injective (registry : BaselineRegistry) :
    Function.Injective registry.resolveTree := by
  intro a b h
  injection h with hurl _ hbranch
  cases a
  cases b
  exact congrArg₂ Tree.mk hurl hbranch

theorem eraseDups_of_nodup {α : Type} [DecidableEq α] {xs : List α} (h : xs.Nodup) :
    xs.eraseDups = xs := by
  induction xs with
  | nil => rfl
  | cons x xs ih =>
    obtain ⟨hx, hrest⟩ := List.nodup_cons.mp h
    have hfilter : xs.filter (fun y => !y == x) = xs :=
      List.filter_eq_self.mpr fun y hy => by
        rw [Bool.not_eq_true', beq_eq_false_iff_ne]
        exact fun heq => hx (heq ▸ hy)
    rw [List.eraseDups_cons, hfilter, ih hrest]

theorem scoredResolutions_eq (registry : BaselineRegistry) (hnodup : trees.Nodup) :
    scoredResolutions t registry subject votes trees =
      (trees.mergeSort (scoreLe t subject votes)).map registry.resolveTree := by
  have hsort : (trees.map fun tree =>
      (treeScore t subject votes tree, registry.resolveUrl tree.url tree.branch)).mergeSort
        (fun a b => b.1 ≤ a.1) = (trees.mergeSort (scoreLe t subject votes)).map fun tree =>
          (treeScore t subject votes tree, registry.resolveUrl tree.url tree.branch) :=
    (List.map_mergeSort (f := fun tree => (treeScore t subject votes tree,
      registry.resolveUrl tree.url tree.branch)) fun _ _ _ _ => rfl).symm
  have hmap : ((trees.mergeSort (scoreLe t subject votes)).map registry.resolveTree).Nodup :=
    ((List.mergeSort_perm _ _).nodup_iff.mpr hnodup).map (resolveTree_injective registry)
  rw [scoredResolutions, hsort, List.map_map]
  exact eraseDups_of_nodup hmap

/-! ### The queue of the Intel wired trees -/

/-- The trees of the queue that the subject names. -/
def queueTrees (t : CharTables) (subject : String) (trees : List Tree) : List Tree :=
  trees.filter fun tree => (queueOf t subject).any (containsText tree.url)

theorem iwlQueueTree_eq (t : CharTables) (subject : String) (keys : List Tree) :
    iwlQueueTree t subject keys = (queueTrees t subject keys).head?.map Tree.url := by
  unfold iwlQueueTree queueTrees
  cases queueOf t subject with
  | none => simp
  | some queue =>
    rw [Option.bind_some, List.find?_map, List.head?_filter]
    rfl

/-! ### The top tree -/

/-- No tree comes before it, whatever the order of the keys. -/
def IsTop (votes : List TreeVote) (trees : List Tree) (a : Tree) : Prop :=
  a ∈ trees ∧ ∀ b ∈ trees, candidateLe votes a b = true

theorem IsTop.tied (ha : IsTop votes trees a) (hb : IsTop votes trees b) :
    treeCount votes a = treeCount votes b ∧ a.url = b.url :=
  tied_of_candidateLe (ha.2 b hb.1) (hb.2 a ha.1)

/-- The branches that a top tree stands for. -/
def specialOf (votes : List TreeVote) (tree : Tree) : Option (List String) :=
  specialBranches tree.url (treeSubsystem votes tree)

def branchTrees (url : String) (branches : List String) : List Tree :=
  branches.map fun branch => ⟨url, some branch⟩

/-- The trees that are tried, in order, where `top` is the top tree. -/
def chosenTrees (t : CharTables) (subject : String) (votes : List TreeVote) (keys : List Tree)
    (top : Tree) : List Tree :=
  match specialOf votes top with
  | some branches => branchTrees top.url branches
  | none => sortTwice (candidateLe votes) (scoreLe t subject votes) keys

variable (t registry files subject) in
/-- One tree that is top is chosen by the order of the keys. -/
theorem exists_top (hnodup : keys.Nodup) (hperm : keys.Perm trees) (hne : trees ≠ [])
    (hqueue : queueTrees t subject keys = []) : ∃ top, IsTop (registry.votes files) trees top ∧
      (keys.mergeSort (candidateLe (registry.votes files))).head? = some top ∧
      resolveSubsystemHeuristic t registry files subject keys =
        (chosenTrees t subject (registry.votes files) keys top).map registry.resolveTree := by
  have hranks := ranks_candidateLe (registry.votes files)
  have hsorted := List.pairwise_mergeSort hranks.trans hranks.total keys
  have hsame := List.mergeSort_perm keys (candidateLe (registry.votes files))
  have hnone : iwlQueueTree t subject keys = none := by
    rw [iwlQueueTree_eq, hqueue]
    rfl
  cases hcandidates : keys.mergeSort (candidateLe (registry.votes files)) with
  | nil =>
    rw [hcandidates] at hsame
    exact absurd (hperm.symm.trans hsame.symm).eq_nil hne
  | cons top rest =>
    rw [hcandidates] at hsorted hsame
    have hmem := fun b => (hsame.trans hperm).mem_iff (a := b)
    refine ⟨top, ⟨(hmem top).mp List.mem_cons_self, fun b hb => ?_⟩, rfl, ?_⟩
    · rcases List.mem_cons.mp ((hmem b).mpr hb) with rfl | hb
      · exact hranks.refl b
      · exact (List.pairwise_cons.mp hsorted).1 b hb
    · simp only [resolveSubsystemHeuristic, hnone, hcandidates, chosenTrees, specialOf]
      cases hspecial : specialBranches top.url (treeSubsystem (registry.votes files) top) with
      | some branches =>
        simp only [branchTrees, List.map_map]
        rfl
      | none =>
        simp only [sortTwice, hcandidates]
        exact scoredResolutions_eq registry (hsame.nodup_iff.mpr hnodup)

/-- A top tree that comes first among the keys is chosen. -/
theorem head_of_isTop (hperm : (a :: keys).Perm trees) (ha : IsTop votes trees a) :
    ((a :: keys).mergeSort (candidateLe votes)).head? = some a := by
  rw [mergeSort_cons_of_least (ranks_candidateLe votes) fun b hb =>
    ha.2 b (hperm.mem_iff.mp (List.mem_cons_of_mem _ hb)), List.head?_cons]

/-! ### Ties that do not matter -/

/-- Trees with the same votes and address are told apart by their scores. -/
def DistinctScores (t : CharTables) (subject : String) (votes : List TreeVote)
    (trees : List Tree) : Prop :=
  ∀ a ∈ trees, ∀ b ∈ trees, a ≠ b → treeCount votes a = treeCount votes b → a.url = b.url →
    treeScore t subject votes a ≠ treeScore t subject votes b

/-- The top trees stand for the same branches, and where they stand for none, there are no ties. -/
def OneTop (t : CharTables) (subject : String) (votes : List TreeVote) (trees : List Tree) : Prop :=
  (∀ a b, IsTop votes trees a → IsTop votes trees b → specialOf votes a = specialOf votes b) ∧
    ((∀ a, IsTop votes trees a → specialOf votes a = none) → DistinctScores t subject votes trees)

/-- The score, the votes or the first place among the keys puts one before the other. -/
def InPlace (t : CharTables) (subject : String) (votes : List TreeVote) (trees : List Tree)
    (a b : Tree) : Prop :=
  treeScore t subject votes b < treeScore t subject votes a ∨
    treeScore t subject votes a = treeScore t subject votes b ∧
      (treeCount votes b < treeCount votes a ∨
        treeCount votes a = treeCount votes b ∧
          ∀ c, IsTop votes trees c → specialOf votes c = none → c = a)

/-- A top tree stands for branches that are all the trees there are, in the order they come in where
the other top trees, which stand for none, are first. -/
def ByChance (t : CharTables) (subject : String) (votes : List TreeVote) (trees : List Tree) : Prop :=
  ∃ first branches, IsTop votes trees first ∧ specialOf votes first = some branches ∧
    (∀ a, IsTop votes trees a → specialOf votes a = none ∨ specialOf votes a = some branches) ∧
    trees.Perm (branchTrees first.url branches) ∧
    (branchTrees first.url branches).Pairwise (InPlace t subject votes trees)

/-- The resolutions do not depend on the order of the keys. -/
def OrderFree (t : CharTables) (registry : BaselineRegistry) (files : List String)
    (subject : String) : Prop :=
  ∀ keys keys', keys.Perm (votedTrees (registry.votes files)) →
    keys'.Perm (votedTrees (registry.votes files)) →
    resolveSubsystemHeuristic t registry files subject keys =
      resolveSubsystemHeuristic t registry files subject keys'

/-- The trees of the queue, where there are some, have one address; else no tie matters. -/
def TiesSettled (t : CharTables) (registry : BaselineRegistry) (files : List String)
    (subject : String) : Prop :=
  let votes := registry.votes files
  (∀ a ∈ queueTrees t subject (votedTrees votes), ∀ b ∈ queueTrees t subject (votedTrees votes),
    a.url = b.url) ∧
  (queueTrees t subject (votedTrees votes) = [] →
    OneTop t subject votes (votedTrees votes) ∨ ByChance t subject votes (votedTrees votes))

/-! ### Enough -/

theorem nodup_branchTrees {url : String} {branches : List String} (h : branches.Nodup) :
    (branchTrees url branches).Nodup :=
  h.map fun _ _ heq => Option.some.inj (Tree.mk.inj heq).2

theorem nodup_of_specialOf {branches : List String} (h : specialOf votes a = some branches) :
    branches.Nodup := by
  unfold specialOf specialBranches at h
  split_ifs at h
  · rw [← Option.some.inj h]
    decide
  · rw [← Option.some.inj h]
    decide

/-- Of two elements of a list one comes first. -/
theorem pair_sublist_or {α : Type} {xs : List α} {a b : α} (ha : a ∈ xs) (hb : b ∈ xs) (hne : a ≠ b) :
    [a, b].Sublist xs ∨ [b, a].Sublist xs := by
  obtain ⟨before, after, rfl⟩ := List.append_of_mem ha
  rcases List.mem_append.mp hb with hb | hb
  · right
    obtain ⟨front, back, rfl⟩ := List.append_of_mem hb
    simp
  · left
    have hb' := (List.mem_cons.mp hb).resolve_left hne.symm
    exact (List.Sublist.cons_cons a (List.singleton_sublist.mpr hb')).trans
      (List.sublist_append_right _ _)

/-- A list is the other where each pair comes in the other's order. -/
theorem eq_of_pairs {α : Type} {xs ys : List α} (hnodup : ys.Nodup) (hperm : xs.Perm ys)
    (h : ∀ a b, [a, b].Sublist ys → [a, b].Sublist xs) : xs = ys := by
  have hnodup' := hperm.nodup_iff.mpr hnodup
  have hxs : xs.Pairwise fun a b => [a, b].Sublist xs :=
    List.pairwise_iff_forall_sublist.mpr fun hpair => hpair
  have hys : ys.Pairwise fun a b => [a, b].Sublist xs :=
    List.pairwise_iff_forall_sublist.mpr fun hpair => h _ _ hpair
  exact hperm.eq_of_pairwise (fun a b _ _ hab hba => eq_of_pairs_sublist hnodup' hab hba) hxs hys

/-- The trees in place come out in their order where a top tree that stands for none is first. -/
theorem sortTwice_of_inPlace {branches : List Tree} (hnodup : branches.Nodup)
    (hperm : keys.Perm branches) (hurl : ∀ a ∈ branches, ∀ b ∈ branches, a.url = b.url)
    (hplace : branches.Pairwise (InPlace t subject votes trees)) {top : Tree}
    (htop : IsTop votes trees top) (hnone : specialOf votes top = none)
    (hhead : (keys.mergeSort (candidateLe votes)).head? = some top) :
    sortTwice (candidateLe votes) (scoreLe t subject votes) keys = branches := by
  have hranks := ranks_candidateLe votes
  have hranks' := ranks_scoreLe t subject votes
  have hsame : (sortTwice (candidateLe votes) (scoreLe t subject votes) keys).Perm branches :=
    (sortTwice_perm keys).trans hperm
  refine eq_of_pairs hnodup hsame fun a b hpair => ?_
  have ha : a ∈ branches := hpair.subset List.mem_cons_self
  have hb : b ∈ branches := hpair.subset (List.mem_cons_of_mem _ List.mem_cons_self)
  have hne : a ≠ b := by
    rintro rfl
    simpa using hpair.nodup hnodup
  refine (pair_sublist_or (hsame.mem_iff.mpr ha) (hsame.mem_iff.mpr hb) hne).resolve_right
    fun hback => ?_
  have horder := List.pairwise_iff_forall_sublist.mp
    (pairwise_sortTwice hranks hranks' keys) hback
  have hscore : treeScore t subject votes a ≤ treeScore t subject votes b :=
    of_decide_eq_true horder.1
  rcases List.pairwise_iff_forall_sublist.mp hplace hpair with hlt | ⟨heq, hrest⟩
  · exact absurd hlt (not_lt.mpr hscore)
  have hcandidate := candidateLe_iff.mp (horder.2 (decide_eq_true heq.symm.le))
  rcases hrest with hcount | ⟨hcount, honly⟩
  · omega
  -- Then `a` is the top tree itself, which comes first.
  obtain rfl := honly top htop hnone
  have htie : candidateLe votes top b = true := candidateLe_of_tied hcount (hurl _ ha _ hb)
  obtain ⟨rest, hcons⟩ := List.head?_eq_some_iff.mp hhead
  have hmem : b ∈ keys.mergeSort (candidateLe votes) :=
    List.mem_mergeSort.mpr (hperm.mem_iff.mpr hb)
  rw [hcons] at hmem
  have hfirst : [top, b].Sublist (keys.mergeSort (candidateLe votes)) := by
    rw [hcons]
    exact List.Sublist.cons_cons top
      (List.singleton_sublist.mpr ((List.mem_cons.mp hmem).resolve_left hne.symm))
  have hforth : [top, b].Sublist (sortTwice (candidateLe votes) (scoreLe t subject votes) keys) :=
    List.pair_sublist_mergeSort hranks'.trans hranks'.total (decide_eq_true heq.symm.le) hfirst
  exact hne (eq_of_pairs_sublist (hsame.nodup_iff.mpr hnodup) hforth hback)

theorem resolve_of_queue (h : (queueTrees t subject keys).head? = some a) :
    resolveSubsystemHeuristic t registry files subject keys =
      [registry.resolveUrl a.url (some "dev-queue")] := by
  rw [resolveSubsystemHeuristic, iwlQueueTree_eq, h]
  rfl

theorem queueTrees_perm (h : keys.Perm trees) :
    (queueTrees t subject keys).Perm (queueTrees t subject trees) := h.filter _

theorem chosenTrees_of_some {branches : List String} (h : specialOf votes a = some branches) :
    chosenTrees t subject votes keys a = branchTrees a.url branches := by
  rw [chosenTrees, h]

theorem chosenTrees_of_none (h : specialOf votes a = none) :
    chosenTrees t subject votes keys a =
      sortTwice (candidateLe votes) (scoreLe t subject votes) keys := by
  rw [chosenTrees, h]

theorem chosenTrees_of_oneTop (h : OneTop t subject votes trees) {keys' : List Tree}
    (hperm : keys.Perm trees) (hperm' : keys'.Perm trees) (ha : IsTop votes trees a)
    (hb : IsTop votes trees b) :
    chosenTrees t subject votes keys a = chosenTrees t subject votes keys' b := by
  have hsame := h.1 a b ha hb
  cases hspecial : specialOf votes a with
  | some branches =>
    rw [chosenTrees_of_some hspecial, chosenTrees_of_some (hsame.symm.trans hspecial),
      (ha.tied hb).2]
  | none =>
    have hscores := h.2 fun c hc => (h.1 c a hc ha).trans hspecial
    rw [chosenTrees_of_none hspecial, chosenTrees_of_none (hsame.symm.trans hspecial)]
    refine sortTwice_congr (ranks_candidateLe votes) (ranks_scoreLe t subject votes)
      (hperm.trans hperm'.symm) fun c hc d hd hcd hdc hscore hscore' => ?_
    by_contra hne
    obtain ⟨hcount, hurl⟩ := tied_of_candidateLe hcd hdc
    exact hscores c (hperm.mem_iff.mp hc) d (hperm.mem_iff.mp hd) hne hcount hurl
      (le_antisymm (of_decide_eq_true hscore') (of_decide_eq_true hscore))

theorem chosenTrees_of_byChance {first : Tree} {branches : List String}
    (hfirst : IsTop votes trees first) (hspecial : specialOf votes first = some branches)
    (htops : ∀ a, IsTop votes trees a → specialOf votes a = none ∨
      specialOf votes a = some branches)
    (hall : trees.Perm (branchTrees first.url branches))
    (hplace : (branchTrees first.url branches).Pairwise (InPlace t subject votes trees))
    (hperm : keys.Perm trees) (ha : IsTop votes trees a)
    (hhead : (keys.mergeSort (candidateLe votes)).head? = some a) :
    chosenTrees t subject votes keys a = branchTrees first.url branches := by
  rcases htops a ha with hnone | hsome
  · rw [chosenTrees_of_none hnone]
    refine sortTwice_of_inPlace (nodup_branchTrees (nodup_of_specialOf hspecial))
      (hperm.trans hall) (fun c hc d hd => ?_) hplace ha hnone hhead
    obtain ⟨x, -, rfl⟩ := List.mem_map.mp hc
    obtain ⟨y, -, rfl⟩ := List.mem_map.mp hd
    rfl
  · rw [chosenTrees_of_some hsome, (ha.tied hfirst).2]

theorem nodup_votedTrees (votes : List TreeVote) : (votedTrees votes).Nodup := List.nodup_dedup _

theorem orderFree_of_tiesSettled (h : TiesSettled t registry files subject) :
    OrderFree t registry files subject := by
  intro keys keys' hperm hperm'
  obtain ⟨hqueue, hties⟩ := h
  have hnodup := nodup_votedTrees (registry.votes files)
  generalize hvotes : registry.votes files = votes at *
  by_cases hempty : queueTrees t subject (votedTrees votes) = []
  · have hnoqueue : ∀ {keys : List Tree}, keys.Perm (votedTrees votes) →
        queueTrees t subject keys = [] := fun hkeys =>
      List.perm_nil.mp (hempty ▸ queueTrees_perm hkeys)
    rcases eq_or_ne (votedTrees votes) [] with hnil | hne
    · rw [hnil, List.perm_nil] at hperm hperm'
      rw [hperm, hperm']
    obtain ⟨top, htop, hhead, hresolve⟩ := exists_top t registry files subject
      (hperm.nodup_iff.mpr hnodup) hperm hne (hnoqueue hperm)
    obtain ⟨top', htop', hhead', hresolve'⟩ := exists_top t registry files subject
      (hperm'.nodup_iff.mpr hnodup) hperm' hne (hnoqueue hperm')
    rw [hvotes] at htop htop' hhead hhead' hresolve hresolve'
    rw [hresolve, hresolve']
    congr 1
    rcases hties hempty with hone | ⟨first, branches, hfirst, hspecial, htops, hall, hplace⟩
    · exact chosenTrees_of_oneTop hone hperm hperm' htop htop'
    · rw [chosenTrees_of_byChance hfirst hspecial htops hall hplace hperm htop hhead,
        chosenTrees_of_byChance hfirst hspecial htops hall hplace hperm' htop' hhead']
  · have hhead : ∀ {keys : List Tree}, keys.Perm (votedTrees votes) →
        ∃ a ∈ queueTrees t subject (votedTrees votes),
          (queueTrees t subject keys).head? = some a := fun {keys} hkeys => by
      cases hq : queueTrees t subject keys with
      | nil => exact absurd (List.perm_nil.mp (hq ▸ (queueTrees_perm hkeys).symm)) hempty
      | cons a rest =>
        exact ⟨a, (queueTrees_perm hkeys).mem_iff.mp (hq ▸ List.mem_cons_self), rfl⟩
    obtain ⟨a, ha, hkeys⟩ := hhead hperm
    obtain ⟨b, hb, hkeys'⟩ := hhead hperm'
    rw [resolve_of_queue hkeys, resolve_of_queue hkeys', hqueue a ha b hb]

/-! ### Needed -/

section Needed

variable (hfree : OrderFree t registry files subject)

include hfree

theorem queue_of_orderFree {a b : Tree}
    (ha : a ∈ queueTrees t subject (votedTrees (registry.votes files)))
    (hb : b ∈ queueTrees t subject (votedTrees (registry.votes files))) : a.url = b.url := by
  have hfirst : ∀ {c : Tree}, c ∈ queueTrees t subject (votedTrees (registry.votes files)) →
      ∃ keys, keys.Perm (votedTrees (registry.votes files)) ∧
        resolveSubsystemHeuristic t registry files subject keys =
          [registry.resolveUrl c.url (some "dev-queue")] := by
    intro c hc
    obtain ⟨hmem, hqueue⟩ := List.mem_filter.mp hc
    refine ⟨_, (List.perm_cons_erase hmem).symm, resolve_of_queue ?_⟩
    simp [queueTrees, hqueue]
  obtain ⟨keys, hperm, hkeys⟩ := hfirst ha
  obtain ⟨keys', hperm', hkeys'⟩ := hfirst hb
  have hsame := hfree keys keys' hperm hperm'
  rw [hkeys, hkeys'] at hsame
  exact (RemoteTarget.mk.inj (List.cons.inj hsame).1).1

/-- Where no tree is of the queue, any two top trees that can come first give the same trees. -/
theorem chosen_of_orderFree
    (hqueue : queueTrees t subject (votedTrees (registry.votes files)) = []) {keys keys' : List Tree}
    (hperm : keys.Perm (votedTrees (registry.votes files)))
    (hperm' : keys'.Perm (votedTrees (registry.votes files))) {a b : Tree}
    (hhead : (keys.mergeSort (candidateLe (registry.votes files))).head? = some a)
    (hhead' : (keys'.mergeSort (candidateLe (registry.votes files))).head? = some b) :
    chosenTrees t subject (registry.votes files) keys a =
      chosenTrees t subject (registry.votes files) keys' b := by
  have hnodup := nodup_votedTrees (registry.votes files)
  have hchosen : ∀ {keys : List Tree} {c : Tree}, keys.Perm (votedTrees (registry.votes files)) →
      (keys.mergeSort (candidateLe (registry.votes files))).head? = some c →
      resolveSubsystemHeuristic t registry files subject keys =
        (chosenTrees t subject (registry.votes files) keys c).map registry.resolveTree := by
    intro keys c hkeys hc
    have hne : votedTrees (registry.votes files) ≠ [] := by
      intro hnil
      rw [hnil, List.perm_nil] at hkeys
      rw [hkeys, List.mergeSort_nil] at hc
      cases hc
    obtain ⟨top, -, hhead, hresolve⟩ := exists_top t registry files subject
      (hkeys.nodup_iff.mpr hnodup) hkeys hne (List.perm_nil.mp (hqueue ▸ queueTrees_perm hkeys))
    rw [hhead] at hc
    rwa [← Option.some.inj hc]
  have hsame := hfree keys keys' hperm hperm'
  rw [hchosen hperm hhead, hchosen hperm' hhead'] at hsame
  exact (List.map_injective_iff.mpr (resolveTree_injective registry)) hsame

/-- Two trees that nothing but the order of the keys tells apart. -/
theorem distinctScores_of_orderFree
    (hqueue : queueTrees t subject (votedTrees (registry.votes files)) = [])
    (hnone : ∀ a, IsTop (registry.votes files) (votedTrees (registry.votes files)) a →
      specialOf (registry.votes files) a = none) :
    DistinctScores t subject (registry.votes files) (votedTrees (registry.votes files)) := by
  intro a ha b hb hne hcount hurl hscore
  have hnodup := nodup_votedTrees (registry.votes files)
  have hb' : b ∈ (votedTrees (registry.votes files)).erase a :=
    (List.mem_erase_of_ne hne.symm).mpr hb
  obtain ⟨rest, hperm⟩ : ∃ rest, (a :: b :: rest).Perm (votedTrees (registry.votes files)) :=
    ⟨_, (((List.perm_cons_erase hb').symm).cons a).trans (List.perm_cons_erase ha).symm⟩
  have hperm' := (List.Perm.swap a b _).trans hperm
  have hne' : votedTrees (registry.votes files) ≠ [] := List.ne_nil_of_mem ha
  obtain ⟨top, htop, hhead, -⟩ := exists_top t registry files subject
    (hperm.nodup_iff.mpr hnodup) hperm hne' (List.perm_nil.mp (hqueue ▸ queueTrees_perm hperm))
  obtain ⟨top', htop', hhead', -⟩ := exists_top t registry files subject
    (hperm'.nodup_iff.mpr hnodup) hperm' hne' (List.perm_nil.mp (hqueue ▸ queueTrees_perm hperm'))
  have hsame := chosen_of_orderFree hfree hqueue hperm hperm' hhead hhead'
  rw [chosenTrees_of_none (hnone top htop), chosenTrees_of_none (hnone top' htop')] at hsame
  have hab : [a, b].Sublist (sortTwice (candidateLe (registry.votes files))
      (scoreLe t subject (registry.votes files)) (a :: b :: rest)) :=
    pair_sortTwice (ranks_candidateLe _) (ranks_scoreLe t subject _)
      (candidateLe_of_tied hcount hurl) (decide_eq_true hscore.symm.le) (by simp)
  have hba : [b, a].Sublist (sortTwice (candidateLe (registry.votes files))
      (scoreLe t subject (registry.votes files)) (b :: a :: rest)) :=
    pair_sortTwice (ranks_candidateLe _) (ranks_scoreLe t subject _)
      (candidateLe_of_tied hcount.symm hurl.symm) (decide_eq_true hscore.le) (by simp)
  rw [← hsame] at hba
  exact hne (eq_of_pairs_sublist ((sortTwice_perm _).nodup_iff.mpr (hperm.nodup_iff.mpr hnodup))
    hab hba)

/-- Where top trees stand for different branches, one that stands for some stands for them all. -/
theorem byChance_of_orderFree
    (hqueue : queueTrees t subject (votedTrees (registry.votes files)) = []) {first other : Tree}
    {branches : List String}
    (hfirst : IsTop (registry.votes files) (votedTrees (registry.votes files)) first)
    (hspecial : specialOf (registry.votes files) first = some branches)
    (hother : IsTop (registry.votes files) (votedTrees (registry.votes files)) other)
    (hdiffer : specialOf (registry.votes files) other ≠ some branches) :
    ByChance t subject (registry.votes files) (votedTrees (registry.votes files)) := by
  have hnodup := nodup_votedTrees (registry.votes files)
  generalize hvotes : registry.votes files = votes at *
  generalize htrees : votedTrees votes = trees at *
  have hkeys : ∀ {c : Tree}, c ∈ trees → (c :: trees.erase c).Perm trees := fun hc =>
    (List.perm_cons_erase hc).symm
  -- Any top tree can come first, and what is chosen then is the branches of `first`.
  have hchosen : ∀ {c : Tree} {keys : List Tree}, (c :: keys).Perm trees → IsTop votes trees c →
      chosenTrees t subject votes (c :: keys) c = branchTrees first.url branches := by
    intro c keys hperm hc
    have hsame : chosenTrees t subject (registry.votes files) (c :: keys) c =
        chosenTrees t subject (registry.votes files) (first :: trees.erase first) first :=
      chosen_of_orderFree hfree (by rw [hvotes, htrees]; exact hqueue)
        (by rw [hvotes, htrees]; exact hperm) (by rw [hvotes, htrees]; exact hkeys hfirst.1)
        (by rw [hvotes]; exact head_of_isTop hperm hc)
        (by rw [hvotes]; exact head_of_isTop (hkeys hfirst.1) hfirst)
    rw [hvotes, chosenTrees_of_some hspecial] at hsame
    exact hsame
  have hor : ∀ c, IsTop votes trees c → specialOf votes c = none ∨
      specialOf votes c = some branches := by
    intro c hc
    cases hc' : specialOf votes c with
    | none => exact .inl rfl
    | some branches' =>
      have hsame := hchosen (hkeys hc.1) hc
      rw [chosenTrees_of_some hc', (hc.tied hfirst).2] at hsame
      have hinj : Function.Injective fun branch => Tree.mk first.url (some branch) :=
        fun x y heq => Option.some.inj (Tree.mk.inj heq).2
      exact .inr (congrArg some (List.map_injective_iff.mpr hinj hsame))
  have hsorted : ∀ {c : Tree} {keys : List Tree}, (c :: keys).Perm trees → IsTop votes trees c →
      specialOf votes c = none →
      sortTwice (candidateLe votes) (scoreLe t subject votes) (c :: keys) =
        branchTrees first.url branches := fun hperm hc hnone => by
    rw [← chosenTrees_of_none hnone, hchosen hperm hc]
  have hothernone := (hor other hother).resolve_right hdiffer
  have hout := hsorted (hkeys hother.1) hother hothernone
  have hall : trees.Perm (branchTrees first.url branches) := by
    rw [← hout]
    exact ((sortTwice_perm _).trans (hkeys hother.1)).symm
  refine ⟨first, branches, hfirst, hspecial, hor, hall, ?_⟩
  have hranks := ranks_candidateLe votes
  have hranks' := ranks_scoreLe t subject votes
  refine List.pairwise_iff_forall_sublist.mpr fun {a b} hpair => ?_
  have ha : a ∈ trees := hall.mem_iff.mpr (hpair.subset List.mem_cons_self)
  have hb : b ∈ trees :=
    hall.mem_iff.mpr (hpair.subset (List.mem_cons_of_mem _ List.mem_cons_self))
  have hne : a ≠ b := by
    rintro rfl
    simpa using hpair.nodup (hall.nodup_iff.mp hnodup)
  have horder := pairwise_sortTwice hranks hranks' (other :: trees.erase other)
  rw [hout] at horder
  have hab := List.pairwise_iff_forall_sublist.mp horder hpair
  have hscore : treeScore t subject votes b ≤ treeScore t subject votes a :=
    of_decide_eq_true hab.1
  rcases hscore.lt_or_eq with hlt | heq
  · exact .inl hlt
  have hcandidate := hab.2 (decide_eq_true heq.symm.le)
  by_contra hnot
  have htie : candidateLe votes b a = true := by
    by_contra hlt
    rcases candidateLe_iff.mp hcandidate with hcount | ⟨hcount, -⟩
    · exact hnot (.inr ⟨heq.symm, .inl hcount⟩)
    · obtain ⟨x, -, rfl⟩ := List.mem_map.mp (hall.mem_iff.mp ha)
      obtain ⟨y, -, rfl⟩ := List.mem_map.mp (hall.mem_iff.mp hb)
      exact hlt (candidateLe_of_tied hcount.symm rfl)
  have hcount := (tied_of_candidateLe hcandidate htie).1
  -- Another top tree that stands for none comes first, and `b` before `a`.
  obtain ⟨c, hc, hcnone, hca⟩ : ∃ c, IsTop votes trees c ∧ specialOf votes c = none ∧ c ≠ a := by
    by_contra hno
    refine hnot (.inr ⟨heq.symm, .inr ⟨hcount, fun c hc hcnone => ?_⟩⟩)
    by_contra hca
    exact hno ⟨c, hc, hcnone, hca⟩
  obtain ⟨keys, hperm, hback⟩ : ∃ keys, (c :: keys).Perm trees ∧ [b, a].Sublist (c :: keys) := by
    have ha' : a ∈ trees.erase c := (List.mem_erase_of_ne hca.symm).mpr ha
    by_cases hcb : c = b
    · subst hcb
      exact ⟨a :: (trees.erase c).erase a, ((List.perm_cons_erase ha').symm.cons c).trans
        (hkeys hc.1), by simp⟩
    · have hb' : b ∈ (trees.erase c).erase a :=
        (List.mem_erase_of_ne hne.symm).mpr ((List.mem_erase_of_ne (Ne.symm hcb)).mpr hb)
      refine ⟨b :: a :: ((trees.erase c).erase a).erase b, ?_, by simp⟩
      refine List.Perm.trans (List.Perm.cons c ?_) (hkeys hc.1)
      refine (List.Perm.swap a b _).trans ?_
      exact ((List.perm_cons_erase hb').symm.cons a).trans (List.perm_cons_erase ha').symm
  have hforth := pair_sortTwice hranks hranks' htie (decide_eq_true heq.symm.le) hback
  rw [hsorted hperm hc hcnone] at hforth
  exact hne (eq_of_pairs_sublist (hall.nodup_iff.mp hnodup) hpair hforth)

theorem tiesSettled_of_orderFree : TiesSettled t registry files subject := by
  refine ⟨fun a ha b hb => queue_of_orderFree hfree ha hb, fun hqueue => ?_⟩
  by_cases hone : ∀ a b, IsTop (registry.votes files) (votedTrees (registry.votes files)) a →
      IsTop (registry.votes files) (votedTrees (registry.votes files)) b →
      specialOf (registry.votes files) a = specialOf (registry.votes files) b
  · exact .inl ⟨hone, distinctScores_of_orderFree hfree hqueue⟩
  · right
    push Not at hone
    obtain ⟨a, b, ha, hb, hdiffer⟩ := hone
    cases hspecial : specialOf (registry.votes files) a with
    | some branches =>
      exact byChance_of_orderFree hfree hqueue ha hspecial hb fun heq =>
        hdiffer (hspecial.trans heq.symm)
    | none =>
      cases hspecial' : specialOf (registry.votes files) b with
      | some branches =>
        exact byChance_of_orderFree hfree hqueue hb hspecial' ha fun heq =>
          hdiffer (heq.trans hspecial'.symm)
      | none => exact absurd (hspecial.trans hspecial'.symm) hdiffer

end Needed

/-- The order of the keys does not matter exactly where the ties are settled without it. -/
theorem orderFree_iff (t : CharTables) (registry : BaselineRegistry) (files : List String)
    (subject : String) : OrderFree t registry files subject ↔ TiesSettled t registry files subject :=
  ⟨tiesSettled_of_orderFree, orderFree_of_tiesSettled⟩

theorem resolve_inOrder (hqueue : queueTrees t subject (a :: keys) = [])
    (hnodup : (a :: keys).Nodup) (hspecial : specialOf (registry.votes files) a = none)
    (hcandidates : (a :: keys).Pairwise (candidateLe (registry.votes files) · · = true))
    (hscores : (a :: keys).Pairwise (scoreLe t subject (registry.votes files) · · = true)) :
    resolveSubsystemHeuristic t registry files subject (a :: keys) =
      (a :: keys).map registry.resolveTree := by
  rw [specialOf] at hspecial
  simp only [resolveSubsystemHeuristic, iwlQueueTree_eq, hqueue, List.head?_nil, Option.map_none,
    List.mergeSort_of_pairwise hcandidates, hspecial]
  rw [scoredResolutions_eq registry hnodup, List.mergeSort_of_pairwise hscores]

/-- A subsystem with two branches of one tree. -/
def twoBranches : BaselineRegistry where
  entries := [{ subsystem := "EXAMPLE DRIVERS"
                trees := [⟨"git://example.org/example.git", some "fixes"⟩,
                  ⟨"git://example.org/example.git", some "queue"⟩]
                patterns := ["drivers/example/"] }]
  remoteMap _ := none

theorem twoBranches_not_orderFree :
    ¬ OrderFree asciiTables twoBranches ["drivers/example/core.c"] "[PATCH] example: fix a leak" := by
  intro h
  have hsame := h
    [⟨"git://example.org/example.git", some "fixes"⟩,
      ⟨"git://example.org/example.git", some "queue"⟩]
    [⟨"git://example.org/example.git", some "queue"⟩,
      ⟨"git://example.org/example.git", some "fixes"⟩] (by decide) (by decide)
  rw [resolve_inOrder (by decide +kernel) (by decide) (by decide +kernel) (by decide +kernel)
      (by decide +kernel),
    resolve_inOrder (by decide +kernel) (by decide) (by decide +kernel) (by decide +kernel)
      (by decide +kernel)] at hsame
  have hbranch := (RemoteTarget.mk.inj (List.cons.inj hsame).1).2.2
  exact absurd hbranch (by decide)

end Sashiko
