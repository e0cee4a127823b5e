import Snix.Castore.DirectoryService.DirectoryGraph.Drain

/-!
# Directories that a builder of graphs rejects

A directory is made a node before it is looked at. When it is rejected, the node stays,
and so does whatever was recorded of its references up to the one that failed; nothing
tells it from the others when the graph is built.

## Main definitions

- `tryInsertLeft` — what an insertion leaves behind, also when it fails
- `attemptAll`, `rejected` — insertions that go on after an error
- `Harmless` — rejected directories that have nothing wrong with them

## Main results

- `build_sound_iff` — a graph is right if the directories rejected on the way are harmless
-/

namespace Snix.Castore.DirectoryGraphBuilder

section

variable (digest : Directory → B3Digest) (checks : Bool)

-- ====================
-- What is left behind
-- ====================

/-- What `connect` leaves behind when it fails: the expected root, or the references to the
    directory, have been taken out. -/
def connectLeft (directory : Directory) (b : DirectoryGraphBuilder) : DirectoryGraphBuilder :=
  if b.graph.nodeCount = 1 then { b with expRootDigest := none }
  else { b with rtlEdgesTodo := b.rtlEdgesTodo.erase (digest directory) }

/-- The entries up to the first one that fails have been added. -/
def addChildrenLeft (directory : Directory) (nodeIdx : ℕ) :
    List (B3Digest × ℕ) → DirectoryGraphBuilder → DirectoryGraphBuilder
  | [], b => b
  | out :: outs, b =>
    match addChild digest directory nodeIdx b out with
    | .ok b => addChildrenLeft directory nodeIdx outs b
    | .error _ => b

/-- What `tryInsert` leaves behind. -/
def tryInsertLeft (b : DirectoryGraphBuilder) (directory : Directory) : DirectoryGraphBuilder :=
  match directory.size checks, b.digestToNodeIdxSize.lookup (digest directory) with
  | none, _ => b
  | some _, some _ => b
  | some directorySize, none =>
    let nodeIdx := b.graph.nodeCount
    let b := b.addDirectory digest directory directorySize
    let outs := directory.children.map Prod.snd
    match b.insertionOrder with
    | .leavesToRoot => addChildrenLeft digest directory nodeIdx outs b
    | .rootToLeaves =>
      match connect digest directory nodeIdx directorySize b with
      | .ok b => addChildrenLeft digest directory nodeIdx outs b
      | .error _ => connectLeft digest directory b

/-- An insertion whose error is ignored. A panic is not. -/
def attempt (b : DirectoryGraphBuilder) (directory : Directory) :
    Except Fault DirectoryGraphBuilder :=
  match tryInsert digest checks b directory with
  | .error (.panic message) => .error (.panic message)
  | _ => .ok (tryInsertLeft digest checks b directory)

def attemptAll (b : DirectoryGraphBuilder) (directories : List Directory) :
    Except Fault DirectoryGraphBuilder :=
  directories.foldlM (attempt digest checks) b

/-- The directories of a sequence for which `tryInsert` fails. -/
def rejected (b : DirectoryGraphBuilder) : List Directory → List Directory
  | [] => []
  | directory :: directories =>
    let left := tryInsertLeft digest checks b directory
    match tryInsert digest checks b directory with
    | .ok _ => rejected left directories
    | .error _ => directory :: rejected left directories

/-- The first directory of each digest. -/
def received (directories : List Directory) : List Directory :=
  directories.foldl (fun nodes directory =>
    if nodes.any fun d => digest d = digest directory then nodes else nodes ++ [directory]) []

/-- Every reference between the nodes leads to a node, and states its size. -/
def Sound (g : DirectoryGraph) : Prop :=
  ∀ d ∈ g.graph.nodes, ∀ name k size, (name, Node.directory k size) ∈ d.nodes.entries →
    ∃ child ∈ g.graph.nodes, digest child = k ∧ child.size checks = some size.toNat

/-- A directory refers to others in a list with their sizes, and whatever in the list refers to it
    states its size. -/
def Harmless (directories : List Directory) (directory : Directory) : Prop :=
  (∀ c ∈ directory.children.map Prod.snd, ∃ child ∈ directories,
    digest child = c.1 ∧ child.size checks = some c.2) ∧
  ∀ d ∈ directories, ∀ c ∈ d.children.map Prod.snd, c.1 = digest directory →
    directory.size checks = some c.2

end

-- ====================
-- What an insertion does to the references
-- ====================

variable {digest : Directory → B3Digest} {checks : Bool} {directory : Directory} {n s : ℕ}
  {b b' b'' : DirectoryGraphBuilder} {k : B3Digest}

/-- The size that is expected of a directory that is not there yet. -/
def Awaits (b : DirectoryGraphBuilder) (k : B3Digest) (s : ℕ) : Prop :=
  ∃ srcs, b.rtlEdgesTodo.lookup k = some (s, srcs)

/-- A directory that is there, with its size. -/
def Knows (b : DirectoryGraphBuilder) (k : B3Digest) (s : ℕ) : Prop :=
  ∃ i, b.digestToNodeIdxSize.lookup k = some (i, s)

/-- The builder has as many nodes, and awaits at least the same directories. From the leaves to
    the root it awaits none. -/
structure Grows (b b' : DirectoryGraphBuilder) : Prop where
  order : b'.insertionOrder = b.insertionOrder
  nodes : b'.graph.nodes = b.graph.nodes
  known : b'.digestToNodeIdxSize = b.digestToNodeIdxSize
  awaits : ∀ k s, b.Awaits k s → b'.Awaits k s
  todo : b.insertionOrder = .leavesToRoot → b'.rtlEdgesTodo = b.rtlEdgesTodo

theorem Grows.refl (b : DirectoryGraphBuilder) : Grows b b := ⟨rfl, rfl, rfl, fun _ _ h => h, fun _ => rfl⟩

theorem Grows.trans (h : Grows b b') (h' : Grows b' b'') : Grows b b'' where
  order := h'.order.trans h.order
  nodes := h'.nodes.trans h.nodes
  known := h'.known.trans h.known
  awaits k s hk := h'.awaits k s (h.awaits k s hk)
  todo hb := (h'.todo (h.order.trans hb)).trans (h.todo hb)

theorem Grows.addEdge (b : DirectoryGraphBuilder) (i j : ℕ) :
    Grows b { b with graph := b.graph.addEdge i j } :=
  ⟨rfl, rfl, rfl, fun _ _ h => h, fun _ => rfl⟩

/-- Further parents of a directory that is awaited, or the first one. -/
theorem Grows.insert (horder : b.insertionOrder = .rootToLeaves) {k : B3Digest} {s : ℕ}
    {srcs : List ℕ} (h : ∀ t srcs, b.rtlEdgesTodo.lookup k = some (t, srcs) → s = t) :
    Grows b { b with rtlEdgesTodo := b.rtlEdgesTodo.insert k (s, srcs) } where
  order := rfl
  nodes := rfl
  known := rfl
  awaits := by
    rintro k' t ⟨srcs', hsrcs⟩
    by_cases hk : k' = k
    · subst hk
      rw [← h t srcs' hsrcs]
      exact ⟨srcs, AList.lookup_insert _⟩
    · exact ⟨srcs', (AList.lookup_insert_ne hk).trans hsrcs⟩
  todo hltr := by
    rw [horder] at hltr
    cases hltr

/-- An entry that is added is to a directory that is there, or awaited, with its size. -/
theorem addChild_grows {out : B3Digest × ℕ} (h : addChild digest directory n b out = .ok b') :
    Grows b b' ∧ (b'.Knows out.1 out.2 ∨ b'.Awaits out.1 out.2) := by
  obtain ⟨order, graph, known, todo, root⟩ := b
  unfold addChild at h
  cases order with
  | leavesToRoot =>
    dsimp only at h
    cases hlookup : known.lookup out.1 with
    | none =>
      rw [hlookup] at h
      dsimp only at h
      split at h <;> cases h
    | some entry =>
      rw [hlookup] at h
      dsimp only at h
      split_ifs at h with hsize
      cases h
      rw [← not_not.mp hsize]
      exact ⟨Grows.addEdge _ n entry.1, .inl ⟨entry.1, hlookup⟩⟩
  | rootToLeaves =>
    dsimp only at h
    cases hlookup : known.lookup out.1 with
    | some entry =>
      rw [hlookup] at h
      dsimp only at h
      split_ifs at h with hsize
      cases h
      rw [← not_not.mp hsize]
      exact ⟨Grows.addEdge _ n entry.1, .inl ⟨entry.1, hlookup⟩⟩
    | none =>
      rw [hlookup] at h
      dsimp only at h
      cases htodo : todo.lookup out.1 with
      | none =>
        rw [htodo] at h
        cases h
        refine ⟨Grows.insert rfl ?_, .inr ⟨[n], AList.lookup_insert _⟩⟩
        intro t srcs hsrcs
        rw [htodo] at hsrcs
        cases hsrcs
      | some entry =>
        obtain ⟨t, srcs⟩ := entry
        rw [htodo] at h
        dsimp only at h
        split_ifs at h with hsize
        cases h
        rw [← not_not.mp hsize]
        refine ⟨Grows.insert rfl ?_, .inr ⟨srcs ++ [n], AList.lookup_insert _⟩⟩
        intro t' srcs' hsrcs
        rw [htodo] at hsrcs
        cases hsrcs
        rfl

theorem Grows.knows (h : Grows b b') (hk : b.Knows k s) : b'.Knows k s := by
  unfold Knows
  rw [h.known]
  exact hk

/-- All entries of a directory. -/
theorem addChildren_grows {outs : List (B3Digest × ℕ)}
    (h : outs.foldlM (addChild digest directory n) b = .ok b') :
    Grows b b' ∧ (∀ c ∈ outs, b'.Knows c.1 c.2 ∨ b'.Awaits c.1 c.2) ∧
      addChildrenLeft digest directory n outs b = b' := by
  induction outs generalizing b with
  | nil =>
    cases h
    exact ⟨.refl _, fun c hc => absurd hc List.not_mem_nil, rfl⟩
  | cons out outs ih =>
    rw [List.foldlM_cons] at h
    cases hadd : addChild digest directory n b out with
    | error e =>
      rw [hadd] at h
      cases h
    | ok b₁ =>
      rw [hadd] at h
      obtain ⟨hgrows, hout⟩ := addChild_grows hadd
      obtain ⟨hgrows', houts, hleft⟩ := ih h
      refine ⟨hgrows.trans hgrows', ?_, ?_⟩
      · intro c hc
        cases hc with
        | head => exact hout.imp hgrows'.knows (hgrows'.awaits _ _)
        | tail _ hc => exact houts c hc
      · rw [addChildrenLeft, hadd]
        exact hleft

/-- Entries that are added before one fails take nothing away. -/
theorem addChildrenLeft_grows (outs : List (B3Digest × ℕ)) (b : DirectoryGraphBuilder) :
    Grows b (addChildrenLeft digest directory n outs b) := by
  induction outs generalizing b with
  | nil => exact .refl b
  | cons out outs ih =>
    rw [addChildrenLeft]
    cases hadd : addChild digest directory n b out with
    | error e => exact .refl b
    | ok b₁ => exact (addChild_grows hadd).1.trans (ih b₁)

theorem nodes_foldl_addEdge (srcIdxs : List ℕ) (g : DiGraph Directory) :
    (srcIdxs.foldl (fun g srcIdx => g.addEdge srcIdx n) g).nodes = g.nodes := by
  induction srcIdxs generalizing g with
  | nil => rfl
  | cons srcIdx srcIdxs ih => exact ih _

/-- A directory that is connected has the size that was expected of it. Nothing changes for the
    others. -/
theorem connect_ok (h : connect digest directory n s b = .ok b') :
    b'.insertionOrder = b.insertionOrder ∧ b'.graph.nodes = b.graph.nodes ∧
      b'.digestToNodeIdxSize = b.digestToNodeIdxSize ∧
      ∀ k t, b.Awaits k t → k = digest directory ∧ t = s ∨ b'.Awaits k t := by
  unfold connect at h
  split_ifs at h with hfirst
  · cases hroot : b.expRootDigest with
    | none =>
      rw [hroot] at h
      cases h
    | some expRootDigest =>
      rw [hroot] at h
      dsimp only at h
      split_ifs at h
      cases h
      exact ⟨rfl, rfl, rfl, fun k t hk => .inr hk⟩
  · cases htodo : b.rtlEdgesTodo.lookup (digest directory) with
    | none =>
      rw [htodo] at h
      cases h
    | some entry =>
      obtain ⟨size, srcIdxs⟩ := entry
      rw [htodo] at h
      dsimp only at h
      split_ifs at h with hsize
      cases h
      refine ⟨rfl, nodes_foldl_addEdge srcIdxs b.graph, rfl, ?_⟩
      rintro k t ⟨srcs, hsrcs⟩
      by_cases hk : k = digest directory
      · subst hk
        rw [htodo] at hsrcs
        cases hsrcs
        exact .inl ⟨rfl, not_not.mp hsize⟩
      · exact .inr ⟨srcs, (AList.lookup_erase_ne hk).trans hsrcs⟩

theorem connectLeft_spec (b : DirectoryGraphBuilder) :
    (connectLeft digest directory b).insertionOrder = b.insertionOrder ∧
      (connectLeft digest directory b).graph.nodes = b.graph.nodes ∧
      (connectLeft digest directory b).digestToNodeIdxSize = b.digestToNodeIdxSize ∧
      ∀ k t, b.Awaits k t → k = digest directory ∨ (connectLeft digest directory b).Awaits k t := by
  unfold connectLeft
  split_ifs
  · exact ⟨rfl, rfl, rfl, fun k t hk => .inr hk⟩
  · refine ⟨rfl, rfl, rfl, ?_⟩
    rintro k t ⟨srcs, hsrcs⟩
    by_cases hk : k = digest directory
    · exact .inl hk
    · exact .inr ⟨srcs, (AList.lookup_erase_ne hk).trans hsrcs⟩

theorem tryInsert_known (hs : directory.size checks = some s) {entry : ℕ × ℕ}
    (hlookup : b.digestToNodeIdxSize.lookup (digest directory) = some entry) :
    tryInsert digest checks b directory = .ok b := by
  cases horder : b.insertionOrder with
  | leavesToRoot => rw [tryInsert_leavesToRoot horder hs, hlookup]
  | rootToLeaves => rw [tryInsert_rootToLeaves horder hs, hlookup]

theorem left_of_attempt (h : attempt digest checks b directory = .ok b') :
    tryInsertLeft digest checks b directory = b' := by
  unfold attempt at h
  split at h
  case h_1 => cases h
  case h_2 => exact Except.ok.inj h

theorem rejected_cons (b : DirectoryGraphBuilder) (directory : Directory)
    (directories : List Directory) :
    rejected digest checks b (directory :: directories) = rejected digest checks b [directory] ++
      rejected digest checks (tryInsertLeft digest checks b directory) directories := by
  rw [rejected, rejected]
  cases tryInsert digest checks b directory with
  | ok b₁ => rfl
  | error fault => rfl

/-- What an insertion leaves behind when the directory is new. -/
structure Leaves (digest : Directory → B3Digest) (directory : Directory) (s : ℕ) (ok : Prop)
    (b left : DirectoryGraphBuilder) : Prop where
  order : left.insertionOrder = b.insertionOrder
  nodes : left.graph.nodes = b.graph.nodes ++ [directory]
  known : left.digestToNodeIdxSize =
    b.digestToNodeIdxSize.insert (digest directory) (b.graph.nodeCount, s)
  awaits : ∀ k t, b.Awaits k t → k = digest directory ∧ (t = s ∨ ¬ ok) ∨ left.Awaits k t
  todo : b.insertionOrder = .leavesToRoot → left.rtlEdgesTodo = b.rtlEdgesTodo
  refs : ok → ∀ c ∈ directory.children.map Prod.snd, left.Knows c.1 c.2 ∨ left.Awaits c.1 c.2

/-- The entries are added to a builder that differs little from the one before. -/
theorem Leaves.of_grows {b₁ left : DirectoryGraphBuilder} {ok : Prop} (hgrows : Grows b₁ left)
    (horder : b₁.insertionOrder = b.insertionOrder)
    (hnodes : b₁.graph.nodes = b.graph.nodes ++ [directory])
    (hknown : b₁.digestToNodeIdxSize =
      b.digestToNodeIdxSize.insert (digest directory) (b.graph.nodeCount, s))
    (hawaits : ∀ k t, b.Awaits k t → k = digest directory ∧ (t = s ∨ ¬ ok) ∨ b₁.Awaits k t)
    (htodo : b.insertionOrder = .leavesToRoot → b₁.rtlEdgesTodo = b.rtlEdgesTodo)
    (hrefs : ok → ∀ c ∈ directory.children.map Prod.snd,
      left.Knows c.1 c.2 ∨ left.Awaits c.1 c.2) :
    Leaves digest directory s ok b left where
  order := hgrows.order.trans horder
  nodes := hgrows.nodes.trans hnodes
  known := hgrows.known.trans hknown
  awaits k t hk := (hawaits k t hk).imp_right (hgrows.awaits k t)
  todo hltr := (hgrows.todo (horder.trans hltr)).trans (htodo hltr)
  refs := hrefs

/-- If all entries are added, the insertion leaves what it returns. -/
theorem refs_of_foldlM {outs : List (B3Digest × ℕ)} {b₁ : DirectoryGraphBuilder}
    (h : ∃ b', outs.foldlM (addChild digest directory n) b₁ = .ok b') :
    ∀ c ∈ outs, (addChildrenLeft digest directory n outs b₁).Knows c.1 c.2 ∨
      (addChildrenLeft digest directory n outs b₁).Awaits c.1 c.2 := by
  obtain ⟨b', hb'⟩ := h
  obtain ⟨-, hrefs, hleft⟩ := addChildren_grows hb'
  rw [hleft]
  exact hrefs

theorem tryInsertLeft_leaves (hs : directory.size checks = some s)
    (hlookup : b.digestToNodeIdxSize.lookup (digest directory) = none) :
    Leaves digest directory s (∃ b', tryInsert digest checks b directory = .ok b') b
      (tryInsertLeft digest checks b directory) := by
  cases horder : b.insertionOrder with
  | leavesToRoot =>
    have horder' : (b.addDirectory digest directory s).insertionOrder = .leavesToRoot := horder
    rw [tryInsert_leavesToRoot horder hs, hlookup, tryInsertLeft, hs, hlookup]
    simp only [horder']
    exact .of_grows (addChildrenLeft_grows _ _) rfl rfl rfl (fun k t hk => .inr hk) (fun _ => rfl)
      refs_of_foldlM
  | rootToLeaves =>
    have hnot : b.insertionOrder = .leavesToRoot → False := by
      rw [horder]
      intro h
      cases h
    have horder' : (b.addDirectory digest directory s).insertionOrder = .rootToLeaves := horder
    rw [tryInsert_rootToLeaves horder hs, hlookup, tryInsertLeft, hs, hlookup]
    simp only [horder']
    cases hconnect : connect digest directory b.graph.nodeCount s
        (b.addDirectory digest directory s) with
    | error e =>
      obtain ⟨horder, hnodes, hknown, hawaits⟩ :=
        @connectLeft_spec digest directory
          (b.addDirectory digest directory s)
      have hfail : ¬ ∃ b', (Except.error e >>= fun b₁ => (directory.children.map Prod.snd).foldlM
          (addChild digest directory b.graph.nodeCount) b₁) = .ok b' := by
        rintro ⟨b', hb'⟩
        cases hb'
      exact ⟨horder, hnodes, hknown, fun k t hk => (hawaits k t hk).imp_left fun hk => ⟨hk, .inr hfail⟩,
        fun h => (hnot h).elim, fun hok => (hfail hok).elim⟩
    | ok b₁ =>
      obtain ⟨horder, hnodes, hknown, hawaits⟩ := connect_ok hconnect
      refine .of_grows (addChildrenLeft_grows _ _) horder hnodes hknown ?_ (fun h => (hnot h).elim)
        refs_of_foldlM
      intro k t hk
      exact (hawaits k t hk).imp_left fun h => ⟨h.1, .inl h.2⟩

-- ====================
-- Runs
-- ====================

variable {before rej : List Directory}

/-- The builder after the directories so far, of which some were rejected. -/
structure Attempted (digest : Directory → B3Digest) (checks : Bool) (before rej : List Directory)
    (b : DirectoryGraphBuilder) : Prop where
  nodes : b.graph.nodes = received digest before
  knows_iff : ∀ k s, b.Knows k s ↔ ∃ d ∈ b.graph.nodes, digest d = k ∧ d.size checks = some s
  sized : ∀ d ∈ b.graph.nodes, ∃ s, d.size checks = some s
  unique : ∀ d ∈ b.graph.nodes, ∀ d' ∈ b.graph.nodes, digest d = digest d' → d = d'
  rejected_mem : ∀ d ∈ rej, d ∈ b.graph.nodes
  refs : ∀ d ∈ b.graph.nodes, d ∉ rej → ∀ c ∈ d.children.map Prod.snd,
    b.Knows c.1 c.2 ∨ (∃ d' ∈ rej, digest d' = c.1) ∨ b.Awaits c.1 c.2
  todo : b.insertionOrder = .leavesToRoot → b.rtlEdgesTodo = ∅

theorem received_concat (before : List Directory) (directory : Directory) :
    received digest (before ++ [directory]) =
      if (received digest before).any fun d => digest d = digest directory
      then received digest before else received digest before ++ [directory] := by
  rw [received, List.foldl_concat]
  rfl

namespace Attempted

theorem lookup_none_iff (h : Attempted digest checks before rej b) :
    b.digestToNodeIdxSize.lookup k = none ↔ ∀ d ∈ b.graph.nodes, digest d ≠ k := by
  constructor
  · rintro hnone d hd rfl
    obtain ⟨s, hs⟩ := h.sized d hd
    obtain ⟨i, hi⟩ := (h.knows_iff (digest d) s).mpr ⟨d, hd, rfl, hs⟩
    rw [hnone] at hi
    cases hi
  · intro hnot
    cases hlookup : b.digestToNodeIdxSize.lookup k with
    | none => rfl
    | some entry =>
      obtain ⟨d, hd, hk, -⟩ := (h.knows_iff k entry.2).mp ⟨entry.1, hlookup⟩
      exact absurd hk (hnot d hd)

/-- A directory whose digest is there changes nothing. -/
theorem known (h : Attempted digest checks before rej b) {entry : ℕ × ℕ}
    (hlookup : b.digestToNodeIdxSize.lookup (digest directory) = some entry) :
    Attempted digest checks (before ++ [directory]) rej b := by
  have hreceived : received digest (before ++ [directory]) = received digest before := by
    rw [received_concat, if_pos]
    by_contra hnot
    have hnone := h.lookup_none_iff.mpr fun d hd heq => hnot (List.any_eq_true.mpr
      ⟨d, h.nodes ▸ hd, decide_eq_true heq⟩)
    rw [hlookup] at hnone
    cases hnone
  exact { h with nodes := h.nodes.trans hreceived.symm }

/-- A directory is made a node. What is left behind is as right for the others as before. -/
theorem insert (h : Attempted digest checks before rej b) (hs : directory.size checks = some s)
    (hlookup : b.digestToNodeIdxSize.lookup (digest directory) = none)
    {left : DirectoryGraphBuilder} {ok : Prop} (hleft : Leaves digest directory s ok b left)
    {rej' : List Directory} (hsub : ∀ d ∈ rej, d ∈ rej')
    (hsub' : ∀ d ∈ rej', d ∈ rej ∨ d = directory) (hok : ¬ ok → directory ∈ rej') :
    Attempted digest checks (before ++ [directory]) rej' left := by
  obtain ⟨horder, hnodes, hknown, hawaits, htodo, hrefs⟩ := hleft
  have hnew := h.lookup_none_iff.mp hlookup
  have hmem : ∀ d, d ∈ left.graph.nodes ↔ d ∈ b.graph.nodes ∨ d = directory := by
    intro d
    rw [hnodes, List.mem_append, List.mem_singleton]
  have hknows : ∀ k t, left.Knows k t ↔ b.Knows k t ∨ k = digest directory ∧ t = s := by
    intro k t
    unfold Knows
    rw [hknown]
    by_cases hk : k = digest directory
    · subst hk
      simp [hlookup, eq_comm]
    · simp [AList.lookup_insert_ne hk, hk]
  constructor
  · have hnot : ¬ ((received digest before).any fun d => digest d = digest directory) = true := by
      rw [List.any_eq_true]
      rintro ⟨d, hd, heq⟩
      exact hnew d (h.nodes ▸ hd) (of_decide_eq_true heq)
    rw [received_concat, if_neg hnot, hnodes, h.nodes]
  · intro k t
    rw [hknows, h.knows_iff]
    constructor
    · rintro (⟨d, hd, hk⟩ | ⟨rfl, rfl⟩)
      · exact ⟨d, (hmem d).mpr (.inl hd), hk⟩
      · exact ⟨directory, (hmem _).mpr (.inr rfl), rfl, hs⟩
    · rintro ⟨d, hd, hk, ht⟩
      obtain hd | rfl := (hmem d).mp hd
      · exact .inl ⟨d, hd, hk, ht⟩
      · exact .inr ⟨hk.symm, Option.some.inj (ht.symm.trans hs)⟩
  · intro d hd
    obtain hd | rfl := (hmem d).mp hd
    · exact h.sized d hd
    · exact ⟨s, hs⟩
  · intro d hd d' hd' heq
    obtain hd | rfl := (hmem d).mp hd <;> obtain hd' | rfl := (hmem d').mp hd'
    · exact h.unique d hd d' hd' heq
    · exact absurd heq (hnew d hd)
    · exact absurd heq.symm (hnew d' hd')
    · rfl
  · intro d hd
    exact (hmem d).mpr ((hsub' d hd).imp_left (h.rejected_mem d))
  · intro d hd hrej c hc
    obtain hd | rfl := (hmem d).mp hd
    · obtain hk | ⟨d', hd', hk⟩ | hk := h.refs d hd (fun hd => hrej (hsub d hd)) c hc
      · exact .inl ((hknows _ _).mpr (.inl hk))
      · exact .inr (.inl ⟨d', hsub d' hd', hk⟩)
      · obtain ⟨hk, rfl | hfail⟩ | hk := hawaits _ _ hk
        · exact .inl ((hknows _ _).mpr (.inr ⟨hk, rfl⟩))
        · exact .inr (.inl ⟨directory, hok hfail, hk.symm⟩)
        · exact .inr (.inr hk)
    · exact (hrefs (not_not.mp fun hfail => hrej (hok hfail)) c hc).imp_right .inr
  · intro hltr
    rw [horder] at hltr
    rw [htodo hltr, h.todo hltr]

/-- One insertion, whether it succeeds or not. -/
theorem attempt (h : Attempted digest checks before rej b)
    (hok : attempt digest checks b directory = .ok b') :
    Attempted digest checks (before ++ [directory])
      (rej ++ rejected digest checks b [directory]) b' := by
  cases hs : directory.size checks with
  | none =>
    have hpanic : tryInsert digest checks b directory =
        .error (.panic "attempt to add with overflow") := by
      rw [tryInsert, Directory.sizeOrPanic, hs]
      rfl
    rw [DirectoryGraphBuilder.attempt, hpanic] at hok
    cases hok
  | some s =>
    cases hlookup : b.digestToNodeIdxSize.lookup (digest directory) with
    | some entry =>
      have htry : tryInsert digest checks b directory = .ok b := tryInsert_known hs hlookup
      have hleft : tryInsertLeft digest checks b directory = b := by
        rw [tryInsertLeft, hs, hlookup]
      rw [DirectoryGraphBuilder.attempt, htry, hleft] at hok
      cases hok
      rw [rejected, htry, rejected, List.append_nil]
      exact h.known hlookup
    | none =>
      have hleaves : Leaves digest directory s _ b (tryInsertLeft digest checks b directory) :=
        tryInsertLeft_leaves hs hlookup
      rw [DirectoryGraphBuilder.attempt] at hok
      rw [rejected]
      cases htry : tryInsert digest checks b directory with
      | ok b₁ =>
        rw [htry] at hok
        cases hok
        refine h.insert hs hlookup hleaves (fun d hd => ?_) (fun d hd => ?_) (fun hnot => ?_)
        · exact List.mem_append_left _ hd
        · exact .inl (by simpa [rejected] using hd)
        · exact absurd ⟨b₁, htry⟩ hnot
      | error fault =>
        cases fault with
        | panic message =>
          rw [htry] at hok
          cases hok
        | error e =>
          rw [htry] at hok
          cases hok
          refine h.insert hs hlookup hleaves (fun d hd => ?_) (fun d hd => ?_) (fun _ => ?_)
          · exact List.mem_append_left _ hd
          · exact (List.mem_append.mp hd).imp_right List.mem_singleton.mp
          · exact List.mem_append_right _ (List.mem_singleton_self directory)

/-- A whole run. -/
theorem attemptAll {directories : List Directory} (h : Attempted digest checks before rej b)
    (hok : attemptAll digest checks b directories = .ok b') :
    Attempted digest checks (before ++ directories) (rej ++ rejected digest checks b directories)
      b' := by
  induction directories generalizing before rej b with
  | nil =>
    cases hok
    rw [rejected, List.append_nil, List.append_nil]
    exact h
  | cons directory directories ih =>
    rw [DirectoryGraphBuilder.attemptAll, List.foldlM_cons] at hok
    cases hone : DirectoryGraphBuilder.attempt digest checks b directory with
    | error fault =>
      rw [hone] at hok
      cases hok
    | ok b₁ =>
      rw [hone] at hok
      have hrun := ih (h.attempt hone) hok
      rw [rejected_cons, ← List.append_assoc, List.append_cons, left_of_attempt hone]
      exact hrun

theorem new {b₀ : DirectoryGraphBuilder}
    (hb₀ : b₀ = newLeavesToRoot ∨ ∃ rootDigest, b₀ = newRootToLeaves rootDigest) :
    Attempted digest checks [] [] b₀ := by
  have hempty : b₀.graph.nodes = [] ∧ b₀.digestToNodeIdxSize = ∅ ∧ b₀.rtlEdgesTodo = ∅ := by
    obtain rfl | ⟨rootDigest, rfl⟩ := hb₀
    · exact ⟨rfl, rfl, rfl⟩
    · exact ⟨rfl, rfl, rfl⟩
  obtain ⟨hnodes, hknown, htodo⟩ := hempty
  refine ⟨hnodes, ?_, ?_, ?_, ?_, ?_, fun _ => htodo⟩
  · intro k s
    rw [Knows, hknown, hnodes]
    simp
  all_goals simp [hnodes]

end Attempted

-- ====================
-- Graphs
-- ====================

/-- In a builder whose graph is complete nothing is awaited. -/
theorem graph_of_build {debug : Bool} {g : DirectoryGraph} (h : b.build digest debug = .ok g)
    (htodo : b.insertionOrder = .leavesToRoot → b.rtlEdgesTodo = ∅) :
    g.graph = b.graph ∧ ∀ k s, ¬ b.Awaits k s := by
  have hnone : b.rtlEdgesTodo = ∅ → ∀ k s, ¬ b.Awaits k s := by
    rintro hempty k s ⟨srcs, hsrcs⟩
    rw [hempty] at hsrcs
    cases hsrcs
  unfold build at h
  cases horder : b.insertionOrder with
  | leavesToRoot =>
    rw [horder] at h
    dsimp only at h
    refine ⟨?_, hnone (htodo horder)⟩
    split at h
    case h_1 => cases h
    case h_2 =>
      cases h
      rfl
    case h_3 => split at h <;> cases h
  | rootToLeaves =>
    rw [horder] at h
    dsimp only at h
    split_ifs at h with hcount hentries
    · cases h
      exact ⟨rfl, hnone (AList.ext (not_not.mp hentries))⟩

/-- A graph that was built after some directories were rejected is right exactly if these are
    harmless: if they refer to directories that were passed in, accepted or not, and if they have
    the sizes that are stated of them. -/
theorem build_sound_iff {b₀ : DirectoryGraphBuilder}
    (hb₀ : b₀ = newLeavesToRoot ∨ ∃ rootDigest, b₀ = newRootToLeaves rootDigest)
    {directories : List Directory} {debug : Bool} {g : DirectoryGraph}
    (hok : (attemptAll digest checks b₀ directories >>= build digest debug) = .ok g) :
    Sound digest checks g ↔
      ∀ d ∈ rejected digest checks b₀ directories,
        Harmless digest checks (received digest directories) d := by
  cases hrun : attemptAll digest checks b₀ directories with
  | error fault =>
    rw [hrun] at hok
    cases hok
  | ok b =>
    rw [hrun] at hok
    have hinv : Attempted digest checks directories (rejected digest checks b₀ directories) b :=
      (Attempted.new hb₀).attemptAll hrun
    obtain ⟨hgraph, hawaits⟩ := graph_of_build hok hinv.todo
    rw [Sound, hgraph, ← hinv.nodes]
    constructor
    · intro hsound d hd
      have hmem := hinv.rejected_mem d hd
      constructor
      · rintro ⟨k, s⟩ hc
        obtain ⟨name, size, hentry, rfl⟩ :=
          @Directory.exists_of_mem_refs digest checks _ _ hc
        exact hsound d hmem name k size hentry
      · rintro d' hd' ⟨k, s⟩ hc rfl
        obtain ⟨name, size, hentry, rfl⟩ :=
          @Directory.exists_of_mem_refs digest checks _ _ hc
        obtain ⟨child, hchild, hkey, hsize⟩ := hsound d' hd' name _ size hentry
        obtain rfl := hinv.unique child hchild d hmem hkey
        exact hsize
    · intro hharmless d hd name k size hentry
      have hc : (k, size.toNat) ∈ d.children.map Prod.snd :=
        @Directory.mem_refs digest checks _ _ _ _ hentry
      by_cases hrej : d ∈ rejected digest checks b₀ directories
      · exact (hharmless d hrej).1 _ hc
      obtain hknows | ⟨d', hd', hkey⟩ | hawait := hinv.refs d hd hrej _ hc
      · exact (hinv.knows_iff _ _).mp hknows
      · exact ⟨d', hinv.rejected_mem d' hd', hkey, (hharmless d' hd').2 d hd _ hc hkey.symm⟩
      · exact absurd hawait (hawaits _ _)

/-- A directory without parents that is rejected between two others. -/
theorem build_sound_iff_twoSizes :
    ∃ g, (attemptAll fixtureDigest true (newRootToLeaves DIRECTORY_B_DIGEST)
        [DIRECTORY_B, DIRECTORY_TWO_SIZES, DIRECTORY_A] >>= build fixtureDigest false) = .ok g ∧
      (Sound fixtureDigest true g ↔
        ∀ d ∈ rejected fixtureDigest true (newRootToLeaves DIRECTORY_B_DIGEST)
          [DIRECTORY_B, DIRECTORY_TWO_SIZES, DIRECTORY_A],
          Harmless fixtureDigest true
            (received fixtureDigest [DIRECTORY_B, DIRECTORY_TWO_SIZES, DIRECTORY_A]) d) :=
  ⟨_, rfl, @build_sound_iff _ _ _ (.inr ⟨_, rfl⟩) _ false _ rfl⟩

/-- A directory that is not the root is rejected, and the graph consists of it. What it refers to
    is missing. -/
theorem build_unsound_b :
    (newRootToLeaves DIRECTORY_A_DIGEST).tryInsert fixtureDigest true DIRECTORY_B =
        .error (.error (.unexpected DIRECTORY_B)) ∧
      ∃ g, (attemptAll fixtureDigest true (newRootToLeaves DIRECTORY_A_DIGEST) [DIRECTORY_B] >>=
        build fixtureDigest true) = .ok g ∧ ¬ Sound fixtureDigest true g := by
  refine ⟨rfl, _, rfl, ?_⟩
  intro hsound
  obtain ⟨child, hchild, hkey, -⟩ := hsound DIRECTORY_B (List.mem_singleton_self _) _ _ _
    (List.mem_singleton_self _)
  obtain rfl := List.mem_singleton.mp hchild
  exact absurd hkey (by decide)

end Snix.Castore.DirectoryGraphBuilder
