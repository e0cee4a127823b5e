import Snix.Castore.DirectoryService.DirectoryGraph.Accept

/-!
# Draining a graph of directories

A graph that was built is closed under references and has one root, whichever order
its directories came in. It is drained by a traversal from the root, which takes every
directory out of its node. What the traversal visits, and in which order, is all that
is assumed of it.

## Main definitions

- `DirectoryGraph.drain`
- `DirectoryGraph.Valid` — a closed graph with one root

## Main results

- `drain_valid` — a graph that was built is valid, and both ways to drain it give every directory
  once and in an order that the validators accept
-/

namespace Snix.Castore

namespace DirectoryGraph

/-- Takes the directories out of the nodes; none if there is no such node. -/
def takeAll : List ℕ → List Directory → Option (List Directory)
  | [], _ => some []
  | i :: order, nodes => do
    let directory ← nodes[i]?
    let rest ← takeAll order (nodes.set i .new)
    some (directory :: rest)

/-- The directories of a graph in the order of a traversal from the root. -/
def drain (bfs dfsPostOrder : DiGraph Directory → ℕ → List ℕ) (order : DirectoryOrder)
    (g : DirectoryGraph) : Option (List Directory) :=
  let order := match order with
    | .rootToLeaves => bfs g.graph g.rootIdx
    | .leavesToRoot => dfsPostOrder g.graph g.rootIdx
  takeAll order g.graph.nodes

def root (g : DirectoryGraph) : Option Directory := g.graph.nodeWeight g.rootIdx

/-- The graph has each of the directories once, all their entries that are directories lead to a
    node with the recorded size, and the root is the only node from which all others are reached. -/
structure Valid (digest : Directory → B3Digest) (checks : Bool) (directories : List Directory)
    (g : DirectoryGraph) : Prop where
  nodup : g.graph.nodes.Nodup
  mem_nodes : ∀ d, d ∈ g.graph.nodes ↔ d ∈ directories
  closed : ∀ (i : ℕ) d, g.graph.nodes[i]? = some d → ∀ name k size,
    (name, Node.directory k size) ∈ d.nodes.entries →
      ∃ (j : ℕ) (child : Directory), g.graph.nodes[j]? = some child ∧ (i, j) ∈ g.graph.edges ∧
        digest child = k ∧ child.size checks = some size.toNat
  externals : g.graph.externals = [g.rootIdx]
  reachable : ∀ i, g.graph.Reachable g.rootIdx i ↔ i < g.graph.nodeCount

theorem getElem?_eq_getD {nodes : List Directory} {i : ℕ} (hi : i < nodes.length) :
    nodes[i]? = some (nodes.getD i .new) := by
  rw [List.getD_eq_getElem?_getD, List.getElem?_eq_getElem hi]
  rfl

/-- Every directory is taken out before its node is left empty. -/
theorem takeAll_eq {order : List ℕ} {nodes : List Directory} (hnodup : order.Nodup)
    (hlt : ∀ i ∈ order, i < nodes.length) :
    takeAll order nodes = some (order.map fun i => nodes.getD i .new) := by
  induction order generalizing nodes with
  | nil => rfl
  | cons i order ih =>
    obtain ⟨hi, hnodup'⟩ := List.nodup_cons.mp hnodup
    have hget := getElem?_eq_getD (hlt i List.mem_cons_self)
    have hrest : takeAll order (nodes.set i .new) = some _ := ih hnodup' fun j hj => by
      rw [List.length_set]
      exact hlt j (List.mem_cons_of_mem i hj)
    have hsame : (order.map fun j => (nodes.set i .new).getD j .new) =
        order.map fun j => nodes.getD j .new := by
      apply List.map_congr_left
      intro j hj
      have hne : i ≠ j := fun h => hi (h ▸ hj)
      rw [List.getD_eq_getElem?_getD, List.getD_eq_getElem?_getD, List.getElem?_set_ne hne]
    rw [takeAll, hget, hrest, hsame]
    rfl

end DirectoryGraph

-- ====================
-- The graph that a builder has
-- ====================

theorem Directory.mem_refs {digest : Directory → B3Digest} {checks : Bool} {d : Directory}
    {name : PathComponent} {k : B3Digest} {size : UInt64}
    (h : (name, Node.directory k size) ∈ d.nodes.entries) :
    (k, size.toNat) ∈ (Directory.merkle digest checks).refs d :=
  List.mem_map.mpr ⟨(name, k, size.toNat), List.mem_filterMap.mpr ⟨_, h, rfl⟩, rfl⟩

theorem Directory.exists_of_mem_refs {digest : Directory → B3Digest} {checks : Bool} {d : Directory}
    {c : B3Digest × ℕ} (h : c ∈ (Directory.merkle digest checks).refs d) :
    ∃ name size, (name, Node.directory c.1 size) ∈ d.nodes.entries ∧ c.2 = size.toNat := by
  obtain ⟨child, hchild, rfl⟩ := List.mem_map.mp h
  obtain ⟨⟨name, node⟩, hmem, hnode⟩ := List.mem_filterMap.mp hchild
  cases node with
  | directory k size =>
    cases hnode
    exact ⟨name, size, hmem, rfl⟩
  | file _ _ _ => cases hnode
  | symlink _ => cases hnode

namespace DirectoryGraphBuilder

variable {digest : Directory → B3Digest} {checks : Bool} {directories : List Directory}
  {b : DirectoryGraphBuilder} {rootIdx : ℕ}

namespace Inv

theorem nodup (h : Inv digest checks directories b) : b.graph.nodes.Nodup := by
  rw [List.nodup_iff_getElem?_ne_getElem?]
  intro i j hij hj heq
  have hget : b.graph.nodes[j]? = some b.graph.nodes[j] := List.getElem?_eq_getElem hj
  exact absurd (h.idx_unique (heq.trans hget) hget rfl) (Nat.ne_of_lt hij)

/-- A directory other than the root has a parent. -/
theorem exists_parent (h : Inv digest checks directories b)
    (hexternals : b.graph.externals = [rootIdx]) {i : ℕ} {d : Directory}
    (hd : b.graph.nodes[i]? = some d) (hne : i ≠ rootIdx) :
    ∃ (j : ℕ) (parent : Directory), b.graph.nodes[j]? = some parent ∧ (j, i) ∈ b.graph.edges ∧
      ∃ s, (digest d, s) ∈ (Directory.merkle digest checks).refs parent := by
  have hnot : i ∉ b.graph.externals := by
    rw [hexternals, List.mem_singleton]
    exact hne
  have hmem : (Directory.merkle digest checks).Has directories (digest d) :=
    ⟨d, (h.mem_nodes d).mp (List.mem_of_getElem? hd), rfl⟩
  have hclaimed : (Directory.merkle digest checks).Claimed directories (digest d) := by
    by_contra hclaimed
    exact hnot (h.mem_externals.mpr ⟨d, hd, hmem, hclaimed⟩)
  obtain ⟨s, hs⟩ := hclaimed
  obtain ⟨parent, hparent, hs⟩ := Merkle.mem_claims.mp hs
  obtain ⟨j, hj⟩ := List.mem_iff_getElem?.mp ((h.mem_nodes parent).mpr hparent)
  exact ⟨j, parent, hj, h.mem_edges.mpr ⟨parent, d, hj, hd, s, hs⟩, s, hs⟩

theorem reachable_iff (h : Inv digest checks directories b)
    (hfree : (Directory.merkle digest checks).CollisionFree directories)
    (hexternals : b.graph.externals = [rootIdx]) (i : ℕ) :
    b.graph.Reachable rootIdx i ↔ i < b.graph.nodeCount := by
  constructor
  · intro hreach
    induction hreach with
    | refl =>
      have hroot : rootIdx ∈ b.graph.externals := by
        rw [hexternals]
        exact List.mem_singleton_self rootIdx
      exact (DiGraph.mem_externals.mp hroot).1
    | tail _ hedge _ =>
      obtain ⟨-, d, -, hd, -⟩ := h.mem_edges.mp hedge
      exact (List.getElem?_eq_some_iff.mp hd).1
  · obtain ⟨rank, hrank⟩ := hfree.acyclic
    apply DiGraph.reachable_of_rank fun i => rank (digest (b.graph.nodes.getD i .new))
    intro i hi hne
    have hd := DirectoryGraph.getElem?_eq_getD hi
    obtain ⟨j, parent, hj, hedge, s, hs⟩ := h.exists_parent hexternals hd hne
    have hjlt : j < b.graph.nodeCount := (List.getElem?_eq_some_iff.mp hj).1
    have hparent : b.graph.nodes.getD j .new = parent :=
      Option.some.inj ((DirectoryGraph.getElem?_eq_getD hjlt).symm.trans hj)
    refine ⟨j, hjlt, hedge, ?_⟩
    have hlt := hrank parent ((h.mem_nodes parent).mp (List.mem_of_getElem? hj)) _ hs
    rw [← hparent] at hlt
    exact hlt

/-- The node that an entry leads to. -/
theorem exists_child (h : Inv digest checks directories b)
    (hclosed : (Directory.merkle digest checks).Closed directories) {i : ℕ} {d : Directory}
    (hd : b.graph.nodes[i]? = some d) {c : B3Digest × ℕ}
    (hc : c ∈ (Directory.merkle digest checks).refs d) :
    ∃ (j : ℕ) (child : Directory), b.graph.nodes[j]? = some child ∧ (i, j) ∈ b.graph.edges ∧
      digest child = c.1 ∧ child.size checks = some c.2 := by
  have hmem := (h.mem_nodes d).mp (List.mem_of_getElem? hd)
  obtain ⟨child, hchild, hkey, hsize⟩ := hclosed.2 c (Merkle.mem_claims.mpr ⟨d, hmem, hc⟩)
  have hkey' : digest child = c.1 := hkey
  obtain ⟨j, hj⟩ := List.mem_iff_getElem?.mp ((h.mem_nodes child).mpr hchild)
  refine ⟨j, child, hj, h.mem_edges.mpr ⟨d, child, hd, hj, c.2, ?_⟩, hkey', hsize⟩
  rw [hkey']
  exact hc

theorem valid (h : Inv digest checks directories b)
    (hfree : (Directory.merkle digest checks).CollisionFree directories)
    (hclosed : (Directory.merkle digest checks).Closed directories)
    (hexternals : b.graph.externals = [rootIdx]) :
    DirectoryGraph.Valid digest checks directories ⟨b.graph, rootIdx⟩ where
  nodup := h.nodup
  mem_nodes := h.mem_nodes
  closed _ _ hd _ _ _ hentry := h.exists_child hclosed hd (Directory.mem_refs hentry)
  externals := hexternals
  reachable := h.reachable_iff hfree hexternals

-- A traversal from the root: the indices it visits, and the directories it takes out
section

variable {order : List ℕ}

theorem takeAll_order (h : Inv digest checks directories b)
    (hfree : (Directory.merkle digest checks).CollisionFree directories)
    (hexternals : b.graph.externals = [rootIdx]) (hnodup : order.Nodup)
    (hmem : ∀ i, i ∈ order ↔ b.graph.Reachable rootIdx i) :
    DirectoryGraph.takeAll order b.graph.nodes =
      some (order.map fun i => b.graph.nodes.getD i .new) :=
  DirectoryGraph.takeAll_eq hnodup fun i hi =>
    (h.reachable_iff hfree hexternals i).mp ((hmem i).mp hi)

/-- Each directory is visited. -/
theorem mem_drained (h : Inv digest checks directories b)
    (hfree : (Directory.merkle digest checks).CollisionFree directories)
    (hexternals : b.graph.externals = [rootIdx])
    (hmem : ∀ i, i ∈ order ↔ b.graph.Reachable rootIdx i) (d : Directory) :
    d ∈ (order.map fun i => b.graph.nodes.getD i .new) ↔ d ∈ directories := by
  have hlt : ∀ i, i ∈ order ↔ i < b.graph.nodes.length := fun i =>
    (hmem i).trans (h.reachable_iff hfree hexternals i)
  rw [List.mem_map, ← h.mem_nodes d]
  constructor
  · rintro ⟨i, hi, rfl⟩
    exact List.mem_of_getElem? (DirectoryGraph.getElem?_eq_getD ((hlt i).mp hi))
  · intro hd
    obtain ⟨i, hi⟩ := List.mem_iff_getElem?.mp hd
    have hilt := (List.getElem?_eq_some_iff.mp hi).1
    refine ⟨i, (hlt i).mpr hilt, ?_⟩
    exact Option.some.inj ((DirectoryGraph.getElem?_eq_getD hilt).symm.trans hi)

/-- No directory comes twice. -/
theorem nodup_drained (h : Inv digest checks directories b)
    (hfree : (Directory.merkle digest checks).CollisionFree directories)
    (hexternals : b.graph.externals = [rootIdx]) (hnodup : order.Nodup)
    (hmem : ∀ i, i ∈ order ↔ b.graph.Reachable rootIdx i) :
    (order.map fun i => b.graph.nodes.getD i .new).Nodup := by
  have hget : ∀ i ∈ order, b.graph.nodes[i]? = some (b.graph.nodes.getD i .new) := fun i hi =>
    DirectoryGraph.getElem?_eq_getD ((h.reachable_iff hfree hexternals i).mp ((hmem i).mp hi))
  refine List.Nodup.map_on ?_ hnodup
  intro i hi j hj heq
  exact h.idx_unique (hget i hi) (hget j hj) (congrArg digest heq)

/-- A post-order is accepted from the leaves to the root. -/
theorem bottomUp_drained (h : Inv digest checks directories b)
    (hfree : (Directory.merkle digest checks).CollisionFree directories)
    (hclosed : (Directory.merkle digest checks).Closed directories)
    (hexternals : b.graph.externals = [rootIdx]) (horder : b.graph.IsPostOrder rootIdx order) :
    (Directory.merkle digest checks).BottomUp
      (order.map fun i => b.graph.nodes.getD i .new) := by
  have hmem := h.mem_drained hfree hexternals horder.mem_iff
  refine Merkle.bottomUp_of_closed hclosed hfree (fun d hd => (hmem d).mp hd) (along_map ?_)
  refine horder.follows.mono ?_
  intro before i after heq hbefore c hc
  have hi : i ∈ order := heq ▸ List.mem_append_right before List.mem_cons_self
  have hd := DirectoryGraph.getElem?_eq_getD
    ((h.reachable_iff hfree hexternals i).mp ((horder.mem_iff i).mp hi))
  obtain ⟨j, child, hj, hedge, hkey, -⟩ := h.exists_child hclosed hd hc
  have hchild : b.graph.nodes.getD j .new = child :=
    Option.some.inj ((DirectoryGraph.getElem?_eq_getD
      (List.getElem?_eq_some_iff.mp hj).1).symm.trans hj)
  exact ⟨child, List.mem_map.mpr ⟨j, hbefore j hedge, hchild⟩, hkey⟩

/-- Edges lead from directories to what they contain, so there are no cycles. -/
theorem acyclic (h : Inv digest checks directories b)
    (hfree : (Directory.merkle digest checks).CollisionFree directories) : b.graph.Acyclic := by
  obtain ⟨rank, hrank⟩ := hfree.acyclic
  refine ⟨fun i => rank (digest (b.graph.nodes.getD i .new)), ?_⟩
  intro i j hedge
  obtain ⟨parent, child, hparent, hchild, s, hs⟩ := h.mem_edges.mp hedge
  have hlt := hrank parent ((h.mem_nodes parent).mp (List.mem_of_getElem? hparent)) _ hs
  dsimp only
  rw [List.getD_eq_getElem?_getD, List.getD_eq_getElem?_getD, hparent, hchild]
  exact hlt

/-- A search from the root is accepted from the root to the leaves. -/
theorem rooted_drained (h : Inv digest checks directories b) {root : Directory}
    (hroot : b.graph.nodes[rootIdx]? = some root) (horder : b.graph.IsSearch rootIdx order) :
    (Directory.merkle digest checks).Rooted (digest root)
      (order.map fun i => b.graph.nodes.getD i .new) := by
  have hget : ∀ {i : ℕ} {d : Directory}, b.graph.nodes[i]? = some d →
      b.graph.nodes.getD i .new = d := fun hd =>
    Option.some.inj ((DirectoryGraph.getElem?_eq_getD
      (List.getElem?_eq_some_iff.mp hd).1).symm.trans hd)
  refine along_map (horder.follows.mono ?_)
  rintro before i after - (rfl | ⟨j, hj, hedge⟩)
  · exact .inl (congrArg digest (hget hroot))
  · obtain ⟨parent, d, hparent, hd, s, hs⟩ := h.mem_edges.mp hedge
    refine .inr ⟨s, Merkle.mem_claims.mpr ⟨parent, List.mem_map.mpr ⟨j, hj, hget hparent⟩, ?_⟩⟩
    rw [hget hd]
    exact hs

end

end Inv

/-- What is known of a graph that was built. -/
theorem of_build {b₀ : DirectoryGraphBuilder} {debug : Bool} {g : DirectoryGraph}
    (hfree : (Directory.merkle digest checks).CollisionFree directories)
    (hb₀ : b₀ = newLeavesToRoot ∨ ∃ rootDigest, b₀ = newRootToLeaves rootDigest)
    (hok : (b₀.insertAll digest checks directories >>= build digest debug) = .ok g) :
    ∃ b, Inv digest checks directories b ∧ g.graph = b.graph ∧
      (Directory.merkle digest checks).Closed directories ∧ g.graph.externals = [g.rootIdx] := by
  cases hrun : b₀.insertAll digest checks directories with
  | error e =>
    rw [hrun] at hok
    cases hok
  | ok b =>
    rw [hrun] at hok
    have hbuild : b.build digest debug = .ok g := hok
    unfold build at hbuild
    refine ⟨b, ?_⟩
    rcases hb₀ with rfl | ⟨rootDigest, rfl⟩
    · obtain ⟨-, hinv⟩ := (decides_leavesToRoot hfree).inv_of_run inv_newLeavesToRoot hrun
      rw [hinv.order] at hbuild
      dsimp only at hbuild
      split at hbuild
      · cases hbuild
      · next rootIdx hexternals =>
        cases hbuild
        exact ⟨hinv.toInv, rfl, hinv.closed, hexternals⟩
      · split at hbuild <;> cases hbuild
    · obtain ⟨hconnected, hinv⟩ :=
        (decides_rootToLeaves hfree).inv_of_run inv_newRootToLeaves hrun
      have hcomplete := (build_rootToLeaves hinv hfree hconnected debug).mp ⟨g, hok⟩
      have hroot := fun k => Merkle.Connected.root_iff (k := k) hconnected hfree hcomplete
      rw [hinv.order] at hbuild
      dsimp only at hbuild
      split_ifs at hbuild with hcount
      cases hbuild
      have hlt : 0 < b.graph.nodes.length := Nat.pos_of_ne_zero hcount
      have hfirst : b.graph.nodes[0]? = some b.graph.nodes[0] := List.getElem?_eq_getElem hlt
      have hmem : 0 ∈ b.graph.externals :=
        hinv.mem_externals.mpr ⟨_, hfirst, (hroot _).mpr (hinv.first _ hfirst)⟩
      have hone : b.graph.externals.length = 1 := hinv.externals_length_eq_one.mpr
        ⟨rootDigest, (hroot _).mpr rfl, fun k hk => (hroot k).mp hk⟩
      obtain ⟨i, hi⟩ := List.length_eq_one_iff.mp hone
      rw [hi, List.mem_singleton] at hmem
      refine ⟨hinv.toInv, rfl, Merkle.Connected.closed hconnected hcomplete, ?_⟩
      rw [hi, hmem]

/-- The root of a graph that was built is the one that no other directory contains. -/
theorem root_of_build {b₀ : DirectoryGraphBuilder} {debug : Bool} {g : DirectoryGraph}
    (hfree : (Directory.merkle digest checks).CollisionFree directories)
    (hb₀ : b₀ = newLeavesToRoot ∨ ∃ rootDigest, b₀ = newRootToLeaves rootDigest)
    (hok : (b₀.insertAll digest checks directories >>= build digest debug) = .ok g) :
    (Directory.merkle digest checks).UniqueRoot directories ∧
      ∃ root, g.root = some root ∧ (Directory.merkle digest checks).Root directories (digest root) := by
  obtain ⟨b, hinv, hgraph, -, hexternals⟩ := of_build hfree hb₀ hok
  rw [hgraph] at hexternals
  have hunique := hinv.externals_length_eq_one.mp (by rw [hexternals]; rfl)
  obtain ⟨root, hroot, hRoot⟩ := hinv.mem_externals.mp
    (hexternals.symm ▸ List.mem_singleton_self g.rootIdx)
  refine ⟨hunique, root, ?_, hRoot⟩
  unfold DirectoryGraph.root
  rw [hgraph]
  exact hroot

/-- Draining in post-order gives every directory once, after those it contains. -/
theorem drain_leavesToRoot {b₀ : DirectoryGraphBuilder} {debug : Bool} {g : DirectoryGraph}
    (bfs dfsPostOrder : DiGraph Directory → ℕ → List ℕ)
    (hfree : (Directory.merkle digest checks).CollisionFree directories)
    (hb₀ : b₀ = newLeavesToRoot ∨ ∃ rootDigest, b₀ = newRootToLeaves rootDigest)
    (hok : (b₀.insertAll digest checks directories >>= build digest debug) = .ok g)
    (hdfs : g.graph.Acyclic → g.graph.IsPostOrder g.rootIdx (dfsPostOrder g.graph g.rootIdx)) :
    ∃ out, g.drain bfs dfsPostOrder .leavesToRoot = some out ∧ out.Nodup ∧
      (∀ d, d ∈ out ↔ d ∈ directories) ∧ (Directory.merkle digest checks).BottomUp out := by
  obtain ⟨b, hinv, hgraph, hclosed, hexternals⟩ := of_build hfree hb₀ hok
  obtain ⟨graph, rootIdx⟩ := g
  obtain rfl : graph = b.graph := hgraph
  have hexternals' : b.graph.externals = [rootIdx] := hexternals
  have hdfs' : b.graph.IsPostOrder rootIdx (dfsPostOrder b.graph rootIdx) := hdfs (hinv.acyclic hfree)
  exact ⟨_, hinv.takeAll_order hfree hexternals' hdfs'.nodup hdfs'.mem_iff,
    hinv.nodup_drained hfree hexternals' hdfs'.nodup hdfs'.mem_iff,
    hinv.mem_drained hfree hexternals' hdfs'.mem_iff,
    hinv.bottomUp_drained hfree hclosed hexternals' hdfs'⟩

/-- A graph that was built, in either order, has all directories, is closed, and has one root from
    which all others are reached. Draining it gives every directory once, in an order that the
    validator for that order accepts. -/
theorem drain_valid (digest : Directory → B3Digest) (checks debug : Bool)
    (bfs dfsPostOrder : DiGraph Directory → ℕ → List ℕ) (b₀ : DirectoryGraphBuilder)
    (hb₀ : b₀ = newLeavesToRoot ∨ ∃ rootDigest, b₀ = newRootToLeaves rootDigest)
    (directories : List Directory)
    (hfree : (Directory.merkle digest checks).CollisionFree directories) (g : DirectoryGraph)
    (hok : (b₀.insertAll digest checks directories >>= build digest debug) = .ok g)
    (hbfs : g.graph.IsSearch g.rootIdx (bfs g.graph g.rootIdx))
    (hdfs : g.graph.IsPostOrder g.rootIdx (dfsPostOrder g.graph g.rootIdx)) :
    g.Valid digest checks directories ∧
      (∃ out, g.drain bfs dfsPostOrder .leavesToRoot = some out ∧ out.Nodup ∧
        (∀ d, d ∈ out ↔ d ∈ directories) ∧
        ∃ u, (LeavesToRootValidator.acceptAll digest checks out >>=
          LeavesToRootValidator.finalize debug) = .ok u) ∧
      ∃ out root, g.drain bfs dfsPostOrder .rootToLeaves = some out ∧ g.root = some root ∧
        out.Nodup ∧ (∀ d, d ∈ out ↔ d ∈ directories) ∧
        ∃ u, (RootToLeavesValidator.acceptAll digest checks (digest root) out >>=
          RootToLeavesValidator.finalize) = .ok u := by
  obtain ⟨b, hinv, hgraph, hclosed, hexternals⟩ := of_build hfree hb₀ hok
  obtain ⟨graph, rootIdx⟩ := g
  obtain rfl : graph = b.graph := hgraph
  have hexternals' : b.graph.externals = [rootIdx] := hexternals
  have hunique : (Directory.merkle digest checks).UniqueRoot directories :=
    hinv.externals_length_eq_one.mp (by rw [hexternals']; rfl)
  refine ⟨hinv.valid hfree hclosed hexternals', ?_, ?_⟩
  · obtain ⟨out, hdrain, hnodup, hmem, hbottomUp⟩ :=
      drain_leavesToRoot bfs dfsPostOrder hfree hb₀ hok fun _ => hdfs
    have hsub : out ⊆ directories := fun d hd => (hmem d).mp hd
    have hsub' : directories ⊆ out := fun d hd => (hmem d).mpr hd
    refine ⟨out, hdrain, hnodup, hmem, ?_⟩
    rw [LeavesToRootValidator.accepts_iff (hfree.of_subset hsub)]
    refine ⟨hbottomUp, ?_⟩
    obtain ⟨k, hk, hk'⟩ := hunique
    exact ⟨k, (Merkle.root_congr hsub hsub').mpr hk,
      fun k' hroot => hk' k' ((Merkle.root_congr hsub hsub').mp hroot)⟩
  · have hmem := hinv.mem_drained hfree hexternals' hbfs.mem_iff
    have hsub : (_ : List Directory) ⊆ directories := fun d hd => (hmem d).mp hd
    have hsub' : directories ⊆ _ := fun d hd => (hmem d).mpr hd
    obtain ⟨root, hroot, hhas, -⟩ := hinv.mem_externals.mp
      (hexternals'.symm ▸ List.mem_singleton_self rootIdx)
    refine ⟨_, root, hinv.takeAll_order hfree hexternals' hbfs.nodup hbfs.mem_iff, hroot,
      hinv.nodup_drained hfree hexternals' hbfs.nodup hbfs.mem_iff, hmem, ?_⟩
    rw [RootToLeavesValidator.accepts_iff (hfree.of_subset hsub)]
    refine ⟨Merkle.topDown_of_closed hclosed hfree hsub (hinv.rooted_drained hroot hbfs), ?_⟩
    rintro k (rfl | hclaimed)
    · exact hhas.of_subset hsub'
    · exact (hclosed.has_of_claimed (hclaimed.of_subset hsub)).of_subset hsub'

/-- The graph of two directories, and the traversals of it. -/
def graphTwo : DirectoryGraph := ⟨⟨[DIRECTORY_A, DIRECTORY_B], [(1, 0)]⟩, 1⟩

theorem graphTwo_reachable (i : ℕ) : graphTwo.graph.Reachable 1 i ↔ i = 1 ∨ i = 0 := by
  constructor
  · intro h
    cases h with
    | refl => exact .inl rfl
    | tail _ hedge =>
      cases List.mem_singleton.mp hedge
      exact .inr rfl
  · rintro (rfl | rfl)
    · exact .refl
    · exact .single (List.mem_singleton_self (1, 0))

theorem drain_valid_two :
    (newLeavesToRoot.insertAll fixtureDigest true [DIRECTORY_A, DIRECTORY_B] >>=
      build fixtureDigest true) = .ok graphTwo ∧
    graphTwo.Valid fixtureDigest true [DIRECTORY_A, DIRECTORY_B] := by
  refine ⟨rfl, (drain_valid fixtureDigest true true (fun _ _ => [1, 0]) (fun _ _ => [0, 1])
    newLeavesToRoot (.inl rfl) _ (collisionFree_b true) graphTwo rfl ?_ ?_).1⟩
  · refine ⟨by decide, fun i => ?_, ?_⟩
    · rw [List.mem_pair]
      exact (graphTwo_reachable i).symm
    · refine (along_concat (l := [1]) (a := 0)).mpr
        ⟨(along_concat (l := []) (a := 1)).mpr ⟨along_nil, .inl rfl⟩, .inr ⟨1, ?_⟩⟩
      exact ⟨List.mem_singleton_self 1, List.mem_singleton_self (1, 0)⟩
  · refine ⟨by decide, fun i => ?_, ?_⟩
    · rw [List.mem_pair, or_comm]
      exact (graphTwo_reachable i).symm
    · refine (along_concat (l := [0]) (a := 1)).mpr
        ⟨(along_concat (l := []) (a := 0)).mpr ⟨along_nil, ?_⟩, ?_⟩
      · intro j hj
        cases List.mem_singleton.mp hj
      · intro j hj
        cases List.mem_singleton.mp hj
        exact List.mem_singleton_self 0

end DirectoryGraphBuilder

end Snix.Castore
