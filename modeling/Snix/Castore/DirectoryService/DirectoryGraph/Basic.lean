import Snix.Castore.DirectoryService.OrderValidator
import Snix.Lib.DiGraph

/-!
# Graphs of directories

A builder receives the directories of a closure in one of two orders and builds the
graph of them, with an edge for every entry that is a directory. From the root down,
an entry can come before the directory it points to: the builder then keeps the edge
for later.

## Main definitions

- `DirectoryGraph`, `DirectoryGraphBuilder` with `tryInsert` and `build`
- `Records` — what a builder has recorded, in terms of nodes and references
- `Inv` — the records are those of the directories so far

## Main results

- `addChildren_sound`, `addChildren_complete` — one directory
- `Inv.mem_edges`, `Inv.externals_length_eq_one` — edges and roots of the graph
-/

namespace Snix.Castore

inductive DirectoryOrder where
  | rootToLeaves
  | leavesToRoot
  deriving DecidableEq

structure DirectoryGraph where
  graph : DiGraph Directory
  rootIdx : ℕ

/-- A builder. `rtlEdgesTodo` has the size and the parents of every directory that is referred to
    and not there yet. -/
structure DirectoryGraphBuilder where
  insertionOrder : DirectoryOrder
  graph : DiGraph Directory
  digestToNodeIdxSize : DigestMap (ℕ × ℕ)
  rtlEdgesTodo : DigestMap (ℕ × List ℕ)
  expRootDigest : Option B3Digest

namespace DirectoryGraphBuilder

def newLeavesToRoot : DirectoryGraphBuilder := ⟨.leavesToRoot, .empty, ∅, ∅, none⟩

def newRootToLeaves (rootDigest : B3Digest) : DirectoryGraphBuilder :=
  ⟨.rootToLeaves, .empty, ∅, ∅, some rootDigest⟩

section

variable (digest : Directory → B3Digest) (checks : Bool)

/-- Adds a node. -/
def addDirectory (directory : Directory) (directorySize : ℕ) (b : DirectoryGraphBuilder) :
    DirectoryGraphBuilder :=
  { b with
    graph := b.graph.addNode directory
    digestToNodeIdxSize :=
      b.digestToNodeIdxSize.insert (digest directory) (b.graph.nodeCount, directorySize) }

/-- Connects a directory that was just added, as node `nodeIdx`, to the ones that refer to it. -/
def connect (directory : Directory) (nodeIdx directorySize : ℕ) (b : DirectoryGraphBuilder) :
    Except Fault DirectoryGraphBuilder :=
  if b.graph.nodeCount = 1 then
    match b.expRootDigest with
    | none => .error (.panic "exp_root_digest to be some")
    | some expRootDigest =>
      if digest directory ≠ expRootDigest then .error (.error (.unexpected directory))
      else .ok { b with expRootDigest := none }
  else
    match b.rtlEdgesTodo.lookup (digest directory) with
    | some (size, srcIdxs) =>
      if size ≠ directorySize then .error (.error (.wrongSize (digest directory) size))
      else
        .ok { b with
          rtlEdgesTodo := b.rtlEdgesTodo.erase (digest directory)
          graph := srcIdxs.foldl (fun g srcIdx => g.addEdge srcIdx nodeIdx) b.graph }
    | none => .error (.error (.unexpected directory))

/-- Draws the edge for one entry of a directory, or keeps it for later. -/
def addChild (directory : Directory) (nodeIdx : ℕ) (b : DirectoryGraphBuilder)
    (out : B3Digest × ℕ) : Except Fault DirectoryGraphBuilder :=
  match b.insertionOrder with
  | .rootToLeaves =>
    match b.digestToNodeIdxSize.lookup out.1 with
    | some (outNodeIdx, seenDirSize) =>
      if seenDirSize ≠ out.2 then .error (.error (.wrongSize out.1 out.2))
      else .ok { b with graph := b.graph.addEdge nodeIdx outNodeIdx }
    | none =>
      match b.rtlEdgesTodo.lookup out.1 with
      | some (size, srcIdxs) =>
        if size ≠ out.2 then .error (.error (.wrongSize out.1 size))
        else
          .ok { b with rtlEdgesTodo := b.rtlEdgesTodo.insert out.1 (size, srcIdxs ++ [nodeIdx]) }
      | none => .ok { b with rtlEdgesTodo := b.rtlEdgesTodo.insert out.1 (out.2, [nodeIdx]) }
  | .leavesToRoot =>
    match b.digestToNodeIdxSize.lookup out.1 with
    | some (outNodeIdx, seenDirSize) =>
      if seenDirSize ≠ out.2 then .error (.error (.wrongSize out.1 out.2))
      else .ok { b with graph := b.graph.addEdge nodeIdx outNodeIdx }
    | none =>
      match directory.children.find? fun child => child.2.1 = out.1 with
      | some child => .error (.error (.unknownLTR out.1 (digest directory) child.1))
      | none => .error (.panic "PathComponent not found")

def tryInsert (b : DirectoryGraphBuilder) (directory : Directory) :
    Except Fault DirectoryGraphBuilder := do
  let directorySize ← directory.sizeOrPanic checks
  match b.digestToNodeIdxSize.lookup (digest directory) with
  -- received multiple times
  | some _ => .ok b
  | none =>
    let nodeIdx := b.graph.nodeCount
    let b := b.addDirectory digest directory directorySize
    let b ← match b.insertionOrder with
      | .rootToLeaves => connect digest directory nodeIdx directorySize b
      | .leavesToRoot => .ok b
    (directory.children.map Prod.snd).foldlM (addChild digest directory nodeIdx) b

/-- The graph, when everything is there. The check of the number of roots from the root down is
    there with debug assertions only. -/
def build (debug : Bool) (b : DirectoryGraphBuilder) : Except Fault DirectoryGraph :=
  match b.insertionOrder with
  | .rootToLeaves =>
    if b.graph.nodeCount = 0 then .error (.error .emptySet)
    else if b.rtlEdgesTodo.entries ≠ [] then
      .error (.error (.directoriesMissing b.rtlEdgesTodo.keys.toFinset))
    else if debug ∧ b.graph.externals.length ≠ 1 then .error (.panic "one incoming")
    else .ok ⟨b.graph, 0⟩
  | .leavesToRoot =>
    match b.graph.externals with
    | [] => .error (.error .emptySet)
    | [rootIdx] => .ok ⟨b.graph, rootIdx⟩
    | incomings =>
      match incomings.mapM b.graph.nodeWeight with
      | none => .error (.panic "Snix bug: node not found")
      | some roots => .error (.error (.directoriesMissing (roots.map digest).toFinset))

/-- Inserts all directories of a sequence. -/
def insertAll (b : DirectoryGraphBuilder) (directories : List Directory) :
    Except Fault DirectoryGraphBuilder :=
  directories.foldlM (tryInsert digest checks) b

end

-- ====================
-- Claims that are recorded in the graph
-- ====================

/-- What the builder has recorded: `held` is the digest and the size of every node, and `claims`
    are the references it has seen so far, with the node they come from. -/
structure Records (held : List (B3Digest × ℕ)) (claims : List (ℕ × B3Digest × ℕ))
    (known : DigestMap (ℕ × ℕ)) (edges : List (ℕ × ℕ)) (todo : DigestMap (ℕ × List ℕ)) : Prop where
  known_iff : ∀ k i s, known.lookup k = some (i, s) ↔ held[i]? = some (k, s)
  edge_iff : ∀ i j, (i, j) ∈ edges ↔ ∃ k s t, (i, k, s) ∈ claims ∧ held[j]? = some (k, t)
  todo_new : ∀ k s srcs, todo.lookup k = some (s, srcs) → ∀ t, (k, t) ∉ held
  todo_ne_nil : ∀ k s srcs, todo.lookup k = some (s, srcs) → srcs ≠ []
  todo_iff : ∀ k s srcs, todo.lookup k = some (s, srcs) →
    ∀ i t, (i, k, t) ∈ claims ↔ t = s ∧ i ∈ srcs
  todo_none : ∀ k, todo.lookup k = none → ∀ i s, (i, k, s) ∈ claims → ∃ t, (k, t) ∈ held
  right : ∀ i k s t, (i, k, s) ∈ claims → (k, t) ∈ held → s = t

/-- The claims agree with each other and with what is there. -/
def Agree (held : List (B3Digest × ℕ)) (claims : List (ℕ × B3Digest × ℕ)) : Prop :=
  (∀ i j k s t, (i, k, s) ∈ claims → (j, k, t) ∈ claims → s = t) ∧
    ∀ i k s t, (i, k, s) ∈ claims → (k, t) ∈ held → s = t

namespace Records

variable {held : List (B3Digest × ℕ)} {claims : List (ℕ × B3Digest × ℕ)}
  {known : DigestMap (ℕ × ℕ)} {edges : List (ℕ × ℕ)} {todo : DigestMap (ℕ × List ℕ)}
  {k : B3Digest} {s n : ℕ}

theorem nil : Records [] [] ∅ [] ∅ where
  known_iff k i s := by simp
  edge_iff i j := by simp
  todo_new k s srcs h := nomatch h
  todo_ne_nil k s srcs h := nomatch h
  todo_iff k s srcs h := nomatch h
  todo_none k _ i s h := nomatch h
  right i k s t h := nomatch h

theorem agree (h : Records held claims known edges todo) : Agree held claims := by
  refine ⟨?_, h.right⟩
  intro i j k s t hs ht
  cases htodo : todo.lookup k with
  | some entry => rw [((h.todo_iff k _ _ htodo i s).mp hs).1, ((h.todo_iff k _ _ htodo j t).mp ht).1]
  | none =>
    obtain ⟨u, hu⟩ := h.todo_none k htodo i s hs
    rw [h.right i k s u hs hu, h.right j k t u ht hu]

theorem known_none (h : Records held claims known edges todo) :
    known.lookup k = none ↔ ∀ t, (k, t) ∉ held := by
  constructor
  · intro hnone t ht
    obtain ⟨i, hi⟩ := List.mem_iff_getElem?.mp ht
    rw [(h.known_iff k i t).mpr hi] at hnone
    cases hnone
  · intro hnot
    cases hk : known.lookup k with
    | none => rfl
    | some entry =>
      have hi := (h.known_iff k entry.1 entry.2).mp hk
      exact absurd (List.mem_of_getElem? hi) (hnot entry.2)

/-- A digest belongs to one node only. -/
theorem idx_unique (h : Records held claims known edges todo) {i j t : ℕ}
    (hi : held[i]? = some (k, s)) (hj : held[j]? = some (k, t)) : i = j ∧ s = t := by
  have hk := (h.known_iff k i s).mpr hi
  rw [(h.known_iff k j t).mpr hj] at hk
  cases hk
  exact ⟨rfl, rfl⟩

/-- A node whose digest is new, with edges from those that refer to it. -/
theorem addNode (h : Records held claims known edges todo) (hnew : ∀ t, (k, t) ∉ held)
    {srcs : List ℕ} (hsrcs : ∀ i, i ∈ srcs ↔ ∃ t, (i, k, t) ∈ claims)
    (hsize : ∀ i t, (i, k, t) ∈ claims → t = s) {todo' : DigestMap (ℕ × List ℕ)}
    (hk : todo'.lookup k = none) (hne : ∀ k', k' ≠ k → todo'.lookup k' = todo.lookup k') :
    Records (held ++ [(k, s)]) claims (known.insert k (held.length, s))
      (edges ++ srcs.map fun src => (src, held.length)) todo' := by
  have hmem : ∀ k' t, (k', t) ∈ held ++ [(k, s)] ↔ (k', t) ∈ held ∨ k' = k ∧ t = s := by
    simp only [List.mem_append, List.mem_singleton, Prod.mk.injEq, implies_true]
  have hget : ∀ i k' t, (held ++ [(k, s)])[i]? = some (k', t) ↔
      held[i]? = some (k', t) ∨ i = held.length ∧ k' = k ∧ t = s := by
    intro i k' t
    rw [List.getElem?_append]
    split_ifs with hi
    · exact (or_iff_left fun h => absurd hi (by omega)).symm
    · rw [List.getElem?_eq_none (Nat.le_of_not_lt hi), List.getElem?_singleton]
      split_ifs with hzero
      · simp only [Option.some.injEq, Prod.mk.injEq, false_or]
        constructor
        · rintro ⟨rfl, rfl⟩
          exact ⟨by omega, rfl, rfl⟩
        · rintro ⟨-, rfl, rfl⟩
          exact ⟨rfl, rfl⟩
      · simp only [false_or, false_iff]
        rintro ⟨rfl, -⟩
        exact hzero (Nat.sub_self _)
  constructor
  · intro k' i t
    rw [hget]
    by_cases heq : k' = k
    · subst heq
      rw [AList.lookup_insert, Option.some.injEq, Prod.mk.injEq]
      constructor
      · rintro ⟨rfl, rfl⟩
        exact .inr ⟨rfl, rfl, rfl⟩
      · rintro (hi | ⟨rfl, -, rfl⟩)
        · exact absurd (List.mem_of_getElem? hi) (hnew t)
        · exact ⟨rfl, rfl⟩
    · rw [AList.lookup_insert_ne heq, h.known_iff]
      exact (or_iff_left fun h => heq h.2.1).symm
  · intro i j
    simp only [List.mem_append, h.edge_iff, List.mem_map, Prod.mk.injEq, hget]
    constructor
    · rintro (⟨k', t, u, hc, hj⟩ | ⟨src, hsrc, rfl, rfl⟩)
      · exact ⟨k', t, u, hc, .inl hj⟩
      · obtain ⟨t, ht⟩ := (hsrcs src).mp hsrc
        exact ⟨k, t, s, ht, .inr ⟨rfl, rfl, rfl⟩⟩
    · rintro ⟨k', t, u, hc, hj | ⟨rfl, rfl, rfl⟩⟩
      · exact .inl ⟨k', t, u, hc, hj⟩
      · exact .inr ⟨i, (hsrcs i).mpr ⟨t, hc⟩, rfl, rfl⟩
  · intro k' t srcs' htodo u hu
    have heq : k' ≠ k := by
      rintro rfl
      rw [hk] at htodo
      cases htodo
    rw [hne k' heq] at htodo
    rcases (hmem k' u).mp hu with hu | ⟨rfl, -⟩
    · exact h.todo_new k' t srcs' htodo u hu
    · exact heq rfl
  · intro k' t srcs' htodo
    have heq : k' ≠ k := by
      rintro rfl
      rw [hk] at htodo
      cases htodo
    rw [hne k' heq] at htodo
    exact h.todo_ne_nil k' t srcs' htodo
  · intro k' t srcs' htodo
    have heq : k' ≠ k := by
      rintro rfl
      rw [hk] at htodo
      cases htodo
    rw [hne k' heq] at htodo
    exact h.todo_iff k' t srcs' htodo
  · intro k' htodo i t hc
    by_cases heq : k' = k
    · exact ⟨s, (hmem k' s).mpr (.inr ⟨heq, rfl⟩)⟩
    · rw [hne k' heq] at htodo
      obtain ⟨u, hu⟩ := h.todo_none k' htodo i t hc
      exact ⟨u, (hmem k' u).mpr (.inl hu)⟩
  · intro i k' t u hc hu
    rcases (hmem k' u).mp hu with hu | ⟨rfl, rfl⟩
    · exact h.right i k' t u hc hu
    · exact hsize i t hc

/-- A reference to a node that is there, with an edge. -/
theorem addEdge (h : Records held claims known edges todo) {j : ℕ}
    (hj : held[j]? = some (k, s)) :
    Records held (claims ++ [(n, k, s)]) known (edges ++ [(n, j)]) todo := by
  have hmem : ∀ i k' t, (i, k', t) ∈ claims ++ [(n, k, s)] ↔
      (i, k', t) ∈ claims ∨ i = n ∧ k' = k ∧ t = s := by
    simp only [List.mem_append, List.mem_singleton, Prod.mk.injEq, implies_true]
  have hheld : (k, s) ∈ held := List.mem_of_getElem? hj
  constructor
  · exact h.known_iff
  · intro i j'
    simp only [List.mem_append, h.edge_iff, hmem, List.mem_singleton, Prod.mk.injEq]
    constructor
    · rintro (⟨k', t, u, hc, hj'⟩ | ⟨rfl, rfl⟩)
      · exact ⟨k', t, u, .inl hc, hj'⟩
      · exact ⟨k, s, s, .inr ⟨rfl, rfl, rfl⟩, hj⟩
    · rintro ⟨k', t, u, hc | ⟨rfl, rfl, rfl⟩, hj'⟩
      · exact .inl ⟨k', t, u, hc, hj'⟩
      · exact .inr ⟨rfl, (h.idx_unique hj' hj).1⟩
  · exact h.todo_new
  · exact h.todo_ne_nil
  · intro k' t srcs htodo i u
    rw [hmem, ← h.todo_iff k' t srcs htodo i u]
    refine or_iff_left ?_
    rintro ⟨-, rfl, -⟩
    exact h.todo_new k' t srcs htodo s hheld
  · intro k' htodo i t hc
    rcases (hmem i k' t).mp hc with hc | ⟨-, rfl, -⟩
    · exact h.todo_none k' htodo i t hc
    · exact ⟨s, hheld⟩
  · intro i k' t u hc hu
    rcases (hmem i k' t).mp hc with hc | ⟨-, rfl, rfl⟩
    · exact h.right i k' t u hc hu
    · obtain ⟨j', hj'⟩ := List.mem_iff_getElem?.mp hu
      exact (h.idx_unique hj hj').2

/-- A reference to a directory that is not there yet is kept for later. -/
theorem addTodo (h : Records held claims known edges todo) (hnew : ∀ t, (k, t) ∉ held)
    (srcs : List ℕ) (hsrcs : ∀ i t, (i, k, t) ∈ claims ↔ t = s ∧ i ∈ srcs) :
    Records held (claims ++ [(n, k, s)]) known edges (todo.insert k (s, srcs ++ [n])) := by
  have hmem : ∀ i k' t, (i, k', t) ∈ claims ++ [(n, k, s)] ↔
      (i, k', t) ∈ claims ∨ i = n ∧ k' = k ∧ t = s := by
    simp only [List.mem_append, List.mem_singleton, Prod.mk.injEq, implies_true]
  have hcases : ∀ {k' t srcs'}, (todo.insert k (s, srcs ++ [n])).lookup k' = some (t, srcs') →
      k' = k ∧ t = s ∧ srcs' = srcs ++ [n] ∨ k' ≠ k ∧ todo.lookup k' = some (t, srcs') := by
    intro k' t srcs' htodo
    by_cases heq : k' = k
    · subst heq
      rw [AList.lookup_insert] at htodo
      cases htodo
      exact .inl ⟨rfl, rfl, rfl⟩
    · rw [AList.lookup_insert_ne heq] at htodo
      exact .inr ⟨heq, htodo⟩
  constructor
  · exact h.known_iff
  · intro i j
    simp only [h.edge_iff, hmem]
    constructor
    · rintro ⟨k', t, u, hc, hj⟩
      exact ⟨k', t, u, .inl hc, hj⟩
    · rintro ⟨k', t, u, hc | ⟨-, rfl, -⟩, hj⟩
      · exact ⟨k', t, u, hc, hj⟩
      · exact absurd (List.mem_of_getElem? hj) (hnew u)
  · intro k' t srcs' htodo
    rcases hcases htodo with ⟨rfl, -, -⟩ | ⟨-, htodo⟩
    · exact hnew
    · exact h.todo_new k' t srcs' htodo
  · intro k' t srcs' htodo
    rcases hcases htodo with ⟨-, -, rfl⟩ | ⟨-, htodo⟩
    · exact List.append_ne_nil_of_right_ne_nil srcs (List.cons_ne_nil n [])
    · exact h.todo_ne_nil k' t srcs' htodo
  · intro k' t srcs' htodo i u
    rw [hmem]
    rcases hcases htodo with ⟨rfl, rfl, rfl⟩ | ⟨heq, htodo⟩
    · rw [hsrcs, List.mem_append, List.mem_singleton]
      tauto
    · rw [h.todo_iff k' t srcs' htodo i u]
      exact or_iff_left fun hc => heq hc.2.1
  · intro k' htodo i t hc
    have heq : k' ≠ k := by
      rintro rfl
      rw [AList.lookup_insert] at htodo
      cases htodo
    rw [AList.lookup_insert_ne heq] at htodo
    rcases (hmem i k' t).mp hc with hc | ⟨-, rfl, -⟩
    · exact h.todo_none k' htodo i t hc
    · exact absurd rfl heq
  · intro i k' t u hc hu
    rcases (hmem i k' t).mp hc with hc | ⟨-, rfl, -⟩
    · exact h.right i k' t u hc hu
    · exact absurd hu (hnew u)

end Records

-- ====================
-- One directory
-- ====================

/-- A builder with these records. -/
def HasRecords (held : List (B3Digest × ℕ)) (claims : List (ℕ × B3Digest × ℕ))
    (b : DirectoryGraphBuilder) : Prop :=
  Records held claims b.digestToNodeIdxSize b.graph.edges b.rtlEdgesTodo

/-- Builders that differ in what they record only. -/
structure SameNodes (b b' : DirectoryGraphBuilder) : Prop where
  order : b'.insertionOrder = b.insertionOrder
  nodes : b'.graph.nodes = b.graph.nodes
  root : b'.expRootDigest = b.expRootDigest

theorem SameNodes.trans {b b' b'' : DirectoryGraphBuilder} (h : SameNodes b b')
    (h' : SameNodes b' b'') : SameNodes b b'' :=
  ⟨h'.order.trans h.order, h'.nodes.trans h.nodes, h'.root.trans h.root⟩

section

variable {digest : Directory → B3Digest} {checks : Bool} {directory : Directory} {n : ℕ}
  {held : List (B3Digest × ℕ)} {claims : List (ℕ × B3Digest × ℕ)} {b b' : DirectoryGraphBuilder}
  {out : B3Digest × ℕ}

/-- A reference that is accepted is recorded. From the leaves, it is to a directory that is there. -/
theorem addChild_sound (h : HasRecords held claims b)
    (hok : addChild digest directory n b out = .ok b') :
    HasRecords held (claims ++ [(n, out)]) b' ∧ SameNodes b b' ∧
      (b.insertionOrder = .leavesToRoot → out ∈ held) := by
  -- an edge to a node that is there is drawn in the same way in both orders
  have hedge : ∀ entry : ℕ × ℕ, b.digestToNodeIdxSize.lookup out.1 = some entry →
      entry.2 = out.2 →
      HasRecords held (claims ++ [(n, out)]) { b with graph := b.graph.addEdge n entry.1 } ∧
        out ∈ held := by
    intro entry hentry hsize
    have hget : held[entry.1]? = some (out.1, out.2) :=
      (h.known_iff out.1 entry.1 out.2).mp (hsize ▸ hentry)
    exact ⟨h.addEdge hget, List.mem_of_getElem? hget⟩
  unfold addChild at hok
  cases horder : b.insertionOrder with
  | rootToLeaves =>
    rw [horder] at hok
    dsimp only at hok
    split at hok
    · next outNodeIdx seenDirSize hentry =>
      split_ifs at hok with hsize
      cases hok
      refine ⟨(hedge _ hentry (Classical.not_not.mp hsize)).1, ⟨horder.symm, rfl, rfl⟩, ?_⟩
      rintro ⟨⟩
    · next hentry =>
      have hnew := h.known_none.mp hentry
      split at hok
      · next size srcIdxs htodo =>
        split_ifs at hok with hsize
        cases hok
        obtain rfl := Classical.not_not.mp hsize
        refine ⟨h.addTodo hnew _ (h.todo_iff out.1 _ _ htodo), ⟨horder.symm, rfl, rfl⟩, ?_⟩
        rintro ⟨⟩
      · next htodo =>
        cases hok
        refine ⟨h.addTodo hnew [] ?_, ⟨horder.symm, rfl, rfl⟩, ?_⟩
        · intro i t
          refine iff_of_false ?_ fun hnil => List.not_mem_nil hnil.2
          intro hc
          obtain ⟨u, hu⟩ := h.todo_none out.1 htodo i t hc
          exact hnew u hu
        · rintro ⟨⟩
  | leavesToRoot =>
    rw [horder] at hok
    dsimp only at hok
    split at hok
    · next outNodeIdx seenDirSize hentry =>
      split_ifs at hok with hsize
      cases hok
      obtain ⟨hrecords, hheld⟩ := hedge _ hentry (Classical.not_not.mp hsize)
      exact ⟨hrecords, ⟨horder.symm, rfl, rfl⟩, fun _ => hheld⟩
    · split at hok <;> cases hok

theorem addChild_complete (h : HasRecords held claims b)
    (hrtl : b.insertionOrder = .rootToLeaves → Agree held (claims ++ [(n, out)]))
    (hltr : b.insertionOrder = .leavesToRoot → out ∈ held) :
    ∃ b', addChild digest directory n b out = .ok b' := by
  unfold addChild
  cases horder : b.insertionOrder with
  | rootToLeaves =>
    have hagree := hrtl horder
    have hout : (n, out.1, out.2) ∈ claims ++ [(n, out)] :=
      List.mem_append_right claims (List.mem_singleton_self _)
    dsimp only
    cases hentry : b.digestToNodeIdxSize.lookup out.1 with
    | some entry =>
      have hget := (h.known_iff out.1 entry.1 entry.2).mp hentry
      have hsize := hagree.2 n out.1 out.2 entry.2 hout (List.mem_of_getElem? hget)
      exact ⟨_, if_neg (Classical.not_not.mpr hsize.symm)⟩
    | none =>
      cases htodo : b.rtlEdgesTodo.lookup out.1 with
      | none => exact ⟨_, rfl⟩
      | some entry =>
        obtain ⟨src, hsrc⟩ := List.exists_mem_of_ne_nil _ (h.todo_ne_nil out.1 _ _ htodo)
        have hc := (h.todo_iff out.1 _ _ htodo src entry.1).mpr ⟨rfl, hsrc⟩
        have hsize := hagree.1 n src out.1 out.2 entry.1 hout (List.mem_append_left _ hc)
        exact ⟨_, if_neg (Classical.not_not.mpr hsize.symm)⟩
  | leavesToRoot =>
    obtain ⟨i, hi⟩ := List.mem_iff_getElem?.mp (hltr horder)
    dsimp only
    rw [(h.known_iff out.1 i out.2).mpr hi]
    exact ⟨_, if_neg (Classical.not_not.mpr rfl)⟩

/-- All references from a directory. -/
theorem addChildren_sound {outs : List (B3Digest × ℕ)} (h : HasRecords held claims b)
    (hok : outs.foldlM (addChild digest directory n) b = .ok b') :
    HasRecords held (claims ++ outs.map fun out => (n, out)) b' ∧ SameNodes b b' ∧
      (b.insertionOrder = .leavesToRoot → ∀ out ∈ outs, out ∈ held) := by
  induction outs generalizing b claims with
  | nil =>
    cases hok
    refine ⟨?_, ⟨rfl, rfl, rfl⟩, fun _ out hout => absurd hout List.not_mem_nil⟩
    rw [List.map_nil, List.append_nil]
    exact h
  | cons out outs ih =>
    rw [List.foldlM_cons] at hok
    cases hstep : addChild digest directory n b out with
    | error e =>
      rw [hstep] at hok
      cases hok
    | ok b₁ =>
      rw [hstep] at hok
      obtain ⟨h₁, hsame, hheld⟩ := addChild_sound h hstep
      obtain ⟨h₂, hsame', hheld'⟩ := ih h₁ hok
      rw [List.append_assoc] at h₂
      refine ⟨h₂, hsame.trans hsame', ?_⟩
      intro horder out' hout'
      rcases List.mem_cons.mp hout' with rfl | hout'
      · exact hheld horder
      · exact hheld' (hsame.order.trans horder) out' hout'

theorem Agree.of_subset {claims' : List (ℕ × B3Digest × ℕ)} (h : Agree held claims')
    (hsub : claims ⊆ claims') : Agree held claims :=
  ⟨fun i j k s t hs ht => h.1 i j k s t (hsub hs) (hsub ht),
    fun i k s t hs ht => h.2 i k s t (hsub hs) ht⟩

theorem addChildren_complete {outs : List (B3Digest × ℕ)} (h : HasRecords held claims b)
    (hrtl : b.insertionOrder = .rootToLeaves →
      Agree held (claims ++ outs.map fun out => (n, out)))
    (hltr : b.insertionOrder = .leavesToRoot → ∀ out ∈ outs, out ∈ held) :
    ∃ b', outs.foldlM (addChild digest directory n) b = .ok b' := by
  induction outs generalizing b claims with
  | nil => exact ⟨b, rfl⟩
  | cons out outs ih =>
    have hsub : claims ++ [(n, out)] ⊆ claims ++ (out :: outs).map fun out => (n, out) := by
      rw [List.map_cons, List.append_cons claims (n, out) (outs.map _)]
      exact List.subset_append_left _ _
    obtain ⟨b₁, hstep⟩ : ∃ b₁, addChild digest directory n b out = .ok b₁ := addChild_complete h
      (fun horder => (hrtl horder).of_subset hsub)
      (fun horder => hltr horder out List.mem_cons_self)
    obtain ⟨h₁, hsame, -⟩ := addChild_sound h hstep
    rw [List.foldlM_cons, hstep]
    apply ih h₁
    · intro horder
      rw [List.append_assoc]
      exact hrtl (hsame.order.symm.trans horder)
    · intro horder out' hout'
      exact hltr (hsame.order.symm.trans horder) out' (List.mem_cons_of_mem out hout')

end

-- ====================
-- What is in the graph
-- ====================

/-- The digests and sizes of nodes. -/
def heldBy (digest : Directory → B3Digest) (checks : Bool) (nodes : List Directory) :
    List (B3Digest × ℕ) :=
  nodes.map fun d => (digest d, (d.size checks).getD 0)

/-- The references from nodes, with the index they come from. -/
def claimsBy (nodes : List Directory) : List (ℕ × B3Digest × ℕ) :=
  nodes.zipIdx.flatMap fun e => (e.1.children.map Prod.snd).map fun out => (e.2, out)

/-- The builder has recorded the directories so far, each of them once. -/
structure Inv (digest : Directory → B3Digest) (checks : Bool) (before : List Directory)
    (b : DirectoryGraphBuilder) : Prop where
  records : HasRecords (heldBy digest checks b.graph.nodes) (claimsBy b.graph.nodes) b
  mem_nodes : ∀ d, d ∈ b.graph.nodes ↔ d ∈ before
  sized : ∀ d ∈ before, ∃ s, d.size checks = some s

variable {digest : Directory → B3Digest} {checks : Bool}

theorem heldBy_concat {nodes : List Directory} {d : Directory} {s : ℕ}
    (hs : d.size checks = some s) :
    heldBy digest checks (nodes ++ [d]) = heldBy digest checks nodes ++ [(digest d, s)] := by
  simp only [heldBy, List.map_append, List.map_cons, List.map_nil, hs, Option.getD_some]

theorem length_heldBy (nodes : List Directory) :
    (heldBy digest checks nodes).length = nodes.length := List.length_map _

theorem getElem?_heldBy {nodes : List Directory} {i : ℕ} {d : Directory}
    (h : nodes[i]? = some d) :
    (heldBy digest checks nodes)[i]? = some (digest d, (d.size checks).getD 0) := by
  rw [heldBy, List.getElem?_map, h, Option.map_some]

theorem claimsBy_concat (nodes : List Directory) (d : Directory) :
    claimsBy (nodes ++ [d]) =
      claimsBy nodes ++ (d.children.map Prod.snd).map fun out => (nodes.length, out) := by
  simp only [claimsBy, List.zipIdx_append, List.flatMap_append, Nat.zero_add, List.zipIdx_cons,
    List.zipIdx_nil, List.flatMap_cons, List.flatMap_nil, List.append_nil]

theorem mem_claimsBy {nodes : List Directory} {i : ℕ} {out : B3Digest × ℕ} :
    (i, out) ∈ claimsBy nodes ↔
      ∃ d, nodes[i]? = some d ∧ out ∈ (Directory.merkle digest checks).refs d := by
  simp only [claimsBy, List.mem_flatMap, Directory.merkle]
  constructor
  · rintro ⟨⟨d, j⟩, hd, hout⟩
    obtain ⟨out', hout', heq⟩ := List.mem_map.mp hout
    cases heq
    exact ⟨d, List.mem_zipIdx_iff_getElem?.mp hd, hout'⟩
  · rintro ⟨d, hd, hout⟩
    exact ⟨(d, i), List.mem_zipIdx_iff_getElem?.mpr hd, List.mem_map.mpr ⟨out, hout, rfl⟩⟩

section

variable {nodes before : List Directory} {k : B3Digest} {s : ℕ}

theorem mem_heldBy (hmem : ∀ d, d ∈ nodes ↔ d ∈ before)
    (hsized : ∀ d ∈ before, ∃ s, d.size checks = some s) :
    (k, s) ∈ heldBy digest checks nodes ↔ (Directory.merkle digest checks).Held before k s := by
  unfold heldBy
  rw [List.mem_map]
  constructor
  · rintro ⟨d, hd, heq⟩
    cases heq
    have hd' := (hmem d).mp hd
    obtain ⟨t, ht⟩ := hsized d hd'
    exact ⟨d, hd', rfl, ht.trans (congrArg some (by rw [ht, Option.getD_some]))⟩
  · rintro ⟨d, hd, rfl, hs⟩
    have hs' : d.size checks = some s := hs
    refine ⟨d, (hmem d).mpr hd, ?_⟩
    rw [hs', Option.getD_some]
    rfl

theorem exists_mem_claimsBy (hmem : ∀ d, d ∈ nodes ↔ d ∈ before) {out : B3Digest × ℕ} :
    (∃ i, (i, out) ∈ claimsBy nodes) ↔ out ∈ (Directory.merkle digest checks).claims before := by
  simp only [@mem_claimsBy digest checks, Merkle.mem_claims]
  constructor
  · rintro ⟨i, d, hd, hout⟩
    exact ⟨d, (hmem d).mp (List.mem_of_getElem? hd), hout⟩
  · rintro ⟨d, hd, hout⟩
    obtain ⟨i, hi⟩ := List.mem_iff_getElem?.mp ((hmem d).mpr hd)
    exact ⟨i, d, hi, hout⟩

/-- The recorded claims agree if those of the directories do. -/
theorem agree_iff_consistent (hmem : ∀ d, d ∈ nodes ↔ d ∈ before)
    (hsized : ∀ d ∈ before, ∃ s, d.size checks = some s) :
    Agree (heldBy digest checks nodes) (claimsBy nodes) ↔
      (Directory.merkle digest checks).Consistent before := by
  have hclaims : ∀ {out : B3Digest × ℕ}, (∃ i, (i, out) ∈ claimsBy nodes) ↔
      out ∈ (Directory.merkle digest checks).claims before := exists_mem_claimsBy hmem
  constructor
  · rintro ⟨hagree, hheld⟩
    constructor
    · intro k s t hs ht
      obtain ⟨i, hi⟩ := hclaims.mpr hs
      obtain ⟨j, hj⟩ := hclaims.mpr ht
      exact hagree i j k s t hi hj
    · rintro d hd ⟨k, s⟩ hc rfl
      obtain ⟨i, hi⟩ := hclaims.mpr hc
      obtain ⟨t, ht⟩ := hsized d hd
      have hst := hheld i _ s t hi ((mem_heldBy hmem hsized).mpr ⟨d, hd, rfl, ht⟩)
      exact ht.trans (congrArg some hst.symm)
  · rintro ⟨hagree, hright⟩
    constructor
    · intro i j k s t hs ht
      exact hagree k s t (hclaims.mp ⟨i, hs⟩) (hclaims.mp ⟨j, ht⟩)
    · intro i k s t hs ht
      obtain ⟨d, hd, hkey, hsize⟩ := (mem_heldBy hmem hsized).mp ht
      have hsize' := hright d hd (k, s) (hclaims.mp ⟨i, hs⟩) hkey.symm
      exact Option.some.inj (hsize'.symm.trans hsize)

end

namespace Inv

variable {before : List Directory} {b b' : DirectoryGraphBuilder} {directory : Directory}
  {k : B3Digest} {s : ℕ}

theorem lookup_none_iff (h : Inv digest checks before b) :
    b.digestToNodeIdxSize.lookup k = none ↔ ¬(Directory.merkle digest checks).Has before k := by
  rw [h.records.known_none]
  simp only [mem_heldBy h.mem_nodes h.sized]
  constructor
  · rintro hnot ⟨d, hd, hkey⟩
    obtain ⟨t, ht⟩ := h.sized d hd
    exact hnot t ⟨d, hd, hkey, ht⟩
  · intro hnot t ht
    exact hnot ht.has

/-- A directory that is there already changes nothing. -/
theorem concat_of_mem (h : Inv digest checks before b) (hmem : directory ∈ before) :
    Inv digest checks (before ++ [directory]) b := by
  have hiff : ∀ d, d ∈ before ++ [directory] ↔ d ∈ before := by
    intro d
    rw [List.mem_append, List.mem_singleton]
    exact or_iff_left_of_imp fun hd => hd ▸ hmem
  refine ⟨h.records, fun d => (h.mem_nodes d).trans (hiff d).symm, ?_⟩
  intro d hd
  exact h.sized d ((hiff d).mp hd)

theorem mem_of_lookup (h : Inv digest checks before b) {directories : List Directory}
    (hfree : (Directory.merkle digest checks).CollisionFree directories)
    (hbefore : before ⊆ directories) (hdirectory : directory ∈ directories)
    (hlookup : b.digestToNodeIdxSize.lookup (digest directory) ≠ none) : directory ∈ before := by
  rw [Ne, h.lookup_none_iff, not_not] at hlookup
  obtain ⟨d, hd, hkey⟩ := hlookup
  obtain rfl := hfree.injective d (hbefore hd) directory hdirectory hkey
  exact hd

theorem mem_concat (h : Inv digest checks before b) :
    ∀ d, d ∈ b.graph.nodes ++ [directory] ↔ d ∈ before ++ [directory] := by
  intro d
  simp only [List.mem_append, h.mem_nodes]

theorem sized_concat (h : Inv digest checks before b) (hs : directory.size checks = some s) :
    ∀ d ∈ before ++ [directory], ∃ s, d.size checks = some s := by
  intro d hd
  rcases List.mem_append.mp hd with hd | hd
  · exact h.sized d hd
  · rw [List.mem_singleton.mp hd]
    exact ⟨s, hs⟩

/-- A node is added, connected to those that refer to it and then to those it refers to. -/
theorem concat (h : Inv digest checks before b) (hs : directory.size checks = some s)
    {b₁ : DirectoryGraphBuilder} (hnodes : b₁.graph.nodes = b.graph.nodes ++ [directory])
    (hrecords : HasRecords (heldBy digest checks b₁.graph.nodes) (claimsBy b.graph.nodes) b₁)
    (hok : (directory.children.map Prod.snd).foldlM
      (addChild digest directory b.graph.nodeCount) b₁ = .ok b') :
    Inv digest checks (before ++ [directory]) b' ∧ SameNodes b₁ b' ∧
      (b₁.insertionOrder = .leavesToRoot →
        ∀ out ∈ directory.children.map Prod.snd, out ∈ heldBy digest checks b₁.graph.nodes) := by
  obtain ⟨hrecords', hsame, hheld⟩ := addChildren_sound hrecords hok
  refine ⟨⟨?_, ?_, h.sized_concat hs⟩, hsame, hheld⟩
  · rw [hsame.nodes]
    nth_rw 2 [hnodes]
    rw [claimsBy_concat]
    exact hrecords'
  · rw [hsame.nodes, hnodes]
    exact h.mem_concat

/-- The new node has the recorded claims for its edges. -/
theorem records_addNode (h : Inv digest checks before b) (hs : directory.size checks = some s)
    (hnew : ¬(Directory.merkle digest checks).Has before (digest directory)) (srcs : List ℕ)
    (hsrcs : ∀ i, i ∈ srcs ↔ ∃ t, (i, digest directory, t) ∈ claimsBy b.graph.nodes)
    (hsize : ∀ i t, (i, digest directory, t) ∈ claimsBy b.graph.nodes → t = s)
    {todo : DigestMap (ℕ × List ℕ)} (hk : todo.lookup (digest directory) = none)
    (hne : ∀ k, k ≠ digest directory → todo.lookup k = b.rtlEdgesTodo.lookup k) :
    Records (heldBy digest checks (b.graph.nodes ++ [directory])) (claimsBy b.graph.nodes)
      (b.digestToNodeIdxSize.insert (digest directory) (b.graph.nodeCount, s))
      (b.graph.edges ++ srcs.map fun src => (src, b.graph.nodeCount)) todo := by
  have hheld : ∀ t, (digest directory, t) ∉ heldBy digest checks b.graph.nodes :=
    h.records.known_none.mp (h.lookup_none_iff.mpr hnew)
  have hrecords := h.records.addNode hheld hsrcs hsize hk hne
  rw [length_heldBy] at hrecords
  rw [heldBy_concat hs]
  exact hrecords

/-- Without references to it, a new node has no edges that come in. -/
theorem records_addDirectory (h : Inv digest checks before b)
    (hs : directory.size checks = some s)
    (hnew : ¬(Directory.merkle digest checks).Has before (digest directory))
    (hnot : ¬(Directory.merkle digest checks).Claimed before (digest directory)) :
    HasRecords (heldBy digest checks (b.addDirectory digest directory s).graph.nodes)
      (claimsBy b.graph.nodes) (b.addDirectory digest directory s) := by
  have hclaims : ∀ i t, (i, digest directory, t) ∉ claimsBy b.graph.nodes := by
    intro i t hi
    exact hnot ⟨t, (exists_mem_claimsBy h.mem_nodes).mp ⟨i, hi⟩⟩
  have htodo : b.rtlEdgesTodo.lookup (digest directory) = none := by
    cases htodo : b.rtlEdgesTodo.lookup (digest directory) with
    | none => rfl
    | some entry =>
      obtain ⟨src, hsrc⟩ := List.exists_mem_of_ne_nil _ (h.records.todo_ne_nil _ _ _ htodo)
      exact absurd ((h.records.todo_iff _ _ _ htodo src entry.1).mpr ⟨rfl, hsrc⟩) (hclaims _ _)
  have hrecords := h.records_addNode hs hnew []
    (fun i => iff_of_false List.not_mem_nil fun ⟨t, ht⟩ => hclaims i t ht)
    (fun i t hi => absurd hi (hclaims i t)) htodo (fun _ _ => rfl)
  rw [List.map_nil, List.append_nil] at hrecords
  exact hrecords

/-- A digest belongs to one node only. -/
theorem idx_unique (h : Inv digest checks before b) {i j : ℕ} {d d' : Directory}
    (hi : b.graph.nodes[i]? = some d) (hj : b.graph.nodes[j]? = some d')
    (hkey : digest d = digest d') : i = j := by
  have hi' : (heldBy digest checks b.graph.nodes)[i]? = some _ := getElem?_heldBy hi
  rw [hkey] at hi'
  exact (h.records.idx_unique hi' (getElem?_heldBy hj)).1

/-- The edges are the references between the directories. -/
theorem mem_edges (h : Inv digest checks before b) {i j : ℕ} :
    (i, j) ∈ b.graph.edges ↔ ∃ d d', b.graph.nodes[i]? = some d ∧ b.graph.nodes[j]? = some d' ∧
      ∃ s, (digest d', s) ∈ (Directory.merkle digest checks).refs d := by
  rw [h.records.edge_iff]
  constructor
  · rintro ⟨k, s, t, hc, hj⟩
    obtain ⟨d, hd, hs⟩ := (@mem_claimsBy digest checks _ _ _).mp hc
    rw [heldBy, List.getElem?_map, Option.map_eq_some_iff] at hj
    obtain ⟨d', hd', heq⟩ := hj
    cases heq
    exact ⟨d, d', hd, hd', s, hs⟩
  · rintro ⟨d, d', hd, hd', s, hs⟩
    exact ⟨digest d', s, _, mem_claimsBy.mpr ⟨d, hd, hs⟩, getElem?_heldBy hd'⟩

/-- The nodes without an edge that comes in are the directories without a parent. -/
theorem mem_externals (h : Inv digest checks before b) {i : ℕ} :
    i ∈ b.graph.externals ↔ ∃ d, b.graph.nodes[i]? = some d ∧
      (Directory.merkle digest checks).Root before (digest d) := by
  rw [DiGraph.mem_externals]
  constructor
  · rintro ⟨hlt, hnot⟩
    have hd : b.graph.nodes[i]? = some b.graph.nodes[i] := List.getElem?_eq_getElem hlt
    refine ⟨_, hd, ⟨_, (h.mem_nodes _).mp (List.mem_of_getElem? hd), rfl⟩, ?_⟩
    rintro ⟨s, hs⟩
    obtain ⟨d, hmem, hds⟩ := Merkle.mem_claims.mp hs
    obtain ⟨j, hj⟩ := List.mem_iff_getElem?.mp ((h.mem_nodes d).mpr hmem)
    exact hnot j (h.mem_edges.mpr ⟨d, _, hj, hd, s, hds⟩)
  · rintro ⟨d, hd, -, hnot⟩
    refine ⟨(List.getElem?_eq_some_iff.mp hd).1, ?_⟩
    intro j hj
    obtain ⟨d', d'', hd', hd'', s, hs⟩ := h.mem_edges.mp hj
    obtain rfl : d = d'' := Option.some.inj (hd.symm.trans hd'')
    have hmem := (h.mem_nodes d').mp (List.mem_of_getElem? hd')
    exact hnot ⟨s, Merkle.mem_claims.mpr ⟨d', hmem, hs⟩⟩

theorem externals_length_eq_one (h : Inv digest checks before b) :
    b.graph.externals.length = 1 ↔ (Directory.merkle digest checks).UniqueRoot before := by
  rw [DiGraph.externals_length_eq_one]
  constructor
  · rintro ⟨i, hi, hunique⟩
    obtain ⟨d, hd, hroot⟩ := h.mem_externals.mp hi
    refine ⟨digest d, hroot, ?_⟩
    intro k hk
    obtain ⟨d', hmem, rfl⟩ := hk.1
    obtain ⟨j, hj⟩ := List.mem_iff_getElem?.mp ((h.mem_nodes d').mpr hmem)
    obtain rfl := hunique j (h.mem_externals.mpr ⟨d', hj, hk⟩)
    cases hj.symm.trans hd
    rfl
  · rintro ⟨k, hk, hunique⟩
    obtain ⟨d, hmem, rfl⟩ := hk.1
    obtain ⟨i, hi⟩ := List.mem_iff_getElem?.mp ((h.mem_nodes d).mpr hmem)
    refine ⟨i, h.mem_externals.mpr ⟨d, hi, hk⟩, ?_⟩
    intro j hj
    obtain ⟨d', hj, hroot⟩ := h.mem_externals.mp hj
    exact h.idx_unique hj hi (hunique _ hroot)

end Inv

end DirectoryGraphBuilder

-- ====================
-- Some directories
-- ====================

theorem validateName_fixture_a : validateName [97] = .ok () := by rfl

theorem validateName_fixture_b : validateName [98] = .ok () := by rfl

def DIRECTORY_A_DIGEST : B3Digest :=
  ⟨[0xaf, 0x13, 0x49, 0xb9, 0xf5, 0xf9, 0xa1, 0xa6, 0xa0, 0x40, 0x4d, 0xea, 0x36, 0xdc, 0xc9, 0x49,
    0x9b, 0xcb, 0x25, 0xc9, 0xad, 0xc1, 0x12, 0xb7, 0xcc, 0x9a, 0x93, 0xca, 0xe4, 0x1f, 0x32, 0x62], rfl⟩

def DIRECTORY_B_DIGEST : B3Digest :=
  ⟨[0x87, 0x01, 0xf4, 0x72, 0x2d, 0x8d, 0xae, 0x7f, 0x2c, 0x40, 0xfa, 0x00, 0x33, 0x31, 0xb8, 0x43,
    0x7a, 0x38, 0x25, 0xf9, 0xe1, 0xbf, 0xd3, 0xa7, 0x79, 0x98, 0xc6, 0x4c, 0xc2, 0x26, 0xb9, 0xcc], rfl⟩

def DIRECTORY_TWO_SIZES_DIGEST : B3Digest :=
  ⟨[0x08, 0x8f, 0xf6, 0x71, 0x97, 0x95, 0xae, 0xd5, 0xa8, 0x26, 0x75, 0x5f, 0xca, 0x98, 0xce, 0x1d,
    0xa0, 0x52, 0x37, 0x5d, 0xec, 0xf3, 0xbd, 0xa1, 0xfc, 0x63, 0xd6, 0x8d, 0x93, 0xb6, 0x3e, 0xfa], rfl⟩

/-- The empty directory. -/
def DIRECTORY_A : Directory := .new

/-- A directory with the empty directory in it. -/
def DIRECTORY_B : Directory :=
  ⟨SortedMap.empty.insert ⟨[97], validateName_fixture_a⟩ (.directory DIRECTORY_A_DIGEST 0)⟩

/-- A directory with the empty directory in it twice, with two different sizes. -/
def DIRECTORY_TWO_SIZES : Directory :=
  ⟨(SortedMap.empty.insert ⟨[97], validateName_fixture_a⟩ (.directory DIRECTORY_A_DIGEST 5)).insert
    ⟨[98], validateName_fixture_b⟩ (.directory DIRECTORY_A_DIGEST 0)⟩

/-- The digests of these directories. -/
def fixtureDigest (d : Directory) : B3Digest :=
  match d.nodes.entries.length with
  | 0 => DIRECTORY_A_DIGEST
  | 1 => DIRECTORY_B_DIGEST
  | _ => DIRECTORY_TWO_SIZES_DIGEST

/-- Two directories, one of which refers to the other. -/
theorem collisionFree_fixture (checks : Bool) {d : Directory}
    (hne : fixtureDigest d ≠ DIRECTORY_A_DIGEST)
    (hrefs : ∀ c ∈ (Directory.merkle fixtureDigest checks).refs d, c.1 = DIRECTORY_A_DIGEST) :
    (Directory.merkle fixtureDigest checks).CollisionFree [DIRECTORY_A, d] where
  injective a ha b hb hkey := by
    rw [List.mem_pair] at ha hb
    rcases ha with rfl | rfl <;> rcases hb with rfl | rfl
    · rfl
    · exact absurd hkey.symm hne
    · exact absurd hkey hne
    · rfl
  acyclic := by
    refine ⟨fun k => if k = DIRECTORY_A_DIGEST then 0 else 1, ?_⟩
    intro a ha c hc
    rw [List.mem_pair] at ha
    rcases ha with rfl | rfl
    · cases hc
    · change (if c.1 = DIRECTORY_A_DIGEST then 0 else 1) <
        if fixtureDigest a = DIRECTORY_A_DIGEST then 0 else 1
      rw [if_pos (hrefs c hc), if_neg hne]
      exact Nat.one_pos

theorem collisionFree_b (checks : Bool) :
    (Directory.merkle fixtureDigest checks).CollisionFree [DIRECTORY_A, DIRECTORY_B] := by
  apply collisionFree_fixture checks (by decide)
  intro c hc
  cases List.mem_singleton.mp hc
  rfl

end Snix.Castore
