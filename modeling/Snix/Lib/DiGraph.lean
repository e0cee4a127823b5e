import Snix.Lib.Admission
import Mathlib.Data.Finset.Lattice.Fold
import Mathlib.Data.List.Nodup
import Mathlib.Data.List.Range
import Mathlib.Logic.Relation

/-!
# Directed graphs that grow

Nodes are numbered in the order in which they are added, edges are kept in a list,
and adding never changes the number of a node. The same edge can be there several
times.

## Main definitions

- `DiGraph` with `addNode`, `addEdge`, `nodeWeight`, `externals`
- `Reachable` — from one node to another along edges
- `IsSearch`, `IsPostOrder` — orders in which a traversal from a node visits the others
- `Acyclic`, `postOrder` — graphs without cycles, and a post-order of them

## Main results

- `mem_externals`, `externals_length_eq_one`
- `reachable_of_rank` — in a graph without cycles every node comes from one without predecessors
- `isPostOrder_postOrder`
-/

namespace Snix

/-- A directed graph with a weight for every node. -/
structure DiGraph (ν : Type) where
  nodes : List ν
  edges : List (ℕ × ℕ)

namespace DiGraph

variable {ν : Type}

def empty : DiGraph ν := ⟨[], []⟩

def nodeCount (g : DiGraph ν) : ℕ := g.nodes.length

/-- Adds a node; its index is the number of nodes before. -/
def addNode (g : DiGraph ν) (weight : ν) : DiGraph ν := { g with nodes := g.nodes ++ [weight] }

def addEdge (g : DiGraph ν) (a b : ℕ) : DiGraph ν := { g with edges := g.edges ++ [(a, b)] }

def nodeWeight (g : DiGraph ν) (i : ℕ) : Option ν := g.nodes[i]?

/-- The nodes without an edge that comes in. -/
def externals (g : DiGraph ν) : List ℕ :=
  (List.range g.nodeCount).filter fun i => g.edges.all fun e => e.2 != i

/-- From `a` to `b` along edges. -/
def Reachable (g : DiGraph ν) : ℕ → ℕ → Prop :=
  Relation.ReflTransGen fun a b => (a, b) ∈ g.edges

/-- An order in which a search from `root`, such as a breadth-first one, visits the nodes: each
    node that can be reached, once, and after a node with an edge to it. -/
structure IsSearch (g : DiGraph ν) (root : ℕ) (order : List ℕ) : Prop where
  nodup : order.Nodup
  mem_iff : ∀ i, i ∈ order ↔ g.Reachable root i
  follows : Along (fun before i => i = root ∨ ∃ j ∈ before, (j, i) ∈ g.edges) order

/-- A depth-first post-order: each node that can be reached, once, and after all nodes it has an
    edge to. -/
structure IsPostOrder (g : DiGraph ν) (root : ℕ) (order : List ℕ) : Prop where
  nodup : order.Nodup
  mem_iff : ∀ i, i ∈ order ↔ g.Reachable root i
  follows : Along (fun before i => ∀ j, (i, j) ∈ g.edges → j ∈ before) order

variable {g : DiGraph ν}

theorem mem_externals {i : ℕ} :
    i ∈ g.externals ↔ i < g.nodeCount ∧ ∀ j, (j, i) ∉ g.edges := by
  unfold externals
  rw [List.mem_filter, List.mem_range, List.all_eq_true]
  refine and_congr_right fun _ => ?_
  constructor
  · intro h j hj
    simpa using h (j, i) hj
  · rintro h ⟨j, i'⟩ he
    rw [bne_iff_ne]
    rintro rfl
    exact h j he

theorem nodup_externals : g.externals.Nodup := List.nodup_range.filter _

theorem externals_length_eq_one : g.externals.length = 1 ↔ ∃! i, i ∈ g.externals := by
  constructor
  · intro h
    obtain ⟨i, hi⟩ := List.length_eq_one_iff.mp h
    rw [hi]
    exact ⟨i, List.mem_singleton_self i, fun j hj => List.mem_singleton.mp hj⟩
  · rintro ⟨i, hi, hunique⟩
    rw [List.length_eq_one_iff]
    refine ⟨i, ?_⟩
    have hperm : g.externals.Perm [i] := by
      rw [List.perm_ext_iff_of_nodup nodup_externals (List.nodup_singleton i)]
      intro j
      rw [List.mem_singleton]
      exact ⟨hunique j, fun hj => hj ▸ hi⟩
    exact List.perm_singleton.mp hperm

theorem exists_mapM_nodeWeight {l : List ℕ} (h : ∀ i ∈ l, i < g.nodeCount) :
    ∃ weights, l.mapM g.nodeWeight = some weights := by
  induction l with
  | nil => exact ⟨[], rfl⟩
  | cons i l ih =>
    obtain ⟨weights, hweights⟩ := ih fun j hj => h j (List.mem_cons_of_mem i hj)
    have hlt : i < g.nodes.length := h i List.mem_cons_self
    have hi : g.nodeWeight i = some g.nodes[i] := List.getElem?_eq_getElem hlt
    exact ⟨_ :: weights, by rw [List.mapM_cons, hi, hweights]; rfl⟩

/-- Edges from a list of nodes. -/
theorem foldl_addEdge (srcs : List ℕ) (n : ℕ) :
    srcs.foldl (fun g src => g.addEdge src n) g =
      ⟨g.nodes, g.edges ++ srcs.map fun src => (src, n)⟩ := by
  induction srcs generalizing g with
  | nil => simp
  | cons src srcs ih =>
    rw [List.foldl_cons, ih]
    simp [addEdge]

/-- Going up against the edges ends at the root. -/
theorem reachable_of_rank {root : ℕ} (rank : ℕ → ℕ)
    (hup : ∀ i < g.nodeCount, i ≠ root →
      ∃ j < g.nodeCount, (j, i) ∈ g.edges ∧ rank i < rank j) {i : ℕ}
    (hi : i < g.nodeCount) : g.Reachable root i := by
  have hbound : ∀ i < g.nodeCount, rank i ≤ (Finset.range g.nodeCount).sup rank :=
    fun i hi => Finset.le_sup (Finset.mem_range.mpr hi)
  induction h : (Finset.range g.nodeCount).sup rank - rank i using Nat.strong_induction_on
    generalizing i with
  | _ n ih =>
    by_cases hroot : i = root
    · rw [hroot]
      exact Relation.ReflTransGen.refl
    · obtain ⟨j, hj, hedge, hlt⟩ := hup i hi hroot
      have hj' := hbound j hj
      exact (ih _ (by omega) hj rfl).tail hedge

/-- Every edge leads down. -/
def Acyclic (g : DiGraph ν) : Prop := ∃ rank : ℕ → ℕ, ∀ i j, (i, j) ∈ g.edges → rank j < rank i

def successors (g : DiGraph ν) (i : ℕ) : List ℕ :=
  g.edges.filterMap fun e => if e.1 = i then some e.2 else none

theorem mem_successors {i j : ℕ} : j ∈ g.successors i ↔ (i, j) ∈ g.edges := by
  unfold successors
  rw [List.mem_filterMap]
  constructor
  · rintro ⟨⟨a, b⟩, he, hab⟩
    split_ifs at hab with ha
    cases hab
    subst ha
    exact he
  · intro he
    exact ⟨(i, j), he, if_pos rfl⟩

/-- Visits a node after its successors, unless it was visited before. The number bounds how deep
    the search goes. -/
def visit (g : DiGraph ν) : ℕ → List ℕ → ℕ → List ℕ
  | 0, done, _ => done
  | n + 1, done, i =>
    if i ∈ done then done else (g.successors i).foldl (visit g n) done ++ [i]

/-- A post-order of the nodes that can be reached. -/
def postOrder (g : DiGraph ν) (root : ℕ) : List ℕ := g.visit (g.edges.length + 1) [] root

/-- A graph without cycles is not deeper than the number of its edges. -/
theorem Acyclic.exists_height (h : g.Acyclic) :
    ∃ height : ℕ → ℕ, (∀ i j, (i, j) ∈ g.edges → height j < height i) ∧
      ∀ i, height i ≤ g.edges.length := by
  obtain ⟨rank, hrank⟩ := h
  refine ⟨fun i => (g.edges.filter fun e => rank e.1 ≤ rank i).length, ?_, fun i => List.length_filter_le _ _⟩
  intro i j he
  have hlt := hrank i j he
  -- the edge itself begins at the height of `i` and above that of `j`
  have hsub : (g.edges.filter fun e => rank e.1 ≤ rank j).Sublist
      (g.edges.filter fun e => rank e.1 ≤ rank i) := by
    apply List.monotone_filter_right
    intro e hle
    simp only [decide_eq_true_eq] at hle ⊢
    omega
  refine Nat.lt_of_le_of_ne hsub.length_le ?_
  intro hlen
  have hmem : (i, j) ∈ g.edges.filter fun e => rank e.1 ≤ rank i :=
    List.mem_filter.mpr ⟨he, by simp⟩
  rw [← hsub.eq_of_length hlen, List.mem_filter] at hmem
  simp only [decide_eq_true_eq] at hmem
  omega

/-- What a visit adds to the nodes that were visited: the node, after everything it leads to. -/
structure Visits (g : DiGraph ν) (done : List ℕ) (starts : List ℕ) (after : List ℕ) : Prop where
  subset : done ⊆ after
  mem : ∀ i ∈ starts, i ∈ after
  reached : ∀ k ∈ after, k ∈ done ∨ ∃ i ∈ starts, g.Reachable i k
  nodup : after.Nodup
  follows : Along (fun before i => ∀ j, (i, j) ∈ g.edges → j ∈ before) after

theorem visits_foldl {f : List ℕ → ℕ → List ℕ} {starts done : List ℕ} (hnodup : done.Nodup)
    (hfollows : Along (fun before i => ∀ j, (i, j) ∈ g.edges → j ∈ before) done)
    (hf : ∀ i ∈ starts, ∀ done : List ℕ, done.Nodup →
      Along (fun before i => ∀ j, (i, j) ∈ g.edges → j ∈ before) done →
        g.Visits done [i] (f done i)) :
    g.Visits done starts (starts.foldl f done) := by
  induction starts generalizing done with
  | nil =>
    refine ⟨List.Subset.refl done, ?_, fun k hk => .inl hk, hnodup, hfollows⟩
    intro i hi
    cases hi
  | cons i starts ih =>
    have hi := hf i List.mem_cons_self done hnodup hfollows
    have hrest := ih hi.nodup hi.follows fun k hk => hf k (List.mem_cons_of_mem i hk)
    refine ⟨fun k hk => hrest.subset (hi.subset hk), ?_, ?_, hrest.nodup, hrest.follows⟩
    · intro k hk
      rcases List.mem_cons.mp hk with rfl | hk
      · exact hrest.subset (hi.mem k (List.mem_singleton_self k))
      · exact hrest.mem k hk
    · intro k hk
      rcases hrest.reached k hk with hk | ⟨s, hs, hreach⟩
      · rcases hi.reached k hk with hk | ⟨s, hs, hreach⟩
        · exact .inl hk
        · rw [List.mem_singleton] at hs
          subst hs
          exact .inr ⟨s, List.mem_cons_self, hreach⟩
      · exact .inr ⟨s, List.mem_cons_of_mem i hs, hreach⟩

theorem height_le_of_reachable {height : ℕ → ℕ}
    (hheight : ∀ i j, (i, j) ∈ g.edges → height j < height i) {i k : ℕ} (h : g.Reachable i k) :
    height k ≤ height i := by
  induction h with
  | refl => exact le_rfl
  | tail _ hedge ih => exact (hheight _ _ hedge).le.trans ih

theorem visits_visit {height : ℕ → ℕ} (hheight : ∀ i j, (i, j) ∈ g.edges → height j < height i)
    {n : ℕ} {done : List ℕ} {i : ℕ} (hn : height i < n) (hnodup : done.Nodup)
    (hfollows : Along (fun before i => ∀ j, (i, j) ∈ g.edges → j ∈ before) done) :
    g.Visits done [i] (g.visit n done i) := by
  induction n generalizing done i with
  | zero => cases hn
  | succ n ih =>
    unfold visit
    split_ifs with hmem
    · refine ⟨List.Subset.refl done, ?_, fun k hk => .inl hk, hnodup, hfollows⟩
      intro k hk
      rw [List.mem_singleton.mp hk]
      exact hmem
    · have hchildren : g.Visits done (g.successors i) ((g.successors i).foldl (g.visit n) done) := by
        apply visits_foldl hnodup hfollows
        intro j hj done' hnodup' hfollows'
        have hlt := hheight i j (mem_successors.mp hj)
        exact ih (by omega) hnodup' hfollows'
      have hnot : i ∉ (g.successors i).foldl (g.visit n) done := by
        intro hi
        rcases hchildren.reached i hi with hi | ⟨j, hj, hreach⟩
        · exact hmem hi
        · have hlt := hheight i j (mem_successors.mp hj)
          have hle := height_le_of_reachable hheight hreach
          omega
      refine ⟨fun k hk => List.mem_append_left _ (hchildren.subset hk), ?_, ?_, ?_, ?_⟩
      · intro k hk
        exact List.mem_append_right _ hk
      · intro k hk
        rcases List.mem_append.mp hk with hk | hk
        · rcases hchildren.reached k hk with hk | ⟨j, hj, hreach⟩
          · exact .inl hk
          · exact .inr ⟨i, List.mem_singleton_self i, hreach.head (mem_successors.mp hj)⟩
        · rw [List.mem_singleton.mp hk]
          exact .inr ⟨i, List.mem_singleton_self i, .refl⟩
      · rw [← List.concat_eq_append]
        exact List.Nodup.concat hnot hchildren.nodup
      · refine along_concat.mpr ⟨hchildren.follows, ?_⟩
        intro j hj
        exact hchildren.mem j (mem_successors.mpr hj)

theorem isPostOrder_postOrder (h : g.Acyclic) (root : ℕ) : g.IsPostOrder root (g.postOrder root) := by
  obtain ⟨height, hheight, hle⟩ := h.exists_height
  have hvisits : g.Visits [] [root] (g.postOrder root) :=
    visits_visit hheight (Nat.lt_succ_of_le (hle root)) List.nodup_nil along_nil
  refine ⟨hvisits.nodup, ?_, hvisits.follows⟩
  intro k
  constructor
  · intro hk
    rcases hvisits.reached k hk with hk | ⟨i, hi, hreach⟩
    · cases hk
    · rw [List.mem_singleton.mp hi] at hreach
      exact hreach
  · intro hreach
    induction hreach with
    | refl => exact hvisits.mem root (List.mem_singleton_self root)
    | tail _ hedge ih =>
      obtain ⟨before, after, hsplit⟩ := List.append_of_mem ih
      have hbefore := hvisits.follows before _ after hsplit _ hedge
      rw [hsplit]
      exact List.mem_append_left _ hbefore

/-- Nothing comes before what it has an edge to. -/
theorem IsPostOrder.pairwise {root : ℕ} {order : List ℕ} (h : g.IsPostOrder root order) :
    order.Pairwise fun i j => (i, j) ∉ g.edges := by
  obtain ⟨hnodup, -, hfollows⟩ := h
  induction order using List.reverseRecOn with
  | nil => exact List.Pairwise.nil
  | append_singleton l j ih =>
    rw [along_concat] at hfollows
    rw [List.pairwise_append]
    have hnot : j ∉ l := by
      intro hmem
      exact (List.nodup_append.mp hnodup).2.2 j hmem j (List.mem_singleton_self j) rfl
    refine ⟨ih hnodup.of_append_left hfollows.1, List.pairwise_singleton _ _, ?_⟩
    intro i hi k hk hedge
    rw [List.mem_singleton.mp hk] at hedge
    obtain ⟨before, after, rfl⟩ := List.append_of_mem hi
    exact hnot (List.mem_append_left _ (hfollows.1 before i after rfl j hedge))

/-- Backwards, a post-order is a search. -/
theorem IsPostOrder.isSearch_reverse {root : ℕ} {order : List ℕ} (h : g.IsPostOrder root order) :
    g.IsSearch root order.reverse where
  nodup := List.nodup_reverse.mpr h.nodup
  mem_iff i := by rw [List.mem_reverse, h.mem_iff]
  follows := by
    intro before i after hsplit
    have horder : order = after.reverse ++ i :: before.reverse := by
      rw [← List.reverse_reverse order, hsplit, List.reverse_append, List.reverse_cons,
        List.append_assoc, List.singleton_append]
    have hi : g.Reachable root i := by
      rw [← h.mem_iff, horder]
      exact List.mem_append_right _ List.mem_cons_self
    rcases Relation.ReflTransGen.cases_tail hi with heq | ⟨j, hj, hedge⟩
    · exact .inl heq
    · refine .inr ⟨j, ?_, hedge⟩
      rw [← List.mem_reverse]
      have hj' : j ∈ order := (h.mem_iff j).mpr hj
      rw [horder, List.mem_append, List.mem_cons] at hj'
      have hpairwise := h.pairwise
      have hnodup := h.nodup
      rw [horder] at hpairwise hnodup
      rcases hj' with hafter | rfl | hbefore
      · exact absurd hedge
          ((List.pairwise_append.mp hpairwise).2.2 j hafter i List.mem_cons_self)
      · have hself := h.follows after.reverse j before.reverse horder j hedge
        exact absurd List.mem_cons_self ((List.nodup_append.mp hnodup).2.2 j hself j · rfl)
      · exact hbefore

end DiGraph

end Snix
