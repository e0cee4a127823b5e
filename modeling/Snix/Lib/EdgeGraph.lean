import Snix.Lib.DiGraph

/-!
# Directed graphs whose edges have indices

The edges are in an array, and an edge is removed by its index. The last edge then
moves to the place of the one that was removed, so it is the last index that is no
longer valid. The edges that go out of a node are listed by their indices, those
added last first.

Several edges are removed one after the other by the indices they had before. This
misses an edge that has moved in the meantime.

## Main definitions

- `EdgeGraph` with `addNode`, `setWeight`, `addEdge`, `removeEdge`, `edgesFrom`
- `removeEdges` — removes edges by the indices they had before
- `RemovableInOrder` — no edge moves before it is its turn

## Main results

- `mem_removeEdges` — all edges that go out of a node are removed, and no others
- `isolated_removeEdges_iff` — this is so exactly for edges that are removable in order
-/

namespace Snix

/-- A directed graph with a weight for every node, and its edges in an array. In `recent` are the
    indices of the edges, those added last first. -/
structure EdgeGraph (ν : Type) where
  nodes : List ν
  edges : List (ℕ × ℕ)
  recent : List ℕ
  nodup_recent : recent.Nodup
  mem_recent : ∀ i, i ∈ recent ↔ i < edges.length

namespace EdgeGraph

variable {ν : Type}

def empty : EdgeGraph ν := ⟨[], [], [], List.nodup_nil, fun i => by simp⟩

def nodeCount (g : EdgeGraph ν) : ℕ := g.nodes.length

def nodeWeight (g : EdgeGraph ν) (i : ℕ) : Option ν := g.nodes[i]?

/-- Adds a node; its index is the number of nodes before. -/
def addNode (g : EdgeGraph ν) (weight : ν) : EdgeGraph ν := { g with nodes := g.nodes ++ [weight] }

def setWeight (g : EdgeGraph ν) (i : ℕ) (weight : ν) : EdgeGraph ν :=
  { g with nodes := g.nodes.set i weight }

/-- Adds an edge; its index is the number of edges before. -/
def addEdge (g : EdgeGraph ν) (a b : ℕ) : EdgeGraph ν where
  nodes := g.nodes
  edges := g.edges ++ [(a, b)]
  recent := g.edges.length :: g.recent
  nodup_recent := List.nodup_cons.mpr ⟨fun h => Nat.lt_irrefl _ ((g.mem_recent _).mp h), g.nodup_recent⟩
  mem_recent i := by
    rw [List.mem_cons, g.mem_recent, List.length_append, List.length_singleton]
    omega

/-- The place of an edge when the edge at `i` is removed, if the last one is at `last`. -/
def moved (i last k : ℕ) : ℕ := if k = last then i else k

/-- Removes the edge at `i`, if there is one. The last edge takes its place. -/
def removeEdge (g : EdgeGraph ν) (i : ℕ) : EdgeGraph ν :=
  if h : i < g.edges.length then
    { nodes := g.nodes
      edges := (g.edges.set i (g.edges.get ⟨g.edges.length - 1, by omega⟩)).dropLast
      recent := (g.recent.erase i).map (moved i (g.edges.length - 1))
      nodup_recent := by
        refine (g.nodup_recent.erase i).map_on ?_
        intro k hk l hl hkl
        have hki := (g.nodup_recent.mem_erase_iff.mp hk).1
        have hli := (g.nodup_recent.mem_erase_iff.mp hl).1
        unfold moved at hkl
        split_ifs at hkl <;> omega
      mem_recent := by
        intro k
        simp only [List.mem_map, g.nodup_recent.mem_erase_iff, g.mem_recent, List.length_dropLast,
          List.length_set, moved]
        constructor
        · rintro ⟨l, ⟨hne, hlt⟩, rfl⟩
          split_ifs <;> omega
        · intro hk
          by_cases hki : k = i
          · refine ⟨g.edges.length - 1, ⟨?_, by omega⟩, ?_⟩
            · omega
            · rw [if_pos rfl, hki]
          · exact ⟨k, ⟨hki, by omega⟩, if_neg (by omega)⟩ }
  else g

/-- The indices of the edges that go out of a node. -/
def edgesFrom (g : EdgeGraph ν) (a : ℕ) : List ℕ :=
  g.recent.filter fun i => (g.edges[i]?.map Prod.fst) = some a

/-- Removes edges by the indices they had before. -/
def removeEdges (g : EdgeGraph ν) (indices : List ℕ) : EdgeGraph ν := indices.foldl removeEdge g

/-- The nodes and the edges. -/
def toDiGraph (g : EdgeGraph ν) : DiGraph ν := ⟨g.nodes, g.edges⟩

/-- Of `n` edges, those at these indices are removed one after the other, and none of them is the
    last one when another one is removed before it. -/
def RemovableInOrder : List ℕ → ℕ → Prop
  | [], _ => True
  | _ :: rest, n => n - 1 ∉ rest ∧ RemovableInOrder rest (n - 1)

instance decidableRemovableInOrder : ∀ indices n, Decidable (RemovableInOrder indices n)
  | [], _ => isTrue trivial
  | _ :: rest, n => @instDecidableAnd _ _ inferInstance (decidableRemovableInOrder rest (n - 1))

variable {g : EdgeGraph ν} {a i : ℕ} {indices : List ℕ}

@[simp] theorem nodeWeight_addEdge (g : EdgeGraph ν) (a b k : ℕ) :
    (g.addEdge a b).nodeWeight k = g.nodeWeight k := rfl

@[simp] theorem nodeCount_addEdge (g : EdgeGraph ν) (a b : ℕ) :
    (g.addEdge a b).nodeCount = g.nodeCount := rfl

theorem mem_edges_addEdge {e : ℕ × ℕ} {a b : ℕ} :
    e ∈ (g.addEdge a b).edges ↔ e ∈ g.edges ∨ e = (a, b) := List.mem_append.trans (by simp)

theorem nodeWeight_addNode (weight : ν) (k : ℕ) :
    (g.addNode weight).nodeWeight k = if k = g.nodeCount then some weight else g.nodeWeight k := by
  unfold addNode nodeWeight nodeCount
  rw [List.getElem?_append]
  by_cases hk : k < g.nodes.length
  · rw [if_pos hk, if_neg (Nat.ne_of_lt hk)]
  · rw [if_neg hk]
    by_cases heq : k = g.nodes.length
    · simp [heq]
    · have hlen : [weight].length ≤ k - g.nodes.length := by
        rw [List.length_singleton]
        omega
      rw [if_neg heq, List.getElem?_eq_none hlen, List.getElem?_eq_none (Nat.not_lt.mp hk)]

theorem nodeWeight_setWeight {weight old : ν} (h : g.nodeWeight i = some old) (k : ℕ) :
    (g.setWeight i weight).nodeWeight k = if k = i then some weight else g.nodeWeight k := by
  have hi : i < g.nodes.length := (List.getElem?_eq_some_iff.mp h).1
  unfold setWeight nodeWeight
  rw [List.getElem?_set]
  by_cases hk : k = i
  · rw [if_pos hk.symm, if_pos hi, if_pos hk]
  · rw [if_neg (Ne.symm hk), if_neg hk]

theorem nodup_edgesFrom : (g.edgesFrom a).Nodup := g.nodup_recent.filter _

theorem mem_edgesFrom : i ∈ g.edgesFrom a ↔ ∃ b, g.edges[i]? = some (a, b) := by
  unfold edgesFrom
  rw [List.mem_filter, g.mem_recent, decide_eq_true_eq, Option.map_eq_some_iff]
  constructor
  · rintro ⟨-, ⟨a', b⟩, hedge, rfl⟩
    exact ⟨b, hedge⟩
  · rintro ⟨b, hedge⟩
    exact ⟨(List.getElem?_eq_some_iff.mp hedge).1, (a, b), hedge, rfl⟩

@[simp] theorem nodes_removeEdge : (g.removeEdge i).nodes = g.nodes := by
  unfold removeEdge
  split_ifs <;> rfl

@[simp] theorem nodes_removeEdges : (g.removeEdges indices).nodes = g.nodes := by
  unfold removeEdges
  induction indices generalizing g with
  | nil => rfl
  | cons i rest ih => rw [List.foldl_cons, ih, nodes_removeEdge]

theorem removeEdge_of_le (h : g.edges.length ≤ i) : g.removeEdge i = g := by
  unfold removeEdge
  rw [dif_neg (Nat.not_lt.mpr h)]

theorem length_removeEdge (h : i < g.edges.length) :
    (g.removeEdge i).edges.length = g.edges.length - 1 := by
  unfold removeEdge
  rw [dif_pos h, List.length_dropLast, List.length_set]

/-- What is at an index after an edge was removed. -/
theorem getElem?_removeEdge (h : i < g.edges.length) (k : ℕ) :
    (g.removeEdge i).edges[k]? =
      if k < g.edges.length - 1 then
        if k = i then g.edges[g.edges.length - 1]? else g.edges[k]?
      else none := by
  unfold removeEdge
  rw [dif_pos h]
  dsimp only [List.get_eq_getElem]
  rw [List.getElem?_dropLast, List.length_set, List.getElem?_set]
  by_cases hk : k < g.edges.length - 1
  · rw [if_pos hk, if_pos hk]
    by_cases hki : k = i
    · rw [if_pos hki.symm, if_pos hki, if_pos h, List.getElem?_eq_getElem]
    · rw [if_neg (Ne.symm hki), if_neg hki]
  · rw [if_neg hk, if_neg hk]

/-- The edges that are to be removed go out of a node, if they are still there. -/
structure Aims (g : EdgeGraph ν) (a : ℕ) (indices : List ℕ) : Prop where
  nodup : indices.Nodup
  source : ∀ i ∈ indices, ∀ e, g.edges[i]? = some e → e.1 = a

theorem aims_edgesFrom (g : EdgeGraph ν) (a : ℕ) : g.Aims a (g.edgesFrom a) where
  nodup := nodup_edgesFrom
  source i hi e he := by
    obtain ⟨b, hedge⟩ := mem_edgesFrom.mp hi
    rw [hedge, Option.some.injEq] at he
    rw [← he]

theorem Aims.removeEdge (h : g.Aims a (i :: indices)) : (g.removeEdge i).Aims a indices where
  nodup := (List.nodup_cons.mp h.nodup).2
  source k hk e he := by
    have hki : k ≠ i := by
      rintro rfl
      exact (List.nodup_cons.mp h.nodup).1 hk
    by_cases hi : i < g.edges.length
    · rw [getElem?_removeEdge hi] at he
      split_ifs at he
      exact h.source k (List.mem_cons_of_mem i hk) e he
    · rw [removeEdge_of_le (Nat.not_lt.mp hi)] at he
      exact h.source k (List.mem_cons_of_mem i hk) e he

theorem mem_removeEdge_of_ne (hi : ∀ e, g.edges[i]? = some e → e.1 = a) {e : ℕ × ℕ} (he : e.1 ≠ a) :
    e ∈ (g.removeEdge i).edges ↔ e ∈ g.edges := by
  by_cases hlt : i < g.edges.length
  · rw [List.mem_iff_getElem?, List.mem_iff_getElem?]
    constructor
    · rintro ⟨k, hk⟩
      rw [getElem?_removeEdge hlt] at hk
      split_ifs at hk
      · exact ⟨_, hk⟩
      · exact ⟨k, hk⟩
    · rintro ⟨k, hk⟩
      have hki : k ≠ i := by
        rintro rfl
        exact he (hi e hk)
      have hklt := (List.getElem?_eq_some_iff.mp hk).1
      by_cases hlast : k = g.edges.length - 1
      · refine ⟨i, ?_⟩
        rw [getElem?_removeEdge hlt, if_pos (by omega), if_pos rfl, ← hlast]
        exact hk
      · refine ⟨k, ?_⟩
        rw [getElem?_removeEdge hlt, if_pos (by omega), if_neg hki]
        exact hk
  · rw [removeEdge_of_le (Nat.not_lt.mp hlt)]

theorem mem_removeEdges_of_ne (h : g.Aims a indices) {e : ℕ × ℕ} (he : e.1 ≠ a) :
    e ∈ (g.removeEdges indices).edges ↔ e ∈ g.edges := by
  induction indices generalizing g with
  | nil => exact Iff.rfl
  | cons i rest ih =>
    have hstep := mem_removeEdge_of_ne (h.source i List.mem_cons_self) he
    exact (ih h.removeEdge).trans hstep

/-- All edges that go out of the node are there to be removed. -/
def Covers (g : EdgeGraph ν) (a : ℕ) (indices : List ℕ) : Prop :=
  ∀ i b, g.edges[i]? = some (a, b) → i ∈ indices

theorem Covers.removeEdge (h : g.Covers a (i :: indices)) (hi : i < g.edges.length)
    (hlast : g.edges.length - 1 ∉ indices) : (g.removeEdge i).Covers a indices := by
  intro k b hk
  rw [getElem?_removeEdge hi] at hk
  split_ifs at hk with hlt hki
  · have hmem := h _ b hk
    rcases List.mem_cons.mp hmem with heq | hmem
    · omega
    · exact absurd hmem hlast
  · exact (List.mem_cons.mp (h k b hk)).resolve_left hki

theorem not_mem_removeEdges (h : g.Aims a indices) (hcovers : g.Covers a indices)
    (hvalid : ∀ i ∈ indices, i < g.edges.length)
    (horder : RemovableInOrder indices g.edges.length) (b : ℕ) :
    (a, b) ∉ (g.removeEdges indices).edges := by
  induction indices generalizing g with
  | nil =>
    intro hmem
    obtain ⟨i, hi⟩ := List.mem_iff_getElem?.mp hmem
    exact List.not_mem_nil (hcovers i b hi)
  | cons i rest ih =>
    have hi := hvalid i List.mem_cons_self
    obtain ⟨hlast, hrest⟩ := horder
    apply ih h.removeEdge (hcovers.removeEdge hi hlast)
    · intro k hk
      have hk' := hvalid k (List.mem_cons_of_mem i hk)
      have hne : k ≠ g.edges.length - 1 := by
        rintro rfl
        exact hlast hk
      rw [length_removeEdge hi]
      omega
    · rw [length_removeEdge hi]
      exact hrest

/-- All edges that go out of a node are removed, and no others. -/
theorem mem_removeEdges (horder : RemovableInOrder (g.edgesFrom a) g.edges.length) {e : ℕ × ℕ} :
    e ∈ (g.removeEdges (g.edgesFrom a)).edges ↔ e ∈ g.edges ∧ e.1 ≠ a := by
  by_cases he : e.1 = a
  · refine iff_of_false ?_ (fun h => h.2 he)
    obtain ⟨a', b⟩ := e
    dsimp only at he
    subst he
    apply not_mem_removeEdges (aims_edgesFrom g a')
    · intro i b' hi
      exact mem_edgesFrom.mpr ⟨b', hi⟩
    · intro i hi
      obtain ⟨b', hb'⟩ := mem_edgesFrom.mp hi
      exact (List.getElem?_eq_some_iff.mp hb').1
    · exact horder
  · rw [mem_removeEdges_of_ne (aims_edgesFrom g a) he]
    exact (and_iff_left he).symm

-- ====================
-- Edges that stay
-- ====================

/-- The number of edges that go out of a node. -/
def outDegree (g : EdgeGraph ν) (a : ℕ) : ℕ := g.edges.countP fun e => e.1 = a

theorem countP_eq_range (l : List (ℕ × ℕ)) (a : ℕ) :
    (l.countP fun e => e.1 = a) =
      (List.range l.length).countP fun i => (l[i]?.map Prod.fst) = some a := by
  induction l using List.reverseRecOn with
  | nil => rfl
  | append_singleton l e ih =>
    have hbefore : (List.range l.length).countP (fun i => (l[i]?.map Prod.fst) = some a) =
        (List.range l.length).countP fun i => ((l ++ [e])[i]?.map Prod.fst) = some a := by
      apply List.countP_congr
      intro i hi
      rw [List.getElem?_append_left (List.mem_range.mp hi)]
    rw [List.countP_append, ih, List.length_append, List.length_singleton, List.range_succ,
      List.countP_append, hbefore]
    congr 1
    simp [List.countP_singleton]

theorem length_edgesFrom (g : EdgeGraph ν) (a : ℕ) : (g.edgesFrom a).length = g.outDegree a := by
  have hperm : g.recent.Perm (List.range g.edges.length) := by
    rw [List.perm_ext_iff_of_nodup g.nodup_recent List.nodup_range]
    intro i
    rw [g.mem_recent, List.mem_range]
  unfold edgesFrom outDegree
  rw [← List.countP_eq_length_filter, hperm.countP_eq, countP_eq_range]

/-- Removing an edge takes at most one from the edges of a node. -/
theorem le_outDegree_removeEdge (g : EdgeGraph ν) (a i : ℕ) :
    g.outDegree a ≤ (g.removeEdge i).outDegree a + 1 := by
  by_cases hi : i < g.edges.length
  · have hlast : g.edges.length - 1 < g.edges.length := by omega
    have hne : g.edges.set i g.edges[g.edges.length - 1] ≠ [] := by
      intro hnil
      rw [List.set_eq_nil_iff] at hnil
      rw [hnil] at hi
      cases hi
    -- the last edge is there twice, and then once
    have hgetLast : (g.edges.set i g.edges[g.edges.length - 1]).getLast hne =
        g.edges[g.edges.length - 1] := by
      rw [List.getLast_eq_getElem, List.getElem_set]
      split_ifs
      · rfl
      · simp only [List.length_set]
    have hset := List.countP_set (p := fun e : ℕ × ℕ => decide (e.1 = a)) (l := g.edges)
      (a := g.edges[g.edges.length - 1]) hi
    have hsplit := congrArg (List.countP fun e : ℕ × ℕ => decide (e.1 = a))
      (List.dropLast_concat_getLast hne)
    rw [List.countP_append, hgetLast, List.countP_singleton, hset] at hsplit
    have hdegree : (g.removeEdge i).outDegree a =
        (g.edges.set i g.edges[g.edges.length - 1]).dropLast.countP fun e => e.1 = a := by
      unfold outDegree removeEdge
      rw [dif_pos hi]
      dsimp only [List.get_eq_getElem]
    rw [hdegree]
    unfold outDegree
    split_ifs at hsplit <;> omega
  · rw [removeEdge_of_le (Nat.not_lt.mp hi)]
    exact Nat.le_succ _

theorem le_outDegree_removeEdges (g : EdgeGraph ν) (a : ℕ) (indices : List ℕ) :
    g.outDegree a ≤ (g.removeEdges indices).outDegree a + indices.length := by
  induction indices generalizing g with
  | nil => exact le_rfl
  | cons i rest ih =>
    have hstep := g.le_outDegree_removeEdge a i
    have hrest := ih (g.removeEdge i)
    show g.outDegree a ≤ ((g.removeEdge i).removeEdges rest).outDegree a + (rest.length + 1)
    omega

theorem length_removeEdge_le (g : EdgeGraph ν) (i : ℕ) :
    (g.removeEdge i).edges.length ≤ g.edges.length := by
  by_cases hi : i < g.edges.length
  · rw [length_removeEdge hi]
    omega
  · rw [removeEdge_of_le (Nat.not_lt.mp hi)]

/-- An index that is not valid removes nothing. -/
theorem lt_outDegree_of_invalid {i : ℕ} (hi : i ∈ indices) (hle : g.edges.length ≤ i) (a : ℕ) :
    g.outDegree a < (g.removeEdges indices).outDegree a + indices.length := by
  induction indices generalizing g with
  | nil => cases hi
  | cons k rest ih =>
    show g.outDegree a < ((g.removeEdge k).removeEdges rest).outDegree a + (rest.length + 1)
    rcases List.mem_cons.mp hi with rfl | hi
    · rw [removeEdge_of_le hle]
      have hrest := g.le_outDegree_removeEdges a rest
      omega
    · have hrest := ih hi ((g.length_removeEdge_le k).trans hle)
      have hstep := g.le_outDegree_removeEdge a k
      omega

theorem lt_outDegree_of_not_removable (hvalid : ∀ i ∈ indices, i < g.edges.length)
    (horder : ¬RemovableInOrder indices g.edges.length) (a : ℕ) :
    g.outDegree a < (g.removeEdges indices).outDegree a + indices.length := by
  induction indices generalizing g with
  | nil => exact absurd trivial horder
  | cons i rest ih =>
    have hi := hvalid i List.mem_cons_self
    have hstep := g.le_outDegree_removeEdge a i
    have hlen := length_removeEdge hi
    show g.outDegree a < ((g.removeEdge i).removeEdges rest).outDegree a + (rest.length + 1)
    by_cases hlast : g.edges.length - 1 ∈ rest
    · have hrest := lt_outDegree_of_invalid (g := g.removeEdge i) hlast hlen.le a
      omega
    · have hnot : ¬RemovableInOrder rest (g.removeEdge i).edges.length := by
        rw [hlen]
        exact fun hrest => horder ⟨hlast, hrest⟩
      have hvalid' : ∀ k ∈ rest, k < (g.removeEdge i).edges.length := by
        intro k hk
        have hlt := hvalid k (List.mem_cons_of_mem i hk)
        have hne : k ≠ g.edges.length - 1 := by
          rintro rfl
          exact hlast hk
        omega
      have hrest := ih hvalid' hnot
      omega

/-- Nothing goes out of a node after its edges were removed, exactly if none of them was the last one
    when another one was removed before it. -/
theorem isolated_removeEdges_iff (g : EdgeGraph ν) (a : ℕ) :
    (∀ b, (a, b) ∉ (g.removeEdges (g.edgesFrom a)).edges) ↔
      RemovableInOrder (g.edgesFrom a) g.edges.length := by
  constructor
  · intro hisolated
    by_contra horder
    have hvalid : ∀ i ∈ g.edgesFrom a, i < g.edges.length := by
      intro i hi
      obtain ⟨b, hb⟩ := mem_edgesFrom.mp hi
      exact (List.getElem?_eq_some_iff.mp hb).1
    have hlt := lt_outDegree_of_not_removable hvalid horder a
    rw [length_edgesFrom] at hlt
    have hpos : 0 < (g.removeEdges (g.edgesFrom a)).outDegree a := by omega
    obtain ⟨⟨a', b⟩, hmem, heq⟩ := List.countP_pos_iff.mp hpos
    rw [decide_eq_true_eq] at heq
    dsimp only at heq
    rw [heq] at hmem
    exact hisolated b hmem
  · intro horder b hmem
    exact (mem_removeEdges horder).mp hmem |>.2 rfl

end EdgeGraph

end Snix
