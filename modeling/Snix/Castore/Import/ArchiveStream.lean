import Snix.Castore.Import.Archive
import Snix.Castore.Import.ValidStream

/-!
# The entries of an archive as a stream

What can be reached from the root of the graph is listed in post-order. If every
replacement removed all edges of the node that it replaced, this is a stream as
`ingestEntries` expects it, and none of its assertions can fail.

An edge that stays leads from a file to what was below it when it was a directory. The
list then has an entry in a file, and `ingestEntries` is left with a directory that
never arrives.

## Main results

- `listed_of_finalize`, `Listed.validStream`
- `addAll_validStream`
- `not_validStream_moving` — an edge that stays
-/

namespace Snix.Castore

namespace IngestionEntryGraph

variable {debug : Bool} {g : IngestionEntryGraph}
  {dfsPostOrder : EdgeGraph IngestionEntry → ℕ → List ℕ} {out : List IngestionEntry}

/-- The entry of a node. -/
def entryAt (g : IngestionEntryGraph) (i : ℕ) : IngestionEntry :=
  (g.graph.nodeWeight i).getD (.dir [])

theorem Inv.weight_eq (h : Inv g) {q : PathBuf} {i : ℕ} (hq : g.pathToIndex.lookup q = some i) :
    g.graph.nodeWeight i = some (g.entryAt i) ∧ (g.entryAt i).path = q := by
  obtain ⟨e, he, hpath⟩ := h.node q i hq
  unfold entryAt
  rw [he]
  exact ⟨rfl, hpath⟩

/-- Paths get longer along the edges. -/
theorem Inv.acyclic (h : Inv g) : g.graph.toDiGraph.Acyclic := by
  let length : ℕ → ℕ := fun i => (g.entryAt i).path.length
  let most : ℕ := (Finset.range g.graph.nodeCount).sup length
  refine ⟨fun i => most - length i, ?_⟩
  intro i j he
  obtain ⟨q, name, -, hi, hj⟩ := h.edge i j he
  obtain ⟨-, hqi⟩ := h.weight_eq hi
  obtain ⟨hwj, hqj⟩ := h.weight_eq hj
  have hlt : j < g.graph.nodeCount := (List.getElem?_eq_some_iff.mp hwj).1
  have hle : length j ≤ most := Finset.le_sup (Finset.mem_range.mpr hlt)
  have hi' : length i = q.length := congrArg List.length hqi
  have hj' : length j = q.length + 1 := by
    show (g.entryAt j).path.length = _
    rw [hqj, List.length_append, List.length_singleton]
  show most - length j < most - length i
  omega

/-- What can be reached from the root is below it. -/
theorem Inv.path_of_reachable (h : Inv g) {name : PathComponent} {root i : ℕ}
    (hroot : g.pathToIndex.lookup [name] = some root)
    (hreach : g.graph.toDiGraph.Reachable root i) :
    ∃ q, g.pathToIndex.lookup q = some i ∧ [name] <+: q := by
  induction hreach with
  | refl => exact ⟨[name], hroot, List.prefix_rfl⟩
  | tail _ hedge ih =>
    obtain ⟨q, hq, hpre⟩ := ih
    obtain ⟨r, c, -, hr, hrc⟩ := h.edge _ _ hedge
    rw [h.lookup_inj hr hq] at hrc
    exact ⟨_, hrc, hpre.trans (List.prefix_append q [c])⟩

theorem mapM_eq_map {α β : Type} {f : α → Option β} {w : α → β} {l : List α}
    (h : ∀ a ∈ l, f a = some (w a)) : l.mapM f = some (l.map w) := by
  induction l with
  | nil => rfl
  | cons a l ih =>
    rw [List.mapM_cons, h a List.mem_cons_self, ih fun b hb => h b (List.mem_cons_of_mem a hb)]
    rfl

/-- What is listed in the end: the entries that can be reached from a root that is a directory. -/
structure Listed (g : IngestionEntryGraph) (name : PathComponent) (root : ℕ) (order : List ℕ)
    (out : List IngestionEntry) : Prop where
  rootNode : g.rootNode = some root
  lookup : g.pathToIndex.lookup [name] = some root
  dir : g.entryAt root = .dir [name]
  postOrder : g.graph.toDiGraph.IsPostOrder root order
  out_eq : out = order.map g.entryAt

theorem listed_of_finalize (h : Inv g)
    (hdfs : ∀ graph : EdgeGraph IngestionEntry, graph.toDiGraph.Acyclic →
      ∀ root, graph.toDiGraph.IsPostOrder root (dfsPostOrder graph root))
    (hfinalize : g.finalize dfsPostOrder = .ok out) :
    ∃ name root, Listed g name root (dfsPostOrder g.graph root) out := by
  unfold finalize at hfinalize
  cases hroot : g.rootNode with
  | none =>
    rw [hroot] at hfinalize
    cases hfinalize
  | some root =>
    obtain ⟨name, hlookup⟩ := h.rootNode root hroot
    obtain ⟨hweight, hpath⟩ := h.weight_eq hlookup
    have horder := hdfs g.graph h.acyclic root
    have hmapM : (dfsPostOrder g.graph root).mapM g.graph.nodeWeight =
        some ((dfsPostOrder g.graph root).map g.entryAt) := by
      apply mapM_eq_map
      intro i hi
      obtain ⟨q, hq, -⟩ := h.path_of_reachable hlookup ((horder.mem_iff i).mp hi)
      exact (h.weight_eq hq).1
    simp only [hroot, hweight, hmapM] at hfinalize
    split_ifs at hfinalize with hdir
    cases hfinalize
    refine ⟨name, root, hroot, hlookup, ?_, horder, rfl⟩
    rw [Bool.not_eq_true, Bool.not_eq_false'] at hdir
    rw [eq_dir_of_isDir hdir, hpath]

section

variable {name : PathComponent} {root : ℕ} {order : List ℕ}

theorem Listed.mem_iff (hl : Listed g name root order out) {e : IngestionEntry} :
    e ∈ out ↔ ∃ i, g.graph.toDiGraph.Reachable root i ∧ g.entryAt i = e := by
  rw [hl.out_eq, List.mem_map]
  simp only [hl.postOrder.mem_iff]

/-- An entry that is listed has its parent listed, unless it is the root. -/
theorem Inv.parent_of_reachable (h : Inv g) {i : ℕ}
    (hi : g.graph.toDiGraph.Reachable root i) :
    i = root ∨ ∃ k q c, q ≠ [] ∧ (k, i) ∈ g.graph.edges ∧ g.graph.toDiGraph.Reachable root k ∧
      g.entryAt k = .dir q ∧ (g.entryAt i).path = q ++ [c] := by
  rcases Relation.ReflTransGen.cases_tail hi with heq | ⟨k, hk, hedge⟩
  · exact .inl heq
  · right
    obtain ⟨q, c, hne, hq, hqc⟩ := h.edge k i hedge
    obtain ⟨hweight, hpath⟩ := h.weight_eq hq
    obtain ⟨e, he, hdir⟩ := h.dir k i hedge
    rw [hweight, Option.some.injEq] at he
    refine ⟨k, q, c, hne, hedge, hk, ?_, (h.weight_eq hqc).2⟩
    rw [← hpath]
    apply eq_dir_of_isDir
    rw [he]
    exact hdir

theorem Listed.inj (h : Inv g) (hl : Listed g name root order out) {i j : ℕ} (hi : i ∈ order)
    (hj : j ∈ order) (hpath : (g.entryAt i).path = (g.entryAt j).path) : i = j := by
  obtain ⟨q, hq, -⟩ := h.path_of_reachable hl.lookup ((hl.postOrder.mem_iff i).mp hi)
  obtain ⟨r, hr, -⟩ := h.path_of_reachable hl.lookup ((hl.postOrder.mem_iff j).mp hj)
  rw [(h.weight_eq hq).2, (h.weight_eq hr).2] at hpath
  rw [hpath, hr, Option.some.injEq] at hq
  exact hq.symm

/-- What is listed is a stream as `ingestEntries` expects it. -/
theorem Listed.validStream (h : Inv g) (hl : Listed g name root order out) : ValidStream out := by
  have hnodup : (out.map IngestionEntry.path).Nodup := by
    rw [hl.out_eq, List.map_map]
    exact hl.postOrder.nodup.map_on fun i hi j hj hpath => hl.inj h hi hj hpath
  have hfirst : ChildrenFirst out := by
    unfold ChildrenFirst
    rw [hl.out_eq, List.pairwise_map]
    refine (List.Pairwise.and_mem.mp hl.postOrder.pairwise).imp ?_
    rintro i j ⟨hi, hj, hnot⟩ hparent
    rcases h.parent_of_reachable ((hl.postOrder.mem_iff j).mp hj) with
      heq | ⟨k, q, c, -, hedge, hk, hkdir, hpath⟩
    · rw [heq, hl.dir] at hparent
      obtain ⟨r, hr, hpre⟩ := h.path_of_reachable hl.lookup ((hl.postOrder.mem_iff i).mp hi)
      rw [(h.weight_eq hr).2] at hparent
      cases hparent
      exact List.cons_ne_nil _ _ (List.prefix_nil.mp hpre)
    · rw [hpath, PathBuf.parent_concat, Option.some.injEq] at hparent
      have hik : i = k := by
        apply hl.inj h hi ((hl.postOrder.mem_iff k).mpr hk)
        rw [← hparent, hkdir]
        rfl
      rw [hik] at hnot
      exact hnot hedge
  have hparent : ∀ e ∈ out, (∃ name, e.path = [name]) ∨
      ∃ q, q ≠ [] ∧ e.path.parent = some q ∧ IngestionEntry.dir q ∈ out := by
    intro e he
    obtain ⟨i, hi, rfl⟩ := hl.mem_iff.mp he
    rcases h.parent_of_reachable hi with rfl | ⟨k, q, c, hne, -, hk, hdir, hpath⟩
    · rw [hl.dir]
      exact .inl ⟨name, rfl⟩
    · refine .inr ⟨q, hne, ?_, hl.mem_iff.mpr ⟨k, hk, hdir⟩⟩
      rw [hpath, PathBuf.parent_concat]
  have hroot : ∀ e ∈ out, e.path.length = 1 → e = .dir [name] := by
    intro e he hlength
    obtain ⟨i, hi, rfl⟩ := hl.mem_iff.mp he
    obtain ⟨q, hq, hpre⟩ := h.path_of_reachable hl.lookup hi
    rw [(h.weight_eq hq).2] at hlength
    have heq : [name] = q := hpre.eq_of_length hlength.symm
    rw [← heq, hl.lookup, Option.some.injEq] at hq
    rw [← hq, hl.dir]
  refine ⟨hnodup, hfirst, hparent, name, ?_, hroot⟩
  -- the last entry has no parent, which would come after it
  have hmem : IngestionEntry.dir [name] ∈ out := hl.mem_iff.mpr ⟨root, .refl, hl.dir⟩
  rcases List.eq_nil_or_concat out with hnil | ⟨l, last, hout⟩
  · rw [hnil] at hmem
    cases hmem
  · rw [List.concat_eq_append] at hout
    have hlast : last ∈ out := by
      rw [hout]
      exact List.mem_append_right _ (List.mem_singleton_self last)
    rw [hout, List.getLast?_concat, Option.some.injEq]
    rcases hparent last hlast with ⟨c, hc⟩ | ⟨q, -, hq, hqmem⟩
    · apply hroot last hlast
      rw [hc]
      rfl
    · exfalso
      rw [hout] at hqmem hfirst
      rcases List.mem_append.mp hqmem with hql | hql
      · exact (List.pairwise_append.mp hfirst).2.2 _ hql last (List.mem_singleton_self last) hq
      · rw [← List.mem_singleton.mp hql] at hq
        have hlen := PathBuf.eq_concat_of_parent hq
        obtain ⟨c, hc⟩ := hlen
        exact List.cons_ne_nil c [] (List.self_eq_append_right.mp hc)

end

/-- If every replacement removes all edges, what is listed is a stream as `ingestEntries` expects
    it, and it does not panic for it. -/
theorem addAll_validStream (debug : Bool) (dfsPostOrder : EdgeGraph IngestionEntry → ℕ → List ℕ)
    (hdfs : ∀ graph : EdgeGraph IngestionEntry, graph.toDiGraph.Acyclic →
      ∀ root, graph.toDiGraph.IsPostOrder root (dfsPostOrder graph root))
    (entries : List IngestionEntry) (hpaths : ∀ e ∈ entries, e.path ≠ [])
    (hmeets : Meets debug RemovesAll entries new) (g : IngestionEntryGraph)
    (hadd : addAll debug entries new = .ok g) (out : List IngestionEntry)
    (hfinalize : g.finalize dfsPostOrder = .ok out) :
    ValidStream out ∧
      ∀ (σ ε : Type) (digest : Directory → B3Digest) (checks debug : Bool) (P : DirectoryPutter σ)
        (m : String),
        ingestEntries (ε := ε) digest checks debug P (out.map .ok) = .error (.panic m) →
          m = "attempt to add with overflow" ∨ m = "assertion `left == right` failed" := by
  have hinv := inv_of_addAll hpaths hmeets hadd
  obtain ⟨name, root, hlisted⟩ := listed_of_finalize hinv hdfs hfinalize
  have hvalid := hlisted.validStream hinv
  refine ⟨hvalid, ?_⟩
  intro σ ε digest checks debug' P m hpanic
  exact hvalid.panics hpanic

-- ====================
-- Files in the place of directories
-- ====================

def archiveRoot : PathComponent := ⟨[114], rfl⟩

/-- An empty file. -/
def emptyFile (path : PathBuf) : IngestionEntry :=
  .regular path 0 false (List.Vector.replicate 32 0)

/-- A file comes in the place of a directory with a file in it. -/
def replacing : List IngestionEntry :=
  [emptyFile [archiveRoot, archiveRoot, archiveRoot], emptyFile [archiveRoot, archiveRoot]]

theorem addAll_validStream_replacing :
    ValidStream [emptyFile [archiveRoot, archiveRoot], .dir [archiveRoot]] := by
  have hlisted := addAll_validStream true (fun graph root => graph.toDiGraph.postOrder root)
    (fun graph hacyclic root => DiGraph.isPostOrder_postOrder hacyclic root) replacing (by decide)
    ⟨by decide, by decide, trivial⟩ _ rfl [emptyFile [archiveRoot, archiveRoot], .dir [archiveRoot]] rfl
  exact hlisted.1

/-- Files come in the place of directories with a file in them, one after the other. Replacing the
    root moves an edge of its entry in front of an older one. -/
def moving : List IngestionEntry :=
  [emptyFile [archiveRoot, archiveRoot, archiveRoot, archiveRoot],
    emptyFile [archiveRoot, archiveRoot, archiveRoot], emptyFile [archiveRoot],
    emptyFile [archiveRoot, archiveRoot]]

/-- A putter that takes everything. -/
def takesAll : DirectoryPutter Unit := ⟨(), fun _ _ => .ok (), fun _ => .error .service⟩

/-- An edge stays when a file comes in the place of a directory, and leads to what was in it. -/
theorem not_validStream_moving :
    ∃ (dfsPostOrder : EdgeGraph IngestionEntry → ℕ → List ℕ) (g : IngestionEntryGraph)
      (out : List IngestionEntry),
      (∀ graph : EdgeGraph IngestionEntry, graph.toDiGraph.Acyclic →
        ∀ root, graph.toDiGraph.IsPostOrder root (dfsPostOrder graph root)) ∧
      (∀ e ∈ moving, e.path ≠ []) ∧ addAll true moving new = .ok g ∧
      g.finalize dfsPostOrder = .ok out ∧
      out = [emptyFile [archiveRoot, archiveRoot, archiveRoot],
        emptyFile [archiveRoot, archiveRoot], .dir [archiveRoot]] ∧
      ¬ValidStream out ∧
      ingestEntries (ε := Empty) (fun _ => List.Vector.replicate 32 0) true true takesAll
          (out.map .ok) =
        .error (.panic "Snix bug: left over directories after processing ingestion stream") := by
  refine ⟨fun graph root => graph.toDiGraph.postOrder root, _, _, ?_, by decide, rfl, rfl, rfl, ?_, rfl⟩
  · intro graph hacyclic root
    exact DiGraph.isPostOrder_postOrder hacyclic root
  · intro hvalid
    have hparent := hvalid.parent (emptyFile [archiveRoot, archiveRoot, archiveRoot])
      List.mem_cons_self
    obtain ⟨name, hname⟩ | ⟨q, -, hq, hmem⟩ := hparent
    · cases hname
    · cases hq
      have hmem' : IngestionEntry.dir [archiveRoot, archiveRoot] ∈
          [emptyFile [archiveRoot, archiveRoot, archiveRoot], emptyFile [archiveRoot, archiveRoot],
            .dir [archiveRoot]] := hmem
      simp [emptyFile] at hmem'

end IngestionEntryGraph

end Snix.Castore
