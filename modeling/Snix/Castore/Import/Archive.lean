import Snix.Castore.Import.IngestEntries
import Snix.Lib.EdgeGraph

/-!
# The entries of an archive

An archive has its entries in any order, and several times the same path. They are
collected in a graph, with an edge from every directory to what is in it. The
directories above an entry are added with it. An entry that is not a directory, or
stands where there was none, replaces what was at its path and is disconnected from
what was below. In the end, what can be reached from the root is listed, children
first.

The edges of a node are removed one after the other by their indices, and removing
one can change the index of another. So an edge can stay, and lead from a file to
what was below a directory.

## Main definitions

- `IngestionEntryGraph` with `add`, `finalize`
- `RemovesAll` — the edges of what an entry replaces are all removed
- `Inv` — what is kept, if they are
- `Meets` — runs whose steps all meet a condition

## Main results

- `replaceNode_disconnects_iff` — when an edge stays
- `add_spec` — what one entry does to the graph
- `inv_of_addAll` — what a run keeps
-/

namespace Snix.Castore

def IngestionEntry.isDir : IngestionEntry → Bool
  | .dir _ => true
  | _ => false

/-- The errors of an import of an archive that the graph can give, and panics. -/
inductive ArchiveError where
  | unexpectedNumberOfTopLevelEntries
  | panic (message : String)

structure IngestionEntryGraph where
  graph : EdgeGraph IngestionEntry
  pathToIndex : AList fun _ : PathBuf => ℕ
  rootNode : Option ℕ

namespace IngestionEntryGraph

def new : IngestionEntryGraph := ⟨.empty, ∅, none⟩

section

variable (debug : Bool)

/-- Replaces a node. Its children are disconnected. -/
def replaceNode (index : ℕ) (newEntry : IngestionEntry) (g : IngestionEntryGraph) :
    Except ArchiveError IngestionEntryGraph :=
  match g.graph.nodeWeight index with
  | none => .error (.panic "Snix bug: missing node entry")
  | some entry =>
    if debug && entry.isDir && newEntry.isDir then
      .error (.panic "assertion failed: !(entry.is_dir() && new_entry.is_dir())")
    else
      let graph := g.graph.setWeight index newEntry
      .ok { g with graph := graph.removeEdges (graph.edgesFrom index) }

/-- The node for an entry: the one of its path, unless there is none yet. -/
def place (entry : IngestionEntry) (g : IngestionEntryGraph) :
    Except ArchiveError (ℕ × IngestionEntryGraph) :=
  match g.pathToIndex.lookup entry.path with
  | some index =>
    match g.graph.nodeWeight index with
    | none => .error (.panic "Snix bug: missing node entry")
    | some old =>
      if !entry.isDir || !old.isDir then do
        let g ← g.replaceNode debug index entry
        .ok (index, g)
      else .ok (index, g)
  | none => .ok (g.graph.nodeCount, { g with graph := g.graph.addNode entry })

/-- An archive has a single root. -/
def checkRoot (path : PathBuf) (g : IngestionEntryGraph) : Except ArchiveError Unit :=
  match g.rootNode with
  | none => .ok ()
  | some rootNode =>
    match g.graph.nodeWeight rootNode with
    | none => .error (.panic "Snix bug: missing node entry")
    | some root =>
      if root.path ≠ path then .error .unexpectedNumberOfTopLevelEntries else .ok ()

def recordPath (path : PathBuf) (index : ℕ) (g : IngestionEntryGraph) : IngestionEntryGraph :=
  { g with pathToIndex := g.pathToIndex.insert path index }

/-- Adds an entry whose path has this many components, and the directories above it. -/
def addAt : ℕ → IngestionEntry → IngestionEntryGraph →
    Except ArchiveError (ℕ × IngestionEntryGraph)
  -- the empty path has no parent
  | 0, entry, g => do
    let (index, g) ← g.place debug entry
    .ok (index, g.recordPath entry.path index)
  | 1, entry, g => do
    let (index, g) ← g.place debug entry
    g.checkRoot entry.path
    .ok (index, { g with rootNode := some index }.recordPath entry.path index)
  | n + 2, entry, g => do
    let (index, g) ← g.place debug entry
    let (parentIndex, g) ← addAt (n + 1) (.dir entry.path.dropLast) g
    .ok (index, { g with graph := g.graph.addEdge parentIndex index }.recordPath entry.path index)

def add (entry : IngestionEntry) (g : IngestionEntryGraph) :
    Except ArchiveError (ℕ × IngestionEntryGraph) :=
  addAt debug entry.path.length entry g

/-- Adds the entries of an archive. -/
def addAll : List IngestionEntry → IngestionEntryGraph → Except ArchiveError IngestionEntryGraph
  | [], g => .ok g
  | entry :: entries, g => do
    let (_, g) ← g.add debug entry
    addAll entries g

end

/-- Lists what can be reached from the root. -/
def finalize (dfsPostOrder : EdgeGraph IngestionEntry → ℕ → List ℕ) (g : IngestionEntryGraph) :
    Except ArchiveError (List IngestionEntry) :=
  match g.rootNode with
  | none => .error .unexpectedNumberOfTopLevelEntries
  | some rootNode =>
    match g.graph.nodeWeight rootNode with
    | none => .error (.panic "Snix bug: missing node entry")
    | some root =>
      if !root.isDir then .error .unexpectedNumberOfTopLevelEntries
      else
        match (dfsPostOrder g.graph rootNode).mapM g.graph.nodeWeight with
        | none => .error (.panic "Snix bug: missing node entry")
        | some nodes => .ok nodes

/-- If an entry replaces a directory, all of its edges are removed: in the order in which they are
    listed, none is the last one of the graph when another one is removed before it. -/
def RemovesAll (entry : IngestionEntry) (g : IngestionEntryGraph) : Prop :=
  match g.pathToIndex.lookup entry.path with
  | none => True
  | some index => entry.isDir = false →
    EdgeGraph.RemovableInOrder (g.graph.edgesFrom index) g.graph.edges.length

instance (entry : IngestionEntry) (g : IngestionEntryGraph) : Decidable (RemovesAll entry g) := by
  unfold RemovesAll
  split <;> infer_instance

-- ====================
-- What is kept
-- ====================

/-- Every path has a node of its own, edges lead from a directory to what is in it, and there is
    a single root. -/
structure Inv (g : IngestionEntryGraph) : Prop where
  node : ∀ q i, g.pathToIndex.lookup q = some i → ∃ e, g.graph.nodeWeight i = some e ∧ e.path = q
  edge : ∀ i j, (i, j) ∈ g.graph.edges → ∃ q name, q ≠ [] ∧
    g.pathToIndex.lookup q = some i ∧ g.pathToIndex.lookup (q ++ [name]) = some j
  dir : ∀ i j, (i, j) ∈ g.graph.edges → ∃ e, g.graph.nodeWeight i = some e ∧ e.isDir = true
  root : ∀ q i, g.pathToIndex.lookup q = some i → ∃ name root, g.rootNode = some root ∧
    g.pathToIndex.lookup [name] = some root ∧ [name] <+: q
  rootNode : ∀ root, g.rootNode = some root → ∃ name, g.pathToIndex.lookup [name] = some root

theorem inv_new : Inv new where
  node q i h := by cases h
  edge i j h := by cases h
  dir i j h := by cases h
  root q i h := by cases h
  rootNode root h := by cases h

theorem eq_dir_of_isDir {e : IngestionEntry} (h : e.isDir = true) :
    e = .dir e.path := by
  cases e with
  | regular path size executable digest => cases h
  | symlink path target => cases h
  | dir path => rfl

variable {debug : Bool} {g g' : IngestionEntryGraph} {entry : IngestionEntry} {index : ℕ}

theorem Inv.lookup_inj (h : Inv g) {q r : PathBuf} {i : ℕ} (hq : g.pathToIndex.lookup q = some i)
    (hr : g.pathToIndex.lookup r = some i) : q = r := by
  obtain ⟨e, he, rfl⟩ := h.node q i hq
  obtain ⟨e', he', rfl⟩ := h.node r i hr
  rw [he, Option.some.injEq] at he'
  rw [he']

/-- What placing an entry does. -/
structure Placed (g : IngestionEntryGraph) (entry : IngestionEntry) (index : ℕ)
    (g' : IngestionEntryGraph) : Prop where
  pathToIndex : g'.pathToIndex = g.pathToIndex
  rootNode : g'.rootNode = g.rootNode
  weight : ∀ k, g'.graph.nodeWeight k = if k = index then some entry else g.graph.nodeWeight k
  lookup : g.pathToIndex.lookup entry.path = some index ∨
    g.pathToIndex.lookup entry.path = none ∧ g.graph.nodeWeight index = none
  edges : ∀ e, e ∈ g'.graph.edges ↔ e ∈ g.graph.edges ∧ (e.1 = index → entry.isDir = true)

/-- Edges go out of directories. -/
theorem Inv.isDir_of_edge (h : Inv g) {e : ℕ × ℕ} (he : e ∈ g.graph.edges) {old : IngestionEntry}
    (hold : g.graph.nodeWeight e.1 = some old) : old.isDir = true := by
  obtain ⟨e', he', hdir⟩ := h.dir e.1 e.2 he
  rw [hold, Option.some.injEq] at he'
  rw [he']
  exact hdir

/-- Replacing a node disconnects it from its children exactly if none of its edges is the last one of
    the graph when another one is removed before it. -/
theorem replaceNode_disconnects_iff {old : IngestionEntry}
    (hold : g.graph.nodeWeight index = some old) (hdir : old.isDir = false ∨ entry.isDir = false) :
    ∃ g', g.replaceNode debug index entry = .ok g' ∧
      ((∀ j, (index, j) ∉ g'.graph.edges) ↔
        EdgeGraph.RemovableInOrder (g.graph.edgesFrom index) g.graph.edges.length) := by
  have hassert : (debug && old.isDir && entry.isDir) = false := by
    rcases hdir with hdir | hdir
    · rw [hdir, Bool.and_false, Bool.false_and]
    · rw [hdir, Bool.and_false]
  simp only [replaceNode, hold, hassert, Bool.false_eq_true, if_false]
  exact ⟨_, rfl, (g.graph.setWeight index entry).isolated_removeEdges_iff index⟩

theorem place_spec (h : Inv g) (hremoves : RemovesAll entry g) :
    ∃ index g', g.place debug entry = .ok (index, g') ∧ Placed g entry index g' := by
  unfold place
  cases hlookup : g.pathToIndex.lookup entry.path with
  | none =>
    have hnone : g.graph.nodeWeight g.graph.nodeCount = none := List.getElem?_eq_none le_rfl
    refine ⟨_, _, rfl, rfl, rfl, EdgeGraph.nodeWeight_addNode entry, .inr ⟨hlookup, hnone⟩, ?_⟩
    intro e
    refine (and_iff_left_of_imp fun he heq => ?_).symm
    obtain ⟨e', he', -⟩ := h.dir e.1 e.2 he
    rw [heq, hnone] at he'
    cases he'
  | some index =>
    obtain ⟨old, hold, hpath⟩ := h.node _ _ hlookup
    simp only [hold]
    by_cases hboth : entry.isDir = true ∧ old.isDir = true
    · -- a directory stays what it is
      have hsame : entry = old := by
        rw [eq_dir_of_isDir hboth.1, eq_dir_of_isDir hboth.2, hpath]
      rw [if_neg (by simp [hboth])]
      refine ⟨_, _, rfl, rfl, rfl, ?_, .inl hlookup, ?_⟩
      · intro k
        split_ifs with hk
        · rw [hk, hold, hsame]
        · rfl
      · intro e
        exact (and_iff_left fun _ => hboth.1).symm
    · have hcond : (!entry.isDir || !old.isDir) = true := by
        simpa [imp_iff_not_or] using hboth
      have hassert : (debug && old.isDir && entry.isDir) = false := by
        rw [Bool.and_assoc, Bool.and_comm old.isDir]
        simp only [Bool.not_eq_true, not_and] at hboth
        cases hentry : entry.isDir with
        | false => simp
        | true => simp [hboth hentry]
      have horder : EdgeGraph.RemovableInOrder (g.graph.edgesFrom index) g.graph.edges.length := by
        cases hentry : entry.isDir with
        | false =>
          unfold RemovesAll at hremoves
          rw [hlookup] at hremoves
          exact hremoves hentry
        | true =>
          -- nothing goes out of what was no directory
          have hnil : g.graph.edgesFrom index = [] := by
            rw [List.eq_nil_iff_forall_not_mem]
            intro k hk
            obtain ⟨b, hb⟩ := EdgeGraph.mem_edgesFrom.mp hk
            exact hboth ⟨hentry, h.isDir_of_edge (List.mem_of_getElem? hb) hold⟩
          rw [hnil]
          trivial
      rw [if_pos hcond]
      simp only [replaceNode, hold, hassert, Bool.false_eq_true, if_false]
      refine ⟨_, _, rfl, rfl, rfl, ?_, .inl hlookup, ?_⟩
      · intro k
        rw [← EdgeGraph.nodeWeight_setWeight hold k]
        simp [EdgeGraph.nodeWeight]
      · intro e
        refine (EdgeGraph.mem_removeEdges (g := g.graph.setWeight index entry) horder).trans ?_
        refine and_congr_right fun he => ?_
        constructor
        · intro hne heq
          exact absurd heq hne
        · intro hdir heq
          refine hboth ⟨hdir heq, h.isDir_of_edge he ?_⟩
          rw [heq]
          exact hold

theorem Placed.inv (h : Inv g) (hp : Placed g entry index g') : Inv g' where
  node q i hq := by
    rw [hp.pathToIndex] at hq
    obtain ⟨e, he, hpath⟩ := h.node q i hq
    rw [hp.weight]
    split_ifs with hi
    · subst hi
      rcases hp.lookup with hlookup | ⟨-, hnone⟩
      · exact ⟨entry, rfl, h.lookup_inj hlookup hq⟩
      · rw [he] at hnone
        cases hnone
    · exact ⟨e, he, hpath⟩
  edge i j he := by
    rw [hp.pathToIndex]
    exact h.edge i j ((hp.edges _).mp he).1
  dir i j he := by
    obtain ⟨hmem, hdir⟩ := (hp.edges _).mp he
    rw [hp.weight]
    split_ifs with hi
    · exact ⟨entry, rfl, hdir hi⟩
    · exact h.dir i j hmem
  root q i hq := by
    rw [hp.pathToIndex] at hq ⊢
    rw [hp.rootNode]
    exact h.root q i hq
  rootNode root hroot := by
    rw [hp.rootNode] at hroot
    rw [hp.pathToIndex]
    exact h.rootNode root hroot

/-- What adding an entry does. -/
structure Added (g : IngestionEntryGraph) (entry : IngestionEntry) (index : ℕ)
    (g' : IngestionEntryGraph) : Prop where
  inv : Inv g'
  lookup_path : g'.pathToIndex.lookup entry.path = some index
  kept : ∀ q i, g.pathToIndex.lookup q = some i → g'.pathToIndex.lookup q = some i
  untouched : ∀ q, ¬q <+: entry.path → g'.pathToIndex.lookup q = g.pathToIndex.lookup q
  touched : ∀ q, q ≠ [] → q <+: entry.path → ∃ i, g'.pathToIndex.lookup q = some i ∧
    g'.graph.nodeWeight i = some (if q = entry.path then entry else .dir q)
  weight : ∀ i e, g.graph.nodeWeight i = some e →
    (∀ q, q <+: entry.path → g.pathToIndex.lookup q ≠ some i) → g'.graph.nodeWeight i = some e
  edges : ∀ e, e ∈ g'.graph.edges ↔
    e ∈ g.graph.edges ∧ (e.1 = index → entry.isDir = true) ∨
      ∃ q name, q ≠ [] ∧ q ++ [name] <+: entry.path ∧ g'.pathToIndex.lookup q = some e.1 ∧
        g'.pathToIndex.lookup (q ++ [name]) = some e.2

/-- The path of an entry gets the node at which it was placed. -/
theorem Placed.recordPath (hp : Placed g entry index g') (q : PathBuf) :
    (g'.pathToIndex.insert entry.path index).lookup q =
      if q = entry.path then some index else g.pathToIndex.lookup q := by
  rw [hp.pathToIndex]
  split_ifs with hq
  · rw [hq, AList.lookup_insert]
  · exact AList.lookup_insert_ne hq

theorem Placed.kept (hp : Placed g entry index g') {q : PathBuf} {i : ℕ}
    (hq : g.pathToIndex.lookup q = some i) :
    (g'.pathToIndex.insert entry.path index).lookup q = some i := by
  rw [hp.recordPath]
  split_ifs with heq
  · rw [heq] at hq
    rcases hp.lookup with hlookup | ⟨hnone, -⟩
    · rw [← hlookup, hq]
    · rw [hq] at hnone
      cases hnone
  · exact hq

/-- The root has no parent. -/
theorem Placed.added_root (h : Inv g) (hp : Placed g entry index g') {name : PathComponent}
    (hpath : entry.path = [name])
    (hroot : ∀ root, g.rootNode = some root → g.pathToIndex.lookup [name] = some root) :
    Added g entry index ({ g' with rootNode := some index }.recordPath entry.path index) := by
  have hinv := hp.inv h
  have hself : (g'.pathToIndex.insert entry.path index).lookup entry.path = some index :=
    AList.lookup_insert _
  refine ⟨⟨?_, ?_, ?_, ?_, ?_⟩, hself, fun q i => hp.kept, ?_, ?_, ?_, ?_⟩
  · intro q i hq
    have hq' := hp.recordPath q
    rw [show (g'.pathToIndex.insert entry.path index).lookup q = some i from hq] at hq'
    split_ifs at hq' with heq
    · cases hq'
      exact ⟨entry, (hp.weight _).trans (if_pos rfl), heq.symm⟩
    · rw [← hp.pathToIndex] at hq'
      exact hinv.node q i hq'.symm
  · intro i j he
    obtain ⟨q, c, hne, hi, hj⟩ := hinv.edge i j he
    rw [hp.pathToIndex] at hi hj
    exact ⟨q, c, hne, hp.kept hi, hp.kept hj⟩
  · exact hinv.dir
  · intro q i hq
    refine ⟨name, index, rfl, ?_, ?_⟩
    · rw [← hpath]
      exact hself
    · have hq' := hp.recordPath q
      rw [show (g'.pathToIndex.insert entry.path index).lookup q = some i from hq] at hq'
      split_ifs at hq' with heq
      · rw [heq, hpath]
      · obtain ⟨c, root, hroot', hlookup, hpre⟩ := h.root q i hq'.symm
        rw [List.singleton_inj.mp (h.lookup_inj (hroot root hroot') hlookup)]
        exact hpre
  · intro root hroot'
    cases hroot'
    refine ⟨name, ?_⟩
    rw [← hpath]
    exact hself
  · intro q hq
    refine (hp.recordPath q).trans (if_neg ?_)
    rintro rfl
    exact hq List.prefix_rfl
  · intro q hne hq
    have heq : q = entry.path := by
      rw [hpath] at hq ⊢
      exact hq.eq_of_length_le (List.length_pos_iff.mpr hne)
    rw [if_pos heq, heq]
    exact ⟨index, hself, (hp.weight _).trans (if_pos rfl)⟩
  · intro i e he hnot
    refine (hp.weight i).trans ?_
    rw [if_neg, he]
    rintro rfl
    rcases hp.lookup with hlookup | ⟨-, hnone⟩
    · exact hnot _ List.prefix_rfl hlookup
    · rw [he] at hnone
      cases hnone
  · intro e
    refine (hp.edges e).trans ?_
    refine (or_iff_left ?_).symm
    rintro ⟨q, c, hne, hq, -⟩
    rw [hpath] at hq
    have hlen := hq.length_le
    rw [List.length_append, List.length_singleton, List.length_singleton] at hlen
    exact hne (List.length_eq_zero_iff.mp (by omega))

/-- An entry with a parent gets an edge from it. -/
theorem Placed.added_child (h : Inv g) (hp : Placed g entry index g') {q : PathBuf}
    {name : PathComponent} (hpath : entry.path = q ++ [name]) (hne : q ≠ []) {parentIndex : ℕ}
    {g₂ : IngestionEntryGraph} (ha : Added g' (.dir q) parentIndex g₂) :
    Added g entry index
      ({ g₂ with graph := g₂.graph.addEdge parentIndex index }.recordPath entry.path index) := by
  have hinv := hp.inv h
  have hnot : ¬entry.path <+: q := by
    intro hpre
    have hlen := hpre.length_le
    rw [hpath, List.length_append, List.length_singleton] at hlen
    omega
  have hbefore : g₂.pathToIndex.lookup entry.path = g.pathToIndex.lookup entry.path := by
    rw [ha.untouched entry.path hnot, hp.pathToIndex]
  have hself : (g₂.pathToIndex.insert entry.path index).lookup entry.path = some index :=
    AList.lookup_insert _
  have hother : ∀ r, r ≠ entry.path →
      (g₂.pathToIndex.insert entry.path index).lookup r = g₂.pathToIndex.lookup r :=
    fun r hr => AList.lookup_insert_ne hr
  have hkept : ∀ r i, g₂.pathToIndex.lookup r = some i →
      (g₂.pathToIndex.insert entry.path index).lookup r = some i := by
    intro r i hr
    by_cases heq : r = entry.path
    · rw [heq, hbefore] at hr
      rw [heq, hself]
      rcases hp.lookup with hlookup | ⟨hnone, -⟩
      · rw [← hlookup, hr]
      · rw [hr] at hnone
        cases hnone
    · rw [hother r heq, hr]
  -- no directory above has the node of the entry
  have hweight : g₂.graph.nodeWeight index = some entry := by
    apply ha.weight index entry ((hp.weight index).trans (if_pos rfl))
    intro r hr hlookup
    obtain ⟨e, he, rfl⟩ := hinv.node r index hlookup
    rw [hp.weight, if_pos rfl, Option.some.injEq] at he
    rw [he] at hnot
    exact hnot hr
  have hparent : (g₂.pathToIndex.insert entry.path index).lookup q = some parentIndex :=
    hkept q parentIndex ha.lookup_path
  have hprefixes : ∀ r, r <+: entry.path ↔ r = entry.path ∨ r <+: q := by
    intro r
    rw [hpath]
    exact List.prefix_concat_iff
  refine ⟨⟨?_, ?_, ?_, ?_, ?_⟩, hself, ?_, ?_, ?_, ?_, ?_⟩
  · intro r i hr
    by_cases heq : r = entry.path
    · rw [heq] at hr
      cases hself.symm.trans hr
      exact ⟨entry, hweight, heq.symm⟩
    · exact ha.inv.node r i ((hother r heq).symm.trans hr)
  · intro i j he
    rcases EdgeGraph.mem_edges_addEdge.mp he with he | heq
    · obtain ⟨r, c, hr, hi, hj⟩ := ha.inv.edge i j he
      exact ⟨r, c, hr, hkept r i hi, hkept _ j hj⟩
    · cases heq
      refine ⟨q, name, hne, hparent, ?_⟩
      rw [← hpath]
      exact hself
  · intro i j he
    rcases EdgeGraph.mem_edges_addEdge.mp he with he | heq
    · exact ha.inv.dir i j he
    · cases heq
      obtain ⟨i, hi, hdir⟩ := ha.touched q hne List.prefix_rfl
      cases ha.lookup_path.symm.trans hi
      refine ⟨_, hdir, ?_⟩
      rw [ite_self]
      rfl
  · intro r i hr
    by_cases heq : r = entry.path
    · obtain ⟨c, root, hroot, hlookup, hpre⟩ := ha.inv.root q parentIndex ha.lookup_path
      refine ⟨c, root, hroot, hkept _ root hlookup, ?_⟩
      rw [heq]
      exact hpre.trans ((hprefixes q).mpr (.inr List.prefix_rfl))
    · obtain ⟨c, root, hroot, hlookup, hpre⟩ := ha.inv.root r i ((hother r heq).symm.trans hr)
      exact ⟨c, root, hroot, hkept _ root hlookup, hpre⟩
  · intro root hroot
    obtain ⟨c, hlookup⟩ := ha.inv.rootNode root hroot
    exact ⟨c, hkept _ root hlookup⟩
  · intro r i hr
    apply hkept
    apply ha.kept
    rw [hp.pathToIndex]
    exact hr
  · intro r hr
    rw [hprefixes, not_or] at hr
    refine (hother r hr.1).trans ?_
    rw [ha.untouched r hr.2, hp.pathToIndex]
  · intro r hr hpre
    rcases (hprefixes r).mp hpre with heq | hpre
    · rw [if_pos heq, heq]
      exact ⟨index, hself, hweight⟩
    · obtain ⟨i, hi, hdir⟩ := ha.touched r hr hpre
      refine ⟨i, hkept r i hi, ?_⟩
      have hr' : r ≠ entry.path := by
        rintro rfl
        exact hnot hpre
      rw [if_neg hr']
      refine hdir.trans (congrArg some ?_)
      split_ifs with heq
      · rw [heq]
        rfl
      · rfl
  · intro i e he hnone
    have hi : i ≠ index := by
      rintro rfl
      rcases hp.lookup with hlookup | ⟨-, hnew⟩
      · exact hnone _ List.prefix_rfl hlookup
      · rw [he] at hnew
        cases hnew
    apply ha.weight i e
    · rw [hp.weight, if_neg hi, he]
    · intro r hr
      rw [hp.pathToIndex]
      exact hnone r ((hprefixes r).mpr (.inr hr))
  · intro e
    refine EdgeGraph.mem_edges_addEdge.trans ?_
    rw [ha.edges, hp.edges]
    have hdirq : (IngestionEntry.dir q).isDir = true := rfl
    simp only [hdirq, imp_true_iff, and_true, or_assoc]
    refine or_congr_right ?_
    constructor
    · rintro (⟨r, c, hr, hpre, hi, hj⟩ | heq)
      · exact ⟨r, c, hr, (hprefixes _).mpr (.inr hpre), hkept r _ hi, hkept _ _ hj⟩
      · rw [heq]
        refine ⟨q, name, hne, ?_, hparent, ?_⟩
        · rw [hpath]
        · rw [← hpath]
          exact hself
    · rintro ⟨r, c, hr, hpre, hi, hj⟩
      rcases (hprefixes _).mp hpre with heq | hpre
      · right
        rw [hpath] at heq
        obtain ⟨rfl, hc⟩ := List.append_inj' heq rfl
        rw [List.singleton_inj.mp hc, ← hpath] at hj
        cases hi.symm.trans hparent
        cases hj.symm.trans hself
        rfl
      · left
        have hr' : r ≠ entry.path := by
          rintro rfl
          exact hnot ((List.prefix_append _ _).trans hpre)
        have hrc' : r ++ [c] ≠ entry.path := by
          intro heq
          rw [heq] at hpre
          exact hnot hpre
        exact ⟨r, c, hr, hpre, (hother r hr').symm.trans hi, (hother _ hrc').symm.trans hj⟩

theorem checkRoot_spec (h : Inv g) (name : PathComponent) :
    g.checkRoot [name] = .ok () ∧
        (∀ root, g.rootNode = some root → g.pathToIndex.lookup [name] = some root) ∨
      g.checkRoot [name] = .error .unexpectedNumberOfTopLevelEntries := by
  unfold checkRoot
  cases hroot : g.rootNode with
  | none =>
    refine .inl ⟨rfl, ?_⟩
    intro root hroot'
    cases hroot'
  | some root =>
    obtain ⟨c, hc⟩ := h.rootNode root hroot
    obtain ⟨e, he, hpath⟩ := h.node _ _ hc
    simp only [he]
    split_ifs with hne
    · exact .inr rfl
    · refine .inl ⟨rfl, ?_⟩
      intro root' hroot'
      cases hroot'
      rw [← not_not.mp hne, hpath]
      exact hc

/-- The directories above an entry replace no directory. -/
theorem removesAll_dir (path : PathBuf) (g : IngestionEntryGraph) : RemovesAll (.dir path) g := by
  unfold RemovesAll
  split
  · trivial
  · intro hdir
    cases hdir

theorem addAt_spec {n : ℕ} (h : Inv g) (hremoves : RemovesAll entry g)
    (hlength : entry.path.length = n + 1) :
    (∃ index g', addAt debug (n + 1) entry g = .ok (index, g') ∧ Added g entry index g') ∨
      addAt debug (n + 1) entry g = .error .unexpectedNumberOfTopLevelEntries := by
  induction n generalizing entry g with
  | zero =>
    obtain ⟨name, hname⟩ := List.length_eq_one_iff.mp hlength
    obtain ⟨index, g₁, hplace, hp⟩ := @place_spec debug g entry h hremoves
    simp only [addAt, hplace, bind, Except.bind]
    rw [hname]
    obtain ⟨hcheck, hroot⟩ | hcheck := checkRoot_spec (hp.inv h) name
    · simp only [hcheck]
      rw [hp.pathToIndex, hp.rootNode] at hroot
      refine .inl ⟨_, _, rfl, ?_⟩
      rw [← hname]
      exact hp.added_root h hname hroot
    · simp only [hcheck]
      exact .inr trivial
  | succ n ih =>
    obtain ⟨index, g₁, hplace, hp⟩ := @place_spec debug g entry h hremoves
    have hne : entry.path ≠ [] := by
      intro hnil
      rw [hnil] at hlength
      cases hlength
    have hsplit := List.dropLast_append_getLast hne
    have hdrop : (IngestionEntry.dir entry.path.dropLast).path.length = n + 1 := by
      show entry.path.dropLast.length = n + 1
      rw [List.length_dropLast, hlength]
      rfl
    have hdropNe : entry.path.dropLast ≠ [] := by
      intro hnil
      rw [show (IngestionEntry.dir entry.path.dropLast).path = entry.path.dropLast from rfl, hnil]
        at hdrop
      cases hdrop
    simp only [addAt, hplace, bind, Except.bind]
    obtain ⟨parentIndex, g₂, hadd, ha⟩ | herror :=
      ih (hp.inv h) (removesAll_dir entry.path.dropLast g₁) hdrop
    · simp only [hadd]
      exact .inl ⟨_, _, rfl, hp.added_child h hsplit.symm hdropNe ha⟩
    · simp only [herror]
      exact .inr trivial

/-- An entry is added, unless it is another root. -/
theorem add_spec (h : Inv g) (hremoves : RemovesAll entry g) (hne : entry.path ≠ []) :
    (∃ index g', g.add debug entry = .ok (index, g') ∧ Added g entry index g') ∨
      g.add debug entry = .error .unexpectedNumberOfTopLevelEntries := by
  unfold add
  obtain ⟨n, hn⟩ := Nat.exists_eq_succ_of_ne_zero (mt List.length_eq_zero_iff.mp hne)
  rw [hn]
  exact addAt_spec h hremoves hn

/-- Every step of a run meets a condition on the entry and the graph before. -/
def Meets (debug : Bool) (C : IngestionEntry → IngestionEntryGraph → Prop) :
    List IngestionEntry → IngestionEntryGraph → Prop
  | [], _ => True
  | entry :: entries, g => C entry g ∧
    match g.add debug entry with
    | .error _ => True
    | .ok (_, g) => Meets debug C entries g

theorem Meets.mono {C C' : IngestionEntry → IngestionEntryGraph → Prop} (hC : ∀ e g, C e g → C' e g)
    {entries : List IngestionEntry} (h : Meets debug C entries g) : Meets debug C' entries g := by
  induction entries generalizing g with
  | nil => exact trivial
  | cons entry entries ih =>
    obtain ⟨hentry, hrest⟩ := h
    refine ⟨hC _ _ hentry, ?_⟩
    cases hadd : g.add debug entry with
    | error e => exact trivial
    | ok result =>
      rw [hadd] at hrest
      exact ih hrest

/-- A run that keeps something at each of its steps. -/
theorem addAll_induction {C : IngestionEntry → IngestionEntryGraph → Prop}
    {motive : IngestionEntryGraph → Prop} {entries : List IngestionEntry}
    (hmeets : Meets debug C entries g) (hstart : motive g)
    (hstep : ∀ entry ∈ entries, ∀ g index g', motive g → C entry g →
      g.add debug entry = .ok (index, g') → motive g')
    (hadd : addAll debug entries g = .ok g') : motive g' := by
  induction entries generalizing g with
  | nil =>
    cases hadd
    exact hstart
  | cons entry entries ih =>
    unfold addAll at hadd
    cases hentry : g.add debug entry with
    | error e =>
      rw [hentry] at hadd
      cases hadd
    | ok result =>
      obtain ⟨index, g₁⟩ := result
      rw [hentry] at hadd
      obtain ⟨hC, hrest⟩ := hmeets
      rw [hentry] at hrest
      apply ih hrest _ _ hadd
      · exact hstep entry List.mem_cons_self g index g₁ hstart hC hentry
      · intro entry' hmem
        exact hstep entry' (List.mem_cons_of_mem entry hmem)

theorem added_of_add (h : Inv g) (hremoves : RemovesAll entry g) (hne : entry.path ≠ [])
    (hadd : g.add debug entry = .ok (index, g')) : Added g entry index g' := by
  obtain ⟨index', g₁, hok, ha⟩ | herror := @add_spec debug g entry h hremoves hne
  · cases hadd.symm.trans hok
    exact ha
  · rw [hadd] at herror
    cases herror

theorem inv_of_addAll {entries : List IngestionEntry} (hpaths : ∀ e ∈ entries, e.path ≠ [])
    (hmeets : Meets debug RemovesAll entries new)
    (hadd : addAll debug entries new = .ok g) : Inv g := by
  refine addAll_induction hmeets inv_new ?_ hadd
  intro entry hentry g₁ index g₂ hinv hremoves hok
  exact (added_of_add hinv hremoves (hpaths entry hentry) hok).inv

end IngestionEntryGraph

end Snix.Castore
