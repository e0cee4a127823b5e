import Snix.Castore.Import.ArchiveStream
import Snix.Lib.PathMap

/-!
# The last entry wins

The entries of an archive, taken in order, describe a tree: an entry replaces what was
at its path, with everything below it, unless both are directories.

The graph forgets the edges of what is replaced, not the nodes below it. A directory
below keeps its own edges, and when it is entered again, what was below it is back.
What is listed is the tree as long as this does not happen, and every replacement
removes all edges.

## Main definitions

- `contentsOf` — the tree that the entries describe
- `NothingReturns` — no directory is entered again that has lost its place, but not what is below it
- `Live`, `Linked` — the graph, path by path
- `Matches` — the graph is a tree

## Main results

- `live_of_added` — what is in the tree after an entry
- `matches_of_added` — what one entry does to the tree
- `addAll_describes`
- `not_describes_returning` — something that was dropped is back
-/

namespace Snix.Castore

/-- The tree that the entries of an archive describe. -/
def contentsOf (entries : List IngestionEntry) : PathMap PathComponent IngestionEntry :=
  entries.foldl (fun t e => PathMap.place IngestionEntry.isDir .dir e.path e t) fun _ => none

/-- A list has what is in a tree, each path once. -/
structure Describes (out : List IngestionEntry) (t : PathMap PathComponent IngestionEntry) :
    Prop where
  nodup : (out.map IngestionEntry.path).Nodup
  mem_iff : ∀ e, e ∈ out ↔ t e.path = some e

namespace IngestionEntryGraph

/-- The nodes that can be reached from the root. -/
def reached (g : IngestionEntryGraph) : List ℕ :=
  match g.rootNode with
  | none => []
  | some root => g.graph.toDiGraph.postOrder root

/-- A directory that an entry names or is in can be reached from the root, or has nothing below
    it. -/
def NothingReturns (entry : IngestionEntry) (g : IngestionEntryGraph) : Prop :=
  ∀ q ∈ entry.path.inits, (q = entry.path → entry.isDir = true) →
    match g.pathToIndex.lookup q with
    | none => True
    | some index => index ∈ g.reached ∨ g.graph.edgesFrom index = []

instance (entry : IngestionEntry) (g : IngestionEntryGraph) :
    Decidable (NothingReturns entry g) := by
  unfold NothingReturns
  have hdecidable : ∀ q, Decidable (match g.pathToIndex.lookup q with
      | none => True
      | some index => index ∈ g.reached ∨ g.graph.edgesFrom index = []) := by
    intro q
    cases g.pathToIndex.lookup q <;> infer_instance
  infer_instance

/-- What is at a path can be reached from the root. -/
def Live (g : IngestionEntryGraph) (q : PathBuf) : Prop :=
  ∃ root i, g.rootNode = some root ∧ g.pathToIndex.lookup q = some i ∧
    g.graph.toDiGraph.Reachable root i

/-- There is an edge from one path to another. -/
def Linked (g : IngestionEntryGraph) (q r : PathBuf) : Prop :=
  ∃ i j, g.pathToIndex.lookup q = some i ∧ g.pathToIndex.lookup r = some j ∧ (i, j) ∈ g.graph.edges

def valueAt (g : IngestionEntryGraph) (q : PathBuf) : Option IngestionEntry :=
  (g.pathToIndex.lookup q).bind g.graph.nodeWeight

/-- The graph is a tree. -/
def Matches (g : IngestionEntryGraph) (t : PathMap PathComponent IngestionEntry) : Prop :=
  ∀ q e, t q = some e ↔ Live g q ∧ g.valueAt q = some e

variable {debug : Bool} {g g' : IngestionEntryGraph} {entry : IngestionEntry} {index : ℕ}
  {t : PathMap PathComponent IngestionEntry}

theorem valueAt_of_lookup {q : PathBuf} {i : ℕ} (h : g.pathToIndex.lookup q = some i) :
    g.valueAt q = g.graph.nodeWeight i := by
  unfold valueAt
  rw [h, Option.bind_some]

theorem not_live_nil (h : Inv g) : ¬Live g [] := by
  rintro ⟨root, i, -, hi, -⟩
  obtain ⟨name, -, -, -, hpre⟩ := h.root [] i hi
  exact List.cons_ne_nil _ _ (List.prefix_nil.mp hpre)

/-- The root has the only path with one component. -/
theorem Inv.live_singleton (h : Inv g) {name : PathComponent} {i : ℕ}
    (hi : g.pathToIndex.lookup [name] = some i) : Live g [name] := by
  obtain ⟨c, root, hroot, hlookup, hpre⟩ := h.root [name] i hi
  have heq : [c] = [name] := hpre.eq_of_length rfl
  rw [heq] at hlookup
  exact ⟨root, root, hroot, hlookup, .refl⟩

/-- What is below another path can be reached from there. -/
theorem Inv.live_concat (h : Inv g) {q : PathBuf} (hne : q ≠ []) (name : PathComponent) :
    Live g (q ++ [name]) ↔ Live g q ∧ Linked g q (q ++ [name]) := by
  constructor
  · rintro ⟨root, i, hroot, hi, hreach⟩
    rcases Relation.ReflTransGen.cases_tail hreach with heq | ⟨k, hk, hedge⟩
    · obtain ⟨c, hc⟩ := h.rootNode root hroot
      rw [heq] at hi
      have hpath := h.lookup_inj hc hi
      have hlen := congrArg List.length hpath
      rw [List.length_append, List.length_singleton, List.length_singleton] at hlen
      exact absurd (List.length_eq_zero_iff.mp (by omega)) hne
    · obtain ⟨r, c, -, hr, hrc⟩ := h.edge k i hedge
      obtain ⟨rfl, -⟩ := List.append_inj' (h.lookup_inj hrc hi) rfl
      exact ⟨⟨root, k, hroot, hr, hk⟩, k, i, hr, hi, hedge⟩
  · rintro ⟨⟨root, k, hroot, hk, hreach⟩, i, j, hi, hj, hedge⟩
    cases hk.symm.trans hi
    exact ⟨root, j, hroot, hj, hreach.tail hedge⟩

/-- What has something below it is a directory that can be reached. -/
theorem Inv.above_live (h : Inv g) {q l : PathBuf} (hne : q ≠ []) (hl : l ≠ [])
    (hlive : Live g (q ++ l)) : Live g q ∧ (g.valueAt q).any IngestionEntry.isDir = true := by
  induction l using List.reverseRecOn with
  | nil => exact absurd rfl hl
  | append_singleton l name ih =>
    rw [← List.append_assoc] at hlive
    have hne' : q ++ l ≠ [] := List.append_ne_nil_of_left_ne_nil hne l
    obtain ⟨hlive', i, j, hi, -, hedge⟩ := (h.live_concat hne' name).mp hlive
    by_cases hnil : l = []
    · rw [hnil, List.append_nil] at hlive' hi
      refine ⟨hlive', ?_⟩
      obtain ⟨e, he, hdir⟩ := h.dir i j hedge
      rw [valueAt_of_lookup hi, he]
      exact hdir
    · exact ih hnil hlive'

theorem Matches.nested (h : Inv g) (hm : Matches g t) : PathMap.Nested IngestionEntry.isDir t := by
  rintro q r hne ⟨l, rfl⟩ hqr hr
  obtain ⟨e, he⟩ := Option.ne_none_iff_exists'.mp hr
  have hl : l ≠ [] := by
    rintro rfl
    exact hqr (List.append_nil q).symm
  obtain ⟨hlive, hdir⟩ := h.above_live hne hl ((hm _ e).mp he).1
  cases hvalue : g.valueAt q with
  | none =>
    rw [hvalue] at hdir
    cases hdir
  | some v =>
    rw [hvalue] at hdir
    rw [(hm q v).mpr ⟨hlive, hvalue⟩]
    exact hdir

-- ====================
-- One entry
-- ====================

/-- The edges after an entry: those towards it are there, and those from it only if it is a
    directory. -/
theorem Added.linked (h : Inv g) (ha : Added g entry index g') (q : PathBuf) (name : PathComponent) :
    Linked g' q (q ++ [name]) ↔
      Linked g q (q ++ [name]) ∧ (q = entry.path → entry.isDir = true) ∨
        q ≠ [] ∧ q ++ [name] <+: entry.path := by
  constructor
  · rintro ⟨i, j, hi, hj, hedge⟩
    rcases (ha.edges _).mp hedge with ⟨hold, hdir⟩ | ⟨r, c, hr, hpre, hri, hrj⟩
    · obtain ⟨r, c, hr, hri, hrj⟩ := h.edge i j hold
      have hq := ha.inv.lookup_inj hi (ha.kept r i hri)
      have hqj := ha.inv.lookup_inj hj (ha.kept _ j hrj)
      refine .inl ⟨⟨i, j, ?_, ?_, hold⟩, fun heq => hdir ?_⟩
      · rw [hq, hri]
      · rw [hqj, hrj]
      · rw [heq, ha.lookup_path] at hi
        cases hi
        rfl
    · have hq := ha.inv.lookup_inj hi hri
      have hqj := ha.inv.lookup_inj hj hrj
      rw [hqj, hq]
      exact .inr ⟨hr, hpre⟩
  · rintro (⟨⟨i, j, hi, hj, hedge⟩, hdir⟩ | ⟨hne, hpre⟩)
    · refine ⟨i, j, ha.kept q i hi, ha.kept _ j hj, (ha.edges _).mpr (.inl ⟨hedge, fun heq => ?_⟩)⟩
      apply hdir
      have heq' : i = index := heq
      apply ha.inv.lookup_inj (ha.kept q i hi)
      rw [heq']
      exact ha.lookup_path
    · obtain ⟨i, hi, -⟩ := ha.touched q hne ((List.prefix_append q [name]).trans hpre)
      obtain ⟨j, hj, -⟩ := ha.touched _ (List.concat_ne_nil name q) hpre
      exact ⟨i, j, hi, hj, (ha.edges _).mpr (.inr ⟨q, name, hne, hpre, hi, hj⟩)⟩

/-- An entry is in the tree, and so are the directories above it. -/
theorem Added.live_of_prefix (ha : Added g entry index g') (h : Inv g) {q : PathBuf} (hne : q ≠ [])
    (hpre : q <+: entry.path) : Live g' q := by
  induction q using List.reverseRecOn with
  | nil => exact absurd rfl hne
  | append_singleton q name ih =>
    by_cases hq : q = []
    · subst hq
      obtain ⟨i, hi, -⟩ := ha.touched _ hne hpre
      exact ha.inv.live_singleton hi
    · rw [ha.inv.live_concat hq]
      refine ⟨ih hq ((List.prefix_append q [name]).trans hpre), ?_⟩
      exact (ha.linked h q name).mpr (.inr ⟨hq, hpre⟩)

theorem Inv.mem_reached (h : Inv g) {i : ℕ} :
    i ∈ g.reached ↔ ∃ root, g.rootNode = some root ∧ g.graph.toDiGraph.Reachable root i := by
  unfold reached
  cases hroot : g.rootNode with
  | none => simp
  | some root =>
    rw [(DiGraph.isPostOrder_postOrder h.acyclic root).mem_iff]
    simp

/-- What an entry enters has nothing below it that is not in the tree. -/
theorem NothingReturns.live (hreturns : NothingReturns entry g) (h : Inv g) {q r : PathBuf}
    (hpre : q <+: entry.path) (hdir : q = entry.path → entry.isDir = true)
    (hlinked : Linked g q r) : Live g q := by
  obtain ⟨i, j, hi, -, hedge⟩ := hlinked
  have hq := hreturns q ((List.mem_inits q entry.path).mpr hpre) hdir
  rw [hi] at hq
  rcases hq with hmem | hnil
  · obtain ⟨root, hroot, hreach⟩ := h.mem_reached.mp hmem
    exact ⟨root, i, hroot, hi, hreach⟩
  · obtain ⟨k, hk⟩ := List.mem_iff_getElem?.mp hedge
    have hmem := EdgeGraph.mem_edgesFrom.mpr ⟨j, hk⟩
    rw [hnil] at hmem
    cases hmem

/-- What else is in the tree after an entry: what was, unless it is below something that is no
    directory now. -/
theorem live_of_added (h : Inv g) (ha : Added g entry index g')
    (hreturns : NothingReturns entry g) {q : PathBuf} (hne : q ≠ []) (hpre : ¬q <+: entry.path) :
    Live g' q ↔ Live g q ∧ ¬(entry.path <+: q ∧ entry.isDir = false) := by
  induction q using List.reverseRecOn with
  | nil => exact absurd rfl hne
  | append_singleton q name ih =>
    by_cases hq : q = []
    · -- another root
      subst hq
      have hnot : ∀ i, g'.pathToIndex.lookup [name] ≠ some i := by
        intro i hi
        obtain ⟨c, root, hroot, hlookup, hc⟩ := ha.inv.root _ i hi
        obtain ⟨c', root', hroot', hlookup', hc'⟩ := ha.inv.root _ index ha.lookup_path
        have hsame : [c] = [name] := hc.eq_of_length rfl
        cases hroot.symm.trans hroot'
        rw [ha.inv.lookup_inj hlookup' hlookup, hsame] at hc'
        exact hpre hc'
      refine iff_of_false ?_ ?_
      · rintro ⟨-, i, -, hi, -⟩
        exact hnot i hi
      · rintro ⟨⟨-, i, -, hi, -⟩, -⟩
        exact hnot i (ha.kept _ i hi)
    · rw [ha.inv.live_concat hq, h.live_concat hq, ha.linked h]
      have hchain : ¬(q ≠ [] ∧ q ++ [name] <+: entry.path) := fun hc => hpre hc.2
      have hpathne : entry.path ≠ q ++ [name] := by
        intro heq
        rw [heq] at hpre
        exact hpre List.prefix_rfl
      rw [or_iff_left hchain, List.prefix_concat_iff, or_iff_right hpathne]
      by_cases hqprefix : q <+: entry.path
      · have hlive' := ha.live_of_prefix h hq hqprefix
        have hiff : entry.path <+: q ↔ q = entry.path := by
          constructor
          · intro hle
            exact hqprefix.eq_of_length_le hle.length_le
          · intro heq
            rw [heq]
        rw [hiff]
        constructor
        · rintro ⟨-, hlinked, hdir⟩
          refine ⟨⟨hreturns.live h hqprefix hdir hlinked, hlinked⟩, ?_⟩
          rintro ⟨heq, hnot⟩
          rw [hdir heq] at hnot
          cases hnot
        · rintro ⟨⟨-, hlinked⟩, hnot⟩
          refine ⟨hlive', hlinked, fun heq => ?_⟩
          rw [← Bool.not_eq_false]
          exact fun hfalse => hnot ⟨heq, hfalse⟩
      · rw [ih hq hqprefix]
        have hqne : q ≠ entry.path := by
          rintro rfl
          exact hqprefix List.prefix_rfl
        constructor
        · rintro ⟨⟨hlive, hnot⟩, hlinked, -⟩
          exact ⟨⟨hlive, hlinked⟩, hnot⟩
        · rintro ⟨⟨hlive, hlinked⟩, hnot⟩
          exact ⟨⟨hlive, hnot⟩, hlinked, fun heq => absurd heq hqne⟩

theorem Added.valueAt_of_prefix (ha : Added g entry index g') {q : PathBuf} (hne : q ≠ [])
    (hpre : q <+: entry.path) :
    g'.valueAt q = some (if q = entry.path then entry else .dir q) := by
  obtain ⟨i, hi, hweight⟩ := ha.touched q hne hpre
  rw [valueAt_of_lookup hi, hweight]

theorem Added.valueAt_of_not_prefix (h : Inv g) (ha : Added g entry index g') {q : PathBuf}
    (hpre : ¬q <+: entry.path) : g'.valueAt q = g.valueAt q := by
  unfold valueAt
  rw [ha.untouched q hpre]
  cases hq : g.pathToIndex.lookup q with
  | none => rfl
  | some i =>
    obtain ⟨e, he, -⟩ := h.node q i hq
    rw [Option.bind_some, Option.bind_some, he]
    apply ha.weight i e he
    intro r hr hlookup
    rw [h.lookup_inj hq hlookup] at hpre
    exact hpre hr

/-- An entry does the same to the graph and to the tree. -/
theorem matches_of_added (h : Inv g) (ha : Added g entry index g') (hne : entry.path ≠ [])
    (hreturns : NothingReturns entry g) (hm : Matches g t) :
    Matches g' (PathMap.place IngestionEntry.isDir .dir entry.path entry t) := by
  intro q e
  rw [PathMap.place_eq (fun _ => rfl) (hm.nested h) hne]
  by_cases hq : q = []
  · -- nothing is at the empty path
    have hnone : t q = none := by
      rw [Option.eq_none_iff_forall_ne_some]
      intro e' he'
      rw [hm q e', hq] at he'
      exact not_live_nil h he'.1
    rw [if_neg (by rw [hq]; exact hne.symm), if_neg fun hc => hc.1 hq, hnone, ite_self]
    refine iff_of_false (by simp) ?_
    rw [hq]
    exact fun hlive => not_live_nil ha.inv hlive.1
  by_cases hpre : q <+: entry.path
  · have hvalue := ha.valueAt_of_prefix hq hpre
    have hlive := ha.live_of_prefix h hq hpre
    rw [hvalue, and_iff_right hlive]
    by_cases heq : q = entry.path
    · rw [if_pos heq, if_pos heq]
    · rw [if_neg heq, if_neg heq, if_pos ⟨hq, hpre⟩]
  · have heq : q ≠ entry.path := by
      rintro rfl
      exact hpre List.prefix_rfl
    rw [if_neg heq, if_neg fun hc => hpre hc.2, ha.valueAt_of_not_prefix h hpre,
      live_of_added h ha hreturns hq hpre]
    by_cases hbelow : entry.path <+: q ∧ entry.isDir = false
    · rw [if_pos hbelow]
      exact iff_of_false (by simp) fun hc => hc.1.2 hbelow
    · rw [if_neg hbelow, hm q e, and_iff_left hbelow]

theorem matches_new : Matches new fun _ => none := by
  intro q e
  refine iff_of_false (by simp) ?_
  rintro ⟨⟨root, i, hroot, -⟩, -⟩
  cases hroot

/-- A run does the same to the graph and to the tree. -/
theorem matches_of_addAll {entries : List IngestionEntry} (h : Inv g) (hm : Matches g t)
    (hpaths : ∀ e ∈ entries, e.path ≠ [])
    (hmeets : Meets debug (fun e g => RemovesAll e g ∧ NothingReturns e g) entries g)
    (hadd : addAll debug entries g = .ok g') :
    Matches g'
      (entries.foldl (fun t e => PathMap.place IngestionEntry.isDir .dir e.path e t) t) := by
  induction entries generalizing g t with
  | nil =>
    cases hadd
    exact hm
  | cons entry entries ih =>
    unfold addAll at hadd
    obtain ⟨⟨hremoves, hreturns⟩, hrest⟩ := hmeets
    have hne := hpaths entry List.mem_cons_self
    cases hentry : g.add debug entry with
    | error e =>
      rw [hentry] at hadd
      cases hadd
    | ok result =>
      obtain ⟨index, g₁⟩ := result
      rw [hentry] at hadd hrest
      have ha := added_of_add h hremoves hne hentry
      exact ih ha.inv (matches_of_added h ha hne hreturns hm)
        (fun e he => hpaths e (List.mem_cons_of_mem entry he)) hrest hadd

/-- What is listed is the tree that the entries describe, if every replacement removes all edges and
    nothing that was dropped returns. -/
theorem addAll_describes (debug : Bool) (dfsPostOrder : EdgeGraph IngestionEntry → ℕ → List ℕ)
    (hdfs : ∀ graph : EdgeGraph IngestionEntry, graph.toDiGraph.Acyclic →
      ∀ root, graph.toDiGraph.IsPostOrder root (dfsPostOrder graph root))
    (entries : List IngestionEntry) (hpaths : ∀ e ∈ entries, e.path ≠ [])
    (hmeets : Meets debug (fun e g => RemovesAll e g ∧ NothingReturns e g) entries new)
    (g : IngestionEntryGraph) (hadd : addAll debug entries new = .ok g)
    (out : List IngestionEntry) (hfinalize : g.finalize dfsPostOrder = .ok out) :
    Describes out (contentsOf entries) := by
  have hinv := inv_of_addAll hpaths (hmeets.mono fun _ _ hC => hC.1) hadd
  have hm : Matches g (contentsOf entries) :=
    matches_of_addAll inv_new matches_new hpaths hmeets hadd
  obtain ⟨name, root, hlisted⟩ := listed_of_finalize hinv hdfs hfinalize
  refine ⟨(hlisted.validStream hinv).nodup, fun e => ?_⟩
  rw [hlisted.mem_iff, hm]
  constructor
  · rintro ⟨i, hreach, rfl⟩
    obtain ⟨q, hq, -⟩ := hinv.path_of_reachable hlisted.lookup hreach
    obtain ⟨hweight, hpath⟩ := hinv.weight_eq hq
    rw [hpath]
    refine ⟨⟨root, i, hlisted.rootNode, hq, hreach⟩, ?_⟩
    rw [valueAt_of_lookup hq, hweight]
  · rintro ⟨⟨root', i, hroot, hi, hreach⟩, hvalue⟩
    cases hroot.symm.trans hlisted.rootNode
    rw [valueAt_of_lookup hi, (hinv.weight_eq hi).1, Option.some.injEq] at hvalue
    exact ⟨i, hreach, hvalue⟩

theorem addAll_describes_replacing :
    Describes [emptyFile [archiveRoot, archiveRoot], .dir [archiveRoot]] (contentsOf replacing) :=
  addAll_describes true (fun graph root => graph.toDiGraph.postOrder root)
    (fun graph hacyclic root => DiGraph.isPostOrder_postOrder hacyclic root) replacing (by decide)
    ⟨by decide, by decide, trivial⟩ _ rfl _ rfl

/-- A directory is dropped with the directory in it, which is entered again. -/
def returning : List IngestionEntry :=
  [emptyFile [archiveRoot, archiveRoot, archiveRoot, archiveRoot],
    emptyFile [archiveRoot, archiveRoot], .dir [archiveRoot, archiveRoot, archiveRoot]]

/-- What was in a directory that was dropped is back when the directory is. -/
theorem not_describes_returning :
    ∃ (dfsPostOrder : EdgeGraph IngestionEntry → ℕ → List ℕ) (g : IngestionEntryGraph)
      (out : List IngestionEntry),
      (∀ graph : EdgeGraph IngestionEntry, graph.toDiGraph.Acyclic →
        ∀ root, graph.toDiGraph.IsPostOrder root (dfsPostOrder graph root)) ∧
      (∀ e ∈ returning, e.path ≠ []) ∧ addAll true returning new = .ok g ∧
      g.finalize dfsPostOrder = .ok out ∧
      emptyFile [archiveRoot, archiveRoot, archiveRoot, archiveRoot] ∈ out ∧
      contentsOf returning [archiveRoot, archiveRoot, archiveRoot, archiveRoot] = none ∧
      ¬Describes out (contentsOf returning) := by
  have hnone : contentsOf returning [archiveRoot, archiveRoot, archiveRoot, archiveRoot] = none := rfl
  refine ⟨fun graph root => graph.toDiGraph.postOrder root, _,
    [emptyFile [archiveRoot, archiveRoot, archiveRoot, archiveRoot],
      .dir [archiveRoot, archiveRoot, archiveRoot], .dir [archiveRoot, archiveRoot],
      .dir [archiveRoot]], ?_, by decide, rfl, rfl, List.mem_cons_self, hnone, ?_⟩
  · intro graph hacyclic root
    exact DiGraph.isPostOrder_postOrder hacyclic root
  · intro hdescribes
    have hsome := (hdescribes.mem_iff _).mp (List.mem_cons_self)
    rw [show (emptyFile [archiveRoot, archiveRoot, archiveRoot, archiveRoot]).path =
      [archiveRoot, archiveRoot, archiveRoot, archiveRoot] from rfl, hnone] at hsome
    cases hsome

end IngestionEntryGraph

end Snix.Castore
