import Snix.Store.Nar.Import
import Snix.Store.Nar.ListingStream

/-!
# Ingesting and rendering an archive

What is ingested from an archive has the same archive: rendering the node that
`ingestNar` returns, from the directories that were put and the blobs that were uploaded,
gives back the bytes that were read.

## Main definitions

- `NoCollisions` — the digests in an archive tell its parts apart

## Main results

- `arranged_below` — what is sent is in an order that is allowed
- `archive_of_fileTree` — the archive of a tree
- `ingestNar_writeNar` — what is ingested and rendered
-/

namespace Snix.Store

open Castore Nar

open Wire (TOK_PAR paddingLen)

/-- The reader that is polled knows the length of a file when it is opened. -/
theorem fileSpec_async (client : Bytes → Wish) :
    FileSpec (async client) Wire.State.len Async.view := by
  intro s hs
  rcases Wire.newReader_len_spec (t := .padPar) (fun _ => rfl : ∀ n, (fun _ => true) n = true)
      client hs.1 hs.2 with
    ⟨st, r₁, r', hwf, hdrop, hfaultless, hfair, hlen, hopen, hread⟩ | ⟨hwf, e, hfails⟩
  · have hparse : dropSizedContents (Async.view.rest s) = .ok (Wire.payload s.rest, r'.rest) :=
      dropSizedContents_eq_ok_iff.mpr (Async.packet_payload hwf hdrop)
    exact .inl ⟨_, st, r₁, r', hparse, ⟨hfaultless, hfair⟩, hlen, hopen, hread⟩
  · cases hparse : dropSizedContents (Async.view.rest s) with
    | ok x =>
      obtain ⟨hlt, hrest⟩ := dropSizedContents_eq_ok_iff.mp hparse
      refine absurd (Async.wellFormed_packet (r := x.2) hlt) ?_
      rw [← hrest]
      exact hwf
    | error d =>
      rw [Async.failsOnly_dropSizedContents _ d hparse]
      exact .inr ⟨_, e, rfl, Async.reported, hfails⟩

-- ====================
-- The order of the entries
-- ====================

section

variable {hash : Bytes → B3Digest}

/-- The names of the entries of an archive, in the order of the archive. -/
theorem fileTrees_cons {name : Bytes} {node : Tree} {rest : Entries} {trees : FileTrees}
    (h : fileTrees? hash (.cons name node rest) = some trees) :
    ∃ c t ts, PathComponent.tryFrom name = .ok c ∧ fileTree? hash node = some t ∧
      fileTrees? hash rest = some ts ∧ trees = .cons c t ts := by
  rw [fileTrees?] at h
  rcases hname : PathComponent.tryFrom name with e | c
  · rw [hname] at h
    cases h
  obtain ⟨c', hc', h⟩ := Option.bind_eq_some_iff.mp h
  obtain ⟨t, ht, h⟩ := Option.bind_eq_some_iff.mp h
  obtain ⟨ts, hts, h⟩ := Option.bind_eq_some_iff.mp h
  rw [hname] at hc'
  cases hc'
  exact ⟨c, t, ts, rfl, ht, hts, (Option.some.inj h).symm⟩

/-- Names ascend. -/
theorem lt_of_mem_fileTrees {entries : Entries} {trees : FileTrees} {prev : Bytes}
    (hvalid : entries.Valid prev) (h : fileTrees? hash entries = some trees)
    {e : PathComponent × FileTree} (he : e ∈ trees.toList) : prev < e.1.val := by
  cases entries with
  | nil =>
    cases h
    cases he
  | cons name node rest =>
    obtain ⟨c, t, ts, hc, -, hts, rfl⟩ := fileTrees_cons h
    obtain ⟨-, hlt, -, hrest⟩ := hvalid
    rcases List.mem_cons.mp he with rfl | he
    · rwa [PathComponent.val_of_tryFrom hc]
    · exact List.lt_trans hlt (lt_of_mem_fileTrees hrest hts he)

mutual

theorem valid_fileTree (tree : Tree) (hvalid : tree.Valid) {t : FileTree}
    (h : fileTree? hash tree = some t) : t.Valid := by
  cases tree with
  | symlink target =>
    obtain ⟨target', -, rfl⟩ := Option.map_eq_some_iff.mp h
    exact trivial
  | file executable contents =>
    cases h
    exact trivial
  | directory entries =>
    obtain ⟨ts, hts, rfl⟩ := Option.map_eq_some_iff.mp h
    exact valid_fileTrees entries hvalid hts

theorem valid_fileTrees (entries : Entries) {prev : Bytes} (hvalid : entries.Valid prev)
    {ts : FileTrees} (h : fileTrees? hash entries = some ts) : ts.Valid := by
  cases entries with
  | nil =>
    cases h
    exact trivial
  | cons name node rest =>
    obtain ⟨c, t, ts, hc, ht, hts, rfl⟩ := fileTrees_cons h
    obtain ⟨-, -, hnode, hrest⟩ := hvalid
    refine ⟨fun hmem => ?_, valid_fileTree node hnode ht, valid_fileTrees rest hrest hts⟩
    obtain ⟨e, he, heq⟩ := List.mem_map.mp hmem
    have hlt := lt_of_mem_fileTrees hrest hts he
    rw [heq, PathComponent.val_of_tryFrom hc] at hlt
    exact List.lt_irrefl _ hlt

end

end

mutual

/-- What is below a path and what is at it are the items of the tree. -/
theorem perm_below (tree : FileTree) (path : PathBuf) :
    (below path tree ++ [(⟨path, tree⟩ : Item)]).Perm (tree.items path) := by
  cases tree with
  | file digest size executable => exact .refl _
  | symlink target => exact .refl _
  | directory entries =>
    have hentries := (perm_entriesBelow entries path).cons ⟨path, .directory entries⟩
    exact List.perm_append_comm.trans hentries

theorem perm_entriesBelow (entries : FileTrees) (path : PathBuf) :
    (entriesBelow path entries).Perm (entries.items path) := by
  cases entries with
  | nil => exact .refl _
  | cons name tree rest =>
    have htree := perm_below tree (path ++ [name])
    have hrest := perm_entriesBelow rest path
    rw [entriesBelow, FileTrees.items, List.append_cons]
    exact htree.append hrest

end

theorem path_of_mem_below {tree : FileTree} {path : PathBuf} {item : Item}
    (h : item ∈ below path tree) : ∃ e, path ++ [e] <+: item.path := by
  cases tree with
  | file digest size executable => cases h
  | symlink target => cases h
  | directory entries =>
    obtain ⟨e, -, hprefix⟩ := entries.prefix_of_mem ((perm_entriesBelow entries path).subset h)
    exact ⟨e.1, hprefix⟩

/-- A path below a path is not its parent. -/
theorem parent_ne_of_prefix {path q r : PathBuf} {e : PathComponent} (h : path ++ [e] <+: q)
    (hr : r.length ≤ path.length + 1) : r.parent ≠ some q := by
  intro hparent
  obtain ⟨name, rfl⟩ := PathBuf.eq_concat_of_parent hparent
  have hle := h.length_le
  simp only [List.length_append, List.length_singleton] at hle hr
  omega

mutual

/-- Entries are sent before their directory. -/
theorem childrenFirst_below (tree : FileTree) (hvalid : tree.Valid) (path : PathBuf) :
    (below path tree ++ [(⟨path, tree⟩ : Item)]).Pairwise fun a b => b.path.parent ≠ some a.path := by
  rw [List.pairwise_append]
  refine ⟨?_, List.pairwise_singleton _ _, fun a ha b hb => ?_⟩
  · cases tree with
    | file digest size executable => exact List.Pairwise.nil
    | symlink target => exact List.Pairwise.nil
    | directory entries => exact childrenFirst_entriesBelow entries hvalid path
  · obtain ⟨e, hprefix⟩ := path_of_mem_below ha
    rw [List.mem_singleton.mp hb]
    exact parent_ne_of_prefix hprefix (Nat.le_succ _)

theorem childrenFirst_entriesBelow (entries : FileTrees) (hvalid : entries.Valid) (path : PathBuf) :
    (entriesBelow path entries).Pairwise fun a b => b.path.parent ≠ some a.path := by
  cases entries with
  | nil => exact List.Pairwise.nil
  | cons name tree rest =>
    obtain ⟨hname, htree, hrest⟩ := hvalid
    rw [entriesBelow, List.append_cons, List.pairwise_append]
    refine ⟨childrenFirst_below tree htree _, childrenFirst_entriesBelow rest hrest path,
      fun a ha b hb hparent => ?_⟩
    have ha' := tree.prefix_of_mem ((perm_below tree (path ++ [name])).subset ha)
    obtain ⟨e, he, hb'⟩ := rest.prefix_of_mem ((perm_entriesBelow rest path).subset hb)
    -- the paths of `a` and of `b` go on from `path` with different names
    obtain ⟨last, hlast⟩ := PathBuf.eq_concat_of_parent hparent
    have hlong : path ++ [e.1] <+: a.path := by
      refine List.prefix_of_prefix_length_le hb' ?_ ?_
      · rw [hlast]
        exact List.prefix_append _ _
      · simpa using ha'.length_le
    apply hname
    rw [eq_of_prefix_concat ha' hlong]
    exact List.mem_map_of_mem he

end

/-- What is sent is in an order that is allowed. -/
theorem arranged_below {tree : FileTree} (hvalid : tree.Valid) (path : PathBuf) :
    Arranged ⟨path, tree⟩ (below path tree ++ [⟨path, tree⟩]) where
  toLayout := (layout_items tree hvalid path).of_perm (perm_below tree path)
  childrenFirst := childrenFirst_below tree hvalid path
  last := List.getLast?_concat

-- ====================
-- The archive of what was ingested
-- ====================

theorem cmp_of_val_lt {a b : PathComponent} (h : a.val < b.val) : PathComponent.cmp a b = .lt := by
  cases hcmp : PathComponent.cmp a b with
  | lt => rfl
  | eq =>
    rw [PathComponent.eq_of_cmp hcmp] at h
    exact absurd h (List.lt_irrefl _)
  | gt =>
    have hlt := PathComponent.val_lt_of_cmp (Std.OrientedCmp.gt_iff_lt.mp hcmp)
    exact absurd (List.lt_trans h hlt) (List.lt_irrefl _)

section

variable {hash : Bytes → B3Digest} {digest : Castore.Directory → B3Digest}
  {store : DigestMap Castore.Directory} {blobs : DigestMap Bytes}

/-- The names of a tree ascend. -/
theorem pairwise_fileTrees {entries : Entries} {trees : FileTrees} {prev : Bytes}
    (hvalid : entries.Valid prev) (h : fileTrees? hash entries = some trees) :
    (trees.toList.map fun e => (e.1, e.2.node digest)).Pairwise (entryLt PathComponent.cmp) := by
  cases entries with
  | nil =>
    cases h
    exact List.Pairwise.nil
  | cons name node rest =>
    obtain ⟨c, t, ts, hc, -, hts, rfl⟩ := fileTrees_cons h
    obtain ⟨-, -, -, hrest⟩ := hvalid
    rw [FileTrees.toList, List.map_cons, List.pairwise_cons]
    refine ⟨fun e he => ?_, pairwise_fileTrees hrest hts⟩
    obtain ⟨e', he', rfl⟩ := List.mem_map.mp he
    apply cmp_of_val_lt
    rw [PathComponent.val_of_tryFrom hc]
    exact lt_of_mem_fileTrees hrest hts he'

/-- The directory of an archive has its entries in the order of the archive. -/
theorem entries_directory {entries : Entries} {trees : FileTrees} {prev : Bytes}
    (hvalid : entries.Valid prev) (h : fileTrees? hash entries = some trees) :
    (trees.directory digest).nodes.entries = trees.toList.map fun e => (e.1, e.2.node digest) := by
  have hperm := @FileTrees.perm_directory digest trees
    (FileTrees.nodup_of_valid (valid_fileTrees entries hvalid h))
  have hsorted : (trees.directory digest).nodes = ⟨_, pairwise_fileTrees hvalid h⟩ :=
    SortedMap.eq_of_perm hperm
  rw [hsorted]

/-- The directories of a tree are in the store. -/
def Stored (digest : Castore.Directory → B3Digest) (store : DigestMap Castore.Directory)
    (items : List Item) : Prop :=
  ∀ d ∈ directoriesOf digest items, store.lookup (digest d) = some d

theorem Stored.of_subset {items items' : List Item} (h : Stored digest store items)
    (hsub : items' ⊆ items) : Stored digest store items' := by
  intro d hd
  obtain ⟨item, hitem, hdir⟩ := mem_directoriesOf.mp hd
  exact h d (mem_directoriesOf.mpr ⟨item, hsub hitem, hdir⟩)

mutual

/-- The outline of a tree, filled with the contents of its files, is its archive. -/
theorem fill_outline (tree : Tree) (hvalid : tree.Valid) {t : FileTree}
    (ht : fileTree? hash tree = some t) {path : PathBuf}
    (hstored : Stored digest store (t.items path))
    (hblobs : ∀ c ∈ contents tree, blobs.lookup (hash c) = some c) {n : ℕ} {pieces : List Piece}
    (h : outline store n (t.node digest) = some pieces) : fill blobs pieces = some tree.encode := by
  cases tree with
  | symlink target =>
    obtain ⟨target', htarget, rfl⟩ := Option.map_eq_some_iff.mp ht
    obtain ⟨target'', htry, hval⟩ := tryFrom_target hvalid
    rw [htry] at htarget
    cases htarget
    rw [FileTree.node, outline_symlink] at h
    cases h
    simp only [fill, Piece.fill, Option.bind_eq_bind, Option.bind_some, List.append_nil, hval,
      Tree.encode]
  | file executable c =>
    cases ht
    have hlen : (UInt64.ofNat c.length).toNat = c.length := UInt64.toNat_ofNat_of_lt hvalid
    rw [FileTree.node, outline_file, hlen] at h
    cases h
    simp only [fill, Piece.fill, Option.bind_eq_bind, hblobs c (List.mem_singleton_self c),
      Option.bind_some, if_true, List.append_nil, Tree.encode, fileHeader, fileFooter, packet,
      List.append_assoc]
  | directory entries =>
    obtain ⟨ts, hts, rfl⟩ := Option.map_eq_some_iff.mp ht
    have hd : store.lookup (digest (ts.directory digest)) = some (ts.directory digest) :=
      hstored _ (mem_directoriesOf_of_tree digest List.mem_cons_self rfl)
    rw [FileTree.node] at h
    cases n with
    | zero => cases h
    | succ n =>
      obtain ⟨rest, hrest, rfl⟩ := (outline_directory hd).mp h
      rw [entries_directory hvalid hts] at hrest
      have hfill := fill_outlineEntries entries hvalid hts
        (hstored.of_subset (List.subset_cons_self _ _)) hblobs hrest
      simp only [fill, Piece.fill, Option.bind_eq_bind, Option.bind_some, hfill, Tree.encode, sep,
        if_true, List.nil_append]

theorem fill_outlineEntries (entries : Entries) {prev : Bytes} (hvalid : entries.Valid prev)
    {ts : FileTrees} (hts : fileTrees? hash entries = some ts) {path : PathBuf}
    (hstored : Stored digest store (ts.items path))
    (hblobs : ∀ c ∈ entriesContents entries, blobs.lookup (hash c) = some c) {n : ℕ}
    {pieces : List Piece}
    (h : outlineEntries (outline store n) prev
      (ts.toList.map fun e => (e.1, e.2.node digest)) = some pieces) :
    fill blobs pieces = some (sep prev ++ entries.encode) := by
  cases entries with
  | nil =>
    cases hts
    cases h
    simp only [fill, Piece.fill, Option.bind_eq_bind, Option.bind_some, List.append_nil,
      Entries.encode]
  | cons name node rest =>
    obtain ⟨c, t, ts, hc, ht, hrestTrees, rfl⟩ := fileTrees_cons hts
    obtain ⟨hname, -, hnode, hrest⟩ := hvalid
    rw [FileTrees.toList, List.map_cons] at h
    obtain ⟨first, more, hfirst, hmore, rfl⟩ := outlineEntries_cons.mp h
    rw [PathComponent.val_of_tryFrom hc] at hmore ⊢
    have hfirst := fill_outline node hnode ht
      (hstored.of_subset (List.subset_append_left _ _))
      (fun c hc => hblobs c (List.mem_append_left _ hc)) hfirst
    have hmore := fill_outlineEntries rest hrest hrestTrees
      (hstored.of_subset (List.subset_append_right _ _))
      (fun c hc => hblobs c (List.mem_append_right _ hc)) hmore
    have hsep : sep name = TOK_PAR := if_neg fun h => hname.1 (.inl h)
    simp only [fill, fill_append, Piece.fill, Option.bind_eq_bind, Option.bind_some, hfirst, hmore,
      entryHeader, Entries.encode, hsep, List.append_assoc]

end

theorem lookup_collect_iff {directories : List Castore.Directory}
    (hinj : DistinctDigests digest directories) {k : B3Digest} {d : Castore.Directory} :
    (collect digest directories).lookup k = some d ↔ d ∈ directories ∧ digest d = k := by
  induction directories using List.reverseRecOn with
  | nil => simp [collect]
  | append_singleton directories d' ih =>
    have hinj' : DistinctDigests digest directories := fun a ha b hb =>
      hinj a (List.mem_append_left _ ha) b (List.mem_append_left _ hb)
    rw [collect_concat, List.mem_append, List.mem_singleton]
    by_cases hk : k = digest d'
    · subst hk
      rw [AList.lookup_insert, Option.some.injEq]
      constructor
      · rintro rfl
        exact ⟨.inr rfl, rfl⟩
      · rintro ⟨hmem, heq⟩
        exact (hinj d (List.mem_append.mpr (hmem.imp_right List.mem_singleton.mpr)) d'
          (List.mem_append_right _ (List.mem_singleton_self d')) heq).symm
    · rw [AList.lookup_insert_ne hk, ih hinj']
      refine and_congr_left fun heq => (or_iff_left ?_).symm
      rintro rfl
      exact hk heq.symm

mutual

/-- An archive is longer than there are nodes in it. -/
theorem nodesBelow_le (tree : Tree) {t : FileTree} (ht : fileTree? hash tree = some t) :
    t.nodesBelow ≤ tree.encode.length := by
  cases tree with
  | symlink target =>
    obtain ⟨target', -, rfl⟩ := Option.map_eq_some_iff.mp ht
    exact Nat.zero_le _
  | file executable c =>
    cases ht
    exact Nat.zero_le _
  | directory entries =>
    obtain ⟨ts, hts, rfl⟩ := Option.map_eq_some_iff.mp ht
    have hle := count_le entries hts
    rw [FileTree.nodesBelow, Tree.encode, List.length_append]
    omega

theorem count_le (entries : Entries) {ts : FileTrees} (hts : fileTrees? hash entries = some ts) :
    ts.count ≤ entries.encode.length := by
  cases entries with
  | nil =>
    cases hts
    exact Nat.zero_le _
  | cons name node rest =>
    obtain ⟨c, t, ts, -, ht, hrest, rfl⟩ := fileTrees_cons hts
    have hnode := nodesBelow_le node ht
    have hmore := count_le rest hrest
    have hpos : 0 < TOK_ENT.length := by decide
    rw [FileTrees.count, Entries.encode]
    simp only [List.length_append]
    omega

end

-- ====================
-- What the consumer does
-- ====================

section

variable {checks debug : Bool} {δ ε β : Type} {P : DirectoryPutter δ}

/-- What was sent for a tree is put together. -/
theorem ingestEntries_arranged (hP : P.Follows digest checks debug) {tree : FileTree}
    {name : PathComponent} {m : List Item} (hm : Arranged ⟨[name], tree⟩ m)
    (hsmall : 2 * tree.nodesBelow < 2 ^ 64)
    (hinj : DistinctDigests digest (directoriesOf digest m)) :
    ∃ result, ingestEntries (ε := ε) digest checks debug P (m.map fun i => .ok i.entry) =
        .ok result ∧ result.rootNode = tree.node digest ∧
      (∀ d, d ∈ result.puts ↔ d ∈ directoriesOf digest m) ∧
      (Castore.Directory.merkle digest checks).CollisionFree result.puts := by
  have hfree : (Castore.Directory.merkle digest checks).CollisionFree (directoriesOf digest m) :=
    hm.collisionFree hsmall hinj
  unfold ingestEntries
  rcases @loop_spec digest checks δ ε P [] ⟨[name], tree⟩ .start name rfl m gathers_nil puts_nil hm
    hm.ne_nil hinj with ⟨s, hloop, hnil, hp⟩ | ⟨e, -, hexcuse⟩
  · obtain ⟨putter, hclose, -⟩ := closePutter_spec (ε := ε) hP hp hm hsmall hinj
    refine ⟨⟨tree.node digest, s.puts, putter⟩, ?_, rfl, hp.mem_iff,
      hfree.of_subset fun d hd => (hp.mem_iff d).mp hd⟩
    rw [hloop]
    simp only [List.length_nil, ne_eq, not_true_eq_false, if_false, hnil]
    exact hclose
  · exact absurd (hexcuse.tooLarge hP hfree) (hm.not_tooLarge hsmall)

/-- An error that is left in the stream is noticed. -/
theorem loop_ne_nil {l : List (Except ε IngestionEntry)} {e : ε} {s s' : Ingest δ} {node : Node}
    {rest : List (Except ε IngestionEntry)}
    (h : Ingest.loop digest checks P (l ++ [.error e]) s = .ok (node, rest, s')) : rest ≠ [] := by
  induction l generalizing s with
  | nil => cases h
  | cons x l ih =>
    cases x with
    | error e' => cases h
    | ok entry =>
      rw [List.cons_append, Ingest.loop] at h
      rcases hstep : Ingest.step (ε := ε) digest checks P entry s with e' | ⟨_ | root, s''⟩
      · rw [hstep] at h
        cases h
      · rw [hstep] at h
        exact ih h
      · rw [hstep] at h
        cases h
        simp

/-- Nothing is ingested from a stream that ends with an error. -/
theorem ingestEntries_error (l : List (Except ε IngestionEntry)) (e : ε) :
    ∃ e', ingestEntries digest checks debug P (l ++ [.error e]) = .error e' := by
  unfold ingestEntries
  rcases hloop : Ingest.loop digest checks P (l ++ [.error e]) .start with e' | ⟨node, rest, s⟩
  · rw [hloop]
    exact ⟨e', rfl⟩
  · have hne := loop_ne_nil hloop
    rw [hloop]
    simp only [ne_eq, List.length_eq_zero_iff, hne, not_false_eq_true, if_true]
    exact ⟨_, rfl⟩

/-- Nothing is ingested when the producer fails. -/
theorem consume_error (sent : List IngestionEntry) (joined : Except BlobUploadError β)
    (e : NarImportError) :
    ∃ e', consume digest checks debug P sent joined (.error e) = .error e' :=
  ingestEntries_error _ e

end

end

-- ====================
-- Ingesting and rendering
-- ====================

/-- The directories of an archive have digests of their own, and the contents of its files have
    digests that no other contents have, in the archive and among the blobs that are there. -/
structure NoCollisions {β : Type} (digest : Castore.Directory → B3Digest)
    (hash : Bytes → B3Digest) (blobs : β → B3Digest → Option Bytes) (s₀ : β) (tree : Tree) :
    Prop where
  directories : ∀ t, fileTree? hash tree = some t →
    DistinctDigests digest (directoriesOf digest (t.items [rootName]))
  contents : ∀ c ∈ contents tree, Unmistakable hash blobs s₀ (contents tree) c

/-- For every large bound on its steps the program fails. -/
def Fails {ε σ α : Type} (p : ℕ → Prog ε σ α) (s : σ) : Prop :=
  ∃ c, ∀ k, c ≤ k → ∃ e, (p k).run s = some (.error e)

section

variable {σ F β δ : Type} {A : Access σ F} {len : F → ℕ} {sink : BlobSink β}
  {hash : Bytes → B3Digest} {digest : Castore.Directory → B3Digest} {checks debug : Bool}
  {P : DirectoryPutter δ} {s₀ : β} {order : ℕ → List ℕ} {k : ℕ} {s : σ}

variable (A len sink hash s₀ order s) in
/-- Opening an archive and producing its entries. -/
def producing (k : ℕ) :
    Option (Except (ProducerFault × Ledger β) (IngestionEntry × σ × Ledger β)) :=
  (Producer.fromStream (openArchive A k) >>=
    produceNarInner A len sink hash k (produceEntries A len sink hash k) [rootName]).run
      (s, .start s₀ order)

theorem ingestNar_of_none (h : producing A len sink hash s₀ order s k = none) :
    (ingestNar A len sink hash digest checks debug P s₀ order k).run s = none := by
  unfold producing at h
  rw [Prog.run_bind] at h
  change ingestNar A len sink hash digest checks debug P s₀ order k s = none
  unfold ingestNar
  rcases hopen : (openArchive A k).run s with _ | e | ⟨node, s'⟩
  · rfl
  · rw [run_fromStream_error hopen] at h
    cases h
  · rw [run_fromStream_ok hopen] at h
    dsimp only at h ⊢
    rw [h]
    rfl

theorem conclude_error (s : σ) (e : ProducerFault × Ledger β) :
    ∃ e', conclude sink digest checks debug P s (.error e) = some (.error e') := by
  obtain ⟨e | message, w⟩ := e
  · obtain ⟨joined, hjoin⟩ := ConcurrentBlobUploader.join_isSome sink (w.order 0) w.uploader
    obtain ⟨e', he'⟩ : ∃ e', consume digest checks debug P w.sent joined (.error e) = .error e' :=
      consume_error w.sent joined e
    refine ⟨e', ?_⟩
    rw [conclude, finish, hjoin]
    dsimp only
    rw [he']
    rfl
  · exact ⟨_, rfl⟩

theorem ingestNar_of_error {e : ProducerFault × Ledger β}
    (h : producing A len sink hash s₀ order s k = some (.error e)) :
    ∃ e', (ingestNar A len sink hash digest checks debug P s₀ order k).run s =
      some (.error e') := by
  unfold producing at h
  rw [Prog.run_bind] at h
  change ∃ e', ingestNar A len sink hash digest checks debug P s₀ order k s = some (.error e')
  unfold ingestNar
  rcases hopen : (openArchive A k).run s with _ | e | ⟨node, s'⟩
  · rw [run_fromStream_none hopen] at h
    cases h
  · exact ⟨_, rfl⟩
  · rw [run_fromStream_ok hopen] at h
    dsimp only at h ⊢
    rw [h]
    exact conclude_error s' e

theorem ingestNar_of_ok {entry : IngestionEntry} {s' : σ} {w : Ledger β}
    (h : producing A len sink hash s₀ order s k = some (.ok (entry, s', w))) :
    (ingestNar A len sink hash digest checks debug P s₀ order k).run s =
      (finish sink digest checks debug P (.ok entry) w).map fun r => r.map fun y => (y, s') := by
  unfold producing at h
  rw [Prog.run_bind] at h
  change ingestNar A len sink hash digest checks debug P s₀ order k s = _
  unfold ingestNar
  rcases hopen : (openArchive A k).run s with _ | e | ⟨node, s₁⟩
  · rw [run_fromStream_none hopen] at h
    cases h
  · rw [run_fromStream_error hopen] at h
    cases h
  · rw [run_fromStream_ok hopen] at h
    dsimp only at h ⊢
    rw [h]
    rfl

/-- The archive of what was ingested from a tree. -/
theorem writeNar_of_stored {tree : Tree} (hvalid : tree.Valid) {t : FileTree}
    (ht : fileTree? hash tree = some t) {directories : List Castore.Directory}
    (hfree : (Castore.Directory.merkle digest checks).CollisionFree directories)
    (hmem : ∀ d ∈ directoriesOf digest (t.items [rootName]), d ∈ directories)
    {blobs : DigestMap Bytes} (hblobs : ∀ c ∈ contents tree, blobs.lookup (hash c) = some c)
    (debug' : Bool) (feed : B3Digest → ℕ → ℕ) :
    Renderer.writeNar debug' feed (collect digest directories) blobs (t.node digest) =
      .ok (TOK_NAR ++ tree.encode) := by
  have haddr := addressed_collect hfree
  obtain ⟨pieces, hpieces⟩ := exists_outline haddr (t.node digest)
  have hstored : Stored digest (collect digest directories) (t.items [rootName]) := fun d hd =>
    (lookup_collect_iff hfree.injective).mpr ⟨hmem d hd, rfl⟩
  have hfill := fill_outline tree hvalid ht hstored hblobs hpieces
  have hgives := writeNar_gives haddr debug' feed blobs (t.node digest)
  simp only [archive, hpieces, fill, Piece.fill, Option.bind_eq_bind, Option.bind_some, hfill]
    at hgives
  exact hgives

/-- What was produced for an archive is ingested. -/
theorem finish_of_produced {blobs : β → B3Digest → Option Bytes} (hP : P.Follows digest checks debug)
    (hlaw : sink.Lawful hash blobs) (hrel : sink.Reliable) {tree : Tree} (hvalid : tree.Valid)
    (hlen : tree.encode.length < 2 ^ 63) (hfree : NoCollisions digest hash blobs s₀ tree)
    {t : FileTree} (ht : fileTree? hash tree = some t) {w : Ledger β}
    (hrun : ConcurrentBlobUploader.Run sink hash s₀ w.uploads w.uploads w.uploader)
    (huploads : w.uploads = contents tree)
    (hsent : w.sent = (below [rootName] t).map Item.entry) :
    ∃ ingested b, finish sink digest checks debug P (.ok (Item.entry ⟨[rootName], t⟩)) w =
        some (.ok (ingested, .ok b)) ∧ ingested.rootNode = t.node digest ∧
      (∀ d, d ∈ ingested.puts ↔ d ∈ directoriesOf digest (t.items [rootName])) ∧
      (Castore.Directory.merkle digest checks).CollisionFree ingested.puts ∧
      ∀ c ∈ contents tree, blobs b (hash c) = some c := by
  obtain ⟨joined, hjoin, hok, hthere⟩ := hrun.join hlaw (w.order 0)
  obtain ⟨b, rfl⟩ := hok hrel
  obtain ⟨hgrown, hblobs⟩ := hthere b rfl
  have hm := arranged_below (valid_fileTree tree hvalid ht) [rootName]
  have hsame : ∀ d, d ∈ directoriesOf digest (below [rootName] t ++ [⟨[rootName], t⟩]) ↔
      d ∈ directoriesOf digest (t.items [rootName]) :=
    fun d => ((perm_below t [rootName]).filterMap _).mem_iff
  have hinj : DistinctDigests digest
      (directoriesOf digest (below [rootName] t ++ [⟨[rootName], t⟩])) := fun a ha a' ha' =>
    hfree.directories t ht a ((hsame a).mp ha) a' ((hsame a').mp ha')
  have hbelow := nodesBelow_le tree ht
  obtain ⟨ingested, hingest, hroot, hputs, hcollisions⟩ :=
    ingestEntries_arranged (ε := NarImportError) hP hm (by omega) hinj
  refine ⟨ingested, b, ?_, hroot, fun d => (hputs d).trans (hsame d), hcollisions,
    fun c hc => ?_⟩
  · rw [finish, hjoin]
    simp only [consume, hsent, List.append_nil, List.map_map]
    rw [List.map_append] at hingest
    have hentries : ((below [rootName] t).map (Except.ok ∘ Item.entry) ++
        [.ok (Item.entry ⟨[rootName], t⟩)] : List (Except NarImportError IngestionEntry)) =
        (below [rootName] t).map (fun i => .ok i.entry) ++
          [(⟨[rootName], t⟩ : Item)].map fun i => .ok i.entry := rfl
    rw [hentries, hingest]
  · rw [huploads] at hgrown hblobs
    exact hgrown.eq_some (hfree.contents c hc) (hblobs c hc)

end

section

variable {β δ : Type} {sink : BlobSink β} {hash : Bytes → B3Digest}
  {digest : Castore.Directory → B3Digest} {blobs : β → B3Digest → Option Bytes} {checks debug : Bool}
  {P : DirectoryPutter δ}

/-- On a stream that becomes ready again and does not fail by itself, with services that do not
    fail, whatever the stream is split into and in whatever order the uploads run: an archive
    whose digests do not collide is ingested, exactly to its end, and rendering what was
    ingested gives the archive. On all other streams nothing is ingested; the ingestion fails,
    or does not end where the stream ends within the name of a directory entry. -/
theorem ingestNar_writeNar (hP : P.Follows digest checks debug) (hlaw : sink.Lawful hash blobs)
    (hrel : sink.Reliable) (client : Bytes → Wish) (s₀ : β) (order : ℕ → List ℕ) (s : AsyncStream)
    (hfaultless : s.Faultless) (hfair : s.Fair) (hlen : s.rest.length < 2 ^ 63) :
    (∀ tree rest, tree.Valid → s.rest = TOK_NAR ++ tree.encode ++ rest →
      NoCollisions digest hash blobs s₀ tree →
      ∃ ingested b s', Snix.Returns (ingestNar (async client) Wire.State.len sink hash digest checks debug
          P s₀ order) s (.ok ((ingested, .ok b), s')) ∧ s'.rest = rest ∧
        ∀ known : DigestMap Bytes, (∀ k, known.lookup k = blobs b k) → ∀ debug' feed,
          Renderer.writeNar debug' feed (collect digest ingested.puts) known ingested.rootNode =
            .ok (TOK_NAR ++ tree.encode)) ∧
    ((∀ (tree : Tree) (rest : Bytes), tree.Valid → s.rest ≠ TOK_NAR ++ tree.encode ++ rest) →
      (EndsInName s.rest → Diverges (ingestNar (async client) Wire.State.len sink hash digest checks
        debug P s₀ order) s) ∧
      (¬ EndsInName s.rest → Fails (ingestNar (async client) Wire.State.len sink hash digest checks
        debug P s₀ order) s)) := by
  have hproduce := agrees_produce (spec_async client) (fileSpec_async client) hlaw hrel
    (x := (s, .start s₀ order)) ⟨⟨hfaultless, hfair⟩, .new⟩
  change Agrees _ _ _ (parse s.rest >>= nodeProduced hash [rootName] [] []) at hproduce
  constructor
  · intro tree rest hvalid hrest hfree
    have hparse : parse s.rest = .ok (tree, rest) := parse_eq_ok_iff.mpr ⟨hvalid, hrest⟩
    obtain ⟨t, ht⟩ := exists_fileTree hash tree hvalid
    have hresult : (parse s.rest >>= nodeProduced hash [rootName] [] []) = .ok
        (Item.entry ⟨[rootName], t⟩, rest, contents tree, (below [rootName] t).map Item.entry) := by
      rw [hparse]
      simp [bind, Except.bind, nodeProduced, ht]
    rw [hresult] at hproduce
    rcases hproduce with ⟨entry, ⟨s', w⟩, hr, ⟨-, hrun⟩, m, hm⟩ | ⟨d, e, hr, -⟩ | ⟨d, hr, -⟩
    · simp only [producerView, Except.ok.injEq, Prod.mk.injEq] at hr
      obtain ⟨rfl, rfl, huploads, hsent⟩ := hr
      have hshort : tree.encode.length < 2 ^ 63 := by
        rw [hrest, List.length_append, List.length_append] at hlen
        omega
      obtain ⟨ingested, b, hfinish, hroot, hputs, hcollisions, hblobs⟩ :=
        finish_of_produced hP hlaw hrel hvalid hshort hfree ht hrun huploads.symm hsent.symm
      refine ⟨ingested, b, s', ⟨m, fun k hk => ?_⟩, rfl, fun known hknown debug' feed => ?_⟩
      · rw [ingestNar_of_ok (hm k hk), hfinish]
        rfl
      · rw [hroot]
        exact writeNar_of_stored hvalid ht hcollisions (fun d hd => (hputs d).mpr hd)
          (fun c hc => (hknown _).trans (hblobs c hc)) debug' feed
    · cases hr
    · cases hr
  · intro hnone
    cases hparse : parse s.rest with
    | ok x => exact absurd (parse_eq_ok_iff.mp hparse).2 (hnone x.1 x.2 (parse_eq_ok_iff.mp hparse).1)
    | error d =>
      rw [hparse] at hproduce
      rcases hproduce with ⟨entry, x, hr, -⟩ | ⟨d', e, hr, hd, m, hm⟩ | ⟨d', hr, hd, m, hm⟩
      · cases hr
      · obtain rfl : d = d' := Except.error.inj hr
        refine ⟨fun hends => ?_, fun _ => ⟨m, fun k hk => ingestNar_of_error (hm k hk)⟩⟩
        cases hparse.symm.trans (parse_eq_endInName_iff.mpr hends)
        exact absurd rfl hd
      · obtain rfl : d = d' := Except.error.inj hr
        refine ⟨fun _ => ⟨m, fun k hk => ingestNar_of_none (hm k hk)⟩, fun hends => ?_⟩
        obtain rfl : d = .endInName := hd
        exact absurd (parse_eq_endInName_iff.mp hparse) hends

end

-- ====================
-- A directory with a file
-- ====================

/-- A directory with a file named `a`. -/
def oneFile : Tree := .directory (.cons [97] (.file false [98]) .nil)

theorem valid_oneFile : oneFile.Valid := by
  refine ⟨⟨by decide, by decide⟩, by decide, ?_, trivial⟩
  simp [Tree.Valid]

theorem noCollisions_oneFile :
    NoCollisions fixtureDigest fixtureHash (fun (db : DigestMap Bytes) k => db.lookup k) ∅ oneFile where
  directories t ht := by
    cases ht
    intro d hd d' hd' _
    exact (List.mem_singleton.mp hd).trans (List.mem_singleton.mp hd').symm
  contents c hc c' hc' := by
    rcases hc' with h | ⟨h, -⟩
    · cases h
    · exact (List.mem_singleton.mp h).trans (List.mem_singleton.mp hc).symm

/-- It is ingested and rendered byte by byte. -/
theorem ingestNar_writeNar_oneFile :
    ∃ ingested b s', Snix.Returns (ingestNar (async fun _ => .read 0) Wire.State.len
          (MemoryBlobService.sink fixtureHash) fixtureHash fixtureDigest true true
          (SimplePutter.putter fixtureDigest true true DiGraph.postOrder DiGraph.postOrder
            (fun _ => .stored) ∅) ∅ fun _ => [])
        ⟨TOK_NAR ++ oneFile.encode, fun _ => .chunk 0⟩ (.ok ((ingested, .ok b), s')) ∧
      Renderer.writeNar true (fun _ _ => 0) (collect fixtureDigest ingested.puts) b
        ingested.rootNode = .ok (TOK_NAR ++ oneFile.encode) := by
  have hlen : (TOK_NAR ++ oneFile.encode).length < 2 ^ 63 := by decide +kernel
  obtain ⟨ingested, b, s', hret, -, hwrite⟩ := (ingestNar_writeNar
    (P := SimplePutter.putter fixtureDigest true true DiGraph.postOrder DiGraph.postOrder
      (fun _ => .stored) ∅)
    (SimplePutter.follows_putter fun _ hacyclic root => DiGraph.isPostOrder_postOrder hacyclic root)
    (MemoryBlobService.lawful_sink fixtureHash) (MemoryBlobService.reliable_sink fixtureHash)
    (fun _ => .read 0) ∅ (fun _ => []) ⟨TOK_NAR ++ oneFile.encode, fun _ => .chunk 0⟩
    (faultless_chunks _) (fair_chunks _) hlen).1 oneFile [] valid_oneFile (by rw [List.append_nil])
    noCollisions_oneFile
  exact ⟨ingested, b, s', hret, hwrite b (fun _ => rfl) true fun _ _ => 0⟩

end Snix.Store
