import Snix.Castore.DirectoryService.SimplePutter
import Snix.Castore.Import.FileTree

/-!
# Ingesting a stream of entries

The entries of a file tree arrive in some order in which the entries of a directory
come before the directory itself, and the root last. For every directory that was not
finished yet there is a directory with what has arrived; it is put when the entry for
it arrives, unless its like was put before.

At every moment, what there is of a directory are the nodes of those of its entries
that have arrived, and what was put are the directories that have arrived.

## Main definitions

- `ingestEntries`
- `ChildrenFirst`, `Arranged` — the orders that are allowed
- `Gathers`, `Puts` — the state of the loop, given what has arrived
- `Excuse` — why a tree is not ingested

## Main results

- `step_spec`, `step_root` — what one entry does
- `loop_spec` — what the loop does
-/

namespace Snix.Castore

inductive IngestionEntry where
  | regular (path : PathBuf) (size : UInt64) (executable : Bool) (digest : B3Digest)
  | symlink (path : PathBuf) (target : Bytes)
  | dir (path : PathBuf)

def IngestionEntry.path : IngestionEntry → PathBuf
  | .regular path .. => path
  | .symlink path _ => path
  | .dir path => path

/-- The errors, with those of the producer, and panics. -/
inductive IngestionError (ε : Type) where
  | producer (e : ε)
  | invalidSymlinkTarget (path : PathBuf) (e : SymlinkTargetError)
  | uploadDirectoryError (path : PathBuf) (e : PutterError)
  | constructDirectoryError (path : PathBuf) (e : DirectoryError)
  | finalizeDirectoryUpload (e : PutterError)
  | unexpectedEndOfStream
  | panic (message : String)

/-- Something that directories are put into one after the other. -/
structure DirectoryPutter (σ : Type) where
  start : σ
  put : σ → Directory → Except PutterError σ
  close : σ → Except PutterError (B3Digest × σ)

def DirectoryPutter.putAll {σ : Type} (P : DirectoryPutter σ) (directories : List Directory) :
    Except PutterError σ :=
  directories.foldlM P.put P.start

/-- The state of the loop. The directories that were put are remembered in `puts`, which nothing
    reads. -/
structure Ingest (σ : Type) where
  directories : AList fun _ : PathBuf => Directory
  putter : Option σ
  sentDirectories : Finset B3Digest
  puts : List Directory

structure Ingested (σ : Type) where
  rootNode : Node
  puts : List Directory
  putter : Option σ

section

variable (digest : Directory → B3Digest) (checks debug : Bool) {σ ε : Type} (P : DirectoryPutter σ)

namespace Ingest

def start : Ingest σ := ⟨∅, none, ∅, []⟩

/-- Takes what there is of a directory, and puts it unless its like was put before. -/
def finishDirectory (path : PathBuf) (s : Ingest σ) : Except (IngestionError ε) (Node × Ingest σ) :=
  let directory := (s.directories.lookup path).getD .new
  match directory.size checks with
  | none => .error (.panic "attempt to add with overflow")
  | some size =>
    let node := .directory (digest directory) (.ofNat size)
    let putter := s.putter.getD P.start
    if digest directory ∈ s.sentDirectories then
      .ok (node, ⟨s.directories.erase path, some putter, s.sentDirectories, s.puts⟩)
    else
      match P.put putter directory with
      | .error e => .error (.uploadDirectoryError path e)
      | .ok putter =>
        .ok (node, ⟨s.directories.erase path, some putter,
          insert (digest directory) s.sentDirectories, s.puts ++ [directory]⟩)

/-- The node of an entry. -/
def nodeOf (entry : IngestionEntry) (s : Ingest σ) : Except (IngestionError ε) (Node × Ingest σ) :=
  match entry with
  | .dir path => finishDirectory digest checks P path s
  | .symlink path target =>
    match SymlinkTarget.tryFrom target with
    | .error e => .error (.invalidSymlinkTarget path e)
    | .ok target => .ok (.symlink target, s)
  | .regular _ size executable digest => .ok (.file digest size executable, s)

/-- Records a node in its parent directory. -/
def record (path parent : PathBuf) (node : Node) (s : Ingest σ) :
    Except (IngestionError ε) (Ingest σ) :=
  match path.fileName with
  | none => .error (.panic "called `Result::unwrap()` on an `Err` value")
  | some name =>
    match ((s.directories.lookup parent).getD .new).add checks name node with
    | none => .error (.panic "attempt to add with overflow")
    | some (.error e) => .error (.constructDirectoryError path e)
    | some (.ok directory) => .ok { s with directories := s.directories.insert parent directory }

/-- Takes an entry. Returns the node if it is the root. -/
def step (entry : IngestionEntry) (s : Ingest σ) :
    Except (IngestionError ε) (Option Node × Ingest σ) := do
  let (node, s) ← nodeOf digest checks P entry s
  match entry.path.parent with
  | none => .error (.panic "Snix bug: got entry with root node")
  | some parent =>
    if parent = [] then .ok (some node, s)
    else do
      let s ← record checks entry.path parent node s
      .ok (none, s)

/-- Takes entries up to the root. Returns the root node and what is left of the stream. -/
def loop : List (Except ε IngestionEntry) → Ingest σ →
    Except (IngestionError ε) (Node × List (Except ε IngestionEntry) × Ingest σ)
  | [], _ => .error .unexpectedEndOfStream
  | .error e :: _, _ => .error (.producer e)
  | .ok entry :: rest, s =>
    match step digest checks P entry s with
    | .error e => .error e
    | .ok (some node, s) => .ok (node, rest, s)
    | .ok (none, s) => loop rest s

end Ingest

/-- Closes the putter, if there is one. In a debug build the digest of the root is compared. -/
def closePutter (rootNode : Node) (s : Ingest σ) : Except (IngestionError ε) (Ingested σ) :=
  match s.putter with
  | none => .ok ⟨rootNode, s.puts, none⟩
  | some putter =>
    match P.close putter with
    | .error e => .error (.finalizeDirectoryUpload e)
    | .ok (rootDirectoryDigest, putter) =>
      if debug then
        match rootNode with
        | .directory digest _ =>
          if rootDirectoryDigest = digest then .ok ⟨rootNode, s.puts, some putter⟩
          else .error (.panic "assertion `left == right` failed")
        | _ => .error (.panic "Snix bug: directory putter initialized but no root directory node")
      else .ok ⟨rootNode, s.puts, some putter⟩

def ingestEntries (entries : List (Except ε IngestionEntry)) :
    Except (IngestionError ε) (Ingested σ) :=
  match Ingest.loop digest checks P entries .start with
  | .error e => .error e
  | .ok (rootNode, rest, s) =>
    if rest.length ≠ 0 then .error (.panic "Snix bug: left over elements in the stream")
    else if s.directories.entries ≠ [] then
      .error (.panic "Snix bug: left over directories after processing ingestion stream")
    else closePutter debug P rootNode s

end

/-- The entry for what is at a path. -/
def Item.entry (item : Item) : IngestionEntry :=
  match item.tree with
  | .file digest size executable => .regular item.path size executable digest
  | .symlink target => .symlink item.path target.val
  | .directory _ => .dir item.path

/-- The entries of a tree with this name. -/
def FileTree.entries (name : PathComponent) (tree : FileTree) : List IngestionEntry :=
  (tree.items [name]).map Item.entry

/-- The entries of a directory come before the directory itself. -/
def ChildrenFirst (l : List IngestionEntry) : Prop :=
  l.Pairwise fun a b => b.path.parent ≠ some a.path

@[simp] theorem Item.path_entry (item : Item) : item.entry.path = item.path := by
  unfold entry
  cases item.tree with
  | file digest size executable => rfl
  | symlink target => rfl
  | directory entries => rfl

@[simp] theorem PathBuf.parent_concat (path : PathBuf) (name : PathComponent) :
    PathBuf.parent (path ++ [name]) = some path := by
  unfold parent
  rw [if_neg (List.concat_ne_nil name path), List.dropLast_concat]

@[simp] theorem PathBuf.fileName_concat (path : PathBuf) (name : PathComponent) :
    PathBuf.fileName (path ++ [name]) = some name := List.getLast?_concat

theorem PathBuf.eq_concat_of_parent {path q : PathBuf} (h : path.parent = some q) :
    ∃ name, path = q ++ [name] := by
  rcases List.eq_nil_or_concat path with rfl | ⟨q', name, rfl⟩
  · cases h
  · rw [List.concat_eq_append, parent_concat] at h
    cases h
    exact ⟨name, List.concat_eq_append⟩

theorem Layout.of_perm {root : Item} {items m : List Item} (h : Layout root items)
    (hperm : m.Perm items) : Layout root m where
  root_mem := hperm.mem_iff.mpr h.root_mem
  nodup := (hperm.map Item.path).nodup_iff.mpr h.nodup
  child item hitem entries hentries e he :=
    hperm.mem_iff.mpr (h.child item (hperm.mem_iff.mp hitem) entries hentries e he)
  parent item hitem := by
    rcases h.parent item (hperm.mem_iff.mp hitem) with hroot | ⟨above, habove, hrest⟩
    · exact .inl hroot
    · exact .inr ⟨above, hperm.mem_iff.mpr habove, hrest⟩
  valid item hitem := h.valid item (hperm.mem_iff.mp hitem)
  below_lt item hitem := h.below_lt item (hperm.mem_iff.mp hitem)

/-- The items of a tree in an order that is allowed. -/
structure Arranged (root : Item) (m : List Item) : Prop extends Layout root m where
  childrenFirst : m.Pairwise fun a b => b.path.parent ≠ some a.path
  last : m.getLast? = some root

section

variable {root item : Item} {done rest : List Item}

namespace Arranged

theorem mem (_ : Arranged root (done ++ item :: rest)) : item ∈ done ++ item :: rest :=
  List.mem_append_right _ List.mem_cons_self

theorem eq_of_path {m : List Item} (h : Arranged root m) {a b : Item} (ha : a ∈ m) (hb : b ∈ m)
    (hpath : a.path = b.path) : a = b :=
  List.inj_on_of_nodup_map h.nodup ha hb hpath

/-- What is at a path below another one is an entry of what is there. -/
theorem entry_of_path {m : List Item} (h : Arranged root m) {child : Item} (hitem : item ∈ m)
    (hchild : child ∈ m) (hne : child ≠ root) {name : PathComponent}
    (hpath : child.path = item.path ++ [name]) :
    ∃ entries, item.tree = .directory entries ∧ (name, child.tree) ∈ entries.toList := by
  rcases h.parent child hchild with heq | ⟨above, habove, entries, hentries, e, he, rfl⟩
  · exact absurd heq hne
  · obtain ⟨habovePath, hname⟩ := List.append_inj' hpath rfl
    obtain rfl : above = item := h.eq_of_path habove hitem habovePath
    cases List.singleton_inj.mp hname
    exact ⟨entries, hentries, he⟩

theorem path_notMem_done (h : Arranged root (done ++ item :: rest)) :
    item.path ∉ done.map Item.path := by
  have hnodup := h.nodup
  rw [List.map_append, List.nodup_append'] at hnodup
  intro hmem
  exact hnodup.2.2 hmem List.mem_cons_self

/-- The entries of a directory have arrived when it does. -/
theorem child_mem_done (h : Arranged root (done ++ item :: rest)) {entries : FileTrees}
    (hentries : item.tree = .directory entries) {e : PathComponent × FileTree}
    (he : e ∈ entries.toList) : (⟨item.path ++ [e.1], e.2⟩ : Item) ∈ done := by
  have hchild := h.child item h.mem entries hentries e he
  rcases List.mem_append.mp hchild with hdone | hchild
  · exact hdone
  · exfalso
    rcases List.mem_cons.mp hchild with heq | hrest
    · have hlength := congrArg (fun i : Item => i.path.length) heq
      simp at hlength
    · have hpairwise := (List.pairwise_append.mp h.childrenFirst).2.1
      exact (List.pairwise_cons.mp hpairwise).1 _ hrest (PathBuf.parent_concat _ _)

/-- A directory has not arrived when one of its entries does. -/
theorem parent_notMem_done (h : Arranged root (done ++ item :: rest)) {path : PathBuf}
    (hpath : item.path.parent = some path) : path ∉ done.map Item.path := by
  intro hmem
  obtain ⟨above, habove, rfl⟩ := List.mem_map.mp hmem
  exact (List.pairwise_append.mp h.childrenFirst).2.2 above habove item List.mem_cons_self hpath

/-- Nothing comes after the root. -/
theorem rest_eq_nil (h : Arranged root (done ++ root :: rest)) : rest = [] := by
  rcases List.eq_nil_or_concat rest with hnil | ⟨rest', last, rfl⟩
  · exact hnil
  · exfalso
    have hlast := h.last
    rw [List.concat_eq_append, List.getLast?_append_of_ne_nil _ (by simp), List.getLast?_cons,
      List.getLast?_concat, Option.getD_some, Option.some.injEq] at hlast
    subst hlast
    have hnodup := h.nodup
    rw [List.map_append, List.nodup_append', List.map_cons, List.nodup_cons] at hnodup
    exact hnodup.2.1.1 (by simp)

theorem root_notMem_done (h : Arranged root (done ++ item :: rest)) : root ∉ done := by
  intro hmem
  obtain ⟨a, b, rfl⟩ := List.append_of_mem hmem
  rw [List.append_assoc, List.cons_append] at h
  exact List.append_ne_nil_of_right_ne_nil b (List.cons_ne_nil item rest) h.rest_eq_nil

theorem ne_root_of_mem_done (h : Arranged root (done ++ item :: rest)) {a : Item} (ha : a ∈ done) :
    a ≠ root := by
  rintro rfl
  exact h.root_notMem_done ha

end Arranged

end

-- ====================
-- What has arrived
-- ====================

/-- The entries of a directory that have arrived, with their nodes. -/
def arrived (digest : Directory → B3Digest) (done : List Item) (path : PathBuf) :
    List (PathComponent × Node) :=
  done.filterMap fun item =>
    if item.path.parent = some path then
      item.path.fileName.map fun name => (name, item.tree.node digest)
    else none

section

variable {digest : Directory → B3Digest} {checks : Bool} {done rest m : List Item}
  {path : PathBuf} {root item : Item}

theorem arrived_concat_of_eq {name : PathComponent} (h : item.path = path ++ [name]) :
    arrived digest (done ++ [item]) path =
      arrived digest done path ++ [(name, item.tree.node digest)] := by
  unfold arrived
  rw [List.filterMap_append]
  simp [h]

theorem arrived_concat_of_ne (h : item.path.parent ≠ some path) :
    arrived digest (done ++ [item]) path = arrived digest done path := by
  unfold arrived
  rw [List.filterMap_append]
  simp [h]

theorem mem_arrived {e : PathComponent × Node} :
    e ∈ arrived digest done path ↔
      ∃ item ∈ done, item.path = path ++ [e.1] ∧ e.2 = item.tree.node digest := by
  unfold arrived
  rw [List.mem_filterMap]
  refine exists_congr fun item => and_congr_right fun _ => ?_
  constructor
  · intro h
    split at h
    · next hparent =>
      obtain ⟨name, hname⟩ := PathBuf.eq_concat_of_parent hparent
      rw [hname, PathBuf.fileName_concat, Option.map_some] at h
      cases h
      exact ⟨hname, rfl⟩
    · cases h
  · rintro ⟨hpath, hnode⟩
    rw [hpath, PathBuf.parent_concat, if_pos rfl, PathBuf.fileName_concat, Option.map_some, ← hnode]

/-- Every entry arrives at a path of its own. -/
theorem sublist_arrived (digest : Directory → B3Digest) (done : List Item) (path : PathBuf) :
    ((arrived digest done path).map fun e => path ++ [e.1]).Sublist (done.map Item.path) := by
  induction done with
  | nil => exact .slnil
  | cons item done ih =>
    unfold arrived
    by_cases h : item.path.parent = some path
    · obtain ⟨name, hname⟩ := PathBuf.eq_concat_of_parent h
      rw [List.filterMap_cons_some (b := (name, item.tree.node digest)) (by simp [hname]),
        List.map_cons, List.map_cons, hname]
      exact ih.cons_cons _
    · rw [List.filterMap_cons_none (by simp [h])]
      exact ih.cons _

theorem nodup_arrived (h : (done.map Item.path).Nodup) : (arrived digest done path).Nodup :=
  (h.sublist (sublist_arrived digest done path)).of_map _

/-- When a directory arrives, its entries are those that have arrived. -/
theorem Arranged.arrived_perm (h : Arranged root (done ++ item :: rest)) {entries : FileTrees}
    (hentries : item.tree = .directory entries) :
    (arrived digest done item.path).Perm (entries.toList.map fun e => (e.1, e.2.node digest)) := by
  have hvalid : entries.Valid := by
    have hvalid := h.valid item h.mem
    rw [hentries] at hvalid
    exact hvalid
  have hnodup := h.nodup
  rw [List.map_append, List.nodup_append'] at hnodup
  have hnodup' : (entries.toList.map fun e => (e.1, e.2.node digest)).Nodup := by
    apply List.Nodup.of_map Prod.fst
    rw [List.map_map]
    exact FileTrees.nodup_of_valid hvalid
  rw [List.perm_ext_iff_of_nodup (nodup_arrived hnodup.1) hnodup']
  rintro ⟨name, node⟩
  rw [mem_arrived, List.mem_map]
  constructor
  · rintro ⟨child, hchild, hpath, rfl⟩
    obtain ⟨entries', hentries', he⟩ := h.entry_of_path h.mem (List.mem_append_left _ hchild)
      (h.ne_root_of_mem_done hchild) hpath
    rw [hentries] at hentries'
    cases hentries'
    exact ⟨(name, child.tree), he, rfl⟩
  · rintro ⟨e, he, heq⟩
    cases heq
    exact ⟨_, h.child_mem_done hentries he, rfl, rfl⟩

end

-- ====================
-- The state of the loop
-- ====================

/-- The directories at the paths of a list. -/
def directoriesOf (digest : Directory → B3Digest) (m : List Item) : List Directory :=
  m.filterMap (Item.directory? digest)

/-- There is a directory for every path with entries that have arrived, and it has these. -/
structure Gathers (digest : Directory → B3Digest) (done : List Item)
    (directories : AList fun _ : PathBuf => Directory) : Prop where
  finished : ∀ item ∈ done, directories.lookup item.path = none
  arrived : ∀ path, path ∉ done.map Item.path →
    ((directories.lookup path).getD .new).nodes.entries.Perm (arrived digest done path)
  begun : ∀ path, directories.lookup path ≠ none → Castore.arrived digest done path ≠ []

/-- Every directory that has arrived was put, once and after those that it contains. -/
structure Puts {σ : Type} (digest : Directory → B3Digest) (checks : Bool) (P : DirectoryPutter σ)
    (done : List Item) (s : Ingest σ) : Prop where
  putAll : P.putAll s.puts = .ok (s.putter.getD P.start)
  putter : s.putter = none ↔ directoriesOf digest done = []
  sent : ∀ k, k ∈ s.sentDirectories ↔ ∃ d ∈ s.puts, digest d = k
  mem_iff : ∀ d, d ∈ s.puts ↔ d ∈ directoriesOf digest done
  nodup : s.puts.Nodup
  bottomUp : (Directory.merkle digest checks).BottomUp s.puts

/-- No two directories of a list have the same digest. -/
def DistinctDigests (digest : Directory → B3Digest) (l : List Directory) : Prop :=
  ∀ d ∈ l, ∀ d' ∈ l, digest d = digest d' → d = d'

section

variable {digest : Directory → B3Digest} {checks : Bool} {σ ε : Type} {P : DirectoryPutter σ}
  {done rest m : List Item} {root item : Item} {s s' : Ingest σ}

theorem directoriesOf_concat : directoriesOf digest (done ++ [item]) =
    directoriesOf digest done ++ (item.directory? digest).toList := by
  unfold directoriesOf
  rw [List.filterMap_append, List.filterMap_cons]
  cases item.directory? digest with
  | none => rfl
  | some d => rfl

theorem Item.directory?_eq_some {d : Directory} : item.directory? digest = some d ↔
    ∃ entries, item.tree = .directory entries ∧ entries.directory digest = d := by
  unfold Item.directory?
  cases item.tree with
  | file digest size executable => simp
  | symlink target => simp
  | directory entries => simp

theorem mem_directoriesOf {d : Directory} : d ∈ directoriesOf digest m ↔
    ∃ item ∈ m, item.directory? digest = some d := List.mem_filterMap

theorem gathers_nil : Gathers digest [] ∅ where
  finished _ hitem := nomatch hitem
  arrived _ _ := .refl _
  begun _ h := absurd rfl h

theorem puts_nil : Puts digest checks P [] (.start : Ingest σ) where
  putAll := rfl
  putter := iff_of_true rfl rfl
  sent k := by simp [Ingest.start]
  mem_iff d := Iff.rfl
  nodup := List.nodup_nil
  bottomUp := along_nil

/-- What there is of a directory when it arrives. -/
theorem Gathers.complete (hg : Gathers digest done s.directories)
    (hm : Arranged root (done ++ item :: rest)) {entries : FileTrees}
    (hentries : item.tree = .directory entries) :
    (s.directories.lookup item.path).getD .new = entries.directory digest := by
  have hvalid := hm.valid item hm.mem
  rw [hentries] at hvalid
  have hperm : (entries.directory digest).nodes.entries.Perm _ :=
    entries.perm_directory (FileTrees.nodup_of_valid hvalid)
  apply Directory.ext
  apply SortedMap.eq_of_perm
  exact ((hg.arrived _ hm.path_notMem_done).trans (hm.arrived_perm hentries)).trans hperm.symm

/-- The sizes that are recorded are the sizes that are computed. -/
theorem ofNat_of_size {d : Directory} {size : ℕ} (h : d.size checks = some size) :
    UInt64.ofNat size = .ofNat (d.nodes.entries.length + d.total) := by
  rw [Directory.size_eq] at h
  rw [eq_mod_of_fitU64 h]
  apply UInt64.toNat_inj.mp
  rw [UInt64.toNat_ofNat', UInt64.toNat_ofNat', Nat.mod_mod]

/-- What a directory contains was put before it. -/
theorem Puts.held_of_mem_refs (hp : Puts digest checks P done s)
    (hm : Arranged root (done ++ item :: rest)) {entries : FileTrees}
    (hentries : item.tree = .directory entries) {c : B3Digest × ℕ}
    (hc : c ∈ (Directory.merkle digest checks).refs (entries.directory digest)) :
    (Directory.merkle digest checks).Held s.puts c.1 c.2 := by
  have hvalid := hm.valid item hm.mem
  rw [hentries] at hvalid
  obtain ⟨name, size, hmem, hsize⟩ := Directory.exists_of_mem_refs hc
  have hperm : (entries.directory digest).nodes.entries.Perm _ :=
    entries.perm_directory (FileTrees.nodup_of_valid hvalid)
  obtain ⟨⟨name, tree⟩, he, heq⟩ := List.mem_map.mp (hperm.mem_iff.mp hmem)
  rw [Prod.mk.injEq] at heq
  obtain ⟨entries', htree, hk, hsize'⟩ := FileTree.node_eq_directory heq.2
  have hputs : entries'.directory digest ∈ s.puts := by
    rw [hp.mem_iff, mem_directoriesOf]
    exact ⟨_, hm.child_mem_done hentries he, Item.directory?_eq_some.mpr ⟨entries', htree, rfl⟩⟩
  obtain ⟨n, hn⟩ := hp.bottomUp.closed.1 _ hputs
  refine ⟨_, hputs, hk.symm, ?_⟩
  have hlt : n < 2 ^ 64 := by
    have hn' := hn
    rw [show (Directory.merkle digest checks).size _ = _ from Directory.size_eq checks _] at hn'
    exact lt_of_fitU64 hn'
  rw [hsize, hsize', ← ofNat_of_size hn, UInt64.toNat_ofNat', Nat.mod_eq_of_lt hlt]
  exact hn

/-- There is a directory that is too large. -/
def TooLarge (digest : Directory → B3Digest) (m : List Item) : Prop :=
  ∃ d ∈ directoriesOf digest m, 2 ^ 64 ≤ d.nodes.entries.length + d.total

/-- Why a tree is not ingested: a directory is too large, or is refused by the putter. -/
inductive Excuse (digest : Directory → B3Digest) (checks : Bool) (P : DirectoryPutter σ)
    (m : List Item) : IngestionError ε → Prop
  | overflow : checks = true → TooLarge digest m → Excuse digest checks P m
    (.panic "attempt to add with overflow")
  | sizeOverflow (path : PathBuf) : TooLarge digest m → Excuse digest checks P m
    (.constructDirectoryError path .sizeOverflow)
  | refused (path : PathBuf) {puts : List Directory} {p : σ} {d : Directory} {e : PutterError} :
    P.putAll puts = .ok p → P.put p d = .error e →
    (Directory.merkle digest checks).BottomUp (puts ++ [d]) →
    puts ++ [d] ⊆ directoriesOf digest m → Excuse digest checks P m (.uploadDirectoryError path e)

variable (digest) in
theorem mem_directoriesOf_of_tree {entries : FileTrees} (hitem : item ∈ m)
    (hentries : item.tree = .directory entries) : entries.directory digest ∈ directoriesOf digest m :=
  mem_directoriesOf.mpr ⟨item, hitem, Item.directory?_eq_some.mpr ⟨entries, hentries, rfl⟩⟩

theorem le_of_size_eq_none {d : Directory} (h : d.size checks = none) :
    checks = true ∧ 2 ^ 64 ≤ d.nodes.entries.length + d.total := by
  rw [Directory.size_eq] at h
  by_cases hlt : d.nodes.entries.length + d.total < 2 ^ 64
  · rw [fitU64_of_lt hlt] at h
    cases h
  · rw [fitU64, if_neg hlt] at h
    cases checks with
    | true => exact ⟨rfl, Nat.not_lt.mp hlt⟩
    | false => cases h

/-- What is put after a directory was taken. -/
theorem Puts.concat (hp : Puts digest checks P done s) (hm : Arranged root (done ++ item :: rest))
    {entries : FileTrees} (hentries : item.tree = .directory entries) {size : ℕ}
    (hsize : (entries.directory digest).size checks = some size)
    (hnew : digest (entries.directory digest) ∉ s.sentDirectories)
    {directories : AList fun _ : PathBuf => Directory} {p : σ}
    (hput : P.put (s.putter.getD P.start) (entries.directory digest) = .ok p) :
    Puts digest checks P (done ++ [item]) ⟨directories, some p,
      insert (digest (entries.directory digest)) s.sentDirectories,
      s.puts ++ [entries.directory digest]⟩ where
  putAll := by
    unfold DirectoryPutter.putAll
    rw [Decides.foldlM_concat]
    have hputAll := hp.putAll
    unfold DirectoryPutter.putAll at hputAll
    rw [hputAll]
    exact hput
  putter := by
    rw [directoriesOf_concat, Item.directory?_eq_some.mpr ⟨entries, hentries, rfl⟩]
    exact iff_of_false (by simp) (by simp)
  sent k := by
    rw [Finset.mem_insert, hp.sent]
    constructor
    · rintro (rfl | ⟨d, hd, rfl⟩)
      · exact ⟨_, List.mem_append_right _ (List.mem_singleton_self _), rfl⟩
      · exact ⟨d, List.mem_append_left _ hd, rfl⟩
    · rintro ⟨d, hd, rfl⟩
      rcases List.mem_append.mp hd with hd | hd
      · exact .inr ⟨d, hd, rfl⟩
      · cases List.mem_singleton.mp hd
        exact .inl rfl
  mem_iff d := by
    rw [directoriesOf_concat, Item.directory?_eq_some.mpr ⟨entries, hentries, rfl⟩, List.mem_append,
      List.mem_append, hp.mem_iff]
    rfl
  nodup := by
    rw [List.nodup_append']
    refine ⟨hp.nodup, List.nodup_singleton _, ?_⟩
    intro d hd hd'
    cases List.mem_singleton.mp hd'
    exact hnew ((hp.sent _).mpr ⟨_, hd, rfl⟩)
  bottomUp := along_concat.mpr
    ⟨hp.bottomUp, ⟨size, hsize⟩, fun _ hc => hp.held_of_mem_refs hm hentries hc⟩

/-- Nothing is put if its like was put before. -/
theorem Puts.concat_of_mem (hp : Puts digest checks P done s)
    (hinj : DistinctDigests digest (directoriesOf digest (done ++ item :: rest)))
    {entries : FileTrees} (hentries : item.tree = .directory entries)
    (hsent : digest (entries.directory digest) ∈ s.sentDirectories)
    {directories : AList fun _ : PathBuf => Directory} :
    Puts digest checks P (done ++ [item]) ⟨directories, some (s.putter.getD P.start),
      s.sentDirectories, s.puts⟩ where
  putAll := hp.putAll
  putter := by
    rw [directoriesOf_concat, Item.directory?_eq_some.mpr ⟨entries, hentries, rfl⟩]
    exact iff_of_false (by simp) (by simp)
  sent := hp.sent
  mem_iff d := by
    rw [directoriesOf_concat, Item.directory?_eq_some.mpr ⟨entries, hentries, rfl⟩, List.mem_append,
      ← hp.mem_iff]
    refine ⟨.inl, ?_⟩
    rintro (hd | hd)
    · exact hd
    · cases List.mem_singleton.mp hd
      obtain ⟨d', hd', hkey⟩ := (hp.sent _).mp hsent
      have hmem : d' ∈ directoriesOf digest (done ++ item :: rest) := by
        obtain ⟨item', hitem', hdir⟩ := mem_directoriesOf.mp ((hp.mem_iff d').mp hd')
        exact mem_directoriesOf.mpr ⟨item', List.mem_append_left _ hitem', hdir⟩
      rw [← hinj d' hmem _ (mem_directoriesOf_of_tree digest (List.mem_append_right _ List.mem_cons_self)
        hentries) hkey]
      exact hd'
  nodup := hp.nodup
  bottomUp := hp.bottomUp

theorem Puts.concat_of_leaf (hp : Puts digest checks P done s)
    (hleaf : ∀ entries, item.tree ≠ .directory entries) : Puts digest checks P (done ++ [item]) s := by
  have hnone : item.directory? digest = none := by
    rw [Option.eq_none_iff_forall_ne_some]
    intro d hd
    obtain ⟨entries, hentries, -⟩ := Item.directory?_eq_some.mp hd
    exact hleaf entries hentries
  have hsame : directoriesOf digest (done ++ [item]) = directoriesOf digest done := by
    rw [directoriesOf_concat, hnone]
    exact List.append_nil _
  refine ⟨hp.putAll, ?_, hp.sent, ?_, hp.nodup, hp.bottomUp⟩
  · rw [hsame]
    exact hp.putter
  · rw [hsame]
    exact hp.mem_iff

theorem Gathers.lookup_of_leaf (hg : Gathers digest done s.directories)
    (hm : Arranged root (done ++ item :: rest)) (hleaf : ∀ entries, item.tree ≠ .directory entries) :
    s.directories.lookup item.path = none := by
  by_contra h
  obtain ⟨e, he⟩ := List.exists_mem_of_ne_nil _ (hg.begun _ h)
  obtain ⟨child, hchild, hpath, -⟩ := mem_arrived.mp he
  obtain ⟨entries, hentries, -⟩ := hm.entry_of_path hm.mem (List.mem_append_left _ hchild)
    (hm.ne_root_of_mem_done hchild) hpath
  exact hleaf entries hentries

theorem lookup_erase (directories : AList fun _ : PathBuf => Directory) (path q : PathBuf) :
    (directories.erase path).lookup q = if q = path then none else directories.lookup q := by
  by_cases h : q = path
  · rw [if_pos h, h, AList.lookup_erase]
  · rw [if_neg h, AList.lookup_erase_ne h]

/-- The node of an entry, if its directory can be put. -/
theorem nodeOf_spec (hg : Gathers digest done s.directories) (hp : Puts digest checks P done s)
    (hm : Arranged root (done ++ item :: rest))
    (hinj : DistinctDigests digest (directoriesOf digest (done ++ item :: rest))) :
    (∃ s', Ingest.nodeOf (ε := ε) digest checks P item.entry s = .ok (item.tree.node digest, s') ∧
      Puts digest checks P (done ++ [item]) s' ∧
      ∀ path, s'.directories.lookup path =
        if path = item.path then none else s.directories.lookup path) ∨
    ∃ e : IngestionError ε, Ingest.nodeOf digest checks P item.entry s = .error e ∧
      Excuse digest checks P (done ++ item :: rest) e := by
  -- nothing changes for what is not a directory
  have hleaf : (∀ entries, item.tree ≠ .directory entries) →
      Puts digest checks P (done ++ [item]) s ∧ ∀ path, s.directories.lookup path =
        if path = item.path then none else s.directories.lookup path := by
    intro hleaf
    refine ⟨hp.concat_of_leaf hleaf, fun path => ?_⟩
    by_cases hpath : path = item.path
    · rw [if_pos hpath, hpath, hg.lookup_of_leaf hm hleaf]
    · rw [if_neg hpath]
  unfold Item.entry
  cases htree : item.tree with
  | file k size executable =>
    exact .inl ⟨s, rfl, hleaf fun entries hentries => by rw [htree] at hentries; cases hentries⟩
  | symlink target =>
    refine .inl ⟨s, ?_, hleaf fun entries hentries => by rw [htree] at hentries; cases hentries⟩
    unfold Ingest.nodeOf
    simp only [SymlinkTarget.tryFrom_val, FileTree.node]
  | directory entries =>
    unfold Ingest.nodeOf Ingest.finishDirectory
    simp only [hg.complete hm htree]
    cases hsize : (entries.directory digest).size checks with
    | none =>
      obtain ⟨hchecks, hle⟩ := le_of_size_eq_none hsize
      exact .inr ⟨_, rfl, .overflow hchecks ⟨_, mem_directoriesOf_of_tree digest hm.mem htree, hle⟩⟩
    | some size =>
      have hnode : (FileTree.directory entries).node digest =
          .directory (digest (entries.directory digest)) (.ofNat size) := by
        rw [ofNat_of_size hsize]
        rfl
      dsimp only
      by_cases hsent : digest (entries.directory digest) ∈ s.sentDirectories
      · rw [if_pos hsent, hnode]
        exact .inl ⟨_, rfl, hp.concat_of_mem hinj htree hsent, lookup_erase _ _⟩
      · rw [if_neg hsent]
        cases hput : P.put (s.putter.getD P.start) (entries.directory digest) with
        | error e =>
          refine .inr ⟨_, rfl, .refused _ hp.putAll hput ?_ ?_⟩
          · exact along_concat.mpr
              ⟨hp.bottomUp, ⟨size, hsize⟩, fun _ hc => hp.held_of_mem_refs hm htree hc⟩
          · rw [List.append_subset, List.cons_subset]
            refine ⟨fun d hd => ?_, mem_directoriesOf_of_tree digest hm.mem htree, List.nil_subset _⟩
            obtain ⟨item', hitem', hdir⟩ := mem_directoriesOf.mp ((hp.mem_iff d).mp hd)
            exact mem_directoriesOf.mpr ⟨item', List.mem_append_left _ hitem', hdir⟩
        | ok p =>
          rw [hnode]
          exact .inl ⟨_, rfl, hp.concat hm htree hsize hsent hput, lookup_erase _ _⟩

variable (digest) in
/-- What has arrived of a directory is not more than all of it. -/
theorem Arranged.subperm_arrived (hm : Arranged root m) (hdone : (done ++ [item]).Sublist m)
    {above : Item} (habove : above ∈ m) {entries : FileTrees}
    (hentries : above.tree = .directory entries) (hroot : root ∉ done ++ [item]) :
    (arrived digest (done ++ [item]) above.path).Subperm
      (entries.directory digest).nodes.entries := by
  have hvalid := hm.valid above habove
  rw [hentries] at hvalid
  have hperm : (entries.directory digest).nodes.entries.Perm _ :=
    entries.perm_directory (FileTrees.nodup_of_valid hvalid)
  apply List.subperm_of_subset (nodup_arrived (hm.nodup.sublist (hdone.map _)))
  intro e he
  obtain ⟨child, hchild, hpath, hnode⟩ := mem_arrived.mp he
  have hne : child ≠ root := by
    rintro rfl
    exact hroot hchild
  obtain ⟨entries', hentries', hmem⟩ := hm.entry_of_path habove (hdone.subset hchild) hne hpath
  rw [hentries] at hentries'
  cases hentries'
  exact hperm.mem_iff.mpr (List.mem_map.mpr ⟨_, hmem, Prod.ext rfl hnode.symm⟩)

theorem weight_le_of_subperm {l l' : List (PathComponent × Node)} (h : l.Subperm l') :
    Directory.weight l ≤ Directory.weight l' := by
  obtain ⟨l₀, hperm, hsub⟩ := h
  obtain ⟨l₁, hperm'⟩ := hsub.exists_perm_append
  rw [← Directory.weight_perm hperm, Directory.weight_perm hperm']
  unfold Directory.weight
  rw [List.map_append, List.sum_append]
  exact Nat.le_add_right _ _

variable (digest) in
/-- What has arrived of a directory is not larger than all of it. -/
theorem Arranged.arrived_le (hm : Arranged root m) (hdone : (done ++ [item]).Sublist m)
    {above : Item} (habove : above ∈ m) {entries : FileTrees}
    (hentries : above.tree = .directory entries) (hroot : root ∉ done ++ [item])
    {e : PathComponent × FileTree} (hitem : item = ⟨above.path ++ [e.1], e.2⟩) :
    (arrived digest done above.path).length + Directory.weight (arrived digest done above.path) +
        (2 + (e.2.node digest).childSize) ≤
      (entries.directory digest).nodes.entries.length + (entries.directory digest).total := by
  have hsub := hm.subperm_arrived digest hdone habove hentries hroot
  rw [@arrived_concat_of_eq _ _ _ _ e.1 (by rw [hitem])] at hsub
  have hlength := hsub.length_le
  have hweight := weight_le_of_subperm hsub
  rw [Directory.weight_perm (List.perm_append_singleton _ _), Directory.weight_cons] at hweight
  rw [List.length_append, List.length_singleton] at hlength
  rw [Directory.total, hitem] at *
  dsimp only at hweight
  omega

/-- A node with a new name is added, unless the directory gets too large. -/
theorem add_cases (checks : Bool) {d : Directory} {name : PathComponent} (node : Node)
    (hnew : d.nodes.contains name = false) :
    d.add checks name node = none ∧ checks = true ∧ 2 ^ 64 ≤ d.nodes.entries.length + d.total ∨
      d.add checks name node = some (.error .sizeOverflow) ∧
        2 ^ 64 ≤ d.nodes.entries.length + d.total + (1 + node.childSize) ∨
      d.add checks name node = some (.ok ⟨d.nodes.insert name node⟩) := by
  unfold Directory.add
  cases hsize : d.size checks with
  | none => exact .inl ⟨rfl, le_of_size_eq_none hsize⟩
  | some size =>
    right
    have hle : size ≤ d.nodes.entries.length + d.total := by
      rw [Directory.size_eq] at hsize
      rw [eq_mod_of_fitU64 hsize]
      exact Nat.mod_le _ _
    by_cases hlt : size + (1 + node.childSize) < 2 ^ 64
    · right
      have hinsert := Directory.checkInsertNode_eq_ok.mpr ⟨hlt, hnew, rfl⟩
      simp only [Option.bind_eq_bind, Option.bind_some, hinsert]
      rfl
    · left
      refine ⟨?_, by omega⟩
      have hsum : sumU64 true [size, 1, node.childSize] = none := by
        rw [sumU64_eq, fitU64, if_neg, if_pos rfl]
        exact hlt
      simp only [Option.bind_eq_bind, Option.bind_some, Directory.checkInsertNode, hsum]
      rfl

/-- One more item has arrived, and is recorded in the directory above it. -/
theorem Gathers.concat (hg : Gathers digest done s.directories)
    (hm : Arranged root (done ++ item :: rest)) {q : PathBuf} {name : PathComponent}
    (hpath : item.path = q ++ [name]) {directories : AList fun _ : PathBuf => Directory}
    (hlookup : ∀ path, directories.lookup path =
      if path = item.path then none else s.directories.lookup path) {D : Directory}
    (hD : D.nodes.entries.Perm
      ((name, item.tree.node digest) :: ((s.directories.lookup q).getD .new).nodes.entries)) :
    Gathers digest (done ++ [item]) (directories.insert q D) := by
  have hq : item.path.parent = some q := by rw [hpath, PathBuf.parent_concat]
  have hqne : q ≠ item.path := by
    intro heq
    have hlength := congrArg List.length (heq.trans hpath)
    simp at hlength
  have hqdone := hm.parent_notMem_done hq
  have hothers : ∀ path, path ≠ q → (directories.insert q D).lookup path =
      if path = item.path then none else s.directories.lookup path := fun path hne =>
    (AList.lookup_insert_ne hne).trans (hlookup path)
  constructor
  · intro a ha
    rcases List.mem_append.mp ha with ha | ha
    · have hne : a.path ≠ q := fun heq => hqdone (heq ▸ List.mem_map_of_mem ha)
      rw [hothers _ hne, hg.finished a ha, ite_self]
    · cases List.mem_singleton.mp ha
      rw [hothers _ hqne.symm, if_pos rfl]
  · intro path hpathNot
    rw [List.map_append, List.mem_append, not_or, List.map_singleton, List.mem_singleton] at hpathNot
    by_cases hcase : path = q
    · subst hcase
      rw [AList.lookup_insert, arrived_concat_of_eq hpath]
      refine hD.trans (((hg.arrived path hpathNot.1).cons _).trans ?_)
      exact (List.perm_append_singleton _ _).symm
    · rw [hothers path hcase, if_neg hpathNot.2, arrived_concat_of_ne fun h => hcase
        (Option.some.inj (h.symm.trans hq))]
      exact hg.arrived path hpathNot.1
  · intro path h
    by_cases hcase : path = q
    · rw [hcase, arrived_concat_of_eq hpath]
      exact List.concat_ne_nil _ _
    · rw [hothers path hcase] at h
      rw [arrived_concat_of_ne fun h => hcase (Option.some.inj (h.symm.trans hq))]
      apply hg.begun path
      intro hnone
      rw [hnone, ite_self] at h
      exact h rfl

variable (checks) in
/-- A node is recorded in the directory above it, unless that is too large. -/
theorem record_spec (hg : Gathers digest done s.directories)
    (hm : Arranged root (done ++ item :: rest)) (hne : item ≠ root) {q : PathBuf}
    (hq : item.path.parent = some q)
    (hlookup : ∀ path, s'.directories.lookup path =
      if path = item.path then none else s.directories.lookup path) :
    (∃ directories, Ingest.record (ε := ε) checks item.path q (item.tree.node digest) s' =
        .ok { s' with directories := directories } ∧ Gathers digest (done ++ [item]) directories) ∨
    ∃ e : IngestionError ε, Ingest.record checks item.path q (item.tree.node digest) s' = .error e ∧
      Excuse digest checks P (done ++ item :: rest) e := by
  obtain ⟨above, habove, entries, hentries, e, he, hitem⟩ :=
    (hm.parent item hm.mem).resolve_left hne
  obtain rfl : q = above.path := by
    rw [hitem, PathBuf.parent_concat, Option.some.injEq] at hq
    exact hq.symm
  have hdone : (done ++ [item]).Sublist (done ++ item :: rest) := by
    rw [List.append_cons done item rest]
    exact List.sublist_append_left _ _
  have hroot : root ∉ done ++ [item] := by
    rw [List.mem_append, List.mem_singleton]
    rintro (hmem | rfl)
    · exact hm.root_notMem_done hmem
    · exact hne rfl
  have hle := hm.arrived_le digest hdone habove hentries hroot hitem
  -- the directory above as it is so far
  have hlookup' : s'.directories.lookup above.path = s.directories.lookup above.path := by
    rw [hlookup, if_neg]
    intro heq
    have hlength := congrArg List.length heq
    rw [hitem] at hlength
    simp at hlength
  have hperm := hg.arrived _ (hm.parent_notMem_done hq)
  rw [← hlookup'] at hperm
  unfold Ingest.record
  rw [show item.path.fileName = some e.1 by rw [hitem, PathBuf.fileName_concat]]
  generalize hD : (s'.directories.lookup above.path).getD .new = D at hperm ⊢
  have hsize : D.nodes.entries.length + D.total + (2 + (item.tree.node digest).childSize) ≤
      (entries.directory digest).nodes.entries.length + (entries.directory digest).total := by
    rw [Directory.total, hperm.length_eq, Directory.weight_perm hperm, hitem]
    exact hle
  have hlarge : 2 ^ 64 ≤ D.nodes.entries.length + D.total + (1 + (item.tree.node digest).childSize) →
      TooLarge digest (done ++ item :: rest) := fun h =>
    ⟨_, mem_directoriesOf_of_tree digest habove hentries, by omega⟩
  have hnew : D.nodes.contains e.1 = false := by
    rw [SortedMap.contains_eq_false]
    intro e' he' heq
    obtain ⟨child, hchild, hpath, -⟩ := mem_arrived.mp (hperm.mem_iff.mp he')
    apply hm.path_notMem_done
    rw [← PathComponent.eq_of_cmp heq] at hpath
    exact List.mem_map.mpr ⟨child, hchild, hpath.trans (by rw [hitem])⟩
  dsimp only
  rcases add_cases checks (item.tree.node digest) hnew with
    ⟨hadd, hchecks, hover⟩ | ⟨hadd, hover⟩ | hadd
  · rw [hadd]
    exact .inr ⟨_, rfl, .overflow hchecks (hlarge (by omega))⟩
  · rw [hadd]
    exact .inr ⟨_, rfl, .sizeOverflow _ (hlarge hover)⟩
  · rw [hadd]
    refine .inl ⟨_, rfl, hg.concat hm (by rw [hitem]) hlookup ?_⟩
    rw [← hlookup', hD]
    exact SortedMap.insert_perm hnew

theorem Puts.of_directories (hp : Puts digest checks P done s)
    (directories : AList fun _ : PathBuf => Directory) :
    Puts digest checks P done { s with directories := directories } :=
  ⟨hp.putAll, hp.putter, hp.sent, hp.mem_iff, hp.nodup, hp.bottomUp⟩

/-- All paths have a parent, and it is not empty except for the root. -/
theorem Arranged.parent_of_path {name : PathComponent} (hroot : root.path = [name])
    (hm : Arranged root m) (hitem : item ∈ m) :
    ∃ q, item.path.parent = some q ∧ (q = [] ↔ item = root) := by
  have hne : ∀ a ∈ m, a.path ≠ [] := by
    intro a ha
    rcases hm.parent a ha with rfl | ⟨above, -, _, -, e, -, rfl⟩
    · rw [hroot]
      exact List.cons_ne_nil _ _
    · exact List.concat_ne_nil _ _
  rcases hm.parent item hitem with rfl | ⟨above, habove, _, -, e, -, heq⟩
  · exact ⟨[], by rw [hroot]; rfl, iff_of_true rfl rfl⟩
  · refine ⟨above.path, by rw [heq, PathBuf.parent_concat], iff_of_false (hne above habove) ?_⟩
    rintro rfl
    rw [heq] at hroot
    have hlength := congrArg List.length hroot
    rw [List.length_append, List.length_singleton, List.length_singleton] at hlength
    exact hne above habove (List.length_eq_zero_iff.mp (by omega))

/-- What one entry does that is not the root. -/
theorem step_spec {name : PathComponent} (hroot : root.path = [name])
    (hg : Gathers digest done s.directories) (hp : Puts digest checks P done s)
    (hm : Arranged root (done ++ item :: rest))
    (hinj : DistinctDigests digest (directoriesOf digest (done ++ item :: rest)))
    (hne : item ≠ root) :
    (∃ s', Ingest.step (ε := ε) digest checks P item.entry s = .ok (none, s') ∧
      Gathers digest (done ++ [item]) s'.directories ∧ Puts digest checks P (done ++ [item]) s') ∨
    ∃ e : IngestionError ε, Ingest.step digest checks P item.entry s = .error e ∧
      Excuse digest checks P (done ++ item :: rest) e := by
  obtain ⟨q, hq, hqroot⟩ := hm.parent_of_path hroot hm.mem
  unfold Ingest.step
  rcases nodeOf_spec (ε := ε) hg hp hm hinj with ⟨s', hnode, hp', hlookup⟩ | ⟨e, hnode, hexcuse⟩
  · rw [hnode, Item.path_entry, hq]
    simp only [bind, Except.bind, if_neg (mt hqroot.mp hne)]
    rcases record_spec (ε := ε) (P := P) checks hg hm hne hq hlookup with
      ⟨directories, hrecord, hg'⟩ | ⟨e, hrecord, hexcuse⟩
    · rw [hrecord]
      exact .inl ⟨_, rfl, hg', hp'.of_directories directories⟩
    · rw [hrecord]
      exact .inr ⟨e, rfl, hexcuse⟩
  · rw [hnode]
    exact .inr ⟨e, rfl, hexcuse⟩

/-- What the root does: nothing is left. -/
theorem step_root {name : PathComponent} (hroot : root.path = [name])
    (hg : Gathers digest done s.directories) (hp : Puts digest checks P done s)
    (hm : Arranged root (done ++ [root]))
    (hinj : DistinctDigests digest (directoriesOf digest (done ++ [root]))) :
    (∃ s', Ingest.step (ε := ε) digest checks P root.entry s =
        .ok (some (root.tree.node digest), s') ∧
      (∀ path, s'.directories.lookup path = none) ∧ Puts digest checks P (done ++ [root]) s') ∨
    ∃ e : IngestionError ε, Ingest.step digest checks P root.entry s = .error e ∧
      Excuse digest checks P (done ++ [root]) e := by
  obtain ⟨q, hq, hqroot⟩ := hm.parent_of_path hroot hm.mem
  unfold Ingest.step
  rcases nodeOf_spec (ε := ε) hg hp hm hinj with ⟨s', hnode, hp', hlookup⟩ | ⟨e, hnode, hexcuse⟩
  · rw [hnode, Item.path_entry, hq]
    simp only [bind, Except.bind, if_pos (hqroot.mpr rfl)]
    refine .inl ⟨s', rfl, fun path => ?_, hp'⟩
    rw [hlookup path]
    by_cases hpath : path = root.path
    · exact if_pos hpath
    · rw [if_neg hpath]
      by_contra hbegun
      -- the directory above something that has arrived has arrived as well
      obtain ⟨e, he⟩ := List.exists_mem_of_ne_nil _ (hg.begun path hbegun)
      obtain ⟨child, hchild, hchildPath, -⟩ := mem_arrived.mp he
      obtain ⟨above, habove, _, -, e', -, heq⟩ :=
        (hm.parent child (List.mem_append_left _ hchild)).resolve_left
          (hm.ne_root_of_mem_done hchild)
      rw [heq] at hchildPath
      obtain ⟨rfl, -⟩ := List.append_inj' hchildPath rfl
      rcases List.mem_append.mp habove with habove | habove
      · exact hbegun (hg.finished above habove)
      · cases List.mem_singleton.mp habove
        exact hpath rfl
  · rw [hnode]
    exact .inr ⟨e, rfl, hexcuse⟩

theorem entries_eq_nil_of_lookup {directories : AList fun _ : PathBuf => Directory}
    (h : ∀ path, directories.lookup path = none) : directories.entries = [] := by
  rw [List.eq_nil_iff_forall_not_mem]
  rintro ⟨path, directory⟩ hmem
  have hlookup := AList.mem_lookup_iff.mpr hmem
  rw [h path] at hlookup
  cases hlookup

/-- The loop goes through the entries up to the root, which is the last. -/
theorem loop_spec {name : PathComponent} (hroot : root.path = [name]) {todo : List Item}
    (hg : Gathers digest done s.directories) (hp : Puts digest checks P done s)
    (hm : Arranged root (done ++ todo)) (htodo : todo ≠ [])
    (hinj : DistinctDigests digest (directoriesOf digest (done ++ todo))) :
    (∃ s', Ingest.loop digest checks P (todo.map fun i => (.ok i.entry : Except ε _)) s =
        .ok (root.tree.node digest, [], s') ∧
      s'.directories.entries = [] ∧ Puts digest checks P (done ++ todo) s') ∨
    ∃ e : IngestionError ε,
      Ingest.loop digest checks P (todo.map fun i => (.ok i.entry : Except ε _)) s = .error e ∧
        Excuse digest checks P (done ++ todo) e := by
  induction todo generalizing done s with
  | nil => exact absurd rfl htodo
  | cons item rest ih =>
    rw [List.map_cons]
    unfold Ingest.loop
    by_cases hne : item = root
    · subst hne
      obtain rfl := hm.rest_eq_nil
      rcases step_root (ε := ε) hroot hg hp hm hinj with ⟨s', hstep, hnone, hp'⟩ | ⟨e, hstep, hexcuse⟩
      · rw [hstep]
        exact .inl ⟨s', rfl, entries_eq_nil_of_lookup hnone, hp'⟩
      · rw [hstep]
        exact .inr ⟨e, rfl, hexcuse⟩
    · rcases step_spec (ε := ε) hroot hg hp hm hinj hne with
        ⟨s', hstep, hg', hp'⟩ | ⟨e, hstep, hexcuse⟩
      · have hrest : rest ≠ [] := by
          rintro rfl
          have hlast := hm.last
          rw [List.getLast?_concat, Option.some.injEq] at hlast
          exact hne hlast
        rw [hstep]
        rw [List.append_cons] at hm hinj ⊢
        exact ih hg' hp' hm hrest hinj
      · rw [hstep]
        exact .inr ⟨e, rfl, hexcuse⟩

end

end Snix.Castore
