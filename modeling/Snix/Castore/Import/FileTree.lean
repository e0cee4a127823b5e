import Snix.Castore.Directory

/-!
# File trees

A file tree by itself, without a store: what is at each of its paths, and the node that
hashing it from the leaves to the root gives.

## Main definitions

- `FileTree` — files, symlinks, and directories with named entries
- `FileTree.items` — what is at the paths of a tree
- `FileTree.node` — the node of a tree
- `Layout` — what is known about the items of a tree

## Main results

- `layout_items` — the items of a tree are laid out well
- `total_directory` — a directory is as large as there are nodes below it, twice
-/

namespace Snix.Castore

/-- A path, by its components. The empty path is the root. -/
abbrev PathBuf := List PathComponent

def PathBuf.parent (path : PathBuf) : Option PathBuf :=
  if path = [] then none else some path.dropLast

def PathBuf.fileName (path : PathBuf) : Option PathComponent := path.getLast?

mutual

/-- A file tree, with the digests of the contents of its files. -/
inductive FileTree where
  | file (digest : B3Digest) (size : UInt64) (executable : Bool)
  | symlink (target : SymlinkTarget)
  | directory (entries : FileTrees)

/-- The entries of a directory. -/
inductive FileTrees where
  | nil
  | cons (name : PathComponent) (tree : FileTree) (rest : FileTrees)

end

def FileTrees.toList : FileTrees → List (PathComponent × FileTree)
  | .nil => []
  | .cons name tree rest => (name, tree) :: rest.toList

mutual

/-- No two entries of a directory have the same name. -/
def FileTree.Valid : FileTree → Prop
  | .file .. => True
  | .symlink _ => True
  | .directory entries => entries.Valid

def FileTrees.Valid : FileTrees → Prop
  | .nil => True
  | .cons name tree rest => name ∉ rest.toList.map Prod.fst ∧ tree.Valid ∧ rest.Valid

end

/-- What is at a path. -/
structure Item where
  path : PathBuf
  tree : FileTree

mutual

/-- What is at the paths from `path` on, where the tree is. -/
def FileTree.items (path : PathBuf) : FileTree → List Item
  | .file digest size executable => [⟨path, .file digest size executable⟩]
  | .symlink target => [⟨path, .symlink target⟩]
  | .directory entries => ⟨path, .directory entries⟩ :: entries.items path

def FileTrees.items (path : PathBuf) : FileTrees → List Item
  | .nil => []
  | .cons name tree rest => tree.items (path ++ [name]) ++ rest.items path

end

mutual

/-- The number of nodes below the root of a tree. -/
def FileTree.nodesBelow : FileTree → ℕ
  | .file .. => 0
  | .symlink _ => 0
  | .directory entries => entries.count

def FileTrees.count : FileTrees → ℕ
  | .nil => 0
  | .cons _ tree rest => 1 + tree.nodesBelow + rest.count

end

section

variable (digest : Directory → B3Digest)

mutual

/-- The node of a tree, from the leaves to the root. Sizes are numbers of 64 bits. -/
def FileTree.node : FileTree → Node
  | .file digest size executable => .file digest size executable
  | .symlink target => .symlink target
  | .directory entries =>
    let directory := entries.directory
    .directory (digest directory) (.ofNat (directory.nodes.entries.length + directory.total))

/-- The directory with these entries. -/
def FileTrees.directory : FileTrees → Directory
  | .nil => .new
  | .cons name tree rest => ⟨rest.directory.nodes.insert name tree.node⟩

end

/-- The directory at a path. -/
def Item.directory? (item : Item) : Option Directory :=
  match item.tree with
  | .directory entries => some (entries.directory digest)
  | _ => none

end

-- ====================
-- The layout of a tree
-- ====================

/-- Every path is there once. The entries of the directories are there, and nothing else but the
    root. -/
structure Layout (root : Item) (items : List Item) : Prop where
  root_mem : root ∈ items
  nodup : (items.map Item.path).Nodup
  child : ∀ item ∈ items, ∀ entries, item.tree = .directory entries → ∀ e ∈ entries.toList,
    ⟨item.path ++ [e.1], e.2⟩ ∈ items
  parent : ∀ item ∈ items, item = root ∨ ∃ above ∈ items, ∃ entries, above.tree = .directory entries ∧
    ∃ e ∈ entries.toList, item = ⟨above.path ++ [e.1], e.2⟩
  valid : ∀ item ∈ items, item.tree.Valid
  below_lt : ∀ item ∈ items, item = root ∨ item.tree.nodesBelow < root.tree.nodesBelow

theorem FileTrees.nodup_of_valid {entries : FileTrees} (h : entries.Valid) :
    (entries.toList.map Prod.fst).Nodup := by
  cases entries with
  | nil => exact List.nodup_nil
  | cons name tree rest =>
    obtain ⟨hname, -, hrest⟩ := h
    exact List.nodup_cons.mpr ⟨hname, FileTrees.nodup_of_valid hrest⟩

mutual

/-- All paths of a tree start with its own. -/
theorem FileTree.prefix_of_mem (tree : FileTree) {path : PathBuf} {item : Item}
    (h : item ∈ tree.items path) : path <+: item.path := by
  cases tree with
  | file digest size executable =>
    cases List.mem_singleton.mp h
    exact List.prefix_rfl
  | symlink target =>
    cases List.mem_singleton.mp h
    exact List.prefix_rfl
  | directory entries =>
    rcases List.mem_cons.mp h with rfl | h
    · exact List.prefix_rfl
    · obtain ⟨e, -, hprefix⟩ := FileTrees.prefix_of_mem entries h
      exact (List.prefix_append path [e.1]).trans hprefix

theorem FileTrees.prefix_of_mem (entries : FileTrees) {path : PathBuf} {item : Item}
    (h : item ∈ entries.items path) : ∃ e ∈ entries.toList, path ++ [e.1] <+: item.path := by
  cases entries with
  | nil => cases h
  | cons name tree rest =>
    rcases List.mem_append.mp h with h | h
    · exact ⟨(name, tree), List.mem_cons_self, FileTree.prefix_of_mem tree h⟩
    · obtain ⟨e, he, hprefix⟩ := FileTrees.prefix_of_mem rest h
      exact ⟨e, List.mem_cons_of_mem _ he, hprefix⟩

end

/-- Paths below two entries of a directory. -/
theorem eq_of_prefix_concat {path q : PathBuf} {a b : PathComponent} (ha : path ++ [a] <+: q)
    (hb : path ++ [b] <+: q) : a = b := by
  have h : path ++ [a] = path ++ [b] := by
    obtain h | h := List.prefix_or_prefix_of_prefix ha hb
    · exact h.eq_of_length (by simp)
    · exact (h.eq_of_length (by simp)).symm
  exact List.singleton_inj.mp (List.append_cancel_left h)

/-- The root of a part of the tree, and its items. -/
theorem Layout.of_leaf {item : Item} (hvalid : item.tree.Valid)
    (hleaf : ∀ entries, item.tree ≠ .directory entries) : Layout item [item] where
  root_mem := List.mem_singleton_self item
  nodup := List.nodup_singleton _
  child i hi entries hentries := by
    cases List.mem_singleton.mp hi
    exact absurd hentries (hleaf entries)
  parent i hi := .inl (List.mem_singleton.mp hi)
  valid i hi := by
    cases List.mem_singleton.mp hi
    exact hvalid
  below_lt i hi := .inl (List.mem_singleton.mp hi)

/-- What is known about the items of the entries of a directory. -/
structure EntriesLayout (path : PathBuf) (entries : FileTrees) (items : List Item) : Prop where
  nodup : (items.map Item.path).Nodup
  top : ∀ e ∈ entries.toList, ⟨path ++ [e.1], e.2⟩ ∈ items
  child : ∀ item ∈ items, ∀ entries, item.tree = .directory entries → ∀ e ∈ entries.toList,
    ⟨item.path ++ [e.1], e.2⟩ ∈ items
  parent : ∀ item ∈ items, (∃ e ∈ entries.toList, item = ⟨path ++ [e.1], e.2⟩) ∨
    ∃ above ∈ items, ∃ entries, above.tree = .directory entries ∧
      ∃ e ∈ entries.toList, item = ⟨above.path ++ [e.1], e.2⟩
  valid : ∀ item ∈ items, item.tree.Valid
  below_lt : ∀ item ∈ items, item.tree.nodesBelow < entries.count

theorem EntriesLayout.layout {path : PathBuf} {entries : FileTrees}
    (h : EntriesLayout path entries (entries.items path)) (hvalid : entries.Valid) :
    Layout ⟨path, .directory entries⟩ (⟨path, .directory entries⟩ :: entries.items path) where
  root_mem := List.mem_cons_self
  nodup := by
    rw [List.map_cons, List.nodup_cons]
    refine ⟨?_, h.nodup⟩
    intro hmem
    obtain ⟨item, hitem, hpath⟩ := List.mem_map.mp hmem
    obtain ⟨e, -, hprefix⟩ := entries.prefix_of_mem hitem
    have hle := hprefix.length_le
    rw [hpath, List.length_append, List.length_singleton] at hle
    dsimp only at hle
    omega
  child item hitem es hes e he := by
    rcases List.mem_cons.mp hitem with rfl | hitem
    · cases hes
      exact List.mem_cons_of_mem _ (h.top e he)
    · exact List.mem_cons_of_mem _ (h.child item hitem es hes e he)
  parent item hitem := by
    rcases List.mem_cons.mp hitem with rfl | hitem
    · exact .inl rfl
    · right
      rcases h.parent item hitem with ⟨e, he, rfl⟩ | ⟨above, habove, es, hes, e, he, rfl⟩
      · exact ⟨_, List.mem_cons_self, entries, rfl, e, he, rfl⟩
      · exact ⟨above, List.mem_cons_of_mem _ habove, es, hes, e, he, rfl⟩
  valid item hitem := by
    rcases List.mem_cons.mp hitem with rfl | hitem
    · exact hvalid
    · exact h.valid item hitem
  below_lt item hitem := by
    rcases List.mem_cons.mp hitem with rfl | hitem
    · exact .inl rfl
    · exact .inr (h.below_lt item hitem)

theorem EntriesLayout.nil {path : PathBuf} : EntriesLayout path .nil [] where
  nodup := List.nodup_nil
  top _ he := nomatch he
  child _ hitem := nomatch hitem
  parent _ hitem := nomatch hitem
  valid _ hitem := nomatch hitem
  below_lt _ hitem := nomatch hitem

/-- One more entry, in front of the others. -/
theorem EntriesLayout.cons {path : PathBuf} {name : PathComponent} {tree : FileTree}
    {rest : FileTrees} (hname : name ∉ rest.toList.map Prod.fst)
    (h : Layout ⟨path ++ [name], tree⟩ (tree.items (path ++ [name])))
    (hrest : EntriesLayout path rest (rest.items path)) :
    EntriesLayout path (.cons name tree rest) (tree.items (path ++ [name]) ++ rest.items path) where
  nodup := by
    rw [List.map_append, List.nodup_append']
    refine ⟨h.nodup, hrest.nodup, ?_⟩
    intro q hq hq'
    obtain ⟨item, hitem, rfl⟩ := List.mem_map.mp hq
    obtain ⟨item', hitem', hpath⟩ := List.mem_map.mp hq'
    obtain ⟨e, he, hprefix⟩ := rest.prefix_of_mem hitem'
    rw [hpath] at hprefix
    apply hname
    rw [eq_of_prefix_concat (tree.prefix_of_mem hitem) hprefix]
    exact List.mem_map_of_mem he
  top e he := by
    rcases List.mem_cons.mp he with rfl | he
    · exact List.mem_append_left _ h.root_mem
    · exact List.mem_append_right _ (hrest.top e he)
  child item hitem es hes e he := by
    rcases List.mem_append.mp hitem with hitem | hitem
    · exact List.mem_append_left _ (h.child item hitem es hes e he)
    · exact List.mem_append_right _ (hrest.child item hitem es hes e he)
  parent item hitem := by
    rcases List.mem_append.mp hitem with hitem | hitem
    · rcases h.parent item hitem with rfl | ⟨above, habove, es, hes, e, he, rfl⟩
      · exact .inl ⟨(name, tree), List.mem_cons_self, rfl⟩
      · exact .inr ⟨above, List.mem_append_left _ habove, es, hes, e, he, rfl⟩
    · rcases hrest.parent item hitem with ⟨e, he, rfl⟩ | ⟨above, habove, es, hes, e, he, rfl⟩
      · exact .inl ⟨e, List.mem_cons_of_mem _ he, rfl⟩
      · exact .inr ⟨above, List.mem_append_right _ habove, es, hes, e, he, rfl⟩
  valid item hitem := by
    rcases List.mem_append.mp hitem with hitem | hitem
    · exact h.valid item hitem
    · exact hrest.valid item hitem
  below_lt item hitem := by
    rw [FileTrees.count]
    rcases List.mem_append.mp hitem with hitem | hitem
    · rcases h.below_lt item hitem with rfl | hlt
      · dsimp only
        omega
      · dsimp only at hlt
        omega
    · have hlt := hrest.below_lt item hitem
      omega

mutual

/-- The items of a tree are laid out well. -/
theorem layout_items (tree : FileTree) (h : tree.Valid) (path : PathBuf) :
    Layout ⟨path, tree⟩ (tree.items path) := by
  cases tree with
  | file digest size executable => exact .of_leaf h fun _ hdir => nomatch hdir
  | symlink target => exact .of_leaf h fun _ hdir => nomatch hdir
  | directory entries => exact (entriesLayout_items entries h path).layout h

theorem entriesLayout_items (entries : FileTrees) (h : entries.Valid) (path : PathBuf) :
    EntriesLayout path entries (entries.items path) := by
  cases entries with
  | nil => exact .nil
  | cons name tree rest =>
    obtain ⟨hname, htree, hrest⟩ := h
    exact .cons hname (layout_items tree htree _) (entriesLayout_items rest hrest path)

end

mutual

theorem FileTree.length_items (tree : FileTree) (path : PathBuf) :
    (tree.items path).length = 1 + tree.nodesBelow := by
  cases tree with
  | file digest size executable => rfl
  | symlink target => rfl
  | directory entries =>
    have h := FileTrees.length_items entries path
    rw [FileTree.items, FileTree.nodesBelow, List.length_cons, h]
    omega

theorem FileTrees.length_items (entries : FileTrees) (path : PathBuf) :
    (entries.items path).length = entries.count := by
  cases entries with
  | nil => rfl
  | cons name tree rest =>
    have htree := FileTree.length_items tree (path ++ [name])
    have hrest := FileTrees.length_items rest path
    rw [FileTrees.items, FileTrees.count, List.length_append, htree, hrest]

end

theorem FileTrees.lt_count {entries : FileTrees} {e : PathComponent × FileTree}
    (h : e ∈ entries.toList) : e.2.nodesBelow < entries.count := by
  cases entries with
  | nil => cases h
  | cons name tree rest =>
    rw [FileTrees.count]
    rcases List.mem_cons.mp h with rfl | h
    · dsimp only
      omega
    · have hlt := FileTrees.lt_count h
      omega

-- ====================
-- Hashing
-- ====================

section

variable {digest : Directory → B3Digest}

theorem FileTree.node_eq_directory {tree : FileTree} {k : B3Digest} {size : UInt64}
    (h : tree.node digest = .directory k size) :
    ∃ entries, tree = .directory entries ∧ k = digest (entries.directory digest) ∧
      size = .ofNat ((entries.directory digest).nodes.entries.length +
        (entries.directory digest).total) := by
  cases tree with
  | file _ _ _ => cases h
  | symlink _ => cases h
  | directory entries =>
    cases h
    exact ⟨entries, rfl, rfl, rfl⟩

/-- A directory has the nodes of its entries. -/
theorem FileTrees.perm_directory (entries : FileTrees) (h : (entries.toList.map Prod.fst).Nodup) :
    (entries.directory digest).nodes.entries.Perm
      (entries.toList.map fun e => (e.1, e.2.node digest)) := by
  cases entries with
  | nil => exact .refl _
  | cons name tree rest =>
    rw [FileTrees.toList, List.map_cons, List.nodup_cons] at h
    have hperm := FileTrees.perm_directory rest h.2
    rw [FileTrees.directory, FileTrees.toList, List.map_cons]
    refine (SortedMap.insert_perm ?_).trans (hperm.cons _)
    rw [SortedMap.contains_eq_false]
    intro e he heq
    obtain ⟨e', he', rfl⟩ := List.mem_map.mp (hperm.mem_iff.mp he)
    apply h.1
    rw [PathComponent.eq_of_cmp heq]
    exact List.mem_map.mpr ⟨e', he', rfl⟩

mutual

/-- The size that is recorded of a tree, if it fits. -/
theorem FileTree.childSize_node (tree : FileTree) (hvalid : tree.Valid)
    (h : 2 * tree.nodesBelow < 2 ^ 64) : (tree.node digest).childSize = 2 * tree.nodesBelow := by
  cases tree with
  | file _ size executable => rfl
  | symlink target => rfl
  | directory entries =>
    have hsize := FileTrees.size_directory entries hvalid h
    rw [FileTree.nodesBelow] at h
    rw [FileTree.node, Node.childSize, hsize, UInt64.toNat_ofNat', Nat.mod_eq_of_lt h]
    rfl

/-- A directory is as large as there are nodes below it, twice. -/
theorem FileTrees.size_directory (entries : FileTrees) (hvalid : entries.Valid)
    (h : 2 * entries.count < 2 ^ 64) :
    (entries.directory digest).nodes.entries.length + (entries.directory digest).total =
      2 * entries.count := by
  have hperm : (entries.directory digest).nodes.entries.Perm _ :=
    entries.perm_directory (FileTrees.nodup_of_valid hvalid)
  rw [Directory.total, hperm.length_eq, Directory.weight_perm hperm]
  cases entries with
  | nil => rfl
  | cons name tree rest =>
    rw [FileTrees.count] at h ⊢
    have htree := FileTree.childSize_node tree hvalid.2.1 (by omega)
    have hrest := FileTrees.size_directory rest hvalid.2.2 (by omega)
    have hperm' : (rest.directory digest).nodes.entries.Perm _ :=
      rest.perm_directory (FileTrees.nodup_of_valid hvalid.2.2)
    rw [Directory.total, hperm'.length_eq, Directory.weight_perm hperm'] at hrest
    rw [FileTrees.toList, List.map_cons, Directory.weight_cons, List.length_cons, htree]
    omega

end

end

end Snix.Castore
