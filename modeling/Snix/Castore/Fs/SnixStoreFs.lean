import Snix.Castore.Fs.InodeTracker

/-!
# The filesystem over a store

A read-only filesystem that shows the root nodes of a store and what lies below
them. Requests name inodes; a client gets to know the inode of a path by looking up
the last name of the path in the directory above it, or by listing that directory.

An entry is looked up with the attributes that are kept for its inode, and an inode
is shared by all files with the same blob. So the first file that is seen with a
blob decides the executable bit that is reported for all of them.

## Main definitions

- `SnixStoreFs.step` — one request
- `Tree` — what the services hold, `Tree.nodeAt` — the node at a path
- `Reached` — the inodes that the replies give to the paths
- `AttrsRight` — attributes are those of the node at the path
- `broughtAlong` — the nodes that the services return in the course of a run

## Main results

- `attrs_right` — attributes are right in the runs that see no blob both as an
  executable and as a plain file
- `attrs_right_exchanged` — an executable is reported for a file that is none
-/

namespace Snix.Castore.Fs

def ROOT_ID : ℕ := 1

def S_IFMT : UInt32 := 0xF000
def S_IFDIR : UInt32 := 0x4000
def S_IFREG : UInt32 := 0x8000
def S_IFLNK : UInt32 := 0xA000

structure FSSettings where
  listRoot : Bool
  uidGidOverride : Option (UInt32 × UInt32)

structure Attr where
  ino : ℕ
  size : UInt64
  blksize : UInt32
  blocks : UInt64
  mode : UInt32
  mtime : UInt64
  uid : UInt32
  gid : UInt32
  deriving DecidableEq

structure Entry where
  inode : ℕ
  attr : Attr
  deriving DecidableEq

structure DirEntry where
  ino : ℕ
  offset : UInt64
  type_ : UInt32
  name : PathComponent
  deriving DecidableEq

inductive FsError where
  | notFound
  | enoent
  | eio
  | eperm
  | enotdir
  | directoryService
  | addEntry
  | panicked
  deriving DecidableEq

structure SnixStoreFs where
  rootNodes : PathComponent → Option ℕ
  inodeTracker : InodeTracker
  /-- How far the listing behind each handle of the root has come. -/
  dirHandles : ℕ → Option ℕ
  nextDirHandle : ℕ

inductive Request where
  | getattr (inode : ℕ)
  | lookup (parent : ℕ) (name : Bytes)
  | opendir (inode : ℕ)
  | readdir (inode handle : ℕ) (offset : UInt64)
  | readdirplus (inode handle : ℕ) (offset : UInt64)
  | releasedir (inode handle : ℕ)

inductive Reply where
  | failed (e : FsError)
  | attr (attr : Attr)
  | entry (e : Entry)
  | opened (handle : Option ℕ)
  | listed (offered : List DirEntry) (result : Except FsError Unit)
  | listedPlus (offered : List (DirEntry × Entry)) (result : Except FsError Unit)
  | released
  deriving DecidableEq

/-- How the world answers during one request: the provider of the root nodes, the directory
    service, the items that the stream of a listing gives, and what the callback says to each
    entry that is offered to it. -/
structure Env where
  getByBasename : PathComponent → Except Unit (Option Node)
  get : B3Digest → Except Unit (Option Directory)
  next : List (Except Unit (PathComponent × Node))
  addEntry : ℕ → Except Unit ℕ

def ROOT_FILE_ATTR : Attr := ⟨ROOT_ID, 0, 1024, 0, S_IFDIR ||| 0x16D, 0, 0, 0⟩

def nodeToFuseType : Node → UInt32
  | .directory _ _ => S_IFDIR
  | .file _ _ _ => S_IFREG
  | .symlink _ => S_IFLNK

/-- The mode and the size that are shown for some data. -/
def InodeData.modeSize : InodeData → UInt32 × UInt64
  | .regular _ size false => (S_IFREG ||| 0x124, size)
  | .regular _ size true => (S_IFREG ||| 0x16D, size)
  | .symlink target => (S_IFLNK ||| 0x124, target.val.length.toUInt64)
  | .directory (.sparse _ size) => (S_IFDIR ||| 0x16D, size)
  | .directory (.populated _ children) => (S_IFDIR ||| 0x16D, children.length.toUInt64)

namespace SnixStoreFs

def new : SnixStoreFs := ⟨fun _ => none, .default, fun _ => none, 1⟩

variable (settings : FSSettings)

def inodeDataToAttr (data : InodeData) (ino : ℕ) : Attr :=
  let (uid, gid) := settings.uidGidOverride.getD (0, 0)
  ⟨ino, data.modeSize.2, 0, 1024, data.modeSize.1, 1, uid, gid⟩

def attrToFuseEntry (attr : Attr) : Entry := ⟨attr.ino, attr⟩

/-- Gives numbers to the entries of a directory; none if the program panics. -/
def putAll (t : InodeTracker) :
    List (PathComponent × Node) → Option (List (ℕ × PathComponent × Node) × InodeTracker)
  | [] => some ([], t)
  | (name, node) :: rest => do
    let (ino, t) ← t.put (.fromNode node)
    let (children, t) ← putAll t rest
    some ((ino, name, node) :: children, t)

/-- The directory behind an inode, which is fetched when it was not fetched before. -/
def getDirectoryChildren (env : Env) (t : InodeTracker) (ino : ℕ) :
    Except FsError (List (ℕ × PathComponent × Node) × InodeTracker) :=
  match t.get ino with
  | none => .error .panicked
  | some (.directory (.populated _ children)) => .ok (children, t)
  | some (.directory (.sparse parentDigest _)) =>
    match env.get parentDigest with
    | .error _ => .error .directoryService
    | .ok none => .error .eio
    | .ok (some directory) =>
      match putAll t directory.nodes.entries with
      | none => .error .panicked
      | some (children, t) =>
        match t.replace ino (.directory (.populated parentDigest children)) with
        | none => .error .panicked
        | some t => .ok (children, t)
  | some (.regular _ _ _) => .error .enotdir
  | some (.symlink _) => .error .enotdir

/-- A root node is given a number, which is kept under its name. None if the program panics. -/
def insertRoot (s : SnixStoreFs) (name : PathComponent) (node : Node) : Option (ℕ × SnixStoreFs) :=
  match s.inodeTracker.put (.fromNode node) with
  | none => none
  | some (ino, t) =>
    some (ino, { s with
      rootNodes := Function.update s.rootNodes name (some ino), inodeTracker := t })

/-- The number of a name in the root. The data that the program returns beside the number is
    dropped by its only caller. -/
def nameInRootToIno (env : Env) (s : SnixStoreFs) (name : PathComponent) :
    Except FsError (ℕ × SnixStoreFs) :=
  match s.rootNodes name with
  | some ino =>
    match s.inodeTracker.get ino with
    | none => .error .panicked
    | some _ => .ok (ino, s)
  | none =>
    match env.getByBasename name with
    | .error _ => .error .eio
    | .ok none => .error .enoent
    | .ok (some node) =>
      match s.insertRoot name node with
      | none => .error .panicked
      | some (ino, s) => .ok (ino, s)

def getattr (s : SnixStoreFs) (inode : ℕ) : Reply :=
  if inode = ROOT_ID then .attr ROOT_FILE_ATTR
  else
    match s.inodeTracker.get inode with
    | none => .failed .enoent
    | some data => .attr (inodeDataToAttr settings data inode)

/-- The inode of a name in a directory. The children are sorted by their names, and no two of
    them have the same name, so the search finds the one with this name if there is one. -/
def lookupIno (env : Env) (s : SnixStoreFs) (parent : ℕ) (name : PathComponent) :
    Except FsError ℕ × SnixStoreFs :=
  if parent = ROOT_ID then
    match nameInRootToIno env s name with
    | .error e => (.error e, s)
    | .ok (ino, s) => (.ok ino, s)
  else
    match getDirectoryChildren env s.inodeTracker parent with
    | .error e => (.error e, s)
    | .ok (children, t) =>
      match children.find? fun child => child.2.1 = name with
      | none => (.error .enoent, { s with inodeTracker := t })
      | some (ino, _, _) => (.ok ino, { s with inodeTracker := t })

def lookup (env : Env) (s : SnixStoreFs) (parent : ℕ) (name : Bytes) : Reply × SnixStoreFs :=
  match PathComponent.tryFrom name with
  | .error _ => (.failed .notFound, s)
  | .ok name =>
    match lookupIno env s parent name with
    | (.error e, s) => (.failed e, s)
    | (.ok ino, s) =>
      match s.inodeTracker.get ino with
      | none => (.failed .enoent, s)
      | some data => (.entry (attrToFuseEntry (inodeDataToAttr settings data ino)), s)

def opendir (s : SnixStoreFs) (inode : ℕ) : Reply × SnixStoreFs :=
  if inode = ROOT_ID then
    if settings.listRoot then
      (.opened (some s.nextDirHandle), { s with
        dirHandles := Function.update s.dirHandles s.nextDirHandle (some 0)
        nextDirHandle := s.nextDirHandle + 1 })
    else (.failed .eperm, s)
  else (.opened none, s)

/-- An entry of a listing, with the attributes that the node itself has. -/
def listEntry (offset : UInt64) (i ino : ℕ) (name : PathComponent) (node : Node) :
    DirEntry × Entry :=
  (⟨ino, offset + i.toUInt64 + 1, nodeToFuseType node, name⟩,
    attrToFuseEntry (inodeDataToAttr settings (.fromNode node) ino))

/-- The inode of an item of the root listing. -/
def rootIno (s : SnixStoreFs) (name : PathComponent) (node : Node) : Option (ℕ × SnixStoreFs) :=
  match s.rootNodes name with
  | some ino => some (ino, s)
  | none => s.insertRoot name node

/-- The loop over the items of the root listing, from the item number `i` on, where `n` entries
    were offered before. Returns what is offered, the result, the number of the next item, and
    the state. -/
def listRootLoop (itemError : FsError) (offset : UInt64) (addEntry : ℕ → Except Unit ℕ) :
    ℕ → ℕ → SnixStoreFs → List (Except Unit (PathComponent × Node)) →
      List (DirEntry × Entry) × Except FsError Unit × ℕ × SnixStoreFs
  | i, _, s, [] => ([], .ok (), i, s)
  | i, _, s, .error _ :: _ => ([], .error itemError, i + 1, s)
  | i, n, s, .ok (name, node) :: rest =>
    match s.rootIno name node with
    | none => ([], .error .panicked, i + 1, s)
    | some (ino, s) =>
      let entry := listEntry settings offset i ino name node
      match addEntry n with
      | .error _ => ([entry], .error .addEntry, i + 1, s)
      | .ok 0 => ([entry], .ok (), i + 1, s)
      | .ok (_ + 1) =>
        let (offered, r) := listRootLoop itemError offset addEntry (i + 1) (n + 1) s rest
        (entry :: offered, r)

/-- The loop over the children of a directory. -/
def listChildrenLoop (offset : UInt64) (addEntry : ℕ → Except Unit ℕ) :
    ℕ → List (ℕ × PathComponent × Node) → List (DirEntry × Entry) × Except FsError Unit
  | _, [] => ([], .ok ())
  | i, (ino, name, node) :: rest =>
    let entry := listEntry settings offset i ino name node
    match addEntry i with
    | .error _ => ([entry], .error .addEntry)
    | .ok 0 => ([entry], .ok ())
    | .ok (_ + 1) =>
      let (offered, r) := listChildrenLoop offset addEntry (i + 1) rest
      (entry :: offered, r)

/-- The body that `readdir` and `readdirplus` share. They differ in the error for a root node
    that cannot be listed, and in what they hand to the callback. -/
def list (itemError : FsError) (env : Env) (s : SnixStoreFs) (inode handle : ℕ) (offset : UInt64) :
    List (DirEntry × Entry) × Except FsError Unit × SnixStoreFs :=
  if inode = ROOT_ID then
    if settings.listRoot then
      match s.dirHandles handle with
      | none => ([], .error .eio, s)
      | some i =>
        let (offered, result, i, s) :=
          listRootLoop settings itemError offset env.addEntry i 0 s env.next
        (offered, result, { s with dirHandles := Function.update s.dirHandles handle (some i) })
    else ([], .error .eperm, s)
  else
    match getDirectoryChildren env s.inodeTracker inode with
    | .error e => ([], .error e, s)
    | .ok (children, t) =>
      let (offered, result) :=
        listChildrenLoop settings offset env.addEntry 0 (children.drop offset.toNat)
      (offered, result, { s with inodeTracker := t })

def readdir (env : Env) (s : SnixStoreFs) (inode handle : ℕ) (offset : UInt64) :
    Reply × SnixStoreFs :=
  let (offered, result, s) := list settings .eio env s inode handle offset
  (.listed (offered.map Prod.fst) result, s)

def readdirplus (env : Env) (s : SnixStoreFs) (inode handle : ℕ) (offset : UInt64) :
    Reply × SnixStoreFs :=
  let (offered, result, s) := list settings .eperm env s inode handle offset
  (.listedPlus offered result, s)

def releasedir (s : SnixStoreFs) (inode handle : ℕ) : Reply × SnixStoreFs :=
  if inode = ROOT_ID then
    (.released, { s with dirHandles := Function.update s.dirHandles handle none })
  else (.released, s)

/-- One request. -/
def step (s : SnixStoreFs) (env : Env) : Request → Reply × SnixStoreFs
  | .getattr inode => (s.getattr settings inode, s)
  | .lookup parent name => lookup settings env s parent name
  | .opendir inode => s.opendir settings inode
  | .readdir inode handle offset => readdir settings env s inode handle offset
  | .readdirplus inode handle offset => readdirplus settings env s inode handle offset
  | .releasedir inode handle => s.releasedir inode handle

/-- A sequence of requests. Returns each of them with its reply, and the state at the end. -/
def run (s : SnixStoreFs) : List (Request × Env) → List (Request × Reply) × SnixStoreFs
  | [] => ([], s)
  | (request, env) :: rest =>
    let (reply, s) := step settings s env request
    let (trace, s) := run s rest
    ((request, reply) :: trace, s)

end SnixStoreFs

-- ====================
-- Paths and what is said about them
-- ====================

/-- What the services hold. -/
structure Tree where
  root : PathComponent → Option Node
  directories : B3Digest → Option Directory

namespace Tree

variable (tree : Tree)

/-- The node under a name in the directory that a node points to. -/
def child (name : PathComponent) : Node → Option Node
  | .directory digest _ => do (← tree.directories digest).nodes.get? name
  | _ => none

/-- The node at a path. There is none for the root of the filesystem. -/
def nodeAt : List PathComponent → Option Node
  | [] => none
  | name :: rest => rest.foldlM (fun node name => tree.child name node) =<< tree.root name

theorem nodeAt_append {path : List PathComponent} {name : PathComponent} {node : Node}
    (h : tree.nodeAt path = some node) : tree.nodeAt (path ++ [name]) = tree.child name node := by
  cases path with
  | nil => cases h
  | cons hd tl =>
    rw [List.cons_append]
    unfold nodeAt at h ⊢
    obtain ⟨start, hstart, hfold⟩ := Option.bind_eq_some_iff.mp h
    simp [Bind.bindLeft, hstart, List.foldlM_append, hfold]

end Tree

/-- The services answer with what they hold, or fail, or have nothing to answer. -/
structure Env.Serves (env : Env) (tree : Tree) : Prop where
  root : ∀ name node, env.getByBasename name = .ok (some node) → tree.root name = some node
  directory : ∀ digest directory, env.get digest = .ok (some directory) →
    tree.directories digest = some directory
  item : ∀ name node, .ok (name, node) ∈ env.next → tree.root name = some node

/-- The size that a node has as a file or a symlink. -/
def leafSize : Node → UInt64
  | .file _ size _ => size
  | .symlink target => target.val.length.toUInt64
  | .directory _ _ => 0

def executable : Node → Bool
  | .file _ _ executable => executable
  | _ => false

def IsLeaf : Node → Prop
  | .directory _ _ => False
  | _ => True

/-- Type, size and executable bit are those of the node. -/
structure Attr.Describes (attr : Attr) (node : Node) : Prop where
  type : attr.mode &&& S_IFMT = nodeToFuseType node
  size : attr.size = leafSize node
  bit : attr.mode &&& 0x49 ≠ 0 ↔ executable node = true

/-- What a reply says about a name in a directory. -/
structure Told where
  parent : ℕ
  name : PathComponent
  inode : ℕ
  type_ : Option UInt32
  attr : Option Attr
  deriving DecidableEq

def told : Request × Reply → List Told
  | (.lookup parent name, .entry e) =>
    match PathComponent.tryFrom name with
    | .error _ => []
    | .ok name => [⟨parent, name, e.inode, none, some e.attr⟩]
  | (.readdir inode _ _, .listed offered _) =>
    offered.map fun d => ⟨inode, d.name, d.ino, some d.type_, none⟩
  | (.readdirplus inode _ _, .listedPlus offered _) =>
    offered.map fun e => ⟨inode, e.1.name, e.2.inode, some e.1.type_, some e.2.attr⟩
  | _ => []

/-- What a reply says about an inode. -/
def toldAttr : Request × Reply → Option (ℕ × Attr)
  | (.getattr inode, .attr attr) => some (inode, attr)
  | _ => none

/-- The inodes through which the replies lead along a path. -/
inductive Reached (trace : List (Request × Reply)) : List PathComponent → ℕ → Prop where
  | root : Reached trace [] ROOT_ID
  | child {path : List PathComponent} {t : Told} (h : Reached trace path t.parent)
      (ht : t ∈ trace.flatMap told) : Reached trace (path ++ [t.name]) t.inode

/-- The type, where one is told, and the attributes, where they are told, fit the node. -/
structure Told.Right (t : Told) (node : Node) : Prop where
  type : ∀ type_, t.type_ = some type_ → type_ = nodeToFuseType node
  attr : ∀ attr, t.attr = some attr → attr.Describes node

/-- A path that the replies lead along exists, and whatever the replies say about a file or a
    symlink at the path is true of the node there. -/
structure AttrsRight (tree : Tree) (trace : List (Request × Reply)) : Prop where
  listed : ∀ t ∈ trace.flatMap told, ∀ path, Reached trace path t.parent →
    ∃ node, tree.nodeAt (path ++ [t.name]) = some node ∧ (IsLeaf node → t.Right node)
  getattr : ∀ ino attr, (ino, attr) ∈ trace.filterMap toldAttr →
    ∀ path node, Reached trace path ino → tree.nodeAt path = some node → IsLeaf node →
      attr.Describes node

namespace SnixStoreFs

variable (settings : FSSettings)

/-- The nodes that the stream of a listing gives before the loop stops. -/
def pulled (addEntry : ℕ → Except Unit ℕ) :
    ℕ → List (Except Unit (PathComponent × Node)) → List Node
  | _, [] => []
  | _, .error _ :: _ => []
  | n, .ok (_, node) :: rest =>
    match addEntry n with
    | .ok (_ + 1) => node :: pulled addEntry (n + 1) rest
    | _ => [node]

/-- The nodes of the directory that has to be fetched for an inode. -/
def fetched (env : Env) (s : SnixStoreFs) (ino : ℕ) : List Node :=
  match s.inodeTracker.get ino with
  | some (.directory (.sparse digest _)) =>
    match env.get digest with
    | .ok (some directory) => directory.nodes.entries.map Prod.snd
    | _ => []
  | _ => []

/-- The nodes that a listing gets from the services. -/
def broughtByList (env : Env) (s : SnixStoreFs) (inode : ℕ) : List Node :=
  if inode = ROOT_ID then pulled env.addEntry 0 env.next else fetched env s inode

/-- The nodes that a request gets from the services. -/
def brought (s : SnixStoreFs) (env : Env) : Request → List Node
  | .lookup parent name =>
    if parent = ROOT_ID then
      match PathComponent.tryFrom name with
      | .ok name =>
        match env.getByBasename name with
        | .ok (some node) => [node]
        | _ => []
      | .error _ => []
    else fetched env s parent
  | .readdir inode _ _ => broughtByList env s inode
  | .readdirplus inode _ _ => broughtByList env s inode
  | _ => []

/-- The nodes that the requests of a run get from the services. -/
def broughtAlong (s : SnixStoreFs) : List (Request × Env) → List Node
  | [] => []
  | (request, env) :: rest =>
    brought s env request ++ broughtAlong (step settings s env request).2 rest

-- ====================
-- The invariant
-- ====================

/-- The children of every directory that was fetched are those of the tree, and their numbers
    stand for them. -/
structure Sound (tree : Tree) (seen : List Node) (t : InodeTracker) : Prop where
  wellFormed : t.WellFormed seen
  fetched : ∀ ino digest children, t.Fetched ino digest children →
    ∃ directory, tree.directories digest = some directory ∧
      ∀ c ∈ children, directory.nodes.get? c.2.1 = some c.2.2 ∧ t.Tracks c.1 c.2.2

structure Inv (tree : Tree) (seen : List Node) (s : SnixStoreFs) : Prop where
  sound : Sound tree seen s.inodeTracker
  roots : ∀ name ino, s.rootNodes name = some ino →
    ∃ node, tree.root name = some node ∧ s.inodeTracker.Tracks ino node

/-- The node under a name in the directory with the given inode. -/
def Leads (tree : Tree) (t : InodeTracker) (parent : ℕ) (name : PathComponent) (node : Node) :
    Prop :=
  parent = ROOT_ID ∧ tree.root name = some node ∨
    ∃ d directory, t.data parent = some (.directory d) ∧
      tree.directories d.digest = some directory ∧ directory.nodes.get? name = some node

variable {settings} {tree : Tree} {seen : List Node} {env : Env}

theorem Leads.grows {t t' : InodeTracker} {parent : ℕ} {name : PathComponent} {node : Node}
    (h : Leads tree t parent name node) (hgrows : t.Grows t') :
    Leads tree t' parent name node := by
  rcases h with h | ⟨d, directory, hdata, hdirectory, hget⟩
  · exact .inl h
  · obtain ⟨data', hdata', hup⟩ := hgrows parent _ hdata
    cases data' with
    | directory d' =>
      have hdigest : d.digest = d'.digest := hup
      exact .inr ⟨d', directory, hdata', hdigest ▸ hdirectory, hget⟩
    | regular digest size executable => cases hup
    | symlink target => cases hup

theorem Sound.put {t : InodeTracker} (h : Sound tree seen t) (hsame : InodeTracker.SameFiles seen)
    {node : Node} (hnode : node ∈ seen) :
    ∃ ino t', t.put (.fromNode node) = some (ino, t') ∧ Sound tree seen t' ∧ t.Grows t' ∧
      t'.Tracks ino node := by
  obtain ⟨ino, t', hput, hwf, hgrows, htracks, hfetched⟩ :=
    InodeTracker.put_spec h.wellFormed hsame hnode
  refine ⟨ino, t', hput, ⟨hwf, ?_⟩, hgrows, htracks⟩
  intro ino digest children hf
  obtain ⟨directory, hdirectory, hchildren⟩ :=
    h.fetched ino digest children (hfetched ino digest children hf)
  refine ⟨directory, hdirectory, fun c hc => ?_⟩
  exact ⟨(hchildren c hc).1, (hchildren c hc).2.grows hgrows⟩

theorem putAll_spec (hsame : InodeTracker.SameFiles seen) {entries : List (PathComponent × Node)}
    (hentries : ∀ e ∈ entries, e.2 ∈ seen) {t : InodeTracker} (h : Sound tree seen t) :
    ∃ children t', putAll t entries = some (children, t') ∧ Sound tree seen t' ∧ t.Grows t' ∧
      ∀ c ∈ children, c.2 ∈ entries ∧ t'.Tracks c.1 c.2.2 := by
  induction entries generalizing t with
  | nil => exact ⟨[], t, rfl, h, .refl t, fun c hc => absurd hc List.not_mem_nil⟩
  | cons e rest ih =>
    obtain ⟨name, node⟩ := e
    obtain ⟨ino, t₁, hput, hsound, hgrows, htracks⟩ :=
      h.put hsame (hentries (name, node) List.mem_cons_self)
    obtain ⟨children, t₂, hrest, hsound', hgrows', hchildren⟩ :=
      ih (fun e he => hentries e (List.mem_cons_of_mem _ he)) hsound
    refine ⟨(ino, name, node) :: children, t₂, ?_, hsound', hgrows.trans hgrows', ?_⟩
    · simp [putAll, hput, hrest]
    · intro c hc
      rcases List.mem_cons.mp hc with rfl | hc
      · exact ⟨List.mem_cons_self, htracks.grows hgrows'⟩
      · exact ⟨List.mem_cons_of_mem _ (hchildren c hc).1, (hchildren c hc).2⟩

/-- The children that are found are those of the directory behind the inode, and their numbers
    stand for them. -/
theorem getDirectoryChildren_spec (hsame : InodeTracker.SameFiles seen) (henv : env.Serves tree)
    {s : SnixStoreFs} {ino : ℕ} (hsub : fetched env s ino ⊆ seen)
    (h : Sound tree seen s.inodeTracker) {children : List (ℕ × PathComponent × Node)}
    {t' : InodeTracker} (hget : getDirectoryChildren env s.inodeTracker ino = .ok (children, t')) :
    Sound tree seen t' ∧ s.inodeTracker.Grows t' ∧
      ∀ c ∈ children, Leads tree t' ino c.2.1 c.2.2 ∧ t'.Tracks c.1 c.2.2 := by
  unfold getDirectoryChildren at hget
  unfold fetched at hsub
  split at hget
  · cases hget
  · next digest children' hdata =>
    cases hget
    obtain ⟨directory, hdirectory, hchildren⟩ := h.fetched ino digest children hdata
    refine ⟨h, .refl _, fun c hc => ⟨?_, (hchildren c hc).2⟩⟩
    exact .inr ⟨_, directory, hdata, hdirectory, (hchildren c hc).1⟩
  · next digest size hdata =>
    simp only [hdata] at hsub
    cases hanswer : env.get digest with
    | error e =>
      rw [hanswer] at hget
      cases hget
    | ok found =>
      cases found with
      | none =>
        rw [hanswer] at hget
        cases hget
      | some directory =>
        simp only [hanswer] at hget hsub
        have hdirectory := henv.directory digest directory hanswer
        obtain ⟨children', t₁, hput, hsound, hgrows, hchildren⟩ :=
          putAll_spec hsame (fun e he => hsub (List.mem_map_of_mem he)) h
        -- the entry of the directory itself is still there when its children have their numbers
        obtain ⟨data₁, hdata₁, hup⟩ := hgrows ino _ hdata
        obtain ⟨d, rfl, hd⟩ : ∃ d, data₁ = .directory d ∧ d.digest = digest := by
          cases data₁ with
          | directory d => exact ⟨d, rfl, Eq.symm hup⟩
          | regular digest' size' executable => cases hup
          | symlink target => cases hup
        subst hd
        obtain ⟨t₂, hreplace, hupdate, hwf, hgrows'⟩ :=
          InodeTracker.replace_spec hsound.wellFormed hdata₁ children'
        simp only [hput, hreplace, Except.ok.injEq, Prod.mk.injEq] at hget
        obtain ⟨rfl, rfl⟩ := hget
        have hfit : ∀ c ∈ children', directory.nodes.get? c.2.1 = some c.2.2 ∧
            t₂.Tracks c.1 c.2.2 := by
          intro c hc
          obtain ⟨hmem, htracks⟩ := hchildren c hc
          exact ⟨SortedMap.get?_of_mem hmem, htracks.grows hgrows'⟩
        refine ⟨⟨hwf, ?_⟩, hgrows.trans hgrows', ?_⟩
        · intro other digest' children'' hf
          unfold InodeTracker.Fetched at hf
          rw [hupdate] at hf
          by_cases hother : other = ino
          · subst hother
            rw [Function.update_self] at hf
            cases hf
            exact ⟨directory, hdirectory, hfit⟩
          · rw [Function.update_of_ne hother] at hf
            obtain ⟨directory', hdirectory', hchildren'⟩ := hsound.fetched other digest' children'' hf
            refine ⟨directory', hdirectory', fun c hc => ?_⟩
            exact ⟨(hchildren' c hc).1, (hchildren' c hc).2.grows hgrows'⟩
        · intro c hc
          refine ⟨.inr ⟨.populated d.digest children', directory, ?_, hdirectory, (hfit c hc).1⟩,
            (hfit c hc).2⟩
          rw [hupdate, Function.update_self]
  · cases hget
  · cases hget

theorem Inv.tracker {s : SnixStoreFs} (h : Inv tree seen s) {t : InodeTracker}
    (hsound : Sound tree seen t) (hgrows : s.inodeTracker.Grows t) :
    Inv tree seen { s with inodeTracker := t } where
  sound := hsound
  roots := by
    intro name ino hino
    obtain ⟨node, hnode, htracks⟩ := h.roots name ino hino
    exact ⟨node, hnode, htracks.grows hgrows⟩

theorem insertRoot_spec (hsame : InodeTracker.SameFiles seen) {s : SnixStoreFs}
    (h : Inv tree seen s) {name : PathComponent} {node : Node} (hnode : node ∈ seen)
    (hroot : tree.root name = some node) :
    ∃ ino s', s.insertRoot name node = some (ino, s') ∧ Inv tree seen s' ∧
      s.inodeTracker.Grows s'.inodeTracker ∧ s'.inodeTracker.Tracks ino node := by
  obtain ⟨ino, t', hput, hsound, hgrows, htracks⟩ := h.sound.put hsame hnode
  refine ⟨ino, _, by simp only [insertRoot, hput]; rfl, ⟨hsound, ?_⟩, hgrows, htracks⟩
  intro other ino' hino'
  by_cases hother : other = name
  · subst hother
    simp only [Function.update_self, Option.some.injEq] at hino'
    subst hino'
    exact ⟨node, hroot, htracks⟩
  · simp only [Function.update_of_ne hother] at hino'
    obtain ⟨node', hnode', htracks'⟩ := h.roots other ino' hino'
    exact ⟨node', hnode', htracks'.grows hgrows⟩

theorem rootIno_spec (hsame : InodeTracker.SameFiles seen) {s : SnixStoreFs}
    (h : Inv tree seen s) {name : PathComponent} {node : Node} (hnode : node ∈ seen)
    (hroot : tree.root name = some node) :
    ∃ ino s', s.rootIno name node = some (ino, s') ∧ Inv tree seen s' ∧
      s.inodeTracker.Grows s'.inodeTracker ∧ s'.inodeTracker.Tracks ino node := by
  unfold rootIno
  split
  · next ino hino =>
    obtain ⟨node', hnode', htracks⟩ := h.roots name ino hino
    rw [hroot, Option.some.injEq] at hnode'
    subst hnode'
    exact ⟨ino, s, rfl, h, .refl _, htracks⟩
  · exact insertRoot_spec hsame h hnode hroot

-- ====================
-- One request
-- ====================

/-- An entry that is offered is one of the directory with the given inode, with the attributes of
    its node. -/
def Offers (settings : FSSettings) (tree : Tree) (t : InodeTracker) (parent : ℕ)
    (e : DirEntry × Entry) : Prop :=
  ∃ offset i ino name node, e = listEntry settings offset i ino name node ∧
    Leads tree t parent name node ∧ t.Tracks ino node

theorem Offers.grows {t t' : InodeTracker} {parent : ℕ} {e : DirEntry × Entry}
    (h : Offers settings tree t parent e) (hgrows : t.Grows t') :
    Offers settings tree t' parent e := by
  obtain ⟨offset, i, ino, name, node, he, hleads, htracks⟩ := h
  exact ⟨offset, i, ino, name, node, he, hleads.grows hgrows, htracks.grows hgrows⟩

theorem listRootLoop_spec (hsame : InodeTracker.SameFiles seen) {itemError : FsError}
    {offset : UInt64} {addEntry : ℕ → Except Unit ℕ} {i n : ℕ}
    {items : List (Except Unit (PathComponent × Node))}
    (hitems : ∀ name node, .ok (name, node) ∈ items → tree.root name = some node)
    (hsub : pulled addEntry n items ⊆ seen) {s : SnixStoreFs} (h : Inv tree seen s) :
    ∃ offered r i' s', listRootLoop settings itemError offset addEntry i n s items =
        (offered, r, i', s') ∧ Inv tree seen s' ∧ s.inodeTracker.Grows s'.inodeTracker ∧
      ∀ e ∈ offered, Offers settings tree s'.inodeTracker ROOT_ID e := by
  induction items generalizing i n s with
  | nil => exact ⟨[], .ok (), i, s, rfl, h, .refl _, fun e he => absurd he List.not_mem_nil⟩
  | cons item rest ih =>
    cases item with
    | error e => exact ⟨[], _, i + 1, s, rfl, h, .refl _, fun e he => absurd he List.not_mem_nil⟩
    | ok entry =>
      obtain ⟨name, node⟩ := entry
      have hroot := hitems name node List.mem_cons_self
      have hnode : node ∈ seen := by
        apply hsub
        unfold pulled
        split <;> exact List.mem_cons_self
      obtain ⟨ino, s₁, hino, hinv, hgrows, htracks⟩ := rootIno_spec hsame h hnode hroot
      have hoffer : Offers settings tree s₁.inodeTracker ROOT_ID
          (listEntry settings offset i ino name node) :=
        ⟨offset, i, ino, name, node, rfl, .inl ⟨rfl, hroot⟩, htracks⟩
      have hone : ∀ e ∈ [listEntry settings offset i ino name node],
          Offers settings tree s₁.inodeTracker ROOT_ID e := by
        intro e he
        rw [List.mem_singleton.mp he]
        exact hoffer
      unfold listRootLoop
      simp only [hino]
      cases hadd : addEntry n with
      | error e => exact ⟨_, _, _, s₁, rfl, hinv, hgrows, hone⟩
      | ok written =>
        cases written with
        | zero => exact ⟨_, _, _, s₁, rfl, hinv, hgrows, hone⟩
        | succ written =>
          have hsub' : pulled addEntry (n + 1) rest ⊆ seen := by
            intro x hx
            apply hsub
            simp only [pulled, hadd]
            exact List.mem_cons_of_mem _ hx
          obtain ⟨offered, r, i', s₂, hrest, hinv', hgrows', hoffered⟩ :=
            ih (fun name node hmem => hitems name node (List.mem_cons_of_mem _ hmem)) hsub' hinv
              (i := i + 1)
          refine ⟨listEntry settings offset i ino name node :: offered, r, i', s₂, by simp only [hrest],
            hinv', hgrows.trans hgrows', ?_⟩
          intro e he
          rcases List.mem_cons.mp he with rfl | he
          · exact hoffer.grows hgrows'
          · exact hoffered e he

theorem mem_listChildrenLoop {offset : UInt64} {addEntry : ℕ → Except Unit ℕ} {i : ℕ}
    {children : List (ℕ × PathComponent × Node)} {e : DirEntry × Entry}
    (he : e ∈ (listChildrenLoop settings offset addEntry i children).1) :
    ∃ j, ∃ c ∈ children, e = listEntry settings offset j c.1 c.2.1 c.2.2 := by
  induction children generalizing i with
  | nil => cases he
  | cons c rest ih =>
    obtain ⟨ino, name, node⟩ := c
    unfold listChildrenLoop at he
    cases hadd : addEntry i with
    | error err =>
      simp only [hadd, List.mem_singleton] at he
      exact ⟨i, _, List.mem_cons_self, he⟩
    | ok written =>
      cases written with
      | zero =>
        simp only [hadd, List.mem_singleton] at he
        exact ⟨i, _, List.mem_cons_self, he⟩
      | succ written =>
        simp only [hadd, List.mem_cons] at he
        rcases he with he | he
        · exact ⟨i, _, List.mem_cons_self, he⟩
        · obtain ⟨j, c, hc, heq⟩ := ih he
          exact ⟨j, c, List.mem_cons_of_mem _ hc, heq⟩

theorem list_spec (hsame : InodeTracker.SameFiles seen) (henv : env.Serves tree)
    {itemError : FsError} {inode handle : ℕ} {offset : UInt64} {s : SnixStoreFs}
    (hsub : broughtByList env s inode ⊆ seen) (h : Inv tree seen s) :
    ∃ offered r s', list settings itemError env s inode handle offset = (offered, r, s') ∧
      Inv tree seen s' ∧ s.inodeTracker.Grows s'.inodeTracker ∧
      ∀ e ∈ offered, Offers settings tree s'.inodeTracker inode e := by
  have hnone : ∀ e ∈ ([] : List (DirEntry × Entry)),
      Offers settings tree s.inodeTracker inode e := by
    intro e he
    cases he
  unfold list
  unfold broughtByList at hsub
  split_ifs at hsub ⊢ with hroot hlist
  · cases hhandle : s.dirHandles handle with
    | none => exact ⟨[], _, s, rfl, h, .refl _, hnone⟩
    | some i =>
      obtain ⟨offered, r, i', s', hloop, hinv, hgrows, hoffered⟩ :=
        @listRootLoop_spec settings tree seen hsame itemError offset env.addEntry i 0 env.next
          henv.item hsub s h
      simp only [hloop]
      refine ⟨offered, r, _, rfl, ⟨hinv.sound, hinv.roots⟩, hgrows, ?_⟩
      rw [hroot]
      exact hoffered
  · exact ⟨[], _, s, rfl, h, .refl _, hnone⟩
  · split
    · exact ⟨[], _, s, rfl, h, .refl _, hnone⟩
    · next children t hget =>
      obtain ⟨hsound, hgrows, hchildren⟩ := getDirectoryChildren_spec hsame henv hsub h.sound hget
      refine ⟨_, _, _, rfl, h.tracker hsound hgrows, hgrows, ?_⟩
      intro e he
      obtain ⟨j, c, hc, rfl⟩ := mem_listChildrenLoop he
      obtain ⟨hleads, htracks⟩ := hchildren c (List.mem_of_mem_drop hc)
      exact ⟨offset, j, c.1, c.2.1, c.2.2, rfl, hleads, htracks⟩

/-- A name that is looked up successfully has a number that stands for its node. -/
theorem lookupIno_spec (hsame : InodeTracker.SameFiles seen) (henv : env.Serves tree)
    {parent : ℕ} {name : PathComponent} {s : SnixStoreFs}
    (hsub : brought s env (.lookup parent name.val) ⊆ seen) (h : Inv tree seen s) :
    ∃ r s', lookupIno env s parent name = (r, s') ∧ Inv tree seen s' ∧
      s.inodeTracker.Grows s'.inodeTracker ∧
      ∀ ino, r = .ok ino → ∃ node, Leads tree s'.inodeTracker parent name node ∧
        s'.inodeTracker.Tracks ino node := by
  -- a lookup that fails at once leaves everything as it was
  have hfail : ∀ e : FsError, ∃ r s', ((.error e : Except FsError ℕ), s) = (r, s') ∧
      Inv tree seen s' ∧ s.inodeTracker.Grows s'.inodeTracker ∧
      ∀ ino, r = .ok ino → ∃ node, Leads tree s'.inodeTracker parent name node ∧
        s'.inodeTracker.Tracks ino node := by
    intro e
    refine ⟨_, s, rfl, h, .refl _, ?_⟩
    intro ino hok
    cases hok
  unfold lookupIno
  simp only [brought, PathComponent.tryFrom_val] at hsub
  split_ifs at hsub ⊢ with hparent
  · unfold nameInRootToIno
    cases hino : s.rootNodes name with
    | some ino =>
      obtain ⟨node, hroot, htracks⟩ := h.roots name ino hino
      cases hget : s.inodeTracker.get ino with
      | none =>
        simp only [hget]
        exact hfail _
      | some data =>
        simp only [hget]
        refine ⟨_, s, rfl, h, .refl _, ?_⟩
        intro ino' hok
        cases hok
        exact ⟨node, .inl ⟨hparent, hroot⟩, htracks⟩
    | none =>
      cases hanswer : env.getByBasename name with
      | error e => exact hfail _
      | ok found =>
        cases found with
        | none => exact hfail _
        | some node =>
          simp only [hanswer] at hsub
          have hroot := henv.root name node hanswer
          obtain ⟨ino, s', hinsert, hinv, hgrows, htracks⟩ :=
            insertRoot_spec hsame h (hsub List.mem_cons_self) hroot
          simp only [hinsert]
          refine ⟨_, s', rfl, hinv, hgrows, ?_⟩
          intro ino' hok
          cases hok
          exact ⟨node, .inl ⟨hparent, hroot⟩, htracks⟩
  · split
    · exact hfail _
    · next children t hget =>
      obtain ⟨hsound, hgrows, hchildren⟩ := getDirectoryChildren_spec hsame henv hsub h.sound hget
      cases hfind : children.find? fun child => child.2.1 = name with
      | none =>
        refine ⟨_, _, rfl, h.tracker hsound hgrows, hgrows, ?_⟩
        intro ino hok
        cases hok
      | some child =>
        refine ⟨_, _, rfl, h.tracker hsound hgrows, hgrows, ?_⟩
        intro ino hok
        cases hok
        obtain ⟨hleads, htracks⟩ := hchildren child (List.mem_of_find?_eq_some hfind)
        have hname : child.2.1 = name := by simpa using List.find?_some hfind
        exact ⟨child.2.2, hname ▸ hleads, htracks⟩

theorem describes_fromNode (settings : FSSettings) {node : Node} (hleaf : IsLeaf node) (ino : ℕ) :
    (inodeDataToAttr settings (.fromNode node) ino).Describes node := by
  cases node with
  | directory digest size => exact hleaf.elim
  | symlink target =>
    refine ⟨?_, rfl, ?_⟩
    · show (S_IFLNK ||| 0x124) &&& S_IFMT = S_IFLNK
      decide
    · show (S_IFLNK ||| 0x124) &&& 0x49 ≠ 0 ↔ false = true
      decide
  | file digest size executable =>
    cases executable with
    | false =>
      refine ⟨?_, rfl, ?_⟩
      · show (S_IFREG ||| 0x124) &&& S_IFMT = S_IFREG
        decide
      · show (S_IFREG ||| 0x124) &&& 0x49 ≠ 0 ↔ false = true
        decide
    | true =>
      refine ⟨?_, rfl, ?_⟩
      · show (S_IFREG ||| 0x16D) &&& S_IFMT = S_IFREG
        decide
      · show (S_IFREG ||| 0x16D) &&& 0x49 ≠ 0 ↔ true = true
        decide

/-- What is kept for a file or a symlink is read off its node. -/
theorem eq_fromNode_of_upgrades {node : Node} (hleaf : IsLeaf node) {data : InodeData}
    (h : InodeTracker.Upgrades (.fromNode node) data) : data = .fromNode node := by
  cases node with
  | directory digest size => exact hleaf.elim
  | file digest size executable => exact Eq.symm h
  | symlink target => exact Eq.symm h

/-- What was told about a name stays true. -/
def ToldWell (tree : Tree) (t : InodeTracker) (x : Told) : Prop :=
  ∃ node, Leads tree t x.parent x.name node ∧ t.Tracks x.inode node ∧ (IsLeaf node → x.Right node)

/-- What was told about an inode was read from its entry. -/
def ToldAttrWell (settings : FSSettings) (t : InodeTracker) (x : ℕ × Attr) : Prop :=
  x.1 = ROOT_ID ∨ ∃ data data', x.2 = inodeDataToAttr settings data x.1 ∧
    t.data x.1 = some data' ∧ InodeTracker.Upgrades data data'

theorem ToldWell.grows {t t' : InodeTracker} {x : Told} (h : ToldWell tree t x)
    (hgrows : t.Grows t') : ToldWell tree t' x := by
  obtain ⟨node, hleads, htracks, hright⟩ := h
  exact ⟨node, hleads.grows hgrows, htracks.grows hgrows, hright⟩

theorem ToldAttrWell.grows {t t' : InodeTracker} {x : ℕ × Attr}
    (h : ToldAttrWell settings t x) (hgrows : t.Grows t') : ToldAttrWell settings t' x := by
  rcases h with h | ⟨data, data', hx, hdata, hup⟩
  · exact .inl h
  · obtain ⟨data'', hdata', hup'⟩ := hgrows _ _ hdata
    exact .inr ⟨data, data'', hx, hdata', hup.trans hup'⟩

/-- What one request does: the invariant is kept, nothing is forgotten, and what is told is true
    of the nodes it is told of. -/
structure StepWell (settings : FSSettings) (tree : Tree) (seen : List Node) (s : SnixStoreFs)
    (request : Request) (r : Reply × SnixStoreFs) : Prop where
  inv : Inv tree seen r.2
  grows : s.inodeTracker.Grows r.2.inodeTracker
  told : ∀ x ∈ told (request, r.1), ToldWell tree r.2.inodeTracker x
  attr : ∀ x, toldAttr (request, r.1) = some x → ToldAttrWell settings r.2.inodeTracker x

/-- A reply that tells nothing. -/
theorem StepWell.silent {s s' : SnixStoreFs} {request : Request} {reply : Reply}
    (h : Inv tree seen s') (hgrows : s.inodeTracker.Grows s'.inodeTracker)
    (htold : Fs.told (request, reply) = []) (hattr : toldAttr (request, reply) = none) :
    StepWell settings tree seen s request (reply, s') where
  inv := h
  grows := hgrows
  told := by
    intro x hx
    rw [htold] at hx
    cases hx
  attr := by
    intro x hx
    rw [hattr] at hx
    cases hx

theorem getattr_spec {s : SnixStoreFs} {inode : ℕ} (h : Inv tree seen s) :
    StepWell settings tree seen s (.getattr inode) (s.getattr settings inode, s) where
  inv := h
  grows := .refl _
  told := by
    intro x hx
    unfold getattr at hx
    split_ifs at hx
    · cases hx
    · split at hx <;> cases hx
  attr := by
    intro x hx
    unfold getattr at hx
    split_ifs at hx with hroot
    · cases hx
      exact .inl hroot
    · split at hx
      · cases hx
      · next data hdata =>
        cases hx
        exact .inr ⟨data, data, rfl, hdata, .refl data⟩

theorem lookup_spec (hsame : InodeTracker.SameFiles seen) (henv : env.Serves tree)
    {s : SnixStoreFs} {parent : ℕ} {name : Bytes} (hsub : brought s env (.lookup parent name) ⊆ seen)
    (h : Inv tree seen s) :
    StepWell settings tree seen s (.lookup parent name) (lookup settings env s parent name) := by
  unfold lookup
  cases hname : PathComponent.tryFrom name with
  | error e => exact .silent h (.refl _) rfl rfl
  | ok name' =>
    have hval := PathComponent.val_of_tryFrom hname
    subst hval
    obtain ⟨r, s', hlookup, hinv, hgrows, hok⟩ := lookupIno_spec hsame henv hsub h
    simp only [hlookup]
    cases r with
    | error e => exact .silent hinv hgrows rfl rfl
    | ok ino =>
      obtain ⟨node, hleads, htracks⟩ := hok ino rfl
      obtain ⟨data, hdata, hup⟩ := htracks
      have hget : s'.inodeTracker.get ino = some data := hdata
      simp only [hget]
      refine ⟨hinv, hgrows, ?_, fun x hx => by cases hx⟩
      intro x hx
      simp only [Fs.told, PathComponent.tryFrom_val, List.mem_singleton] at hx
      subst hx
      refine ⟨node, hleads, ⟨data, hdata, hup⟩, fun hleaf => ⟨?_, ?_⟩⟩
      · intro type_ htype
        cases htype
      intro attr hattr
      cases hattr
      rw [eq_fromNode_of_upgrades hleaf hup]
      exact describes_fromNode settings hleaf ino

theorem Offers.toldWell {t : InodeTracker} {parent : ℕ} {e : DirEntry × Entry}
    (h : Offers settings tree t parent e) {attr : Option Attr}
    (hattr : attr = none ∨ attr = some e.2.attr) :
    ToldWell tree t ⟨parent, e.1.name, e.1.ino, some e.1.type_, attr⟩ := by
  obtain ⟨offset, i, ino, name, node, rfl, hleads, htracks⟩ := h
  refine ⟨node, hleads, htracks, fun hleaf => ⟨?_, ?_⟩⟩
  · intro type_ htype
    cases htype
    rfl
  · intro attr' hattr'
    rcases hattr with rfl | rfl
    · cases hattr'
    · cases hattr'
      exact describes_fromNode settings hleaf ino

theorem readdir_spec (hsame : InodeTracker.SameFiles seen) (henv : env.Serves tree)
    {s : SnixStoreFs} {inode handle : ℕ} {offset : UInt64}
    (hsub : broughtByList env s inode ⊆ seen) (h : Inv tree seen s) :
    StepWell settings tree seen s (.readdir inode handle offset)
      (readdir settings env s inode handle offset) := by
  obtain ⟨offered, r, s', hlist, hinv, hgrows, hoffered⟩ :=
    @list_spec settings tree seen env hsame henv .eio inode handle offset s hsub h
  unfold readdir
  simp only [hlist]
  refine ⟨hinv, hgrows, ?_, fun x hx => by cases hx⟩
  intro x hx
  simp only [Fs.told, List.map_map, List.mem_map] at hx
  obtain ⟨e, he, rfl⟩ := hx
  exact (hoffered e he).toldWell (.inl rfl)

theorem readdirplus_spec (hsame : InodeTracker.SameFiles seen) (henv : env.Serves tree)
    {s : SnixStoreFs} {inode handle : ℕ} {offset : UInt64}
    (hsub : broughtByList env s inode ⊆ seen) (h : Inv tree seen s) :
    StepWell settings tree seen s (.readdirplus inode handle offset)
      (readdirplus settings env s inode handle offset) := by
  obtain ⟨offered, r, s', hlist, hinv, hgrows, hoffered⟩ :=
    @list_spec settings tree seen env hsame henv .eperm inode handle offset s hsub h
  unfold readdirplus
  simp only [hlist]
  refine ⟨hinv, hgrows, ?_, fun x hx => by cases hx⟩
  intro x hx
  simp only [Fs.told, List.mem_map] at hx
  obtain ⟨e, he, rfl⟩ := hx
  have hino : e.2.inode = e.1.ino := by
    obtain ⟨offset, i, ino, name, node, rfl, hleads, htracks⟩ := hoffered e he
    rfl
  rw [hino]
  exact (hoffered e he).toldWell (.inr rfl)

theorem step_spec (hsame : InodeTracker.SameFiles seen) (henv : env.Serves tree)
    {s : SnixStoreFs} {request : Request} (hsub : brought s env request ⊆ seen)
    (h : Inv tree seen s) :
    StepWell settings tree seen s request (step settings s env request) := by
  cases request with
  | getattr inode => exact getattr_spec h
  | lookup parent name => exact lookup_spec hsame henv hsub h
  | opendir inode =>
    show StepWell settings tree seen s (.opendir inode) (s.opendir settings inode)
    unfold opendir
    split
    · split
      · exact .silent ⟨h.sound, h.roots⟩ (.refl _) rfl rfl
      · exact .silent h (.refl _) rfl rfl
    · exact .silent h (.refl _) rfl rfl
  | readdir inode handle offset => exact readdir_spec hsame henv hsub h
  | readdirplus inode handle offset => exact readdirplus_spec hsame henv hsub h
  | releasedir inode handle =>
    show StepWell settings tree seen s (.releasedir inode handle) (s.releasedir inode handle)
    unfold releasedir
    split
    · exact .silent ⟨h.sound, h.roots⟩ (.refl _) rfl rfl
    · exact .silent h (.refl _) rfl rfl

-- ====================
-- Runs
-- ====================

theorem run_spec (hsame : InodeTracker.SameFiles seen) {steps : List (Request × Env)}
    (henv : ∀ e ∈ steps, e.2.Serves tree) {s : SnixStoreFs}
    (hsub : broughtAlong settings s steps ⊆ seen) (h : Inv tree seen s) :
    ∃ trace s', run settings s steps = (trace, s') ∧ Inv tree seen s' ∧
      s.inodeTracker.Grows s'.inodeTracker ∧
      (∀ x ∈ trace.flatMap told, ToldWell tree s'.inodeTracker x) ∧
      ∀ x ∈ trace.filterMap toldAttr, ToldAttrWell settings s'.inodeTracker x := by
  induction steps generalizing s with
  | nil =>
    refine ⟨[], s, rfl, h, .refl _, ?_, ?_⟩
    · intro x hx
      cases hx
    · intro x hx
      cases hx
  | cons e rest ih =>
    obtain ⟨request, env⟩ := e
    have hnow : brought s env request ⊆ seen := by
      intro x hx
      exact hsub (List.mem_append_left _ hx)
    have hlater : broughtAlong settings (step settings s env request).2 rest ⊆ seen := by
      intro x hx
      exact hsub (List.mem_append_right _ hx)
    have hstep : StepWell settings tree seen s request (step settings s env request) :=
      step_spec hsame (henv _ List.mem_cons_self) hnow h
    obtain ⟨trace, s', hrun, hinv, hgrows, htold, hattr⟩ :=
      ih (fun e he => henv e (List.mem_cons_of_mem _ he)) hlater hstep.inv
    refine ⟨(request, (step settings s env request).1) :: trace, s', ?_, hinv,
      hstep.grows.trans hgrows, ?_, ?_⟩
    · simp only [run, hrun]
    · intro x hx
      rw [List.flatMap_cons, List.mem_append] at hx
      rcases hx with hx | hx
      · exact (hstep.told x hx).grows hgrows
      · exact htold x hx
    · intro x hx
      rw [List.mem_filterMap] at hx
      obtain ⟨event, hevent, hx⟩ := hx
      rcases List.mem_cons.mp hevent with rfl | hevent
      · exact (hstep.attr x hx).grows hgrows
      · exact hattr x (List.mem_filterMap.mpr ⟨event, hevent, hx⟩)

theorem inv_new (tree : Tree) : Inv tree [] new where
  sound := by
    refine ⟨InodeTracker.wellFormed_default, ?_⟩
    intro ino digest children h
    cases h
  roots := by
    intro name ino h
    cases h

theorem Inv.mono {s : SnixStoreFs} {seen' : List Node} (h : Inv tree seen s)
    (hsub : seen ⊆ seen') : Inv tree seen' s :=
  ⟨⟨h.sound.wellFormed.mono hsub, h.sound.fetched⟩, h.roots⟩

/-- The root of the filesystem has no entry in the table. -/
theorem Inv.root_free {s : SnixStoreFs} (h : Inv tree seen s) :
    s.inodeTracker.data ROOT_ID = none := by
  rw [← Option.not_isSome_iff_eq_none]
  intro hsome
  obtain ⟨data, hdata⟩ := Option.isSome_iff_exists.mp hsome
  have hbounds := (h.sound.wellFormed.bounds _ _ hdata).1
  unfold ROOT_ID at hbounds
  omega

/-- From the number of a directory that is reached along a path, a name leads to the node at the
    longer path. -/
theorem nodeAt_of_leads {s : SnixStoreFs} (h : Inv tree seen s) {path : List PathComponent}
    {parent : ℕ}
    (hparent : path = [] ∧ parent = ROOT_ID ∨
      ∃ node, tree.nodeAt path = some node ∧ s.inodeTracker.Tracks parent node)
    {name : PathComponent} {node : Node} (hleads : Leads tree s.inodeTracker parent name node) :
    tree.nodeAt (path ++ [name]) = some node := by
  rcases hparent with ⟨rfl, rfl⟩ | ⟨above, habove, data, hdata, hup⟩
  · rcases hleads with ⟨-, hroot⟩ | ⟨d, directory, hdata, -, -⟩
    · simp [Tree.nodeAt, Bind.bindLeft, hroot]
    · rw [h.root_free] at hdata
      cases hdata
  · rw [Tree.nodeAt_append tree habove]
    rcases hleads with ⟨rfl, -⟩ | ⟨d, directory, hdata', hdirectory, hget⟩
    · rw [h.root_free] at hdata
      cases hdata
    · rw [hdata, Option.some.injEq] at hdata'
      subst hdata'
      cases above with
      | directory digest size =>
        have hdigest : digest = d.digest := hup
        subst hdigest
        simp [Tree.child, hdirectory, hget]
      | file digest size executable => cases hup
      | symlink target => cases hup

/-- An inode that is reached along a path stands for the node at the path. -/
theorem tracks_of_reached {s : SnixStoreFs} (h : Inv tree seen s)
    {trace : List (Request × Reply)}
    (htold : ∀ x ∈ trace.flatMap told, ToldWell tree s.inodeTracker x)
    {path : List PathComponent} {ino : ℕ} (hreached : Reached trace path ino) :
    path = [] ∧ ino = ROOT_ID ∨
      ∃ node, tree.nodeAt path = some node ∧ s.inodeTracker.Tracks ino node := by
  induction hreached with
  | root => exact .inl ⟨rfl, rfl⟩
  | child hparent ht ih =>
    obtain ⟨node, hleads, htracks, -⟩ := htold _ ht
    exact .inr ⟨node, nodeAt_of_leads h ih hleads, htracks⟩

/-- In every run in which the services return no blob with two sizes or two executable bits, what
    is reported of a file or a symlink is true of the node at its path. -/
theorem attrs_right (settings : FSSettings) (tree : Tree) (steps : List (Request × Env))
    (henv : ∀ e ∈ steps, e.2.Serves tree)
    (hsame : InodeTracker.SameFiles (broughtAlong settings new steps)) :
    AttrsRight tree (run settings new steps).1 := by
  obtain ⟨trace, s, hrun, hinv, -, htold, hattr⟩ := run_spec hsame henv (List.Subset.refl _)
    ((inv_new tree).mono (List.nil_subset _))
  rw [hrun]
  constructor
  · intro t ht path hreached
    obtain ⟨node, hleads, -, hright⟩ := htold t ht
    exact ⟨node, nodeAt_of_leads hinv (tracks_of_reached hinv htold hreached) hleads, hright⟩
  · intro ino attr hmem path node hreached hnode hleaf
    rcases tracks_of_reached hinv htold hreached with ⟨rfl, -⟩ | ⟨node', hnode', data, hdata, hup⟩
    · cases hnode
    rw [hnode, Option.some.injEq] at hnode'
    subst hnode'
    rcases hattr _ hmem with hroot | ⟨data₁, data₂, hattr, hdata₂, hup'⟩
    · simp only at hroot
      subst hroot
      rw [hinv.root_free] at hdata
      cases hdata
    · simp only at hattr hdata₂
      -- the entry was there when it was read, and it has not changed since
      have hdata' := eq_fromNode_of_upgrades hleaf hup
      subst hdata'
      rw [hdata, Option.some.injEq] at hdata₂
      subst hdata₂
      have hsame : data₁ = .fromNode node := by
        cases node with
        | directory digest size => exact hleaf.elim
        | file digest size executable => cases data₁ <;> exact hup'
        | symlink target => cases data₁ <;> exact hup'
      rw [hattr, hsame]
      exact describes_fromNode settings hleaf ino

def nameA : PathComponent := ⟨[97], rfl⟩

def nameB : PathComponent := ⟨[98], rfl⟩

/-- Two files with the same contents. The first is executable. -/
def twinTree (second : Bool) : Tree where
  root name :=
    if name = nameA then some (.file ⟨List.replicate 32 0, rfl⟩ 1 true)
    else if name = nameB then some (.file ⟨List.replicate 32 0, rfl⟩ 1 second)
    else none
  directories _ := none

def twinEnv (second : Bool) : Env where
  getByBasename name := .ok ((twinTree second).root name)
  get _ := .ok none
  next := []
  addEntry _ := .ok 1

theorem twinEnv_serves (second : Bool) : (twinEnv second).Serves (twinTree second) where
  root := by
    intro name node h
    simpa [twinEnv] using h
  directory := by
    intro digest directory h
    cases h
  item := by
    intro name node h
    cases h

/-- Both files are looked up, and the attributes of the second are asked for again. -/
def twinSteps (second : Bool) : List (Request × Env) :=
  [(.lookup ROOT_ID nameA.val, twinEnv second), (.lookup ROOT_ID nameB.val, twinEnv second),
    (.getattr 2, twinEnv second)]

theorem serves_of_mem_twinSteps (second : Bool) :
    ∀ e ∈ twinSteps second, e.2.Serves (twinTree second) := by
  intro e he
  simp only [twinSteps, List.mem_cons, List.not_mem_nil, or_false] at he
  rcases he with rfl | rfl | rfl <;> exact twinEnv_serves second

theorem attrs_right_twins :
    (∀ e ∈ twinSteps true, e.2.Serves (twinTree true)) ∧
      InodeTracker.SameFiles (broughtAlong ⟨false, none⟩ new (twinSteps true)) ∧
      AttrsRight (twinTree true) (run ⟨false, none⟩ new (twinSteps true)).1 := by
  have hsame : InodeTracker.SameFiles (broughtAlong ⟨false, none⟩ new (twinSteps true)) := by
    intro digest size size' executable executable' h h'
    have hbrought : broughtAlong ⟨false, none⟩ new (twinSteps true) =
        [.file ⟨List.replicate 32 0, rfl⟩ 1 true, .file ⟨List.replicate 32 0, rfl⟩ 1 true] := by
      decide
    rw [hbrought] at h h'
    simp only [List.mem_cons, List.not_mem_nil, or_false, or_self] at h h'
    cases h
    cases h'
    exact ⟨rfl, rfl⟩
  exact ⟨serves_of_mem_twinSteps true, hsame,
    attrs_right ⟨false, none⟩ (twinTree true) (twinSteps true) (serves_of_mem_twinSteps true) hsame⟩

/-- The second file is not executable, but is reported as if it were. -/
theorem attrs_right_exchanged :
    (∀ e ∈ twinSteps false, e.2.Serves (twinTree false)) ∧
      ¬ AttrsRight (twinTree false) (run ⟨false, none⟩ new (twinSteps false)).1 := by
  refine ⟨serves_of_mem_twinSteps false, ?_⟩
  intro h
  have htold : (⟨ROOT_ID, nameB, 2, none, some ⟨2, 1, 0, 1024, S_IFREG ||| 0x16D, 1, 0, 0⟩⟩ : Told) ∈
      (run ⟨false, none⟩ new (twinSteps false)).1.flatMap told := by
    decide
  obtain ⟨node, hnode, hright⟩ := h.listed _ htold [] .root
  have hnode' : (twinTree false).nodeAt [nameB] =
      some (.file ⟨List.replicate 32 0, rfl⟩ 1 false) := by
    decide
  rw [List.nil_append, hnode', Option.some.injEq] at hnode
  subst hnode
  have hbit := ((hright trivial).attr _ rfl).bit
  revert hbit
  decide

end SnixStoreFs
end Snix.Castore.Fs
