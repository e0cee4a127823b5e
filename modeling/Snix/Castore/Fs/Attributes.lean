import Snix.Castore.Fs.Listing
import Snix.Lib.Interleaving

/-!
# Attributes that are handed out

Requests are handled by several threads. They share the tables of the filesystem, and
each access to a table is an atomic section under its lock. What a client was told about
an inode it never asks again, so it should stay true.

The size of a directory is the recorded one until it is fetched, and the number of its
entries after that. A listing with attributes gives those of the node itself, other
requests those that are kept for the inode.

Requests with the same handle wait for each other. Here they do not, so that there are
more runs than the program has.

## Main definitions

- `FsOp`, `task` — the sections, and what a thread does for a request
- `SameAttrs` — the condition on sections under which attributes stay

## Main results

- `alone_task` — a request that no other one interrupts
- `attrs_stable` — attributes stay in every run whose sections meet the condition
- `attrs_changed` — the size of a directory changes when it is fetched
-/

namespace Snix.Castore.Fs

/-- The atomic sections of requests. -/
inductive FsOp where
  | getData (ino : ℕ)
  | getRoot (name : PathComponent)
  | putRoot (name : PathComponent) (node : Node)
  | put (node : Node)
  | insertRoot (name : PathComponent) (ino : ℕ)
  | populate (ino : ℕ) (digest : B3Digest) (directory : Directory)
  | newHandle
  | getHandle (handle : ℕ)
  | setHandle (handle i : ℕ)
  | removeHandle (handle : ℕ)
  /-- The callback of a listing is called, and answers. -/
  | addEntry (call : ListingCall) (ino : ℕ) (node : Node) (written : Except Unit ℕ)

namespace FsOp

def Res : FsOp → Type
  | getData _ => Option InodeData
  | getRoot _ => Option ℕ
  | putRoot _ _ => Option ℕ
  | put _ => Option ℕ
  | insertRoot _ _ => Unit
  | populate _ _ _ => Option (List (ℕ × PathComponent × Node))
  | newHandle => ℕ
  | getHandle _ => Option ℕ
  | setHandle _ _ => Unit
  | removeHandle _ => Unit
  | addEntry _ _ _ _ => Except Unit ℕ

/-- A directory that was fetched is kept with the numbers of its entries. None if the program
    panics. -/
def populateTracker (t : InodeTracker) (ino : ℕ) (digest : B3Digest) (directory : Directory) :
    Option (List (ℕ × PathComponent × Node) × InodeTracker) :=
  match SnixStoreFs.putAll t directory.nodes.entries with
  | none => none
  | some (children, t) =>
    match t.replace ino (.directory (.populated digest children)) with
    | none => none
    | some t => some (children, t)

def run : (op : FsOp) → SnixStoreFs → Res op × SnixStoreFs
  | getData ino, s => (s.inodeTracker.get ino, s)
  | getRoot name, s => (s.rootNodes name, s)
  | putRoot name node, s =>
    match s.insertRoot name node with
    | none => (none, s)
    | some (ino, s) => (some ino, s)
  | put node, s =>
    match s.inodeTracker.put (.fromNode node) with
    | none => (none, s)
    | some (ino, t) => (some ino, { s with inodeTracker := t })
  | insertRoot name ino, s => ((), { s with rootNodes := Function.update s.rootNodes name (some ino) })
  | populate ino digest directory, s =>
    match populateTracker s.inodeTracker ino digest directory with
    | none => (none, s)
    | some (children, t) => (some children, { s with inodeTracker := t })
  | newHandle, s =>
    (s.nextDirHandle, { s with
      dirHandles := Function.update s.dirHandles s.nextDirHandle (some 0)
      nextDirHandle := s.nextDirHandle + 1 })
  | getHandle handle, s => (s.dirHandles handle, s)
  | setHandle handle i, s => ((), { s with dirHandles := Function.update s.dirHandles handle (some i) })
  | removeHandle handle, s => ((), { s with dirHandles := Function.update s.dirHandles handle none })
  | addEntry _ _ _ written, s => (written, s)

end FsOp

def fsSections : Sections SnixStoreFs := ⟨FsOp, FsOp.Res, FsOp.run⟩

abbrev FsTask (α : Type) : Type := Task fsSections α

def FsTask.perform (op : FsOp) : FsTask op.Res := Task.perform (L := fsSections) op

section

variable (settings : FSSettings) (env : Env)

def getDirectoryChildrenTask (ino : ℕ) :
    FsTask (Except FsError (List (ℕ × PathComponent × Node))) :=
  (FsTask.perform (.getData ino)).bind fun
    | none => .done (.error .panicked)
    | some (.directory (.populated _ children)) => .done (.ok children)
    | some (.directory (.sparse parentDigest _)) =>
      match env.get parentDigest with
      | .error _ => .done (.error .directoryService)
      | .ok none => .done (.error .eio)
      | .ok (some directory) =>
        (FsTask.perform (.populate ino parentDigest directory)).bind fun
          | none => .done (.error .panicked)
          | some children => .done (.ok children)
    | some (.regular _ _ _) => .done (.error .enotdir)
    | some (.symlink _) => .done (.error .enotdir)

/-- The number of a root node that is in the table. -/
def knownRootTask (ino : ℕ) : FsTask (Except FsError ℕ) :=
  (FsTask.perform (.getData ino)).bind fun
    | none => .done (.error .panicked)
    | some _ => .done (.ok ino)

/-- Another thread may have put the name into the table while this one was asking for its node. -/
def nameInRootToInoTask (name : PathComponent) : FsTask (Except FsError ℕ) :=
  (FsTask.perform (.getRoot name)).bind fun
    | some ino => knownRootTask ino
    | none =>
      match env.getByBasename name with
      | .error _ => .done (.error .eio)
      | .ok none => .done (.error .enoent)
      | .ok (some node) =>
        (FsTask.perform (.getRoot name)).bind fun
          | some ino => knownRootTask ino
          | none => (FsTask.perform (.putRoot name node)).bind fun
            | none => .done (.error .panicked)
            | some ino => .done (.ok ino)

def getattrTask (inode : ℕ) : FsTask Reply :=
  if inode = ROOT_ID then .done (.attr ROOT_FILE_ATTR)
  else (FsTask.perform (.getData inode)).bind fun
    | none => .done (.failed .enoent)
    | some data => .done (.attr (SnixStoreFs.inodeDataToAttr settings data inode))

def lookupInoTask (parent : ℕ) (name : PathComponent) : FsTask (Except FsError ℕ) :=
  if parent = ROOT_ID then nameInRootToInoTask env name
  else (getDirectoryChildrenTask env parent).bind fun
    | .error e => .done (.error e)
    | .ok children =>
      match children.find? fun child => child.2.1 = name with
      | none => .done (.error .enoent)
      | some (ino, _, _) => .done (.ok ino)

def lookupTask (parent : ℕ) (name : Bytes) : FsTask Reply :=
  match PathComponent.tryFrom name with
  | .error _ => .done (.failed .notFound)
  | .ok name => (lookupInoTask env parent name).bind fun
    | .error e => .done (.failed e)
    | .ok ino => (FsTask.perform (.getData ino)).bind fun
      | none => .done (.failed .enoent)
      | some data =>
        .done (.entry (SnixStoreFs.attrToFuseEntry (SnixStoreFs.inodeDataToAttr settings data ino)))

def opendirTask (inode : ℕ) : FsTask Reply :=
  if inode = ROOT_ID then
    if settings.listRoot then
      (FsTask.perform .newHandle).bind fun handle => .done (.opened (some handle))
    else .done (.failed .eperm)
  else .done (.opened none)

/-- The number of an item of the root listing. The two tables are changed one after the other. -/
def rootInoTask (name : PathComponent) (node : Node) : FsTask (Option ℕ) :=
  (FsTask.perform (.getRoot name)).bind fun
    | some ino => .done (some ino)
    | none => (FsTask.perform (.put node)).bind fun
      | none => .done none
      | some ino => (FsTask.perform (.insertRoot name ino)).bind fun _ => .done (some ino)

def listRootTask (call : ListingCall) (itemError : FsError) (offset : UInt64) :
    ℕ → ℕ → List (Except Unit (PathComponent × Node)) →
      FsTask (List (DirEntry × Entry) × Except FsError Unit × ℕ)
  | i, _, [] => .done ([], .ok (), i)
  | i, _, .error _ :: _ => .done ([], .error itemError, i + 1)
  | i, n, .ok (name, node) :: rest =>
    (rootInoTask name node).bind fun
      | none => .done ([], .error .panicked, i + 1)
      | some ino =>
        let entry := SnixStoreFs.listEntry settings offset i ino name node
        (FsTask.perform (.addEntry call ino node (env.addEntry n))).bind fun
          | .error _ => .done ([entry], .error .addEntry, i + 1)
          | .ok 0 => .done ([entry], .ok (), i + 1)
          | .ok (_ + 1) => (listRootTask call itemError offset (i + 1) (n + 1) rest).bind fun r =>
            .done (entry :: r.1, r.2)

def listChildrenTask (call : ListingCall) (offset : UInt64) :
    ℕ → List (ℕ × PathComponent × Node) → FsTask (List (DirEntry × Entry) × Except FsError Unit)
  | _, [] => .done ([], .ok ())
  | i, (ino, name, node) :: rest =>
    let entry := SnixStoreFs.listEntry settings offset i ino name node
    (FsTask.perform (.addEntry call ino node (env.addEntry i))).bind fun
      | .error _ => .done ([entry], .error .addEntry)
      | .ok 0 => .done ([entry], .ok ())
      | .ok (_ + 1) => (listChildrenTask call offset (i + 1) rest).bind fun r =>
        .done (entry :: r.1, r.2)

def listTask (call : ListingCall) (itemError : FsError) (inode handle : ℕ) (offset : UInt64) :
    FsTask (List (DirEntry × Entry) × Except FsError Unit) :=
  if inode = ROOT_ID then
    if settings.listRoot then
      (FsTask.perform (.getHandle handle)).bind fun
        | none => .done ([], .error .eio)
        | some i => (listRootTask settings env call itemError offset i 0 env.next).bind fun r =>
          (FsTask.perform (.setHandle handle r.2.2)).bind fun _ => .done (r.1, r.2.1)
    else .done ([], .error .eperm)
  else (getDirectoryChildrenTask env inode).bind fun
    | .error e => .done ([], .error e)
    | .ok children => listChildrenTask settings env call offset 0 (children.drop offset.toNat)

def releasedirTask (inode handle : ℕ) : FsTask Reply :=
  if inode = ROOT_ID then (FsTask.perform (.removeHandle handle)).bind fun _ => .done .released
  else .done .released

/-- What a thread does for a request. -/
def task (input : Request × Env) : FsTask Reply :=
  match input.1 with
  | .getattr inode => getattrTask settings inode
  | .lookup parent name => lookupTask settings input.2 parent name
  | .opendir inode => opendirTask settings inode
  | .readdir inode handle offset =>
    (listTask settings input.2 .readdir .eio inode handle offset).bind fun r =>
      .done (.listed (r.1.map Prod.fst) r.2)
  | .readdirplus inode handle offset =>
    (listTask settings input.2 .readdirplus .eperm inode handle offset).bind fun r =>
      .done (.listedPlus r.1 r.2)
  | .releasedir inode handle => releasedirTask inode handle

end

-- ====================
-- One request alone
-- ====================

section

variable {settings : FSSettings} {env : Env}

/-- What is left after an access that changes the state only if it succeeds. -/
def orSame {α : Type} (s : SnixStoreFs) :
    Except FsError (α × SnixStoreFs) → Except FsError α × SnixStoreFs
  | .error e => (.error e, s)
  | .ok (a, s) => (.ok a, s)

theorem alone_perform_bind {α : Type} (op : FsOp) (f : op.Res → FsTask α) (s : SnixStoreFs) :
    ((FsTask.perform op).bind f).alone s = (f (op.run s).1).alone (op.run s).2 := rfl

theorem alone_getDirectoryChildrenTask (ino : ℕ) (s : SnixStoreFs) :
    (getDirectoryChildrenTask env ino).alone s =
      orSame s ((SnixStoreFs.getDirectoryChildren env s.inodeTracker ino).map
        fun x => (x.1, { s with inodeTracker := x.2 })) := by
  unfold getDirectoryChildrenTask SnixStoreFs.getDirectoryChildren
  rw [alone_perform_bind]
  simp only [FsOp.run]
  cases hdata : s.inodeTracker.get ino with
  | none => rfl
  | some data =>
    cases data with
    | regular digest size executable => rfl
    | symlink target => rfl
    | directory d =>
      cases d with
      | populated digest children => rfl
      | sparse digest size =>
        simp only
        cases henv : env.get digest with
        | error e => rfl
        | ok found =>
          cases found with
          | none => rfl
          | some directory =>
            simp only [alone_perform_bind, FsOp.run, FsOp.populateTracker]
            cases hput : SnixStoreFs.putAll s.inodeTracker directory.nodes.entries with
            | none => rfl
            | some x =>
              obtain ⟨children, t⟩ := x
              simp only
              cases t.replace ino (.directory (.populated digest children)) with
              | none => rfl
              | some t => rfl

theorem alone_nameInRootToInoTask (name : PathComponent) (s : SnixStoreFs) :
    (nameInRootToInoTask env name).alone s = orSame s (SnixStoreFs.nameInRootToIno env s name) := by
  unfold nameInRootToInoTask SnixStoreFs.nameInRootToIno
  rw [alone_perform_bind]
  simp only [FsOp.run]
  cases hino : s.rootNodes name with
  | some ino =>
    simp only [knownRootTask, alone_perform_bind, FsOp.run]
    cases s.inodeTracker.get ino with
    | none => rfl
    | some data => rfl
  | none =>
    simp only
    cases henv : env.getByBasename name with
    | error e => rfl
    | ok found =>
      cases found with
      | none => rfl
      | some node =>
        simp only [alone_perform_bind, FsOp.run, hino]
        cases s.insertRoot name node with
        | none => rfl
        | some x => rfl

theorem alone_lookupInoTask (parent : ℕ) (name : PathComponent) (s : SnixStoreFs) :
    (lookupInoTask env parent name).alone s = SnixStoreFs.lookupIno env s parent name := by
  unfold lookupInoTask SnixStoreFs.lookupIno
  split_ifs
  · refine (alone_nameInRootToInoTask name s).trans ?_
    cases SnixStoreFs.nameInRootToIno env s name with
    | error e => rfl
    | ok x => rfl
  · rw [Task.alone_bind, alone_getDirectoryChildrenTask]
    cases SnixStoreFs.getDirectoryChildren env s.inodeTracker parent with
    | error e => rfl
    | ok x =>
      simp only [Except.map, orSame]
      cases x.1.find? fun child => child.2.1 = name with
      | none => rfl
      | some child => rfl

theorem alone_lookupTask (parent : ℕ) (name : Bytes) (s : SnixStoreFs) :
    (lookupTask settings env parent name).alone s = SnixStoreFs.lookup settings env s parent name := by
  unfold lookupTask SnixStoreFs.lookup
  cases PathComponent.tryFrom name with
  | error e => rfl
  | ok name =>
    simp only
    rw [Task.alone_bind, alone_lookupInoTask]
    cases hlookup : SnixStoreFs.lookupIno env s parent name with
    | mk r s' =>
      cases r with
      | error e => rfl
      | ok ino =>
        simp only [alone_perform_bind, FsOp.run]
        cases s'.inodeTracker.get ino with
        | none => rfl
        | some data => rfl

theorem alone_rootInoTask (name : PathComponent) (node : Node) (s : SnixStoreFs) :
    (rootInoTask name node).alone s =
      ((s.rootIno name node).map Prod.fst, ((s.rootIno name node).map Prod.snd).getD s) := by
  unfold rootInoTask SnixStoreFs.rootIno SnixStoreFs.insertRoot
  rw [alone_perform_bind]
  simp only [FsOp.run]
  cases s.rootNodes name with
  | some ino => rfl
  | none =>
    simp only [alone_perform_bind, FsOp.run]
    cases s.inodeTracker.put (.fromNode node) with
    | none => rfl
    | some x => rfl

theorem alone_listRootTask (call : ListingCall) (itemError : FsError) (offset : UInt64) (i n : ℕ)
    (items : List (Except Unit (PathComponent × Node))) (s : SnixStoreFs) :
    (listRootTask settings env call itemError offset i n items).alone s =
      let r := SnixStoreFs.listRootLoop settings itemError offset env.addEntry i n s items
      ((r.1, r.2.1, r.2.2.1), r.2.2.2) := by
  induction items generalizing i n s with
  | nil => rfl
  | cons item rest ih =>
    cases item with
    | error e => rfl
    | ok x =>
      obtain ⟨name, node⟩ := x
      unfold listRootTask SnixStoreFs.listRootLoop
      rw [Task.alone_bind, alone_rootInoTask]
      cases s.rootIno name node with
      | none => rfl
      | some x =>
        simp only [Option.map_some, Option.getD_some, alone_perform_bind, FsOp.run]
        cases env.addEntry n with
        | error e => rfl
        | ok written =>
          cases written with
          | zero => rfl
          | succ written =>
            simp only
            rw [Task.alone_bind, ih]
            rfl

theorem alone_listChildrenTask (call : ListingCall) (offset : UInt64) (i : ℕ)
    (children : List (ℕ × PathComponent × Node)) (s : SnixStoreFs) :
    (listChildrenTask settings env call offset i children).alone s =
      (SnixStoreFs.listChildrenLoop settings offset env.addEntry i children, s) := by
  induction children generalizing i with
  | nil => rfl
  | cons child rest ih =>
    obtain ⟨ino, name, node⟩ := child
    unfold listChildrenTask SnixStoreFs.listChildrenLoop
    simp only [alone_perform_bind, FsOp.run]
    cases env.addEntry i with
    | error e => rfl
    | ok written =>
      cases written with
      | zero => rfl
      | succ written =>
        simp only
        rw [Task.alone_bind, ih]
        rfl

theorem alone_listTask (call : ListingCall) (itemError : FsError) (inode handle : ℕ)
    (offset : UInt64) (s : SnixStoreFs) :
    (listTask settings env call itemError inode handle offset).alone s =
      let r := SnixStoreFs.list settings itemError env s inode handle offset
      ((r.1, r.2.1), r.2.2) := by
  unfold listTask SnixStoreFs.list
  split_ifs
  · rw [alone_perform_bind]
    simp only [FsOp.run]
    cases s.dirHandles handle with
    | none => rfl
    | some i =>
      simp only
      rw [Task.alone_bind, alone_listRootTask]
      rfl
  · rfl
  · rw [Task.alone_bind, alone_getDirectoryChildrenTask]
    cases SnixStoreFs.getDirectoryChildren env s.inodeTracker inode with
    | error e => rfl
    | ok x =>
      simp only [Except.map, orSame]
      rw [alone_listChildrenTask]

/-- A request that no other one interrupts is one step. -/
theorem alone_task (settings : FSSettings) (input : Request × Env) (s : SnixStoreFs) :
    (task settings input).alone s = SnixStoreFs.step settings s input.2 input.1 := by
  obtain ⟨request, env⟩ := input
  cases request with
  | getattr inode =>
    show (getattrTask settings inode).alone s = (s.getattr settings inode, s)
    unfold getattrTask SnixStoreFs.getattr
    split_ifs
    · rfl
    · rw [alone_perform_bind]
      simp only [FsOp.run]
      cases s.inodeTracker.get inode with
      | none => rfl
      | some data => rfl
  | lookup parent name => exact alone_lookupTask parent name s
  | opendir inode =>
    show (opendirTask settings inode).alone s = s.opendir settings inode
    unfold opendirTask SnixStoreFs.opendir
    split_ifs
    · rfl
    · rfl
    · rfl
  | readdir inode handle offset =>
    show ((listTask settings env .readdir .eio inode handle offset).bind _).alone s =
      SnixStoreFs.readdir settings env s inode handle offset
    rw [Task.alone_bind, alone_listTask]
    rfl
  | readdirplus inode handle offset =>
    show ((listTask settings env .readdirplus .eperm inode handle offset).bind _).alone s =
      SnixStoreFs.readdirplus settings env s inode handle offset
    rw [Task.alone_bind, alone_listTask]
    rfl
  | releasedir inode handle =>
    show (releasedirTask inode handle).alone s = s.releasedir inode handle
    unfold releasedirTask SnixStoreFs.releasedir
    split_ifs
    · rfl
    · rfl

end

-- ====================
-- What the sections keep
-- ====================

/-- The mode and the size that are kept for an inode. -/
def SnixStoreFs.modeSize (s : SnixStoreFs) (ino : ℕ) : Option (UInt32 × UInt64) :=
  (s.inodeTracker.get ino).map InodeData.modeSize

/-- A directory that is fetched has as many entries as the size that is kept for it says, and an
    entry that a listing hands out with attributes has the mode and the size that are kept for its
    inode. -/
def SameAttrs : FsOp → SnixStoreFs → Prop
  | .populate ino _ directory, s =>
    s.modeSize ino = some (S_IFDIR ||| 0x16D, directory.nodes.entries.length.toUInt64)
  | .addEntry .readdirplus ino node (.ok (_ + 1)), s =>
    s.modeSize ino = some (InodeData.fromNode node).modeSize
  | _, _ => True

/-- Numbers that are taken lie between that of the root and the counter. -/
structure InodeTracker.Bounded (t : InodeTracker) : Prop where
  bounds : ∀ ino data, t.data ino = some data → 2 ≤ ino ∧ ino < t.nextInode
  room : 2 ≤ t.nextInode

/-- The modes and sizes of one table are those of a later one. -/
def InodeTracker.SameSizes (t t' : InodeTracker) : Prop :=
  ∀ ino m, (t.get ino).map InodeData.modeSize = some m → (t'.get ino).map InodeData.modeSize = some m

theorem InodeTracker.SameSizes.trans {t t' t'' : InodeTracker} (h : t.SameSizes t')
    (h' : t'.SameSizes t'') : t.SameSizes t'' := fun ino m hm => h' ino m (h ino m hm)

/-- A number that is given out for a node leaves the others as they are. -/
theorem InodeTracker.Bounded.put {t t' : InodeTracker} (h : t.Bounded) {node : Node} {ino : ℕ}
    (hput : t.put (.fromNode node) = some (ino, t')) : t'.Bounded ∧ t.SameSizes t' := by
  have hold : t.Bounded ∧ t.SameSizes t := ⟨h, fun _ _ hm => hm⟩
  have hnew : (t.insertAndIncrement (.fromNode node)).2.Bounded ∧
      t.SameSizes (t.insertAndIncrement (.fromNode node)).2 := by
    refine ⟨⟨fun other data hdata => ?_, ?_⟩, fun other m hm => ?_⟩
    · rw [InodeTracker.insertAndIncrement_data] at hdata
      rw [InodeTracker.insertAndIncrement_nextInode]
      by_cases heq : other = t.nextInode
      · have hroom := h.room
        omega
      · rw [Function.update_of_ne heq] at hdata
        have hbounds := h.bounds other data hdata
        omega
    · have hroom := h.room
      rw [InodeTracker.insertAndIncrement_nextInode]
      omega
    · obtain ⟨data, hdata, rfl⟩ := Option.map_eq_some_iff.mp hm
      have hne : other ≠ t.nextInode := (h.bounds other data hdata).2.ne
      unfold InodeTracker.get
      rw [InodeTracker.insertAndIncrement_data, Function.update_of_ne hne]
      exact hm
  unfold InodeTracker.put at hput
  cases node with
  | directory digest size =>
    simp only [InodeData.fromNode] at hput hnew
    cases hfound : t.directoryDigestToInode digest with
    | none =>
      rw [hfound] at hput
      cases hput
      exact hnew
    | some ino =>
      rw [hfound] at hput
      cases hput
      exact hold
  | file digest size executable =>
    simp only [InodeData.fromNode] at hput hnew
    cases hfound : t.blobDigestToInode digest with
    | none =>
      rw [hfound] at hput
      cases hput
      exact hnew
    | some ino =>
      rw [hfound] at hput
      cases hput
      exact hold
  | symlink target =>
    simp only [InodeData.fromNode] at hput hnew
    cases hfound : t.symlinkTargetToInode target with
    | none =>
      rw [hfound] at hput
      cases hput
      exact hnew
    | some ino =>
      rw [hfound] at hput
      cases hput
      exact hold

theorem InodeTracker.Bounded.putAll {t t' : InodeTracker} (h : t.Bounded)
    {entries : List (PathComponent × Node)} {children : List (ℕ × PathComponent × Node)}
    (hput : SnixStoreFs.putAll t entries = some (children, t')) :
    t'.Bounded ∧ t.SameSizes t' ∧ children.length = entries.length := by
  induction entries generalizing t t' children with
  | nil =>
    cases hput
    exact ⟨h, fun _ _ hm => hm, rfl⟩
  | cons entry rest ih =>
    obtain ⟨name, node⟩ := entry
    obtain ⟨⟨ino, t₁⟩, hone, hput⟩ := Option.bind_eq_some_iff.mp hput
    obtain ⟨⟨others, t₂⟩, hrest, hput⟩ := Option.bind_eq_some_iff.mp hput
    cases hput
    obtain ⟨hbounded, hsame⟩ := h.put hone
    obtain ⟨hbounded', hsame', hlen⟩ := ih hbounded hrest
    exact ⟨hbounded', hsame.trans hsame', congrArg Nat.succ hlen⟩

/-- A directory that has as many entries as the size that is kept for it keeps its size when it is
    fetched. -/
theorem InodeTracker.Bounded.populate {t t' : InodeTracker} (h : t.Bounded) {ino : ℕ}
    {digest : B3Digest} {directory : Directory} {children : List (ℕ × PathComponent × Node)}
    (hsize : (t.get ino).map InodeData.modeSize =
      some (S_IFDIR ||| 0x16D, directory.nodes.entries.length.toUInt64))
    (hpopulate : FsOp.populateTracker t ino digest directory = some (children, t')) :
    t'.Bounded ∧ t.SameSizes t' := by
  unfold FsOp.populateTracker at hpopulate
  cases hput : SnixStoreFs.putAll t directory.nodes.entries with
  | none =>
    rw [hput] at hpopulate
    cases hpopulate
  | some x =>
    obtain ⟨others, t₁⟩ := x
    obtain ⟨hbounded, hsame, hlen⟩ := h.putAll hput
    have hsize₁ := hsame ino _ hsize
    obtain ⟨data, hdata, -⟩ := Option.map_eq_some_iff.mp hsize₁
    have hdata' : t₁.data ino = some data := hdata
    simp only [hput, InodeTracker.replace, hdata'] at hpopulate
    cases hpopulate
    refine ⟨⟨fun other data' hother => ?_, hbounded.room⟩, hsame.trans fun other m hm => ?_⟩
    · by_cases heq : other = ino
      · subst heq
        exact hbounded.bounds other data hdata
      · dsimp only at hother
        rw [Function.update_of_ne heq] at hother
        exact hbounded.bounds other data' hother
    · unfold InodeTracker.get
      dsimp only
      by_cases heq : other = ino
      · subst heq
        rw [hsize₁] at hm
        rw [Function.update_self, Option.map_some, ← hm, ← hlen]
        rfl
      · rw [Function.update_of_ne heq]
        exact hm

/-- The modes and sizes that are kept never change, if all sections meet the condition. -/
def fsRely : Rely fsSections SameAttrs where
  Inv s := s.inodeTracker.Bounded
  Later s s' := s.inodeTracker.SameSizes s'.inodeTracker
  refl _ _ _ hm := hm
  trans h h' := h.trans h'
  section_ op s hinv hC := by
    have hsame : s.inodeTracker.Bounded ∧ s.inodeTracker.SameSizes s.inodeTracker :=
      ⟨hinv, fun _ _ hm => hm⟩
    cases op with
    | putRoot name node =>
      show (FsOp.run (.putRoot name node) s).2.inodeTracker.Bounded ∧
        s.inodeTracker.SameSizes (FsOp.run (.putRoot name node) s).2.inodeTracker
      cases hput : s.inodeTracker.put (.fromNode node) with
      | none =>
        simp only [FsOp.run, SnixStoreFs.insertRoot, hput]
        exact hsame
      | some x =>
        simp only [FsOp.run, SnixStoreFs.insertRoot, hput]
        exact hinv.put hput
    | put node =>
      show (FsOp.run (.put node) s).2.inodeTracker.Bounded ∧
        s.inodeTracker.SameSizes (FsOp.run (.put node) s).2.inodeTracker
      cases hput : s.inodeTracker.put (.fromNode node) with
      | none =>
        simp only [FsOp.run, hput]
        exact hsame
      | some x =>
        simp only [FsOp.run, hput]
        exact hinv.put hput
    | populate ino digest directory =>
      show (FsOp.run (.populate ino digest directory) s).2.inodeTracker.Bounded ∧
        s.inodeTracker.SameSizes (FsOp.run (.populate ino digest directory) s).2.inodeTracker
      cases hpopulate : FsOp.populateTracker s.inodeTracker ino digest directory with
      | none =>
        simp only [FsOp.run, hpopulate]
        exact hsame
      | some x =>
        simp only [FsOp.run, hpopulate]
        exact hinv.populate hC hpopulate
    | getData ino => exact hsame
    | getRoot name => exact hsame
    | insertRoot name ino => exact hsame
    | newHandle => exact hsame
    | getHandle handle => exact hsame
    | setHandle handle i => exact hsame
    | removeHandle handle => exact hsame
    | addEntry call ino node written => exact hsame

-- ====================
-- What replies tell
-- ====================

/-- The callback accepts the entry that it is offered as the `n`-th one. -/
def Env.accepts (env : Env) (n : ℕ) : Bool :=
  match env.addEntry n with
  | .ok (_ + 1) => true
  | _ => false

/-- The entries that are accepted, where the first of them is the `n`-th one that is offered. -/
def Env.accepted {α : Type} (env : Env) : ℕ → List α → List α
  | _, [] => []
  | n, e :: rest =>
    if env.accepts n then e :: env.accepted (n + 1) rest else env.accepted (n + 1) rest

/-- The attributes in a reply. -/
def attrsTold : (Request × Env) × Reply → List (ℕ × Attr)
  | ((.getattr inode, _), .attr attr) => [(inode, attr)]
  | ((.lookup _ _, _), .entry e) => [(e.inode, e.attr)]
  | ((.readdirplus _ _ _, env), .listedPlus offered _) =>
    (env.accepted 0 offered).map fun e => (e.2.inode, e.2.attr)
  | _ => []

/-- Whenever the attributes of an inode are asked for, they are those in the first reply that told
    them. -/
def AttrsStable (results : List ((Request × Env) × Reply)) : Prop :=
  ∀ inode env attr, ((.getattr inode, env), .attr attr) ∈ results →
    ∀ first, (results.flatMap attrsTold).find? (fun x => x.1 = inode) = some (inode, first) →
      attr = first

section

variable (settings : FSSettings)

def attrOf (ino : ℕ) (m : UInt32 × UInt64) : Attr :=
  let (uid, gid) := settings.uidGidOverride.getD (0, 0)
  ⟨ino, m.2, 0, 1024, m.1, 1, uid, gid⟩

/-- The attributes of the root, or those with the mode and the size that are kept for the inode. -/
def HandedOut (x : ℕ × Attr) (s : SnixStoreFs) : Prop :=
  x.1 = ROOT_ID ∧ x.2 = ROOT_FILE_ATTR ∨ ∃ m, s.modeSize x.1 = some m ∧ x.2 = attrOf settings x.1 m

def TellsKept (input : Request × Env) (reply : Reply) (s : SnixStoreFs) : Prop :=
  ∀ x ∈ attrsTold (input, reply), HandedOut settings x s

end

variable {settings : FSSettings} {env : Env}

theorem inodeDataToAttr_eq (data : InodeData) (ino : ℕ) :
    SnixStoreFs.inodeDataToAttr settings data ino = attrOf settings ino data.modeSize := rfl

theorem HandedOut.later {x : ℕ × Attr} {s s' : SnixStoreFs} (hlater : fsRely.Later s s')
    (h : HandedOut settings x s) : HandedOut settings x s' := by
  obtain hroot | ⟨m, hm, hx⟩ := h
  · exact .inl hroot
  · exact .inr ⟨m, hlater _ m hm, hx⟩

theorem HandedOut.of_get {s : SnixStoreFs} {ino : ℕ} {data : InodeData}
    (h : s.inodeTracker.get ino = some data) :
    HandedOut settings (ino, SnixStoreFs.inodeDataToAttr settings data ino) s :=
  .inr ⟨data.modeSize, by rw [SnixStoreFs.modeSize, h]; rfl, inodeDataToAttr_eq data ino⟩

theorem lasting_tellsKept (input : Request × Env) :
    Task.Lasting fsRely (TellsKept settings input) :=
  fun _ _ _ hlater h x hx => (h x hx).later hlater

/-- A reply that tells no attributes. -/
theorem tellsKept_of_nil {input : Request × Env} {reply : Reply} {s : SnixStoreFs}
    (h : attrsTold (input, reply) = []) : TellsKept settings input reply s := by
  intro x hx
  rw [h] at hx
  cases hx

-- ====================
-- The tasks are safe
-- ====================

theorem safe_perform_bind {α : Type} {op : FsOp} {f : op.Res → FsTask α}
    {Q : α → SnixStoreFs → Prop} {s : SnixStoreFs}
    (h : ∀ s', SameAttrs op s' → (f (op.run s').1).Safe fsRely Q (op.run s').2) :
    ((FsTask.perform op).bind f).Safe fsRely Q s := fun s' _ _ hC => h s' hC

theorem safe_getattrTask (inode : ℕ) (s : SnixStoreFs) :
    (getattrTask settings inode).Safe fsRely (TellsKept settings (.getattr inode, env)) s := by
  unfold getattrTask
  split_ifs with hroot
  · intro x hx
    rw [List.mem_singleton.mp hx]
    exact .inl ⟨hroot, rfl⟩
  · apply safe_perform_bind
    intro s' _
    simp only [FsOp.run]
    cases hdata : s'.inodeTracker.get inode with
    | none => exact tellsKept_of_nil rfl
    | some data =>
      intro x hx
      rw [List.mem_singleton.mp hx]
      exact .of_get hdata

theorem safe_lookupTask (parent : ℕ) (name : Bytes) (s : SnixStoreFs) :
    (lookupTask settings env parent name).Safe fsRely
      (TellsKept settings (.lookup parent name, env)) s := by
  unfold lookupTask
  cases PathComponent.tryFrom name with
  | error e => exact tellsKept_of_nil rfl
  | ok name' =>
    refine (Task.safe_true (lookupInoTask env parent name') s).bind fun r s' _ => ?_
    cases r with
    | error e => exact tellsKept_of_nil rfl
    | ok ino =>
      apply safe_perform_bind
      intro s' _
      simp only [FsOp.run]
      cases hdata : s'.inodeTracker.get ino with
      | none => exact tellsKept_of_nil rfl
      | some data =>
        intro x hx
        rw [List.mem_singleton.mp hx]
        exact .of_get hdata

/-- The entries that are accepted have the attributes that are kept for their inodes. -/
def OffersKept (settings : FSSettings) (env : Env) (n : ℕ) (offered : List (DirEntry × Entry))
    (s : SnixStoreFs) : Prop :=
  ∀ e ∈ env.accepted n offered, HandedOut settings (e.2.inode, e.2.attr) s

theorem offersKept_nil (n : ℕ) (s : SnixStoreFs) : OffersKept settings env n [] s := by
  intro e he
  cases he

theorem OffersKept.cons {n : ℕ} {e : DirEntry × Entry} {offered : List (DirEntry × Entry)}
    {s : SnixStoreFs} (he : env.accepts n = true → HandedOut settings (e.2.inode, e.2.attr) s)
    (h : OffersKept settings env (n + 1) offered s) : OffersKept settings env n (e :: offered) s := by
  intro e' he'
  unfold Env.accepted at he'
  split_ifs at he' with haccepts
  · rcases List.mem_cons.mp he' with rfl | he'
    · exact he haccepts
    · exact h e' he'
  · exact h e' he'

/-- One entry of a listing with attributes, and what follows it. -/
theorem safe_addEntry_bind {β : Type} {offset : UInt64} {i ino n : ℕ} {name : PathComponent}
    {node : Node} {f : Except Unit ℕ → FsTask (List (DirEntry × Entry) × β)} {s : SnixStoreFs}
    {rest : FsTask (List (DirEntry × Entry) × β)} {b₁ b₂ : β}
    (hrest : ∀ s', rest.Safe fsRely (fun r s => OffersKept settings env (n + 1) r.1 s) s')
    (herror : ∀ e, f (.error e) =
      .done ([SnixStoreFs.listEntry settings offset i ino name node], b₁))
    (hfull : f (.ok 0) = .done ([SnixStoreFs.listEntry settings offset i ino name node], b₂))
    (hnext : ∀ written, f (.ok (written + 1)) = rest.bind fun r =>
      .done (SnixStoreFs.listEntry settings offset i ino name node :: r.1, r.2)) :
    ((FsTask.perform (.addEntry .readdirplus ino node (env.addEntry n))).bind f).Safe fsRely
      (fun r s => OffersKept settings env n r.1 s) s := by
  apply safe_perform_bind
  intro s' hC
  simp only [FsOp.run]
  cases hwritten : env.addEntry n with
  | error e =>
    rw [herror]
    refine OffersKept.cons (fun haccepts => ?_) (offersKept_nil _ _)
    rw [Env.accepts, hwritten] at haccepts
    cases haccepts
  | ok written =>
    cases written with
    | zero =>
      rw [hfull]
      refine OffersKept.cons (fun haccepts => ?_) (offersKept_nil _ _)
      rw [Env.accepts, hwritten] at haccepts
      cases haccepts
    | succ written =>
      rw [hwritten] at hC
      rw [hnext]
      have hentry : HandedOut settings
          (ino, SnixStoreFs.inodeDataToAttr settings (.fromNode node) ino) s' :=
        .inr ⟨(InodeData.fromNode node).modeSize, hC, inodeDataToAttr_eq _ ino⟩
      exact ((hrest s').frame (fun _ _ hlater h => h.later hlater) hentry).bind fun r s'' h =>
        OffersKept.cons (fun _ => h.2) h.1

theorem safe_listRootTask (itemError : FsError) (offset : UInt64) (i n : ℕ)
    (items : List (Except Unit (PathComponent × Node))) (s : SnixStoreFs) :
    (listRootTask settings env .readdirplus itemError offset i n items).Safe fsRely
      (fun r s => OffersKept settings env n r.1 s) s := by
  induction items generalizing i n s with
  | nil => exact offersKept_nil n s
  | cons item rest ih =>
    cases item with
    | error e => exact offersKept_nil n s
    | ok x =>
      obtain ⟨name, node⟩ := x
      unfold listRootTask
      refine (Task.safe_true (rootInoTask name node) s).bind fun r s' _ => ?_
      cases r with
      | none => exact offersKept_nil n s'
      | some ino =>
        exact safe_addEntry_bind (ih (i + 1) (n + 1)) (fun e => rfl) rfl fun written => rfl

theorem safe_listChildrenTask (offset : UInt64) (i : ℕ)
    (children : List (ℕ × PathComponent × Node)) (s : SnixStoreFs) :
    (listChildrenTask settings env .readdirplus offset i children).Safe fsRely
      (fun r s => OffersKept settings env i r.1 s) s := by
  induction children generalizing i s with
  | nil => exact offersKept_nil i s
  | cons child rest ih =>
    obtain ⟨ino, name, node⟩ := child
    unfold listChildrenTask
    exact safe_addEntry_bind (ih (i + 1)) (fun e => rfl) rfl fun written => rfl

theorem safe_listTask (itemError : FsError) (inode handle : ℕ) (offset : UInt64) (s : SnixStoreFs) :
    (listTask settings env .readdirplus itemError inode handle offset).Safe fsRely
      (fun r s => OffersKept settings env 0 r.1 s) s := by
  unfold listTask
  split_ifs
  · apply safe_perform_bind
    intro s' _
    simp only [FsOp.run]
    cases s'.dirHandles handle with
    | none => exact offersKept_nil 0 s'
    | some i =>
      refine (safe_listRootTask itemError offset i 0 env.next s').bind fun r s'' h => ?_
      have hkept := (Task.safe_true (FsTask.perform (.setHandle handle r.2.2)) s'').frame
        (fun _ _ hlater h e he => (h e he).later hlater) h
      exact hkept.bind fun _ _ h => h.2
  · exact offersKept_nil 0 s
  · refine (Task.safe_true (getDirectoryChildrenTask env inode) s).bind fun r s' _ => ?_
    cases r with
    | error e => exact offersKept_nil 0 s'
    | ok children => exact safe_listChildrenTask offset 0 _ s'

theorem tellsKept_task (settings : FSSettings) (input : Request × Env) (s : SnixStoreFs) :
    (task settings input).Safe fsRely (TellsKept settings input) s := by
  obtain ⟨request, env⟩ := input
  cases request with
  | getattr inode => exact safe_getattrTask inode s
  | lookup parent name => exact safe_lookupTask parent name s
  | opendir inode =>
    refine (Task.safe_true (opendirTask settings inode) s).mono fun reply s' _ => ?_
    exact tellsKept_of_nil (by cases reply <;> rfl)
  | readdir inode handle offset =>
    exact (Task.safe_true (listTask settings env .readdir .eio inode handle offset) s).bind
      fun _ _ _ => tellsKept_of_nil rfl
  | readdirplus inode handle offset =>
    refine (safe_listTask .eperm inode handle offset s).bind fun r s' h x hx => ?_
    obtain ⟨e, he, rfl⟩ := List.mem_map.mp hx
    exact h e he
  | releasedir inode handle =>
    refine (Task.safe_true (releasedirTask inode handle) s).mono fun reply s' _ => ?_
    exact tellsKept_of_nil (by cases reply <;> rfl)

/-- Two replies that tell attributes of one inode tell the same. -/
theorem HandedOut.unique {s : SnixStoreFs} (hinv : s.inodeTracker.Bounded) {ino : ℕ}
    {attr attr' : Attr} (h : HandedOut settings (ino, attr) s) (h' : HandedOut settings (ino, attr') s) :
    attr = attr' := by
  have hroot : ∀ m, s.modeSize ino = some m → ino ≠ ROOT_ID := by
    rintro m hm rfl
    obtain ⟨data, hdata, -⟩ := Option.map_eq_some_iff.mp hm
    have hbounds := (hinv.bounds _ data hdata).1
    unfold ROOT_ID at hbounds
    omega
  obtain ⟨hino, hattr⟩ | ⟨m, hm, hattr⟩ := h
  · obtain ⟨-, hattr'⟩ | ⟨m, hm, -⟩ := h'
    · exact hattr.trans hattr'.symm
    · exact absurd hino (hroot m hm)
  · obtain ⟨hino, -⟩ | ⟨m', hm', hattr'⟩ := h'
    · exact absurd hino (hroot m hm)
    · have hsame : m = m' := Option.some.inj (hm.symm.trans hm')
      exact hattr.trans (hsame ▸ hattr'.symm)

theorem bounded_new : SnixStoreFs.new.inodeTracker.Bounded where
  bounds ino data h := by cases h
  room := Nat.le_refl 2

/-- In every run whose sections meet the condition, the attributes of an inode are the same whenever
    they are asked for as when they were first told. -/
theorem attrs_stable (settings : FSSettings) (moves : List (Move (Request × Env)))
    (hmeet : (Threads.initial SnixStoreFs.new).AllMeet (task settings) SameAttrs moves) :
    AttrsStable ((Threads.initial SnixStoreFs.new).run (task settings) moves).results := by
  have hwell := Threads.run_safe lasting_tellsKept (tellsKept_task settings)
    (Threads.well_initial bounded_new) hmeet
  intro inode env attr hmem first hfirst
  obtain ⟨input, hinput, htold⟩ := List.mem_flatMap.mp (List.mem_of_find?_eq_some hfirst)
  have hnow := hwell.results _ hmem (inode, attr) List.mem_cons_self
  have hthen := hwell.results _ hinput (inode, first) htold
  exact hnow.unique hwell.inv hthen

-- ====================
-- A directory in a directory
-- ====================

/-- A root node that is a directory with one directory in it. -/
def nestedEnv (childSize : UInt64) : Env where
  getByBasename name :=
    .ok (if name = SnixStoreFs.nameA then
      some (.directory (List.Vector.replicate 32 1) (1 + childSize)) else none)
  get _ := .ok (some ⟨SortedMap.empty.insert SnixStoreFs.nameB
    (.directory (List.Vector.replicate 32 2) childSize)⟩)
  next := []
  addEntry _ := .ok 1

/-- The directory is looked up, the one in it is looked up, and the attributes of the first are asked
    for. -/
def nestedMoves (childSize : UInt64) : List (Move (Request × Env)) :=
  .start 0 (.lookup ROOT_ID SnixStoreFs.nameA.val, nestedEnv childSize) ::
      List.replicate 5 (.advance 0) ++
    .start 0 (.lookup 2 SnixStoreFs.nameB.val, nestedEnv childSize) ::
      List.replicate 4 (.advance 0) ++
    .start 0 (.getattr 2, nestedEnv childSize) :: List.replicate 2 (.advance 0)

/-- A directory with one directory that is empty has the size 1, and one entry. -/
theorem allMeet_nested : (Threads.initial SnixStoreFs.new).AllMeet (task ⟨false, none⟩) SameAttrs
    (nestedMoves 0) := by
  repeat' apply And.intro
  all_goals try trivial
  all_goals
    intro input op k h
    cases h <;> trivial

theorem attrs_stable_nested :
    AttrsStable ((Threads.initial SnixStoreFs.new).run (task ⟨false, none⟩) (nestedMoves 0)).results :=
  attrs_stable ⟨false, none⟩ (nestedMoves 0) allMeet_nested

/-- The size of a directory is 4 before it is fetched, and 1 after that. -/
theorem attrs_changed :
    ¬ AttrsStable ((Threads.initial SnixStoreFs.new).run (task ⟨false, none⟩)
      (nestedMoves 3)).results := by
  intro h
  have hresults : ((Threads.initial SnixStoreFs.new).run (task ⟨false, none⟩) (nestedMoves 3)).results =
      [((.lookup ROOT_ID SnixStoreFs.nameA.val, nestedEnv 3),
          .entry ⟨2, attrOf ⟨false, none⟩ 2 (S_IFDIR ||| 0x16D, 4)⟩),
        ((.lookup 2 SnixStoreFs.nameB.val, nestedEnv 3),
          .entry ⟨3, attrOf ⟨false, none⟩ 3 (S_IFDIR ||| 0x16D, 3)⟩),
        ((.getattr 2, nestedEnv 3), .attr (attrOf ⟨false, none⟩ 2 (S_IFDIR ||| 0x16D, 1)))] := rfl
  rw [hresults] at h
  have hsame := h 2 (nestedEnv 3) (attrOf ⟨false, none⟩ 2 (S_IFDIR ||| 0x16D, 1))
    (List.mem_cons_of_mem _ (List.mem_cons_of_mem _ List.mem_cons_self))
    (attrOf ⟨false, none⟩ 2 (S_IFDIR ||| 0x16D, 4)) rfl
  revert hsame
  decide

end Snix.Castore.Fs
