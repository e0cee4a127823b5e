import Snix.Castore.BlobService.ObjectStore
import Snix.Castore.DirectoryService.Cache
import Snix.Castore.Proto
import Snix.Lib.Frames

/-!
# Directories in an object store

A closure of directories is one object: the messages from the root to the leaves, each
with its length, compressed. It is found under the digest of the root, and nothing else
of it can be asked for. Whoever reads it checks every message before it is decoded.

## Main definitions

- `getRecursive` — the directories of a closure that is read
- `Phase`, `step` — a putter of directories, which first asks whether the closure is there
- `System` — the store, and any number of putters

## Main results

- `getRecursive_verified` — whatever the store contains, what is read belongs to the root
- `closures_whole` — what putters store, in any order of their steps, is read as it was put
-/

namespace Snix.Castore.ObjectStoreDirectoryService

open ObjectStore (ObjectPath Objects)

open Cache (ClosureOf closureOf_of_complete)

/-- The hash function, the encoding of messages, and the compression, which gives some bytes and
    whether there was an error after them. -/
structure Codec where
  hash : Bytes → B3Digest
  encode : Proto.Directory → Bytes
  decode : Bytes → Option Proto.Directory
  compress : Bytes → Bytes
  decompress : Bytes → Bytes × Bool

inductive Error where
  /-- put() may only be used for directories without children. -/
  | putForDirectoryWithChildren
  /-- Directory Graph ordering error. -/
  | directoryOrdering (e : OrderingError)
  /-- Requested directory has unexpected digest. -/
  | unexpectedDigest (digest : B3Digest)
  /-- Failed to decode protobuf. -/
  | protobufDecode
  /-- Failed to validate directory. -/
  | directoryValidation (e : DirectoryError)
  | objectStore
  | io
  | panic (message : String)

def deriveDirsPath (basePath : ObjectPath) (digest : B3Digest) : ObjectPath :=
  basePath ++ [ascii "dirs", ascii "b3", hexEncode (digest.val.take 2), hexEncode digest.val]

theorem deriveDirsPath_injective (basePath : ObjectPath) :
    Function.Injective (deriveDirsPath basePath) := by
  intro d d' h
  have h := List.append_cancel_left h
  simp only [List.cons.injEq, true_and, and_true] at h
  exact Subtype.ext (hexEncode_injective h.2)

def MAX_FRAME_LENGTH : ℕ := 1 * 1024 * 1024 * 1000

theorem maxFrameLength_lt : MAX_FRAME_LENGTH < 2 ^ 32 := by decide

/-- A call that checks the order of directories. -/
def ordering {α : Type} : Except Fault α → Except Error α
  | .ok a => .ok a
  | .error (.error e) => .error (.directoryOrdering e)
  | .error (.panic message) => .error (.panic message)

/-- Is the digest that of the root, or was it introduced? -/
def wouldAccept (v : RootToLeavesValidator) (digest : B3Digest) : Bool :=
  digest = v.rootDigest || (v.referencedDirectories.lookup digest).isSome

section

variable (codec : Codec)

def encoded (directory : Directory) : Bytes := codec.encode (.ofDirectory directory)

/-- The digest of a directory is that of its message. -/
def digest (directory : Directory) : B3Digest := codec.hash (encoded codec directory)

/-- Parses a message if its digest is allowed. -/
def parseProtoDirectory (encodedDirectory : Bytes) (digestAllowed : B3Digest → Bool) :
    Except Error Directory :=
  if digestAllowed (codec.hash encodedDirectory) then
    match codec.decode encodedDirectory with
    | none => .error .protobufDecode
    | some directoryProto =>
      match directoryProto.tryFrom with
      | .error e => .error (.directoryValidation e)
      | .ok directory => .ok directory
  else .error (.unexpectedDigest (codec.hash encodedDirectory))

end

-- ====================
-- Reading
-- ====================

/-- How a request goes: whether the store answers, and how many bytes arrive before the connection
    breaks off, if it does. -/
structure Response where
  reachable : Bool
  breaksOff : Option ℕ

section

variable (codec : Codec) (checks : Bool) (basePath : ObjectPath)

/-- One message of a closure. -/
def receiveOne (v : RootToLeavesValidator) (encodedDirectory : Bytes) :
    Except Error (Directory × RootToLeavesValidator) := do
  let directory ← parseProtoDirectory codec encodedDirectory (wouldAccept v)
  let v ← ordering (v.tryAccept (digest codec) checks directory)
  return (directory, v)

/-- The directories that are yielded, and how the stream ends. -/
def receive (ends : Except Error Unit) :
    RootToLeavesValidator → List Bytes → List Directory × Except Error Unit
  | v, [] => ([], do ends; ordering v.finalize)
  | v, encodedDirectory :: frames =>
    match receiveOne codec checks v encodedDirectory with
    | .error e => ([], .error e)
    | .ok (directory, v) =>
      (directory :: (receive ends v frames).1, (receive ends v frames).2)

/-- The bytes of an object that arrive, and whether they end without an error. -/
def body (raw : Bytes) (r : Response) : Bytes × Bool :=
  match r.breaksOff with
  | none => codec.decompress raw
  | some n => ((codec.decompress raw).1.take n, false)

def getRecursive (objects : Objects) (rootDirectoryDigest : B3Digest) (r : Response) :
    List Directory × Except Error Unit :=
  if r.reachable then
    match objects (deriveDirsPath basePath rootDirectoryDigest) with
    | none => ([], .ok ())
    | some raw =>
      let (bytes, whole) := body codec raw r
      let (frames, e) := readFrames MAX_FRAME_LENGTH bytes
      receive codec checks (if whole ∧ e = .clean then .ok () else .error .io)
        (.newWithRootDigest rootDirectoryDigest) frames
  else ([], .error .objectStore)

/-- The first directory of the stream. -/
def get (objects : Objects) (digest : B3Digest) (r : Response) : Except Error (Option Directory) :=
  match getRecursive codec checks basePath objects digest r with
  | (directory :: _, _) => .ok (some directory)
  | ([], .ok ()) => .ok none
  | ([], .error e) => .error e

end

-- ====================
-- Writing
-- ====================

/-- A putter: not started, collecting directories, uploading a graph, or closed. A putter is dropped
    after its first error. -/
inductive Phase where
  | idle
  | collecting (builder : DirectoryGraphBuilder)
  | uploading (graph : DirectoryGraph)
  | closed (result : Except Error B3Digest)

inductive Action where
  | putMultipleStart
  /-- The start of `put`, for a single directory. -/
  | putSingle (directory : Directory)
  | put (directory : Directory)
  /-- The first half of `close`: is the closure there? -/
  | head (reachable : Bool)
  /-- The second half of `close`: the closure is uploaded. -/
  | upload (outcome : PutOutcome)

section

variable (codec : Codec) (checks debug : Bool) (basePath : ObjectPath)
  (bfs dfsPostOrder : DiGraph Directory → ℕ → List ℕ)

def insert (builder : DirectoryGraphBuilder) (directory : Directory) : Phase :=
  match ordering (builder.tryInsert (digest codec) checks directory) with
  | .ok builder => .collecting builder
  | .error e => .closed (.error e)

def rootDigest (graph : DirectoryGraph) : Except Error B3Digest :=
  match graph.root with
  | none => .error (.panic "Snix bug: root not found")
  | some root => .ok (digest codec root)

/-- The object for a graph. -/
def contents (graph : DirectoryGraph) : Except Error Bytes :=
  match graph.drain bfs dfsPostOrder .rootToLeaves with
  | none => .error (.panic "Snix bug: node not found")
  | some directories =>
    match writeFrames MAX_FRAME_LENGTH (directories.map (encoded codec)) with
    | none => .error .io
    | some bytes => .ok (codec.compress bytes)

/-- Whether there is a closure to upload. -/
def closeHead (objects : Objects) (builder : DirectoryGraphBuilder) (reachable : Bool) :
    Except Error Phase := do
  let graph ← ordering (builder.build (digest codec) debug)
  let k ← rootDigest codec graph
  if reachable then
    match objects (deriveDirsPath basePath k) with
    | some _ => return .closed (.ok k)
    | none => return .uploading graph
  else .error .objectStore

def closeUpload (graph : DirectoryGraph) : Except Error (B3Digest × Bytes) := do
  let k ← rootDigest codec graph
  let raw ← contents codec bfs dfsPostOrder graph
  return (k, raw)

/-- One step of a putter; none if it is not the time for it. -/
def step (objects : Objects) : Phase → Action → Option (Objects × Phase)
  | .idle, .putMultipleStart => some (objects, .collecting .newLeavesToRoot)
  | .idle, .putSingle directory =>
    if directory.children ≠ [] then some (objects, .closed (.error .putForDirectoryWithChildren))
    else some (objects, insert codec checks .newLeavesToRoot directory)
  | .collecting builder, .put directory => some (objects, insert codec checks builder directory)
  | .collecting builder, .head reachable =>
    match closeHead codec debug basePath objects builder reachable with
    | .error e => some (objects, .closed (.error e))
    | .ok phase => some (objects, phase)
  | .uploading graph, .upload outcome =>
    match closeUpload codec bfs dfsPostOrder graph with
    | .error e => some (objects, .closed (.error e))
    | .ok (k, raw) =>
      some (objects.put (deriveDirsPath basePath k) raw outcome,
        .closed (if outcome = .stored then .ok k else .error .objectStore))
  | _, _ => none

/-- The directory that is put by an action. -/
def Action.directory? : Action → Option Directory
  | .putSingle directory => some directory
  | .put directory => some directory
  | _ => none

/-- The store, the putters, and what each of them was given so far. -/
structure System (ι : Type) where
  objects : Objects
  phases : ι → Phase
  puts : ι → List Directory

namespace System

variable {ι : Type} [DecidableEq ι]

def start : System ι := ⟨fun _ => none, fun _ => .idle, fun _ => []⟩

/-- One of the putters takes a step. -/
def step (s : System ι) (i : ι) (a : Action) : Option (System ι) := do
  let (objects, phase) ← ObjectStoreDirectoryService.step codec checks debug basePath bfs dfsPostOrder
    s.objects (s.phases i) a
  return ⟨objects, Function.update s.phases i phase,
    Function.update s.puts i (s.puts i ++ a.directory?.toList)⟩

/-- The directories that are put are those of a world, and can be encoded. -/
def Within (world : DigestMap Directory) (a : Action) : Prop :=
  ∀ d, a.directory? = some d → world.lookup (digest codec d) = some d ∧ d.total < 2 ^ 64

/-- The steps of the putters, in any order. -/
def Reaches (world : DigestMap Directory) : System ι → System ι → Prop :=
  Relation.ReflTransGen fun s s' => ∃ i a, Within codec world a ∧
    step codec checks debug basePath bfs dfsPostOrder s i a = some s'

end System

end

-- ====================
-- What is read belongs to the root
-- ====================

section

variable {codec : Codec} {checks : Bool} {v v' : RootToLeavesValidator} {d : Directory}
  {ends : Except Error Unit} {frames : List Bytes}

theorem ordering_eq_ok {α : Type} {x : Except Fault α} {a : α} : ordering x = .ok a ↔ x = .ok a := by
  cases x with
  | ok b => simp [ordering]
  | error e => cases e <;> simp [ordering]

theorem receiveOne_eq_ok {encodedDirectory : Bytes}
    (h : receiveOne codec checks v encodedDirectory = .ok (d, v')) :
    v.tryAccept (digest codec) checks d = .ok v' := by
  unfold receiveOne at h
  cases hparse : parseProtoDirectory codec encodedDirectory (wouldAccept v) with
  | error e =>
    rw [hparse] at h
    cases h
  | ok d' =>
    rw [hparse] at h
    cases haccept : ordering (v.tryAccept (digest codec) checks d') with
    | error e =>
      simp only [bind, Except.bind, haccept] at h
      cases h
    | ok v₁ =>
      simp only [bind, Except.bind, haccept] at h
      cases h
      exact ordering_eq_ok.mp haccept

/-- What is yielded was accepted, one after the other. -/
theorem receive_accepts (ends : Except Error Unit) (v : RootToLeavesValidator) (frames : List Bytes) :
    ∃ v', (receive codec checks ends v frames).1.foldlM
        (RootToLeavesValidator.tryAccept (digest codec) checks) v = .ok v' ∧
      ((receive codec checks ends v frames).2 = .ok () → v'.finalize = .ok ()) := by
  induction frames generalizing v with
  | nil =>
    refine ⟨v, rfl, fun h => ?_⟩
    cases ends with
    | error e => cases h
    | ok u => exact ordering_eq_ok.mp h
  | cons frame frames ih =>
    rw [receive]
    cases hone : receiveOne codec checks v frame with
    | error e => exact ⟨v, rfl, fun h => by cases h⟩
    | ok x =>
      obtain ⟨d, v₁⟩ := x
      obtain ⟨v', hrun, hend⟩ := ih v₁
      refine ⟨v', ?_, hend⟩
      rw [List.foldlM_cons, receiveOne_eq_ok hone]
      exact hrun

/-- Whatever is in the store: every directory that is yielded is the root, or was claimed by one
    before it, with the size claimed last. A stream that ends without an error is empty because there
    is no such closure, or complete. -/
theorem getRecursive_verified (codec : Codec) (checks : Bool) (basePath : ObjectPath)
    (objects : Objects) (root : B3Digest) (r : Response)
    (hfree : (Directory.merkle (digest codec) checks).CollisionFree
      (getRecursive codec checks basePath objects root r).1) :
    (Directory.merkle (digest codec) checks).TopDown root
        (getRecursive codec checks basePath objects root r).1 ∧
      ((getRecursive codec checks basePath objects root r).2 = .ok () →
        objects (deriveDirsPath basePath root) = none ∧
            (getRecursive codec checks basePath objects root r).1 = [] ∨
          (Directory.merkle (digest codec) checks).Complete root
            (getRecursive codec checks basePath objects root r).1) ∧
      ∀ d, get codec checks basePath objects root r = .ok (some d) → digest codec d = root := by
  have htop : (Directory.merkle (digest codec) checks).TopDown root
        (getRecursive codec checks basePath objects root r).1 ∧
      ((getRecursive codec checks basePath objects root r).2 = .ok () →
        objects (deriveDirsPath basePath root) = none ∧
            (getRecursive codec checks basePath objects root r).1 = [] ∨
          (Directory.merkle (digest codec) checks).Complete root
            (getRecursive codec checks basePath objects root r).1) := by
    unfold getRecursive at hfree ⊢
    by_cases hreach : r.reachable = true
    · rw [if_pos hreach] at hfree ⊢
      cases hobject : objects (deriveDirsPath basePath root) with
      | none => exact ⟨along_nil, fun _ => .inl ⟨rfl, rfl⟩⟩
      | some raw =>
        simp only [hobject] at hfree ⊢
        obtain ⟨v', hrun, hend⟩ := receive_accepts _ _ _
        obtain ⟨htop, hinv⟩ := (RootToLeavesValidator.decides hfree).inv_of_run
          RootToLeavesValidator.inv_new hrun
        exact ⟨htop, fun hok => .inr
          ((RootToLeavesValidator.finalize_iff hinv).mp ⟨(), hend hok⟩)⟩
    · rw [if_neg hreach]
      exact ⟨along_nil, fun h => by cases h⟩
  refine ⟨htop.1, htop.2, fun d hget => ?_⟩
  unfold get at hget
  split at hget
  · next directory rest e hyield =>
    cases hget
    have hfirst := htop.1
    rw [hyield] at hfirst
    obtain ⟨s, -, hlast | ⟨-, hroot⟩⟩ := hfirst [] d rest rfl
    · cases hlast
    · exact hroot
  · cases hget
  · cases hget

end

section

/-- An encoding that tells the empty directory from any other. -/
def fixtureCodec : Codec where
  hash b := if b = [] then DIRECTORY_A_DIGEST else DIRECTORY_B_DIGEST
  encode p := if p.directories.isEmpty then [] else [1]
  decode b := if b = [] then some (.ofDirectory DIRECTORY_A) else some (.ofDirectory DIRECTORY_B)
  compress b := b
  decompress b := (b, true)

theorem addressed_fixtureCodec :
    Addressed (digest fixtureCodec) (storeOf DIRECTORY_B_DIGEST DIRECTORY_B) :=
  addressed_storeOf rfl rfl (by decide) fun child hchild => by
    cases List.mem_singleton.mp hchild
    rfl

/-- The object of a closure whose second directory is cut off. -/
def cutObject : Bytes := [0, 0, 0, 1, 1] ++ [0, 0]

theorem getRecursive_cutObject :
    (getRecursive fixtureCodec true [] (fun _ => some cutObject) DIRECTORY_B_DIGEST ⟨true, none⟩).1 =
      [DIRECTORY_B] := by
  have hframe : writeFrame MAX_FRAME_LENGTH [1] = some [0, 0, 0, 1, 1] := by decide
  have hrest : readFrames MAX_FRAME_LENGTH [0, 0] = ([], .trailing) := by
    rw [readFrames]
    rfl
  have hread : readFrames MAX_FRAME_LENGTH cutObject = ([[1]], .trailing) := by
    rw [cutObject, readFrames_append maxFrameLength_lt hframe, hrest]
  have hbody : body fixtureCodec cutObject ⟨true, none⟩ = (cutObject, true) := rfl
  simp only [getRecursive, if_true, hbody, hread]
  rfl

theorem getRecursive_verified_cut :
    (Directory.merkle (digest fixtureCodec) true).TopDown DIRECTORY_B_DIGEST [DIRECTORY_B] := by
  have hfree : (Directory.merkle (digest fixtureCodec) true).CollisionFree [DIRECTORY_B] := by
    refine addressed_fixtureCodec.collisionFree fun d hd => ?_
    rw [List.mem_singleton.mp hd]
    rfl
  have h := getRecursive_verified fixtureCodec true [] (fun _ => some cutObject) DIRECTORY_B_DIGEST
    ⟨true, none⟩ (getRecursive_cutObject ▸ hfree)
  rw [getRecursive_cutObject] at h
  exact h.1

end

-- ====================
-- What is stored is read as it was put
-- ====================

/-- What was compressed is decompressed, and the messages of a world are decoded. -/
structure Codec.Lawful (codec : Codec) (world : DigestMap Directory) : Prop where
  decompress_compress : ∀ bytes, codec.decompress (codec.compress bytes) = (bytes, true)
  decode_encode : ∀ k d, world.lookup k = some d →
    codec.decode (encoded codec d) = some (.ofDirectory d)

/-- A directory of a world that can be encoded. -/
def Good (codec : Codec) (world : DigestMap Directory) (d : Directory) : Prop :=
  world.lookup (digest codec d) = some d ∧ d.total < 2 ^ 64

/-- The object is the closure of the digest. -/
def IsClosure (codec : Codec) (checks : Bool) (world : DigestMap Directory) (k : B3Digest)
    (raw : Bytes) (directories : List Directory) : Prop :=
  (∃ bytes, writeFrames MAX_FRAME_LENGTH (directories.map (encoded codec)) = some bytes ∧
    raw = codec.compress bytes) ∧
  (∀ d ∈ directories, Good codec world d) ∧ ClosureOf (digest codec) world k directories ∧
  ∃ v, RootToLeavesValidator.acceptAll (digest codec) checks k directories = .ok v ∧
    v.finalize = .ok ()

section

variable {codec : Codec} {checks debug : Bool} {basePath : ObjectPath}
  {bfs dfsPostOrder : DiGraph Directory → ℕ → List ℕ} {world : DigestMap Directory}
  {v v' : RootToLeavesValidator} {d : Directory} {k : B3Digest} {directories : List Directory}

theorem wouldAccept_of_tryAccept (h : v.tryAccept (digest codec) checks d = .ok v') :
    wouldAccept v (digest codec d) = true := by
  unfold RootToLeavesValidator.tryAccept at h
  unfold wouldAccept
  cases hsize : d.sizeOrPanic checks with
  | error e =>
    rw [hsize] at h
    cases h
  | ok size =>
    rw [hsize] at h
    dsimp only [bind, Except.bind] at h
    cases hlookup : v.referencedDirectories.lookup (digest codec d) with
    | some s => simp
    | none =>
      rw [hlookup] at h
      dsimp only at h
      split_ifs at h with hroot
      simp [hroot]

theorem receiveOne_encoded (hlaw : codec.Lawful world) (hgood : Good codec world d)
    (h : v.tryAccept (digest codec) checks d = .ok v') :
    receiveOne codec checks v (encoded codec d) = .ok (d, v') := by
  have hparse : parseProtoDirectory codec (encoded codec d) (wouldAccept v) = .ok d := by
    have htry := (Proto.Directory.tryFrom_ofDirectory_iff d).mpr hgood.2
    have hallowed : wouldAccept v (codec.hash (encoded codec d)) = true := wouldAccept_of_tryAccept h
    rw [parseProtoDirectory, if_pos hallowed, hlaw.decode_encode _ d hgood.1]
    simp only [htry]
  rw [receiveOne, hparse]
  dsimp only [bind, Except.bind]
  rw [h]
  rfl

/-- Directories that are accepted are yielded. -/
theorem receive_encoded (hlaw : codec.Lawful world) (hgood : ∀ d ∈ directories, Good codec world d)
    (h : directories.foldlM (RootToLeavesValidator.tryAccept (digest codec) checks) v = .ok v')
    (ends : Except Error Unit) :
    receive codec checks ends v (directories.map (encoded codec)) =
      (directories, do ends; ordering v'.finalize) := by
  induction directories generalizing v with
  | nil =>
    cases h
    rfl
  | cons d directories ih =>
    rw [List.foldlM_cons] at h
    cases hone : v.tryAccept (digest codec) checks d with
    | error e =>
      rw [hone] at h
      cases h
    | ok v₁ =>
      rw [hone] at h
      have hrest := ih (fun d' hd' => hgood d' (List.mem_cons_of_mem d hd')) h
      rw [List.map_cons, receive, receiveOne_encoded hlaw (hgood d List.mem_cons_self) hone]
      dsimp only
      rw [hrest]

/-- The directories of a prefix of the frames are yielded. -/
theorem receive_of_isPrefix (hlaw : codec.Lawful world) (hgood : ∀ d ∈ directories, Good codec world d)
    (h : directories.foldlM (RootToLeavesValidator.tryAccept (digest codec) checks) v = .ok v')
    {frames : List Bytes} (hframes : frames <+: directories.map (encoded codec))
    (ends : Except Error Unit) : (receive codec checks ends v frames).1 <+: directories := by
  obtain ⟨rest, hrest⟩ := hframes
  obtain ⟨before, after, rfl, rfl, -⟩ := List.map_eq_append_iff.mp hrest.symm
  rw [List.foldlM_append] at h
  cases hbefore : before.foldlM (RootToLeavesValidator.tryAccept (digest codec) checks) v with
  | error e =>
    rw [hbefore] at h
    cases h
  | ok v₁ =>
    rw [receive_encoded hlaw (fun d hd => hgood d (List.mem_append_left after hd)) hbefore]
    exact List.prefix_append before after

/-- A closure that is stored is read. -/
theorem getRecursive_closure (hlaw : codec.Lawful world) {objects : Objects} {raw : Bytes}
    (hobject : objects (deriveDirsPath basePath k) = some raw)
    (hclosure : IsClosure codec checks world k raw directories) (r : Response) :
    (getRecursive codec checks basePath objects k r).1 <+: directories ∧
      (r = ⟨true, none⟩ →
        getRecursive codec checks basePath objects k r = (directories, .ok ())) := by
  obtain ⟨⟨bytes, hbytes, rfl⟩, hgood, -, v', hrun, hend⟩ := hclosure
  have hread := readFrames_writeFrames maxFrameLength_lt hbytes
  rw [getRecursive, hobject]
  obtain ⟨reachable, breaksOff⟩ := r
  cases reachable with
  | false => exact ⟨List.nil_prefix, fun h => by cases h⟩
  | true =>
    cases breaksOff with
    | none =>
      have hall := receive_encoded hlaw hgood hrun (.ok ())
      simp only [if_true, body, hlaw.decompress_compress, hread, and_self, hall, hend]
      exact ⟨List.prefix_rfl, fun _ => rfl⟩
    | some n =>
      simp only [if_true, body, hlaw.decompress_compress]
      exact ⟨receive_of_isPrefix hlaw hgood hrun (readFrames_take maxFrameLength_lt hbytes n) _,
        fun h => by cases h⟩

/-- A graph of directories of a world is the closure of its root. -/
theorem closure_of_build (haddr : Addressed (digest codec) world)
    (hbfs : ∀ g : DiGraph Directory, g.Acyclic → ∀ root, g.IsSearch root (bfs g root))
    (hdfs : ∀ g : DiGraph Directory, g.Acyclic → ∀ root, g.IsPostOrder root (dfsPostOrder g root))
    (hgood : ∀ d ∈ directories, Good codec world d) {g : DirectoryGraph}
    (hok : (DirectoryGraphBuilder.newLeavesToRoot.insertAll (digest codec) checks directories >>=
      DirectoryGraphBuilder.build (digest codec) debug) = .ok g) :
    ∃ root out, g.root = some root ∧ g.drain bfs dfsPostOrder .rootToLeaves = some out ∧
      (∀ d, d ∈ out ↔ d ∈ directories) ∧ ClosureOf (digest codec) world (digest codec root) out ∧
      ∃ v, RootToLeavesValidator.acceptAll (digest codec) checks (digest codec root) out = .ok v ∧
        v.finalize = .ok () := by
  have hfree := @Addressed.collisionFree _ checks _ _ haddr fun d hd => (hgood d hd).1
  have hacyclic : g.graph.Acyclic := by
    obtain ⟨b, hinv, hgraph, -⟩ := DirectoryGraphBuilder.of_build hfree (.inl rfl) hok
    rw [hgraph]
    exact hinv.acyclic hfree
  obtain ⟨-, -, out, root, hdrain, hroot, hnodup, hmem, u, haccept⟩ :=
    DirectoryGraphBuilder.drain_valid (digest codec) checks debug bfs dfsPostOrder _ (.inl rfl)
      directories hfree g hok (hbfs _ hacyclic _) (hdfs _ hacyclic _)
  have hsub : out ⊆ directories := fun d hd => (hmem d).mp hd
  have hfree' := hfree.of_subset hsub
  obtain ⟨htop, hcomplete⟩ := (RootToLeavesValidator.accepts_iff hfree').mp ⟨u, haccept⟩
  refine ⟨root, out, hroot, hdrain, hmem, closureOf_of_complete
    (fun d hd => (hgood d (hsub hd)).1) ?_ htop.rooted hcomplete, ?_⟩
  · exact List.Nodup.map_on (fun a ha b hb => hfree'.injective a ha b hb) hnodup
  · cases hall : RootToLeavesValidator.acceptAll (digest codec) checks (digest codec root) out with
    | error e =>
      rw [hall] at haccept
      cases haccept
    | ok v =>
      rw [hall] at haccept
      exact ⟨v, rfl, haccept⟩

/-- Every object is the closure of its digest. -/
def StoreInv (codec : Codec) (checks : Bool) (basePath : ObjectPath) (world : DigestMap Directory)
    (objects : Objects) : Prop :=
  ∀ k raw, objects (deriveDirsPath basePath k) = some raw →
    ∃ directories, IsClosure codec checks world k raw directories

/-- A putter has what it was given. When it is closed without an error, the closure is there, and
    consists of just that. -/
def PhaseInv (codec : Codec) (checks debug : Bool) (basePath : ObjectPath)
    (world : DigestMap Directory) (objects : Objects) (puts : List Directory) : Phase → Prop
  | .idle => puts = []
  | .collecting builder =>
    DirectoryGraphBuilder.newLeavesToRoot.insertAll (digest codec) checks puts = .ok builder
  | .uploading graph =>
    (DirectoryGraphBuilder.newLeavesToRoot.insertAll (digest codec) checks puts >>=
      DirectoryGraphBuilder.build (digest codec) debug) = .ok graph
  | .closed (.ok k) => (objects (deriveDirsPath basePath k)).isSome ∧
    ∀ d, d ∈ puts ↔ world.lookup (digest codec d) = some d ∧ Castore.Reaches world k (digest codec d)
  | .closed (.error _) => True

theorem PhaseInv.mono {objects objects' : Objects} {puts : List Directory} {phase : Phase}
    (h : PhaseInv codec checks debug basePath world objects puts phase)
    (hgrows : ∀ path, (objects path).isSome → (objects' path).isSome) :
    PhaseInv codec checks debug basePath world objects' puts phase := by
  cases phase with
  | idle => exact h
  | collecting builder => exact h
  | uploading graph => exact h
  | closed result =>
    cases result with
    | error e => exact trivial
    | ok k => exact ⟨hgrows _ h.1, h.2⟩

theorem insert_spec {objects : Objects} {puts : List Directory} {builder : DirectoryGraphBuilder}
    (h : DirectoryGraphBuilder.newLeavesToRoot.insertAll (digest codec) checks puts = .ok builder) :
    PhaseInv codec checks debug basePath world objects (puts ++ [d])
      (insert codec checks builder d) := by
  unfold insert
  cases htry : builder.tryInsert (digest codec) checks d with
  | error e =>
    cases e with
    | error e => exact trivial
    | panic message => exact trivial
  | ok builder' =>
    show DirectoryGraphBuilder.insertAll _ _ _ _ = .ok builder'
    rw [DirectoryGraphBuilder.insertAll, List.foldlM_append]
    rw [DirectoryGraphBuilder.insertAll] at h
    rw [h]
    simp only [List.foldlM_cons, List.foldlM_nil, bind, Except.bind, pure, Except.pure, htry]

/-- A closure is there already, or it is uploaded. -/
theorem closeHead_spec (haddr : Addressed (digest codec) world)
    (hbfs : ∀ g : DiGraph Directory, g.Acyclic → ∀ root, g.IsSearch root (bfs g root))
    (hdfs : ∀ g : DiGraph Directory, g.Acyclic → ∀ root, g.IsPostOrder root (dfsPostOrder g root))
    {objects : Objects} {puts : List Directory} (hgood : ∀ d ∈ puts, Good codec world d)
    {builder : DirectoryGraphBuilder}
    (h : DirectoryGraphBuilder.newLeavesToRoot.insertAll (digest codec) checks puts = .ok builder)
    {reachable : Bool} {phase : Phase}
    (hhead : closeHead codec debug basePath objects builder reachable = .ok phase) :
    PhaseInv codec checks debug basePath world objects puts phase := by
  unfold closeHead at hhead
  cases hbuild : builder.build (digest codec) debug with
  | error e =>
    rw [hbuild] at hhead
    cases e <;> cases hhead
  | ok g =>
    have hok : (DirectoryGraphBuilder.newLeavesToRoot.insertAll (digest codec) checks puts >>=
        DirectoryGraphBuilder.build (digest codec) debug) = .ok g := by
      rw [h]
      exact hbuild
    obtain ⟨root, out, hroot, -, hmem, hclosure, -⟩ := closure_of_build haddr hbfs hdfs hgood hok
    have hk : rootDigest codec g = .ok (digest codec root) := by rw [rootDigest, hroot]
    rw [hbuild] at hhead
    dsimp only [ordering, bind, Except.bind] at hhead
    rw [hk] at hhead
    dsimp only at hhead
    split_ifs at hhead with hreach
    cases hobject : objects (deriveDirsPath basePath (digest codec root)) with
    | none =>
      rw [hobject] at hhead
      cases hhead
      exact hok
    | some raw =>
      rw [hobject] at hhead
      cases hhead
      refine ⟨by rw [hobject]; rfl, fun d => ?_⟩
      rw [← hmem, hclosure.mem_iff]

theorem closeUpload_spec (haddr : Addressed (digest codec) world)
    (hbfs : ∀ g : DiGraph Directory, g.Acyclic → ∀ root, g.IsSearch root (bfs g root))
    (hdfs : ∀ g : DiGraph Directory, g.Acyclic → ∀ root, g.IsPostOrder root (dfsPostOrder g root))
    {puts : List Directory} (hgood : ∀ d ∈ puts, Good codec world d) {g : DirectoryGraph}
    (hok : (DirectoryGraphBuilder.newLeavesToRoot.insertAll (digest codec) checks puts >>=
      DirectoryGraphBuilder.build (digest codec) debug) = .ok g) {raw : Bytes}
    (hupload : closeUpload codec bfs dfsPostOrder g = .ok (k, raw)) :
    ∃ out, IsClosure codec checks world k raw out ∧ ∀ d, d ∈ out ↔ d ∈ puts := by
  obtain ⟨root, out, hroot, hdrain, hmem, hclosure, haccept⟩ :=
    closure_of_build haddr hbfs hdfs hgood hok
  have hk : rootDigest codec g = .ok (digest codec root) := by rw [rootDigest, hroot]
  unfold closeUpload contents at hupload
  rw [hk, hdrain] at hupload
  dsimp only [bind, Except.bind] at hupload
  cases hframes : writeFrames MAX_FRAME_LENGTH (out.map (encoded codec)) with
  | none =>
    rw [hframes] at hupload
    cases hupload
  | some bytes =>
    rw [hframes] at hupload
    cases hupload
    exact ⟨out, ⟨⟨bytes, hframes, rfl⟩, fun d hd => hgood d ((hmem d).mp hd), hclosure, haccept⟩, hmem⟩

namespace System

variable {ι : Type} [DecidableEq ι]

/-- What holds at every moment. -/
structure Inv (codec : Codec) (checks debug : Bool) (basePath : ObjectPath)
    (world : DigestMap Directory) (s : System ι) : Prop where
  store : StoreInv codec checks basePath world s.objects
  good : ∀ i, ∀ d ∈ s.puts i, Good codec world d
  phases : ∀ i, PhaseInv codec checks debug basePath world s.objects (s.puts i) (s.phases i)

theorem inv_start : (start : System ι).Inv codec checks debug basePath world where
  store k raw h := by cases h
  good i d h := by cases h
  phases i := rfl

/-- What one step of a putter does to the store and to itself. -/
theorem step_spec (haddr : Addressed (digest codec) world)
    (hbfs : ∀ g : DiGraph Directory, g.Acyclic → ∀ root, g.IsSearch root (bfs g root))
    (hdfs : ∀ g : DiGraph Directory, g.Acyclic → ∀ root, g.IsPostOrder root (dfsPostOrder g root))
    {objects objects' : Objects} {puts : List Directory} {phase phase' : Phase} {a : Action}
    (hstore : StoreInv codec checks basePath world objects)
    (hgood : ∀ d ∈ puts, Good codec world d)
    (hphase : PhaseInv codec checks debug basePath world objects puts phase)
    (hstep : ObjectStoreDirectoryService.step codec checks debug basePath bfs dfsPostOrder objects
      phase a = some (objects', phase')) :
    StoreInv codec checks basePath world objects' ∧
      (∀ path, (objects path).isSome → (objects' path).isSome) ∧
      PhaseInv codec checks debug basePath world objects' (puts ++ a.directory?.toList) phase' := by
  cases phase with
  | idle =>
    obtain rfl : puts = [] := hphase
    cases a with
    | putMultipleStart =>
      cases hstep
      exact ⟨hstore, fun _ h => h, rfl⟩
    | putSingle directory =>
      simp only [ObjectStoreDirectoryService.step] at hstep
      split_ifs at hstep
      · cases hstep
        exact ⟨hstore, fun _ h => h, trivial⟩
      · cases hstep
        exact ⟨hstore, fun _ h => h, insert_spec rfl⟩
    | put directory => cases hstep
    | head reachable => cases hstep
    | upload outcome => cases hstep
  | collecting builder =>
    cases a with
    | putMultipleStart => cases hstep
    | putSingle directory => cases hstep
    | upload outcome => cases hstep
    | put directory =>
      cases hstep
      exact ⟨hstore, fun _ h => h, insert_spec hphase⟩
    | head reachable =>
      simp only [ObjectStoreDirectoryService.step] at hstep
      rw [show puts ++ (Action.head reachable).directory?.toList = puts from List.append_nil _]
      cases hhead : closeHead codec debug basePath objects builder reachable with
      | error e =>
        rw [hhead] at hstep
        cases hstep
        exact ⟨hstore, fun _ h => h, trivial⟩
      | ok phase =>
        rw [hhead] at hstep
        cases hstep
        exact ⟨hstore, fun _ h => h, closeHead_spec haddr hbfs hdfs hgood hphase hhead⟩
  | uploading graph =>
    cases a with
    | putMultipleStart => cases hstep
    | putSingle directory => cases hstep
    | put directory => cases hstep
    | head reachable => cases hstep
    | upload outcome =>
      simp only [ObjectStoreDirectoryService.step] at hstep
      rw [show puts ++ (Action.upload outcome).directory?.toList = puts from List.append_nil _]
      cases hupload : closeUpload codec bfs dfsPostOrder graph with
      | error e =>
        rw [hupload] at hstep
        cases hstep
        exact ⟨hstore, fun _ h => h, trivial⟩
      | ok x =>
        obtain ⟨k, raw⟩ := x
        obtain ⟨out, hclosure, hmem⟩ := closeUpload_spec haddr hbfs hdfs hgood hphase hupload
        rw [hupload] at hstep
        cases hstep
        have hput : ∀ path, Function.update objects (deriveDirsPath basePath k) (some raw) path =
            if path = deriveDirsPath basePath k then some raw else objects path :=
          fun path => Function.update_apply _ _ _ _
        have hupdate : StoreInv codec checks basePath world
            (Function.update objects (deriveDirsPath basePath k) (some raw)) := by
          intro k' raw' h
          rw [hput] at h
          split_ifs at h with heq
          · cases h
            rw [deriveDirsPath_injective basePath heq]
            exact ⟨out, hclosure⟩
          · exact hstore k' raw' h
        have hgrows : ∀ path, (objects path).isSome →
            (Function.update objects (deriveDirsPath basePath k) (some raw) path).isSome := by
          intro path h
          rw [hput]
          split_ifs
          · rfl
          · exact h
        cases outcome with
        | refused => exact ⟨hstore, fun _ h => h, trivial⟩
        | storedAndFailed => exact ⟨hupdate, hgrows, trivial⟩
        | stored =>
          refine ⟨hupdate, hgrows, ?_, fun d => ?_⟩
          · show (Function.update objects _ _ _).isSome = true
            rw [hput, if_pos rfl]
            rfl
          · rw [← hmem, hclosure.2.2.1.mem_iff]
  | closed result => cases a <;> cases hstep

theorem Inv.step {s s' : System ι} {i : ι} {a : Action} (haddr : Addressed (digest codec) world)
    (hbfs : ∀ g : DiGraph Directory, g.Acyclic → ∀ root, g.IsSearch root (bfs g root))
    (hdfs : ∀ g : DiGraph Directory, g.Acyclic → ∀ root, g.IsPostOrder root (dfsPostOrder g root))
    (h : s.Inv codec checks debug basePath world) (hwithin : Within codec world a)
    (hstep : s.step codec checks debug basePath bfs dfsPostOrder i a = some s') :
    s'.Inv codec checks debug basePath world := by
  unfold System.step at hstep
  cases hone : ObjectStoreDirectoryService.step codec checks debug basePath bfs dfsPostOrder
      s.objects (s.phases i) a with
  | none =>
    rw [hone] at hstep
    cases hstep
  | some x =>
    obtain ⟨objects, phase⟩ := x
    rw [hone] at hstep
    cases hstep
    obtain ⟨hstore, hgrows, hphase⟩ :=
      step_spec haddr hbfs hdfs h.store (h.good i) (h.phases i) hone
    refine ⟨hstore, fun j d hd => ?_, fun j => ?_⟩
    · dsimp only at hd
      by_cases hj : j = i
      · subst hj
        rw [Function.update_self, List.mem_append, Option.mem_toList] at hd
        exact hd.elim (h.good j d) (hwithin d)
      · rw [Function.update_of_ne hj] at hd
        exact h.good j d hd
    · dsimp only
      by_cases hj : j = i
      · subst hj
        rw [Function.update_self, Function.update_self]
        exact hphase
      · rw [Function.update_of_ne hj, Function.update_of_ne hj]
        exact (h.phases j).mono hgrows

end System

/-- At every moment, whoever reads a digest gets nothing, because no closure of it is there, or the
    closure, of which less may arrive. What a putter was given is there when it has been closed. -/
theorem closures_whole {ι : Type} [DecidableEq ι] (hlaw : codec.Lawful world)
    (haddr : Addressed (digest codec) world)
    (hbfs : ∀ g : DiGraph Directory, g.Acyclic → ∀ root, g.IsSearch root (bfs g root))
    (hdfs : ∀ g : DiGraph Directory, g.Acyclic → ∀ root, g.IsPostOrder root (dfsPostOrder g root))
    {s : System ι}
    (hreach : System.Reaches codec checks debug basePath bfs dfsPostOrder world .start s) :
    (∀ k, (∀ r, (getRecursive codec checks basePath s.objects k r).1 = []) ∧
          getRecursive codec checks basePath s.objects k ⟨true, none⟩ = ([], .ok ()) ∨
        ∃ directories, ClosureOf (digest codec) world k directories ∧
          (∀ r, (getRecursive codec checks basePath s.objects k r).1 <+: directories) ∧
          getRecursive codec checks basePath s.objects k ⟨true, none⟩ = (directories, .ok ())) ∧
      ∀ i k, s.phases i = .closed (.ok k) → ∃ directories,
        ClosureOf (digest codec) world k directories ∧ (∀ d, d ∈ directories ↔ d ∈ s.puts i) ∧
          getRecursive codec checks basePath s.objects k ⟨true, none⟩ = (directories, .ok ()) ∧
          get codec checks basePath s.objects k ⟨true, none⟩ = .ok directories.head? := by
  have hinv : s.Inv codec checks debug basePath world := by
    induction hreach with
    | refl => exact System.inv_start
    | tail _ hstep ih =>
      obtain ⟨i, a, hwithin, hstep⟩ := hstep
      exact ih.step haddr hbfs hdfs hwithin hstep
  refine ⟨fun k => ?_, fun i k hclosed => ?_⟩
  · cases hobject : s.objects (deriveDirsPath basePath k) with
    | none =>
      refine .inl ⟨fun r => ?_, ?_⟩
      · rw [getRecursive, hobject]
        split_ifs <;> rfl
      · rw [getRecursive, hobject]
        rfl
    | some raw =>
      obtain ⟨directories, hclosure⟩ := hinv.store k raw hobject
      have hread := getRecursive_closure hlaw hobject hclosure
      exact .inr ⟨directories, hclosure.2.2.1, fun r => (hread r).1, (hread _).2 rfl⟩
  · have hphase := hinv.phases i
    rw [hclosed] at hphase
    obtain ⟨hsome, hmem⟩ := hphase
    obtain ⟨raw, hobject⟩ := Option.isSome_iff_exists.mp hsome
    obtain ⟨directories, hclosure⟩ := hinv.store k raw hobject
    have hread := (getRecursive_closure hlaw hobject hclosure ⟨true, none⟩).2 rfl
    refine ⟨directories, hclosure.2.2.1, fun d => ?_, hread, ?_⟩
    · rw [hclosure.2.2.1.mem_iff, hmem]
    · obtain ⟨d, hd, -⟩ := hclosure.2.2.1.first
      rw [get, hread]
      cases directories with
      | nil => cases hd
      | cons d' rest => rfl

end

section

/-- The steps of a single putter. -/
def stepAll (x : Objects × Phase) (actions : List Action) : Option (Objects × Phase) :=
  actions.foldlM (fun x a => step fixtureCodec true true [] (fun g root => (g.postOrder root).reverse)
    DiGraph.postOrder x.1 x.2 a) x

def putB : List Action :=
  [.putMultipleStart, .put DIRECTORY_A, .put DIRECTORY_B, .head true, .upload .stored]

theorem stepAll_putB : ∃ objects,
    stepAll (fun _ => none, .idle) putB = some (objects, .closed (.ok DIRECTORY_B_DIGEST)) :=
  ⟨_, rfl⟩

/-- The steps of a system with this putter only. -/
theorem reaches_of_stepAll {world : DigestMap Directory} {actions : List Action}
    (hwithin : ∀ a ∈ actions, System.Within fixtureCodec world a) {x y : Objects × Phase}
    {l : List Directory} (h : stepAll x actions = some y) :
    System.Reaches fixtureCodec true true [] (fun g root => (g.postOrder root).reverse)
      DiGraph.postOrder world (⟨x.1, fun _ => x.2, fun _ => l⟩ : System Unit)
      ⟨y.1, fun _ => y.2, fun _ => l ++ actions.filterMap Action.directory?⟩ := by
  induction actions generalizing x l with
  | nil =>
    cases h
    rw [List.filterMap_nil, List.append_nil]
    exact .refl
  | cons a actions ih =>
    obtain ⟨x', hx', hrest⟩ := Option.bind_eq_some_iff.mp h
    have htail := ih (fun b hb => hwithin b (List.mem_cons_of_mem a hb)) (l := l ++ a.directory?.toList) hrest
    have hputs : l ++ (a :: actions).filterMap Action.directory? =
        l ++ a.directory?.toList ++ actions.filterMap Action.directory? := by
      rw [List.append_assoc]
      cases hdirectory : a.directory? with
      | none => rw [List.filterMap_cons_none hdirectory]; rfl
      | some d => rw [List.filterMap_cons_some hdirectory]; rfl
    rw [hputs]
    refine .head ⟨(), a, hwithin a List.mem_cons_self, ?_⟩ htail
    have hunit : ∀ {α : Type} (p p' : α), Function.update (fun _ : Unit => p) () p' = fun _ => p' :=
      fun p p' => funext fun _ => rfl
    have hstep : step fixtureCodec true true [] (fun g root => (g.postOrder root).reverse)
        DiGraph.postOrder x.1 x.2 a = some x' := hx'
    simp only [System.step, hstep, Option.bind_eq_bind, Option.bind_some, hunit]
    rfl

theorem lawful_fixtureCodec :
    fixtureCodec.Lawful (storeOf DIRECTORY_B_DIGEST DIRECTORY_B) where
  decompress_compress _ := rfl
  decode_encode k d h := by
    rcases lookup_storeOf.mp h with ⟨-, rfl⟩ | ⟨-, -, rfl⟩
    · rfl
    · rfl

theorem closures_whole_b : ∃ s : System Unit,
    System.Reaches fixtureCodec true true [] (fun g root => (g.postOrder root).reverse)
      DiGraph.postOrder (storeOf DIRECTORY_B_DIGEST DIRECTORY_B) .start s ∧
    s.phases () = .closed (.ok DIRECTORY_B_DIGEST) ∧ ∃ directories,
      getRecursive fixtureCodec true [] s.objects DIRECTORY_B_DIGEST ⟨true, none⟩ =
        (directories, .ok ()) ∧ ∀ d, d ∈ directories ↔ d ∈ [DIRECTORY_A, DIRECTORY_B] := by
  obtain ⟨objects, hrun⟩ := stepAll_putB
  have hlookup : (storeOf DIRECTORY_B_DIGEST DIRECTORY_B).lookup DIRECTORY_A_DIGEST = some DIRECTORY_A ∧
      (storeOf DIRECTORY_B_DIGEST DIRECTORY_B).lookup DIRECTORY_B_DIGEST = some DIRECTORY_B := ⟨rfl, rfl⟩
  have hreach := @reaches_of_stepAll (storeOf DIRECTORY_B_DIGEST DIRECTORY_B) putB (by
    intro a ha d hd
    simp only [putB, List.mem_cons, List.not_mem_nil, or_false] at ha
    rcases ha with rfl | rfl | rfl | rfl | rfl
    · cases hd
    · cases hd
      exact ⟨hlookup.1, by decide⟩
    · cases hd
      exact ⟨hlookup.2, by decide⟩
    · cases hd
    · cases hd) _ _ [] hrun
  obtain ⟨-, hclosed⟩ := closures_whole lawful_fixtureCodec addressed_fixtureCodec
    (fun g h root => (DiGraph.isPostOrder_postOrder h root).isSearch_reverse)
    (fun g h root => DiGraph.isPostOrder_postOrder h root) hreach
  obtain ⟨directories, -, hmem, hget, -⟩ := hclosed () DIRECTORY_B_DIGEST rfl
  exact ⟨_, hreach, rfl, directories, hget, hmem⟩

end

end Snix.Castore.ObjectStoreDirectoryService
