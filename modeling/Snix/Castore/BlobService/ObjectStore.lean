import Snix.Castore.BlobService.ChunkedReader
import Snix.Lib.Effect
import Snix.Lib.Hex
import Mathlib.Logic.Function.Basic
import Mathlib.Logic.Relation

/-!
# Blobs in an object store

A blob is cut into chunks, and the chunks that the store does not have are put there
under their digests. When all of them are there, an index that lists them is put
under the digest of the blob, unless there is one already. A blob of one chunk has
an index that lists nothing, and is read from the chunk, which has the same digest.

Uploads run at the same time and share chunks. Each of them looks first and puts
later, so two of them may put the same object. Every operation of an upload may
fail, and a put that is reported to fail may have been done nevertheless.

Sizes are 64-bit numbers: a blob of 2^64 bytes is uploaded and cannot be read.

## Main definitions

- `Run`, `System.step` — uploads, and the steps they take in any order
- `openRead` — what a digest is read from
- `System.Sound` — indexes list chunks that are there, what is read has the digest it
  is read under, and what was uploaded can be read

## Main results

- `uploads_sound` — this holds at every moment, of blobs shorter than 2^64 bytes
- `uploads_sound_long` — and not of longer ones
-/

namespace Snix.Castore.ObjectStore

/-- A path in the store, as its segments. -/
abbrev ObjectPath := List Bytes

abbrev Objects := ObjectPath → Option Bytes

structure ChunkMeta where
  digest : Bytes
  size : UInt64
  deriving DecidableEq

structure StatBlobResponse where
  chunks : List ChunkMeta
  bao : Bytes
  deriving DecidableEq

/-- The hash function, the compression of the chunks and the encoding of the indexes. -/
structure Codec where
  hash : Bytes → B3Digest
  compress : Bytes → Option Bytes
  decompress : Bytes → Option Bytes
  encode : StatBlobResponse → Bytes
  decode : Bytes → Option StatBlobResponse

def CONCURRENT_CHUNK_UPLOADS : ℕ := 64

def deriveBlobPath (basePath : ObjectPath) (digest : B3Digest) : ObjectPath :=
  basePath ++ [ascii "blobs", ascii "b3", hexEncode (digest.val.take 2), hexEncode digest.val]

def deriveChunkPath (basePath : ObjectPath) (digest : B3Digest) : ObjectPath :=
  basePath ++ [ascii "chunks", ascii "b3", hexEncode (digest.val.take 2), hexEncode digest.val]

theorem deriveBlobPath_injective (basePath : ObjectPath) :
    Function.Injective (deriveBlobPath basePath) := by
  intro d d' h
  have h := List.append_cancel_left h
  simp only [List.cons.injEq, true_and, and_true] at h
  exact Subtype.ext (hexEncode_injective h.2)

theorem deriveChunkPath_injective (basePath : ObjectPath) :
    Function.Injective (deriveChunkPath basePath) := by
  intro d d' h
  have h := List.append_cancel_left h
  simp only [List.cons.injEq, true_and, and_true] at h
  exact Subtype.ext (hexEncode_injective h.2)

theorem deriveChunkPath_ne_deriveBlobPath (basePath : ObjectPath) (d d' : B3Digest) :
    deriveChunkPath basePath d ≠ deriveBlobPath basePath d' := by
  intro h
  have h := List.append_cancel_left h
  rw [List.cons.injEq] at h
  have hne : ascii "chunks" ≠ ascii "blobs" := by decide +kernel
  exact hne h.1

-- ====================
-- Uploads
-- ====================

/-- The upload of one chunk: asking for it, putting it, and how it ended. -/
inductive TaskPhase where
  | checking
  | putting
  | done
  | failed
  deriving DecidableEq

structure Task where
  data : Bytes
  phase : TaskPhase
  deriving DecidableEq

/-- The upload of one blob: its chunks, asking for the index, putting it, and how it ended. -/
inductive Phase where
  | uploading
  | putting
  | finished (result : Except Unit B3Digest)
  deriving DecidableEq

/-- An upload: the chunks that were not read yet, those that are being uploaded, in the order they
    were read, and those whose upload was seen to be done. -/
structure Run where
  unread : List Bytes
  inFlight : List Task
  collected : List ChunkMeta
  phase : Phase

/-- What is to be uploaded, with the chunks it is cut into. -/
structure Job where
  input : Bytes
  chunks : List Bytes
  flatten_eq : chunks.flatten = input

/-- The steps of an upload, with what the store does in them. -/
inductive Action where
  | nextChunk
  | streamError
  | head (j : ℕ) (reachable : Bool)
  | put (j : ℕ) (outcome : PutOutcome)
  | collect
  | headBlob (reachable : Bool)
  | putBlob (outcome : PutOutcome)
  deriving DecidableEq

section Upload

variable (codec : Codec) (basePath : ObjectPath)

def chunkMeta (data : Bytes) : ChunkMeta := ⟨(codec.hash data).val, data.length.toUInt64⟩

/-- The index of a blob with these chunks. A blob of a single chunk is not split up further. -/
def statBlobResponse (chunks : List ChunkMeta) : StatBlobResponse :=
  ⟨if chunks.length < 2 then [] else chunks, []⟩

/-- The object is there or not after a put. -/
def Objects.put (objects : Objects) (path : ObjectPath) (raw : Bytes) (outcome : PutOutcome) :
    Objects :=
  match outcome with
  | .refused => objects
  | _ => Function.update objects path (some raw)

/-- The first half of `upload_chunk`: is the chunk there? -/
def Task.head (objects : Objects) (t : Task) (reachable : Bool) : Option Task :=
  match t.phase with
  | .checking =>
    if reachable then
      match objects (deriveChunkPath basePath (codec.hash t.data)) with
      | some _ => some ⟨t.data, .done⟩
      | none => some ⟨t.data, .putting⟩
    else some ⟨t.data, .failed⟩
  | _ => none

/-- The second half of `upload_chunk`: the chunk is compressed and put. -/
def Task.put (objects : Objects) (t : Task) (outcome : PutOutcome) : Option (Objects × Task) :=
  match t.phase with
  | .putting =>
    match codec.compress t.data with
    | none => some (objects, ⟨t.data, .failed⟩)
    | some raw =>
      some (objects.put (deriveChunkPath basePath (codec.hash t.data)) raw outcome,
        ⟨t.data, if outcome = .stored then .done else .failed⟩)
  | _ => none

/-- One step of `chunk_and_upload`; none if it is not the time for it. A run that has failed drops
    the uploads of its chunks, but what is on its way to the store may still arrive. -/
def Run.step (job : Job) (objects : Objects) (run : Run) : Action → Option (Objects × Run)
  | .nextChunk =>
    match run.phase, run.unread with
    | .uploading, data :: unread =>
      if run.inFlight.length < CONCURRENT_CHUNK_UPLOADS then
        some (objects, { run with unread := unread, inFlight := run.inFlight ++ [⟨data, .checking⟩] })
      else none
    | _, _ => none
  | .streamError =>
    match run.phase with
    | .uploading => some (objects, { run with phase := .finished (.error ()) })
    | _ => none
  | .head j reachable => do
    match run.phase with
    | .uploading =>
      let t ← run.inFlight[j]?
      let t ← t.head codec basePath objects reachable
      some (objects, { run with inFlight := run.inFlight.set j t })
    | _ => none
  | .put j outcome => do
    let t ← run.inFlight[j]?
    let (objects, t) ← t.put codec basePath objects outcome
    some (objects, { run with inFlight := run.inFlight.set j t })
  | .collect =>
    match run.phase, run.inFlight with
    | .uploading, ⟨data, .done⟩ :: inFlight =>
      some (objects, { run with
        inFlight := inFlight, collected := run.collected ++ [chunkMeta codec data] })
    | .uploading, ⟨_, .failed⟩ :: _ =>
      some (objects, { run with phase := .finished (.error ()) })
    | _, _ => none
  | .headBlob reachable =>
    match run.phase, run.unread, run.inFlight with
    | .uploading, [], [] =>
      if reachable then
        match objects (deriveBlobPath basePath (codec.hash job.input)) with
        | some _ => some (objects, { run with phase := .finished (.ok (codec.hash job.input)) })
        | none => some (objects, { run with phase := .putting })
      else some (objects, { run with phase := .finished (.error ()) })
    | _, _, _ => none
  | .putBlob outcome =>
    match run.phase with
    | .putting =>
      let result := if outcome = .stored then .ok (codec.hash job.input) else .error ()
      some (objects.put (deriveBlobPath basePath (codec.hash job.input))
        (codec.encode (statBlobResponse run.collected)) outcome, { run with phase := .finished result })
    | _ => none

/-- The store and the uploads. -/
structure System (ι : Type) where
  objects : Objects
  runs : ι → Run

namespace System

variable {ι : Type} [DecidableEq ι] (jobs : ι → Job)

def start : System ι := ⟨fun _ => none, fun i => ⟨(jobs i).chunks, [], [], .uploading⟩⟩

/-- One of the uploads takes a step. -/
def step (s : System ι) (i : ι) (a : Action) : Option (System ι) := do
  let (objects, run) ← (s.runs i).step codec basePath (jobs i) s.objects a
  some ⟨objects, Function.update s.runs i run⟩

/-- The steps of the uploads, in any order. -/
def Reaches : System ι → System ι → Prop :=
  Relation.ReflTransGen fun s s' => ∃ i a, step codec basePath jobs s i a = some s'

end System

end Upload

-- ====================
-- Reading
-- ====================

inductive OpenFault where
  | decompress
  /-- Chunk contents invalid. -/
  | chunkContents
  | decode
  | invalidDigest
  deriving DecidableEq

/-- What a blob is read from. -/
inductive BlobSource where
  | cursor (contents : Bytes)
  | chunked (chunks : List (B3Digest × UInt64))
  deriving DecidableEq

section Read

variable (codec : Codec) (basePath : ObjectPath)

/-- The list of chunks. The operations on the store are made one after the other; the `k`-th of
    them finds the objects of the `k`-th moment. -/
def chunks (moment : ℕ → Objects) (digest : B3Digest) :
    Except OpenFault (Option (List ChunkMeta)) :=
  match moment 0 (deriveBlobPath basePath digest) with
  | some raw =>
    match codec.decode raw with
    | none => .error .decode
    | some response => .ok (some response.chunks)
  | none =>
    match moment 1 (deriveChunkPath basePath digest) with
    | some _ => .ok (some [])
    | none => .ok none

/-- A listed chunk, as the reader takes it; none if the program panics. -/
def ChunkMeta.chunk (m : ChunkMeta) : Option (B3Digest × UInt64) :=
  (B3Digest.tryFrom m.digest).map fun digest => (digest, m.size)

def openRead (moment : ℕ → Objects) (digest : B3Digest) : Except OpenFault (Option BlobSource) :=
  if digest = codec.hash [] then .ok (some (.cursor []))
  else
    match moment 0 (deriveChunkPath basePath digest) with
    | some raw =>
      match codec.decompress raw with
      | none => .error .decompress
      | some contents =>
        if digest ≠ codec.hash contents then .error .chunkContents
        else .ok (some (.cursor contents))
    | none =>
      match chunks codec basePath (fun k => moment (k + 1)) digest with
      | .error e => .error e
      | .ok none => .ok none
      | .ok (some metas) =>
        match metas.mapM ChunkMeta.chunk with
        | none => .error .invalidDigest
        | some l => .ok (some (.chunked l))

/-- Reading gives these contents, whatever calls are made. Chunks are opened one by one, and
    `blobs` says what they contain. -/
def BlobSource.Yields (checks : Bool) (blobs : B3Digest → Option Bytes) (contents : Bytes) :
    BlobSource → Prop
  | .cursor b => b = contents
  | .chunked l => ∀ search, IsBinarySearch search → ∀ calls, ∃ os,
      ChunkedReader.run search blobs checks l calls = .ok os ∧
        CursorRun .rejecting contents ⟨0, false⟩ calls os

namespace System

variable {ι : Type} [DecidableEq ι] (checks : Bool) (jobs : ι → Job)

/-- Moments one after the other, the first of them not before the given one. -/
def Chain (s : System ι) (moment : ℕ → System ι) : Prop :=
  Reaches codec basePath jobs s (moment 0) ∧
    ∀ k, Reaches codec basePath jobs (moment k) (moment (k + 1))

/-- What the chunks contain, each of them opened at some time after the given moment. -/
def OpensLater (s : System ι) (blobs : B3Digest → Option Bytes) : Prop :=
  ∀ digest, ∃ moment, Chain codec basePath jobs s moment ∧
    ∀ contents, openRead codec basePath (fun k => (moment k).objects) digest =
      .ok (some (.cursor contents)) → blobs digest = some contents

/-- From now on the digest can be read, and the bytes that are read have this digest. The chunks are
    opened after the index was fetched, which is the second operation on the store. -/
def Readable (s : System ι) (digest : B3Digest) : Prop :=
  ∀ moment, Chain codec basePath jobs s moment →
    ∃ source contents,
      openRead codec basePath (fun k => (moment k).objects) digest = .ok (some source) ∧
      codec.hash contents = digest ∧
      ∀ blobs, OpensLater codec basePath jobs (moment 1) blobs →
        source.Yields checks blobs contents

/-- Indexes list chunks that are there. What is in the store can be read, and is what it should
    be. An upload that has succeeded returned the digest of its input, which can be read. -/
structure Sound (s : System ι) : Prop where
  present : ∀ digest raw, s.objects (deriveBlobPath basePath digest) = some raw →
    ∃ response, codec.decode raw = some response ∧
      ∀ m ∈ response.chunks, ∃ d : B3Digest, m.digest = d.val ∧
        (s.objects (deriveChunkPath basePath d)).isSome
  readable : ∀ digest, (s.objects (deriveBlobPath basePath digest)).isSome ∨
    (s.objects (deriveChunkPath basePath digest)).isSome →
      Readable codec basePath checks jobs s digest
  finished : ∀ i digest, (s.runs i).phase = .finished (.ok digest) →
    digest = codec.hash (jobs i).input ∧ Readable codec basePath checks jobs s digest

end System

/-- The index that an upload writes. -/
def Job.response (job : Job) : StatBlobResponse :=
  statBlobResponse (job.chunks.map (chunkMeta codec))

/-- What is known of the hash function, the compression and the encoding: no two chunks of the
    uploads have the same digest, and what was encoded can be decoded. -/
structure Codec.Lawful {ι : Type} (jobs : ι → Job) : Prop where
  decompress : ∀ data raw, codec.compress data = some raw → codec.decompress raw = some data
  decode : ∀ i, codec.decode (codec.encode ((jobs i).response codec)) =
    some ((jobs i).response codec)
  collisionFree : ∀ a b : Bytes, (a = [] ∨ ∃ i, a ∈ (jobs i).chunks) →
    (b = [] ∨ ∃ i, b ∈ (jobs i).chunks) → codec.hash a = codec.hash b → a = b

end Read

-- ====================
-- The invariant
-- ====================

section Invariant

variable (codec : Codec) (basePath : ObjectPath) {ι : Type} (jobs : ι → Job)

/-- The chunk is in the store. -/
def HasChunk (objects : Objects) (data : Bytes) : Prop :=
  (objects (deriveChunkPath basePath (codec.hash data))).isSome

/-- Nothing is removed. -/
def Objects.Grows (objects objects' : Objects) : Prop :=
  ∀ path, (objects path).isSome → (objects' path).isSome

/-- The chunks are those of uploads, and every index is one of an upload all of whose chunks are
    there. -/
structure StoreInv (objects : Objects) : Prop where
  chunk : ∀ digest raw, objects (deriveChunkPath basePath digest) = some raw →
    ∃ i, ∃ data ∈ (jobs i).chunks, codec.hash data = digest ∧ codec.compress data = some raw
  index : ∀ digest raw, objects (deriveBlobPath basePath digest) = some raw →
    ∃ i, codec.hash (jobs i).input = digest ∧ raw = codec.encode ((jobs i).response codec) ∧
      ∀ data ∈ (jobs i).chunks, HasChunk codec basePath objects data

/-- The chunks whose upload is done are in the store, and an upload that wants to put its index has
    no others. -/
structure RunInv (job : Job) (objects : Objects) (run : Run) : Prop where
  split : ∃ l, job.chunks = l ++ run.inFlight.map Task.data ++ run.unread ∧
    run.collected = l.map (chunkMeta codec) ∧ ∀ data ∈ l, HasChunk codec basePath objects data
  done : ∀ t ∈ run.inFlight, t.phase = .done → HasChunk codec basePath objects t.data
  putting : run.phase = .putting → run.unread = [] ∧ run.inFlight = []
  finished : ∀ digest, run.phase = .finished (.ok digest) → digest = codec.hash job.input ∧
    (objects (deriveBlobPath basePath digest)).isSome

variable {codec basePath jobs} {objects objects' : Objects} {job : Job} {run run' : Run}

theorem Objects.Grows.refl (objects : Objects) : objects.Grows objects := fun _ h => h

theorem Objects.Grows.trans {a b c : Objects} (h : a.Grows b) (h' : b.Grows c) : a.Grows c :=
  fun path hpath => h' path (h path hpath)

theorem Objects.Grows.update (objects : Objects) (path : ObjectPath) (raw : Bytes) :
    objects.Grows (Function.update objects path (some raw)) := by
  intro path' h
  by_cases heq : path' = path
  · subst heq
    rw [Function.update_self]
    rfl
  · rwa [Function.update_of_ne heq]

theorem HasChunk.grows {data : Bytes} (h : HasChunk codec basePath objects data)
    (hgrows : objects.Grows objects') : HasChunk codec basePath objects' data :=
  hgrows _ h

theorem RunInv.grows (h : RunInv codec basePath job objects run) (hgrows : objects.Grows objects') :
    RunInv codec basePath job objects' run where
  split := by
    obtain ⟨l, hchunks, hcollected, hl⟩ := h.split
    exact ⟨l, hchunks, hcollected, fun data hdata => (hl data hdata).grows hgrows⟩
  done := fun t ht hphase => (h.done t ht hphase).grows hgrows
  putting := h.putting
  finished := by
    intro digest hphase
    obtain ⟨hdigest, hindex⟩ := h.finished digest hphase
    exact ⟨hdigest, hgrows _ hindex⟩

/-- An upload that wants to put its index has put all its chunks. -/
theorem RunInv.of_putting (h : RunInv codec basePath job objects run) (hphase : run.phase = .putting) :
    run.collected = job.chunks.map (chunkMeta codec) ∧
      ∀ data ∈ job.chunks, HasChunk codec basePath objects data := by
  obtain ⟨hunread, hinFlight⟩ := h.putting hphase
  obtain ⟨l, hchunks, hcollected, hl⟩ := h.split
  rw [hunread, hinFlight, List.map_nil, List.append_nil, List.append_nil] at hchunks
  subst hchunks
  exact ⟨hcollected, hl⟩

theorem StoreInv.update_chunk (h : StoreInv codec basePath jobs objects) {i : ι} {data raw : Bytes}
    (hdata : data ∈ (jobs i).chunks) (hraw : codec.compress data = some raw) :
    StoreInv codec basePath jobs
      (Function.update objects (deriveChunkPath basePath (codec.hash data)) (some raw)) where
  chunk := by
    intro digest raw' hraw'
    by_cases hdigest : digest = codec.hash data
    · subst hdigest
      rw [Function.update_self, Option.some.injEq] at hraw'
      subst hraw'
      exact ⟨i, data, hdata, rfl, hraw⟩
    · have hne : deriveChunkPath basePath digest ≠ deriveChunkPath basePath (codec.hash data) :=
        fun heq => hdigest (deriveChunkPath_injective basePath heq)
      rw [Function.update_of_ne hne] at hraw'
      exact h.chunk digest raw' hraw'
  index := by
    intro digest raw' hraw'
    rw [Function.update_of_ne (deriveChunkPath_ne_deriveBlobPath _ _ _).symm] at hraw'
    obtain ⟨k, hdigest, hencode, hchunks⟩ := h.index digest raw' hraw'
    exact ⟨k, hdigest, hencode, fun data hdata => (hchunks data hdata).grows (.update _ _ _)⟩

theorem StoreInv.update_index (h : StoreInv codec basePath jobs objects) {i : ι}
    (hchunks : ∀ data ∈ (jobs i).chunks, HasChunk codec basePath objects data) :
    StoreInv codec basePath jobs
      (Function.update objects (deriveBlobPath basePath (codec.hash (jobs i).input))
        (some (codec.encode ((jobs i).response codec)))) where
  chunk := by
    intro digest raw hraw
    rw [Function.update_of_ne (deriveChunkPath_ne_deriveBlobPath _ _ _)] at hraw
    exact h.chunk digest raw hraw
  index := by
    intro digest raw hraw
    by_cases hdigest : digest = codec.hash (jobs i).input
    · subst hdigest
      rw [Function.update_self, Option.some.injEq] at hraw
      exact ⟨i, rfl, hraw.symm,
        fun data hdata => (hchunks data hdata).grows (.update _ _ _)⟩
    · have hne : deriveBlobPath basePath digest ≠
          deriveBlobPath basePath (codec.hash (jobs i).input) :=
        fun heq => hdigest (deriveBlobPath_injective basePath heq)
      rw [Function.update_of_ne hne] at hraw
      obtain ⟨k, hk, hencode, hpresent⟩ := h.index digest raw hraw
      exact ⟨k, hk, hencode, fun data hdata => (hpresent data hdata).grows (.update _ _ _)⟩

/-- One of the chunks in flight gets further. -/
theorem RunInv.set (h : RunInv codec basePath job objects run) (hgrows : objects.Grows objects')
    {j : ℕ} {t t' : Task} (ht : run.inFlight[j]? = some t) (hdata : t'.data = t.data)
    (hdone : t'.phase = .done → HasChunk codec basePath objects' t.data) :
    RunInv codec basePath job objects' { run with inFlight := run.inFlight.set j t' } := by
  have h := h.grows hgrows
  have hmap : (run.inFlight.set j t').map Task.data = run.inFlight.map Task.data := by
    apply List.ext_getElem?
    intro k
    rw [List.getElem?_map, List.getElem?_map, List.getElem?_set]
    by_cases hjk : j = k
    · subst hjk
      have hlt := (List.getElem?_eq_some_iff.mp ht).1
      rw [if_pos rfl, if_pos hlt, ht, Option.map_some, Option.map_some, hdata]
    · rw [if_neg hjk]
  refine ⟨?_, ?_, ?_, h.finished⟩
  · rw [hmap]
    exact h.split
  · intro x hx hphase
    rcases List.mem_or_eq_of_mem_set hx with hx | rfl
    · exact h.done x hx hphase
    · rw [hdata]
      exact hdone hphase
  · intro hphase
    have hnil := (h.putting hphase).2
    rw [hnil] at ht
    cases ht

theorem mem_chunks_of_inFlight (h : RunInv codec basePath job objects run) {j : ℕ} {t : Task}
    (ht : run.inFlight[j]? = some t) : t.data ∈ job.chunks := by
  obtain ⟨l, hchunks, -, -⟩ := h.split
  rw [hchunks]
  have hmem := List.mem_map_of_mem (f := Task.data) (List.mem_of_getElem? ht)
  exact List.mem_append_left _ (List.mem_append_right _ hmem)

/-- What a step of an upload keeps. -/
structure StepKeeps (codec : Codec) (basePath : ObjectPath) (jobs : ι → Job) (i : ι)
    (objects : Objects) (r : Objects × Run) : Prop where
  grows : objects.Grows r.1
  store : StoreInv codec basePath jobs r.1
  run : RunInv codec basePath (jobs i) r.1 r.2

/-- A step that leaves the store alone. -/
theorem StepKeeps.of_run {i : ι} (hstore : StoreInv codec basePath jobs objects)
    (hrun : RunInv codec basePath (jobs i) objects run') :
    StepKeeps codec basePath jobs i objects (objects, run') :=
  ⟨.refl objects, hstore, hrun⟩

theorem RunInv.fail (h : RunInv codec basePath job objects run) :
    RunInv codec basePath job objects { run with phase := .finished (.error ()) } where
  split := h.split
  done := h.done
  putting := by
    intro hphase
    cases hphase
  finished := by
    intro digest hphase
    cases hphase

theorem nextChunk_spec {i : ι} (hstore : StoreInv codec basePath jobs objects)
    (h : RunInv codec basePath (jobs i) objects run) {r : Objects × Run}
    (hstep : run.step codec basePath (jobs i) objects .nextChunk = some r) :
    StepKeeps codec basePath jobs i objects r := by
  simp only [Run.step] at hstep
  split at hstep
  · next data unread hphase hunread =>
    split_ifs at hstep with hroom
    cases hstep
    apply StepKeeps.of_run hstore
    refine ⟨?_, ?_, ?_, h.finished⟩
    · obtain ⟨l, hchunks, hcollected, hl⟩ := h.split
      refine ⟨l, ?_, hcollected, hl⟩
      rw [hchunks, hunread]
      simp
    · intro t ht hdone
      rcases List.mem_append.mp ht with ht | ht
      · exact h.done t ht hdone
      · rw [List.mem_singleton.mp ht] at hdone
        cases hdone
    · intro hputting
      rw [show run.phase = .putting from hputting] at hphase
      cases hphase
  · cases hstep

theorem head_spec {i : ι} (hstore : StoreInv codec basePath jobs objects)
    (h : RunInv codec basePath (jobs i) objects run) {j : ℕ} {reachable : Bool} {r : Objects × Run}
    (hstep : run.step codec basePath (jobs i) objects (.head j reachable) = some r) :
    StepKeeps codec basePath jobs i objects r := by
  simp only [Run.step] at hstep
  split at hstep
  · obtain ⟨t, ht, hstep⟩ := Option.bind_eq_some_iff.mp hstep
    obtain ⟨t', ht', hstep⟩ := Option.bind_eq_some_iff.mp hstep
    cases hstep
    apply StepKeeps.of_run hstore
    unfold Task.head at ht'
    split at ht'
    · split_ifs at ht'
      · split at ht'
        · next raw hraw =>
          cases ht'
          refine h.set (.refl _) ht rfl fun _ => ?_
          unfold HasChunk
          rw [hraw]
          rfl
        · cases ht'
          exact h.set (.refl _) ht rfl fun hdone => by cases hdone
      · cases ht'
        exact h.set (.refl _) ht rfl fun hdone => by cases hdone
    · cases ht'
  · cases hstep

theorem put_spec {i : ι} (hstore : StoreInv codec basePath jobs objects)
    (h : RunInv codec basePath (jobs i) objects run) {j : ℕ} {outcome : PutOutcome}
    {r : Objects × Run}
    (hstep : run.step codec basePath (jobs i) objects (.put j outcome) = some r) :
    StepKeeps codec basePath jobs i objects r := by
  simp only [Run.step] at hstep
  obtain ⟨t, ht, hstep⟩ := Option.bind_eq_some_iff.mp hstep
  obtain ⟨⟨objects', t'⟩, ht', hstep⟩ := Option.bind_eq_some_iff.mp hstep
  cases hstep
  have hmem := mem_chunks_of_inFlight h ht
  unfold Task.put at ht'
  split at ht'
  · split at ht'
    · cases ht'
      exact .of_run hstore (h.set (.refl _) ht rfl fun hdone => by cases hdone)
    · next raw hraw =>
      cases ht'
      cases outcome with
      | refused => exact .of_run hstore (h.set (.refl _) ht rfl fun hdone => by cases hdone)
      | storedAndFailed =>
        refine ⟨.update _ _ _, hstore.update_chunk hmem hraw, ?_⟩
        exact h.set (.update _ _ _) ht rfl fun hdone => by cases hdone
      | stored =>
        refine ⟨.update _ _ _, hstore.update_chunk hmem hraw, ?_⟩
        refine h.set (.update _ _ _) ht rfl fun _ => ?_
        show (Function.update objects _ _ _).isSome
        rw [Function.update_self]
        rfl
  · cases ht'

theorem collect_spec {i : ι} (hstore : StoreInv codec basePath jobs objects)
    (h : RunInv codec basePath (jobs i) objects run) {r : Objects × Run}
    (hstep : run.step codec basePath (jobs i) objects .collect = some r) :
    StepKeeps codec basePath jobs i objects r := by
  simp only [Run.step] at hstep
  split at hstep
  · next data inFlight hphase hinFlight =>
    cases hstep
    apply StepKeeps.of_run hstore
    have hdata : HasChunk codec basePath objects data := by
      apply h.done ⟨data, .done⟩ ?_ rfl
      rw [hinFlight]
      exact List.mem_cons_self
    refine ⟨?_, ?_, ?_, h.finished⟩
    · obtain ⟨l, hchunks, hcollected, hl⟩ := h.split
      refine ⟨l ++ [data], ?_, ?_, ?_⟩
      · rw [hchunks, hinFlight]
        simp
      · show run.collected ++ _ = _
        rw [hcollected, List.map_append]
        rfl
      · intro x hx
        rcases List.mem_append.mp hx with hx | hx
        · exact hl x hx
        · rw [List.mem_singleton.mp hx]
          exact hdata
    · intro t ht hdone
      apply h.done t ?_ hdone
      rw [hinFlight]
      exact List.mem_cons_of_mem _ ht
    · intro hputting
      rw [show run.phase = .putting from hputting] at hphase
      cases hphase
  · cases hstep
    exact .of_run hstore h.fail
  · cases hstep

theorem headBlob_spec {i : ι} (hstore : StoreInv codec basePath jobs objects)
    (h : RunInv codec basePath (jobs i) objects run) {reachable : Bool} {r : Objects × Run}
    (hstep : run.step codec basePath (jobs i) objects (.headBlob reachable) = some r) :
    StepKeeps codec basePath jobs i objects r := by
  simp only [Run.step] at hstep
  split at hstep
  · next hphase hunread hinFlight =>
    split_ifs at hstep
    · split at hstep
      · next raw hraw =>
        cases hstep
        refine .of_run hstore ⟨h.split, h.done, ?_, ?_⟩
        · intro hputting
          cases hputting
        · intro digest hfinished
          cases hfinished
          refine ⟨rfl, ?_⟩
          rw [hraw]
          rfl
      · cases hstep
        refine .of_run hstore ⟨h.split, h.done, fun _ => ⟨hunread, hinFlight⟩, ?_⟩
        intro digest hfinished
        cases hfinished
    · cases hstep
      exact .of_run hstore h.fail
  · cases hstep

theorem putBlob_spec {i : ι} (hstore : StoreInv codec basePath jobs objects)
    (h : RunInv codec basePath (jobs i) objects run) {outcome : PutOutcome} {r : Objects × Run}
    (hstep : run.step codec basePath (jobs i) objects (.putBlob outcome) = some r) :
    StepKeeps codec basePath jobs i objects r := by
  simp only [Run.step] at hstep
  split at hstep
  · next hphase =>
    obtain ⟨hcollected, hchunks⟩ := h.of_putting hphase
    have hresponse : statBlobResponse run.collected = (jobs i).response codec := by
      rw [hcollected]
      rfl
    cases hstep
    rw [hresponse]
    cases outcome with
    | refused => exact .of_run hstore h.fail
    | storedAndFailed =>
      exact ⟨.update _ _ _, hstore.update_index hchunks, (h.grows (.update _ _ _)).fail⟩
    | stored =>
      have h' := h.grows (Objects.Grows.update objects
        (deriveBlobPath basePath (codec.hash (jobs i).input))
        (codec.encode ((jobs i).response codec)))
      refine ⟨.update _ _ _, hstore.update_index hchunks, h'.split, h'.done, ?_, ?_⟩
      · intro hputting
        cases hputting
      · intro digest hfinished
        cases hfinished
        refine ⟨rfl, ?_⟩
        show (Function.update objects _ _ _).isSome
        rw [Function.update_self]
        rfl
  · cases hstep

theorem run_step_spec {i : ι} (hstore : StoreInv codec basePath jobs objects)
    (h : RunInv codec basePath (jobs i) objects run) {a : Action} {r : Objects × Run}
    (hstep : run.step codec basePath (jobs i) objects a = some r) :
    StepKeeps codec basePath jobs i objects r := by
  cases a with
  | nextChunk => exact nextChunk_spec hstore h hstep
  | streamError =>
    simp only [Run.step] at hstep
    split at hstep
    · cases hstep
      exact .of_run hstore h.fail
    · cases hstep
  | head j reachable => exact head_spec hstore h hstep
  | put j outcome => exact put_spec hstore h hstep
  | collect => exact collect_spec hstore h hstep
  | headBlob reachable => exact headBlob_spec hstore h hstep
  | putBlob outcome => exact putBlob_spec hstore h hstep

/-- An index changes only when an upload puts it, and an upload wants to put its index only when it
    has found none. -/
theorem run_step_index {a : Action} (hstep : run.step codec basePath job objects a = some (objects', run')) :
    (∀ digest, objects' (deriveBlobPath basePath digest) = objects (deriveBlobPath basePath digest) ∨
        run.phase = .putting ∧ digest = codec.hash job.input ∧
          objects' (deriveBlobPath basePath digest) =
            some (codec.encode (statBlobResponse run.collected))) ∧
      (run'.phase = .putting →
        run.phase = .putting ∨ objects (deriveBlobPath basePath (codec.hash job.input)) = none) := by
  cases a with
  | nextChunk =>
    simp only [Run.step] at hstep
    split at hstep
    · split_ifs at hstep
      cases hstep
      exact ⟨fun _ => .inl rfl, .inl⟩
    · cases hstep
  | streamError =>
    simp only [Run.step] at hstep
    split at hstep
    · cases hstep
      exact ⟨fun _ => .inl rfl, fun hputting => by cases hputting⟩
    · cases hstep
  | head j reachable =>
    simp only [Run.step] at hstep
    split at hstep
    · obtain ⟨t, -, hstep⟩ := Option.bind_eq_some_iff.mp hstep
      obtain ⟨t', -, hstep⟩ := Option.bind_eq_some_iff.mp hstep
      cases hstep
      exact ⟨fun _ => .inl rfl, .inl⟩
    · cases hstep
  | put j outcome =>
    simp only [Run.step] at hstep
    obtain ⟨t, -, hstep⟩ := Option.bind_eq_some_iff.mp hstep
    obtain ⟨⟨objects'', t'⟩, ht', hstep⟩ := Option.bind_eq_some_iff.mp hstep
    cases hstep
    refine ⟨fun digest => .inl ?_, .inl⟩
    unfold Task.put at ht'
    split at ht'
    · split at ht'
      · cases ht'
        rfl
      · next raw hraw =>
        cases ht'
        have hne := (deriveChunkPath_ne_deriveBlobPath basePath (codec.hash t.data) digest).symm
        cases outcome with
        | refused => rfl
        | stored => exact Function.update_of_ne hne _ _
        | storedAndFailed => exact Function.update_of_ne hne _ _
    · cases ht'
  | collect =>
    simp only [Run.step] at hstep
    split at hstep
    · cases hstep
      exact ⟨fun _ => .inl rfl, .inl⟩
    · cases hstep
      exact ⟨fun _ => .inl rfl, fun hputting => by cases hputting⟩
    · cases hstep
  | headBlob reachable =>
    simp only [Run.step] at hstep
    split at hstep
    · split_ifs at hstep
      · split at hstep
        · cases hstep
          exact ⟨fun _ => .inl rfl, fun hputting => by cases hputting⟩
        · next hnone =>
          cases hstep
          exact ⟨fun _ => .inl rfl, fun _ => .inr hnone⟩
      · cases hstep
        exact ⟨fun _ => .inl rfl, fun hputting => by cases hputting⟩
    · cases hstep
  | putBlob outcome =>
    simp only [Run.step] at hstep
    split at hstep
    · next hphase =>
      cases hstep
      refine ⟨fun digest => ?_, fun hputting => by cases hputting⟩
      by_cases hdigest : digest = codec.hash job.input
      · subst hdigest
        cases outcome with
        | refused => exact .inl rfl
        | stored => exact .inr ⟨hphase, rfl, Function.update_self ..⟩
        | storedAndFailed => exact .inr ⟨hphase, rfl, Function.update_self ..⟩
      · have hne : deriveBlobPath basePath digest ≠ deriveBlobPath basePath (codec.hash job.input) :=
          fun heq => hdigest (deriveBlobPath_injective basePath heq)
        cases outcome with
        | refused => exact .inl rfl
        | stored => exact .inl (Function.update_of_ne hne _ _)
        | storedAndFailed => exact .inl (Function.update_of_ne hne _ _)
    · cases hstep

namespace System

variable {s s' : System ι}

/-- The invariant of the store, and of every upload. -/
structure Inv (codec : Codec) (basePath : ObjectPath) (jobs : ι → Job) (s : System ι) : Prop where
  store : StoreInv codec basePath jobs s.objects
  runs : ∀ i, RunInv codec basePath (jobs i) s.objects (s.runs i)

theorem inv_start : Inv codec basePath jobs (start jobs) where
  store := by
    refine ⟨?_, ?_⟩
    · intro digest raw hraw
      cases hraw
    · intro digest raw hraw
      cases hraw
  runs := by
    intro i
    refine ⟨⟨[], rfl, rfl, ?_⟩, ?_, ?_, ?_⟩
    · intro data hdata
      cases hdata
    · intro t ht
      cases ht
    · intro hphase
      cases hphase
    · intro digest hphase
      cases hphase

/-- The index under the digest lists chunks, and no upload is about to put one that lists none. -/
structure SplitUp (codec : Codec) (basePath : ObjectPath) (jobs : ι → Job) (digest : B3Digest)
    (s : System ι) : Prop where
  index : ∃ i, codec.hash (jobs i).input = digest ∧ 2 ≤ (jobs i).chunks.length ∧
    s.objects (deriveBlobPath basePath digest) = some (codec.encode ((jobs i).response codec)) ∧
    ∀ data ∈ (jobs i).chunks, HasChunk codec basePath s.objects data
  putting : ∀ i, (s.runs i).phase = .putting → codec.hash (jobs i).input = digest →
    2 ≤ (jobs i).chunks.length

/-- An upload of a single chunk, or of none, has its contents under the digest of the blob. -/
theorem two_le_chunks {i : ι} {digest : B3Digest} (hdigest : codec.hash (jobs i).input = digest)
    (hempty : digest ≠ codec.hash []) (hchunk : s.objects (deriveChunkPath basePath digest) = none)
    (hchunks : ∀ data ∈ (jobs i).chunks, HasChunk codec basePath s.objects data) :
    2 ≤ (jobs i).chunks.length := by
  have hflatten := (jobs i).flatten_eq
  match hl : (jobs i).chunks with
  | [] =>
    rw [hl, List.flatten_nil] at hflatten
    rw [← hflatten] at hdigest
    exact absurd hdigest.symm hempty
  | [data] =>
    rw [hl, List.flatten_cons, List.flatten_nil, List.append_nil] at hflatten
    have hhas := hchunks data (by rw [hl]; exact List.mem_cons_self)
    unfold HasChunk at hhas
    rw [hflatten, hdigest, hchunk] at hhas
    cases hhas
  | _ :: _ :: _ => simp

theorem Inv.splitUp (h : Inv codec basePath jobs s) {digest : B3Digest}
    (hempty : digest ≠ codec.hash []) (hchunk : s.objects (deriveChunkPath basePath digest) = none)
    (hindex : (s.objects (deriveBlobPath basePath digest)).isSome) :
    SplitUp codec basePath jobs digest s where
  index := by
    obtain ⟨raw, hraw⟩ := Option.isSome_iff_exists.mp hindex
    obtain ⟨i, hdigest, hencode, hchunks⟩ := h.store.index digest raw hraw
    exact ⟨i, hdigest, two_le_chunks hdigest hempty hchunk hchunks, hencode ▸ hraw, hchunks⟩
  putting := by
    intro i hphase hdigest
    exact two_le_chunks hdigest hempty hchunk ((h.runs i).of_putting hphase).2

variable [DecidableEq ι]

/-- What a step of the system is. -/
theorem step_cases {i : ι} {a : Action} (hstep : step codec basePath jobs s i a = some s') :
    ∃ objects run, (s.runs i).step codec basePath (jobs i) s.objects a = some (objects, run) ∧
      s' = ⟨objects, Function.update s.runs i run⟩ := by
  obtain ⟨⟨objects, run⟩, hrun, hs'⟩ := Option.bind_eq_some_iff.mp hstep
  cases hs'
  exact ⟨objects, run, hrun, rfl⟩

theorem Inv.step (h : Inv codec basePath jobs s) {i : ι} {a : Action}
    (hstep : step codec basePath jobs s i a = some s') :
    Inv codec basePath jobs s' ∧ s.objects.Grows s'.objects := by
  obtain ⟨objects, run, hrun, rfl⟩ := step_cases hstep
  have hkeeps := run_step_spec h.store (h.runs i) hrun
  refine ⟨⟨hkeeps.store, ?_⟩, hkeeps.grows⟩
  intro k
  by_cases hk : k = i
  · subst hk
    show RunInv codec basePath (jobs k) objects (Function.update s.runs k run k)
    rw [Function.update_self]
    exact hkeeps.run
  · show RunInv codec basePath (jobs k) objects (Function.update s.runs i run k)
    rw [Function.update_of_ne hk]
    exact (h.runs k).grows hkeeps.grows

theorem Inv.reaches (h : Inv codec basePath jobs s) (hreach : Reaches codec basePath jobs s s') :
    Inv codec basePath jobs s' ∧ s.objects.Grows s'.objects := by
  induction hreach with
  | refl => exact ⟨h, .refl _⟩
  | tail _ hstep ih =>
    obtain ⟨i, a, hstep⟩ := hstep
    obtain ⟨hinv, hgrows⟩ := ih.1.step hstep
    exact ⟨hinv, ih.2.trans hgrows⟩

theorem SplitUp.step {digest : B3Digest} (h : SplitUp codec basePath jobs digest s)
    (hinv : Inv codec basePath jobs s) {i : ι} {a : Action}
    (hstep : step codec basePath jobs s i a = some s') :
    SplitUp codec basePath jobs digest s' := by
  obtain ⟨objects, run, hrun, rfl⟩ := step_cases hstep
  obtain ⟨hobjects, hphase⟩ := run_step_index hrun
  have hgrows := (run_step_spec hinv.store (hinv.runs i) hrun).grows
  constructor
  · rcases hobjects digest with hsame | ⟨hputting, hdigest, hnew⟩
    · obtain ⟨k, hk, hlen, hraw, hchunks⟩ := h.index
      exact ⟨k, hk, hlen, hsame.trans hraw, fun data hdata => (hchunks data hdata).grows hgrows⟩
    · obtain ⟨hcollected, hchunks⟩ := (hinv.runs i).of_putting hputting
      rw [hcollected] at hnew
      exact ⟨i, hdigest.symm, h.putting i hputting hdigest.symm, hnew,
        fun data hdata => (hchunks data hdata).grows hgrows⟩
  · intro k hk hdigest
    by_cases heq : k = i
    · subst heq
      simp only [Function.update_self] at hk
      rcases hphase hk with hputting | hnone
      · exact h.putting k hputting hdigest
      · obtain ⟨k', -, -, hraw, -⟩ := h.index
        rw [hdigest, hraw] at hnone
        cases hnone
    · simp only [Function.update_of_ne heq] at hk
      exact h.putting k hk hdigest

theorem SplitUp.reaches {digest : B3Digest} (h : SplitUp codec basePath jobs digest s)
    (hinv : Inv codec basePath jobs s) (hreach : Reaches codec basePath jobs s s') :
    SplitUp codec basePath jobs digest s' := by
  induction hreach with
  | refl => exact h
  | tail hfrom hstep ih =>
    obtain ⟨i, a, hstep⟩ := hstep
    exact ih.step (hinv.reaches hfrom).1 hstep

-- ====================
-- What is read
-- ====================

omit [DecidableEq ι] in
/-- A digest under which there is a chunk is read from it. -/
theorem openRead_chunk (hlawful : codec.Lawful jobs) (moment : ℕ → Objects)
    (hstore : StoreInv codec basePath jobs (moment 0)) {digest : B3Digest}
    (h : digest = codec.hash [] ∨ (moment 0 (deriveChunkPath basePath digest)).isSome) :
    ∃ contents, openRead codec basePath moment digest = .ok (some (.cursor contents)) ∧
      codec.hash contents = digest ∧ (contents = [] ∨ ∃ i, contents ∈ (jobs i).chunks) := by
  unfold openRead
  by_cases hempty : digest = codec.hash []
  · rw [if_pos hempty]
    exact ⟨[], rfl, hempty.symm, .inl rfl⟩
  · rw [if_neg hempty]
    obtain ⟨raw, hraw⟩ := Option.isSome_iff_exists.mp (h.resolve_left hempty)
    obtain ⟨i, data, hdata, hdigest, hcompress⟩ := hstore.chunk digest raw hraw
    simp only [hraw, hlawful.decompress data raw hcompress, hdigest, ne_eq, not_true_eq_false,
      if_false]
    exact ⟨data, rfl, hdigest, .inr ⟨i, hdata⟩⟩

omit [DecidableEq ι] in
theorem mapM_chunk_chunkMeta (l : List Bytes) :
    (l.map (chunkMeta codec)).mapM ChunkMeta.chunk =
      some (l.map fun data => (codec.hash data, data.length.toUInt64)) := by
  induction l with
  | nil => rfl
  | cons data l ih =>
    rw [List.map_cons, List.mapM_cons, ih]
    simp [ChunkMeta.chunk, chunkMeta]

/-- The chunks of an upload, read one after the other, are its input. -/
theorem yields_chunks (hlawful : codec.Lawful jobs) (hinv : Inv codec basePath jobs s) {i : ι}
    (hfit : (jobs i).input.length < 2 ^ 64) (hlen : 2 ≤ (jobs i).chunks.length)
    (hchunks : ∀ data ∈ (jobs i).chunks, HasChunk codec basePath s.objects data)
    (checks : Bool) {blobs : B3Digest → Option Bytes}
    (hblobs : OpensLater codec basePath jobs s blobs) :
    (BlobSource.chunked ((jobs i).chunks.map fun data =>
      (codec.hash data, data.length.toUInt64))).Yields checks blobs (jobs i).input := by
  have hflatten := (jobs i).flatten_eq
  -- a chunk that was there is still there when it is opened, with the same contents
  have hblob : ∀ data ∈ (jobs i).chunks, blobs (codec.hash data) = some data := by
    intro data hdata
    obtain ⟨moment, ⟨hfirst, -⟩, hopens⟩ := hblobs (codec.hash data)
    obtain ⟨hinv', hgrows⟩ := hinv.reaches hfirst
    obtain ⟨contents, hopen, hhash, hmem⟩ := openRead_chunk hlawful
      (fun k => (moment k).objects) hinv'.store (.inr ((hchunks data hdata).grows hgrows))
    have hsame := hlawful.collisionFree contents data hmem (.inr ⟨i, hdata⟩) hhash
    rw [hopens contents hopen, hsame]
  have hsize : ∀ data ∈ (jobs i).chunks, data.length.toUInt64.toNat = data.length := by
    intro data hdata
    have hle : data.length ≤ (jobs i).input.length := by
      rw [← hflatten]
      exact (List.sublist_flatten_of_mem hdata).length_le
    simp only [Nat.toUInt64_eq, UInt64.toNat_ofNat']
    exact Nat.mod_eq_of_lt (by omega)
  have hcontents : ((jobs i).chunks.map fun data => (codec.hash data, data.length.toUInt64)).flatMap
      (ChunkedReader.chunkContents blobs) = (jobs i).input := by
    rw [List.flatMap_map, ← hflatten, ← List.flatMap_id]
    apply List.flatMap_congr
    intro data hdata
    simp only [ChunkedReader.chunkContents, hblob data hdata]
    rfl
  intro search hsearch calls
  rw [← hcontents]
  apply ChunkedReader.chunkedReader_cursor search hsearch blobs checks
  · intro hnil
    rw [List.map_eq_nil_iff] at hnil
    rw [hnil] at hlen
    cases hlen
  · intro chunk hchunk
    obtain ⟨data, hdata, rfl⟩ := List.mem_map.mp hchunk
    exact ⟨data, hblob data hdata, (hsize data hdata).symm⟩
  · rw [hcontents]
    exact hfit

/-- A digest under which there is a chunk or an index can be read. -/
theorem Inv.readable (hlawful : codec.Lawful jobs) (hfit : ∀ i, (jobs i).input.length < 2 ^ 64)
    (hinv : Inv codec basePath jobs s) (checks : Bool) {digest : B3Digest}
    (h : (s.objects (deriveBlobPath basePath digest)).isSome ∨
      (s.objects (deriveChunkPath basePath digest)).isSome) :
    Readable codec basePath checks jobs s digest := by
  rintro moment ⟨hfirst, hnext⟩
  obtain ⟨hinv₀, hgrows₀⟩ := hinv.reaches hfirst
  by_cases hchunk : digest = codec.hash [] ∨
      ((moment 0).objects (deriveChunkPath basePath digest)).isSome
  · obtain ⟨contents, hopen, hhash, -⟩ := openRead_chunk hlawful
      (fun k => (moment k).objects) hinv₀.store hchunk
    exact ⟨_, contents, hopen, hhash, fun _ _ => rfl⟩
  · obtain ⟨hempty, hnone⟩ := not_or.mp hchunk
    rw [Option.not_isSome_iff_eq_none] at hnone
    have hindex : ((moment 0).objects (deriveBlobPath basePath digest)).isSome := by
      rcases h with h | h
      · exact hgrows₀ _ h
      · have hsome := hgrows₀ _ h
        rw [hnone] at hsome
        cases hsome
    -- there is no chunk under the digest, so the index that is found next lists chunks
    have hsplit₁ := (hinv₀.splitUp hempty hnone hindex).reaches hinv₀ (hnext 0)
    obtain ⟨hinv₁, -⟩ := hinv₀.reaches (hnext 0)
    obtain ⟨i, hdigest, hlen, hraw, hchunks⟩ := hsplit₁.index
    have hmetas : ((jobs i).response codec).chunks = (jobs i).chunks.map (chunkMeta codec) := by
      unfold Job.response statBlobResponse
      rw [List.length_map]
      exact if_neg (by omega)
    refine ⟨.chunked ((jobs i).chunks.map fun data => (codec.hash data, data.length.toUInt64)),
      (jobs i).input, ?_, hdigest, ?_⟩
    · unfold openRead chunks
      rw [if_neg hempty]
      simp only [hnone, Nat.zero_add, hraw, hlawful.decode i, hmetas, mapM_chunk_chunkMeta]
    · intro blobs hblobs
      exact yields_chunks hlawful hinv₁ (hfit i) hlen hchunks checks hblobs

/-- At every moment of any number of uploads of blobs shorter than 2^64 bytes, in any interleaving
    and with any failures, indexes list chunks that are there, everything can be read under its own
    digest, and so can what was uploaded successfully. -/
theorem uploads_sound (codec : Codec) (basePath : ObjectPath) (checks : Bool) (jobs : ι → Job)
    (hlawful : codec.Lawful jobs) (hfit : ∀ i, (jobs i).input.length < 2 ^ 64) (s : System ι)
    (hreach : Reaches codec basePath jobs (start jobs) s) :
    Sound codec basePath checks jobs s := by
  obtain ⟨hinv, -⟩ := inv_start.reaches hreach
  constructor
  · intro digest raw hraw
    obtain ⟨i, -, hencode, hchunks⟩ := hinv.store.index digest raw hraw
    refine ⟨(jobs i).response codec, ?_, ?_⟩
    · rw [hencode]
      exact hlawful.decode i
    · intro m hm
      unfold Job.response statBlobResponse at hm
      dsimp only at hm
      split_ifs at hm
      · cases hm
      · obtain ⟨data, hdata, rfl⟩ := List.mem_map.mp hm
        exact ⟨codec.hash data, rfl, hchunks data hdata⟩
  · intro digest hentry
    exact hinv.readable hlawful hfit checks hentry
  · intro i digest hphase
    obtain ⟨hdigest, hindex⟩ := (hinv.runs i).finished digest hphase
    exact ⟨hdigest, hinv.readable hlawful hfit checks (.inl hindex)⟩

-- ====================
-- An upload that is not disturbed
-- ====================

theorem reaches_run {runs : ι → Run} {i : ι} {a : Action}
    (h : run.step codec basePath (jobs i) objects a = some (objects', run')) :
    Reaches codec basePath jobs ⟨objects, Function.update runs i run⟩
      ⟨objects', Function.update runs i run'⟩ := by
  apply Relation.ReflTransGen.single
  refine ⟨i, a, ?_⟩
  simp [step, h]

/-- The upload of one chunk. -/
theorem reaches_chunk (basePath : ObjectPath) (jobs : ι → Job) (runs : ι → Run) (i : ι)
    {data raw : Bytes} (hraw : codec.compress data = some raw) (unread : List Bytes)
    (collected : List ChunkMeta) (objects : Objects) :
    ∃ objects', Reaches codec basePath jobs
        ⟨objects, Function.update runs i ⟨data :: unread, [], collected, .uploading⟩⟩
        ⟨objects', Function.update runs i ⟨unread, [], collected ++ [chunkMeta codec data], .uploading⟩⟩ ∧
      ∀ path, path ≠ deriveChunkPath basePath (codec.hash data) → objects' path = objects path := by
  have hnext : Reaches codec basePath jobs
      ⟨objects, Function.update runs i ⟨data :: unread, [], collected, .uploading⟩⟩
      ⟨objects, Function.update runs i ⟨unread, [⟨data, .checking⟩], collected, .uploading⟩⟩ :=
    reaches_run (a := .nextChunk) rfl
  have hcollect : ∀ objects, Reaches codec basePath jobs
      ⟨objects, Function.update runs i ⟨unread, [⟨data, .done⟩], collected, .uploading⟩⟩
      ⟨objects, Function.update runs i
        ⟨unread, [], collected ++ [chunkMeta codec data], .uploading⟩⟩ :=
    fun objects => reaches_run (a := .collect) rfl
  cases hfound : objects (deriveChunkPath basePath (codec.hash data)) with
  | some found =>
    refine ⟨objects, hnext.trans (.trans ?_ (hcollect objects)), fun _ _ => rfl⟩
    apply reaches_run (a := .head 0 true)
    simp [Run.step, Task.head, hfound]
  | none =>
    have hhead : Reaches codec basePath jobs
        ⟨objects, Function.update runs i ⟨unread, [⟨data, .checking⟩], collected, .uploading⟩⟩
        ⟨objects, Function.update runs i ⟨unread, [⟨data, .putting⟩], collected, .uploading⟩⟩ := by
      apply reaches_run (a := .head 0 true)
      simp [Run.step, Task.head, hfound]
    refine ⟨Function.update objects (deriveChunkPath basePath (codec.hash data)) (some raw),
      hnext.trans (hhead.trans (.trans ?_ (hcollect _))),
      fun path hpath => Function.update_of_ne hpath _ _⟩
    apply reaches_run (a := .put 0 .stored)
    simp [Run.step, Task.put, hraw, Objects.put]

theorem reaches_chunks (basePath : ObjectPath) (jobs : ι → Job) (runs : ι → Run) (i : ι)
    {l : List Bytes} (hcompress : ∀ data ∈ l, (codec.compress data).isSome) (collected : List ChunkMeta)
    (objects : Objects) :
    ∃ objects', Reaches codec basePath jobs
        ⟨objects, Function.update runs i ⟨l, [], collected, .uploading⟩⟩
        ⟨objects', Function.update runs i ⟨[], [], collected ++ l.map (chunkMeta codec), .uploading⟩⟩ ∧
      ∀ path, (∀ data ∈ l, path ≠ deriveChunkPath basePath (codec.hash data)) →
        objects' path = objects path := by
  induction l generalizing collected objects with
  | nil =>
    refine ⟨objects, ?_, fun _ _ => rfl⟩
    rw [List.map_nil, List.append_nil]
    exact .refl
  | cons data l ih =>
    obtain ⟨raw, hraw⟩ := Option.isSome_iff_exists.mp (hcompress data List.mem_cons_self)
    obtain ⟨objects₁, hfirst, hframe₁⟩ := 
      reaches_chunk basePath jobs runs i hraw l collected objects
    obtain ⟨objects₂, hrest, hframe₂⟩ := ih (fun d hd => hcompress d (List.mem_cons_of_mem _ hd))
      (collected ++ [chunkMeta codec data]) objects₁
    refine ⟨objects₂, ?_, ?_⟩
    · rw [List.map_cons, List.append_cons]
      exact hfirst.trans hrest
    · intro path hpath
      rw [hframe₂ path fun d hd => hpath d (List.mem_cons_of_mem _ hd),
        hframe₁ path (hpath data List.mem_cons_self)]

/-- An upload alone, without failures, succeeds. -/
theorem reaches_finished (i : ι) (hcompress : ∀ data ∈ (jobs i).chunks, (codec.compress data).isSome) :
    ∃ s, Reaches codec basePath jobs (start jobs) s ∧
      (s.runs i).phase = .finished (.ok (codec.hash (jobs i).input)) ∧
      s.objects (deriveBlobPath basePath (codec.hash (jobs i).input)) =
        some (codec.encode ((jobs i).response codec)) ∧
      ∀ digest, (∀ data ∈ (jobs i).chunks, digest ≠ codec.hash data) →
        s.objects (deriveChunkPath basePath digest) = none := by
  obtain ⟨objects, hchunks, hframe⟩ := 
    reaches_chunks basePath jobs (start jobs).runs i hcompress [] fun _ => none
  have hstart : start jobs =
      ⟨fun _ => none, Function.update (start jobs).runs i ⟨(jobs i).chunks, [], [], .uploading⟩⟩ := by
    rw [show (⟨(jobs i).chunks, [], [], .uploading⟩ : Run) = (start jobs).runs i from rfl,
      Function.update_eq_self]
    rfl
  have hindex : objects (deriveBlobPath basePath (codec.hash (jobs i).input)) = none :=
    hframe _ fun data _ => (deriveChunkPath_ne_deriveBlobPath _ _ _).symm
  rw [List.nil_append, ← hstart] at hchunks
  refine ⟨⟨Function.update objects (deriveBlobPath basePath (codec.hash (jobs i).input))
      (some (codec.encode ((jobs i).response codec))), Function.update (start jobs).runs i
        ⟨[], [], (jobs i).chunks.map (chunkMeta codec),
          .finished (.ok (codec.hash (jobs i).input))⟩⟩, ?_, ?_, ?_, ?_⟩
  · have hhead : Reaches codec basePath jobs
        ⟨objects, Function.update (start jobs).runs i
          ⟨[], [], (jobs i).chunks.map (chunkMeta codec), .uploading⟩⟩
        ⟨objects, Function.update (start jobs).runs i
          ⟨[], [], (jobs i).chunks.map (chunkMeta codec), .putting⟩⟩ := by
      apply reaches_run (a := .headBlob true)
      simp [Run.step, hindex]
    exact hchunks.trans (hhead.trans (reaches_run (a := .putBlob .stored) rfl))
  · simp only [Function.update_self]
  · exact Function.update_self ..
  · intro digest hdigest
    show Function.update objects _ _ _ = none
    rw [Function.update_of_ne (deriveChunkPath_ne_deriveBlobPath _ _ _)]
    exact hframe _ fun data hdata heq =>
      hdigest data hdata (deriveChunkPath_injective basePath heq)

-- ====================
-- A short blob and a long one
-- ====================

/-- The blob is one byte long. -/
def shortJob : Job := ⟨[97], [[97]], rfl⟩

/-- The digests of the empty string and of the blob, the compression of short strings, and the
    encoding of an index that lists nothing. -/
def shortCodec : Codec where
  hash b :=
    if b = [] then ⟨[175, 19, 73, 185, 245, 249, 161, 166, 160, 64, 77, 234, 54, 220, 201, 73, 155,
      203, 37, 201, 173, 193, 18, 183, 204, 154, 147, 202, 228, 31, 50, 98], of_decide_eq_true rfl⟩
    else ⟨[23, 118, 47, 221, 217, 105, 164, 83, 146, 93, 101, 113, 122, 195, 238, 162, 19, 32, 182,
      107, 84, 52, 47, 222, 21, 18, 141, 108, 175, 33, 33, 95], of_decide_eq_true rfl⟩
  compress b := some ([0x28, 0xB5, 0x2F, 0xFD, 0x00, 0x58] ++
    [(b.length * 8 + 1).toUInt8, (b.length / 32).toUInt8, (b.length / 8192).toUInt8] ++ b)
  decompress raw := some (raw.drop 9)
  encode _ := []
  decode _ := some ⟨[], []⟩

/-- Two values with different hashes do not collide. -/
theorem eq_of_hash_eq {α β : Type} {hash : α → β} {x y a b : α} (hne : hash x ≠ hash y)
    (ha : a = x ∨ a = y) (hb : b = x ∨ b = y) (h : hash a = hash b) : a = b := by
  rcases ha with rfl | rfl <;> rcases hb with rfl | rfl
  · rfl
  · exact absurd h hne
  · exact absurd h.symm hne
  · rfl

theorem lawful_shortCodec : shortCodec.Lawful fun _ : Unit => shortJob where
  decompress := by
    intro data raw hraw
    cases hraw
    rfl
  decode := by
    intro i
    rfl
  collisionFree := by
    have hne : shortCodec.hash [] ≠ shortCodec.hash [97] := by decide
    have hmem : ∀ a : Bytes, (a = [] ∨ ∃ _ : Unit, a ∈ shortJob.chunks) → a = [] ∨ a = [97] := by
      intro a ha
      rcases ha with ha | ⟨-, ha⟩
      · exact .inl ha
      · exact .inr (List.mem_singleton.mp ha)
    exact fun a b ha hb => eq_of_hash_eq hne (hmem a ha) (hmem b hb)

/-- After the upload of a short blob. -/
theorem uploads_sound_short :
    shortCodec.Lawful (fun _ : Unit => shortJob) ∧ (∀ _ : Unit, shortJob.input.length < 2 ^ 64) ∧
      ∃ s, Reaches shortCodec [] (fun _ : Unit => shortJob) (start fun _ => shortJob) s ∧
        (s.runs ()).phase = .finished (.ok (shortCodec.hash [97])) ∧
        Sound shortCodec [] true (fun _ => shortJob) s := by
  have hfit : ∀ _ : Unit, shortJob.input.length < 2 ^ 64 := by
    intro _
    decide
  obtain ⟨s, hreach, hphase, -, -⟩ :=
    @reaches_finished shortCodec [] Unit (fun _ => shortJob) _ () fun _ _ => rfl
  exact ⟨lawful_shortCodec, hfit, s, hreach, hphase,
    uploads_sound shortCodec [] true (fun _ => shortJob) lawful_shortCodec hfit s hreach⟩

/-- A blob that consists of the same chunk again and again. -/
def repeatedJob (n : ℕ) (chunk : Bytes) : Job :=
  ⟨(List.replicate n chunk).flatten, List.replicate n chunk, rfl⟩

theorem extent_replicate (n : ℕ) (chunk : B3Digest × UInt64) :
    extent ChunkedBlob.listedSize (List.replicate n chunk) = n * chunk.2.toNat := by
  rw [extent, List.map_replicate, List.sum_replicate]
  rfl

/-- Chunks whose sizes add up to 2^64 make a checked build panic, and any other read nothing. -/
theorem run_wrapped {n : ℕ} {chunk : B3Digest × UInt64} (hsize : 0 < chunk.2.toNat)
    (h : (n + 1) * chunk.2.toNat = 2 ^ 64) (blobs : B3Digest → Option Bytes) :
    ChunkedReader.run searchLast blobs true (List.replicate (n + 1) chunk) [] = .error .overflow ∧
      ChunkedReader.run searchLast blobs false (List.replicate (n + 1) chunk)
        [.pollRead 1 fun _ => some 0] = .ok [.contents []] := by
  have hn : n * chunk.2.toNat + chunk.2.toNat = 2 ^ 64 := by
    rw [← Nat.succ_mul]
    exact h
  have hfold : ∀ checks, (List.replicate n chunk).foldlM (ChunkedBlob.push checks) ([], 0) =
      .ok (ChunkedBlob.entries 0 (List.replicate n chunk), n * chunk.2.toNat) := by
    intro checks
    have hfold := @ChunkedBlob.foldlM_push checks (List.replicate n chunk) 0 []
    rw [extent_replicate, Nat.zero_add] at hfold
    exact hfold (by omega)
  have hpush : ∀ checks acc, (List.replicate (n + 1) chunk).foldlM (ChunkedBlob.push checks) acc =
      (List.replicate n chunk).foldlM (ChunkedBlob.push checks) acc >>=
        fun acc => ChunkedBlob.push checks acc chunk := by
    intro checks acc
    rw [List.replicate_succ', List.foldlM_append]
    simp
  have htrue : addU64 true (n * chunk.2.toNat) chunk.2.toNat = none := by
    unfold addU64
    rw [if_neg (by omega)]
    rfl
  have hfalse : addU64 false (n * chunk.2.toNat) chunk.2.toNat = some 0 := by
    unfold addU64
    rw [if_neg (by omega), hn]
    rfl
  constructor
  · rw [ChunkedReader.run, ChunkedReader.fromChunks, ChunkedBlob.fromIter, hpush, hfold]
    simp [bind, Except.bind, ChunkedBlob.push, htrue]
  · have hblob : ChunkedBlob.fromIter false (List.replicate (n + 1) chunk) =
        .ok (ChunkedBlob.entries 0 (List.replicate n chunk) ++
          [⟨n * chunk.2.toNat, chunk.2.toNat, chunk.1⟩]) := by
      rw [ChunkedBlob.fromIter, hpush, hfold]
      simp [bind, Except.bind, ChunkedBlob.push, hfalse, pure, Except.pure]
    have hlength : ChunkedBlob.blobLength (ChunkedBlob.entries 0 (List.replicate n chunk) ++
        [⟨n * chunk.2.toNat, chunk.2.toNat, chunk.1⟩]) = 0 := by
      unfold ChunkedBlob.blobLength
      rw [List.getLast?_concat]
      dsimp only
      rw [hn]
      rfl
    rw [ChunkedReader.run, ChunkedReader.fromChunks, hblob]
    simp only [bind, Except.bind, ChunkedBlob.readerSkippedOffset, hlength, if_true]
    rfl

/-- The chunks opened now, for what can be read from a chunk. -/
def openNow (codec : Codec) (basePath : ObjectPath) (s : System ι) (digest : B3Digest) :
    Option Bytes :=
  match openRead codec basePath (fun _ => s.objects) digest with
  | .ok (some (.cursor contents)) => some contents
  | _ => none

theorem opensLater_openNow (codec : Codec) (basePath : ObjectPath) (jobs : ι → Job) (s : System ι) :
    OpensLater codec basePath jobs s (openNow codec basePath s) := by
  intro digest
  refine ⟨fun _ => s, ⟨.refl, fun _ => .refl⟩, ?_⟩
  intro contents hopen
  unfold openNow
  rw [hopen]

/-- A blob of 2^64 bytes is uploaded and cannot be read. -/
theorem not_sound_of_wrapped {n : ℕ} {chunk : Bytes} (hn : n ≠ 0)
    (hlen : (n + 1) * chunk.length = 2 ^ 64)
    (hlawful : codec.Lawful fun _ : Unit => repeatedJob (n + 1) chunk)
    (hcompress : (codec.compress chunk).isSome)
    (hempty : codec.hash (repeatedJob (n + 1) chunk).input ≠ codec.hash [])
    (hchunk : codec.hash (repeatedJob (n + 1) chunk).input ≠ codec.hash chunk) :
    ∃ s, Reaches codec basePath (fun _ : Unit => repeatedJob (n + 1) chunk)
        (start fun _ => repeatedJob (n + 1) chunk) s ∧
      ∀ checks, ¬ Sound codec basePath checks (fun _ : Unit => repeatedJob (n + 1) chunk) s := by
  have hmem : ∀ data ∈ (repeatedJob (n + 1) chunk).chunks, data = chunk :=
    fun data hdata => List.eq_of_mem_replicate hdata
  obtain ⟨s, hreach, hphase, hindex, hframe⟩ :=
    @reaches_finished codec basePath Unit (fun _ => repeatedJob (n + 1) chunk) _ () fun data hdata => by
      rw [hmem data hdata]
      exact hcompress
  refine ⟨s, hreach, ?_⟩
  intro checks hsound
  have hnone := hframe (codec.hash (repeatedJob (n + 1) chunk).input) fun data hdata => by
    rw [hmem data hdata]
    exact hchunk
  have hmetas : ((repeatedJob (n + 1) chunk).response codec).chunks =
      (List.replicate (n + 1) chunk).map (chunkMeta codec) := by
    unfold Job.response statBlobResponse
    rw [List.length_map]
    refine if_neg ?_
    show ¬ (List.replicate (n + 1) chunk).length < 2
    rw [List.length_replicate]
    omega
  have hopen : openRead codec basePath (fun _ => s.objects)
      (codec.hash (repeatedJob (n + 1) chunk).input) =
        .ok (some (.chunked (List.replicate (n + 1) (codec.hash chunk, chunk.length.toUInt64)))) := by
    unfold openRead chunks
    rw [if_neg hempty]
    simp only [hnone, hindex, hlawful.decode (), hmetas, mapM_chunk_chunkMeta]
    rw [List.map_replicate]
  obtain ⟨source, contents, hsource, hhash, hyields⟩ :=
    (hsound.finished () _ hphase).2 (fun _ => s) ⟨.refl, fun _ => .refl⟩
  rw [hopen] at hsource
  cases hsource
  have hyields := hyields _ (opensLater_openNow codec basePath _ s)
  have hpos : 0 < chunk.length := by
    refine Nat.pos_of_ne_zero fun h0 => ?_
    rw [h0, Nat.mul_zero] at hlen
    omega
  have hsize : chunk.length.toUInt64.toNat = chunk.length := by
    simp only [Nat.toUInt64_eq, UInt64.toNat_ofNat']
    refine Nat.mod_eq_of_lt ?_
    have hle : 2 * chunk.length ≤ (n + 1) * chunk.length := Nat.mul_le_mul_right _ (by omega)
    omega
  obtain ⟨htrue, hfalse⟩ := @run_wrapped n (codec.hash chunk, chunk.length.toUInt64)
    (hsize.symm ▸ hpos) (hsize.symm ▸ hlen) (openNow codec basePath s)
  cases checks with
  | true =>
    obtain ⟨os, hos, -⟩ := hyields searchLast isBinarySearch_searchLast []
    rw [htrue] at hos
    cases hos
  | false =>
    obtain ⟨os, hos, hrun⟩ := hyields searchLast isBinarySearch_searchLast [.pollRead 1 fun _ => some 0]
    rw [hfalse] at hos
    cases hos
    cases hrun with
    | cons hstep _ =>
      cases hstep with
      | read _ _ _ _ _ _ hend _ =>
        obtain h0 | h0 := hend rfl
        · cases h0
        · have hnil : contents = [] := List.eq_nil_of_length_eq_zero (Nat.le_zero.mp h0)
          rw [hnil] at hhash
          exact hempty hhash.symm

/-- A chunk of 2^24 bytes, the largest there is. -/
def block : Bytes := List.replicate (2 ^ 24) 0

theorem length_block : block.length = 2 ^ 24 := List.length_replicate

/-- A blob of 2^64 bytes. -/
def longJob : Job := repeatedJob (2 ^ 40 - 1 + 1) block

theorem length_longJob : longJob.input.length = 2 ^ 64 := by
  show (List.replicate (2 ^ 40 - 1 + 1) block).flatten.length = 2 ^ 64
  rw [List.length_flatten, List.map_replicate, List.sum_replicate, length_block]
  rfl

/-- Digests that tell the empty string, the chunk and the blob apart. -/
def digestOfLength (n : ℕ) : B3Digest :=
  if n = 0 then ChunkedReader.digestOf 0
  else if n = 2 ^ 24 then ChunkedReader.digestOf 1
  else ChunkedReader.digestOf 2

/-- The list of the chunks of the blob. -/
def longChunks : List ChunkMeta := List.replicate (2 ^ 40 - 1 + 1) ⟨(digestOfLength (2 ^ 24)).val, 0x1000000⟩

def longCodec : Codec where
  hash b := digestOfLength b.length
  compress := some
  decompress := some
  encode _ := []
  decode _ := some ⟨longChunks, []⟩

theorem hash_longCodec (b : Bytes) : longCodec.hash b = digestOfLength b.length := rfl

theorem response_longJob : longJob.response longCodec = ⟨longChunks, []⟩ := by
  have hchunks : longJob.chunks.map (chunkMeta longCodec) = longChunks := by
    show (List.replicate (2 ^ 40 - 1 + 1) block).map (chunkMeta longCodec) = _
    rw [List.map_replicate, chunkMeta, hash_longCodec, length_block]
    rfl
  have hlen : ¬ longChunks.length < 2 := by
    rw [longChunks, List.length_replicate]
    decide
  rw [Job.response, hchunks, statBlobResponse, if_neg hlen]

theorem lawful_longCodec : longCodec.Lawful fun _ : Unit => longJob where
  decompress := by
    intro data raw hraw
    exact hraw.symm
  decode := by
    intro i
    rw [response_longJob]
    rfl
  collisionFree := by
    have hne : longCodec.hash [] ≠ longCodec.hash block := by
      rw [hash_longCodec, hash_longCodec, length_block]
      decide
    have hmem : ∀ a : Bytes, (a = [] ∨ ∃ _ : Unit, a ∈ longJob.chunks) → a = [] ∨ a = block := by
      intro a ha
      rcases ha with ha | ⟨-, ha⟩
      · exact .inl ha
      · exact .inr (List.eq_of_mem_replicate ha)
    exact fun a b ha hb => eq_of_hash_eq hne (hmem a ha) (hmem b hb)

/-- A blob of 2^64 bytes, in 2^40 chunks, is uploaded and cannot be read, neither by a checked build
    nor by any other. -/
theorem uploads_sound_long :
    longCodec.Lawful (fun _ : Unit => longJob) ∧
      ∃ s, Reaches longCodec [] (fun _ : Unit => longJob) (start fun _ => longJob) s ∧
        ¬ Sound longCodec [] true (fun _ => longJob) s ∧
        ¬ Sound longCodec [] false (fun _ => longJob) s := by
  have hempty : longCodec.hash longJob.input ≠ longCodec.hash [] := by
    rw [hash_longCodec, hash_longCodec, length_longJob]
    decide
  have hchunk : longCodec.hash longJob.input ≠ longCodec.hash block := by
    rw [hash_longCodec, hash_longCodec, length_longJob, length_block]
    decide
  have hlen : (2 ^ 40 - 1 + 1) * block.length = 2 ^ 64 := by
    rw [length_block]
    rfl
  obtain ⟨s, hreach, hs⟩ := @not_sound_of_wrapped longCodec [] (2 ^ 40 - 1) block (by omega) hlen
    lawful_longCodec rfl hempty hchunk
  exact ⟨lawful_longCodec, s, hreach, hs true, hs false⟩

end System

end Invariant

end Snix.Castore.ObjectStore
