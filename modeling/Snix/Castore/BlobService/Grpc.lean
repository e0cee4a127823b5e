import Snix.Castore.BlobService.ObjectStore
import Mathlib.Data.List.Induction

/-!
# Blobs of a remote service

A remote service is asked for the chunks of a blob. When there are several of them, the
blob is read chunk by chunk, and otherwise at once. The digests of the list are checked
and its sizes are not.

The reader adds the sizes up, and adds the size of a chunk to its offset wherever it
looks for a position. These sums are numbers of 64 bits.

## Main definitions

- `GrpcBlobService.openRead` — what a blob is read from, as the service answers
- `ChunkedBlob.SumsFit` — no sum exceeds 64 bits, and the offsets are sorted

## Main results

- `sumsFit_iff` — this holds of a list just if its sizes add up to less than 2^64
- `sumsFit_fails_hugeChunks` — and lists whose sizes do not are accepted
-/

namespace Snix.Castore

namespace GrpcBlobService

open ObjectStore

/-- What the service answers a request. -/
inductive Reply (α : Type) where
  | ok (response : α)
  | notFound
  | failed
  deriving DecidableEq

inductive ValidateStatBlobResponseError where
  | invalidDigestLen (len : ℕ) (i : ℕ)
  deriving DecidableEq

inductive OpenError where
  /-- A status other than not found. -/
  | status
  | invalidResponse (e : ValidateStatBlobResponseError)
  /-- The contents end with an error. -/
  | invalidData
  /-- The program panics: invalid b3 digest. -/
  | invalidDigest
  deriving DecidableEq

/-- All chunks from an index on must have valid digests. -/
def validateChunks (i : ℕ) : List ChunkMeta → Except ValidateStatBlobResponseError Unit
  | [] => .ok ()
  | chunk :: chunks =>
    if chunk.digest.length ≠ 32 then .error (.invalidDigestLen chunk.digest.length i)
    else validateChunks (i + 1) chunks

def validate (response : StatBlobResponse) : Except ValidateStatBlobResponseError Unit :=
  validateChunks 0 response.chunks

def chunks (stat : Reply StatBlobResponse) : Except OpenError (Option (List ChunkMeta)) :=
  match stat with
  | .notFound => .ok none
  | .failed => .error .status
  | .ok resp =>
    match validate resp with
    | .error e => .error (.invalidResponse e)
    | .ok () => .ok (some resp.chunks)

/-- The messages of a stream, put after what was received before. -/
def copy (buf : Bytes) : List (Except Unit Bytes) → Except OpenError Bytes
  | [] => .ok buf
  | .error _ :: _ => .error .invalidData
  | .ok data :: stream => copy (buf ++ data) stream

def openRead (stat : Reply StatBlobResponse) (read : Reply (List (Except Unit Bytes))) :
    Except OpenError (Option BlobSource) := do
  match ← chunks stat with
  | none => return none
  | some chunks =>
    if chunks = [] ∨ chunks.length = 1 then
      -- there is nothing more granular
      match read with
      | .ok stream => return some (.cursor (← copy [] stream))
      | .notFound => return none
      | .failed => .error .status
    else
      match chunks.mapM ChunkMeta.chunk with
      | none => .error .invalidDigest
      | some l => return some (.chunked l)

theorem mapM_chunk_of_validateChunks {i : ℕ} {l : List ChunkMeta} (h : validateChunks i l = .ok ()) :
    (l.mapM ChunkMeta.chunk).isSome := by
  induction l generalizing i with
  | nil => rfl
  | cons chunk l ih =>
    unfold validateChunks at h
    split_ifs at h with hlen
    have hchunk : ChunkMeta.chunk chunk = some (⟨chunk.digest, not_not.mp hlen⟩, chunk.size) := by
      rw [ChunkMeta.chunk, B3Digest.tryFrom, dif_pos (not_not.mp hlen)]
      rfl
    obtain ⟨rest, hrest⟩ := Option.isSome_iff_exists.mp (ih h)
    rw [List.mapM_cons, hchunk, hrest]
    rfl

theorem copy_ne_invalidDigest (buf : Bytes) (stream : List (Except Unit Bytes)) :
    copy buf stream ≠ .error .invalidDigest := by
  induction stream generalizing buf with
  | nil =>
    intro h
    cases h
  | cons message stream ih =>
    cases message with
    | error e =>
      intro h
      cases h
    | ok data => exact ih (buf ++ data)

/-- Digests that were checked are valid. -/
theorem openRead_ne_invalidDigest (stat : Reply StatBlobResponse)
    (read : Reply (List (Except Unit Bytes))) : openRead stat read ≠ .error .invalidDigest := by
  intro h
  unfold openRead chunks at h
  cases stat with
  | notFound => cases h
  | failed => cases h
  | ok resp =>
    cases hvalid : validate resp with
    | error e =>
      simp only [hvalid] at h
      cases h
    | ok _ =>
      simp only [hvalid, bind, Except.bind] at h
      obtain ⟨l, hl⟩ := Option.isSome_iff_exists.mp (mapM_chunk_of_validateChunks hvalid)
      split_ifs at h with hfew
      · cases read with
        | ok stream =>
          cases hstream : copy [] stream with
          | error e =>
            simp only [hstream] at h
            cases h
            exact copy_ne_invalidDigest [] stream hstream
          | ok buf =>
            simp only [hstream] at h
            cases h
        | notFound => cases h
        | failed => cases h
      · simp only [hl] at h
        cases h

end GrpcBlobService

-- ====================
-- Sums of sizes
-- ====================

namespace ChunkedBlob

/-- No sum of offsets and sizes exceeds 64 bits: not while the chunks are collected, not for the
    length, and not for any position that is looked for. The offsets are sorted, and a search may
    rely on it. -/
structure SumsFit (checks : Bool) (chunks : List (B3Digest × UInt64)) : Prop where
  collected : ∀ before chunk after, chunks = before ++ chunk :: after →
    ∀ blob offset, before.foldlM (push checks) ([], 0) = .ok (blob, offset) →
      offset + chunk.2.toNat < 2 ^ 64
  length : ∀ blob, fromIter checks chunks = .ok blob →
    ∀ chunk, blob.getLast? = some chunk → chunk.offset + chunk.size < 2 ^ 64
  compared : ∀ blob, fromIter checks chunks = .ok blob →
    ∀ chunk ∈ blob, chunk.offset + chunk.size < 2 ^ 64
  sorted : ∀ blob, fromIter checks chunks = .ok blob →
    (blob.map ChunkEntry.offset).Pairwise (· ≤ ·)
  searched : ∀ blob, fromIter checks chunks = .ok blob →
    ∀ pos, OrderedFor (blob.map (compareChunk pos))

variable {checks : Bool} {chunks : List (B3Digest × UInt64)} {blob : ChunkedBlob} {offset : ℕ}

theorem fromIter_ok (h : extent listedSize chunks < 2 ^ 64) (hblob : fromIter checks chunks = .ok blob) :
    blob = entries 0 chunks := by
  by_cases hne : chunks = []
  · subst hne
    cases hblob
  · rw [fromIter_eq hne h] at hblob
    exact (Except.ok.inj hblob).symm

/-- Offset and size of a chunk are a part of the whole. -/
theorem offset_add_size_le {entry : ChunkEntry} (h : entry ∈ entries 0 chunks) :
    entry.offset + entry.size ≤ extent listedSize chunks := by
  obtain ⟨i, hi⟩ := List.mem_iff_getElem?.mp h
  rw [getElem?_entries] at hi
  obtain ⟨chunk, hchunk, rfl⟩ := Option.map_eq_some_iff.mp hi
  show offsetAt listedSize chunks i + listedSize chunk ≤ _
  rw [← offsetAt_succ hchunk]
  apply offsetAt_le_extent

/-- Sizes that can be added one by one without exceeding the bound do not exceed it together. -/
theorem extent_lt_of_collected (h : ∀ before chunk after, chunks = before ++ chunk :: after →
    ∀ blob offset, before.foldlM (push checks) ([], 0) = .ok (blob, offset) →
      offset + chunk.2.toNat < 2 ^ 64) : extent listedSize chunks < 2 ^ 64 := by
  induction chunks using List.reverseRecOn with
  | nil => exact Nat.two_pow_pos 64
  | append_singleton chunks last ih =>
    have hinit : extent listedSize chunks < 2 ^ 64 := by
      apply ih
      intro before chunk after heq
      apply h before chunk (after ++ [last])
      rw [heq, List.append_assoc, List.cons_append]
    have hfold : chunks.foldlM (push checks) ([], 0) =
        .ok (entries 0 chunks, extent listedSize chunks) := by
      have hpush := @foldlM_push checks chunks 0 [] (by omega)
      rwa [List.nil_append, Nat.zero_add] at hpush
    rw [extent_append, extent_cons]
    exact h chunks last [] rfl _ _ hfold

theorem sumsFit_of_lt (h : extent listedSize chunks < 2 ^ 64) : SumsFit checks chunks where
  collected := by
    rintro before chunk after rfl blob offset hfold
    rw [extent_append, extent_cons] at h
    rw [foldlM_push [] (by omega), Nat.zero_add] at hfold
    cases hfold
    show extent listedSize before + listedSize chunk < 2 ^ 64
    omega
  length := by
    intro blob hblob chunk hchunk
    rw [fromIter_ok h hblob] at hchunk
    exact Nat.lt_of_le_of_lt (offset_add_size_le (List.mem_of_getLast? hchunk)) h
  compared := by
    intro blob hblob chunk hchunk
    rw [fromIter_ok h hblob] at hchunk
    exact Nat.lt_of_le_of_lt (offset_add_size_le hchunk) h
  sorted := by
    intro blob hblob
    rw [fromIter_ok h hblob, entries, List.map_map]
    exact sorted_offsets chunks
  searched := by
    intro blob hblob pos
    rw [fromIter_ok h hblob]
    exact orderedFor_compareChunk h pos

/-- The sums fit just if the sizes add up to less than 2^64. -/
theorem sumsFit_iff (checks : Bool) (chunks : List (B3Digest × UInt64)) :
    SumsFit checks chunks ↔ extent listedSize chunks < 2 ^ 64 := by
  constructor
  · intro h
    exact extent_lt_of_collected h.collected
  · exact sumsFit_of_lt

/-- The answer of a service that lists a chunk of 2^63 bytes twice. -/
def hugeResponse : ObjectStore.StatBlobResponse :=
  ⟨List.replicate 2 ⟨List.replicate 32 0, 0x8000000000000000⟩, []⟩

/-- A list whose sizes add up to 2^64 is accepted from a service, and from a stored index. A checked
    build panics, and in any other the blob is empty and its offsets are not sorted for a search. -/
theorem sumsFit_fails_hugeChunks :
    (∀ read, GrpcBlobService.openRead (.ok hugeResponse) read =
      .ok (some (.chunked ChunkedReader.hugeChunks))) ∧
    (∃ (codec : ObjectStore.Codec) (objects : ObjectStore.Objects),
      ObjectStore.openRead codec [] (fun _ => objects) (ChunkedReader.digestOf 1) =
        .ok (some (.chunked ChunkedReader.hugeChunks))) ∧
    fromIter true ChunkedReader.hugeChunks = .error .overflow ∧
    (∃ blob, fromIter false ChunkedReader.hugeChunks = .ok blob ∧ blobLength blob = 0 ∧
      ¬ OrderedFor (blob.map (compareChunk 0))) ∧
    ∀ checks, ¬ SumsFit checks ChunkedReader.hugeChunks := by
  refine ⟨fun _ => rfl, ⟨⟨fun _ => ChunkedReader.digestOf 0, some, some, fun _ => [],
    fun _ => some hugeResponse⟩, fun path => ?_, ?_⟩, ChunkedReader.fromIter_hugeChunks,
    ⟨[⟨0, 2 ^ 63, ChunkedReader.digestOf 0⟩, ⟨2 ^ 63, 2 ^ 63, ChunkedReader.digestOf 0⟩], rfl, rfl, ?_⟩, ?_⟩
  · exact if path = ObjectStore.deriveBlobPath [] (ChunkedReader.digestOf 1) then some [] else none
  · rfl
  · intro h
    have hpair := List.pairwise_iff_getElem.mp h 0 1 (by decide) (by decide) (by decide)
    exact absurd hpair (by decide)
  · intro checks h
    exact absurd (extent_lt_of_collected h.collected) (by decide)

end ChunkedBlob

end Snix.Castore
