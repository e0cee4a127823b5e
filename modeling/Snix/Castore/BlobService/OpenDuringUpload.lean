import Snix.Castore.BlobService.ObjectStore

/-!
# Opening a blob while it is uploaded

A blob is opened by up to three operations on the store: the chunk under its digest is
fetched, then the index, and without an index it is asked for the chunk again. An upload
may put its objects between them. A blob of one chunk has an index that lists nothing:
if chunk and index arrive after the first operation, the reader is made for no chunks,
which is refused with a panic.

## Main definitions

- `System.Opens` — nothing, an error, or a reader of the contents is returned
- `System.Undisturbed` — no chunk arrives between the operations

## Main results

- `opens_iff` — a blob is opened well just if it is undisturbed and its listed sizes fit
- `opens_fails_short` — the upload of one byte, while it is opened
-/

namespace Snix.Castore.ObjectStore

/-- The reader is made, without a panic. -/
def BlobSource.Made (checks : Bool) : BlobSource → Prop
  | .cursor _ => True
  | .chunked l => ∀ search, IsBinarySearch search →
      ∃ reader, ChunkedReader.fromChunks search checks l = .ok reader

namespace System

section Statement

variable (codec : Codec) (basePath : ObjectPath) {ι : Type} [DecidableEq ι] (jobs : ι → Job)

/-- Whatever a build checks, opening a blob returns nothing, an error, or a reader of contents with
    this digest, and does not panic. The `k`-th operation on the store is made at the `k`-th moment. -/
def Opens (moment : ℕ → System ι) (digest : B3Digest) : Prop :=
  match openRead codec basePath (fun k => (moment k).objects) digest with
  | .error e => e ≠ .invalidDigest
  | .ok none => True
  | .ok (some source) => (∀ checks, source.Made checks) ∧
      ∃ contents, codec.hash contents = digest ∧
        ∀ checks blobs, OpensLater codec basePath jobs (moment 1) blobs →
          source.Yields checks blobs contents

/-- A chunk that was not there at first does not appear, unless an index that lists chunks was found
    before; and the sizes of a list that is found fit in 64 bits. -/
structure Undisturbed (moment : ℕ → System ι) (digest : B3Digest) : Prop where
  chunk : digest ≠ codec.hash [] → (moment 0).objects (deriveChunkPath basePath digest) = none →
    ((moment 2).objects (deriveChunkPath basePath digest)).isSome →
      ∃ raw response, (moment 1).objects (deriveBlobPath basePath digest) = some raw ∧
        codec.decode raw = some response ∧ response.chunks ≠ []
  fits : digest ≠ codec.hash [] → (moment 0).objects (deriveChunkPath basePath digest) = none →
    ∀ raw response, (moment 1).objects (deriveBlobPath basePath digest) = some raw →
      codec.decode raw = some response → (response.chunks.map fun m => m.size.toNat).sum < 2 ^ 64

end Statement

-- ====================
-- What the operations find
-- ====================

variable {codec : Codec} {basePath : ObjectPath} {ι : Type} {jobs : ι → Job}

section Found

variable (moment : ℕ → Objects) {digest : B3Digest}

/-- An index is found, and no chunk was. -/
theorem openRead_index (hempty : digest ≠ codec.hash [])
    (hchunk : moment 0 (deriveChunkPath basePath digest) = none) {raw : Bytes}
    (hraw : moment 1 (deriveBlobPath basePath digest) = some raw) {response : StatBlobResponse}
    (hdecode : codec.decode raw = some response) {l : List (B3Digest × UInt64)}
    (hl : response.chunks.mapM ChunkMeta.chunk = some l) :
    openRead codec basePath moment digest = .ok (some (.chunked l)) := by
  unfold openRead chunks
  rw [if_neg hempty]
  simp only [hchunk, Nat.zero_add, hraw, hdecode, hl]

/-- No index is found, and the chunk only when it is asked for again. -/
theorem openRead_noIndex (hempty : digest ≠ codec.hash [])
    (hchunk : moment 0 (deriveChunkPath basePath digest) = none)
    (hraw : moment 1 (deriveBlobPath basePath digest) = none) :
    openRead codec basePath moment digest =
      .ok ((moment 2 (deriveChunkPath basePath digest)).map fun _ => .chunked []) := by
  unfold openRead chunks
  rw [if_neg hempty]
  simp only [hchunk, Nat.zero_add, hraw]
  cases moment 2 (deriveChunkPath basePath digest) with
  | none => rfl
  | some _ => rfl

/-- No reader is made for no chunks. -/
theorem not_made_nil (checks : Bool) : ¬ (BlobSource.chunked []).Made checks := by
  intro h
  obtain ⟨reader, hreader⟩ := h searchLast isBinarySearch_searchLast
  cases hreader

end Found

/-- Collecting chunks does not panic in a checked build just if their sizes fit. -/
theorem foldlM_push_true {chunks : List (B3Digest × UInt64)} {acc r : ChunkedBlob × ℕ}
    (hacc : acc.2 < 2 ^ 64) (h : chunks.foldlM (ChunkedBlob.push true) acc = .ok r) :
    acc.2 + extent ChunkedBlob.listedSize chunks < 2 ^ 64 := by
  induction chunks generalizing acc with
  | nil => exact hacc
  | cons chunk chunks ih =>
    rw [List.foldlM_cons] at h
    cases hsum : addU64 true acc.2 chunk.2.toNat with
    | none =>
      rw [show ChunkedBlob.push true acc chunk = .error .overflow by
        simp only [ChunkedBlob.push, hsum]] at h
      cases h
    | some offset =>
      rw [show ChunkedBlob.push true acc chunk =
          .ok (acc.1 ++ [⟨acc.2, chunk.2.toNat, chunk.1⟩], offset) by
        simp only [ChunkedBlob.push, hsum]] at h
      obtain ⟨rfl, hlt⟩ := fitU64_true_eq_some.mp hsum
      have hrest := ih hlt h
      rw [extent_cons, ← Nat.add_assoc]
      exact hrest

theorem extent_lt_of_made {l : List (B3Digest × UInt64)} (h : (BlobSource.chunked l).Made true) :
    extent ChunkedBlob.listedSize l < 2 ^ 64 := by
  obtain ⟨reader, hreader⟩ := h searchLast isBinarySearch_searchLast
  unfold ChunkedReader.fromChunks ChunkedBlob.fromIter at hreader
  cases hfold : l.foldlM (ChunkedBlob.push true) ([], 0) with
  | error e =>
    rw [hfold] at hreader
    cases hreader
  | ok r =>
    have hlt := foldlM_push_true (Nat.two_pow_pos 64) hfold
    rwa [Nat.zero_add] at hlt

/-- A reader is made for any chunks whose sizes fit. -/
theorem made_of_yields {checks : Bool} {blobs : B3Digest → Option Bytes} {contents : Bytes}
    {source : BlobSource} (h : source.Yields checks blobs contents) : source.Made checks := by
  cases source with
  | cursor b => trivial
  | chunked l =>
    intro search hsearch
    obtain ⟨os, hos, -⟩ := h search hsearch []
    unfold ChunkedReader.run at hos
    cases hreader : ChunkedReader.fromChunks search checks l with
    | error e =>
      rw [hreader] at hos
      cases hos
    | ok reader => exact ⟨reader, rfl⟩

/-- The index of several chunks lists them. -/
theorem chunks_response (codec : Codec) {job : Job} (h : 2 ≤ job.chunks.length) :
    (job.response codec).chunks = job.chunks.map (chunkMeta codec) := by
  unfold Job.response statBlobResponse
  rw [List.length_map]
  exact if_neg (by omega)

theorem chunks_response_nil (codec : Codec) {job : Job} (h : ¬ 2 ≤ job.chunks.length) :
    (job.response codec).chunks = [] := by
  unfold Job.response statBlobResponse
  rw [List.length_map]
  exact if_pos (by omega)

/-- The sizes an index lists are those of the chunks. -/
theorem sum_chunkMeta {l : List Bytes} (h : ∀ data ∈ l, data.length < 2 ^ 64) :
    ((l.map (chunkMeta codec)).map fun m => m.size.toNat).sum = l.flatten.length := by
  rw [List.length_flatten, List.map_map]
  congr 1
  apply List.map_congr_left
  intro data hdata
  show data.length.toUInt64.toNat = data.length
  simp only [Nat.toUInt64_eq, UInt64.toNat_ofNat']
  exact Nat.mod_eq_of_lt (h data hdata)

-- ====================
-- When a blob is opened well
-- ====================

section Main

variable [DecidableEq ι] {moment : ℕ → System ι} {digest : B3Digest}

/-- A blob whose chunk is there at first is opened well. -/
theorem opens_of_chunk (hlawful : codec.Lawful jobs) (hinv : Inv codec basePath jobs (moment 0))
    (h : digest = codec.hash [] ∨ ((moment 0).objects (deriveChunkPath basePath digest)).isSome) :
    Opens codec basePath jobs moment digest := by
  obtain ⟨contents, hopen, hhash, -⟩ :=
    openRead_chunk hlawful (fun k => (moment k).objects) hinv.store h
  unfold Opens
  rw [hopen]
  exact ⟨fun _ => trivial, contents, hhash, fun _ _ _ => rfl⟩

/-- An index that lists chunks is opened well if their sizes fit. -/
theorem opens_of_index (hlawful : codec.Lawful jobs) (hinv : Inv codec basePath jobs (moment 1))
    (hempty : digest ≠ codec.hash [])
    (hchunk : (moment 0).objects (deriveChunkPath basePath digest) = none) {i : ι}
    (hdigest : codec.hash (jobs i).input = digest)
    (hraw : (moment 1).objects (deriveBlobPath basePath digest) =
      some (codec.encode ((jobs i).response codec)))
    (hchunks : ∀ data ∈ (jobs i).chunks, HasChunk codec basePath (moment 1).objects data)
    (hlen : 2 ≤ (jobs i).chunks.length) (hfit : (jobs i).input.length < 2 ^ 64) :
    Opens codec basePath jobs moment digest := by
  have hmetas := chunks_response codec hlen
  have hopen := openRead_index (fun k => (moment k).objects) hempty hchunk hraw
    (hlawful.decode i) (hmetas ▸ mapM_chunk_chunkMeta (jobs i).chunks)
  have hyields := fun checks blobs (hblobs : OpensLater codec basePath jobs (moment 1) blobs) =>
    yields_chunks hlawful hinv hfit hlen hchunks checks hblobs
  unfold Opens
  rw [hopen]
  refine ⟨?_, (jobs i).input, hdigest, hyields⟩
  intro checks
  apply made_of_yields
  exact hyields checks (openNow codec basePath (moment 1)) (opensLater_openNow _ _ _ _)

theorem opens_of_undisturbed (hlawful : codec.Lawful jobs)
    (hsize : ∀ i, ∀ data ∈ (jobs i).chunks, data.length < 2 ^ 64)
    (hinv : ∀ k, Inv codec basePath jobs (moment k))
    (hgrows : (moment 1).objects.Grows (moment 2).objects)
    (h : Undisturbed codec basePath moment digest) : Opens codec basePath jobs moment digest := by
  by_cases hfirst : digest = codec.hash [] ∨
      ((moment 0).objects (deriveChunkPath basePath digest)).isSome
  · exact opens_of_chunk hlawful (hinv 0) hfirst
  · obtain ⟨hempty, hnone⟩ := not_or.mp hfirst
    rw [Option.not_isSome_iff_eq_none] at hnone
    cases hraw : (moment 1).objects (deriveBlobPath basePath digest) with
    | none =>
      -- without an index the chunk must not be found when it is asked for again
      have hlast : (moment 2).objects (deriveChunkPath basePath digest) = none := by
        rw [← Option.not_isSome_iff_eq_none]
        intro hsome
        obtain ⟨raw, -, hindex, -⟩ := h.chunk hempty hnone hsome
        rw [hraw] at hindex
        cases hindex
      have hopen := openRead_noIndex (fun k => (moment k).objects) hempty hnone hraw
      unfold Opens
      rw [hopen]
      simp only [hlast, Option.map_none]
    | some raw =>
      obtain ⟨i, hdigest, rfl, hchunks⟩ := (hinv 1).store.index digest raw hraw
      have hdecode := hlawful.decode i
      by_cases hlen : 2 ≤ (jobs i).chunks.length
      · have hfit := h.fits hempty hnone _ _ hraw hdecode
        rw [chunks_response codec hlen, sum_chunkMeta (hsize i), (jobs i).flatten_eq] at hfit
        exact opens_of_index hlawful (hinv 1) hempty hnone hdigest hraw hchunks hlen hfit
      · -- an index that lists nothing was put after the chunk
        exfalso
        have hsome : ((moment 1).objects (deriveChunkPath basePath digest)).isSome := by
          rw [← Option.ne_none_iff_isSome]
          intro hchunk
          exact hlen (two_le_chunks hdigest hempty hchunk hchunks)
        obtain ⟨raw, response, hindex, hresponse, hne⟩ := h.chunk hempty hnone (hgrows _ hsome)
        rw [hraw] at hindex
        cases hindex
        rw [hdecode] at hresponse
        cases hresponse
        exact hne (chunks_response_nil codec hlen)

theorem undisturbed_of_opens (hlawful : codec.Lawful jobs)
    (hinv : ∀ k, Inv codec basePath jobs (moment k))
    (h : Opens codec basePath jobs moment digest) : Undisturbed codec basePath moment digest := by
  have hindex : ∀ raw response, (moment 1).objects (deriveBlobPath basePath digest) = some raw →
      codec.decode raw = some response →
        ∃ l, response.chunks.mapM ChunkMeta.chunk = some l ∧
          extent ChunkedBlob.listedSize l = (response.chunks.map fun m => m.size.toNat).sum := by
    intro raw response hraw hresponse
    obtain ⟨i, -, rfl, -⟩ := (hinv 1).store.index digest raw hraw
    rw [hlawful.decode i] at hresponse
    cases hresponse
    by_cases hlen : 2 ≤ (jobs i).chunks.length
    · rw [chunks_response codec hlen]
      refine ⟨_, mapM_chunk_chunkMeta _, ?_⟩
      rw [extent, List.map_map, List.map_map]
      rfl
    · rw [chunks_response_nil codec hlen]
      exact ⟨[], rfl, rfl⟩
  constructor
  · intro hempty hnone hsome
    cases hraw : (moment 1).objects (deriveBlobPath basePath digest) with
    | none =>
      exfalso
      obtain ⟨chunk, hchunk⟩ := Option.isSome_iff_exists.mp hsome
      have hopen := openRead_noIndex (fun k => (moment k).objects) hempty hnone hraw
      unfold Opens at h
      rw [hopen] at h
      simp only [hchunk, Option.map_some] at h
      exact not_made_nil true (h.1 true)
    | some raw =>
      obtain ⟨i, -, rfl, -⟩ := (hinv 1).store.index digest raw hraw
      refine ⟨_, _, rfl, hlawful.decode i, ?_⟩
      intro hnil
      obtain ⟨l, hl, -⟩ := hindex _ _ hraw (hlawful.decode i)
      have hopen := openRead_index (fun k => (moment k).objects) hempty hnone hraw
        (hlawful.decode i) hl
      rw [hnil] at hl
      cases hl
      unfold Opens at h
      rw [hopen] at h
      exact not_made_nil true (h.1 true)
  · intro hempty hnone raw response hraw hresponse
    obtain ⟨l, hl, hsum⟩ := hindex _ _ hraw hresponse
    have hopen := openRead_index (fun k => (moment k).objects) hempty hnone hraw hresponse hl
    unfold Opens at h
    rw [hopen] at h
    rw [← hsum]
    exact extent_lt_of_made (h.1 true)

/-- At any time of any number of uploads a blob is opened well just if no chunk arrives under its
    digest between the operations, and the sizes that are listed fit in 64 bits. -/
theorem opens_iff (codec : Codec) (basePath : ObjectPath) (jobs : ι → Job) (hlawful : codec.Lawful jobs)
    (hsize : ∀ i, ∀ data ∈ (jobs i).chunks, data.length < 2 ^ 64) (s : System ι)
    (hreach : Reaches codec basePath jobs (start jobs) s) (moment : ℕ → System ι)
    (hchain : Chain codec basePath jobs s moment) (digest : B3Digest) :
    Opens codec basePath jobs moment digest ↔ Undisturbed codec basePath moment digest := by
  have hinv : ∀ k, Inv codec basePath jobs (moment k) := by
    intro k
    induction k with
    | zero => exact ((inv_start.reaches hreach).1.reaches hchain.1).1
    | succ k ih => exact (ih.reaches (hchain.2 k)).1
  constructor
  · exact undisturbed_of_opens hlawful hinv
  · exact opens_of_undisturbed hlawful hsize hinv ((hinv 1).reaches (hchain.2 1)).2

end Main

/-- A blob that was uploaded before it is opened. -/
theorem opens_iff_short :
    ∃ s, Reaches shortCodec [] (fun _ : Unit => shortJob) (start fun _ => shortJob) s ∧
      (s.runs ()).phase = .finished (.ok (shortCodec.hash [97])) ∧
      Opens shortCodec [] (fun _ => shortJob) (fun _ => s) (shortCodec.hash [97]) := by
  obtain ⟨s, hreach, hphase, -, -⟩ :=
    @reaches_finished shortCodec [] Unit (fun _ => shortJob) _ () fun _ _ => rfl
  refine ⟨s, hreach, hphase, ?_⟩
  apply (opens_iff shortCodec [] (fun _ => shortJob) lawful_shortCodec ?_ s hreach (fun _ => s)
    ⟨.refl, fun _ => .refl⟩ (shortCodec.hash [97])).mpr
  · constructor
    · intro _ hnone hsome
      rw [hnone] at hsome
      cases hsome
    · intro _ _ raw response _ hdecode
      cases hdecode
      exact Nat.two_pow_pos 64
  · intro _ data hdata
    rw [List.mem_singleton.mp hdata]
    decide

/-- A blob of one byte that is uploaded after its chunk was looked for. -/
theorem opens_fails_short :
    ∃ s, Reaches shortCodec [] (fun _ : Unit => shortJob) (start fun _ => shortJob) s ∧
      ∃ moment, Chain shortCodec [] (fun _ => shortJob) (start fun _ => shortJob) moment ∧
        moment 0 = start (fun _ => shortJob) ∧ moment 1 = s ∧
        openRead shortCodec [] (fun k => (moment k).objects) (shortCodec.hash [97]) =
          .ok (some (.chunked [])) ∧
        (∀ checks, ChunkedBlob.fromIter checks [] = .error .noChunks) ∧
        ¬ Opens shortCodec [] (fun _ => shortJob) moment (shortCodec.hash [97]) := by
  obtain ⟨s, hreach, -, hraw, -⟩ :=
    @reaches_finished shortCodec [] Unit (fun _ => shortJob) _ () fun _ _ => rfl
  let moment : ℕ → System Unit := fun k => if k = 0 then start fun _ => shortJob else s
  have hopen : openRead shortCodec [] (fun k => (moment k).objects) (shortCodec.hash [97]) =
      .ok (some (.chunked [])) :=
    openRead_index _ (by decide) rfl hraw rfl rfl
  refine ⟨s, hreach, moment, ⟨.refl, ?_⟩, rfl, rfl, hopen, fun _ => rfl, ?_⟩
  · intro k
    cases k with
    | zero => exact hreach
    | succ k => exact .refl
  · intro h
    unfold Opens at h
    rw [hopen] at h
    exact not_made_nil true (h.1 true)

end System

end Snix.Castore.ObjectStore
