import Snix.Lib.AsyncStream
import Snix.Lib.Cursor
import Snix.Lib.MachineInt
import Snix.Lib.Segments
import Snix.Castore.Node

/-!
# Reading a blob from its chunks

A blob that is stored as chunks is read by reading them one after the other; seeking
searches for the chunk the new position lies in and begins there anew.

## Main definitions

- `ChunkedBlob` — the chunks with their offsets
- `ChunkStream` — the chunks from a position on, while they are read
- `ChunkedReader` — the reader, with a step for every call

## Main results

- `chunkedReader_cursor` — the reader is a cursor over the contents of the chunks
-/

namespace Snix.Castore

/-- Why reading failed. Seeks that are refused are answers and not among them. -/
inductive ChunkedFault where
  /-- The offsets do not fit in 64 bits. -/
  | overflow
  /-- Chunks must be provided, don't use this for blobs without chunks. -/
  | noChunks
  /-- Outside of blob. -/
  | outsideOfBlob
  /-- Chunk not found. -/
  | chunkNotFound
  deriving DecidableEq

/-- A chunk, with the offset where it begins. -/
structure ChunkEntry where
  offset : ℕ
  size : ℕ
  digest : B3Digest
  deriving DecidableEq

abbrev ChunkedBlob := List ChunkEntry

namespace ChunkedBlob

/-- Adds a chunk, and its size to the offset. -/
def push (checks : Bool) (acc : ChunkedBlob × ℕ) (chunk : B3Digest × UInt64) :
    Except ChunkedFault (ChunkedBlob × ℕ) :=
  match addU64 checks acc.2 chunk.2.toNat with
  | none => .error .overflow
  | some offset => .ok (acc.1 ++ [⟨acc.2, chunk.2.toNat, chunk.1⟩], offset)

def fromIter (checks : Bool) (chunks : List (B3Digest × UInt64)) :
    Except ChunkedFault ChunkedBlob := do
  let (chunks, _) ← chunks.foldlM (push checks) ([], 0)
  if chunks = [] then .error .noChunks else return chunks

-- the sums wrap around, but were added up by `fromIter` before: they do not where it checks
def blobLength (blob : ChunkedBlob) : ℕ :=
  match blob.getLast? with
  | none => 0
  | some chunk => (chunk.offset + chunk.size) % 2 ^ 64

/-- Where a chunk lies, seen from a position. -/
def compareChunk (pos : ℕ) (chunk : ChunkEntry) : Ordering :=
  if (chunk.offset + chunk.size) % 2 ^ 64 ≤ pos then .lt
  else if pos < chunk.offset then .gt
  else .eq

def getChunkIdxForPosition (search : List Ordering → Except ℕ ℕ) (blob : ChunkedBlob) (pos : ℕ) :
    Option ℕ :=
  match search (blob.map (compareChunk pos)) with
  | .ok idx => some idx
  | .error _ => none

end ChunkedBlob

/-- The bytes that were fetched and not read, what is left of the chunk that is open, and the chunks
    to open next, each with the bytes to skip. -/
structure ChunkStream where
  buffered : Bytes
  current : Option Bytes
  rest : List (B3Digest × ℕ)
  deriving DecidableEq

namespace ChunkStream

def empty : ChunkStream := ⟨[], none, []⟩

variable (blobs : B3Digest → Option Bytes)

/-- Opens the next chunks until one of them gives bytes. -/
def nextChunk : List (B3Digest × ℕ) → Readiness → Except ChunkedFault (Poll Bytes × ChunkStream)
  | [], _ => .ok (.ready [], empty)
  | (digest, skip) :: rest, ready =>
    match ready 0 with
    | none => .ok (.pending, ⟨[], none, (digest, skip) :: rest⟩)
    | some _ =>
      match blobs digest with
      | none => .error .chunkNotFound
      | some b =>
        match ready 1 with
        | none => .ok (.pending, ⟨[], some (b.drop skip), rest⟩)
        | some k =>
          if b.drop skip = [] then nextChunk rest (ready.after 2)
          else .ok (.ready ((b.drop skip).take (k + 1)),
            ⟨(b.drop skip).take (k + 1), some ((b.drop skip).drop (k + 1)), rest⟩)

/-- A view of the bytes that come next; no bytes are the end. -/
def pollFillBuf (s : ChunkStream) (ready : Readiness) :
    Except ChunkedFault (Poll Bytes × ChunkStream) :=
  if s.buffered ≠ [] then .ok (.ready s.buffered, s)
  else
    match s.current with
    | none => nextChunk blobs s.rest ready
    | some r =>
      match ready 0 with
      | none => .ok (.pending, s)
      | some k =>
        if r = [] then nextChunk blobs s.rest (ready.after 1)
        else .ok (.ready (r.take (k + 1)), ⟨r.take (k + 1), some (r.drop (k + 1)), s.rest⟩)

def pollRead (s : ChunkStream) (cap : ℕ) (ready : Readiness) :
    Except ChunkedFault (Poll Bytes × ChunkStream) :=
  if cap = 0 then .ok (.ready [], s)
  else do
    match ← s.pollFillBuf blobs ready with
    | (.pending, s) => return (.pending, s)
    | (.ready view, s) => return (.ready (view.take cap), { s with buffered := s.buffered.drop cap })

end ChunkStream

/-- A reader of the blob from an offset on. -/
def ChunkedBlob.readerSkippedOffset (search : List Ordering → Except ℕ ℕ) (blob : ChunkedBlob)
    (offset : ℕ) : Except ChunkedFault ChunkStream :=
  if offset = blob.blobLength then .ok .empty
  else
    match blob.getChunkIdxForPosition search offset with
    | none => .error .outsideOfBlob
    | some startChunkIdx =>
      match blob.drop startChunkIdx with
      | [] => .error .outsideOfBlob
      | chunk :: rest =>
        .ok ⟨[], none, (chunk.digest, offset - chunk.offset) :: rest.map fun c => (c.digest, 0)⟩

structure ChunkedReader where
  chunkedBlob : ChunkedBlob
  r : ChunkStream
  pos : ℕ

inductive SeekError where
  /-- Over/underflow while seeking. -/
  | overUnderflow
  /-- Seeked beyond EOF. -/
  | beyondEof
  deriving DecidableEq

/-- Adds a signed number to an unsigned one; none if the sum does not fit in 64 bits. -/
def checkedAddSigned (n : ℕ) (k : Int64) : Option ℕ :=
  if 0 ≤ n + k.toInt ∧ n + k.toInt < 2 ^ 64 then some (n + k.toInt).toNat else none

namespace ChunkedReader

variable (search : List Ordering → Except ℕ ℕ) (blobs : B3Digest → Option Bytes)

def fromChunks (checks : Bool) (chunks : List (B3Digest × UInt64)) :
    Except ChunkedFault ChunkedReader := do
  let chunkedBlob ← ChunkedBlob.fromIter checks chunks
  let r ← chunkedBlob.readerSkippedOffset search 0
  return ⟨chunkedBlob, r, 0⟩

def pollRead (reader : ChunkedReader) (cap : ℕ) (ready : Readiness) :
    Except ChunkedFault (Poll Bytes × ChunkedReader) := do
  match ← reader.r.pollRead blobs cap ready with
  | (.pending, r) => return (.pending, { reader with r := r })
  | (.ready bytes, r) => return (.ready bytes, { reader with r := r, pos := reader.pos + bytes.length })

/-- The position that is meant. -/
def absoluteOffset (reader : ChunkedReader) : SeekFrom → Except SeekError ℕ
  | .start fromStart => .ok fromStart.toNat
  | .fromEnd fromEnd =>
    match checkedAddSigned reader.chunkedBlob.blobLength fromEnd with
    | none => .error .overUnderflow
    | some offset => .ok offset
  | .current fromCurrent =>
    match checkedAddSigned reader.pos fromCurrent with
    | none => .error .overUnderflow
    | some offset => .ok offset

/-- The inner result is what the seek answers; a seek that is refused does not change the reader. -/
def startSeek (reader : ChunkedReader) (position : SeekFrom) :
    Except ChunkedFault (Except SeekError ChunkedReader) :=
  match reader.absoluteOffset position with
  | .error e => .ok (.error e)
  | .ok absoluteOffset =>
    if absoluteOffset ≠ reader.pos then
      if reader.chunkedBlob.blobLength < absoluteOffset then .ok (.error .beyondEof)
      else do
        let r ← reader.chunkedBlob.readerSkippedOffset search absoluteOffset
        return .ok { reader with r := r, pos := absoluteOffset }
    else .ok (.ok reader)

/-- One call. -/
def step (reader : ChunkedReader) : CursorCall → Except ChunkedFault (CursorOutcome UInt8 × ChunkedReader)
  | .startSeek position => do
    match ← reader.startSeek search position with
    | .error _ => return (.refused, reader)
    | .ok reader => return (.started, reader)
  | .pollComplete _ => return (.position reader.pos, reader)
  | .pollRead cap ready => do
    match ← reader.pollRead blobs cap ready with
    | (.pending, reader) => return (.pending, reader)
    | (.ready bytes, reader) => return (.contents bytes, reader)

/-- Makes a reader for the chunks, and the calls on it. -/
def run (checks : Bool) (chunks : List (B3Digest × UInt64)) (calls : List CursorCall) :
    Except ChunkedFault (List (CursorOutcome UInt8)) := do
  let reader ← fromChunks search checks chunks
  driveCalls (step search blobs) reader calls

end ChunkedReader

-- ====================
-- The chunks and their offsets
-- ====================

namespace ChunkedBlob

/-- The size a chunk is listed with. -/
def listedSize (chunk : B3Digest × UInt64) : ℕ := chunk.2.toNat

/-- The chunks, the first of them at an offset. -/
def entries (off : ℕ) (chunks : List (B3Digest × UInt64)) : ChunkedBlob :=
  (layout listedSize off chunks).map fun s => ⟨s.1, listedSize s.2, s.2.1⟩

variable {checks : Bool} {chunks : List (B3Digest × UInt64)} {search : List Ordering → Except ℕ ℕ}

theorem foldlM_push {off : ℕ} (acc : ChunkedBlob) (h : off + extent listedSize chunks < 2 ^ 64) :
    chunks.foldlM (push checks) (acc, off) =
      .ok (acc ++ entries off chunks, off + extent listedSize chunks) := by
  induction chunks generalizing acc off with
  | nil => simp [entries, layout, pure, Except.pure]
  | cons chunk chunks ih =>
    rw [extent_cons] at h
    have hadd : addU64 checks off chunk.2.toNat = some (off + listedSize chunk) :=
      if_pos (show off + listedSize chunk < 2 ^ 64 by omega)
    have hpush : push checks (acc, off) chunk =
        .ok (acc ++ [⟨off, listedSize chunk, chunk.1⟩], off + listedSize chunk) := by
      simp only [push, hadd]
      rfl
    rw [List.foldlM_cons, hpush]
    show chunks.foldlM (push checks) _ = _
    rw [ih _ (by omega), extent_cons, Nat.add_assoc, List.append_assoc]
    rfl

theorem fromIter_eq (hne : chunks ≠ []) (h : extent listedSize chunks < 2 ^ 64) :
    fromIter checks chunks = .ok (entries 0 chunks) := by
  have hlen : entries 0 chunks ≠ [] := by
    rw [Ne, ← List.length_eq_zero_iff, entries, List.length_map, length_layout, List.length_eq_zero_iff]
    exact hne
  rw [fromIter, foldlM_push [] (by omega)]
  exact if_neg hlen

theorem getElem?_entries (i : ℕ) : (entries 0 chunks)[i]? =
    chunks[i]?.map fun chunk => ⟨offsetAt listedSize chunks i, listedSize chunk, chunk.1⟩ := by
  rw [entries, List.getElem?_map, getElem?_layout, Option.map_map, Nat.zero_add]
  rfl

theorem blobLength_entries (h : extent listedSize chunks < 2 ^ 64) :
    blobLength (entries 0 chunks) = extent listedSize chunks := by
  obtain rfl | ⟨init, last, rfl⟩ := List.eq_nil_or_concat chunks
  · rfl
  · rw [List.concat_eq_append] at h ⊢
    have hlast : (entries 0 (init ++ [last])).getLast? =
        some ⟨extent listedSize init, listedSize last, last.1⟩ := by
      rw [entries, layout_append, List.map_append, layout, List.map_cons, layout, List.map_nil,
        List.getLast?_concat, Nat.zero_add]
    rw [blobLength, hlast]
    rw [extent_append, extent_cons] at h ⊢
    exact Nat.mod_eq_of_lt h

/-- Where a chunk lies, as the comparison tells it. -/
theorem getElem?_compareChunk (h : extent listedSize chunks < 2 ^ 64) {pos i : ℕ} {o : Ordering}
    (ho : ((entries 0 chunks).map (compareChunk pos))[i]? = some o) :
    ∃ chunk, chunks[i]? = some chunk ∧
      o = if offsetAt listedSize chunks (i + 1) ≤ pos then .lt
        else if pos < offsetAt listedSize chunks i then .gt else .eq := by
  rw [List.getElem?_map, getElem?_entries] at ho
  obtain ⟨entry, hentry, rfl⟩ := Option.map_eq_some_iff.mp ho
  obtain ⟨chunk, hchunk, rfl⟩ := Option.map_eq_some_iff.mp hentry
  refine ⟨chunk, hchunk, ?_⟩
  have hle := @offsetAt_le_extent _ listedSize chunks (i + 1)
  rw [offsetAt_succ hchunk] at hle ⊢
  simp only [compareChunk, Nat.mod_eq_of_lt (Nat.lt_of_le_of_lt hle h)]

theorem orderedFor_compareChunk (h : extent listedSize chunks < 2 ^ 64) (pos : ℕ) :
    OrderedFor ((entries 0 chunks).map (compareChunk pos)) := by
  rw [OrderedFor, List.pairwise_iff_getElem]
  intro i j hi hj hij
  obtain ⟨a, -, ha⟩ := getElem?_compareChunk h (List.getElem?_eq_getElem hi)
  obtain ⟨b, -, hb⟩ := getElem?_compareChunk h (List.getElem?_eq_getElem hj)
  have hmono : offsetAt listedSize chunks (i + 1) ≤ offsetAt listedSize chunks j := offsetAt_mono hij
  have hnext := @offsetAt_le_succ _ listedSize chunks j
  rw [ha, hb]
  by_cases hlt : offsetAt listedSize chunks (i + 1) ≤ pos
  · simp [hlt]
  · -- the position lies before the later chunk
    rw [if_neg (show ¬ offsetAt listedSize chunks (j + 1) ≤ pos by omega),
      if_pos (show pos < offsetAt listedSize chunks j by omega)]
    exact ⟨fun _ => Ordering.noConfusion, fun _ => rfl⟩

/-- The search finds the chunk a position lies in. -/
theorem covers_of_getChunkIdxForPosition (hsearch : IsBinarySearch search)
    (h : extent listedSize chunks < 2 ^ 64) {pos : ℕ} (hpos : pos < extent listedSize chunks) :
    ∃ i, getChunkIdxForPosition search (entries 0 chunks) pos = some i ∧
      Covers listedSize chunks pos i := by
  have hord := orderedFor_compareChunk h pos
  rw [getChunkIdxForPosition]
  cases hres : search ((entries 0 chunks).map (compareChunk pos)) with
  | ok i =>
    obtain ⟨chunk, hchunk, ho⟩ := getElem?_compareChunk h (hsearch.found _ i hord hres)
    refine ⟨i, rfl, chunk, hchunk, ?_⟩
    rw [offsetAt_succ hchunk] at ho
    split_ifs at ho
    omega
  | error i =>
    -- the chunk that covers the position would compare equal
    exfalso
    obtain ⟨j, chunk, hchunk, hle, hlt⟩ := exists_covers hpos
    have hcmp : ((entries 0 chunks).map (compareChunk pos))[j]? = some .eq := by
      have hget : ((entries 0 chunks).map (compareChunk pos))[j]? = some (compareChunk pos
          ⟨offsetAt listedSize chunks j, listedSize chunk, chunk.1⟩) := by
        rw [List.getElem?_map, getElem?_entries, hchunk]
        rfl
      obtain ⟨-, -, ho⟩ := getElem?_compareChunk h hget
      rw [hget, ho, offsetAt_succ hchunk, if_neg (by omega), if_neg (by omega)]
    have hins := (hsearch.insertion _ i hord hres).2 j _ hcmp
    rcases Nat.lt_or_ge j i with hji | hji
    · cases hins.1 hji
    · cases hins.2 hji

end ChunkedBlob

-- ====================
-- Reading
-- ====================

namespace ChunkStream

variable {blobs : B3Digest → Option Bytes} {rest : List (B3Digest × ℕ)} {s : ChunkStream} {data : Bytes}

/-- What a chunk contains after the bytes to skip. -/
def skipped (blobs : B3Digest → Option Bytes) (chunk : B3Digest × ℕ) : Bytes :=
  ((blobs chunk.1).getD []).drop chunk.2

/-- The bytes the stream still gives; the chunks to open are all there. -/
structure Holds (blobs : B3Digest → Option Bytes) (s : ChunkStream) (data : Bytes) : Prop where
  eq : data = s.buffered ++ s.current.getD [] ++ s.rest.flatMap (skipped blobs)
  stored : ∀ chunk ∈ s.rest, (blobs chunk.1).isSome

theorem holds_unopened (h : ∀ chunk ∈ rest, (blobs chunk.1).isSome) :
    Holds blobs ⟨[], none, rest⟩ (rest.flatMap (skipped blobs)) := ⟨rfl, h⟩

/-- Fetching bytes of the open chunk does not change what the stream gives. -/
theorem Holds.fetch {r : Bytes} (h : Holds blobs ⟨[], some r, rest⟩ data) (k : ℕ) :
    Holds blobs ⟨r.take (k + 1), some (r.drop (k + 1)), rest⟩ data := by
  refine ⟨?_, h.stored⟩
  rw [h.eq]
  simp only [Option.getD_some, List.take_append_drop, List.nil_append]

theorem take_succ_ne_nil {r : Bytes} (h : r ≠ []) (k : ℕ) : r.take (k + 1) ≠ [] := by
  rw [Ne, List.take_eq_nil_iff, not_or]
  exact ⟨Nat.succ_ne_zero k, h⟩

/-- What a poll for a view gives. -/
def Views (blobs : B3Digest → Option Bytes) (data : Bytes) (ready : Readiness)
    (x : Except ChunkedFault (Poll Bytes × ChunkStream)) : Prop :=
  ∃ s, Holds blobs s data ∧
    ((x = .ok (.pending, s) ∧ ∃ i, ready i = none) ∨
      (x = .ok (.ready s.buffered, s) ∧ (s.buffered = [] → data = [])))

theorem Views.after {ready : Readiness} {n : ℕ} {x : Except ChunkedFault (Poll Bytes × ChunkStream)}
    (h : Views blobs data (ready.after n) x) : Views blobs data ready x := by
  obtain ⟨s, hs, ⟨hx, hnone⟩ | hready⟩ := h
  · exact ⟨s, hs, .inl ⟨hx, Readiness.exists_of_after hnone⟩⟩
  · exact ⟨s, hs, .inr hready⟩

theorem views_nextChunk (h : ∀ chunk ∈ rest, (blobs chunk.1).isSome) (ready : Readiness) :
    Views blobs (rest.flatMap (skipped blobs)) ready (nextChunk blobs rest ready) := by
  induction rest generalizing ready with
  | nil => exact ⟨empty, holds_unopened h, .inr ⟨rfl, fun _ => rfl⟩⟩
  | cons chunk rest ih =>
    obtain ⟨digest, skip⟩ := chunk
    obtain ⟨b, hb⟩ := Option.isSome_iff_exists.mp (h (digest, skip) List.mem_cons_self)
    have hrest : ∀ chunk ∈ rest, (blobs chunk.1).isSome := fun c hc => h c (List.mem_cons_of_mem _ hc)
    have hopen : Holds blobs ⟨[], some (b.drop skip), rest⟩
        (((digest, skip) :: rest).flatMap (skipped blobs)) := by
      refine ⟨?_, hrest⟩
      rw [List.flatMap_cons, skipped, hb]
      rfl
    rw [nextChunk]
    cases h0 : ready 0 with
    | none => exact ⟨_, holds_unopened h, .inl ⟨rfl, 0, h0⟩⟩
    | some k0 =>
      simp only [hb]
      cases h1 : ready 1 with
      | none => exact ⟨_, hopen, .inl ⟨rfl, 1, h1⟩⟩
      | some k =>
        by_cases hnil : b.drop skip = []
        · simp only [hnil, if_true]
          have hskip : ((digest, skip) :: rest).flatMap (skipped blobs) =
              rest.flatMap (skipped blobs) := by
            rw [List.flatMap_cons, skipped, hb, Option.getD_some, hnil, List.nil_append]
          rw [hskip]
          exact (ih hrest (ready.after 2)).after
        · simp only [hnil, if_false]
          refine ⟨_, hopen.fetch k, .inr ⟨rfl, fun htake => ?_⟩⟩
          exact absurd htake (take_succ_ne_nil hnil k)

theorem views_pollFillBuf (h : Holds blobs s data) (ready : Readiness) :
    Views blobs data ready (s.pollFillBuf blobs ready) := by
  obtain ⟨buffered, current, rest⟩ := s
  rw [pollFillBuf]
  by_cases hbuf : buffered = []
  · subst hbuf
    rw [if_neg (by simp)]
    cases current with
    | none =>
      have hdata : data = rest.flatMap (skipped blobs) := h.eq
      rw [hdata]
      exact views_nextChunk h.stored ready
    | some r =>
      dsimp only
      cases h0 : ready 0 with
      | none => exact ⟨_, h, .inl ⟨rfl, 0, h0⟩⟩
      | some k =>
        by_cases hr : r = []
        · subst hr
          simp only [if_true]
          have hdata : data = rest.flatMap (skipped blobs) := h.eq
          rw [hdata]
          exact (views_nextChunk h.stored (ready.after 1)).after
        · simp only [hr, if_false]
          refine ⟨_, h.fetch k, .inr ⟨rfl, fun htake => ?_⟩⟩
          exact absurd htake (take_succ_ne_nil hr k)
  · rw [if_pos hbuf]
    exact ⟨_, h, .inr ⟨rfl, fun hnil => absurd hnil hbuf⟩⟩

/-- What a read gives. -/
theorem pollRead_spec (h : Holds blobs s data) (cap : ℕ) (ready : Readiness) :
    (∃ s', s.pollRead blobs cap ready = .ok (.pending, s') ∧ Holds blobs s' data ∧
        ∃ i, ready i = none) ∨
      ∃ bytes s', s.pollRead blobs cap ready = .ok (.ready bytes, s') ∧
        Holds blobs s' (data.drop bytes.length) ∧ bytes <+: data ∧ bytes.length ≤ cap ∧
        (bytes = [] → cap = 0 ∨ data = []) := by
  rw [pollRead]
  by_cases hcap : cap = 0
  · rw [if_pos hcap]
    exact .inr ⟨[], s, rfl, h, List.nil_prefix, Nat.zero_le _, fun _ => .inl hcap⟩
  · rw [if_neg hcap]
    obtain ⟨s', hs', ⟨hx, hnone⟩ | ⟨hx, hend⟩⟩ := views_pollFillBuf h ready
    · rw [hx]
      exact .inl ⟨s', rfl, hs', hnone⟩
    · rw [hx]
      have hdata := hs'.eq
      rw [List.append_assoc] at hdata
      refine .inr ⟨s'.buffered.take cap, { s' with buffered := s'.buffered.drop cap }, rfl, ⟨?_, hs'.stored⟩,
        ?_, List.length_take_le _ _, fun hnil => ?_⟩
      · dsimp only
        rw [hdata, List.length_take, List.append_assoc]
        rcases Nat.le_total cap s'.buffered.length with hle | hle
        · rw [Nat.min_eq_left hle, List.drop_append_of_le_length hle]
        · rw [Nat.min_eq_right hle, List.drop_append_of_le_length (Nat.le_refl _),
            List.drop_of_length_le hle, List.drop_of_length_le (Nat.le_refl _)]
      · rw [hdata]
        exact (List.take_prefix _ _).trans (List.prefix_append _ _)
      · rcases List.take_eq_nil_iff.mp hnil with h0 | hbuf
        · exact absurd h0 hcap
        · exact .inr (hend hbuf)

end ChunkStream

namespace ChunkedReader

open ChunkedBlob ChunkStream

variable {search : List Ordering → Except ℕ ℕ} {blobs : B3Digest → Option Bytes}
  {chunks : List (B3Digest × UInt64)}

/-- The chunks are stored with the sizes they are listed with. -/
def SizesMatch (blobs : B3Digest → Option Bytes) (chunks : List (B3Digest × UInt64)) : Prop :=
  ∀ chunk ∈ chunks, ∃ b, blobs chunk.1 = some b ∧ b.length = chunk.2.toNat

/-- What a chunk contains. -/
def chunkContents (blobs : B3Digest → Option Bytes) (chunk : B3Digest × UInt64) : Bytes :=
  (blobs chunk.1).getD []

theorem SizesMatch.length_eq (h : SizesMatch blobs chunks) :
    ∀ chunk ∈ chunks, (chunkContents blobs chunk).length = listedSize chunk := by
  intro chunk hchunk
  obtain ⟨b, hb, hlen⟩ := h chunk hchunk
  rw [chunkContents, hb]
  exact hlen

theorem SizesMatch.length_flatMap (h : SizesMatch blobs chunks) :
    (chunks.flatMap (chunkContents blobs)).length = extent listedSize chunks := by
  rw [List.length_flatMap, extent]
  congr 1
  exact List.map_congr_left h.length_eq

theorem SizesMatch.isSome (h : SizesMatch blobs chunks) :
    ∀ chunk ∈ chunks, (blobs chunk.1).isSome := by
  intro chunk hchunk
  obtain ⟨b, hb, -⟩ := h chunk hchunk
  rw [hb]
  rfl

/-- A reader from an offset on gives the contents from there on. -/
theorem readerSkippedOffset_spec (hsearch : IsBinarySearch search) (hmatch : SizesMatch blobs chunks)
    (hfit : extent listedSize chunks < 2 ^ 64) {offset : ℕ} (hle : offset ≤ extent listedSize chunks) :
    ∃ s, readerSkippedOffset search (entries 0 chunks) offset = .ok s ∧
      Holds blobs s ((chunks.flatMap (chunkContents blobs)).drop offset) := by
  rw [readerSkippedOffset, blobLength_entries hfit]
  by_cases heq : offset = extent listedSize chunks
  · rw [if_pos heq, heq, ← hmatch.length_flatMap, List.drop_length]
    exact ⟨.empty, rfl, rfl, fun chunk h => by cases h⟩
  · rw [if_neg heq]
    obtain ⟨i, hi, chunk, hchunk, hlo, hhi⟩ :=
      covers_of_getChunkIdxForPosition hsearch hfit (Nat.lt_of_le_of_ne hle heq)
    obtain ⟨hlt, hget⟩ := List.getElem?_eq_some_iff.mp hchunk
    have hentry : (entries 0 chunks)[i]? =
        some ⟨offsetAt listedSize chunks i, listedSize chunk, chunk.1⟩ := by
      rw [getElem?_entries, hchunk]
      rfl
    obtain ⟨hilt, higet⟩ := List.getElem?_eq_some_iff.mp hentry
    have hdrop : (entries 0 chunks).drop i = ⟨offsetAt listedSize chunks i, listedSize chunk, chunk.1⟩ ::
        (entries 0 chunks).drop (i + 1) := by
      rw [List.drop_eq_getElem_cons hilt, higet]
    have hdigests : ((entries 0 chunks).drop (i + 1)).map (fun c => (c.digest, 0)) =
        (chunks.drop (i + 1)).map fun c => (c.1, 0) := by
      apply List.ext_getElem?
      intro j
      rw [List.getElem?_map, List.getElem?_drop, getElem?_entries, Option.map_map, List.getElem?_map,
        List.getElem?_drop]
      rfl
    rw [hi]
    simp only [hdrop, hdigests]
    refine ⟨_, rfl, ?_, ?_⟩
    · have hsplit := drop_flatMap hmatch.length_eq hchunk (offset - offsetAt listedSize chunks i) (by omega)
      rw [Nat.add_sub_cancel' hlo] at hsplit
      rw [hsplit, List.flatMap_cons, List.flatMap_map]
      rfl
    · intro c hc
      rcases List.mem_cons.mp hc with rfl | hc
      · exact hmatch.isSome chunk (List.mem_of_getElem? hchunk)
      · obtain ⟨c', hc', rfl⟩ := List.mem_map.mp hc
        exact hmatch.isSome c' (List.mem_of_mem_drop hc')

/-- The reader stands where the cursor does. -/
structure At (blobs : B3Digest → Option Bytes) (chunks : List (B3Digest × UInt64))
    (reader : ChunkedReader) (c : Cursor) : Prop where
  blob : reader.chunkedBlob = entries 0 chunks
  pos : c.pos = reader.pos
  le : reader.pos ≤ extent listedSize chunks
  holds : Holds blobs reader.r ((chunks.flatMap (chunkContents blobs)).drop reader.pos)

/-- Where a seek leads that is not refused at once. -/
theorem absoluteOffset_spec {reader : ChunkedReader} {c : Cursor}
    (hfit : extent listedSize chunks < 2 ^ 64) (h : At blobs chunks reader c) (position : SeekFrom) :
    (∃ n : ℕ, reader.absoluteOffset position = .ok n ∧
        position.target (extent listedSize chunks) c.pos = n) ∨
      ((∃ e, reader.absoluteOffset position = .error e) ∧
        ¬ (0 ≤ position.target (extent listedSize chunks) c.pos ∧
          position.target (extent listedSize chunks) c.pos ≤ extent listedSize chunks)) := by
  have hadd : ∀ (n : ℕ) (k : Int64), (∃ m : ℕ, checkedAddSigned n k = some m ∧ n + k.toInt = m) ∨
      (checkedAddSigned n k = none ∧
        ¬ (0 ≤ n + k.toInt ∧ n + k.toInt ≤ (extent listedSize chunks : ℕ))) := by
    intro n k
    unfold checkedAddSigned
    split_ifs with hin
    · exact .inl ⟨_, rfl, (Int.toNat_of_nonneg hin.1).symm⟩
    · exact .inr ⟨rfl, by omega⟩
  cases position with
  | start n => exact .inl ⟨n.toNat, rfl, rfl⟩
  | fromEnd k =>
    simp only [absoluteOffset, SeekFrom.target, h.blob, blobLength_entries hfit]
    obtain ⟨m, hm, heq⟩ | ⟨hnone, hout⟩ := hadd (extent listedSize chunks) k
    · exact .inl ⟨m, by rw [hm], heq⟩
    · exact .inr ⟨⟨.overUnderflow, by rw [hnone]⟩, hout⟩
  | current k =>
    simp only [absoluteOffset, SeekFrom.target, h.pos]
    obtain ⟨m, hm, heq⟩ | ⟨hnone, hout⟩ := hadd reader.pos k
    · exact .inl ⟨m, by rw [hm], heq⟩
    · exact .inr ⟨⟨.overUnderflow, by rw [hnone]⟩, hout⟩

theorem startSeek_spec (hsearch : IsBinarySearch search) (hmatch : SizesMatch blobs chunks)
    (hfit : extent listedSize chunks < 2 ^ 64) {reader : ChunkedReader} {c : Cursor}
    (h : At blobs chunks reader c) (position : SeekFrom) :
    ((∃ e, reader.startSeek search position = .ok (.error e)) ∧
        SeekPolicy.rejecting.seekTo (extent listedSize chunks)
          (position.target (extent listedSize chunks) c.pos) = none) ∨
      ∃ reader' n, reader.startSeek search position = .ok (.ok reader') ∧
        At blobs chunks reader' ⟨n, true⟩ ∧
        SeekPolicy.rejecting.seekTo (extent listedSize chunks)
          (position.target (extent listedSize chunks) c.pos) = some n := by
  rw [startSeek]
  obtain ⟨n, hn, htarget⟩ | ⟨⟨e, he⟩, hout⟩ := absoluteOffset_spec hfit h position
  · simp only [hn, htarget, SeekPolicy.rejecting]
    by_cases hsame : n = reader.pos
    · -- nothing changes, and the position lies within the blob as before
      have hle : n ≤ extent listedSize chunks := hsame ▸ h.le
      refine .inr ⟨reader, n, by rw [if_neg (not_not.mpr hsame)], ⟨h.blob, hsame, h.le, h.holds⟩, ?_⟩
      rw [if_pos (by omega), Int.toNat_natCast]
    · rw [if_pos hsame, h.blob, blobLength_entries hfit]
      by_cases hlt : extent listedSize chunks < n
      · exact .inl ⟨⟨.beyondEof, if_pos hlt⟩, if_neg (by omega)⟩
      · obtain ⟨r, hr, hholds⟩ := readerSkippedOffset_spec hsearch hmatch hfit (Nat.not_lt.mp hlt)
        refine .inr ⟨{ reader with r := r, pos := n }, n, ?_, ⟨h.blob, rfl, Nat.not_lt.mp hlt, hholds⟩, ?_⟩
        · rw [if_neg hlt, hr]
          rw [h.blob]
          rfl
        · rw [if_pos (by omega), Int.toNat_natCast]
  · exact .inl ⟨⟨e, by rw [he]⟩, if_neg hout⟩

/-- Every call is one of the cursor. -/
theorem step_spec (hsearch : IsBinarySearch search) (hmatch : SizesMatch blobs chunks)
    (hfit : extent listedSize chunks < 2 ^ 64) (reader : ChunkedReader) (c : Cursor) (call : CursorCall)
    (h : At blobs chunks reader c) :
    ∃ o reader' c', step search blobs reader call = .ok (o, reader') ∧
      CursorStep .rejecting (chunks.flatMap (chunkContents blobs)) c call o c' ∧
      At blobs chunks reader' c' := by
  have hlen := hmatch.length_flatMap
  cases call with
  | startSeek position =>
    obtain ⟨⟨e, he⟩, hnone⟩ | ⟨reader', n, hok, hat, hsome⟩ :=
      startSeek_spec hsearch hmatch hfit h position
    · refine ⟨.refused, reader, c, ?_, .rejected c position (by rw [hlen]; exact hnone), h⟩
      rw [step, he]
      rfl
    · refine ⟨.started, reader', ⟨n, true⟩, ?_,
        .started c position n (fun hexcl => by cases hexcl) (by rw [hlen]; exact hsome), hat⟩
      rw [step, hok]
      rfl
  | pollComplete ready =>
    refine ⟨.position reader.pos, reader, ⟨c.pos, false⟩, rfl, ?_, h.blob, h.pos, h.le, h.holds⟩
    rw [← h.pos]
    exact .complete c ready
  | pollRead cap ready =>
    obtain ⟨r, hr, hholds, hnone⟩ | ⟨bytes, r, hr, hholds, hpre, hcap, hend⟩ :=
      pollRead_spec h.holds cap ready
    · refine ⟨.pending, { reader with r := r }, ⟨c.pos, c.seeking⟩, ?_,
        .unready c cap ready c.seeking hnone (fun hs => hs), h.blob, h.pos, h.le, hholds⟩
      rw [step, pollRead, hr]
      rfl
    · refine ⟨.contents bytes, { reader with r := r, pos := reader.pos + bytes.length },
        ⟨c.pos + bytes.length, c.seeking⟩, ?_, ?_, h.blob, ?_, ?_, ?_⟩
      · rw [step, pollRead, hr]
        rfl
      · rw [← h.pos] at hpre hend
        refine .read c cap ready c.seeking bytes hpre hcap (fun hnil => ?_) (fun hs => hs)
        exact (hend hnil).imp_right List.drop_eq_nil_iff.mp
      · exact congrArg (· + bytes.length) h.pos
      · have hbytes := hpre.length_le
        rw [List.length_drop, hlen] at hbytes
        have hle := h.le
        show reader.pos + bytes.length ≤ _
        omega
      · rw [List.drop_drop] at hholds
        exact hholds

/-- Every sequence of calls on a reader of the chunks is answered as by a cursor over their contents
    that refuses seeks beyond the end or before the start. -/
def ReadsLikeCursor (search : List Ordering → Except ℕ ℕ) (blobs : B3Digest → Option Bytes)
    (checks : Bool) (chunks : List (B3Digest × UInt64)) : Prop :=
  ∀ calls, ∃ os, run search blobs checks chunks calls = .ok os ∧
    CursorRun .rejecting (chunks.flatMap (chunkContents blobs)) ⟨0, false⟩ calls os

/-- A reader of chunks whose contents are addressed by 64-bit offsets is a cursor. -/
theorem chunkedReader_cursor (search : List Ordering → Except ℕ ℕ) (hsearch : IsBinarySearch search)
    (blobs : B3Digest → Option Bytes) (checks : Bool) (chunks : List (B3Digest × UInt64))
    (hne : chunks ≠ []) (hmatch : SizesMatch blobs chunks)
    (hfit : (chunks.flatMap (chunkContents blobs)).length < 2 ^ 64) :
    ReadsLikeCursor search blobs checks chunks := by
  rw [hmatch.length_flatMap] at hfit
  intro calls
  obtain ⟨r, hr, hholds⟩ :=
    readerSkippedOffset_spec hsearch hmatch hfit (Nat.zero_le (extent listedSize chunks))
  have hat : At blobs chunks ⟨entries 0 chunks, r, 0⟩ ⟨0, false⟩ := ⟨rfl, rfl, Nat.zero_le _, hholds⟩
  obtain ⟨os, hos, hrun⟩ := exists_cursorRun
    (fun s c call hs (_ : True) => step_spec hsearch hmatch hfit s c call hs) hat
    (allowedAlong_of_forall (fun _ _ => trivial) _ calls)
  have hfrom : fromChunks search checks chunks = .ok ⟨entries 0 chunks, r, 0⟩ := by
    rw [fromChunks, fromIter_eq hne hfit]
    show (readerSkippedOffset search (entries 0 chunks) 0 >>= fun r =>
      pure (ChunkedReader.mk (entries 0 chunks) r 0)) = _
    rw [hr]
    rfl
  refine ⟨os, ?_, hrun⟩
  rw [run, hfrom]
  exact hos

/-- The digest all of whose bytes are the same. -/
def digestOf (b : UInt8) : B3Digest := List.Vector.replicate 32 b

/-- Two chunks, one of them empty. -/
def twoChunks (k : B3Digest) : Option Bytes :=
  if k = digestOf 0 then some [] else if k = digestOf 1 then some [1, 2] else none

theorem sizesMatch_twoChunks :
    SizesMatch twoChunks [(digestOf 1, 2), (digestOf 0, 0), (digestOf 1, 2)] := by
  intro chunk hchunk
  simp only [List.mem_cons, List.not_mem_nil, or_false] at hchunk
  obtain rfl | rfl | rfl := hchunk
  · exact ⟨[1, 2], by decide, rfl⟩
  · exact ⟨[], by decide, rfl⟩
  · exact ⟨[1, 2], by decide, rfl⟩

theorem chunkedReader_cursor_empty_chunk :
    ReadsLikeCursor searchLast twoChunks true [(digestOf 1, 2), (digestOf 0, 0), (digestOf 1, 2)] :=
  chunkedReader_cursor searchLast isBinarySearch_searchLast twoChunks true _ (by decide)
    sizesMatch_twoChunks (by decide)

/-- A chunk as large as half of all offsets. -/
def hugeChunk : Bytes := List.replicate (2 ^ 63) 0

theorem length_hugeChunk : hugeChunk.length = 2 ^ 63 := List.length_replicate

/-- The chunk twice. -/
def hugeChunks : List (B3Digest × UInt64) :=
  [(digestOf 0, 0x8000000000000000), (digestOf 0, 0x8000000000000000)]

theorem length_hugeChunks :
    (hugeChunks.flatMap (chunkContents fun _ => some hugeChunk)).length = 2 ^ 64 := by
  show (hugeChunk ++ (hugeChunk ++ [])).length = 2 ^ 64
  rw [List.append_nil, List.length_append, length_hugeChunk]
  rfl

theorem fromIter_hugeChunks : ChunkedBlob.fromIter true hugeChunks = .error .overflow := by decide

/-- The length wraps around to nothing. -/
theorem run_hugeChunks : run searchLast (fun _ => some hugeChunk) false hugeChunks
    [.pollRead 1 fun _ => some 0] = .ok [.contents []] := rfl

/-- Offsets that do not fit make a checked build panic, and any other lose the contents. -/
theorem chunkedReader_overflow :
    hugeChunks ≠ [] ∧ SizesMatch (fun _ => some hugeChunk) hugeChunks ∧
      ¬ ReadsLikeCursor searchLast (fun _ => some hugeChunk) true hugeChunks ∧
      ¬ ReadsLikeCursor searchLast (fun _ => some hugeChunk) false hugeChunks := by
  refine ⟨List.cons_ne_nil _ _, ?_, ?_, ?_⟩
  · intro chunk hchunk
    refine ⟨hugeChunk, rfl, ?_⟩
    simp only [hugeChunks, List.mem_cons, List.not_mem_nil, or_false, or_self] at hchunk
    rw [hchunk, length_hugeChunk]
    rfl
  · intro h
    obtain ⟨os, hos, -⟩ := h []
    rw [run, fromChunks, fromIter_hugeChunks] at hos
    cases hos
  · intro h
    obtain ⟨os, hos, hrun⟩ := h [.pollRead 1 fun _ => some 0]
    rw [run_hugeChunks] at hos
    cases hos
    cases hrun with
    | cons hstep _ =>
      cases hstep with
      | read _ _ _ _ _ _ hend _ =>
        obtain h0 | h0 := hend rfl
        · cases h0
        · rw [length_hugeChunks] at h0
          exact absurd h0 (by decide)

end ChunkedReader

end Snix.Castore
