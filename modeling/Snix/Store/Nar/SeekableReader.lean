import Snix.Castore.BlobService.ChunkedReader
import Snix.Lib.Cursor
import Snix.Store.Nar.Seekable

/-!
# Reading an archive from its segments

The renderer that can seek serves the segments of an archive one after the other. A blob is
opened when its segment is reached, and its reader is kept for seeks within the segment.

## Main definitions

- `BlobReaders` — how blobs are opened and read
- `Reader` — the renderer, with a step for every call
- `Reader.Allowed` — the calls that do not run into a defect of the renderer

## Main results

- `seekable_cursor` — the renderer is a cursor over the archive that `writeNar` writes
- `serves_chunked` — blobs that are read from their chunks can be used
-/

namespace Snix.Store

open Castore Nar

namespace Seekable

/-- How blobs are opened, and a step for every call on a reader of one. -/
structure BlobReaders (ρ ε : Type) where
  openRead : B3Digest → Except ε (Option ρ)
  step : ρ → CursorCall → Except ε (CursorOutcome UInt8 × ρ)

/-- Why a call fails. Seeks that are refused are answers and not among them. -/
inductive ReaderFault (ε : Type) where
  | blobReader (e : ε)
  | blobNotFound (digest : B3Digest)
  | seekRefused
  /-- Blob short read. -/
  | shortRead
  /-- Blob continued to yield data beyond end. -/
  | beyondEnd
  | panic (message : String)

/-- The futures that end with the reader of a blob. -/
inductive BlobFuture (ρ : Type) where
  | openRead (digest : B3Digest) (offsetInSegment : ℕ)
  /-- Takes the reader that was there, if there was one. -/
  | takeOutput (prev : Option ρ) (offsetInSegment : ℕ)
  /-- A seek to a position, or one that is started. -/
  | seek (reader : ρ) (position : Option ℕ)

inductive TryMaybeDone (ρ : Type) where
  | future (f : BlobFuture ρ)
  | done (reader : ρ)
  | gone

def TryMaybeDone.output? {ρ : Type} : TryMaybeDone ρ → Option ρ
  | .done reader => some reader
  | _ => none

section

variable {ρ ε : Type} (B : BlobReaders ρ ε)

/-- A call on the reader of a blob. -/
def BlobReaders.call (reader : ρ) (c : CursorCall) :
    Except (ReaderFault ε) (CursorOutcome UInt8 × ρ) :=
  match B.step reader c with
  | .error e => .error (.blobReader e)
  | .ok x => .ok x

def pollStarted (reader : ρ) (ready : Readiness) : Except (ReaderFault ε) (TryMaybeDone ρ) := do
  match ← B.call reader (.pollComplete ready) with
  | (.position _, reader) => return .done reader
  | (_, reader) => return .future (.seek reader none)

/-- A seek waits for the one before it, is started, and then waits for itself. -/
def pollSeek (reader : ρ) (ready : Readiness) : Option ℕ → Except (ReaderFault ε) (TryMaybeDone ρ)
  | some n => do
    match ← B.call reader (.pollComplete (ready.every 2 0)) with
    | (.position _, reader) =>
      match ← B.call reader (.startSeek (.start (UInt64.ofNat n))) with
      | (.started, reader) => pollStarted B reader (ready.every 2 1)
      | _ => .error .seekRefused
    | (_, reader) => return .future (.seek reader (some n))
  | none => pollStarted B reader ready

def BlobFuture.poll (ready : Readiness) : BlobFuture ρ → Except (ReaderFault ε) (TryMaybeDone ρ)
  | .openRead digest offsetInSegment =>
    match ready 0 with
    | none => .ok (.future (.openRead digest offsetInSegment))
    | some _ =>
      match B.openRead digest with
      | .error e => .error (.blobReader e)
      | .ok none => .error (.blobNotFound digest)
      | .ok (some reader) =>
        if offsetInSegment = 0 then .ok (.done reader)
        else pollSeek B reader (ready.after 1) (some offsetInSegment)
  | .takeOutput none _ => .error (.panic "called Option::unwrap() on a None value")
  | .takeOutput (some reader) offsetInSegment => pollSeek B reader ready (some offsetInSegment)
  | .seek reader position => pollSeek B reader ready position

def TryMaybeDone.poll (ready : Readiness) :
    TryMaybeDone ρ → Except (ReaderFault ε) (TryMaybeDone ρ)
  | .future f => f.poll B ready
  | .done reader => .ok (.done reader)
  | .gone => .error (.panic "TryMaybeDone polled after value taken")

end

structure Reader (ρ : Type) where
  segments : List (ℕ × Data)
  positionBytes : ℕ
  positionIndex : ℕ
  seeking : Bool
  currentBlob : TryMaybeDone ρ

/-- Adds a signed number; the sum is kept within 64 bits. -/
def saturatingAddSigned (n : ℕ) (k : ℤ) : ℕ := min (n + k).toNat (2 ^ 64 - 1)

/-- The first segment from an index on that reaches beyond the position. -/
def nextIndex (pos : ℕ) : List (ℕ × Data) → ℕ → ℕ
  | [], i => i
  | (offset, data) :: rest, i => if data.len ≤ pos - offset then nextIndex pos rest (i + 1) else i

namespace Reader

section

variable {ρ ε : Type} (search : List Ordering → Except ℕ ℕ) (B : BlobReaders ρ ε)

-- the sum is one that was made when the last segment was flushed
def streamLen (this : Reader ρ) : Except (ReaderFault ε) ℕ :=
  match this.segments.getLast? with
  | none => .error (.panic "no segment found")
  | some (offset, data) => .ok ((offset + data.len) % 2 ^ 64)

/-- The position to seek to. -/
def target (this : Reader ρ) (streamLen : ℕ) (pos : SeekFrom) : ℕ :=
  let pos := match pos with
    | .start n => saturatingAddSigned n.toNat 0
    | .fromEnd n => saturatingAddSigned streamLen n.toInt
    | .current n => saturatingAddSigned this.positionBytes n.toInt
  min pos streamLen

/-- Only the search in an empty list could end with an insertion at the first index. -/
def indexOf (this : Reader ρ) (positionBytes : ℕ) : ℕ :=
  match search (this.segments.map fun segment => compare segment.1 positionBytes) with
  | .ok idx => idx
  | .error idx => idx - 1

/-- Starts a seek; none if there is one already. -/
def startSeek (this : Reader ρ) (pos : SeekFrom) : Except (ReaderFault ε) (Option (Reader ρ)) := do
  let streamLen ← this.streamLen
  if this.seeking then return none
  else
    let positionBytes := this.target streamLen pos
    let positionIndex := this.indexOf search positionBytes
    match this.segments[positionIndex]? with
    | some (offset, .blob digest _) =>
      if this.positionBytes = positionBytes then
        return some ⟨this.segments, positionBytes, positionIndex, true, this.currentBlob⟩
      else if this.positionIndex = positionIndex then
        -- the reader is used again
        return some ⟨this.segments, positionBytes, positionIndex, true,
          .future (.takeOutput this.currentBlob.output? (positionBytes - offset))⟩
      else
        return some ⟨this.segments, positionBytes, positionIndex, true,
          .future (.openRead digest (positionBytes - offset))⟩
    | _ => return some ⟨this.segments, positionBytes, positionIndex, true, .gone⟩

def pollComplete (this : Reader ρ) (ready : Readiness) :
    Except (ReaderFault ε) (Poll ℕ × Reader ρ) :=
  match this.currentBlob with
  | .future f => do
    match ← f.poll B ready with
    | .future f => return (.pending, { this with currentBlob := .future f })
    | currentBlob =>
      return (.ready this.positionBytes, { this with seeking := false, currentBlob := currentBlob })
  | _ => .ok (.ready this.positionBytes, { this with seeking := false })

/-- Moves the position, and opens the next blob when a segment begins there that is one. -/
def moved (this : Reader ρ) (n : ℕ) : Reader ρ :=
  let positionBytes := this.positionBytes + n
  let positionIndex :=
    nextIndex positionBytes (this.segments.drop this.positionIndex) this.positionIndex
  if this.positionIndex = positionIndex then { this with positionBytes := positionBytes }
  else
    match this.segments[positionIndex]? with
    | some (_, .blob digest _) =>
      ⟨this.segments, positionBytes, positionIndex, this.seeking, .future (.openRead digest 0)⟩
    | _ => ⟨this.segments, positionBytes, positionIndex, this.seeking, .gone⟩

def pollRead (this : Reader ρ) (cap : ℕ) (ready : Readiness) :
    Except (ReaderFault ε) (Poll Bytes × Reader ρ) :=
  match this.segments[this.positionIndex]? with
  | none => .ok (.ready [], this)
  | some (offset, .literal data) =>
    let bytes := (data.drop (this.positionBytes - offset)).take cap
    .ok (.ready bytes, this.moved bytes.length)
  | some (offset, .blob _ size) => do
    match ← this.currentBlob.poll B (ready.every 2 0) with
    | .future f => return (.pending, { this with currentBlob := .future f })
    | .gone => .error (.panic "missing blob")
    | .done blob =>
      match ← B.call blob (.pollRead cap (ready.every 2 1)) with
      | (.contents bytes, blob) =>
        if bytes = [] then .error .shortRead
        else if offset + size - this.positionBytes < bytes.length then .error .beyondEnd
        else
          return (.ready bytes,
            { this with seeking := false, currentBlob := .done blob }.moved bytes.length)
      | (_, blob) => return (.pending, { this with seeking := false, currentBlob := .done blob })

/-- One call. -/
def step (this : Reader ρ) : CursorCall → Except (ReaderFault ε) (CursorOutcome UInt8 × Reader ρ)
  | .startSeek pos => do
    match ← this.startSeek search pos with
    | none => return (.refused, this)
    | some this => return (.started, this)
  | .pollComplete ready => do
    match ← this.pollComplete B ready with
    | (.pending, this) => return (.pending, this)
    | (.ready n, this) => return (.position n, this)
  | .pollRead cap ready => do
    match ← this.pollRead B cap ready with
    | (.pending, this) => return (.pending, this)
    | (.ready bytes, this) => return (.contents bytes, this)

/-- A renderer at the start of the archive. -/
def new (digest : Castore.Directory → B3Digest) (checks debug : Bool)
    (bfs dfsPostOrder : DiGraph Castore.Directory → ℕ → List ℕ)
    (store : DigestMap Castore.Directory) (root : Node) : Except RenderFault (Reader ρ) := do
  let segments ← newSegments digest checks debug bfs dfsPostOrder store root
  return ⟨segments, 0, 0, false, .gone⟩

end

end Reader

-- ====================
-- The segment a position lies in
-- ====================

section

variable {l : List Data} {pos i : ℕ} {d : Data}

/-- The position lies in the segment with this index, or it is the end, and the segment not that of
    a blob. -/
def IndexAt (l : List Data) (pos i : ℕ) : Prop :=
  Covers Data.len l pos i ∨
    pos = extent Data.len l ∧ i ≤ l.length ∧ ∀ digest size, l[i]? ≠ some (.blob digest size)

theorem getElem?_segments (h : l[i]? = some d) :
    (layout Data.len 0 l)[i]? = some (offsetAt Data.len l i, d) := by
  rw [getElem?_layout, h, Nat.zero_add]
  rfl

theorem orderedFor_segments (l : List Data) (pos : ℕ) :
    OrderedFor ((layout Data.len 0 l).map fun segment => compare segment.1 pos) := by
  have hsorted := @sorted_offsets _ Data.len l
  rw [List.pairwise_map] at hsorted
  refine List.pairwise_map.mpr (hsorted.imp fun {a b} hab => ⟨fun h => ?_, fun h => ?_⟩)
  · rw [Ne, compare_lt_iff_lt, Nat.not_lt] at h ⊢
    exact h.trans hab
  · rw [compare_gt_iff_gt] at h ⊢
    exact Nat.lt_of_lt_of_le h hab

theorem getElem?_compare (l : List Data) (pos i : ℕ) :
    ((layout Data.len 0 l).map fun segment => compare segment.1 pos)[i]? =
      l[i]?.map fun _ => compare (offsetAt Data.len l i) pos := by
  rw [List.getElem?_map, getElem?_layout, Nat.zero_add, Option.map_map]
  rfl

/-- Beyond the segments that a position lies behind there is the one it lies in, or the end. -/
theorem nextIndex_spec {k : ℕ} (hi : i + k = l.length) (hoff : offsetAt Data.len l i ≤ pos)
    (hpos : pos ≤ extent Data.len l) :
    ∃ j, nextIndex pos ((layout Data.len 0 l).drop i) i = j ∧ i ≤ j ∧
      (Covers Data.len l pos j ∨ pos = extent Data.len l ∧ j = l.length) := by
  induction k generalizing i with
  | zero =>
    rw [Nat.add_zero] at hi
    rw [offsetAt_of_length_le hi.ge] at hoff
    refine ⟨i, ?_, Nat.le_refl i, .inr ⟨Nat.le_antisymm hpos hoff, hi⟩⟩
    rw [List.drop_of_length_le (by rw [length_layout]; exact hi.ge)]
    rfl
  | succ k ih =>
    have hlt : i < l.length := by omega
    have hget := List.getElem?_eq_getElem hlt
    obtain ⟨hlt', hget'⟩ := List.getElem?_eq_some_iff.mp (getElem?_segments hget)
    rw [List.drop_eq_getElem_cons hlt', hget', nextIndex]
    split_ifs with hlen
    · have hnext := @offsetAt_succ _ Data.len _ _ _ hget
      obtain ⟨j, hj, hle, hat⟩ := @ih (i + 1) (by omega) (by omega)
      exact ⟨j, hj, Nat.le_of_succ_le hle, hat⟩
    · exact ⟨i, rfl, Nat.le_refl i, .inl ⟨l[i], hget, hoff, by omega⟩⟩

end

theorem Data.Sound.len_pos {blobs : DigestMap Bytes} {bytes : Bytes}
    (h : (Data.literal bytes).Sound blobs) : 0 < (Data.literal bytes).len := List.length_pos_iff.mpr h

section

variable {ρ ε : Type} {search : List Ordering → Except ℕ ℕ} {blobs : DigestMap Bytes}
  {l : List Data} {nar : Bytes} {this : Reader ρ}

/-- The search finds the segment a position lies in, if no empty blob begins there. -/
theorem indexOf_spec (hsearch : IsBinarySearch search) (hl : Segmented blobs l nar)
    (hsegments : this.segments = layout Data.len 0 l) {n : ℕ} (hn : n ≤ extent Data.len l)
    (hempty : ∀ digest, (n, Data.blob digest 0) ∉ this.segments) :
    IndexAt l n (this.indexOf search n) := by
  unfold Reader.indexOf
  rw [hsegments] at hempty ⊢
  cases hs : search ((layout Data.len 0 l).map fun segment => compare segment.1 n) with
  | ok idx =>
    have hfound := hsearch.found _ idx (orderedFor_segments l n) hs
    rw [getElem?_compare, Option.map_eq_some_iff] at hfound
    obtain ⟨d, hd, heq⟩ := hfound
    rw [compare_eq_iff_eq] at heq
    refine .inl ⟨d, hd, heq.le, ?_⟩
    rw [heq]
    refine Nat.lt_add_of_pos_right (Nat.pos_of_ne_zero fun hzero => ?_)
    cases d with
    | literal bytes =>
      exact absurd hzero (hl.sound _ (List.mem_of_getElem? hd)).len_pos.ne'
    | blob digest size =>
      obtain rfl : size = 0 := hzero
      apply hempty digest
      rw [← heq]
      exact List.mem_of_getElem? (getElem?_segments hd)
  | error idx =>
    obtain ⟨hle, hsides⟩ := hsearch.insertion _ idx (orderedFor_segments l n) hs
    rw [List.length_map, length_layout] at hle
    have hbefore : ∀ j < idx, offsetAt Data.len l j < n := by
      intro j hj
      have hget := List.getElem?_eq_getElem (Nat.lt_of_lt_of_le hj hle)
      exact compare_lt_iff_lt.mp ((hsides j _ (by rw [getElem?_compare, hget]; rfl)).1 hj)
    have hbehind : idx < l.length → n < offsetAt Data.len l idx := by
      intro hlt
      have hget := List.getElem?_eq_getElem hlt
      exact compare_gt_iff_gt.mp
        ((hsides idx _ (by rw [getElem?_compare, hget]; rfl)).2 (Nat.le_refl idx))
    obtain ⟨before, bytes, hends⟩ := hl.ends
    have hlen : l.length = before.length + 1 := by rw [hends, List.length_append]; rfl
    -- the first segment begins at the start
    have hpos : 0 < idx := by
      refine Nat.pos_of_ne_zero ?_
      rintro rfl
      exact Nat.not_lt_zero n (hbehind (by omega))
    obtain ⟨i, rfl⟩ := Nat.exists_eq_succ_of_ne_zero hpos.ne'
    show IndexAt l n i
    have hget := List.getElem?_eq_getElem (Nat.lt_of_succ_le hle)
    have hnext := @offsetAt_succ _ Data.len _ _ _ hget
    rcases Nat.lt_or_ge n (offsetAt Data.len l (i + 1)) with hlt | hge
    · exact .inl ⟨_, hget, (hbefore i (Nat.lt_succ_self i)).le, by omega⟩
    · have hlast : i + 1 = l.length :=
        Nat.le_antisymm hle (Nat.not_lt.mp fun hlt => Nat.not_lt.mpr hge (hbehind hlt))
      rw [offsetAt_of_length_le hlast.ge] at hge
      refine .inr ⟨Nat.le_antisymm hn hge, Nat.le_of_succ_le hle, ?_⟩
      obtain rfl : i = before.length := by omega
      intro digest size h
      rw [hends, List.getElem?_append_right (Nat.le_refl _), Nat.sub_self] at h
      cases h

theorem streamLen_eq (hl : Segmented blobs l nar) (hsegments : this.segments = layout Data.len 0 l)
    (hfit : nar.length < 2 ^ 64) : (this.streamLen : Except (ReaderFault ε) ℕ) = .ok nar.length := by
  obtain ⟨before, bytes, hends⟩ := hl.ends
  have hlen : nar.length = extent Data.len before + bytes.length := by
    rw [← hl.contents, length_flatMap_contents hl.sound, hends, extent_append, extent_cons, extent_nil]
    rfl
  have hlast : this.segments.getLast? = some (extent Data.len before, Data.literal bytes) := by
    rw [hsegments, hends, layout_append, Nat.zero_add]
    exact List.getLast?_concat
  rw [Reader.streamLen, hlast, hlen]
  rw [hlen] at hfit
  exact congrArg Except.ok (Nat.mod_eq_of_lt hfit)

end

-- ====================
-- The reader of a blob
-- ====================

/-- Every blob can be opened, and its reader is a cursor over it that accepts seeks within. -/
structure BlobReaders.Serves {ρ ε : Type} (B : BlobReaders ρ ε) (policy : SeekPolicy)
    (blobs : DigestMap Bytes) (R : Bytes → ρ → Cursor → Prop) : Prop where
  openRead : ∀ digest contents, blobs.lookup digest = some contents →
    ∃ reader, B.openRead digest = .ok (some reader) ∧ R contents reader ⟨0, false⟩
  step : ∀ contents reader c call, R contents reader c → ∃ o reader' c',
    B.step reader call = .ok (o, reader') ∧ CursorStep policy contents c call o c' ∧
      R contents reader' c'
  seekTo : ∀ len n : ℕ, n ≤ len → policy.seekTo len n = some n

section

variable {ρ ε : Type} {B : BlobReaders ρ ε} {policy : SeekPolicy} {blobs : DigestMap Bytes}
  {R : Bytes → ρ → Cursor → Prop} {digest : B3Digest} {contents : Bytes} {n : ℕ} {reader : ρ}
  {c : Cursor}

/-- The future will end with a reader at the position. -/
def FutureAt (R : Bytes → ρ → Cursor → Prop) (digest : B3Digest) (contents : Bytes) (n : ℕ) :
    BlobFuture ρ → Prop
  | .openRead digest' offsetInSegment => digest' = digest ∧ offsetInSegment = n
  | .takeOutput prev offsetInSegment =>
    offsetInSegment = n ∧ ∃ reader c, prev = some reader ∧ R contents reader c
  | .seek reader (some position) => position = n ∧ ∃ c, R contents reader c
  | .seek reader none => ∃ c, R contents reader c ∧ c.pos = n

/-- There is a reader at the position, or will be. -/
def BlobAt (R : Bytes → ρ → Cursor → Prop) (digest : B3Digest) (contents : Bytes) (n : ℕ) :
    TryMaybeDone ρ → Prop
  | .future f => FutureAt R digest contents n f
  | .done reader => ∃ c, R contents reader c ∧ c.pos = n
  | .gone => False

theorem BlobReaders.Serves.call (hB : B.Serves policy blobs R) (h : R contents reader c)
    (call : CursorCall) : ∃ o reader' c', B.call reader call = .ok (o, reader') ∧
      CursorStep policy contents c call o c' ∧ R contents reader' c' := by
  obtain ⟨o, reader', c', hstep, hc, hR⟩ := hB.step contents reader c call h
  exact ⟨o, reader', c', by rw [BlobReaders.call, hstep], hc, hR⟩

/-- What a poll answers: a reader at the position, or a future that is not ready. -/
def Polled (R : Bytes → ρ → Cursor → Prop) (digest : B3Digest) (contents : Bytes) (n : ℕ)
    (ready : Readiness) (x : Except (ReaderFault ε) (TryMaybeDone ρ)) : Prop :=
  (∃ reader c, x = .ok (.done reader) ∧ R contents reader c ∧ c.pos = n) ∨
    ∃ f, x = .ok (.future f) ∧ FutureAt R digest contents n f ∧ ∃ i, ready i = none

theorem Polled.of_every {ready : Readiness} {m k : ℕ} {x : Except (ReaderFault ε) (TryMaybeDone ρ)}
    (h : Polled R digest contents n (ready.every m k) x) : Polled R digest contents n ready x := by
  refine h.imp_right ?_
  rintro ⟨f, hx, hf, hnone⟩
  exact ⟨f, hx, hf, Readiness.exists_of_every hnone⟩

theorem Polled.of_after {ready : Readiness} {m : ℕ} {x : Except (ReaderFault ε) (TryMaybeDone ρ)}
    (h : Polled R digest contents n (ready.after m) x) : Polled R digest contents n ready x := by
  refine h.imp_right ?_
  rintro ⟨f, hx, hf, hnone⟩
  exact ⟨f, hx, hf, Readiness.exists_of_after hnone⟩

theorem pollStarted_spec (hB : B.Serves policy blobs R) (h : R contents reader c) (hc : c.pos = n)
    (ready : Readiness) : Polled R digest contents n ready (pollStarted B reader ready) := by
  obtain ⟨o, reader', c', hcall, hstep, hR⟩ := hB.call h (.pollComplete ready)
  rw [pollStarted, hcall]
  cases hstep with
  | incomplete _ hnone => exact .inr ⟨.seek reader' none, rfl, ⟨c, hR, hc⟩, hnone⟩
  | complete => exact .inl ⟨reader', _, rfl, hR, hc⟩

theorem pollSeek_spec (hB : B.Serves policy blobs R) (h : R contents reader c)
    (hn : n ≤ contents.length) (hfit : contents.length < 2 ^ 64) (ready : Readiness) :
    Polled R digest contents n ready (pollSeek B reader ready (some n)) := by
  obtain ⟨o, reader₁, c₁, hcall, hstep, hR⟩ := hB.call h (.pollComplete (ready.every 2 0))
  rw [pollSeek, hcall]
  cases hstep with
  | incomplete _ hnone =>
    exact .inr ⟨.seek reader₁ (some n), rfl, ⟨rfl, c, hR⟩, Readiness.exists_of_every hnone⟩
  | complete =>
    -- the seek is within the blob, and none is in progress
    have htarget : policy.seekTo contents.length
        ((SeekFrom.start (UInt64.ofNat n)).target contents.length c.pos) = some n := by
      have hnat : (UInt64.ofNat n).toNat = n := UInt64.toNat_ofNat_of_lt' (by
        exact Nat.lt_of_le_of_lt hn hfit)
      rw [SeekFrom.target, hnat]
      exact hB.seekTo _ _ hn
    obtain ⟨o', reader₂, c₂, hcall', hstep', hR'⟩ :=
      hB.call hR (.startSeek (.start (UInt64.ofNat n)))
    cases hstep' with
    | busy _ _ hseeking => cases hseeking
    | rejected _ hnone => cases hnone.symm.trans htarget
    | started _ m _ hm =>
      cases hm.symm.trans htarget
      dsimp only [bind, Except.bind]
      rw [hcall']
      exact (pollStarted_spec hB hR' rfl (ready.every 2 1)).of_every

theorem poll_spec (hB : B.Serves policy blobs R) (hcontents : blobs.lookup digest = some contents)
    (hn : n ≤ contents.length) (hfit : contents.length < 2 ^ 64) {t : TryMaybeDone ρ}
    (h : BlobAt R digest contents n t) (ready : Readiness) :
    Polled R digest contents n ready (t.poll B ready) := by
  cases t with
  | gone => exact h.elim
  | done reader =>
    obtain ⟨c, hR, hc⟩ := h
    exact .inl ⟨reader, c, rfl, hR, hc⟩
  | future f =>
    cases f with
    | openRead digest' offsetInSegment =>
      obtain ⟨rfl, rfl⟩ := h
      obtain ⟨reader, hopen, hR⟩ := hB.openRead _ _ hcontents
      simp only [TryMaybeDone.poll, BlobFuture.poll, hopen]
      cases hready : ready 0 with
      | none => exact .inr ⟨_, rfl, ⟨rfl, rfl⟩, 0, hready⟩
      | some k =>
        dsimp only
        split_ifs with hzero
        · exact .inl ⟨reader, _, rfl, hR, hzero.symm⟩
        · exact (pollSeek_spec hB hR hn hfit _).of_after
    | takeOutput prev offsetInSegment =>
      obtain ⟨rfl, reader, c, rfl, hR⟩ := h
      exact pollSeek_spec hB hR hn hfit ready
    | seek reader position =>
      cases position with
      | none =>
        obtain ⟨c, hR, hc⟩ := h
        exact pollStarted_spec hB hR hc ready
      | some position =>
        obtain ⟨rfl, c, hR⟩ := h
        exact pollSeek_spec hB hR hn hfit ready

end

-- ====================
-- The renderer is a cursor
-- ====================

namespace Reader

section

variable {ρ ε : Type}

/-- A seek does not lead to where an empty blob begins, and within a blob only to another position
    if its reader is there. -/
def SeekAllowed (this : Reader ρ) (n : ℕ) : Prop :=
  (∀ digest, (n, Data.blob digest 0) ∉ this.segments) ∧
    ∀ offset digest size, this.segments[this.positionIndex]? = some (offset, .blob digest size) →
      offset ≤ n → n < offset + size → n ≠ this.positionBytes →
        ∃ reader, this.currentBlob = .done reader

/-- Seeks are as above, and reads in a blob have room for a byte. -/
def Allowed (len : ℕ) (this : Reader ρ) : CursorCall → Prop
  | .startSeek pos => this.seeking = false → this.SeekAllowed (this.target len pos)
  | .pollComplete _ => True
  | .pollRead cap _ => cap = 0 → ∀ offset digest size,
    this.segments[this.positionIndex]? ≠ some (offset, .blob digest size)

variable {search : List Ordering → Except ℕ ℕ} {B : BlobReaders ρ ε} {policy : SeekPolicy}
  {blobs : DigestMap Bytes} {R : Bytes → ρ → Cursor → Prop} {l : List Data} {nar : Bytes}
  {this : Reader ρ} {c : Cursor}

/-- The renderer stands where the cursor does. In a blob its reader is there, or will be. -/
structure At (blobs : DigestMap Bytes) (R : Bytes → ρ → Cursor → Prop) (l : List Data)
    (this : Reader ρ) (c : Cursor) : Prop where
  segments : this.segments = layout Data.len 0 l
  pos : this.positionBytes = c.pos
  seeking : this.seeking = c.seeking
  le : c.pos ≤ extent Data.len l
  index : IndexAt l c.pos this.positionIndex
  gone : (∀ digest size, l[this.positionIndex]? ≠ some (.blob digest size)) → this.currentBlob = .gone
  current : ∀ digest size, l[this.positionIndex]? = some (.blob digest size) →
    BlobAt R digest ((Data.blob digest size).contents blobs)
      (c.pos - offsetAt Data.len l this.positionIndex) this.currentBlob

theorem target_eq {len : ℕ} (hlen : len < 2 ^ 64) (hpos : this.positionBytes = c.pos)
    (pos : SeekFrom) : this.target len pos = min (pos.target len c.pos).toNat len := by
  cases pos with
  | start n =>
    have hn := n.toNat_lt
    simp only [target, saturatingAddSigned, SeekFrom.target]
    omega
  | fromEnd n =>
    simp only [target, saturatingAddSigned, SeekFrom.target]
    omega
  | current n =>
    simp only [target, saturatingAddSigned, SeekFrom.target, hpos]
    omega

/-- The blob of a segment, with its size. -/
theorem blob_of_getElem? (hl : Segmented blobs l nar) {i : ℕ} {digest : B3Digest} {size : ℕ}
    (h : l[i]? = some (.blob digest size)) :
    blobs.lookup digest = some ((Data.blob digest size).contents blobs) ∧
      ((Data.blob digest size).contents blobs).length = size ∧ size ≤ nar.length := by
  have hsound := hl.sound _ (List.mem_of_getElem? h)
  have hlen := hsound.length_contents
  obtain ⟨b, hb, -⟩ := hsound
  refine ⟨?_, hlen, ?_⟩
  · rw [Data.contents, hb]
    rfl
  · have hnext := @offsetAt_succ _ Data.len _ _ _ h
    have hle := @offsetAt_le_extent _ Data.len l (i + 1)
    rw [← length_flatMap_contents hl.sound, hl.contents, hnext] at hle
    exact (Nat.le_add_left _ _).trans hle

theorem IndexAt.eq {i j pos : ℕ} {digest : B3Digest} {size : ℕ} (hi : IndexAt l pos i)
    (hj : IndexAt l pos j) (hblob : l[j]? = some (.blob digest size)) : i = j := by
  rcases hj with hj | ⟨-, -, hj⟩
  · rcases hi with hi | ⟨hend, -⟩
    · exact hi.unique hj
    · obtain ⟨d, hd, -, hlt⟩ := hj
      have hnext := @offsetAt_succ _ Data.len _ _ _ hd
      have hle := @offsetAt_le_extent _ Data.len l (j + 1)
      omega
  · exact absurd hblob (hj digest size)

theorem IndexAt.covers {i pos : ℕ} {digest : B3Digest} {size : ℕ} (hi : IndexAt l pos i)
    (hblob : l[i]? = some (.blob digest size)) :
    offsetAt Data.len l i ≤ pos ∧ pos < offsetAt Data.len l i + size := by
  rcases hi with ⟨d, hd, hle, hlt⟩ | ⟨-, -, hi⟩
  · cases hd.symm.trans hblob
    exact ⟨hle, hlt⟩
  · exact absurd hblob (hi digest size)

/-- A seek leads to the position that is meant. -/
theorem startSeek_spec (hsearch : IsBinarySearch search) (hl : Segmented blobs l nar)
    (hfit : nar.length < 2 ^ 64) (h : At blobs R l this c) (pos : SeekFrom)
    (hseeking : this.seeking = false) (hallowed : this.SeekAllowed (this.target nar.length pos)) :
    ∃ this', (this.startSeek search pos : Except (ReaderFault ε) _) = .ok (some this') ∧
      At blobs R l this' ⟨min (pos.target nar.length c.pos).toNat nar.length, true⟩ := by
  have hlen : nar.length = extent Data.len l := by
    rw [← hl.contents, length_flatMap_contents hl.sound]
  rw [← target_eq hfit h.pos]
  have hle : this.target nar.length pos ≤ extent Data.len l := hlen ▸ Nat.min_le_right _ _
  generalize htarget : this.target nar.length pos = n at hallowed hle ⊢
  have hindex := indexOf_spec hsearch hl h.segments hle hallowed.1
  have hunfold : (this.startSeek search pos : Except (ReaderFault ε) _) =
      match this.segments[this.indexOf search n]? with
      | some (offset, .blob digest _) =>
        if this.positionBytes = n then
          .ok (some ⟨this.segments, n, this.indexOf search n, true, this.currentBlob⟩)
        else if this.positionIndex = this.indexOf search n then
          .ok (some ⟨this.segments, n, this.indexOf search n, true,
            .future (.takeOutput this.currentBlob.output? (n - offset))⟩)
        else
          .ok (some ⟨this.segments, n, this.indexOf search n, true,
            .future (.openRead digest (n - offset))⟩)
      | _ => .ok (some ⟨this.segments, n, this.indexOf search n, true, .gone⟩) := by
    rw [startSeek, streamLen_eq hl h.segments hfit]
    dsimp only [bind, Except.bind]
    rw [hseeking, if_neg Bool.false_ne_true, htarget]
    rfl
  rw [hunfold]
  generalize this.indexOf search n = i at hindex ⊢
  cases hget : l[i]? with
  | none =>
    have hnone : this.segments[i]? = none := by
      rw [h.segments, getElem?_layout, hget]
      rfl
    rw [hnone]
    refine ⟨_, rfl, h.segments, rfl, rfl, hle, hindex, fun _ => rfl, fun digest size hblob => ?_⟩
    cases hget.symm.trans hblob
  | some d =>
    have hsome : this.segments[i]? = some (offsetAt Data.len l i, d) := by
      rw [h.segments, getElem?_segments hget]
    rw [hsome]
    cases d with
    | literal bytes =>
      refine ⟨_, rfl, h.segments, rfl, rfl, hle, hindex, fun _ => rfl, fun digest size hblob => ?_⟩
      cases hget.symm.trans hblob
    | blob digest size =>
      have hno : ¬ ∀ digest size, l[i]? ≠ some (.blob digest size) :=
        fun hno => hno digest size hget
      obtain ⟨hlo, hhi⟩ := IndexAt.covers hindex hget
      dsimp only
      split_ifs with hsame hreuse
      · -- nothing changes, and the segment is the same
        have hpos : c.pos = n := h.pos.symm.trans hsame
        have hi : this.positionIndex = i := IndexAt.eq (hpos ▸ h.index) hindex hget
        refine ⟨_, rfl, h.segments, rfl, rfl, hle, hindex, fun h => absurd h hno,
          fun digest' size' hblob => ?_⟩
        have hcurrent := h.current digest' size' (hi ▸ hblob)
        rw [hpos, hi] at hcurrent
        exact hcurrent
      · -- the reader that is there is used for the seek
        rw [← hreuse] at hget hsome hlo hhi
        obtain ⟨reader, hreader⟩ := hallowed.2 _ _ _ hsome hlo hhi (Ne.symm hsame)
        have hcurrent := h.current digest size hget
        rw [hreader] at hcurrent
        obtain ⟨c', hR, -⟩ := hcurrent
        refine ⟨_, rfl, h.segments, rfl, rfl, hle, hindex, fun h => absurd h hno,
          fun digest' size' hblob => ?_⟩
        rw [← hreuse] at hblob ⊢
        cases hget.symm.trans hblob
        exact ⟨rfl, reader, c', by rw [hreader]; rfl, hR⟩
      · refine ⟨_, rfl, h.segments, rfl, rfl, hle, hindex, fun h => absurd h hno,
          fun digest' size' hblob => ?_⟩
        cases hget.symm.trans hblob
        exact ⟨rfl, rfl⟩

/-- After a read the position is behind what was read. In a blob its reader has moved as well. -/
theorem moved_spec {n : ℕ} {t : TryMaybeDone ρ} {seeking : Bool} (h : At blobs R l this c)
    (hle : c.pos + n ≤ extent Data.len l)
    (hwithin : ∀ d, l[this.positionIndex]? = some d → Covers Data.len l c.pos this.positionIndex →
      c.pos + n ≤ offsetAt Data.len l this.positionIndex + d.len)
    (hgone : (∀ digest size, l[this.positionIndex]? ≠ some (.blob digest size)) → t = .gone)
    (hcurrent : ∀ digest size, l[this.positionIndex]? = some (.blob digest size) →
      BlobAt R digest ((Data.blob digest size).contents blobs)
        (c.pos + n - offsetAt Data.len l this.positionIndex) t) :
    At blobs R l (moved { this with seeking := seeking, currentBlob := t } n) ⟨c.pos + n, seeking⟩ := by
  obtain ⟨hbegin, hi⟩ : offsetAt Data.len l this.positionIndex ≤ c.pos ∧
      this.positionIndex ≤ l.length := by
    rcases h.index with ⟨d, hd, hlo, -⟩ | ⟨hend, hi, -⟩
    · exact ⟨hlo, (List.getElem?_eq_some_iff.mp hd).1.le⟩
    · exact ⟨hend ▸ offsetAt_le_extent l _, hi⟩
  obtain ⟨k, hk⟩ := Nat.exists_eq_add_of_le hi
  obtain ⟨j, hj, hij, hnext⟩ := nextIndex_spec hk.symm (hbegin.trans (Nat.le_add_right _ n)) hle
  have hindex : IndexAt l (c.pos + n) j := by
    refine hnext.imp_right ?_
    rintro ⟨hend, rfl⟩
    refine ⟨hend, Nat.le_refl _, fun digest size hblob => ?_⟩
    rw [List.getElem?_eq_none (Nat.le_refl _)] at hblob
    cases hblob
  unfold moved
  dsimp only
  rw [h.segments, h.pos, hj]
  split_ifs with hsame
  · rw [← hsame] at hindex
    exact ⟨rfl, rfl, rfl, hle, hindex, hgone, hcurrent⟩
  · have hopen : ∀ digest size, l[j]? = some (.blob digest size) →
        c.pos + n - offsetAt Data.len l j = 0 := by
      intro digest size hblob
      obtain ⟨hlo, hhi⟩ := IndexAt.covers hindex hblob
      have hmono : offsetAt Data.len l (this.positionIndex + 1) ≤ offsetAt Data.len l j :=
        offsetAt_mono (Nat.lt_of_le_of_ne hij hsame)
      rcases h.index with ⟨d, hd, hlo', hhi'⟩ | ⟨hend, -⟩
      · have hlen := hwithin d hd ⟨d, hd, hlo', hhi'⟩
        rw [offsetAt_succ hd] at hmono
        omega
      · have hle' := @offsetAt_le_extent _ Data.len l (j + 1)
        rw [offsetAt_succ hblob, Data.len] at hle'
        omega
    cases hget : l[j]? with
    | none =>
      have hnone : (layout Data.len 0 l)[j]? = none := by
        rw [getElem?_layout, hget]
        rfl
      rw [hnone]
      refine ⟨rfl, rfl, rfl, hle, hindex, fun _ => rfl, fun digest size hblob => ?_⟩
      cases hget.symm.trans hblob
    | some d =>
      rw [getElem?_segments hget]
      cases d with
      | literal bytes =>
        refine ⟨rfl, rfl, rfl, hle, hindex, fun _ => rfl, fun digest size hblob => ?_⟩
        cases hget.symm.trans hblob
      | blob digest size =>
        refine ⟨rfl, rfl, rfl, hle, hindex, fun hno => absurd hget (hno digest size),
          fun digest' size' hblob => ?_⟩
        cases hget.symm.trans hblob
        exact ⟨rfl, (hopen digest size hget).symm⟩

/-- What comes next in the archive, seen from within a segment. -/
theorem drop_nar (hl : Segmented blobs l nar) {i pos : ℕ} {d : Data} (hd : l[i]? = some d)
    (hlo : offsetAt Data.len l i ≤ pos) (hhi : pos ≤ offsetAt Data.len l i + d.len) :
    (d.contents blobs).drop (pos - offsetAt Data.len l i) <+: nar.drop pos := by
  have hdrop := drop_flatMap (fun d hd => (hl.sound d hd).length_contents) hd
    (pos - offsetAt Data.len l i) (by omega)
  rw [Nat.add_sub_cancel' hlo, hl.contents] at hdrop
  exact ⟨_, hdrop.symm⟩

/-- A read in a blob. -/
theorem pollRead_blob (hB : B.Serves policy blobs R) (hl : Segmented blobs l nar)
    (hfit : nar.length < 2 ^ 64) (h : At blobs R l this c) {cap : ℕ} (hcap : cap ≠ 0)
    (ready : Readiness) {digest : B3Digest} {size : ℕ}
    (hget : l[this.positionIndex]? = some (.blob digest size)) :
    ∃ o this' c', this.step search B (.pollRead cap ready) = .ok (o, this') ∧
      CursorStep .clamping nar c (.pollRead cap ready) o c' ∧ At blobs R l this' c' := by
  obtain ⟨hlookup, hlength, hsize⟩ := blob_of_getElem? hl hget
  obtain ⟨hlo, hhi⟩ := IndexAt.covers h.index hget
  have hsome : this.segments[this.positionIndex]? =
      some (offsetAt Data.len l this.positionIndex, .blob digest size) := by
    rw [h.segments, getElem?_segments hget]
  rw [step, pollRead, hsome]
  obtain ⟨reader, cr, hpoll, hR, hpos⟩ | ⟨f, hpoll, hf, hnone⟩ := poll_spec hB hlookup
    (n := c.pos - offsetAt Data.len l this.positionIndex) (by omega) (by omega)
    (h.current digest size hget) (ready.every 2 0)
  · dsimp only [bind, Except.bind]
    rw [hpoll]
    obtain ⟨o, reader', cr', hcall, hstep, hR'⟩ := hB.call hR (.pollRead cap (ready.every 2 1))
    dsimp only
    rw [hcall]
    cases hstep with
    | unready _ _ seeking hnone hseeking =>
      refine ⟨.pending, { this with seeking := false, currentBlob := .done reader' }, ⟨c.pos, false⟩,
        rfl, .unready c cap ready false (Readiness.exists_of_every hnone) (fun hs => by cases hs),
        h.segments, h.pos, rfl, h.le, h.index, fun hno => absurd hget (hno digest size),
        fun digest' size' hblob => ?_⟩
      cases hget.symm.trans hblob
      exact ⟨_, hR', hpos⟩
    | read _ _ seeking bytes hpre hlen hend _ =>
      rw [hpos] at hpre hend
      have hle := hpre.length_le
      rw [List.length_drop, hlength] at hle
      have hne : bytes ≠ [] := by
        intro hnil
        rcases hend hnil with hzero | hover
        · exact hcap hzero
        · omega
      have hbounds := @offsetAt_le_extent _ Data.len l (this.positionIndex + 1)
      rw [offsetAt_succ hget, Data.len] at hbounds
      have hnotBeyond : ¬ offsetAt Data.len l this.positionIndex + size - this.positionBytes <
          bytes.length := by
        rw [h.pos]
        omega
      dsimp only
      rw [if_neg hne, if_neg hnotBeyond]
      refine ⟨.contents bytes, moved { this with seeking := false, currentBlob := .done reader' }
        bytes.length, ⟨c.pos + bytes.length, false⟩, rfl, ?_, moved_spec h (by omega) ?_
          (fun hno => absurd hget (hno digest size)) ?_⟩
      · refine .read c cap ready false bytes (hpre.trans (drop_nar hl hget hlo hhi.le)) hlen
          (fun hnil => absurd hnil hne) fun hs => by cases hs
      · intro d hd _
        cases hget.symm.trans hd
        show _ ≤ _ + size
        omega
      · intro digest' size' hblob
        cases hget.symm.trans hblob
        refine ⟨_, hR', ?_⟩
        show cr.pos + bytes.length = _
        omega
  · dsimp only [bind, Except.bind]
    rw [hpoll]
    refine ⟨.pending, { this with currentBlob := .future f }, c, rfl,
      .unready c cap ready c.seeking (Readiness.exists_of_every hnone) (fun hs => hs),
      h.segments, h.pos, h.seeking, h.le, h.index, fun hno => absurd hget (hno digest size),
      fun digest' size' hblob => ?_⟩
    cases hget.symm.trans hblob
    exact hf

/-- A read elsewhere. -/
theorem pollRead_literal (hl : Segmented blobs l nar) (h : At blobs R l this c) (cap : ℕ)
    (ready : Readiness) {data : Bytes} (hget : l[this.positionIndex]? = some (.literal data)) :
    ∃ o this' c', this.step search B (.pollRead cap ready) = .ok (o, this') ∧
      CursorStep .clamping nar c (.pollRead cap ready) o c' ∧ At blobs R l this' c' := by
  have hlen : nar.length = extent Data.len l := by
    rw [← hl.contents, length_flatMap_contents hl.sound]
  have hsome : this.segments[this.positionIndex]? =
      some (offsetAt Data.len l this.positionIndex, .literal data) := by
    rw [h.segments, getElem?_segments hget]
  have hbounds := @offsetAt_le_extent _ Data.len l (this.positionIndex + 1)
  rw [offsetAt_succ hget, Data.len] at hbounds
  generalize hbytes :
    (data.drop (c.pos - offsetAt Data.len l this.positionIndex)).take cap = bytes
  have hshort : bytes.length ≤ data.length - (c.pos - offsetAt Data.len l this.positionIndex) := by
    rw [← hbytes, List.length_take, List.length_drop]
    exact Nat.min_le_right _ _
  have hcap : bytes.length ≤ cap := hbytes ▸ List.length_take_le _ _
  obtain ⟨hpre, hend⟩ : bytes <+: nar.drop c.pos ∧ (bytes = [] → cap = 0 ∨ nar.length ≤ c.pos) := by
    rcases h.index with ⟨d, hd, hlo, hhi⟩ | ⟨hend, -⟩
    · cases hget.symm.trans hd
      refine ⟨?_, fun hnil => .inl ?_⟩
      · rw [← hbytes]
        exact (List.take_prefix _ _).trans (drop_nar hl hget hlo hhi.le)
      · rw [← hbytes, List.take_eq_nil_iff, List.drop_eq_nil_iff] at hnil
        refine hnil.resolve_right ?_
        simp only [Data.len] at hhi
        omega
    · refine ⟨?_, fun _ => .inr (hlen.trans hend.symm).le⟩
      obtain rfl : bytes = [] := List.length_eq_zero_iff.mp (by omega)
      exact List.nil_prefix
  have hle := hpre.length_le
  rw [List.length_drop] at hle
  have hat := h.le
  have hread : this.step search B (.pollRead cap ready) =
      .ok (.contents bytes, this.moved bytes.length) := by
    rw [step, pollRead, hsome, ← hbytes, ← h.pos]
    rfl
  refine ⟨.contents bytes, this.moved bytes.length, ⟨c.pos + bytes.length, c.seeking⟩, hread,
    .read c cap ready c.seeking bytes hpre hcap hend (fun hs => hs), ?_⟩
  rw [← h.seeking]
  refine @moved_spec _ _ _ _ _ _ _ this.currentBlob this.seeking h (by omega) ?_ h.gone ?_
  · rintro d hd ⟨d', hd', hlo, hhi⟩
    cases hget.symm.trans hd
    cases hget.symm.trans hd'
    simp only [Data.len] at hhi ⊢
    omega
  · intro digest size hblob
    cases hget.symm.trans hblob

/-- A seek is complete when the reader of the blob is there. -/
theorem pollComplete_spec (hB : B.Serves policy blobs R) (hl : Segmented blobs l nar)
    (hfit : nar.length < 2 ^ 64) (h : At blobs R l this c) (ready : Readiness) :
    ∃ o this' c', this.step search B (.pollComplete ready) = .ok (o, this') ∧
      CursorStep .clamping nar c (.pollComplete ready) o c' ∧ At blobs R l this' c' := by
  have hcomplete : CursorStep .clamping nar c (.pollComplete ready)
      (.position this.positionBytes) ⟨c.pos, false⟩ := by
    rw [h.pos]
    exact .complete c ready
  cases hcurrent : this.currentBlob with
  | future f =>
    obtain ⟨digest, size, hget⟩ : ∃ digest size,
        l[this.positionIndex]? = some (.blob digest size) := by
      by_contra hno
      cases hcurrent.symm.trans (h.gone fun digest size hblob => hno ⟨digest, size, hblob⟩)
    have hno : ¬ ∀ digest size, l[this.positionIndex]? ≠ some (.blob digest size) :=
      fun hno => hno digest size hget
    obtain ⟨hlookup, hlength, hsize⟩ := blob_of_getElem? hl hget
    obtain ⟨hlo, hhi⟩ := IndexAt.covers h.index hget
    have hat := h.current digest size hget
    rw [hcurrent] at hat
    obtain ⟨reader, c', hpoll, hR, hpos⟩ | ⟨f', hpoll, hf, hnone⟩ :=
      poll_spec hB hlookup (by omega) (by omega) hat ready
    · refine ⟨.position this.positionBytes, { this with seeking := false, currentBlob := .done reader },
        ⟨c.pos, false⟩, ?_, hcomplete, h.segments, h.pos, rfl, h.le, h.index,
        fun h => absurd h hno, fun digest' size' hblob => ?_⟩
      · rw [step, pollComplete, hcurrent]
        dsimp only [bind, Except.bind]
        rw [TryMaybeDone.poll] at hpoll
        rw [hpoll]
        rfl
      · cases hget.symm.trans hblob
        exact ⟨c', hR, hpos⟩
    · refine ⟨.pending, { this with currentBlob := .future f' }, c, ?_, .incomplete c ready hnone,
        h.segments, h.pos, h.seeking, h.le, h.index, fun h => absurd h hno,
        fun digest' size' hblob => ?_⟩
      · rw [step, pollComplete, hcurrent]
        dsimp only [bind, Except.bind]
        rw [TryMaybeDone.poll] at hpoll
        rw [hpoll]
        rfl
      · cases hget.symm.trans hblob
        exact hf
  | gone =>
    refine ⟨.position this.positionBytes, { this with seeking := false }, ⟨c.pos, false⟩, ?_,
      hcomplete, h.segments, h.pos, rfl, h.le, h.index, h.gone, h.current⟩
    rw [step, pollComplete, hcurrent]
    rfl
  | done reader =>
    refine ⟨.position this.positionBytes, { this with seeking := false }, ⟨c.pos, false⟩, ?_,
      hcomplete, h.segments, h.pos, rfl, h.le, h.index, h.gone, h.current⟩
    rw [step, pollComplete, hcurrent]
    rfl

/-- Every call is one of the cursor. -/
theorem step_spec (hsearch : IsBinarySearch search) (hB : B.Serves policy blobs R)
    (hl : Segmented blobs l nar) (hfit : nar.length < 2 ^ 64) (this : Reader ρ) (c : Cursor)
    (call : CursorCall) (h : At blobs R l this c) (hallowed : Allowed nar.length this call) :
    ∃ o this' c', this.step search B call = .ok (o, this') ∧
      CursorStep .clamping nar c call o c' ∧ At blobs R l this' c' := by
  have hlen : nar.length = extent Data.len l := by
    rw [← hl.contents, length_flatMap_contents hl.sound]
  cases call with
  | startSeek pos =>
    cases hseeking : this.seeking with
    | true =>
      refine ⟨.refused, this, c, ?_, .busy c pos rfl (h.seeking ▸ hseeking), h⟩
      rw [step, startSeek, streamLen_eq hl h.segments hfit]
      dsimp only [bind, Except.bind]
      rw [hseeking]
      rfl
    | false =>
      obtain ⟨this', hstart, hat⟩ := @startSeek_spec _ ε _ _ _ _ _ _ _ hsearch hl hfit h pos hseeking
          (hallowed hseeking)
      refine ⟨.started, this', _, ?_, .started c pos _ (fun _ => h.seeking ▸ hseeking) rfl, hat⟩
      rw [step, hstart]
      rfl
  | pollComplete ready =>
    exact pollComplete_spec hB hl hfit h ready
  | pollRead cap ready =>
    cases hget : l[this.positionIndex]? with
    | none =>
      have hnone : this.segments[this.positionIndex]? = none := by
        rw [h.segments, getElem?_layout, hget]
        rfl
      refine ⟨.contents [], this, c, ?_, ?_, h⟩
      · rw [step, pollRead, hnone]
        rfl
      · refine .read c cap ready c.seeking [] List.nil_prefix (Nat.zero_le cap) (fun _ => .inr ?_)
          fun hs => hs
        rcases h.index with ⟨d, hd, -⟩ | ⟨hend, -⟩
        · cases hget.symm.trans hd
        · exact (hlen.trans hend.symm).le
    | some d =>
      cases d with
      | literal data => exact pollRead_literal hl h cap ready hget
      | blob digest size =>
        refine pollRead_blob hB hl hfit h (fun hzero => ?_) ready hget
        refine hallowed hzero (offsetAt Data.len l this.positionIndex) digest size ?_
        rw [h.segments, getElem?_segments hget]

end

/-- The calls of `Reader.Allowed` are answered as by a cursor over the bytes. -/
def ReadsLike {ρ ε : Type} (search : List Ordering → Except ℕ ℕ) (B : BlobReaders ρ ε)
    (reader : Reader ρ) (nar : Bytes) : Prop :=
  ∀ calls, AllowedAlong (fun this => step search B this) (Allowed nar.length) reader calls →
    ∃ os, driveCalls (fun this => step search B this) reader calls = .ok os ∧
      CursorRun .clamping nar ⟨0, false⟩ calls os

end Reader

/-- A renderer that can seek is a cursor over the archive that the other renderer writes, and knows
    its length. -/
theorem seekable_cursor {ρ ε : Type} {search : List Ordering → Except ℕ ℕ}
    (hsearch : IsBinarySearch search) {B : BlobReaders ρ ε} {policy : SeekPolicy}
    {blobs : DigestMap Bytes} {R : Bytes → ρ → Cursor → Prop} (hB : B.Serves policy blobs R)
    (digest : Castore.Directory → B3Digest) (checks debug : Bool)
    (bfs dfsPostOrder : DiGraph Castore.Directory → ℕ → List ℕ)
    (hdfs : ∀ g : DiGraph Castore.Directory, g.Acyclic → ∀ root,
      g.IsPostOrder root (dfsPostOrder g root))
    {store : DigestMap Castore.Directory} (haddr : Addressed digest store) {root : Node}
    (hpresent : DirectoriesPresent checks store root) {debug' : Bool} {feed : B3Digest → ℕ → ℕ}
    {nar : Bytes} (hnar : Renderer.writeNar debug' feed store blobs root = .ok nar)
    (hfit : nar.length < 2 ^ 64) :
    ∃ reader : Reader ρ, Reader.new digest checks debug bfs dfsPostOrder store root = .ok reader ∧
      (reader.streamLen : Except (ReaderFault ε) ℕ) = .ok nar.length ∧
      reader.ReadsLike search B nar := by
  obtain ⟨l, hnew, hl⟩ := @newSegments_spec checks debug _ _ _ bfs _ hdfs haddr _ hpresent _ _ _ hnar hfit
  refine ⟨⟨layout Data.len 0 l, 0, 0, false, .gone⟩, ?_, streamLen_eq hl rfl hfit, ?_⟩
  · rw [Reader.new, hnew]
    rfl
  · -- the first segment is a literal, and not empty
    obtain ⟨d, l', hcons⟩ : ∃ d l', l = d :: l' := by
      obtain ⟨before, bytes, hends⟩ := hl.ends
      exact List.exists_cons_of_ne_nil (hends ▸ List.append_ne_nil_of_right_ne_nil _ (List.cons_ne_nil _ _))
    obtain ⟨bytes, rfl⟩ := hl.starts d (by rw [hcons]; rfl)
    have hfirst : l[0]? = some (.literal bytes) := by rw [hcons]; rfl
    have hlen := (hl.sound _ (List.mem_of_getElem? hfirst)).len_pos
    have hat : Reader.At blobs R l (⟨layout Data.len 0 l, 0, 0, false, .gone⟩ : Reader ρ) ⟨0, false⟩ := by
      refine ⟨rfl, rfl, rfl, Nat.zero_le _, .inl ⟨_, hfirst, Nat.le_refl 0, ?_⟩, fun _ => rfl,
        fun digest size hblob => ?_⟩
      · simpa using hlen
      · cases hfirst.symm.trans hblob
    intro calls hallowed
    exact exists_cursorRun (fun s c call hs h => Reader.step_spec hsearch hB hl hfit s c call hs h) hat
      hallowed

section

open ChunkedReader in
/-- Blobs that are opened with the list of their chunks. -/
def chunkedReaders (search : List Ordering → Except ℕ ℕ) (checks : Bool)
    (chunksOf : B3Digest → Option (List (B3Digest × UInt64))) (chunks : B3Digest → Option Bytes) :
    BlobReaders ChunkedReader ChunkedFault where
  openRead digest :=
    match chunksOf digest with
    | none => .ok none
    | some l => (fromChunks search checks l).map some
  step := ChunkedReader.step search chunks

/-- The reader of the chunks of a blob stands where the cursor does. -/
def AtChunks (chunks : B3Digest → Option Bytes) (contents : Bytes) (reader : ChunkedReader)
    (c : Cursor) : Prop :=
  ∃ l, ChunkedReader.SizesMatch chunks l ∧ l.flatMap (ChunkedReader.chunkContents chunks) = contents ∧
    contents.length < 2 ^ 64 ∧ ChunkedReader.At chunks l reader c

/-- Blobs whose chunks are stored can be read from them. -/
theorem serves_chunked {search : List Ordering → Except ℕ ℕ} (hsearch : IsBinarySearch search)
    (checks : Bool) {chunksOf : B3Digest → Option (List (B3Digest × UInt64))}
    {chunks : B3Digest → Option Bytes} {blobs : DigestMap Bytes}
    (hstored : ∀ digest contents, blobs.lookup digest = some contents → contents.length < 2 ^ 64 ∧
      ∃ l, chunksOf digest = some l ∧ l ≠ [] ∧ ChunkedReader.SizesMatch chunks l ∧
        l.flatMap (ChunkedReader.chunkContents chunks) = contents) :
    (chunkedReaders search checks chunksOf chunks).Serves .rejecting blobs (AtChunks chunks) where
  openRead digest contents h := by
    obtain ⟨hfit, l, hl, hne, hmatch, rfl⟩ := hstored digest contents h
    have hfit' := hfit
    rw [hmatch.length_flatMap] at hfit'
    obtain ⟨r, hr, hholds⟩ :=
      ChunkedReader.readerSkippedOffset_spec hsearch hmatch hfit' (Nat.zero_le _)
    refine ⟨⟨ChunkedBlob.entries 0 l, r, 0⟩, ?_, l, hmatch, rfl, hfit, rfl, rfl, Nat.zero_le _, hholds⟩
    simp only [chunkedReaders, hl, ChunkedReader.fromChunks, ChunkedBlob.fromIter_eq hne hfit']
    dsimp only [bind, Except.bind]
    rw [hr]
    rfl
  step contents reader c call := by
    rintro ⟨l, hmatch, rfl, hfit, hat⟩
    have hfit' := hfit
    rw [hmatch.length_flatMap] at hfit'
    obtain ⟨o, reader', c', hstep, hc, hat'⟩ :=
      ChunkedReader.step_spec hsearch hmatch hfit' reader c call hat
    exact ⟨o, reader', c', hstep, hc, l, hmatch, rfl, hfit, hat'⟩
  seekTo len n hn := by
    rw [SeekPolicy.rejecting]
    exact if_pos ⟨Int.natCast_nonneg n, Int.ofNat_le.mpr hn⟩

open ChunkedReader (digestOf twoChunks)

/-- A file that is stored as two chunks with an empty one between them. -/
def storedFile : B3Digest → Option (List (B3Digest × UInt64)) :=
  fun k => if k = digestOf 7 then some [(digestOf 1, 2), (digestOf 0, 0), (digestOf 1, 2)] else none

def storedFileBlobs : DigestMap Bytes := AList.insert (digestOf 7) [1, 2, 1, 2] ∅

def storedFileNar : Bytes := TOK_NAR ++ (fileHeader true 4 ++ [1, 2, 1, 2] ++ fileFooter 4)

theorem writeNar_storedFile : Renderer.writeNar true (fun _ _ => 0) ∅ storedFileBlobs
    (.file (digestOf 7) 4 true) = .ok storedFileNar := by
  have hlookup : storedFileBlobs.lookup (digestOf 7) = some [1, 2, 1, 2] := AList.lookup_insert _
  have h := @Renderer.gives_file true (fun _ _ => 0) ∅ storedFileBlobs true (digestOf 7) 4 1 [] TOK_NAR
  simp only [fill, Piece.fill, hlookup, Option.bind_eq_bind, Option.bind_some] at h
  rw [if_pos (by rfl), Option.bind_some, List.append_nil] at h
  exact h

theorem seekable_cursor_storedFile :
    ∃ reader : Reader ChunkedReader,
      Reader.new fixtureDigest true true DiGraph.postOrder DiGraph.postOrder ∅
        (.file (digestOf 7) 4 true) = .ok reader ∧
      (reader.streamLen : Except (ReaderFault ChunkedFault) ℕ) = .ok storedFileNar.length ∧
      reader.ReadsLike searchLast (chunkedReaders searchLast true storedFile twoChunks)
        storedFileNar := by
  have hserves : (chunkedReaders searchLast true storedFile twoChunks).Serves .rejecting
      storedFileBlobs (AtChunks twoChunks) := by
    refine serves_chunked isBinarySearch_searchLast true fun k contents h => ?_
    by_cases hk : k = digestOf 7
    · subst hk
      cases (AList.lookup_insert _).symm.trans h
      exact ⟨by decide, _, if_pos rfl, List.cons_ne_nil _ _, ChunkedReader.sizesMatch_twoChunks,
        by decide⟩
    · rw [storedFileBlobs, AList.lookup_insert_ne hk] at h
      cases h
  have haddr : Addressed fixtureDigest (∅ : DigestMap Castore.Directory) := by
    refine ⟨fun k d h => ?_, fun _ => 0, fun k d h => ?_⟩
    · cases h
    · cases h
  have hpresent : DirectoriesPresent true ∅ (.file (digestOf 7) 4 true) := by
    intro k s hin
    cases hin.eq_of_leaf fun k s h => by cases h
  exact seekable_cursor isBinarySearch_searchLast hserves fixtureDigest true true DiGraph.postOrder
    DiGraph.postOrder (fun _ h root => DiGraph.isPostOrder_postOrder h root) haddr hpresent
    writeNar_storedFile (by decide +kernel)

end

end Seekable

end Snix.Store
