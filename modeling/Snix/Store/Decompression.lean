import Snix.Lib.Await
import Mathlib.Data.List.Induction

/-!
# Detecting compression

The first bytes of a stream are read into a buffer to look for the magic number of a
compression format, and are put before the stream again. Reads may bring fewer bytes than
are needed, and then another one is made; each of them writes to the start of the buffer.

## Main definitions

- `DecompressedReader.new` — the reader for a stream
- `Transparent` — it has the right format, and nothing is lost or changed
- `Aligned` — the reads leave in the buffer what they brought

## Main results

- `transparent_iff` — sniffing is transparent just if the reads are aligned
- `spec_read` — what the reader hands on, read by read
-/

namespace Snix.Store

def GZIP_MAGIC : Bytes := [0x1f, 0x8b]

def BZIP2_MAGIC : Bytes := [0x42, 0x5a, 0x68]

def XZ_MAGIC : Bytes := [0xfd, 0x37, 0x7a, 0x58, 0x5a, 0x00]

def ZSTD_MAGIC : Bytes := [0x28, 0xb5, 0x2f, 0xfd]

def BYTES_NEEDED : ℕ := 6

inductive Algorithm where
  | gzip
  | bzip2
  | xz
  | zstd
  deriving DecidableEq

def Algorithm.fromMagic (magic : Bytes) : Option Algorithm :=
  if GZIP_MAGIC <+: magic then some .gzip
  else if BZIP2_MAGIC <+: magic then some .bzip2
  else if XZ_MAGIC <+: magic then some .xz
  else if ZSTD_MAGIC <+: magic then some .zstd
  else none

/-- An array of which the first bytes are used. -/
structure SmallBuf where
  dataLen : ℕ
  buf : Bytes
  deriving DecidableEq

/-- The bytes that are used; none if the program panics. -/
def SmallBuf.asRef (b : SmallBuf) : Option Bytes :=
  if b.dataLen ≤ b.buf.length then some (b.buf.take b.dataLen) else none

/-- A buffer, and the stream to read after it. -/
structure WithPreexistingBuffer where
  buffer : Bytes
  inner : AsyncStream

namespace WithPreexistingBuffer

/-- All bytes that are handed on. -/
def contents (r : WithPreexistingBuffer) : Bytes := r.buffer ++ r.inner.rest

def pollRead (r : WithPreexistingBuffer) (n : ℕ) :
    Poll (Except IoError Bytes) × WithPreexistingBuffer :=
  if r.buffer = [] then ((r.inner.pollRead n).1, ⟨[], (r.inner.pollRead n).2⟩)
  else (.ready (.ok (r.buffer.take n)), { r with buffer := r.buffer.drop n })

/-- Awaits a read into a buffer of `n` bytes. -/
def read : Read WithPreexistingBuffer := fun k n => await (fun r => r.pollRead n) k

end WithPreexistingBuffer

/-- A reader of the data that comes out of a decoder, or of the data itself. -/
inductive DecompressedReader where
  | unknown (r : WithPreexistingBuffer)
  | gzip (r : WithPreexistingBuffer)
  | bzip (r : WithPreexistingBuffer)
  | xz (r : WithPreexistingBuffer)
  | zstd (r : WithPreexistingBuffer)

namespace DecompressedReader

/-- What is read, and by which decoder. -/
def inner : DecompressedReader → Option Algorithm × WithPreexistingBuffer
  | .unknown r => (none, r)
  | .gzip r => (some .gzip, r)
  | .bzip r => (some .bzip2, r)
  | .xz r => (some .xz, r)
  | .zstd r => (some .zstd, r)

/-- Reads until the buffer is filled, or the stream ends. -/
def fillBuf : ℕ → Bytes → ℕ → Prog IoError AsyncStream SmallBuf
  | 0, _, _ => .running
  | k + 1, buf, bufFilled =>
    if bufFilled < BYTES_NEEDED then do
      let bytes ← AsyncStream.read k buf.length
      if bytes = [] then pure ⟨bufFilled, buf⟩
      else fillBuf k (bytes ++ buf.drop bytes.length) (bufFilled + bytes.length)
    else pure ⟨bufFilled, buf⟩

def bufferMagic (k : ℕ) : Prog IoError AsyncStream SmallBuf :=
  fillBuf k (List.replicate BYTES_NEEDED 0) 0

/-- The rest of the stream, after a buffer. -/
def chain (buffer : Bytes) : Prog IoError AsyncStream WithPreexistingBuffer :=
  fun r => some (.ok (⟨buffer, r⟩, r))

/-- The reader for a format. -/
def ofAlgorithm (r : WithPreexistingBuffer) : Option Algorithm → DecompressedReader
  | some .gzip => .gzip r
  | some .bzip2 => .bzip r
  | some .xz => .xz r
  | some .zstd => .zstd r
  | none => .unknown r

/-- Looks for a format in the buffer. -/
def detect (buf : SmallBuf) : Prog IoError AsyncStream DecompressedReader :=
  match buf.asRef with
  | none => .fail .panic
  | some buffer => do
    let r ← chain buffer
    pure (ofAlgorithm r (Algorithm.fromMagic buffer))

def new (k : ℕ) : Prog IoError AsyncStream DecompressedReader := do
  let buf ← bufferMagic k
  detect buf

@[simp] theorem inner_ofAlgorithm (r : WithPreexistingBuffer) (algorithm : Option Algorithm) :
    (ofAlgorithm r algorithm).inner = (algorithm, r) := by
  cases algorithm with
  | none => rfl
  | some algorithm => cases algorithm <;> rfl

end DecompressedReader

/-- The format is that of the first bytes of the stream, and all of its bytes are handed on. -/
def Transparent (r : AsyncStream) : Prop :=
  ∃ reader s, Returns DecompressedReader.new r (.ok (reader, s)) ∧
    reader.inner.1 = Algorithm.fromMagic (r.rest.take BYTES_NEEDED) ∧
    reader.inner.2.contents = r.rest

/-- The reads that are made after some bytes were read: what they bring, and the stream after them. -/
inductive Reads : ℕ → AsyncStream → List Bytes → AsyncStream → Prop
  | full {n : ℕ} {r : AsyncStream} : BYTES_NEEDED ≤ n → Reads n r [] r
  | eof {n : ℕ} {r r' : AsyncStream} : n < BYTES_NEEDED →
    Returns (fun k => AsyncStream.read k BYTES_NEEDED) r (.ok ([], r')) → Reads n r [] r'
  | more {n : ℕ} {r r' r'' : AsyncStream} {bytes : Bytes} {l : List Bytes} : n < BYTES_NEEDED →
    bytes ≠ [] → Returns (fun k => AsyncStream.read k BYTES_NEEDED) r (.ok (bytes, r')) →
    Reads (n + bytes.length) r' l r'' → Reads n r (bytes :: l) r''

/-- The byte at a position of the last read that was long enough to reach it; zero if none was. -/
def lastByte (l : List Bytes) (p : ℕ) : UInt8 :=
  ((l.reverse.find? fun bytes => p < bytes.length).bind fun bytes => bytes[p]?).getD 0

/-- No more than the needed bytes were read, and at each position there is the byte of the last read
    that reached it. This is so when a single read brings all of them. -/
def Aligned (l : List Bytes) : Prop :=
  l.flatten.length ≤ BYTES_NEEDED ∧ ∀ p < l.flatten.length, l.flatten[p]? = some (lastByte l p)

-- ====================
-- What the buffer holds
-- ====================

/-- A buffer after some reads. -/
def overlay (buf : Bytes) (l : List Bytes) : Bytes :=
  l.foldl (fun buf bytes => bytes ++ buf.drop bytes.length) buf

theorem overlay_concat (buf : Bytes) (l : List Bytes) (bytes : Bytes) :
    overlay buf (l ++ [bytes]) = bytes ++ (overlay buf l).drop bytes.length :=
  List.foldl_concat ..

theorem length_overlay {buf : Bytes} {l : List Bytes} (h : ∀ bytes ∈ l, bytes.length ≤ buf.length) :
    (overlay buf l).length = buf.length := by
  induction l using List.reverseRecOn with
  | nil => rfl
  | append_singleton l bytes ih =>
    have hbytes := h bytes (List.mem_append_right _ (List.mem_singleton_self bytes))
    rw [overlay_concat, List.length_append, List.length_drop,
      ih fun b hb => h b (List.mem_append_left _ hb)]
    omega

theorem lastByte_concat (l : List Bytes) (bytes : Bytes) (p : ℕ) :
    lastByte (l ++ [bytes]) p = if h : p < bytes.length then bytes[p] else lastByte l p := by
  unfold lastByte
  rw [List.reverse_append, List.reverse_singleton, List.singleton_append, List.find?_cons]
  by_cases h : p < bytes.length
  · simp [h]
  · simp [h]

theorem getElem?_overlay {l : List Bytes} (h : ∀ bytes ∈ l, bytes.length ≤ BYTES_NEEDED) {p : ℕ}
    (hp : p < BYTES_NEEDED) :
    (overlay (List.replicate BYTES_NEEDED 0) l)[p]? = some (lastByte l p) := by
  induction l using List.reverseRecOn with
  | nil =>
    rw [overlay, List.foldl_nil, List.getElem?_replicate, if_pos hp]
    rfl
  | append_singleton l bytes ih =>
    rw [overlay_concat, lastByte_concat]
    by_cases hlt : p < bytes.length
    · rw [List.getElem?_append_left hlt, dif_pos hlt, List.getElem?_eq_getElem hlt]
    · rw [List.getElem?_append_right (Nat.le_of_not_lt hlt), dif_neg hlt, List.getElem?_drop,
        Nat.add_sub_cancel' (Nat.le_of_not_lt hlt)]
      exact ih fun b hb => h b (List.mem_append_left _ hb)

/-- The buffer holds what was read just if the reads are aligned. -/
theorem take_overlay_eq_iff {l : List Bytes} (h : ∀ bytes ∈ l, bytes.length ≤ BYTES_NEEDED)
    (hlen : l.flatten.length ≤ BYTES_NEEDED) :
    (overlay (List.replicate BYTES_NEEDED 0) l).take l.flatten.length = l.flatten ↔ Aligned l := by
  constructor
  · intro heq
    refine ⟨hlen, ?_⟩
    intro p hp
    have hget : ((overlay (List.replicate BYTES_NEEDED 0) l).take l.flatten.length)[p]? =
        l.flatten[p]? := by rw [heq]
    rw [List.getElem?_take_of_lt hp, getElem?_overlay h (Nat.lt_of_lt_of_le hp hlen)] at hget
    exact hget.symm
  · rintro ⟨-, hbytes⟩
    apply List.ext_getElem?
    intro p
    by_cases hp : p < l.flatten.length
    · rw [List.getElem?_take_of_lt hp, getElem?_overlay h (Nat.lt_of_lt_of_le hp hlen), hbytes p hp]
    · rw [List.getElem?_eq_none (Nat.le_of_not_lt hp), List.getElem?_eq_none]
      rw [List.length_take]
      omega

theorem aligned_singleton {bytes : Bytes} (h : bytes.length ≤ BYTES_NEEDED) : Aligned [bytes] := by
  have hflatten : [bytes].flatten = bytes := by simp
  rw [Aligned, hflatten]
  refine ⟨h, ?_⟩
  intro p hp
  rw [show [bytes] = [] ++ [bytes] from rfl, lastByte_concat, dif_pos hp, List.getElem?_eq_getElem hp]

-- ====================
-- What the reads bring
-- ====================

variable {n : ℕ} {r r' : AsyncStream} {l : List Bytes} {bytes : Bytes}

/-- The stream becomes ready again, and does not fail by itself. -/
def Sniffable (r : AsyncStream) : Prop := r.Faultless ∧ r.Fair

theorem of_returns_read (hr : Sniffable r)
    (h : Returns (fun k => AsyncStream.read k BYTES_NEEDED) r (.ok (bytes, r'))) :
    Sniffable r' ∧ r.rest = bytes ++ r'.rest ∧ bytes.length ≤ BYTES_NEEDED ∧
      (bytes = [] → r.rest = []) := by
  obtain ⟨chunk, s', hs', hrest, hlen, hnil, hret⟩ :=
    AsyncStream.spec_read (fun _ : Unit => False) r BYTES_NEEDED hr (Nat.succ_pos 5)
  cases h.unique hret
  exact ⟨hs', hrest, hlen, hnil⟩

theorem Reads.spec (h : Reads n r l r') (hr : Sniffable r) :
    r.rest = l.flatten ++ r'.rest ∧ (BYTES_NEEDED ≤ n + l.flatten.length ∨ r'.rest = []) ∧
      ∀ bytes ∈ l, bytes.length ≤ BYTES_NEEDED := by
  induction h with
  | full hn => exact ⟨rfl, .inl hn, fun b hb => absurd hb List.not_mem_nil⟩
  | eof _ hret =>
    obtain ⟨-, hrest, -, hnil⟩ := of_returns_read hr hret
    have hempty := hnil rfl
    rw [hrest] at hempty
    exact ⟨hrest, .inr hempty, fun b hb => absurd hb List.not_mem_nil⟩
  | @more n r r' r'' bytes l _ _ hret _ ih =>
    obtain ⟨hr', hrest, hlen, -⟩ := of_returns_read hr hret
    obtain ⟨hrest', hend, hlens⟩ := ih hr'
    refine ⟨?_, ?_, ?_⟩
    · rw [hrest, hrest', List.flatten_cons, List.append_assoc]
    · rw [List.flatten_cons, List.length_append, ← Nat.add_assoc]
      exact hend
    · intro b hb
      rcases List.mem_cons.mp hb with rfl | hb
      · exact hlen
      · exact hlens b hb

theorem exists_reads (n : ℕ) (hr : Sniffable r) : ∃ l r', Reads n r l r' := by
  induction hm : BYTES_NEEDED - n using Nat.strong_induction_on generalizing n r with
  | _ m ih =>
  subst hm
  by_cases hn : BYTES_NEEDED ≤ n
  · exact ⟨[], r, .full hn⟩
  · have hlt := Nat.lt_of_not_le hn
    obtain ⟨bytes, r', hr', hrest, -, -, hret⟩ :=
      AsyncStream.spec_read (fun _ : Unit => False) r BYTES_NEEDED hr (Nat.succ_pos 5)
    by_cases hbytes : bytes = []
    · subst hbytes
      exact ⟨[], r', .eof hlt hret⟩
    · have hpos := List.length_pos_iff.mpr hbytes
      obtain ⟨l, r'', hreads⟩ := ih (BYTES_NEEDED - (n + bytes.length)) (by omega) _ hr' rfl
      exact ⟨bytes :: l, r'', .more hlt hbytes hret hreads⟩

theorem returns_fillBuf (h : Reads n r l r') (hr : Sniffable r) {buf : Bytes}
    (hbuf : buf.length = BYTES_NEEDED) :
    Returns (fun k => DecompressedReader.fillBuf k buf n) r
      (.ok (⟨n + l.flatten.length, overlay buf l⟩, r')) := by
  induction h generalizing buf with
  | @full n r hn =>
    refine (Returns.pure (⟨n, buf⟩ : SmallBuf) r).succ ?_
    intro k
    rw [DecompressedReader.fillBuf, if_neg (Nat.not_lt.mpr hn)]
  | @eof n r r' hn hret =>
    refine Returns.succ ?_ (fun k => by rw [DecompressedReader.fillBuf, if_pos hn])
    rw [hbuf]
    refine hret.bind (f := fun bytes k => if bytes = [] then _ else _) ?_
    simp only [if_true]
    exact .pure _ r'
  | @more n r r' r'' bytes l hn hne hret _ ih =>
    obtain ⟨hr', -, hlen, -⟩ := of_returns_read hr hret
    refine Returns.succ ?_ (fun k => by rw [DecompressedReader.fillBuf, if_pos hn])
    rw [hbuf]
    refine hret.bind (f := fun bytes k => if bytes = [] then _ else _) ?_
    simp only [if_neg hne]
    have hbuf' : (bytes ++ buf.drop bytes.length).length = BYTES_NEEDED := by
      rw [List.length_append, List.length_drop, hbuf]
      omega
    have hrest := ih hr' hbuf'
    rw [List.flatten_cons, List.length_append, ← Nat.add_assoc]
    exact hrest

-- ====================
-- Sniffing
-- ====================

theorem returns_new_ok {b : SmallBuf} (hmagic : Returns DecompressedReader.bufferMagic r (.ok (b, r')))
    {buffer : Bytes} (hbuffer : b.asRef = some buffer) :
    Returns DecompressedReader.new r
      (.ok (.ofAlgorithm ⟨buffer, r'⟩ (Algorithm.fromMagic buffer), r')) := by
  refine hmagic.bind (f := fun b _ => DecompressedReader.detect b) ⟨0, fun k _ => ?_⟩
  unfold DecompressedReader.detect
  rw [hbuffer]
  rfl

theorem returns_new_panic {b : SmallBuf}
    (hmagic : Returns DecompressedReader.bufferMagic r (.ok (b, r'))) (hbuffer : b.asRef = none) :
    Returns DecompressedReader.new r (.error .panic) := by
  refine hmagic.bind (f := fun b _ => DecompressedReader.detect b) ⟨0, fun k _ => ?_⟩
  unfold DecompressedReader.detect
  rw [hbuffer]
  rfl

/-- What sniffing does, by the reads that it makes. -/
theorem returns_new (h : Reads 0 r l r') (hr : Sniffable r) :
    if l.flatten.length ≤ BYTES_NEEDED then
      Returns DecompressedReader.new r (.ok (.ofAlgorithm
        ⟨(overlay (List.replicate BYTES_NEEDED 0) l).take l.flatten.length, r'⟩
        (Algorithm.fromMagic ((overlay (List.replicate BYTES_NEEDED 0) l).take l.flatten.length)), r'))
    else Returns DecompressedReader.new r (.error .panic) := by
  obtain ⟨-, -, hlens⟩ := h.spec hr
  have hzeros : (List.replicate BYTES_NEEDED (0 : UInt8)).length = BYTES_NEEDED := List.length_replicate
  have hmagic := returns_fillBuf h hr hzeros
  rw [Nat.zero_add] at hmagic
  have hlen : (overlay (List.replicate BYTES_NEEDED 0) l).length = BYTES_NEEDED := by
    rw [length_overlay (by rwa [hzeros]), hzeros]
  split_ifs with hle
  · exact returns_new_ok hmagic (if_pos (by rwa [hlen]))
  · exact returns_new_panic hmagic (if_neg (by rwa [hlen]))

/-- The first bytes of a stream are those that were read, if these are not too many. -/
theorem take_rest (h : Reads 0 r l r') (hr : Sniffable r) (hle : l.flatten.length ≤ BYTES_NEEDED) :
    r.rest.take BYTES_NEEDED = l.flatten := by
  obtain ⟨hrest, hend, -⟩ := h.spec hr
  rw [hrest]
  rcases hend with hfull | hempty
  · rw [Nat.zero_add] at hfull
    exact List.take_left' (Nat.le_antisymm hle hfull)
  · rw [hempty, List.append_nil, List.take_of_length_le hle]

theorem aligned_of_transparent (h : Transparent r) (hr : Sniffable r) (hreads : Reads 0 r l r') :
    Aligned l := by
  obtain ⟨reader, s, hret, -, hcontents⟩ := h
  obtain ⟨hrest, -, hlens⟩ := hreads.spec hr
  have hnew := returns_new hreads hr
  split_ifs at hnew with hle
  · cases hret.unique hnew
    rw [DecompressedReader.inner_ofAlgorithm, hrest] at hcontents
    exact (take_overlay_eq_iff hlens hle).mp (List.append_cancel_right hcontents)
  · cases hret.unique hnew

/-- Sniffing is transparent just if the reads that it makes are aligned. -/
theorem transparent_iff (r : AsyncStream) (hfaultless : r.Faultless) (hfair : r.Fair) :
    Transparent r ↔ ∀ l r', Reads 0 r l r' → Aligned l := by
  have hr : Sniffable r := ⟨hfaultless, hfair⟩
  constructor
  · intro h l r'
    exact aligned_of_transparent h hr
  · intro h
    obtain ⟨l, r', hreads⟩ := exists_reads 0 hr
    obtain ⟨hrest, -, hlens⟩ := hreads.spec hr
    have haligned := h l r' hreads
    have hnew := returns_new hreads hr
    rw [if_pos haligned.1, (take_overlay_eq_iff hlens haligned.1).mpr haligned] at hnew
    refine ⟨_, r', hnew, ?_, ?_⟩
    · rw [DecompressedReader.inner_ofAlgorithm, take_rest hreads hr haligned.1]
    · rw [DecompressedReader.inner_ofAlgorithm, hrest]
      rfl

/-- A poll of the stream after the buffer. -/
theorem pollRead_nil (inner : AsyncStream) (n : ℕ) :
    (⟨[], inner⟩ : WithPreexistingBuffer).pollRead n =
      ((inner.pollRead n).1, ⟨[], (inner.pollRead n).2⟩) := if_pos rfl

/-- The reader hands on its contents, through reads of any sizes. -/
theorem spec_read : WithPreexistingBuffer.read.Spec
    (⟨WithPreexistingBuffer.contents, fun r => Sniffable r.inner, fun _ => False⟩ :
      View Unit WithPreexistingBuffer Bytes) := by
  rintro ⟨buffer, inner⟩ n ⟨hfaultless, hfair⟩ hn
  by_cases hbuffer : buffer = []
  · subst hbuffer
    -- polls that are not ready only use up the decisions of the stream
    have hpoll : ∀ r : WithPreexistingBuffer,
        r.buffer = [] ∧ Sniffable r.inner ∧ r.inner.rest = inner.rest →
        (∃ r', r.pollRead n = (.pending, r') ∧
          (r'.buffer = [] ∧ Sniffable r'.inner ∧ r'.inner.rest = inner.rest) ∧
            r'.inner.wait < r.inner.wait) ∨
        ∃ chunk r', r.pollRead n = (.ready (.ok chunk), r') ∧ Sniffable r'.inner ∧
          inner.rest = chunk ++ r'.contents ∧ chunk.length ≤ n ∧ (chunk = [] → inner.rest = []) := by
      rintro ⟨_, r⟩ ⟨rfl, ⟨hrf, hrfair⟩, hrest⟩
      rw [pollRead_nil]
      rcases r.pollRead_cases n with ⟨r', hr', hsame, hans⟩ | ⟨r', -, -, -, hnf⟩ |
        ⟨chunk, r', hr', hsplit, hans, hlen, hnil⟩
      · have hlater := (AsyncStream.Later.refl r).of_tick hans
        refine .inl ⟨⟨[], r'⟩, by rw [hr'], ⟨rfl, ⟨hlater.faultless hrf, hlater.fair hrfair⟩,
          hsame.trans hrest⟩, ?_⟩
        have hwait : r'.wait = r.tick.wait := by
          unfold AsyncStream.wait
          rw [hans]
        show r'.wait < r.wait
        rw [hwait]
        exact AsyncStream.wait_tick_lt hrfair (AsyncStream.pending_of_pollRead hr')
      · exact absurd hrf hnf
      · have hlater := (AsyncStream.Later.refl r).of_tick hans
        refine .inr ⟨chunk, ⟨[], r'⟩, by rw [hr'], ⟨hlater.faultless hrf, hlater.fair hrfair⟩, ?_,
          hlen, ?_⟩
        · rw [← hrest, hsplit]
          rfl
        · intro hchunk
          rw [← hrest]
          exact (hnil hchunk).resolve_left (by omega)
    have hstart : (⟨[], inner⟩ : WithPreexistingBuffer).buffer = [] ∧ Sniffable inner ∧
        inner.rest = inner.rest := ⟨rfl, ⟨hfaultless, hfair⟩, rfl⟩
    obtain ⟨chunk, s', ⟨hs', hrest, hlen, hnil⟩, hret⟩ := returns_await _
      (measure fun r : WithPreexistingBuffer => r.inner.wait).wf hpoll hstart
    exact ⟨chunk, s', hs', hrest, hlen, hnil, hret⟩
  · refine ⟨buffer.take n, ⟨buffer.drop n, inner⟩, ⟨hfaultless, hfair⟩, ?_, ?_, ?_, ⟨1, fun k hk => ?_⟩⟩
    · show buffer ++ inner.rest = buffer.take n ++ (buffer.drop n ++ inner.rest)
      rw [← List.append_assoc, List.take_append_drop]
    · rw [List.length_take]
      exact Nat.min_le_left _ _
    · intro hnil
      rcases List.take_eq_nil_iff.mp hnil with hzero | hempty
      · omega
      · exact absurd hempty hbuffer
    · obtain ⟨m, rfl⟩ : ∃ m, k = m + 1 := ⟨k - 1, by omega⟩
      apply run_await_ok
      exact if_neg hbuffer

-- ====================
-- Streams that are split up
-- ====================

/-- A stream that is always ready, and brings at most `k + 1` bytes at a time. -/
def steady (rest : Bytes) (k : ℕ) : AsyncStream := ⟨rest, fun _ => .chunk k⟩

theorem sniffable_steady (rest : Bytes) (k : ℕ) : Sniffable (steady rest k) := by
  constructor
  · intro i h
    cases h
  · intro i
    refine ⟨0, ?_⟩
    intro h
    cases h

theorem returns_read_steady (rest : Bytes) (k : ℕ) :
    Returns (fun k => AsyncStream.read k BYTES_NEEDED) (steady rest k)
      (.ok (rest.take (min BYTES_NEEDED (k + 1)), steady (rest.drop (min BYTES_NEEDED (k + 1))) k)) := by
  refine ⟨1, fun m hm => ?_⟩
  obtain ⟨m, rfl⟩ : ∃ j, m = j + 1 := ⟨m - 1, by omega⟩
  rfl

/-- The beginning of a compressed stream. -/
def gzipped : Bytes := [0x1f, 0x8b, 0x08, 0x00, 0x00, 0x00, 0x00, 0x00, 0x00, 0x03]

/-- It is recognised if the first read brings six bytes. -/
theorem transparent_gzipped : Transparent (steady gzipped 9) := by
  apply (transparent_iff (steady gzipped 9) (sniffable_steady _ _).1 (sniffable_steady _ _).2).mpr
  intro l r' hreads
  cases hreads with
  | full h => cases h
  | eof _ h => cases (returns_read_steady gzipped 9).unique h
  | more _ _ h hrest =>
    cases (returns_read_steady gzipped 9).unique h
    cases hrest with
    | full _ => exact aligned_singleton (by decide)
    | eof h _ => exact absurd h (by decide)
    | more h _ _ _ => exact absurd h (by decide)

theorem reads_steady {n k : ℕ} {rest : Bytes} {l : List Bytes} {r' : AsyncStream}
    (hn : n < BYTES_NEEDED) (hne : rest.take (min BYTES_NEEDED (k + 1)) ≠ [])
    (h : Reads (n + (rest.take (min BYTES_NEEDED (k + 1))).length)
      (steady (rest.drop (min BYTES_NEEDED (k + 1))) k) l r') :
    Reads n (steady rest k) (rest.take (min BYTES_NEEDED (k + 1)) :: l) r' :=
  .more hn hne (returns_read_steady rest k) h

/-- It is not if the reads bring one byte each. If they bring five bytes each, the program panics. -/
theorem not_transparent_gzipped :
    (steady gzipped 0).Faultless ∧ (steady gzipped 0).Fair ∧ ¬ Transparent (steady gzipped 0) ∧
      Returns DecompressedReader.new (steady gzipped 4) (.error .panic) := by
  have hone : Reads 0 (steady gzipped 0) [[0x1f], [0x8b], [0x08], [0x00], [0x00], [0x00]]
      (steady (gzipped.drop 6) 0) := by
    apply reads_steady (by decide) (by decide)
    apply reads_steady (by decide) (by decide)
    apply reads_steady (by decide) (by decide)
    apply reads_steady (by decide) (by decide)
    apply reads_steady (by decide) (by decide)
    apply reads_steady (by decide) (by decide)
    exact .full (by decide)
  have hfive : Reads 0 (steady gzipped 4) [[0x1f, 0x8b, 0x08, 0x00, 0x00],
      [0x00, 0x00, 0x00, 0x00, 0x03]] (steady [] 4) := by
    apply reads_steady (by decide) (by decide)
    apply reads_steady (by decide) (by decide)
    exact .full (by decide)
  obtain ⟨hfaultless, hfair⟩ := sniffable_steady gzipped 0
  refine ⟨hfaultless, hfair, ?_, ?_⟩
  · intro h
    have haligned := aligned_of_transparent h ⟨hfaultless, hfair⟩ hone
    exact absurd (haligned.2 0 (by decide)) (by decide)
  · have hnew := returns_new hfive (sniffable_steady gzipped 4)
    rwa [if_neg (by decide)] at hnew

end Snix.Store
