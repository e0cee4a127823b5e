import Snix.Lib.AsyncStream
import Snix.Lib.LittleEndian

/-!
# Reading a byte packet piece by piece

A byte packet is a length, that many bytes of payload, zeros up to the next
multiple of eight, and for some packets a fixed tag. `BytesReader` hands out the
payload as it comes in, but keeps the last block back until padding and tag were
checked.

The client is a sequence of operations: it polls the constructor, and then reads
into buffers of any size or views and consumes, in any order.

## Main definitions

- `ReadTrailer`, `State`, `Phase` — the states of the reader
- `pollNew`, `pollRead`, `pollFillBuf`, `consume` — its operations
- `Session`, `Session.step` — the reader together with what a client saw of it
- `WellFormed` — the packet is complete, padded with zeros and tagged

## Main results

- `Session.Inv` — the invariant of a session, kept by every operation
- `delivers_payload` — what any client sees
-/

namespace Snix.Wire

/-- What has to follow a packet: padding only, or padding and the closing
    parenthesis of an archive. -/
inductive Tag where
  | pad | padPar
  deriving DecidableEq

/-- The closing parenthesis, as a packet. -/
def TOK_PAR : Bytes := [1, 0, 0, 0, 0, 0, 0, 0, 41, 0, 0, 0, 0, 0, 0, 0]

/-- What follows the padding. -/
def Tag.suffix : Tag → Bytes
  | .pad => []
  | .padPar => TOK_PAR

/-- The expected end of the packet, as if its last block were all padding. -/
def Tag.pattern (t : Tag) : Bytes := List.replicate 8 0 ++ t.suffix

/-- Splits the length of the payload into the blocks before the last, and what the
    last block has of it. -/
def splitUserLen (userLen : ℕ) : ℕ × ℕ := ((userLen - 1) / 8 * 8, (userLen - 1) % 8 + 1)

-- ====================
-- The reader
-- ====================

/-- A trailer that is being read. `buf` is the part of the buffer that is filled. -/
structure ReadTrailer where
  reader : AsyncStream
  dataLen : ℕ
  buf : Bytes

/-- Starts reading a trailer that has `dataLen` bytes of payload. -/
def readTrailer (reader : AsyncStream) (dataLen : ℕ) : ReadTrailer :=
  ⟨reader, dataLen, if dataLen ≠ 0 then [] else List.replicate 8 0⟩

/-- Reads on until the trailer is complete, checking what there is of it before
    each read. `fuel` bounds the reads, each of which fills at least one byte. -/
def ReadTrailer.pollLoop (t : Tag) :
    ℕ → ReadTrailer → Poll (Except IoError Bytes) × ReadTrailer
  | 0, rt => (.pending, rt)
  | fuel + 1, rt =>
    if rt.dataLen ≤ rt.buf.length ∧
        rt.buf.drop rt.dataLen ≠ (t.pattern.take rt.buf.length).drop rt.dataLen then
      (.ready (.error .invalidData), rt)
    else if rt.buf.length = t.pattern.length then
      (.ready (.ok ((rt.buf.take 8).take rt.dataLen)), rt)
    else
      match rt.reader.pollRead (t.pattern.length - rt.buf.length) with
      | (.pending, r) => (.pending, { rt with reader := r })
      | (.ready (.error e), r) => (.ready (.error e), { rt with reader := r })
      | (.ready (.ok []), r) => (.ready (.error .unexpectedEof), { rt with reader := r })
      | (.ready (.ok (b :: chunk)), r) =>
        pollLoop t fuel { rt with reader := r, buf := rt.buf ++ b :: chunk }

def ReadTrailer.poll (t : Tag) (rt : ReadTrailer) :
    Poll (Except IoError Bytes) × ReadTrailer :=
  rt.pollLoop t (t.pattern.length + 1)

/-- The states of an open reader: whole blocks, the trailer being read, the
    verified trailer being handed out. The stream is borrowed; in the last state it
    is not used any more, and waits for its owner. -/
inductive State where
  | body (reader : AsyncStream) (consumed userLen : ℕ)
  | readTrailer (rt : ReadTrailer)
  | releaseTrailer (reader : AsyncStream) (consumed : ℕ) (data : Bytes)

namespace State

/-- Hands out bytes of the verified trailer. -/
def release (n : ℕ) (reader : AsyncStream) (consumed : ℕ) (data : Bytes) :
    Poll (Except IoError Bytes) × State :=
  let out := (data.drop consumed).take n
  (.ready (.ok out), .releaseTrailer reader (consumed + out.length) data)

/-- Reads on the trailer, and hands out bytes of it once it is verified. -/
def pollReadTrailer (t : Tag) (n : ℕ) (rt : ReadTrailer) : Poll (Except IoError Bytes) × State :=
  match rt.poll t with
  | (.pending, rt) => (.pending, .readTrailer rt)
  | (.ready (.error e), rt) => (.ready (.error e), .readTrailer rt)
  | (.ready (.ok data), rt) => release n rt.reader 0 data

/-- Reads into a buffer of `n` bytes. -/
def pollRead (t : Tag) (n : ℕ) (s : State) : Poll (Except IoError Bytes) × State :=
  if n = 0 then (.ready (.ok []), s)
  else match s with
    | .body reader consumed userLen =>
      let (bodyLen, tailLen) := splitUserLen userLen
      let remaining := bodyLen - consumed
      if remaining = 0 then pollReadTrailer t n (Wire.readTrailer reader tailLen)
      else match reader.pollRead (min n remaining) with
        | (.pending, r) => (.pending, .body r consumed userLen)
        | (.ready (.error e), r) => (.ready (.error e), .body r consumed userLen)
        | (.ready (.ok []), r) => (.ready (.error .unexpectedEof), .body r consumed userLen)
        | (.ready (.ok (b :: chunk)), r) =>
          (.ready (.ok (b :: chunk)), .body r (consumed + (b :: chunk).length) userLen)
    | .readTrailer rt => pollReadTrailer t n rt
    | .releaseTrailer reader consumed data => release n reader consumed data

/-- Reads on the trailer, and shows it once it is verified. -/
def pollFillTrailer (t : Tag) (rt : ReadTrailer) : Poll (Except IoError Bytes) × State :=
  match rt.poll t with
  | (.pending, rt) => (.pending, .readTrailer rt)
  | (.ready (.error e), rt) => (.ready (.error e), .readTrailer rt)
  | (.ready (.ok data), rt) => (.ready (.ok data), .releaseTrailer rt.reader 0 data)

/-- Shows bytes without consuming them. -/
def pollFillBuf (t : Tag) : State → Poll (Except IoError Bytes) × State
  | .body reader consumed userLen =>
    let (bodyLen, tailLen) := splitUserLen userLen
    let remaining := bodyLen - consumed
    if remaining = 0 then pollFillTrailer t (Wire.readTrailer reader tailLen)
    else match reader.pollFillBuf with
      | (.pending, r) => (.pending, .body r consumed userLen)
      | (.ready (.error e), r) => (.ready (.error e), .body r consumed userLen)
      | (.ready (.ok []), r) => (.ready (.error .unexpectedEof), .body r consumed userLen)
      | (.ready (.ok (b :: view)), r) =>
        (.ready (.ok ((b :: view).take remaining)), .body r consumed userLen)
  | .readTrailer rt => pollFillTrailer t rt
  | .releaseTrailer reader consumed data =>
    (.ready (.ok (data.drop consumed)), .releaseTrailer reader consumed data)

/-- Consumes bytes that were shown. `none` is a panic. -/
def consume (amt : ℕ) : State → Option State
  | .body reader consumed userLen =>
    if consumed + amt ≤ (splitUserLen userLen).1 then
      some (.body (reader.consume amt) (consumed + amt) userLen)
    else none
  | .readTrailer rt => if amt = 0 then some (.readTrailer rt) else none
  | .releaseTrailer reader consumed data =>
    if amt + consumed ≤ data.length then some (.releaseTrailer reader (amt + consumed) data)
    else none

end State

/-- The reader from its construction on: the length is being read, the trailer of an
    empty packet is being read, the reader is open, or the construction failed. -/
inductive Phase where
  | readLen (buf : Bytes) (reader : AsyncStream)
  | emptyTrailer (rt : ReadTrailer)
  | opened (s : State)
  | failed

/-- Reads on the trailer of an empty packet. -/
def pollEmptyTrailer (t : Tag) (rt : ReadTrailer) : Poll (Except IoError Unit) × Phase :=
  match rt.poll t with
  | (.pending, rt) => (.pending, .emptyTrailer rt)
  | (.ready (.error e), _) => (.ready (.error e), .failed)
  | (.ready (.ok data), rt) => (.ready (.ok ()), .opened (.releaseTrailer rt.reader 0 data))

/-- Reads on the length, and opens the reader once it is known and allowed. -/
def pollReadLen (t : Tag) (allowed : ℕ → Bool) :
    ℕ → Bytes → AsyncStream → Poll (Except IoError Unit) × Phase
  | 0, buf, r => (.pending, .readLen buf r)
  | fuel + 1, buf, r =>
    if buf.length = 8 then
      let size := leValue buf
      if !allowed size then (.ready (.error .invalidData), .failed)
      else if size = 0 then pollEmptyTrailer t (Wire.readTrailer r 0)
      else (.ready (.ok ()), .opened (.body r 0 size))
    else match r.pollRead (8 - buf.length) with
      | (.pending, r) => (.pending, .readLen buf r)
      | (.ready (.error e), _) => (.ready (.error e), .failed)
      | (.ready (.ok []), _) => (.ready (.error .unexpectedEof), .failed)
      | (.ready (.ok (b :: chunk)), r) => pollReadLen t allowed fuel (buf ++ b :: chunk) r

-- ====================
-- Clients
-- ====================

/-- What a client can do. -/
inductive Op where
  | pollNew
  | pollRead (n : ℕ)
  | pollFillBuf
  | consume (amt : ℕ)

/-- A reader, and what a client saw of it: the bytes that are shown and not consumed,
    the bytes that were handed out, how far into the payload it has seen, how many
    polls failed and how many reported the end. `completed` counts the operations
    that have to bring the client forward: the reads that completed, the views that
    showed nothing, and the consumptions of at least one byte. -/
structure Session where
  phase : Phase
  buffer : Bytes
  handed : Bytes
  exposed : ℕ
  completed : ℕ
  failures : ℕ
  eofs : ℕ
  panicked : Bool

namespace Session

/-- A client that starts to read from a stream. -/
def start (reader : AsyncStream) : Session :=
  ⟨.readLen [] reader, [], [], 0, 0, 0, 0, false⟩

/-- The constructor was polled. -/
def polledNew (s : Session) : Poll (Except IoError Unit) × Phase → Session
  | (.ready (.error _), phase) => { s with phase := phase, failures := s.failures + 1 }
  | (_, phase) => { s with phase := phase }

/-- A read into a buffer that is not empty was polled. -/
def polledRead (s : Session) : Poll (Except IoError Bytes) × State → Session
  | (.pending, st) => { s with phase := .opened st, buffer := [] }
  | (.ready (.error _), st) =>
    { s with
      phase := .opened st, buffer := [], completed := s.completed + 1
      failures := s.failures + 1 }
  | (.ready (.ok out), st) =>
    { s with
      phase := .opened st, buffer := [], handed := s.handed ++ out
      exposed := max s.exposed (s.handed.length + out.length), completed := s.completed + 1
      eofs := if out = [] then s.eofs + 1 else s.eofs }

/-- A view was polled. -/
def polledFillBuf (s : Session) : Poll (Except IoError Bytes) × State → Session
  | (.pending, st) => { s with phase := .opened st, buffer := [] }
  | (.ready (.error _), st) =>
    { s with
      phase := .opened st, buffer := [], completed := s.completed + 1
      failures := s.failures + 1 }
  | (.ready (.ok view), st) =>
    { s with
      phase := .opened st, buffer := view
      exposed := max s.exposed (s.handed.length + view.length)
      completed := if view = [] then s.completed + 1 else s.completed
      eofs := if view = [] then s.eofs + 1 else s.eofs }

/-- Bytes that were shown were consumed. -/
def consumed (s : Session) (amt : ℕ) : Option State → Session
  | none => { s with panicked := true }
  | some st =>
    { s with
      phase := .opened st, buffer := s.buffer.drop amt, handed := s.handed ++ s.buffer.take amt
      completed := if amt = 0 then s.completed else s.completed + 1 }

/-- One operation. A client cannot use a reader that is not open, and must not
    consume more than it is shown; such operations do nothing here. -/
def step (t : Tag) (allowed : ℕ → Bool) (s : Session) : Op → Session
  | .pollNew =>
    match s.phase with
    | .readLen buf r => s.polledNew (pollReadLen t allowed 9 buf r)
    | .emptyTrailer rt => s.polledNew (pollEmptyTrailer t rt)
    | _ => s
  | .pollRead n =>
    match s.phase with
    | .opened st => if n = 0 then s else s.polledRead (st.pollRead t n)
    | _ => s
  | .pollFillBuf =>
    match s.phase with
    | .opened st => s.polledFillBuf (st.pollFillBuf t)
    | _ => s
  | .consume amt =>
    match s.phase with
    | .opened st => if amt ≤ s.buffer.length then s.consumed amt (st.consume amt) else s
    | _ => s

/-- A client that performs the given operations. -/
def run (t : Tag) (allowed : ℕ → Bool) (reader : AsyncStream) (ops : List Op) : Session :=
  ops.foldl (step t allowed) (start reader)

end Session

-- ====================
-- Packets
-- ====================

/-- The length a packet announces. -/
def userLen (input : Bytes) : ℕ := leValue (input.take 8)

/-- The payload of a packet, as far as it is there. -/
def payload (input : Bytes) : Bytes := (input.drop 8).take (userLen input)

/-- The number of bytes up to the next multiple of eight. -/
def paddingLen (n : ℕ) : ℕ := (8 - n % 8) % 8

/-- The packet is complete, padded with zeros and tagged. -/
def WellFormed (t : Tag) (input : Bytes) : Prop :=
  8 ≤ input.length ∧ (payload input).length = userLen input ∧
    ∃ rest, input.drop 8 =
      payload input ++ List.replicate (paddingLen (userLen input)) 0 ++ t.suffix ++ rest

theorem splitUserLen_spec {n : ℕ} (h : 0 < n) :
    (splitUserLen n).1 + (splitUserLen n).2 = n ∧ 0 < (splitUserLen n).2 ∧
      (splitUserLen n).2 ≤ 8 ∧ paddingLen n = 8 - (splitUserLen n).2 := by
  simp only [splitUserLen, paddingLen]
  omega

theorem pattern_drop (t : Tag) {k : ℕ} (h : k ≤ 8) :
    t.pattern.drop k = List.replicate (8 - k) 0 ++ t.suffix := by
  rw [Tag.pattern, List.drop_append_of_le_length (by simpa using h), List.drop_replicate]

theorem length_pattern (t : Tag) : 8 ≤ t.pattern.length := by
  simp [Tag.pattern]

/-- The bytes a trailer is read from, with the block that an empty packet does not
    have put in front. -/
def trailerSource (dataLen : ℕ) (src : Bytes) : Bytes :=
  (if dataLen ≠ 0 then [] else List.replicate 8 0) ++ src

/-- The bytes start with a trailer. -/
def ValidTrailer (t : Tag) (dataLen : ℕ) (full : Bytes) : Prop :=
  ∃ data rest, full = data ++ t.pattern.drop dataLen ++ rest ∧ data.length = dataLen

/-- A trailer that is being read from `full`. -/
structure ReadTrailer.Inv (t : Tag) (dataLen : ℕ) (full : Bytes) (r₀ : AsyncStream)
    (rt : ReadTrailer) : Prop where
  dataLen_eq : rt.dataLen = dataLen
  source : rt.buf ++ rt.reader.rest = full
  bound : rt.buf.length ≤ t.pattern.length
  later : rt.reader.Later r₀

theorem Inv_readTrailer (t : Tag) (dataLen : ℕ) {r r₀ : AsyncStream} (hlater : r.Later r₀) :
    (readTrailer r dataLen).Inv t dataLen (trailerSource dataLen r.rest) r₀ := by
  refine ⟨rfl, rfl, ?_, hlater⟩
  have := length_pattern t
  by_cases h : dataLen ≠ 0
  · simp [readTrailer, h]
  · simp only [readTrailer, h, if_false, List.length_replicate]
    exact this

theorem ValidTrailer.length_le {t : Tag} {dataLen : ℕ} {full : Bytes}
    (h : ValidTrailer t dataLen full) : t.pattern.length ≤ full.length := by
  obtain ⟨data, rest, rfl, hlen⟩ := h
  have := length_pattern t
  simp only [List.length_append, List.length_drop]
  omega

theorem ValidTrailer.drop_eq {t : Tag} {dataLen : ℕ} {buf src : Bytes}
    (hlen : dataLen ≤ buf.length) (hbound : buf.length ≤ t.pattern.length)
    (h : ValidTrailer t dataLen (buf ++ src)) :
    buf.drop dataLen = (t.pattern.take buf.length).drop dataLen := by
  obtain ⟨data, rest, hfull, rfl⟩ := h
  have hdrop : buf.drop data.length ++ src = t.pattern.drop data.length ++ rest := by
    have := congrArg (List.drop data.length) hfull
    rwa [List.drop_append_of_le_length hlen, List.append_assoc, List.drop_left] at this
  have htake := congrArg (List.take (buf.length - data.length)) hdrop
  rw [List.take_append_of_le_length (by simp), List.take_append_of_le_length (by simp; omega),
    List.take_of_length_le (by simp)] at htake
  rw [htake, List.drop_take]

/-- Everything polling a trailer can do. -/
theorem ReadTrailer.pollLoop_cases {t : Tag} {dataLen : ℕ} {full : Bytes} {r₀ : AsyncStream}
    (hdata : dataLen ≤ 8) (fuel : ℕ) {rt : ReadTrailer} (h : rt.Inv t dataLen full r₀)
    (hfuel : t.pattern.length < fuel + rt.buf.length) :
    (∃ rt', rt.pollLoop t fuel = (.pending, rt') ∧ rt'.Inv t dataLen full r₀ ∧
        Stalled rt.reader rt'.reader) ∨
      (∃ e rt', rt.pollLoop t fuel = (.ready (.error e), rt') ∧ rt'.Inv t dataLen full r₀ ∧
        (r₀.Faultless → ¬ ValidTrailer t dataLen full)) ∨
      ∃ data rt', rt.pollLoop t fuel = (.ready (.ok data), rt') ∧
        full = data ++ t.pattern.drop dataLen ++ rt'.reader.rest ∧ data.length = dataLen ∧
        rt'.reader.Later r₀ := by
  have hpattern := length_pattern t
  induction fuel generalizing rt with
  | zero =>
    have := h.bound
    omega
  | succ fuel ih =>
    obtain ⟨reader, k, buf⟩ := rt
    obtain ⟨rfl, hsrc, hbound, hlater⟩ := h
    simp only at hsrc hbound hlater hfuel hdata
    rw [pollLoop]
    by_cases hcheck : k ≤ buf.length ∧ buf.drop k ≠ (t.pattern.take buf.length).drop k
    · refine .inr (.inl ⟨_, _, if_pos hcheck, ⟨rfl, hsrc, hbound, hlater⟩, fun _ hvalid => ?_⟩)
      exact hcheck.2 (ValidTrailer.drop_eq hcheck.1 hbound (hsrc ▸ hvalid))
    simp only [if_neg hcheck]
    by_cases hfull : buf.length = t.pattern.length
    · have hdrop : buf.drop k = t.pattern.drop k := by
        by_contra hne
        exact hcheck ⟨by omega, by rwa [hfull, List.take_length]⟩
      refine .inr (.inr ⟨_, _, if_pos hfull, ?_, ?_, hlater⟩)
      · rw [← hsrc, List.take_take, Nat.min_eq_left hdata, ← hdrop, List.take_append_drop]
      · simp only [List.length_take]
        omega
    simp only [if_neg hfull]
    rcases reader.pollRead_cases (t.pattern.length - buf.length) with
      ⟨r', hr, hrest, hans⟩ | ⟨r', hr, hrest, hans, hnf⟩ | ⟨chunk, r', hr, hrest, hans, hn, hnil⟩
    · simp only [hr]
      refine .inl ⟨_, rfl, ⟨rfl, by simpa only [hrest] using hsrc, hbound, hlater.of_tick hans⟩, ?_⟩
      exact .inr ⟨AsyncStream.pending_of_pollRead hr, hrest, hans⟩
    · simp only [hr]
      refine .inr (.inl ⟨_, _, rfl, ⟨rfl, by simpa only [hrest] using hsrc, hbound,
        hlater.of_tick hans⟩, fun hf => ?_⟩)
      exact absurd (hlater.faultless hf) hnf
    · cases chunk with
      | nil =>
        simp only [hr]
        have heof : reader.rest = [] := by
          rcases hnil rfl with h0 | h0
          · omega
          · exact h0
        refine .inr (.inl ⟨_, _, rfl, ⟨rfl, ?_, hbound, hlater.of_tick hans⟩, fun _ hvalid => ?_⟩)
        · rw [← hsrc, hrest, List.nil_append]
        · have := hvalid.length_le
          rw [← hsrc, heof, List.append_nil] at this
          omega
      | cons b chunk =>
        simp only [hr]
        have hinv : ReadTrailer.Inv t k full r₀ ⟨r', k, buf ++ b :: chunk⟩ := by
          refine ⟨rfl, ?_, ?_, hlater.of_tick hans⟩
          · rw [← hsrc, hrest]
            simp
          · simp only [List.length_append]
            omega
        have hshorter : r'.rest.length < reader.rest.length := by
          rw [hrest, List.length_append, List.length_cons]
          omega
        rcases ih hinv (by simp only [List.length_append, List.length_cons]; omega) with
          ⟨rt', hpoll, hinv', hstalled⟩ | hdone
        · refine .inl ⟨rt', hpoll, hinv', .inl ?_⟩
          rcases hstalled with hlt | ⟨-, heq, -⟩
          · exact hlt.trans hshorter
          · rw [heq]
            exact hshorter
        · exact .inr hdone

/-- The length of the blocks before the last. -/
def bodyLen (input : Bytes) : ℕ := (splitUserLen (userLen input)).1

/-- What the last block has of the payload. -/
def tailLen (input : Bytes) : ℕ := (splitUserLen (userLen input)).2

section

variable {t : Tag} {input : Bytes}

theorem bodyLen_spec (h : 0 < userLen input) :
    bodyLen input + tailLen input = userLen input ∧ 0 < tailLen input ∧ tailLen input ≤ 8 ∧
      paddingLen (userLen input) = 8 - tailLen input :=
  splitUserLen_spec h

theorem payload_eq_of_trailer {pre data src rest : Bytes} (hpos : 0 < userLen input)
    (hpre : pre.length = bodyLen input) (hsrc : pre ++ src = input.drop 8)
    (hfull : src = data ++ t.pattern.drop (tailLen input) ++ rest)
    (hdata : data.length = tailLen input) : payload input = pre ++ data := by
  have hspec := bodyLen_spec hpos
  rw [payload, ← hsrc, hfull, List.append_assoc, ← List.append_assoc pre]
  apply List.take_left'
  rw [List.length_append]
  omega

theorem drop_eq_of_trailer {pre data src rest : Bytes} (hpos : 0 < userLen input)
    (hpre : pre.length = bodyLen input) (hsrc : pre ++ src = input.drop 8)
    (hfull : src = data ++ t.pattern.drop (tailLen input) ++ rest)
    (hdata : data.length = tailLen input) :
    input.drop 8 =
      payload input ++ List.replicate (paddingLen (userLen input)) 0 ++ t.suffix ++ rest := by
  have hspec := bodyLen_spec hpos
  rw [← hsrc, payload_eq_of_trailer hpos hpre hsrc hfull hdata, hfull,
    pattern_drop t (by omega), hspec.2.2.2]
  simp only [List.append_assoc]

theorem wellFormed_of_trailer {pre data src rest : Bytes} (hinput : 8 ≤ input.length)
    (hpos : 0 < userLen input) (hpre : pre.length = bodyLen input)
    (hsrc : pre ++ src = input.drop 8)
    (hfull : src = data ++ t.pattern.drop (tailLen input) ++ rest)
    (hdata : data.length = tailLen input) : WellFormed t input := by
  have hspec := bodyLen_spec hpos
  refine ⟨hinput, ?_, rest, drop_eq_of_trailer hpos hpre hsrc hfull hdata⟩
  rw [payload_eq_of_trailer hpos hpre hsrc hfull hdata, List.length_append]
  omega

theorem WellFormed.validTrailer {pre src : Bytes} (h : WellFormed t input)
    (hpos : 0 < userLen input) (hpre : pre.length = bodyLen input)
    (hsrc : pre ++ src = input.drop 8) : ValidTrailer t (tailLen input) src := by
  obtain ⟨-, hlen, rest, hrest⟩ := h
  have hspec := bodyLen_spec hpos
  refine ⟨(payload input).drop (bodyLen input), rest, ?_, ?_⟩
  · have := congrArg (List.drop (bodyLen input)) (hsrc.trans hrest)
    rw [← hpre, List.drop_left, hpre] at this
    rw [this, pattern_drop t (by omega), ← hspec.2.2.2]
    simp only [List.append_assoc]
    rw [List.drop_append_of_le_length (by omega)]
  · rw [List.length_drop]
    omega

theorem drop_eq_of_emptyTrailer {data rest : Bytes} (hzero : userLen input = 0)
    (hfull : trailerSource 0 (input.drop 8) = data ++ t.pattern.drop 0 ++ rest)
    (hdata : data.length = 0) :
    input.drop 8 =
      payload input ++ List.replicate (paddingLen (userLen input)) 0 ++ t.suffix ++ rest := by
  rw [List.length_eq_zero_iff.mp hdata] at hfull
  simpa [trailerSource, Tag.pattern, payload, hzero, paddingLen] using hfull

theorem WellFormed.validTrailer_empty (h : WellFormed t input) (hzero : userLen input = 0) :
    ValidTrailer t 0 (trailerSource 0 (input.drop 8)) := by
  obtain ⟨-, -, rest, hrest⟩ := h
  refine ⟨[], rest, ?_, rfl⟩
  simpa [trailerSource, Tag.pattern, payload, hzero, paddingLen] using hrest

/-- A well formed packet has all of its body. -/
theorem WellFormed.length_drop (h : WellFormed t input) : userLen input ≤ (input.drop 8).length := by
  have := h.2.1
  rw [payload, List.length_take] at this
  omega

end

/-- Whole blocks are being handed out: the client has `consumed` bytes, and is shown
    nothing of the last block. -/
structure BodyInv (input : Bytes) (r₀ : AsyncStream) (s : Session) (r : AsyncStream)
    (consumed ul : ℕ) : Prop where
  ul_eq : ul = userLen input
  pos : 0 < userLen input
  eofs : s.eofs = 0
  handed : s.handed.length = consumed
  source : s.handed ++ r.rest = input.drop 8
  buffer : s.buffer <+: r.rest
  bound : consumed + s.buffer.length ≤ bodyLen input
  exposed : s.exposed ≤ bodyLen input
  later : r.Later r₀

/-- The trailer is being read: the client has all of the body, and nothing else. -/
structure TrailerInv (t : Tag) (input : Bytes) (r₀ : AsyncStream) (s : Session) (rt : ReadTrailer) :
    Prop where
  pos : 0 < userLen input
  eofs : s.eofs = 0
  handed : s.handed.length = bodyLen input
  source : ∃ src, s.handed ++ src = input.drop 8 ∧ rt.Inv t (tailLen input) src r₀
  buffer : s.buffer = []
  exposed : s.exposed ≤ bodyLen input

/-- The trailer is verified. -/
structure ReleaseInv (t : Tag) (input : Bytes) (r₀ : AsyncStream) (s : Session) (r : AsyncStream)
    (consumed : ℕ) (data : Bytes) : Prop where
  wellFormed : WellFormed t input
  rest_eq : input.drop 8 =
    payload input ++ List.replicate (paddingLen (userLen input)) 0 ++ t.suffix ++ r.rest
  later : r.Later r₀
  payload_eq : ∃ pre, payload input = pre ++ data ∧ s.handed = pre ++ data.take consumed
  consumed_le : consumed ≤ data.length
  buffer : s.buffer <+: data.drop consumed
  eofs : 0 < s.eofs → s.handed = payload input

/-- The invariant of an open reader. -/
def State.Inv (t : Tag) (input : Bytes) (r₀ : AsyncStream) (s : Session) : State → Prop
  | .body r consumed ul => BodyInv input r₀ s r consumed ul
  | .readTrailer rt => TrailerInv t input r₀ s rt
  | .releaseTrailer r consumed data => ReleaseInv t input r₀ s r consumed data

/-- The client has seen nothing yet. -/
structure Fresh (s : Session) : Prop where
  handed : s.handed = []
  buffer : s.buffer = []
  exposed : s.exposed = 0
  eofs : s.eofs = 0

/-- The invariant of a reader. -/
def Phase.Inv (t : Tag) (allowed : ℕ → Bool) (input : Bytes) (r₀ : AsyncStream) (s : Session) :
    Phase → Prop
  | .readLen buf r =>
    Fresh s ∧ buf ++ r.rest = input ∧ buf.length ≤ 8 ∧ r.Later r₀
  | .emptyTrailer rt =>
    Fresh s ∧ 8 ≤ input.length ∧ allowed (userLen input) = true ∧ userLen input = 0 ∧
      rt.Inv t 0 (trailerSource 0 (input.drop 8)) r₀
  | .opened st => 8 ≤ input.length ∧ allowed (userLen input) = true ∧ st.Inv t input r₀ s
  | .failed => Fresh s ∧ 0 < s.failures

/-- The invariant of a session. -/
structure Session.Inv (t : Tag) (allowed : ℕ → Bool) (input : Bytes) (r₀ : AsyncStream) (s : Session) :
    Prop where
  phase : s.phase.Inv t allowed input r₀ s
  failures : r₀.Faultless → WellFormed t input → allowed (userLen input) = true → s.failures = 0
  completed : s.completed ≤ s.handed.length + s.failures + s.eofs
  panicked : s.panicked = false

section

variable {t : Tag} {allowed : ℕ → Bool} {input : Bytes} {r₀ : AsyncStream} {s : Session}

/-- A verified trailer can be released. -/
theorem TrailerInv.release {rt : ReadTrailer} {r : AsyncStream} {data src : Bytes}
    (hinput : 8 ≤ input.length) (h : TrailerInv t input r₀ s rt)
    (hsrc : s.handed ++ src = input.drop 8)
    (hfull : src = data ++ t.pattern.drop (tailLen input) ++ r.rest)
    (hdata : data.length = tailLen input) (hlater : r.Later r₀) :
    ReleaseInv t input r₀ s r 0 data where
  wellFormed := wellFormed_of_trailer hinput h.pos h.handed hsrc hfull hdata
  rest_eq := drop_eq_of_trailer h.pos h.handed hsrc hfull hdata
  later := hlater
  payload_eq := ⟨s.handed, payload_eq_of_trailer h.pos h.handed hsrc hfull hdata, by simp⟩
  consumed_le := Nat.zero_le _
  buffer := by
    rw [h.buffer]
    exact List.nil_prefix
  eofs := fun hpos => by
    have := h.eofs
    omega

theorem ReleaseInv.drop_eq_nil_iff {r : AsyncStream} {consumed : ℕ} {data : Bytes}
    (h : ReleaseInv t input r₀ s r consumed data) :
    data.drop consumed = [] ↔ s.handed = payload input := by
  obtain ⟨pre, hpay, hhanded⟩ := h.payload_eq
  have hlen := h.consumed_le
  rw [hpay, hhanded, List.append_cancel_left_eq, List.drop_eq_nil_iff]
  constructor
  · intro hle
    exact List.take_of_length_le hle
  · intro heq
    have := congrArg List.length heq
    rw [List.length_take] at this
    omega

theorem inv_polledRead_release {n consumed : ℕ} {r : AsyncStream} {data : Bytes} (hn : 0 < n)
    (hinput : 8 ≤ input.length) (hallowed : allowed (userLen input) = true)
    (hs : s.Inv t allowed input r₀) (h : ReleaseInv t input r₀ s r consumed data) :
    (s.polledRead (State.release n r consumed data)).Inv t allowed input r₀ := by
  obtain ⟨pre, hpay, hhanded⟩ := h.payload_eq
  have hle := h.consumed_le
  have hnil : (data.drop consumed).take n = [] ↔ s.handed = payload input := by
    rw [List.take_eq_nil_iff, ← h.drop_eq_nil_iff]
    constructor
    · rintro (h0 | h0)
      · omega
      · exact h0
    · exact .inr
  refine ⟨⟨hinput, hallowed, ⟨h.wellFormed, h.rest_eq, h.later, ⟨pre, hpay, ?_⟩, ?_,
    List.nil_prefix, ?_⟩⟩,
    hs.failures, ?_, hs.panicked⟩
  · simp only [Session.polledRead, State.release, hhanded, List.append_assoc,
      List.append_cancel_left_eq]
    rw [List.take_add, List.length_take, ← List.take_eq_take_min]
  · simp only [List.length_take, List.length_drop]
    omega
  · intro heofs
    have hall : s.handed = payload input := by
      by_cases hout : (data.drop consumed).take n = []
      · exact hnil.mp hout
      · exact h.eofs (by simpa [Session.polledRead, State.release, hout] using heofs)
    simp [Session.polledRead, State.release, hnil.mpr hall, hall]
  · have := hs.completed
    by_cases hout : (data.drop consumed).take n = []
    · simp only [Session.polledRead, State.release, hout, if_true, List.append_nil]
      omega
    · have := List.length_pos_iff.mpr hout
      simp only [Session.polledRead, State.release, hout, if_false, List.length_append]
      omega

theorem inv_polledRead_trailer {n : ℕ} {rt : ReadTrailer} (hn : 0 < n)
    (hinput : 8 ≤ input.length) (hallowed : allowed (userLen input) = true)
    (hs : s.Inv t allowed input r₀) (h : TrailerInv t input r₀ s rt) :
    (s.polledRead (State.pollReadTrailer t n rt)).Inv t allowed input r₀ := by
  obtain ⟨src, hsrc, hrt⟩ := h.source
  have hspec := bodyLen_spec h.pos
  rcases ReadTrailer.pollLoop_cases hspec.2.2.1 (t.pattern.length + 1) hrt (by omega) with
    ⟨rt', hpoll, hrt', -⟩ | ⟨e, rt', hpoll, hrt', hbad⟩ |
    ⟨data, rt', hpoll, hfull, hdata, hlater⟩
  · simp only [State.pollReadTrailer, ReadTrailer.poll, hpoll]
    exact ⟨⟨hinput, hallowed, h.pos, h.eofs, h.handed, ⟨src, hsrc, hrt'⟩, rfl, h.exposed⟩,
      hs.failures, hs.completed, hs.panicked⟩
  · simp only [State.pollReadTrailer, ReadTrailer.poll, hpoll]
    refine ⟨⟨hinput, hallowed, h.pos, h.eofs, h.handed, ⟨src, hsrc, hrt'⟩, rfl, h.exposed⟩,
      fun hF hwf _ => ?_, ?_, hs.panicked⟩
    · exact absurd (hwf.validTrailer h.pos h.handed hsrc) (hbad hF)
    · have := hs.completed
      simp only [Session.polledRead]
      omega
  · simp only [State.pollReadTrailer, ReadTrailer.poll, hpoll]
    exact inv_polledRead_release hn hinput hallowed hs (h.release hinput hsrc hfull hdata hlater)

theorem inv_polledFillBuf_release {r : AsyncStream} {consumed : ℕ} {data : Bytes}
    (hinput : 8 ≤ input.length) (hallowed : allowed (userLen input) = true)
    (hs : s.Inv t allowed input r₀) (h : ReleaseInv t input r₀ s r consumed data) :
    (s.polledFillBuf (.ready (.ok (data.drop consumed)), .releaseTrailer r consumed data)).Inv
      t allowed input r₀ := by
  refine ⟨⟨hinput, hallowed, ⟨h.wellFormed, h.rest_eq, h.later, h.payload_eq, h.consumed_le,
    List.prefix_rfl, ?_⟩⟩,
    hs.failures, ?_, hs.panicked⟩
  · intro heofs
    by_cases hout : data.drop consumed = []
    · exact h.drop_eq_nil_iff.mp hout
    · exact h.eofs (by simpa [Session.polledFillBuf, hout] using heofs)
  · have := hs.completed
    by_cases hout : data.drop consumed = []
    · simp only [Session.polledFillBuf, hout, if_true]
      omega
    · simp only [Session.polledFillBuf, hout, if_false]
      omega

theorem inv_polledFillBuf_trailer {rt : ReadTrailer}
    (hinput : 8 ≤ input.length) (hallowed : allowed (userLen input) = true)
    (hs : s.Inv t allowed input r₀) (h : TrailerInv t input r₀ s rt) :
    (s.polledFillBuf (State.pollFillTrailer t rt)).Inv t allowed input r₀ := by
  obtain ⟨src, hsrc, hrt⟩ := h.source
  have hspec := bodyLen_spec h.pos
  rcases ReadTrailer.pollLoop_cases hspec.2.2.1 (t.pattern.length + 1) hrt (by omega) with
    ⟨rt', hpoll, hrt', -⟩ | ⟨e, rt', hpoll, hrt', hbad⟩ |
    ⟨data, rt', hpoll, hfull, hdata, hlater⟩
  · simp only [State.pollFillTrailer, ReadTrailer.poll, hpoll]
    exact ⟨⟨hinput, hallowed, h.pos, h.eofs, h.handed, ⟨src, hsrc, hrt'⟩, rfl, h.exposed⟩,
      hs.failures, hs.completed, hs.panicked⟩
  · simp only [State.pollFillTrailer, ReadTrailer.poll, hpoll]
    refine ⟨⟨hinput, hallowed, h.pos, h.eofs, h.handed, ⟨src, hsrc, hrt'⟩, rfl, h.exposed⟩,
      fun hF hwf _ => ?_, ?_, hs.panicked⟩
    · exact absurd (hwf.validTrailer h.pos h.handed hsrc) (hbad hF)
    · have := hs.completed
      simp only [Session.polledFillBuf]
      omega
  · simp only [State.pollFillTrailer, ReadTrailer.poll, hpoll]
    exact inv_polledFillBuf_release hinput hallowed hs (h.release hinput hsrc hfull hdata hlater)

/-- The body is exhausted, and reading the trailer starts. -/
theorem BodyInv.trailer {r : AsyncStream} {consumed ul : ℕ} (h : BodyInv input r₀ s r consumed ul)
    (hrem : (splitUserLen ul).1 - consumed = 0) :
    TrailerInv t input r₀ s (readTrailer r (splitUserLen ul).2) := by
  obtain ⟨rfl, hpos, heofs, hhanded, hsource, hbuffer, hbound, hexposed, hlater⟩ := h
  have hspec := bodyLen_spec hpos
  change bodyLen input - consumed = 0 at hrem
  refine ⟨hpos, heofs, by omega, ⟨r.rest, hsource, ?_⟩, ?_, hexposed⟩
  · have hrt := Inv_readTrailer t (tailLen input) hlater
    rwa [trailerSource, if_pos (by omega), List.nil_append] at hrt
  · exact List.length_eq_zero_iff.mp (by omega)

/-- The packet ends inside its body. -/
theorem BodyInv.not_wellFormed {r : AsyncStream} {consumed ul : ℕ}
    (h : BodyInv input r₀ s r consumed ul) (hrem : (splitUserLen ul).1 - consumed ≠ 0)
    (heof : r.rest = []) : ¬ WellFormed t input := by
  intro hwf
  obtain ⟨rfl, hpos, -, hhanded, hsource, -, -, -, -⟩ := h
  have hspec := bodyLen_spec hpos
  change bodyLen input - consumed ≠ 0 at hrem
  have hlen := hwf.length_drop
  rw [← hsource, heof, List.append_nil] at hlen
  omega

/-- A poll that brought no bytes. -/
theorem BodyInv.idle {s' : Session} {r r' : AsyncStream} {consumed ul : ℕ}
    (h : BodyInv input r₀ s r consumed ul) (hrest : r'.rest = r.rest)
    (hans : r'.answers = r.tick.answers) (hhanded : s'.handed = s.handed)
    (hbuffer : s'.buffer = []) (hexposed : s'.exposed = s.exposed) (heofs : s'.eofs = s.eofs) :
    BodyInv input r₀ s' r' consumed ul where
  ul_eq := h.ul_eq
  pos := h.pos
  eofs := heofs.trans h.eofs
  handed := by rw [hhanded, h.handed]
  source := by rw [hhanded, hrest, h.source]
  buffer := by
    rw [hbuffer]
    exact List.nil_prefix
  bound := by
    have := h.bound
    rw [hbuffer, List.length_nil]
    omega
  exposed := hexposed ▸ h.exposed
  later := h.later.of_tick hans

theorem inv_polledRead_body {n consumed ul : ℕ} {r : AsyncStream} (hn : 0 < n)
    (hinput : 8 ≤ input.length) (hallowed : allowed (userLen input) = true)
    (hs : s.Inv t allowed input r₀) (h : BodyInv input r₀ s r consumed ul) :
    (s.polledRead ((State.body r consumed ul).pollRead t n)).Inv t allowed input r₀ := by
  simp only [State.pollRead, if_neg hn.ne']
  by_cases hrem : (splitUserLen ul).1 - consumed = 0
  · rw [if_pos hrem]
    exact inv_polledRead_trailer hn hinput hallowed hs (h.trailer hrem)
  rw [if_neg hrem]
  have hcompleted := hs.completed
  rcases r.pollRead_cases (min n ((splitUserLen ul).1 - consumed)) with
    ⟨r', hr, hrest, hans⟩ | ⟨r', hr, hrest, hans, hnf⟩ | ⟨chunk, r', hr, hrest, hans, hlen, hnil⟩
  · simp only [hr]
    exact ⟨⟨hinput, hallowed, h.idle hrest hans rfl rfl rfl rfl⟩, hs.failures, hs.completed,
      hs.panicked⟩
  · simp only [hr]
    refine ⟨⟨hinput, hallowed, h.idle hrest hans rfl rfl rfl rfl⟩,
      fun hfaultless => absurd (h.later.faultless hfaultless) hnf, ?_, hs.panicked⟩
    simp only [Session.polledRead]
    omega
  · cases chunk with
    | nil =>
      have heof : r.rest = [] := by
        rcases hnil rfl with h0 | h0
        · omega
        · exact h0
      simp only [hr]
      refine ⟨⟨hinput, hallowed, h.idle hrest.symm hans rfl rfl rfl rfl⟩,
        fun _ hwf => absurd hwf (h.not_wellFormed hrem heof), ?_, hs.panicked⟩
      simp only [Session.polledRead]
      omega
    | cons b chunk =>
      have hbody : (splitUserLen ul).1 = bodyLen input := by rw [h.ul_eq, bodyLen]
      have hhanded := h.handed
      have hexposed := h.exposed
      simp only [hr]
      refine ⟨⟨hinput, hallowed, h.ul_eq, h.pos, ?_, ?_, ?_, List.nil_prefix, ?_, ?_, ?_⟩,
        hs.failures, ?_, hs.panicked⟩
      · simpa [Session.polledRead] using h.eofs
      · simp only [Session.polledRead, List.length_append]
        omega
      · rw [← h.source, hrest]
        simp [Session.polledRead]
      · simp only [Session.polledRead, List.length_nil]
        omega
      · simp only [Session.polledRead]
        omega
      · exact h.later.of_tick hans
      · simp only [Session.polledRead, List.length_append, List.length_cons, reduceCtorEq, if_false]
        omega

theorem inv_polledFillBuf_body {consumed ul : ℕ} {r : AsyncStream}
    (hinput : 8 ≤ input.length) (hallowed : allowed (userLen input) = true)
    (hs : s.Inv t allowed input r₀) (h : BodyInv input r₀ s r consumed ul) :
    (s.polledFillBuf ((State.body r consumed ul).pollFillBuf t)).Inv t allowed input r₀ := by
  simp only [State.pollFillBuf]
  by_cases hrem : (splitUserLen ul).1 - consumed = 0
  · rw [if_pos hrem]
    exact inv_polledFillBuf_trailer hinput hallowed hs (h.trailer hrem)
  rw [if_neg hrem]
  have hcompleted := hs.completed
  rcases r.pollFillBuf_cases with
    ⟨r', hr, hrest, hans⟩ | ⟨r', hr, hrest, hans, hnf⟩ | ⟨view, r', hr, hrest, hans, hview, hnil⟩
  · simp only [hr]
    exact ⟨⟨hinput, hallowed, h.idle hrest hans rfl rfl rfl rfl⟩, hs.failures, hs.completed,
      hs.panicked⟩
  · simp only [hr]
    refine ⟨⟨hinput, hallowed, h.idle hrest hans rfl rfl rfl rfl⟩,
      fun hfaultless => absurd (h.later.faultless hfaultless) hnf, ?_, hs.panicked⟩
    simp only [Session.polledFillBuf]
    omega
  · cases view with
    | nil =>
      simp only [hr]
      refine ⟨⟨hinput, hallowed, h.idle hrest hans rfl rfl rfl rfl⟩,
        fun _ hwf => absurd hwf (h.not_wellFormed hrem (hnil rfl)), ?_, hs.panicked⟩
      simp only [Session.polledFillBuf]
      omega
    | cons b view =>
      have hbody : (splitUserLen ul).1 = bodyLen input := by rw [h.ul_eq, bodyLen]
      have hhanded := h.handed
      have hexposed := h.exposed
      have hne : (b :: view).take ((splitUserLen ul).1 - consumed) ≠ [] := by
        simp [List.take_eq_nil_iff, hrem]
      simp only [hr]
      refine ⟨⟨hinput, hallowed, h.ul_eq, h.pos, ?_, h.handed, ?_, ?_, ?_, ?_, ?_⟩,
        hs.failures, ?_, hs.panicked⟩
      · simpa [Session.polledFillBuf, hrem] using h.eofs
      · rw [hrest]
        exact h.source
      · rw [hrest]
        exact (List.take_prefix _ _).trans hview
      · simp only [Session.polledFillBuf, List.length_take]
        omega
      · simp only [Session.polledFillBuf, List.length_take]
        omega
      · exact h.later.of_tick hans
      · simp only [Session.polledFillBuf, if_neg hne]
        omega

theorem inv_consumed_body {amt consumed ul : ℕ} {r : AsyncStream}
    (hinput : 8 ≤ input.length) (hallowed : allowed (userLen input) = true)
    (hs : s.Inv t allowed input r₀) (h : BodyInv input r₀ s r consumed ul)
    (hamt : amt ≤ s.buffer.length) :
    (s.consumed amt ((State.body r consumed ul).consume amt)).Inv t allowed input r₀ := by
  have hbody : (splitUserLen ul).1 = bodyLen input := by rw [h.ul_eq, bodyLen]
  have hbound := h.bound
  have hhanded := h.handed
  have hcompleted := hs.completed
  obtain ⟨after, hafter⟩ := h.buffer
  rw [State.consume, if_pos (by omega)]
  refine ⟨⟨hinput, hallowed, h.ul_eq, h.pos, h.eofs, ?_, ?_, ⟨after, ?_⟩, ?_, h.exposed,
    h.later⟩, hs.failures, ?_, hs.panicked⟩
  · simp only [Session.consumed, List.length_append, List.length_take]
    omega
  · rw [← h.source, AsyncStream.consume, ← hafter, List.drop_append_of_le_length hamt]
    simp only [Session.consumed, List.append_assoc]
    rw [← List.append_assoc (s.buffer.take amt), List.take_append_drop]
  · rw [AsyncStream.consume, ← hafter, List.drop_append_of_le_length hamt]
    rfl
  · simp only [Session.consumed, List.length_drop]
    omega
  · simp only [Session.consumed, List.length_append, List.length_take]
    split <;> omega

theorem inv_consumed_release {amt consumed : ℕ} {r : AsyncStream} {data : Bytes}
    (hinput : 8 ≤ input.length) (hallowed : allowed (userLen input) = true)
    (hs : s.Inv t allowed input r₀) (h : ReleaseInv t input r₀ s r consumed data)
    (hamt : amt ≤ s.buffer.length) :
    (s.consumed amt ((State.releaseTrailer r consumed data).consume amt)).Inv
      t allowed input r₀ := by
  have hle := h.consumed_le
  have hcompleted := hs.completed
  have hlen := h.buffer.length_le
  rw [List.length_drop] at hlen
  obtain ⟨pre, hpay, hhanded⟩ := h.payload_eq
  obtain ⟨after, hafter⟩ := h.buffer
  have htake : s.buffer.take amt = (data.drop consumed).take amt := by
    rw [← hafter, List.take_append_of_le_length hamt]
  rw [State.consume, if_pos (by omega)]
  refine ⟨⟨hinput, hallowed, h.wellFormed, h.rest_eq, h.later, ⟨pre, hpay, ?_⟩, by omega,
    ⟨after, ?_⟩, ?_⟩,
    hs.failures, ?_, hs.panicked⟩
  · simp only [Session.consumed]
    rw [hhanded, htake, Nat.add_comm amt, List.take_add, List.append_assoc]
  · rw [Nat.add_comm amt, ← List.drop_drop, ← hafter, List.drop_append_of_le_length hamt]
    rfl
  · intro heofs
    have hall := h.eofs heofs
    have hnil := h.drop_eq_nil_iff.mpr hall
    simp only [Session.consumed]
    rw [htake, hnil, List.take_nil, List.append_nil, hall]
  · simp only [Session.consumed, List.length_append, List.length_take]
    split <;> omega

theorem inv_consumed {amt : ℕ} {st : State} (hs : s.Inv t allowed input r₀)
    (hst : s.phase = .opened st) (hamt : amt ≤ s.buffer.length) :
    (s.consumed amt (st.consume amt)).Inv t allowed input r₀ := by
  have hphase := hs.phase
  rw [hst] at hphase
  obtain ⟨hinput, hallowed, h⟩ := hphase
  cases st with
  | body r consumed ul => exact inv_consumed_body hinput hallowed hs h hamt
  | readTrailer rt =>
    have h : TrailerInv t input r₀ s rt := h
    rw [h.buffer] at hamt
    obtain rfl : amt = 0 := by simpa using hamt
    have heq : s.consumed 0 ((State.readTrailer rt).consume 0) = s := by
      simp only [Session.consumed, State.consume, if_true, List.take_zero, List.drop_zero,
        List.append_nil, ← hst]
    rwa [heq]
  | releaseTrailer r consumed data => exact inv_consumed_release hinput hallowed hs h hamt

theorem inv_polledRead {n : ℕ} {st : State} (hn : 0 < n) (hs : s.Inv t allowed input r₀)
    (hst : s.phase = .opened st) : (s.polledRead (st.pollRead t n)).Inv t allowed input r₀ := by
  have hphase := hs.phase
  rw [hst] at hphase
  obtain ⟨hinput, hallowed, h⟩ := hphase
  cases st with
  | body r consumed ul => exact inv_polledRead_body hn hinput hallowed hs h
  | readTrailer rt =>
    rw [State.pollRead, if_neg hn.ne']
    exact inv_polledRead_trailer hn hinput hallowed hs h
  | releaseTrailer r consumed data =>
    rw [State.pollRead, if_neg hn.ne']
    exact inv_polledRead_release hn hinput hallowed hs h

theorem inv_polledFillBuf {st : State} (hs : s.Inv t allowed input r₀)
    (hst : s.phase = .opened st) : (s.polledFillBuf (st.pollFillBuf t)).Inv t allowed input r₀ := by
  have hphase := hs.phase
  rw [hst] at hphase
  obtain ⟨hinput, hallowed, h⟩ := hphase
  cases st with
  | body r consumed ul => exact inv_polledFillBuf_body hinput hallowed hs h
  | readTrailer rt => exact inv_polledFillBuf_trailer hinput hallowed hs h
  | releaseTrailer r consumed data => exact inv_polledFillBuf_release hinput hallowed hs h

/-- The construction failed for a reason. -/
theorem inv_polledNew_failed {e : IoError} (hs : s.Inv t allowed input r₀) (hfresh : Fresh s)
    (hbad : r₀.Faultless → WellFormed t input → allowed (userLen input) ≠ true) :
    (s.polledNew (.ready (.error e), .failed)).Inv t allowed input r₀ := by
  have hcompleted := hs.completed
  refine ⟨⟨⟨hfresh.handed, hfresh.buffer, hfresh.exposed, hfresh.eofs⟩, ?_⟩,
    fun hF hwf hallowed => absurd hallowed (hbad hF hwf), ?_, hs.panicked⟩
  · simp [Session.polledNew]
  · simp only [Session.polledNew]
    omega

theorem inv_polledNew_emptyTrailer {rt : ReadTrailer} (hs : s.Inv t allowed input r₀)
    (hfresh : Fresh s) (hinput : 8 ≤ input.length) (hallowed : allowed (userLen input) = true)
    (hzero : userLen input = 0) (hrt : rt.Inv t 0 (trailerSource 0 (input.drop 8)) r₀) :
    (s.polledNew (pollEmptyTrailer t rt)).Inv t allowed input r₀ := by
  rcases ReadTrailer.pollLoop_cases (Nat.zero_le 8) (t.pattern.length + 1) hrt (by omega) with
    ⟨rt', hpoll, hrt', -⟩ | ⟨e, rt', hpoll, hrt', hbad⟩ |
    ⟨data, rt', hpoll, hfull, hdata, hlater⟩
  · simp only [pollEmptyTrailer, ReadTrailer.poll, hpoll]
    exact ⟨⟨⟨hfresh.handed, hfresh.buffer, hfresh.exposed, hfresh.eofs⟩, hinput, hallowed, hzero,
      hrt'⟩, hs.failures, hs.completed, hs.panicked⟩
  · simp only [pollEmptyTrailer, ReadTrailer.poll, hpoll]
    refine inv_polledNew_failed hs hfresh (fun hF hwf => ?_)
    exact absurd (hwf.validTrailer_empty hzero) (hbad hF)
  · simp only [pollEmptyTrailer, ReadTrailer.poll, hpoll]
    have hdrop := drop_eq_of_emptyTrailer hzero hfull hdata
    obtain rfl := List.length_eq_zero_iff.mp hdata
    refine ⟨⟨hinput, hallowed, ⟨hinput, by simp [payload, hzero], _, hdrop⟩, hdrop, hlater,
      ⟨[], ?_, ?_⟩, le_rfl, ?_, fun heofs => ?_⟩, hs.failures, hs.completed, hs.panicked⟩
    · simp [payload, hzero]
    · simpa [Session.polledNew] using hfresh.handed
    · simpa [Session.polledNew] using hfresh.buffer
    · have : s.eofs = 0 := hfresh.eofs
      simp only [Session.polledNew] at heofs
      omega

theorem inv_polledNew_readLen (fuel : ℕ) {buf : Bytes} {r : AsyncStream}
    (hs : s.Inv t allowed input r₀) (hfresh : Fresh s) (hsource : buf ++ r.rest = input)
    (hlen : buf.length ≤ 8) (hlater : r.Later r₀) :
    (s.polledNew (pollReadLen t allowed fuel buf r)).Inv t allowed input r₀ := by
  induction fuel generalizing buf r with
  | zero =>
    exact ⟨⟨⟨hfresh.handed, hfresh.buffer, hfresh.exposed, hfresh.eofs⟩, hsource, hlen, hlater⟩,
      hs.failures, hs.completed, hs.panicked⟩
  | succ fuel ih =>
    rw [pollReadLen]
    by_cases hfull : buf.length = 8
    · have htake : input.take 8 = buf := by rw [← hsource, ← hfull, List.take_left]
      have hdrop : input.drop 8 = r.rest := by rw [← hsource, ← hfull, List.drop_left]
      have hinput : 8 ≤ input.length := by
        rw [← hsource, List.length_append]
        omega
      have huser : leValue buf = userLen input := by rw [userLen, htake]
      simp only [if_pos hfull, huser]
      cases hallowed : allowed (userLen input) with
      | false =>
        rw [Bool.not_false, if_pos rfl]
        exact inv_polledNew_failed hs hfresh (fun _ _ => by simp [hallowed])
      | true =>
        rw [Bool.not_true, if_neg Bool.false_ne_true]
        by_cases hzero : userLen input = 0
        · rw [if_pos hzero]
          refine inv_polledNew_emptyTrailer hs hfresh hinput hallowed hzero ?_
          rw [hdrop]
          exact Inv_readTrailer t _ hlater
        · rw [if_neg hzero]
          refine ⟨⟨hinput, hallowed, rfl, by omega, hfresh.eofs, ?_, ?_, ?_, ?_, ?_, hlater⟩,
            hs.failures, hs.completed, hs.panicked⟩
          · simp [Session.polledNew, hfresh.handed]
          · simp [Session.polledNew, hfresh.handed, hdrop]
          · simp [Session.polledNew, hfresh.buffer]
          · simp [Session.polledNew, hfresh.buffer]
          · simp [Session.polledNew, hfresh.exposed]
    · rw [if_neg hfull]
      rcases r.pollRead_cases (8 - buf.length) with ⟨r', hr, hrest, hans⟩ |
        ⟨r', hr, hrest, hans, hnf⟩ | ⟨chunk, r', hr, hrest, hans, hn, hnil⟩
      · simp only [hr]
        exact ⟨⟨⟨hfresh.handed, hfresh.buffer, hfresh.exposed, hfresh.eofs⟩,
          by rw [hrest, hsource], hlen,
          hlater.of_tick hans⟩,
          hs.failures, hs.completed, hs.panicked⟩
      · simp only [hr]
        exact inv_polledNew_failed hs hfresh (fun hf _ => absurd (hlater.faultless hf) hnf)
      · cases chunk with
        | nil =>
          simp only [hr]
          refine inv_polledNew_failed hs hfresh (fun _ hwf => ?_)
          have heof : r.rest = [] := by
            rcases hnil rfl with h0 | h0
            · omega
            · exact h0
          have := hwf.1
          rw [← hsource, heof, List.append_nil] at this
          omega
        | cons b chunk =>
          simp only [hr]
          refine ih ?_ ?_ (hlater.of_tick hans)
          · rw [← hsource, hrest]
            simp
          · rw [List.length_append]
            omega

/-- Every operation keeps the invariant. -/
theorem Session.Inv.step (hs : s.Inv t allowed input r₀) (op : Op) :
    (s.step t allowed op).Inv t allowed input r₀ := by
  have hphase := hs.phase
  cases op with
  | pollNew =>
    simp only [Session.step]
    split
    case h_1 buf r heq =>
      rw [heq] at hphase
      obtain ⟨hfresh, hsource, hlen, hlater⟩ := hphase
      exact inv_polledNew_readLen 9 hs hfresh hsource hlen hlater
    case h_2 rt heq =>
      rw [heq] at hphase
      obtain ⟨hfresh, hinput, hallowed, hzero, hrt⟩ := hphase
      exact inv_polledNew_emptyTrailer hs hfresh hinput hallowed hzero hrt
    case h_3 => exact hs
  | pollRead n =>
    simp only [Session.step]
    split
    case h_1 st heq =>
      by_cases hn : n = 0
      · rwa [if_pos hn]
      · rw [if_neg hn]
        exact inv_polledRead (Nat.pos_of_ne_zero hn) hs heq
    case h_2 => exact hs
  | pollFillBuf =>
    simp only [Session.step]
    split
    case h_1 st heq => exact inv_polledFillBuf hs heq
    case h_2 => exact hs
  | consume amt =>
    simp only [Session.step]
    split
    case h_1 st heq =>
      by_cases hamt : amt ≤ s.buffer.length
      · rw [if_pos hamt]
        exact inv_consumed hs heq hamt
      · rwa [if_neg hamt]
    case h_2 => exact hs

/-- The invariant at the start. -/
theorem Session.inv_start (t : Tag) (allowed : ℕ → Bool) (r : AsyncStream) :
    (start r).Inv t allowed r.rest r :=
  ⟨⟨⟨rfl, rfl, rfl, rfl⟩, rfl, Nat.zero_le _, .refl r⟩, fun _ _ _ => rfl, Nat.zero_le _, rfl⟩

theorem BodyInv.prefix_payload {r : AsyncStream} {consumed ul : ℕ}
    (h : BodyInv input r₀ s r consumed ul) : s.handed ++ s.buffer <+: payload input := by
  have hspec := bodyLen_spec h.pos
  have hbound := h.bound
  have hhanded := h.handed
  obtain ⟨after, hafter⟩ := h.buffer
  rw [payload, ← h.source, ← hafter, ← List.append_assoc]
  rw [List.take_append, List.take_of_length_le (by rw [List.length_append]; omega)]
  exact List.prefix_append _ _

theorem TrailerInv.prefix_payload {rt : ReadTrailer} (h : TrailerInv t input r₀ s rt) :
    s.handed ++ s.buffer <+: payload input := by
  have hspec := bodyLen_spec h.pos
  have hhanded := h.handed
  obtain ⟨src, hsrc, -⟩ := h.source
  rw [h.buffer, List.append_nil, payload, ← hsrc, List.take_append,
    List.take_of_length_le (by omega)]
  exact List.prefix_append _ _

theorem ReleaseInv.prefix_payload {r : AsyncStream} {consumed : ℕ} {data : Bytes}
    (h : ReleaseInv t input r₀ s r consumed data) : s.handed ++ s.buffer <+: payload input := by
  obtain ⟨pre, hpay, hhanded⟩ := h.payload_eq
  obtain ⟨after, hafter⟩ := h.buffer
  refine ⟨after, ?_⟩
  rw [hpay, hhanded, List.append_assoc, hafter, List.append_assoc, List.take_append_drop]

/-- What was handed out and what is shown is a beginning of the payload. -/
theorem Session.Inv.prefix_payload (hs : s.Inv t allowed input r₀) :
    s.handed ++ s.buffer <+: payload input := by
  have hphase := hs.phase
  rcases hp : s.phase with ⟨buf, r⟩ | rt | st | _
  · rw [hp] at hphase
    simp [hphase.1.handed, hphase.1.buffer]
  · rw [hp] at hphase
    simp [hphase.1.handed, hphase.1.buffer]
  · rw [hp] at hphase
    obtain ⟨-, -, h⟩ := hphase
    cases st with
    | body r consumed ul => exact BodyInv.prefix_payload h
    | readTrailer rt => exact TrailerInv.prefix_payload h
    | releaseTrailer r consumed data => exact ReleaseInv.prefix_payload h
  · rw [hp] at hphase
    simp [hphase.1.handed, hphase.1.buffer]

/-- Before the trailer is verified nothing of the last block is shown, and no end is
    reported. -/
theorem Session.Inv.verified (hs : s.Inv t allowed input r₀)
    (h : bodyLen input < s.exposed ∨ 0 < s.eofs) :
    allowed (userLen input) = true ∧
      ∃ r consumed data, s.phase = .opened (.releaseTrailer r consumed data) ∧
        ReleaseInv t input r₀ s r consumed data := by
  have hphase := hs.phase
  rcases hp : s.phase with ⟨buf, r⟩ | rt | st | _
  · rw [hp] at hphase
    have := hphase.1.exposed
    have := hphase.1.eofs
    omega
  · rw [hp] at hphase
    have := hphase.1.exposed
    have := hphase.1.eofs
    omega
  · rw [hp] at hphase
    obtain ⟨-, hallowed, hst⟩ := hphase
    cases st with
    | body r consumed ul =>
      have := BodyInv.exposed hst
      have := BodyInv.eofs hst
      omega
    | readTrailer rt =>
      have := TrailerInv.exposed hst
      have := TrailerInv.eofs hst
      omega
    | releaseTrailer r consumed data => exact ⟨hallowed, r, consumed, data, rfl, hst⟩
  · rw [hp] at hphase
    have := hphase.1.exposed
    have := hphase.1.eofs
    omega

end

-- Three bytes of payload, with a pause before each read; all of them are in the last
-- block, so they wait for the padding.
example :
    let reader : AsyncStream :=
      ⟨[3, 0, 0, 0, 0, 0, 0, 0, 97, 98, 99, 0, 0, 0, 0, 0],
        fun i => if i % 2 = 0 then .pending else .chunk 3⟩
    let ops : List Op := [.pollNew, .pollNew, .pollNew, .pollFillBuf, .pollFillBuf, .pollFillBuf,
      .consume 1, .pollRead 1, .pollRead 9, .pollRead 9]
    let s := Session.run .pad (fun _ => true) reader ops
    s.handed = [97, 98, 99] ∧ s.eofs = 1 ∧ s.failures = 0 := by
  decide +kernel

end Snix.Wire
