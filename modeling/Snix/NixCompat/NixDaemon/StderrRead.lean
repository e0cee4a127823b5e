import Snix.Lib.AsyncSink
import Snix.Lib.LittleEndian
import Snix.NixCompat.Wire.Await

/-!
# Reading on request

Older versions of the daemon protocol send data in packets that the daemon asks
for, one after the other. `StderrReadFramedReader` asks, and takes the length and
the padding of the answers away. The last bytes of a payload are only handed out
when the padding behind them is taken; until then they are kept aside.

The bytes kept aside are cut out of the caller's buffer at a wrong place when the
buffer was not empty, and they need not fit in the buffer of the poll that hands
them out.

## Main definitions

- `StderrReaderState`, `StderrReadFramedReader` — the states of the reader
- `iteration`, `pollRead` — a round of the loop, and a poll
- `Misses` — the rounds that go wrong
- `StderrSession` — the reader with what it appended to the buffers

## Main results

- `iteration_spec` — what a round does that does not go wrong
- `delivers_packets` — what a client sees when no round goes wrong
-/

namespace Snix.NixDaemon

open Snix.Wire (paddingLen)

/-- A buffer of the caller: what is in it, and how many bytes more it can hold. -/
structure ReadBuf where
  filled : Bytes
  remaining : ℕ
  deriving DecidableEq

/-- Appends bytes to a buffer. -/
def ReadBuf.putSlice (b : ReadBuf) (bytes : Bytes) : ReadBuf :=
  ⟨b.filled ++ bytes, b.remaining - bytes.length⟩

/-- A 64-bit number that is being written. -/
structure U64WriteState where
  bytes : Bytes
  written : ℕ

def U64WriteState.remaining (ws : U64WriteState) : Bytes := ws.bytes.drop ws.written

inductive StderrReaderState where
  | requestingNextFrame (ws : U64WriteState)
  | requestingFrameLen (ws : U64WriteState)
  | frameLenRequested
  | readingSize (buf : Bytes)
  | readingPayload (remaining pad : ℕ) (tmpBuf : Bytes)

def STDERR_READ : ℕ := 0x64617461

/-- The largest number that counts bytes in memory. -/
def usizeMax : ℕ := 2 ^ 64 - 1

namespace StderrReaderState

def requestNextFrame : StderrReaderState := requestingNextFrame ⟨leBytes 8 STDERR_READ, 0⟩

def readWritten (len : ℕ) : StderrReaderState := requestingFrameLen ⟨leBytes 8 len, 0⟩

end StderrReaderState

structure StderrReadFramedReader where
  reader : AsyncStream
  writer : AsyncSink
  state : StderrReaderState

/-- How a round of the loop ends. -/
inductive Iteration where
  /-- The loop goes on. -/
  | again (fr : StderrReadFramedReader)
  /-- The poll is repeated with a buffer of this size, and its result returned. -/
  | smaller (fr : StderrReadFramedReader) (limit : ℕ)
  | done (res : Poll (Except IoError Unit)) (fr : StderrReadFramedReader) (buf : ReadBuf)

namespace StderrReadFramedReader

def new (reader : AsyncStream) (writer : AsyncSink) : StderrReadFramedReader :=
  ⟨reader, writer, .requestNextFrame⟩

/-- Writes on a number; `current` is the state while it is written, and `next` the one after. -/
def writeU64 (ws : U64WriteState) (current : U64WriteState → StderrReaderState)
    (next : StderrReaderState) (buf : ReadBuf) (fr : StderrReadFramedReader) : Iteration :=
  match fr.writer.pollWrite ws.remaining with
  | (.pending, w) => .done .pending { fr with writer := w } buf
  | (.ready (.error _), w) => .done (.ready (.error .inner)) { fr with writer := w } buf
  | (.ready (.ok n), w) =>
    .again { fr with
      writer := w
      state := if ws.written + n = 8 then next else current { ws with written := ws.written + n } }

/-- Flushes the request. -/
def flushRequest (buf : ReadBuf) (fr : StderrReadFramedReader) : Iteration :=
  match fr.writer.pollFlush with
  | (.pending, w) => .done .pending { fr with writer := w } buf
  | (.ready (.error _), w) => .done (.ready (.error .inner)) { fr with writer := w } buf
  | (.ready (.ok ()), w) => .again { fr with writer := w, state := .readingSize [] }

/-- Reads the length of a packet. -/
def readSize (size : Bytes) (buf : ReadBuf) (fr : StderrReadFramedReader) : Iteration :=
  if size.length < 8 then
    match fr.reader.pollRead (8 - size.length) with
    | (.pending, r) => .done .pending { fr with reader := r } buf
    | (.ready (.error e), r) => .done (.ready (.error e)) { fr with reader := r } buf
    | (.ready (.ok []), r) => .done (.ready (.ok ())) { fr with reader := r } buf
    | (.ready (.ok (b :: chunk)), r) =>
      .again { fr with reader := r, state := .readingSize (size ++ b :: chunk) }
  else if leValue size = 0 then .done (.ready (.ok ())) { fr with state := .requestNextFrame } buf
  else .again { fr with state := .readingPayload (leValue size) ((8 - leValue size % 8) % 8) [] }

/-- Hands the bytes kept aside out. -/
def handOut (tmpBuf : Bytes) (buf : ReadBuf) (fr : StderrReadFramedReader) : Iteration :=
  if buf.remaining < tmpBuf.length then .done (.ready (.error .panic)) fr buf
  else .done (.ready (.ok ())) { fr with state := .requestNextFrame } (buf.putSlice tmpBuf)

/-- Reads padding after the whole payload is read. -/
def readPadding (remaining pad : ℕ) (tmpBuf : Bytes) (buf : ReadBuf)
    (fr : StderrReadFramedReader) : Iteration :=
  if 0 < pad then
    match fr.reader.pollRead pad with
    | (.pending, r) => .done .pending { fr with reader := r } buf
    | (.ready (.error e), r) => .done (.ready (.error e)) { fr with reader := r } buf
    | (.ready (.ok chunk), r) =>
      if pad - chunk.length ≠ 0 then
        .again { fr with
          reader := r
          state := .readingPayload remaining (pad - chunk.length) tmpBuf }
      else handOut tmpBuf buf { fr with reader := r, state := .readingPayload remaining 0 tmpBuf }
  else handOut tmpBuf buf fr

/-- The most that is read of a payload and its padding. -/
def safeRemaining (remaining pad : ℕ) : ℕ :=
  if remaining ≤ usizeMax - pad then remaining + pad else usizeMax

/-- Reads payload into the caller's buffer, which is no larger than what is expected. -/
def readPayload (remaining pad : ℕ) (tmpBuf : Bytes) (buf : ReadBuf)
    (fr : StderrReadFramedReader) : Iteration :=
  match fr.reader.pollRead buf.remaining with
  | (.pending, r) => .done .pending { fr with reader := r } buf
  | (.ready (.error e), r) => .done (.ready (.error e)) { fr with reader := r } buf
  | (.ready (.ok chunk), r) =>
    let payloadSize := min chunk.length (safeRemaining remaining pad - pad)
    let filled := buf.putSlice (chunk.take payloadSize)
    if 0 < remaining - payloadSize then
      .done (.ready (.ok ()))
        { fr with reader := r, state := .readingPayload (remaining - payloadSize) pad tmpBuf } filled
    else if pad - (chunk.length - payloadSize) ≠ 0 then
      -- the slice of the filled part goes up to the size of the payload
      if payloadSize < buf.filled.length then .done (.ready (.error .panic)) fr buf
      else .again
        { fr with
          reader := r
          state := .readingPayload (remaining - payloadSize) (pad - (chunk.length - payloadSize))
            ((filled.filled.take payloadSize).drop buf.filled.length) }
    else .done (.ready (.ok ())) { fr with reader := r, state := .requestNextFrame } filled

/-- A round of the loop. -/
def iteration (fr : StderrReadFramedReader) (buf : ReadBuf) : Iteration :=
  match fr.state with
  | .requestingNextFrame ws =>
    fr.writeU64 ws .requestingNextFrame (.readWritten buf.remaining) buf
  | .requestingFrameLen ws => fr.writeU64 ws .requestingFrameLen .frameLenRequested buf
  | .frameLenRequested => fr.flushRequest buf
  | .readingSize size => fr.readSize size buf
  | .readingPayload remaining pad tmpBuf =>
    if 0 < safeRemaining remaining pad - pad then
      if buf.remaining ≤ safeRemaining remaining pad then fr.readPayload remaining pad tmpBuf buf
      else .smaller fr (safeRemaining remaining pad)
    else fr.readPadding remaining pad tmpBuf buf

/-- A poll with a bound on the rounds of its loop; none if they are not enough. -/
def pollRead : ℕ → StderrReadFramedReader → ReadBuf →
    Option (Poll (Except IoError Unit) × StderrReadFramedReader × ReadBuf)
  | 0, _, _ => none
  | fuel + 1, fr, buf =>
    match fr.iteration buf with
    | .again fr => pollRead fuel fr buf
    | .done res fr buf => some (res, fr, buf)
    | .smaller fr limit =>
      match pollRead fuel fr ⟨[], limit⟩ with
      | none => none
      | some (.ready (.ok ()), fr, small) => some (.ready (.ok ()), fr, buf.putSlice small.filled)
      | some (res, fr, _) => some (res, fr, buf)

end StderrReadFramedReader

namespace StderrReadFramedReader

/-- Does this round go wrong? It reads all of the payload and a part of the padding behind what
    was in the buffer before, or it hands more out than fits in the buffer. -/
def misses (fr : StderrReadFramedReader) (buf : ReadBuf) : Bool :=
  match fr.state with
  | .readingPayload remaining pad tmpBuf =>
    if 0 < remaining then
      match fr.reader.pollRead buf.remaining with
      | (.ready (.ok chunk), _) =>
        buf.filled ≠ [] && buf.remaining ≤ remaining + pad && remaining ≤ chunk.length &&
          chunk.length < remaining + pad
      | _ => false
    else
      match fr.reader.pollRead pad with
      | (.ready (.ok chunk), _) => buf.remaining < tmpBuf.length && chunk.length = pad
      | _ => false
  | _ => false

/-- No round of a poll goes wrong. -/
def sound : ℕ → StderrReadFramedReader → ReadBuf → Bool
  | 0, _, _ => true
  | fuel + 1, fr, buf =>
    !fr.misses buf &&
      match fr.iteration buf with
      | .again fr => sound fuel fr buf
      | .smaller fr limit => sound fuel fr ⟨[], limit⟩
      | .done _ _ _ => true

end StderrReadFramedReader

/-- A buffer that fits in memory. -/
def Buffer : Type := { buf : ReadBuf // buf.filled.length + buf.remaining < 2 ^ 63 }

/-- A reader, and what it appended to its caller's buffers. -/
structure StderrSession where
  reader : StderrReadFramedReader
  appended : Bytes

namespace StderrSession

def start (reader : AsyncStream) (writer : AsyncSink) : StderrSession := ⟨.new reader writer, []⟩

/-- A poll; none if it does not return within the rounds. -/
def step (fuel : ℕ) (s : StderrSession) (buf : Buffer) : Option StderrSession :=
  (s.reader.pollRead fuel buf.val).map fun (_, fr, buf') =>
    ⟨fr, s.appended ++ buf'.filled.drop buf.val.filled.length⟩

def run (fuel : ℕ) (s : StderrSession) (bufs : List Buffer) : Option StderrSession :=
  bufs.foldlM (step fuel) s

/-- No round of a session goes wrong. -/
def sound (fuel : ℕ) : StderrSession → List Buffer → Bool
  | _, [] => true
  | s, buf :: bufs =>
    s.reader.sound fuel buf.val &&
      match s.step fuel buf with
      | none => true
      | some s => sound fuel s bufs

end StderrSession

-- ====================
-- The wire
-- ====================

/-- A packet of the client. -/
structure Packet where
  payload : Bytes
  padding : Bytes
  length_lt : payload.length < 2 ^ 64
  length_padding : padding.length = paddingLen payload.length

def Packet.wire (p : Packet) : Bytes := leBytes 8 p.payload.length ++ p.payload ++ p.padding

/-- Packets on the wire. -/
def wire (ps : List Packet) : Bytes := ps.flatMap Packet.wire

/-- The payloads joined together. -/
def payloads (ps : List Packet) : Bytes := ps.flatMap Packet.payload

theorem wire_cons (p : Packet) (ps : List Packet) : wire (p :: ps) = p.wire ++ wire ps :=
  List.flatMap_cons

theorem payloads_append (ps qs : List Packet) : payloads (ps ++ qs) = payloads ps ++ payloads qs :=
  List.flatMap_append

theorem payloads_concat (ps : List Packet) (p : Packet) :
    payloads (ps ++ [p]) = payloads ps ++ p.payload := by
  rw [payloads_append]
  exact congrArg (payloads ps ++ ·) (List.append_nil _)

theorem length_payloads_le (ps : List Packet) :
    (payloads ps).length + 8 * ps.length ≤ (wire ps).length := by
  induction ps with
  | nil => exact le_rfl
  | cons p ps ih =>
    rw [wire_cons, Packet.wire, payloads, List.flatMap_cons]
    simp only [List.length_append, length_leBytes, List.length_cons]
    rw [payloads] at ih
    omega

/-- A length that is not followed by anything is not the one of a packet with bytes. -/
theorem payloads_eq_nil {ps : List Packet} (h : (wire ps).length ≤ 8) : payloads ps = [] := by
  have hle := length_payloads_le ps
  cases ps with
  | nil => rfl
  | cons p ps =>
    rw [List.length_cons] at hle
    exact List.length_eq_zero_iff.mp (by omega)

-- ====================
-- The invariant
-- ====================

/-- A number that is not completely written. -/
def U64WriteState.Open (ws : U64WriteState) : Prop := ws.bytes.length = 8 ∧ ws.written < 8

/-- The packets that were delivered, and those that are on the wire. -/
def Between (packets : List Packet) (appended rest : Bytes) : Prop :=
  ∃ before after, packets = before ++ after ∧ appended = payloads before ∧ rest = wire after

/-- What the wire holds in a state, after these bytes were appended. -/
def StderrReaderState.Expects (packets : List Packet) (appended rest : Bytes) :
    StderrReaderState → Prop
  | .requestingNextFrame ws => ws.Open ∧ Between packets appended rest
  | .requestingFrameLen ws => ws.Open ∧ Between packets appended rest
  | .frameLenRequested => Between packets appended rest
  | .readingSize buf => buf.length ≤ 8 ∧ Between packets appended (buf ++ rest)
  | .readingPayload remaining pad tmpBuf =>
    -- the packet that is being read is the last one of `before`
    ∃ before after c pd, packets = before ++ after ∧ payloads before = appended ++ tmpBuf ++ c ∧
      rest = c ++ (pd ++ wire after) ∧ c.length = remaining ∧ pd.length = pad ∧
      remaining < 2 ^ 64 ∧ pad < 8 ∧ (0 < remaining → tmpBuf = []) ∧
      (remaining = 0 → tmpBuf ≠ [] ∧ 0 < pad)

namespace StderrReadFramedReader

/-- The invariant of a reader. -/
def Inv (packets : List Packet) (appended : Bytes) (fr : StderrReadFramedReader) : Prop :=
  fr.state.Expects packets appended fr.reader.rest

/-- The rounds that a poll may still take. -/
def rounds (fr : StderrReadFramedReader) (buf : ReadBuf) : ℕ :=
  match fr.state with
  | .requestingNextFrame ws => 8 - ws.written + 27
  | .requestingFrameLen ws => 8 - ws.written + 19
  | .frameLenRequested => 19
  | .readingSize size => 8 - size.length + 10
  | .readingPayload remaining pad _ =>
    if remaining = 0 then pad else if buf.remaining ≤ remaining + pad then 8 else 9

end StderrReadFramedReader

/-- A writer that takes something of every request. -/
def Takes (w : AsyncSink) : Prop := ∀ i, w.answers i ≠ .accept 0

/-- Nothing was appended because there is nothing more, or because the client sent an empty
    packet. -/
def AtEof (packets : List Packet) (appended rest : Bytes) : Prop :=
  appended = payloads packets ∧ rest = [] ∨
    ∃ before p after, packets = before ++ p :: after ∧ p.payload = [] ∧
      appended = payloads before ∧ rest = wire after

/-- Everything that a round can do that does not go wrong. -/
def Iteration.Good (packets : List Packet) (appended : Bytes) (fr : StderrReadFramedReader)
    (buf : ReadBuf) : Iteration → Prop
  | .again fr' =>
    fr'.Inv packets appended ∧ (Takes fr.writer → Takes fr'.writer ∧ fr'.rounds buf < fr.rounds buf)
  | .smaller fr' limit =>
    fr' = fr ∧ 0 < limit ∧ limit < buf.remaining ∧ fr.rounds ⟨[], limit⟩ < fr.rounds buf
  | .done res fr' buf' =>
    ∃ new, buf' = buf.putSlice new ∧ new.length ≤ buf.remaining ∧
      fr'.Inv packets (appended ++ new) ∧ (Takes fr.writer → Takes fr'.writer) ∧
      res ≠ .ready (.error .panic) ∧ (res ≠ .ready (.ok ()) → new = []) ∧
      (res = .ready (.ok ()) → 0 < buf.remaining → new = [] → AtEof packets appended fr'.reader.rest)

theorem ReadBuf.putSlice_nil (buf : ReadBuf) : buf.putSlice [] = buf := by
  rw [ReadBuf.putSlice, List.append_nil]
  rfl

section

variable {packets : List Packet} {appended : Bytes} {fr : StderrReadFramedReader} {buf : ReadBuf}

/-- A round that ends the poll and appends nothing. -/
theorem Iteration.good_idle {res : Poll (Except IoError Unit)} {fr' : StderrReadFramedReader}
    (hinv : fr'.Inv packets appended) (htakes : Takes fr.writer → Takes fr'.writer)
    (hres : res ≠ .ready (.error .panic))
    (hok : res = .ready (.ok ()) → 0 < buf.remaining → AtEof packets appended fr'.reader.rest) :
    (Iteration.done res fr' buf).Good packets appended fr buf := by
  refine ⟨[], (ReadBuf.putSlice_nil buf).symm, Nat.zero_le _, ?_, htakes, hres, fun _ => rfl,
    fun h hpos _ => ?_⟩
  · rwa [List.append_nil]
  · exact hok h hpos

theorem Takes.of_tick {w w' : AsyncSink} (h : Takes w) (hans : w'.answers = w.tick.answers) :
    Takes w' := by
  intro i
  rw [hans]
  exact h (i + 1)

theorem takes_pollWrite (w : AsyncSink) (bytes : Bytes) (h : Takes w) :
    Takes (w.pollWrite bytes).2 := by
  unfold AsyncSink.pollWrite
  cases w.answers 0 <;> exact h.of_tick rfl

theorem takes_pollFlush (w : AsyncSink) (h : Takes w) : Takes w.pollFlush.2 := by
  unfold AsyncSink.pollFlush AsyncSink.pollDone
  cases w.answers 0 <;> exact h.of_tick rfl

theorem pos_of_takes {w w' : AsyncSink} {bytes : Bytes} {n : ℕ} (h : Takes w)
    (hpoll : w.pollWrite bytes = (.ready (.ok n), w')) (hbytes : bytes ≠ []) : 0 < n := by
  unfold AsyncSink.pollWrite at hpoll
  have hpos := List.length_pos_iff.mpr hbytes
  cases hans : w.answers 0 with
  | pending =>
    rw [hans] at hpoll
    cases hpoll
  | fail =>
    rw [hans] at hpoll
    cases hpoll
  | accept k =>
    rw [hans] at hpoll
    obtain ⟨hn, -⟩ := Prod.mk.inj hpoll
    cases hn
    have hk : k ≠ 0 := by
      rintro rfl
      exact h 0 hans
    omega

namespace StderrReadFramedReader

theorem writeU64_spec {ws : U64WriteState} {current : U64WriteState → StderrReaderState}
    {next : StderrReaderState} (hopen : ws.Open)
    (hkeep : (current ws).Expects packets appended fr.reader.rest)
    (hst : fr.state = current ws)
    (hcurrent : ∀ n, ws.written + n < 8 →
      (current { ws with written := ws.written + n }).Expects packets appended fr.reader.rest)
    (hnext : next.Expects packets appended fr.reader.rest)
    (hrounds : ∀ n w, 0 < n → ws.written + n ≤ 8 →
      rounds
          ⟨fr.reader, w,
            if ws.written + n = 8 then next else current { ws with written := ws.written + n }⟩ buf <
        fr.rounds buf) :
    (fr.writeU64 ws current next buf).Good packets appended fr buf := by
  have hlen : ws.remaining.length = 8 - ws.written := by
    rw [U64WriteState.remaining, List.length_drop, hopen.1]
  have hinv : ∀ w, Inv packets appended { fr with writer := w } := by
    intro w
    unfold Inv
    rw [hst]
    exact hkeep
  have htakes := takes_pollWrite fr.writer ws.remaining
  unfold writeU64
  rcases fr.writer.pollWrite_cases ws.remaining with
    ⟨w, hpoll, -, -⟩ | ⟨w, hpoll, -, -⟩ | ⟨n, w, hpoll, -, -, hn, -⟩
  · rw [hpoll] at htakes ⊢
    exact Iteration.good_idle (hinv w) htakes nofun nofun
  · rw [hpoll] at htakes ⊢
    exact Iteration.good_idle (hinv w) htakes nofun nofun
  · have hw := htakes
    rw [hpoll] at hw ⊢
    refine ⟨?_, fun ht => ⟨hw ht, ?_⟩⟩
    · unfold Inv
      dsimp only
      split_ifs with height
      · exact hnext
      · exact hcurrent n (by have := hopen.2; omega)
    · have hpos := pos_of_takes ht hpoll (List.ne_nil_of_length_pos (by have := hopen.2; omega))
      exact hrounds n w hpos (by have := hopen.2; omega)

theorem flushRequest_spec (hst : fr.state = .frameLenRequested) (h : fr.Inv packets appended) :
    (fr.flushRequest buf).Good packets appended fr buf := by
  have hexp := h
  unfold Inv at hexp
  rw [hst] at hexp
  have htakes := takes_pollFlush fr.writer
  unfold AsyncSink.pollFlush at htakes
  unfold flushRequest AsyncSink.pollFlush
  rcases fr.writer.pollDone_cases with ⟨w, hpoll, -⟩ | ⟨w, hpoll, -⟩ | ⟨w, hpoll, -⟩
  · rw [hpoll] at htakes ⊢
    exact Iteration.good_idle h htakes nofun nofun
  · rw [hpoll] at htakes ⊢
    exact Iteration.good_idle h htakes nofun nofun
  · rw [hpoll] at htakes ⊢
    refine ⟨⟨Nat.zero_le _, hexp⟩, fun ht => ⟨htakes ht, ?_⟩⟩
    unfold rounds
    rw [hst]
    exact Nat.lt_succ_self _

theorem expects_requestNextFrame {rest : Bytes} (h : Between packets appended rest) :
    StderrReaderState.requestNextFrame.Expects packets appended rest :=
  ⟨⟨length_leBytes 8 _, by decide⟩, h⟩

/-- A complete length is the one of the next packet. -/
theorem size_eq {size rest : Bytes} {after : List Packet} (hsize : size.length = 8)
    (hwire : size ++ rest = wire after) :
    ∃ p after', after = p :: after' ∧ leValue size = p.payload.length ∧
      rest = p.payload ++ (p.padding ++ wire after') := by
  cases after with
  | nil =>
    have hlen := congrArg List.length hwire
    rw [List.length_append, hsize] at hlen
    exact absurd hlen (by simp [wire])
  | cons p after' =>
    rw [wire_cons, Packet.wire, List.append_assoc, List.append_assoc] at hwire
    obtain ⟨rfl, hrest⟩ := List.append_inj hwire (hsize.trans (length_leBytes 8 _).symm)
    exact ⟨p, after', rfl, leValue_leBytes p.length_lt, hrest⟩

/-- Of the stream, only what is left in it matters. -/
theorem Inv.withReader {r : AsyncStream} (h : fr.Inv packets appended)
    (hrest : r.rest = fr.reader.rest) : Inv packets appended { fr with reader := r } := by
  unfold Inv at h ⊢
  rw [hrest]
  exact h

theorem readSize_spec {size : Bytes} (hst : fr.state = .readingSize size)
    (h : fr.Inv packets appended) : (fr.readSize size buf).Good packets appended fr buf := by
  have hexp := h
  unfold Inv at hexp
  rw [hst] at hexp
  obtain ⟨hle, before, after, hpackets, happended, hwire⟩ := hexp
  unfold readSize
  split_ifs with hlt hzero
  · rcases fr.reader.pollRead_cases (8 - size.length) with
      ⟨r, hpoll, hrest, -⟩ | ⟨r, hpoll, hrest, -⟩ | ⟨chunk, r, hpoll, hrest, -, hlen, hnil⟩
    · rw [hpoll]
      exact Iteration.good_idle (h.withReader hrest) id nofun nofun
    · rw [hpoll]
      exact Iteration.good_idle (h.withReader hrest) id nofun nofun
    · rw [hpoll]
      cases chunk with
      | nil =>
        refine Iteration.good_idle (h.withReader hrest.symm) id nofun fun _ _ => .inl ?_
        have hempty : fr.reader.rest = [] := (hnil rfl).resolve_left (by omega)
        have hafter : after = [] := by
          cases after with
          | nil => rfl
          | cons p after' =>
            have hle := length_payloads_le (p :: after')
            rw [← hwire, hempty, List.append_nil, List.length_cons] at hle
            omega
        refine ⟨?_, ?_⟩
        · rw [happended, hpackets, hafter, List.append_nil]
        · exact (List.append_eq_nil_iff.mp (hrest.symm.trans hempty)).2
      | cons b chunk =>
        refine ⟨⟨?_, before, after, hpackets, happended, ?_⟩, fun ht => ⟨ht, ?_⟩⟩
        · rw [List.length_append]
          omega
        · rw [← hwire, hrest, List.append_assoc]
        · unfold rounds
          rw [hst]
          simp only [List.length_append, List.length_cons]
          omega
  · obtain ⟨p, after', rfl, hsize, hrest⟩ := size_eq (by omega) hwire
    have hpayload : p.payload = [] := List.length_eq_zero_iff.mp (hsize.symm.trans hzero)
    have hpadding : p.padding = [] := by
      apply List.length_eq_zero_iff.mp
      rw [p.length_padding, hpayload]
      rfl
    have hrest' : fr.reader.rest = wire after' := by
      rw [hrest, hpayload, hpadding, List.nil_append, List.nil_append]
    refine Iteration.good_idle (expects_requestNextFrame ?_) id nofun fun _ _ => .inr ?_
    · refine ⟨before ++ [p], after', ?_, ?_, hrest'⟩
      · rw [hpackets, List.append_assoc, List.singleton_append]
      · rw [payloads_concat, hpayload, List.append_nil, happended]
    · exact ⟨before, p, after', hpackets, hpayload, happended, hrest'⟩
  · obtain ⟨p, after', rfl, hsize, hrest⟩ := size_eq (by omega) hwire
    rw [hsize] at hzero ⊢
    refine ⟨⟨before ++ [p], after', p.payload, p.padding, ?_, ?_, hrest, rfl, p.length_padding,
      p.length_lt, Nat.mod_lt _ (by decide), fun _ => rfl, fun h0 => absurd h0 hzero⟩,
      fun ht => ⟨ht, ?_⟩⟩
    · rw [hpackets, List.append_assoc, List.singleton_append]
    · rw [payloads_concat, happended, List.append_nil]
    · unfold rounds
      rw [hst]
      dsimp only
      rw [if_neg hzero]
      split_ifs <;> omega

section Payload

variable {remaining pad : ℕ} {tmpBuf : Bytes}

/-- The bound on a read only matters for payloads that no buffer can hold. -/
theorem safeRemaining_spec (remaining : ℕ) (hpad : pad < 8) {n : ℕ} (hn : n < 2 ^ 63) :
    (0 < safeRemaining remaining pad - pad ↔ 0 < remaining) ∧
      (n ≤ safeRemaining remaining pad ↔ n ≤ remaining + pad) ∧
      min n (safeRemaining remaining pad - pad) = min n remaining ∧
      (safeRemaining remaining pad < n → safeRemaining remaining pad = remaining + pad) := by
  unfold safeRemaining usizeMax
  split_ifs <;> omega

theorem readPayload_spec (hst : fr.state = .readingPayload remaining pad tmpBuf)
    (h : fr.Inv packets appended) (hpos : 0 < remaining) (hle : buf.remaining ≤ remaining + pad)
    (hbuf : buf.filled.length + buf.remaining < 2 ^ 63) (hmiss : fr.misses buf = false) :
    (fr.readPayload remaining pad tmpBuf buf).Good packets appended fr buf := by
  have hexp := h
  unfold Inv at hexp
  rw [hst] at hexp
  obtain ⟨before, after, c, pd, hpackets, hbefore, hwire, hc, hpd, hlt, hpad, htmp, -⟩ := hexp
  obtain rfl := htmp hpos
  rw [List.append_nil] at hbefore
  unfold readPayload
  rcases fr.reader.pollRead_cases buf.remaining with
    ⟨r, hpoll, hrest, -⟩ | ⟨r, hpoll, hrest, -⟩ | ⟨chunk, r, hpoll, hrest, -, hlen, hnil⟩
  · rw [hpoll]
    exact Iteration.good_idle (h.withReader hrest) id nofun nofun
  · rw [hpoll]
    exact Iteration.good_idle (h.withReader hrest) id nofun nofun
  · rw [hpoll]
    dsimp only
    rw [(safeRemaining_spec remaining hpad (by omega : chunk.length < 2 ^ 63)).2.2.1]
    rw [hrest] at hwire
    by_cases hshort : chunk.length < remaining
    · -- a part of the payload
      obtain ⟨c', rfl, hrest'⟩ := exists_append_of_length_le hwire.symm (by omega)
      rw [List.length_append] at hc
      rw [Nat.min_eq_left hshort.le, List.take_length, if_pos (by omega)]
      refine ⟨chunk, rfl, hlen, ?_, id, nofun, fun hok => absurd rfl hok,
        fun _ hroom hnew => ?_⟩
      · refine ⟨before, after, c', pd, hpackets, ?_, hrest', by omega, hpd, by omega, hpad,
          fun _ => rfl, fun h0 => absurd h0 (by omega)⟩
        rw [hbefore, List.append_nil, List.append_assoc]
      · have hempty := (hnil hnew).resolve_left (by omega)
        rw [hrest, hnew, List.nil_append, hrest'] at hempty
        have := congrArg List.length (List.append_eq_nil_iff.mp hempty).1
        rw [hnew, List.length_nil] at hc
        rw [List.length_nil] at this
        omega
    · -- the whole payload, and perhaps padding
      obtain ⟨d, rfl, hd⟩ := exists_append_of_length_le hwire (by omega)
      rw [List.length_append] at hlen hshort
      obtain ⟨pd', rfl, hrest'⟩ := exists_append_of_length_le hd (by omega)
      rw [List.length_append] at hpd
      have hempty : pad - d.length ≠ 0 → buf.filled = [] := by
        intro hleft
        by_contra hne
        have hmissed : fr.misses buf = true := by
          unfold misses
          rw [hst]
          dsimp only
          rw [if_pos hpos, hpoll]
          simp only [List.length_append, Bool.and_eq_true, decide_eq_true_eq]
          exact ⟨⟨⟨hne, hle⟩, by omega⟩, by omega⟩
        rw [hmissed] at hmiss
        cases hmiss
      rw [List.length_append, Nat.min_eq_right (by omega), ← hc, List.take_left, Nat.sub_self,
        if_neg (lt_irrefl 0), Nat.add_sub_cancel_left]
      split_ifs with hleft hfilled
      · rw [hempty hleft, List.length_nil] at hfilled
        exact absurd hfilled (Nat.not_lt_zero _)
      · have htmp : (((buf.putSlice c).filled.take c.length).drop buf.filled.length) = c := by
          rw [ReadBuf.putSlice, hempty hleft, List.nil_append, List.take_length, List.length_nil,
            List.drop_zero]
        refine ⟨⟨before, after, [], pd', hpackets, ?_, hrest', rfl, by omega, by omega, by omega,
          fun h0 => absurd h0 (lt_irrefl 0), fun _ => ⟨?_, by omega⟩⟩, fun ht => ⟨ht, ?_⟩⟩
        · rw [htmp, hbefore, List.append_nil]
        · rw [htmp]
          exact List.ne_nil_of_length_pos (by omega)
        · unfold rounds
          rw [hst]
          dsimp only
          rw [if_pos rfl, if_neg (by omega), if_pos hle]
          omega
      · refine ⟨c, rfl, by omega, expects_requestNextFrame ?_, id, nofun, fun hok => absurd rfl hok,
          fun _ _ hnew => ?_⟩
        · refine ⟨before, after, hpackets, hbefore.symm, ?_⟩
          rw [hrest', List.length_eq_zero_iff.mp (by omega : pd'.length = 0), List.nil_append]
        · rw [hnew, List.length_nil] at hc
          omega

theorem readPadding_spec (hst : fr.state = .readingPayload 0 pad tmpBuf)
    (h : fr.Inv packets appended) (hmiss : fr.misses buf = false) :
    (fr.readPadding 0 pad tmpBuf buf).Good packets appended fr buf := by
  have hexp := h
  unfold Inv at hexp
  rw [hst] at hexp
  obtain ⟨before, after, c, pd, hpackets, hbefore, hwire, hc, hpd, -, hpad, -, htmp⟩ := hexp
  obtain rfl := List.length_eq_zero_iff.mp hc
  obtain ⟨htmp, hpos⟩ := htmp rfl
  rw [List.append_nil] at hbefore
  rw [List.nil_append] at hwire
  unfold readPadding
  rw [if_pos hpos]
  rcases fr.reader.pollRead_cases pad with
    ⟨r, hpoll, hrest, -⟩ | ⟨r, hpoll, hrest, -⟩ | ⟨chunk, r, hpoll, hrest, -, hlen, hnil⟩
  · rw [hpoll]
    exact Iteration.good_idle (h.withReader hrest) id nofun nofun
  · rw [hpoll]
    exact Iteration.good_idle (h.withReader hrest) id nofun nofun
  · rw [hpoll]
    rw [hrest] at hwire
    obtain ⟨pd', rfl, hrest'⟩ := exists_append_of_length_le hwire.symm (by omega)
    rw [List.length_append] at hpd
    dsimp only
    split_ifs with hleft
    · refine ⟨⟨before, after, [], pd', hpackets, ?_, hrest', rfl, by omega, by decide, by omega,
        fun h0 => absurd h0 (lt_irrefl 0), fun _ => ⟨htmp, by omega⟩⟩, fun ht => ⟨ht, ?_⟩⟩
      · rw [hbefore, List.append_nil]
      · have hne : chunk ≠ [] := by
          intro hchunk
          have hempty := (hnil hchunk).resolve_left (by omega)
          rw [hrest, hrest'] at hempty
          have := congrArg List.length hempty
          simp only [List.length_append, List.length_nil] at this
          omega
        have := List.length_pos_iff.mpr hne
        unfold rounds
        rw [hst]
        dsimp only
        rw [if_pos rfl, if_pos rfl]
        omega
    · have hroom : ¬ buf.remaining < tmpBuf.length := by
        intro hlt
        have hmissed : fr.misses buf = true := by
          unfold misses
          rw [hst]
          dsimp only
          rw [if_neg (lt_irrefl 0), hpoll]
          simp only [Bool.and_eq_true, decide_eq_true_eq]
          exact ⟨hlt, by omega⟩
        rw [hmissed] at hmiss
        cases hmiss
      unfold handOut
      rw [if_neg hroom]
      refine ⟨tmpBuf, rfl, by omega, expects_requestNextFrame ?_, id, nofun,
        fun hok => absurd rfl hok, fun _ _ hnew => absurd hnew htmp⟩
      refine ⟨before, after, hpackets, hbefore.symm, ?_⟩
      rw [hrest', List.length_eq_zero_iff.mp (by omega : pd'.length = 0), List.nil_append]

end Payload

/-- A round that does not go wrong keeps the invariant, and brings the poll nearer to its end. -/
theorem iteration_spec (h : fr.Inv packets appended)
    (hbuf : buf.filled.length + buf.remaining < 2 ^ 63) (hmiss : fr.misses buf = false) :
    (fr.iteration buf).Good packets appended fr buf := by
  have hexp := h
  unfold Inv at hexp
  unfold iteration
  cases hst : fr.state with
  | requestingNextFrame ws =>
    rw [hst] at hexp
    obtain ⟨hopen, hbetween⟩ := hexp
    refine writeU64_spec hopen ⟨hopen, hbetween⟩ hst (fun n hn => ⟨⟨hopen.1, hn⟩, hbetween⟩)
      ⟨⟨length_leBytes 8 _, Nat.zero_lt_succ 7⟩, hbetween⟩ fun n w hn hle => ?_
    have := hopen.2
    unfold rounds
    rw [hst]
    dsimp only
    split_ifs with height
    · simp only [StderrReaderState.readWritten]
      omega
    · dsimp only
      omega
  | requestingFrameLen ws =>
    rw [hst] at hexp
    obtain ⟨hopen, hbetween⟩ := hexp
    refine writeU64_spec hopen ⟨hopen, hbetween⟩ hst (fun n hn => ⟨⟨hopen.1, hn⟩, hbetween⟩)
      hbetween fun n w hn hle => ?_
    have := hopen.2
    unfold rounds
    rw [hst]
    dsimp only
    split_ifs with height <;> dsimp only <;> omega
  | frameLenRequested => exact flushRequest_spec hst h
  | readingSize size => exact readSize_spec hst h
  | readingPayload remaining pad tmpBuf =>
    rw [hst] at hexp
    obtain ⟨-, -, -, -, -, -, -, -, -, -, hpad, -⟩ := hexp
    obtain ⟨hpos, hle, -, hsafe⟩ :=
      safeRemaining_spec remaining hpad (by omega : buf.remaining < 2 ^ 63)
    dsimp only
    split_ifs with h0 hroom
    · exact readPayload_spec hst h (hpos.mp h0) (hle.mp hroom) hbuf hmiss
    · refine ⟨rfl, by omega, by omega, ?_⟩
      have hlimit := hsafe (by omega)
      have hne : remaining ≠ 0 := (hpos.mp h0).ne'
      unfold rounds
      rw [hst]
      dsimp only
      rw [if_neg hne, if_neg hne, if_pos hlimit.le, if_neg (by omega)]
      decide
    · obtain rfl : remaining = 0 := by omega
      exact readPadding_spec hst h hmiss

/-- A poll none of whose rounds goes wrong. -/
theorem pollRead_spec (fuel : ℕ) (h : fr.Inv packets appended)
    (hbuf : buf.filled.length + buf.remaining < 2 ^ 63) (hsound : fr.sound fuel buf = true) :
    match fr.pollRead fuel buf with
    | none => Takes fr.writer → fuel ≤ fr.rounds buf
    | some (res, fr', buf') => (Iteration.done res fr' buf').Good packets appended fr buf := by
  induction fuel generalizing fr buf with
  | zero => exact fun _ => Nat.zero_le _
  | succ fuel ih =>
    unfold sound at hsound
    obtain ⟨hmiss, hsound'⟩ := Bool.and_eq_true_iff.mp hsound
    have hgood := iteration_spec h hbuf (by simpa using hmiss)
    unfold pollRead
    generalize fr.iteration buf = it at hgood hsound' ⊢
    match it, hgood, hsound' with
    | .done res fr' buf', hgood, _ => exact hgood
    | .again fr', ⟨hinv, htakes⟩, hsound' =>
      have hrun := ih hinv hbuf hsound'
      dsimp only
      generalize fr'.pollRead fuel buf = r at hrun ⊢
      match r, hrun with
      | none, hrun =>
        intro ht
        have := hrun (htakes ht).1
        have := (htakes ht).2
        omega
      | some (res, fr'', buf''), ⟨new, hnew, hlen, hinv', htakes', hrest⟩ =>
        exact ⟨new, hnew, hlen, hinv', fun ht => htakes' (htakes ht).1, hrest⟩
    | .smaller fr' limit, ⟨hfr, hpos, hlimit, hrounds⟩, hsound' =>
      subst hfr
      have hrun := @ih fr' ⟨[], limit⟩ h (by dsimp only [List.length_nil]; omega) hsound'
      dsimp only
      generalize fr'.pollRead fuel ⟨[], limit⟩ = r at hrun ⊢
      match r, hrun with
      | none, hrun =>
        intro ht
        have := hrun ht
        omega
      | some (.ready (.ok ()), fr'', small), ⟨new, hnew, hlen, hinv', htakes', _, _, heof⟩ =>
        subst hnew
        exact ⟨new, rfl, hlen.trans hlimit.le, hinv', htakes', nofun, fun hok => absurd rfl hok,
          fun hok _ => heof hok hpos⟩
      | some (.pending, fr'', small), ⟨new, _, _, hinv', htakes', _, hidle, _⟩ =>
        obtain rfl := hidle nofun
        rw [List.append_nil] at hinv'
        exact Iteration.good_idle hinv' htakes' nofun nofun
      | some (.ready (.error e), fr'', small), ⟨new, _, _, hinv', htakes', hpanic, hidle, _⟩ =>
        obtain rfl := hidle nofun
        rw [List.append_nil] at hinv'
        exact Iteration.good_idle hinv' htakes' hpanic nofun

theorem rounds_lt (fr : StderrReadFramedReader) (buf : ReadBuf) (h : fr.Inv packets appended) :
    fr.rounds buf < 36 := by
  unfold Inv at h
  unfold rounds
  cases hst : fr.state with
  | readingPayload remaining pad tmpBuf =>
    rw [hst] at h
    obtain ⟨-, -, -, -, -, -, -, -, -, -, hpad, -⟩ := h
    dsimp only
    split_ifs <;> omega
  | _ =>
    dsimp only
    omega

/-- What was appended is the beginning of the payloads. -/
theorem Inv.appended_prefix (h : fr.Inv packets appended) : appended <+: payloads packets := by
  have hbetween : ∀ rest, Between packets appended rest → appended <+: payloads packets := by
    rintro rest ⟨before, after, rfl, rfl, -⟩
    rw [payloads_append]
    exact List.prefix_append _ _
  unfold Inv at h
  cases hst : fr.state with
  | requestingNextFrame ws => exact hbetween _ (hst ▸ h).2
  | requestingFrameLen ws => exact hbetween _ (hst ▸ h).2
  | frameLenRequested =>
    rw [hst] at h
    exact hbetween _ h
  | readingSize size => exact hbetween _ (hst ▸ h).2
  | readingPayload remaining pad tmpBuf =>
    rw [hst] at h
    obtain ⟨before, after, c, pd, rfl, hbefore, -⟩ := h
    rw [payloads_append, hbefore, List.append_assoc, List.append_assoc]
    exact List.prefix_append _ _

/-- When nothing is left on the wire, everything was appended. -/
theorem Inv.complete (h : fr.Inv packets appended) (hrest : fr.reader.rest = []) :
    appended = payloads packets := by
  have hdone : ∀ size : Bytes, size.length ≤ 8 → Between packets appended (size ++ fr.reader.rest) →
      appended = payloads packets := by
    rintro size hle ⟨before, after, rfl, rfl, hwire⟩
    rw [hrest, List.append_nil] at hwire
    rw [hwire] at hle
    rw [payloads_append, payloads_eq_nil hle, List.append_nil]
  unfold Inv at h
  cases hst : fr.state with
  | requestingNextFrame ws => exact hdone [] (Nat.zero_le _) (hst ▸ h).2
  | requestingFrameLen ws => exact hdone [] (Nat.zero_le _) (hst ▸ h).2
  | frameLenRequested =>
    rw [hst] at h
    exact hdone [] (Nat.zero_le _) h
  | readingSize size => exact hdone size (hst ▸ h).1 (hst ▸ h).2
  | readingPayload remaining pad tmpBuf =>
    rw [hst] at h
    obtain ⟨before, after, c, pd, -, -, hwire, hc, hpd, -, -, -, hpos⟩ := h
    have hlen := congrArg List.length (hwire.symm.trans hrest)
    simp only [List.length_append, List.length_nil] at hlen
    have := (hpos (by omega)).2
    omega

end StderrReadFramedReader

end

-- ====================
-- What a client sees
-- ====================

/-- What the next poll of a client does. -/
structure PollConforms (packets : List Packet) (s : StderrSession) (buf : ReadBuf)
    (res : Poll (Except IoError Unit)) (s' : StderrSession) (buf' : ReadBuf) : Prop where
  no_panic : res ≠ .ready (.error .panic)
  /-- What was in the buffer stays there, and what comes is appended. -/
  filled : ∃ new, buf'.filled = buf.filled ++ new ∧ s'.appended = s.appended ++ new
  /-- A buffer with room only stays as it is at the end, or after an empty packet. -/
  eof : res = .ready (.ok ()) → 0 < buf.remaining → buf'.filled = buf.filled →
    AtEof packets s.appended s'.reader.reader.rest

/-- What a client sees. -/
structure StderrSession.Delivers (packets : List Packet) (fuel : ℕ) (s : StderrSession) : Prop where
  appended_prefix : s.appended <+: payloads packets
  complete : s.reader.reader.rest = [] → s.appended = payloads packets
  poll : ∀ buf : Buffer, s.reader.sound fuel buf.val = true → ∀ res fr' buf',
    s.reader.pollRead fuel buf.val = some (res, fr', buf') →
    PollConforms packets s buf.val res
      ⟨fr', s.appended ++ buf'.filled.drop buf.val.filled.length⟩ buf'

namespace StderrSession

variable {packets : List Packet} {fuel : ℕ} {s : StderrSession}

/-- The invariant of a session. -/
def Inv (packets : List Packet) (s : StderrSession) : Prop := s.reader.Inv packets s.appended

theorem drop_putSlice (buf : ReadBuf) (new : Bytes) :
    (buf.putSlice new).filled.drop buf.filled.length = new := List.drop_left

theorem Inv.delivers (h : s.Inv packets) : s.Delivers packets fuel := by
  refine ⟨h.appended_prefix, h.complete, fun buf hsound res fr' buf' hpoll => ?_⟩
  have hspec := StderrReadFramedReader.pollRead_spec fuel h buf.property hsound
  rw [hpoll] at hspec
  obtain ⟨new, rfl, -, -, -, hpanic, -, heof⟩ := hspec
  refine ⟨hpanic, ⟨new, rfl, by rw [drop_putSlice]⟩, fun hok hroom hsame => heof hok hroom ?_⟩
  exact List.append_right_eq_self.mp hsame

theorem Inv.step (h : s.Inv packets) {buf : Buffer} (hsound : s.reader.sound fuel buf.val = true) :
    (Takes s.reader.writer → 36 ≤ fuel → (s.step fuel buf).isSome) ∧
      ∀ s', s.step fuel buf = some s' →
        s'.Inv packets ∧ (Takes s.reader.writer → Takes s'.reader.writer) := by
  have hspec := StderrReadFramedReader.pollRead_spec fuel h buf.property hsound
  have hrounds := StderrReadFramedReader.rounds_lt s.reader buf.val h
  unfold StderrSession.step
  cases hpoll : s.reader.pollRead fuel buf.val with
  | none =>
    rw [hpoll] at hspec
    refine ⟨fun ht hfuel => ?_, nofun⟩
    have := hspec ht
    omega
  | some r =>
    obtain ⟨res, fr', buf'⟩ := r
    rw [hpoll] at hspec
    obtain ⟨new, rfl, -, hinv, htakes, -⟩ := hspec
    refine ⟨fun _ _ => rfl, ?_⟩
    rintro s' ⟨⟩
    refine ⟨?_, htakes⟩
    rw [← drop_putSlice buf.val new] at hinv
    exact hinv

theorem Inv.run {bufs : List Buffer} (h : s.Inv packets) (hsound : s.sound fuel bufs = true) :
    (Takes s.reader.writer → 36 ≤ fuel → (s.run fuel bufs).isSome) ∧
      ∀ s', s.run fuel bufs = some s' → s'.Inv packets := by
  induction bufs generalizing s with
  | nil => exact ⟨fun _ _ => rfl, by rintro s' ⟨⟩; exact h⟩
  | cons buf bufs ih =>
    unfold StderrSession.sound at hsound
    obtain ⟨hpoll, hsound'⟩ := Bool.and_eq_true_iff.mp hsound
    obtain ⟨hsome, hnext⟩ := h.step hpoll
    unfold StderrSession.run
    rw [List.foldlM_cons]
    cases hstep : s.step fuel buf with
    | none =>
      rw [hstep] at hsome
      exact ⟨fun ht hfuel => absurd (hsome ht hfuel) nofun, nofun⟩
    | some s₁ =>
      obtain ⟨hinv, htakes⟩ := hnext s₁ hstep
      rw [hstep] at hsound'
      obtain ⟨hsome', hnext'⟩ := ih hinv hsound'
      exact ⟨fun ht => hsome' (htakes ht), hnext'⟩

theorem inv_start (packets : List Packet) (answers : ℕ → Answer) (writer : AsyncSink) :
    (start ⟨wire packets, answers⟩ writer).Inv packets :=
  StderrReadFramedReader.expects_requestNextFrame ⟨[], packets, rfl, rfl, rfl⟩

end StderrSession

/-- As long as no round goes wrong, the payloads of the packets are appended to the buffers of the
    caller one after the other, and every poll returns when the writer takes the requests. -/
theorem delivers_packets (packets : List Packet) (answers : ℕ → Answer) (writer : AsyncSink)
    (fuel : ℕ) (bufs : List Buffer)
    (hsound : (StderrSession.start ⟨wire packets, answers⟩ writer).sound fuel bufs = true) :
    (Takes writer → 36 ≤ fuel →
        ((StderrSession.start ⟨wire packets, answers⟩ writer).run fuel bufs).isSome) ∧
      ∀ s, (StderrSession.start ⟨wire packets, answers⟩ writer).run fuel bufs = some s →
        s.Delivers packets fuel := by
  obtain ⟨hsome, hinv⟩ := (StderrSession.inv_start packets answers writer).run hsound
  exact ⟨hsome, fun s hs => (hinv s hs).delivers⟩

theorem threeBytes_lt : ([1, 2, 3] : Bytes).length < 2 ^ 64 := by decide

theorem threeBytes_padding :
    ([0, 0, 0, 0, 0] : Bytes).length = paddingLen ([1, 2, 3] : Bytes).length := by decide

/-- A packet with three bytes. -/
def threeBytes : Packet := ⟨[1, 2, 3], [0, 0, 0, 0, 0], threeBytes_lt, threeBytes_padding⟩

/-- A session in which the client has sent three bytes, and the answers come at once. -/
def threeSession : StderrSession :=
  .start ⟨wire [threeBytes], fun _ => .chunk 7⟩ ⟨[], fun _ => .accept 8⟩

theorem oneFilled_lt (room : Fin 16) : ([9] : Bytes).length + room.val < 2 ^ 63 := by
  rw [List.length_singleton]
  omega

/-- A buffer with one byte in it, and room for some more. -/
def oneFilled (room : Fin 16) : Buffer := ⟨⟨[9], room⟩, oneFilled_lt room⟩

theorem delivers_packets_three :
    threeSession.sound 36 [oneFilled 2, oneFilled 8] = true ∧
      (threeSession.run 36 [oneFilled 2, oneFilled 8]).map (·.appended) = some [1, 2, 3] ∧
      ∀ s, threeSession.run 36 [oneFilled 2, oneFilled 8] = some s →
        s.Delivers [threeBytes] 36 := by
  have hsound : threeSession.sound 36 [oneFilled 2, oneFilled 8] = true := by decide +kernel
  exact ⟨hsound, by decide +kernel, (delivers_packets [threeBytes] _ _ 36 _ hsound).2⟩

/-- The same session, with the padding delayed. -/
def delayedSession : StderrSession :=
  .start ⟨wire [threeBytes], fun i => if i = 2 then .pending else .chunk 7⟩ ⟨[], fun _ => .accept 8⟩

theorem noneFilled_lt : ([] : Bytes).length + 3 < 2 ^ 63 := by decide

/-- With room for no more than the payload, the byte that was there before pushes the last one
    out; and bytes that were kept aside for an earlier buffer need not fit in a later one. -/
theorem delivers_packets_lost :
    (threeSession.run 36 [oneFilled 3]).map (fun s => (s.appended, s.reader.reader.rest)) =
        some ([1, 2], []) ∧
      payloads [threeBytes] = [1, 2, 3] ∧
      ((delayedSession.run 36 [⟨⟨[], 3⟩, noneFilled_lt⟩]).bind fun s =>
        s.reader.pollRead 36 ⟨[], 1⟩).map (·.1) = some (.ready (.error .panic)) := by
  refine ⟨by decide +kernel, by decide +kernel, by rfl⟩

end Snix.NixDaemon
