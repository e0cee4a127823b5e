import Snix.NixCompat.NixDaemon.StderrRead

/-!
# Requested data that is cut off

A client may go away within a packet. `StderrReadFramedReader` does not tell its
caller: where the length or the payload is cut off it reports the end of the data,
after a part of the payload perhaps, and where the padding is cut off the loop of a
single poll goes on forever.

## Main definitions

- `CutStream` — a client stream that ends within a packet
- `readToEnd` — polling until the end of the data or an error
- `Detects` — reading to the end terminates with an error

## Main results

- `pollRead_quiet` — the reader has no errors of its own
- `pollRead_padding` — a poll within padding that is cut off does not return
- `truncation_undetected` — no cut is reported
-/

namespace Snix.NixDaemon

/-- A client stream that ends within a packet: the packets before it, and a part of
    its length, payload and padding. The stream ends without an error of the reader. -/
structure CutStream where
  reader : AsyncStream
  before : List Packet
  last : Packet
  sent : Bytes
  missing : Bytes
  rest_eq : reader.rest = wire before ++ sent
  last_eq : last.wire = sent ++ missing
  begun : sent ≠ []
  cut : missing ≠ []
  faultless : reader.Faultless

/-- The writer reports no errors of its own. -/
def Reliable (w : AsyncSink) : Prop := ∀ i, w.answers i ≠ .fail

namespace StderrReadFramedReader

/-- Polls with one buffer after the other, until a buffer with room stays as it was.
    The polls that are not ready are repeated. -/
def readToEnd (fuel : ℕ) :
    ℕ → StderrReadFramedReader → (ℕ → Buffer) → Bytes → Option (Except IoError Bytes)
  | 0, _, _, _ => none
  | polls + 1, fr, bufs, data =>
    match fr.pollRead fuel (bufs 0).val with
    | none => none
    | some (.pending, fr, _) => readToEnd fuel polls fr (fun i => bufs (i + 1)) data
    | some (.ready (.error e), _, _) => some (.error e)
    | some (.ready (.ok ()), fr, buf) =>
      if buf.filled = (bufs 0).val.filled ∧ 0 < (bufs 0).val.remaining then some (.ok data)
      else readToEnd fuel polls fr (fun i => bufs (i + 1))
        (data ++ buf.filled.drop (bufs 0).val.filled.length)

/-- After finitely many polls, each of finitely many rounds, there is an error. -/
def Detects (fr : StderrReadFramedReader) (bufs : ℕ → Buffer) : Prop :=
  ∃ fuel polls e, fr.readToEnd fuel polls bufs [] = some (.error e) ∧ e ≠ .panic

/-- Neither of the two ends fails by itself. -/
def Quiet (fr : StderrReadFramedReader) : Prop := fr.reader.Faultless ∧ Reliable fr.writer

-- ====================
-- The reader has no errors of its own
-- ====================

theorem faultless_pollRead {r : AsyncStream} (n : ℕ) (h : r.Faultless) :
    (r.pollRead n).2.Faultless ∧ ∀ e, (r.pollRead n).1 ≠ .ready (.error e) := by
  rcases r.pollRead_cases n with ⟨r', hpoll, -, hans⟩ | ⟨r', -, -, -, hnot⟩ |
    ⟨chunk, r', hpoll, -, hans, -⟩
  · rw [hpoll]
    exact ⟨((AsyncStream.Later.refl r).of_tick hans).faultless h, nofun⟩
  · exact absurd h hnot
  · rw [hpoll]
    exact ⟨((AsyncStream.Later.refl r).of_tick hans).faultless h, nofun⟩

theorem reliable_pollWrite {w : AsyncSink} (bytes : Bytes) (h : Reliable w) :
    Reliable (w.pollWrite bytes).2 ∧ ∀ e, (w.pollWrite bytes).1 ≠ .ready (.error e) := by
  have hnext : ∀ i, w.tick.answers i ≠ .fail := fun i => h (i + 1)
  unfold AsyncSink.pollWrite
  cases hans : w.answers 0 with
  | pending => exact ⟨hnext, nofun⟩
  | fail => exact absurd hans (h 0)
  | accept k => exact ⟨hnext, nofun⟩

theorem reliable_pollFlush {w : AsyncSink} (h : Reliable w) :
    Reliable w.pollFlush.2 ∧ ∀ e, w.pollFlush.1 ≠ .ready (.error e) := by
  have hnext : ∀ i, w.tick.answers i ≠ .fail := fun i => h (i + 1)
  unfold AsyncSink.pollFlush AsyncSink.pollDone
  cases hans : w.answers 0 with
  | pending => exact ⟨hnext, nofun⟩
  | fail => exact absurd hans (h 0)
  | accept k => exact ⟨hnext, nofun⟩

/-- The ends stay as they are, and the only error is a panic. -/
def Keeps : Iteration → Prop
  | .again fr => fr.Quiet
  | .smaller fr _ => fr.Quiet
  | .done res fr _ => fr.Quiet ∧ ∀ e, res = .ready (.error e) → e = .panic

variable {fr : StderrReadFramedReader} {buf : ReadBuf}

theorem writeU64_keeps (h : fr.Quiet) (ws : U64WriteState)
    (current : U64WriteState → StderrReaderState) (next : StderrReaderState) :
    Keeps (fr.writeU64 ws current next buf) := by
  obtain ⟨hreliable, hok⟩ := reliable_pollWrite ws.remaining h.2
  unfold writeU64
  split
  case h_1 w hpoll =>
    rw [hpoll] at hreliable
    exact ⟨⟨h.1, hreliable⟩, nofun⟩
  case h_2 e w hpoll =>
    rw [hpoll] at hok
    exact absurd rfl (hok e)
  case h_3 n w hpoll =>
    rw [hpoll] at hreliable
    exact ⟨h.1, hreliable⟩

theorem flushRequest_keeps (h : fr.Quiet) : Keeps (fr.flushRequest buf) := by
  obtain ⟨hreliable, hok⟩ := reliable_pollFlush h.2
  unfold flushRequest
  split
  case h_1 w hpoll =>
    rw [hpoll] at hreliable
    exact ⟨⟨h.1, hreliable⟩, nofun⟩
  case h_2 e w hpoll =>
    rw [hpoll] at hok
    exact absurd rfl (hok e)
  case h_3 w hpoll =>
    rw [hpoll] at hreliable
    exact ⟨h.1, hreliable⟩

theorem readSize_keeps (h : fr.Quiet) (size : Bytes) : Keeps (fr.readSize size buf) := by
  obtain ⟨hfaultless, hok⟩ := faultless_pollRead (8 - size.length) h.1
  unfold readSize
  split_ifs with hshort hzero
  · split
    case h_1 r hpoll =>
      rw [hpoll] at hfaultless
      exact ⟨⟨hfaultless, h.2⟩, nofun⟩
    case h_2 e r hpoll =>
      rw [hpoll] at hok
      exact absurd rfl (hok e)
    case h_3 r hpoll =>
      rw [hpoll] at hfaultless
      exact ⟨⟨hfaultless, h.2⟩, nofun⟩
    case h_4 b chunk r hpoll =>
      rw [hpoll] at hfaultless
      exact ⟨hfaultless, h.2⟩
  · exact ⟨h, nofun⟩
  · exact h

theorem handOut_keeps (h : fr.Quiet) (tmpBuf : Bytes) : Keeps (fr.handOut tmpBuf buf) := by
  unfold handOut
  split_ifs with hroom
  · refine ⟨h, fun e he => ?_⟩
    cases he
    rfl
  · exact ⟨h, nofun⟩

theorem readPadding_keeps (h : fr.Quiet) (remaining pad : ℕ) (tmpBuf : Bytes) :
    Keeps (fr.readPadding remaining pad tmpBuf buf) := by
  obtain ⟨hfaultless, hok⟩ := faultless_pollRead pad h.1
  unfold readPadding
  split_ifs with hpad
  · split
    case h_1 r hpoll =>
      rw [hpoll] at hfaultless
      exact ⟨⟨hfaultless, h.2⟩, nofun⟩
    case h_2 e r hpoll =>
      rw [hpoll] at hok
      exact absurd rfl (hok e)
    case h_3 chunk r hpoll =>
      rw [hpoll] at hfaultless
      split_ifs with hleft
      · exact ⟨hfaultless, h.2⟩
      · apply handOut_keeps
        exact ⟨hfaultless, h.2⟩
  · exact handOut_keeps h tmpBuf

theorem readPayload_keeps (h : fr.Quiet) (remaining pad : ℕ) (tmpBuf : Bytes) :
    Keeps (fr.readPayload remaining pad tmpBuf buf) := by
  obtain ⟨hfaultless, hok⟩ := faultless_pollRead buf.remaining h.1
  unfold readPayload
  split
  case h_1 r hpoll =>
    rw [hpoll] at hfaultless
    exact ⟨⟨hfaultless, h.2⟩, nofun⟩
  case h_2 e r hpoll =>
    rw [hpoll] at hok
    exact absurd rfl (hok e)
  case h_3 chunk r hpoll =>
    rw [hpoll] at hfaultless
    dsimp only at hfaultless ⊢
    split_ifs with hmore hleft hfilled
    · exact ⟨⟨hfaultless, h.2⟩, nofun⟩
    · refine ⟨h, fun e he => ?_⟩
      cases he
      rfl
    · exact ⟨hfaultless, h.2⟩
    · exact ⟨⟨hfaultless, h.2⟩, nofun⟩

/-- A round fails only where one of the ends does, or by a panic. -/
theorem iteration_keeps (h : fr.Quiet) : Keeps (fr.iteration buf) := by
  unfold iteration
  cases fr.state with
  | requestingNextFrame ws => exact writeU64_keeps h ws _ _
  | requestingFrameLen ws => exact writeU64_keeps h ws _ _
  | frameLenRequested => exact flushRequest_keeps h
  | readingSize size => exact readSize_keeps h size
  | readingPayload remaining pad tmpBuf =>
    dsimp only
    split_ifs with hmore hle
    · exact readPayload_keeps h remaining pad tmpBuf
    · exact h
    · exact readPadding_keeps h remaining pad tmpBuf

theorem pollRead_quiet (fuel : ℕ) {res : Poll (Except IoError Unit)}
    {fr' : StderrReadFramedReader} {buf' : ReadBuf} (h : fr.Quiet)
    (hpoll : fr.pollRead fuel buf = some (res, fr', buf')) :
    fr'.Quiet ∧ ∀ e, res = .ready (.error e) → e = .panic := by
  induction fuel generalizing fr buf res buf' with
  | zero => cases hpoll
  | succ fuel ih =>
    have hkeeps : Keeps (fr.iteration buf) := iteration_keeps h
    rw [pollRead] at hpoll
    split at hpoll
    case h_1 fr₁ hit =>
      rw [hit] at hkeeps
      exact ih hkeeps hpoll
    case h_2 res₁ fr₁ buf₁ hit =>
      rw [hit] at hkeeps
      cases hpoll
      exact hkeeps
    case h_3 fr₁ limit hit =>
      rw [hit] at hkeeps
      split at hpoll
      case h_1 => cases hpoll
      case h_2 fr₂ small hsmall =>
        cases hpoll
        refine ⟨(ih hkeeps hsmall).1, ?_⟩
        intro e he
        cases he
      case h_3 res₂ fr₂ small hne hsmall =>
        cases hpoll
        exact ih hkeeps hsmall

theorem readToEnd_quiet (fuel polls : ℕ) {bufs : ℕ → Buffer} {data : Bytes} {e : IoError}
    (h : fr.Quiet) (hread : fr.readToEnd fuel polls bufs data = some (.error e)) : e = .panic := by
  induction polls generalizing fr bufs data with
  | zero => cases hread
  | succ polls ih =>
    rw [readToEnd] at hread
    split at hread
    case h_1 => cases hread
    case h_2 fr₁ buf₁ hpoll => exact ih (pollRead_quiet fuel h hpoll).1 hread
    case h_3 e₁ fr₁ buf₁ hpoll =>
      cases hread
      exact (pollRead_quiet fuel h hpoll).2 e rfl
    case h_4 fr₁ buf₁ hpoll =>
      by_cases heof : buf₁.filled = (bufs 0).val.filled ∧ 0 < (bufs 0).val.remaining
      · rw [if_pos heof] at hread
        cases hread
      · rw [if_neg heof] at hread
        exact ih (pollRead_quiet fuel h hpoll).1 hread

theorem not_detects (h : fr.Quiet) (bufs : ℕ → Buffer) : ¬ fr.Detects bufs := by
  rintro ⟨fuel, polls, e, hread, hne⟩
  exact hne (readToEnd_quiet fuel polls h hread)

-- ====================
-- Padding that is cut off
-- ====================

/-- The stream is at its end, and always ready. -/
def AtEnd (r : AsyncStream) : Prop := r.rest = [] ∧ ∀ i, ∃ k, r.answers i = .chunk k

theorem pollRead_atEnd {r : AsyncStream} (n : ℕ) (h : AtEnd r) :
    ∃ r', r.pollRead n = (.ready (.ok []), r') ∧ AtEnd r' := by
  obtain ⟨k, hk⟩ := h.2 0
  refine ⟨⟨r.rest.drop (min n (k + 1)), fun i => r.answers (i + 1)⟩, ?_, ?_, fun i => h.2 (i + 1)⟩
  · simp only [AsyncStream.pollRead, hk, h.1, List.take_nil, AsyncStream.tick]
  · rw [h.1]
    exact List.drop_nil

/-- The loop of a poll goes on where nothing follows but padding is missing. -/
theorem pollRead_padding (fuel : ℕ) {pad : ℕ} {tmpBuf : Bytes} (hpad : 0 < pad)
    (hst : fr.state = .readingPayload 0 pad tmpBuf) (hend : AtEnd fr.reader) :
    fr.pollRead fuel buf = none := by
  induction fuel generalizing fr with
  | zero => rfl
  | succ fuel ih =>
    obtain ⟨r', hpoll, hend'⟩ := pollRead_atEnd pad hend
    have hsafe : ¬ 0 < safeRemaining 0 pad - pad := by
      unfold safeRemaining
      split_ifs <;> omega
    have hit : fr.iteration buf =
        .again { fr with reader := r', state := .readingPayload 0 pad tmpBuf } := by
      rw [iteration, hst]
      simp only [if_neg hsafe, readPadding, if_pos hpad, hpoll, List.length_nil, Nat.sub_zero,
        ne_eq, hpad.ne', not_false_eq_true, if_true]
    rw [pollRead, hit]
    exact ih rfl hend'

/-- No cut is reported: however the bytes arrive, and whatever the buffers are. -/
theorem truncation_undetected (s : CutStream) {writer : AsyncSink} (hwriter : Reliable writer)
    (bufs : ℕ → Buffer) : ¬ (new s.reader writer).Detects bufs :=
  not_detects ⟨s.faultless, hwriter⟩ bufs

theorem length_buffer : ([] : Bytes).length + 16 < 2 ^ 63 := by decide

def buffers : ℕ → Buffer := fun _ => ⟨⟨[], 16⟩, length_buffer⟩

/-- Packet with the payload `hi`. -/
def hi : Packet := ⟨[104, 105], [0, 0, 0, 0, 0, 0], by decide, by decide⟩

/-- The payload is cut off after one byte. -/
def cutPayload : CutStream where
  reader := ⟨leBytes 8 2 ++ [104], fun _ => .chunk 15⟩
  before := []
  last := hi
  sent := leBytes 8 2 ++ [104]
  missing := [105, 0, 0, 0, 0, 0, 0]
  rest_eq := rfl
  last_eq := rfl
  begun := nofun
  cut := nofun
  faultless := fun _ => Answer.noConfusion

def sink : AsyncSink := ⟨[], fun _ => .accept 8⟩

theorem sink_reliable : Reliable sink := fun _ => SinkAnswer.noConfusion

theorem truncation_undetected_cutPayload : ¬ (new cutPayload.reader sink).Detects buffers :=
  truncation_undetected cutPayload sink_reliable buffers

/-- The padding is cut off after one byte. -/
def cutPadding : AsyncStream := ⟨leBytes 8 2 ++ [104, 105, 0], fun _ => .chunk 15⟩

/-- The reader after the payload and the byte of padding. -/
def inPadding : StderrReadFramedReader :=
  ⟨⟨[], fun _ => .chunk 15⟩, ⟨leBytes 8 STDERR_READ ++ leBytes 8 16, fun _ => .accept 8⟩,
    .readingPayload 0 5 [104, 105]⟩

theorem pollRead_cutPadding (fuel : ℕ) :
    (new cutPadding sink).pollRead (fuel + 7) ⟨[], 16⟩ =
      match inPadding.pollRead fuel ⟨[], 8⟩ with
      | none => none
      | some (.ready (.ok ()), fr, small) =>
        some (.ready (.ok ()), fr, (⟨[], 16⟩ : ReadBuf).putSlice small.filled)
      | some (res, fr, _) => some (res, fr, ⟨[], 16⟩) :=
  rfl

/-- Half of a payload is handed out, and then the end of the data; and the first poll of
    padding that is cut off does not return. -/
theorem cuts_unreported :
    ((new cutPayload.reader sink).readToEnd 8 3 buffers [] = some (.ok [104]) ∧
        ¬ (new cutPayload.reader sink).Detects buffers) ∧
      ∀ fuel, (new cutPadding sink).pollRead (fuel + 7) ⟨[], 16⟩ = none := by
  refine ⟨⟨rfl, not_detects ⟨cutPayload.faultless, sink_reliable⟩ buffers⟩, fun fuel => ?_⟩
  have hloop : inPadding.pollRead fuel ⟨[], 8⟩ = none :=
    pollRead_padding fuel (by decide) rfl ⟨rfl, fun _ => ⟨15, rfl⟩⟩
  rw [pollRead_cutPadding, hloop]

end StderrReadFramedReader

end Snix.NixDaemon
