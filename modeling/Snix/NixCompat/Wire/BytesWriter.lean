import Snix.Lib.AsyncSink
import Snix.Lib.MachineInt
import Snix.NixCompat.Wire.BytesReader

/-!
# Writing a byte packet piece by piece

`BytesWriter` writes a byte packet whose length is known in advance: it puts
the length in front of the payload that a client hands over, and the padding
behind it. Each of the three fields may be interrupted after any byte.

The position in the payload is a 64-bit number, and the check against the
declared length adds the length of the buffer to it. With overflow checks the
sum panics when it does not fit, without them it wraps around.

## Main definitions

- `BytesPacketPosition`, `BytesWriter` — the states of the writer
- `pollWrite`, `pollFlush`, `pollShutdown` — its operations
- `WriteSession`, `WriteSession.step` — the writer together with what it accepted
- `BytesWriter.Overflows` — the sum in the check of a write does not fit

## Main results

- `BytesWriter.Inv` — the invariant of a writer, kept by every operation
- `emits_packet` — what a client sees that never lets the check overflow
-/

namespace Snix.Wire

/-- The position inside a packet: how much of the current field is written. -/
inductive BytesPacketPosition where
  | size (pos : ℕ)
  | payload (pos : ℕ)
  | padding (pos : ℕ)
  deriving DecidableEq

structure BytesWriter where
  inner : AsyncSink
  payloadLen : ℕ
  state : BytesPacketPosition

/-- The padding behind a length, with the wrapping arithmetic of 64-bit numbers. -/
def paddingLenU64 (len : ℕ) : ℕ := (2 ^ 64 - len + (len + 7) % 2 ^ 64 / 8 * 8) % 2 ^ 64 % 2 ^ 8

theorem paddingLenU64_eq {len : ℕ} (h : len < 2 ^ 64) : paddingLenU64 len = paddingLen len := by
  unfold paddingLenU64 paddingLen
  omega

namespace BytesWriter

def new (inner : AsyncSink) (payloadLen : ℕ) : BytesWriter := ⟨inner, payloadLen, .size 0⟩

/-- Writes bytes of the current field; `next` is the position after some of them are written. -/
def writeField (buf : Bytes) (next : ℕ → BytesPacketPosition) (w : BytesWriter) :
    Poll (Except WriteError Unit) × BytesWriter :=
  match w.inner.pollWrite buf with
  | (.pending, i) => (.pending, { w with inner := i })
  | (.ready (.error e), i) => (.ready (.error e), { w with inner := i })
  | (.ready (.ok 0), i) => (.ready (.error .writeZero), { w with inner := i })
  | (.ready (.ok (n + 1)), i) => (.ready (.ok ()), { w with inner := i, state := next (n + 1) })

/-- Writes on the size field, which is not complete. -/
def pollSize (pos : ℕ) (w : BytesWriter) : Poll (Except WriteError Unit) × BytesWriter :=
  if 8 ≤ pos then (.ready (.error .panic), w)
  else w.writeField ((leBytes 8 w.payloadLen).drop pos) fun n =>
    if pos + n = 8 then .payload 0 else .size (pos + n)

/-- Hands bytes of the payload over to the underlying writer. -/
def pollPayload (checks : Bool) (buf : Bytes) (pos : ℕ) (w : BytesWriter) :
    Poll (Except WriteError ℕ) × BytesWriter :=
  match addU64 checks pos buf.length with
  | none => (.ready (.error .panic), w)
  | some sum =>
    if w.payloadLen < sum then (.ready (.error .invalidData), w)
    else match w.inner.pollWrite buf with
      | (.pending, i) => (.pending, { w with inner := i })
      | (.ready (.error e), i) => (.ready (.error e), { w with inner := i })
      | (.ready (.ok 0), i) => (.ready (.error .writeZero), { w with inner := i })
      | (.ready (.ok (n + 1)), i) =>
        match addU64 checks pos (n + 1) with
        | none => (.ready (.error .panic), { w with inner := i })
        | some newPos =>
          (.ready (.ok (n + 1)),
            { w with
              inner := i
              state := if newPos = w.payloadLen then .padding 0 else .payload newPos })

/-- The loop of a write; `fuel` bounds its rounds, each of which fills at least one byte
    of the size field or is the last. -/
def writeLoop (checks : Bool) (buf : Bytes) :
    ℕ → BytesWriter → Poll (Except WriteError ℕ) × BytesWriter
  | 0, w => (.pending, w)
  | fuel + 1, w =>
    match w.state with
    | .size pos =>
      match w.pollSize pos with
      | (.pending, w) => (.pending, w)
      | (.ready (.error e), w) => (.ready (.error e), w)
      | (.ready (.ok ()), w) => writeLoop checks buf fuel w
    | .payload pos => w.pollPayload checks buf pos
    | .padding _ => (.ready (.error .invalidData), w)

def pollWrite (checks : Bool) (buf : Bytes) (w : BytesWriter) :
    Poll (Except WriteError ℕ) × BytesWriter :=
  w.writeLoop checks buf 9

/-- Writes on the padding, which is not complete. -/
def pollPadding (pos : ℕ) (w : BytesWriter) : Poll (Except WriteError Unit) × BytesWriter :=
  if paddingLenU64 w.payloadLen < pos then (.ready (.error .panic), w)
  else w.writeField (List.replicate (paddingLenU64 w.payloadLen - pos) 0) fun n =>
    .padding (pos + n)

/-- Flushes the underlying writer. -/
def flushInner (w : BytesWriter) : Poll (Except WriteError Unit) × BytesWriter :=
  let (r, i) := w.inner.pollFlush
  (r, { w with inner := i })

/-- The loop of a flush: writes what can be written without more payload. -/
def flushLoop : ℕ → BytesWriter → Poll (Except WriteError Unit) × BytesWriter
  | 0, w => (.pending, w)
  | fuel + 1, w =>
    match w.state with
    | .size pos =>
      match w.pollSize pos with
      | (.pending, w) => (.pending, w)
      | (.ready (.error e), w) => (.ready (.error e), w)
      | (.ready (.ok ()), w) => flushLoop fuel w
    | .payload _ =>
      if w.payloadLen = 0 then flushLoop fuel { w with state := .padding 0 } else w.flushInner
    | .padding pos =>
      if pos = paddingLenU64 w.payloadLen then w.flushInner
      else match w.pollPadding pos with
        | (.pending, w) => (.pending, w)
        | (.ready (.error e), w) => (.ready (.error e), w)
        | (.ready (.ok ()), w) => flushLoop fuel w

def pollFlush (w : BytesWriter) : Poll (Except WriteError Unit) × BytesWriter := w.flushLoop 18

/-- Is the writer at the end of the packet? -/
def atEnd (w : BytesWriter) : Bool := w.state = .padding (paddingLenU64 w.payloadLen)

def pollShutdown (w : BytesWriter) : Poll (Except WriteError Unit) × BytesWriter :=
  match w.pollFlush with
  | (.pending, w) => (.pending, w)
  | (.ready (.error e), w) => (.ready (.error e), w)
  | (.ready (.ok ()), w) =>
    match w.inner.pollShutdown with
    | (.pending, i) => (.pending, { w with inner := i })
    | (.ready (.error e), i) => (.ready (.error e), { w with inner := i })
    | (.ready (.ok ()), i) =>
      (.ready (if w.atEnd then .ok () else .error .brokenPipe), { w with inner := i })

end BytesWriter

/-- What `write_bytes` writes for a payload. -/
def writeBytes (b : Bytes) : Bytes :=
  leBytes 8 b.length ++ b ++ List.replicate (paddingLenU64 b.length) 0

theorem length_writeBytes (b : Bytes) :
    (writeBytes b).length = 8 + b.length + paddingLenU64 b.length := by
  simp only [writeBytes, List.length_append, length_leBytes, List.length_replicate]

-- ====================
-- Clients
-- ====================

inductive WriteOp where
  | write (buf : Bytes)
  | flush
  | shutdown

/-- A writer, and the payload it has accepted from its client. -/
structure WriteSession where
  writer : BytesWriter
  accepted : Bytes

namespace WriteSession

def start (payloadLen : ℕ) (answers : ℕ → SinkAnswer) : WriteSession :=
  ⟨.new ⟨[], answers⟩ payloadLen, []⟩

def step (checks : Bool) (s : WriteSession) : WriteOp → WriteSession
  | .write buf =>
    match s.writer.pollWrite checks buf with
    | (.ready (.ok n), w) => ⟨w, s.accepted ++ buf.take n⟩
    | (_, w) => { s with writer := w }
  | .flush => { s with writer := s.writer.pollFlush.2 }
  | .shutdown => { s with writer := s.writer.pollShutdown.2 }

def run (checks : Bool) (s : WriteSession) (ops : List WriteOp) : WriteSession :=
  ops.foldl (step checks) s

end WriteSession

/-- The position in the payload and the length of the buffer do not fit in 64 bits. -/
def BytesWriter.Overflows (w : BytesWriter) (buf : Bytes) : Prop :=
  match w.state with
  | .size _ => 2 ^ 64 ≤ buf.length
  | .payload pos => 2 ^ 64 ≤ pos + buf.length
  | .padding _ => False

/-- No write overflows the check against the declared length. -/
def WriteSession.Fits (checks : Bool) : WriteSession → List WriteOp → Prop
  | _, [] => True
  | s, op :: ops =>
    (∀ buf, op = .write buf → ¬ s.writer.Overflows buf) ∧ Fits checks (s.step checks op) ops

-- ====================
-- The invariant
-- ====================

namespace BytesWriter

/-- What is written at a position, after this payload was accepted. -/
def Written (payloadLen : ℕ) (accepted written : Bytes) : BytesPacketPosition → Prop
  | .size pos => pos < 8 ∧ accepted = [] ∧ written = (leBytes 8 payloadLen).take pos
  | .payload pos =>
    pos = accepted.length ∧ pos ≤ payloadLen ∧ (pos = payloadLen → payloadLen = 0) ∧
      written = leBytes 8 payloadLen ++ accepted
  | .padding pos =>
    accepted.length = payloadLen ∧ pos ≤ paddingLen payloadLen ∧
      written = leBytes 8 payloadLen ++ accepted ++ List.replicate pos 0

/-- The invariant of a writer for packets of length `len`. -/
structure Inv (len : ℕ) (accepted : Bytes) (w : BytesWriter) : Prop where
  payloadLen : w.payloadLen = len
  lt : len < 2 ^ 64
  written : Written len accepted w.inner.written w.state

variable {len : ℕ} {accepted : Bytes} {w : BytesWriter}

theorem Inv.length_le (h : w.Inv len accepted) : accepted.length ≤ len := by
  have hw := h.written
  cases hst : w.state with
  | size pos =>
    rw [hst] at hw
    rw [hw.2.1]
    exact Nat.zero_le _
  | payload pos =>
    rw [hst] at hw
    exact hw.1 ▸ hw.2.1
  | padding pos =>
    rw [hst] at hw
    exact hw.1.le

theorem Inv.size_lt {pos : ℕ} (h : w.Inv len accepted) (hst : w.state = .size pos) : pos < 8 := by
  have hw := h.written
  rw [hst] at hw
  exact hw.1

theorem Inv.withInner {i : AsyncSink} (h : w.Inv len accepted)
    (hi : i.written = w.inner.written) : Inv len accepted { w with inner := i } := by
  refine ⟨h.payloadLen, h.lt, ?_⟩
  rw [hi]
  exact h.written

/-- Everything that writing on a field can do: it stops because the underlying writer makes it
    stop, or succeeds with a writer for which `Q` holds. -/
def Outcome (len : ℕ) (accepted : Bytes) (i : AsyncSink) (Q : BytesWriter → Prop) :
    Poll (Except WriteError Unit) × BytesWriter → Prop
  | (.pending, w) => w.Inv len accepted ∧ ¬ i.Obliging
  | (.ready (.error e), w) =>
    w.Inv len accepted ∧ ¬ i.Obliging ∧
      (e = .inner ∨ e = .writeZero ∧ w.inner.written ≠ writeBytes accepted)
  | (.ready (.ok ()), w) => w.Inv len accepted ∧ (i.Obliging → w.inner.Obliging) ∧ Q w

theorem Outcome.mono {i i' : AsyncSink} {Q : BytesWriter → Prop}
    {r : Poll (Except WriteError Unit) × BytesWriter} (h : Outcome len accepted i' Q r)
    (hi : i.Obliging → i'.Obliging) : Outcome len accepted i Q r := by
  match r, h with
  | (.pending, _), h => exact ⟨h.1, fun ho => h.2 (hi ho)⟩
  | (.ready (.error _), _), h => exact ⟨h.1, fun ho => h.2.1 (hi ho), h.2.2⟩
  | (.ready (.ok ()), _), h => exact ⟨h.1, fun ho => h.2.1 (hi ho), h.2.2⟩

theorem writeField_spec {buf : Bytes} {next : ℕ → BytesPacketPosition} {Q : BytesWriter → Prop}
    (h : w.Inv len accepted) (hbuf : buf ≠ []) (hpart : w.inner.written ≠ writeBytes accepted)
    (hnext : ∀ n i, 0 < n → n ≤ buf.length → i.written = w.inner.written ++ buf.take n →
      Inv len accepted { w with inner := i, state := next n } ∧
        Q { w with inner := i, state := next n }) :
    Outcome len accepted w.inner Q (w.writeField buf next) := by
  unfold writeField
  rcases w.inner.pollWrite_cases buf with
    ⟨i, hpoll, hi, hob⟩ | ⟨i, hpoll, hi, hob⟩ | ⟨n, i, hpoll, hi, hans, hn, hzero⟩
  · rw [hpoll]
    exact ⟨h.withInner hi, hob⟩
  · rw [hpoll]
    exact ⟨h.withInner hi, hob, .inl rfl⟩
  · rw [hpoll]
    cases n with
    | zero =>
      have hi : i.written = w.inner.written := by simpa using hi
      exact ⟨h.withInner hi, fun ho => hbuf (hzero rfl ho), .inr ⟨rfl, hi ▸ hpart⟩⟩
    | succ n =>
      obtain ⟨hinv, hq⟩ := hnext (n + 1) i n.succ_pos hn hi
      exact ⟨hinv, fun ho => ho.of_tick hans, hq⟩

theorem pollSize_spec {pos : ℕ} (h : w.Inv len accepted) (hst : w.state = .size pos) :
    Outcome len accepted w.inner
      (fun w' => (∃ pos', pos < pos' ∧ pos' < 8 ∧ w'.state = .size pos') ∨ w'.state = .payload 0)
      (w.pollSize pos) := by
  obtain rfl := h.payloadLen
  have hw := h.written
  rw [hst] at hw
  obtain ⟨hpos, hacc, hwr⟩ := hw
  have hlen : ((leBytes 8 w.payloadLen).drop pos).length = 8 - pos := by
    rw [List.length_drop, length_leBytes]
  unfold pollSize
  rw [if_neg (by omega)]
  apply writeField_spec h
  · apply List.ne_nil_of_length_pos
    omega
  · apply ne_of_apply_ne List.length
    rw [hwr, List.length_take, length_leBytes, length_writeBytes]
    omega
  · intro n i hn hle hi
    have hnew : i.written = (leBytes 8 w.payloadLen).take (pos + n) := by
      rw [hi, hwr]
      exact List.take_add.symm
    dsimp only
    split_ifs with height
    · refine ⟨⟨rfl, h.lt, by rw [hacc, List.length_nil], Nat.zero_le _, Eq.symm, ?_⟩, .inr rfl⟩
      rw [hnew, hacc, height, List.append_nil, List.take_of_length_le (by simp)]
    · exact ⟨⟨rfl, h.lt, by omega, hacc, hnew⟩, .inl ⟨_, by omega, by omega, rfl⟩⟩

theorem pollPayload_spec (checks : Bool) {buf : Bytes} {pos : ℕ} (h : w.Inv len accepted)
    (hst : w.state = .payload pos) (hfit : pos + buf.length < 2 ^ 64) :
    (∃ w', w.pollPayload checks buf pos = (.pending, w') ∧ w'.Inv len accepted ∧
        ¬ w.inner.Obliging ∧ accepted.length + buf.length ≤ len) ∨
      (∃ e w', w.pollPayload checks buf pos = (.ready (.error e), w') ∧ w'.Inv len accepted ∧
        (e = .invalidData ∧ len < accepted.length + buf.length ∨
          (e = .inner ∨ e = .writeZero) ∧ (w.inner.Obliging → buf = []))) ∨
      ∃ n w', w.pollPayload checks buf pos = (.ready (.ok n), w') ∧
        w'.Inv len (accepted ++ buf.take n) ∧ accepted.length + buf.length ≤ len ∧
        0 < n ∧ n ≤ buf.length := by
  obtain rfl := h.payloadLen
  have hw := h.written
  rw [hst] at hw
  obtain ⟨hpos, hle, hend, hwr⟩ := hw
  unfold pollPayload
  rw [show addU64 checks pos buf.length = some (pos + buf.length) from if_pos hfit]
  dsimp only
  split_ifs with hlong
  · exact .inr (.inl ⟨_, _, rfl, h, .inl ⟨rfl, hpos ▸ hlong⟩⟩)
  · have hroom : accepted.length + buf.length ≤ w.payloadLen := by omega
    rcases w.inner.pollWrite_cases buf with
      ⟨i, hpoll, hi, hob⟩ | ⟨i, hpoll, hi, hob⟩ | ⟨n, i, hpoll, hi, hans, hn, hzero⟩
    · rw [hpoll]
      exact .inl ⟨_, rfl, h.withInner hi, hob, hroom⟩
    · rw [hpoll]
      exact .inr (.inl ⟨_, _, rfl, h.withInner hi, .inr ⟨.inl rfl, fun ho => absurd ho hob⟩⟩)
    · rw [hpoll]
      cases n with
      | zero =>
        exact .inr (.inl ⟨_, _, rfl, h.withInner (by simpa using hi), .inr ⟨.inr rfl, hzero rfl⟩⟩)
      | succ n =>
        dsimp only
        rw [show addU64 checks pos (n + 1) = some (pos + (n + 1)) from if_pos (by omega)]
        refine .inr (.inr ⟨_, _, rfl, ⟨rfl, h.lt, ?_⟩, hroom, n.succ_pos, hn⟩)
        have hlen : (accepted ++ buf.take (n + 1)).length = pos + (n + 1) := by
          rw [List.length_append, List.length_take, Nat.min_eq_left hn, hpos]
        have hnew : i.written = leBytes 8 w.payloadLen ++ (accepted ++ buf.take (n + 1)) := by
          rw [hi, hwr, List.append_assoc]
        dsimp only
        split_ifs with hfull
        · refine ⟨hlen.trans hfull, Nat.zero_le _, ?_⟩
          rw [hnew, List.replicate_zero, List.append_nil]
        · exact ⟨hlen.symm, by omega, fun he => absurd he hfull, hnew⟩

/-- The bytes missing in the size field. -/
def sizeLeft (w : BytesWriter) : ℕ :=
  match w.state with
  | .size pos => 8 - pos
  | _ => 0

/-- Everything a write can do when the check against the declared length fits. -/
theorem writeLoop_spec (checks : Bool) (buf : Bytes) (fuel : ℕ) (h : w.Inv len accepted)
    (hfuel : w.sizeLeft < fuel) (hfit : ¬ w.Overflows buf) :
    (∃ w', w.writeLoop checks buf fuel = (.pending, w') ∧ w'.Inv len accepted ∧
        ¬ w.inner.Obliging) ∨
      (∃ e w', w.writeLoop checks buf fuel = (.ready (.error e), w') ∧ w'.Inv len accepted ∧
        (e = .invalidData ∧ len ≤ accepted.length + buf.length ∨
          (e = .inner ∨ e = .writeZero) ∧ (w.inner.Obliging → buf = []))) ∨
      ∃ n w', w.writeLoop checks buf fuel = (.ready (.ok n), w') ∧
        w'.Inv len (accepted ++ buf.take n) ∧ accepted.length + buf.length ≤ len ∧
        0 < n ∧ n ≤ buf.length := by
  induction fuel generalizing w with
  | zero => exact absurd hfuel (Nat.not_lt_zero _)
  | succ fuel ih =>
    unfold writeLoop
    unfold Overflows at hfit
    unfold sizeLeft at hfuel
    cases hst : w.state with
    | size pos =>
      rw [hst] at hfit hfuel
      dsimp only at hfit hfuel ⊢
      have hsize := pollSize_spec h hst
      generalize w.pollSize pos = r at hsize ⊢
      match r, hsize with
      | (.pending, w'), ⟨hinv, hob⟩ => exact .inl ⟨_, rfl, hinv, hob⟩
      | (.ready (.error e), w'), ⟨hinv, hob, he⟩ =>
        exact .inr (.inl ⟨_, _, rfl, hinv, .inr ⟨he.imp_right And.left, fun ho => absurd ho hob⟩⟩)
      | (.ready (.ok ()), w'), ⟨hinv, hob, hnext⟩ =>
        dsimp only
        have hpos := h.size_lt hst
        have hleft : w'.sizeLeft < fuel := by
          unfold sizeLeft
          rcases hnext with ⟨pos', hgt, hlt, hst'⟩ | hst' <;> rw [hst'] <;> dsimp only <;> omega
        have hfit' : ¬ w'.Overflows buf := by
          unfold Overflows
          rcases hnext with ⟨pos', -, -, hst'⟩ | hst' <;> rw [hst'] <;> dsimp only <;> omega
        have hrun := ih hinv hleft hfit'
        rcases hrun with ⟨w'', hrun, hinv', hob'⟩ | ⟨e, w'', hrun, hinv', he⟩ | hok
        · exact .inl ⟨w'', hrun, hinv', fun ho => hob' (hob ho)⟩
        · refine .inr (.inl ⟨e, w'', hrun, hinv', he.imp_right ?_⟩)
          exact fun ⟨he, hbuf⟩ => ⟨he, fun ho => hbuf (hob ho)⟩
        · exact .inr (.inr hok)
    | payload pos =>
      rw [hst] at hfit
      dsimp only at hfit ⊢
      rcases pollPayload_spec checks h hst (Nat.not_le.mp hfit) with
        ⟨w', hpoll, hinv, hob, -⟩ | ⟨e, w', hpoll, hinv, he⟩ | hok
      · exact .inl ⟨w', hpoll, hinv, hob⟩
      · exact .inr (.inl ⟨e, w', hpoll, hinv, he.imp_left fun ⟨he, hlt⟩ => ⟨he, hlt.le⟩⟩)
      · exact .inr (.inr hok)
    | padding pos =>
      have hlen := (hst ▸ h.written : Written len accepted w.inner.written (.padding pos)).1
      exact .inr (.inl ⟨_, _, rfl, h, .inl ⟨rfl, by omega⟩⟩)

theorem pollPadding_spec {pos : ℕ} (h : w.Inv len accepted) (hst : w.state = .padding pos)
    (hpad : pos ≠ paddingLenU64 w.payloadLen) :
    Outcome len accepted w.inner (fun w' => ∃ pos', pos < pos' ∧ pos' < 8 ∧ w'.state = .padding pos')
      (w.pollPadding pos) := by
  obtain rfl := h.payloadLen
  have hw := h.written
  rw [hst] at hw
  obtain ⟨hacc, hpos, hwr⟩ := hw
  have height : paddingLen w.payloadLen < 8 := Nat.mod_lt _ (by decide)
  rw [paddingLenU64_eq h.lt] at hpad
  unfold pollPadding
  rw [paddingLenU64_eq h.lt, if_neg (by omega)]
  apply writeField_spec h
  · apply List.ne_nil_of_length_pos
    rw [List.length_replicate]
    omega
  · apply ne_of_apply_ne List.length
    rw [hwr, length_writeBytes, hacc, paddingLenU64_eq h.lt]
    simp only [List.length_append, length_leBytes, List.length_replicate]
    omega
  · intro n i hn hle hi
    rw [List.length_replicate] at hle
    refine ⟨⟨rfl, h.lt, hacc, by omega, ?_⟩, pos + n, by omega, by omega, rfl⟩
    rw [hi, hwr, List.append_assoc, List.take_replicate, Nat.min_eq_left hle,
      List.replicate_append_replicate]

/-- The rounds that a flush may still take. -/
def rounds (w : BytesWriter) : ℕ :=
  match w.state with
  | .size pos => 8 - pos + 9
  | .payload _ => 9
  | .padding pos => 8 - pos

/-- The packet has no more to be written without more payload. -/
def Settled (w : BytesWriter) : Prop :=
  w.atEnd = true ∨ ∃ pos, w.state = .payload pos ∧ w.payloadLen ≠ 0

theorem flushInner_spec (h : w.Inv len accepted) (hset : w.Settled) :
    Outcome len accepted w.inner Settled w.flushInner := by
  unfold flushInner AsyncSink.pollFlush
  rcases w.inner.pollDone_cases with ⟨i, hpoll, hi, hob⟩ | ⟨i, hpoll, hi, hob⟩ | ⟨i, hpoll, hi, hans⟩
  · rw [hpoll]
    exact ⟨h.withInner hi, hob⟩
  · rw [hpoll]
    exact ⟨h.withInner hi, hob, .inl rfl⟩
  · rw [hpoll]
    exact ⟨h.withInner hi, fun ho => ho.of_tick hans, hset⟩

/-- Everything a flush can do. -/
theorem flushLoop_spec (fuel : ℕ) (h : w.Inv len accepted) (hfuel : w.rounds < fuel) :
    Outcome len accepted w.inner Settled (w.flushLoop fuel) := by
  induction fuel generalizing w with
  | zero => exact absurd hfuel (Nat.not_lt_zero _)
  | succ fuel ih =>
    unfold flushLoop
    unfold rounds at hfuel
    cases hst : w.state with
    | size pos =>
      rw [hst] at hfuel
      dsimp only at hfuel ⊢
      have hsize := pollSize_spec h hst
      generalize w.pollSize pos = r at hsize ⊢
      match r, hsize with
      | (.pending, w'), hsize => exact hsize
      | (.ready (.error e), w'), hsize => exact hsize
      | (.ready (.ok ()), w'), ⟨hinv, hob, hnext⟩ =>
        refine (ih hinv ?_).mono hob
        have hpos := h.size_lt hst
        unfold rounds
        rcases hnext with ⟨pos', hgt, hlt, hst'⟩ | hst' <;> rw [hst'] <;> dsimp only <;> omega
    | payload pos =>
      rw [hst] at hfuel
      dsimp only at hfuel ⊢
      have hw := h.written
      rw [hst] at hw
      split_ifs with hzero
      · -- an empty payload is complete
        have hzero' : len = 0 := h.payloadLen ▸ hzero
        have hacc : accepted = [] := List.length_eq_zero_iff.mp (by have := h.length_le; omega)
        refine @ih { w with state := .padding 0 } ⟨h.payloadLen, h.lt, ?_⟩ ?_
        · refine ⟨by rw [hacc, hzero', List.length_nil], Nat.zero_le _, ?_⟩
          rw [hw.2.2.2, List.replicate_zero, List.append_nil]
        · unfold rounds
          dsimp only
          omega
      · exact flushInner_spec h (.inr ⟨pos, hst, hzero⟩)
    | padding pos =>
      rw [hst] at hfuel
      dsimp only at hfuel ⊢
      split_ifs with hpad
      · apply flushInner_spec h
        left
        unfold atEnd
        rw [hst, hpad, decide_eq_true rfl]
      · have hpadding := pollPadding_spec h hst hpad
        generalize w.pollPadding pos = r at hpadding ⊢
        match r, hpadding with
        | (.pending, w'), hpadding => exact hpadding
        | (.ready (.error e), w'), hpadding => exact hpadding
        | (.ready (.ok ()), w'), ⟨hinv, hob, pos', hgt, hlt, hst'⟩ =>
          refine (ih hinv ?_).mono hob
          unfold rounds
          rw [hst']
          dsimp only
          omega

theorem rounds_lt (w : BytesWriter) : w.rounds < 18 := by
  unfold rounds
  cases w.state <;> dsimp only <;> omega

theorem pollFlush_spec (h : w.Inv len accepted) :
    Outcome len accepted w.inner Settled w.pollFlush :=
  flushLoop_spec 18 h w.rounds_lt

theorem sizeLeft_lt (w : BytesWriter) : w.sizeLeft < 9 := by
  unfold sizeLeft
  cases w.state <;> dsimp only <;> omega

theorem Inv.written_of_atEnd (h : w.Inv len accepted) (hend : w.atEnd = true) :
    accepted.length = len ∧ w.inner.written = writeBytes accepted := by
  have hw := h.written
  rw [of_decide_eq_true hend, h.payloadLen] at hw
  obtain ⟨hacc, -, hwr⟩ := hw
  refine ⟨hacc, ?_⟩
  rw [hwr, writeBytes, hacc]

theorem Inv.atEnd_of_settled (h : w.Inv len accepted) (hset : w.Settled)
    (hacc : accepted.length = len) : w.atEnd = true := by
  rcases hset with hend | ⟨pos, hst, hzero⟩
  · exact hend
  · have hw := h.written
    rw [hst] at hw
    obtain ⟨hpos, -, hfull, -⟩ := hw
    exact absurd (h.payloadLen.trans (hfull (hpos.trans hacc))) hzero

/-- Everything a shutdown can do. -/
theorem pollShutdown_spec (h : w.Inv len accepted) :
    (∃ w', w.pollShutdown = (.pending, w') ∧ w'.Inv len accepted ∧ ¬ w.inner.Obliging) ∨
      (∃ e w', w.pollShutdown = (.ready (.error e), w') ∧ w'.Inv len accepted ∧
        (e = .brokenPipe ∧ accepted.length < len ∨
          ¬ w.inner.Obliging ∧
            (e = .inner ∨ e = .writeZero ∧ w'.inner.written ≠ writeBytes accepted))) ∨
      ∃ w', w.pollShutdown = (.ready (.ok ()), w') ∧ w'.Inv len accepted ∧
        accepted.length = len ∧ w'.inner.written = writeBytes accepted := by
  have hflush := pollFlush_spec h
  unfold pollShutdown
  generalize w.pollFlush = r at hflush ⊢
  match r, hflush with
  | (.pending, w'), ⟨hinv, hob⟩ => exact .inl ⟨w', rfl, hinv, hob⟩
  | (.ready (.error e), w'), ⟨hinv, hob, he⟩ =>
    exact .inr (.inl ⟨e, w', rfl, hinv, .inr ⟨hob, he⟩⟩)
  | (.ready (.ok ()), w'), ⟨hinv, hob, hset⟩ =>
    dsimp only
    unfold AsyncSink.pollShutdown
    rcases w'.inner.pollDone_cases with
      ⟨i, hpoll, hi, hob'⟩ | ⟨i, hpoll, hi, hob'⟩ | ⟨i, hpoll, hi, -⟩
    · rw [hpoll]
      exact .inl ⟨_, rfl, hinv.withInner hi, fun ho => hob' (hob ho)⟩
    · rw [hpoll]
      exact .inr (.inl ⟨_, _, rfl, hinv.withInner hi, .inr ⟨fun ho => hob' (hob ho), .inl rfl⟩⟩)
    · rw [hpoll]
      dsimp only
      cases hend : w'.atEnd with
      | true =>
        obtain ⟨hacc, hwr⟩ := hinv.written_of_atEnd hend
        exact .inr (.inr ⟨_, rfl, hinv.withInner hi, hacc, hi.trans hwr⟩)
      | false =>
        refine .inr (.inl ⟨_, _, rfl, hinv.withInner hi, .inl ⟨rfl, ?_⟩⟩)
        apply lt_of_le_of_ne hinv.length_le
        intro hacc
        rw [hinv.atEnd_of_settled hset hacc] at hend
        cases hend

/-- What is written is the beginning of the packet of every payload that goes on as accepted. -/
theorem Inv.isPrefix (h : w.Inv len accepted) {payload : Bytes} (hlen : payload.length = len)
    (hacc : accepted <+: payload) : w.inner.written <+: writeBytes payload := by
  have hw := h.written
  unfold writeBytes
  rw [hlen, paddingLenU64_eq h.lt]
  cases hst : w.state with
  | size pos =>
    rw [hst] at hw
    rw [hw.2.2, List.append_assoc]
    exact (List.take_prefix _ _).trans (List.prefix_append _ _)
  | payload pos =>
    rw [hst] at hw
    rw [hw.2.2.2]
    exact ((List.prefix_append_right_inj _).mpr hacc).trans (List.prefix_append _ _)
  | padding pos =>
    rw [hst] at hw
    obtain ⟨hfull, hpos, hwr⟩ := hw
    rw [hwr, hacc.eq_of_length (hfull.trans hlen.symm)]
    apply (List.prefix_append_right_inj _).mpr
    exact ⟨_, by rw [List.replicate_append_replicate, Nat.add_sub_cancel' hpos]⟩

/-- Nothing of the accepted payload is missing, doubled or out of place. -/
theorem Inv.payload_written (h : w.Inv len accepted) :
    (w.inner.written.drop 8).take len = accepted := by
  have hle := h.length_le
  have hw := h.written
  have hsize := length_leBytes 8 len
  cases hst : w.state with
  | size pos =>
    rw [hst] at hw
    rw [hw.2.2, hw.2.1, List.drop_eq_nil_of_le (by rw [List.length_take]; omega), List.take_nil]
  | payload pos =>
    rw [hst] at hw
    rw [hw.2.2.2, List.drop_left' hsize, List.take_of_length_le hle]
  | padding pos =>
    rw [hst] at hw
    rw [hw.2.2, List.append_assoc, List.drop_left' hsize, List.take_left' hw.1]

end BytesWriter

-- ====================
-- What a client sees
-- ====================

namespace WriteSession

/-- The bytes that went to the underlying writer. -/
def emitted (s : WriteSession) : Bytes := s.writer.inner.written

/-- What a client of a writer for `len` bytes is promised about its next write. -/
structure WriteConforms (checks : Bool) (len : ℕ) (s : WriteSession) (buf : Bytes) : Prop where
  no_panic : (s.writer.pollWrite checks buf).1 ≠ .ready (.error .panic)
  /-- A write beyond the declared length is not accepted. -/
  room : ∀ n, (s.writer.pollWrite checks buf).1 = .ready (.ok n) →
    s.accepted.length + buf.length ≤ len ∧ n ≤ buf.length
  rejects : s.writer.inner.Obliging → len < s.accepted.length + buf.length →
    (s.writer.pollWrite checks buf).1 = .ready (.error .invalidData)

/-- What a client of a writer for `len` bytes is promised in every state; `Allowed` are the
    buffers that it may offer next. -/
structure Conforms (checks : Bool) (len : ℕ) (Allowed : Bytes → Prop) (s : WriteSession) :
    Prop where
  length_le : s.accepted.length ≤ len
  emitted_prefix : ∀ payload : Bytes, payload.length = len → s.accepted <+: payload →
    s.emitted <+: writeBytes payload
  payload_emitted : (s.emitted.drop 8).take len = s.accepted
  write : ∀ buf, Allowed buf → s.WriteConforms checks len buf
  flush_no_panic : s.writer.pollFlush.1 ≠ .ready (.error .panic)
  shutdown_no_panic : s.writer.pollShutdown.1 ≠ .ready (.error .panic)
  /-- A shutdown succeeds only when the whole packet is emitted. -/
  shutdown_ok : s.writer.pollShutdown.1 = .ready (.ok ()) →
    s.accepted.length = len ∧ (s.step checks .shutdown).emitted = writeBytes s.accepted
  /-- When the whole packet is emitted, only the underlying writer keeps a shutdown from
      success. -/
  shutdown_whole : s.accepted.length = len →
    (s.step checks .shutdown).emitted = writeBytes s.accepted →
    s.writer.pollShutdown.1 = .ready (.ok ()) ∨ s.writer.pollShutdown.1 = .pending ∨
      s.writer.pollShutdown.1 = .ready (.error .inner)
  shutdown_complete : s.writer.inner.Obliging → s.accepted.length = len →
    s.writer.pollShutdown.1 = .ready (.ok ())

variable {checks : Bool} {len : ℕ} {s : WriteSession}

/-- The invariant of a session. -/
def Inv (len : ℕ) (s : WriteSession) : Prop := s.writer.Inv len s.accepted

theorem Inv.writeConforms (h : s.Inv len) {buf : Bytes} (hfit : ¬ s.writer.Overflows buf) :
    s.WriteConforms checks len buf := by
  have hle := BytesWriter.Inv.length_le h
  rcases BytesWriter.writeLoop_spec checks buf 9 h s.writer.sizeLeft_lt hfit with
    ⟨w', hrun, hinv, hob⟩ | ⟨e, w', hrun, hinv, he⟩ | ⟨n, w', hrun, hinv, hroom, hpos, hn⟩
  · have hres : (s.writer.pollWrite checks buf).1 = .pending := congrArg Prod.fst hrun
    constructor <;> rw [hres]
    · exact nofun
    · exact nofun
    · exact fun ho => absurd ho hob
  · have hres : (s.writer.pollWrite checks buf).1 = .ready (.error e) := congrArg Prod.fst hrun
    constructor <;> rw [hres]
    · rcases he with ⟨rfl, -⟩ | ⟨rfl | rfl, -⟩ <;> exact nofun
    · exact nofun
    · intro ho hlong
      rcases he with ⟨rfl, -⟩ | ⟨-, hbuf⟩
      · rfl
      · rw [hbuf ho, List.length_nil] at hlong
        omega
  · have hres : (s.writer.pollWrite checks buf).1 = .ready (.ok n) := congrArg Prod.fst hrun
    constructor <;> rw [hres]
    · exact nofun
    · intro n' hn'
      cases hn'
      exact ⟨hroom, hn⟩
    · intro _ hlong
      omega

theorem Inv.flush_no_panic (h : s.Inv len) :
    s.writer.pollFlush.1 ≠ .ready (.error .panic) := by
  have hflush := BytesWriter.pollFlush_spec h
  intro hpanic
  generalize s.writer.pollFlush = r at hflush hpanic
  match r, hflush, hpanic with
  | (.ready (.error e), w'), ⟨_, _, he⟩, hpanic =>
    cases hpanic
    rcases he with he | ⟨he, -⟩ <;> cases he

theorem Inv.shutdown_no_panic (h : s.Inv len) :
    s.writer.pollShutdown.1 ≠ .ready (.error .panic) := by
  rcases BytesWriter.pollShutdown_spec h with
    ⟨w', hrun, -⟩ | ⟨e, w', hrun, -, he⟩ | ⟨w', hrun, -⟩
  · rw [hrun]
    exact nofun
  · rw [hrun]
    rcases he with ⟨rfl, -⟩ | ⟨-, rfl | ⟨rfl, -⟩⟩ <;> exact nofun
  · rw [hrun]
    exact nofun

theorem Inv.shutdown_ok (h : s.Inv len) (hok : s.writer.pollShutdown.1 = .ready (.ok ())) :
    s.accepted.length = len ∧ s.writer.pollShutdown.2.inner.written = writeBytes s.accepted := by
  rcases BytesWriter.pollShutdown_spec h with
    ⟨w', hrun, -⟩ | ⟨e, w', hrun, -⟩ | ⟨w', hrun, -, hwhole⟩
  · rw [hrun] at hok
    cases hok
  · rw [hrun] at hok
    cases hok
  · rw [hrun]
    exact hwhole

theorem Inv.shutdown_whole (h : s.Inv len) (hacc : s.accepted.length = len)
    (hwhole : s.writer.pollShutdown.2.inner.written = writeBytes s.accepted) :
    s.writer.pollShutdown.1 = .ready (.ok ()) ∨ s.writer.pollShutdown.1 = .pending ∨
      s.writer.pollShutdown.1 = .ready (.error .inner) := by
  rcases BytesWriter.pollShutdown_spec h with
    ⟨w', hrun, -⟩ | ⟨e, w', hrun, -, he⟩ | ⟨w', hrun, -⟩
  · exact .inr (.inl (by rw [hrun]))
  · rw [hrun] at hwhole
    rcases he with ⟨-, hlt⟩ | ⟨-, rfl | ⟨-, hpart⟩⟩
    · omega
    · exact .inr (.inr (by rw [hrun]))
    · exact absurd hwhole hpart
  · exact .inl (by rw [hrun])

theorem Inv.shutdown_complete (h : s.Inv len) (hob : s.writer.inner.Obliging)
    (hacc : s.accepted.length = len) : s.writer.pollShutdown.1 = .ready (.ok ()) := by
  rcases BytesWriter.pollShutdown_spec h with
    ⟨w', -, -, hnot⟩ | ⟨e, w', -, -, ⟨-, hlt⟩ | ⟨hnot, -⟩⟩ | ⟨w', hrun, -⟩
  · exact absurd hob hnot
  · omega
  · exact absurd hob hnot
  · rw [hrun]

theorem Inv.conforms (h : s.Inv len) :
    s.Conforms checks len fun buf => ¬ s.writer.Overflows buf where
  length_le := h.length_le
  emitted_prefix := fun _ => h.isPrefix
  payload_emitted := h.payload_written
  write := fun _ => h.writeConforms
  flush_no_panic := h.flush_no_panic
  shutdown_no_panic := h.shutdown_no_panic
  shutdown_ok := h.shutdown_ok
  shutdown_whole := h.shutdown_whole
  shutdown_complete := h.shutdown_complete

theorem Inv.step (h : s.Inv len) {op : WriteOp}
    (hfit : ∀ buf, op = .write buf → ¬ s.writer.Overflows buf) : (s.step checks op).Inv len := by
  unfold Inv WriteSession.step
  cases op with
  | write buf =>
    dsimp only
    unfold BytesWriter.pollWrite
    rcases BytesWriter.writeLoop_spec checks buf 9 h s.writer.sizeLeft_lt (hfit buf rfl) with
      ⟨w', hrun, hinv, -⟩ | ⟨e, w', hrun, hinv, -⟩ | ⟨n, w', hrun, hinv, -⟩ <;> rw [hrun] <;>
        exact hinv
  | flush =>
    have hflush := BytesWriter.pollFlush_spec h
    dsimp only
    generalize s.writer.pollFlush = r at hflush ⊢
    match r, hflush with
    | (.pending, w'), hflush => exact hflush.1
    | (.ready (.error e), w'), hflush => exact hflush.1
    | (.ready (.ok ()), w'), hflush => exact hflush.1
  | shutdown =>
    dsimp only
    rcases BytesWriter.pollShutdown_spec h with
      ⟨w', hrun, hinv, -⟩ | ⟨e, w', hrun, hinv, -⟩ | ⟨w', hrun, hinv, -⟩ <;> rw [hrun] <;>
        exact hinv

theorem Inv.run {ops : List WriteOp} (h : s.Inv len) (hfits : s.Fits checks ops) :
    (s.run checks ops).Inv len := by
  induction ops generalizing s with
  | nil => exact h
  | cons op ops ih => exact ih (h.step hfits.1) hfits.2

theorem inv_start (hlen : len < 2 ^ 64) (answers : ℕ → SinkAnswer) : (start len answers).Inv len :=
  ⟨rfl, hlen, by decide, rfl, rfl⟩

end WriteSession

/-- As long as no write lets the check against the declared length overflow, the writer emits
    the beginning of the packet, loses nothing of the payload, rejects what is too much and
    shuts down cleanly exactly at the end of the packet. -/
theorem emits_packet (checks : Bool) {len : ℕ} (hlen : len < 2 ^ 64) (answers : ℕ → SinkAnswer)
    (ops : List WriteOp) (hfits : (WriteSession.start len answers).Fits checks ops) :
    ((WriteSession.start len answers).run checks ops).Conforms checks len fun buf =>
      ¬ ((WriteSession.start len answers).run checks ops).writer.Overflows buf :=
  ((WriteSession.inv_start hlen answers).run hfits).conforms

/-- A packet with two bytes, written in two parts. -/
theorem emits_packet_two :
    (WriteSession.start 2 fun _ => .accept 8).Fits true [.write [1], .flush, .write [2]] ∧
      ((WriteSession.start 2 fun _ => .accept 8).run true [.write [1], .flush, .write [2]]).accepted =
        [1, 2] ∧
      ((WriteSession.start 2 fun _ => .accept 8).run true [.write [1], .flush, .write [2]]).Conforms
        true 2 fun buf =>
          ¬ ((WriteSession.start 2 fun _ => .accept 8).run true
            [.write [1], .flush, .write [2]]).writer.Overflows buf := by
  have hfits : (WriteSession.start 2 fun _ => .accept 8).Fits true
      [.write [1], .flush, .write [2]] := by
    refine ⟨?_, nofun, ?_, trivial⟩
    · rintro buf ⟨⟩
      show ¬ 2 ^ 64 ≤ 1
      decide
    · rintro buf ⟨⟩
      show ¬ 2 ^ 64 ≤ 1 + 1
      decide
  exact ⟨hfits, by decide, emits_packet true (by decide) _ _ hfits⟩

section Overflow

open BytesWriter

/-- A sink that takes all it is offered. -/
def generous (written : Bytes) : AsyncSink := ⟨written, fun _ => .accept (2 ^ 64)⟩

theorem pollWrite_generous (written : Bytes) {buf : Bytes} (h : buf.length ≤ 2 ^ 64) :
    (generous written).pollWrite buf = (.ready (.ok buf.length), generous (written ++ buf)) := by
  simp only [generous, AsyncSink.pollWrite, AsyncSink.tick, Nat.min_eq_right h,
    List.take_of_length_le h]

theorem pollPayload_generous {checks : Bool} {len pos sum n : ℕ} {written buf : Bytes}
    (hlen : buf.length = n + 1) (hfit : n + 1 ≤ 2 ^ 64)
    (hsum : addU64 checks pos (n + 1) = some sum) (hle : sum ≤ len) (st : BytesPacketPosition) :
    BytesWriter.pollPayload checks buf pos ⟨generous written, len, st⟩ =
      (.ready (.ok (n + 1)), ⟨generous (written ++ buf), len,
        if sum = len then .padding 0 else .payload sum⟩) := by
  unfold pollPayload
  rw [hlen, hsum]
  dsimp only
  rw [if_neg (by omega), pollWrite_generous written (by omega), hlen]
  dsimp only
  rw [hsum]

theorem writeLoop_generous (checks : Bool) (buf : Bytes) (len : ℕ) :
    pollWrite checks buf ⟨generous [], len, .size 0⟩ =
      pollPayload checks buf 0 ⟨generous (leBytes 8 len), len, .payload 0⟩ := by
  have hsize : pollSize 0 ⟨generous [], len, .size 0⟩ =
      (.ready (.ok ()), ⟨generous (leBytes 8 len), len, .payload 0⟩) := by
    unfold pollSize writeField
    rw [if_neg (by decide)]
    dsimp only
    rw [List.drop_zero, pollWrite_generous [] (by rw [length_leBytes]; decide), length_leBytes,
      List.nil_append]
    rfl
  unfold pollWrite writeLoop
  dsimp only
  rw [hsize]
  rfl

theorem WriteSession.step_write {checks : Bool} {s : WriteSession} {buf : Bytes} {n : ℕ}
    {w : BytesWriter} (h : s.writer.pollWrite checks buf = (.ready (.ok n), w)) :
    s.step checks (.write buf) = ⟨w, s.accepted ++ buf.take n⟩ := by
  unfold step
  dsimp only
  rw [h]

theorem run_generous (checks : Bool) {len n : ℕ} {a : Bytes} (ha : a.length = n + 1)
    (hlt : n + 1 + (n + 1) < len) (hlen : len < 2 ^ 64) :
    (WriteSession.start len fun _ => .accept (2 ^ 64)).run checks [.write a, .write a] =
      ⟨⟨generous (leBytes 8 len ++ a ++ a), len, .payload (n + 1 + (n + 1))⟩, a ++ a⟩ := by
  have htake : a.take (n + 1) = a := List.take_of_length_le ha.le
  have hfirst : pollWrite checks a ⟨generous [], len, .size 0⟩ =
      (.ready (.ok (n + 1)), ⟨generous (leBytes 8 len ++ a), len, .payload (n + 1)⟩) := by
    rw [writeLoop_generous, pollPayload_generous ha (by omega) (if_pos (by omega)) (by omega),
      if_neg (by omega), Nat.zero_add]
  have hsecond : pollWrite checks a ⟨generous (leBytes 8 len ++ a), len, .payload (n + 1)⟩ =
      (.ready (.ok (n + 1)),
        ⟨generous (leBytes 8 len ++ a ++ a), len, .payload (n + 1 + (n + 1))⟩) := by
    show pollPayload checks a (n + 1) _ = _
    rw [pollPayload_generous ha (by omega) (if_pos (by omega)) (by omega), if_neg (by omega)]
  have hstep : (WriteSession.start len fun _ => .accept (2 ^ 64)).step checks (.write a) =
      ⟨⟨generous (leBytes 8 len ++ a), len, .payload (n + 1)⟩, a⟩ := by
    rw [WriteSession.step_write hfirst, htake]
    rfl
  show ((WriteSession.start _ _).step checks (.write a)).step checks (.write a) = _
  rw [hstep, WriteSession.step_write hsecond, htake]

/-- Two writes that leave room for one byte of the longest possible payload. -/
def almostFull (checks : Bool) : WriteSession :=
  (WriteSession.start (2 ^ 64 - 1) fun _ => .accept (2 ^ 64)).run checks
    [.write (List.replicate (2 ^ 63 - 1) 0), .write (List.replicate (2 ^ 63 - 1) 0)]

/-- The check against the declared length overflows: with overflow checks the writer panics,
    without them it takes more than it was promised. -/
theorem emits_packet_overflow :
    ((almostFull true).writer.pollWrite true [0, 0]).1 = .ready (.error .panic) ∧
      ((almostFull false).writer.pollWrite false [0, 0]).1 = .ready (.ok 2) ∧
      ((almostFull false).step false (.write [0, 0])).accepted.length = 2 ^ 64 ∧
      ∀ checks, ¬ (almostFull checks).Conforms checks (2 ^ 64 - 1) fun _ => True := by
  obtain ⟨n, hn⟩ : ∃ n, n + 1 = 2 ^ 63 - 1 := ⟨2 ^ 63 - 2, by omega⟩
  have hlen := (@List.length_replicate UInt8 (2 ^ 63 - 1) 0).trans hn.symm
  have hrun : ∀ checks, almostFull checks = _ := fun checks =>
    run_generous checks hlen (by omega) (by omega)
  generalize List.replicate (2 ^ 63 - 1) (0 : UInt8) = a at hlen hrun
  have hpanic : ((almostFull true).writer.pollWrite true [0, 0]).1 = .ready (.error .panic) := by
    rw [hrun]
    show (pollPayload true [0, 0] (n + 1 + (n + 1)) _).1 = _
    unfold pollPayload
    rw [show addU64 true (n + 1 + (n + 1)) [(0 : UInt8), 0].length = none by
      unfold addU64
      rw [if_neg (by simp only [List.length_cons, List.length_nil]; omega), if_pos rfl]]
  obtain ⟨w, hok⟩ : ∃ w, (almostFull false).writer.pollWrite false [0, 0] =
      (.ready (.ok 2), w) := by
    rw [hrun]
    refine ⟨_, pollPayload_generous rfl (by omega) ?_ (Nat.zero_le _) _⟩
    unfold addU64
    rw [if_neg (by omega)]
    simp only [Bool.false_eq_true, if_false, Option.some.injEq]
    omega
  have hacc : ((almostFull false).step false (.write [0, 0])).accepted.length = 2 ^ 64 := by
    rw [WriteSession.step_write hok, hrun]
    simp only [List.length_append, hlen, List.take, List.length_cons, List.length_nil]
    omega
  refine ⟨hpanic, congrArg Prod.fst hok, hacc, fun checks hconf => ?_⟩
  cases checks with
  | true => exact (hconf.write [0, 0] trivial).no_panic hpanic
  | false =>
    have hroom := ((hconf.write [0, 0] trivial).room 2 (congrArg Prod.fst hok)).1
    rw [hrun] at hroom
    simp only [List.length_append, hlen, List.length_cons, List.length_nil] at hroom
    omega

end Overflow

end Snix.Wire
