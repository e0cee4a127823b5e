import Snix.Lib.Await
import Snix.Lib.BytesMut
import Snix.NixCompat.Wire.BytesReader

/-!
# Writing the daemon protocol

Everything in the protocol is made of numbers and of byte strings. `NixWriter` collects
them in a buffer, which is written to the underlying sink when there is too little room
for what comes next. What is larger than the whole buffer is handed to the sink directly,
after the buffer is empty.

A byte string is written as a slice, or as the text a value is displayed as; the text
is put into the buffer with a length that is filled in afterwards.

## Main definitions

- `NixWriter` — the writer, with its operations
- `Item` — what is written, and `Item.encode`, its bytes
- `NixWriter.writeItems`, `NixWriter.flush` — writing a sequence, and emptying the buffer

## Main results

- `NixWriter.spec_write` — a write puts bytes behind those that were written
- `NixWriter.returns_writeItems`, `NixWriter.returns_flush` — the sink gets the encodings in order
-/

namespace Snix.Wire

structure NixWriter where
  inner : AsyncSink
  buf : BytesMut
  reservedBufSize : ℕ

/-- What a value is written as. -/
inductive Item where
  | number (value : ℕ)
  | slice (buf : Bytes)
  /-- The text a value is displayed as. -/
  | display (msg : Bytes)
  deriving DecidableEq, Repr

/-- The bytes of a byte string: its length, and the string padded to whole words. -/
def encodeBytes (x : Bytes) : Bytes :=
  leBytes 8 x.length ++ x ++ List.replicate (paddingLen x.length) 0

/-- The bytes of what is written. -/
def Item.encode : Item → Bytes
  | .number value => leBytes 8 value
  | .slice buf => encodeBytes buf
  | .display msg => encodeBytes msg

/-- The bytes of a sequence. -/
def encodeItems (items : List Item) : Bytes := items.flatMap Item.encode

theorem encodeItems_append (xs ys : List Item) :
    encodeItems (xs ++ ys) = encodeItems xs ++ encodeItems ys :=
  List.flatMap_append

namespace NixWriter

/-- Writes the buffer to the sink. Each round that does not end the loop empties some of
    the buffer, so that its length is enough `fuel`. -/
def pollFlushBuf : ℕ → NixWriter → Poll (Except WriteError Unit) × NixWriter
  | 0, w => (.ready (.ok ()), w)
  | fuel + 1, w =>
    if w.buf.data = [] then (.ready (.ok ()), w)
    else match w.inner.pollWrite w.buf.data with
      | (.pending, i) => (.pending, { w with inner := i })
      | (.ready (.error e), i) => (.ready (.error e), { w with inner := i })
      | (.ready (.ok 0), i) => (.ready (.error .writeZero), { w with inner := i })
      | (.ready (.ok (n + 1)), i) =>
        pollFlushBuf fuel { w with inner := i, buf := w.buf.advance (n + 1) }

/-- Offers bytes; returns how many of them were taken. -/
def pollWrite (buf : Bytes) (w : NixWriter) : Poll (Except WriteError ℕ) × NixWriter :=
  let flushed :=
    if w.buf.remainingMut < buf.length then w.pollFlushBuf w.buf.data.length
    else (.ready (.ok ()), w)
  match flushed with
  | (.pending, w) => (.pending, w)
  | (.ready (.error e), w) => (.ready (.error e), w)
  | (.ready (.ok ()), w) =>
    if w.buf.capacity < buf.length then
      match w.inner.pollWrite buf with
      | (res, i) => (res, { w with inner := i })
    else (.ready (.ok buf.length), { w with buf := w.buf.putSlice buf })

def flushBuf (k : ℕ) : Prog WriteError NixWriter Unit :=
  await (fun w => w.pollFlushBuf w.buf.data.length) k

def write (k : ℕ) (buf : Bytes) : Prog WriteError NixWriter ℕ := await (pollWrite buf) k

def writeAll (k : ℕ) (buf : Bytes) : Prog WriteError NixWriter Unit := Write.all write k buf

/-- Empties the buffer, and flushes the sink. -/
def pollFlush (w : NixWriter) : Poll (Except WriteError Unit) × NixWriter :=
  match w.pollFlushBuf w.buf.data.length with
  | (.pending, w) => (.pending, w)
  | (.ready (.error e), w) => (.ready (.error e), w)
  | (.ready (.ok ()), w) =>
    match w.inner.pollFlush with
    | (res, i) => (res, { w with inner := i })

def flush (k : ℕ) : Prog WriteError NixWriter Unit := await pollFlush k

def writeNumber (k : ℕ) (value : ℕ) : Prog WriteError NixWriter Unit := writeAll k (leBytes 8 value)

def writeSlice (k : ℕ) (buf : Bytes) : Prog WriteError NixWriter Unit := do
  let padding := paddingLen buf.length
  writeNumber k buf.length
  writeAll k buf
  if 0 < padding then writeAll k (List.replicate padding 0)
  else pure ()

/-- Puts a text into the buffer, behind the place for its length, and then the length into
    this place. -/
def putDisplay (msg : Bytes) (w : NixWriter) : NixWriter :=
  let offset := w.buf.data.length
  let buf := (w.buf.putSlice (leBytes 8 0)).putSlice msg
  { w with buf := buf.patch offset (leBytes 8 (buf.data.length - offset - 8)) }

def writeDisplay (k : ℕ) (msg : Bytes) : Prog WriteError NixWriter Unit := do
  fun w =>
    if w.buf.remainingMut < w.reservedBufSize ∧ w.buf.data ≠ [] then (flushBuf k).run w
    else some (.ok ((), w))
  fun w => some (.ok ((), w.putDisplay msg))
  writeAll k (List.replicate (paddingLen msg.length) 0)

def writeItem (k : ℕ) : Item → Prog WriteError NixWriter Unit
  | .number value => writeNumber k value
  | .slice buf => writeSlice k buf
  | .display msg => writeDisplay k msg

def writeItems (k : ℕ) : List Item → Prog WriteError NixWriter Unit
  | [] => pure ()
  | item :: items => do
    writeItem k item
    writeItems k items

/-- Everything that was written: the bytes the sink has, and those in the buffer. The sink
    becomes ready again, does not fail, and takes some of what it is offered. -/
def view : OutView NixWriter := ⟨fun w => w.inner.written ++ w.buf.data, fun w => w.inner.Steady⟩

-- ====================
-- Polls
-- ====================

/-- A poll that is not ready has emptied some of the buffer, or the sink has one answer
    less to give until it is ready. -/
def Delayed (w' w : NixWriter) : Prop :=
  Prod.Lex (· < ·) (· < ·) (w'.buf.data.length, w'.inner.wait) (w.buf.data.length, w.inner.wait)

theorem wellFounded_delayed : WellFounded Delayed :=
  InvImage.wf (fun w : NixWriter => (w.buf.data.length, w.inner.wait))
    (WellFounded.prod_lex Nat.lt_wfRel.wf Nat.lt_wfRel.wf)

theorem Delayed.of_shorter {w' w : NixWriter} (h : w'.buf.data.length < w.buf.data.length) :
    Delayed w' w :=
  .left _ _ h

theorem Delayed.of_tick {w : NixWriter} (hs : w.inner.Steady) (h : w.inner.answers 0 = .pending) :
    Delayed { w with inner := w.inner.tick } w :=
  .right _ (AsyncSink.wait_tick_lt hs h)

theorem Delayed.length_le {w' w : NixWriter} (h : Delayed w' w) :
    w'.buf.data.length ≤ w.buf.data.length := by
  rcases Prod.lex_def.mp h with hlt | ⟨heq, -⟩
  · exact hlt.le
  · exact heq.le

/-- Everything the loop that empties the buffer can do. -/
theorem pollFlushBuf_cases {fuel : ℕ} {w : NixWriter} (hfuel : w.buf.data.length ≤ fuel)
    (hs : w.inner.Steady) :
    (∃ w', w.pollFlushBuf fuel = (.pending, w') ∧ w'.inner.Steady ∧ view.out w' = view.out w ∧
        Delayed w' w) ∨
      ∃ w', w.pollFlushBuf fuel = (.ready (.ok ()), w') ∧ w'.inner.Steady ∧
        view.out w' = view.out w ∧ w'.buf.data = [] ∧
        (w' = w ∨ w'.buf.data.length < w.buf.data.length) := by
  induction fuel generalizing w with
  | zero =>
    have hnil : w.buf.data = [] := List.length_eq_zero_iff.mp (Nat.le_zero.mp hfuel)
    exact .inr ⟨w, rfl, hs, rfl, hnil, .inl rfl⟩
  | succ fuel ih =>
    by_cases hnil : w.buf.data = []
    · exact .inr ⟨w, by rw [pollFlushBuf, if_pos hnil], hs, rfl, hnil, .inl rfl⟩
    rcases hs.pollWrite_cases w.buf.data with
      ⟨hpending, hpoll⟩ | ⟨n, i, hpoll, hwritten, hi, hle, hpos⟩
    · refine .inl ⟨{ w with inner := w.inner.tick }, ?_, hs.of_tick rfl, rfl,
        .of_tick hs hpending⟩
      simp only [pollFlushBuf, if_neg hnil, hpoll]
    · obtain ⟨m, rfl⟩ := Nat.exists_eq_succ_of_ne_zero (hpos hnil).ne'
      have hstep : w.pollFlushBuf (fuel + 1) =
          ({ w with inner := i, buf := w.buf.advance (m + 1) } : NixWriter).pollFlushBuf fuel := by
        simp only [pollFlushBuf, if_neg hnil, hpoll]
      have hlt : (w.buf.data.drop (m + 1)).length < w.buf.data.length := by
        rw [List.length_drop]
        omega
      have hout : view.out { w with inner := i, buf := w.buf.advance (m + 1) } = view.out w := by
        show i.written ++ w.buf.data.drop (m + 1) = w.inner.written ++ w.buf.data
        rw [hwritten, List.append_assoc, List.take_append_drop]
      rw [hstep]
      rcases @ih { w with inner := i, buf := w.buf.advance (m + 1) }
        (Nat.le_of_lt_succ (hlt.trans_le hfuel)) hi with
        ⟨w', hpoll', hs', hout', hdelayed⟩ | ⟨w', hpoll', hs', hout', hnil', -⟩
      · exact .inl ⟨w', hpoll', hs', hout'.trans hout,
          .of_shorter (hdelayed.length_le.trans_lt hlt)⟩
      · refine .inr ⟨w', hpoll', hs', hout'.trans hout, hnil', .inr ?_⟩
        rw [hnil']
        exact List.length_pos_iff.mpr hnil

/-- Everything a write can do. -/
theorem pollWrite_cases {buf : Bytes} {w : NixWriter} (hbuf : buf ≠ []) (hs : w.inner.Steady) :
    (∃ w', w.pollWrite buf = (.pending, w') ∧ w'.inner.Steady ∧ view.out w' = view.out w ∧
        Delayed w' w) ∨
      ∃ n w', w.pollWrite buf = (.ready (.ok n), w') ∧ w'.inner.Steady ∧
        view.out w' = view.out w ++ buf.take n ∧ 0 < n ∧ n ≤ buf.length := by
  have hput : ∀ w₁ : NixWriter, w₁.inner.Steady → view.out w₁ = view.out w →
      ∃ n w', ((.ready (.ok buf.length), { w₁ with buf := w₁.buf.putSlice buf }) :
          Poll (Except WriteError ℕ) × NixWriter) = (.ready (.ok n), w') ∧ w'.inner.Steady ∧
        view.out w' = view.out w ++ buf.take n ∧ 0 < n ∧ n ≤ buf.length := by
    intro w₁ hs₁ hout₁
    refine ⟨buf.length, _, rfl, hs₁, ?_, List.length_pos_iff.mpr hbuf, Nat.le_refl _⟩
    rw [List.take_length, ← hout₁]
    exact (List.append_assoc _ _ _).symm
  by_cases hroom : w.buf.remainingMut < buf.length
  · rcases pollFlushBuf_cases (Nat.le_refl w.buf.data.length) hs with
      ⟨w', hpoll, hs', hout, hdelayed⟩ | ⟨w₁, hpoll, hs₁, hout₁, hnil, hsame⟩
    · refine .inl ⟨w', ?_, hs', hout, hdelayed⟩
      simp only [pollWrite, if_pos hroom, hpoll]
    by_cases hlarge : w₁.buf.capacity < buf.length
    · rcases hs₁.pollWrite_cases buf with
        ⟨hpending, hdirect⟩ | ⟨n, i, hdirect, hwritten, hi, hle, hpos⟩
      · refine .inl ⟨{ w₁ with inner := w₁.inner.tick }, ?_, hs₁.of_tick rfl, hout₁, ?_⟩
        · simp only [pollWrite, if_pos hroom, hpoll, if_pos hlarge, hdirect]
        · rcases hsame with rfl | hlt
          · exact .of_tick hs₁ hpending
          · exact .of_shorter hlt
      · refine .inr ⟨n, { w₁ with inner := i }, ?_, hi, ?_, hpos hbuf, hle⟩
        · simp only [pollWrite, if_pos hroom, hpoll, if_pos hlarge, hdirect]
        · have hout₁ : w₁.inner.written ++ w₁.buf.data = view.out w := hout₁
          show i.written ++ w₁.buf.data = view.out w ++ buf.take n
          rw [hnil, List.append_nil] at hout₁ ⊢
          rw [hwritten, hout₁]
    · obtain ⟨n, w', heq, hspec⟩ := hput w₁ hs₁ hout₁
      refine .inr ⟨n, w', ?_, hspec⟩
      simp only [pollWrite, if_pos hroom, hpoll, if_neg hlarge]
      exact heq
  · have hsmall : ¬ w.buf.capacity < buf.length := by
      rw [BytesMut.remainingMut] at hroom
      omega
    obtain ⟨n, w', heq, hspec⟩ := hput w hs rfl
    refine .inr ⟨n, w', ?_, hspec⟩
    simp only [pollWrite, if_neg hroom, if_neg hsmall]
    exact heq

-- ====================
-- What is written
-- ====================

/-- A write takes some of the bytes from the front, and puts them behind those that were
    written before. -/
theorem spec_write : Write.Spec write view := by
  intro w buf hs hbuf
  obtain ⟨n, w', ⟨hs', hout, hpos, hle⟩, hret⟩ :=
    returns_await (pollWrite buf) wellFounded_delayed
      (P := fun w₁ => w₁.inner.Steady ∧ view.out w₁ = view.out w)
      (Q := fun n w' => w'.inner.Steady ∧ view.out w' = view.out w ++ buf.take n ∧ 0 < n ∧
        n ≤ buf.length)
      (fun w₁ ⟨hs₁, hout₁⟩ => by
        rcases pollWrite_cases hbuf hs₁ with
          ⟨w', hpoll, hs', hout, hdelayed⟩ | ⟨n, w', hpoll, hs', hout, hn⟩
        · exact .inl ⟨w', hpoll, ⟨hs', hout.trans hout₁⟩, hdelayed⟩
        · exact .inr ⟨n, w', hpoll, hs', by rw [hout, hout₁], hn⟩)
      ⟨hs, rfl⟩
  exact ⟨n, w', hs', hout, hpos, hle, hret⟩

theorem returns_writeAll (buf : Bytes) {w : NixWriter} (hs : w.inner.Steady) :
    ∃ w', w'.inner.Steady ∧ view.out w' = view.out w ++ buf ∧
      Returns (fun k => writeAll k buf) w (.ok ((), w')) :=
  spec_write.returns_all buf hs

theorem returns_flushBuf {w : NixWriter} (hs : w.inner.Steady) :
    ∃ w', w'.inner.Steady ∧ view.out w' = view.out w ∧ w'.buf.data = [] ∧
      Returns flushBuf w (.ok ((), w')) := by
  obtain ⟨⟨⟩, w', ⟨hs', hout, hnil⟩, hret⟩ :=
    returns_await (fun w : NixWriter => w.pollFlushBuf w.buf.data.length)
      wellFounded_delayed (P := fun w₁ => w₁.inner.Steady ∧ view.out w₁ = view.out w)
      (Q := fun _ w' => w'.inner.Steady ∧ view.out w' = view.out w ∧ w'.buf.data = [])
      (fun w₁ ⟨hs₁, hout₁⟩ => by
        rcases pollFlushBuf_cases (Nat.le_refl w₁.buf.data.length) hs₁ with
          ⟨w', hpoll, hs', hout, hdelayed⟩ | ⟨w', hpoll, hs', hout, hnil, -⟩
        · exact .inl ⟨w', hpoll, ⟨hs', hout.trans hout₁⟩, hdelayed⟩
        · exact .inr ⟨(), w', hpoll, hs', hout.trans hout₁, hnil⟩)
      ⟨hs, rfl⟩
  exact ⟨w', hs', hout, hnil, hret⟩

/-- Everything a flush can do. -/
theorem pollFlush_cases {w : NixWriter} (hs : w.inner.Steady) :
    (∃ w', w.pollFlush = (.pending, w') ∧ w'.inner.Steady ∧ view.out w' = view.out w ∧
        Delayed w' w) ∨
      ∃ w', w.pollFlush = (.ready (.ok ()), w') ∧ w'.inner.Steady ∧
        w'.inner.written = view.out w ∧ w'.buf.data = [] := by
  rcases pollFlushBuf_cases (Nat.le_refl w.buf.data.length) hs with
    ⟨w', hpoll, hs', hout, hdelayed⟩ | ⟨w₁, hpoll, hs₁, hout₁, hnil, hsame⟩
  · refine .inl ⟨w', ?_, hs', hout, hdelayed⟩
    simp only [pollFlush, hpoll]
  rcases hs₁.pollDone_cases with ⟨hpending, hdone⟩ | hdone
  · refine .inl ⟨{ w₁ with inner := w₁.inner.tick }, ?_, hs₁.of_tick rfl, hout₁, ?_⟩
    · simp only [pollFlush, hpoll, AsyncSink.pollFlush, hdone]
    · rcases hsame with rfl | hlt
      · exact .of_tick hs₁ hpending
      · exact .of_shorter hlt
  · refine .inr ⟨{ w₁ with inner := w₁.inner.tick }, ?_, hs₁.of_tick rfl, ?_, hnil⟩
    · simp only [pollFlush, hpoll, AsyncSink.pollFlush, hdone]
    · have hout₁ : w₁.inner.written ++ w₁.buf.data = view.out w := hout₁
      rwa [hnil, List.append_nil] at hout₁

/-- After a flush the sink has everything. -/
theorem returns_flush {w : NixWriter} (hs : w.inner.Steady) :
    ∃ w', w'.inner.Steady ∧ w'.inner.written = view.out w ∧ w'.buf.data = [] ∧
      Returns flush w (.ok ((), w')) := by
  obtain ⟨⟨⟩, w', ⟨hs', hout, hnil⟩, hret⟩ :=
    returns_await pollFlush wellFounded_delayed
      (P := fun w₁ => w₁.inner.Steady ∧ view.out w₁ = view.out w)
      (Q := fun _ w' => w'.inner.Steady ∧ w'.inner.written = view.out w ∧ w'.buf.data = [])
      (fun w₁ ⟨hs₁, hout₁⟩ => by
        rcases pollFlush_cases hs₁ with
          ⟨w', hpoll, hs', hout, hdelayed⟩ | ⟨w', hpoll, hs', hwritten, hnil⟩
        · exact .inl ⟨w', hpoll, ⟨hs', hout.trans hout₁⟩, hdelayed⟩
        · exact .inr ⟨(), w', hpoll, hs', hwritten.trans hout₁, hnil⟩)
      ⟨hs, rfl⟩
  exact ⟨w', hs', hout, hnil, hret⟩

theorem returns_writeSlice (buf : Bytes) {w : NixWriter} (hs : w.inner.Steady) :
    ∃ w', w'.inner.Steady ∧ view.out w' = view.out w ++ encodeBytes buf ∧
      Returns (fun k => writeSlice k buf) w (.ok ((), w')) := by
  obtain ⟨w₁, hs₁, hout₁, hret₁⟩ := returns_writeAll (leBytes 8 buf.length) hs
  obtain ⟨w₂, hs₂, hout₂, hret₂⟩ := returns_writeAll buf hs₁
  obtain ⟨w₃, hs₃, hout₃, hret₃⟩ :=
    returns_writeAll (List.replicate (paddingLen buf.length) 0) hs₂
  have hout : view.out w₂ ++ List.replicate (paddingLen buf.length) 0 =
      view.out w ++ encodeBytes buf := by
    rw [hout₂, hout₁, encodeBytes, List.append_assoc, List.append_assoc, List.append_assoc]
  by_cases hpadding : 0 < paddingLen buf.length
  · refine ⟨w₃, hs₃, hout₃.trans hout, hret₁.bind (f := fun _ k => _) (hret₂.bind (f := fun _ k =>
      if 0 < paddingLen buf.length then writeAll k (List.replicate (paddingLen buf.length) 0)
      else pure ()) ?_)⟩
    simpa only [if_pos hpadding] using hret₃
  · refine ⟨w₂, hs₂, ?_, hret₁.bind (f := fun _ k => _) (hret₂.bind (f := fun _ k =>
      if 0 < paddingLen buf.length then writeAll k (List.replicate (paddingLen buf.length) 0)
      else pure ()) ?_)⟩
    · rwa [Nat.eq_zero_of_not_pos hpadding, List.replicate_zero, List.append_nil,
        encodeBytes] at hout
    · simpa only [if_neg hpadding] using Returns.pure () w₂

theorem out_putDisplay (msg : Bytes) (w : NixWriter) :
    view.out (w.putDisplay msg) = view.out w ++ (leBytes 8 msg.length ++ msg) := by
  have hlen : (w.buf.data ++ leBytes 8 0 ++ msg).length - w.buf.data.length - 8 = msg.length := by
    rw [List.length_append, List.length_append, length_leBytes]
    omega
  show w.inner.written ++ (((w.buf.putSlice (leBytes 8 0)).putSlice msg).patch w.buf.data.length
    (leBytes 8 ((w.buf.data ++ leBytes 8 0 ++ msg).length - w.buf.data.length - 8))).data = _
  rw [hlen, BytesMut.data_patch (leBytes 8 msg.length) rfl rfl (by simp only [length_leBytes])]
  show _ = w.inner.written ++ w.buf.data ++ (leBytes 8 msg.length ++ msg)
  rw [List.append_assoc, List.append_assoc]

theorem returns_writeDisplay (msg : Bytes) {w : NixWriter} (hs : w.inner.Steady) :
    ∃ w', w'.inner.Steady ∧ view.out w' = view.out w ++ encodeBytes msg ∧
      Returns (fun k => writeDisplay k msg) w (.ok ((), w')) := by
  obtain ⟨w₁, hs₁, hout₁, hret₁⟩ : ∃ w₁, w₁.inner.Steady ∧ view.out w₁ = view.out w ∧
      Returns (fun k => (fun w =>
        if w.buf.remainingMut < w.reservedBufSize ∧ w.buf.data ≠ [] then (flushBuf k).run w
        else some (.ok ((), w)) : Prog WriteError NixWriter Unit)) w (.ok ((), w₁)) := by
    by_cases hfull : w.buf.remainingMut < w.reservedBufSize ∧ w.buf.data ≠ []
    · obtain ⟨w₁, hs₁, hout₁, -, c, hc⟩ := returns_flushBuf hs
      refine ⟨w₁, hs₁, hout₁, c, fun k hk => ?_⟩
      rw [← hc k hk]
      exact if_pos hfull
    · exact ⟨w, hs, rfl, 0, fun k _ => if_neg hfull⟩
  obtain ⟨w₂, hs₂, hout₂, hret₂⟩ :=
    returns_writeAll (w := w₁.putDisplay msg) (List.replicate (paddingLen msg.length) 0) hs₁
  refine ⟨w₂, hs₂, ?_, hret₁.bind (f := fun _ k => _) (Returns.bind (f := fun _ k =>
    writeAll k (List.replicate (paddingLen msg.length) 0)) ⟨0, fun _ _ => rfl⟩ hret₂)⟩
  rw [hout₂, out_putDisplay, hout₁, List.append_assoc]
  rfl

theorem returns_writeItem (item : Item) {w : NixWriter} (hs : w.inner.Steady) :
    ∃ w', w'.inner.Steady ∧ view.out w' = view.out w ++ item.encode ∧
      Returns (fun k => writeItem k item) w (.ok ((), w')) := by
  cases item with
  | number value => exact returns_writeAll (leBytes 8 value) hs
  | slice buf => exact returns_writeSlice buf hs
  | display msg => exact returns_writeDisplay msg hs

/-- What is written are the encodings in order, whatever the sizes of the buffer and
    however much the sink takes at a time. -/
theorem returns_writeItems (items : List Item) {w : NixWriter} (hs : w.inner.Steady) :
    ∃ w', w'.inner.Steady ∧ view.out w' = view.out w ++ encodeItems items ∧
      Returns (fun k => writeItems k items) w (.ok ((), w')) := by
  induction items generalizing w with
  | nil => exact ⟨w, hs, (List.append_nil _).symm, .pure () w⟩
  | cons item items ih =>
    obtain ⟨w₁, hs₁, hout₁, hret₁⟩ := returns_writeItem item hs
    obtain ⟨w', hs', hout, hret⟩ := ih hs₁
    refine ⟨w', hs', ?_, hret₁.bind (f := fun _ k => writeItems k items) hret⟩
    rw [hout, hout₁, List.append_assoc]
    rfl

end NixWriter

end Snix.Wire
