import Snix.Lib.Await
import Snix.Lib.BytesMut
import Snix.NixCompat.Wire.BytesReader

/-!
# Reading the daemon protocol

`NixReader` reads numbers and byte strings through a buffer of its own. The buffer is
filled by reads that bring as many bytes as the stream likes, at most as many as there
is room for. A byte string is read with its padding once all of it is in the buffer.

What is read depends on the bytes alone, if room is reserved for at least one byte:
without any room a read brings no bytes, as it does at the end of the stream.

## Main definitions

- `NixReader` — the reader, with its operations
- `takeNumber`, `takeBytesLimited` — the same off a byte string
- `NixReader.view` — the bytes a reader has left, and its invariant

## Main results

- `NixReader.spec_read` — a read brings some of the bytes that come next
- `NixReader.agrees_tryReadNumber`, `NixReader.agrees_tryReadBytesLimited` — what is read depends
  on the bytes alone
-/

namespace Snix.Wire

structure NixReader where
  inner : AsyncStream
  buf : BytesMut
  reservedBufSize : ℕ
  maxBufSize : ℕ

namespace NixReader

/-- Reads into the room that is left in the buffer; returns the number of bytes. -/
def pollForceFillBuf (r : NixReader) : Poll (Except IoError ℕ) × NixReader :=
  let buf :=
    if r.buf.remainingMut < r.reservedBufSize then r.buf.reserve r.reservedBufSize else r.buf
  match r.inner.pollRead buf.remainingMut with
  | (.pending, i) => (.pending, { r with inner := i, buf := buf })
  | (.ready (.error e), i) => (.ready (.error e), { r with inner := i, buf := buf })
  | (.ready (.ok chunk), i) =>
    (.ready (.ok chunk.length), { r with inner := i, buf := buf.putSlice chunk })

/-- The bytes in the buffer, which is filled if there are none. -/
def pollFillBuf (r : NixReader) : Poll (Except IoError Bytes) × NixReader :=
  if r.buf.data = [] then
    match r.pollForceFillBuf with
    | (.pending, r) => (.pending, r)
    | (.ready (.error e), r) => (.ready (.error e), r)
    | (.ready (.ok _), r) => (.ready (.ok r.buf.data), r)
  else (.ready (.ok r.buf.data), r)

def consume (amt : ℕ) (r : NixReader) : NixReader := { r with buf := r.buf.advance amt }

def pollRead (n : ℕ) (r : NixReader) : Poll (Except IoError Bytes) × NixReader :=
  match r.pollFillBuf with
  | (.pending, r) => (.pending, r)
  | (.ready (.error e), r) => (.ready (.error e), r)
  | (.ready (.ok rem), r) =>
    let amt := min rem.length n
    (.ready (.ok (rem.take amt)), r.consume amt)

def read : Read NixReader := fun k n => await (pollRead n) k

def forceFill (k : ℕ) : Prog IoError NixReader ℕ := await pollForceFillBuf k

def tryReadNumber (k : ℕ) : Prog IoError NixReader (Option ℕ) := do
  let buf ← read k 8
  if buf = [] then pure none
  else do
    let more ← (if buf.length < 8 then readExact read k (8 - buf.length) else pure [] :
      Prog IoError NixReader Bytes)
    pure (some (leValue (buf ++ more)))

/-- Fills the buffer until it has as many bytes. -/
def fillTo : ℕ → ℕ → Prog IoError NixReader Unit
  | 0, _ => .running
  | k + 1, aligned => fun r =>
    if r.buf.data.length < aligned then
      (do
        let n ← forceFill k
        if n = 0 then .fail .unexpectedEof
        else fillTo k aligned : Prog IoError NixReader Unit).run r
    else some (.ok ((), r))

/-- Ensures that as many bytes fit. -/
def makeRoom (aligned : ℕ) (r : NixReader) : NixReader :=
  if r.buf.data.length + r.buf.remainingMut < aligned then
    { r with buf := r.buf.reserve (aligned - r.buf.data.length) }
  else r

/-- Takes bytes out of the buffer. -/
def splitTo (n : ℕ) : Prog IoError NixReader Bytes :=
  fun r => some (.ok (r.buf.data.take n, r.consume n))

/-- The rest of a byte string behind its length. -/
def readContents (k lo hi len : ℕ) : Prog IoError NixReader Bytes :=
  if ¬ (lo ≤ len ∧ len ≤ hi) then .fail .invalidData
  else if 2 ^ 64 ≤ len + 7 then .fail .invalidData
  else do
    let aligned := (len + 7) / 8 * 8
    fun r => some (.ok ((), r.makeRoom aligned))
    fillTo k aligned
    let contents ← splitTo aligned
    if contents.drop len ≠ List.replicate (aligned - len) 0 then .fail .invalidData
    else pure (contents.take len)

/-- Reads a byte string of a length between `lo` and `hi`. -/
def tryReadBytesLimited (k lo hi : ℕ) : Prog IoError NixReader (Option Bytes) := do
  fun r => if hi ≤ r.maxBufSize then some (.ok ((), r)) else some (.error .panic)
  match ← tryReadNumber k with
  | none => pure none
  | some len => do
    let contents ← readContents k lo hi len
    pure (some contents)

def tryReadBytes (k : ℕ) : Prog IoError NixReader (Option Bytes) :=
  fun r => (tryReadBytesLimited k 0 r.maxBufSize).run r

end NixReader

/-- The number at the front, or nothing where there are no bytes. -/
def takeNumber (b : Bytes) : Except IoError (Option ℕ × Bytes) :=
  if b = [] then .ok (none, [])
  else do
    let (buf, b) ← takeExact .unexpectedEof 8 b
    pure (some (leValue buf), b)

/-- The rest of a byte string behind its length. -/
def takeContents (lo hi len : ℕ) (b : Bytes) : Except IoError (Bytes × Bytes) :=
  if ¬ (lo ≤ len ∧ len ≤ hi) then .error .invalidData
  else if 2 ^ 64 ≤ len + 7 then .error .invalidData
  else do
    let aligned := (len + 7) / 8 * 8
    let (contents, b) ← takeExact .unexpectedEof aligned b
    if contents.drop len ≠ List.replicate (aligned - len) 0 then .error .invalidData
    else pure (contents.take len, b)

/-- The byte string at the front. -/
def takeBytesLimited (lo hi : ℕ) (b : Bytes) : Except IoError (Option Bytes × Bytes) := do
  match ← takeNumber b with
  | (none, b) => pure (none, b)
  | (some len, b) => do
    let (contents, b) ← takeContents lo hi len b
    pure (some contents, b)

namespace NixReader

/-- The bytes a reader has left. Its stream becomes ready again and does not fail, it
    reserves room, and it reads byte strings of up to `max` bytes. -/
def view (max : ℕ) : View IoError NixReader Bytes where
  rest r := r.buf.data ++ r.inner.rest
  Valid r := (r.inner.Faultless ∧ r.inner.Fair) ∧ 0 < r.reservedBufSize ∧ r.maxBufSize = max
  Silent _ := False

-- ====================
-- Polls
-- ====================

section

variable {max : ℕ} {r : NixReader}

/-- The buffer after room was made has the same bytes, and room for one more. -/
theorem reserved_spec (hr : (view max).Valid r) :
    ∃ buf : BytesMut, buf.data = r.buf.data ∧ 0 < buf.remainingMut ∧
      (if r.buf.remainingMut < r.reservedBufSize then r.buf.reserve r.reservedBufSize
        else r.buf) = buf := by
  obtain ⟨-, hpos, -⟩ := hr
  by_cases hroom : r.buf.remainingMut < r.reservedBufSize
  · have hle := BytesMut.le_remainingMut_reserve r.reservedBufSize r.buf
    exact ⟨_, BytesMut.data_reserve _ _, by omega, if_pos hroom⟩
  · exact ⟨r.buf, rfl, by omega, if_neg hroom⟩

/-- Everything filling the buffer can do. -/
theorem pollForceFillBuf_cases (hr : (view max).Valid r) :
    (∃ r', r.pollForceFillBuf = (.pending, r') ∧ (view max).Valid r' ∧
        (view max).rest r' = (view max).rest r ∧ r'.buf.data = r.buf.data ∧
        r'.inner.wait < r.inner.wait) ∨
      ∃ n r', r.pollForceFillBuf = (.ready (.ok n), r') ∧ (view max).Valid r' ∧
        (view max).rest r' = (view max).rest r ∧
        r'.buf.data.length = r.buf.data.length + n ∧ (n = 0 → r.inner.rest = []) := by
  obtain ⟨buf, hdata, hpos, hbuf⟩ := reserved_spec hr
  obtain ⟨⟨hfaultless, hfair⟩, hrest⟩ := hr
  have hlater : ∀ i : AsyncStream, i.answers = r.inner.tick.answers → i.Faultless ∧ i.Fair := by
    intro i hans
    have hi := (AsyncStream.Later.refl r.inner).of_tick hans
    exact ⟨hi.faultless hfaultless, hi.fair hfair⟩
  rcases r.inner.pollRead_cases buf.remainingMut with
    ⟨i, hpoll, hirest, hans⟩ | ⟨i, -, -, -, hnf⟩ | ⟨chunk, i, hpoll, hirest, hans, -, hnil⟩
  · have hpending := AsyncStream.pending_of_pollRead hpoll
    have hi : i = r.inner.tick := by
      cases i
      cases hirest
      cases hans
      rfl
    refine .inl ⟨{ r with inner := i, buf := buf }, ?_, ⟨hlater i hans, hrest⟩, ?_, hdata, ?_⟩
    · simp only [pollForceFillBuf, hbuf, hpoll]
    · show buf.data ++ i.rest = r.buf.data ++ r.inner.rest
      rw [hdata, hirest]
    · rw [hi]
      exact AsyncStream.wait_tick_lt hfair hpending
  · exact absurd hfaultless hnf
  · refine .inr ⟨chunk.length, { r with inner := i, buf := buf.putSlice chunk }, ?_,
      ⟨hlater i hans, hrest⟩, ?_, ?_, fun hn => ?_⟩
    · simp only [pollForceFillBuf, hbuf, hpoll]
    · show buf.data ++ chunk ++ i.rest = r.buf.data ++ r.inner.rest
      rw [hdata, hirest, List.append_assoc]
    · show (buf.data ++ chunk).length = _
      rw [List.length_append, hdata]
    · exact (hnil (List.length_eq_zero_iff.mp hn)).resolve_left hpos.ne'

/-- Everything a read can do. -/
theorem pollRead_cases {n : ℕ} (hn : 0 < n) (hr : (view max).Valid r) :
    (∃ r', r.pollRead n = (.pending, r') ∧ (view max).Valid r' ∧
        (view max).rest r' = (view max).rest r ∧ r'.inner.wait < r.inner.wait) ∨
      ∃ chunk r', r.pollRead n = (.ready (.ok chunk), r') ∧ (view max).Valid r' ∧
        (view max).rest r = chunk ++ (view max).rest r' ∧ chunk.length ≤ n ∧
        (chunk = [] → (view max).rest r = []) := by
  have htake : ∀ r₁ : NixReader, (view max).Valid r₁ → (view max).rest r₁ = (view max).rest r →
      (r₁.buf.data = [] → (view max).rest r = []) →
      ∃ chunk r', ((.ready (.ok (r₁.buf.data.take (min r₁.buf.data.length n))),
          r₁.consume (min r₁.buf.data.length n)) : Poll (Except IoError Bytes) × NixReader) =
          (.ready (.ok chunk), r') ∧ (view max).Valid r' ∧
        (view max).rest r = chunk ++ (view max).rest r' ∧ chunk.length ≤ n ∧
        (chunk = [] → (view max).rest r = []) := by
    intro r₁ hr₁ hrest₁ hend
    refine ⟨_, _, rfl, hr₁, ?_, ?_, fun hchunk => hend ?_⟩
    · rw [← hrest₁]
      show r₁.buf.data ++ r₁.inner.rest = _ ++ (r₁.buf.data.drop _ ++ r₁.inner.rest)
      rw [← List.append_assoc, List.take_append_drop]
    · rw [List.length_take]
      omega
    · rcases List.take_eq_nil_iff.mp hchunk with hmin | hdata
      · exact List.length_eq_zero_iff.mp (by omega)
      · exact hdata
  by_cases hdata : r.buf.data = []
  · rcases pollForceFillBuf_cases hr with
      ⟨r', hpoll, hr', hrest, -, hwait⟩ | ⟨m, r₁, hpoll, hr₁, hrest₁, hlen, hnil⟩
    · refine .inl ⟨r', ?_, hr', hrest, hwait⟩
      simp only [pollRead, pollFillBuf, if_pos hdata, hpoll]
    · obtain ⟨chunk, r', heq, hspec⟩ := htake r₁ hr₁ hrest₁ fun hdata₁ => by
        rw [hdata₁, hdata, List.length_nil, Nat.zero_add] at hlen
        show r.buf.data ++ r.inner.rest = []
        rw [hdata, hnil hlen.symm]
        rfl
      refine .inr ⟨chunk, r', ?_, hspec⟩
      simp only [pollRead, pollFillBuf, if_pos hdata, hpoll]
      exact heq
  · obtain ⟨chunk, r', heq, hspec⟩ := htake r hr rfl fun h => absurd h hdata
    refine .inr ⟨chunk, r', ?_, hspec⟩
    simp only [pollRead, pollFillBuf, if_neg hdata]
    exact heq

theorem wellFounded_wait : WellFounded fun r' r : NixReader => r'.inner.wait < r.inner.wait :=
  InvImage.wf (fun r : NixReader => r.inner.wait) Nat.lt_wfRel.wf

/-- A read brings some of the bytes that come next, and none only at the end. -/
theorem spec_read : read.Spec (view max) := by
  intro r n hr hn
  obtain ⟨chunk, r', ⟨hr', hrest, hlen, hnil⟩, hret⟩ :=
    returns_await (pollRead n) wellFounded_wait
      (P := fun r₁ => (view max).Valid r₁ ∧ (view max).rest r₁ = (view max).rest r)
      (Q := fun chunk r' => (view max).Valid r' ∧
        (view max).rest r = chunk ++ (view max).rest r' ∧ chunk.length ≤ n ∧
        (chunk = [] → (view max).rest r = []))
      (fun r₁ ⟨hr₁, hrest₁⟩ => by
        rcases pollRead_cases hn hr₁ with
          ⟨r', hpoll, hr', hrest, hwait⟩ | ⟨chunk, r', hpoll, hspec⟩
        · exact .inl ⟨r', hpoll, ⟨hr', hrest.trans hrest₁⟩, hwait⟩
        · rw [hrest₁] at hspec
          exact .inr ⟨chunk, r', hpoll, hspec⟩)
      ⟨hr, rfl⟩
  exact ⟨chunk, r', hr', hrest, hlen, hnil, hret⟩

theorem returns_forceFill (hr : (view max).Valid r) :
    ∃ n r', (view max).Valid r' ∧ (view max).rest r' = (view max).rest r ∧
      r'.buf.data.length = r.buf.data.length + n ∧
      (n = 0 → (view max).rest r = r.buf.data) ∧ Returns forceFill r (.ok (n, r')) := by
  obtain ⟨n, r', ⟨hr', hrest, hlen, hnil⟩, hret⟩ :=
    returns_await pollForceFillBuf wellFounded_wait
      (P := fun r₁ => (view max).Valid r₁ ∧ (view max).rest r₁ = (view max).rest r ∧
        r₁.buf.data = r.buf.data)
      (Q := fun n r' => (view max).Valid r' ∧ (view max).rest r' = (view max).rest r ∧
        r'.buf.data.length = r.buf.data.length + n ∧
        (n = 0 → (view max).rest r = r.buf.data))
      (fun r₁ ⟨hr₁, hrest₁, hdata₁⟩ => by
        rcases pollForceFillBuf_cases hr₁ with
          ⟨r', hpoll, hr', hrest, hdata, hwait⟩ | ⟨n, r', hpoll, hr', hrest, hlen, hnil⟩
        · exact .inl ⟨r', hpoll, ⟨hr', hrest.trans hrest₁, hdata.trans hdata₁⟩, hwait⟩
        · refine .inr ⟨n, r', hpoll, hr', hrest.trans hrest₁, hdata₁ ▸ hlen, fun hn => ?_⟩
          rw [← hrest₁, ← hdata₁]
          show r₁.buf.data ++ r₁.inner.rest = r₁.buf.data
          rw [hnil hn, List.append_nil])
      ⟨hr, rfl, rfl⟩
  exact ⟨n, r', hr', hrest, hlen, hnil, hret⟩

-- ====================
-- Agreement
-- ====================

theorem agrees_tryReadNumber (hr : (view max).Valid r) :
    Agrees (view max) tryReadNumber r (takeNumber ((view max).rest r)) := by
  obtain ⟨chunk, r', hr', hrest, hlen, hnil, hret⟩ := spec_read r 8 hr (by decide)
  refine .after (f := fun chunk k => if chunk = [] then _ else _) hret ?_
  by_cases hchunk : chunk = []
  · have hend := hnil hchunk
    rw [hend, hchunk, List.nil_append] at hrest
    simp only [hchunk, if_true]
    rw [hend, takeNumber, if_pos rfl]
    exact .ok hr' hrest.symm (Returns.pure none r')
  have hne : (view max).rest r ≠ [] := by
    rw [hrest]
    exact List.append_ne_nil_of_left_ne_nil hchunk _
  have hmore : Agrees (view max) (fun k => if chunk.length < 8
      then readExact read k (8 - chunk.length) else pure []) r'
      (takeExact .unexpectedEof (8 - chunk.length) ((view max).rest r')) := by
    by_cases hshort : chunk.length < 8
    · simp only [if_pos hshort]
      exact agrees_readExact spec_read id _ hr'
    · have hzero : 8 - chunk.length = 0 := by omega
      simp only [if_neg hshort, hzero]
      simpa [takeExact] using Agrees.pure (V := view max) (a := ([] : Bytes)) hr'
  simp only [if_neg hchunk]
  rw [takeNumber, if_neg hne, hrest, takeExact_append hlen, bind_assoc]
  exact hmore.bind (g := fun x => Except.ok (some (leValue (chunk ++ x.1)), x.2))
    fun more r'' hr'' _ => .pure hr''

/-- The buffer is filled unless the stream ends before. By induction on the number of
    bytes that are missing. -/
theorem returns_fillTo (aligned : ℕ) (hr : (view max).Valid r) :
    (aligned ≤ ((view max).rest r).length ∧ ∃ r', (view max).Valid r' ∧
        (view max).rest r' = (view max).rest r ∧ aligned ≤ r'.buf.data.length ∧
        Returns (fun k => fillTo k aligned) r (.ok ((), r'))) ∨
      (((view max).rest r).length < aligned ∧
        Returns (fun k => fillTo k aligned) r (.error .unexpectedEof)) := by
  induction hmissing : aligned - r.buf.data.length using Nat.strong_induction_on
    generalizing r with
  | _ missing ih =>
  subst hmissing
  by_cases hshort : r.buf.data.length < aligned
  · have hstep : ∀ k, (fillTo (k + 1) aligned).run r = (forceFill k >>= fun n =>
        if n = 0 then Prog.fail .unexpectedEof else fillTo k aligned).run r := fun k => by
      simp only [fillTo, Prog.run, if_pos hshort]
    obtain ⟨n, r₁, hr₁, hrest₁, hlen, hnil, hret₁⟩ := returns_forceFill hr
    by_cases hn : n = 0
    · refine .inr ⟨by rwa [hnil hn], Returns.succ (hret₁.bind (f := fun n k =>
        if n = 0 then Prog.fail .unexpectedEof else fillTo k aligned) ?_) hstep⟩
      simp only [if_pos hn]
      exact .fail _ r₁
    have hbind : ∀ {res}, Returns (fun k => fillTo k aligned) r₁ res →
        Returns (fun k => fillTo k aligned) r res := by
      intro res hret
      refine Returns.succ (hret₁.bind (f := fun n k =>
        if n = 0 then Prog.fail .unexpectedEof else fillTo k aligned) ?_) hstep
      simpa only [if_neg hn] using hret
    rcases ih _ (by omega) hr₁ rfl with ⟨hle, r', hr', hrest, hfull, hret⟩ | ⟨hlt, hret⟩
    · exact .inl ⟨hrest₁ ▸ hle, r', hr', hrest.trans hrest₁, hfull, hbind hret⟩
    · exact .inr ⟨hrest₁ ▸ hlt, hbind hret⟩
  · refine .inl ⟨?_, r, hr, rfl, Nat.le_of_not_lt hshort, (Returns.pure () r).succ fun k => ?_⟩
    · show aligned ≤ (r.buf.data ++ r.inner.rest).length
      rw [List.length_append]
      omega
    · simp only [fillTo, Prog.run, if_neg hshort]
      rfl

theorem rest_makeRoom (aligned : ℕ) (hr : (view max).Valid r) :
    (view max).Valid (r.makeRoom aligned) ∧
      (view max).rest (r.makeRoom aligned) = (view max).rest r := by
  unfold makeRoom
  by_cases hroom : r.buf.data.length + r.buf.remainingMut < aligned
  · rw [if_pos hroom]
    refine ⟨hr, ?_⟩
    show (r.buf.reserve (aligned - r.buf.data.length)).data ++ r.inner.rest = _
    rw [BytesMut.data_reserve]
    rfl
  · rw [if_neg hroom]
    exact ⟨hr, rfl⟩

theorem agrees_readContents (lo hi len : ℕ) (hr : (view max).Valid r) :
    Agrees (view max) (fun k => readContents k lo hi len) r
      (takeContents lo hi len ((view max).rest r)) := by
  unfold readContents takeContents
  by_cases hlimit : lo ≤ len ∧ len ≤ hi
  case neg =>
    simp only [if_pos hlimit]
    exact .fail _ id
  by_cases hoverflow : 2 ^ 64 ≤ len + 7
  case pos =>
    simp only [if_neg (not_not.mpr hlimit), if_pos hoverflow]
    exact .fail _ id
  simp only [if_neg (not_not.mpr hlimit), if_neg hoverflow]
  obtain ⟨hroom, hrest⟩ := rest_makeRoom ((len + 7) / 8 * 8) hr
  refine .after (f := fun _ k => _) (t := r.makeRoom ((len + 7) / 8 * 8)) ⟨0, fun _ _ => rfl⟩ ?_
  rw [← hrest]
  rcases returns_fillTo ((len + 7) / 8 * 8) hroom with
    ⟨hle, r', hr', hrest', hfull, hret⟩ | ⟨hlt, hret⟩
  · refine .after (f := fun _ k => _) hret ?_
    refine .after (p := fun _ => splitTo ((len + 7) / 8 * 8)) (f := fun contents _ =>
      if contents.drop len ≠ List.replicate ((len + 7) / 8 * 8 - len) 0 then
        Prog.fail .invalidData
      else pure (contents.take len))
      (t := r'.consume ((len + 7) / 8 * 8)) ⟨0, fun _ _ => rfl⟩ ?_
    have htake : takeExact IoError.unexpectedEof ((len + 7) / 8 * 8)
        ((view max).rest (r.makeRoom ((len + 7) / 8 * 8))) =
          .ok (r'.buf.data.take ((len + 7) / 8 * 8),
            (view max).rest (r'.consume ((len + 7) / 8 * 8))) := by
      rw [← hrest', takeExact_eq_ok_iff]
      refine ⟨?_, List.length_take_of_le hfull⟩
      show r'.buf.data ++ r'.inner.rest = _ ++ (r'.buf.data.drop _ ++ r'.inner.rest)
      rw [← List.append_assoc, List.take_append_drop]
    rw [htake]
    by_cases hpadding : (r'.buf.data.take ((len + 7) / 8 * 8)).drop len ≠
        List.replicate ((len + 7) / 8 * 8 - len) 0
    · simp only [if_pos hpadding]
      show Agrees _ _ _ (if _ then _ else _)
      rw [if_pos hpadding]
      exact .fail _ id
    · simp only [if_neg hpadding]
      show Agrees _ _ _ (if _ then _ else _)
      rw [if_neg hpadding]
      exact .pure hr'
  · rw [takeExact, if_neg (by omega)]
    exact .error id hret.bind_error

theorem agrees_tryReadBytesLimited {lo hi : ℕ} (hhi : hi ≤ max) (hr : (view max).Valid r) :
    Agrees (view max) (fun k => tryReadBytesLimited k lo hi) r
      (takeBytesLimited lo hi ((view max).rest r)) := by
  have hmax : hi ≤ r.maxBufSize := hr.2.2.symm ▸ hhi
  refine .after (f := fun _ k => tryReadNumber k >>= fun
    | none => pure none
    | some len => do
      let contents ← readContents k lo hi len
      pure (some contents)) (t := r) ⟨0, fun _ _ => if_pos hmax⟩ ?_
  refine (agrees_tryReadNumber hr).bind (f := fun len k => match len with
    | none => pure none
    | some len => do
      let contents ← readContents k lo hi len
      pure (some contents)) fun len r' hr' _ => ?_
  cases len with
  | none => exact .pure hr'
  | some len =>
    exact (agrees_readContents lo hi len hr').bind fun contents r'' hr'' _ => .pure hr''

theorem agrees_tryReadBytes (hr : (view max).Valid r) :
    Agrees (view max) tryReadBytes r (takeBytesLimited 0 max ((view max).rest r)) := by
  have hmax : r.maxBufSize = max := hr.2.2
  have h : Agrees (view max) (fun k => tryReadBytesLimited k 0 max) r
      (takeBytesLimited 0 max ((view max).rest r)) :=
    agrees_tryReadBytesLimited (Nat.le_refl max) hr
  rw [← hmax] at h
  rw [← hmax]
  exact h

end

end NixReader

end Snix.Wire
