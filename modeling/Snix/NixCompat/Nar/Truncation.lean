import Snix.NixCompat.Nar.AsyncReader

/-!
# Byte strings that are cut off

`read_bytes_buf` fills its buffer with a loop that does not look at what a read
returns. A stream that is cut off within a byte string, in the payload or in the
padding, is therefore read forever. In all other cases the loop ends: with the
payload, or with an error.

The sibling `read_bytes` reports the end of the stream in these cases.

## Main definitions

- `Async.CutOff` — the stream is cut off within a byte string of the right length
- `Async.Finishes` — reading ends, with the payload or an error

## Main results

- `Async.ensures_readBytesBuf` — what is returned is the payload
- `Async.readBytesBuf_halts` — a reader that fails at some poll ends the loop
- `Async.readBytesBuf_finishes_iff` — exactly when the loop ends
-/

namespace Snix.Nar

open Wire (paddingLen)

namespace Async

/-- The stream starts with a length in the range, and is cut off before the end of
    the padding. -/
def CutOff (lo hi : ℕ) (b : Bytes) : Prop :=
  8 ≤ b.length ∧ (lo ≤ leValue (b.take 8) ∧ leValue (b.take 8) ≤ hi) ∧
    b.length < 8 + (leValue (b.take 8) + paddingLen (leValue (b.take 8)))

instance (lo hi : ℕ) (b : Bytes) : Decidable (CutOff lo hi b) := instDecidableAnd

/-- After finitely many reads there is an error, or the payload of a packet that the
    stream starts with. -/
def Finishes (lo hi : ℕ) (s : AsyncStream) : Prop :=
  (∃ e, Returns (readBytesBuf lo hi) s (.error e)) ∨
    ∃ payload s', Returns (readBytesBuf lo hi) s (.ok (payload, s')) ∧
      (lo ≤ payload.length ∧ payload.length ≤ hi) ∧ s.rest = packet payload ++ s'.rest

-- ====================
-- What is returned
-- ====================

section

variable {s : AsyncStream}

/-- Every read, of any stream, returns bytes that come next. -/
theorem ensures_read (k n : ℕ) :
    (AsyncStream.read k n).Ensures s
      (fun chunk s' => s.rest = chunk ++ s'.rest ∧ chunk.length ≤ n) (fun _ => True) := by
  induction k generalizing s with
  | zero => trivial
  | succ k ih =>
    rcases s.pollRead_cases n with ⟨s', hs', hrest, -⟩ | ⟨s', hs', -, -, -⟩ |
      ⟨chunk, s', hs', hrest, -, hlen, -⟩
    · have hlater := ih (s := s')
      simp only [Prog.Ensures, AsyncStream.read, Prog.run, hs'] at hlater ⊢
      rwa [← hrest]
    · simp only [Prog.Ensures, AsyncStream.read, Prog.run, hs']
    · simp only [Prog.Ensures, AsyncStream.read, Prog.run, hs']
      exact ⟨hrest, hlen⟩

/-- A read, and what is read after it. -/
theorem ensures_append {n : ℕ} {chunk : Bytes} {s' : AsyncStream} {p : Prog IoError AsyncStream Bytes}
    (hrest : s.rest = chunk ++ s'.rest) (hlen : chunk.length ≤ n)
    (hp : p.Ensures s' (fun more s'' => s'.rest = more ++ s''.rest ∧ more.length = n - chunk.length)
      fun _ => True) :
    (p >>= fun more => pure (chunk ++ more)).Ensures s'
      (fun buf s'' => s.rest = buf ++ s''.rest ∧ buf.length = n) fun _ => True := by
  refine hp.bind fun more s'' hmore => ?_
  obtain ⟨hrest', hlen'⟩ := hmore
  refine .pure ⟨?_, ?_⟩
  · rw [hrest, hrest', List.append_assoc]
  · rw [List.length_append]
    omega

theorem ensures_readExact (k n : ℕ) :
    (readExact AsyncStream.read k n).Ensures s
      (fun buf s' => s.rest = buf ++ s'.rest ∧ buf.length = n) (fun _ => True) := by
  induction k generalizing s n with
  | zero => trivial
  | succ k ih =>
    rw [readExact]
    by_cases hn : n = 0
    · rw [if_pos hn]
      exact .pure ⟨rfl, hn.symm⟩
    rw [if_neg hn]
    refine (ensures_read k n).bind fun chunk s' hread => ?_
    obtain ⟨hrest, hlen⟩ := hread
    by_cases hchunk : chunk = []
    · rw [if_pos hchunk]
      exact .fail trivial
    rw [if_neg hchunk]
    exact ensures_append hrest hlen (ih (n - chunk.length))

theorem ensures_fill (k n : ℕ) :
    (fill k n).Ensures s
      (fun buf s' => s.rest = buf ++ s'.rest ∧ buf.length = n) (fun _ => True) := by
  induction k generalizing s n with
  | zero => trivial
  | succ k ih =>
    rw [fill]
    by_cases hn : n = 0
    · rw [if_pos hn]
      exact .pure ⟨rfl, hn.symm⟩
    rw [if_neg hn]
    refine (ensures_read k n).bind fun chunk s' hread => ?_
    obtain ⟨hrest, hlen⟩ := hread
    exact ensures_append hrest hlen (ih (n - chunk.length))

/-- A length, and a buffer of that length and its padding, are a packet. -/
theorem packet_of_buffer {head buf : Bytes} (hhead : head.length = 8)
    (hbuf : buf.length = (leValue head + 7) / 8 * 8)
    (hzero : ¬ (buf.drop (leValue head)).any (· ≠ 0) = true) :
    head ++ buf = packet (buf.take (leValue head)) ∧
      (buf.take (leValue head)).length = leValue head := by
  have hpadded := padded_eq (leValue head)
  have htake : (buf.take (leValue head)).length = leValue head := by
    rw [List.length_take]
    omega
  have hpad : buf.drop (leValue head) = List.replicate (paddingLen (leValue head)) 0 := by
    apply List.eq_replicate_iff.mpr
    constructor
    · rw [List.length_drop]
      omega
    · intro x hx
      by_contra hne
      exact hzero (List.any_eq_true.mpr ⟨x, hx, by simpa using hne⟩)
  refine ⟨?_, htake⟩
  have hle : leBytes 8 (leValue head) = head := by
    have := leBytes_leValue head
    rwa [hhead] at this
  rw [packet, htake, hle, ← hpad, List.append_assoc, List.take_append_drop]

theorem ensures_readBytesBuf (lo hi k : ℕ) :
    (readBytesBuf lo hi k).Ensures s
      (fun payload s' => (lo ≤ payload.length ∧ payload.length ≤ hi) ∧
        s.rest = packet payload ++ s'.rest) (fun _ => True) := by
  have hlen : (readU64Le k).Ensures s (fun len s' => ∃ head : Bytes, head.length = 8 ∧
      len = leValue head ∧ s.rest = head ++ s'.rest) (fun _ => True) :=
    (ensures_readExact k 8).bind fun head s' ⟨hrest, hhead⟩ => .pure ⟨head, hhead, rfl, hrest⟩
  rw [readBytesBuf]
  refine hlen.bind fun len s' ⟨head, hhead, hvalue, hrest⟩ => ?_
  subst hvalue
  by_cases hrange : lo ≤ leValue head ∧ leValue head ≤ hi
  · rw [if_neg (not_not.mpr hrange)]
    refine (ensures_fill k _).bind fun buf s'' ⟨hrest', hbuf⟩ => ?_
    by_cases hpad : (buf.drop (leValue head)).any (· ≠ 0) = true
    · rw [if_pos hpad]
      exact .fail trivial
    · rw [if_neg hpad]
      obtain ⟨hpacket, hlength⟩ := packet_of_buffer hhead hbuf hpad
      refine .pure ⟨by rwa [hlength], ?_⟩
      rw [hrest, hrest', ← List.append_assoc, hpacket]
  · rw [if_pos hrange]
    exact .fail trivial

theorem Finishes.of_returns {lo hi : ℕ} {r : Except IoError (Bytes × AsyncStream)}
    (hret : Returns (readBytesBuf lo hi) s r) : Finishes lo hi s := by
  obtain ⟨hok, -⟩ := Prog.Ensures.of_returns hret (ensures_readBytesBuf lo hi)
  cases r with
  | error e => exact .inl ⟨e, hret⟩
  | ok x => exact .inr ⟨x.1, x.2, hret, hok x.1 x.2 rfl⟩

-- ====================
-- Readers that fail
-- ====================

/-- The program fails, or it returns before the stream's failure. -/
def Halts {α : Type} (p : ℕ → Prog IoError AsyncStream α) (s : AsyncStream) : Prop :=
  (∃ e, Returns p s (.error e)) ∨
    ∃ a s', Returns p s (.ok (a, s')) ∧ ∃ j, s'.answers j = .fail

theorem Halts.bind {α β : Type} {p : ℕ → Prog IoError AsyncStream α}
    {f : α → ℕ → Prog IoError AsyncStream β} (hp : Halts p s)
    (hf : ∀ a s', (∃ j, s'.answers j = .fail) → Halts (f a) s') :
    Halts (fun k => p k >>= fun a => f a k) s := by
  rcases hp with ⟨e, he⟩ | ⟨a, s', hret, hfail⟩
  · exact .inl ⟨e, he.bind_error⟩
  rcases hf a s' hfail with ⟨e, he⟩ | ⟨b, s'', hret', hfail'⟩
  · exact .inl ⟨e, hret.bind he⟩
  · exact .inr ⟨b, s'', hret.bind hret', hfail'⟩

theorem Halts.fail {α : Type} (e : IoError) :
    Halts (fun _ => (Prog.fail e : Prog IoError AsyncStream α)) s :=
  .inl ⟨e, .fail e s⟩

theorem Halts.pure {α : Type} (a : α) (hfail : ∃ j, s.answers j = .fail) :
    Halts (fun _ => (Pure.pure a : Prog IoError AsyncStream α)) s :=
  .inr ⟨a, s, .pure a s, hfail⟩

theorem Halts.succ {α : Type} {p q : ℕ → Prog IoError AsyncStream α} (h : Halts q s)
    (hpq : ∀ k, (p (k + 1)).run s = (q k).run s) : Halts p s := by
  rcases h with ⟨e, he⟩ | ⟨a, s', hret, hfail⟩
  · exact .inl ⟨e, he.succ hpq⟩
  · exact .inr ⟨a, s', hret.succ hpq, hfail⟩

theorem returns_read_pending {n : ℕ} {s' : AsyncStream} {r : Except IoError (Bytes × AsyncStream)}
    (h : s.pollRead n = (.pending, s')) (hret : Returns (fun k => AsyncStream.read k n) s' r) :
    Returns (fun k => AsyncStream.read k n) s r := by
  refine hret.succ fun k => ?_
  simp only [AsyncStream.read, Prog.run, h]

theorem returns_read_error {n : ℕ} {s' : AsyncStream} {e : IoError}
    (h : s.pollRead n = (.ready (.error e), s')) :
    Returns (fun k => AsyncStream.read k n) s (.error e) := by
  refine (Returns.fail e s).succ fun k => ?_
  simp only [AsyncStream.read, Prog.run, h, Prog.fail]

theorem returns_read_ok {n : ℕ} {s' : AsyncStream} {chunk : Bytes}
    (h : s.pollRead n = (.ready (.ok chunk), s')) :
    Returns (fun k => AsyncStream.read k n) s (.ok (chunk, s')) := by
  refine ⟨1, fun k hk => ?_⟩
  obtain ⟨k, rfl⟩ : ∃ m, k = m + 1 := ⟨k - 1, by omega⟩
  simp only [AsyncStream.read, Prog.run, h]

/-- A read fails, or it brings the stream closer to its failure. -/
theorem read_closer (n : ℕ) {j : ℕ} (hj : s.answers j = .fail) :
    (∃ e, Returns (fun k => AsyncStream.read k n) s (.error e)) ∨
      ∃ chunk s' i, Returns (fun k => AsyncStream.read k n) s (.ok (chunk, s')) ∧
        i < j ∧ s'.answers i = .fail := by
  -- by induction on the polls before the failure
  induction j generalizing s with
  | zero =>
    have hpoll : s.pollRead n = (.ready (.error .inner), s.tick) := by
      simp [AsyncStream.pollRead, hj]
    exact .inl ⟨.inner, returns_read_error hpoll⟩
  | succ j ih =>
    rcases s.pollRead_cases n with ⟨s', hs', hrest, hans⟩ | ⟨s', hs', -, -, -⟩ |
      ⟨chunk, s', hs', hrest, hans, -, -⟩
    · have hj' : s'.answers j = .fail := by
        rw [hans]
        exact hj
      rcases ih hj' with ⟨e, he⟩ | ⟨chunk, s'', i, hret, hi, hfail⟩
      · exact .inl ⟨e, returns_read_pending hs' he⟩
      · exact .inr ⟨chunk, s'', i, returns_read_pending hs' hret, by omega, hfail⟩
    · exact .inl ⟨.inner, returns_read_error hs'⟩
    · exact .inr ⟨chunk, s', j, returns_read_ok hs', by omega, by rw [hans]; exact hj⟩

theorem readExact_halts (n : ℕ) {j : ℕ} (hj : s.answers j = .fail) :
    Halts (fun k => readExact AsyncStream.read k n) s := by
  induction j using Nat.strong_induction_on generalizing s n with
  | _ j ih =>
  by_cases hn : n = 0
  · exact (Halts.pure ([] : Bytes) ⟨j, hj⟩).succ fun k => by rw [readExact, if_pos hn]
  refine Halts.succ (q := fun k => AsyncStream.read k n >>= _) ?_
    (fun k => by rw [readExact, if_neg hn])
  rcases read_closer n hj with ⟨e, he⟩ | ⟨chunk, s', i, hret, hi, hfail⟩
  · exact .inl ⟨e, he.bind_error (f := fun chunk k => if chunk = [] then _ else _)⟩
  by_cases hchunk : chunk = []
  · refine .inl ⟨.unexpectedEof, hret.bind (f := fun chunk k => if chunk = [] then _ else _) ?_⟩
    simp only [hchunk, if_true]
    exact .fail _ s'
  have hrest : Halts (fun k => do
      let more ← readExact AsyncStream.read k (n - chunk.length)
      pure (chunk ++ more)) s' :=
    (ih i hi (n - chunk.length) hfail).bind fun more s'' hfail' => .pure (chunk ++ more) hfail'
  rcases hrest with ⟨e, he⟩ | ⟨a, s'', hret', hfail'⟩
  · refine .inl ⟨e, hret.bind (f := fun chunk k => if chunk = [] then _ else _) ?_⟩
    simpa only [if_neg hchunk] using he
  · refine .inr ⟨a, s'', hret.bind (f := fun chunk k => if chunk = [] then _ else _) ?_, hfail'⟩
    simpa only [if_neg hchunk] using hret'

theorem fill_halts (n : ℕ) {j : ℕ} (hj : s.answers j = .fail) :
    Halts (fun k => fill k n) s := by
  induction j using Nat.strong_induction_on generalizing s n with
  | _ j ih =>
  by_cases hn : n = 0
  · exact (Halts.pure ([] : Bytes) ⟨j, hj⟩).succ fun k => by rw [fill, if_pos hn]
  refine Halts.succ (q := fun k => AsyncStream.read k n >>= _) ?_
    (fun k => by rw [fill, if_neg hn])
  rcases read_closer n hj with ⟨e, he⟩ | ⟨chunk, s', i, hret, hi, hfail⟩
  · exact .inl ⟨e, he.bind_error
      (f := fun chunk k => fill k (n - chunk.length) >>= fun more => pure (chunk ++ more))⟩
  have hrest : Halts (fun k => do
      let more ← fill k (n - chunk.length)
      pure (chunk ++ more)) s' :=
    (ih i hi (n - chunk.length) hfail).bind fun more s'' hfail' => .pure (chunk ++ more) hfail'
  rcases hrest with ⟨e, he⟩ | ⟨a, s'', hret', hfail'⟩
  · exact .inl ⟨e, hret.bind
      (f := fun chunk k => fill k (n - chunk.length) >>= fun more => pure (chunk ++ more)) he⟩
  · exact .inr ⟨a, s'', hret.bind
      (f := fun chunk k => fill k (n - chunk.length) >>= fun more => pure (chunk ++ more)) hret',
      hfail'⟩

/-- A reader that fails at some poll ends the loop, whatever the stream holds. -/
theorem readBytesBuf_halts (lo hi : ℕ) {j : ℕ} (hj : s.answers j = .fail) :
    Halts (readBytesBuf lo hi) s := by
  have hlen : Halts readU64Le s :=
    (readExact_halts 8 hj).bind fun buf s' hfail => .pure (leValue buf) hfail
  refine hlen.bind fun len s' ⟨i, hi'⟩ => ?_
  by_cases hrange : ¬ (lo ≤ len ∧ len ≤ hi)
  · simp only [if_pos hrange]
    exact .fail _
  simp only [if_neg hrange]
  refine (fill_halts _ hi').bind fun buf s'' hfail => ?_
  split_ifs
  · exact .fail _
  · exact .pure _ hfail

end

-- ====================
-- When reading ends
-- ====================

theorem dropRanged_eq_endInName_iff {lo hi : ℕ} {b : Bytes} :
    dropRanged .endInName lo hi b = .error .endInName ↔ CutOff lo hi b := by
  rw [dropRanged, except_bind_eq_error_iff]
  constructor
  · rintro (h | ⟨⟨len, part⟩, hlen, h⟩)
    · cases failsOnly_dropU64 _ _ h
    obtain ⟨hlt, rfl⟩ := dropU64_eq_ok_iff.mp hlen
    have hvalue : leValue ((leBytes 8 len ++ part).take 8) = len := by
      rw [List.take_left' (length_leBytes 8 len), leValue_leBytes hlt]
    dsimp only at h
    by_cases hrange : lo ≤ len ∧ len ≤ hi
    swap
    · rw [if_pos hrange] at h
      cases h
    rw [if_neg (not_not.mpr hrange), except_bind_eq_error_iff] at h
    rcases h with h | ⟨w, -, h⟩
    · rw [takeExact, padded_eq] at h
      split_ifs at h with hshort
      rw [CutOff, hvalue, List.length_append, length_leBytes]
      omega
    · cases FailsOnly.ite (d := ParseError.invalid) .error (.ok _) _ h
  · rintro ⟨hlen, hrange, hshort⟩
    have htake : (b.take 8).length = 8 := by
      rw [List.length_take]
      omega
    have hdrop : dropU64 b = .ok (leValue (b.take 8), b.drop 8) := by
      apply dropU64_eq_ok_iff.mpr
      have hlt := leValue_lt (b.take 8)
      have hle := leBytes_leValue (b.take 8)
      rw [htake] at hlt hle
      exact ⟨hlt, by rw [hle, List.take_append_drop]⟩
    refine .inr ⟨_, hdrop, ?_⟩
    dsimp only
    rw [if_neg (not_not.mpr hrange), takeExact, padded_eq, if_neg]
    · rfl
    · rw [List.length_drop]
      omega

variable {s : AsyncStream}

/-- A stream that becomes ready again is read to the payload or an error, unless it
    ends within the byte string and the reader goes on without an error. -/
theorem readBytesBuf_finishes_iff (lo hi : ℕ) (hfair : s.Fair) :
    Finishes lo hi s ↔ (s.Faultless → ¬ CutOff lo hi s.rest) := by
  by_cases hfaultless : s.Faultless
  · have hagrees := agrees_readBytesBuf lo hi (s := s) ⟨hfaultless, hfair⟩
    rw [← dropRanged_eq_endInName_iff]
    constructor
    · intro hfin _ hcut
      obtain ⟨r, hret⟩ : ∃ r, Returns (readBytesBuf lo hi) s r := by
        rcases hfin with ⟨e, he⟩ | ⟨payload, s', hret, -⟩
        · exact ⟨_, he⟩
        · exact ⟨_, hret⟩
      rcases hagrees with ⟨a, s', hr, -, -⟩ | ⟨d, e, hr, hd, -⟩ | ⟨d, -, -, hdiv⟩
      · cases hcut.symm.trans hr
      · cases hcut.symm.trans hr
        exact hd rfl
      · exact hdiv.not_returns r hret
    · intro hcut
      rcases hagrees with ⟨a, s', -, -, hret⟩ | ⟨d, e, -, -, hret⟩ | ⟨d, hr, hd, -⟩
      · exact .of_returns hret
      · exact .of_returns hret
      · cases hd
        exact absurd hr (hcut hfaultless)
  · obtain ⟨j, hj⟩ : ∃ j, s.answers j = .fail := by
      simpa only [AsyncStream.Faultless, not_forall, not_not] using hfaultless
    constructor
    · exact fun _ h => absurd h hfaultless
    · intro _
      rcases readBytesBuf_halts lo hi hj with ⟨e, he⟩ | ⟨a, s', hret, -⟩
      · exact .of_returns he
      · exact .of_returns hret

/-- A name of one byte that is not there. -/
def cutName : AsyncStream := ⟨leBytes 8 1, fun _ => .chunk 0⟩

theorem cutName_fair : cutName.Fair := fun i => ⟨0, by rw [cutName]; exact Answer.noConfusion⟩

theorem readBytesBuf_finishes_complete :
    Finishes 1 255 ⟨packet [120], fun _ => .chunk 2⟩ :=
  (readBytesBuf_finishes_iff 1 255 fun i => ⟨0, Answer.noConfusion⟩).mpr
    fun _ => by decide

/-- Reading the name that is not there goes on however many steps it gets. -/
theorem readBytesBuf_cut_off : cutName.Fair ∧ ¬ Finishes 1 255 cutName := by
  have hcut : CutOff 1 255 cutName.rest := by decide
  have hdrop := dropRanged_eq_endInName_iff.mpr hcut
  refine ⟨cutName_fair, ?_⟩
  have hfaultless : cutName.Faultless := fun i => by rw [cutName]; exact Answer.noConfusion
  rcases agrees_readBytesBuf 1 255 (s := cutName) ⟨hfaultless, cutName_fair⟩ with
    ⟨a, s', hr, -, -⟩ | ⟨d, e, hr, hd, -⟩ | ⟨d, -, -, hdiv⟩
  · cases hdrop.symm.trans hr
  · cases hdrop.symm.trans hr
    exact absurd rfl hd
  · rintro (⟨e, he⟩ | ⟨payload, s', hret, -⟩)
    · exact hdiv.not_returns _ he
    · exact hdiv.not_returns _ hret

end Async

end Snix.Nar
