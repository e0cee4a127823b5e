import Snix.Lib.LittleEndian
import Snix.NixCompat.Wire.Await

/-!
# Reading a framed stream

The daemon protocol sends data of unknown length in frames: a length of 8 bytes
in front of every frame, and a zero length behind the last one. `NixFramedReader`
takes the lengths out again. A poll may be interrupted after any byte of a length.

## Main definitions

- `NixFramedReader`, `pollRead`, `pollIsEof` — the reader and its operations
- `framed` — the frames on the wire
- `FramedSession` — the reader together with the bytes it handed out

## Main results

- `NixFramedReader.Inv` — what is left on the wire, in every state
- `delivers_frames` — what a client sees of a complete stream, and of one that was cut
-/

namespace Snix.NixDaemon

inductive FramedState where
  /-- Inside a length, of which these bytes are known. -/
  | length (buf : Bytes)
  /-- Inside a frame. -/
  | chunk (remaining : ℕ)
  | eof
  deriving DecidableEq

structure NixFramedReader where
  reader : AsyncStream
  state : FramedState

/-- The state behind a length. -/
def FramedState.ofLength (buf : Bytes) : FramedState :=
  if leValue buf = 0 then .eof else .chunk (leValue buf)

namespace NixFramedReader

def new (reader : AsyncStream) : NixFramedReader := ⟨reader, .length []⟩

/-- Reads on a length that is not complete. -/
def pollLength (buf : Bytes) (fr : NixFramedReader) :
    Poll (Except IoError Unit) × NixFramedReader :=
  match fr.reader.pollRead (8 - buf.length) with
  | (.pending, r) => (.pending, { fr with reader := r })
  | (.ready (.error e), r) => (.ready (.error e), { fr with reader := r })
  | (.ready (.ok []), r) => (.ready (.error .unexpectedEof), { fr with reader := r })
  | (.ready (.ok (b :: chunk)), r) => (.ready (.ok ()), ⟨r, .length (buf ++ b :: chunk)⟩)

/-- The loop of both operations: completes a length, and goes on with `next` inside a frame or
    at the end. Every round but one takes at least a byte of the length. -/
def lengthLoop {α : Type} (next : NixFramedReader → Poll (Except IoError α) × NixFramedReader) :
    ℕ → NixFramedReader → Poll (Except IoError α) × NixFramedReader
  | 0, fr => (.pending, fr)
  | fuel + 1, fr =>
    match fr.state with
    | .length buf =>
      if buf.length = 8 then lengthLoop next fuel { fr with state := .ofLength buf }
      else match fr.pollLength buf with
        | (.pending, fr) => (.pending, fr)
        | (.ready (.error e), fr) => (.ready (.error e), fr)
        | (.ready (.ok ()), fr) => lengthLoop next fuel fr
    | .chunk _ => next fr
    | .eof => next fr

/-- Reads at most `n` bytes of a frame. -/
def pollChunk (n : ℕ) (fr : NixFramedReader) : Poll (Except IoError Bytes) × NixFramedReader :=
  match fr.state with
  | .length _ => (.pending, fr)
  | .eof => (.ready (.ok []), fr)
  | .chunk remaining =>
    match fr.reader.pollRead (min n remaining) with
    | (.pending, r) => (.pending, { fr with reader := r })
    | (.ready (.error e), r) => (.ready (.error e), { fr with reader := r })
    | (.ready (.ok []), r) => (.ready (.error .unexpectedEof), { fr with reader := r })
    | (.ready (.ok (b :: chunk)), r) =>
      let left := remaining - (b :: chunk).length
      (.ready (.ok (b :: chunk)), ⟨r, if left = 0 then .length [] else .chunk left⟩)

/-- Polls for at most `n` bytes. -/
def pollRead (n : ℕ) (fr : NixFramedReader) : Poll (Except IoError Bytes) × NixFramedReader :=
  -- reading nothing always succeeds
  if n = 0 then (.ready (.ok []), fr) else fr.lengthLoop (pollChunk n) 10

/-- Has the reader reached the end? -/
def atEof (fr : NixFramedReader) : Poll (Except IoError Bool) × NixFramedReader :=
  (.ready (.ok (fr.state = .eof)), fr)

/-- A poll of `is_eof`. -/
def pollIsEof (fr : NixFramedReader) : Poll (Except IoError Bool) × NixFramedReader :=
  fr.lengthLoop atEof 10

end NixFramedReader

inductive FramedOp where
  | read (n : ℕ)
  | isEof

/-- A reader, and what it has handed out. -/
structure FramedSession where
  reader : NixFramedReader
  handed : Bytes

namespace FramedSession

def start (reader : AsyncStream) : FramedSession := ⟨.new reader, []⟩

def step (s : FramedSession) : FramedOp → FramedSession
  | .read n =>
    match s.reader.pollRead n with
    | (.ready (.ok chunk), fr) => ⟨fr, s.handed ++ chunk⟩
    | (_, fr) => { s with reader := fr }
  | .isEof => { s with reader := s.reader.pollIsEof.2 }

def run (s : FramedSession) (ops : List FramedOp) : FramedSession := ops.foldl step s

end FramedSession

-- ====================
-- The wire
-- ====================

/-- Frames on the wire, with the terminator. -/
def framed : List Bytes → Bytes
  | [] => leBytes 8 0
  | f :: fs => leBytes 8 f.length ++ f ++ framed fs

/-- Frames that can be sent: not empty, and with a length of 64 bits. -/
def Frames (fs : List Bytes) : Prop := ∀ f ∈ fs, f ≠ [] ∧ f.length < 2 ^ 64

theorem eight_le_length_framed (fs : List Bytes) : 8 ≤ (framed fs).length := by
  cases fs with
  | nil => exact (length_leBytes 8 0).ge
  | cons f fs =>
    simp only [framed, List.length_append, length_leBytes]
    omega

/-- What the wire still holds in a state: the bytes to hand out, and what comes behind the
    terminator. -/
def FramedState.Expects (trailing : Bytes) : FramedState → Bytes → Bytes → Prop
  | .length buf, data, wire =>
    ∃ fs, Frames fs ∧ data = fs.flatten ∧ buf.length ≤ 8 ∧ buf ++ wire = framed fs ++ trailing
  | .chunk remaining, data, wire =>
    ∃ c fs, Frames fs ∧ data = c ++ fs.flatten ∧ c.length = remaining ∧ 0 < remaining ∧
      wire = c ++ framed fs ++ trailing
  | .eof, data, wire => data = [] ∧ wire = trailing

/-- There are bytes to be read before the end. -/
def FramedState.Open : FramedState → Prop
  | .length buf => buf.length < 8
  | .chunk _ => True
  | .eof => False

theorem FramedState.Expects.length_lt {trailing data wire : Bytes} {st : FramedState}
    (h : st.Expects trailing data wire) (hopen : st.Open) : trailing.length < wire.length := by
  match st, h, hopen with
  | .length buf, ⟨fs, _, _, _, hwire⟩, hopen =>
    have height := eight_le_length_framed fs
    have hlen := congrArg List.length hwire
    rw [List.length_append, List.length_append] at hlen
    have hbuf : buf.length < 8 := hopen
    omega
  | .chunk remaining, ⟨c, fs, _, _, hc, hpos, hwire⟩, _ =>
    have hlen := congrArg List.length hwire
    rw [List.length_append, List.length_append] at hlen
    omega

theorem FramedState.Expects.suffix {trailing data wire : Bytes} {st : FramedState}
    (h : st.Expects trailing data wire) : trailing <:+ wire := by
  match st, h with
  | .length buf, ⟨fs, _, _, hle, hwire⟩ =>
    have height := eight_le_length_framed fs
    have hlen := congrArg List.length hwire
    rw [List.length_append, List.length_append] at hlen
    refine List.suffix_of_suffix_length_le (List.suffix_append (framed fs) trailing) ?_ (by omega)
    exact hwire ▸ List.suffix_append buf wire
  | .chunk remaining, ⟨c, fs, _, _, _, _, hwire⟩ => exact hwire ▸ List.suffix_append _ _
  | .eof, ⟨_, hwire⟩ => exact hwire ▸ List.suffix_refl _

theorem FramedState.Expects.ofLength {trailing buf data wire : Bytes}
    (h : (FramedState.length buf).Expects trailing data wire) (hbuf : buf.length = 8) :
    (FramedState.ofLength buf).Expects trailing data wire := by
  obtain ⟨fs, hfs, hdata, -, hwire⟩ := h
  cases fs with
  | nil =>
    obtain ⟨rfl, hrest⟩ := List.append_inj hwire (hbuf.trans (length_leBytes 8 0).symm)
    rw [FramedState.ofLength, framed, leValue_leBytes (by decide), if_pos rfl]
    exact ⟨hdata, hrest⟩
  | cons f fs =>
    obtain ⟨hne, hlt⟩ := hfs f List.mem_cons_self
    rw [framed, List.append_assoc, List.append_assoc] at hwire
    obtain ⟨rfl, hrest⟩ := List.append_inj hwire (hbuf.trans (length_leBytes 8 _).symm)
    have hpos := List.length_pos_iff.mpr hne
    rw [FramedState.ofLength, leValue_leBytes (by omega), if_neg (by omega)]
    refine ⟨f, fs, fun g hg => hfs g (List.mem_cons_of_mem f hg), hdata, rfl, hpos, ?_⟩
    rw [hrest, List.append_assoc]

-- ====================
-- The invariant
-- ====================

namespace NixFramedReader

/-- The invariant of a reader that has `data` to hand out; `missing` was cut off the wire. -/
structure Inv (trailing missing : Bytes) (r₀ : AsyncStream) (data : Bytes)
    (fr : NixFramedReader) : Prop where
  later : fr.reader.Later r₀
  expects : fr.state.Expects trailing data (fr.reader.rest ++ missing)

/-- The reader did not take part in a poll, or it lost bytes. -/
def Ahead (fr fr' : NixFramedReader) : Prop :=
  fr'.reader.rest.length < fr.reader.rest.length ∨ fr'.reader = fr.reader

variable {trailing missing data : Bytes} {r₀ : AsyncStream} {fr : NixFramedReader}

theorem Ahead.stalled {fr' fr'' : NixFramedReader} (h : fr.Ahead fr')
    (hstalled : Stalled fr'.reader fr''.reader) : Stalled fr.reader fr''.reader := by
  rcases h with hlt | heq
  · rcases hstalled with hlt' | ⟨-, hrest, -⟩
    · exact .inl (hlt'.trans hlt)
    · exact .inl (hrest ▸ hlt)
  · exact heq ▸ hstalled

theorem Ahead.trans {fr' fr'' : NixFramedReader} (h : fr.Ahead fr') (h' : fr'.Ahead fr'') :
    fr.Ahead fr'' := by
  rcases h with hlt | heq
  · rcases h' with hlt' | heq'
    · exact .inl (hlt'.trans hlt)
    · exact .inl (heq' ▸ hlt)
  · rcases h' with hlt' | heq'
    · exact .inl (heq ▸ hlt')
    · exact .inr (heq'.trans heq)

/-- How a poll ends before it has a result: the stream is not ready, fails or was cut. -/
def Interrupted (trailing missing : Bytes) (r₀ : AsyncStream) (data : Bytes)
    (fr : NixFramedReader) {α : Type} (r : Poll (Except IoError α) × NixFramedReader) : Prop :=
  r.2.Inv trailing missing r₀ data ∧ r.2.state.Open ∧
    (r.1 = .pending ∧ Stalled fr.reader r.2.reader ∨
      r.1 = .ready (.error .inner) ∧ ¬ r₀.Faultless ∨
      r.1 = .ready (.error .unexpectedEof) ∧ trailing.length < missing.length)

theorem pollLength_spec {buf : Bytes} (h : fr.Inv trailing missing r₀ data)
    (hst : fr.state = .length buf) (hbuf : buf.length ≠ 8) :
    Interrupted trailing missing r₀ data fr (fr.pollLength buf) ∨
      ∃ fr' chunk, fr.pollLength buf = (.ready (.ok ()), fr') ∧
        fr'.Inv trailing missing r₀ data ∧ chunk ≠ [] ∧ fr'.state = .length (buf ++ chunk) ∧
        fr'.reader.rest.length < fr.reader.rest.length := by
  have hexp := h.expects
  rw [hst] at hexp
  obtain ⟨fs, hfs, hdata, hle, hwire⟩ := hexp
  have hkeep : ∀ r : AsyncStream, r.rest = fr.reader.rest →
      r.answers = fr.reader.tick.answers →
      Inv trailing missing r₀ data { fr with reader := r } := by
    intro r hrest hans
    refine ⟨h.later.of_tick hans, ?_⟩
    rw [hst, hrest]
    exact ⟨fs, hfs, hdata, hle, hwire⟩
  have hopen : fr.state.Open := by
    rw [hst]
    exact lt_of_le_of_ne hle hbuf
  unfold pollLength
  rcases fr.reader.pollRead_cases (8 - buf.length) with
    ⟨r, hpoll, hrest, hans⟩ | ⟨r, hpoll, hrest, hans, hfault⟩ |
      ⟨chunk, r, hpoll, hrest, hans, hlen, hnil⟩
  · rw [hpoll]
    exact .inl ⟨hkeep r hrest hans, hopen,
      .inl ⟨rfl, .inr ⟨AsyncStream.pending_of_pollRead hpoll, hrest, hans⟩⟩⟩
  · rw [hpoll]
    refine .inl ⟨hkeep r hrest hans, hopen, .inr (.inl ⟨rfl, fun hf => ?_⟩)⟩
    exact hfault (h.later.faultless hf)
  · rw [hpoll]
    cases chunk with
    | nil =>
      refine .inl ⟨hkeep r hrest.symm hans, hopen, .inr (.inr ⟨rfl, ?_⟩)⟩
      have hempty : fr.reader.rest = [] := (hnil rfl).resolve_left (by omega)
      have hlen := congrArg List.length hwire
      have height := eight_le_length_framed fs
      simp only [hempty, List.length_append, List.length_nil] at hlen
      omega
    | cons b chunk =>
      refine .inr ⟨_, b :: chunk, rfl, ⟨h.later.of_tick hans, fs, hfs, hdata, ?_, ?_⟩,
        List.cons_ne_nil _ _, rfl, ?_⟩
      · rw [List.length_append]
        omega
      · rw [← hwire, hrest, List.append_assoc, List.append_assoc]
      · rw [hrest, List.length_append, List.length_cons]
        dsimp only
        omega

/-- How many rounds the loop may still take. -/
def rounds (fr : NixFramedReader) : ℕ :=
  match fr.state with
  | .length buf => 9 - buf.length
  | _ => 0

theorem rounds_lt (fr : NixFramedReader) : fr.rounds < 10 := by
  unfold rounds
  cases fr.state <;> dsimp only <;> omega

/-- The loop is interrupted, or goes on inside a frame or at the end. -/
theorem lengthLoop_spec {α : Type}
    (next : NixFramedReader → Poll (Except IoError α) × NixFramedReader) (fuel : ℕ)
    (h : fr.Inv trailing missing r₀ data) (hfuel : fr.rounds < fuel) :
    Interrupted trailing missing r₀ data fr (fr.lengthLoop next fuel) ∨
      ∃ fr', fr.lengthLoop next fuel = next fr' ∧ fr'.Inv trailing missing r₀ data ∧
        fr.Ahead fr' ∧ ∀ buf, fr'.state ≠ .length buf := by
  induction fuel generalizing fr with
  | zero => exact absurd hfuel (Nat.not_lt_zero _)
  | succ fuel ih =>
    unfold lengthLoop
    unfold rounds at hfuel
    cases hst : fr.state with
    | eof => exact .inr ⟨fr, rfl, h, .inr rfl, fun buf => by rw [hst]; exact nofun⟩
    | chunk remaining => exact .inr ⟨fr, rfl, h, .inr rfl, fun buf => by rw [hst]; exact nofun⟩
    | length buf =>
      rw [hst] at hfuel
      dsimp only at hfuel ⊢
      -- the rounds that follow a round that left this reader
      have hgo : ∀ fr' : NixFramedReader, fr'.Inv trailing missing r₀ data → fr.Ahead fr' →
          fr'.rounds < fuel →
          Interrupted trailing missing r₀ data fr (fr'.lengthLoop next fuel) ∨
            ∃ fr'', fr'.lengthLoop next fuel = next fr'' ∧ fr''.Inv trailing missing r₀ data ∧
              fr.Ahead fr'' ∧ ∀ buf, fr''.state ≠ .length buf := by
        intro fr' hinv hahead hrounds
        rcases ih hinv hrounds with ⟨hinv', hopen, hres⟩ | ⟨fr'', hrun, hinv', hahead', hst'⟩
        · exact .inl ⟨hinv', hopen, hres.imp_left fun ⟨hp, hs⟩ => ⟨hp, hahead.stalled hs⟩⟩
        · exact .inr ⟨fr'', hrun, hinv', hahead.trans hahead', hst'⟩
      split_ifs with hbuf
      · have hexp := h.expects
        rw [hst] at hexp
        apply hgo { fr with state := .ofLength buf } ⟨h.later, hexp.ofLength hbuf⟩ (.inr rfl)
        unfold rounds FramedState.ofLength
        dsimp only
        split_ifs <;> dsimp only <;> omega
      · rcases pollLength_spec h hst hbuf with
          ⟨hinv, hopen, hres⟩ | ⟨fr', chunk, hpoll, hinv, hne, hst', hlt⟩
        · left
          generalize fr.pollLength buf = res at hinv hopen hres ⊢
          match res, hinv, hopen, hres with
          | (.pending, fr'), hinv, hopen, hres =>
            refine ⟨hinv, hopen, .inl ⟨rfl, ?_⟩⟩
            rcases hres with ⟨-, hs⟩ | ⟨hres, -⟩ | ⟨hres, -⟩
            · exact hs
            · cases hres
            · cases hres
          | (.ready (.error e), fr'), hinv, hopen, hres =>
            refine ⟨hinv, hopen, .inr ?_⟩
            rcases hres with ⟨hres, -⟩ | ⟨hres, hf⟩ | ⟨hres, hcut⟩
            · cases hres
            · cases hres
              exact .inl ⟨rfl, hf⟩
            · cases hres
              exact .inr ⟨rfl, hcut⟩
          | (.ready (.ok ()), fr'), hinv, hopen, hres =>
            rcases hres with ⟨hres, -⟩ | ⟨hres, -⟩ | ⟨hres, -⟩ <;> cases hres
        · rw [hpoll]
          apply hgo fr' hinv (.inl hlt)
          have hexp := hinv.expects
          rw [hst'] at hexp
          obtain ⟨-, -, -, hle, -⟩ := hexp
          have hpos := List.length_pos_iff.mpr hne
          unfold rounds
          rw [hst']
          dsimp only
          rw [List.length_append] at hle ⊢
          omega

theorem pollChunk_spec {n : ℕ} (hn : 0 < n) (h : fr.Inv trailing missing r₀ data)
    (hst : ∀ buf, fr.state ≠ .length buf) :
    Interrupted trailing missing r₀ data fr (fr.pollChunk n) ∨
      fr.pollChunk n = (.ready (.ok []), fr) ∧ fr.state = .eof ∨
      ∃ chunk data' fr', fr.pollChunk n = (.ready (.ok chunk), fr') ∧ chunk ≠ [] ∧
        chunk.length ≤ n ∧ data = chunk ++ data' ∧ fr'.Inv trailing missing r₀ data' ∧
        fr'.state.Open ∧ fr'.reader.rest.length < fr.reader.rest.length := by
  have hexp := h.expects
  unfold pollChunk
  cases hst' : fr.state with
  | length buf => exact absurd hst' (hst buf)
  | eof => exact .inr (.inl ⟨rfl, rfl⟩)
  | chunk remaining =>
    rw [hst'] at hexp
    obtain ⟨c, fs, hfs, hdata, hc, hpos, hwire⟩ := hexp
    have hkeep : ∀ r : AsyncStream, r.rest = fr.reader.rest →
        r.answers = fr.reader.tick.answers →
        Inv trailing missing r₀ data ⟨r, .chunk remaining⟩ := by
      intro r hrest hans
      refine ⟨h.later.of_tick hans, c, fs, hfs, hdata, hc, hpos, ?_⟩
      rw [← hwire, hrest]
    dsimp only
    rcases fr.reader.pollRead_cases (min n remaining) with
      ⟨r, hpoll, hrest, hans⟩ | ⟨r, hpoll, hrest, hans, hfault⟩ |
        ⟨chunk, r, hpoll, hrest, hans, hlen, hnil⟩
    · rw [hpoll]
      exact .inl ⟨hkeep r hrest hans, trivial,
        .inl ⟨rfl, .inr ⟨AsyncStream.pending_of_pollRead hpoll, hrest, hans⟩⟩⟩
    · rw [hpoll]
      refine .inl ⟨hkeep r hrest hans, trivial, .inr (.inl ⟨rfl, fun hf => ?_⟩)⟩
      exact hfault (h.later.faultless hf)
    · rw [hpoll]
      cases chunk with
      | nil =>
        refine .inl ⟨hkeep r hrest.symm hans, trivial, .inr (.inr ⟨rfl, ?_⟩)⟩
        have hempty : fr.reader.rest = [] := (hnil rfl).resolve_left (by omega)
        have hlen := congrArg List.length hwire
        simp only [hempty, List.length_append, List.length_nil] at hlen
        omega
      | cons b chunk =>
        -- the frame starts with the bytes that were read
        obtain ⟨c', rfl⟩ : ∃ c', c = b :: chunk ++ c' := by
          have hprefix : b :: chunk <+: c ++ (framed fs ++ trailing) := by
            rw [← List.append_assoc, ← hwire, hrest, List.append_assoc]
            exact List.prefix_append _ _
          obtain ⟨c', hc'⟩ := List.prefix_of_prefix_length_le hprefix (List.prefix_append c _)
            (by omega)
          exact ⟨c', hc'.symm⟩
        have hwire' : r.rest ++ missing = c' ++ framed fs ++ trailing := by
          rw [hrest] at hwire
          simpa only [List.append_assoc, List.append_cancel_left_eq] using hwire
        have hleft : c'.length = remaining - (b :: chunk).length := by
          rw [← hc, List.length_append, Nat.add_sub_cancel_left]
        refine .inr (.inr ⟨b :: chunk, c' ++ fs.flatten, _, rfl, List.cons_ne_nil _ _, by omega,
          by rw [hdata, List.append_assoc], ⟨h.later.of_tick hans, ?_⟩, ?_, ?_⟩)
        · dsimp only
          split_ifs with hzero
          · have hc' : c' = [] := List.length_eq_zero_iff.mp (hleft.trans hzero)
            refine ⟨fs, hfs, by rw [hc', List.nil_append], Nat.zero_le _, ?_⟩
            rw [List.nil_append, hwire', hc', List.nil_append]
          · exact ⟨c', fs, hfs, rfl, hleft, by omega, hwire'⟩
        · dsimp only
          split_ifs
          · exact Nat.zero_lt_succ 7
          · trivial
        · rw [hrest, List.length_append, List.length_cons]
          dsimp only
          omega

/-- Everything a read into a buffer with room can do. -/
theorem pollRead_spec {n : ℕ} (hn : 0 < n) (h : fr.Inv trailing missing r₀ data) :
    Interrupted trailing missing r₀ data fr (fr.pollRead n) ∨
      (∃ fr', fr.pollRead n = (.ready (.ok []), fr') ∧ fr'.Inv trailing missing r₀ data ∧
        fr'.state = .eof) ∨
      ∃ chunk data' fr', fr.pollRead n = (.ready (.ok chunk), fr') ∧ chunk ≠ [] ∧
        chunk.length ≤ n ∧ data = chunk ++ data' ∧ fr'.Inv trailing missing r₀ data' ∧
        fr'.state.Open ∧ fr'.reader.rest.length < fr.reader.rest.length := by
  unfold pollRead
  rw [if_neg (by omega)]
  rcases lengthLoop_spec (pollChunk n) 10 h fr.rounds_lt with hint | ⟨fr', hrun, hinv, hahead, hst⟩
  · exact .inl hint
  · rw [hrun]
    rcases pollChunk_spec hn hinv hst with ⟨hinv', hopen, hres⟩ | ⟨hres, heof⟩ | hchunk
    · exact .inl ⟨hinv', hopen, hres.imp_left fun ⟨hp, hs⟩ => ⟨hp, hahead.stalled hs⟩⟩
    · exact .inr (.inl ⟨fr', hres, hinv, heof⟩)
    · obtain ⟨chunk, data', fr'', hres, hne, hlen, hdata, hinv', hopen, hlt⟩ := hchunk
      refine .inr (.inr ⟨chunk, data', fr'', hres, hne, hlen, hdata, hinv', hopen, ?_⟩)
      rcases hahead with hlt' | heq
      · exact hlt.trans hlt'
      · exact heq ▸ hlt

theorem pollIsEof_spec (h : fr.Inv trailing missing r₀ data) :
    Interrupted trailing missing r₀ data fr fr.pollIsEof ∨
      ∃ fr', fr.pollIsEof = (.ready (.ok (fr'.state = .eof)), fr') ∧
        fr'.Inv trailing missing r₀ data ∧ (fr'.state = .eof ∨ fr'.state.Open) := by
  rcases lengthLoop_spec atEof 10 h fr.rounds_lt with hint | ⟨fr', hrun, hinv, -, hst⟩
  · exact .inl hint
  · refine .inr ⟨fr', hrun, hinv, ?_⟩
    cases hst' : fr'.state with
    | length buf => exact absurd hst' (hst buf)
    | chunk remaining => exact .inr trivial
    | eof => exact .inl rfl

end NixFramedReader

-- ====================
-- What a client sees
-- ====================

namespace FramedSession

/-- Reads with these sizes of buffers, one after the other. -/
def reads (sizes : ℕ → ℕ) : ℕ → FramedSession → FramedSession
  | 0, s => s
  | m + 1, s => reads (fun i => sizes (i + 1)) m (s.step (.read (sizes 0)))

/-- What a client sees of a stream that holds all frames. -/
structure Complete (frames : List Bytes) (trailing : Bytes) (r₀ : AsyncStream)
    (s : FramedSession) : Prop where
  handed_prefix : s.handed <+: frames.flatten
  /-- Nothing behind the terminator is taken. -/
  rest_suffix : trailing <:+ s.reader.reader.rest
  /-- The end is reported exactly when the terminator was taken. -/
  read_eof : ∀ n, 0 < n → ((s.reader.pollRead n).1 = .ready (.ok []) ↔
    (s.reader.pollRead n).2.reader.rest = trailing)
  handed_eof : ∀ n, 0 < n → (s.reader.pollRead n).1 = .ready (.ok []) → s.handed = frames.flatten
  isEof : s.reader.pollIsEof.1 = .ready (.ok true) ↔ s.reader.pollIsEof.2.reader.rest = trailing
  read_error : ∀ n e, (s.reader.pollRead n).1 = .ready (.error e) → e = .inner ∧ ¬ r₀.Faultless
  finishes : r₀.Fair → r₀.Faultless → ∀ sizes : ℕ → ℕ, (∀ i, 0 < sizes i) →
    ∃ m, ((reads sizes m s).reader.pollRead (sizes m)).1 = .ready (.ok [])

/-- What a client sees of a stream that was cut before the end of the terminator. -/
structure Truncated (frames : List Bytes) (r₀ : AsyncStream) (s : FramedSession) : Prop where
  handed_prefix : s.handed <+: frames.flatten
  no_eof : ∀ n, 0 < n → (s.reader.pollRead n).1 ≠ .ready (.ok [])
  isEof : s.reader.pollIsEof.1 ≠ .ready (.ok true)
  finishes : r₀.Fair → r₀.Faultless → ∀ sizes : ℕ → ℕ, (∀ i, 0 < sizes i) →
    ∃ m, ((reads sizes m s).reader.pollRead (sizes m)).1 = .ready (.error .unexpectedEof)

/-- The invariant of a session. -/
def Inv (payload trailing missing : Bytes) (r₀ : AsyncStream) (s : FramedSession) : Prop :=
  ∃ data, s.handed ++ data = payload ∧ s.reader.Inv trailing missing r₀ data

variable {payload trailing missing : Bytes} {r₀ : AsyncStream} {s : FramedSession}

theorem Inv.step (h : s.Inv payload trailing missing r₀) (op : FramedOp) :
    (s.step op).Inv payload trailing missing r₀ := by
  obtain ⟨data, hdata, hinv⟩ := h
  unfold FramedSession.step
  cases op with
  | read n =>
    rcases Nat.eq_zero_or_pos n with rfl | hn
    · exact ⟨data, by rw [← hdata]; exact congrArg (· ++ data) (List.append_nil _), hinv⟩
    · rcases NixFramedReader.pollRead_spec hn hinv with
        ⟨hinv', -, hres⟩ | ⟨fr', hres, hinv', -⟩ |
          ⟨chunk, data', fr', hres, -, -, hchunk, hinv', -⟩
      · dsimp only
        generalize s.reader.pollRead n = r at hinv' hres ⊢
        match r, hinv', hres with
        | (.pending, fr'), hinv', _ => exact ⟨data, hdata, hinv'⟩
        | (.ready (.error e), fr'), hinv', _ => exact ⟨data, hdata, hinv'⟩
        | (.ready (.ok chunk), fr'), _, hres =>
          rcases hres with ⟨hres, -⟩ | ⟨hres, -⟩ | ⟨hres, -⟩ <;> cases hres
      · dsimp only
        rw [hres]
        exact ⟨data, by rw [← hdata]; exact congrArg (· ++ data) (List.append_nil _), hinv'⟩
      · dsimp only
        rw [hres]
        exact ⟨data', by rw [← hdata, hchunk, List.append_assoc], hinv'⟩
  | isEof =>
    refine ⟨data, hdata, ?_⟩
    rcases NixFramedReader.pollIsEof_spec hinv with ⟨hinv', -⟩ | ⟨fr', hres, hinv', -⟩
    · exact hinv'
    · dsimp only
      rw [hres]
      exact hinv'

theorem Inv.run (h : s.Inv payload trailing missing r₀) (ops : List FramedOp) :
    (s.run ops).Inv payload trailing missing r₀ := by
  induction ops generalizing s with
  | nil => exact h
  | cons op ops ih => exact ih (h.step op)

theorem Inv.after_reads (h : s.Inv payload trailing missing r₀) (sizes : ℕ → ℕ) (m : ℕ) :
    (reads sizes m s).Inv payload trailing missing r₀ := by
  induction m generalizing s sizes with
  | zero => exact h
  | succ m ih => exact ih (h.step _) _

theorem inv_start {frames : List Bytes} {r₀ : AsyncStream} (hframes : Frames frames)
    (hcut : r₀.rest ++ missing = framed frames ++ trailing) :
    (start r₀).Inv frames.flatten trailing missing r₀ :=
  ⟨_, rfl, .refl _, frames, hframes, rfl, Nat.zero_le _, hcut⟩

theorem Inv.handed_prefix (h : s.Inv payload trailing missing r₀) : s.handed <+: payload := by
  obtain ⟨data, hdata, -⟩ := h
  exact ⟨data, hdata⟩

/-- At the end everything was handed out, and nothing was cut off before it. -/
theorem Inv.eof {n : ℕ} (hn : 0 < n) (h : s.Inv payload trailing missing r₀)
    (heof : (s.reader.pollRead n).1 = .ready (.ok [])) :
    s.handed = payload ∧ (s.reader.pollRead n).2.reader.rest ++ missing = trailing := by
  obtain ⟨data, hdata, hinv⟩ := h
  rcases NixFramedReader.pollRead_spec hn hinv with
    ⟨-, -, ⟨hres, -⟩ | ⟨hres, -⟩ | ⟨hres, -⟩⟩ | ⟨fr', hres, hinv', hst⟩ |
      ⟨chunk, data', fr', hres, hne, -⟩
  · rw [hres] at heof
    cases heof
  · rw [hres] at heof
    cases heof
  · rw [hres] at heof
    cases heof
  · have hexp := hinv'.expects
    rw [hst] at hexp
    rw [hres]
    refine ⟨?_, hexp.2⟩
    rw [← hdata, hexp.1, List.append_nil]
  · rw [hres] at heof
    cases heof
    exact absurd rfl hne

/-- Before the end there is more on the wire than what comes behind the terminator. -/
theorem Inv.not_eof {n : ℕ} (hn : 0 < n) (h : s.Inv payload trailing missing r₀)
    (heof : (s.reader.pollRead n).1 ≠ .ready (.ok [])) :
    trailing.length < ((s.reader.pollRead n).2.reader.rest ++ missing).length := by
  obtain ⟨data, hdata, hinv⟩ := h
  rcases NixFramedReader.pollRead_spec hn hinv with
    ⟨hinv', hopen, -⟩ | ⟨fr', hres, -⟩ | ⟨chunk, data', fr', hres, -, -, -, hinv', hopen, -⟩
  · exact hinv'.expects.length_lt hopen
  · exact absurd (congrArg Prod.fst hres) heof
  · rw [hres]
    exact hinv'.expects.length_lt hopen

theorem Inv.isEof (h : s.Inv payload trailing missing r₀) :
    s.reader.pollIsEof.1 = .ready (.ok true) ↔
      s.reader.pollIsEof.2.reader.rest ++ missing = trailing := by
  obtain ⟨data, -, hinv⟩ := h
  rcases NixFramedReader.pollIsEof_spec hinv with
    ⟨hinv', hopen, hres⟩ | ⟨fr', hres, hinv', hst | hopen⟩
  · have hlt := hinv'.expects.length_lt hopen
    constructor
    · intro htrue
      rw [htrue] at hres
      rcases hres with ⟨hres, -⟩ | ⟨hres, -⟩ | ⟨hres, -⟩ <;> cases hres
    · intro heq
      rw [heq] at hlt
      exact absurd hlt (lt_irrefl _)
  · have hexp := hinv'.expects
    rw [hst] at hexp
    rw [hres, hst]
    exact ⟨fun _ => hexp.2, fun _ => rfl⟩
  · have hlt := hinv'.expects.length_lt hopen
    rw [hres]
    constructor
    · intro htrue
      have hst : fr'.state = .eof := by simpa using htrue
      rw [hst] at hopen
      exact hopen.elim
    · intro heq
      rw [heq] at hlt
      exact absurd hlt (lt_irrefl _)

/-- A read came to the end, or to the place of the cut. -/
def Ends (trailing missing : Bytes) (r : Poll (Except IoError Bytes)) : Prop :=
  r = .ready (.ok []) ∨ r = .ready (.error .unexpectedEof) ∧ trailing.length < missing.length

/-- A read ends, or the next one has less to wait for. -/
theorem Inv.ends_or_stalled {n : ℕ} (hn : 0 < n) (hfault : r₀.Faultless)
    (h : s.Inv payload trailing missing r₀) :
    Ends trailing missing (s.reader.pollRead n).1 ∨
      Stalled s.reader.reader (s.step (.read n)).reader.reader := by
  obtain ⟨data, -, hinv⟩ := h
  unfold FramedSession.step
  dsimp only
  rcases NixFramedReader.pollRead_spec hn hinv with
    ⟨-, -, hres⟩ | ⟨fr', hres, -⟩ | ⟨chunk, data', fr', hres, -, -, -, -, -, hlt⟩
  · generalize s.reader.pollRead n = r at hres ⊢
    rcases hres with ⟨hres, hstalled⟩ | ⟨-, hnot⟩ | ⟨hres, hcut⟩
    · obtain ⟨res, fr'⟩ := r
      cases hres
      exact .inr hstalled
    · exact absurd hfault hnot
    · exact .inl (.inr ⟨hres, hcut⟩)
  · exact .inl (.inl (congrArg Prod.fst hres))
  · right
    rw [hres]
    exact .inl hlt

/-- A client that reads on comes to the end, or to the place of the cut. -/
theorem Inv.ends (hfair : r₀.Fair) (hfault : r₀.Faultless)
    (h : s.Inv payload trailing missing r₀) {sizes : ℕ → ℕ} (hsizes : ∀ i, 0 < sizes i) :
    ∃ m, Ends trailing missing ((reads sizes m s).reader.pollRead (sizes m)).1 := by
  have hlater : s.reader.reader.Later r₀ := by
    obtain ⟨data, -, hinv⟩ := h
    exact hinv.later
  refine stalled_induction (P := fun r => ∀ (s : FramedSession) (sizes : ℕ → ℕ),
      s.reader.reader = r → s.Inv payload trailing missing r₀ → (∀ i, 0 < sizes i) →
        ∃ m, Ends trailing missing ((reads sizes m s).reader.pollRead (sizes m)).1)
    hfair ?_ hlater s sizes rfl h hsizes
  rintro r - ih s sizes rfl h hsizes
  rcases h.ends_or_stalled (hsizes 0) hfault with hends | hstalled
  · exact ⟨0, hends⟩
  · have hnext := h.step (.read (sizes 0))
    have hlater' : (s.step (.read (sizes 0))).reader.reader.Later r₀ := by
      obtain ⟨data, -, hinv⟩ := hnext
      exact hinv.later
    obtain ⟨m, hm⟩ := ih _ hstalled hlater' _ (fun i => sizes (i + 1)) rfl hnext fun i =>
      hsizes (i + 1)
    exact ⟨m + 1, hm⟩

theorem Inv.complete {frames : List Bytes} (h : s.Inv frames.flatten trailing [] r₀) :
    s.Complete frames trailing r₀ where
  handed_prefix := h.handed_prefix
  rest_suffix := by
    obtain ⟨data, -, hinv⟩ := h
    simpa only [List.append_nil] using hinv.expects.suffix
  read_eof := by
    intro n hn
    constructor
    · intro heof
      simpa only [List.append_nil] using (h.eof hn heof).2
    · intro hrest
      by_contra hnot
      have hlt := h.not_eof hn hnot
      rw [List.append_nil, hrest] at hlt
      exact absurd hlt (lt_irrefl _)
  handed_eof := fun n hn heof => (h.eof hn heof).1
  isEof := by simpa only [List.append_nil] using h.isEof
  read_error := by
    intro n e he
    rcases Nat.eq_zero_or_pos n with rfl | hn
    · cases he
    · obtain ⟨data, -, hinv⟩ := h
      rcases NixFramedReader.pollRead_spec hn hinv with
        ⟨-, -, hres⟩ | ⟨fr', hres, -⟩ | ⟨chunk, data', fr', hres, -⟩
      · rw [he] at hres
        rcases hres with ⟨hres, -⟩ | ⟨hres, hnot⟩ | ⟨-, hcut⟩
        · cases hres
        · cases hres
          exact ⟨rfl, hnot⟩
        · exact absurd hcut (Nat.not_lt_zero _)
      · rw [hres] at he
        cases he
      · rw [hres] at he
        cases he
  finishes := by
    intro hfair hfault sizes hsizes
    obtain ⟨m, hm | ⟨-, hcut⟩⟩ := h.ends hfair hfault hsizes
    · exact ⟨m, hm⟩
    · exact absurd hcut (Nat.not_lt_zero _)

theorem Inv.truncated {frames : List Bytes} (h : s.Inv frames.flatten [] missing r₀)
    (hcut : missing ≠ []) : s.Truncated frames r₀ := by
  have hno : ∀ {s : FramedSession}, s.Inv frames.flatten [] missing r₀ → ∀ n, 0 < n →
      (s.reader.pollRead n).1 ≠ .ready (.ok []) := by
    intro s h n hn heof
    exact hcut (List.append_eq_nil_iff.mp (h.eof hn heof).2).2
  refine ⟨h.handed_prefix, hno h, fun heof => ?_, ?_⟩
  · exact hcut (List.append_eq_nil_iff.mp (h.isEof.mp heof)).2
  · intro hfair hfault sizes hsizes
    obtain ⟨m, hm | ⟨hm, -⟩⟩ := h.ends hfair hfault hsizes
    · exact absurd hm (hno (h.after_reads sizes m) _ (hsizes m))
    · exact ⟨m, hm⟩

end FramedSession

/-- A client gets the frames joined together, the end exactly after the terminator, and an error
    instead when the stream was cut before. -/
theorem delivers_frames {frames : List Bytes} (hframes : Frames frames) (trailing : Bytes)
    (answers : ℕ → Answer) (ops : List FramedOp) :
    ((FramedSession.start ⟨framed frames ++ trailing, answers⟩).run ops).Complete frames trailing
        ⟨framed frames ++ trailing, answers⟩ ∧
      ∀ cut, cut <+: framed frames → cut ≠ framed frames →
        ((FramedSession.start ⟨cut, answers⟩).run ops).Truncated frames ⟨cut, answers⟩ := by
  constructor
  · exact ((FramedSession.inv_start hframes (List.append_nil _)).run ops).complete
  · rintro cut ⟨missing, hcut⟩ hne
    have hinv : (FramedSession.start ⟨cut, answers⟩).Inv frames.flatten [] missing
        ⟨cut, answers⟩ := FramedSession.inv_start hframes (by rw [List.append_nil, ← hcut])
    refine (hinv.run ops).truncated ?_
    rintro rfl
    exact hne (by rw [← hcut, List.append_nil])

/-- Two frames and a byte that is not theirs. -/
theorem delivers_frames_two :
    Frames [[1, 2], [3]] ∧
      ((FramedSession.start ⟨framed [[1, 2], [3]] ++ [9], fun _ => .chunk 4⟩).run
        [.read 1, .read 8, .read 8]).Complete [[1, 2], [3]] [9]
          ⟨framed [[1, 2], [3]] ++ [9], fun _ => .chunk 4⟩ ∧
      ((FramedSession.start ⟨framed [[1, 2], [3]] ++ [9], fun _ => .chunk 4⟩).run
        [.read 1, .read 8, .read 8]).handed = [1, 2, 3] := by
  have hframes : Frames [[1, 2], [3]] := by
    intro f hf
    simp only [List.mem_cons, List.not_mem_nil, or_false] at hf
    rcases hf with rfl | rfl
    · exact ⟨List.cons_ne_nil _ _, by decide⟩
    · exact ⟨List.cons_ne_nil _ _, by decide⟩
  exact ⟨hframes, (delivers_frames hframes _ _ _).1, by decide⟩

end Snix.NixDaemon
