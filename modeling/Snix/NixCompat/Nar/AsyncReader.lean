import Snix.NixCompat.Nar.Reader
import Snix.NixCompat.Wire.Await

/-!
# Reading archives without blocking

The reader that is polled. It reads symlink targets and entry names into buffers of
their own, and files through a `BytesReader` that also checks the end of the node.

Names are read by a loop that does not notice the end of the stream: a stream that
ends within the name of a directory entry is read forever. On all other streams the
two readers agree.

## Main definitions

- `Async.readBytes`, `Async.readBytesBuf` — byte strings
- `async` — the reader
- `EndsInName` — the stream ends within the name of a directory entry

## Main results

- `parse_eq_endInName_iff` — the streams on which the parser stops within a name
- `walk_async_agrees_iff` — the readers agree exactly on the other streams
-/

namespace Snix.Nar

open Wire (TOK_PAR paddingLen)

namespace Async

def readU64Le (k : ℕ) : Prog IoError AsyncStream ℕ := do
  let buf ← readExact AsyncStream.read k 8
  pure (leValue buf)

/-- Reads at most `limit` bytes, until the stream ends. -/
def readToEnd : ℕ → ℕ → Prog IoError AsyncStream Bytes
  | 0, _ => .running
  | k + 1, limit =>
    if limit = 0 then pure []
    else do
      let chunk ← AsyncStream.read k limit
      if chunk = [] then pure []
      else do
        let more ← readToEnd k (limit - chunk.length)
        pure (chunk ++ more)

/-- Reads a byte string whose length is in the given range. -/
def readBytes (lo hi k : ℕ) : Prog IoError AsyncStream Bytes := do
  let len ← readU64Le k
  if ¬ (lo ≤ len ∧ len ≤ hi) then .fail .invalidData
  else do
    let paddedLen := paddingLen len + len
    let buf ← readToEnd k paddedLen
    if buf.length ≠ paddedLen then .fail .unexpectedEof
    else if (buf.drop len).any (· ≠ 0) then .fail .invalidData
    else pure (buf.take len)

/-- Reads until `n` bytes are there. What a read returns is not looked at. -/
def fill : ℕ → ℕ → Prog IoError AsyncStream Bytes
  | 0, _ => .running
  | k + 1, n =>
    if n = 0 then pure []
    else do
      let chunk ← AsyncStream.read k n
      let more ← fill k (n - chunk.length)
      pure (chunk ++ more)

/-- Reads a byte string into a buffer. -/
def readBytesBuf (lo hi k : ℕ) : Prog IoError AsyncStream Bytes := do
  let len ← readU64Le k
  if ¬ (lo ≤ len ∧ len ≤ hi) then .fail .invalidData
  else do
    let buf ← fill k ((len + 7) / 8 * 8)
    if (buf.drop len).any (· ≠ 0) then .fail .invalidData else pure (buf.take len)

end Async

/-- The reader that is polled, and a client that reads files as it wishes. -/
def async (client : Bytes → Wish) : Access AsyncStream Wire.State where
  read := AsyncStream.read
  readTarget k := do
    let target ← Async.readBytes 1 MAX_TARGET_LEN k
    if 0 ∈ target then .fail .invalidData else pure target
  readName k := do
    let name ← Async.readBytesBuf 1 MAX_NAME_LEN k
    if 0 ∈ name ∨ 47 ∈ name ∨ name = [46] ∨ name = [46, 46] then .fail .invalidData else pure name
  openFile k := Wire.newReader .padPar (fun _ => true) k
  readFile k reader := Wire.readAll .padPar client k reader []

-- ====================
-- Agreement with the parser
-- ====================

namespace Async

/-- The reader does not return where the string ends within a name. -/
def view : View ParseError AsyncStream Bytes := AsyncStream.view (· = .endInName)

theorem reported : ¬ view.Silent .invalid := by
  intro h
  cases h

theorem spec_read : AsyncStream.read.Spec view := AsyncStream.spec_read _

variable {s : AsyncStream}

theorem agrees_readU64Le (hs : view.Valid s) : Agrees view readU64Le s (dropU64 (view.rest s)) :=
  (agrees_readExact spec_read reported 8 hs).bind fun _ _ hs' _ => .pure hs'

theorem returns_readToEnd (limit : ℕ) (hs : view.Valid s) :
    ∃ buf s', view.Valid s' ∧ Returns (fun k => readToEnd k limit) s (.ok (buf, s')) ∧
      view.rest s = buf ++ view.rest s' ∧
      (buf.length = limit ∨ buf.length < limit ∧ view.rest s' = []) := by
  induction limit using Nat.strong_induction_on generalizing s with
  | _ limit ih =>
  by_cases hlimit : limit = 0
  · subst hlimit
    refine ⟨[], s, hs, (Returns.pure [] s).succ fun k => ?_, rfl, .inl rfl⟩
    rw [readToEnd, if_pos rfl]
  obtain ⟨chunk, s', hs', hrest, hlen, hnil, hret⟩ := spec_read s limit hs (by omega)
  have hstep : ∀ k, (readToEnd (k + 1) limit).run s =
      (AsyncStream.read k limit >>= fun chunk =>
        if chunk = [] then pure [] else do
          let more ← readToEnd k (limit - chunk.length)
          pure (chunk ++ more)).run s := by
    intro k
    rw [readToEnd, if_neg hlimit]
  by_cases hchunk : chunk = []
  · have hempty : view.rest s' = [] := by
      have := hnil hchunk
      rw [hrest] at this
      exact (List.append_eq_nil_iff.mp this).2
    refine ⟨[], s', hs', ?_, by rw [hrest, hchunk], .inr ⟨by simpa using Nat.pos_of_ne_zero hlimit,
      hempty⟩⟩
    refine Returns.succ ?_ hstep
    refine hret.bind (f := fun chunk k => if chunk = [] then _ else _) ?_
    simp only [hchunk, if_true]
    exact .pure [] s'
  · have hpos := List.length_pos_iff.mpr hchunk
    obtain ⟨more, s'', hs'', hmore, hrest', hend⟩ := ih (limit - chunk.length) (by omega) hs'
    refine ⟨chunk ++ more, s'', hs'', ?_, by rw [hrest, hrest', List.append_assoc], ?_⟩
    · refine Returns.succ ?_ hstep
      refine hret.bind (f := fun chunk k => if chunk = [] then _ else _) ?_
      simp only [if_neg hchunk]
      exact hmore.bind (.pure _ s'')
    · rw [List.length_append]
      rcases hend with hfull | ⟨hshort, hempty⟩
      · exact .inl (by omega)
      · exact .inr ⟨by omega, hempty⟩

theorem read_eof (k n : ℕ) (hfaultless : s.Faultless) (heof : s.rest = []) :
    (AsyncStream.read k n).run s = none ∨
      ∃ s', (AsyncStream.read k n).run s = some (.ok ([], s')) ∧ s'.Faultless ∧ s'.rest = [] := by
  induction k generalizing s with
  | zero => exact .inl rfl
  | succ k ih =>
    rcases s.pollRead_cases n with ⟨s', hs', hrest, hans⟩ | ⟨s', hs', -, -, hnf⟩ |
      ⟨chunk, s', hs', hrest, hans, -⟩
    · have hlater := (AsyncStream.Later.refl s).of_tick hans
      simp only [AsyncStream.read, Prog.run, hs']
      exact ih (hlater.faultless hfaultless) (hrest.trans heof)
    · exact absurd hfaultless hnf
    · have hlater := (AsyncStream.Later.refl s).of_tick hans
      obtain ⟨rfl, hrest'⟩ := List.append_eq_nil_iff.mp (hrest.symm.trans heof)
      refine .inr ⟨s', ?_, hlater.faultless hfaultless, hrest'⟩
      simp only [AsyncStream.read, Prog.run, hs']

/-- The loop goes on at the end of the stream. -/
theorem fill_eof (k : ℕ) {n : ℕ} (hn : 0 < n) (hfaultless : s.Faultless) (heof : s.rest = []) :
    (fill k n).run s = none := by
  induction k generalizing s with
  | zero => rfl
  | succ k ih =>
    rw [fill, if_neg hn.ne', Prog.run_bind]
    rcases read_eof k n hfaultless heof with hnone | ⟨s', hok, hfaultless', heof'⟩
    · rw [hnone]
    · rw [hok]
      simp only [List.length_nil, Nat.sub_zero]
      rw [Prog.run_bind, ih hfaultless' heof']

theorem agrees_fill (n : ℕ) (hs : view.Valid s) :
    Agrees view (fun k => fill k n) s (takeExact .endInName n (view.rest s)) := by
  induction n using Nat.strong_induction_on generalizing s with
  | _ n ih =>
  by_cases hn : n = 0
  · subst hn
    refine .succ (q := fun _ => pure []) ?_ (fun k => by rw [fill, if_pos rfl])
    simpa [takeExact] using Agrees.pure (V := view) (a := ([] : Bytes)) hs
  obtain ⟨chunk, s', hs', hrest, hlen, hnil, hret⟩ := spec_read s n hs (by omega)
  by_cases hchunk : chunk = []
  · have heof := hnil hchunk
    rw [takeExact, heof, if_neg (by simpa using hn)]
    refine .silent rfl ⟨0, fun k _ => fill_eof k (Nat.pos_of_ne_zero hn) hs.1 heof⟩
  · have hpos := List.length_pos_iff.mpr hchunk
    refine .succ (q := fun k => AsyncStream.read k n >>= _) ?_ (fun k => by rw [fill, if_neg hn])
    refine .after (f := fun chunk k => fill k (n - chunk.length) >>= fun more => pure (chunk ++ more))
      hret ?_
    rw [hrest, takeExact_append hlen]
    exact (ih _ (by omega) hs').bind fun more s'' hs'' _ => Agrees.pure hs''

/-- Takes a byte string whose length is in the given range. -/
def dropRanged (d : ParseError) (lo hi : ℕ) (b : Bytes) : Except ParseError (Bytes × Bytes) := do
  let (len, b) ← dropU64 b
  if ¬ (lo ≤ len ∧ len ≤ hi) then .error .invalid
  else do
    let (buf, b) ← takeExact d ((len + 7) / 8 * 8) b
    if (buf.drop len).any (· ≠ 0) then .error .invalid else .ok (buf.take len, b)

/-- To exclude the empty string by its length, or afterwards, is the same. -/
theorem dropPacket_bind_eq {d : ParseError} {hi : ℕ} {bad p : Bytes → Prop} [DecidablePred bad]
    [DecidablePred p] (hnil : bad []) (hbad : ∀ x, x ≠ [] → (bad x ↔ p x)) (b : Bytes) :
    (dropPacket d hi b >>= fun x => if bad x.1 then .error .invalid else .ok (x.1, x.2)) =
      (dropRanged d 1 hi b >>= fun x =>
        if p x.1 then .error .invalid else .ok (x.1, x.2)) := by
  rw [dropPacket, dropRanged]
  rcases dropU64 b with e | ⟨len, b'⟩
  · rfl
  simp only [bind, Except.bind]
  by_cases hhi : hi < len
  · rw [if_pos hhi, if_pos (by omega)]
  by_cases hzero : len = 0
  · subst hzero
    have htake : takeExact d ((0 + 7) / 8 * 8) b' = .ok ([], b') :=
      takeExact_eq_ok_iff.mpr ⟨rfl, rfl⟩
    rw [if_neg hhi, htake, if_pos (by omega)]
    simp [hnil]
  · rw [if_neg hhi, if_neg (by omega)]
    cases hbuf : takeExact d ((len + 7) / 8 * 8) b' with
    | error e => rfl
    | ok x =>
      obtain ⟨buf, b''⟩ := x
      have hlen := (takeExact_eq_ok_iff.mp hbuf).2
      have hne : buf.take len ≠ [] := by
        refine List.length_pos_iff.mp ?_
        rw [List.length_take]
        omega
      dsimp only
      by_cases hpad : (buf.drop len).any (· ≠ 0) = true
      · simp only [if_pos hpad]
      · simp only [if_neg hpad, hbad _ hne]

theorem agrees_readBytes (lo hi : ℕ) (hs : view.Valid s) :
    Agrees view (readBytes lo hi) s (dropRanged .invalid lo hi (view.rest s)) := by
  refine (agrees_readU64Le hs).bind fun len s' hs' _ => ?_
  dsimp only
  by_cases hrange : ¬ (lo ≤ len ∧ len ≤ hi)
  · simp only [if_pos hrange]
    exact .fail _ reported
  simp only [if_neg hrange]
  obtain ⟨buf, s'', hs'', hret, hrest, hend⟩ := returns_readToEnd (paddingLen len + len) hs'
  have hpad := padded_eq len
  refine .after (f := fun buf k => _) hret ?_
  rcases hend with hfull | ⟨hshort, hempty⟩
  · have htake : takeExact ParseError.invalid ((len + 7) / 8 * 8) (view.rest s') =
        .ok (buf, view.rest s'') := takeExact_eq_ok_iff.mpr ⟨hrest, by omega⟩
    rw [htake]
    simp only [hfull, ne_eq, not_true_eq_false, if_false, bind, Except.bind]
    split_ifs
    · exact .fail _ reported
    · exact .pure hs''
  · have htake : takeExact ParseError.invalid ((len + 7) / 8 * 8) (view.rest s') =
        .error .invalid := by
      rw [takeExact, if_neg]
      rw [hrest, hempty, List.append_nil]
      omega
    rw [htake]
    simp only [if_pos (by omega : buf.length ≠ paddingLen len + len)]
    exact .fail _ reported

theorem agrees_readBytesBuf (lo hi : ℕ) (hs : view.Valid s) :
    Agrees view (readBytesBuf lo hi) s (dropRanged .endInName lo hi (view.rest s)) := by
  refine (agrees_readU64Le hs).bind fun len s' hs' _ => ?_
  dsimp only
  by_cases hrange : ¬ (lo ≤ len ∧ len ≤ hi)
  · simp only [if_pos hrange]
    exact .fail _ reported
  simp only [if_neg hrange]
  refine (agrees_fill _ hs').bind fun buf s'' hs'' _ => ?_
  dsimp only
  split_ifs
  · exact .fail _ reported
  · exact .pure hs''

theorem failsOnly_dropU64 (b : Bytes) : FailsOnly .invalid (dropU64 b) :=
  (FailsOnly.takeExact _ _).bind fun _ => .ok _

theorem failsOnly_dropSizedContents (b : Bytes) : FailsOnly .invalid (dropSizedContents b) := by
  refine (failsOnly_dropU64 b).bind fun x => ?_
  refine (FailsOnly.takeExact _ _).bind fun y => .bind ?_ fun _ => .ok _
  exact (FailsOnly.takeExact _ _).bind fun z => .ite .error (.dropToken _ _)

open Wire (WellFormed payload userLen)

theorem packet_payload {b r : Bytes} (hwf : WellFormed .padPar b)
    (hdrop : b.drop 8 =
      payload b ++ List.replicate (paddingLen (userLen b)) 0 ++ Wire.Tag.padPar.suffix ++ r) :
    (payload b).length < 256 ^ 8 ∧ b = packet (payload b) ++ TOK_PAR ++ r := by
  obtain ⟨hlen, hpay, -⟩ := hwf
  have htake : (b.take 8).length = 8 := by
    rw [List.length_take]
    omega
  have hle : leBytes 8 (userLen b) = b.take 8 := by
    have := leBytes_leValue (b.take 8)
    rwa [htake] at this
  refine ⟨?_, ?_⟩
  · have := leValue_lt (b.take 8)
    rw [htake] at this
    rwa [hpay]
  · conv_lhs => rw [← List.take_append_drop 8 b, hdrop, ← hle]
    simp only [packet, hpay, Wire.Tag.suffix, List.append_assoc]

theorem wellFormed_packet {x r : Bytes} (hlt : x.length < 256 ^ 8) :
    WellFormed .padPar (packet x ++ TOK_PAR ++ r) := by
  have htake : (packet x ++ TOK_PAR ++ r).take 8 = leBytes 8 x.length := by
    simp only [packet, List.append_assoc]
    exact List.take_left' (length_leBytes 8 _)
  have hdrop : (packet x ++ TOK_PAR ++ r).drop 8 =
      x ++ (List.replicate (paddingLen x.length) 0 ++ (TOK_PAR ++ r)) := by
    simp only [packet, List.append_assoc]
    exact List.drop_left' (length_leBytes 8 _)
  have huser : userLen (packet x ++ TOK_PAR ++ r) = x.length := by
    rw [userLen, htake, leValue_leBytes hlt]
  have hpay : payload (packet x ++ TOK_PAR ++ r) = x := by
    rw [payload, huser, hdrop, List.take_left]
  refine ⟨?_, by rw [hpay, huser], r, ?_⟩
  · simp only [packet, List.length_append, length_leBytes]
    omega
  · rw [hdrop, hpay, huser]
    simp only [Wire.Tag.suffix, List.append_assoc]

theorem agrees_file (client : Bytes → Wish) (hs : view.Valid s) :
    Agrees view (fun k => (async client).openFile k >>= (async client).readFile k) s
      (dropSizedContents (view.rest s)) := by
  rcases Wire.newReader_readAll_spec (t := .padPar) (fun _ => rfl : ∀ n, (fun _ => true) n = true)
      client hs.1 hs.2 with ⟨hwf, r', hdrop, hfaultless, hfair, hret⟩ | ⟨hwf, e, hret⟩
  · have hparse : dropSizedContents (view.rest s) = .ok (payload s.rest, r'.rest) :=
      dropSizedContents_eq_ok_iff.mpr (packet_payload hwf hdrop)
    rw [hparse]
    exact .ok ⟨hfaultless, hfair⟩ rfl hret
  · cases hparse : dropSizedContents (view.rest s) with
    | ok x =>
      obtain ⟨hlt, hrest⟩ := dropSizedContents_eq_ok_iff.mp hparse
      refine absurd (wellFormed_packet (r := x.2) hlt) ?_
      rw [← hrest]
      exact hwf
    | error d =>
      rw [failsOnly_dropSizedContents _ d hparse]
      exact .error reported hret

end Async

theorem spec_async (client : Bytes → Wish) : (async client).Spec Async.view where
  read := Async.spec_read
  target s hs := by
    rw [dropTarget, Async.dropPacket_bind_eq (p := fun x => 0 ∈ x) (.inl rfl)
      (fun x hx => by simp [BadTarget, hx])]
    refine (Async.agrees_readBytes 1 MAX_TARGET_LEN hs).bind fun target s' hs' _ => ?_
    dsimp only
    split_ifs
    · exact .fail _ Async.reported
    · exact .pure hs'
  name s hs := by
    rw [dropName, Async.dropPacket_bind_eq
      (p := fun x => 0 ∈ x ∨ 47 ∈ x ∨ x = [46] ∨ x = [46, 46]) (.inl rfl)
      (fun x hx => by simp [BadName, hx])]
    refine (Async.agrees_readBytesBuf 1 MAX_NAME_LEN hs).bind fun name s' hs' _ => ?_
    dsimp only
    split_ifs
    · exact .fail _ Async.reported
    · exact .pure hs'
  file s hs := Async.agrees_file client hs
  reported := Async.reported

-- ====================
-- Streams that end within a name
-- ====================

/-- The entries of a directory after the one named `prev` end within a name: of the next
    entry, of an entry of the directory that is the next entry, or of a later entry. -/
inductive EndsInEntries : Bytes → Bytes → Prop where
  | name {prev part : Bytes} {len : ℕ} (hmax : len ≤ MAX_NAME_LEN)
      (hshort : part.length < len + paddingLen len) :
      EndsInEntries prev (sep prev ++ TOK_ENT ++ leBytes 8 len ++ part)
  | inside {prev name b : Bytes} (hname : ¬ BadName name ∧ name.length ≤ MAX_NAME_LEN)
      (hlt : prev < name) (hb : EndsInEntries [] b) :
      EndsInEntries prev (sep prev ++ TOK_ENT ++ packet name ++ TOK_NOD ++ TOK_DIR ++ b)
  | later {prev name b : Bytes} {node : Tree}
      (hname : ¬ BadName name ∧ name.length ≤ MAX_NAME_LEN) (hlt : prev < name)
      (hnode : node.Valid) (hb : EndsInEntries name b) :
      EndsInEntries prev (sep prev ++ TOK_ENT ++ packet name ++ TOK_NOD ++ node.encode ++ b)

/-- The stream is an archive up to the name of a directory entry, and ends within that
    name or its padding. -/
def EndsInName (input : Bytes) : Prop :=
  ∃ b, input = TOK_NAR ++ TOK_DIR ++ b ∧ EndsInEntries [] b

section

open Async (failsOnly_dropU64 failsOnly_dropSizedContents)

theorem failsOnly_dropSep (prev b : Bytes) : FailsOnly .invalid (dropSep prev b) :=
  .ite (.ok _) (.dropToken _ _)

theorem failsOnly_dropSymlink (b : Bytes) : FailsOnly .invalid (dropSymlink b) := by
  refine .bind ?_ fun x => (FailsOnly.dropToken _ _).bind fun _ => .ok _
  refine .bind ?_ fun x => .ite .error (.ok _)
  refine (failsOnly_dropU64 b).bind fun x => .ite .error ?_
  exact (FailsOnly.takeExact _ _).bind fun y => .ite .error (.ok _)

theorem failsOnly_dropFile (executable : Bool) (b : Bytes) :
    FailsOnly .invalid (dropFile executable b) :=
  (failsOnly_dropSizedContents b).bind fun _ => .ok _

/-- The head of an entry ends within its name. -/
theorem dropHead_eq_endInName_iff {prev b : Bytes} :
    dropHead prev b = .error .endInName ↔
      ∃ len part, len ≤ MAX_NAME_LEN ∧ part.length < len + paddingLen len ∧
        b = leBytes 8 len ++ part := by
  constructor
  · intro h
    rw [dropHead, except_bind_eq_error_iff] at h
    rcases h with h | ⟨x, -, h⟩
    · rw [dropName, except_bind_eq_error_iff] at h
      rcases h with h | ⟨y, -, h⟩
      · rw [dropPacket, except_bind_eq_error_iff] at h
        rcases h with h | ⟨⟨len, part⟩, hlen, h⟩
        · cases failsOnly_dropU64 _ _ h
        · obtain ⟨-, rfl⟩ := dropU64_eq_ok_iff.mp hlen
          dsimp only at h
          by_cases hmax : MAX_NAME_LEN < len
          · rw [if_pos hmax] at h
            cases h
          rw [if_neg hmax, except_bind_eq_error_iff] at h
          rcases h with h | ⟨w, -, h⟩
          · refine ⟨len, part, by omega, ?_, rfl⟩
            rw [takeExact, padded_eq] at h
            split_ifs at h with hshort
            omega
          · cases FailsOnly.ite (d := ParseError.invalid) .error (.ok _) _ h
      · cases FailsOnly.ite (d := ParseError.invalid) .error (.ok _) _ h
    · cases FailsOnly.ite (d := ParseError.invalid) .error
        ((FailsOnly.dropToken _ _).bind fun _ => .ok _) _ h
  · rintro ⟨len, part, hmax, hshort, rfl⟩
    have hlt : len < 256 ^ 8 := by
      rw [MAX_NAME_LEN] at hmax
      omega
    have htake : takeExact ParseError.endInName ((len + 7) / 8 * 8) part =
        .error .endInName := by
      rw [takeExact, padded_eq, if_neg (by omega)]
    rw [dropHead, except_bind_eq_error_iff, dropName, except_bind_eq_error_iff, dropPacket,
      except_bind_eq_error_iff]
    refine .inl (.inl (.inr ⟨(len, part), dropU64_eq_ok_iff.mpr ⟨hlt, rfl⟩, ?_⟩))
    dsimp only
    rw [if_neg (by omega), htake]
    rfl

/-- The parser of nodes stops within a name exactly where a directory ends in one. -/
def NodeEnds (n : ℕ) : Prop :=
  ∀ b, b.length < n →
    (parseNode n b = .error .endInName ↔ ∃ b', b = TOK_DIR ++ b' ∧ EndsInEntries [] b')

def EntriesEnd (n : ℕ) : Prop :=
  ∀ prev b, b.length < n → (parseEntries n prev b = .error .endInName ↔ EndsInEntries prev b)

theorem nodeEnds_succ {n : ℕ} (ih : EntriesEnd n) : NodeEnds (n + 1) := by
  intro b hlen
  have hmin := nodeTags.min_le
  rw [parseNode, except_bind_eq_error_iff]
  constructor
  · rintro (h | ⟨⟨tag, b'⟩, htag, h⟩)
    · cases failsOnly_dropTag _ _ _ h
    obtain rfl := dropTag_eq_ok_iff.mp htag
    have hb' : b'.length < n := by
      have := hmin tag
      simp only [nodeTags, List.length_append] at *
      omega
    cases tag with
    | sym => cases failsOnly_dropSymlink _ _ h
    | reg => cases failsOnly_dropFile _ _ _ h
    | exe => cases failsOnly_dropFile _ _ _ h
    | dir =>
      dsimp only at h
      rw [except_bind_eq_error_iff] at h
      rcases h with h | ⟨x, -, h⟩
      · exact ⟨b', rfl, (ih [] b' hb').mp h⟩
      · cases h
  · rintro ⟨b', rfl, h⟩
    have hb' : b'.length < n := by
      have := hmin .dir
      simp only [nodeTags, NodeTag.asBytes, List.length_append] at *
      omega
    refine .inr ⟨(.dir, b'), dropTag_eq_ok_iff.mpr rfl, ?_⟩
    dsimp only
    rw [except_bind_eq_error_iff]
    exact .inl ((ih [] b' hb').mpr h)

/-- All three ways start with the end of the entry before, and an entry. -/
theorem EndsInEntries.cases_head {prev b : Bytes} (h : EndsInEntries prev b) :
    ∃ b₂, b = sep prev ++ (TOK_ENT ++ b₂) ∧
      ((∃ len part, len ≤ MAX_NAME_LEN ∧ part.length < len + paddingLen len ∧
          b₂ = leBytes 8 len ++ part) ∨
        ∃ name b₃, ((¬ BadName name ∧ name.length ≤ MAX_NAME_LEN) ∧ prev < name) ∧
          b₂ = packet name ++ TOK_NOD ++ b₃ ∧
          ((∃ b', b₃ = TOK_DIR ++ b' ∧ EndsInEntries [] b') ∨
            ∃ (node : Tree) (b₄ : Bytes), node.Valid ∧ b₃ = node.encode ++ b₄ ∧
              EndsInEntries name b₄)) := by
  cases h with
  | @name _ part len hmax hshort =>
    exact ⟨leBytes 8 len ++ part, by simp only [List.append_assoc],
      .inl ⟨len, part, hmax, hshort, rfl⟩⟩
  | @inside _ name b hname hlt hb =>
    exact ⟨packet name ++ TOK_NOD ++ (TOK_DIR ++ b), by simp only [List.append_assoc],
      .inr ⟨name, TOK_DIR ++ b, ⟨hname, hlt⟩, rfl, .inl ⟨b, rfl, hb⟩⟩⟩
  | @later _ name b node hname hlt hnode hb =>
    exact ⟨packet name ++ TOK_NOD ++ (node.encode ++ b), by simp only [List.append_assoc],
      .inr ⟨name, node.encode ++ b, ⟨hname, hlt⟩, rfl, .inr ⟨node, b, hnode, rfl, hb⟩⟩⟩

theorem entriesEnd_succ {n : ℕ} (ihn : NodeEnds n) (ihe : EntriesEnd n) : EntriesEnd (n + 1) := by
  intro prev b hlen
  have hmin := entryTags.min_le
  rw [parseEntries, except_bind_eq_error_iff]
  constructor
  · rintro (h | ⟨⟨_, b₁⟩, hsep, h⟩)
    · cases failsOnly_dropSep _ _ _ h
    obtain rfl := dropSep_eq_ok_iff.mp hsep
    rw [except_bind_eq_error_iff] at h
    rcases h with h | ⟨⟨tag, b₂⟩, htag, h⟩
    · cases failsOnly_dropTag _ _ _ h
    obtain rfl := dropTag_eq_ok_iff.mp htag
    have hb₂ : b₂.length < n := by
      have := hmin tag
      simp only [entryTags, List.length_append] at *
      omega
    cases tag with
    | none => cases h
    | some =>
      dsimp only at h
      rw [except_bind_eq_error_iff] at h
      rcases h with h | ⟨⟨name, b₃⟩, hhead, h⟩
      · obtain ⟨len, part, hmax, hshort, rfl⟩ := dropHead_eq_endInName_iff.mp h
        have hend : EndsInEntries prev _ := .name hmax hshort
        simpa only [entryTags, EntryTag.asBytes, List.append_assoc] using hend
      obtain ⟨⟨hname, hlt⟩, rfl⟩ := dropHead_eq_ok_iff.mp hhead
      have hb₃ : b₃.length < n := by
        simp only [List.length_append] at hb₂
        omega
      rw [except_bind_eq_error_iff] at h
      rcases h with h | ⟨⟨node, b₄⟩, hnode, h⟩
      · obtain ⟨b', rfl, hb'⟩ := (ihn b₃ hb₃).mp h
        have hend := EndsInEntries.inside hname hlt hb'
        simpa only [entryTags, EntryTag.asBytes, List.append_assoc] using hend
      obtain ⟨hvalid, rfl⟩ := ((nodeSpec_and_entriesSpec n).1 b₃ node b₄ hb₃).mp hnode
      have hb₄ : b₄.length < n := by
        simp only [List.length_append] at hb₃
        omega
      rw [except_bind_eq_error_iff] at h
      rcases h with h | ⟨x, -, h⟩
      · have hend := EndsInEntries.later hname hlt hvalid ((ihe name b₄ hb₄).mp h)
        simpa only [entryTags, EntryTag.asBytes, List.append_assoc] using hend
      · cases h
  · intro h
    obtain ⟨b₂, rfl, hb₂⟩ := h.cases_head
    refine .inr ⟨((), TOK_ENT ++ b₂), dropSep_eq_ok_iff.mpr rfl, ?_⟩
    rw [except_bind_eq_error_iff]
    refine .inr ⟨(.some, b₂), dropTag_eq_ok_iff.mpr rfl, ?_⟩
    have hlen₂ : b₂.length < n := by
      have := hmin .some
      simp only [entryTags, EntryTag.asBytes, List.length_append] at *
      omega
    dsimp only
    rw [except_bind_eq_error_iff]
    rcases hb₂ with hname | ⟨name, b₃, hname, rfl, hb₃⟩
    · exact .inl (dropHead_eq_endInName_iff.mpr hname)
    refine .inr ⟨(name, b₃), dropHead_eq_ok_iff.mpr ⟨hname, rfl⟩, ?_⟩
    have hlen₃ : b₃.length < n := by
      simp only [List.length_append] at hlen₂
      omega
    dsimp only
    rw [except_bind_eq_error_iff]
    rcases hb₃ with hdir | ⟨node, b₄, hnode, rfl, hb₄⟩
    · exact .inl ((ihn b₃ hlen₃).mpr hdir)
    refine .inr ⟨(node, b₄), ((nodeSpec_and_entriesSpec n).1 _ node b₄ hlen₃).mpr ⟨hnode, rfl⟩, ?_⟩
    have hlen₄ : b₄.length < n := by
      simp only [List.length_append] at hlen₃
      omega
    dsimp only
    rw [except_bind_eq_error_iff]
    exact .inl ((ihe name b₄ hlen₄).mpr hb₄)

theorem nodeEnds_and_entriesEnd (n : ℕ) : NodeEnds n ∧ EntriesEnd n := by
  induction n with
  | zero => exact ⟨fun b h => absurd h (by omega), fun prev b h => absurd h (by omega)⟩
  | succ n ih => exact ⟨nodeEnds_succ ih.2, entriesEnd_succ ih.1 ih.2⟩

/-- The parser stops within a name exactly where the string ends in one. -/
theorem parse_eq_endInName_iff {b : Bytes} :
    parse b = .error .endInName ↔ EndsInName b := by
  rw [parse, except_bind_eq_error_iff]
  constructor
  · rintro (h | ⟨⟨_, b'⟩, htok, h⟩)
    · cases FailsOnly.dropToken _ _ _ h
    obtain rfl := dropToken_eq_ok_iff.mp htok
    obtain ⟨b'', rfl, hb''⟩ := ((nodeEnds_and_entriesEnd _).1 b' (Nat.lt_succ_self _)).mp h
    exact ⟨b'', by simp only [List.append_assoc], hb''⟩
  · rintro ⟨b', rfl, hb'⟩
    refine .inr ⟨((), TOK_DIR ++ b'),
      dropToken_eq_ok_iff.mpr (by simp only [List.append_assoc]), ?_⟩
    exact ((nodeEnds_and_entriesEnd _).1 _ (Nat.lt_succ_self _)).mpr ⟨b', rfl, hb'⟩

end

-- ====================
-- The two readers
-- ====================

/-- Both readers return an error. -/
def BothFail (client client' : Bytes → Wish) (input : Bytes) (answers : ℕ → Answer)
    (sizes : ℕ → ℕ) : Prop :=
  (∃ e, Returns (walk (async client)) ⟨input, answers⟩ (.error e)) ∧
    ∃ e, Returns (walk (sync client')) ⟨input, sizes⟩ (.error e)

/-- Both readers return the same tree, or both return an error. -/
def WalksAlike (client client' : Bytes → Wish) (input : Bytes) (answers : ℕ → Answer)
    (sizes : ℕ → ℕ) : Prop :=
  (∃ tree r r', Returns (walk (async client)) ⟨input, answers⟩ (.ok (tree, r)) ∧
      Returns (walk (sync client')) ⟨input, sizes⟩ (.ok (tree, r'))) ∨
    BothFail client client' input answers sizes

/-- The stream is an archive that lacks at least its last byte. -/
def Truncated (input : Bytes) : Prop :=
  ∃ (tree : Tree) (more : Bytes), tree.Valid ∧ more ≠ [] ∧ input ++ more = TOK_NAR ++ tree.encode

theorem Truncated.parse_ne_ok {input : Bytes} (h : Truncated input) (t : Tree) (r : Bytes) :
    parse input ≠ .ok (t, r) := by
  intro hparse
  obtain ⟨tree, more, hvalid, hmore, hinput⟩ := h
  obtain ⟨ht, rfl⟩ := parse_eq_ok_iff.mp hparse
  have hall : parse (TOK_NAR ++ t.encode ++ r ++ more) = .ok (t, r ++ more) :=
    parse_eq_ok_iff.mpr ⟨ht, by simp only [List.append_assoc]⟩
  have hall' : parse (TOK_NAR ++ t.encode ++ r ++ more) = .ok (tree, []) :=
    parse_eq_ok_iff.mpr ⟨hvalid, by rw [hinput, List.append_nil]⟩
  have heq : r ++ more = [] := by
    have := hall.symm.trans hall'
    simp only [Except.ok.injEq, Prod.mk.injEq] at this
    exact this.2
  exact hmore (List.append_eq_nil_iff.mp heq).2

section

variable {client client' : Bytes → Wish} {input : Bytes} {answers : ℕ → Answer} {sizes : ℕ → ℕ}

/-- The reader that is polled does not return where the stream ends within a name. -/
theorem diverges_of_endsInName (hfaultless : AsyncStream.Faultless ⟨input, answers⟩)
    (hfair : AsyncStream.Fair ⟨input, answers⟩) (h : EndsInName input) :
    Diverges (walk (async client)) ⟨input, answers⟩ := by
  have hparse := parse_eq_endInName_iff.mpr h
  rcases agrees_walk (spec_async client) (s := ⟨input, answers⟩) ⟨hfaultless, hfair⟩ with
    ⟨tree, r, hr, -⟩ | ⟨d, e, hr, hd, -⟩ | ⟨d, -, -, hdiv⟩
  · cases hparse.symm.trans hr
  · cases hparse.symm.trans hr
    exact absurd rfl hd
  · exact hdiv

theorem not_walksAlike_of_diverges (h : Diverges (walk (async client)) ⟨input, answers⟩) :
    ¬ WalksAlike client client' input answers sizes := by
  rintro (⟨tree, r, r', hret, -⟩ | ⟨⟨e, hret⟩, -⟩)
  · exact h.not_returns _ hret
  · exact h.not_returns _ hret

/-- The blocking reader fails where there is no archive. -/
theorem sync_fails {d : ParseError} (h : parse input = .error d) :
    ∃ e, Returns (walk (sync client')) ⟨input, sizes⟩ (.error e) := by
  rcases agrees_walk (spec_sync client') (s := ⟨input, sizes⟩) trivial with
    ⟨tree, r, hr, -⟩ | ⟨d, e, -, -, hret⟩ | ⟨d, -, hd, -⟩
  · cases h.symm.trans hr
  · exact ⟨e, hret⟩
  · exact hd.elim

/-- The readers return the same tree where there is an archive. -/
theorem walksAlike_of_parse_ok (hfaultless : AsyncStream.Faultless ⟨input, answers⟩)
    (hfair : AsyncStream.Fair ⟨input, answers⟩) {t : Tree} {rest : Bytes}
    (h : parse input = .ok (t, rest)) : WalksAlike client client' input answers sizes := by
  rcases agrees_walk (spec_async client) (s := ⟨input, answers⟩) ⟨hfaultless, hfair⟩ with
    ⟨tree, r, hr, -, hret⟩ | ⟨d, e, hr, -⟩ | ⟨d, hr, -⟩
  · rcases agrees_walk (spec_sync client') (s := ⟨input, sizes⟩) trivial with
      ⟨tree', r', hr', -, hret'⟩ | ⟨d, e, hr', -⟩ | ⟨d, hr', -⟩
    · obtain rfl : tree = tree' := by
        have := hr.symm.trans hr'
        simp only [Except.ok.injEq, Prod.mk.injEq] at this
        exact this.1
      exact .inl ⟨tree, r, r', hret, hret'⟩
    · cases h.symm.trans hr'
    · cases h.symm.trans hr'
  · cases h.symm.trans hr
  · cases h.symm.trans hr

/-- The readers both fail where there is no archive, unless the stream ends within a
    name. -/
theorem bothFail_of_parse_invalid (hfaultless : AsyncStream.Faultless ⟨input, answers⟩)
    (hfair : AsyncStream.Fair ⟨input, answers⟩) (h : parse input = .error .invalid) :
    BothFail client client' input answers sizes := by
  refine ⟨?_, sync_fails h⟩
  rcases agrees_walk (spec_async client) (s := ⟨input, answers⟩) ⟨hfaultless, hfair⟩ with
    ⟨tree, r, hr, -⟩ | ⟨d, e, -, -, hret⟩ | ⟨d, hr, hd, -⟩
  · cases h.symm.trans hr
  · exact ⟨e, hret⟩
  · cases h.symm.trans hr
    cases hd

end

/-- On a stream that becomes ready again and does not fail by itself, whatever it is
    split into and whatever the clients do, the two readers do the same, and both fail
    on a truncated archive, if and only if the stream does not end within the name of a
    directory entry. -/
theorem walk_async_agrees_iff (client client' : Bytes → Wish) (input : Bytes)
    (answers : ℕ → Answer) (sizes : ℕ → ℕ) (hfaultless : AsyncStream.Faultless ⟨input, answers⟩)
    (hfair : AsyncStream.Fair ⟨input, answers⟩) :
    (WalksAlike client client' input answers sizes ∧
        (Truncated input → BothFail client client' input answers sizes)) ↔
      ¬ EndsInName input := by
  constructor
  · rintro ⟨halike, -⟩ hends
    exact not_walksAlike_of_diverges (diverges_of_endsInName hfaultless hfair hends) halike
  · intro hends
    cases hparse : parse input with
    | ok x =>
      refine ⟨walksAlike_of_parse_ok hfaultless hfair hparse, fun htrunc => ?_⟩
      exact absurd hparse (htrunc.parse_ne_ok _ _)
    | error d =>
      cases d with
      | invalid =>
        have hfail : BothFail client client' input answers sizes :=
          bothFail_of_parse_invalid hfaultless hfair hparse
        exact ⟨.inr hfail, fun _ => hfail⟩
      | endInName => exact absurd (parse_eq_endInName_iff.mp hparse) hends

theorem faultless_chunks (input : Bytes) : AsyncStream.Faultless ⟨input, fun _ => .chunk 0⟩ := by
  intro i h
  cases h

theorem fair_chunks (input : Bytes) : AsyncStream.Fair ⟨input, fun _ => .chunk 0⟩ := by
  intro i
  exact ⟨0, fun h => by cases h⟩

/-- A symlink, byte by byte. -/
theorem walk_async_agrees_symlink :
    WalksAlike (fun _ => .read 0) (fun _ => .read 0)
      (TOK_NAR ++ (Tree.symlink [97]).encode) (fun _ => .chunk 0) (fun _ => 0) := by
  have hparse : parse (TOK_NAR ++ (Tree.symlink [97]).encode) = .ok (.symlink [97], []) :=
    parse_eq_ok_iff.mpr ⟨⟨by decide, by decide⟩, by rw [List.append_nil]⟩
  refine ((walk_async_agrees_iff (fun _ => .read 0) (fun _ => .read 0) _ (fun _ => .chunk 0)
    (fun _ => 0) (faultless_chunks _) (fair_chunks _)).mpr fun hends => ?_).1
  cases hparse.symm.trans (parse_eq_endInName_iff.mpr hends)

/-- A directory with an empty file named `a`, cut off behind the length of the name. -/
def cutOff : Bytes := TOK_NAR ++ TOK_DIR ++ (TOK_ENT ++ leBytes 8 1)

theorem endsInName_cutOff : EndsInName cutOff := by
  refine ⟨TOK_ENT ++ leBytes 8 1, rfl, ?_⟩
  have h : EndsInEntries [] (sep [] ++ TOK_ENT ++ leBytes 8 1 ++ []) :=
    .name (by decide) (by decide)
  simpa [sep] using h

theorem truncated_cutOff : Truncated cutOff := by
  refine ⟨.directory (.cons [97] (.file false []) .nil),
    [97] ++ List.replicate (paddingLen 1) 0 ++ TOK_NOD ++ (Tree.file false []).encode ++ TOK_PAR ++
      TOK_PAR, ?_, by simp, ?_⟩
  · exact ⟨⟨by decide, by decide⟩, by decide, by simp [Tree.Valid], trivial⟩
  · simp [cutOff, Tree.encode, Entries.encode, packet]

/-- The reader that is polled does not return on a truncated archive, where the
    blocking reader fails. -/
theorem not_walksAlike_cutOff :
    AsyncStream.Faultless ⟨cutOff, fun _ => .chunk 0⟩ ∧ AsyncStream.Fair ⟨cutOff, fun _ => .chunk 0⟩ ∧
      Truncated cutOff ∧
      (∃ e, Returns (walk (sync fun _ => .read 0)) ⟨cutOff, fun _ => 0⟩ (.error e)) ∧
      ¬ (WalksAlike (fun _ => .read 0) (fun _ => .read 0) cutOff (fun _ => .chunk 0) (fun _ => 0) ∧
        (Truncated cutOff →
          BothFail (fun _ => .read 0) (fun _ => .read 0) cutOff (fun _ => .chunk 0) fun _ => 0)) := by
  refine ⟨faultless_chunks _, fair_chunks _, truncated_cutOff,
    sync_fails (parse_eq_endInName_iff.mpr endsInName_cutOff), fun h => ?_⟩
  exact not_walksAlike_of_diverges
    (diverges_of_endsInName (faultless_chunks _) (fair_chunks _) endsInName_cutOff) h.1

end Snix.Nar
