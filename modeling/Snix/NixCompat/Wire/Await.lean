import Snix.Lib.ByteReader
import Snix.NixCompat.Wire.BytesReader

/-!
# Awaiting a byte packet

Clients that poll a `BytesReader` until it is ready, and read the whole payload, in
pieces of any size. On a stream that becomes ready again and does not fail by itself
they come to an end: with the payload if the packet is well formed, and with an
error if it is not.

## Main definitions

- `awaitNew`, `readAll` — opening a reader, and reading all of it

## Main results

- `awaitNew_spec`, `readAll_spec`, `new_readAll_spec` — how they end
-/

namespace Snix.Wire

section

variable (t : Tag) (allowed : ℕ → Bool) (client : Bytes → Wish)

/-- Polls the construction of a reader. -/
def pollNew : Phase → Poll (Except IoError Unit) × Phase
  | .readLen buf r => pollReadLen t allowed 9 buf r
  | .emptyTrailer rt => pollEmptyTrailer t rt
  | phase => (.ready (.ok ()), phase)

/-- The stream an open reader borrows. -/
def State.reader : State → AsyncStream
  | .body r _ _ => r
  | .readTrailer rt => rt.reader
  | .releaseTrailer r _ _ => r

/-- Returns a value, and the stream that was borrowed. -/
def giveBack {α : Type} (a : α) (r : AsyncStream) : Prog IoError AsyncStream α :=
  fun _ => some (.ok (a, r))

/-- Awaits the construction of a reader. -/
def awaitNew : ℕ → Phase → Prog IoError AsyncStream State
  | 0, _ => .running
  | k + 1, phase =>
    match pollNew t allowed phase with
    | (.pending, phase) => awaitNew k phase
    | (.ready (.error e), _) => .fail e
    | (.ready (.ok ()), .opened st) => giveBack st st.reader
    | (.ready (.ok ()), _) => .fail .panic

/-- Constructs a reader. -/
def newReader (k : ℕ) : Prog IoError AsyncStream State :=
  fun r => (awaitNew t allowed k (.readLen [] r)).run r

/-- Reads until the end is reported. What the client does next may depend on the
    bytes it already has. -/
def readAll : ℕ → State → Bytes → Prog IoError AsyncStream Bytes
  | 0, _, _ => .running
  | k + 1, st, acc =>
    match client acc with
    | .read n =>
      match st.pollRead t (n + 1) with
      | (.pending, st) => readAll k st acc
      | (.ready (.error e), _) => .fail e
      | (.ready (.ok []), st) => giveBack acc st.reader
      | (.ready (.ok (b :: chunk)), st) => readAll k st (acc ++ b :: chunk)
    | .view m =>
      match st.pollFillBuf t with
      | (.pending, st) => readAll k st acc
      | (.ready (.error e), _) => .fail e
      | (.ready (.ok []), st) => giveBack acc st.reader
      | (.ready (.ok (b :: view)), st) =>
        let n := min (m + 1) (b :: view).length
        match st.consume n with
        | none => .fail .panic
        | some st => readAll k st (acc ++ (b :: view).take n)

end

theorem returns_giveBack {α : Type} (a : α) (r x : AsyncStream) :
    Returns (fun _ => giveBack a r) x (.ok (a, r)) :=
  ⟨0, fun _ _ => rfl⟩

-- ====================
-- Polls that are pending
-- ====================

section

variable {t : Tag} {allowed : ℕ → Bool} {input : Bytes} {r₀ : AsyncStream} {s : Session}

theorem ReadTrailer.stalled {dataLen : ℕ} {full : Bytes} (hdata : dataLen ≤ 8)
    {rt rt' : ReadTrailer} (h : rt.Inv t dataLen full r₀) (hpoll : rt.poll t = (.pending, rt')) :
    Stalled rt.reader rt'.reader := by
  rw [ReadTrailer.poll] at hpoll
  rcases ReadTrailer.pollLoop_cases hdata (t.pattern.length + 1) h (by omega) with
    ⟨rt'', hpoll', -, hstalled⟩ | ⟨e, rt'', hpoll', -⟩ | ⟨data, rt'', hpoll', -⟩
  · rw [hpoll] at hpoll'
    cases hpoll'
    exact hstalled
  · rw [hpoll] at hpoll'
    cases hpoll'
  · rw [hpoll] at hpoll'
    cases hpoll'

theorem State.stalled_pollReadTrailer {n dataLen : ℕ} {full : Bytes} (hdata : dataLen ≤ 8)
    {rt : ReadTrailer} {st' : State} (h : rt.Inv t dataLen full r₀)
    (hpoll : State.pollReadTrailer t n rt = (.pending, st')) : Stalled rt.reader st'.reader := by
  rw [State.pollReadTrailer] at hpoll
  split at hpoll
  case h_1 rt' heq =>
    cases hpoll
    exact ReadTrailer.stalled hdata h heq
  case h_2 => cases hpoll
  case h_3 => cases hpoll

theorem State.stalled_pollFillTrailer {dataLen : ℕ} {full : Bytes} (hdata : dataLen ≤ 8)
    {rt : ReadTrailer} {st' : State} (h : rt.Inv t dataLen full r₀)
    (hpoll : State.pollFillTrailer t rt = (.pending, st')) : Stalled rt.reader st'.reader := by
  rw [State.pollFillTrailer] at hpoll
  split at hpoll
  case h_1 rt' heq =>
    cases hpoll
    exact ReadTrailer.stalled hdata h heq
  case h_2 => cases hpoll
  case h_3 => cases hpoll

theorem State.stalled_pollRead {n : ℕ} {st st' : State} (h : st.Inv t input r₀ s) (hn : 0 < n)
    (hpoll : st.pollRead t n = (.pending, st')) : Stalled st.reader st'.reader := by
  cases st with
  | body r consumed ul =>
    have h : BodyInv input r₀ s r consumed ul := h
    have hspec := splitUserLen_spec (h.ul_eq ▸ h.pos)
    simp only [State.pollRead, if_neg hn.ne'] at hpoll
    split_ifs at hpoll
    · exact State.stalled_pollReadTrailer hspec.2.2.1 (Inv_readTrailer t _ h.later) hpoll
    · rcases r.pollRead_cases (min n ((splitUserLen ul).1 - consumed)) with
        ⟨r', hr, hrest, hans⟩ | ⟨r', hr, -⟩ | ⟨_ | ⟨b, chunk⟩, r', hr, -⟩
      · simp only [hr] at hpoll
        cases hpoll
        exact .inr ⟨AsyncStream.pending_of_pollRead hr, hrest, hans⟩
      all_goals
        simp only [hr] at hpoll
        cases hpoll
  | readTrailer rt =>
    have h : TrailerInv t input r₀ s rt := h
    obtain ⟨src, -, hrt⟩ := h.source
    simp only [State.pollRead, if_neg hn.ne'] at hpoll
    exact State.stalled_pollReadTrailer (bodyLen_spec h.pos).2.2.1 hrt hpoll
  | releaseTrailer r consumed data =>
    simp only [State.pollRead, if_neg hn.ne'] at hpoll
    cases hpoll

theorem State.stalled_pollFillBuf {st st' : State} (h : st.Inv t input r₀ s)
    (hpoll : st.pollFillBuf t = (.pending, st')) : Stalled st.reader st'.reader := by
  cases st with
  | body r consumed ul =>
    have h : BodyInv input r₀ s r consumed ul := h
    have hspec := splitUserLen_spec (h.ul_eq ▸ h.pos)
    simp only [State.pollFillBuf] at hpoll
    split_ifs at hpoll
    · exact State.stalled_pollFillTrailer hspec.2.2.1 (Inv_readTrailer t _ h.later) hpoll
    · rcases r.pollFillBuf_cases with
        ⟨r', hr, hrest, hans⟩ | ⟨r', hr, -⟩ | ⟨_ | ⟨b, view⟩, r', hr, -⟩
      · simp only [hr] at hpoll
        cases hpoll
        exact .inr ⟨AsyncStream.pending_of_pollFillBuf hr, hrest, hans⟩
      all_goals
        simp only [hr] at hpoll
        cases hpoll
  | readTrailer rt =>
    have h : TrailerInv t input r₀ s rt := h
    obtain ⟨src, -, hrt⟩ := h.source
    exact State.stalled_pollFillTrailer (bodyLen_spec h.pos).2.2.1 hrt hpoll
  | releaseTrailer r consumed data => cases hpoll

theorem State.Inv.later {st : State} (h : st.Inv t input r₀ s) : st.reader.Later r₀ := by
  cases st with
  | body r consumed ul => exact BodyInv.later h
  | readTrailer rt =>
    obtain ⟨src, -, hrt⟩ := TrailerInv.source h
    exact hrt.later
  | releaseTrailer r consumed data => exact ReleaseInv.later h

-- ====================
-- How clients end
-- ====================

/-- The client gets the payload of a well formed packet and is right behind the packet,
    or it gets an error. -/
def Ends (t : Tag) (input : Bytes) (r₀ : AsyncStream) (p : ℕ → Prog IoError AsyncStream Bytes) :
    Prop :=
  (WellFormed t input ∧ ∃ r : AsyncStream, input.drop 8 =
      payload input ++ List.replicate (paddingLen (userLen input)) 0 ++ t.suffix ++ r.rest ∧
    r.Later r₀ ∧ ∀ x, Returns p x (.ok (payload input, r))) ∨
  (¬ WellFormed t input ∧ ∃ e, ∀ x, Returns p x (.error e))

theorem Ends.succ {p q : ℕ → Prog IoError AsyncStream Bytes} (h : Ends t input r₀ q)
    (hpq : ∀ k x, (p (k + 1)).run x = (q k).run x) : Ends t input r₀ p := by
  rcases h with ⟨hwf, r, hrest, hlater, hret⟩ | ⟨hwf, e, hret⟩
  · exact .inl ⟨hwf, r, hrest, hlater, fun x => (hret x).succ fun k => hpq k x⟩
  · exact .inr ⟨hwf, e, fun x => (hret x).succ fun k => hpq k x⟩

/-- The end is reported. -/
theorem ends_eof {st : State} (hs : s.Inv t allowed input r₀) (hst : s.phase = .opened st)
    (heofs : 0 < s.eofs) : Ends t input r₀ (fun _ => giveBack s.handed st.reader) := by
  obtain ⟨-, r, consumed, data, hphase, h⟩ := hs.verified (.inr heofs)
  obtain rfl : st = .releaseTrailer r consumed data := by
    rw [hst] at hphase
    cases hphase
    rfl
  refine .inl ⟨h.wellFormed, r, h.rest_eq, h.later, fun x => ?_⟩
  rw [h.eofs heofs]
  exact returns_giveBack _ _ x

/-- A failure is reported. -/
theorem ends_error {e : IoError} {st : State} (hs : s.Inv t allowed input r₀)
    (hfaultless : r₀.Faultless) (hst : s.phase = .opened st) (hfailures : 0 < s.failures) :
    Ends t input r₀ (fun _ => .fail e) := by
  have hphase := hs.phase
  rw [hst] at hphase
  obtain ⟨-, hallowed, -⟩ := hphase
  refine .inr ⟨fun hwf => ?_, e, fun x => Returns.fail e x⟩
  have := hs.failures hfaultless hwf hallowed
  omega

theorem readAll_spec (client : Bytes → Wish) (hfaultless : r₀.Faultless) (hfair : r₀.Fair)
    {st : State} (hs : s.Inv t allowed input r₀) (hst : s.phase = .opened st) (heofs : s.eofs = 0)
    (hfailures : s.failures = 0) :
    Ends t input r₀ (fun k => readAll t client k st s.handed) := by
  -- by induction on what is left of the payload, and on the polls until more of it is there
  induction hn : (payload input).length - s.handed.length using Nat.strong_induction_on
    generalizing s st with
  | _ n ihn =>
  have hlater : st.reader.Later r₀ := by
    have hphase := hs.phase
    rw [hst] at hphase
    exact hphase.2.2.later
  generalize hr : st.reader = r at hlater
  revert s st
  refine stalled_induction (P := fun r => ∀ {s : Session} {st : State}, s.Inv t allowed input r₀ →
    s.phase = .opened st → s.eofs = 0 → s.failures = 0 →
    (payload input).length - s.handed.length = n → st.reader = r →
    Ends t input r₀ (fun k => readAll t client k st s.handed)) hfair ?_ hlater
  intro r _ ihr s st hs hst heofs hfailures hn hr
  subst hr
  have hinv : st.Inv t input r₀ s := by
    have hphase := hs.phase
    rw [hst] at hphase
    exact hphase.2.2
  -- a piece of the payload was handed out
  have hmore : ∀ {s' : Session} {st' : State}, s'.Inv t allowed input r₀ →
      s'.phase = .opened st' → s'.eofs = 0 → s'.failures = 0 →
      s.handed.length < s'.handed.length →
      Ends t input r₀ (fun k => readAll t client k st' s'.handed) := by
    intro s' st' hs' hst' heofs' hfailures' hlen
    have hprefix := (List.prefix_append _ _).trans hs'.prefix_payload |>.length_le
    exact ihn _ (by omega) hs' hst' heofs' hfailures' rfl
  cases hclient : client s.handed with
  | read m =>
    have hs' := inv_polledRead (Nat.succ_pos m) hs hst
    rcases hpoll : st.pollRead t (m + 1) with ⟨_ | e | _ | ⟨b, chunk⟩, st'⟩
    · rw [hpoll] at hs'
      have hlater' : st'.reader.Later r₀ := hs'.phase.2.2.later
      refine (ihr st'.reader (State.stalled_pollRead hinv (Nat.succ_pos m) hpoll) hlater' hs' rfl
        heofs hfailures hn rfl).succ fun k x => ?_
      simp only [readAll, hclient, hpoll]
      rfl
    · rw [hpoll] at hs'
      refine (ends_error (e := e) hs' hfaultless rfl ?_).succ fun k x => ?_
      · simp [Session.polledRead]
      · simp only [readAll, hclient, hpoll]
    · rw [hpoll] at hs'
      refine (ends_eof hs' rfl ?_).succ fun k x => ?_
      · simp [Session.polledRead]
      · simp only [readAll, hclient, hpoll, Session.polledRead, List.append_nil]
    · rw [hpoll] at hs'
      refine (hmore hs' rfl ?_ hfailures ?_).succ fun k x => ?_
      · simpa [Session.polledRead] using heofs
      · simp [Session.polledRead]
      · simp only [readAll, hclient, hpoll, Session.polledRead]
  | view m =>
    have hs' := inv_polledFillBuf hs hst
    rcases hpoll : st.pollFillBuf t with ⟨_ | e | _ | ⟨b, view⟩, st'⟩
    · rw [hpoll] at hs'
      have hlater' : st'.reader.Later r₀ := hs'.phase.2.2.later
      refine (ihr st'.reader (State.stalled_pollFillBuf hinv hpoll) hlater' hs' rfl heofs hfailures
        hn rfl).succ fun k x => ?_
      simp only [readAll, hclient, hpoll]
      rfl
    · rw [hpoll] at hs'
      refine (ends_error (e := e) hs' hfaultless rfl ?_).succ fun k x => ?_
      · simp [Session.polledFillBuf]
      · simp only [readAll, hclient, hpoll]
    · rw [hpoll] at hs'
      refine (ends_eof hs' rfl ?_).succ fun k x => ?_
      · simp [Session.polledFillBuf]
      · simp only [readAll, hclient, hpoll, Session.polledFillBuf]
    · rw [hpoll] at hs'
      have hs'' := inv_consumed hs' rfl
        (Nat.min_le_right (m + 1) (b :: view).length)
      rcases hconsume : st'.consume (min (m + 1) (b :: view).length) with _ | st''
      · rw [hconsume] at hs''
        exact absurd hs''.panicked (by simp [Session.consumed])
      · rw [hconsume] at hs''
        refine (hmore hs'' rfl ?_ hfailures ?_).succ fun k x => ?_
        · simpa [Session.consumed, Session.polledFillBuf] using heofs
        · simp only [Session.consumed, Session.polledFillBuf, List.length_append, List.length_take,
            List.length_cons]
          omega
        · simp only [readAll, hclient, hpoll, hconsume, Session.consumed, Session.polledFillBuf]

/-- The stream a reader under construction reads from. -/
def Phase.reader? : Phase → Option AsyncStream
  | .readLen _ r => some r
  | .emptyTrailer rt => some rt.reader
  | _ => none

/-- Everything polling the construction of a reader can do. -/
def PolledNew (r : AsyncStream) (res : Poll (Except IoError Unit) × Phase) : Prop :=
  (∃ phase r', res = (.pending, phase) ∧ phase.reader? = some r' ∧ Stalled r r') ∨
    (∃ e phase, res = (.ready (.error e), phase)) ∨ ∃ st, res = (.ready (.ok ()), .opened st)

theorem polledNew_pollEmptyTrailer {rt : ReadTrailer} {full : Bytes} (h : rt.Inv t 0 full r₀) :
    PolledNew rt.reader (pollEmptyTrailer t rt) := by
  rw [pollEmptyTrailer, ReadTrailer.poll]
  rcases ReadTrailer.pollLoop_cases (Nat.zero_le 8) (t.pattern.length + 1) h (by omega) with
    ⟨rt', hpoll, -, hstalled⟩ | ⟨e, rt', hpoll, -⟩ | ⟨data, rt', hpoll, -⟩
  · rw [hpoll]
    exact .inl ⟨_, rt'.reader, rfl, rfl, hstalled⟩
  · rw [hpoll]
    exact .inr (.inl ⟨e, _, rfl⟩)
  · rw [hpoll]
    exact .inr (.inr ⟨_, rfl⟩)

theorem PolledNew.of_shorter {r r' : AsyncStream} {res : Poll (Except IoError Unit) × Phase}
    (h : PolledNew r' res) (hlt : r'.rest.length < r.rest.length) : PolledNew r res := by
  rcases h with ⟨phase, r'', hres, hreader, hstalled⟩ | hdone
  · refine .inl ⟨phase, r'', hres, hreader, .inl ?_⟩
    rcases hstalled with hlt' | ⟨-, heq, -⟩
    · exact hlt'.trans hlt
    · rw [heq]
      exact hlt
  · exact .inr hdone

theorem polledNew_pollReadLen (fuel : ℕ) {buf : Bytes} {r : AsyncStream}
    (hfuel : 8 < fuel + buf.length) (hlen : buf.length ≤ 8) :
    PolledNew r (pollReadLen t allowed fuel buf r) := by
  induction fuel generalizing buf r with
  | zero => omega
  | succ fuel ih =>
    rw [pollReadLen]
    by_cases hfull : buf.length = 8
    · simp only [if_pos hfull]
      split_ifs
      · exact .inr (.inl ⟨_, _, rfl⟩)
      · exact polledNew_pollEmptyTrailer (Inv_readTrailer t _ (.refl r))
      · exact .inr (.inr ⟨_, rfl⟩)
    · rw [if_neg hfull]
      rcases r.pollRead_cases (8 - buf.length) with ⟨r', hr, hrest, hans⟩ | ⟨r', hr, -⟩ |
        ⟨_ | ⟨b, chunk⟩, r', hr, hrest, hans, hn, -⟩
      · simp only [hr]
        exact .inl ⟨_, r', rfl, rfl, .inr ⟨AsyncStream.pending_of_pollRead hr, hrest, hans⟩⟩
      · simp only [hr]
        exact .inr (.inl ⟨_, _, rfl⟩)
      · simp only [hr]
        exact .inr (.inl ⟨_, _, rfl⟩)
      · simp only [hr]
        refine PolledNew.of_shorter (ih ?_ ?_) ?_
        · simp only [List.length_append, List.length_cons]
          omega
        · simp only [List.length_append]
          omega
        · rw [hrest, List.length_append, List.length_cons]
          omega

theorem polledNew_pollNew (hs : s.Inv t allowed input r₀) {r : AsyncStream}
    (hr : s.phase.reader? = some r) :
    PolledNew r (pollNew t allowed s.phase) ∧
      (s.polledNew (pollNew t allowed s.phase)).Inv t allowed input r₀ ∧ r.Later r₀ := by
  have hphase := hs.phase
  rcases hp : s.phase with ⟨buf, r'⟩ | rt | st | _
  · rw [hp] at hr hphase
    obtain ⟨hfresh, hsource, hlen, hlater⟩ := hphase
    cases hr
    exact ⟨polledNew_pollReadLen 9 (by omega) hlen,
      inv_polledNew_readLen 9 hs hfresh hsource hlen hlater, hlater⟩
  · rw [hp] at hr hphase
    obtain ⟨hfresh, hinput, hallowed, hzero, hrt⟩ := hphase
    cases hr
    exact ⟨polledNew_pollEmptyTrailer hrt,
      inv_polledNew_emptyTrailer hs hfresh hinput hallowed hzero hrt, hrt.later⟩
  · rw [hp] at hr
    cases hr
  · rw [hp] at hr
    cases hr

/-- A reader is constructed, or the packet is not well formed. -/
def Opens (t : Tag) (allowed : ℕ → Bool) (input : Bytes) (r₀ : AsyncStream)
    (p : ℕ → Prog IoError AsyncStream State) : Prop :=
  (∃ (st : State) (s : Session), s.Inv t allowed input r₀ ∧ s.phase = .opened st ∧
    s.handed = [] ∧ s.eofs = 0 ∧ s.failures = 0 ∧ ∀ x, Returns p x (.ok (st, st.reader))) ∨
  (¬ WellFormed t input ∧ ∃ e, ∀ x, Returns p x (.error e))

theorem Opens.succ {p q : ℕ → Prog IoError AsyncStream State} (h : Opens t allowed input r₀ q)
    (hpq : ∀ k x, (p (k + 1)).run x = (q k).run x) : Opens t allowed input r₀ p := by
  rcases h with ⟨st, s, hs, hst, hhanded, heofs, hfailures, hret⟩ | ⟨hwf, e, hret⟩
  · exact .inl ⟨st, s, hs, hst, hhanded, heofs, hfailures,
      fun x => (hret x).succ fun k => hpq k x⟩
  · exact .inr ⟨hwf, e, fun x => (hret x).succ fun k => hpq k x⟩

theorem awaitNew_spec (hall : ∀ n, allowed n = true) (hfaultless : r₀.Faultless)
    (hfair : r₀.Fair) {r : AsyncStream} (hs : s.Inv t allowed input r₀)
    (hr : s.phase.reader? = some r) (hhanded : s.handed = []) (heofs : s.eofs = 0)
    (hfailures : s.failures = 0) :
    Opens t allowed input r₀ (fun k => awaitNew t allowed k s.phase) := by
  have hlater := (polledNew_pollNew hs hr).2.2
  revert s
  refine stalled_induction (P := fun r => ∀ {s : Session}, s.Inv t allowed input r₀ →
    s.phase.reader? = some r → s.handed = [] → s.eofs = 0 → s.failures = 0 →
    Opens t allowed input r₀ (fun k => awaitNew t allowed k s.phase)) hfair ?_ hlater
  intro r _ ihr s hs hr hhanded heofs hfailures
  obtain ⟨hpolled, hs', -⟩ := polledNew_pollNew hs hr
  rcases hpolled with ⟨phase, r', hpoll, hr', hstalled⟩ | ⟨e, phase, hpoll⟩ | ⟨st, hpoll⟩
  · rw [hpoll] at hs'
    have hlater' := (polledNew_pollNew hs' hr').2.2
    refine (ihr r' hstalled hlater' hs' hr' hhanded heofs hfailures).succ fun k x => ?_
    simp only [awaitNew, hpoll]
    rfl
  · rw [hpoll] at hs'
    refine .inr ⟨fun hwf => ?_, e, fun x => (Returns.fail e x).succ fun k => ?_⟩
    · have := hs'.failures hfaultless hwf (hall _)
      simp only [Session.polledNew] at this
      omega
    · simp only [awaitNew, hpoll]
  · rw [hpoll] at hs'
    refine .inl ⟨st, _, hs', rfl, hhanded, heofs, hfailures, fun x =>
      (returns_giveBack st st.reader x).succ fun k => ?_⟩
    simp only [awaitNew, hpoll]

/-- Constructing a reader and reading all of it. -/
theorem newReader_readAll_spec (hall : ∀ n, allowed n = true) (client : Bytes → Wish)
    {r : AsyncStream} (hfaultless : r.Faultless) (hfair : r.Fair) :
    (WellFormed t r.rest ∧ ∃ r', r.rest.drop 8 =
        payload r.rest ++ List.replicate (paddingLen (userLen r.rest)) 0 ++ t.suffix ++ r'.rest ∧
      r'.Faultless ∧ r'.Fair ∧
      Returns (fun k => newReader t allowed k >>= fun st => readAll t client k st []) r
        (.ok (payload r.rest, r'))) ∨
    (¬ WellFormed t r.rest ∧ ∃ e,
      Returns (fun k => newReader t allowed k >>= fun st => readAll t client k st []) r
        (.error e)) := by
  have hstart := Session.inv_start t allowed r
  rcases awaitNew_spec hall hfaultless hfair hstart rfl rfl rfl rfl with
    ⟨st, s', hs', hst, hhanded, heofs, hfailures, hret⟩ | ⟨hwf, e, hret⟩
  · have hnew : Returns (newReader t allowed) r (.ok (st, st.reader)) := hret r
    have hends := readAll_spec client hfaultless hfair hs' hst heofs hfailures
    rw [hhanded] at hends
    rcases hends with ⟨hwf, r', hrest, hlater, hret'⟩ | ⟨hwf, e, hret'⟩
    · exact .inl ⟨hwf, r', hrest, hlater.faultless hfaultless, hlater.fair hfair,
        hnew.bind (hret' _)⟩
    · exact .inr ⟨hwf, e, hnew.bind (hret' _)⟩
  · have hnew : Returns (newReader t allowed) r (.error e) := hret r
    exact .inr ⟨hwf, e, hnew.bind_error⟩

/-- The length of the data that was not read yet. -/
def State.len : State → ℕ
  | .body _ consumed userLen => userLen - consumed
  | .readTrailer rt => rt.dataLen
  | .releaseTrailer _ consumed data => data.length - consumed

/-- In every state, the length is that of what the client does not have. -/
theorem State.len_eq {st : State} (h : st.Inv t input r₀ s) (hwf : WellFormed t input) :
    st.len = (payload input).length - s.handed.length := by
  cases st with
  | body r consumed ul =>
    have h : BodyInv input r₀ s r consumed ul := h
    rw [State.len, h.handed, h.ul_eq, hwf.2.1]
  | readTrailer rt =>
    have h : TrailerInv t input r₀ s rt := h
    obtain ⟨src, -, hrt⟩ := h.source
    have hspec := bodyLen_spec h.pos
    rw [State.len, hrt.dataLen_eq, h.handed, hwf.2.1]
    omega
  | releaseTrailer r consumed data =>
    have h : ReleaseInv t input r₀ s r consumed data := h
    obtain ⟨pre, hpre, hhanded⟩ := h.payload_eq
    have hle := h.consumed_le
    rw [State.len, hpre, hhanded, List.length_append, List.length_append, List.length_take]
    omega

/-- A reader is constructed, with the length of what is read from it then; or one of the two
    fails. -/
theorem newReader_len_spec (hall : ∀ n, allowed n = true) (client : Bytes → Wish)
    {r : AsyncStream} (hfaultless : r.Faultless) (hfair : r.Fair) :
    (∃ st r₁ r', WellFormed t r.rest ∧ r.rest.drop 8 =
        payload r.rest ++ List.replicate (paddingLen (userLen r.rest)) 0 ++ t.suffix ++ r'.rest ∧
      r'.Faultless ∧ r'.Fair ∧ st.len = (payload r.rest).length ∧
      Returns (newReader t allowed) r (.ok (st, r₁)) ∧
      Returns (fun k => readAll t client k st []) r₁ (.ok (payload r.rest, r'))) ∨
    ¬ WellFormed t r.rest ∧ ∃ e, Returns (newReader t allowed) r (.error e) ∨
      ∃ st r₁, Returns (newReader t allowed) r (.ok (st, r₁)) ∧
        Returns (fun k => readAll t client k st []) r₁ (.error e) := by
  have hstart := Session.inv_start t allowed r
  rcases awaitNew_spec hall hfaultless hfair hstart rfl rfl rfl rfl with
    ⟨st, s', hs', hst, hhanded, heofs, hfailures, hret⟩ | ⟨hwf, e, hret⟩
  · have hnew : Returns (newReader t allowed) r (.ok (st, st.reader)) := hret r
    have hends := readAll_spec client hfaultless hfair hs' hst heofs hfailures
    rw [hhanded] at hends
    rcases hends with ⟨hwf, r', hrest, hlater, hret'⟩ | ⟨hwf, e, hret'⟩
    · have hphase := hs'.phase
      rw [hst] at hphase
      have hlen := State.len_eq hphase.2.2 hwf
      rw [hhanded, List.length_nil, Nat.sub_zero] at hlen
      exact .inl ⟨st, st.reader, r', hwf, hrest, hlater.faultless hfaultless, hlater.fair hfair,
        hlen, hnew, hret' _⟩
    · exact .inr ⟨hwf, e, .inr ⟨st, st.reader, hnew, hret' _⟩⟩
  · exact .inr ⟨hwf, e, .inl (hret r)⟩

end

end Snix.Wire
