import Snix.Lib.AsyncStream
import Snix.Lib.Prog

/-!
# Reading bytes through short reads

A read into a buffer may return fewer bytes than the buffer has room for, and no
bytes only at the end of the stream. The loops here fill a buffer, or compare with
a known token, through such reads, and what they do depends on the bytes alone.

There are two streams to read from: one that blocks, and one that is polled until
it is ready.

## Main definitions

- `Read`, `Read.Spec` — a way to read, and what a read does
- `readExact`, `token` — the loops
- `takeExact`, `dropToken` — the same on byte strings
- `ShortReader` — a stream that blocks
- `AsyncStream.read`, `AsyncStream.Fair` — awaiting a stream that is polled

## Main results

- `agrees_readExact`, `agrees_token` — the loops do what the functions say
-/

namespace Snix

variable {δ σ : Type}

/-- Reads into a buffer of the given size, within the given number of steps. -/
abbrev Read (σ : Type) := ℕ → ℕ → Prog IoError σ Bytes

/-- A read returns some of the bytes that come next, and none only at the end. -/
def Read.Spec (read : Read σ) (V : View δ σ Bytes) : Prop :=
  ∀ s n, V.Valid s → 0 < n → ∃ chunk s', V.Valid s' ∧ V.rest s = chunk ++ V.rest s' ∧
    chunk.length ≤ n ∧ (chunk = [] → V.rest s = []) ∧
    Returns (fun k => read k n) s (.ok (chunk, s'))

/-- Fills a buffer of `n` bytes. -/
def readExact (read : Read σ) : ℕ → ℕ → Prog IoError σ Bytes
  | 0, _ => .running
  | k + 1, n =>
    if n = 0 then pure []
    else do
      let chunk ← read k n
      if chunk = [] then .fail .unexpectedEof
      else do
        let more ← readExact read k (n - chunk.length)
        pure (chunk ++ more)

/-- Reads a known token, comparing each piece of it as it comes. -/
def token (read : Read σ) : ℕ → Bytes → Prog IoError σ Unit
  | 0, _ => .running
  | k + 1, tok =>
    if tok = [] then pure ()
    else do
      let chunk ← read k tok.length
      if chunk = [] then .fail .unexpectedEof
      else if tok.take chunk.length ≠ chunk then .fail .invalidData
      else token read k (tok.drop chunk.length)

/-- The first `n` bytes, and the rest. -/
def takeExact (d : δ) (n : ℕ) (b : Bytes) : Except δ (Bytes × Bytes) :=
  if n ≤ b.length then .ok (b.take n, b.drop n) else .error d

/-- What follows a known token. -/
def dropToken (d : δ) (tok b : Bytes) : Except δ (Unit × Bytes) :=
  if tok <+: b then .ok ((), b.drop tok.length) else .error d

theorem except_bind_eq_ok_iff {α β : Type} {x : Except δ α} {f : α → Except δ β} {b : β} :
    (x >>= f) = .ok b ↔ ∃ a, x = .ok a ∧ f a = .ok b := by
  cases x with
  | error e =>
    constructor
    · intro h
      cases h
    · rintro ⟨a, ha, -⟩
      cases ha
  | ok a =>
    constructor
    · exact fun h => ⟨a, rfl, h⟩
    · rintro ⟨a', ha, h⟩
      cases ha
      exact h

theorem except_bind_eq_error_iff {α β : Type} {x : Except δ α} {f : α → Except δ β} {d : δ} :
    (x >>= f) = .error d ↔ x = .error d ∨ ∃ a, x = .ok a ∧ f a = .error d := by
  cases x with
  | error e =>
    constructor
    · intro h
      cases h
      exact .inl rfl
    · rintro (h | ⟨a, ha, -⟩)
      · cases h
        rfl
      · cases ha
  | ok a =>
    constructor
    · exact fun h => .inr ⟨a, rfl, h⟩
    · rintro (h | ⟨a', ha, h⟩)
      · cases h
      · cases ha
        exact h

theorem takeExact_eq_ok_iff {d : δ} {n : ℕ} {b x r : Bytes} :
    takeExact d n b = .ok (x, r) ↔ b = x ++ r ∧ x.length = n := by
  unfold takeExact
  constructor
  · intro h
    split at h
    · obtain ⟨rfl, rfl⟩ : b.take n = x ∧ b.drop n = r := by simpa using h
      exact ⟨(List.take_append_drop n b).symm, by simpa⟩
    · cases h
  · rintro ⟨rfl, rfl⟩
    simp

theorem dropToken_eq_ok_iff {d : δ} {tok b r : Bytes} {u : Unit} :
    dropToken d tok b = .ok (u, r) ↔ b = tok ++ r := by
  unfold dropToken
  constructor
  · intro h
    split at h
    case isTrue hprefix =>
      obtain ⟨t, rfl⟩ := hprefix
      simpa using h
    case isFalse => cases h
  · rintro rfl
    simp

theorem takeExact_append {d : δ} {n : ℕ} {chunk : Bytes} (h : chunk.length ≤ n) (b : Bytes) :
    takeExact d n (chunk ++ b) =
      (takeExact d (n - chunk.length) b >>= fun x => .ok (chunk ++ x.1, x.2)) := by
  obtain ⟨m, rfl⟩ := Nat.exists_eq_add_of_le h
  unfold takeExact
  by_cases hm : m ≤ b.length
  · rw [if_pos (by simpa using hm), if_pos (by omega), Nat.add_sub_cancel_left,
      List.take_length_add_append, List.drop_length_add_append]
    rfl
  · rw [if_neg (by simpa using hm), if_neg (by omega)]
    rfl

theorem dropToken_append {d : δ} {tok chunk : Bytes} (h : chunk.length ≤ tok.length) (b : Bytes) :
    dropToken d tok (chunk ++ b) =
      if tok.take chunk.length ≠ chunk then .error d
      else dropToken d (tok.drop chunk.length) b := by
  unfold dropToken
  by_cases htake : tok.take chunk.length = chunk
  · rw [if_neg (not_not.mpr htake)]
    obtain ⟨more, rfl⟩ : ∃ more, tok = chunk ++ more := by
      refine ⟨tok.drop chunk.length, ?_⟩
      conv_lhs => rw [← List.take_append_drop chunk.length tok, htake]
    simp only [List.drop_left, List.prefix_append_right_inj, List.length_append]
    rw [List.drop_length_add_append]
  · rw [if_pos htake, if_neg]
    rintro ⟨t, ht⟩
    apply htake
    have := congrArg (List.take chunk.length) ht
    rwa [List.take_append_of_le_length h, List.take_left] at this

/-- There is no other failure than `d`. -/
def FailsOnly {α : Type} (d : δ) (x : Except δ α) : Prop := ∀ d', x = .error d' → d' = d

namespace FailsOnly

variable {α β : Type} {d : δ}

theorem ok (a : α) : FailsOnly d (.ok a : Except δ α) := by
  intro d' h
  cases h

theorem error : FailsOnly d (.error d : Except δ α) := by
  intro d' h
  cases h
  rfl

theorem bind {x : Except δ α} {f : α → Except δ β} (hx : FailsOnly d x)
    (hf : ∀ a, FailsOnly d (f a)) : FailsOnly d (x >>= f) := by
  intro d' h
  rcases except_bind_eq_error_iff.mp h with h | ⟨a, -, h⟩
  · exact hx d' h
  · exact hf a d' h

theorem ite {c : Prop} [Decidable c] {x y : Except δ α} (hx : FailsOnly d x)
    (hy : FailsOnly d y) : FailsOnly d (if c then x else y) := by
  split
  · exact hx
  · exact hy

theorem takeExact (n : ℕ) (b : Bytes) : FailsOnly d (takeExact d n b) := ite (ok _) error

theorem dropToken (tok b : Bytes) : FailsOnly d (dropToken d tok b) := ite (ok _) error

end FailsOnly

section

variable {read : Read σ} {V : View δ σ Bytes} {d : δ}

theorem agrees_readExact (hread : read.Spec V) (hd : ¬ V.Silent d) (n : ℕ) {s : σ}
    (hs : V.Valid s) :
    Agrees V (fun k => readExact read k n) s (takeExact d n (V.rest s)) := by
  induction n using Nat.strong_induction_on generalizing s with
  | _ n ih =>
  by_cases hn : n = 0
  · subst hn
    refine .succ (q := fun _ => pure []) ?_ (fun k => by rw [readExact, if_pos rfl])
    simpa [takeExact] using Agrees.pure (V := V) (a := ([] : Bytes)) hs
  obtain ⟨chunk, s', hs', hrest, hlen, hnil, hret⟩ := hread s n hs (by omega)
  refine .succ (q := fun k => read k n >>= _) ?_ (fun k => by rw [readExact, if_neg hn])
  refine .after (f := fun chunk k => if chunk = [] then _ else _) hret ?_
  by_cases hchunk : chunk = []
  · simp only [hchunk, if_true]
    rw [takeExact, hnil hchunk, if_neg (by simpa using hn)]
    exact .fail _ hd
  · have hpos := List.length_pos_iff.mpr hchunk
    simp only [if_neg hchunk, hrest, takeExact_append hlen]
    exact (ih _ (by omega) hs').bind fun more s'' hs'' _ => Agrees.pure hs''

theorem agrees_token (hread : read.Spec V) (hd : ¬ V.Silent d) (tok : Bytes) {s : σ}
    (hs : V.Valid s) :
    Agrees V (fun k => token read k tok) s (dropToken d tok (V.rest s)) := by
  induction hn : tok.length using Nat.strong_induction_on generalizing s tok with
  | _ n ih =>
  subst hn
  by_cases htok : tok = []
  · subst htok
    refine .succ (q := fun _ => pure ()) ?_ (fun k => by rw [token, if_pos rfl])
    simpa [dropToken] using Agrees.pure (V := V) (a := ()) hs
  have htokLen := List.length_pos_iff.mpr htok
  obtain ⟨chunk, s', hs', hrest, hlen, hnil, hret⟩ := hread s tok.length hs htokLen
  refine .succ (q := fun k => read k tok.length >>= _) ?_ (fun k => by rw [token, if_neg htok])
  refine .after (f := fun chunk k => if chunk = [] then _ else _) hret ?_
  by_cases hchunk : chunk = []
  · simp only [hchunk, if_true]
    rw [dropToken, hnil hchunk, if_neg (by simpa using htok)]
    exact .fail _ hd
  · have hpos := List.length_pos_iff.mpr hchunk
    simp only [if_neg hchunk, hrest, dropToken_append hlen]
    by_cases htake : tok.take chunk.length ≠ chunk
    · simp only [if_pos htake]
      exact .fail _ hd
    · simp only [if_neg htake]
      exact ih _ (by rw [List.length_drop]; omega) _ hs' rfl

end

/-- A stream that blocks. The `i`-th read returns at most `sizes i + 1` bytes. -/
structure ShortReader where
  rest : Bytes
  sizes : ℕ → ℕ

namespace ShortReader

/-- Reads into a buffer of `n` bytes. -/
def read (n : ℕ) : Prog IoError ShortReader Bytes := fun r =>
  let n := min n (r.sizes 0 + 1)
  some (.ok (r.rest.take n, ⟨r.rest.drop n, fun i => r.sizes (i + 1)⟩))

/-- The bytes that come next, without taking them. -/
def peek (r : ShortReader) : Bytes × ShortReader :=
  (r.rest.take (r.sizes 0 + 1), { r with sizes := fun i => r.sizes (i + 1) })

/-- Takes bytes that were viewed before. -/
def skip (n : ℕ) (r : ShortReader) : ShortReader := { r with rest := r.rest.drop n }

def fillBuf : Prog IoError ShortReader Bytes := fun r => some (.ok r.peek)

def consume (n : ℕ) : Prog IoError ShortReader Unit := fun r => some (.ok ((), r.skip n))

/-- The bytes that are left. Every failure is reported. -/
def view (δ : Type) : View δ ShortReader Bytes := ⟨rest, fun _ => True, fun _ => False⟩

theorem spec_read : Read.Spec (fun _ n => read n) (view δ) := by
  intro r n _ hn
  refine ⟨r.rest.take (min n (r.sizes 0 + 1)), ⟨r.rest.drop (min n (r.sizes 0 + 1)), _⟩, trivial,
    (List.take_append_drop _ _).symm, ?_, ?_, ⟨0, fun _ _ => rfl⟩⟩
  · simp only [List.length_take]
    omega
  · intro hnil
    rcases List.take_eq_nil_iff.mp hnil with hmin | hrest
    · omega
    · exact hrest

end ShortReader

namespace AsyncStream

/-- Awaits a read into a buffer of `n` bytes. -/
def read : Read AsyncStream
  | 0, _ => .running
  | k + 1, n => fun s =>
    match s.pollRead n with
    | (.pending, s') => (read k n).run s'
    | (.ready (.error e), _) => some (.error e)
    | (.ready (.ok chunk), s') => some (.ok (chunk, s'))

/-- The bytes that are left in a stream that becomes ready again and does not fail by
    itself. `Silent` are the failures that are not reported. -/
def view (Silent : δ → Prop) : View δ AsyncStream Bytes :=
  ⟨rest, fun s => s.Faultless ∧ s.Fair, Silent⟩

theorem spec_read (Silent : δ → Prop) : AsyncStream.read.Spec (view Silent) := by
  rintro s n ⟨hfaultless, hfair⟩ hn
  obtain ⟨j, hj⟩ := hfair 0
  rw [Nat.zero_add] at hj
  -- by induction on the number of polls until the stream is ready
  induction j generalizing s with
  | zero =>
    rcases s.pollRead_cases n with ⟨s', hs', hrest, hans⟩ | ⟨s', hs', hrest, hans, hnf⟩ |
      ⟨chunk, s', hs', hrest, hans, hlen, hnil⟩
    · exact absurd (pending_of_pollRead hs') hj
    · exact absurd hfaultless hnf
    · have hlater := (Later.refl s).of_tick hans
      refine ⟨chunk, s', ⟨hlater.faultless hfaultless, hlater.fair hfair⟩, hrest,
        hlen, fun hchunk => (hnil hchunk).resolve_left (by omega), ⟨1, fun k hk => ?_⟩⟩
      obtain ⟨k, rfl⟩ : ∃ m, k = m + 1 := ⟨k - 1, by omega⟩
      simp only [read, Prog.run, hs']
  | succ j ih =>
    rcases s.pollRead_cases n with ⟨s', hs', hrest, hans⟩ | ⟨s', hs', hrest, hans, hnf⟩ |
      ⟨chunk, s', hs', hrest, hans, hlen, hnil⟩
    · have hlater := (Later.refl s).of_tick hans
      obtain ⟨chunk, s'', hvalid, hrest', hlen, hnil, hret⟩ :=
        ih s' (hlater.faultless hfaultless) (hlater.fair hfair)
          (by rwa [hans])
      refine ⟨chunk, s'', hvalid, hrest.symm.trans hrest', hlen,
        fun hchunk => hrest.symm.trans (hnil hchunk), ?_⟩
      obtain ⟨c, hc⟩ := hret
      refine ⟨c + 1, fun k hk => ?_⟩
      obtain ⟨k, rfl⟩ : ∃ m, k = m + 1 := ⟨k - 1, by omega⟩
      rw [← hc k (by omega)]
      simp only [read, Prog.run, hs']
    · exact absurd hfaultless hnf
    · have hlater := (Later.refl s).of_tick hans
      refine ⟨chunk, s', ⟨hlater.faultless hfaultless, hlater.fair hfair⟩, hrest,
        hlen, fun hchunk => (hnil hchunk).resolve_left (by omega), ⟨1, fun k hk => ?_⟩⟩
      obtain ⟨k, rfl⟩ : ∃ m, k = m + 1 := ⟨k - 1, by omega⟩
      simp only [read, Prog.run, hs']

end AsyncStream

/-- What a client does next: it reads into a buffer of `n + 1` bytes, or it looks at
    the bytes that come next and consumes at most `m + 1` of them. -/
inductive Wish where
  | read (n : ℕ)
  | view (m : ℕ)

end Snix
