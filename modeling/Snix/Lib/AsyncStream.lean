import Snix.Lib.Bytes

/-!
# Byte streams that are polled

A byte stream whose reader decides at every poll whether it is ready, and how
many bytes it hands over at most. The decisions are a parameter: a statement for
all of them holds for every way the stream is split up and delayed.

## Main definitions

- `Poll`, `Answer`, `AsyncStream` — results, decisions and the stream
- `AsyncStream.pollRead`, `AsyncStream.pollFillBuf`, `AsyncStream.consume`

## Main results

- `pollRead_cases`, `pollFillBuf_cases` — everything a poll can do
- `stalled_induction` — induction on the polls of a stream that becomes ready again
-/

namespace Snix

/-- The result of a poll. -/
inductive Poll (α : Type) where
  | pending
  | ready (a : α)
  deriving DecidableEq

/-- Why reading failed. -/
inductive IoError where
  | unexpectedEof
  | invalidData
  /-- An error of the underlying reader. -/
  | inner
  /-- The program panicked. -/
  | panic
  deriving DecidableEq, Repr

/-- The decision of a reader at a poll: not ready, an error, or at most `k + 1`
    bytes. -/
inductive Answer where
  | pending
  | fail
  | chunk (k : ℕ)
  deriving DecidableEq

/-- The bytes that are left, and the decisions at the coming polls. -/
structure AsyncStream where
  rest : Bytes
  answers : ℕ → Answer

namespace AsyncStream

/-- The stream after a decision was used up. -/
def tick (s : AsyncStream) : AsyncStream := { s with answers := fun i => s.answers (i + 1) }

/-- Polls for at most `n` bytes. No bytes are the end of the stream. -/
def pollRead (s : AsyncStream) (n : ℕ) : Poll (Except IoError Bytes) × AsyncStream :=
  match s.answers 0 with
  | .pending => (.pending, s.tick)
  | .fail => (.ready (.error .inner), s.tick)
  | .chunk k =>
    (.ready (.ok (s.rest.take (min n (k + 1)))),
      { s.tick with rest := s.rest.drop (min n (k + 1)) })

/-- Polls for a view of the bytes that come next, without taking them. -/
def pollFillBuf (s : AsyncStream) : Poll (Except IoError Bytes) × AsyncStream :=
  match s.answers 0 with
  | .pending => (.pending, s.tick)
  | .fail => (.ready (.error .inner), s.tick)
  | .chunk k => (.ready (.ok (s.rest.take (k + 1))), s.tick)

/-- Takes bytes that were viewed before. -/
def consume (s : AsyncStream) (n : ℕ) : AsyncStream := { s with rest := s.rest.drop n }

/-- The reader reports no errors of its own. -/
def Faultless (s : AsyncStream) : Prop := ∀ i, s.answers i ≠ .fail

/-- The stream is ready again after every poll that was not. -/
def Fair (s : AsyncStream) : Prop := ∀ i, ∃ j, s.answers (i + j) ≠ .pending

/-- The decisions are those of `s₀` from some poll on. -/
def Later (s s₀ : AsyncStream) : Prop := ∃ i, ∀ j, s.answers j = s₀.answers (i + j)

theorem Later.refl (s : AsyncStream) : s.Later s := ⟨0, fun j => by rw [Nat.zero_add]⟩

theorem Later.of_tick {s s' s₀ : AsyncStream} (h : s.Later s₀)
    (hans : s'.answers = s.tick.answers) : s'.Later s₀ := by
  obtain ⟨i, hi⟩ := h
  refine ⟨i + 1, fun j => ?_⟩
  rw [hans, tick, hi (j + 1), Nat.add_right_comm, Nat.add_assoc]

theorem Later.faultless {s s₀ : AsyncStream} (h : s.Later s₀) (h₀ : s₀.Faultless) :
    s.Faultless := by
  obtain ⟨i, hi⟩ := h
  intro j
  rw [hi]
  exact h₀ (i + j)

theorem Later.fair {s s₀ : AsyncStream} (h : s.Later s₀) (h₀ : s₀.Fair) : s.Fair := by
  obtain ⟨i, hi⟩ := h
  intro j
  obtain ⟨m, hm⟩ := h₀ (i + j)
  refine ⟨m, ?_⟩
  rwa [hi, ← Nat.add_assoc]

/-- Everything a read can do. -/
theorem pollRead_cases (s : AsyncStream) (n : ℕ) :
    (∃ s', s.pollRead n = (.pending, s') ∧ s'.rest = s.rest ∧ s'.answers = s.tick.answers) ∨
      (∃ s', s.pollRead n = (.ready (.error .inner), s') ∧ s'.rest = s.rest ∧
        s'.answers = s.tick.answers ∧ ¬ s.Faultless) ∨
      ∃ chunk s', s.pollRead n = (.ready (.ok chunk), s') ∧ s.rest = chunk ++ s'.rest ∧
        s'.answers = s.tick.answers ∧ chunk.length ≤ n ∧
        (chunk = [] → n = 0 ∨ s.rest = []) := by
  cases h : s.answers 0 with
  | pending => exact .inl ⟨s.tick, by simp [pollRead, h], rfl, rfl⟩
  | fail => exact .inr (.inl ⟨s.tick, by simp [pollRead, h], rfl, rfl, fun hf => hf 0 h⟩)
  | chunk k =>
    refine .inr (.inr ⟨s.rest.take (min n (k + 1)),
      { s.tick with rest := s.rest.drop (min n (k + 1)) }, by simp [pollRead, h], ?_, rfl, ?_, ?_⟩)
    · exact (List.take_append_drop _ _).symm
    · simp only [List.length_take]
      omega
    · intro hnil
      rcases List.take_eq_nil_iff.mp hnil with hmin | hrest
      · exact .inl (by omega)
      · exact .inr hrest

theorem pending_of_pollRead {s s' : AsyncStream} {n : ℕ} (h : s.pollRead n = (.pending, s')) :
    s.answers 0 = .pending := by
  cases hans : s.answers 0 with
  | pending => rfl
  | fail => simp [pollRead, hans] at h
  | chunk k => simp [pollRead, hans] at h

/-- Everything a view can do. -/
theorem pollFillBuf_cases (s : AsyncStream) :
    (∃ s', s.pollFillBuf = (.pending, s') ∧ s'.rest = s.rest ∧ s'.answers = s.tick.answers) ∨
      (∃ s', s.pollFillBuf = (.ready (.error .inner), s') ∧ s'.rest = s.rest ∧
        s'.answers = s.tick.answers ∧ ¬ s.Faultless) ∨
      ∃ view s', s.pollFillBuf = (.ready (.ok view), s') ∧ s'.rest = s.rest ∧
        s'.answers = s.tick.answers ∧ view <+: s.rest ∧ (view = [] → s.rest = []) := by
  cases h : s.answers 0 with
  | pending => exact .inl ⟨s.tick, by simp [pollFillBuf, h], rfl, rfl⟩
  | fail => exact .inr (.inl ⟨s.tick, by simp [pollFillBuf, h], rfl, rfl, fun hf => hf 0 h⟩)
  | chunk k =>
    refine .inr (.inr ⟨s.rest.take (k + 1), s.tick, by simp [pollFillBuf, h], rfl, rfl, ?_, ?_⟩)
    · exact List.take_prefix _ _
    · intro hnil
      rcases List.take_eq_nil_iff.mp hnil with hk | hrest
      · omega
      · exact hrest

theorem pending_of_pollFillBuf {s s' : AsyncStream} (h : s.pollFillBuf = (.pending, s')) :
    s.answers 0 = .pending := by
  cases hans : s.answers 0 with
  | pending => rfl
  | fail => simp [pollFillBuf, hans] at h
  | chunk k => simp [pollFillBuf, hans] at h

end AsyncStream

/-- A poll brought nothing to an end: bytes were taken, or the stream was not ready. -/
def Stalled (r r' : AsyncStream) : Prop :=
  r'.rest.length < r.rest.length ∨
    r.answers 0 = .pending ∧ r'.rest = r.rest ∧ r'.answers = r.tick.answers

/-- Induction on the polls of a stream that becomes ready again: after finitely many
    polls that are pending, bytes are taken. -/
theorem stalled_induction {P : AsyncStream → Prop} {r₀ : AsyncStream} (hfair : r₀.Fair)
    (h : ∀ r, r.Later r₀ → (∀ r', Stalled r r' → r'.Later r₀ → P r') → P r) {r : AsyncStream}
    (hr : r.Later r₀) : P r := by
  induction hn : r.rest.length using Nat.strong_induction_on generalizing r with
  | _ n ihn =>
  subst hn
  obtain ⟨j, hj⟩ := hr.fair hfair 0
  rw [Nat.zero_add] at hj
  induction j generalizing r with
  | zero =>
    refine h r hr fun r' hstalled hr' => ?_
    rcases hstalled with hlt | ⟨hpending, -, -⟩
    · exact ihn _ hlt hr' rfl
    · exact absurd hpending hj
  | succ j ihj =>
    refine h r hr fun r' hstalled hr' => ?_
    rcases hstalled with hlt | ⟨-, hrest, hans⟩
    · exact ihn _ hlt hr' rfl
    · refine ihj hr' (fun m hm r'' hr'' hlen => ?_) (by rwa [hans])
      rw [hrest] at hm
      exact ihn m hm hr'' hlen

end Snix
