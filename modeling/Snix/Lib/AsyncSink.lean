import Snix.Lib.AsyncStream

/-!
# Byte sinks that are polled

The other end of a byte stream: a sink decides at every poll whether it is
ready, and how many of the offered bytes it takes. As for streams, the
decisions are a parameter.

## Main definitions

- `SinkAnswer`, `AsyncSink` — decisions and the sink
- `AsyncSink.pollWrite`, `AsyncSink.pollFlush`, `AsyncSink.pollShutdown`

## Main results

- `pollWrite_cases`, `pollDone_cases` — everything a poll can do
-/

namespace Snix

/-- Why writing failed. -/
inductive WriteError where
  | writeZero
  | invalidData
  | brokenPipe
  /-- An error of the underlying writer. -/
  | inner
  /-- The program panicked. -/
  | panic
  deriving DecidableEq, Repr

/-- The decision of a writer at a poll: not ready, an error, or at most `k` bytes. -/
inductive SinkAnswer where
  | pending
  | fail
  | accept (k : ℕ)
  deriving DecidableEq

/-- The bytes written so far, and the decisions at the coming polls. -/
structure AsyncSink where
  written : Bytes
  answers : ℕ → SinkAnswer

namespace AsyncSink

/-- The sink after a decision was used up. -/
def tick (s : AsyncSink) : AsyncSink := { s with answers := fun i => s.answers (i + 1) }

/-- Offers bytes; returns how many of them were taken. -/
def pollWrite (s : AsyncSink) (buf : Bytes) : Poll (Except WriteError ℕ) × AsyncSink :=
  match s.answers 0 with
  | .pending => (.pending, s.tick)
  | .fail => (.ready (.error .inner), s.tick)
  | .accept k =>
    (.ready (.ok (min k buf.length)), { s.tick with written := s.written ++ buf.take k })

/-- A poll that takes no bytes. -/
def pollDone (s : AsyncSink) : Poll (Except WriteError Unit) × AsyncSink :=
  match s.answers 0 with
  | .pending => (.pending, s.tick)
  | .fail => (.ready (.error .inner), s.tick)
  | .accept _ => (.ready (.ok ()), s.tick)

def pollFlush (s : AsyncSink) : Poll (Except WriteError Unit) × AsyncSink := s.pollDone

def pollShutdown (s : AsyncSink) : Poll (Except WriteError Unit) × AsyncSink := s.pollDone

/-- The sink takes something at every poll. -/
def Obliging (s : AsyncSink) : Prop := ∀ i, ∃ k, s.answers i = .accept (k + 1)

theorem Obliging.of_tick {s s' : AsyncSink} (h : s.Obliging)
    (hans : s'.answers = s.tick.answers) : s'.Obliging := by
  intro i
  rw [hans]
  exact h (i + 1)

/-- Everything a write can do. -/
theorem pollWrite_cases (s : AsyncSink) (buf : Bytes) :
    (∃ s', s.pollWrite buf = (.pending, s') ∧ s'.written = s.written ∧ ¬ s.Obliging) ∨
      (∃ s', s.pollWrite buf = (.ready (.error .inner), s') ∧ s'.written = s.written ∧
        ¬ s.Obliging) ∨
      ∃ n s', s.pollWrite buf = (.ready (.ok n), s') ∧ s'.written = s.written ++ buf.take n ∧
        s'.answers = s.tick.answers ∧ n ≤ buf.length ∧ (n = 0 → s.Obliging → buf = []) := by
  cases h : s.answers 0 with
  | pending =>
    refine .inl ⟨s.tick, by simp [pollWrite, h], rfl, fun ho => ?_⟩
    obtain ⟨k, hk⟩ := ho 0
    simp [h] at hk
  | fail =>
    refine .inr (.inl ⟨s.tick, by simp [pollWrite, h], rfl, fun ho => ?_⟩)
    obtain ⟨k, hk⟩ := ho 0
    simp [h] at hk
  | accept k =>
    refine .inr (.inr ⟨min k buf.length, { s.tick with written := s.written ++ buf.take k },
      by simp [pollWrite, h], ?_, rfl, by omega, fun hn ho => ?_⟩)
    · by_cases hk : k ≤ buf.length
      · rw [Nat.min_eq_left hk]
      · rw [Nat.min_eq_right (by omega), List.take_length, List.take_of_length_le (by omega)]
    · obtain ⟨j, hj⟩ := ho 0
      have hk : k = j + 1 := by simpa [h] using hj
      exact List.length_eq_zero_iff.mp (by omega)

/-- Everything a poll without bytes can do. -/
theorem pollDone_cases (s : AsyncSink) :
    (∃ s', s.pollDone = (.pending, s') ∧ s'.written = s.written ∧ ¬ s.Obliging) ∨
      (∃ s', s.pollDone = (.ready (.error .inner), s') ∧ s'.written = s.written ∧ ¬ s.Obliging) ∨
      ∃ s', s.pollDone = (.ready (.ok ()), s') ∧ s'.written = s.written ∧
        s'.answers = s.tick.answers := by
  cases h : s.answers 0 with
  | pending =>
    refine .inl ⟨s.tick, by simp [pollDone, h], rfl, fun ho => ?_⟩
    obtain ⟨k, hk⟩ := ho 0
    simp [h] at hk
  | fail =>
    refine .inr (.inl ⟨s.tick, by simp [pollDone, h], rfl, fun ho => ?_⟩)
    obtain ⟨k, hk⟩ := ho 0
    simp [h] at hk
  | accept k => exact .inr (.inr ⟨s.tick, by simp [pollDone, h], rfl, rfl⟩)

end AsyncSink

end Snix
