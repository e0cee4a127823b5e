import Mathlib.Order.Lattice.Nat
import Mathlib.Order.WellFounded
import Snix.Lib.ByteReader
import Snix.Lib.ByteWriter

/-!
# Awaiting

An operation that is polled is awaited by polling it until it is ready. It becomes
ready if every poll that is not goes down in a well-founded order; for the streams
and sinks here that order counts the polls that are left.

## Main definitions

- `await` — polls until the operation is ready
- `AsyncStream.wait`, `AsyncSink.wait` — how many polls are not ready
- `Write`, `Write.Spec`, `Write.all` — writing all bytes through short writes

## Main results

- `returns_await` — a rule for `await`
- `Write.Spec.returns_all` — everything is written
-/

namespace Snix

variable {ε σ α : Type}

/-- Polls until the operation is ready. -/
def await (poll : σ → Poll (Except ε α) × σ) : ℕ → Prog ε σ α
  | 0 => .running
  | k + 1 => fun s =>
    match poll s with
    | (.pending, s') => (await poll k).run s'
    | (.ready (.error e), _) => some (.error e)
    | (.ready (.ok a), s') => some (.ok (a, s'))

section

variable {poll : σ → Poll (Except ε α) × σ} {s s' : σ}

theorem run_await_pending (k : ℕ) (h : poll s = (.pending, s')) :
    (await poll (k + 1)).run s = (await poll k).run s' := by
  simp only [await, Prog.run, h]

theorem run_await_ok (k : ℕ) {a : α} (h : poll s = (.ready (.ok a), s')) :
    (await poll (k + 1)).run s = some (.ok (a, s')) := by
  simp only [await, Prog.run, h]

variable (poll) in
/-- What holds of a ready poll holds after awaiting it, if the polls that are not ready
    keep `P` and go down. -/
theorem returns_await {r : σ → σ → Prop} (hr : WellFounded r) {P : σ → Prop} {Q : α → σ → Prop}
    (h : ∀ s, P s → (∃ s', poll s = (.pending, s') ∧ P s' ∧ r s' s) ∨
      ∃ a s', poll s = (.ready (.ok a), s') ∧ Q a s') (hs : P s) :
    ∃ a s', Q a s' ∧ Returns (await poll) s (.ok (a, s')) := by
  induction s using hr.induction with
  | _ s ih =>
  rcases h s hs with ⟨s₁, hpoll, hs₁, hlt⟩ | ⟨a, s', hpoll, hQ⟩
  · obtain ⟨a, s', hQ, hret⟩ := ih s₁ hlt hs₁
    exact ⟨a, s', hQ, hret.succ fun k => run_await_pending k hpoll⟩
  · exact ⟨a, s', hQ, (Returns.pure a s').succ fun k => run_await_ok k hpoll⟩

end

-- ====================
-- Polls that are not ready
-- ====================

/-- The first index with a property comes down by one when the sequence is shifted. -/
theorem sInf_succ_lt {p : ℕ → Prop} (hp : ∃ i, p i) (h₀ : ¬ p 0) :
    sInf { i | p (i + 1) } < sInf { i | p i } := by
  have hmem : p (sInf { i | p i }) := Nat.sInf_mem hp
  obtain ⟨i, hi⟩ : ∃ i, sInf { i | p i } = i + 1 := by
    refine Nat.exists_eq_succ_of_ne_zero fun hzero => ?_
    rw [hzero] at hmem
    exact h₀ hmem
  rw [hi] at hmem ⊢
  exact Nat.lt_succ_of_le (Nat.sInf_le hmem)

/-- How many polls of a stream are not ready before one is. -/
noncomputable def AsyncStream.wait (s : AsyncStream) : ℕ := sInf { i | s.answers i ≠ .pending }

theorem AsyncStream.wait_tick_lt {s : AsyncStream} (hfair : s.Fair)
    (h : s.answers 0 = .pending) : s.tick.wait < s.wait := by
  obtain ⟨j, hj⟩ := hfair 0
  exact @sInf_succ_lt (fun i => s.answers i ≠ .pending) ⟨0 + j, hj⟩ (not_not.mpr h)

/-- How many polls of a sink are not ready before one is. -/
noncomputable def AsyncSink.wait (s : AsyncSink) : ℕ := sInf { i | s.answers i ≠ .pending }

theorem AsyncSink.wait_tick_lt {s : AsyncSink} (hs : s.Steady) (h : s.answers 0 = .pending) :
    s.tick.wait < s.wait := by
  obtain ⟨j, hj⟩ := hs.fair 0
  exact @sInf_succ_lt (fun i => s.answers i ≠ .pending) ⟨0 + j, hj⟩ (not_not.mpr h)

-- ====================
-- Writes
-- ====================

/-- Offers bytes, within the given number of steps; returns how many of them were taken. -/
abbrev Write (σ : Type) := ℕ → Bytes → Prog WriteError σ ℕ

/-- The bytes a state has taken, and its invariant. -/
structure OutView (σ : Type) where
  out : σ → Bytes
  Valid : σ → Prop

/-- A write takes some of the bytes it is offered, from the front. -/
def Write.Spec (write : Write σ) (V : OutView σ) : Prop :=
  ∀ s buf, V.Valid s → buf ≠ [] → ∃ n s', V.Valid s' ∧ V.out s' = V.out s ++ buf.take n ∧
    0 < n ∧ n ≤ buf.length ∧ Returns (fun k => write k buf) s (.ok (n, s'))

/-- Offers what is left until all bytes are taken. -/
def Write.all (write : Write σ) : ℕ → Bytes → Prog WriteError σ Unit
  | 0, _ => .running
  | k + 1, buf =>
    if buf = [] then pure ()
    else do
      let n ← write k buf
      if n = 0 then .fail .writeZero
      else Write.all write k (buf.drop n)

theorem Write.Spec.returns_all {write : Write σ} {V : OutView σ} (hwrite : write.Spec V)
    (buf : Bytes) {s : σ} (hs : V.Valid s) :
    ∃ s', V.Valid s' ∧ V.out s' = V.out s ++ buf ∧
      Returns (fun k => Write.all write k buf) s (.ok ((), s')) := by
  induction hlen : buf.length using Nat.strong_induction_on generalizing s buf with
  | _ len ih =>
  subst hlen
  by_cases hbuf : buf = []
  · subst hbuf
    refine ⟨s, hs, (List.append_nil _).symm, (Returns.pure () s).succ fun k => ?_⟩
    rw [Write.all, if_pos rfl]
  obtain ⟨n, s₁, hs₁, hout₁, hpos, hle, hret₁⟩ := hwrite s buf hs hbuf
  obtain ⟨s', hs', hout, hret⟩ := ih (buf.drop n).length (by rw [List.length_drop]; omega) _ hs₁ rfl
  refine ⟨s', hs', ?_, ?_⟩
  · rw [hout, hout₁, List.append_assoc, List.take_append_drop]
  · refine Returns.succ (q := fun k => write k buf >>= fun n =>
      if n = 0 then .fail .writeZero else Write.all write k (buf.drop n)) ?_ fun k => by
        rw [Write.all, if_neg hbuf]
    refine hret₁.bind (f := fun n k =>
      if n = 0 then Prog.fail .writeZero else Write.all write k (buf.drop n)) ?_
    simpa only [if_neg hpos.ne'] using hret

end Snix
