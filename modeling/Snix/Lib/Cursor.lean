import Mathlib.Data.List.Basic
import Mathlib.Data.Int.Basic

/-!
# Cursors over a list that are polled

A cursor over fixed data: a seek is started and then polled until it is complete, a
read is polled with a buffer. What lies beneath decides at every poll whether it is
ready and how much it hands over at most; these decisions are part of the call.

## Main definitions

- `SeekFrom`, `CursorCall`, `CursorOutcome` — the calls and what they answer
- `SeekPolicy` — which seeks are refused
- `CursorStep`, `CursorRun` — what a cursor may answer
- `driveCalls` — the calls made one after the other on an implementation

## Main results

- `exists_cursorRun` — an implementation whose steps are steps of a cursor is a cursor
-/

namespace Snix

/-- Where to seek to. -/
inductive SeekFrom where
  | start (n : UInt64)
  | fromEnd (n : Int64)
  | current (n : Int64)
  deriving DecidableEq

/-- The position that is meant, which may lie before the start or beyond the end. -/
def SeekFrom.target (len pos : ℕ) : SeekFrom → ℤ
  | .start n => n.toNat
  | .fromEnd n => len + n.toInt
  | .current n => pos + n.toInt

/-- The decisions of what lies beneath during one call: not ready, or at most `k + 1` elements. -/
abbrev Readiness := ℕ → Option ℕ

/-- The decisions from the `n`-th on. -/
def Readiness.after (r : Readiness) (n : ℕ) : Readiness := fun i => r (n + i)

theorem Readiness.exists_of_after {r : Readiness} {n : ℕ} (h : ∃ i, r.after n i = none) :
    ∃ i, r i = none := by
  obtain ⟨i, hi⟩ := h
  exact ⟨n + i, hi⟩

/-- Every `n`-th decision from the `k`-th on. -/
def Readiness.every (r : Readiness) (n k : ℕ) : Readiness := fun i => r (n * i + k)

theorem Readiness.exists_of_every {r : Readiness} {n k : ℕ} (h : ∃ i, r.every n k i = none) :
    ∃ i, r i = none := by
  obtain ⟨i, hi⟩ := h
  exact ⟨n * i + k, hi⟩

/-- The calls made on a cursor. -/
inductive CursorCall where
  | startSeek (position : SeekFrom)
  | pollComplete (ready : Readiness)
  | pollRead (cap : ℕ) (ready : Readiness)

/-- The answers of a cursor. -/
inductive CursorOutcome (α : Type) where
  | pending
  | started
  | refused
  | position (n : ℕ)
  | contents (l : List α)
  deriving DecidableEq

/-- Where a seek leads; none if it is refused. An exclusive cursor refuses every seek before the
    last one is complete. -/
structure SeekPolicy where
  seekTo : ℕ → ℤ → Option ℕ
  exclusive : Bool

/-- Seeks outside of the data are refused. -/
def SeekPolicy.rejecting : SeekPolicy where
  seekTo len t := if 0 ≤ t ∧ t ≤ len then some t.toNat else none
  exclusive := false

/-- Seeks outside of the data lead to its start or end. -/
def SeekPolicy.clamping : SeekPolicy where
  seekTo len t := some (min t.toNat len)
  exclusive := true

/-- A position, and whether a seek was started and is not known to be complete. -/
structure Cursor where
  pos : ℕ
  seeking : Bool
  deriving DecidableEq

variable {α σ ε : Type}

/-- What a cursor over the data may answer. A read that gives nothing is the end of the data, or
    had no room. A read may complete a seek. -/
inductive CursorStep (p : SeekPolicy) (data : List α) :
    Cursor → CursorCall → CursorOutcome α → Cursor → Prop where
  | busy (c : Cursor) (position : SeekFrom) : p.exclusive = true → c.seeking = true →
      CursorStep p data c (.startSeek position) .refused c
  | rejected (c : Cursor) (position : SeekFrom) :
      p.seekTo data.length (position.target data.length c.pos) = none →
      CursorStep p data c (.startSeek position) .refused c
  | started (c : Cursor) (position : SeekFrom) (n : ℕ) : (p.exclusive = true → c.seeking = false) →
      p.seekTo data.length (position.target data.length c.pos) = some n →
      CursorStep p data c (.startSeek position) .started ⟨n, true⟩
  | incomplete (c : Cursor) (ready : Readiness) : (∃ i, ready i = none) →
      CursorStep p data c (.pollComplete ready) .pending c
  | complete (c : Cursor) (ready : Readiness) :
      CursorStep p data c (.pollComplete ready) (.position c.pos) ⟨c.pos, false⟩
  | unready (c : Cursor) (cap : ℕ) (ready : Readiness) (seeking : Bool) : (∃ i, ready i = none) →
      (seeking = true → c.seeking = true) →
      CursorStep p data c (.pollRead cap ready) .pending ⟨c.pos, seeking⟩
  | read (c : Cursor) (cap : ℕ) (ready : Readiness) (seeking : Bool) (l : List α) :
      l <+: data.drop c.pos → l.length ≤ cap → (l = [] → cap = 0 ∨ data.length ≤ c.pos) →
      (seeking = true → c.seeking = true) →
      CursorStep p data c (.pollRead cap ready) (.contents l) ⟨c.pos + l.length, seeking⟩

/-- What a cursor may answer to calls made one after the other. -/
inductive CursorRun (p : SeekPolicy) (data : List α) :
    Cursor → List CursorCall → List (CursorOutcome α) → Prop where
  | nil (c : Cursor) : CursorRun p data c [] []
  | cons {c c' : Cursor} {call : CursorCall} {calls : List CursorCall} {o : CursorOutcome α}
      {os : List (CursorOutcome α)} : CursorStep p data c call o c' → CursorRun p data c' calls os →
      CursorRun p data c (call :: calls) (o :: os)

/-- Makes the calls one after the other. -/
def driveCalls (step : σ → CursorCall → Except ε (CursorOutcome α × σ)) :
    σ → List CursorCall → Except ε (List (CursorOutcome α))
  | _, [] => .ok []
  | s, call :: calls => do
    let (o, s) ← step s call
    let os ← driveCalls step s calls
    return o :: os

/-- Every call is allowed in the state it is made in. -/
def AllowedAlong (step : σ → CursorCall → Except ε (CursorOutcome α × σ))
    (allowed : σ → CursorCall → Prop) : σ → List CursorCall → Prop
  | _, [] => True
  | s, call :: calls => allowed s call ∧ ∀ o s', step s call = .ok (o, s') →
    AllowedAlong step allowed s' calls

variable {p : SeekPolicy} {data : List α} {step : σ → CursorCall → Except ε (CursorOutcome α × σ)}

theorem driveCalls_cons_of_ok {s s' : σ} {call : CursorCall} {calls : List CursorCall}
    {o : CursorOutcome α} {os : List (CursorOutcome α)} (h : step s call = .ok (o, s'))
    (hos : driveCalls step s' calls = .ok os) :
    driveCalls step s (call :: calls) = .ok (o :: os) := by
  rw [driveCalls, h]
  show (do let os ← driveCalls step s' calls; return o :: os) = _
  rw [hos]
  rfl

/-- An implementation whose steps are those of a cursor is a cursor: no calls make it fail, and it
    answers what the cursor may answer. -/
theorem exists_cursorRun {allowed : σ → CursorCall → Prop} {R : σ → Cursor → Prop}
    (hstep : ∀ s c call, R s c → allowed s call →
      ∃ o s' c', step s call = .ok (o, s') ∧ CursorStep p data c call o c' ∧ R s' c')
    {s : σ} {c : Cursor} {calls : List CursorCall} (hR : R s c)
    (hallowed : AllowedAlong step allowed s calls) :
    ∃ os, driveCalls step s calls = .ok os ∧ CursorRun p data c calls os := by
  induction calls generalizing s c with
  | nil => exact ⟨[], rfl, .nil c⟩
  | cons call calls ih =>
    obtain ⟨hcall, hcalls⟩ := hallowed
    obtain ⟨o, s', c', hs, hc, hR'⟩ := hstep s c call hR hcall
    obtain ⟨os, hos, hrun⟩ := ih hR' (hcalls o s' hs)
    exact ⟨o :: os, driveCalls_cons_of_ok hs hos, .cons hc hrun⟩

theorem allowedAlong_of_forall {allowed : σ → CursorCall → Prop} (h : ∀ s call, allowed s call)
    (s : σ) (calls : List CursorCall) : AllowedAlong step allowed s calls := by
  induction calls generalizing s with
  | nil => exact trivial
  | cons call calls ih => exact ⟨h s call, fun o s' _ => ih s'⟩

end Snix
