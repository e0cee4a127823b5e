import Mathlib.Data.List.Basic

/-!
# Invariants of effectful programs

Programs over a state that may fail, where a failure keeps what was done to the
state before it. `Preserves I m` says that `m` keeps the invariant `I` of the
state, whether it returns or fails. The rules follow the structure of programs.

## Main definitions

- `Preserves` — a program keeps an invariant
- `Ends` — what holds after a run, whether it returns or fails
- `PutOutcome` — how a write to a store ends

## Main results

- `Preserves.bind`, `Ends.bind` — sequences
-/

namespace Snix

variable {ε σ α β γ : Type} {I : σ → Prop}

/-- How a write to a store ends. One that is reported to fail may have been done. -/
inductive PutOutcome where
  | stored
  | refused
  | storedAndFailed
  deriving DecidableEq

/-- The state a program leaves behind. -/
def finalState (m : EStateM ε σ α) (s : σ) : σ :=
  match m s with
  | .ok _ s' => s'
  | .error _ s' => s'

/-- The program keeps the invariant, whether it returns or fails. -/
def Preserves (I : σ → Prop) (m : EStateM ε σ α) : Prop := ∀ s, I s → I (finalState m s)

namespace Preserves

theorem pure (a : α) : Preserves I (Pure.pure a : EStateM ε σ α) := fun _ h => h

theorem throw (e : ε) : Preserves I (throw e : EStateM ε σ α) := fun _ h => h

theorem bind {m : EStateM ε σ α} {f : α → EStateM ε σ β} (hm : Preserves I m)
    (hf : ∀ a, Preserves I (f a)) : Preserves I (m >>= f) := by
  intro s hs
  have hs' := hm s hs
  show I (finalState (EStateM.bind m f) s)
  unfold finalState EStateM.bind at *
  cases h : m s with
  | ok a s' =>
    rw [h] at hs'
    exact hf a s' hs'
  | error e s' =>
    rw [h] at hs'
    exact hs'

theorem map {m : EStateM ε σ α} {f : α → β} (hm : Preserves I m) : Preserves I (f <$> m) := by
  intro s hs
  have hs' := hm s hs
  show I (finalState (EStateM.map f m) s)
  unfold finalState EStateM.map at *
  cases h : m s with
  | ok a s' =>
    rw [h] at hs'
    exact hs'
  | error e s' =>
    rw [h] at hs'
    exact hs'

theorem ite {c : Prop} [Decidable c] {m m' : EStateM ε σ α} (hm : Preserves I m)
    (hm' : Preserves I m') : Preserves I (if c then m else m') := by
  by_cases h : c
  · rw [if_pos h]
    exact hm
  · rw [if_neg h]
    exact hm'

end Preserves

-- ====================
-- Both outcomes
-- ====================

/-- What holds after a run, of the result, if there is one, and of the state. -/
def Ends (m : EStateM ε σ α) (s : σ) (Q : Option α → σ → Prop) : Prop :=
  match m s with
  | .ok a s' => Q (some a) s'
  | .error _ s' => Q none s'

namespace Ends

variable {m : EStateM ε σ α} {f : α → EStateM ε σ β} {s : σ} {R R' : Option α → σ → Prop}
  {Q : Option β → σ → Prop}

theorem pure {a : α} (h : R (some a) s) : Ends (Pure.pure a : EStateM ε σ α) s R := h

theorem throw {e : ε} (h : R none s) : Ends (throw e : EStateM ε σ α) s R := h

theorem bind (hm : Ends m s R) (hok : ∀ a s', R (some a) s' → Ends (f a) s' Q)
    (herr : ∀ s', R none s' → Q none s') : Ends (m >>= f) s Q := by
  show Ends (EStateM.bind m f) s Q
  unfold Ends EStateM.bind at *
  cases h : m s with
  | ok a s' =>
    rw [h] at hm
    exact hok a s' hm
  | error e s' =>
    rw [h] at hm
    exact herr s' hm

theorem imp (hm : Ends m s R) (h : ∀ r s', R r s' → R' r s') : Ends m s R' := by
  unfold Ends at *
  cases hs : m s with
  | ok a s' =>
    rw [hs] at hm
    exact h _ _ hm
  | error e s' =>
    rw [hs] at hm
    exact h _ _ hm

end Ends

end Snix
