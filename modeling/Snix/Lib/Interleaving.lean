import Mathlib.Data.List.Basic
import Mathlib.Logic.Function.Basic

/-!
# Threads that share a state

A task is a sequence of atomic sections, each of which acts on a state that all tasks
share, and ends with a result. Tasks run in any number of threads; between two sections
of one thread any others may run.

A task is safe in a state if its result has a property whatever the other threads do in
between. What they may do is given by an invariant and by a relation of the states before
and after, which both hold if every section meets a condition.

## Main definitions

- `Task`, `Task.alone` — tasks, and what a task does when no other one runs
- `Threads`, `Threads.run` — the threads, and their moves
- `Task.Safe` — the result of a task has a property whatever the other threads do

## Main results

- `Safe.bind`, `Safe.frame` — a task after another one, and what stays while it runs
- `run_safe` — the results of safe tasks in any order of moves
-/

namespace Snix

/-- Atomic sections on a state, each with a type of results. -/
structure Sections (σ : Type) where
  Op : Type
  Res : Op → Type
  run : (op : Op) → σ → Res op × σ

/-- A sequence of atomic sections. -/
inductive Task {σ : Type} (L : Sections σ) (α : Type) where
  | done (a : α)
  | sect (op : L.Op) (k : L.Res op → Task L α)

variable {σ ι α β : Type} {L : Sections σ}

namespace Task

def bind : Task L α → (α → Task L β) → Task L β
  | done a, f => f a
  | sect op k, f => sect op fun r => (k r).bind f

/-- One section. -/
def perform (op : L.Op) : Task L (L.Res op) := sect op done

/-- The task when no other one runs. -/
def alone : Task L α → σ → α × σ
  | done a, s => (a, s)
  | sect op k, s => (k (L.run op s).1).alone (L.run op s).2

theorem alone_bind (t : Task L α) (f : α → Task L β) (s : σ) :
    (t.bind f).alone s = (f (t.alone s).1).alone (t.alone s).2 := by
  induction t generalizing s with
  | done a => rfl
  | sect op k ih => exact ih _ _

end Task

/-- The shared state, the tasks that are running with the inputs they were started for, and the
    results in the order in which they came. -/
structure Threads (L : Sections σ) (ι α : Type) where
  shared : σ
  running : ℕ → Option (ι × Task L α)
  results : List (ι × α)

/-- A thread starts, or goes on. -/
inductive Move (ι : Type) where
  | start (id : ℕ) (input : ι)
  | advance (id : ℕ)

namespace Threads

def initial (s : σ) : Threads L ι α := ⟨s, fun _ => none, []⟩

variable (program : ι → Task L α)

/-- One move. A thread that has to do nothing more gives its result and is gone. -/
def move (w : Threads L ι α) : Move ι → Threads L ι α
  | .start id input =>
    match w.running id with
    | some _ => w
    | none => { w with running := Function.update w.running id (some (input, program input)) }
  | .advance id =>
    match w.running id with
    | none => w
    | some (input, .done a) =>
      { w with running := Function.update w.running id none, results := w.results ++ [(input, a)] }
    | some (input, .sect op k) =>
      { w with
        shared := (L.run op w.shared).2
        running := Function.update w.running id (some (input, k (L.run op w.shared).1)) }

def run (w : Threads L ι α) (moves : List (Move ι)) : Threads L ι α := moves.foldl (move program) w

/-- The section that a move performs, if any, meets the condition. -/
def Meets (C : L.Op → σ → Prop) (w : Threads L ι α) : Move ι → Prop
  | .start _ _ => True
  | .advance id => ∀ input op k, w.running id = some (input, .sect op k) → C op w.shared

/-- All sections of a run meet the condition. -/
def AllMeet (C : L.Op → σ → Prop) (w : Threads L ι α) : List (Move ι) → Prop
  | [] => True
  | m :: moves => w.Meets C m ∧ AllMeet C (w.move program m) moves

end Threads

-- ====================
-- Safe tasks
-- ====================

/-- What the sections of all threads keep, if they meet a condition: an invariant, and a relation
    of the states before and after. -/
structure Rely (L : Sections σ) (C : L.Op → σ → Prop) where
  Inv : σ → Prop
  Later : σ → σ → Prop
  refl : ∀ s, Later s s
  trans : ∀ {s s' s''}, Later s s' → Later s' s'' → Later s s''
  section_ : ∀ op s, Inv s → C op s → Inv (L.run op s).2 ∧ Later s (L.run op s).2

variable {C : L.Op → σ → Prop} (R : Rely L C)

namespace Task

/-- The result has the property, whatever the other threads do before each section. -/
def Safe (Q : α → σ → Prop) : Task L α → σ → Prop
  | done a, s => Q a s
  | sect op k, s => ∀ s', R.Later s s' → R.Inv s' → C op s' →
    Safe Q (k (L.run op s').1) (L.run op s').2

/-- A property of results that later states keep. -/
def Lasting (Q : α → σ → Prop) : Prop := ∀ a s s', R.Later s s' → Q a s → Q a s'

variable {R} {Q : α → σ → Prop}

theorem Safe.later {t : Task L α} {s s' : σ} (hQ : Lasting R Q) (h : t.Safe R Q s)
    (hlater : R.Later s s') : t.Safe R Q s' := by
  cases t with
  | done a => exact hQ a s s' hlater h
  | sect op k => exact fun s'' hlater' => h s'' (R.trans hlater hlater')

/-- A task after another one, of whose result something is known. -/
theorem Safe.bind {t : Task L α} {f : α → Task L β} {Q' : β → σ → Prop} {s : σ}
    (ht : t.Safe R Q s) (hf : ∀ a s', Q a s' → (f a).Safe R Q' s') : (t.bind f).Safe R Q' s := by
  induction t generalizing s with
  | done a => exact hf a s ht
  | sect op k ih => exact fun s' hlater hinv hC => ih _ (ht s' hlater hinv hC)

theorem Safe.mono {t : Task L α} {Q' : α → σ → Prop} {s : σ} (ht : t.Safe R Q s)
    (hQ : ∀ a s', Q a s' → Q' a s') : t.Safe R Q' s := by
  induction t generalizing s with
  | done a => exact hQ a s ht
  | sect op k ih => exact fun s' hlater hinv hC => ih _ (ht s' hlater hinv hC)

theorem safe_true (t : Task L α) (s : σ) : t.Safe R (fun _ _ => True) s := by
  induction t generalizing s with
  | done a => trivial
  | sect op k ih => exact fun s' _ _ _ => ih _ _

/-- What later states keep still holds when the task ends. -/
theorem Safe.frame {t : Task L α} {P : σ → Prop} {s : σ} (ht : t.Safe R Q s)
    (hP : ∀ s s', R.Later s s' → P s → P s') (h : P s) : t.Safe R (fun a s => Q a s ∧ P s) s := by
  induction t generalizing s with
  | done a => exact ⟨ht, h⟩
  | sect op k ih =>
    intro s' hlater hinv hC
    have hrun := (R.section_ op s' hinv hC).2
    exact ih _ (ht s' hlater hinv hC) (hP s _ (R.trans hlater hrun) h)

end Task

namespace Threads

variable {R} {program : ι → Task L α} {Q : ι → α → σ → Prop}

/-- The shared state is well, the tasks that are running are safe, and the results have their
    property. -/
structure Well (R : Rely L C) (Q : ι → α → σ → Prop) (w : Threads L ι α) : Prop where
  inv : R.Inv w.shared
  safe : ∀ id input t, w.running id = some (input, t) → t.Safe R (Q input) w.shared
  results : ∀ x ∈ w.results, Q x.1 x.2 w.shared

theorem well_initial {s : σ} (hs : R.Inv s) : Well R Q (initial s : Threads L ι α) where
  inv := hs
  safe id input t h := by cases h
  results x hx := by cases hx

theorem Well.move (hQ : ∀ input, Task.Lasting R (Q input))
    (hprogram : ∀ input s, (program input).Safe R (Q input) s) {w : Threads L ι α}
    (h : Well R Q w) {m : Move ι} (hm : w.Meets C m) : Well R Q (w.move program m) := by
  cases m with
  | start id input =>
    cases hid : w.running id with
    | some x =>
      simp only [Threads.move, hid]
      exact h
    | none =>
      simp only [Threads.move, hid]
      refine ⟨h.inv, fun id' input' t ht => ?_, h.results⟩
      by_cases heq : id' = id
      · subst heq
        dsimp only at ht
        rw [Function.update_self] at ht
        cases ht
        exact hprogram input w.shared
      · dsimp only at ht
        rw [Function.update_of_ne heq] at ht
        exact h.safe id' input' t ht
  | advance id =>
    cases hid : w.running id with
    | none =>
      simp only [Threads.move, hid]
      exact h
    | some x =>
      obtain ⟨input, t⟩ := x
      have ht := h.safe id input t hid
      cases t with
      | done a =>
        simp only [Threads.move, hid]
        refine ⟨h.inv, fun id' input' t' ht' => ?_, fun x hx => ?_⟩
        · by_cases heq : id' = id
          · subst heq
            dsimp only at ht'
            rw [Function.update_self] at ht'
            cases ht'
          · dsimp only at ht'
            rw [Function.update_of_ne heq] at ht'
            exact h.safe id' input' t' ht'
        · rcases List.mem_append.mp hx with hx | hx
          · exact h.results x hx
          · rw [List.mem_singleton.mp hx]
            exact ht
      | sect op k =>
        have hC := hm input op k hid
        obtain ⟨hinv, hlater⟩ := R.section_ op w.shared h.inv hC
        simp only [Threads.move, hid]
        refine ⟨hinv, fun id' input' t' ht' => ?_, fun x hx => ?_⟩
        · by_cases heq : id' = id
          · subst heq
            dsimp only at ht'
            rw [Function.update_self] at ht'
            cases ht'
            exact ht w.shared (R.refl _) h.inv hC
          · dsimp only at ht'
            rw [Function.update_of_ne heq] at ht'
            exact (h.safe id' input' t' ht').later (hQ input') hlater
        · exact hQ x.1 x.2 _ _ hlater (h.results x hx)

/-- The results of safe tasks have their property, in any order of the moves. -/
theorem run_safe (hQ : ∀ input, Task.Lasting R (Q input))
    (hprogram : ∀ input s, (program input).Safe R (Q input) s) {w : Threads L ι α}
    (h : Well R Q w) {moves : List (Move ι)} (hmeet : w.AllMeet program C moves) :
    Well R Q (w.run program moves) := by
  induction moves generalizing w with
  | nil => exact h
  | cons m moves ih => exact ih (h.move hQ hprogram hmeet.1) hmeet.2

end Threads

end Snix
