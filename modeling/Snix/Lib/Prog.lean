import Mathlib.Data.List.Basic

/-!
# Programs with a step bound

Programs over a state that may fail, and that may not be done yet: a program with
loops takes a bound on their length, and answers `none` where the bound is too
small. What such a program returns is what it returns for every large bound; a
program that is never done for any large bound does not return.

`Agrees` compares such a program, which gets its input from a state, with a function
on the input.

## Main definitions

- `Prog` — programs
- `Returns`, `Diverges` — what a program does, given enough steps
- `Agrees` — a program does what a function says
- `Prog.Ensures` — what holds when a program is done

## Main results

- `Returns.bind`, `Diverges.bind` — rules for sequences
- `Agrees.bind` — agreement of sequences
- `Prog.Ensures.bind` — postconditions of sequences
-/

namespace Snix

/-- Programs over a state `σ` with failures `ε`. `none` needs more steps. -/
def Prog (ε σ α : Type) := σ → Option (Except ε (α × σ))

variable {ε δ σ α β ι : Type}

namespace Prog

def run (p : Prog ε σ α) (s : σ) : Option (Except ε (α × σ)) := p s

/-- The program is not done within the bound. -/
def running : Prog ε σ α := fun _ => none

def fail (e : ε) : Prog ε σ α := fun _ => some (.error e)

instance : Monad (Prog ε σ) where
  pure a := fun s => some (.ok (a, s))
  bind p f := fun s =>
    match p s with
    | none => none
    | some (.error e) => some (.error e)
    | some (.ok (a, s')) => f a s'

/-- The program with other failures. -/
def mapFail {ε' : Type} (f : ε → ε') (p : Prog ε σ α) : Prog ε' σ α := fun s =>
  match p.run s with
  | none => none
  | some (.error e) => some (.error (f e))
  | some (.ok x) => some (.ok x)

@[simp] theorem run_pure (a : α) (s : σ) : (pure a : Prog ε σ α).run s = some (.ok (a, s)) := rfl

@[simp] theorem run_fail (e : ε) (s : σ) : (fail e : Prog ε σ α).run s = some (.error e) := rfl

@[simp] theorem run_running (s : σ) : (running : Prog ε σ α).run s = none := rfl

theorem run_bind (p : Prog ε σ α) (f : α → Prog ε σ β) (s : σ) :
    (p >>= f).run s =
      match p.run s with
      | none => none
      | some (.error e) => some (.error e)
      | some (.ok (a, s')) => (f a).run s' :=
  rfl

theorem run_mapFail {ε' : Type} (f : ε → ε') (p : Prog ε σ α) (s : σ) :
    (p.mapFail f).run s =
      match p.run s with
      | none => none
      | some (.error e) => some (.error (f e))
      | some (.ok x) => some (.ok x) :=
  rfl

theorem bind_pure_run (p : Prog ε σ α) (s : σ) : (p >>= pure).run s = p.run s := by
  rw [run_bind]
  rcases p.run s with _ | e | ⟨a, s'⟩ <;> rfl

theorem bind_assoc_run {γ : Type} (p : Prog ε σ α) (f : α → Prog ε σ β) (g : β → Prog ε σ γ)
    (s : σ) : (p >>= f >>= g).run s = (p >>= fun a => f a >>= g).run s := by
  rw [run_bind, run_bind, run_bind]
  rcases p.run s with _ | e | ⟨a, s'⟩ <;> rfl

instance : LawfulMonad (Prog ε σ) :=
  .mk' (Prog ε σ) (fun p => funext (bind_pure_run p)) (fun _ _ => rfl)
    (fun p f g => funext (bind_assoc_run p f g))

end Prog

/-- With enough steps the program ends with `r`. -/
def Returns (p : ℕ → Prog ε σ α) (s : σ) (r : Except ε (α × σ)) : Prop :=
  ∃ c, ∀ k, c ≤ k → (p k).run s = some r

/-- The program is not done, however many steps it gets. -/
def Diverges (p : ℕ → Prog ε σ α) (s : σ) : Prop := ∃ c, ∀ k, c ≤ k → (p k).run s = none

namespace Returns

variable {p : ℕ → Prog ε σ α} {f : α → ℕ → Prog ε σ β} {s s' : σ} {a : α} {e : ε}

theorem pure (a : α) (s : σ) : Returns (fun _ => (Pure.pure a : Prog ε σ α)) s (.ok (a, s)) :=
  ⟨0, fun _ _ => rfl⟩

theorem fail (e : ε) (s : σ) : Returns (fun _ => (Prog.fail e : Prog ε σ α)) s (.error e) :=
  ⟨0, fun _ _ => rfl⟩

theorem bind {r : Except ε (β × σ)} (hp : Returns p s (.ok (a, s'))) (hf : Returns (f a) s' r) :
    Returns (fun k => p k >>= fun a => f a k) s r := by
  obtain ⟨c, hc⟩ := hp
  obtain ⟨d, hd⟩ := hf
  refine ⟨max c d, fun k hk => ?_⟩
  rw [Prog.run_bind, hc k (by omega)]
  exact hd k (by omega)

theorem bind_error (hp : Returns p s (.error e)) :
    Returns (fun k => p k >>= fun a => f a k) s (.error e) := by
  obtain ⟨c, hc⟩ := hp
  refine ⟨c, fun k hk => ?_⟩
  rw [Prog.run_bind, hc k hk]

/-- A recursive call has one step less. -/
theorem succ {q : ℕ → Prog ε σ α} {r : Except ε (α × σ)} (h : Returns q s' r)
    (hpq : ∀ k, (p (k + 1)).run s = (q k).run s') : Returns p s r := by
  obtain ⟨c, hc⟩ := h
  refine ⟨c + 1, fun k hk => ?_⟩
  obtain ⟨k, rfl⟩ : ∃ j, k = j + 1 := ⟨k - 1, by omega⟩
  rw [hpq, hc k (by omega)]

theorem mapFail_ok {ε' : Type} {x : α × σ} (h : Returns p s (.ok x)) (f : ε → ε') :
    Returns (fun k => (p k).mapFail f) s (.ok x) := by
  obtain ⟨c, hc⟩ := h
  refine ⟨c, fun k hk => ?_⟩
  rw [Prog.run_mapFail, hc k hk]

theorem mapFail_error {ε' : Type} (h : Returns p s (.error e)) (f : ε → ε') :
    Returns (fun k => (p k).mapFail f) s (.error (f e)) := by
  obtain ⟨c, hc⟩ := h
  refine ⟨c, fun k hk => ?_⟩
  rw [Prog.run_mapFail, hc k hk]

theorem unique {r r' : Except ε (α × σ)} (h : Returns p s r) (h' : Returns p s r') : r = r' := by
  obtain ⟨c, hc⟩ := h
  obtain ⟨d, hd⟩ := h'
  have := (hc (max c d) (by omega)).symm.trans (hd (max c d) (by omega))
  simpa using this

end Returns

namespace Diverges

variable {p : ℕ → Prog ε σ α} {f : α → ℕ → Prog ε σ β} {s s' : σ} {a : α}

theorem bind (hp : Diverges p s) : Diverges (fun k => p k >>= fun a => f a k) s := by
  obtain ⟨c, hc⟩ := hp
  refine ⟨c, fun k hk => ?_⟩
  rw [Prog.run_bind, hc k hk]

theorem bind_right (hp : Returns p s (.ok (a, s'))) (hf : Diverges (f a) s') :
    Diverges (fun k => p k >>= fun a => f a k) s := by
  obtain ⟨c, hc⟩ := hp
  obtain ⟨d, hd⟩ := hf
  refine ⟨max c d, fun k hk => ?_⟩
  rw [Prog.run_bind, hc k (by omega)]
  exact hd k (by omega)

theorem succ {q : ℕ → Prog ε σ α} (h : Diverges q s) (hpq : ∀ k, (p (k + 1)).run s = (q k).run s) :
    Diverges p s := by
  obtain ⟨c, hc⟩ := h
  refine ⟨c + 1, fun k hk => ?_⟩
  obtain ⟨k, rfl⟩ : ∃ j, k = j + 1 := ⟨k - 1, by omega⟩
  rw [hpq, hc k (by omega)]

theorem mapFail {ε' : Type} (h : Diverges p s) (f : ε → ε') :
    Diverges (fun k => (p k).mapFail f) s := by
  obtain ⟨c, hc⟩ := h
  refine ⟨c, fun k hk => ?_⟩
  rw [Prog.run_mapFail, hc k hk]

theorem not_returns (h : Diverges p s) (r : Except ε (α × σ)) : ¬ Returns p s r := by
  rintro ⟨d, hd⟩
  obtain ⟨c, hc⟩ := h
  have := (hc (max c d) (by omega)).symm.trans (hd (max c d) (by omega))
  simp at this

end Diverges

/-- How a state relates to the input that is left in it: the input, the invariant of
    the state, and the failures of the function on which a program does not return. -/
structure View (δ σ ι : Type) where
  rest : σ → ι
  Valid : σ → Prop
  Silent : δ → Prop

/-- In state `s`, the program does what the function answers: it returns the same
    result and leaves the same input, fails with some failure, or does not return. -/
def Agrees (V : View δ σ ι) (p : ℕ → Prog ε σ α) (s : σ) (r : Except δ (α × ι)) : Prop :=
  (∃ a s', r = .ok (a, V.rest s') ∧ V.Valid s' ∧ Returns p s (.ok (a, s'))) ∨
    (∃ d e, r = .error d ∧ ¬ V.Silent d ∧ Returns p s (.error e)) ∨
    ∃ d, r = .error d ∧ V.Silent d ∧ Diverges p s

namespace Agrees

variable {V : View δ σ ι} {p : ℕ → Prog ε σ α} {s : σ}

theorem ok {a : α} {s' : σ} {i : ι} (hvalid : V.Valid s') (hrest : V.rest s' = i)
    (h : Returns p s (.ok (a, s'))) : Agrees V p s (.ok (a, i)) :=
  .inl ⟨a, s', by rw [hrest], hvalid, h⟩

theorem error {d : δ} {e : ε} (hd : ¬ V.Silent d) (h : Returns p s (.error e)) :
    Agrees V p s (.error d : Except δ (α × ι)) :=
  .inr (.inl ⟨d, e, rfl, hd, h⟩)

theorem silent {d : δ} (hd : V.Silent d) (h : Diverges p s) :
    Agrees V p s (.error d : Except δ (α × ι)) :=
  .inr (.inr ⟨d, rfl, hd, h⟩)

theorem pure {a : α} (hvalid : V.Valid s) :
    Agrees V (fun _ => (Pure.pure a : Prog ε σ α)) s (.ok (a, V.rest s)) :=
  ok hvalid rfl (Returns.pure a s)

theorem fail {d : δ} (e : ε) (hd : ¬ V.Silent d) :
    Agrees V (fun _ => (Prog.fail e : Prog ε σ α)) s (.error d : Except δ (α × ι)) :=
  error hd (Returns.fail e s)

theorem after {r : Except δ (β × ι)} {f : α → ℕ → Prog ε σ β} {a : α} {t : σ}
    (hp : Returns p s (.ok (a, t))) (hf : Agrees V (f a) t r) :
    Agrees V (fun k => p k >>= fun a => f a k) s r := by
  rcases hf with ⟨b, s'', hr, hvalid, hret⟩ | ⟨d, e, hr, hd, hret⟩ | ⟨d, hr, hd, hdiv⟩
  · exact .inl ⟨b, s'', hr, hvalid, hp.bind hret⟩
  · exact .inr (.inl ⟨d, e, hr, hd, hp.bind hret⟩)
  · exact .inr (.inr ⟨d, hr, hd, .bind_right hp hdiv⟩)

theorem bind {r : Except δ (α × ι)} {f : α → ℕ → Prog ε σ β} {g : α × ι → Except δ (β × ι)}
    (hp : Agrees V p s r)
    (hf : ∀ a s', V.Valid s' → r = .ok (a, V.rest s') → Agrees V (f a) s' (g (a, V.rest s'))) :
    Agrees V (fun k => p k >>= fun a => f a k) s (r >>= g) := by
  rcases hp with ⟨a, s', rfl, hvalid, hret⟩ | ⟨d, e, rfl, hd, hret⟩ | ⟨d, rfl, hd, hdiv⟩
  · exact after hret (hf a s' hvalid rfl)
  · exact error hd hret.bind_error
  · exact silent hd hdiv.bind

theorem succ {q : ℕ → Prog ε σ α} {r : Except δ (α × ι)} (h : Agrees V q s r)
    (hpq : ∀ k, (p (k + 1)).run s = (q k).run s) : Agrees V p s r := by
  rcases h with ⟨a, s', hr, hvalid, hret⟩ | ⟨d, e, hr, hd, hret⟩ | ⟨d, hr, hd, hdiv⟩
  · exact .inl ⟨a, s', hr, hvalid, hret.succ hpq⟩
  · exact .inr (.inl ⟨d, e, hr, hd, hret.succ hpq⟩)
  · exact .inr (.inr ⟨d, hr, hd, hdiv.succ hpq⟩)

theorem mapFail {ε' : Type} {r : Except δ (α × ι)} (h : Agrees V p s r) (f : ε → ε') :
    Agrees V (fun k => (p k).mapFail f) s r := by
  rcases h with ⟨a, s', hr, hvalid, hret⟩ | ⟨d, e, hr, hd, hret⟩ | ⟨d, hr, hd, hdiv⟩
  · exact .inl ⟨a, s', hr, hvalid, hret.mapFail_ok f⟩
  · exact .inr (.inl ⟨d, f e, hr, hd, hret.mapFail_error f⟩)
  · exact .inr (.inr ⟨d, hr, hd, hdiv.mapFail f⟩)

end Agrees

-- ====================
-- Postconditions
-- ====================

/-- If the program is done within the bound, it returns with `Q` or fails with `E`. -/
def Prog.Ensures (p : Prog ε σ α) (s : σ) (Q : α → σ → Prop) (E : ε → Prop) : Prop :=
  match p.run s with
  | none => True
  | some (.error e) => E e
  | some (.ok (a, s')) => Q a s'

namespace Prog.Ensures

variable {p : Prog ε σ α} {f : α → Prog ε σ β} {s : σ} {Q Q' : α → σ → Prop} {R : β → σ → Prop}
  {E E' : ε → Prop}

theorem pure {a : α} (h : Q a s) : Ensures (Pure.pure a) s Q E := h

theorem fail {e : ε} (h : E e) : Ensures (Prog.fail e) s Q E := h

theorem running : Ensures Prog.running s Q E := trivial

theorem bind (hp : Ensures p s Q E) (hf : ∀ a s', Q a s' → Ensures (f a) s' R E) :
    Ensures (p >>= f) s R E := by
  unfold Ensures at hp ⊢
  rw [run_bind]
  cases hrun : p.run s with
  | none => trivial
  | some x =>
    rw [hrun] at hp
    cases x with
    | error e => exact hp
    | ok x => exact hf x.1 x.2 hp

theorem mono (h : Ensures p s Q E) (hQ : ∀ a s', Q a s' → Q' a s') (hE : ∀ e, E e → E' e) :
    Ensures p s Q' E' := by
  unfold Ensures at h ⊢
  cases hrun : p.run s with
  | none => trivial
  | some x =>
    rw [hrun] at h
    cases x with
    | error e => exact hE e h
    | ok x => exact hQ x.1 x.2 h

theorem mapFail {ε' : Type} {g : ε → ε'} {E' : ε' → Prop} (h : Ensures p s Q fun e => E' (g e)) :
    Ensures (p.mapFail g) s Q E' := by
  unfold Ensures at h ⊢
  rw [run_mapFail]
  cases hp : p.run s with
  | none => trivial
  | some x =>
    rw [hp] at h
    cases x with
    | error e => exact h
    | ok x => exact h

theorem of_returns {q : ℕ → Prog ε σ α} {r : Except ε (α × σ)} (hret : Returns q s r)
    (h : ∀ k, Ensures (q k) s Q E) :
    (∀ a s', r = .ok (a, s') → Q a s') ∧ ∀ e, r = .error e → E e := by
  obtain ⟨c, hc⟩ := hret
  have hk := h c
  unfold Ensures at hk
  rw [hc c (Nat.le_refl c)] at hk
  constructor
  · rintro a s' rfl
    exact hk
  · rintro e rfl
    exact hk

end Prog.Ensures

end Snix
