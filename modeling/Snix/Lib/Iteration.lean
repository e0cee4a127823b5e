import Mathlib.Data.List.Forall2

/-!
# Iterators that end

An iterator hands out items one after the other, or fails. Each item makes what is left
smaller, so going on and on comes to an end. Two iterators are compared item by item, and
neither is asked for more than the comparison needs.

## Main definitions

- `Iteration` — an iterator, with the measure it makes smaller
- `collect` — all items
- `chain` — the items, and one more behind them
- `cmp`, `cmpItems` — the comparison of two iterators, and of two lists

## Main results

- `mapM_eq_ok` — a step that does not fail on a list
- `foldlM_eq_error_iff` — where a loop fails
- `collect_chain` — what a chain hands out
- `cmp_eq` — a comparison of iterators is one of the lists that they hand out
-/

namespace Snix

-- ====================
-- Lists of results
-- ====================

theorem mapM_eq_ok {α β ε : Type} {f : α → Except ε β} {g : α → β} {l : List α}
    (h : ∀ a ∈ l, f a = .ok (g a)) : l.mapM f = .ok (l.map g) := by
  induction l with
  | nil => rfl
  | cons a l ih =>
    rw [List.mapM_cons, h a List.mem_cons_self, ih fun b hb => h b (List.mem_cons_of_mem _ hb)]
    rfl

/-- All results are there exactly if each of them is. -/
theorem mapM_eq_ok_iff {α β ε : Type} {f : α → Except ε β} {l : List α} {l' : List β} :
    l.mapM f = .ok l' ↔ List.Forall₂ (fun a b => f a = .ok b) l l' := by
  induction l generalizing l' with
  | nil => cases l' <;> simp [Pure.pure, Except.pure]
  | cons a l ih =>
    rw [List.mapM_cons, List.forall₂_cons_left_iff]
    simp only [← ih]
    cases f a with
    | error e => simp [Bind.bind, Except.bind]
    | ok b =>
      cases l.mapM f with
      | error e => simp [Bind.bind, Except.bind]
      | ok bs => simp [Bind.bind, Except.bind, Pure.pure, Except.pure, eq_comm]

theorem mapM_ne_ok {α β ε : Type} {f : α → Except ε β} {e : ε} {l : List α} {a : α} (ha : a ∈ l)
    (h : f a = .error e) (m : List β) : l.mapM f ≠ .ok m := by
  intro hm
  obtain ⟨pre, post, rfl⟩ := List.append_of_mem ha
  rw [List.mapM_append, List.mapM_cons, h] at hm
  cases hpre : pre.mapM f with
  | error e' =>
    rw [hpre] at hm
    cases hm
  | ok ps =>
    rw [hpre] at hm
    cases hm

theorem exists_mapM_eq_ok {α β ε : Type} {f : α → Except ε β} {l : List α}
    (h : ∀ a ∈ l, ∃ b, f a = .ok b) : ∃ l', l.mapM f = .ok l' := by
  induction l with
  | nil => exact ⟨[], rfl⟩
  | cons a l ih =>
    obtain ⟨⟨b, hb⟩, hrest⟩ := List.forall_mem_cons.mp h
    obtain ⟨l', hl'⟩ := ih hrest
    exact ⟨b :: l', by rw [List.mapM_cons, hb, hl']; rfl⟩

theorem mem_iff_of_mapM_eq_ok {α β ε : Type} {f : α → Except ε β} {l : List α} {l' : List β}
    (h : l.mapM f = .ok l') {b : β} : b ∈ l' ↔ ∃ a ∈ l, f a = .ok b := by
  have hall := mapM_eq_ok_iff.mp h
  clear h
  induction hall with
  | nil => simp
  | cons hb _ ih => simp [ih, hb, eq_comm]

theorem exists_of_mapM_eq_ok {α β ε : Type} {f : α → Except ε β} {l : List α} {l' : List β}
    (h : l.mapM f = .ok l') {a : α} (ha : a ∈ l) : ∃ b, f a = .ok b := by
  cases hf : f a with
  | error e => exact absurd h (mapM_ne_ok ha hf l')
  | ok b => exact ⟨b, rfl⟩

/-- A loop fails exactly if it reaches an element at which it does. -/
theorem foldlM_eq_error_iff {σ α ε : Type} {f : σ → α → Except ε σ} {l : List α} {s : σ} {e : ε} :
    l.foldlM f s = .error e ↔ ∃ before a after t,
      l = before ++ a :: after ∧ before.foldlM f s = .ok t ∧ f t a = .error e := by
  constructor
  · intro h
    induction l generalizing s with
    | nil => cases h
    | cons a l ih =>
      rw [List.foldlM_cons] at h
      cases hstep : f s a with
      | error e' =>
        rw [hstep] at h
        cases h
        exact ⟨[], a, l, s, rfl, rfl, hstep⟩
      | ok s' =>
        rw [hstep] at h
        obtain ⟨before, a', after, t, rfl, hbefore, hfail⟩ := ih h
        refine ⟨a :: before, a', after, t, rfl, ?_, hfail⟩
        rw [List.foldlM_cons, hstep]
        exact hbefore
  · rintro ⟨before, a, after, t, rfl, hbefore, hfail⟩
    rw [List.foldlM_append, hbefore]
    show (a :: after).foldlM f t = .error e
    rw [List.foldlM_cons, hfail]
    rfl

-- ====================
-- Iterators
-- ====================

/-- An iterator that may fail. -/
structure Iteration (ε σ α : Type) where
  next : σ → Except ε (Option (α × σ))
  size : σ → ℕ
  decreases : ∀ {s t : σ} {a : α}, next s = .ok (some (a, t)) → size t < size s

namespace Iteration

variable {ε σ α : Type}

/-- All items. -/
def collect (it : Iteration ε σ α) (s : σ) : Except ε (List α) :=
  match _h : it.next s with
  | .error e => .error e
  | .ok none => .ok []
  | .ok (some (a, t)) => (it.collect t).map (a :: ·)
termination_by it.size s
decreasing_by exact it.decreases _h

/-- An item behind the others. The iterator is not asked again after its end. -/
def chainNext (it : Iteration ε σ α) : Option σ × Option α →
    Except ε (Option (α × Option σ × Option α))
  | (some s, last) =>
    match it.next s with
    | .error e => .error e
    | .ok none => .ok (last.map fun a => (a, none, none))
    | .ok (some (a, t)) => .ok (some (a, some t, last))
  | (none, last) => .ok (last.map fun a => (a, none, none))

def chainSize (it : Iteration ε σ α) (s : Option σ × Option α) : ℕ :=
  s.1.elim 0 it.size + s.2.elim 0 fun _ => 1

theorem chainNext_decreases (it : Iteration ε σ α) {s t : Option σ × Option α} {a : α}
    (h : it.chainNext s = .ok (some (a, t))) : it.chainSize t < it.chainSize s := by
  obtain ⟨_ | s, last⟩ := s
  · cases last with
    | none => cases h
    | some b =>
      cases h
      exact Nat.zero_lt_one
  · rw [chainNext] at h
    cases hs : it.next s with
    | error e =>
      rw [hs] at h
      cases h
    | ok x =>
      rw [hs] at h
      obtain _ | ⟨c, u⟩ := x
      · cases last with
        | none => cases h
        | some b =>
          cases h
          exact Nat.lt_of_lt_of_le Nat.zero_lt_one (Nat.le_add_left _ _)
      · cases h
        exact Nat.add_lt_add_right (it.decreases hs) _

def chain (it : Iteration ε σ α) : Iteration ε (Option σ × Option α) α where
  next := it.chainNext
  size := it.chainSize
  decreases := it.chainNext_decreases

/-- The comparison of two iterators. A difference ends it. -/
def cmp (it : Iteration ε σ α) (f : α → α → Except ε Ordering) (s t : σ) : Except ε Ordering :=
  match _h : it.next s with
  | .error e => .error e
  | .ok none =>
    match it.next t with
    | .error e => .error e
    | .ok none => .ok .eq
    | .ok (some _) => .ok .lt
  | .ok (some (a, s')) =>
    match it.next t with
    | .error e => .error e
    | .ok none => .ok .gt
    | .ok (some (b, t')) => (f a b).bind fun o => if o = .eq then it.cmp f s' t' else .ok o
termination_by it.size s
decreasing_by exact it.decreases _h

/-- The comparison of two lists by a comparison of their elements that may fail. -/
def cmpItems (f : α → α → Except ε Ordering) : List α → List α → Except ε Ordering
  | [], [] => .ok .eq
  | [], _ :: _ => .ok .lt
  | _ :: _, [] => .ok .gt
  | a :: l, b :: m => (f a b).bind fun o => if o = .eq then cmpItems f l m else .ok o

variable {it : Iteration ε σ α} {s t : σ} {a b : α} {l m : List α} {e : ε}
  {f : α → α → Except ε Ordering}

-- ====================
-- All items
-- ====================

theorem collect_error (h : it.next s = .error e) : it.collect s = .error e := by
  rw [collect]
  split <;> simp_all

theorem collect_none (h : it.next s = .ok none) : it.collect s = .ok [] := by
  rw [collect]
  split <;> simp_all

theorem collect_some (h : it.next s = .ok (some (a, t))) :
    it.collect s = (it.collect t).map (a :: ·) := by
  rw [collect]
  split <;> simp_all

/-- Only what the iterator does next counts. -/
theorem collect_congr (h : it.next s = it.next t) : it.collect s = it.collect t := by
  cases ht : it.next t with
  | error e => rw [collect_error ht, collect_error (h.trans ht)]
  | ok x =>
    obtain _ | ⟨a, u⟩ := x
    · rw [collect_none ht, collect_none (h.trans ht)]
    · rw [collect_some ht, collect_some (h.trans ht)]

/-- How an iterator that does not fail goes on. -/
theorem next_of_collect (h : it.collect s = .ok l) :
    (it.next s = .ok none ∧ l = []) ∨
    ∃ a t m, it.next s = .ok (some (a, t)) ∧ it.collect t = .ok m ∧ l = a :: m := by
  cases hs : it.next s with
  | error e =>
    rw [collect_error hs] at h
    cases h
  | ok x =>
    obtain _ | ⟨a, t⟩ := x
    · rw [collect_none hs] at h
      cases h
      exact .inl ⟨rfl, rfl⟩
    · rw [collect_some hs] at h
      cases ht : it.collect t with
      | error e =>
        rw [ht] at h
        cases h
      | ok m =>
        rw [ht] at h
        cases h
        exact .inr ⟨a, t, m, rfl, ht, rfl⟩

/-- A chain hands out the items, and the one more. By induction on the items. -/
theorem collect_chain (h : it.collect s = .ok l) :
    it.chain.collect (some s, some a) = .ok (l ++ [a]) := by
  induction l generalizing s with
  | nil =>
    obtain ⟨hs, -⟩ | ⟨_, _, _, -, -, hl⟩ := next_of_collect h
    · have hnext : it.chain.next (some s, some a) = .ok (some (a, none, none)) := by
        change it.chainNext (some s, some a) = _
        rw [chainNext, hs]
        rfl
      have hend : it.chain.next (none, none) = .ok none := rfl
      rw [collect_some hnext, collect_none hend]
      rfl
    · cases hl
  | cons b l ih =>
    obtain ⟨-, hl⟩ | ⟨c, t, m, hs, ht, hl⟩ := next_of_collect h
    · cases hl
    · cases hl
      have hnext : it.chain.next (some s, some a) = .ok (some (b, some t, some a)) := by
        change it.chainNext (some s, some a) = _
        rw [chainNext, hs]
      rw [collect_some hnext, ih ht]
      rfl

-- ====================
-- Comparisons
-- ====================

theorem cmp_none (hs : it.next s = .ok none) :
    it.cmp f s t =
      (it.next t).bind fun x => .ok (if x.isNone then .eq else .lt) := by
  rw [cmp]
  split <;> simp_all
  split <;> simp_all [Except.bind]

theorem cmp_some {s' : σ} (hs : it.next s = .ok (some (a, s'))) :
    it.cmp f s t = (it.next t).bind fun x => x.elim (.ok .gt) fun y =>
      (f a y.1).bind fun o => if o = .eq then it.cmp f s' y.2 else .ok o := by
  rw [cmp]
  split <;> simp_all
  split <;> simp_all [Except.bind]

/-- A comparison of iterators is one of the lists that they hand out. By induction on the first. -/
theorem cmp_eq (hs : it.collect s = .ok l) (ht : it.collect t = .ok m) :
    it.cmp f s t = cmpItems f l m := by
  induction l generalizing s t m with
  | nil =>
    obtain ⟨hs', -⟩ | ⟨_, _, _, -, -, hl⟩ := next_of_collect hs
    · rw [cmp_none hs']
      obtain ⟨ht', rfl⟩ | ⟨b, t', m', ht', -, rfl⟩ := next_of_collect ht
      · rw [ht']
        rfl
      · rw [ht']
        rfl
    · cases hl
  | cons a l ih =>
    obtain ⟨-, hl⟩ | ⟨a, s', l', hs', hs'', hl⟩ := next_of_collect hs
    · cases hl
    · cases hl
      rw [cmp_some hs']
      obtain ⟨ht', rfl⟩ | ⟨b, t', m', ht', ht'', rfl⟩ := next_of_collect ht
      · rw [ht']
        rfl
      · rw [ht', cmpItems]
        apply congrArg (f a b).bind
        funext o
        by_cases ho : o = .eq
        · rw [if_pos ho, if_pos ho]
          exact ih hs'' ht''
        · rw [if_neg ho, if_neg ho]

end Iteration

end Snix
