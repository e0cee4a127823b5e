import Mathlib.Data.Fintype.Card
import Mathlib.Logic.Relation

/-!
# Memoised recursion

The value of a key is looked up in a store. Where it is missing, it is made from the values
of other keys, which are found in the same way one after the other, and goes into the store.
Nothing says that the other keys come before this one.

## Main definitions

- `Memo` — how values are looked up and made
- `Memo.run` — the recursion, to a depth
- `Memo.FoundAll` — the values that can be had from a store, whatever is asked for first
- `Memo.Leads` — the keys that a value is asked for on the way to another one

## Main results

- `exists_run_iff` — the recursion ends just if no key leads to itself
- `exists_run_error_iff` — where an error of the whole recursion comes from
-/

namespace Snix

/-- How values are looked up and made. -/
structure Memo (S K V E : Type) where
  get : S → K → Option V
  /-- The keys that a value is made from. -/
  parts : K → List K
  make : S → K → List V → S × Except E V
  /-- What an error of a part is for the whole. -/
  blame : E → E

namespace Memo

variable {S K V E : Type} (m : Memo S K V E)

/-- The values of some keys, up to the first error. -/
def runParts (run : S → K → Option (S × Except E V)) :
    S → List K → Option (S × Except E (List V))
  | s, [] => some (s, .ok [])
  | s, k :: ks =>
    match run s k with
    | none => none
    | some (s, .error e) => some (s, .error (m.blame e))
    | some (s, .ok v) =>
      match runParts run s ks with
      | none => none
      | some (s, .error e) => some (s, .error e)
      | some (s, .ok vs) => some (s, .ok (v :: vs))

/-- The value of a key. None if there are more nested calls than the given number. -/
def run : ℕ → S → K → Option (S × Except E V)
  | 0, _, _ => none
  | n + 1, s, k =>
    match m.get s k with
    | some v => some (s, .ok v)
    | none =>
      match m.runParts (run n) s (m.parts k) with
      | none => none
      | some (s, .error e) => some (s, .error e)
      | some (s, .ok vs) => some (m.make s k vs)

/-- The store is one: a value goes in under its key, and the store has no say in what it is. -/
structure Lawful : Prop where
  get_make : ∀ s k vs v, (m.make s k vs).2 = .ok v → m.get (m.make s k vs).1 k = some v
  get_make_ne : ∀ s k vs v k', (m.make s k vs).2 = .ok v → k' ≠ k →
    m.get (m.make s k vs).1 k' = m.get s k'
  make_eq : ∀ s s' k vs, (m.make s k vs).2 = (m.make s' k vs).2

/-- The values that can be had from a store. -/
inductive FoundAll (s : S) : List K → List V → Prop
  | nil : FoundAll s [] []
  | stored {k : K} {v : V} {ks : List K} {vs : List V} (hget : m.get s k = some v)
    (hs : FoundAll s ks vs) : FoundAll s (k :: ks) (v :: vs)
  | made {k : K} {v : V} {ks : List K} {ws vs : List V} (hget : m.get s k = none)
    (hparts : FoundAll s (m.parts k) ws) (hmake : (m.make s k ws).2 = .ok v)
    (hs : FoundAll s ks vs) : FoundAll s (k :: ks) (v :: vs)

/-- A missing value is made from that of another key, and those before it can be had. -/
def Leads (s : S) (k k' : K) : Prop :=
  m.get s k = none ∧ ∃ pre post vs, m.parts k = pre ++ k' :: post ∧ m.FoundAll s pre vs

variable {m} {s s' t t' : S} {k k' : K} {ks ks' : List K} {v w : V} {vs vs' : List V} {n n' : ℕ}
  {r r' : S × Except E V} {run run' : S → K → Option (S × Except E V)} {rs : S × Except E (List V)}

-- ====================
-- Cases
-- ====================

/-- How the values of some keys were found. -/
inductive RanParts (m : Memo S K V E) (run : S → K → Option (S × Except E V)) :
    S → List K → S × Except E (List V) → Prop
  | nil (s : S) : RanParts m run s [] (s, .ok [])
  | failed {s s₁ : S} {k : K} {ks : List K} {e : E} (h : run s k = some (s₁, .error e)) :
    RanParts m run s (k :: ks) (s₁, .error (m.blame e))
  | later {s s₁ s₂ : S} {k : K} {ks : List K} {v : V} {e : E} (h : run s k = some (s₁, .ok v))
    (hs : RanParts m run s₁ ks (s₂, .error e)) : RanParts m run s (k :: ks) (s₂, .error e)
  | cons {s s₁ s₂ : S} {k : K} {ks : List K} {v : V} {vs : List V}
    (h : run s k = some (s₁, .ok v)) (hs : RanParts m run s₁ ks (s₂, .ok vs)) :
    RanParts m run s (k :: ks) (s₂, .ok (v :: vs))

theorem runParts_eq_some_iff : m.runParts run s ks = some rs ↔ RanParts m run s ks rs := by
  constructor
  · intro h
    induction ks generalizing s rs with
    | nil =>
      cases h
      exact .nil s
    | cons k ks ih =>
      rw [runParts] at h
      cases hk : run s k with
      | none =>
        rw [hk] at h
        cases h
      | some x =>
        rw [hk] at h
        obtain ⟨s₁, e | v⟩ := x
        · cases h
          exact .failed hk
        · cases hks : m.runParts run s₁ ks with
          | none =>
            simp only [hks] at h
            cases h
          | some y =>
            obtain ⟨s₂, e | vs⟩ := y <;> simp only [hks] at h <;> cases h
            · exact .later hk (ih hks)
            · exact .cons hk (ih hks)
  · intro h
    induction h with
    | nil s => rfl
    | failed h => rw [runParts, h]
    | later h _ ih | cons h _ ih =>
      rw [runParts, h]
      simp only [ih]

/-- How the value of a key was found. -/
inductive Ran (m : Memo S K V E) (n : ℕ) (s : S) (k : K) : S × Except E V → Prop
  | stored {v : V} (hget : m.get s k = some v) : Ran m n s k (s, .ok v)
  | failed {s₁ : S} {e : E} (hget : m.get s k = none)
    (hs : RanParts m (m.run n) s (m.parts k) (s₁, .error e)) : Ran m n s k (s₁, .error e)
  | made {s₁ : S} {vs : List V} (hget : m.get s k = none)
    (hs : RanParts m (m.run n) s (m.parts k) (s₁, .ok vs)) : Ran m n s k (m.make s₁ k vs)

theorem run_succ_eq_some_iff : m.run (n + 1) s k = some r ↔ Ran m n s k r := by
  constructor
  · intro h
    rw [Memo.run] at h
    cases hget : m.get s k with
    | some v =>
      rw [hget] at h
      cases h
      exact .stored hget
    | none =>
      rw [hget] at h
      cases hparts : m.runParts (m.run n) s (m.parts k) with
      | none =>
        simp only [hparts] at h
        cases h
      | some y =>
        have hran := runParts_eq_some_iff.mp hparts
        obtain ⟨s₁, e | vs⟩ := y <;> simp only [hparts] at h <;> cases h
        · exact .failed hget hran
        · exact .made hget hran
  · intro h
    rw [Memo.run]
    cases h with
    | stored hget => rw [hget]
    | failed hget hs | made hget hs => simp only [hget, runParts_eq_some_iff.mpr hs]

-- ====================
-- Depth
-- ====================

theorem RanParts.mono (h : ∀ s k r, run s k = some r → run' s k = some r)
    (hr : RanParts m run s ks rs) : RanParts m run' s ks rs := by
  induction hr with
  | nil s => exact .nil s
  | failed hk => exact .failed (h _ _ _ hk)
  | later hk _ ih => exact .later (h _ _ _ hk) ih
  | cons hk _ ih => exact .cons (h _ _ _ hk) ih

theorem run_mono (h : m.run n s k = some r) (hn : n ≤ n') : m.run n' s k = some r := by
  induction n generalizing n' s k r with
  | zero => cases h
  | succ n ih =>
    obtain ⟨n', rfl⟩ := Nat.exists_eq_add_of_le' (Nat.le_trans (Nat.succ_pos n) hn)
    have hmono : ∀ s k r, m.run n s k = some r → m.run n' s k = some r :=
      fun s k r hr => ih hr (by omega)
    rw [run_succ_eq_some_iff] at h ⊢
    cases h with
    | stored hget => exact .stored hget
    | failed hget hs => exact .failed hget (hs.mono hmono)
    | made hget hs => exact .made hget (hs.mono hmono)

theorem RanParts.run_mono (h : RanParts m (m.run n) s ks rs) (hn : n ≤ n') :
    RanParts m (m.run n') s ks rs :=
  h.mono fun _ _ _ hr => Memo.run_mono hr hn

/-- All depths that are enough lead to the same result. -/
theorem run_unique (h : m.run n s k = some r) (h' : m.run n' s k = some r') : r = r' := by
  have hmax := run_mono h (Nat.le_max_left n n')
  rw [run_mono h' (Nat.le_max_right n n')] at hmax
  exact (Option.some.inj hmax).symm

theorem RanParts.unique {rs' : S × Except E (List V)} (h : RanParts m (m.run n) s ks rs)
    (h' : RanParts m (m.run n') s ks rs') : rs = rs' := by
  have hmax := runParts_eq_some_iff.mpr (h.run_mono (Nat.le_max_left n n'))
  rw [runParts_eq_some_iff.mpr (h'.run_mono (Nat.le_max_right n n'))] at hmax
  exact (Option.some.inj hmax).symm

/-- One more key in front. -/
theorem RanParts.cons_run (hk : m.run n s k = some (s', .ok v))
    (hs : RanParts m (m.run n') s' ks (t, .ok vs)) :
    RanParts m (m.run (max n n')) s (k :: ks) (t, .ok (v :: vs)) :=
  .cons (Memo.run_mono hk (Nat.le_max_left n n')) (hs.run_mono (Nat.le_max_right n n'))

-- ====================
-- What can be had
-- ====================

theorem FoundAll.unique (h : m.FoundAll s ks vs) (h' : m.FoundAll s ks vs') : vs = vs' := by
  induction h generalizing vs' with
  | nil =>
    cases h'
    rfl
  | stored hget _ ih =>
    cases h' with
    | stored hget' hs' =>
      cases hget.symm.trans hget'
      rw [ih hs']
    | made hget' => cases hget.symm.trans hget'
  | made hget _ hmake _ ihparts ih =>
    cases h' with
    | stored hget' => cases hget.symm.trans hget'
    | made hget' hparts' hmake' hs' =>
      cases ihparts hparts'
      cases hmake.symm.trans hmake'
      rw [ih hs']

theorem FoundAll.append (h : m.FoundAll s ks vs) (h' : m.FoundAll s ks' vs') :
    m.FoundAll s (ks ++ ks') (vs ++ vs') := by
  induction h with
  | nil => exact h'
  | stored hget _ ih => exact .stored hget ih
  | made hget hparts hmake _ _ ih => exact .made hget hparts hmake ih

theorem FoundAll.cons (hk : m.FoundAll s [k] [v]) (h : m.FoundAll s ks vs) :
    m.FoundAll s (k :: ks) (v :: vs) :=
  hk.append h

theorem FoundAll.front (h : m.FoundAll s (k :: ks) vs) : ∃ v, m.FoundAll s [k] [v] := by
  cases h with
  | stored hget _ => exact ⟨_, .stored hget .nil⟩
  | made hget hparts hmake _ => exact ⟨_, .made hget hparts hmake .nil⟩

theorem FoundAll.back (h : m.FoundAll s (k :: ks) vs) : ∃ vs', m.FoundAll s ks vs' := by
  cases h with
  | stored _ hs | made _ _ _ hs => exact ⟨_, hs⟩

theorem FoundAll.mem (h : m.FoundAll s ks vs) (hk : k ∈ ks) : ∃ v, m.FoundAll s [k] [v] := by
  induction ks generalizing vs with
  | nil => cases hk
  | cons k₁ ks ih =>
    obtain rfl | hk := List.mem_cons.mp hk
    · exact h.front
    · obtain ⟨vs', hs⟩ := h.back
      exact ih hs hk

/-- A store that a run comes to: it has what it had, and nothing but what could be had. -/
structure Grown (m : Memo S K V E) (s t : S) : Prop where
  keeps : ∀ k v, m.get s k = some v → m.get t k = some v
  found : ∀ k v, m.get t k = some v → m.FoundAll s [k] [v]

theorem Grown.refl (s : S) : Grown m s s := ⟨fun _ _ h => h, fun _ _ h => .stored h .nil⟩

theorem Grown.get_eq_none (h : Grown m s t) (ht : m.get t k = none) : m.get s k = none := by
  cases hs : m.get s k with
  | none => rfl
  | some v => cases ht.symm.trans (h.keeps k v hs)

theorem Grown.make (hm : m.Lawful) (h : Grown m s t) (hget : m.get s k = none)
    (hparts : m.FoundAll s (m.parts k) vs) (hmake : (m.make t k vs).2 = .ok v) :
    Grown m s (m.make t k vs).1 ∧ m.FoundAll s [k] [v] := by
  have hfound : m.FoundAll s [k] [v] :=
    .made hget hparts ((hm.make_eq s t k vs).trans hmake) .nil
  refine ⟨⟨fun k' w hk' => ?_, fun k' w hk' => ?_⟩, hfound⟩
  · have hne : k' ≠ k := by
      rintro rfl
      cases hget.symm.trans hk'
    rw [hm.get_make_ne t k vs v k' hmake hne]
    exact h.keeps k' w hk'
  · by_cases hne : k' = k
    · subst hne
      cases (hm.get_make t k' vs v hmake).symm.trans hk'
      exact hfound
    · rw [hm.get_make_ne t k vs v k' hmake hne] at hk'
      exact h.found k' w hk'

theorem RanParts.found
    (ih : ∀ t k t' v, run t k = some (t', .ok v) → Grown m s t →
      Grown m s t' ∧ m.FoundAll s [k] [v])
    (h : RanParts m run t ks (t', .ok vs)) (ht : Grown m s t) :
    Grown m s t' ∧ m.FoundAll s ks vs := by
  induction ks generalizing t vs with
  | nil =>
    cases h
    exact ⟨ht, .nil⟩
  | cons k ks ihks =>
    cases h with
    | cons hk hs =>
      obtain ⟨ht₁, hv⟩ := ih _ _ _ _ hk ht
      obtain ⟨ht', hvs⟩ := ihks hs ht₁
      exact ⟨ht', hv.cons hvs⟩

/-- What is found could be had. -/
theorem found_of_run (hm : m.Lawful) (h : m.run n t k = some (t', .ok v)) (ht : Grown m s t) :
    Grown m s t' ∧ m.FoundAll s [k] [v] := by
  induction n generalizing t k t' v with
  | zero => cases h
  | succ n ih =>
    rw [run_succ_eq_some_iff] at h
    generalize hr : (t', Except.ok v) = r at h
    have ht' : r.1 = t' := congrArg Prod.fst hr.symm
    have hv : r.2 = .ok v := congrArg Prod.snd hr.symm
    rw [← ht']
    cases h with
    | stored hget =>
      cases hv
      exact ⟨ht, ht.found k v hget⟩
    | failed hget hs => cases hv
    | made hget hs =>
      obtain ⟨ht₁, hparts⟩ := hs.found (fun _ _ _ _ h ht => ih h ht) ht
      exact ht₁.make hm (ht.get_eq_none hget) hparts hv

/-- What can be had is found, whatever was asked for before. -/
theorem FoundAll.exists_run (hm : m.Lawful) (h : m.FoundAll s ks vs) (ht : Grown m s t) :
    ∃ n t', RanParts m (m.run n) t ks (t', .ok vs) ∧ Grown m s t' := by
  induction h generalizing t with
  | nil => exact ⟨0, t, .nil t, ht⟩
  | @stored k v _ _ hget _ ih =>
    have hk : m.run 1 t k = some (t, .ok v) := run_succ_eq_some_iff.mpr (.stored (ht.keeps k v hget))
    obtain ⟨n, t', hks, ht'⟩ := ih ht
    exact ⟨max 1 n, t', hks.cons_run hk, ht'⟩
  | @made k v _ ws _ hget hparts hmake _ ihparts ih =>
    have hk : ∃ n t₁, m.run n t k = some (t₁, .ok v) ∧ Grown m s t₁ := by
      cases hget' : m.get t k with
      | some w =>
        cases (FoundAll.made hget hparts hmake .nil).unique (ht.found k w hget')
        exact ⟨1, t, run_succ_eq_some_iff.mpr (.stored hget'), ht⟩
      | none =>
        obtain ⟨n, t₁, hran, ht₁⟩ := ihparts ht
        have hmake₁ : (m.make t₁ k ws).2 = .ok v := (hm.make_eq t₁ s k ws).trans hmake
        refine ⟨n + 1, (m.make t₁ k ws).1, ?_, (ht₁.make hm hget hparts hmake₁).1⟩
        rw [run_succ_eq_some_iff, ← hmake₁]
        exact .made hget' hran
    obtain ⟨n₁, t₁, hk, ht₁⟩ := hk
    obtain ⟨n₂, t', hks, ht'⟩ := ih ht₁
    exact ⟨max n₁ n₂, t', hks.cons_run hk, ht'⟩

theorem FoundAll.exists_run_one (hm : m.Lawful) (h : m.FoundAll s [k] [v]) (ht : Grown m s t) :
    ∃ n t', m.run n t k = some (t', .ok v) ∧ Grown m s t' := by
  obtain ⟨n, t', hran, ht'⟩ := h.exists_run hm ht
  cases hran with
  | cons hk hs =>
    cases hs
    exact ⟨n, t', hk, ht'⟩

-- ====================
-- Where the recursion ends
-- ====================

/-- The call for a key comes to those that it leads to, and fails if they do. -/
theorem RanParts.of_leads (hm : m.Lawful) {pre post : List K}
    (h : RanParts m (m.run n) t (pre ++ k :: post) rs) (hpre : m.FoundAll s pre vs)
    (ht : Grown m s t) : ∃ t₁ r, Grown m s t₁ ∧ m.run n t₁ k = some r ∧
      ∀ e, r.2 = .error e → rs = (r.1, .error (m.blame e)) := by
  induction pre generalizing t rs vs with
  | nil =>
    cases h with
    | failed hk =>
      refine ⟨t, _, ht, hk, fun e he => ?_⟩
      cases he
      rfl
    | later hk _ | cons hk _ => exact ⟨t, _, ht, hk, fun e he => by cases he⟩
  | cons k₁ pre ih =>
    obtain ⟨v, hv⟩ := hpre.front
    obtain ⟨vs', hvs'⟩ := hpre.back
    obtain ⟨n₁, t₁, hk₁, ht₁⟩ := hv.exists_run_one hm ht
    cases h with
    | failed hk => cases run_unique hk hk₁
    | later hk hs =>
      cases run_unique hk hk₁
      obtain ⟨t₂, r, ht₂, hr, herror⟩ := ih hs hvs' ht₁
      refine ⟨t₂, r, ht₂, hr, fun e he => ?_⟩
      cases herror e he
      rfl
    | cons hk hs =>
      cases run_unique hk hk₁
      obtain ⟨t₂, r, ht₂, hr, herror⟩ := ih hs hvs' ht₁
      refine ⟨t₂, r, ht₂, hr, fun e he => ?_⟩
      cases herror e he

theorem FoundAll.acc (h : m.FoundAll s ks vs) :
    ∀ k ∈ ks, Acc (fun k' k => m.Leads s k k') k := by
  induction h with
  | nil => exact fun k hk => absurd hk List.not_mem_nil
  | stored hget _ ih =>
    intro k hk
    obtain rfl | hk := List.mem_cons.mp hk
    · apply Acc.intro
      rintro k' ⟨hget', -⟩
      cases hget.symm.trans hget'
    · exact ih k hk
  | made _ _ _ _ ihparts ih =>
    intro k hk
    obtain rfl | hk := List.mem_cons.mp hk
    · apply Acc.intro
      rintro k' ⟨-, pre, post, vs, hparts, -⟩
      apply ihparts k'
      rw [hparts]
      exact List.mem_append_right pre List.mem_cons_self
    · exact ih k hk

theorem acc_of_run (hm : m.Lawful) (h : m.run n t k = some r) (ht : Grown m s t) :
    Acc (fun k' k => m.Leads s k k') k := by
  induction n generalizing t k r with
  | zero => cases h
  | succ n ih =>
    cases hget : m.get t k with
    | some v => exact (ht.found k v hget).acc k List.mem_cons_self
    | none =>
      apply Acc.intro
      rintro k' ⟨-, pre, post, vs, hparts, hpre⟩
      have hran : ∃ rs, RanParts m (m.run n) t (m.parts k) rs := by
        cases run_succ_eq_some_iff.mp h with
        | stored hget' => cases hget.symm.trans hget'
        | failed _ hs | made _ hs => exact ⟨_, hs⟩
      obtain ⟨rs, hran⟩ := hran
      rw [hparts] at hran
      obtain ⟨t₁, r₁, ht₁, hr₁, -⟩ := hran.of_leads hm hpre ht
      exact ih hr₁ ht₁

/-- The parts of a key are found if the calls that it leads to end. -/
theorem exists_ranParts (hm : m.Lawful) (hget : m.get s k = none) {pre : List K}
    (hparts : m.parts k = pre ++ ks) (hpre : m.FoundAll s pre vs) (ht : Grown m s t)
    (h : ∀ k', m.Leads s k k' → ∀ t, Grown m s t → ∃ n r, m.run n t k' = some r) :
    ∃ n rs, RanParts m (m.run n) t ks rs := by
  induction ks generalizing pre vs t with
  | nil => exact ⟨0, _, .nil t⟩
  | cons k₁ ks ih =>
    obtain ⟨n₁, ⟨t₁, e | v⟩, hk⟩ := h k₁ ⟨hget, pre, ks, vs, hparts, hpre⟩ t ht
    · exact ⟨n₁, _, .failed hk⟩
    · obtain ⟨ht₁, hv⟩ := found_of_run hm hk ht
      have hparts' : m.parts k = (pre ++ [k₁]) ++ ks := by
        rw [hparts, List.append_assoc]
        rfl
      obtain ⟨n₂, ⟨t₂, e | vs'⟩, hks⟩ := ih hparts' (hpre.append hv) ht₁
      · exact ⟨max n₁ n₂, _, .later (run_mono hk (Nat.le_max_left n₁ n₂))
          (hks.run_mono (Nat.le_max_right n₁ n₂))⟩
      · exact ⟨max n₁ n₂, _, hks.cons_run hk⟩

theorem exists_run_of_acc (hm : m.Lawful) (h : Acc (fun k' k => m.Leads s k k') k)
    (ht : Grown m s t) : ∃ n r, m.run n t k = some r := by
  induction h generalizing t with
  | intro k _ ih =>
    cases hget : m.get t k with
    | some v => exact ⟨1, _, run_succ_eq_some_iff.mpr (.stored hget)⟩
    | none =>
      have hnil : m.parts k = [] ++ m.parts k := rfl
      obtain ⟨n, ⟨t₁, e | vs⟩, hs⟩ := exists_ranParts hm (ht.get_eq_none hget) hnil .nil ht
        fun k' hk' t ht => ih k' hk' ht
      · exact ⟨n + 1, _, run_succ_eq_some_iff.mpr (.failed hget hs)⟩
      · exact ⟨n + 1, _, run_succ_eq_some_iff.mpr (.made hget hs)⟩

/-- A key leads to itself, or to one that does. -/
def Cyclic (m : Memo S K V E) (s : S) (k : K) : Prop :=
  ∃ k', Relation.ReflTransGen (m.Leads s) k k' ∧ Relation.TransGen (m.Leads s) k' k'

theorem not_cyclic_of_acc (h : Acc (fun k' k => m.Leads s k k') k) : ¬m.Cyclic s k := by
  induction h with
  | intro k _ ih =>
    rintro ⟨k', hto, hback⟩
    obtain rfl | ⟨k₁, hk₁, hto⟩ := Relation.ReflTransGen.cases_head hto
    · obtain ⟨k₁, hk₁, hto⟩ := Relation.TransGen.head'_iff.mp hback
      exact ih k₁ hk₁ ⟨k, hto, hback⟩
    · exact ih k₁ hk₁ ⟨k', hto, hback⟩

theorem acc_of_not_cyclic [Finite K] (h : ¬m.Cyclic s k) :
    Acc (fun k' k => m.Leads s k k') k := by
  let below (k₂ k₁ : K) : Prop :=
    Relation.ReflTransGen (m.Leads s) k k₁ ∧ Relation.TransGen (m.Leads s) k₁ k₂
  have : IsTrans K below := ⟨fun _ _ _ h₂ h₁ => ⟨h₁.1, h₁.2.trans h₂.2⟩⟩
  have : Std.Irrefl below := ⟨fun k' hk' => h ⟨k', hk'⟩⟩
  have hacc : ∀ k', Relation.ReflTransGen (m.Leads s) k k' → Acc (fun k' k => m.Leads s k k') k' := by
    intro k'
    induction k' using (Finite.wellFounded_of_trans_of_irrefl below).induction with
    | _ k₁ ih =>
      intro hk₁
      apply Acc.intro
      intro k₂ hk₂
      exact ih k₂ ⟨hk₁, .single hk₂⟩ (hk₁.tail hk₂)
  exact hacc k .refl

/-- The recursion ends just if no key leads to itself. -/
theorem exists_run_iff [Finite K] (hm : m.Lawful) (s : S) (k : K) :
    (∃ n r, m.run n s k = some r) ↔ ¬m.Cyclic s k := by
  constructor
  · rintro ⟨n, r, h⟩
    exact not_cyclic_of_acc (acc_of_run hm h (.refl s))
  · intro h
    exact exists_run_of_acc hm (acc_of_not_cyclic h) (.refl s)

-- ====================
-- Errors
-- ====================

/-- The parts of the key can be had, but not what is made from them. -/
def Spoils (m : Memo S K V E) (s : S) (k : K) (e : E) : Prop :=
  m.get s k = none ∧ ∃ vs, m.FoundAll s (m.parts k) vs ∧ (m.make s k vs).2 = .error e

/-- If the parts of a key fail, then with the error of one that the key leads to. -/
theorem RanParts.error_of_leads (hm : m.Lawful) (hget : m.get s k = none) {pre : List K}
    (hparts : m.parts k = pre ++ ks) (hpre : m.FoundAll s pre vs) (ht : Grown m s t) {e : E}
    (h : RanParts m (m.run n) t ks (t', .error e)) :
    ∃ k' t₁ e', m.Leads s k k' ∧ Grown m s t₁ ∧ m.run n t₁ k' = some (t', .error e') ∧
      e = m.blame e' := by
  induction ks generalizing pre vs t with
  | nil => cases h
  | cons k₁ ks ih =>
    cases h with
    | failed hk => exact ⟨k₁, t, _, ⟨hget, pre, ks, vs, hparts, hpre⟩, ht, hk, rfl⟩
    | later hk hs =>
      obtain ⟨ht₁, hv⟩ := found_of_run hm hk ht
      have hparts' : m.parts k = (pre ++ [k₁]) ++ ks := by
        rw [hparts, List.append_assoc]
        rfl
      exact ih hparts' (hpre.append hv) ht₁ hs

theorem exists_spoils_of_run (hm : m.Lawful) {P : E → Prop} (hblame : ∀ e, P (m.blame e) ↔ P e)
    {e : E} (h : m.run n t k = some (t', .error e)) (ht : Grown m s t) (he : P e) :
    ∃ k' e, Relation.ReflTransGen (m.Leads s) k k' ∧ m.Spoils s k' e ∧ P e := by
  induction n generalizing t k t' e with
  | zero => cases h
  | succ n ih =>
    rw [run_succ_eq_some_iff] at h
    generalize hr : (t', Except.error e) = r at h
    have he' : r.2 = .error e := congrArg Prod.snd hr.symm
    cases h with
    | stored hget => cases he'
    | failed hget hs =>
      cases he'
      have hnil : m.parts k = [] ++ m.parts k := rfl
      obtain ⟨k₁, t₁, e₁, hk₁, ht₁, hrun, rfl⟩ :=
        hs.error_of_leads hm (ht.get_eq_none hget) hnil .nil ht
      obtain ⟨k', e', hk', hrest⟩ := ih hrun ht₁ ((hblame e₁).mp he)
      exact ⟨k', e', .head hk₁ hk', hrest⟩
    | @made t₁ vs hget hs =>
      obtain ⟨-, hvs⟩ := hs.found (fun _ _ _ _ h ht => found_of_run hm h ht) ht
      have hmake := (hm.make_eq s t₁ k vs).trans he'
      exact ⟨k, e, .refl, ⟨ht.get_eq_none hget, vs, hvs, hmake⟩, he⟩

theorem Spoils.run_eq (hm : m.Lawful) {e : E} (h : m.Spoils s k e) (ht : Grown m s t)
    (hr : m.run n t k = some r) : r.2 = .error e := by
  obtain ⟨hget, vs, hvs, hmake⟩ := h
  cases n with
  | zero => cases hr
  | succ n =>
    obtain ⟨n', t', hran, -⟩ := hvs.exists_run hm ht
    cases run_succ_eq_some_iff.mp hr with
    | @stored v hget' =>
      cases ht.found k v hget' with
      | stored hget'' => cases hget.symm.trans hget''
      | made _ hparts hmake' _ =>
        cases hvs.unique hparts
        cases hmake.symm.trans hmake'
    | failed _ hs => cases hs.unique hran
    | made _ hs =>
      cases hs.unique hran
      exact (hm.make_eq t' s k vs).trans hmake

/-- The error goes up to the key that was asked for. -/
theorem Spoils.run_error (hm : m.Lawful) {P : E → Prop} (hblame : ∀ e, P (m.blame e) ↔ P e) {e : E}
    (hk : Relation.ReflTransGen (m.Leads s) k k') (h : m.Spoils s k' e) (he : P e)
    (ht : Grown m s t) (hr : m.run n t k = some r) : ∃ e, r.2 = .error e ∧ P e := by
  induction hk using Relation.ReflTransGen.head_induction_on generalizing t n r with
  | refl => exact ⟨e, h.run_eq hm ht hr, he⟩
  | @head k k₁ hstep _ ih =>
    obtain ⟨hget, pre, post, vs, hparts, hpre⟩ := hstep
    cases n with
    | zero => cases hr
    | succ n =>
      have hleads : ∀ rs, RanParts m (m.run n) t (m.parts k) rs → ∃ e, rs.2 = .error e ∧ P e := by
        intro rs hran
        rw [hparts] at hran
        obtain ⟨t₁, r₁, ht₁, hr₁, herror⟩ := hran.of_leads hm hpre ht
        obtain ⟨e₁, he₁, hP⟩ := ih ht₁ hr₁
        rw [herror e₁ he₁]
        exact ⟨m.blame e₁, rfl, (hblame e₁).mpr hP⟩
      cases run_succ_eq_some_iff.mp hr with
      | @stored v hget' =>
        -- the key that fails would be one of the parts that were had
        cases ht.found k v hget' with
        | stored hget'' => cases hget.symm.trans hget''
        | made _ hparts' _ _ =>
          have hmem : k₁ ∈ m.parts k := by
            rw [hparts]
            exact List.mem_append_right pre List.mem_cons_self
          obtain ⟨w, hw⟩ := hparts'.mem hmem
          obtain ⟨n₁, t₁, hk₁, -⟩ := hw.exists_run_one hm ht
          obtain ⟨e₁, he₁, -⟩ := ih ht hk₁
          cases he₁
      | failed _ hs =>
        obtain ⟨e', he', hP⟩ := hleads _ hs
        cases he'
        exact ⟨_, rfl, hP⟩
      | made _ hs =>
        obtain ⟨e', he', -⟩ := hleads _ hs
        cases he'

/-- An error that is passed on comes from a key that others lead to, and that cannot be made from
    its parts. -/
theorem exists_run_error_iff (hm : m.Lawful) (P : E → Prop) (hblame : ∀ e, P (m.blame e) ↔ P e)
    (s : S) (k : K) :
    (∃ n t e, m.run n s k = some (t, .error e) ∧ P e) ↔ (∃ n r, m.run n s k = some r) ∧
      ∃ k' e, Relation.ReflTransGen (m.Leads s) k k' ∧ m.Spoils s k' e ∧ P e := by
  constructor
  · rintro ⟨n, t, e, h, he⟩
    exact ⟨⟨n, _, h⟩, exists_spoils_of_run hm hblame h (.refl s) he⟩
  · rintro ⟨⟨n, r, h⟩, k', e, hk', hspoils, he⟩
    obtain ⟨e', he', hP⟩ := hspoils.run_error hm hblame hk' he (.refl s) h
    refine ⟨n, r.1, e', ?_, hP⟩
    rw [h, ← he']

end Memo

end Snix
