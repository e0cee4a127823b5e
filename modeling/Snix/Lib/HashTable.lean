import Mathlib.Data.List.Nodup
import Mathlib.Data.List.Perm.Basic

/-!
# Hash tables with hashes from outside

A hash table that is given the hash of a value with each call, and computes hashes itself only
when it moves its entries. Then it asks for the hash of each entry again, and files it under the answer.

## Main definitions

- `HashTable` — the table, and what its operations promise
- `HashTable.WellFiled` — every entry is filed under the hash of its key, and no key occurs twice
- `HashTable.flat` — a table that compares the first bits of the hashes

## Main results

- `WellFiled.find_eq_some` — an entry is found by its key
- `WellFiled.insertUnique` — insertions keep it if moved entries stay where they are
-/

namespace Snix

/-- A hash table. What it holds is given with the hashes that the values are filed under. -/
structure HashTable (V : Type) where
  Table : Type
  empty : Table
  filed : Table → List (UInt64 × V)
  /-- The next insertion moves the entries. -/
  grows : Table → Bool
  find : Table → UInt64 → (V → Bool) → Option V
  insertUnique : Table → UInt64 → V → (V → UInt64) → Table
  filed_empty : filed empty = []
  of_find_eq_some : ∀ {t h eq v}, find t h eq = some v → eq v = true ∧ ∃ h', (h', v) ∈ filed t
  of_find_eq_none : ∀ {t h eq}, find t h eq = none → ∀ v, (h, v) ∈ filed t → eq v = false
  perm_filed_insertUnique : ∀ t h v hasher, (filed (insertUnique t h v hasher)).Perm
    ((h, v) :: if grows t then (filed t).map fun e => (hasher e.2, e.2) else filed t)

namespace HashTable

variable {V K : Type} {H : HashTable V} {t : H.Table} {key key' : V → K}
  {hash : K → UInt64} {hasher : V → UInt64} {v w : V}

/-- The values, without the hashes. -/
def values (H : HashTable V) (t : H.Table) : List V := (H.filed t).map Prod.snd

theorem perm_values_insertUnique (h : UInt64) :
    (H.values (H.insertUnique t h v hasher)).Perm (v :: H.values t) := by
  refine ((H.perm_filed_insertUnique t h v hasher).map Prod.snd).trans (.of_eq ?_)
  rw [List.map_cons, values]
  split_ifs
  · rw [List.map_map]
    rfl
  · rfl

theorem mem_values_iff : v ∈ H.values t ↔ ∃ h, (h, v) ∈ H.filed t := by
  simp [values]

/-- Every entry is filed under the hash of its key, and no key occurs twice. -/
structure WellFiled (H : HashTable V) (key : V → K) (hash : K → UInt64) (t : H.Table) : Prop where
  filed : ∀ e ∈ H.filed t, e.1 = hash (key e.2)
  nodup : ((H.values t).map key).Nodup

theorem wellFiled_empty : WellFiled H key hash H.empty := by
  refine ⟨?_, ?_⟩
  · rw [H.filed_empty]
    exact fun _ h => absurd h List.not_mem_nil
  · rw [values, H.filed_empty]
    exact List.nodup_nil

/-- Only the keys of the entries matter. -/
theorem WellFiled.congr (h : WellFiled H key hash t) (hkey : ∀ v ∈ H.values t, key' v = key v) :
    WellFiled H key' hash t := by
  refine ⟨fun e he => ?_, ?_⟩
  · rw [hkey e.2 (List.mem_map_of_mem he)]
    exact h.filed e he
  · rw [List.map_congr_left hkey]
    exact h.nodup

theorem WellFiled.eq_of_key_eq (h : WellFiled H key hash t) (hv : v ∈ H.values t)
    (hw : w ∈ H.values t) (hkey : key v = key w) : v = w :=
  List.inj_on_of_nodup_map h.nodup hv hw hkey

/-- An entry is found by its key. -/
theorem WellFiled.find_eq_some [DecidableEq K] (h : WellFiled H key hash t) (hv : v ∈ H.values t) :
    H.find t (hash (key v)) (fun w => decide (key w = key v)) = some v := by
  cases hfind : H.find t (hash (key v)) (fun w => decide (key w = key v)) with
  | none =>
    obtain ⟨hv', hmem⟩ := mem_values_iff.mp hv
    have hkey := H.of_find_eq_none hfind v (h.filed _ hmem ▸ hmem)
    exact absurd rfl (of_decide_eq_false hkey)
  | some w =>
    obtain ⟨hkey, hw⟩ := H.of_find_eq_some hfind
    rw [h.eq_of_key_eq (mem_values_iff.mpr hw) hv (of_decide_eq_true hkey)]

theorem WellFiled.find_eq_none_iff [DecidableEq K] (h : WellFiled H key hash t) {k : K} :
    H.find t (hash k) (fun w => decide (key w = k)) = none ↔ ∀ w ∈ H.values t, key w ≠ k := by
  constructor
  · rintro hfind w hw rfl
    rw [h.find_eq_some hw] at hfind
    cases hfind
  · intro hall
    cases hfind : H.find t (hash k) (fun w => decide (key w = k)) with
    | none => rfl
    | some w =>
      obtain ⟨hkey, hw⟩ := H.of_find_eq_some hfind
      exact absurd (of_decide_eq_true hkey) (hall w (mem_values_iff.mpr hw))

/-- A value with a new key can be inserted if no entry is filed elsewhere when it is moved. -/
theorem WellFiled.insertUnique (h : WellFiled H key hash t)
    (hnew : ∀ w ∈ H.values t, key w ≠ key v)
    (hmoved : H.grows t = true → ∀ w ∈ H.values t, hasher w = hash (key w)) :
    WellFiled H key hash (H.insertUnique t (hash (key v)) v hasher) := by
  refine ⟨fun e he => ?_, ?_⟩
  · rcases List.mem_cons.mp ((H.perm_filed_insertUnique _ _ _ _).mem_iff.mp he) with rfl | he
    · rfl
    · split_ifs at he with hgrows
      · obtain ⟨e', he', rfl⟩ := List.mem_map.mp he
        exact hmoved hgrows e'.2 (List.mem_map_of_mem he')
      · exact h.filed e he
  · rw [((perm_values_insertUnique _).map key).nodup_iff, List.map_cons, List.nodup_cons]
    refine ⟨fun hmem => ?_, h.nodup⟩
    obtain ⟨w, hw, hkey⟩ := List.mem_map.mp hmem
    exact hnew w hw hkey

-- ====================
-- A flat table
-- ====================

/-- The entries, and how many of them there is room for. -/
structure FlatTable (V : Type) where
  entries : List (UInt64 × V)
  capacity : ℕ

/-- The bits of a hash that are compared before the values are. -/
def tag (h : UInt64) : UInt64 := h >>> 57

def nextCapacity (capacity : ℕ) : ℕ :=
  if capacity < 3 then 3 else if capacity < 7 then 7 else 2 * capacity

def FlatTable.find (t : FlatTable V) (h : UInt64) (eq : V → Bool) : Option V :=
  (t.entries.find? fun e => tag e.1 = tag h && eq e.2).map Prod.snd

def FlatTable.insertUnique (t : FlatTable V) (h : UInt64) (v : V) (hasher : V → UInt64) :
    FlatTable V :=
  if t.entries.length = t.capacity then
    ⟨(h, v) :: t.entries.map fun e => (hasher e.2, e.2), nextCapacity t.capacity⟩
  else ⟨(h, v) :: t.entries, t.capacity⟩

/-- A table that is searched from one end to the other. -/
def flat (V : Type) : HashTable V where
  Table := FlatTable V
  empty := ⟨[], 0⟩
  filed := FlatTable.entries
  grows t := decide (t.entries.length = t.capacity)
  find := FlatTable.find
  insertUnique := FlatTable.insertUnique
  filed_empty := rfl
  of_find_eq_some {t h eq v} hfind := by
    obtain ⟨⟨h', w⟩, hw, rfl⟩ := Option.map_eq_some_iff.mp hfind
    have heq := List.find?_some hw
    simp only [Bool.and_eq_true] at heq
    exact ⟨heq.2, h', List.mem_of_find?_eq_some hw⟩
  of_find_eq_none {t h eq} hfind v hv := by
    have hnone := List.find?_eq_none.mp (Option.map_eq_none_iff.mp hfind) _ hv
    simpa using hnone
  perm_filed_insertUnique t h v hasher := by
    refine .of_eq ?_
    rw [FlatTable.insertUnique]
    by_cases hfull : t.entries.length = t.capacity
    · rw [if_pos hfull, if_pos (decide_eq_true hfull)]
    · rw [if_neg hfull, if_neg fun hgrows => hfull (of_decide_eq_true hgrows)]

end HashTable

end Snix
