import Mathlib.Algebra.BigOperators.Group.List.Basic
import Mathlib.Algebra.GroupWithZero.Nat

/-!
# Sums of 64-bit numbers

Numbers are natural numbers; a sum that does not fit in 64 bits wraps around, or
is none where the program checks for it.

## Main definitions

- `fitU64` — a number as 64 bits
- `addU64`, `sumU64` — a sum of two numbers, and of a list

## Main results

- `fitU64_bind`, `sumU64_eq` — only the total decides whether a sum fits
-/

namespace Snix

/-- A sum of 64-bit numbers; none if it is checked and does not fit. -/
def addU64 (checks : Bool) (a b : ℕ) : Option ℕ :=
  if a + b < 2 ^ 64 then some (a + b) else if checks then none else some ((a + b) % 2 ^ 64)

/-- The sum of a list of 64-bit numbers, added up one by one. -/
def sumU64 (checks : Bool) (l : List ℕ) : Option ℕ := l.foldlM (addU64 checks) 0

/-- A number as 64 bits; none if it is checked and does not fit. -/
def fitU64 (checks : Bool) (n : ℕ) : Option ℕ :=
  if n < 2 ^ 64 then some n else if checks then none else some (n % 2 ^ 64)

theorem fitU64_of_lt {checks : Bool} {n : ℕ} (h : n < 2 ^ 64) : fitU64 checks n = some n := if_pos h

theorem fitU64_true_eq_some {n m : ℕ} : fitU64 true n = some m ↔ m = n ∧ n < 2 ^ 64 := by
  by_cases h : n < 2 ^ 64
  · simp only [fitU64_of_lt h, Option.some.injEq, h, and_true, eq_comm]
  · simp only [fitU64, h, if_false, if_true, and_false, reduceCtorEq]

theorem eq_mod_of_fitU64 {checks : Bool} {n m : ℕ} (h : fitU64 checks n = some m) :
    m = n % 2 ^ 64 := by
  by_cases hn : n < 2 ^ 64
  · rw [fitU64_of_lt hn] at h
    cases h
    rw [Nat.mod_eq_of_lt hn]
  · rw [fitU64, if_neg hn] at h
    cases checks with
    | true => cases h
    | false =>
      cases h
      rfl

/-- A number in 64 bits is below the bound. -/
theorem lt_of_fitU64 {checks : Bool} {n m : ℕ} (h : fitU64 checks n = some m) : m < 2 ^ 64 := by
  unfold fitU64 at h
  split_ifs at h with hlt
  · cases h
    exact hlt
  · cases h
    exact Nat.mod_lt _ (by decide)

/-- It does not matter where in a computation an overflow happens. -/
theorem fitU64_bind (checks : Bool) (a b : ℕ) :
    ((fitU64 checks a).bind fun x => fitU64 checks (x + b)) = fitU64 checks (a + b) := by
  by_cases h : a < 2 ^ 64
  · rw [fitU64_of_lt h, Option.bind_some]
  · cases checks with
    | true => rw [fitU64, if_neg h, if_pos rfl, fitU64, if_neg (by omega), if_pos rfl, Option.bind_none]
    | false =>
      have hfalse : ∀ n, fitU64 false n = some (n % 2 ^ 64) := by
        intro n
        by_cases hn : n < 2 ^ 64
        · rw [fitU64_of_lt hn, Nat.mod_eq_of_lt hn]
        · rw [fitU64, if_neg hn]
          rfl
      rw [hfalse, Option.bind_some, hfalse, hfalse, Nat.mod_add_mod]

theorem foldlM_addU64 (checks : Bool) (l : List ℕ) (a : ℕ) :
    ((fitU64 checks a).bind fun x => l.foldlM (addU64 checks) x) = fitU64 checks (a + l.sum) := by
  induction l generalizing a with
  | nil =>
    rw [List.sum_nil, Nat.add_zero]
    exact Option.bind_fun_some _
  | cons b l ih =>
    rw [List.sum_cons, ← Nat.add_assoc, ← ih (a + b), ← fitU64_bind checks a b, Option.bind_assoc]
    rfl

/-- Adding up a list fits in 64 bits if its total does. -/
theorem sumU64_eq (checks : Bool) (l : List ℕ) : sumU64 checks l = fitU64 checks l.sum := by
  have h := foldlM_addU64 checks l 0
  rw [fitU64_of_lt (by decide), Option.bind_some, Nat.zero_add] at h
  exact h

end Snix
