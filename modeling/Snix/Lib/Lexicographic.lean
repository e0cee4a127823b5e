import Mathlib.Data.List.Basic
import Mathlib.Data.Nat.Digits.Defs

/-!
# Lexicographic order

Strings are compared element by element, and a proper prefix comes first. Digit strings of
one length, the most significant digit first, are in the order of the numbers they stand for.

## Main results

- `compare_append` — comparing strings that begin with parts of one length
- `compare_map` — an order embedding of the elements embeds the strings
- `compare_reverse_ofDigits` — the order of digit strings
- `compare_eq_compare_reverse_iff` — when strings are in the same order read from either end
-/

namespace Snix

variable {α β : Type} [Ord α] [Ord β]

theorem compare_nil : compare ([] : List α) [] = .eq := rfl

/-- Parts of one length decide first. -/
theorem compare_append {a b : List α} (h : a.length = b.length) (c d : List α) :
    compare (a ++ c) (b ++ d) = (compare a b).then (compare c d) := by
  induction a generalizing b with
  | nil =>
    obtain rfl := List.length_eq_zero_iff.mp h.symm
    rfl
  | cons x a ih =>
    cases b with
    | nil => cases h
    | cons y b =>
      rw [List.cons_append, List.cons_append, List.compare_cons_cons, List.compare_cons_cons,
        ih (Nat.succ.inj h), Ordering.then_assoc]

theorem compare_map {f : α → β} {a b : List α}
    (h : ∀ x ∈ a, ∀ y ∈ b, compare (f x) (f y) = compare x y) :
    compare (a.map f) (b.map f) = compare a b := by
  induction a generalizing b with
  | nil => cases b <;> rfl
  | cons x a ih =>
    cases b with
    | nil => rfl
    | cons y b =>
      rw [List.map_cons, List.map_cons, List.compare_cons_cons, List.compare_cons_cons,
        h x List.mem_cons_self y List.mem_cons_self,
        ih fun x hx y hy => h x (List.mem_cons_of_mem _ hx) y (List.mem_cons_of_mem _ hy)]

/-- A number is compared by its quotient first and by its last digit then. -/
theorem compare_digit {B d e v w : ℕ} (hd : d < B) (he : e < B) :
    compare (d + B * v) (e + B * w) = (compare v w).then (compare d e) := by
  obtain h | h | h := Nat.lt_trichotomy v w
  · rw [Nat.compare_eq_lt.mpr h, Ordering.lt_then, Nat.compare_eq_lt]
    have : B * (v + 1) ≤ B * w := Nat.mul_le_mul_left _ h
    rw [Nat.mul_add] at this
    omega
  · subst h
    rw [Nat.compare_eq_eq.mpr rfl, Ordering.eq_then]
    obtain h | rfl | h := Nat.lt_trichotomy d e
    · rw [Nat.compare_eq_lt.mpr h, Nat.compare_eq_lt]
      omega
    · rw [Nat.compare_eq_eq.mpr rfl, Nat.compare_eq_eq.mpr rfl]
    · rw [Nat.compare_eq_gt.mpr h, Nat.compare_eq_gt]
      omega
  · rw [Nat.compare_eq_gt.mpr h, Ordering.gt_then, Nat.compare_eq_gt]
    have : B * (w + 1) ≤ B * v := Nat.mul_le_mul_left _ h
    rw [Nat.mul_add] at this
    omega

/-- Digit strings of one length, the least significant digit first, are in the order of their
    numbers when read backwards. -/
theorem compare_reverse_ofDigits {B : ℕ} {ds es : List ℕ} (hlen : ds.length = es.length)
    (hds : ∀ d ∈ ds, d < B) (hes : ∀ e ∈ es, e < B) :
    compare ds.reverse es.reverse = compare (Nat.ofDigits B ds) (Nat.ofDigits B es) := by
  induction ds generalizing es with
  | nil =>
    obtain rfl := List.length_eq_zero_iff.mp hlen.symm
    rfl
  | cons d ds ih =>
    cases es with
    | nil => cases hlen
    | cons e es =>
      have hlast : compare [d] [e] = compare d e := by
        rw [List.compare_cons_cons, compare_nil, Ordering.then_eq]
      rw [List.reverse_cons, List.reverse_cons, compare_append (by simpa using hlen),
        ih (Nat.succ.inj hlen) (fun x hx => hds x (List.mem_cons_of_mem _ hx))
          (fun x hx => hes x (List.mem_cons_of_mem _ hx)), hlast]
      exact (compare_digit (hds d List.mem_cons_self) (hes e List.mem_cons_self)).symm

/-- The number made of the lowest digits of a number. -/
theorem ofDigits_range {B : ℕ} (v n : ℕ) :
    Nat.ofDigits B ((List.range n).map fun k => v / B ^ k % B) = v % B ^ n := by
  induction n with
  | zero => simp [Nat.mod_one]
  | succ n ih =>
    rw [List.range_succ, List.map_append, Nat.ofDigits_append, ih, List.length_map, List.length_range,
      List.map_singleton, Nat.ofDigits_singleton, Nat.pow_succ, Nat.mod_mul]

-- ====================
-- The first difference
-- ====================

/-- The first elements in which two strings of one length differ. -/
def FirstDiffer {γ : Type} (x y : List γ) (a b : γ) : Prop :=
  a ≠ b ∧ ∃ p s t, x = p ++ a :: s ∧ y = p ++ b :: t

theorem exists_firstDiffer {γ : Type} {x y : List γ} (h : x.length = y.length) (hne : x ≠ y) :
    ∃ a b, FirstDiffer x y a b := by
  induction x generalizing y with
  | nil => exact absurd (List.length_eq_zero_iff.mp h.symm).symm hne
  | cons a x ih =>
    cases y with
    | nil => cases h
    | cons b y =>
      by_cases hab : a = b
      · subst hab
        have hrest : x ≠ y := fun hxy => hne (congrArg _ hxy)
        obtain ⟨c, d, hcd, p, s, t, rfl, rfl⟩ := ih (Nat.succ.inj h) hrest
        exact ⟨c, d, hcd, a :: p, s, t, rfl, rfl⟩
      · exact ⟨a, b, hab, [], x, y, rfl, rfl⟩

/-- The first difference decides. -/
theorem compare_eq_of_firstDiffer [Std.LawfulEqOrd α] {x y : List α} {a b : α}
    (h : FirstDiffer x y a b) : compare x y = compare a b := by
  obtain ⟨hab, p, s, t, rfl, rfl⟩ := h
  have hself : compare p p = .eq := Std.ReflCmp.compare_self
  have hne : compare a b ≠ .eq := fun heq => hab (Std.LawfulEqCmp.eq_of_compare heq)
  rw [compare_append rfl, hself, Ordering.eq_then, List.compare_cons_cons]
  cases hc : compare a b with
  | eq => exact absurd hc hne
  | lt | gt => rfl

/-- The first and the last difference are decided in the same way. -/
def SameDirection (x y : List α) : Prop :=
  ∀ a b c d, FirstDiffer x y a b → FirstDiffer x.reverse y.reverse c d → compare a b = compare c d

/-- Two strings of one length are in the same order from both ends exactly when their first and
    their last difference are. -/
theorem compare_eq_compare_reverse_iff [Std.LawfulEqOrd α] {x y : List α}
    (h : x.length = y.length) :
    compare x y = compare x.reverse y.reverse ↔ SameDirection x y := by
  constructor
  · intro heq a b c d hfirst hlast
    rwa [compare_eq_of_firstDiffer hfirst, compare_eq_of_firstDiffer hlast] at heq
  · intro hsame
    by_cases hxy : x = y
    · have hself : ∀ z : List α, compare z z = .eq := fun z => Std.ReflCmp.compare_self
      rw [hxy, hself, hself]
    · have hrev : x.reverse ≠ y.reverse := fun hr => hxy (List.reverse_injective hr)
      obtain ⟨a, b, hfirst⟩ := exists_firstDiffer h hxy
      obtain ⟨c, d, hlast⟩ := exists_firstDiffer (by simpa using h) hrev
      rw [compare_eq_of_firstDiffer hfirst, compare_eq_of_firstDiffer hlast]
      exact hsame a b c d hfirst hlast

end Snix
