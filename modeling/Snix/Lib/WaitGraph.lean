import Mathlib.Data.Fintype.Pigeonhole
import Mathlib.Logic.Relation
import Mathlib.Data.Set.Finite.Basic

/-!
# Waiting for one another

Sets whose members all wait for another member, and what they say about the relation
of which waiting is a part.

## Main results

- `WaitSet.exists_mutual`, `Mutual.waitSet` — there is such a set where two reach one another
-/

namespace Snix

open Relation

variable {α : Type} {R : α → α → Prop} {S : Set α} {a b : α}

/-- Two that reach one another. -/
def Mutual (R : α → α → Prop) (a b : α) : Prop := a ≠ b ∧ ReflTransGen R a b ∧ ReflTransGen R b a

/-- Every member is related to another member. -/
structure WaitSet (R : α → α → Prop) (S : Set α) : Prop where
  nonempty : S.Nonempty
  next : ∀ a ∈ S, ∃ b ∈ S, R a b ∧ b ≠ a

theorem WaitSet.exists_mutual (h : WaitSet R S) (hfin : S.Finite) : ∃ a b, Mutual R a b := by
  obtain ⟨x₀, hx₀⟩ := h.nonempty
  choose! f hmem hR hne using h.next
  -- going from one to the next comes back to a place sooner or later
  have hall : ∀ n, f^[n] x₀ ∈ S := by
    intro n
    induction n with
    | zero => exact hx₀
    | succ n ih =>
      rw [Function.iterate_succ_apply']
      exact hmem _ ih
  have : Finite S := hfin
  obtain ⟨i, j, hij, heq⟩ := Finite.exists_ne_map_eq_of_infinite fun n : ℕ => (⟨f^[n] x₀, hall n⟩ : S)
  wlog hlt : i < j generalizing i j with hwlog
  · exact hwlog j i hij.symm heq.symm (Nat.lt_of_le_of_ne (Nat.not_lt.mp hlt) hij.symm)
  have heq : f^[i] x₀ = f^[j] x₀ := congrArg Subtype.val heq
  have hpath : ∀ n, ReflTransGen R (f (f^[i] x₀)) (f^[i + 1 + n] x₀) := by
    intro n
    induction n with
    | zero =>
      rw [Nat.add_zero, Function.iterate_succ_apply']
    | succ n ih =>
      rw [← Nat.add_assoc, Function.iterate_succ_apply']
      exact ih.tail (hR _ (hall _))
  refine ⟨f^[i] x₀, f (f^[i] x₀), (hne _ (hall i)).symm, .single (hR _ (hall i)), ?_⟩
  have hback := hpath (j - (i + 1))
  rw [Nat.add_sub_cancel' hlt, ← heq] at hback
  exact hback

/-- The way to another one begins with a step that leaves. -/
theorem exists_first_step (h : ReflTransGen R a b) (hne : a ≠ b) :
    ∃ y, R a y ∧ y ≠ a ∧ ReflTransGen R y b := by
  induction h using ReflTransGen.head_induction_on with
  | refl => exact absurd rfl hne
  | @head x y hxy hyb ih =>
    by_cases hy : y = x
    · subst hy
      exact ih hne
    · exact ⟨y, hxy, hy, hyb⟩

theorem Mutual.waitSet (h : Mutual R a b) : WaitSet R {x | ReflTransGen R a x ∧ ReflTransGen R x a} where
  nonempty := ⟨a, .refl, .refl⟩
  next := by
    obtain ⟨hne, hab, hba⟩ := h
    rintro x ⟨hax, hxa⟩
    have hother : ∃ z, ReflTransGen R x z ∧ x ≠ z ∧ ReflTransGen R z a := by
      by_cases hx : x = a
      · exact ⟨b, hxa.trans hab, by rwa [hx], hba⟩
      · exact ⟨a, hxa, hx, .refl⟩
    obtain ⟨z, hxz, hxne, hza⟩ := hother
    obtain ⟨y, hxy, hyne, hyz⟩ := exists_first_step hxz hxne
    exact ⟨y, ⟨hax.tail hxy, hyz.trans hza⟩, hxy, hyne⟩

end Snix
