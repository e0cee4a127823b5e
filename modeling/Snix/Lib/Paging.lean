import Mathlib.Algebra.BigOperators.Intervals
import Mathlib.Data.List.Perm.Subperm

/-!
# Handing over a list in pages

A reader asks for one page after another, until a page is empty. Every page has room
for some elements. What the source loses when it finds that the page is full is not on
the next page either.

## Main definitions

- `pages` — what the reader gets, with the number of elements that a full page loses

## Main results

- `exists_pages` — the reader comes to an empty page
- `pages_perm_iff` — when nothing is lost by the pages, the reader gets everything if and only if
  each page has room until it has everything
- `pages_lossy_perm_iff` — when they lose an element, the first page must have room for all
-/

namespace Snix

variable {α : Type}

/-- The elements that are handed over, where a full page loses the given number of them. None if
    there are more than the given number of pages. -/
def pages (lost : ℕ) : ℕ → (ℕ → ℕ) → List α → Option (List α)
  | 0, _, _ => none
  | n + 1, rooms, items =>
    if items.take (rooms 0) = [] then some []
    else (pages lost n (fun k => rooms (k + 1)) (items.drop (rooms 0 + lost))).map
      (items.take (rooms 0) ++ ·)

variable {lost n : ℕ} {rooms : ℕ → ℕ} {items got : List α}

/-- The reader comes to an empty page. -/
theorem exists_pages (hn : items.length < n) : ∃ got, pages lost n rooms items = some got := by
  induction n generalizing rooms items with
  | zero => exact absurd hn (Nat.not_lt_zero _)
  | succ n ih =>
    unfold pages
    by_cases hempty : items.take (rooms 0) = []
    · exact ⟨[], if_pos hempty⟩
    · rw [if_neg hempty]
      rw [List.take_eq_nil_iff, not_or] at hempty
      have hpos := List.length_pos_iff.mpr hempty.2
      obtain ⟨got, hgot⟩ := @ih (fun k => rooms (k + 1)) (items.drop (rooms 0 + lost)) (by
        rw [List.length_drop]
        omega)
      exact ⟨_, by rw [hgot, Option.map_some]⟩

/-- What the reader gets is in the order of the list. -/
theorem pages_sublist (h : pages lost n rooms items = some got) : got.Sublist items := by
  induction n generalizing rooms items got with
  | zero => cases h
  | succ n ih =>
    unfold pages at h
    split_ifs at h with hempty
    · cases h
      exact List.nil_sublist items
    · obtain ⟨rest, hrest, rfl⟩ := Option.map_eq_some_iff.mp h
      have hsub : rest.Sublist (items.drop (rooms 0)) := by
        refine (ih hrest).trans ?_
        rw [← List.drop_drop]
        exact List.drop_sublist lost _
      have happend := List.Sublist.append_left hsub (items.take (rooms 0))
      rwa [List.take_append_drop] at happend

theorem pages_perm_iff_eq (h : pages lost n rooms items = some got) :
    got.Perm items ↔ got = items := by
  constructor
  · exact fun hperm => (pages_sublist h).eq_of_length hperm.length_eq
  · rintro rfl
    exact .refl got

/-- Without loss the reader gets everything if each page has room until it has everything, and
    only then. -/
theorem pages_perm_iff (h : pages 0 n rooms items = some got) :
    got.Perm items ↔ ∀ k, ∑ i ∈ Finset.range k, rooms i < items.length → 0 < rooms k := by
  rw [pages_perm_iff_eq h]
  induction n generalizing rooms items got with
  | zero => cases h
  | succ n ih =>
    unfold pages at h
    split_ifs at h with hempty
    · cases h
      rw [List.take_eq_nil_iff] at hempty
      constructor
      · rintro rfl k hk
        exact absurd hk (Nat.not_lt_zero _)
      · intro hrooms
        by_contra hne
        have hpos := hrooms 0 (List.length_pos_iff.mpr (Ne.symm hne))
        exact hempty.elim hpos.ne' (Ne.symm hne)
    · obtain ⟨rest, hrest, rfl⟩ := Option.map_eq_some_iff.mp h
      rw [List.take_eq_nil_iff, not_or] at hempty
      have hsplit : items.take (rooms 0) ++ rest = items ↔ rest = items.drop (rooms 0) := by
        rw [← List.append_cancel_left_eq (items.take (rooms 0)) rest, List.take_append_drop]
      rw [Nat.add_zero] at hrest
      rw [hsplit, ih hrest, List.length_drop]
      constructor
      · intro hrooms k hk
        cases k with
        | zero => exact Nat.pos_of_ne_zero hempty.1
        | succ k =>
          rw [Finset.sum_range_succ'] at hk
          exact hrooms k (by omega)
      · intro hrooms k hk
        apply hrooms (k + 1)
        rw [Finset.sum_range_succ']
        omega

/-- If a full page loses an element, the reader gets everything if the first page has room for
    everything, and only then. -/
theorem pages_lossy_perm_iff (h : pages 1 n rooms items = some got) :
    got.Perm items ↔ items.length ≤ rooms 0 := by
  cases n with
  | zero => cases h
  | succ n =>
    unfold pages at h
    split_ifs at h with hempty
    · cases h
      rw [List.take_eq_nil_iff] at hempty
      rw [List.nil_perm]
      constructor
      · rintro rfl
        exact Nat.zero_le _
      · intro hle
        refine hempty.elim (fun hzero => ?_) id
        exact List.eq_nil_of_length_eq_zero (by omega)
    · obtain ⟨rest, hrest, rfl⟩ := Option.map_eq_some_iff.mp h
      have hrestle := (pages_sublist hrest).length_le
      rw [List.length_drop] at hrestle
      constructor
      · intro hperm
        have hlen := hperm.length_eq
        rw [List.length_append, List.length_take] at hlen
        omega
      · intro hle
        have hnil : rest = [] := List.eq_nil_of_length_eq_zero (by omega)
        rw [hnil, List.append_nil, List.take_of_length_le hle]

end Snix
