import Mathlib.Data.List.Infix

/-!
# Occurrences of patterns

Patterns that occur in a list as consecutive elements, and what is left to search when
the list grows at its end.

## Main definitions

- `OccursAt` — a pattern stands at a place of a list
- `Separated` — the occurrences of the patterns do not overlap
- `Isolated` — an occurrence of a pattern that no other one overlaps

## Main results

- `infix_of_append` — an occurrence that is new stands in the last elements
-/

namespace Snix

variable {α : Type} {p q s t w : List α}

/-- The pattern stands at the place. -/
def OccursAt (p s : List α) (i : ℕ) : Prop := p <+: s.drop i

/-- Two occurrences of patterns are the same, or one of them ends before the other begins. -/
def Separated (patterns : List (List α)) (s : List α) : Prop :=
  ∀ (a b : ℕ) p q i j, patterns[a]? = some p → patterns[b]? = some q → OccursAt p s i → OccursAt q s j →
    (a = b ∧ i = j) ∨ i + p.length ≤ j ∨ j + q.length ≤ i

/-- The pattern with the number occurs, without overlapping another occurrence. -/
def Isolated (patterns : List (List α)) (s : List α) (a : ℕ) : Prop :=
  ∃ p i, patterns[a]? = some p ∧ OccursAt p s i ∧
    ∀ (b : ℕ) q j, patterns[b]? = some q → OccursAt q s j →
      (a = b ∧ i = j) ∨ i + p.length ≤ j ∨ j + q.length ≤ i

theorem infix_iff_occursAt : p <:+: s ↔ ∃ i, OccursAt p s i := by
  constructor
  · rintro ⟨u, v, rfl⟩
    refine ⟨u.length, ?_⟩
    rw [OccursAt, List.append_assoc, List.drop_left]
    exact List.prefix_append p v
  · rintro ⟨i, hi⟩
    exact hi.isInfix.trans (List.drop_suffix i s).isInfix

theorem Isolated.exists_infix {patterns : List (List α)} {a : ℕ} (h : Isolated patterns s a) :
    ∃ p, patterns[a]? = some p ∧ p <:+: s := by
  obtain ⟨p, i, hp, hi, -⟩ := h
  exact ⟨p, hp, infix_iff_occursAt.mpr ⟨i, hi⟩⟩

theorem Separated.isolated {patterns : List (List α)} (h : Separated patterns s) {a : ℕ}
    (hp : patterns[a]? = some p) (hs : p <:+: s) : Isolated patterns s a := by
  obtain ⟨i, hi⟩ := infix_iff_occursAt.mp hs
  exact ⟨p, i, hp, hi, fun b q j hq hj => h a b p q i j hp hq hi hj⟩

theorem OccursAt.append_left {i : ℕ} (h : OccursAt p w i) (s : List α) :
    OccursAt p (s ++ w) (s.length + i) := by
  rw [OccursAt, List.drop_append, List.drop_of_length_le (Nat.le_add_right _ _), List.nil_append,
    Nat.add_sub_cancel_left]
  exact h

theorem OccursAt.append_right {i : ℕ} (h : OccursAt p w i) (hp : p ≠ []) (t : List α) :
    OccursAt p (w ++ t) i := by
  have hi : i ≤ w.length := by
    by_contra hlt
    rw [OccursAt, List.drop_of_length_le (by omega)] at h
    exact hp (List.prefix_nil.mp h)
  rw [OccursAt, List.drop_append_of_le_length hi]
  exact h.trans (List.prefix_append _ _)

/-- The occurrences in a part of a list are occurrences in the list. -/
theorem Separated.of_infix {patterns : List (List α)} (h : Separated patterns s)
    (hne : ∀ p ∈ patterns, p ≠ []) (hw : w <:+: s) : Separated patterns w := by
  obtain ⟨u, v, rfl⟩ := hw
  intro a b p q i j ha hb hi hj
  have hp := hne p (List.mem_of_getElem? ha)
  have hq := hne q (List.mem_of_getElem? hb)
  rw [List.append_assoc] at h
  have hsep := h a b p q _ _ ha hb ((hi.append_right hp v).append_left u)
    ((hj.append_right hq v).append_left u)
  omega

/-- An occurrence in a list that has grown is an old one, or stands in the new elements and those
    right before them, one fewer than it is long. -/
theorem infix_of_append (h : p <:+: s ++ t) (n : ℕ) (hn : p.length ≤ n + 1) :
    p <:+: s ∨ p <:+: s.drop (s.length - n) ++ t := by
  obtain ⟨u, v, huv⟩ := h
  rw [List.append_assoc] at huv
  rcases Nat.lt_or_ge s.length (u ++ p).length with hlt | hge
  · right
    have hu : s.length - n ≤ u.length := by
      rw [List.length_append] at hlt
      omega
    refine ⟨u.drop (s.length - n), v, ?_⟩
    rw [List.append_assoc, ← List.drop_append_of_le_length hu, huv,
      List.drop_append_of_le_length (Nat.sub_le _ _)]
  · left
    rw [← List.append_assoc] at huv
    obtain ⟨r, hr⟩ := List.prefix_of_prefix_length_le (List.prefix_append (u ++ p) v)
      (huv ▸ List.prefix_append s t) hge
    exact ⟨u, r, hr⟩

end Snix
