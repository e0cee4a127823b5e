import Snix.Lib.Segments

/-!
# What is at an index

A list that is found at an index of a longer one. Segments are found where the layout of all
segments has them.

## Main definitions

- `At` — the list is found at the index

## Main results

- `at_append_iff` — what is found in two parts
- `At.of_mem_layout` — a segment is found where the layout has it
-/

namespace Snix

variable {α β : Type} {code s t : List β} {idx : ℕ} {b : β}

/-- The list is found at the index. -/
def At (code : List β) (idx : ℕ) (s : List β) : Prop := s <+: code.drop idx

theorem at_append_iff : At code idx (s ++ t) ↔ At code idx s ∧ At code (idx + s.length) t := by
  constructor
  · rintro ⟨rest, h⟩
    rw [List.append_assoc] at h
    refine ⟨⟨t ++ rest, h⟩, rest, ?_⟩
    rw [← List.drop_drop, ← h, List.drop_left]
  · rintro ⟨⟨rest, h⟩, htail⟩
    rw [At, ← List.drop_drop, ← h, List.drop_left] at htail
    rw [At, ← h]
    exact List.prefix_append_right_inj s |>.mpr htail

theorem at_cons_iff : At code idx (b :: t) ↔ code[idx]? = some b ∧ At code (idx + 1) t := by
  have hone : At code idx [b] ↔ code[idx]? = some b := by
    rw [At, ← List.head?_drop]
    cases code.drop idx <;> simp [List.cons_prefix_cons, eq_comm]
  rw [← List.singleton_append, at_append_iff, hone]
  rfl

theorem At.drop (h : At code idx s) : code.drop idx = s ++ code.drop (idx + s.length) := by
  obtain ⟨rest, hrest⟩ := h
  rw [← List.drop_drop, ← hrest, List.drop_left]

theorem At.length_le (h : At code idx s) (hs : s ≠ []) : idx + s.length ≤ code.length := by
  have hlen := List.IsPrefix.length_le h
  have hpos := List.length_pos_iff.mpr hs
  rw [List.length_drop] at hlen
  omega

theorem at_zero (code : List β) : At code 0 code := List.prefix_rfl

theorem snd_mem_of_mem_layout {len : α → ℕ} {off : ℕ} {l : List α} {p : ℕ × α}
    (h : p ∈ layout len off l) : p.2 ∈ l := by
  induction l generalizing off with
  | nil => cases h
  | cons a l ih =>
    obtain rfl | h := List.mem_cons.mp h
    · exact List.mem_cons_self
    · exact List.mem_cons_of_mem _ (ih h)

/-- Each segment is found where the layout has it. -/
theorem At.of_mem_layout {len : α → ℕ} {off : ℕ} {l : List α} {a : α} (contents : α → List β)
    (h : At code off (l.flatMap contents)) (hlen : ∀ a ∈ l, (contents a).length = len a)
    (hmem : (idx, a) ∈ layout len off l) : At code idx (contents a) := by
  induction l generalizing off with
  | nil => cases hmem
  | cons c l ih =>
    rw [List.flatMap_cons] at h
    obtain ⟨hc, hl⟩ := at_append_iff.mp h
    rw [hlen c List.mem_cons_self] at hl
    obtain hmem | hmem := List.mem_cons.mp hmem
    · obtain ⟨rfl, rfl⟩ := Prod.mk.inj hmem
      exact hc
    · exact ih hl (fun a ha => hlen a (List.mem_cons_of_mem _ ha)) hmem

end Snix
