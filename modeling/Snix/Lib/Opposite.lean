import Mathlib.Data.List.Forall2
import Mathlib.Order.Lattice

/-!
# Elements opposite to each other

Two lists of one length are compared element by element: of what holds between the elements that
are opposite to each other, and of what follows for each list alone.

## Main results

- `forall_of_zip`, `map_eq_map_of_zip` — from the pairs to the lists
- `exists_mem_zip_zip` — an element between two that are opposite to each other
- `exists_forall₂`, `exists_forall₂_le`, `mem_forall₂` — elements that stand in a relation
-/

namespace Snix

variable {α β γ : Type} {l : List α} {r bs : List β} {R : α → β → Prop}

-- ====================
-- Pairs
-- ====================

theorem forall_mem_zip_self {P : α → α → Prop} (h : ∀ a ∈ l, P a a) : ∀ q ∈ l.zip l, P q.1 q.2 := by
  induction l with
  | nil => exact fun _ hq => absurd hq List.not_mem_nil
  | cons a l ih =>
    intro q hq
    obtain rfl | hq := List.mem_cons.mp hq
    · exact h a List.mem_cons_self
    · exact ih (fun a ha => h a (List.mem_cons_of_mem _ ha)) q hq

theorem mem_zip_swap {q : β × α} (h : q ∈ r.zip l) : q.swap ∈ l.zip r := by
  induction r generalizing l with
  | nil => cases h
  | cons b r ih =>
    cases l with
    | nil => cases h
    | cons a l =>
      obtain rfl | hq := List.mem_cons.mp h
      · exact List.mem_cons_self
      · exact List.mem_cons_of_mem _ (ih hq)

theorem eq_of_mem_zip_map {f : α → γ} {g : β → γ} {q : α × β} (h : l.map f = r.map g)
    (hq : q ∈ l.zip r) : f q.1 = g q.2 := by
  induction l generalizing r with
  | nil => cases hq
  | cons a l ih =>
    cases r with
    | nil => cases hq
    | cons b r =>
      obtain ⟨hhead, htail⟩ := List.cons.inj h
      obtain rfl | hq := List.mem_cons.mp hq
      · exact hhead
      · exact ih htail hq

theorem map_eq_map_of_zip {f : α → γ} {g : β → γ} (hlen : l.length = r.length)
    (h : ∀ q ∈ l.zip r, f q.1 = g q.2) : l.map f = r.map g := by
  induction l generalizing r with
  | nil =>
    obtain rfl := List.length_eq_zero_iff.mp hlen.symm
    rfl
  | cons a l ih =>
    cases r with
    | nil => cases hlen
    | cons b r =>
      have hhead := h (a, b) List.mem_cons_self
      have htail := ih (Nat.succ.inj hlen) fun q hq => h q (List.mem_cons_of_mem _ hq)
      rw [List.map_cons, List.map_cons, hhead, htail]

/-- In two lists of one length, every element has one opposite to it. -/
theorem forall_of_zip {P : α → Prop} {Q : β → Prop}
    (hlen : l.length = r.length) (h : ∀ q ∈ l.zip r, P q.1 ∧ Q q.2) :
    (∀ a ∈ l, P a) ∧ ∀ b ∈ r, Q b := by
  constructor
  · rw [← List.map_fst_zip hlen.le]
    intro a ha
    obtain ⟨q, hq, rfl⟩ := List.mem_map.mp ha
    exact (h q hq).1
  · rw [← List.map_snd_zip hlen.ge]
    intro b hb
    obtain ⟨q, hq, rfl⟩ := List.mem_map.mp hb
    exact (h q hq).2

/-- Between two elements that are opposite to each other there is one in a third list. -/
theorem exists_mem_zip_zip {l₁ l₂ l₃ : List α} (hlen : l₁.length = l₂.length)
    {q : α × α} (h : q ∈ l₁.zip l₃) (hlen' : l₂.length = l₃.length) :
    ∃ b, (q.1, b) ∈ l₁.zip l₂ ∧ (b, q.2) ∈ l₂.zip l₃ := by
  induction l₁ generalizing l₂ l₃ with
  | nil => cases h
  | cons a l₁ ih =>
    cases l₂ with
    | nil => cases hlen
    | cons b l₂ =>
      cases l₃ with
      | nil => cases hlen'
      | cons c l₃ =>
        obtain rfl | hq := List.mem_cons.mp h
        · exact ⟨b, List.mem_cons_self, List.mem_cons_self⟩
        · obtain ⟨b', h₁, h₂⟩ := ih (Nat.succ.inj hlen) hq (Nat.succ.inj hlen')
          exact ⟨b', List.mem_cons_of_mem _ h₁, List.mem_cons_of_mem _ h₂⟩

-- ====================
-- Relations
-- ====================

theorem exists_forall₂ (h : ∀ a ∈ l, ∃ b, R a b) : ∃ bs, List.Forall₂ R l bs := by
  induction l with
  | nil => exact ⟨[], .nil⟩
  | cons a l ih =>
    obtain ⟨b, hb⟩ := h a List.mem_cons_self
    obtain ⟨bs, hbs⟩ := ih fun a ha => h a (List.mem_cons_of_mem _ ha)
    exact ⟨b :: bs, .cons hb hbs⟩

/-- What holds of every pair from some number on holds of all of them from some number on. -/
theorem exists_forall₂_le {R : ℕ → α → β → Prop}
    (h : List.Forall₂ (fun a b => ∃ n₀, ∀ m, n₀ ≤ m → R m a b) l bs) :
    ∃ n₀, ∀ m, n₀ ≤ m → List.Forall₂ (R m) l bs := by
  induction h with
  | nil => exact ⟨0, fun _ _ => .nil⟩
  | cons hab _ ih =>
    obtain ⟨n₁, h₁⟩ := hab
    obtain ⟨n₂, h₂⟩ := ih
    refine ⟨max n₁ n₂, fun m hm => .cons ?_ ?_⟩
    · exact h₁ m ((Nat.le_max_left _ _).trans hm)
    · exact h₂ m ((Nat.le_max_right _ _).trans hm)

theorem mem_forall₂ (h : List.Forall₂ R l bs) :
    (∀ b ∈ bs, ∃ a ∈ l, R a b) ∧ ∀ a ∈ l, ∃ b ∈ bs, R a b := by
  induction h with
  | nil => exact ⟨fun _ hb => absurd hb List.not_mem_nil, fun _ ha => absurd ha List.not_mem_nil⟩
  | @cons a b l bs hab _ ih =>
    constructor
    · intro b' hb'
      obtain rfl | hb' := List.mem_cons.mp hb'
      · exact ⟨a, List.mem_cons_self, hab⟩
      · obtain ⟨a', ha', hR⟩ := ih.1 b' hb'
        exact ⟨a', List.mem_cons_of_mem _ ha', hR⟩
    · intro a' ha'
      obtain rfl | ha' := List.mem_cons.mp ha'
      · exact ⟨b, List.mem_cons_self, hab⟩
      · obtain ⟨b', hb', hR⟩ := ih.2 a' ha'
        exact ⟨b', List.mem_cons_of_mem _ hb', hR⟩

end Snix
