import Mathlib.Data.List.Basic
import Mathlib.Data.List.Induction

/-!
# Lists that are admitted element by element

A checker takes the elements of a list one by one, keeps a state and stops at the
first element it refuses. `Decides` says what it decides: each element by a
condition on the elements before it. The state then only has to be described as a
function of what was admitted so far.

## Main definitions

- `Along` — a condition that holds at every element, given those before it
- `Decides` — a step that refuses an element exactly if a condition fails

## Main results

- `Decides.inv_of_run` — the invariant after a run
- `Decides.run_iff` — what is admitted as a whole
-/

namespace Snix

variable {α σ ε β : Type}

/-- Every element meets `P` with what stands before it. -/
def Along (P : List α → α → Prop) (l : List α) : Prop :=
  ∀ before a after, l = before ++ a :: after → P before a

theorem along_nil {P : List α → α → Prop} : Along P [] := by
  intro before a after h
  simp at h

theorem along_concat {P : List α → α → Prop} {l : List α} {a : α} :
    Along P (l ++ [a]) ↔ Along P l ∧ P l a := by
  constructor
  · intro h
    constructor
    · intro before b after heq
      apply h before b (after ++ [a])
      rw [heq, List.append_assoc, List.cons_append]
    · exact h l a [] rfl
  · rintro ⟨hl, ha⟩ before b after heq
    rcases List.eq_nil_or_concat after with rfl | ⟨after', c, rfl⟩
    · obtain ⟨rfl, hb⟩ := List.append_inj' heq rfl
      cases hb
      exact ha
    · rw [List.concat_eq_append, ← List.cons_append, ← List.append_assoc] at heq
      obtain ⟨hinit, -⟩ := List.append_inj' heq rfl
      exact hl before b after' hinit

theorem Along.mono {P Q : List α → α → Prop} {l : List α} (h : Along P l)
    (himp : ∀ before a after, l = before ++ a :: after → P before a → Q before a) : Along Q l :=
  fun before a after heq => himp before a after heq (h before a after heq)

theorem along_map {f : β → α} {P : List α → α → Prop} {l : List β}
    (h : Along (fun before b => P (before.map f) (f b)) l) : Along P (l.map f) := by
  intro before a after heq
  obtain ⟨l₁, l₂, rfl, rfl, hrest⟩ := List.map_eq_append_iff.mp heq
  obtain ⟨b, l₃, rfl, rfl, -⟩ := List.map_eq_cons_iff.mp hrest
  exact h l₁ b l₃ rfl

/-- While `inv` relates the state to what was admitted, `step` admits an element of `l` exactly
    if `P` holds, and keeps the invariant. -/
structure Decides (l : List α) (step : σ → α → Except ε σ) (inv : List α → σ → Prop)
    (P : List α → α → Prop) : Prop where
  sound : ∀ before s a s', before ⊆ l → a ∈ l → inv before s → step s a = .ok s' →
    P before a ∧ inv (before ++ [a]) s'
  complete : ∀ before s a, before ⊆ l → a ∈ l → inv before s → P before a →
    ∃ s', step s a = .ok s'

namespace Decides

variable {l : List α} {step : σ → α → Except ε σ} {inv : List α → σ → Prop}
  {P : List α → α → Prop} {s₀ : σ}

theorem foldlM_concat (step : σ → α → Except ε σ) (s : σ) (m : List α) (a : α) :
    (m ++ [a]).foldlM step s = m.foldlM step s >>= fun s' => step s' a := by
  simp only [List.foldlM_append, List.foldlM_cons, List.foldlM_nil, bind_pure]

theorem along_and_inv (h : Decides l step inv P) (h₀ : inv [] s₀) {m : List α} (hm : m ⊆ l)
    {s : σ} (hrun : m.foldlM step s₀ = .ok s) : Along P m ∧ inv m s := by
  induction m using List.reverseRecOn generalizing s with
  | nil =>
    cases hrun
    exact ⟨along_nil, h₀⟩
  | append_singleton m a ih =>
    obtain ⟨hml, hal⟩ := List.append_subset.mp hm
    rw [foldlM_concat] at hrun
    cases hmid : m.foldlM step s₀ with
    | error e =>
      rw [hmid] at hrun
      cases hrun
    | ok s' =>
      rw [hmid] at hrun
      obtain ⟨halong, hinv⟩ := ih hml hmid
      obtain ⟨ha, hinv'⟩ := h.sound m s' a s hml (hal (List.mem_singleton_self a)) hinv hrun
      exact ⟨along_concat.mpr ⟨halong, ha⟩, hinv'⟩

/-- What a run admitted satisfies the condition throughout, and its last state is known. -/
theorem inv_of_run (h : Decides l step inv P) (h₀ : inv [] s₀) {s : σ}
    (hrun : l.foldlM step s₀ = .ok s) : Along P l ∧ inv l s :=
  h.along_and_inv h₀ (List.Subset.refl l) hrun

/-- A list that satisfies the condition throughout is admitted. -/
theorem exists_run (h : Decides l step inv P) (h₀ : inv [] s₀) {m : List α} (hm : m ⊆ l)
    (halong : Along P m) : ∃ s, m.foldlM step s₀ = .ok s := by
  induction m using List.reverseRecOn with
  | nil => exact ⟨s₀, rfl⟩
  | append_singleton m a ih =>
    obtain ⟨hml, hal⟩ := List.append_subset.mp hm
    obtain ⟨hbefore, ha⟩ := along_concat.mp halong
    obtain ⟨s, hs⟩ := ih hml hbefore
    obtain ⟨-, hinv⟩ := h.along_and_inv h₀ hml hs
    obtain ⟨s', hs'⟩ := h.complete m s a hml (hal (List.mem_singleton_self a)) hinv ha
    refine ⟨s', ?_⟩
    rw [foldlM_concat, hs]
    exact hs'

/-- A list passes a checker that ends with `finish` exactly if every element meets `P` and the
    whole list meets `Q`. -/
theorem run_iff (h : Decides l step inv P) (h₀ : inv [] s₀) {finish : σ → Except ε β} {Q : Prop}
    (hfinish : ∀ s, Along P l → inv l s → ((∃ b, finish s = .ok b) ↔ Q)) :
    (∃ b, (l.foldlM step s₀ >>= finish) = .ok b) ↔ Along P l ∧ Q := by
  constructor
  · rintro ⟨b, hb⟩
    cases hrun : l.foldlM step s₀ with
    | error e =>
      rw [hrun] at hb
      cases hb
    | ok s =>
      rw [hrun] at hb
      obtain ⟨halong, hinv⟩ := h.inv_of_run h₀ hrun
      exact ⟨halong, (hfinish s halong hinv).mp ⟨b, hb⟩⟩
  · rintro ⟨halong, hq⟩
    obtain ⟨s, hs⟩ := h.exists_run h₀ (List.Subset.refl l) halong
    obtain ⟨-, hinv⟩ := h.inv_of_run h₀ hs
    obtain ⟨b, hb⟩ := (hfinish s halong hinv).mpr hq
    refine ⟨b, ?_⟩
    rw [hs]
    exact hb

end Decides

end Snix
