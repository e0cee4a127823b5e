import Mathlib.Data.List.Induction

/-!
# Worklists

Elements are taken from the front of a queue. One that is the same as an earlier one is left
out, and what another one leads to goes to the end of the queue. So the elements come out in
the order of their discovery, breadth first.

## Main definitions

- `firsts` — the elements of a list that are not the same as an earlier one
- `explore` — the loop
- `SameOn` — which elements are the same, as an equivalence

## Main results

- `explore_eq_firsts` — the result is what the start and the results lead to, in the order of
  discovery
- `exists_explore` — the loop ends if there are finitely many elements that are not the same
-/

namespace Snix

variable {α : Type} (same : α → α → Bool) (expand : α → List α)

/-- An element is added if it is not the same as one that is there. -/
def addNew (done : List α) (x : α) : List α :=
  if done.any fun d => same d x then done else done ++ [x]

/-- The elements that are not the same as an earlier one. -/
def firsts (l : List α) : List α := l.foldl (addNew same) []

/-- The loop. None if there are more rounds than the given number. -/
def explore : ℕ → List α → List α → Option (List α)
  | 0, _, _ => none
  | _ + 1, [], done => some done
  | n + 1, x :: queue, done =>
    if done.any fun d => same d x then explore n queue done
    else explore n (queue ++ expand x) (done ++ [x])

/-- Being the same is an equivalence. -/
structure SameOn (P : α → Prop) : Prop where
  refl : ∀ a, P a → same a a = true
  symm : ∀ a b, P a → P b → same a b = true → same b a = true
  trans : ∀ a b c, P a → P b → P c → same a b = true → same b c = true → same a c = true

variable {same expand} {P : α → Prop} {l done queue r : List α} {x y : α} {n : ℕ}

-- ====================
-- First occurrences
-- ====================

theorem firsts_append_singleton : firsts same (l ++ [x]) = addNew same (firsts same l) x := by
  rw [firsts, List.foldl_append]
  rfl

theorem subset_addNew (h : y ∈ done) : y ∈ addNew same done x := by
  unfold addNew
  split_ifs
  · exact h
  · exact List.mem_append_left _ h

theorem firsts_subset (h : y ∈ firsts same l) : y ∈ l := by
  induction l using List.reverseRecOn with
  | nil => exact h
  | append_singleton l x ih =>
    rw [firsts_append_singleton, addNew] at h
    split_ifs at h
    · exact List.mem_append_left _ (ih h)
    · obtain h | h := List.mem_append.mp h
      · exact List.mem_append_left _ (ih h)
      · exact List.mem_append_right _ h

/-- No element is the same as an earlier one. -/
theorem pairwise_firsts (l : List α) : (firsts same l).Pairwise fun a b => same a b = false := by
  induction l using List.reverseRecOn with
  | nil => exact List.Pairwise.nil
  | append_singleton l x ih =>
    rw [firsts_append_singleton, addNew]
    split_ifs with hany
    · exact ih
    · rw [List.pairwise_append]
      refine ⟨ih, List.pairwise_singleton _ _, fun a ha b hb => ?_⟩
      rw [List.mem_singleton.mp hb]
      exact Bool.eq_false_iff.mpr fun hsame => hany (List.any_eq_true.mpr ⟨a, ha, hsame⟩)

/-- Every element is the same as one that is kept. -/
theorem exists_mem_firsts (h : SameOn same P) (hl : ∀ a ∈ l, P a) (hx : x ∈ l) :
    ∃ d ∈ firsts same l, same d x = true := by
  induction l using List.reverseRecOn with
  | nil => cases hx
  | append_singleton l y ih =>
    rw [firsts_append_singleton]
    obtain hx | hx := List.mem_append.mp hx
    · obtain ⟨d, hd, hsame⟩ := ih (fun a ha => hl a (List.mem_append_left _ ha)) hx
      exact ⟨d, subset_addNew hd, hsame⟩
    · obtain rfl := List.mem_singleton.mp hx
      unfold addNew
      split_ifs with hany
      · exact List.any_eq_true.mp hany
      · refine ⟨x, List.mem_append_right _ List.mem_cons_self, h.refl x ?_⟩
        exact hl x (List.mem_append_right _ List.mem_cons_self)

-- ====================
-- The loop
-- ====================

/-- What was taken from the queue, and what is left of it, is the start and what the elements that
    are done lead to. By induction on the rounds. -/
theorem explore_eq_firsts_of {taken start : List α} (hdone : done = firsts same taken)
    (hqueue : taken ++ queue = start ++ done.flatMap expand)
    (h : explore same expand n queue done = some r) :
    r = firsts same (start ++ r.flatMap expand) := by
  induction n generalizing queue done taken with
  | zero => cases h
  | succ n ih =>
    cases queue with
    | nil =>
      cases h
      rw [← hqueue, List.append_nil]
      exact hdone
    | cons x queue =>
      rw [explore] at h
      have htaken : firsts same (taken ++ [x]) = addNew same done x := by
        rw [firsts_append_singleton, hdone]
      unfold addNew at htaken
      split_ifs at h htaken
      · refine ih htaken.symm ?_ h
        rw [List.append_assoc]
        exact hqueue
      · refine ih htaken.symm ?_ h
        rw [List.flatMap_append, List.flatMap_singleton, ← List.append_assoc start, ← hqueue]
        simp only [List.append_assoc, List.cons_append, List.nil_append]

/-- The result of the loop, in the order of discovery. -/
theorem explore_eq_firsts {start : List α} (h : explore same expand n start [] = some r) :
    r = firsts same (start ++ r.flatMap expand) := by
  have hqueue : [] ++ start = start ++ ([] : List α).flatMap expand := by
    rw [List.nil_append, List.flatMap_nil, List.append_nil]
  refine explore_eq_firsts_of ?_ hqueue h
  rfl

/-- The representatives that nothing which is done is the same as. -/
def missing (same : α → α → Bool) (reps done : List α) : List α :=
  reps.filter fun k => !done.any fun d => same d k

/-- An element that is not the same as an earlier one takes away a representative. -/
theorem length_missing_lt {reps : List α} {k : α} (h : SameOn same P) (hreps : ∀ k ∈ reps, P k)
    (hdone : ∀ d ∈ done, P d) (hx : P x) (hk : k ∈ reps) (hkx : same k x = true)
    (hnew : ¬(done.any fun d => same d x) = true) :
    (missing same reps (done ++ [x])).length < (missing same reps done).length := by
  have hsub : (missing same reps (done ++ [x])) =
      (missing same reps done).filter fun k => !same x k := by
    rw [missing, missing, List.filter_filter]
    apply List.filter_congr
    intro k _
    rw [List.any_append, List.any_cons, List.any_nil, Bool.or_false, Bool.not_or, Bool.and_comm]
  have hmem : k ∈ missing same reps done := by
    rw [missing, List.mem_filter]
    refine ⟨hk, ?_⟩
    rw [Bool.not_eq_true', Bool.eq_false_iff]
    intro hany
    obtain ⟨d, hd, hdk⟩ := List.any_eq_true.mp hany
    exact hnew (List.any_eq_true.mpr
      ⟨d, hd, h.trans d k x (hdone d hd) (hreps k hk) hx hdk hkx⟩)
  rw [hsub]
  refine List.length_filter_lt_length_iff_exists.mpr ⟨k, hmem, ?_⟩
  rw [h.symm k x (hreps k hk) hx hkx]
  decide

/-- The loop ends if every element is the same as one of finitely many. By induction on those that
    are missing, and on the length of the queue. -/
theorem exists_explore {reps : List α} (h : SameOn same P) (hreps : ∀ k ∈ reps, P k)
    (hfin : ∀ a, P a → ∃ k ∈ reps, same k a = true) (hexpand : ∀ a, P a → ∀ b ∈ expand a, P b)
    (hqueue : ∀ a ∈ queue, P a) (hdone : ∀ a ∈ done, P a) :
    ∃ n r, explore same expand n queue done = some r ∧ ∀ a ∈ r, P a := by
  induction hm : (missing same reps done).length using Nat.strongRecOn generalizing queue done with
  | ind m ih =>
    induction queue with
    | nil => exact ⟨1, done, rfl, hdone⟩
    | cons x queue ihq =>
      have hx := hqueue x List.mem_cons_self
      have hrest : ∀ a ∈ queue, P a := fun a ha => hqueue a (List.mem_cons_of_mem _ ha)
      by_cases hany : (done.any fun d => same d x) = true
      · obtain ⟨n, r, hr, hP⟩ := ihq hrest
        exact ⟨n + 1, r, by rw [explore, if_pos hany, hr], hP⟩
      · obtain ⟨k, hk, hkx⟩ := hfin x hx
        have hless := length_missing_lt h hreps hdone hx hk hkx hany
        have hqueue' : ∀ a ∈ queue ++ expand x, P a := by
          intro a ha
          obtain ha | ha := List.mem_append.mp ha
          · exact hrest a ha
          · exact hexpand x hx a ha
        have hdone' : ∀ a ∈ done ++ [x], P a := by
          intro a ha
          obtain ha | ha := List.mem_append.mp ha
          · exact hdone a ha
          · exact List.mem_singleton.mp ha ▸ hx
        obtain ⟨n, r, hr, hP⟩ := ih _ (hm ▸ hless) hqueue' hdone' rfl
        exact ⟨n + 1, r, by rw [explore, if_neg hany, hr], hP⟩

end Snix
