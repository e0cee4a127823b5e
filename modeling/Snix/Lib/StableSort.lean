import Mathlib.Data.List.Sort

/-!
# Stable sorting by a key

A stable sort keeps the order of elements whose keys are equal. The result is
therefore determined, and determines, for every key the elements that have it,
in their original order.

## Main definitions

- `sortByKey` — the stable sort

## Main results

- `filter_sortByKey` — the elements of one key keep their order
- `sortByKey_eq_iff` — two lists sort to the same list exactly when they agree
  on every key
-/

namespace Snix

variable {α κ : Type} {cmp : κ → κ → Ordering} {f : α → κ}

/-- The order of two elements is the order of their keys. -/
def keyLe (cmp : κ → κ → Ordering) (f : α → κ) (a b : α) : Prop := (cmp (f a) (f b)).isLE = true

instance : DecidableRel (keyLe cmp f) := fun a b =>
  inferInstanceAs (Decidable ((cmp (f a) (f b)).isLE = true))

/-- Sorts by a key; elements of equal keys keep their order. -/
def sortByKey (cmp : κ → κ → Ordering) (f : α → κ) (l : List α) : List α :=
  l.insertionSort (keyLe cmp f)

instance [Std.TransCmp cmp] : IsTrans α (keyLe cmp f) :=
  ⟨fun _ _ _ => Std.TransCmp.isLE_trans⟩

instance [Std.TransCmp cmp] : Std.Total (keyLe cmp f) := by
  refine ⟨fun a b => ?_⟩
  rcases h : cmp (f a) (f b) with _ | _ | _
  · exact .inl (by simp [keyLe, h])
  · exact .inl (by simp [keyLe, h])
  · exact .inr (by simp [keyLe, Std.OrientedCmp.gt_iff_lt.mp h])

theorem keyLe_of_eq [Std.TransCmp cmp] {a b : α} (h : f a = f b) : keyLe cmp f a b := by
  have hrefl : cmp (f b) (f b) = .eq := Std.ReflCmp.compare_self
  simp [keyLe, h, hrefl]

theorem pairwise_sortByKey [Std.TransCmp cmp] (l : List α) :
    (sortByKey cmp f l).Pairwise (keyLe cmp f) :=
  List.pairwise_insertionSort _ l

section Lawful

variable [Std.TransCmp cmp] [DecidableEq κ]

/-- The elements of one key keep their order. -/
theorem filter_sortByKey (k : κ) (l : List α) :
    (sortByKey cmp f l).filter (fun a => f a = k) = l.filter fun a => f a = k := by
  have hsorted : (l.filter fun a => f a = k).Pairwise (keyLe cmp f) := by
    refine List.pairwise_iff_forall_sublist.mpr fun {a b} hab => ?_
    have ha : f a = k := by simpa using (List.mem_filter.mp (hab.subset (by simp))).2
    have hb : f b = k := by simpa using (List.mem_filter.mp (hab.subset (by simp))).2
    exact keyLe_of_eq (ha.trans hb.symm)
  have hsub : List.Sublist (l.filter fun a => f a = k) (sortByKey cmp f l) :=
    List.sublist_insertionSort hsorted List.filter_sublist
  have hsub := hsub.filter fun a => f a = k
  rw [List.filter_filter] at hsub
  simp only [Bool.and_self] at hsub
  have hperm : (sortByKey cmp f l).Perm l := List.perm_insertionSort _ l
  exact (hsub.eq_of_length (hperm.filter _).length_eq.symm).symm

variable [Std.LawfulEqCmp cmp]

/-- Sorted lists that agree on every key are equal. -/
theorem eq_of_filter_eq {l l' : List α} (hl : l.Pairwise (keyLe cmp f))
    (hl' : l'.Pairwise (keyLe cmp f))
    (h : ∀ k, l.filter (fun a => f a = k) = l'.filter fun a => f a = k) : l = l' := by
  induction l generalizing l' with
  | nil =>
    cases l' with
    | nil => rfl
    | cons b t' => simpa using h (f b)
  | cons a t ih =>
    cases l' with
    | nil => simpa using h (f a)
    | cons b t' =>
      obtain ⟨ha, ht⟩ := List.pairwise_cons.mp hl
      obtain ⟨hb, ht'⟩ := List.pairwise_cons.mp hl'
      -- Each head occurs in the other list, so both keys are the least.
      have hab : keyLe cmp f a b := by
        have hmem : b ∈ (a :: t).filter fun x => f x = f b := by rw [h]; simp
        rcases List.mem_cons.mp (List.mem_filter.mp hmem).1 with rfl | hmem
        · exact keyLe_of_eq rfl
        · exact ha b hmem
      have hba : keyLe cmp f b a := by
        have hmem : a ∈ (b :: t').filter fun x => f x = f a := by rw [← h]; simp
        rcases List.mem_cons.mp (List.mem_filter.mp hmem).1 with rfl | hmem
        · exact keyLe_of_eq rfl
        · exact hb a hmem
      have heq : cmp (f a) (f b) = .eq := Std.OrientedCmp.isLE_antisymm hab hba
      have hkey : f a = f b := Std.LawfulEqCmp.eq_of_compare heq
      have hhead := h (f a)
      simp only [List.filter_cons, decide_true, if_true, hkey, List.cons.injEq] at hhead
      obtain ⟨rfl, htail⟩ := hhead
      refine congrArg (a :: ·) (ih ht ht' fun k => ?_)
      have hk := h k
      simp only [List.filter_cons] at hk
      split at hk
      · exact (List.cons.inj hk).2
      · exact hk

/-- Two lists sort to the same list exactly when they agree on every key. -/
theorem sortByKey_eq_iff {l l' : List α} :
    sortByKey cmp f l = sortByKey cmp f l' ↔
      ∀ k, l.filter (fun a => f a = k) = l'.filter fun a => f a = k := by
  constructor
  · intro h k
    have hl : (sortByKey cmp f l).filter (fun a => f a = k) = _ := filter_sortByKey k l
    rw [← hl, h, filter_sortByKey]
  · intro h
    refine eq_of_filter_eq (pairwise_sortByKey l) (pairwise_sortByKey l') fun k => ?_
    rw [filter_sortByKey, filter_sortByKey, h]

end Lawful

end Snix
