import Mathlib.Algebra.BigOperators.Group.List.Basic
import Mathlib.Algebra.GroupWithZero.Nat
import Mathlib.Data.List.Basic

/-!
# Segments laid out one after the other

A list of segments, each with the offset it begins at. A segment may be empty; then
the next one begins at the same offset.

## Main definitions

- `layout` — the segments with their offsets
- `extent`, `offsetAt` — the length of all segments, and of the first ones
- `Covers` — a position lies within a segment
- `IsBinarySearch` — what is known of a search in a sorted list

## Main results

- `Covers.unique` — at most one segment covers a position
- `drop_flatMap` — the contents from a position on
-/

namespace Snix

section

variable {α β : Type} (len : α → ℕ)

/-- The segments, with the offset where each begins. -/
def layout : ℕ → List α → List (ℕ × α)
  | _, [] => []
  | off, a :: l => (off, a) :: layout (off + len a) l

/-- The length of all segments. -/
def extent (l : List α) : ℕ := (l.map len).sum

/-- The offset where a segment begins. -/
def offsetAt (l : List α) (i : ℕ) : ℕ := extent len (l.take i)

/-- The position lies within the segment. -/
def Covers (l : List α) (pos i : ℕ) : Prop :=
  ∃ a, l[i]? = some a ∧ offsetAt len l i ≤ pos ∧ pos < offsetAt len l i + len a

end

variable {α β : Type} {len : α → ℕ} {l : List α} {off pos i j : ℕ} {a : α}

@[simp] theorem extent_nil : extent len [] = 0 := rfl

theorem extent_cons (a : α) (l : List α) : extent len (a :: l) = len a + extent len l := List.sum_cons

theorem extent_append (l l' : List α) : extent len (l ++ l') = extent len l + extent len l' := by
  rw [extent, List.map_append, List.sum_append]
  rfl

@[simp] theorem offsetAt_zero : offsetAt len l 0 = 0 := rfl

theorem offsetAt_of_length_le (h : l.length ≤ i) : offsetAt len l i = extent len l := by
  rw [offsetAt, List.take_of_length_le h]

theorem offsetAt_succ (h : l[i]? = some a) : offsetAt len l (i + 1) = offsetAt len l i + len a := by
  rw [offsetAt, List.take_add_one, h, Option.toList_some, extent_append, extent_cons]
  rfl

theorem offsetAt_le_succ (l : List α) (i : ℕ) : offsetAt len l i ≤ offsetAt len l (i + 1) := by
  cases h : l[i]? with
  | none =>
    have hle := List.getElem?_eq_none_iff.mp h
    apply Nat.le_of_eq
    rw [offsetAt_of_length_le hle, offsetAt_of_length_le (Nat.le_succ_of_le hle)]
  | some a =>
    rw [offsetAt_succ h]
    exact Nat.le_add_right _ _

theorem offsetAt_mono (h : i ≤ j) : offsetAt len l i ≤ offsetAt len l j := by
  induction h with
  | refl => exact Nat.le_refl _
  | step _ ih => exact Nat.le_trans ih (offsetAt_le_succ l _)

theorem offsetAt_le_extent (l : List α) (i : ℕ) : offsetAt len l i ≤ extent len l := by
  rw [← offsetAt_of_length_le (Nat.le_max_right i l.length)]
  exact offsetAt_mono (Nat.le_max_left i l.length)

theorem getElem?_layout (off : ℕ) (l : List α) (i : ℕ) :
    (layout len off l)[i]? = l[i]?.map fun a => (off + offsetAt len l i, a) := by
  induction l generalizing off i with
  | nil => rfl
  | cons b l ih =>
    cases i with
    | zero => rfl
    | succ i =>
      rw [layout, List.getElem?_cons_succ, List.getElem?_cons_succ, ih]
      simp only [offsetAt, List.take_succ_cons, extent_cons, Nat.add_assoc]

theorem length_layout (off : ℕ) (l : List α) : (layout len off l).length = l.length := by
  induction l generalizing off with
  | nil => rfl
  | cons b l ih => rw [layout, List.length_cons, List.length_cons, ih]

theorem layout_append (off : ℕ) (l l' : List α) :
    layout len off (l ++ l') = layout len off l ++ layout len (off + extent len l) l' := by
  induction l generalizing off with
  | nil => rfl
  | cons b l ih => rw [List.cons_append, layout, layout, ih, extent_cons, Nat.add_assoc, List.cons_append]

theorem getElem?_offsets (l : List α) (i : ℕ) :
    ((layout len 0 l).map Prod.fst)[i]? = if i < l.length then some (offsetAt len l i) else none := by
  rw [List.getElem?_map, getElem?_layout, Nat.zero_add]
  split_ifs with h
  · rw [List.getElem?_eq_getElem h]
    rfl
  · rw [List.getElem?_eq_none (Nat.not_lt.mp h)]
    rfl

theorem sorted_offsets (l : List α) : ((layout len 0 l).map Prod.fst).Pairwise (· ≤ ·) := by
  rw [List.pairwise_iff_getElem]
  intro i j hi hj hij
  have hget : ∀ k (hk : k < ((layout len 0 l).map Prod.fst).length),
      ((layout len 0 l).map Prod.fst)[k] = offsetAt len l k := by
    intro k hk
    have h := @getElem?_offsets _ len l k
    rw [List.getElem?_eq_getElem hk, if_pos (by simpa [length_layout] using hk)] at h
    exact Option.some.inj h
  rw [hget i hi, hget j hj]
  exact offsetAt_mono (Nat.le_of_lt hij)

/-- At most one segment covers a position. -/
theorem Covers.unique (hi : Covers len l pos i) (hj : Covers len l pos j) : i = j := by
  obtain ⟨a, ha, hle, hlt⟩ := hi
  obtain ⟨b, hb, hle', hlt'⟩ := hj
  rw [← offsetAt_succ ha] at hlt
  rw [← offsetAt_succ hb] at hlt'
  rcases Nat.lt_trichotomy i j with hij | hij | hij
  · have hmono : offsetAt len l (i + 1) ≤ offsetAt len l j := offsetAt_mono hij
    omega
  · exact hij
  · have hmono : offsetAt len l (j + 1) ≤ offsetAt len l i := offsetAt_mono hij
    omega

/-- Some segment covers a position before the end. -/
theorem exists_covers (h : pos < extent len l) : ∃ i, Covers len l pos i := by
  induction l generalizing pos with
  | nil => cases h
  | cons b l ih =>
    by_cases hb : pos < len b
    · exact ⟨0, b, rfl, Nat.zero_le pos, by simpa using hb⟩
    · rw [extent_cons] at h
      obtain ⟨i, a, ha, hle, hlt⟩ := @ih (pos - len b) (by omega)
      refine ⟨i + 1, a, ha, ?_, ?_⟩
      · rw [offsetAt, List.take_succ_cons, extent_cons]
        exact (Nat.le_sub_iff_add_le' (Nat.not_lt.mp hb)).mp hle
      · rw [offsetAt, List.take_succ_cons, extent_cons]
        rw [offsetAt] at hlt
        omega

/-- The contents from a position within a segment on. -/
theorem drop_flatMap {contents : α → List β} (hlen : ∀ a ∈ l, (contents a).length = len a)
    (ha : l[i]? = some a) (k : ℕ) (hk : k ≤ len a) :
    (l.flatMap contents).drop (offsetAt len l i + k) =
      (contents a).drop k ++ (l.drop (i + 1)).flatMap contents := by
  have hsplit : l = l.take i ++ a :: l.drop (i + 1) := by
    obtain ⟨hi, hget⟩ := List.getElem?_eq_some_iff.mp ha
    rw [← hget, List.cons_getElem_drop_succ, List.take_append_drop]
  have hfirst : ((l.take i).flatMap contents).length = offsetAt len l i := by
    rw [List.length_flatMap, offsetAt, extent]
    congr 1
    apply List.map_congr_left
    intro b hb
    exact hlen b (List.mem_of_mem_take hb)
  have hlast : (contents a).length = len a := hlen a (List.mem_of_getElem? ha)
  have hflat : l.flatMap contents =
      (l.take i).flatMap contents ++ (contents a ++ (l.drop (i + 1)).flatMap contents) := by
    conv_lhs => rw [hsplit]
    rw [List.flatMap_append, List.flatMap_cons]
  rw [hflat, List.drop_append, hfirst, Nat.add_sub_cancel_left,
    List.drop_of_length_le (by omega), List.nil_append, List.drop_append_of_le_length (by omega)]

/-- The results of comparing the elements of a sorted list with one that is searched for. -/
def OrderedFor (l : List Ordering) : Prop :=
  l.Pairwise fun o o' => (o ≠ .lt → o' ≠ .lt) ∧ (o = .gt → o' = .gt)

/-- What is known of a binary search, told from the results of the comparisons: it finds any of the
    elements that compare equal, or the place where there would be one. -/
structure IsBinarySearch (search : List Ordering → Except ℕ ℕ) : Prop where
  found : ∀ l i, OrderedFor l → search l = .ok i → l[i]? = some .eq
  insertion : ∀ l i, OrderedFor l → search l = .error i →
    i ≤ l.length ∧ ∀ (j : ℕ) o, l[j]? = some o → (j < i → o = .lt) ∧ (i ≤ j → o = .gt)

/-- A search that finds the last of the elements. -/
def searchLast (l : List Ordering) : Except ℕ ℕ :=
  let n := (l.takeWhile (· ≠ .gt)).length
  if 0 < n ∧ l[n - 1]? = some .eq then .ok (n - 1) else .error n

theorem takeWhile_spec {l : List Ordering} (hl : OrderedFor l) {j : ℕ} {o : Ordering}
    (ho : l[j]? = some o) : j < (l.takeWhile (· ≠ .gt)).length ↔ o ≠ .gt := by
  induction l generalizing j with
  | nil => cases ho
  | cons z l ih =>
    obtain ⟨hz, hl⟩ := List.pairwise_cons.mp hl
    by_cases hgt : z = .gt
    · rw [List.takeWhile_cons_of_neg (by simpa using hgt)]
      refine iff_of_false (Nat.not_lt_zero _) ?_
      rw [not_not]
      cases j with
      | zero => exact (Option.some.inj ho).symm.trans hgt
      | succ j => exact (hz o (List.mem_of_getElem? ho)).2 hgt
    · rw [List.takeWhile_cons_of_pos (by simpa using hgt), List.length_cons]
      cases j with
      | zero =>
        refine iff_of_true (Nat.succ_pos _) ?_
        rw [← Option.some.inj ho]
        exact hgt
      | succ j =>
        rw [Nat.succ_lt_succ_iff]
        exact ih hl ho

theorem isBinarySearch_searchLast : IsBinarySearch searchLast where
  found l i _ h := by
    unfold searchLast at h
    dsimp only at h
    split_ifs at h with hfound
    cases h
    exact hfound.2
  insertion l i hl h := by
    unfold searchLast at h
    dsimp only at h
    split_ifs at h with hfound
    cases h
    refine ⟨(List.takeWhile_sublist _).length_le, fun j o ho => ⟨fun hj => ?_, fun hj => ?_⟩⟩
    · have hlen : (l.takeWhile (· ≠ .gt)).length ≤ l.length := (List.takeWhile_sublist _).length_le
      have hn : (l.takeWhile (· ≠ .gt)).length - 1 < l.length := by omega
      have hlast := List.getElem?_eq_getElem hn
      -- the last that is not greater is not equal either
      have hlt : l[(l.takeWhile (· ≠ .gt)).length - 1] = .lt := by
        have hne := (takeWhile_spec hl hlast).mp (by omega)
        cases ho' : l[(l.takeWhile (· ≠ .gt)).length - 1] with
        | lt => rfl
        | gt => exact absurd ho' hne
        | eq => exact absurd ⟨Nat.zero_lt_of_lt hj, hlast.trans (congrArg some ho')⟩ hfound
      obtain ⟨hjlt, hjo⟩ := List.getElem?_eq_some_iff.mp ho
      rcases Nat.lt_or_ge j ((l.takeWhile (· ≠ .gt)).length - 1) with hj' | hj'
      · by_contra hne
        rw [← hjo] at hne
        exact (List.pairwise_iff_getElem.mp hl j _ hjlt hn hj').1 hne hlt
      · have hjn : j = (l.takeWhile (· ≠ .gt)).length - 1 := by omega
        subst hjn
        exact hjo.symm.trans hlt
    · have hnot := mt (takeWhile_spec hl ho).mpr (Nat.not_lt.mpr hj)
      exact not_not.mp hnot

section

variable {search : List Ordering → Except ℕ ℕ}

end

end Snix
