import Snix.Eval.Value.Compare
import Snix.Lib.BubbleSort

/-!
# Sorting

Lists are sorted with a comparator that is a function of the language. It may fail, or
answer with something that is no boolean, and the sort ends with that.

## Main definitions

- `askComparator` — one call of the comparator
- `sortStep`, `sortLoop`, `builtinSort` — the two loops, and the builtin

## Main results

- `sortLoop_eq` — the loops are a bubble sort
- `builtinSort_sorts` — the builtin ends with a permutation, in order and stable
-/

namespace Snix.Eval

/-- Whether an element is less than another, or what the builtin ends with. -/
def askComparator (vm : Vm) (comparator x y : Value) : Except (Except Fault Value) Bool :=
  match vm.callWith comparator [x, y] with
  | .error e => .error (.error (.error e))
  | .ok v =>
    match v.force vm with
    | .error e => .error (.error (.error e))
    | .ok v =>
      if v.isCatchable then .error (.ok v)
      else
        match v.asBool with
        | .error e =>
          .error (.error (.error (.withContext "evaluating comparator in `builtins.sort`" e)))
        | .ok b => .ok b

/-- The elements at a position and before it are compared, and swapped. -/
def sortStep (vm : Vm) (comparator : Value) (s : List Value × ℕ) (i : ℕ) :
    Except (Except Fault Value) (List Value × ℕ) :=
  match s.1[i]?, s.1[i - 1]? with
  | some x, some y =>
    match askComparator vm comparator x y with
    | .error r => .error r
    | .ok true => .ok ((s.1.set i y).set (i - 1) x, i)
    | .ok false => .ok s
  | _, _ => .error (.error .panic)

/-- The loop. None if there are more passes than the given number. -/
def sortLoop (vm : Vm) (comparator : Value) : ℕ → ℕ → List Value → Option (Except Fault Value)
  | 0, _, _ => none
  | n + 1, len, data =>
    match (List.range' 1 (len - 1)).foldlM (sortStep vm comparator) (data, 0) with
    | .error r => some r
    | .ok (data, newLen) =>
      if newLen = 0 then some (.ok (.list data)) else sortLoop vm comparator n newLen data

def builtinSort (vm : Vm) (n : ℕ) (comparator list : Value) : Option (Except Fault Value) :=
  match list.toList with
  | .error e => some (.error (.error e))
  | .ok data => sortLoop vm comparator n data.length data

-- ====================
-- The loops
-- ====================

variable {vm : Vm} {comparator : Value} {lt : Value → Value → Bool} {l : List Value} {n len : ℕ}

theorem swap_at (front : List Value) (cur x : Value) (rest : List Value) :
    ((front ++ cur :: x :: rest).set (front.length + 1) cur).set (front.length + 1 - 1) x =
      front ++ x :: cur :: rest := by
  induction front with
  | nil => rfl
  | cons v front ih =>
    simp only [List.cons_append, List.length_cons, List.set_cons_succ, Nat.add_sub_cancel] at ih ⊢
    rw [ih]

theorem sortStep_eq (front rest : List Value) (last : ℕ) {cur x : Value} {b : Bool}
    (h : askComparator vm comparator x cur = .ok b) :
    sortStep vm comparator (front ++ cur :: x :: rest, last) (front.length + 1) =
      .ok (if b then (front ++ x :: cur :: rest, front.length + 1)
        else (front ++ cur :: x :: rest, last)) := by
  have hx : (front ++ cur :: x :: rest)[front.length + 1]? = some x := by
    rw [List.getElem?_append_right (Nat.le_succ _), Nat.succ_sub (Nat.le_refl _), Nat.sub_self]
    rfl
  have hcur : (front ++ cur :: x :: rest)[front.length + 1 - 1]? = some cur := by
    rw [Nat.add_sub_cancel, List.getElem?_append_right (Nat.le_refl _), Nat.sub_self]
    rfl
  simp only [sortStep, hx, hcur, h]
  cases b with
  | false => rfl
  | true =>
    simp only [swap_at, if_true]

/-- A pass from a position on, where the element before it is the one that moves up. -/
theorem foldlM_sortStep (front : List Value) (cur : Value) (xs back : List Value) (last : ℕ)
    (h : ∀ x ∈ cur :: xs, ∀ y ∈ cur :: xs, askComparator vm comparator x y = .ok (lt x y)) :
    (List.range' (front.length + 1) xs.length).foldlM (sortStep vm comparator)
        (front ++ cur :: (xs ++ back), last) =
      .ok (front ++ (bubble lt (front.length + 1) cur xs).1 ++ back,
        if (bubble lt (front.length + 1) cur xs).2 = 0 then last
        else (bubble lt (front.length + 1) cur xs).2) := by
  induction xs generalizing front cur last with
  | nil =>
    show Except.ok (front ++ cur :: ([] ++ back), last) = .ok (front ++ [cur] ++ back, last)
    rw [List.append_assoc]
    rfl
  | cons x xs ih =>
    have hx : x ∈ cur :: x :: xs := List.mem_cons_of_mem _ List.mem_cons_self
    have hstep := sortStep_eq front (xs ++ back) last (h x hx cur List.mem_cons_self)
    rw [List.length_cons, List.range'_succ, List.foldlM_cons, List.cons_append, hstep, bubble]
    cases hlt : lt x cur with
    | true =>
      have hsub : cur :: xs ⊆ cur :: x :: xs :=
        List.cons_subset_cons cur (List.subset_cons_self x xs)
      have hrest := ih (front ++ [x]) cur (front.length + 1) fun y hy z hz =>
        h y (hsub hy) z (hsub hz)
      have hlast := bubble_last lt (front.length + 1 + 1) cur xs
      rw [List.length_append, List.length_singleton, List.append_assoc] at hrest
      simp only [if_true]
      refine hrest.trans ?_
      congr 1
      refine Prod.ext ?_ ?_
      · simp only [List.append_assoc, List.cons_append, List.nil_append]
      · show (if _ = 0 then _ else _) = if _ = 0 then _ else _
        split_ifs <;> omega
    | false =>
      have hrest := ih (front ++ [cur]) x last fun y hy z hz =>
        h y (List.mem_cons_of_mem _ hy) z (List.mem_cons_of_mem _ hz)
      rw [List.length_append, List.length_singleton, List.append_assoc] at hrest
      simp only [Bool.false_eq_true, if_false]
      refine hrest.trans ?_
      simp only [List.append_assoc, List.cons_append, List.nil_append]

/-- A pass of the builtin is one of a bubble sort. -/
theorem foldlM_pass (h : ∀ x ∈ l, ∀ y ∈ l, askComparator vm comparator x y = .ok (lt x y))
    (hlen : len ≤ l.length) :
    (List.range' 1 (len - 1)).foldlM (sortStep vm comparator) (l, 0) = .ok (pass lt len l) := by
  cases l with
  | nil =>
    rw [Nat.le_zero.mp hlen]
    rfl
  | cons x xs =>
    have hsub : x :: xs.take (len - 1) ⊆ x :: xs :=
      List.cons_subset_cons x (List.take_subset (len - 1) xs)
    have hpass := foldlM_sortStep [] x (xs.take (len - 1)) (xs.drop (len - 1)) 0 fun y hy z hz =>
      h y (hsub hy) z (hsub hz)
    have hlength : (xs.take (len - 1)).length = len - 1 := by
      rw [List.length_take]
      rw [List.length_cons] at hlen
      omega
    rw [hlength, List.take_append_drop, List.nil_append] at hpass
    refine hpass.trans ?_
    rw [pass]
    congr 2
    show (if _ = 0 then _ else _) = _
    split_ifs with hzero
    · exact hzero.symm
    · rfl

/-- The loops are a bubble sort. -/
theorem sortLoop_eq (h : ∀ x ∈ l, ∀ y ∈ l, askComparator vm comparator x y = .ok (lt x y))
    (hlen : len ≤ l.length) :
    sortLoop vm comparator n len l = (bubbleSort lt n len l).map fun data => .ok (.list data) := by
  induction n generalizing len l with
  | zero => rfl
  | succ n ih =>
    rw [sortLoop, bubbleSort, foldlM_pass h hlen]
    show (if (pass lt len l).2 = 0 then _ else _) = _
    split_ifs with hlast
    · rfl
    · have hperm := pass_perm lt len l
      have hshorter : (pass lt len l).2 ≤ (pass lt len l).1.length := by
        rw [hperm.length_eq]
        exact Nat.le_trans (Nat.le_of_lt (pass_last hlast)) hlen
      have hasks : ∀ x ∈ (pass lt len l).1, ∀ y ∈ (pass lt len l).1,
          askComparator vm comparator x y = .ok (lt x y) :=
        fun x hx y hy => h x (hperm.mem_iff.mp hx) y (hperm.mem_iff.mp hy)
      exact ih hasks hshorter

/-- With a comparator that answers with booleans, the sort ends with a permutation. If the answers
    are a strict weak order, the result is in order, and elements that are equal in it keep theirs. -/
theorem builtinSort_sorts (vm : Vm) (comparator : Value) (l : List Value) (lt : Value → Value → Bool)
    (h : ∀ x ∈ l, ∀ y ∈ l, askComparator vm comparator x y = .ok (lt x y)) :
    ∃ n l', builtinSort vm n comparator (.list l) = some (.ok (.list l')) ∧ l'.Perm l ∧
      (StrictWeak lt (· ∈ l) → (l'.Pairwise fun x y => lt y x = false) ∧
        ∀ x ∈ l, (l'.filter fun y => !lt x y && !lt y x) = l.filter fun y => !lt x y && !lt y x) := by
  obtain ⟨n, l', hn, hperm⟩ := exists_bubbleSort lt l.length l
  refine ⟨n, l', ?_, hperm, fun hw => ⟨?_, fun x hx => ?_⟩⟩
  · show sortLoop vm comparator n l.length l = _
    rw [sortLoop_eq h (Nat.le_refl _), hn]
    rfl
  · apply bubbleSort_sorted hw (fun x hx => hx) _ hn
    constructor
    · rw [List.drop_length]
      exact List.Pairwise.nil
    · rw [List.drop_length]
      exact fun _ _ b hb => absurd hb List.not_mem_nil
  · apply filter_bubbleSort _ hn
    rintro y hy z hz hlt ⟨hpy, hpz⟩
    simp only [Bool.and_eq_true, Bool.not_eq_true'] at hpy hpz
    -- both are equal to the same element, and so to each other
    have hnot := (hw.incomparable y x z hy hx hz hpy.2 hpy.1 hpz.1 hpz.2).1
    rw [hlt] at hnot
    cases hnot

/-- A machine with one function, the order of natural numbers. -/
def comparesNumbers : Vm where
  force _ := .ok .null
  pathImport p := .ok p
  call callable arg :=
    match callable, arg with
    | .builtin 0, .integer i => .ok (.builtin (i.toNat + 1))
    | .builtin (i + 1), .integer j => .ok (.bool (decide (i < j.toNat)))
    | _, _ => .ok .null
  formatFloat _ := []

/-- The number that a value is. -/
def Value.number : Value → ℕ
  | .integer i => i.toNat
  | _ => 0

theorem builtinSort_sorts_numbers :
    (∀ x ∈ [Value.integer 2, .integer 1, .integer 2], ∀ y ∈ [Value.integer 2, .integer 1, .integer 2],
      askComparator comparesNumbers (.builtin 0) x y = .ok (decide (x.number < y.number))) ∧
    ∃ n l', builtinSort comparesNumbers n (.builtin 0) (.list [.integer 2, .integer 1, .integer 2]) =
        some (.ok (.list l')) ∧ l'.Perm [.integer 2, .integer 1, .integer 2] := by
  have h : ∀ x ∈ [Value.integer 2, .integer 1, .integer 2],
      ∀ y ∈ [Value.integer 2, .integer 1, .integer 2],
        askComparator comparesNumbers (.builtin 0) x y = .ok (decide (x.number < y.number)) := by
    intro x hx y hy
    simp only [List.mem_cons, List.not_mem_nil, or_false] at hx hy
    obtain rfl | rfl | rfl := hx <;> obtain rfl | rfl | rfl := hy <;> rfl
  refine ⟨h, ?_⟩
  obtain ⟨n, l', hn, hperm, -⟩ := builtinSort_sorts comparesNumbers (.builtin 0) _
    (fun x y => decide (x.number < y.number)) h
  exact ⟨n, l', hn, hperm⟩

end Snix.Eval
