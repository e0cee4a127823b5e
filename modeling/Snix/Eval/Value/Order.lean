import Snix.Eval.Value.Same
import Snix.Lib.Lex

/-!
# The laws of equality and order

On data, equality is being the same, and is decided. The order of integers, strings and lists of
them is the lexicographic one, wherever it has a result.

## Main definitions

- `Datum` — finite data without functions
- `Comparable` — integers, strings and lists of them
- `Lex` — the lexicographic order

## Main results

- `Datum.eqReturns_iff` — equality of data is decided
- `Comparable.runs` — a comparison as part of a longer one
- `nixEq_nixCmp_lawful` — the laws
-/

namespace Snix.Eval

/-- Finite data of null, booleans, integers, strings, paths, lists and attribute sets that do not
    call themselves derivations. -/
inductive Datum (vm : Vm) : Value → Prop
  | null {v : Value} (h : v.force vm = .ok .null) : Datum vm v
  | bool {v : Value} {b : Bool} (h : v.force vm = .ok (.bool b)) : Datum vm v
  | integer {v : Value} {i : Int} (h : v.force vm = .ok (.integer i)) : Datum vm v
  | string {v : Value} {s : NixString} (h : v.force vm = .ok (.string s)) : Datum vm v
  | path {v : Value} {p : Bytes} (h : v.force vm = .ok (.path p)) : Datum vm v
  | list {v : Value} {l : List Value} (h : v.force vm = .ok (.list l))
    (hl : ∀ w ∈ l, Datum vm w) : Datum vm v
  | attrs {v : Value} {a : AttrsRep Value} (h : v.force vm = .ok (.attrs a)) (hvalid : a.Valid)
    (hnot : ¬CallsItselfDerivation vm (.attrs a)) (ha : ∀ e ∈ a.intoIterSorted, Datum vm e.2) :
    Datum vm v

/-- What is known about pointers is true. -/
def Pointers.Faithful (ptrs : Pointers) (vm : Vm) : Prop :=
  ∀ t c, ptrs.closureIn t = some c → vm.force t = .ok (.closure c)

variable {vm : Vm} {ptrs : Pointers} {u v w x y : Value} {vals rest : List Pending}
  {ptrEq : PointerEquality} {l l₁ l₂ : List Value} {n : ℕ} {p : Pending}

-- ====================
-- Being the same
-- ====================

theorem zip_self_of_entries {es : List (NixString × Value)} (h : ∀ e ∈ es, Same vm e.2 e.2) :
    ∀ q ∈ es.zip es, Same vm q.1.2 q.2.2 := by
  have hzip : ∀ q ∈ (es.map Prod.snd).zip (es.map Prod.snd), Same vm q.1 q.2 :=
    forall_mem_zip_self (List.forall_mem_map.mpr h)
  rw [List.zip_map] at hzip
  exact fun q hq => hzip _ (List.mem_map_of_mem hq)

theorem Datum.same (h : Datum vm v) : Same vm v v := by
  induction h with
  | null h => exact .null h h
  | bool h => exact .bool h h
  | integer h => exact .integer h h
  | string h => exact .string h h rfl
  | path h => exact .path h h rfl
  | list h _ ih => exact .list h h rfl (forall_mem_zip_self ih)
  | attrs h hvalid _ _ ih =>
    exact .attrs h h hvalid hvalid rfl
      (zip_self_of_entries ih)

theorem Same.symm (h : Same vm v w) : Same vm w v := by
  induction h with
  | null hv hw => exact .null hw hv
  | bool hv hw => exact .bool hw hv
  | integer hv hw => exact .integer hw hv
  | string hv hw heq => exact .string hw hv heq.symm
  | path hv hw heq => exact .path hw hv heq.symm
  | list hv hw hlen _ ih => exact .list hw hv hlen.symm fun q hq => ih q.swap (mem_zip_swap hq)
  | attrs hv hw ha₁ ha₂ hkeys _ ih =>
    exact .attrs hw hv ha₂ ha₁ hkeys.symm fun q hq => ih q.swap (mem_zip_swap hq)

theorem Same.trans (h : Same vm u v) (h' : Same vm v w) : Same vm u w := by
  induction h generalizing w with
  | null hu hv =>
    cases h' with
    | null _ hw => exact .null hu hw
    | bool hv' | integer hv' | string hv' | path hv' | list hv' | attrs hv' =>
      cases hv.symm.trans hv'
  | bool hu hv =>
    cases h' with
    | bool hv' hw =>
      cases hv.symm.trans hv'
      exact .bool hu hw
    | null hv' | integer hv' | string hv' | path hv' | list hv' | attrs hv' =>
      cases hv.symm.trans hv'
  | integer hu hv =>
    cases h' with
    | integer hv' hw =>
      cases hv.symm.trans hv'
      exact .integer hu hw
    | null hv' | bool hv' | string hv' | path hv' | list hv' | attrs hv' => cases hv.symm.trans hv'
  | string hu hv heq =>
    cases h' with
    | string hv' hw heq' =>
      cases hv.symm.trans hv'
      exact .string hu hw (heq.trans heq')
    | null hv' | bool hv' | integer hv' | path hv' | list hv' | attrs hv' => cases hv.symm.trans hv'
  | path hu hv heq =>
    cases h' with
    | path hv' hw heq' =>
      cases hv.symm.trans hv'
      exact .path hu hw (heq.trans heq')
    | null hv' | bool hv' | integer hv' | string hv' | list hv' | attrs hv' =>
      cases hv.symm.trans hv'
  | list hu hv hlen _ ih =>
    cases h' with
    | list hv' hw hlen' hsame' =>
      cases hv.symm.trans hv'
      refine .list hu hw (hlen.trans hlen') fun q hq => ?_
      obtain ⟨b, h₁, h₂⟩ := exists_mem_zip_zip hlen hq hlen'
      exact ih _ h₁ (hsame' _ h₂)
    | null hv' | bool hv' | integer hv' | string hv' | path hv' | attrs hv' =>
      cases hv.symm.trans hv'
  | attrs hu hv ha₁ _ hkeys _ ih =>
    cases h' with
    | attrs hv' hw _ ha₃ hkeys' hsame' =>
      cases hv.symm.trans hv'
      refine .attrs hu hw ha₁ ha₃ (hkeys.trans hkeys') fun q hq => ?_
      have hlen := congrArg List.length hkeys
      have hlen' := congrArg List.length hkeys'
      rw [List.length_map, List.length_map] at hlen hlen'
      obtain ⟨b, h₁, h₂⟩ := exists_mem_zip_zip hlen hq hlen'
      exact ih _ h₁ (hsame' _ h₂)
    | null hv' | bool hv' | integer hv' | string hv' | path hv' | list hv' =>
      cases hv.symm.trans hv'

/-- No datum contains anything that calls itself a derivation. -/
theorem Datum.not_derivation (h : Datum vm v) : ¬Somewhere vm (CallsItselfDerivation vm) v := by
  intro hin
  induction hin with
  | here hx hP =>
    obtain ⟨a, t, s, rfl, ht, hs, hder⟩ := hP
    cases h with
    | attrs ha _ hnot _ =>
      cases ha.symm.trans hx
      exact hnot ⟨a, t, s, rfl, ht, hs, hder⟩
    | null h | bool h | integer h | string h | path h | list h => cases h.symm.trans hx
  | list hl hw _ ih =>
    cases h with
    | list h hall =>
      cases h.symm.trans hl
      exact ih (hall _ hw)
    | null h | bool h | integer h | string h | path h | attrs h => cases h.symm.trans hl
  | attrs ha he _ ih =>
    cases h with
    | attrs h _ _ hall =>
      cases h.symm.trans ha
      exact ih (hall _ he)
    | null h | bool h | integer h | string h | path h | list h => cases h.symm.trans ha

-- ====================
-- Equality is decided
-- ====================

/-- A pair that is done with, whatever comes after it. -/
def Passes (vm : Vm) (ptrs : Pointers) (p : Pending) : Prop :=
  ∀ rest, EqReaches vm ptrs (p :: rest) rest

/-- A pair at which the comparison ends. -/
def Differs (vm : Vm) (ptrs : Pointers) (p : Pending) : Prop :=
  ∀ rest, ∃ n, nixEqLoop vm ptrs n (p :: rest) = some (.ok (.bool false))

/-- The first pair that differs ends the comparison. -/
theorem exists_nixEqLoop_false (h : ∀ p ∈ vals, Passes vm ptrs p ∨ Differs vm ptrs p)
    (hdiffers : ∃ p ∈ vals, Differs vm ptrs p) (rest : List Pending) :
    ∃ n, nixEqLoop vm ptrs n (vals ++ rest) = some (.ok (.bool false)) := by
  induction vals with
  | nil =>
    obtain ⟨p, hp, -⟩ := hdiffers
    cases hp
  | cons p vals ih =>
    obtain ⟨q, hq, hqd⟩ := hdiffers
    obtain rfl | hq := List.mem_cons.mp hq
    · exact hqd (vals ++ rest)
    · obtain hpass | hdiff := h p List.mem_cons_self
      · refine nixEqLoop_of_reaches (hpass (vals ++ rest)) ?_
        exact ih (fun p hp => h p (List.mem_cons_of_mem _ hp)) ⟨q, hq, hqd⟩
      · exact hdiff (vals ++ rest)

/-- Data that are not the same are not skipped. -/
theorem Datum.not_skipped (hptrs : ptrs.Faithful vm) (hv : Datum vm v) (hne : ¬Same vm v w)
    (ptrEq : PointerEquality) : (Pending.mk v w ptrEq).skipped ptrs = false := by
  rw [Bool.eq_false_iff]
  intro hskip
  unfold Pending.skipped at hskip
  split at hskip
  · next t t' hvt hwt =>
    obtain rfl : v = .thunk t := hvt
    obtain rfl : w = .thunk t' := hwt
    obtain hptr := (Bool.and_eq_true_iff.mp hskip).2
    unfold Pointers.thunkPtrEq at hptr
    obtain heq | hclosure := Bool.or_eq_true_iff.mp hptr
    · obtain rfl := of_decide_eq_true heq
      exact hne hv.same
    · cases hc : ptrs.closureIn t' with
      | none =>
        rw [hc] at hclosure
        cases hclosure
      | some c =>
        rw [hc] at hclosure
        have hforce : (Value.thunk t).force vm = .ok (.closure c) :=
          hptrs t c (of_decide_eq_true hclosure)
        cases hv with
        | null h | bool h | integer h | string h | path h | list h | attrs h =>
          cases h.symm.trans hforce
  · cases hskip

theorem differs_of_forced (hskip : (Pending.mk v w ptrEq).skipped ptrs = false)
    (hv : v.force vm = .ok x) (hw : w.force vm = .ok y) (hx : x.isCatchable = false)
    (hy : y.isCatchable = false)
    (h : ∀ rest, compareValues vm ptrs ptrEq rest x y = .done (.ok (.bool false)) ∨
      ∃ vals, compareValues vm ptrs ptrEq rest x y = .again (vals ++ rest) ∧
        (∀ p ∈ vals, Passes vm ptrs p ∨ Differs vm ptrs p) ∧ ∃ p ∈ vals, Differs vm ptrs p) :
    Differs vm ptrs ⟨v, w, ptrEq⟩ := by
  intro rest
  have hstep : eqStep vm ptrs ⟨v, w, ptrEq⟩ rest = compareValues vm ptrs ptrEq rest x y := by
    rw [eqStep, hskip, if_neg Bool.false_ne_true]
    simp only [hv, hw, compareForced, hx, hy, Bool.false_eq_true, if_false]
  obtain hdone | ⟨vals, hagain, hall, hdiffers⟩ := h rest
  · refine ⟨1, ?_⟩
    rw [nixEqLoop, hstep, hdone]
  · obtain ⟨n, hn⟩ := exists_nixEqLoop_false hall hdiffers rest
    refine ⟨n + 1, ?_⟩
    rw [nixEqLoop, hstep, hagain]
    exact hn

theorem verdict_false {b : Bool} (h : b = false) :
    EqRound.verdict rest b = .done (.ok (.bool false)) := by
  rw [h]
  rfl

theorem Datum.passes (hw : Datum vm w) (h : Same vm v w) (ptrEq : PointerEquality) :
    Passes vm ptrs ⟨v, w, ptrEq⟩ :=
  fun rest => h.eqReaches hw.not_derivation ptrEq rest

/-- Two strings are the same, or the comparison ends. -/
theorem passes_or_differs_string (vm : Vm) (ptrs : Pointers) (s t : NixString)
    (ptrEq : PointerEquality) :
    Passes vm ptrs ⟨.string s, .string t, ptrEq⟩ ∧ s.contents = t.contents ∨
      Differs vm ptrs ⟨.string s, .string t, ptrEq⟩ ∧ s.contents ≠ t.contents := by
  by_cases h : s.contents = t.contents
  · refine .inl ⟨fun rest => ?_, h⟩
    exact eqReaches_of_forced rfl rfl rfl rfl ⟨rest, verdict_true (decide_eq_true h), .refl⟩
  · refine .inr ⟨?_, h⟩
    exact differs_of_forced rfl rfl rfl rfl rfl fun rest =>
      .inl (verdict_false (decide_eq_false h))

theorem Datum.forced (h : Datum vm v) : Forced vm v := h.same.forced.1

/-- Data that are not the same are found to differ. By induction on the first value. -/
theorem Datum.differs (hptrs : ptrs.Faithful vm) (hv : Datum vm v) (hw : Datum vm w)
    (hne : ¬Same vm v w) (ptrEq : PointerEquality) : Differs vm ptrs ⟨v, w, ptrEq⟩ := by
  have hskip := hv.not_skipped hptrs hne ptrEq
  induction hv generalizing w ptrEq with
  | null h =>
    cases hw with
    | null hw => exact absurd (.null h hw) hne
    | bool hw | integer hw | string hw | path hw | list hw | attrs hw =>
      exact differs_of_forced hskip h hw rfl rfl fun rest => .inl rfl
  | bool h =>
    cases hw with
    | @bool _ b hw =>
      refine differs_of_forced hskip h hw rfl rfl fun rest => .inl (verdict_false ?_)
      rw [beq_eq_false_iff_ne]
      rintro rfl
      exact hne (.bool h hw)
    | null hw | integer hw | string hw | path hw | list hw | attrs hw =>
      exact differs_of_forced hskip h hw rfl rfl fun rest => .inl rfl
  | integer h =>
    cases hw with
    | integer hw =>
      refine differs_of_forced hskip h hw rfl rfl fun rest => .inl (verdict_false ?_)
      refine decide_eq_false ?_
      rintro rfl
      exact hne (.integer h hw)
    | null hw | bool hw | string hw | path hw | list hw | attrs hw =>
      exact differs_of_forced hskip h hw rfl rfl fun rest => .inl rfl
  | string h =>
    cases hw with
    | string hw =>
      refine differs_of_forced hskip h hw rfl rfl fun rest => .inl (verdict_false ?_)
      exact decide_eq_false fun heq => hne (.string h hw heq)
    | null hw | bool hw | integer hw | path hw | list hw | attrs hw =>
      exact differs_of_forced hskip h hw rfl rfl fun rest => .inl rfl
  | path h =>
    cases hw with
    | path hw =>
      refine differs_of_forced hskip h hw rfl rfl fun rest => .inl (verdict_false ?_)
      exact decide_eq_false fun heq => hne (.path h hw heq)
    | null hw | bool hw | integer hw | string hw | list hw | attrs hw =>
      exact differs_of_forced hskip h hw rfl rfl fun rest => .inl rfl
  | @list v l₁ h hl₁ ih =>
    cases hw with
    | @list _ l₂ hw hl₂ =>
      refine differs_of_forced hskip h hw rfl rfl fun rest => ?_
      rw [compareValues, compareLists]
      split_ifs with hptr hlen
      · cases ptrs.eq_of_sameList _ _ (Bool.and_eq_true_iff.mp hptr).2
        exact absurd (.list h hw rfl (forall_mem_zip_self fun w hw => (hl₁ w hw).same)) hne
      · exact .inl rfl
      · refine .inr ⟨_, rfl, ?_, ?_⟩
        · intro p hp
          obtain ⟨q, hq, rfl⟩ := List.mem_map.mp hp
          obtain ⟨hq₁, hq₂⟩ := List.of_mem_zip hq
          by_cases hsame : Same vm q.1 q.2
          · exact .inl ((hl₂ _ hq₂).passes hsame _)
          · exact .inr (ih _ hq₁ (hl₂ _ hq₂) hsame _ ((hl₁ _ hq₁).not_skipped hptrs hsame _))
        · by_contra hnone
          refine hne (.list h hw (not_not.mp hlen) fun q hq => ?_)
          by_contra hsame
          obtain ⟨hq₁, hq₂⟩ := List.of_mem_zip hq
          exact hnone ⟨_, List.mem_map_of_mem hq,
            ih _ hq₁ (hl₂ _ hq₂) hsame _ ((hl₁ _ hq₁).not_skipped hptrs hsame _)⟩
    | null hw | bool hw | integer hw | string hw | path hw | attrs hw =>
      exact differs_of_forced hskip h hw rfl rfl fun rest => .inl rfl
  | @attrs v a₁ h hvalid₁ hnot₁ ha₁ ih =>
    cases hw with
    | @attrs _ a₂ hw hvalid₂ hnot₂ ha₂ =>
      refine differs_of_forced hskip h hw rfl rfl fun rest => ?_
      have hder : compareDerivations vm a₁ a₂ rest = none :=
        compareDerivations_eq_none hvalid₁ hvalid₂ (fun e he => (ha₁ e he).forced)
          (fun e he => (ha₂ e he).forced) hnot₂
      rw [compareValues, compareAttrs, hder]
      have hvalue : ∀ q ∈ a₁.intoIterSorted.zip a₂.intoIterSorted, ¬Same vm q.1.2 q.2.2 →
          ∀ ptrEq, Differs vm ptrs ⟨q.1.2, q.2.2, ptrEq⟩ := by
        intro q hq hsame ptrEq
        obtain ⟨hq₁, hq₂⟩ := List.of_mem_zip hq
        exact ih _ hq₁ (ha₂ _ hq₂) hsame _ ((ha₁ _ hq₁).not_skipped hptrs hsame _)
      split_ifs with hptr hlen
      · cases ptrs.eq_of_sameAttrs _ _ (Bool.and_eq_true_iff.mp hptr).2
        refine absurd (.attrs h hw hvalid₁ hvalid₁ rfl ?_) hne
        exact zip_self_of_entries fun e he => (ha₁ e he).same
      · exact .inl rfl
      · refine .inr ⟨_, rfl, ?_, ?_⟩
        · intro p hp
          obtain ⟨q, hq, rfl | rfl⟩ := mem_attrsPairs hp
          · exact (passes_or_differs_string vm ptrs _ _ _).imp And.left And.left
          · by_cases hsame : Same vm q.1.2 q.2.2
            · exact .inl ((ha₂ _ (List.of_mem_zip hq).2).passes hsame _)
            · exact .inr (hvalue q hq hsame _)
        · by_contra hnone
          have hlen' : a₁.intoIterSorted.length = a₂.intoIterSorted.length := by
            rw [← AttrsRep.len_eq_length hvalid₁, ← AttrsRep.len_eq_length hvalid₂]
            exact not_not.mp hlen
          refine hne (.attrs h hw hvalid₁ hvalid₂ (map_eq_map_of_zip hlen' fun q hq => ?_)
            fun q hq => ?_)
          · obtain ⟨-, heq⟩ | ⟨hdiff, -⟩ :=
              passes_or_differs_string vm ptrs q.1.1 q.2.1 ptrEq.nested
            · exact heq
            · exact absurd ⟨_, List.mem_flatMap.mpr ⟨q, hq, List.mem_cons_self⟩, hdiff⟩ hnone
          · by_contra hsame
            refine hnone ⟨_, List.mem_flatMap.mpr ⟨q, hq, ?_⟩, hvalue q hq hsame ptrEq.nested⟩
            exact List.mem_cons_of_mem _ List.mem_cons_self
    | null hw | bool hw | integer hw | string hw | path hw | list hw =>
      exact differs_of_forced hskip h hw rfl rfl fun rest => .inl rfl

/-- The comparison returns whether the values are equal. -/
def EqReturns (vm : Vm) (ptrs : Pointers) (v w : Value) (ptrEq : PointerEquality) (b : Bool) :
    Prop :=
  ∃ n, nixEq vm ptrs n v w ptrEq = some (.ok (.bool b))

theorem EqReturns.unique {b b' : Bool} (h : EqReturns vm ptrs v w ptrEq b)
    (h' : EqReturns vm ptrs v w ptrEq b') : b = b' := by
  obtain ⟨n, hn⟩ := h
  obtain ⟨m, hm⟩ := h'
  have h₁ := nixEqLoop_mono hn (Nat.le_max_left n m)
  have h₂ := nixEqLoop_mono hm (Nat.le_max_right n m)
  cases h₁.symm.trans h₂
  rfl

/-- Equality of data is decided, and is being the same. -/
theorem Datum.eqReturns (hptrs : ptrs.Faithful vm) (hv : Datum vm v) (hw : Datum vm w)
    (ptrEq : PointerEquality) :
    ∃ b, EqReturns vm ptrs v w ptrEq b ∧ (b = true ↔ Same vm v w) := by
  by_cases hsame : Same vm v w
  · exact ⟨true, hsame.exists_nixEq hw.not_derivation ptrs ptrEq, iff_of_true rfl hsame⟩
  · exact ⟨false, hv.differs hptrs hw hsame ptrEq [], iff_of_false Bool.false_ne_true hsame⟩

theorem Datum.eqReturns_iff (hptrs : ptrs.Faithful vm) (hv : Datum vm v) (hw : Datum vm w)
    (ptrEq : PointerEquality) (b : Bool) :
    EqReturns vm ptrs v w ptrEq b ↔ (b = true ↔ Same vm v w) := by
  obtain ⟨b', hb', hiff⟩ := hv.eqReturns hptrs hw ptrEq
  constructor
  · intro h
    rw [h.unique hb']
    exact hiff
  · intro h
    rwa [Bool.eq_iff_iff.mpr (h.trans hiff.symm)]

-- ====================
-- The lexicographic order
-- ====================

/-- Integers, strings and lists of them. -/
inductive Comparable (vm : Vm) : Value → Prop
  | integer {v : Value} {i : Int} (h : v.force vm = .ok (.integer i)) : Comparable vm v
  | string {v : Value} {s : NixString} (h : v.force vm = .ok (.string s)) : Comparable vm v
  | list {v : Value} {l : List Value} (h : v.force vm = .ok (.list l))
    (hl : ∀ w ∈ l, Comparable vm w) : Comparable vm v

/-- The lexicographic order of two values. There is none for values of different types. -/
inductive Lex (vm : Vm) : Value → Value → Ordering → Prop
  | integer {v w : Value} {i j : Int} (hv : v.force vm = .ok (.integer i))
    (hw : w.force vm = .ok (.integer j)) : Lex vm v w (compare i j)
  | string {v w : Value} {s t : NixString} (hv : v.force vm = .ok (.string s))
    (hw : w.force vm = .ok (.string t)) : Lex vm v w (compare s.contents t.contents)
  | list {v w : Value} {l₁ l₂ : List Value} {o : Ordering} (hv : v.force vm = .ok (.list l₁))
    (hw : w.force vm = .ok (.list l₂)) (h : LexAll (Same vm) (Lex vm) l₁ l₂ o) : Lex vm v w o

variable {o o' : Ordering} {i j : Int} {s t : NixString}

theorem Comparable.datum (h : Comparable vm v) : Datum vm v := by
  induction h with
  | integer h => exact .integer h
  | string h => exact .string h
  | list h _ ih => exact .list h ih

theorem Comparable.elements (h : Comparable vm v) (hl : v.force vm = .ok (.list l)) :
    ∀ w ∈ l, Comparable vm w := by
  cases h with
  | list h hall =>
    cases h.symm.trans hl
    exact hall
  | integer h | string h => cases h.symm.trans hl

theorem Lex.integer_inv (h : Lex vm v w o) (hv : v.force vm = .ok (.integer i)) :
    ∃ j, w.force vm = .ok (.integer j) ∧ o = compare i j := by
  cases h with
  | integer hv' hw =>
    cases hv.symm.trans hv'
    exact ⟨_, hw, rfl⟩
  | string hv' | list hv' => cases hv.symm.trans hv'

theorem Lex.string_inv (h : Lex vm v w o) (hv : v.force vm = .ok (.string s)) :
    ∃ t, w.force vm = .ok (.string t) ∧ o = compare s.contents t.contents := by
  cases h with
  | string hv' hw =>
    cases hv.symm.trans hv'
    exact ⟨_, hw, rfl⟩
  | integer hv' | list hv' => cases hv.symm.trans hv'

theorem Lex.list_inv (h : Lex vm v w o) (hv : v.force vm = .ok (.list l)) :
    ∃ l₂, w.force vm = .ok (.list l₂) ∧ LexAll (Same vm) (Lex vm) l l₂ o := by
  cases h with
  | list hv' hw h =>
    cases hv.symm.trans hv'
    exact ⟨_, hw, h⟩
  | integer hv' | string hv' => cases hv.symm.trans hv'

theorem Same.list_inv (h : Same vm v w) (hv : v.force vm = .ok (.list l)) :
    ∃ l₂, w.force vm = .ok (.list l₂) ∧ List.Forall₂ (Same vm) l l₂ := by
  cases h with
  | list hv' hw hlen hsame =>
    cases hv.symm.trans hv'
    exact ⟨_, hw, List.forall₂_iff_zip.mpr ⟨hlen, fun hq => hsame _ hq⟩⟩
  | null hv' | bool hv' | integer hv' | string hv' | path hv' | attrs hv' =>
    cases hv.symm.trans hv'

theorem Same.integer_inv (h : Same vm v w) (hv : v.force vm = .ok (.integer i)) :
    w.force vm = .ok (.integer i) := by
  cases h with
  | integer hv' hw =>
    cases hv.symm.trans hv'
    exact hw
  | null hv' | bool hv' | string hv' | path hv' | list hv' | attrs hv' => cases hv.symm.trans hv'

theorem Same.string_inv (h : Same vm v w) (hv : v.force vm = .ok (.string s)) :
    ∃ t, w.force vm = .ok (.string t) ∧ s.contents = t.contents := by
  cases h with
  | string hv' hw heq =>
    cases hv.symm.trans hv'
    exact ⟨_, hw, heq⟩
  | null hv' | bool hv' | integer hv' | path hv' | list hv' | attrs hv' => cases hv.symm.trans hv'

theorem same_of_forall₂ (hv : v.force vm = .ok (.list l₁)) (hw : w.force vm = .ok (.list l₂))
    (h : List.Forall₂ (Same vm) l₁ l₂) : Same vm v w := by
  obtain ⟨hlen, hsame⟩ := List.forall₂_iff_zip.mp h
  exact .list hv hw hlen fun q hq => hsame hq

/-- There is one order at most, and it is equality if the values are the same. -/
theorem Comparable.lex_unique (h : Comparable vm v) :
    (∀ w o o', Lex vm v w o → Lex vm v w o' → o = o') ∧
      ∀ w o, Same vm v w → Lex vm v w o → o = .eq := by
  induction h with
  | integer h =>
    constructor
    · intro w o o' ho ho'
      obtain ⟨j, hw, rfl⟩ := ho.integer_inv h
      obtain ⟨j', hw', rfl⟩ := ho'.integer_inv h
      cases hw.symm.trans hw'
      rfl
    · intro w o hsame ho
      obtain ⟨j, hw, rfl⟩ := ho.integer_inv h
      cases (hsame.integer_inv h).symm.trans hw
      exact Std.ReflCmp.compare_self
  | string h =>
    constructor
    · intro w o o' ho ho'
      obtain ⟨t, hw, rfl⟩ := ho.string_inv h
      obtain ⟨t', hw', rfl⟩ := ho'.string_inv h
      cases hw.symm.trans hw'
      rfl
    · intro w o hsame ho
      obtain ⟨t, hw, rfl⟩ := ho.string_inv h
      obtain ⟨t', hw', heq⟩ := hsame.string_inv h
      cases hw.symm.trans hw'
      rw [heq]
      exact Std.ReflCmp.compare_self
  | list h _ ih =>
    have hunique : ∀ {l₂ o o'}, LexAll (Same vm) (Lex vm) _ l₂ o →
        LexAll (Same vm) (Lex vm) _ l₂ o' → o = o' :=
      LexAll.unique (fun a ha b o => (ih a ha).2 b o) fun a ha b o o' => (ih a ha).1 b o o'
    constructor
    · intro w o o' ho ho'
      obtain ⟨l₂, hw, hl⟩ := ho.list_inv h
      obtain ⟨l₂', hw', hl'⟩ := ho'.list_inv h
      cases hw.symm.trans hw'
      exact hunique hl hl'
    · intro w o hsame ho
      obtain ⟨l₂, hw, hl⟩ := ho.list_inv h
      obtain ⟨l₂', hw', hl'⟩ := hsame.list_inv h
      cases hw.symm.trans hw'
      exact hunique hl (LexAll.eq_iff.mpr hl')

theorem Lex.same_of_eq (h : Lex vm v w .eq) : Same vm v w := by
  generalize ho : Ordering.eq = o at h
  cases h with
  | @integer _ _ i j hv hw =>
    cases compare_eq_iff_eq.mp ho.symm
    exact .integer hv hw
  | string hv hw => exact .string hv hw (Std.LawfulEqCmp.eq_of_compare ho.symm)
  | list hv hw h =>
    subst ho
    exact same_of_forall₂ hv hw (LexAll.eq_iff.mp h)

theorem Comparable.lex_of_same (h : Comparable vm v) (hsame : Same vm v w) : Lex vm v w .eq := by
  cases h with
  | integer h =>
    have hlex := Lex.integer h (hsame.integer_inv h)
    rwa [compare_eq_iff_eq.mpr rfl] at hlex
  | string h =>
    obtain ⟨t, hw, heq⟩ := hsame.string_inv h
    have hlex := Lex.string h hw
    have hself : compare t.contents t.contents = .eq := Std.ReflCmp.compare_self
    rwa [heq, hself] at hlex
  | list h _ =>
    obtain ⟨l₂, hw, hl⟩ := hsame.list_inv h
    exact .list h hw (LexAll.eq_iff.mpr hl)

theorem Comparable.lex_swap (h : Comparable vm v) (hlex : Lex vm v w o) : Lex vm w v o.swap := by
  induction h generalizing w o with
  | integer h =>
    obtain ⟨j, hw, rfl⟩ := hlex.integer_inv h
    rw [← Std.OrientedCmp.eq_swap]
    exact .integer hw h
  | string h =>
    obtain ⟨t, hw, rfl⟩ := hlex.string_inv h
    rw [← Std.OrientedCmp.eq_swap]
    exact .string hw h
  | list h _ ih =>
    obtain ⟨l₂, hw, hl⟩ := hlex.list_inv h
    exact .list hw h (hl.swap (fun a _ b => Same.symm) fun a ha b o => ih a ha)

/-- The same data are compared in the same way. -/
theorem Comparable.lex_of_same_left (h : Comparable vm u) (hsame : Same vm u v)
    (hlex : Lex vm v w o) : Lex vm u w o := by
  induction h generalizing v w o with
  | integer h =>
    obtain ⟨j, hw, rfl⟩ := hlex.integer_inv (hsame.integer_inv h)
    exact .integer h hw
  | string h =>
    obtain ⟨t, hv, heq⟩ := hsame.string_inv h
    obtain ⟨t', hw, rfl⟩ := hlex.string_inv hv
    rw [← heq]
    exact .string h hw
  | list h _ ih =>
    obtain ⟨l₂, hv, hl⟩ := hsame.list_inv h
    obtain ⟨l₃, hw, hlex⟩ := hlex.list_inv hv
    exact .list h hw (.of_same_left (fun a _ b c => Same.trans) (fun a ha b c o => ih a ha) hl hlex)

theorem Comparable.lex_of_same_right (h : Comparable vm u) (hlex : Lex vm u v o)
    (hsame : Same vm v w) : Lex vm u w o := by
  induction h generalizing v w o with
  | integer h =>
    obtain ⟨j, hv, rfl⟩ := hlex.integer_inv h
    exact .integer h (hsame.integer_inv hv)
  | string h =>
    obtain ⟨t, hv, rfl⟩ := hlex.string_inv h
    obtain ⟨t', hw, heq⟩ := hsame.string_inv hv
    rw [heq]
    exact .string h hw
  | list h _ ih =>
    obtain ⟨l₂, hv, hlex⟩ := hlex.list_inv h
    obtain ⟨l₃, hw, hl⟩ := hsame.list_inv hv
    exact .list h hw (.of_same_right (fun a _ b c => Same.trans) (fun a ha b c o => ih a ha)
      hlex hl)

theorem Comparable.lex_trans (h : Comparable vm u) (h₁ : Lex vm u v .lt) (h₂ : Lex vm v w .lt) :
    Lex vm u w .lt := by
  induction h generalizing v w with
  | integer h =>
    obtain ⟨j, hv, hij⟩ := h₁.integer_inv h
    obtain ⟨k, hw, hjk⟩ := h₂.integer_inv hv
    have hik := Std.TransCmp.lt_trans hij.symm hjk.symm
    exact hik ▸ Lex.integer h hw
  | string h =>
    obtain ⟨t, hv, hst⟩ := h₁.string_inv h
    obtain ⟨t', hw, htt⟩ := h₂.string_inv hv
    have hstt := Std.TransCmp.lt_trans hst.symm htt.symm
    exact hstt ▸ Lex.string h hw
  | list h hl ih =>
    obtain ⟨l₂, hv, hl₁⟩ := h₁.list_inv h
    obtain ⟨l₃, hw, hl₂⟩ := h₂.list_inv hv
    exact .list h hw (hl₁.trans (fun a _ b c => Same.trans)
      (fun a ha b c o => (hl a ha).lex_of_same_left)
      (fun a ha b c o => (hl a ha).lex_of_same_right) (fun a ha b c => ih a ha) hl₂)

-- ====================
-- Comparisons
-- ====================

/-- The comparison of what is pending ends like that. -/
def Ends (vm : Vm) (ptrs : Pointers) (vals : List Pending)
    (r : Except Fault (Except CatchableErrorKind Ordering)) : Prop :=
  ∃ n, nixCmpLoop vm ptrs n vals = some r

/-- What comes of some pairs, whatever comes after them: they are equal, or the comparison ends
    with an order or with an error. -/
inductive Runs (vm : Vm) (ptrs : Pointers) (vals : List Pending) (order : Ordering → Prop) : Prop
  | equal (h : order .eq) (hrun : ∀ rest, CmpReaches vm ptrs (vals ++ rest) rest)
  | decided (o : Ordering) (ho : o ≠ .eq) (h : order o)
    (hrun : ∀ rest, Ends vm ptrs (vals ++ rest) (.ok (.ok o)))
  | none (e : Fault) (h : ∀ o, ¬order o) (hrun : ∀ rest, Ends vm ptrs (vals ++ rest) (.error e))

theorem ends_of_done {r : Except Fault (Except CatchableErrorKind Ordering)}
    (h : cmpStep vm ptrs n p rest = .done r) : Ends vm ptrs (p :: rest) r := by
  refine ⟨n + 1, ?_⟩
  rw [nixCmpLoop, h]

theorem reaches_of_again (h : cmpStep vm ptrs n p rest = .again vals) :
    CmpReaches vm ptrs (p :: rest) vals :=
  Relation.ReflTransGen.single ⟨p, rest, n, rfl, h⟩

theorem cmpPairs_cons (a b : Value) (l₁ l₂ : List Value) :
    cmpPairs (a :: l₁) (b :: l₂) = ⟨a, b, .allowAll⟩ :: cmpPairs l₁ l₂ := by
  have hmax : max (a :: l₁).length (b :: l₂).length = max l₁.length l₂.length + 1 := by
    rw [List.length_cons, List.length_cons, Nat.succ_max_succ]
  rw [cmpPairs, hmax, List.range_succ_eq_map, List.map_cons, List.map_map]
  rfl

theorem cmpPairs_nil_cons (b : Value) (l₂ : List Value) :
    ∃ vals, cmpPairs [] (b :: l₂) = ⟨.integer 0, .integer 1, .forbidAll⟩ :: vals := by
  have hmax : max ([] : List Value).length (b :: l₂).length = l₂.length + 1 := by simp
  rw [cmpPairs, hmax, List.range_succ_eq_map, List.map_cons]
  exact ⟨_, rfl⟩

theorem cmpPairs_cons_nil (a : Value) (l₁ : List Value) :
    ∃ vals, cmpPairs (a :: l₁) [] = ⟨.integer 1, .integer 0, .forbidAll⟩ :: vals := by
  have hmax : max (a :: l₁).length ([] : List Value).length = l₁.length + 1 := by simp
  rw [cmpPairs, hmax, List.range_succ_eq_map, List.map_cons]
  exact ⟨_, rfl⟩

/-- The pairs of two lists are compared in the lexicographic order. By induction on the first
    list. -/
theorem runs_cmpPairs (hl₁ : ∀ a ∈ l₁, Comparable vm a)
    (h : ∀ a ∈ l₁, ∀ b ∈ l₂, Runs vm ptrs [⟨a, b, .allowAll⟩] (Lex vm a b)) :
    Runs vm ptrs (cmpPairs l₁ l₂) (LexAll (Same vm) (Lex vm) l₁ l₂) := by
  induction l₁ generalizing l₂ with
  | nil =>
    cases l₂ with
    | nil => exact .equal .nil fun rest => .refl
    | cons b l₂ =>
      obtain ⟨vals, hvals⟩ := cmpPairs_nil_cons b l₂
      refine .decided .lt (by decide) (.shorter b l₂) fun rest => ?_
      rw [hvals]
      exact ⟨1, rfl⟩
  | cons a l₁ ih =>
    cases l₂ with
    | nil =>
      obtain ⟨vals, hvals⟩ := cmpPairs_cons_nil a l₁
      refine .decided .gt (by decide) (.longer a l₁) fun rest => ?_
      rw [hvals]
      exact ⟨1, rfl⟩
    | cons b l₂ =>
      have ha := hl₁ a List.mem_cons_self
      rw [cmpPairs_cons]
      cases h a List.mem_cons_self b List.mem_cons_self with
      | equal heq hrun =>
        have hrest : Runs vm ptrs (cmpPairs l₁ l₂) (LexAll (Same vm) (Lex vm) l₁ l₂) :=
          ih (fun a ha => hl₁ a (List.mem_cons_of_mem _ ha))
            fun a ha b hb => h a (List.mem_cons_of_mem _ ha) b (List.mem_cons_of_mem _ hb)
        cases hrest with
        | equal heq' hrun' =>
          exact .equal (.same heq.same_of_eq heq') fun rest =>
            (hrun (cmpPairs l₁ l₂ ++ rest)).trans (hrun' rest)
        | decided o ho hlex hrun' =>
          exact .decided o ho (.same heq.same_of_eq hlex) fun rest =>
            nixCmpLoop_of_reaches (hrun (cmpPairs l₁ l₂ ++ rest)) (hrun' rest)
        | none e hnone hrun' =>
          refine .none e (fun o hlex => ?_) fun rest =>
            nixCmpLoop_of_reaches (hrun (cmpPairs l₁ l₂ ++ rest)) (hrun' rest)
          cases hlex with
          | same _ hlex => exact hnone o hlex
          | decided _ _ hab ho => exact ho (ha.lex_unique.1 b _ _ hab heq)
      | decided o ho hlex hrun =>
        exact .decided o ho (.decided l₁ l₂ hlex ho) fun rest => hrun (cmpPairs l₁ l₂ ++ rest)
      | none e hnone hrun =>
        refine .none e (fun o hlex => ?_) fun rest => hrun (cmpPairs l₁ l₂ ++ rest)
        cases hlex with
        | same hab _ => exact hnone _ (ha.lex_of_same hab)
        | decided _ _ hab _ => exact hnone o hab

/-- An order of two values ends the comparison, unless they are equal. -/
theorem runs_of_verdict {order : Ordering → Prop}
    (hstep : ∀ rest, ∃ n, cmpStep vm ptrs n p rest = .verdict rest o) (h : order o) :
    Runs vm ptrs [p] order := by
  by_cases ho : o = .eq
  · subst ho
    refine .equal h fun rest => ?_
    obtain ⟨n, hn⟩ := hstep rest
    exact reaches_of_again hn
  · refine .decided o ho h fun rest => ?_
    obtain ⟨n, hn⟩ := hstep rest
    rw [CmpRound.verdict, if_neg ho] at hn
    exact ends_of_done hn

theorem runs_of_incomparable {order : Ordering → Prop} {e : Fault}
    (hstep : ∀ rest, ∃ n, cmpStep vm ptrs n p rest = .done (.error e)) (h : ∀ o, ¬order o) :
    Runs vm ptrs [p] order := by
  refine .none e h fun rest => ?_
  obtain ⟨n, hn⟩ := hstep rest
  exact ends_of_done hn

/-- Two lists are compared by their elements. -/
theorem Runs.of_again {order order' : Ordering → Prop}
    (hstep : ∀ rest, ∃ n, cmpStep vm ptrs n p rest = .again (vals ++ rest))
    (horder : ∀ o, order' o ↔ order o) (h : Runs vm ptrs vals order) :
    Runs vm ptrs [p] order' := by
  cases h with
  | equal h hrun =>
    refine .equal ((horder .eq).mpr h) fun rest => ?_
    obtain ⟨n, hn⟩ := hstep rest
    exact (reaches_of_again hn).trans (hrun rest)
  | decided o ho h hrun =>
    refine .decided o ho ((horder o).mpr h) fun rest => ?_
    obtain ⟨n, hn⟩ := hstep rest
    exact nixCmpLoop_of_reaches (reaches_of_again hn) (hrun rest)
  | none e h hrun =>
    refine .none e (fun o ho => h o ((horder o).mp ho)) fun rest => ?_
    obtain ⟨n, hn⟩ := hstep rest
    exact nixCmpLoop_of_reaches (reaches_of_again hn) (hrun rest)

/-- A step that compares two values which were forced. -/
theorem runs_of_forced (hv : Comparable vm v) (hw : Comparable vm w)
    (hstep : ∀ x y, v.force vm = .ok x → w.force vm = .ok y →
      ∀ rest, ∃ n, cmpStep vm ptrs n p rest = cmpForced rest x y)
    (hlists : ∀ l₁ l₂, v.force vm = .ok (.list l₁) → w.force vm = .ok (.list l₂) →
      Runs vm ptrs (cmpPairs l₁ l₂) (LexAll (Same vm) (Lex vm) l₁ l₂)) :
    Runs vm ptrs [p] (Lex vm v w) := by
  cases hv with
  | integer hv =>
    cases hw with
    | integer hw => exact runs_of_verdict (hstep _ _ hv hw) (.integer hv hw)
    | string hw =>
      refine runs_of_incomparable (hstep _ _ hv hw) fun o hlex => ?_
      obtain ⟨j, hw', -⟩ := hlex.integer_inv hv
      cases hw.symm.trans hw'
    | list hw _ =>
      refine runs_of_incomparable (hstep _ _ hv hw) fun o hlex => ?_
      obtain ⟨j, hw', -⟩ := hlex.integer_inv hv
      cases hw.symm.trans hw'
  | string hv =>
    cases hw with
    | integer hw =>
      refine runs_of_incomparable (hstep _ _ hv hw) fun o hlex => ?_
      obtain ⟨t, hw', -⟩ := hlex.string_inv hv
      cases hw.symm.trans hw'
    | string hw => exact runs_of_verdict (hstep _ _ hv hw) (.string hv hw)
    | list hw _ =>
      refine runs_of_incomparable (hstep _ _ hv hw) fun o hlex => ?_
      obtain ⟨t, hw', -⟩ := hlex.string_inv hv
      cases hw.symm.trans hw'
  | list hv _ =>
    cases hw with
    | integer hw =>
      refine runs_of_incomparable (hstep _ _ hv hw) fun o hlex => ?_
      obtain ⟨l₂, hw', -⟩ := hlex.list_inv hv
      cases hw.symm.trans hw'
    | string hw =>
      refine runs_of_incomparable (hstep _ _ hv hw) fun o hlex => ?_
      obtain ⟨l₂, hw', -⟩ := hlex.list_inv hv
      cases hw.symm.trans hw'
    | list hw _ =>
      refine (hlists _ _ hv hw).of_again (hstep _ _ hv hw) fun o => ⟨fun hlex => ?_, .list hv hw⟩
      obtain ⟨l₂, hw', hl⟩ := hlex.list_inv hv
      cases hw.symm.trans hw'
      exact hl

/-- Two elements of lists, of which it is asked first whether they are equal. -/
theorem runs_of_elements (hptrs : ptrs.Faithful vm) (hv : Comparable vm v) (hw : Comparable vm w)
    (hlists : ∀ l₁ l₂, v.force vm = .ok (.list l₁) → w.force vm = .ok (.list l₂) →
      Runs vm ptrs (cmpPairs l₁ l₂) (LexAll (Same vm) (Lex vm) l₁ l₂)) :
    Runs vm ptrs [⟨v, w, .allowAll⟩] (Lex vm v w) := by
  obtain ⟨b, ⟨n, hn⟩, hb⟩ := hv.datum.eqReturns hptrs hw.datum .allowAll
  have hstep : ∀ rest, cmpStep vm ptrs n ⟨v, w, .allowAll⟩ rest =
      cmpElement vm ⟨v, w, .allowAll⟩ rest (.ok b) := by
    intro rest
    simp only [cmpStep, if_true, hn, Value.asBool]
  cases b with
  | true =>
    refine .equal (hv.lex_of_same (hb.mp rfl)) fun rest => ?_
    exact reaches_of_again (hstep rest)
  | false =>
    refine runs_of_forced hv hw (fun x y hx hy rest => ⟨n, (hstep rest).trans ?_⟩) hlists
    simp only [cmpElement, hx, hy]

/-- Elements of lists are compared in the lexicographic order. By induction on the first one. -/
theorem Comparable.runs (hptrs : ptrs.Faithful vm) (hv : Comparable vm v) (hw : Comparable vm w) :
    Runs vm ptrs [⟨v, w, .allowAll⟩] (Lex vm v w) := by
  induction hv generalizing w with
  | integer h =>
    exact runs_of_elements hptrs (.integer h) hw fun l₁ l₂ hl => by cases h.symm.trans hl
  | string h =>
    exact runs_of_elements hptrs (.string h) hw fun l₁ l₂ hl => by cases h.symm.trans hl
  | list h hall ih =>
    refine runs_of_elements hptrs (.list h hall) hw fun l₁ l₂ hl hl₂ => ?_
    cases h.symm.trans hl
    refine runs_cmpPairs hall fun a ha b hb => ih a ha ?_
    exact hw.elements hl₂ b hb

/-- Two values that were forced are compared in the lexicographic order. -/
theorem Comparable.runs_forced (hptrs : ptrs.Faithful vm) (hv : Comparable vm v)
    (hw : Comparable vm w) (hvf : v.force vm = .ok v) (hwf : w.force vm = .ok w) :
    Runs vm ptrs [⟨v, w, .forbidAll⟩] (Lex vm v w) := by
  refine runs_of_forced hv hw (fun x y hx hy rest => ⟨0, ?_⟩) fun l₁ l₂ hl₁ hl₂ => ?_
  · cases hvf.symm.trans hx
    cases hwf.symm.trans hy
    rfl
  · refine runs_cmpPairs (hv.elements hl₁) fun a ha b hb => ?_
    exact (hv.elements hl₁ a ha).runs hptrs (hw.elements hl₂ b hb)

/-- The comparison returns this order. -/
def CmpReturns (vm : Vm) (ptrs : Pointers) (v w : Value) (o : Ordering) : Prop :=
  ∃ n, nixCmpOrdering vm ptrs n v w = some (.ok (.ok o))

theorem Ends.unique {r r' : Except Fault (Except CatchableErrorKind Ordering)}
    (h : Ends vm ptrs vals r) (h' : Ends vm ptrs vals r') : r = r' := by
  obtain ⟨n, hn⟩ := h
  obtain ⟨m, hm⟩ := h'
  have h₁ := nixCmpLoop_mono hn (Nat.le_max_left n m)
  have h₂ := nixCmpLoop_mono hm (Nat.le_max_right n m)
  exact Option.some.inj (h₁.symm.trans h₂)

/-- The comparison returns the lexicographic order, wherever there is one. -/
theorem Comparable.cmpReturns_iff (hptrs : ptrs.Faithful vm) (hv : Comparable vm v)
    (hw : Comparable vm w) (hvf : v.force vm = .ok v) (hwf : w.force vm = .ok w) :
    CmpReturns vm ptrs v w o ↔ Lex vm v w o := by
  have hreturns : CmpReturns vm ptrs v w o ↔ Ends vm ptrs [⟨v, w, .forbidAll⟩] (.ok (.ok o)) :=
    Iff.rfl
  rw [hreturns]
  cases hv.runs_forced hptrs hw hvf hwf with
  | equal h hrun =>
    have hends : Ends vm ptrs [⟨v, w, .forbidAll⟩] (.ok (.ok .eq)) :=
      nixCmpLoop_of_reaches (hrun []) ⟨1, rfl⟩
    constructor
    · intro ho
      cases hends.unique ho
      exact h
    · intro ho
      rw [hv.lex_unique.1 w o .eq ho h]
      exact hends
  | decided o' _ h hrun =>
    constructor
    · intro ho
      cases (hrun []).unique ho
      exact h
    · intro ho
      rw [hv.lex_unique.1 w o o' ho h]
      exact hrun []
  | none e h hrun =>
    refine iff_of_false (fun ho => ?_) (h o)
    cases (hrun []).unique ho

/-- Full transitivity: an equal value on either side does not change the order. -/
theorem Comparable.lex_then (hu : Comparable vm u) (h₁ : Lex vm u v o) (h₂ : Lex vm v w o')
    (ho : o ≠ .gt) (ho' : o' ≠ .gt) : Lex vm u w (o.then o') := by
  cases o with
  | gt => exact absurd rfl ho
  | eq => exact hu.lex_of_same_left h₁.same_of_eq h₂
  | lt =>
    cases o' with
    | gt => exact absurd rfl ho'
    | eq => exact hu.lex_of_same_right h₁ h₂.same_of_eq
    | lt => exact hu.lex_trans h₁ h₂

/-- Equality of data is being the same, which is an equivalence. Where the comparison of integers,
    strings and lists of them returns an order, it is the lexicographic one; it returns that two
    values are equal if equality does, it is antisymmetric and transitive, and a proper prefix of a
    list is less. -/
theorem nixEq_nixCmp_lawful (hptrs : ptrs.Faithful vm) :
    ((∀ v w, Datum vm v → Datum vm w → ∀ ptrEq b,
        EqReturns vm ptrs v w ptrEq b ↔ (b = true ↔ Same vm v w)) ∧
      (∀ v, Datum vm v → Same vm v v) ∧ (∀ v w, Same vm v w → Same vm w v) ∧
      ∀ u v w, Same vm u v → Same vm v w → Same vm u w) ∧
    (∀ v w, Comparable vm v → Comparable vm w → v.force vm = .ok v → w.force vm = .ok w →
      (∀ o, CmpReturns vm ptrs v w o ↔ Lex vm v w o) ∧
      (∀ o, CmpReturns vm ptrs v w o → ∀ ptrEq, o = .eq ↔ EqReturns vm ptrs v w ptrEq true) ∧
      (∀ o, CmpReturns vm ptrs v w o → CmpReturns vm ptrs w v o.swap) ∧
      (∀ u o o', Comparable vm u → u.force vm = .ok u → CmpReturns vm ptrs v w o →
        CmpReturns vm ptrs w u o' → o ≠ .gt → o' ≠ .gt → CmpReturns vm ptrs v u (o.then o')) ∧
      ∀ l b l', v = .list l → w = .list (l ++ b :: l') → CmpReturns vm ptrs v w .lt) := by
  refine ⟨⟨fun v w hv hw => hv.eqReturns_iff hptrs hw, fun v => Datum.same, fun v w => Same.symm,
    fun u v w => Same.trans⟩, fun v w hv hw hvf hwf => ?_⟩
  have hiff : ∀ o, CmpReturns vm ptrs v w o ↔ Lex vm v w o :=
    fun o => hv.cmpReturns_iff hptrs hw hvf hwf
  refine ⟨hiff, fun o ho ptrEq => ?_, fun o ho => ?_, fun u o o' hu huf h₁ h₂ hne hne' => ?_, ?_⟩
  · rw [hv.datum.eqReturns_iff hptrs hw.datum, eq_self, true_iff]
    constructor
    · rintro rfl
      exact ((hiff .eq).mp ho).same_of_eq
    · exact fun hsame => hv.lex_unique.2 w o hsame ((hiff o).mp ho)
  · exact (hw.cmpReturns_iff hptrs hv hwf hvf).mpr (hv.lex_swap ((hiff o).mp ho))
  · refine (hv.cmpReturns_iff hptrs hu hvf huf).mpr (hv.lex_then ((hiff o).mp h₁) ?_ hne hne')
    exact (hw.cmpReturns_iff hptrs hu hwf huf).mp h₂
  · rintro l b l' rfl rfl
    refine (hiff .lt).mpr (.list rfl rfl (.lt_of_append (fun a ha => ?_) b l'))
    exact (hv.elements rfl a ha).datum.same

/-- `[ 1 ] < [ 1 2 ]`, and they are not equal. -/
theorem nixEq_nixCmp_lawful_one_two :
    CmpReturns idleVm distinct (.list [.integer 1]) (.list [.integer 1, .integer 2]) .lt ∧
      ¬EqReturns idleVm distinct (.list [.integer 1]) (.list [.integer 1, .integer 2]) .forbidAll
        true := by
  have hptrs : distinct.Faithful idleVm := fun t c h => by cases h
  have hone : ∀ w ∈ [Value.integer 1], Comparable idleVm w :=
    List.forall_mem_singleton.mpr (.integer rfl)
  have htwo : ∀ w ∈ [Value.integer 1, .integer 2], Comparable idleVm w :=
    List.forall_mem_cons.mpr ⟨.integer rfl, List.forall_mem_singleton.mpr (.integer rfl)⟩
  obtain ⟨-, heq, -, -, hprefix⟩ :=
    (nixEq_nixCmp_lawful hptrs).2 (.list [.integer 1]) (.list [.integer 1, .integer 2])
      (.list rfl hone) (.list rfl htwo) rfl rfl
  have hlt := hprefix [.integer 1] (.integer 2) [] rfl rfl
  exact ⟨hlt, fun h => absurd ((heq .lt hlt .forbidAll).mpr h) (by decide)⟩

end Snix.Eval
