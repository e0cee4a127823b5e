import Snix.Eval.Value.Attrs
import Snix.Eval.Value.Compare
import Snix.Lib.Opposite

/-!
# Equal data

Two values are the same data if they agree wherever they are forced, down to the last attribute.
They are equal then, unless they contain derivations, of which only the output paths are compared.

## Main definitions

- `Somewhere` — a value, or one that it contains, has a property
- `Same` — two values are the same data

## Main results

- `Same.exists_nixEq` — the same data are equal
-/

namespace Snix.Eval

/-- The value, or one that it contains, is one with the property when it is forced. -/
inductive Somewhere (vm : Vm) (P : Value → Prop) : Value → Prop
  | here {v x : Value} (h : v.force vm = .ok x) (hP : P x) : Somewhere vm P v
  | list {v w : Value} {l : List Value} (h : v.force vm = .ok (.list l)) (hw : w ∈ l)
    (hin : Somewhere vm P w) : Somewhere vm P v
  | attrs {v : Value} {a : AttrsRep Value} {e : NixString × Value}
    (h : v.force vm = .ok (.attrs a)) (he : e ∈ a.intoIterSorted) (hin : Somewhere vm P e.2) :
    Somewhere vm P v

/-- Two values are the same data. Attribute sets have the same names, with the same data. -/
inductive Same (vm : Vm) : Value → Value → Prop
  | null {v w : Value} (hv : v.force vm = .ok .null) (hw : w.force vm = .ok .null) : Same vm v w
  | bool {v w : Value} {b : Bool} (hv : v.force vm = .ok (.bool b))
    (hw : w.force vm = .ok (.bool b)) : Same vm v w
  | integer {v w : Value} {i : Int} (hv : v.force vm = .ok (.integer i))
    (hw : w.force vm = .ok (.integer i)) : Same vm v w
  | string {v w : Value} {s t : NixString} (hv : v.force vm = .ok (.string s))
    (hw : w.force vm = .ok (.string t)) (heq : s.contents = t.contents) : Same vm v w
  | path {v w : Value} {p q : Bytes} (hv : v.force vm = .ok (.path p))
    (hw : w.force vm = .ok (.path q)) (heq : Path.components p = Path.components q) : Same vm v w
  | list {v w : Value} {l₁ l₂ : List Value} (hv : v.force vm = .ok (.list l₁))
    (hw : w.force vm = .ok (.list l₂)) (hlen : l₁.length = l₂.length)
    (hsame : ∀ p ∈ l₁.zip l₂, Same vm p.1 p.2) : Same vm v w
  | attrs {v w : Value} {a₁ a₂ : AttrsRep Value} (hv : v.force vm = .ok (.attrs a₁))
    (hw : w.force vm = .ok (.attrs a₂)) (ha₁ : a₁.Valid) (ha₂ : a₂.Valid)
    (hkeys : a₁.intoIterSorted.map (fun e => e.1.contents) =
      a₂.intoIterSorted.map fun e => e.1.contents)
    (hsame : ∀ p ∈ a₁.intoIterSorted.zip a₂.intoIterSorted, Same vm p.1.2 p.2.2) : Same vm v w

/-- An attribute set that calls itself a derivation. -/
def CallsItselfDerivation (vm : Vm) (x : Value) : Prop :=
  ∃ a t s, x = .attrs a ∧ a.select TYPE.contents = some t ∧ t.force vm = .ok s ∧
    s.isDerivation = true

/-- The value can be forced, and is no error that `tryEval` sees. -/
def Forced (vm : Vm) (v : Value) : Prop := ∃ x, v.force vm = .ok x ∧ x.isCatchable = false

variable {vm : Vm} {ptrs : Pointers} {v w : Value} {vals rest : List Pending}
  {ptrEq : PointerEquality} {l₁ l₂ : List Value} {es₁ es₂ : List (NixString × Value)}
  {a₁ a₂ : AttrsRep Value} {k : Bytes}

/-- Both values can be forced. -/
theorem Same.forced (h : Same vm v w) : Forced vm v ∧ Forced vm w := by
  cases h with
  | null hv hw | bool hv hw | integer hv hw => exact ⟨⟨_, hv, rfl⟩, _, hw, rfl⟩
  | string hv hw _ | path hv hw _ => exact ⟨⟨_, hv, rfl⟩, _, hw, rfl⟩
  | list hv hw _ _ => exact ⟨⟨_, hv, rfl⟩, _, hw, rfl⟩
  | attrs hv hw _ _ _ _ => exact ⟨⟨_, hv, rfl⟩, _, hw, rfl⟩

/-- An attribute that can be selected is met in the iteration. -/
theorem AttrsRep.exists_mem_of_select (ha : a₁.Valid) (h : a₁.select k = some v) :
    ∃ e ∈ a₁.intoIterSorted, e.1.contents = k ∧ e.2 = v := by
  have hget : a₁.toMap.get? k = some v := (AttrsRep.select_eq ha k).symm.trans h
  have hmem := SortedMap.mem_of_get? hget
  rw [← (AttrsRep.agrees_toMap ha).intoIterSorted] at hmem
  obtain ⟨e, he, heq⟩ := List.mem_map.mp hmem
  cases heq
  exact ⟨e, he, rfl, rfl⟩

-- ====================
-- The same data are equal
-- ====================

theorem eqReaches_of_step {p : Pending} (h : eqStep vm ptrs p rest = .again vals) :
    EqReaches vm ptrs (p :: rest) vals :=
  Relation.ReflTransGen.single ⟨p, rest, rfl, h⟩

/-- Values that were forced are compared, unless they are skipped. -/
theorem eqReaches_of_forced {x y : Value} (hv : v.force vm = .ok x) (hw : w.force vm = .ok y)
    (hx : x.isCatchable = false) (hy : y.isCatchable = false)
    (h : ∃ vals, compareValues vm ptrs ptrEq rest x y = .again vals ∧
      EqReaches vm ptrs vals rest) :
    EqReaches vm ptrs (⟨v, w, ptrEq⟩ :: rest) rest := by
  by_cases hskip : (Pending.mk v w ptrEq).skipped ptrs = true
  · apply eqReaches_of_step
    rw [eqStep, if_pos hskip]
  · obtain ⟨vals, hvals, hrun⟩ := h
    refine (eqReaches_of_step ?_).trans hrun
    rw [eqStep, if_neg hskip]
    simp only [hv, hw, compareForced, hx, hy, Bool.false_eq_true, if_false]
    exact hvals

/-- Pairs that are each done with are done with one after the other. -/
theorem eqReaches_append (h : ∀ p ∈ vals, ∀ rest, EqReaches vm ptrs (p :: rest) rest) :
    EqReaches vm ptrs (vals ++ rest) rest := by
  induction vals with
  | nil => exact Relation.ReflTransGen.refl
  | cons p vals ih =>
    refine (h p List.mem_cons_self (vals ++ rest)).trans (ih fun q hq => ?_)
    exact h q (List.mem_cons_of_mem _ hq)

theorem verdict_true {b : Bool} (h : b = true) : EqRound.verdict rest b = .again rest := if_pos h

/-- Sets that do not both call themselves derivations are not compared as derivations. -/
theorem compareDerivations_eq_none (ha₁ : a₁.Valid) (ha₂ : a₂.Valid)
    (hforced₁ : ∀ e ∈ a₁.intoIterSorted, Forced vm e.2)
    (hforced₂ : ∀ e ∈ a₂.intoIterSorted, Forced vm e.2)
    (hnot : ¬CallsItselfDerivation vm (.attrs a₂)) :
    compareDerivations vm a₁ a₂ rest = none := by
  unfold compareDerivations
  cases h₁ : a₁.select TYPE.contents with
  | none => rfl
  | some t₁ =>
    cases h₂ : a₂.select TYPE.contents with
    | none => rfl
    | some t₂ =>
      obtain ⟨e₁, he₁, -, rfl⟩ := AttrsRep.exists_mem_of_select ha₁ h₁
      obtain ⟨e₂, he₂, -, rfl⟩ := AttrsRep.exists_mem_of_select ha₂ h₂
      obtain ⟨x, hx, hxc⟩ := hforced₁ e₁ he₁
      obtain ⟨y, hy, hyc⟩ := hforced₂ e₂ he₂
      have hder : y.isDerivation = false := by
        rw [Bool.eq_false_iff]
        intro hder
        exact hnot ⟨a₂, e₂.2, y, rfl, h₂, hy, hder⟩
      simp only [hx, hxc, hy, hyc, hder, Bool.and_false, Bool.false_eq_true, if_false]

theorem mem_attrsPairs {p : Pending} (h : p ∈ attrsPairs ptrEq a₁ a₂) :
    ∃ q ∈ a₁.intoIterSorted.zip a₂.intoIterSorted,
      p = ⟨.string q.1.1, .string q.2.1, ptrEq.nested⟩ ∨ p = ⟨q.1.2, q.2.2, ptrEq.nested⟩ := by
  obtain ⟨q, hq, hp⟩ := List.mem_flatMap.mp h
  refine ⟨q, hq, ?_⟩
  obtain hp | hp := List.mem_cons.mp hp
  · exact .inl hp
  · exact .inr (List.mem_singleton.mp hp)

theorem AttrsRep.len_eq_length (h : a₁.Valid) : a₁.len = a₁.intoIterSorted.length := by
  rw [(AttrsRep.agrees_toMap h).len, ← (AttrsRep.agrees_toMap h).intoIterSorted, List.length_map]

/-- By induction on how the values are the same. -/
theorem Same.eqReaches (h : Same vm v w) (hnot : ¬Somewhere vm (CallsItselfDerivation vm) w)
    (ptrEq : PointerEquality) (rest : List Pending) :
    EqReaches vm ptrs (⟨v, w, ptrEq⟩ :: rest) rest := by
  induction h generalizing ptrEq rest with
  | null hv hw => exact eqReaches_of_forced hv hw rfl rfl ⟨rest, rfl, .refl⟩
  | bool hv hw => exact eqReaches_of_forced hv hw rfl rfl ⟨rest, verdict_true (by simp), .refl⟩
  | integer hv hw => exact eqReaches_of_forced hv hw rfl rfl ⟨rest, verdict_true (by simp), .refl⟩
  | string hv hw heq | path hv hw heq =>
    refine eqReaches_of_forced hv hw rfl rfl ⟨rest, verdict_true ?_, .refl⟩
    exact decide_eq_true heq
  | @list v w l₁ l₂ hv hw hlen hsame ih =>
    refine eqReaches_of_forced hv hw rfl rfl ?_
    rw [compareValues, compareLists]
    split_ifs with hptr hne
    · exact ⟨rest, rfl, .refl⟩
    · exact absurd hlen hne
    · refine ⟨_, rfl, eqReaches_append ?_⟩
      intro p hp rest
      obtain ⟨q, hq, rfl⟩ := List.mem_map.mp hp
      refine ih q hq (fun hin => hnot ?_) _ _
      exact .list hw (List.of_mem_zip hq).2 hin
  | @attrs v w a₁ a₂ hv hw ha₁ ha₂ hkeys hsame ih =>
    refine eqReaches_of_forced hv hw rfl rfl ?_
    have hlen : a₁.intoIterSorted.length = a₂.intoIterSorted.length := by
      have := congrArg List.length hkeys
      rwa [List.length_map, List.length_map] at this
    have hforced : (∀ e ∈ a₁.intoIterSorted, Forced vm e.2) ∧
        ∀ e ∈ a₂.intoIterSorted, Forced vm e.2 :=
      forall_of_zip hlen fun q hq => (hsame q hq).forced
    have hder : compareDerivations vm a₁ a₂ rest = none :=
      compareDerivations_eq_none ha₁ ha₂ hforced.1 hforced.2 fun hcalls => hnot (.here hw hcalls)
    rw [compareValues, compareAttrs, hder]
    split_ifs with hptr hne
    · exact ⟨rest, rfl, .refl⟩
    · rw [AttrsRep.len_eq_length ha₁, AttrsRep.len_eq_length ha₂] at hne
      exact absurd hlen hne
    · refine ⟨_, rfl, eqReaches_append ?_⟩
      intro p hp rest
      obtain ⟨q, hq, rfl | rfl⟩ := mem_attrsPairs hp
      · refine eqReaches_of_forced rfl rfl rfl rfl ⟨rest, verdict_true ?_, .refl⟩
        exact decide_eq_true (eq_of_mem_zip_map hkeys hq)
      · refine ih q hq (fun hin => hnot ?_) _ _
        exact .attrs hw (List.of_mem_zip hq).2 hin

/-- The same data are equal, if none of them calls itself a derivation. -/
theorem Same.exists_nixEq (h : Same vm v w) (hnot : ¬Somewhere vm (CallsItselfDerivation vm) w)
    (ptrs : Pointers) (ptrEq : PointerEquality) :
    ∃ n, nixEq vm ptrs n v w ptrEq = some (.ok (.bool true)) :=
  nixEqLoop_of_reaches (h.eqReaches hnot ptrEq []) ⟨1, rfl⟩

end Snix.Eval
