import Snix.Eval.Value.Compare
import Snix.Lib.Worklist

/-!
# Generic closures

An operator is applied to the elements of a set, and to what it returns, until it returns nothing
new. What is new is decided by a key in each element: the keys that were seen before are compared
one after the other.

## Main definitions

- `bgcInsertKey` — whether a key was seen before
- `builtinGenericClosure` — the builtin
- `Reachable` — the elements that the start and the operator lead to
- `Explores` — the machine answers for these, and their keys can be compared

## Main results

- `builtinGenericClosure_closes` — the result is the closure, in the order of discovery
-/

namespace Snix.Eval

/-- The key `key`. -/
def KEY : NixString := .plain [107, 101, 121]

/-- The key `startSet`. -/
def START_SET : NixString := .plain [115, 116, 97, 114, 116, 83, 101, 116]

/-- The key `operator`. -/
def OPERATOR : NixString := .plain [111, 112, 101, 114, 97, 116, 111, 114]

def AttrsRep.selectRequired (a : AttrsRep Value) (key : NixString) : Except ErrorKind Value :=
  match a.select key.contents with
  | some v => .ok v
  | none => .error (.attributeNotFound key.contents)

/-- Whether two values are equal, or what the builtin ends with. -/
def checkEquality (vm : Vm) (ptrs : Pointers) (m : ℕ) (a b : Value) :
    Option (Except (Except Fault Value) Bool) :=
  match nixEq vm ptrs m a b .forbidAll with
  | none => none
  | some (.error e) => some (.error (.error e))
  | some (.ok (.bool b)) => some (.ok b)
  | some (.ok (.catchable c)) => some (.error (.ok (.catchable c)))
  | some (.ok _) => some (.error (.error .panic))

/-- Whether a key is among those that were seen before. -/
def keySeen (vm : Vm) (ptrs : Pointers) (m : ℕ) (key : Value) :
    List Value → Option (Except (Except Fault Value) Bool)
  | [] => some (.ok false)
  | existing :: done =>
    match checkEquality vm ptrs m existing key with
    | none => none
    | some (.error r) => some (.error r)
    | some (.ok true) => some (.ok true)
    | some (.ok false) => keySeen vm ptrs m key done

/-- Whether a key is new, and the keys with it. -/
def bgcInsertKey (vm : Vm) (ptrs : Pointers) (m : ℕ) (key : Value) (done : List Value) :
    Option (Except (Except Fault Value) (Bool × List Value)) :=
  (keySeen vm ptrs m key done).map fun r =>
    r.map fun seen => if seen then (false, done) else (true, done ++ [key])

/-- An element, forced, and its key. -/
def closureItem (vm : Vm) (val : Value) : Except ErrorKind (Value × Value) := do
  let val ← val.force vm
  let attrs ← val.toAttrs
  let key ← attrs.selectRequired KEY
  .ok (val, key)

/-- What the operator returns for an element. -/
def operatorResults (vm : Vm) (operator val : Value) : Except ErrorKind (List Value) := do
  let opResult ← vm.callWith operator [val]
  let opResult ← opResult.force vm
  opResult.toList

/-- The loop. None if there are more rounds than the given number, or if two keys could not be
    compared within the other number. -/
def closureLoop (vm : Vm) (ptrs : Pointers) (operator : Value) (m : ℕ) :
    ℕ → List Value → List Value → List Value → Option (Except Fault Value)
  | 0, _, _, _ => none
  | _ + 1, [], res, _ => some (.ok (.list res))
  | n + 1, val :: workSet, res, doneKeys =>
    match closureItem vm val with
    | .error e => some (.error (.error e))
    | .ok (val, key) =>
      match bgcInsertKey vm ptrs m key doneKeys with
      | none => none
      | some (.error r) => some r
      | some (.ok (false, doneKeys)) => closureLoop vm ptrs operator m n workSet res doneKeys
      | some (.ok (true, doneKeys)) =>
        match operatorResults vm operator val with
        | .error e => some (.error (.error e))
        | .ok results =>
          closureLoop vm ptrs operator m n (workSet ++ results) (res ++ [val]) doneKeys

def builtinGenericClosure (vm : Vm) (ptrs : Pointers) (m n : ℕ) (input : Value) :
    Option (Except Fault Value) :=
  let args : Except ErrorKind (List Value × Value) := do
    let attrs ← input.toAttrs
    let startSet ← attrs.selectRequired START_SET
    let startSet ← startSet.force vm
    let workSet ← startSet.toList
    let operator ← attrs.selectRequired OPERATOR
    .ok (workSet, operator)
  match args with
  | .error e => some (.error (.error e))
  | .ok (workSet, operator) => closureLoop vm ptrs operator m n workSet [] []

-- ====================
-- What is explored
-- ====================

/-- The elements that the start and the operator lead to. -/
inductive Reachable (start : List Value) (results : Value → List Value) : Value → Prop
  | start {v : Value} (h : v ∈ start) : Reachable start results v
  | result {v w : Value} (hv : Reachable start results v) (h : w ∈ results v) :
    Reachable start results w

/-- For the elements that can be reached, the machine answers with the forced element, with its key
    and with what the operator returns. The keys are compared by an equivalence, and there are
    finitely many that differ. -/
structure Explores (vm : Vm) (ptrs : Pointers) (operator : Value) (start : List Value)
    (element key : Value → Value) (results : Value → List Value) (same : Value → Value → Bool) :
    Prop where
  item : ∀ v, Reachable start results v → closureItem vm v = .ok (element v, key v)
  returns : ∀ v, Reachable start results v →
    operatorResults vm operator (element v) = .ok (results v)
  compares : ∀ v w, Reachable start results v → Reachable start results w →
    ∃ m, nixEq vm ptrs m (key v) (key w) .forbidAll = some (.ok (.bool (same v w)))
  equivalence : SameOn same (Reachable start results)
  finite : ∃ reps : List Value, (∀ k ∈ reps, Reachable start results k) ∧
    ∀ v, Reachable start results v → ∃ k ∈ reps, same k v = true

variable {vm : Vm} {ptrs : Pointers} {operator : Value} {start : List Value}
  {element key : Value → Value} {results : Value → List Value} {same : Value → Value → Bool}
  {v w : Value} {done queue found : List Value} {m n : ℕ}

/-- With enough steps two keys are compared. -/
theorem Explores.exists_checkEquality (h : Explores vm ptrs operator start element key results same)
    (hv : Reachable start results v) (hw : Reachable start results w) :
    ∃ m₀, ∀ m, m₀ ≤ m → checkEquality vm ptrs m (key v) (key w) = some (.ok (same v w)) := by
  obtain ⟨m₀, hm₀⟩ := h.compares v w hv hw
  refine ⟨m₀, fun m hm => ?_⟩
  have heq : nixEq vm ptrs m (key v) (key w) .forbidAll = some (.ok (.bool (same v w))) :=
    nixEqLoop_mono hm₀ hm
  rw [checkEquality, heq]

/-- With enough steps a key is looked up. By induction on the keys that were seen before. -/
theorem Explores.exists_keySeen (h : Explores vm ptrs operator start element key results same)
    (hdone : ∀ d ∈ done, Reachable start results d) (hv : Reachable start results v) :
    ∃ m₀, ∀ m, m₀ ≤ m →
      keySeen vm ptrs m (key v) (done.map key) = some (.ok (done.any fun d => same d v)) := by
  induction done with
  | nil => exact ⟨0, fun _ _ => rfl⟩
  | cons d done ih =>
    obtain ⟨m₁, h₁⟩ := h.exists_checkEquality (hdone d List.mem_cons_self) hv
    obtain ⟨m₂, h₂⟩ := ih fun d hd => hdone d (List.mem_cons_of_mem _ hd)
    refine ⟨max m₁ m₂, fun m hm => ?_⟩
    rw [List.map_cons, keySeen, h₁ m ((Nat.le_max_left _ _).trans hm), List.any_cons]
    cases same d v with
    | true => rfl
    | false => exact h₂ m ((Nat.le_max_right _ _).trans hm)

/-- With enough steps for the comparisons the loop does what exploring does. By induction on the
    rounds. -/
theorem Explores.exists_closureLoop (h : Explores vm ptrs operator start element key results same)
    (hqueue : ∀ v ∈ queue, Reachable start results v)
    (hdone : ∀ v ∈ done, Reachable start results v)
    (hrun : explore same results n queue done = some found) :
    ∃ m₀, ∀ m, m₀ ≤ m →
      closureLoop vm ptrs operator m n queue (done.map element) (done.map key) =
        some (.ok (.list (found.map element))) := by
  induction n generalizing queue done with
  | zero => cases hrun
  | succ n ih =>
    cases queue with
    | nil =>
      cases hrun
      exact ⟨0, fun _ _ => rfl⟩
    | cons v queue =>
      have hv := hqueue v List.mem_cons_self
      have hrest : ∀ w ∈ queue, Reachable start results w :=
        fun w hw => hqueue w (List.mem_cons_of_mem _ hw)
      obtain ⟨m₁, h₁⟩ := h.exists_keySeen hdone hv
      rw [explore] at hrun
      cases hany : done.any fun d => same d v with
      | true =>
        rw [hany, if_pos rfl] at hrun
        obtain ⟨m₂, h₂⟩ := ih hrest hdone hrun
        refine ⟨max m₁ m₂, fun m hm => ?_⟩
        have hseen := h₁ m ((Nat.le_max_left _ _).trans hm)
        rw [hany] at hseen
        simp only [closureLoop, h.item v hv, bgcInsertKey, hseen]
        exact h₂ m ((Nat.le_max_right _ _).trans hm)
      | false =>
        rw [hany, if_neg Bool.false_ne_true] at hrun
        have hqueue' : ∀ w ∈ queue ++ results v, Reachable start results w := by
          intro w hw
          obtain hw | hw := List.mem_append.mp hw
          · exact hrest w hw
          · exact .result hv hw
        have hdone' : ∀ w ∈ done ++ [v], Reachable start results w := by
          intro w hw
          obtain hw | hw := List.mem_append.mp hw
          · exact hdone w hw
          · exact List.mem_singleton.mp hw ▸ hv
        obtain ⟨m₂, h₂⟩ := ih hqueue' hdone' hrun
        refine ⟨max m₁ m₂, fun m hm => ?_⟩
        have hseen := h₁ m ((Nat.le_max_left _ _).trans hm)
        have hloop := h₂ m ((Nat.le_max_right _ _).trans hm)
        rw [hany] at hseen
        rw [List.map_append, List.map_append] at hloop
        simp only [closureLoop, h.item v hv, bgcInsertKey, hseen, Option.map_some, Except.map,
          Bool.false_eq_true, if_false, h.returns v hv]
        exact hloop

/-- The builtin ends, with elements whose keys differ. There is one for every key of the start and
    for every key that the operator returns for them, and no other. They are in the order of their
    discovery: those of the start come first, then those that the operator returns for the first
    one, and so on, each key where it is met first. -/
theorem builtinGenericClosure_closes {attrs : AttrsRep Value} {startSet : Value}
    (hstart : attrs.selectRequired START_SET = .ok startSet)
    (hlist : startSet.force vm = .ok (.list start))
    (hoperator : attrs.selectRequired OPERATOR = .ok operator)
    (h : Explores vm ptrs operator start element key results same) :
    ∃ m n found, builtinGenericClosure vm ptrs m n (.attrs attrs) =
        some (.ok (.list (found.map element))) ∧
      found.Pairwise (fun v w => same v w = false) ∧
      (∀ v ∈ start, ∃ w ∈ found, same w v = true) ∧
      (∀ v ∈ found, ∀ w ∈ results v, ∃ w' ∈ found, same w' w = true) ∧
      (∀ v ∈ found, v ∈ start ∨ ∃ w ∈ found, v ∈ results w) ∧
      found = firsts same (start ++ found.flatMap results) := by
  obtain ⟨reps, hreps, hfin⟩ := h.finite
  have hnil : ∀ v ∈ ([] : List Value), Reachable start results v :=
    fun v hv => absurd hv List.not_mem_nil
  obtain ⟨n, found, hrun, hfound⟩ := exists_explore h.equivalence hreps hfin
    (fun v hv w hw => .result hv hw) (fun v hv => .start hv) hnil
  obtain ⟨m, hm⟩ := h.exists_closureLoop (fun v hv => .start hv) hnil hrun
  have horder := explore_eq_firsts hrun
  have hall : ∀ v ∈ start ++ found.flatMap results, Reachable start results v := by
    intro v hv
    obtain hv | hv := List.mem_append.mp hv
    · exact .start hv
    · obtain ⟨w, hw, hv⟩ := List.mem_flatMap.mp hv
      exact .result (hfound w hw) hv
  have hcover : ∀ v ∈ start ++ found.flatMap results, ∃ w ∈ found, same w v = true := by
    intro v hv
    obtain ⟨w, hw, hsame⟩ := exists_mem_firsts h.equivalence hall hv
    exact ⟨w, horder ▸ hw, hsame⟩
  refine ⟨m, n, found, ?_, ?_, fun v hv => ?_, fun v hv w hw => ?_, fun v hv => ?_, horder⟩
  · have hargs : builtinGenericClosure vm ptrs m n (.attrs attrs) =
        closureLoop vm ptrs operator m n start [] [] := by
      simp [builtinGenericClosure, Value.toAttrs, Value.toList, hstart, hlist, hoperator, bind,
        Except.bind]
    rw [hargs]
    exact hm m (Nat.le_refl m)
  · rw [horder]
    exact pairwise_firsts _
  · exact hcover v (List.mem_append_left _ hv)
  · exact hcover w (List.mem_append_right _ (List.mem_flatMap.mpr ⟨v, hv, hw⟩))
  · rw [horder] at hv
    obtain hv | hv := List.mem_append.mp (firsts_subset hv)
    · exact .inl hv
    · exact .inr (List.mem_flatMap.mp hv)

/-- The element with an integer as its key. -/
def keyed (i : ℤ) : Value := .attrs (.map [(KEY, .integer i)])

def keyOf (v : Value) : Value :=
  match closureItem throws v with
  | .ok (_, key) => key
  | .error _ => .null

def keyInt (v : Value) : ℤ :=
  match keyOf v with
  | .integer i => i
  | _ => 0

def sameKey (v w : Value) : Bool := decide (keyInt v = keyInt w)

/-- Every call returns the element with the key 1. -/
def yieldsOne : Vm where
  force _ := .ok .null
  pathImport p := .ok p
  call _ _ := .ok (.list [keyed 1])
  formatFloat _ := []

theorem reachable_one (h : Reachable [keyed 0] (fun _ => [keyed 1]) v) :
    v = keyed 0 ∨ v = keyed 1 := by
  cases h with
  | start h => exact .inl (List.mem_singleton.mp h)
  | result _ h => exact .inr (List.mem_singleton.mp h)

/-- The elements with the keys 0 and 1 are explored. -/
theorem explores_one :
    Explores yieldsOne distinct .null [keyed 0] id keyOf (fun _ => [keyed 1]) sameKey where
  item v h := by obtain rfl | rfl := reachable_one h <;> rfl
  returns v _ := rfl
  compares v w hv hw := by
    obtain rfl | rfl := reachable_one hv <;> obtain rfl | rfl := reachable_one hw <;>
      exact ⟨2, rfl⟩
  equivalence :=
    { refl := fun v _ => decide_eq_true rfl
      symm := fun v w _ _ h => decide_eq_true (of_decide_eq_true h).symm
      trans := fun u v w _ _ _ h₁ h₂ =>
        decide_eq_true ((of_decide_eq_true h₁).trans (of_decide_eq_true h₂)) }
  finite := by
    have h₀ : Reachable [keyed 0] (fun _ => [keyed 1]) (keyed 0) := .start List.mem_cons_self
    refine ⟨[keyed 0, keyed 1], ?_, fun v hv => ⟨v, ?_, decide_eq_true rfl⟩⟩
    · rintro k (_ | ⟨_, _ | ⟨_, ⟨⟩⟩⟩)
      · exact h₀
      · exact .result h₀ List.mem_cons_self
    · obtain rfl | rfl := reachable_one hv
      · exact List.mem_cons_self
      · exact List.mem_cons_of_mem _ List.mem_cons_self

/-- From the element with the key 0, where every call returns the one with the key 1. -/
theorem builtinGenericClosure_closes_one :
    ∃ m n found, builtinGenericClosure yieldsOne distinct m n
        (.attrs (.map [(OPERATOR, .null), (START_SET, .list [keyed 0])])) =
        some (.ok (.list (found.map id))) ∧
      found.Pairwise (fun v w => sameKey v w = false) ∧
      (∀ v ∈ [keyed 0], ∃ w ∈ found, sameKey w v = true) ∧
      (∀ v ∈ found, ∀ w ∈ [keyed 1], ∃ w' ∈ found, sameKey w' w = true) ∧
      (∀ v ∈ found, v ∈ [keyed 0] ∨ ∃ w ∈ found, v ∈ [keyed 1]) ∧
      found = firsts sameKey ([keyed 0] ++ found.flatMap fun _ => [keyed 1]) :=
  builtinGenericClosure_closes rfl rfl rfl explores_one

end Snix.Eval
