import Snix.Eval.Value.Coerce
import Snix.Lib.Path
import Mathlib.Logic.Relation

/-!
# Equality and order of values

Values are compared pair by pair from a stack, and what is in lists and attribute sets goes back
on the stack. The order of two elements of a list is only looked at if they are not equal, so
every element is compared for equality first.

## Main definitions

- `eqStep`, `nixEq` — equality
- `cmpStep`, `nixCmpOrdering` — order
- `EqMeets`, `CmpMeets` — a comparison comes across an error that `tryEval` sees

## Main results

- `nixEq_of_meets` — equality passes such an error on
- `cmpStep_of_element` — the order turns one in a list into another error
- `nixCmp_catchable_iff` — when such errors are passed on
-/

namespace Snix.Eval

/-- Where values may be equal because they are the same pointer. -/
inductive PointerEquality where
  | forbidAll
  | allowNested
  | allowAll
  deriving DecidableEq

namespace PointerEquality

def rank : PointerEquality → ℕ
  | forbidAll => 0
  | allowNested => 1
  | allowAll => 2

/-- What is allowed inside of lists and attribute sets. -/
def nested (ptrEq : PointerEquality) : PointerEquality :=
  if ptrEq.rank ≤ allowNested.rank then allowNested else ptrEq

end PointerEquality

/-- What is known about pointers. Lists and attribute sets at one address are the same. -/
structure Pointers where
  /-- The closure that a thunk holds. -/
  closureIn : ℕ → Option ℕ
  sameList : List Value → List Value → Bool
  sameAttrs : AttrsRep Value → AttrsRep Value → Bool
  eq_of_sameList : ∀ l₁ l₂, sameList l₁ l₂ = true → l₁ = l₂
  eq_of_sameAttrs : ∀ a₁ a₂, sameAttrs a₁ a₂ = true → a₁ = a₂

/-- One thunk, or two that hold one closure. -/
def Pointers.thunkPtrEq (ptrs : Pointers) (t₁ t₂ : ℕ) : Bool :=
  decide (t₁ = t₂) ||
    match ptrs.closureIn t₁ with
    | some c => decide (ptrs.closureIn t₂ = some c)
    | none => false

/-- Two values that are to be compared. -/
structure Pending where
  a : Value
  b : Value
  ptrEq : PointerEquality

-- ====================
-- Equality
-- ====================

/-- How a round of the loop ends. -/
inductive EqRound where
  | again (vals : List Pending)
  | done (r : Except Fault Value)

/-- The comparison goes on, or ends here. -/
def EqRound.verdict (vals : List Pending) (equal : Bool) : EqRound :=
  if equal then .again vals else .done (.ok (.bool false))

/-- The key `type`. -/
def TYPE : NixString := .plain [116, 121, 112, 101]

/-- The string `derivation`, without a context. -/
def Value.isDerivation : Value → Bool
  | .string s =>
    !s.hasContext && decide (s.contents = [100, 101, 114, 105, 118, 97, 116, 105, 111, 110])
  | _ => false

def missingOutPath : ErrorKind :=
  .withContext "comparing derivations" (.attributeNotFound OUT_PATH.contents)

/-- Two derivations by their output paths. -/
def compareOutPaths (vm : Vm) (a₁ a₂ : AttrsRep Value) (vals : List Pending) : EqRound :=
  match a₁.select OUT_PATH.contents, a₂.select OUT_PATH.contents with
  | some out₁, some out₂ =>
    match out₁.force vm, out₂.force vm with
    | .error e, _ => .done (.error (.error e))
    | .ok _, .error e => .done (.error (.error e))
    | .ok out₁, .ok out₂ =>
      if out₁.isCatchable then .done (.ok out₁)
      else if out₂.isCatchable then .done (.ok out₂)
      else
        match out₁.toContextfulStr, out₂.toContextfulStr with
        | .error e, _ => .done (.error (.error e))
        | .ok _, .error e => .done (.error (.error e))
        | .ok s₁, .ok s₂ => .verdict vals (s₁.eq s₂)
  | _, _ => .done (.error (.error missingOutPath))

/-- Attribute sets that are both derivations. None if they have to be compared as all others. -/
def compareDerivations (vm : Vm) (a₁ a₂ : AttrsRep Value) (vals : List Pending) : Option EqRound :=
  match a₁.select TYPE.contents, a₂.select TYPE.contents with
  | some v₁, some v₂ =>
    match v₁.force vm with
    | .error e => some (.done (.error (.error e)))
    | .ok s₁ =>
      if s₁.isCatchable then some (.done (.ok s₁))
      else
        match v₂.force vm with
        | .error e => some (.done (.error (.error e)))
        | .ok s₂ =>
          if s₂.isCatchable then some (.done (.ok s₂))
          else if s₁.isDerivation && s₂.isDerivation then some (compareOutPaths vm a₁ a₂ vals)
          else none
  | _, _ => none

/-- The keys and values of two attribute sets, each key before its value. -/
def attrsPairs (ptrEq : PointerEquality) (a₁ a₂ : AttrsRep Value) : List Pending :=
  (a₁.intoIterSorted.zip a₂.intoIterSorted).flatMap fun (e₁, e₂) =>
    [⟨.string e₁.1, .string e₂.1, ptrEq.nested⟩, ⟨e₁.2, e₂.2, ptrEq.nested⟩]

def compareAttrs (vm : Vm) (ptrs : Pointers) (ptrEq : PointerEquality) (a₁ a₂ : AttrsRep Value)
    (vals : List Pending) : EqRound :=
  if PointerEquality.allowNested.rank ≤ ptrEq.rank && ptrs.sameAttrs a₁ a₂ then .again vals
  else
    match compareDerivations vm a₁ a₂ vals with
    | some round => round
    | none =>
      if a₁.len ≠ a₂.len then .done (.ok (.bool false))
      else .again (attrsPairs ptrEq a₁ a₂ ++ vals)

def compareLists (ptrs : Pointers) (ptrEq : PointerEquality) (l₁ l₂ : List Value)
    (vals : List Pending) : EqRound :=
  if PointerEquality.allowNested.rank ≤ ptrEq.rank && ptrs.sameList l₁ l₂ then .again vals
  else if l₁.length ≠ l₂.length then .done (.ok (.bool false))
  else .again ((l₁.zip l₂).map (fun (v₁, v₂) => ⟨v₁, v₂, ptrEq.nested⟩) ++ vals)

/-- Two values that were forced, none of which is an error. -/
def compareValues (vm : Vm) (ptrs : Pointers) (ptrEq : PointerEquality) (vals : List Pending) :
    Value → Value → EqRound
  | .null, .null => .again vals
  | .bool b₁, .bool b₂ => .verdict vals (b₁ == b₂)
  | .string s₁, .string s₂ => .verdict vals (s₁.eq s₂)
  -- equality of paths is equality of their components
  | .path p₁, .path p₂ => .verdict vals (decide (Path.components p₁ = Path.components p₂))
  | .integer i₁, .integer i₂ => .verdict vals (decide (i₁ = i₂))
  | .integer i, .float f => .verdict vals (Float.ofInt i == f)
  | .float f₁, .float f₂ => .verdict vals (f₁ == f₂)
  | .float f, .integer i => .verdict vals (Float.ofInt i == f)
  | .list l₁, .list l₂ => compareLists ptrs ptrEq l₁ l₂ vals
  | .attrs a₁, .attrs a₂ => compareAttrs vm ptrs ptrEq a₁ a₂ vals
  | .closure c₁, .closure c₂ =>
    .verdict vals (decide (PointerEquality.allowNested.rank ≤ ptrEq.rank) && decide (c₁ = c₂))
  -- values of different types, and values that cannot be compared
  | _, _ => .done (.ok (.bool false))

def compareForced (vm : Vm) (ptrs : Pointers) (ptrEq : PointerEquality) (vals : List Pending)
    (a b : Value) : EqRound :=
  if a.isCatchable then .done (.ok a)
  else if b.isCatchable then .done (.ok b)
  else compareValues vm ptrs ptrEq vals a b

/-- The two values are thunks that may be taken to be equal without a look at them. -/
def Pending.skipped (ptrs : Pointers) (p : Pending) : Bool :=
  match p.a, p.b with
  | .thunk t, .thunk t₁ => decide (p.ptrEq = .allowAll) && ptrs.thunkPtrEq t₁ t
  | _, _ => false

def eqStep (vm : Vm) (ptrs : Pointers) (p : Pending) (vals : List Pending) : EqRound :=
  if p.skipped ptrs then .again vals
  else
    match p.a.force vm, p.b.force vm with
    | .error e, _ => .done (.error (.error e))
    | .ok _, .error e => .done (.error (.error e))
    | .ok a, .ok b => compareForced vm ptrs p.ptrEq vals a b

/-- The loop. None if there are more pairs than the given number. -/
def nixEqLoop (vm : Vm) (ptrs : Pointers) : ℕ → List Pending → Option (Except Fault Value)
  | 0, _ => none
  | _ + 1, [] => some (.ok (.bool true))
  | n + 1, p :: vals =>
    match eqStep vm ptrs p vals with
    | .again vals => nixEqLoop vm ptrs n vals
    | .done r => some r

def nixEq (vm : Vm) (ptrs : Pointers) (n : ℕ) (a b : Value) (ptrEq : PointerEquality) :
    Option (Except Fault Value) :=
  nixEqLoop vm ptrs n [⟨a, b, ptrEq⟩]

-- ====================
-- Order
-- ====================

/-- The place of a float in the total order of all floats. -/
def totalKey (f : Float) : Int :=
  let bits := f.toBits
  if bits < 0x8000000000000000 then bits.toNat
  else (bits ^^^ 0x7FFFFFFFFFFFFFFF).toNat - 2 ^ 64

def totalCmp (f₁ f₂ : Float) : Ordering := compare (totalKey f₁) (totalKey f₂)

/-- How a round of the loop ends. It does not end if the elements could not be compared within
    the given number of steps. -/
inductive CmpRound where
  | again (vals : List Pending)
  | done (r : Except Fault (Except CatchableErrorKind Ordering))
  | unfinished

/-- The comparison goes on if this is no difference. -/
def CmpRound.verdict (vals : List Pending) (o : Ordering) : CmpRound :=
  if o = .eq then .again vals else .done (.ok (.ok o))

/-- The elements of two lists at an index. A list that has ended comes first. -/
def cmpPair (l₁ l₂ : List Value) (i : ℕ) : Pending :=
  match l₁[i]?, l₂[i]? with
  | _, none => ⟨.integer 1, .integer 0, .forbidAll⟩
  | none, some _ => ⟨.integer 0, .integer 1, .forbidAll⟩
  | some v₁, some v₂ => ⟨v₁, v₂, .allowAll⟩

def cmpPairs (l₁ l₂ : List Value) : List Pending :=
  (List.range (max l₁.length l₂.length)).map (cmpPair l₁ l₂)

/-- Two values none of which is an error. -/
def cmpValues (vals : List Pending) : Value → Value → CmpRound
  | .integer i₁, .integer i₂ => .verdict vals (compare i₁ i₂)
  | .float f₁, .float f₂ => .verdict vals (totalCmp f₁ f₂)
  | .string s₁, .string s₂ => .verdict vals (s₁.cmp s₂)
  | .list l₁, .list l₂ => .again (cmpPairs l₁ l₂ ++ vals)
  | .integer i₁, .float f₂ => .verdict vals (totalCmp (Float.ofInt i₁) f₂)
  | .float f₁, .integer i₂ => .verdict vals (totalCmp f₁ (Float.ofInt i₂))
  | lhs, rhs => .done (.error (.error (.incomparable lhs.typeOf rhs.typeOf)))

def cmpForced (vals : List Pending) (a b : Value) : CmpRound :=
  match a with
  | .catchable c => .done (.ok (.error c))
  | _ =>
    match b with
    | .catchable c => .done (.ok (.error c))
    | _ => cmpValues vals a b

/-- Two elements of lists, after the question if they are equal was answered. -/
def cmpElement (vm : Vm) (p : Pending) (vals : List Pending) :
    Except ErrorKind Bool → CmpRound
  | .error e => .done (.error (.error e))
  | .ok true => .again vals
  | .ok false =>
    match p.a.force vm, p.b.force vm with
    | .error e, _ => .done (.error (.error e))
    | .ok _, .error e => .done (.error (.error e))
    | .ok a, .ok b => cmpForced vals a b

def cmpStep (vm : Vm) (ptrs : Pointers) (n : ℕ) (p : Pending) (vals : List Pending) : CmpRound :=
  if p.ptrEq = .allowAll then
    match nixEq vm ptrs n p.a p.b .allowAll with
    | none => .unfinished
    | some (.error f) => .done (.error f)
    | some (.ok equal) => cmpElement vm p vals equal.asBool
  else cmpForced vals p.a p.b

/-- The loop. None if there are more pairs than the given number, or more steps in one of them. -/
def nixCmpLoop (vm : Vm) (ptrs : Pointers) :
    ℕ → List Pending → Option (Except Fault (Except CatchableErrorKind Ordering))
  | 0, _ => none
  | _ + 1, [] => some (.ok (.ok .eq))
  | n + 1, p :: vals =>
    match cmpStep vm ptrs n p vals with
    | .again vals => nixCmpLoop vm ptrs n vals
    | .done r => some r
    | .unfinished => none

/-- The order of two values. They were forced before. -/
def nixCmpOrdering (vm : Vm) (ptrs : Pointers) (n : ℕ) (a b : Value) :
    Option (Except Fault (Except CatchableErrorKind Ordering)) :=
  nixCmpLoop vm ptrs n [⟨a, b, .forbidAll⟩]


-- ====================
-- More steps
-- ====================

variable {vm : Vm} {ptrs : Pointers} {vals vals' : List Pending} {p : Pending} {n m : ℕ}

theorem nixEqLoop_mono {r : Except Fault Value} (h : nixEqLoop vm ptrs n vals = some r)
    (hnm : n ≤ m) : nixEqLoop vm ptrs m vals = some r := by
  induction n generalizing m vals with
  | zero => cases h
  | succ n ih =>
    obtain ⟨m, rfl⟩ := Nat.exists_eq_add_of_le' (Nat.le_trans (Nat.succ_pos n) hnm)
    cases vals with
    | nil => exact h
    | cons p vals =>
      rw [nixEqLoop] at h ⊢
      cases hstep : eqStep vm ptrs p vals with
      | again vals' =>
        rw [hstep] at h
        exact ih h (by omega)
      | done r' =>
        rw [hstep] at h
        exact h

theorem cmpStep_mono (h : cmpStep vm ptrs n p vals ≠ .unfinished) (hnm : n ≤ m) :
    cmpStep vm ptrs m p vals = cmpStep vm ptrs n p vals := by
  unfold cmpStep at h ⊢
  split_ifs at h ⊢ with hptr
  · cases heq : nixEq vm ptrs n p.a p.b .allowAll with
    | none =>
      rw [heq] at h
      exact absurd rfl h
    | some r => rw [nixEq, nixEqLoop_mono heq hnm]
  · rfl

theorem nixCmpLoop_mono {r : Except Fault (Except CatchableErrorKind Ordering)}
    (h : nixCmpLoop vm ptrs n vals = some r) (hnm : n ≤ m) :
    nixCmpLoop vm ptrs m vals = some r := by
  induction n generalizing m vals with
  | zero => cases h
  | succ n ih =>
    obtain ⟨m, rfl⟩ := Nat.exists_eq_add_of_le' (Nat.le_trans (Nat.succ_pos n) hnm)
    cases vals with
    | nil => exact h
    | cons p vals =>
      rw [nixCmpLoop] at h ⊢
      have hne : cmpStep vm ptrs n p vals ≠ .unfinished := by
        intro hunfinished
        rw [hunfinished] at h
        cases h
      rw [cmpStep_mono hne (by omega : n ≤ m)]
      cases hstep : cmpStep vm ptrs n p vals with
      | again vals' =>
        rw [hstep] at h
        exact ih h (by omega)
      | done r' =>
        rw [hstep] at h
        exact h
      | unfinished => exact absurd hstep hne

-- ====================
-- Errors that are met
-- ====================

/-- What is still to be compared after some rounds. -/
def EqReaches (vm : Vm) (ptrs : Pointers) : List Pending → List Pending → Prop :=
  Relation.ReflTransGen fun vals vals' =>
    ∃ p rest, vals = p :: rest ∧ eqStep vm ptrs p rest = .again vals'

def CmpReaches (vm : Vm) (ptrs : Pointers) : List Pending → List Pending → Prop :=
  Relation.ReflTransGen fun vals vals' =>
    ∃ p rest n, vals = p :: rest ∧ cmpStep vm ptrs n p rest = .again vals'

/-- Two attribute sets are compared as derivations: that they are derivations is known. -/
def BothDerivations (vm : Vm) (a₁ a₂ : AttrsRep Value) : Prop :=
  ∃ v₁ v₂ s₁ s₂, a₁.select TYPE.contents = some v₁ ∧ a₂.select TYPE.contents = some v₂ ∧
    v₁.force vm = .ok s₁ ∧ v₂.force vm = .ok s₂ ∧ s₁.isDerivation = true ∧ s₂.isDerivation = true

/-- An attribute of one of two attribute sets that is forced to see whether they are derivations,
    and which, is an error that `tryEval` sees. -/
inductive AttrsYield (vm : Vm) (a₁ a₂ : AttrsRep Value) : CatchableErrorKind → Prop
  | type₁ {v₁ v₂ : Value} {c : CatchableErrorKind} (h₁ : a₁.select TYPE.contents = some v₁)
    (h₂ : a₂.select TYPE.contents = some v₂) (h : v₁.force vm = .ok (.catchable c)) :
    AttrsYield vm a₁ a₂ c
  | type₂ {v₁ v₂ s₁ : Value} {c : CatchableErrorKind} (h₁ : a₁.select TYPE.contents = some v₁)
    (h₂ : a₂.select TYPE.contents = some v₂) (hs₁ : v₁.force vm = .ok s₁)
    (hc : s₁.isCatchable = false) (h : v₂.force vm = .ok (.catchable c)) : AttrsYield vm a₁ a₂ c
  | outPath₁ {o₁ o₂ r : Value} {c : CatchableErrorKind} (hd : BothDerivations vm a₁ a₂)
    (h₁ : a₁.select OUT_PATH.contents = some o₁) (h₂ : a₂.select OUT_PATH.contents = some o₂)
    (h : o₁.force vm = .ok (.catchable c)) (hr : o₂.force vm = .ok r) : AttrsYield vm a₁ a₂ c
  | outPath₂ {o₁ o₂ r : Value} {c : CatchableErrorKind} (hd : BothDerivations vm a₁ a₂)
    (h₁ : a₁.select OUT_PATH.contents = some o₁) (h₂ : a₂.select OUT_PATH.contents = some o₂)
    (hr : o₁.force vm = .ok r) (hc : r.isCatchable = false)
    (h : o₂.force vm = .ok (.catchable c)) : AttrsYield vm a₁ a₂ c

/-- One of two values, or what is forced to compare them, is an error that `tryEval` sees. -/
inductive EqYields (vm : Vm) (ptrs : Pointers) (p : Pending) : CatchableErrorKind → Prop
  | left {b : Value} {c : CatchableErrorKind} (h : p.a.force vm = .ok (.catchable c))
    (hb : p.b.force vm = .ok b) : EqYields vm ptrs p c
  | right {a : Value} {c : CatchableErrorKind} (h : p.a.force vm = .ok a)
    (hc : a.isCatchable = false) (hb : p.b.force vm = .ok (.catchable c)) : EqYields vm ptrs p c
  | attrs {a₁ a₂ : AttrsRep Value} {c : CatchableErrorKind} (h₁ : p.a.force vm = .ok (.attrs a₁))
    (h₂ : p.b.force vm = .ok (.attrs a₂))
    (hsame : (PointerEquality.allowNested.rank ≤ p.ptrEq.rank && ptrs.sameAttrs a₁ a₂) = false)
    (h : AttrsYield vm a₁ a₂ c) : EqYields vm ptrs p c

/-- The comparison comes to a pair that it does not skip and that yields an error. -/
def EqMeets (vm : Vm) (ptrs : Pointers) (a b : Value) (ptrEq : PointerEquality)
    (c : CatchableErrorKind) : Prop :=
  ∃ p rest, EqReaches vm ptrs [⟨a, b, ptrEq⟩] (p :: rest) ∧ p.skipped ptrs = false ∧
    EqYields vm ptrs p c

/-- One of the two values that come next is an error, or one is met when they are compared as
    elements of lists. -/
inductive CmpYields (vm : Vm) (ptrs : Pointers) (p : Pending) : CatchableErrorKind → Prop
  | left {c : CatchableErrorKind} (hp : p.ptrEq ≠ .allowAll) (h : p.a = .catchable c) :
    CmpYields vm ptrs p c
  | right {c : CatchableErrorKind} (hp : p.ptrEq ≠ .allowAll) (ha : p.a.isCatchable = false)
    (h : p.b = .catchable c) : CmpYields vm ptrs p c
  | element {c : CatchableErrorKind} (hp : p.ptrEq = .allowAll)
    (h : EqMeets vm ptrs p.a p.b .allowAll c) : CmpYields vm ptrs p c

def CmpMeets (vm : Vm) (ptrs : Pointers) (a b : Value) (c : CatchableErrorKind) : Prop :=
  ∃ p rest, CmpReaches vm ptrs [⟨a, b, .forbidAll⟩] (p :: rest) ∧ CmpYields vm ptrs p c

/-- An error is met in an element of a list, before the order is known. -/
def ElementMeets (vm : Vm) (ptrs : Pointers) (a b : Value) : Prop :=
  ∃ x y rest c, CmpReaches vm ptrs [⟨a, b, .forbidAll⟩] (⟨x, y, .allowAll⟩ :: rest) ∧
    EqMeets vm ptrs x y .allowAll c

theorem isCatchable_catchable (c : CatchableErrorKind) : (Value.catchable c).isCatchable = true :=
  rfl

theorem isCatchable_attrs (a : AttrsRep Value) : (Value.attrs a).isCatchable = false := rfl

theorem isCatchable_of_isDerivation {v : Value} (h : v.isDerivation = true) :
    v.isCatchable = false := by
  cases v with
  | string s => rfl
  | _ => cases h

theorem compareDerivations_of_yield {a₁ a₂ : AttrsRep Value} {c : CatchableErrorKind}
    (h : AttrsYield vm a₁ a₂ c) :
    compareDerivations vm a₁ a₂ vals = some (.done (.ok (.catchable c))) := by
  have hboth : BothDerivations vm a₁ a₂ →
      compareDerivations vm a₁ a₂ vals = some (compareOutPaths vm a₁ a₂ vals) := by
    rintro ⟨v₁, v₂, s₁, s₂, h₁, h₂, hs₁, hs₂, hd₁, hd₂⟩
    simp only [compareDerivations, h₁, h₂, hs₁, hs₂, isCatchable_of_isDerivation hd₁,
      isCatchable_of_isDerivation hd₂, hd₁, hd₂, Bool.false_eq_true, if_false, Bool.and_true, if_true]
  cases h with
  | type₁ h₁ h₂ h => simp only [compareDerivations, h₁, h₂, h, isCatchable_catchable, if_true]
  | type₂ h₁ h₂ hs₁ hc h =>
    simp only [compareDerivations, h₁, h₂, hs₁, hc, h, isCatchable_catchable, Bool.false_eq_true,
      if_false, if_true]
  | outPath₁ hd h₁ h₂ h hr =>
    rw [hboth hd]
    simp only [compareOutPaths, h₁, h₂, h, hr, isCatchable_catchable, if_true]
  | outPath₂ hd h₁ h₂ hr hc h =>
    rw [hboth hd]
    simp only [compareOutPaths, h₁, h₂, h, hr, hc, isCatchable_catchable, Bool.false_eq_true, if_false,
      if_true]

/-- The error is the result. -/
theorem eqStep_of_yields {c : CatchableErrorKind} (hskip : p.skipped ptrs = false)
    (h : EqYields vm ptrs p c) : eqStep vm ptrs p vals = .done (.ok (.catchable c)) := by
  cases h with
  | left h hb =>
    simp only [eqStep, hskip, h, hb, compareForced, isCatchable_catchable, Bool.false_eq_true, if_false,
      if_true]
  | right h hc hb =>
    simp only [eqStep, hskip, h, hb, compareForced, hc, isCatchable_catchable, Bool.false_eq_true,
      if_false, if_true]
  | attrs h₁ h₂ hsame h =>
    simp only [eqStep, hskip, h₁, h₂, compareForced, compareValues, compareAttrs, hsame,
      compareDerivations_of_yield h, isCatchable_attrs, Bool.false_eq_true, if_false]

theorem nixEqLoop_of_reaches {r : Except Fault Value} (h : EqReaches vm ptrs vals vals')
    (hr : ∃ n, nixEqLoop vm ptrs n vals' = some r) : ∃ n, nixEqLoop vm ptrs n vals = some r := by
  induction h using Relation.ReflTransGen.head_induction_on with
  | refl => exact hr
  | head hstep _ ih =>
    obtain ⟨p, rest, rfl, hstep⟩ := hstep
    obtain ⟨n, hn⟩ := ih
    refine ⟨n + 1, ?_⟩
    rw [nixEqLoop, hstep]
    exact hn

/-- Equality passes on the first error that it meets. -/
theorem nixEq_of_meets {a b : Value} {ptrEq : PointerEquality} {c : CatchableErrorKind}
    (h : EqMeets vm ptrs a b ptrEq c) : ∃ n, nixEq vm ptrs n a b ptrEq = some (.ok (.catchable c)) := by
  obtain ⟨p, rest, hreach, hskip, hyields⟩ := h
  apply nixEqLoop_of_reaches hreach
  refine ⟨1, ?_⟩
  rw [nixEqLoop, eqStep_of_yields hskip hyields]

theorem nixCmpLoop_of_reaches {r : Except Fault (Except CatchableErrorKind Ordering)}
    (h : CmpReaches vm ptrs vals vals') (hr : ∃ n, nixCmpLoop vm ptrs n vals' = some r) :
    ∃ n, nixCmpLoop vm ptrs n vals = some r := by
  induction h using Relation.ReflTransGen.head_induction_on with
  | refl => exact hr
  | head hstep _ ih =>
    obtain ⟨p, rest, k, rfl, hstep⟩ := hstep
    obtain ⟨n, hn⟩ := ih
    have hne : cmpStep vm ptrs k p rest ≠ .unfinished := by
      rw [hstep]
      intro h
      cases h
    have hmono := cmpStep_mono hne (Nat.le_max_left k n)
    refine ⟨max k n + 1, ?_⟩
    rw [nixCmpLoop, hmono, hstep]
    exact nixCmpLoop_mono hn (Nat.le_max_right k n)

/-- An error in an element is turned into a type error. -/
theorem nixCmpLoop_of_element {x y : Value} {rest : List Pending} {c : CatchableErrorKind}
    (h : EqMeets vm ptrs x y .allowAll c) :
    ∃ n, nixCmpLoop vm ptrs n (⟨x, y, .allowAll⟩ :: rest) =
      some (.error (.error (.typeError "bool" "internal[catchable]"))) := by
  obtain ⟨n, hn⟩ := nixEq_of_meets h
  refine ⟨n + 1, ?_⟩
  rw [nixCmpLoop]
  simp only [cmpStep, hn, if_true, Value.asBool, cmpElement, Value.typeOf]

theorem cmpForced_right {a : Value} {c : CatchableErrorKind} (ha : a.isCatchable = false) :
    cmpForced vals a (.catchable c) = .done (.ok (.error c)) := by
  cases a with
  | catchable c => cases ha
  | _ => rfl

/-- The order passes on the errors that it meets if none of them is in an element of a list, and
    equality passes on all of them. -/
theorem nixCmp_catchable_iff (vm : Vm) (ptrs : Pointers) (a b : Value) :
    ((∀ c, CmpMeets vm ptrs a b c → ∃ n, nixCmpOrdering vm ptrs n a b = some (.ok (.error c))) ∧
      ∀ ptrEq c, EqMeets vm ptrs a b ptrEq c →
        ∃ n, nixEq vm ptrs n a b ptrEq = some (.ok (.catchable c))) ↔
      ¬ElementMeets vm ptrs a b := by
  constructor
  · rintro ⟨hcmp, -⟩ ⟨x, y, rest, c, hreach, hmeets⟩
    obtain ⟨n, hn⟩ := hcmp c ⟨_, rest, hreach, .element rfl hmeets⟩
    obtain ⟨m, hm⟩ := nixCmpLoop_of_reaches hreach (nixCmpLoop_of_element hmeets)
    have hn' := nixCmpLoop_mono hn (Nat.le_max_left n m)
    have hm' := nixCmpLoop_mono hm (Nat.le_max_right n m)
    cases hn'.symm.trans hm'
  · intro hnot
    refine ⟨?_, fun ptrEq c h => nixEq_of_meets h⟩
    rintro c ⟨p, rest, hreach, hyields⟩
    apply nixCmpLoop_of_reaches hreach
    refine ⟨1, ?_⟩
    cases hyields with
    | left hp h => simp only [nixCmpLoop, cmpStep, hp, h, cmpForced, if_false]
    | right hp ha h => simp only [nixCmpLoop, cmpStep, hp, h, cmpForced_right ha, if_false]
    | element hp h =>
      obtain ⟨x, y, ptrEq⟩ := p
      cases hp
      exact absurd ⟨x, y, rest, c, hreach, h⟩ hnot

/-- A machine whose only thunk throws. -/
def throws : Vm where
  force _ := .ok (.catchable (.throw (.plain [120])))
  pathImport p := .ok p
  call _ _ := .ok .null
  formatFloat _ := []

/-- No two lists or attribute sets are at one address. -/
def distinct : Pointers where
  closureIn _ := none
  sameList _ _ := false
  sameAttrs _ _ := false
  eq_of_sameList _ _ h := absurd h Bool.false_ne_true
  eq_of_sameAttrs _ _ h := absurd h Bool.false_ne_true

/-- `[ (throw "x") ] < [ 1 ]` is a type error, which `tryEval` does not see. -/
theorem nixCmp_throw :
    CmpMeets throws distinct (.list [.thunk 0]) (.list [.integer 1]) (.throw (.plain [120])) ∧
      nixCmpOrdering throws distinct 3 (.list [.thunk 0]) (.list [.integer 1]) =
        some (.error (.error (.typeError "bool" "internal[catchable]"))) := by
  refine ⟨⟨⟨.thunk 0, .integer 1, .allowAll⟩, [], .single ⟨_, [], 0, rfl, rfl⟩, ?_⟩, rfl⟩
  exact .element rfl ⟨⟨.thunk 0, .integer 1, .allowAll⟩, [], .refl, rfl, .left rfl rfl⟩

end Snix.Eval
