import Snix.Eval.Value.Basic
import Mathlib.Data.Int.Init

/-!
# Arithmetic

The operators and the builtins for numbers. Integers have 64 bits: a result that does not
fit wraps around, or the program panics where it checks for that. A division by zero and
the one quotient that does not fit panic in either case.

## Main definitions

- `intOp`, `arithmeticOp` — an operation on integers, and on numbers
- `opAdd`, `opSub`, `opMul`, `opDiv`, `opNegate` — the operators
- `builtinAdd`, `builtinSub`, `builtinMul`, `builtinDiv` — the builtins

## Main results

- `arithmetic_iff` — when operators and builtins agree, do not panic and are right
-/

namespace Snix.Eval

inductive ArithOp where
  | add
  | sub
  | mul
  | div
  deriving DecidableEq

/-- The result without a bound. The quotient is rounded toward zero. -/
def ArithOp.exact : ArithOp → Int → Int → Int
  | add, i₁, i₂ => i₁ + i₂
  | sub, i₁, i₂ => i₁ - i₂
  | mul, i₁, i₂ => i₁ * i₂
  | div, i₁, i₂ => Int.tdiv i₁ i₂

def FitsI64 (i : Int) : Prop := -2 ^ 63 ≤ i ∧ i < 2 ^ 63

instance (i : Int) : Decidable (FitsI64 i) := inferInstanceAs (Decidable (_ ∧ _))

/-- A number as 64 bits. Where the program does not check, it wraps around. -/
def wrapI64 (checks : Bool) (i : Int) : Except Fault Int :=
  if FitsI64 i then .ok i else if checks then .error .panic else .ok (i.bmod (2 ^ 64))

def intOp (checks : Bool) (op : ArithOp) (i₁ i₂ : Int) : Except Fault Int :=
  match op with
  | .div =>
    -- these two are checked in every build
    if i₂ = 0 then .error .panic
    else if FitsI64 (Int.tdiv i₁ i₂) then .ok (Int.tdiv i₁ i₂) else .error .panic
  | _ => wrapI64 checks (op.exact i₁ i₂)

def floatOp : ArithOp → Float → Float → Float
  | .add, f₁, f₂ => f₁ + f₂
  | .sub, f₁, f₂ => f₁ - f₂
  | .mul, f₁, f₂ => f₁ * f₂
  | .div, f₁, f₂ => f₁ / f₂

def Value.isNumber : Value → Bool
  | .integer _ | .float _ => true
  | _ => false

def notANumber (actual : String) : ErrorKind := .typeError "number (either int or float)" actual

def arithmeticOp (checks : Bool) (op : ArithOp) : Value → Value → Except Fault Value
  | .integer i₁, .integer i₂ => (intOp checks op i₁ i₂).map .integer
  | .float f₁, .float f₂ => .ok (.float (floatOp op f₁ f₂))
  | .integer i₁, .float f₂ => .ok (.float (floatOp op (Float.ofInt i₁) f₂))
  | .float f₁, .integer i₂ => .ok (.float (floatOp op f₁ (Float.ofInt i₂)))
  | v₁, v₂ => .error (.error (notANumber (if v₁.isNumber then v₂.typeOf else v₁.typeOf)))

/-- The operands are taken from the stack. An error among them is the result. -/
def liftedPop (a b : Value) (body : Except Fault Value) : Except Fault Value :=
  if b.isCatchable then .ok b else if a.isCatchable then .ok a else body

/-- The sum of two values, and what strings and paths are put together to. -/
def addValues (checks : Bool) (concat : Value → Value → Except Fault Value) (a b : Value) :
    Except Fault Value :=
  match a with
  | .integer _ | .float _ => arithmeticOp checks .add a b
  | _ => concat a b

def opAdd (checks : Bool) (concat : Value → Value → Except Fault Value) (a b : Value) :
    Except Fault Value :=
  liftedPop a b (addValues checks concat a b)

def opSub (checks : Bool) (a b : Value) : Except Fault Value :=
  liftedPop a b (arithmeticOp checks .sub a b)

def opMul (checks : Bool) (a b : Value) : Except Fault Value :=
  liftedPop a b (arithmeticOp checks .mul a b)

def Value.isZero : Value → Bool
  | .integer i => decide (i = 0)
  | .float f => f == 0
  | _ => false

def opDiv (checks : Bool) (a b : Value) : Except Fault Value :=
  liftedPop a b
    (if b.isZero then .error (.error .divisionByZero) else arithmeticOp checks .div a b)

def opNegate (checks : Bool) : Value → Except Fault Value
  | .integer i => (wrapI64 checks (-i)).map .integer
  | .float f => .ok (.float (-f))
  | .catchable e => .ok (.catchable e)
  | v => .error (.error (notANumber v.typeOf))

def builtinAdd (checks : Bool) (x y : Value) : Except Fault Value := arithmeticOp checks .add x y

def builtinSub (checks : Bool) (x y : Value) : Except Fault Value := arithmeticOp checks .sub x y

def builtinMul (checks : Bool) (x y : Value) : Except Fault Value := arithmeticOp checks .mul x y

def builtinDiv (checks : Bool) (x y : Value) : Except Fault Value := arithmeticOp checks .div x y

/-- The operator for an operation. -/
def operator (checks : Bool) (concat : Value → Value → Except Fault Value) :
    ArithOp → Value → Value → Except Fault Value
  | .add => opAdd checks concat
  | .sub => opSub checks
  | .mul => opMul checks
  | .div => opDiv checks

/-- The builtin for an operation. -/
def builtin (checks : Bool) : ArithOp → Value → Value → Except Fault Value
  | .add => builtinAdd checks
  | .sub => builtinSub checks
  | .mul => builtinMul checks
  | .div => builtinDiv checks

-- ====================
-- Integers
-- ====================

variable {checks : Bool} {i i₁ i₂ : Int} {op : ArithOp}

theorem wrapI64_of_fits (h : FitsI64 i) : wrapI64 checks i = .ok i := if_pos h

theorem wrapI64_ne_panic_iff : wrapI64 checks i ≠ .error .panic ↔ checks = false ∨ FitsI64 i := by
  unfold wrapI64
  by_cases h : FitsI64 i
  · simp [h]
  · cases checks <;> simp [h]

/-- The operations that the program does not panic at. -/
def Sound (checks : Bool) (op : ArithOp) (i₁ i₂ : Int) : Prop :=
  match op with
  | .div => i₂ ≠ 0 ∧ FitsI64 (Int.tdiv i₁ i₂)
  | _ => checks = false ∨ FitsI64 (op.exact i₁ i₂)

theorem intOp_ne_panic_iff : intOp checks op i₁ i₂ ≠ .error .panic ↔ Sound checks op i₁ i₂ := by
  cases op with
  | div =>
    show (if i₂ = 0 then _ else _) ≠ _ ↔ i₂ ≠ 0 ∧ FitsI64 (Int.tdiv i₁ i₂)
    by_cases hzero : i₂ = 0
    · simp [hzero]
    · by_cases hfits : FitsI64 (Int.tdiv i₁ i₂) <;> simp [hzero, hfits]
  | _ => exact wrapI64_ne_panic_iff

theorem intOp_of_fits (hdiv : op = .div → i₂ ≠ 0) (h : FitsI64 (op.exact i₁ i₂)) :
    intOp checks op i₁ i₂ = .ok (op.exact i₁ i₂) := by
  cases op with
  | div =>
    show (if i₂ = 0 then _ else _) = _
    have hfits : FitsI64 (Int.tdiv i₁ i₂) := h
    rw [if_neg (hdiv rfl), if_pos hfits]
    rfl
  | _ => exact wrapI64_of_fits h

theorem map_integer_ne_panic {r : Except Fault Int} :
    r.map Value.integer ≠ .error .panic ↔ r ≠ .error .panic := by
  cases r with
  | error f => simp [Except.map]
  | ok i => simp [Except.map]

theorem builtin_integer :
    builtin checks op (.integer i₁) (.integer i₂) = (intOp checks op i₁ i₂).map .integer := by
  cases op <;> rfl

theorem operator_integer {concat : Value → Value → Except Fault Value} (h : op = .div → i₂ ≠ 0) :
    operator checks concat op (.integer i₁) (.integer i₂) =
      builtin checks op (.integer i₁) (.integer i₂) := by
  cases op with
  | div =>
    have hzero : (Value.integer i₂).isZero = false := decide_eq_false (h rfl)
    simp only [operator, opDiv, hzero, Bool.false_eq_true, if_false]
    rfl
  | _ => rfl

/-- An operator and its builtin do not panic, agree and are right just if the result fits, or the
    program does not check and it is no quotient. A divisor of zero is not right. -/
theorem arithmetic_iff (checks : Bool) (concat : Value → Value → Except Fault Value) :
    (∀ (op : ArithOp) (a b : Int64),
      (operator checks concat op (.integer a.toInt) (.integer b.toInt) ≠ .error .panic ∧
        builtin checks op (.integer a.toInt) (.integer b.toInt) ≠ .error .panic ∧
        operator checks concat op (.integer a.toInt) (.integer b.toInt) =
          builtin checks op (.integer a.toInt) (.integer b.toInt) ∧
        ((op = .div → b.toInt ≠ 0) → FitsI64 (op.exact a.toInt b.toInt) →
          operator checks concat op (.integer a.toInt) (.integer b.toInt) =
            .ok (.integer (op.exact a.toInt b.toInt)))) ↔
      Sound checks op a.toInt b.toInt) ∧
    ∀ a : Int64,
      (opNegate checks (.integer a.toInt) ≠ .error .panic ∧
        (FitsI64 (-a.toInt) → opNegate checks (.integer a.toInt) = .ok (.integer (-a.toInt)))) ↔
      checks = false ∨ FitsI64 (-a.toInt) := by
  refine ⟨fun op a b => ?_, fun a => ?_⟩
  · constructor
    · rintro ⟨-, hbuiltin, -⟩
      rw [builtin_integer, map_integer_ne_panic] at hbuiltin
      exact intOp_ne_panic_iff.mp hbuiltin
    · intro hsound
      have hdiv : op = .div → b.toInt ≠ 0 := by
        rintro rfl
        exact hsound.1
      have hpanic : builtin checks op (.integer a.toInt) (.integer b.toInt) ≠ .error .panic := by
        rw [builtin_integer, map_integer_ne_panic]
        exact intOp_ne_panic_iff.mpr hsound
      rw [operator_integer hdiv]
      refine ⟨hpanic, hpanic, rfl, fun _ hfits => ?_⟩
      rw [builtin_integer, intOp_of_fits hdiv hfits]
      rfl
  · show ((wrapI64 checks (-a.toInt)).map Value.integer ≠ _ ∧ _) ↔ _
    rw [map_integer_ne_panic, wrapI64_ne_panic_iff]
    refine and_iff_left fun hfits => ?_
    show (wrapI64 checks (-a.toInt)).map Value.integer = _
    rw [wrapI64_of_fits hfits]
    rfl

/-- A sum that does not fit, where the program checks; and in every build, a quotient that does
    not fit and a division by zero, which the operator reports. -/
theorem arithmetic_panics :
    builtinAdd true (.integer Int64.maxValue.toInt) (.integer (1 : Int64).toInt) = .error .panic ∧
      opDiv false (.integer Int64.minValue.toInt) (.integer (-1 : Int64).toInt) = .error .panic ∧
      builtinDiv false (.integer (1 : Int64).toInt) (.integer (0 : Int64).toInt) = .error .panic ∧
      opDiv false (.integer (1 : Int64).toInt) (.integer (0 : Int64).toInt) =
        .error (.error .divisionByZero) :=
  ⟨rfl, rfl, rfl, rfl⟩

end Snix.Eval
