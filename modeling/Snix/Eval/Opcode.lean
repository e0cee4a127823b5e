import Snix.Eval.Value.Basic
import Snix.Lib.LittleEndian

/-!
# Operations

The instructions of the abstract machine, and what their operands are made of: positions that
upvalues are captured from, how many upvalues there are, and coercions.

## Main definitions

- `Op`, `OpArg` — the operations, and the kinds of their operands
- `Capture` — where an upvalue is captured from
- `Position`, `UpvalueData` — the numbers that stand for them
- `Instr` — the instructions

## Main results

- `Op.ofByte_toByte`, `CoercionKind.ofByte_toByte` — bytes are read back
- `Position.capture?_ofCapture` — positions are read back
- `UpvalueData.count_new`, `UpvalueData.capturesWith_new` — the number of upvalues is read back
-/

namespace Snix.Eval

/-- The operations, in the order of their bytes. -/
inductive Op where
  | constant
  | pop
  | invert
  | negate
  | add
  | sub
  | mul
  | div
  | equal
  | less
  | lessOrEq
  | more
  | moreOrEq
  | jump
  | jumpIfTrue
  | jumpIfFalse
  | jumpIfCatchable
  | jumpIfNotFound
  | jumpIfNoFinaliseRequest
  | attrs
  | attrsUpdate
  | attrsSelect
  | attrsTrySelect
  | hasAttr
  | validateClosedFormals
  | pushWith
  | popWith
  | resolveWith
  | list
  | concat
  | interpolate
  | coerceToString
  | findFile
  | resolveHomePath
  | interpolatePath
  | assertBool
  | assertAttrs
  | getLocal
  | closeScope
  | assertFail
  | call
  | getUpvalue
  | closure
  | thunkClosure
  | thunkSuspended
  | force
  | finalise
  | ret
  /-- What every other byte stands for. -/
  | invalid
  deriving DecidableEq

/-- The kinds of operands. -/
inductive OpArg where
  | none
  | uvarint
  /-- Two bytes. -/
  | fixed
  | custom
  deriving DecidableEq

namespace Op

/-- All operations but the one for invalid bytes. -/
def valid : List Op :=
  [.constant, .pop, .invert, .negate, .add, .sub, .mul, .div, .equal, .less, .lessOrEq, .more,
    .moreOrEq, .jump, .jumpIfTrue, .jumpIfFalse, .jumpIfCatchable, .jumpIfNotFound,
    .jumpIfNoFinaliseRequest, .attrs, .attrsUpdate, .attrsSelect, .attrsTrySelect, .hasAttr,
    .validateClosedFormals, .pushWith, .popWith, .resolveWith, .list, .concat, .interpolate,
    .coerceToString, .findFile, .resolveHomePath, .interpolatePath, .assertBool, .assertAttrs,
    .getLocal, .closeScope, .assertFail, .call, .getUpvalue, .closure, .thunkClosure,
    .thunkSuspended, .force, .finalise, .ret]

def toByte (op : Op) : UInt8 := UInt8.ofNat (valid.idxOf op)

def ofByte (num : UInt8) : Op := valid.getD num.toNat .invalid

theorem ofByte_toByte (op : Op) : ofByte op.toByte = op := by
  cases op <;> decide

def argType : Op → OpArg
  | .constant | .attrs | .pushWith | .list | .interpolate | .interpolatePath | .getLocal
  | .closeScope | .getUpvalue | .finalise => .uvarint
  | .jump | .jumpIfTrue | .jumpIfFalse | .jumpIfCatchable | .jumpIfNotFound
  | .jumpIfNoFinaliseRequest => .fixed
  | .coerceToString | .closure | .thunkClosure | .thunkSuspended => .custom
  | _ => .none

end Op

namespace CoercionKind

def toByte (k : CoercionKind) : UInt8 := k.strong.toUInt8 ||| (k.importPaths.toUInt8 <<< 1)

def ofByte (byte : UInt8) : CoercionKind := ⟨byte &&& 0x01 != 0, byte &&& 0x02 != 0⟩

theorem ofByte_toByte (k : CoercionKind) : ofByte k.toByte = k := by
  obtain ⟨strong, importPaths⟩ := k
  cases strong <;> cases importPaths <;> decide

end CoercionKind

section Tagged

variable {x tag k : UInt64}

/-- The tag is in the lowest bits, and the number above them. -/
theorem toNat_tagged (hk : k < 64) (hx : x.toNat < 2 ^ (64 - k.toNat))
    (htag : tag.toNat < 2 ^ k.toNat) :
    ((x <<< k) ||| tag).toNat = 2 ^ k.toNat * x.toNat + tag.toNat := by
  have hk' : k.toNat < 64 := hk
  have hpow : 2 ^ k.toNat * 2 ^ (64 - k.toNat) = 2 ^ 64 := by
    rw [← Nat.pow_add, Nat.add_sub_cancel' (Nat.le_of_lt hk')]
  have hlt : 2 ^ k.toNat * x.toNat < 2 ^ 64 := by
    rw [← hpow]
    exact Nat.mul_lt_mul_of_pos_left hx (Nat.two_pow_pos _)
  have hshift : (x <<< k).toNat = 2 ^ k.toNat * x.toNat := by
    rw [UInt64.toNat_shiftLeft, Nat.mod_eq_of_lt hk', Nat.shiftLeft_eq, Nat.mul_comm,
      Nat.mod_eq_of_lt hlt]
  rw [UInt64.toNat_or, hshift, ← Nat.two_pow_add_eq_or_of_lt htag]

theorem shiftRight_tagged (hk : k < 64) (hx : x.toNat < 2 ^ (64 - k.toNat))
    (htag : tag.toNat < 2 ^ k.toNat) : ((x <<< k) ||| tag) >>> k = x := by
  have hk' : k.toNat < 64 := hk
  rw [← UInt64.toNat_inj, UInt64.toNat_shiftRight, toNat_tagged hk hx htag, Nat.mod_eq_of_lt hk',
    Nat.shiftRight_eq_div_pow, Nat.mul_add_div (Nat.two_pow_pos _), Nat.div_eq_of_lt htag,
    Nat.add_zero]

theorem and_tagged (mask : UInt64) (hk : k < 64) (hx : x.toNat < 2 ^ (64 - k.toNat))
    (htag : tag.toNat < 2 ^ k.toNat) (hmask : mask.toNat = 2 ^ k.toNat - 1) :
    ((x <<< k) ||| tag) &&& mask = tag := by
  rw [← UInt64.toNat_inj, UInt64.toNat_and, toNat_tagged hk hx htag, hmask,
    Nat.and_two_pow_sub_one_eq_mod, Nat.mul_add_mod, Nat.mod_eq_of_lt htag]

end Tagged

/-- Where an upvalue is captured from. -/
inductive Capture where
  /-- From the stack. -/
  | stack (idx : UInt64)
  /-- From the stack, but not before the scope is bound. -/
  | deferred (idx : UInt64)
  /-- From the upvalues of the frame. -/
  | upvalue (idx : UInt64)
  deriving DecidableEq

/-- The index, which is one into a vector. -/
def Capture.idx : Capture → UInt64
  | .stack idx | .deferred idx | .upvalue idx => idx

namespace Position

def stackIndex (idx : UInt64) : UInt64 := idx <<< 2

def deferredLocal (idx : UInt64) : UInt64 := (idx <<< 2) ||| 1

def upvalueIndex (idx : UInt64) : UInt64 := (idx <<< 2) ||| 2

def runtimeStackIndex (pos : UInt64) : Option UInt64 :=
  if pos &&& 0b11 = 0 then some (pos >>> 2) else none

def runtimeDeferredLocal (pos : UInt64) : Option UInt64 :=
  if pos &&& 0b11 = 1 then some (pos >>> 2) else none

def runtimeUpvalueIndex (pos : UInt64) : Option UInt64 :=
  if pos &&& 0b11 = 2 then some (pos >>> 2) else none

/-- The position that the compiler emits. -/
def ofCapture : Capture → UInt64
  | .stack idx => stackIndex idx
  | .deferred idx => deferredLocal idx
  | .upvalue idx => upvalueIndex idx

/-- What the machine takes a position for. -/
def capture? (pos : UInt64) : Option Capture :=
  match runtimeStackIndex pos with
  | some idx => some (.stack idx)
  | none =>
    match runtimeDeferredLocal pos with
    | some idx => some (.deferred idx)
    | none => (runtimeUpvalueIndex pos).map .upvalue

/-- The tag and the index of a position. -/
theorem untag (idx : UInt64) (hidx : idx.toNat < 2 ^ 62) (tag : UInt64) (htag : tag.toNat < 2 ^ 2) :
    ((idx <<< 2) ||| tag) &&& 0b11 = tag ∧ ((idx <<< 2) ||| tag) >>> 2 = idx :=
  ⟨and_tagged 0b11 (by decide) hidx htag rfl, shiftRight_tagged (by decide) hidx htag⟩

theorem capture?_ofCapture {c : Capture} (h : c.idx.toNat < 2 ^ 62) :
    capture? (ofCapture c) = some c := by
  cases c with
  | stack idx =>
    obtain ⟨hand, hshift⟩ := untag idx h 0 (by decide)
    rw [UInt64.or_zero] at hand hshift
    simp [capture?, ofCapture, stackIndex, runtimeStackIndex, hand, hshift]
  | deferred idx =>
    obtain ⟨hand, hshift⟩ := untag idx h 1 (by decide)
    simp [capture?, ofCapture, deferredLocal, runtimeStackIndex, runtimeDeferredLocal, hand, hshift]
  | upvalue idx =>
    obtain ⟨hand, hshift⟩ := untag idx h 2 (by decide)
    simp [capture?, ofCapture, upvalueIndex, runtimeStackIndex, runtimeDeferredLocal,
      runtimeUpvalueIndex, hand, hshift]

end Position

namespace UpvalueData

/-- The number of upvalues, and whether the `with` stack is captured. -/
def new (count : ℕ) (capturesWith : Bool) : UInt64 :=
  (UInt64.ofNat count <<< 1) ||| (if capturesWith then 1 else 0)

def count (data : UInt64) : ℕ := (data >>> 1).toNat

def capturesWith (data : UInt64) : Bool := data &&& 0b1 == 1

variable {n : ℕ}

theorem toNat_ofNat_count (h : n < 2 ^ 63) : (UInt64.ofNat n).toNat < 2 ^ (64 - (1 : UInt64).toNat) := by
  rw [UInt64.toNat_ofNat_of_lt' (Nat.lt_trans h (by decide))]
  exact h

theorem count_new (h : n < 2 ^ 63) (w : Bool) : count (new n w) = n := by
  rw [count, new, shiftRight_tagged (by decide) (toNat_ofNat_count h) (by cases w <;> decide),
    UInt64.toNat_ofNat_of_lt' (Nat.lt_trans h (by decide))]

theorem capturesWith_new (h : n < 2 ^ 63) (w : Bool) : capturesWith (new n w) = w := by
  rw [capturesWith, new,
    and_tagged 0b1 (by decide) (toNat_ofNat_count h) (by cases w <;> decide) rfl]
  cases w <;> rfl

end UpvalueData

/-- The instructions, with their operands. -/
inductive Instr where
  | plain (op : Op)
  | uvarint (op : Op) (x : UInt64)
  | fixed (op : Op) (x : UInt16)
  | coerce (kind : CoercionKind)
  /-- A blueprint, and what is captured for it. -/
  | capture (op : Op) (idx : UInt64) (capturesWith : Bool) (upvalues : List Capture)
  deriving DecidableEq

end Snix.Eval
