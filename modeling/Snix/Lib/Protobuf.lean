import Snix.Lib.Bytes

/-!
# Protobuf messages

A message is a list of fields, each with its number. A value is a number, written in groups of seven
bits, or a byte string behind its length. A record of fields is read by going through them, so that
the last value of a field counts.

## Main definitions

- `writeVarint`, `readVarint` — numbers of 64 bits
- `ProtoValue`, `writeFields`, `readFields` — messages
- `bytesField`, `varintField` — fields that are left out if they have their default

## Main results

- `readFields_writeFields` — a message is read back
- `length_writeVarint_of_lt` — the length of short numbers
-/

namespace Snix.Protobuf

-- ====================
-- Numbers
-- ====================

/-- The groups of a number, of which there may be one more than `k`. -/
def writeGroups : ℕ → ℕ → Bytes
  | 0, n => [UInt8.ofNat n]
  | k + 1, n =>
    if n < 128 then [UInt8.ofNat n] else UInt8.ofNat (n % 128 + 128) :: writeGroups k (n / 128)

/-- A number of 64 bits. -/
def writeVarint (n : ℕ) : Bytes := writeGroups 9 n

def readGroups : ℕ → Bytes → Option (ℕ × Bytes)
  | _, [] => none
  | 0, c :: s => if c.toNat < 2 then some (c.toNat, s) else none
  | k + 1, c :: s =>
    if c.toNat < 128 then some (c.toNat, s)
    else (readGroups k s).map fun r => (c.toNat - 128 + 128 * r.1, r.2)

/-- A number of 64 bits, and what is behind it. -/
def readVarint (s : Bytes) : Option (ℕ × Bytes) := readGroups 9 s

theorem readGroups_writeGroups {k n : ℕ} (h : n < 2 * 128 ^ k) (s : Bytes) :
    readGroups k (writeGroups k n ++ s) = some (n, s) := by
  induction k generalizing n with
  | zero =>
    have hn : n % 256 = n := Nat.mod_eq_of_lt (by omega)
    simp only [writeGroups, List.singleton_append, readGroups, UInt8.toNat_ofNat', hn]
    exact if_pos (by omega)
  | succ k ih =>
    rw [writeGroups]
    split_ifs with hsmall
    · have hn : n % 256 = n := Nat.mod_eq_of_lt (by omega)
      simp only [List.singleton_append, readGroups, UInt8.toNat_ofNat', hn]
      exact if_pos hsmall
    · have hgroup : (n % 128 + 128) % 256 = n % 128 + 128 := Nat.mod_eq_of_lt (by omega)
      have hrest : n / 128 < 2 * 128 ^ k := by
        rw [Nat.pow_succ] at h
        omega
      simp only [List.cons_append, readGroups, UInt8.toNat_ofNat', hgroup]
      rw [if_neg (by omega), ih hrest, Option.map_some]
      congr 2
      omega

/-- A number is read back. -/
theorem readVarint_writeVarint {n : ℕ} (h : n < 2 ^ 64) (s : Bytes) :
    readVarint (writeVarint n ++ s) = some (n, s) :=
  readGroups_writeGroups (k := 9) (lt_of_lt_of_eq h (by decide)) s

theorem length_writeGroups_le (k n : ℕ) : (writeGroups k n).length ≤ k + 1 := by
  induction k generalizing n with
  | zero => exact Nat.le_refl 1
  | succ k ih =>
    rw [writeGroups]
    split_ifs
    · exact Nat.le_add_left 1 _
    · exact Nat.succ_le_succ (ih _)

theorem length_writeVarint_le (n : ℕ) : (writeVarint n).length ≤ 10 := length_writeGroups_le 9 n

theorem writeVarint_of_lt {n : ℕ} (h : n < 128) : writeVarint n = [UInt8.ofNat n] := if_pos h

/-- Numbers of up to fourteen bits. -/
theorem length_writeVarint_of_lt {n : ℕ} (h : n < 16384) :
    (writeVarint n).length = if n < 128 then 1 else 2 := by
  split_ifs with hsmall
  · rw [writeVarint_of_lt hsmall]
    rfl
  · rw [writeVarint, writeGroups, if_neg hsmall, writeGroups, if_pos (by omega)]
    rfl

-- ====================
-- Fields
-- ====================

/-- The value of a field. Values of fixed width are not used. -/
inductive ProtoValue where
  | varint (n : ℕ)
  | bytes (b : Bytes)

/-- The fields of a message. -/
abbrev ProtoFields := List (ℕ × ProtoValue)

def writeField : ℕ × ProtoValue → Bytes
  | (number, .varint n) => writeVarint (number * 8) ++ writeVarint n
  | (number, .bytes b) => writeVarint (number * 8 + 2) ++ (writeVarint b.length ++ b)

def writeFields (fields : ProtoFields) : Bytes := fields.flatMap writeField

/-- The value behind a key, and what is behind that. -/
def readValue (key : ℕ) (s : Bytes) : Option (ProtoValue × Bytes) :=
  match key % 8 with
  | 0 => (readVarint s).map fun r => (.varint r.1, r.2)
  | 2 =>
    match readVarint s with
    | none => none
    | some (len, s) => if len ≤ s.length then some (.bytes (s.take len), s.drop len) else none
  | _ => none

/-- Reads fields up to the end. There are no more of them than the given number. -/
def readFieldsGo : ℕ → Bytes → Option ProtoFields
  | _, [] => some []
  | 0, _ :: _ => none
  | k + 1, s =>
    match readVarint s with
    | none => none
    | some (key, s) =>
      if key / 8 = 0 ∨ 2 ^ 32 ≤ key then none
      else
        match readValue key s with
        | none => none
        | some (value, s) => (readFieldsGo k s).map fun fields => (key / 8, value) :: fields

def readFields (s : Bytes) : Option ProtoFields := readFieldsGo s.length s

/-- Fields that can be written. -/
def ProtoValue.Fits : ProtoValue → Prop
  | .varint n => n < 2 ^ 64
  | .bytes b => b.length < 2 ^ 64

def FieldsFit (fields : ProtoFields) : Prop :=
  ∀ f ∈ fields, 0 < f.1 ∧ f.1 < 2 ^ 29 ∧ f.2.Fits

theorem writeVarint_ne_nil (n : ℕ) : writeVarint n ≠ [] := by
  rw [writeVarint, writeGroups]
  split_ifs <;> exact List.cons_ne_nil _ _

/-- The value of a field is read back behind its key. -/
theorem readFieldsGo_writeField {number : ℕ} {value : ProtoValue} (hpos : 0 < number)
    (hlt : number < 2 ^ 29) (hfits : value.Fits) (k : ℕ) (s : Bytes) :
    readFieldsGo (k + 1) (writeField (number, value) ++ s) =
      (readFieldsGo k s).map fun fields => (number, value) :: fields := by
  have hgo : ∀ (key : ℕ) (payload : Bytes), key < 2 ^ 32 → key / 8 = number →
      readValue key (payload ++ s) = some (value, s) →
      readFieldsGo (k + 1) (writeVarint key ++ (payload ++ s)) =
        (readFieldsGo k s).map fun fields => (number, value) :: fields := by
    intro key payload hkey hnumber hvalue
    obtain ⟨c, rest, hcons⟩ := List.exists_cons_of_ne_nil
      (List.append_ne_nil_of_left_ne_nil (writeVarint_ne_nil key) (payload ++ s))
    have hread := readVarint_writeVarint (lt_trans hkey (by decide)) (payload ++ s)
    rw [hcons] at hread ⊢
    rw [readFieldsGo, hread]
    · dsimp only
      rw [if_neg (by omega), hvalue, hnumber]
    · exact List.cons_ne_nil c rest
  cases value with
  | varint n =>
    rw [writeField, List.append_assoc]
    refine hgo _ _ (by omega) (by omega) ?_
    have hkind : number * 8 % 8 = 0 := Nat.mul_mod_left number 8
    rw [readValue, hkind, readVarint_writeVarint hfits]
    rfl
  | bytes b =>
    rw [writeField, List.append_assoc]
    refine hgo _ _ (by omega) (by omega) ?_
    have hkind : (number * 8 + 2) % 8 = 2 := by omega
    rw [readValue, hkind, List.append_assoc, readVarint_writeVarint hfits]
    dsimp only
    rw [if_pos (by rw [List.length_append]; omega), List.take_left, List.drop_left]
    rfl

theorem readFieldsGo_writeFields {fields : ProtoFields} (h : FieldsFit fields) {k : ℕ}
    (hk : fields.length ≤ k) : readFieldsGo k (writeFields fields) = some fields := by
  induction fields generalizing k with
  | nil => cases k <;> rfl
  | cons f fields ih =>
    obtain ⟨number, value⟩ := f
    obtain ⟨⟨hpos, hlt, hfits⟩, htail⟩ := List.forall_mem_cons.mp h
    obtain ⟨k, rfl⟩ := Nat.exists_eq_add_of_le' (Nat.le_trans (Nat.le_add_left 1 fields.length) hk)
    rw [writeFields, List.flatMap_cons, readFieldsGo_writeField hpos hlt hfits]
    have hrest := ih htail (Nat.le_of_succ_le_succ hk)
    rw [writeFields] at hrest
    rw [hrest]
    rfl

theorem length_le_length_writeFields (fields : ProtoFields) :
    fields.length ≤ (writeFields fields).length := by
  induction fields with
  | nil => exact Nat.le_refl 0
  | cons f fields ih =>
    have hkey : ∀ n, 0 < (writeVarint n).length := fun n => List.length_pos_of_ne_nil (writeVarint_ne_nil n)
    have hpos : 0 < (writeField f).length := by
      obtain ⟨number, value⟩ := f
      cases value with
      | varint n =>
        rw [writeField, List.length_append]
        exact Nat.add_pos_left (hkey _) _
      | bytes b =>
        rw [writeField, List.length_append]
        exact Nat.add_pos_left (hkey _) _
    rw [writeFields, List.flatMap_cons, List.length_append, List.length_cons]
    rw [writeFields] at ih
    omega

/-- A message is read back. -/
theorem readFields_writeFields {fields : ProtoFields} (h : FieldsFit fields) :
    readFields (writeFields fields) = some fields :=
  readFieldsGo_writeFields h (length_le_length_writeFields fields)

-- ====================
-- Defaults
-- ====================

/-- A byte string, which is left out if it is empty. -/
def bytesField (number : ℕ) (b : Bytes) : ProtoFields :=
  if b = [] then [] else [(number, .bytes b)]

/-- A number, which is left out if it is zero. -/
def varintField (number n : ℕ) : ProtoFields := if n = 0 then [] else [(number, .varint n)]

theorem length_writeFields_append (fields fields' : ProtoFields) :
    (writeFields (fields ++ fields')).length =
      (writeFields fields).length + (writeFields fields').length := by
  rw [writeFields, List.flatMap_append, List.length_append]
  rfl

/-- The key of a field with a small number is one byte. -/
theorem length_writeFields_bytes {number : ℕ} (h : number < 16) (b : Bytes) :
    (writeFields [(number, .bytes b)]).length = 1 + (writeVarint b.length).length + b.length := by
  rw [writeFields, List.flatMap_singleton, writeField, writeVarint_of_lt (by omega)]
  simp only [List.length_append, List.length_cons, List.length_nil]
  omega

theorem length_writeFields_varint_le {number : ℕ} (h : number < 16) (n : ℕ) :
    (writeFields (varintField number n)).length ≤ 11 := by
  rw [varintField]
  split_ifs
  · exact Nat.zero_le 11
  · have hlen := length_writeVarint_le n
    rw [writeFields, List.flatMap_singleton, writeField, writeVarint_of_lt (by omega)]
    rw [List.length_append, List.length_singleton]
    omega

end Snix.Protobuf
