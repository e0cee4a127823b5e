import Snix.Lib.Bytes

/-!
# Lowercase hexadecimal

The lowercase base 16 encoding, most significant nibble first, together with
the decoding error shared by all digest encodings.

## Main results

- `hexDecode_hexEncode` — decoding an encoding gives the bytes back
- `hexEncode_digits` — an encoding consists of hexadecimal digits only
-/

namespace Snix

/-- Why a decoding failed. -/
inductive DecodeKind where
  | length | symbol | trailing | padding
  deriving DecidableEq, Repr

/-- Where and why a decoding failed. -/
structure DecodeError where
  position : ℕ
  kind : DecodeKind
  deriving DecidableEq, Repr

/-- The digit of a nibble. -/
def hexDigit (n : UInt8) : UInt8 := if n < 10 then n + 48 else n + 87

/-- Is the byte a lowercase hexadecimal digit? -/
def isHexDigit (c : UInt8) : Bool := (48 ≤ c && c ≤ 57) || (97 ≤ c && c ≤ 102)

/-- The nibble of a digit. -/
def hexValue? (c : UInt8) : Option UInt8 :=
  if 48 ≤ c && c ≤ 57 then some (c - 48)
  else if 97 ≤ c && c ≤ 102 then some (c - 87)
  else none

/-- Two digits for every byte. -/
def hexEncode (b : Bytes) : Bytes :=
  b.flatMap fun (x : UInt8) => [hexDigit (x >>> 4), hexDigit (x &&& 15)]

/-- Decodes the pairs of digits from position `pos` on. -/
def hexDecodeFrom (pos : ℕ) : Bytes → Except DecodeError Bytes
  | [] => .ok []
  | [_] => .error ⟨pos, .length⟩
  | c :: d :: rest =>
    match hexValue? c, hexValue? d with
    | some hi, some lo => (hexDecodeFrom (pos + 2) rest).map fun out => (hi <<< 4 ||| lo) :: out
    | none, _ => .error ⟨pos, .symbol⟩
    | some _, none => .error ⟨pos + 1, .symbol⟩

/-- Decodes an even number of digits. -/
def hexDecode (b : Bytes) : Except DecodeError Bytes :=
  if b.length % 2 ≠ 0 then .error ⟨b.length - 1, .length⟩ else hexDecodeFrom 0 b

/-- A property of all bytes follows from its 256 instances. -/
theorem forall_byte {p : UInt8 → Prop} (h : ∀ n < 256, p (UInt8.ofNat n)) (x : UInt8) :
    p x := by
  have := h x.toNat x.toNat_lt
  simpa using this

theorem hexValue?_hexDigit_nibbles (x : UInt8) :
    hexValue? (hexDigit (x >>> 4)) = some (x >>> 4) ∧
      hexValue? (hexDigit (x &&& 15)) = some (x &&& 15) ∧
      (x >>> 4) <<< 4 ||| (x &&& 15) = x := by
  revert x
  refine forall_byte ?_
  decide +kernel

theorem hexDecodeFrom_hexEncode (b : Bytes) (pos : ℕ) :
    hexDecodeFrom pos (hexEncode b) = .ok b := by
  induction b generalizing pos with
  | nil => rfl
  | cons x b ih =>
    obtain ⟨hhi, hlo, hx⟩ := hexValue?_hexDigit_nibbles x
    change hexDecodeFrom pos (hexDigit (x >>> 4) :: hexDigit (x &&& 15) :: hexEncode b) = _
    simp [hexDecodeFrom, hhi, hlo, hx, ih, Except.map]

theorem length_hexEncode (b : Bytes) : (hexEncode b).length = 2 * b.length := by
  induction b with
  | nil => rfl
  | cons x b ih =>
    change (hexEncode b).length + 1 + 1 = _
    rw [ih, List.length_cons]
    omega

/-- Decoding an encoding gives the bytes back. -/
@[simp] theorem hexDecode_hexEncode (b : Bytes) : hexDecode (hexEncode b) = .ok b := by
  rw [hexDecode, length_hexEncode, hexDecodeFrom_hexEncode]
  simp

theorem length_hexDecodeFrom {pos : ℕ} {b x : Bytes} (h : hexDecodeFrom pos b = .ok x) :
    b.length = 2 * x.length := by
  induction pos, b using hexDecodeFrom.induct generalizing x with
  | case1 =>
    cases h
    rfl
  | case2 => cases h
  | case3 pos c d rest hi lo hhi hlo ih =>
    rw [hexDecodeFrom, hhi, hlo] at h
    cases hrest : hexDecodeFrom (pos + 2) rest with
    | error e =>
      rw [hrest] at h
      cases h
    | ok out =>
      rw [hrest] at h
      cases h
      simp only [List.length_cons, ih hrest]
      omega
  | case4 pos c d rest hhi =>
    rw [hexDecodeFrom, hhi] at h
    cases h
  | case5 pos c d rest hi hhi hlo =>
    rw [hexDecodeFrom, hhi, hlo] at h
    cases h

/-- Two digits make a byte. -/
theorem length_hexDecode {b x : Bytes} (h : hexDecode b = .ok x) : b.length = 2 * x.length := by
  rw [hexDecode] at h
  split at h
  · cases h
  · exact length_hexDecodeFrom h

theorem isSome_of_mem_hexDecodeFrom {pos : ℕ} {b x : Bytes} {c : UInt8}
    (h : hexDecodeFrom pos b = .ok x) (hc : c ∈ b) : (hexValue? c).isSome = true := by
  induction pos, b using hexDecodeFrom.induct generalizing x with
  | case1 => cases hc
  | case2 => cases h
  | case3 pos d e rest hi lo hlo hhi ih =>
    rw [hexDecodeFrom, hhi, hlo] at h
    cases hrest : hexDecodeFrom (pos + 2) rest with
    | error e =>
      rw [hrest] at h
      cases h
    | ok out =>
      obtain rfl | hc := List.mem_cons.mp hc
      · exact Option.isSome_of_eq_some hhi
      obtain rfl | hc := List.mem_cons.mp hc
      · exact Option.isSome_of_eq_some hlo
      · exact ih hrest hc
  | case4 pos d e rest hhi =>
    rw [hexDecodeFrom, hhi] at h
    cases h
  | case5 pos d e rest hi hhi hlo =>
    rw [hexDecodeFrom, hhi, hlo] at h
    cases h

/-- What is decoded consists of digits. -/
theorem isSome_of_mem_hexDecode {b x : Bytes} {c : UInt8} (h : hexDecode b = .ok x) (hc : c ∈ b) :
    (hexValue? c).isSome = true := by
  rw [hexDecode] at h
  split at h
  · cases h
  · exact isSome_of_mem_hexDecodeFrom h hc

/-- An encoding consists of hexadecimal digits only. -/
theorem hexEncode_digits {b : Bytes} {c : UInt8} (h : c ∈ hexEncode b) :
    (48 ≤ c ∧ c ≤ 57) ∨ (97 ≤ c ∧ c ≤ 102) := by
  obtain ⟨x, -, hx⟩ := List.mem_flatMap.mp h
  have hrange : ∀ x : UInt8, isHexDigit (hexDigit (x >>> 4)) = true ∧
      isHexDigit (hexDigit (x &&& 15)) = true := by
    refine forall_byte ?_
    decide +kernel
  have hc : isHexDigit c = true := by
    rcases List.mem_cons.mp hx with rfl | hx
    · exact (hrange x).1
    · rw [List.mem_singleton.mp hx]
      exact (hrange x).2
  simpa [isHexDigit] using hc

theorem hexEncode_injective : Function.Injective hexEncode := by
  intro a b h
  have := congrArg hexDecode h
  simpa using this

end Snix
