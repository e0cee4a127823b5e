import Mathlib.Data.List.DropRight
import Snix.Lib.Base64

/-!
# Base64 without padding

Three bytes are four digits of six bits, and the last block is as long as it has to be. The
digits are parameters, as there are two alphabets. A decoder may ignore the bits behind the last
byte.

## Main definitions

- `base64EncodeNoPad`, `base64DecodeNoPad` — the coder and the decoder
- `base64UrlDigit`, `base64UrlValue?` — the digits that are used in URLs

## Main results

- `base64DecodeNoPad_base64EncodeNoPad` — the decoder is a left inverse
- `length_base64EncodeNoPad` — the length of an encoding
- `rdropWhile_base64Encode` — an encoding with padding, without it
-/

namespace Snix

/-- The digit for six bits in a URL. -/
def base64UrlDigit (v : ℕ) : UInt8 :=
  if v = 62 then 45 else if v = 63 then 95 else base64Digit v

/-- The six bits of a digit in a URL. -/
def base64UrlValue? (c : UInt8) : Option ℕ :=
  if c = 45 then some 62
  else if c = 95 then some 63
  else if c = 43 ∨ c = 47 then none
  else base64Value? c

/-- Four digits for every three bytes. -/
def base64EncodeNoPad (digit : ℕ → UInt8) : Bytes → Bytes
  | [] => []
  | [a] => [digit (a.toNat / 4), digit (a.toNat % 4 * 16)]
  | [a, b] =>
    [digit (a.toNat / 4), digit (a.toNat % 4 * 16 + b.toNat / 16), digit (b.toNat % 16 * 4)]
  | a :: b :: c :: rest =>
    digit (a.toNat / 4) :: digit (a.toNat % 4 * 16 + b.toNat / 16) ::
      digit (b.toNat % 16 * 4 + c.toNat / 64) :: digit (c.toNat % 64) ::
      base64EncodeNoPad digit rest

/-- Decodes all blocks. A single digit is no block. -/
def base64DecodeNoPad (value? : UInt8 → Option ℕ) (checkTrailingBits : Bool) :
    Bytes → Option Bytes
  | [] => some []
  | [_] => none
  | [a, b] => do
    let x ← value? a
    let y ← value? b
    if checkTrailingBits && y % 16 != 0 then none else some [UInt8.ofNat (x * 4 + y / 16)]
  | [a, b, c] => do
    let x ← value? a
    let y ← value? b
    let z ← value? c
    if checkTrailingBits && z % 4 != 0 then none
    else some [UInt8.ofNat (x * 4 + y / 16), UInt8.ofNat (y % 16 * 16 + z / 4)]
  | a :: b :: c :: d :: rest => do
    let x ← value? a
    let y ← value? b
    let z ← value? c
    let w ← value? d
    let block := [UInt8.ofNat (x * 4 + y / 16), UInt8.ofNat (y % 16 * 16 + z / 4),
      UInt8.ofNat (z % 4 * 64 + w)]
    (base64DecodeNoPad value? checkTrailingBits rest).map (block ++ ·)

theorem base64UrlDigit_spec : ∀ v < 64, base64UrlValue? (base64UrlDigit v) = some v ∧
    base64UrlDigit v ≠ 63 := by
  decide +kernel

section

variable {digit : ℕ → UInt8} {value? : UInt8 → Option ℕ}

/-- Decoding an encoding gives the bytes back. -/
theorem base64DecodeNoPad_base64EncodeNoPad (h : ∀ v < 64, value? (digit v) = some v)
    (checkTrailingBits : Bool) (b : Bytes) :
    base64DecodeNoPad value? checkTrailingBits (base64EncodeNoPad digit b) = some b := by
  induction b using base64EncodeNoPad.induct with
  | case1 => rfl
  | case2 a =>
    have ha : a.toNat < 256 := a.toNat_lt
    have hbyte : UInt8.ofNat (a.toNat / 4 * 4 + a.toNat % 4 * 16 / 16) = a :=
      base64_first a (y := 0) (by decide)
    have hbits : a.toNat % 4 * 16 % 16 = 0 := by omega
    rw [base64EncodeNoPad, base64DecodeNoPad, h _ (by omega), h _ (by omega)]
    simp only [Option.bind_eq_bind, Option.bind_some, hbyte, hbits]
    simp
  | case3 a b =>
    have ha : a.toNat < 256 := a.toNat_lt
    have hb : b.toNat < 256 := b.toNat_lt
    have hfirst : UInt8.ofNat (a.toNat / 4 * 4 + (a.toNat % 4 * 16 + b.toNat / 16) / 16) = a :=
      base64_first a (by omega)
    have hsecond : UInt8.ofNat ((a.toNat % 4 * 16 + b.toNat / 16) % 16 * 16 +
        b.toNat % 16 * 4 / 4) = b := base64_second b _ (z := 0) (by decide)
    have hbits : b.toNat % 16 * 4 % 4 = 0 := by omega
    rw [base64EncodeNoPad, base64DecodeNoPad, h _ (by omega), h _ (by omega), h _ (by omega)]
    simp only [Option.bind_eq_bind, Option.bind_some, hfirst, hsecond, hbits]
    simp
  | case4 a b c rest ih =>
    have ha : a.toNat < 256 := a.toNat_lt
    have hb : b.toNat < 256 := b.toNat_lt
    have hc : c.toNat < 256 := c.toNat_lt
    have hfirst : UInt8.ofNat (a.toNat / 4 * 4 + (a.toNat % 4 * 16 + b.toNat / 16) / 16) = a :=
      base64_first a (by omega)
    have hsecond : UInt8.ofNat ((a.toNat % 4 * 16 + b.toNat / 16) % 16 * 16 +
        (b.toNat % 16 * 4 + c.toNat / 64) / 4) = b := base64_second b _ (by omega)
    have hthird : UInt8.ofNat ((b.toNat % 16 * 4 + c.toNat / 64) % 4 * 64 + c.toNat % 64) = c :=
      ofNat_eq_of_toNat (by omega)
    rw [base64EncodeNoPad, base64DecodeNoPad, h _ (by omega), h _ (by omega), h _ (by omega),
      h _ (by omega), ih]
    simp only [Option.bind_eq_bind, Option.bind_some, hfirst, hsecond, hthird]
    rfl

theorem length_base64EncodeNoPad (b : Bytes) :
    (base64EncodeNoPad digit b).length = (b.length * 4 + 2) / 3 := by
  induction b using base64EncodeNoPad.induct with
  | case1 => rfl
  | case2 a => simp only [base64EncodeNoPad, List.length_cons, List.length_nil]
  | case3 a b => simp only [base64EncodeNoPad, List.length_cons, List.length_nil]
  | case4 a b c rest ih =>
    rw [base64EncodeNoPad]
    simp only [List.length_cons, ih]
    omega

/-- An encoding consists of digits. -/
theorem mem_base64EncodeNoPad {b : Bytes} {c : UInt8} (h : c ∈ base64EncodeNoPad digit b) :
    ∃ v < 64, c = digit v := by
  induction b using base64EncodeNoPad.induct with
  | case1 => cases h
  | case2 a =>
    have ha : a.toNat < 256 := a.toNat_lt
    simp only [base64EncodeNoPad, List.mem_cons, List.not_mem_nil, or_false] at h
    obtain h | h := h
    · exact ⟨_, by omega, h⟩
    · exact ⟨_, by omega, h⟩
  | case3 a b =>
    have ha : a.toNat < 256 := a.toNat_lt
    have hb : b.toNat < 256 := b.toNat_lt
    simp only [base64EncodeNoPad, List.mem_cons, List.not_mem_nil, or_false] at h
    obtain h | h | h := h
    · exact ⟨_, by omega, h⟩
    · exact ⟨_, by omega, h⟩
    · exact ⟨_, by omega, h⟩
  | case4 a b c rest ih =>
    have ha : a.toNat < 256 := a.toNat_lt
    have hb : b.toNat < 256 := b.toNat_lt
    have hc : c.toNat < 256 := c.toNat_lt
    simp only [base64EncodeNoPad, List.mem_cons] at h
    obtain h | h | h | h | h := h
    · exact ⟨_, by omega, h⟩
    · exact ⟨_, by omega, h⟩
    · exact ⟨_, by omega, h⟩
    · exact ⟨_, by omega, h⟩
    · exact ih h

end

/-- Padding fills the last block up. -/
theorem base64Encode_eq_append (b : Bytes) :
    ∃ k, base64Encode b = base64EncodeNoPad base64Digit b ++ List.replicate k 61 := by
  induction b using base64Encode.induct with
  | case1 => exact ⟨0, rfl⟩
  | case2 a => exact ⟨2, rfl⟩
  | case3 a b => exact ⟨1, rfl⟩
  | case4 a b c rest ih =>
    obtain ⟨k, hk⟩ := ih
    refine ⟨k, ?_⟩
    rw [base64Encode, base64EncodeNoPad, hk]
    rfl

theorem pad_not_mem_base64EncodeNoPad (b : Bytes) : 61 ∉ base64EncodeNoPad base64Digit b := by
  intro h
  obtain ⟨v, hv, heq⟩ := mem_base64EncodeNoPad h
  exact base64Digit_ne_pad hv heq.symm

theorem rdropWhile_append_replicate {l : Bytes} (h : 61 ∉ l) (k : ℕ) :
    (l ++ List.replicate k 61).rdropWhile (fun c => c == 61) = l := by
  induction k with
  | zero =>
    rw [List.replicate_zero, List.append_nil, List.rdropWhile_eq_self_iff]
    intro hl hlast
    have hmem := List.getLast_mem hl
    rw [eq_of_beq hlast] at hmem
    exact h hmem
  | succ k ih =>
    rw [List.replicate_succ', ← List.append_assoc, List.rdropWhile_concat_pos _ _ _ (by decide), ih]

/-- Without its padding an encoding is the one without padding. -/
theorem rdropWhile_base64Encode (b : Bytes) :
    (base64Encode b).rdropWhile (fun c => c == 61) = base64EncodeNoPad base64Digit b := by
  obtain ⟨k, hk⟩ := base64Encode_eq_append b
  rw [hk, rdropWhile_append_replicate (pad_not_mem_base64EncodeNoPad b)]

theorem rdropWhile_base64EncodeNoPad (b : Bytes) :
    (base64EncodeNoPad base64Digit b).rdropWhile (fun c => c == 61) =
      base64EncodeNoPad base64Digit b := by
  have h := rdropWhile_append_replicate (pad_not_mem_base64EncodeNoPad b) 0
  rwa [List.replicate_zero, List.append_nil] at h

end Snix
