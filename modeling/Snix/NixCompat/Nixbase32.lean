import Mathlib.Tactic.Ring
import Mathlib.Tactic.Positivity
import Snix.Lib.Hex
import Snix.Lib.Lexicographic
import Snix.Lib.LittleEndian

/-!
# nixbase32

The base 32 encoding of digests and store paths. It has its own alphabet, uses
no padding and lists the digits from the last one to the first, so that the
least significant five bits of the first byte are the last character.

## Main definitions

- `encode`, `decode`, `decodeFixed` — the encoding and its two decoders
- `encodeIndexed`, `decodeIndexed`, `decodeFixedIndexed` — the same with every index checked

## Main results

- `decodeFixed_encode`, `decode_encode` — both decoders undo the encoding
- `bijection` — only encodings decode, no index is out of bounds, and encodings of one length
  are in the order of the byte strings read backwards
-/

namespace Snix.Nixbase32

/-- The digits, in ascending order. -/
def ALPHABET : Bytes := ascii "0123456789abcdfghijklmnpqrsvwxyz"

/-- The decoded length of an input of length `len`. -/
def decodeLen (len : ℕ) : ℕ := len * 5 / 8

/-- The encoded length of an input of length `len`. -/
def encodeLen (len : ℕ) : ℕ := (len * 8 + 4) / 5

/-- The five bits at bit offset `n * 5`. They may straddle two bytes, so sixteen
    bits are read, shifted and masked. -/
def encodeWord (input : Bytes) (n : ℕ) : ℕ :=
  let b := n * 5
  let i := b / 8
  let j := b % 8
  let word := (input.getD i 0).toNat ||| ((input.getD (i + 1) 0).toNat <<< 8)
  (word >>> j) &&& 0x1f

/-- Encodes a byte string. -/
def encode (input : Bytes) : Bytes :=
  (List.range (encodeLen input.length)).reverse.map fun n =>
    ALPHABET.getD (encodeWord input n) 0

/-- The value of a digit; every other byte is mapped to `0xFF`. -/
def base32Ord (c : UInt8) : UInt8 :=
  if c ∈ ALPHABET then UInt8.ofNat (ALPHABET.idxOf c) else 0xFF

/-- The accumulators of the decoding loop. -/
structure DecodeState where
  output : Bytes
  carry : UInt8
  mask : UInt8

/-- One iteration of the decoding loop, for the `n`-th character from the end. -/
def decodeStep (s : DecodeState) (n : ℕ) (c : UInt8) : DecodeState :=
  let b := n * 5
  let i := b / 8
  let j := b % 8
  let digit := base32Ord c
  let value := digit.toNat <<< j
  { output := s.output.modify i fun x => x ||| (UInt8.ofNat value ||| s.carry)
    carry := UInt8.ofNat (value >>> 8)
    mask := s.mask ||| digit }

/-- The decoding loop over the reversed input, counting from `n`. -/
def decodeLoop (s : DecodeState) (n : ℕ) : Bytes → DecodeState
  | [] => s
  | c :: rest => decodeLoop (decodeStep s n c) (n + 1) rest

/-- The position of the first byte outside of the alphabet. -/
def findInvalid (input : Bytes) : ℕ := input.findIdx fun c => c ∉ ALPHABET

/-- Decodes into a zeroed output of length `len`. -/
def decodeInner (input : Bytes) (len : ℕ) : Except DecodeError Bytes :=
  let s := decodeLoop ⟨List.replicate len 0, 0, 0⟩ 0 input.reverse
  if s.mask = 0xFF then .error ⟨findInvalid input, .symbol⟩
  else if s.carry ≠ 0 then .error ⟨0, .trailing⟩
  else .ok s.output

/-- Decodes an input of any length. -/
def decode (input : Bytes) : Except DecodeError Bytes :=
  let outputLen := decodeLen input.length
  if input.length ≠ encodeLen outputLen then
    .error ⟨min input.length (encodeLen outputLen), .length⟩
  else decodeInner input outputLen

theorem length_decodeLoop (cs : Bytes) (s : DecodeState) (n : ℕ) :
    (decodeLoop s n cs).output.length = s.output.length := by
  induction cs generalizing s n with
  | nil => rfl
  | cons c cs ih => rw [decodeLoop, ih]; simp [decodeStep]

theorem length_decodeInner {input out : Bytes} {len : ℕ}
    (h : decodeInner input len = .ok out) : out.length = len := by
  simp only [decodeInner] at h
  split at h
  · cases h
  · split at h
    · cases h
    · cases h
      simp [length_decodeLoop]

theorem length_decode {input out : Bytes} (h : decode input = .ok out) :
    out.length = decodeLen input.length := by
  rw [decode] at h
  split_ifs at h
  exact length_decodeInner h

/-- Decodes exactly `k` bytes. -/
def decodeFixed (k : ℕ) (input : Bytes) : Except DecodeError (ByteArr k) :=
  if input.length ≠ encodeLen k then
    .error ⟨min input.length (encodeLen k), .length⟩
  else match h : decodeInner input k with
    | .ok out => .ok ⟨out, length_decodeInner h⟩
    | .error e => .error e

-- ====================
-- Digits as numbers
-- ====================

/-- The bytes of a string are the base 256 digits of its value. -/
theorem getD_eq_digit (x : Bytes) (k : ℕ) :
    (x.getD k 0).toNat = leValue x / 256 ^ k % 256 := by
  induction x generalizing k with
  | nil => simp [leValue]
  | cons b rest ih =>
    have hb := b.toNat_lt
    cases k with
    | zero => simp [leValue]
    | succ k =>
      simp only [List.getD_cons_succ, ih, leValue]
      rw [Nat.pow_succ, Nat.mul_comm (256 ^ k), ← Nat.div_div_eq_div_mul]
      congr 2
      omega

/-- The five bits read at digit `n` are the base 32 digit `n` of the value. -/
theorem encodeWord_eq_digit (x : Bytes) (n : ℕ) :
    encodeWord x n = leValue x / 32 ^ n % 32 := by
  have hpow : (32 : ℕ) ^ n = 256 ^ (n * 5 / 8) * 2 ^ (n * 5 % 8) := by
    have h : n * 5 = 8 * (n * 5 / 8) + n * 5 % 8 := by omega
    calc (32 : ℕ) ^ n = 2 ^ (5 * n) := by rw [pow_mul]; rfl
      _ = 2 ^ (8 * (n * 5 / 8) + n * 5 % 8) := by rw [← h, Nat.mul_comm]
      _ = 256 ^ (n * 5 / 8) * 2 ^ (n * 5 % 8) := by rw [pow_add, pow_mul]; rfl
  simp only [encodeWord]
  set i := n * 5 / 8
  set j := n * 5 % 8 with hj
  have hj8 : j < 8 := Nat.mod_lt _ (by omega)
  rw [getD_eq_digit, getD_eq_digit, hpow, ← Nat.div_div_eq_div_mul]
  set v := leValue x / 256 ^ i with hv
  have hnext : leValue x / 256 ^ (i + 1) = v / 256 := by
    rw [Nat.pow_succ, ← Nat.div_div_eq_div_mul]
  rw [hnext]
  have hor : v % 256 ||| (v / 256 % 256) <<< 8 = v % 65536 := by
    rw [Nat.or_comm, Nat.shiftLeft_eq, Nat.mul_comm]
    have := Nat.two_pow_add_eq_or_of_lt (i := 8) (b := v % 256) (by omega) (v / 256 % 256)
    rw [← this]
    omega
  rw [hor, Nat.shiftRight_eq_div_pow, show (0x1f : ℕ) = 2 ^ 5 - 1 from rfl,
    Nat.and_two_pow_sub_one_eq_mod]
  -- Masking to sixteen bits loses nothing: a digit ends below bit 7 + 5.
  have hcases : j = 0 ∨ j = 1 ∨ j = 2 ∨ j = 3 ∨ j = 4 ∨ j = 5 ∨ j = 6 ∨ j = 7 := by omega
  rcases hcases with h | h | h | h | h | h | h | h <;> rw [h] <;> omega

theorem ALPHABET_digit (d : Fin 32) :
    base32Ord (ALPHABET.getD d 0) = UInt8.ofNat d ∧ ALPHABET.getD d 0 ∈ ALPHABET := by
  revert d
  decide +kernel

/-- The decoding loop after `n` digits of the number `v`: every byte other than
    the current one is the digit of `v`, and the current byte is split between
    the output and the carry, one of which is zero. -/
structure DecodeInv (s : DecodeState) (len n v : ℕ) : Prop where
  length : s.output.length = len
  bound : v < 2 ^ (n * 5)
  done : ∀ k, k < len → k ≠ n * 5 / 8 → (s.output.getD k 0).toNat = v / 256 ^ k % 256
  current : n * 5 / 8 < len →
    ((s.output.getD (n * 5 / 8) 0).toNat = v / 256 ^ (n * 5 / 8) ∧ s.carry = 0) ∨
      (s.output.getD (n * 5 / 8) 0 = 0 ∧ s.carry.toNat = v / 256 ^ (n * 5 / 8))
  excess : len ≤ n * 5 / 8 → s.carry.toNat = v / 256 ^ (n * 5 / 8)
  mask : s.mask.toNat < 32

theorem pow_two_split (n : ℕ) : (2 : ℕ) ^ (n * 5) = 256 ^ (n * 5 / 8) * 2 ^ (n * 5 % 8) := by
  have h : n * 5 = 8 * (n * 5 / 8) + n * 5 % 8 := by omega
  calc (2 : ℕ) ^ (n * 5) = 2 ^ (8 * (n * 5 / 8) + n * 5 % 8) := by rw [← h]
    _ = 256 ^ (n * 5 / 8) * 2 ^ (n * 5 % 8) := by rw [pow_add, pow_mul]; rfl

/-- Adding a digit above the bits already read splits into the low byte, where
    it is or-ed in, and the carry. -/
theorem digit_split {j d h : ℕ} (hj : j < 8) (hd : d < 32) (hh : h < 2 ^ j) :
    h ||| d * 2 ^ j % 256 = (h + d * 2 ^ j) % 256 ∧ d * 2 ^ j / 256 = (h + d * 2 ^ j) / 256 ∧
      (j < 3 → d * 2 ^ j / 256 = 0) := by
  have hor : h ||| d * 2 ^ j % 256 = h + d * 2 ^ j % 256 := by
    have hmul : d * 2 ^ j % 256 = 2 ^ j * (d % 2 ^ (8 - j)) := by
      have h256 : (256 : ℕ) = 2 ^ j * 2 ^ (8 - j) := by
        rw [← pow_add, Nat.add_sub_cancel' hj.le]
        rfl
      rw [h256, Nat.mul_comm d, Nat.mul_mod_mul_left]
    rw [hmul, Nat.or_comm, ← Nat.two_pow_add_eq_or_of_lt hh, Nat.add_comm]
  rw [hor]
  have hcases : j = 0 ∨ j = 1 ∨ j = 2 ∨ j = 3 ∨ j = 4 ∨ j = 5 ∨ j = 6 ∨ j = 7 := by omega
  rcases hcases with rfl | rfl | rfl | rfl | rfl | rfl | rfl | rfl <;> omega

/-- One iteration of the decoding loop adds one digit. -/
theorem DecodeInv.step {s : DecodeState} {len n v d : ℕ} {c : UInt8}
    (h : DecodeInv s len n v) (hn : n * 5 / 8 < len) (hd : d < 32)
    (hc : base32Ord c = UInt8.ofNat d) :
    DecodeInv (decodeStep s n c) len (n + 1) (v + d * 2 ^ (n * 5)) := by
  have hsplit := pow_two_split n
  set i := n * 5 / 8 with hi
  set j := n * 5 % 8 with hj
  have hj8 : j < 8 := Nat.mod_lt _ (by omega)
  have hnext : (n + 1) * 5 / 8 = if j < 3 then i else i + 1 := by split <;> omega
  have h256 : 0 < 256 ^ i := Nat.pos_of_ne_zero (by positivity)
  have hhigh : v / 256 ^ i < 2 ^ j := by
    have := h.bound
    rw [hsplit] at this
    exact Nat.div_lt_of_lt_mul this
  have hquot : (v + d * 2 ^ (n * 5)) / 256 ^ i = v / 256 ^ i + d * 2 ^ j := by
    rw [hsplit, show d * (256 ^ i * 2 ^ j) = 256 ^ i * (d * 2 ^ j) by ring,
      Nat.add_mul_div_left _ _ h256]
  obtain ⟨hlow, hcarry, hzero⟩ := digit_split hj8 hd hhigh
  have hdig : (base32Ord c).toNat = d := by
    rw [hc, UInt8.toNat_ofNat']
    omega
  have hval : (base32Ord c).toNat <<< j = d * 2 ^ j := by rw [hdig, Nat.shiftLeft_eq]
  have hsmall : d * 2 ^ j / 256 < 256 := by
    have : 2 ^ j < 2 ^ 8 := Nat.pow_lt_pow_right (by omega) hj8
    have : d * 2 ^ j < 32 * 2 ^ 8 := Nat.mul_lt_mul'' hd this
    omega
  have hcarry' : (decodeStep s n c).carry.toNat = d * 2 ^ j / 256 := by
    simp only [decodeStep, ← hj, hval, Nat.shiftRight_eq_div_pow, UInt8.toNat_ofNat']
    exact Nat.mod_eq_of_lt hsmall
  have hout : ∀ k, (decodeStep s n c).output.getD k 0 =
      if k = i then s.output.getD i 0 ||| (UInt8.ofNat (d * 2 ^ j) ||| s.carry)
      else s.output.getD k 0 := by
    intro k
    simp only [decodeStep, ← hi, ← hj, hval]
    have hil : i < s.output.length := by rw [h.length]; exact hn
    rw [List.getD_eq_getElem?_getD, List.getElem?_modify]
    by_cases hk : k = i
    · subst hk
      simp [List.getElem?_eq_getElem hil, List.getD_eq_getElem?_getD]
    · simp [hk, Ne.symm hk, List.getD_eq_getElem?_getD]
  have hcur : ((decodeStep s n c).output.getD i 0).toNat =
      (v / 256 ^ i + d * 2 ^ j) % 256 := by
    rw [hout, if_pos rfl, ← hlow]
    simp only [UInt8.toNat_or, UInt8.toNat_ofNat']
    rcases h.current hn with ⟨ho, hcz⟩ | ⟨hoz, hcv⟩
    · rw [← hi] at ho
      rw [ho, hcz, UInt8.toNat_zero, Nat.or_zero]
    · rw [← hi] at hoz hcv
      rw [hoz, hcv, UInt8.toNat_zero, Nat.zero_or, Nat.or_comm]
  have hlen : (decodeStep s n c).output.length = len := by simpa [decodeStep] using h.length
  have hcarryq : (decodeStep s n c).carry.toNat = (v + d * 2 ^ (n * 5)) / 256 ^ (i + 1) := by
    rw [hcarry', hcarry, Nat.pow_succ, ← Nat.div_div_eq_div_mul, hquot]
  have hbound : v + d * 2 ^ (n * 5) < 2 ^ ((n + 1) * 5) := by
    have hb := h.bound
    have hpow : (2 : ℕ) ^ ((n + 1) * 5) = 32 * 2 ^ (n * 5) := by rw [Nat.add_mul, pow_add]; ring
    have hmul : d * 2 ^ (n * 5) ≤ 31 * 2 ^ (n * 5) := Nat.mul_le_mul_right _ (by omega)
    omega
  -- A byte past the one the next digit starts in has no bits yet.
  have hbig : ∀ k, i < k → k ≠ (n + 1) * 5 / 8 → v + d * 2 ^ (n * 5) < 256 ^ k := by
    intro k hik hne
    have hle : (2 : ℕ) ^ ((n + 1) * 5) ≤ 2 ^ (8 * k) := by
      refine Nat.pow_le_pow_right (by omega) ?_
      rw [hnext] at hne
      split at hne <;> omega
    rw [pow_mul 2 8 k] at hle
    exact lt_of_lt_of_le hbound hle
  refine ⟨hlen, hbound, ?_, ?_, ?_, ?_⟩
  · intro k hk hne
    rcases Nat.lt_trichotomy k i with hlt | rfl | hgt
    · rw [hout, if_neg (by omega), h.done k hk (by omega), hsplit,
        show d * (256 ^ i * 2 ^ j) = 256 ^ k * (256 * (256 ^ (i - k - 1) * (d * 2 ^ j))) by
          rw [show i = k + 1 + (i - k - 1) by omega, pow_add, pow_add]
          simp only [show k + 1 + (i - k - 1) - k - 1 = i - k - 1 by omega]
          ring,
        Nat.add_mul_div_left _ _ (by positivity), Nat.add_mul_mod_self_left]
    · rw [hcur, hquot]
    · have hk' := hbig k hgt hne
      have hv : v < 256 ^ k := by omega
      rw [hout, if_neg (by omega), h.done k hk (by omega), Nat.div_eq_of_lt hv,
        Nat.div_eq_of_lt hk']
  · intro hlt
    rw [hnext] at hlt ⊢
    split
    · next h3 =>
      refine .inl ⟨?_, ?_⟩
      · rw [hcur, hquot]
        have := hzero h3
        omega
      · rw [← UInt8.toNat_inj, hcarry', hzero h3]
        rfl
    · next h3 =>
      refine .inr ⟨?_, hcarryq⟩
      rw [if_neg h3] at hlt
      have hv : v < 256 ^ (i + 1) := by
        refine lt_of_lt_of_le h.bound ?_
        rw [hsplit, Nat.pow_succ]
        exact Nat.mul_le_mul_left _ (Nat.pow_le_pow_right (n := 2) (by omega) hj8.le)
      rw [hout, if_neg (by omega), ← UInt8.toNat_inj, h.done (i + 1) hlt (by omega),
        Nat.div_eq_of_lt hv]
      rfl
  · intro hle
    rw [hnext] at hle ⊢
    split at hle
    · omega
    · next h3 => rw [if_neg h3, hcarryq]
  · have hm := h.mask
    have : (base32Ord c).toNat < 2 ^ 5 := by rw [hdig]; exact hd
    simpa [decodeStep] using Nat.or_lt_two_pow (n := 5) hm this

/-- The decoding loop over the digits of `v` from digit `n` on. -/
theorem DecodeInv.loop {len v : ℕ} (cs : Bytes) :
    ∀ {s : DecodeState} {n : ℕ}, DecodeInv s len n (v % 2 ^ (n * 5)) →
      (∀ m, m < cs.length →
        (n + m) * 5 / 8 < len ∧ base32Ord (cs.getD m 0) = UInt8.ofNat (v / 32 ^ (n + m) % 32)) →
      DecodeInv (decodeLoop s n cs) len (n + cs.length) (v % 2 ^ ((n + cs.length) * 5)) := by
  induction cs with
  | nil => intro s n h _; simpa [decodeLoop] using h
  | cons c cs ih =>
    intro s n h hcs
    obtain ⟨hlt, hc⟩ := hcs 0 (by simp)
    have hstep := h.step hlt (Nat.mod_lt _ (by omega)) hc
    have hv : v % 2 ^ (n * 5) + v / 32 ^ (n + 0) % 32 * 2 ^ (n * 5) = v % 2 ^ ((n + 1) * 5) := by
      have h32 : (32 : ℕ) ^ n = 2 ^ (n * 5) := by rw [Nat.mul_comm, pow_mul]; rfl
      rw [Nat.add_zero, h32, Nat.add_mul, pow_add, Nat.mod_mul, Nat.mul_comm (_ % 32)]
      rfl
    rw [hv] at hstep
    have := ih hstep (fun m hm => by
      have := hcs (m + 1) (by simpa using hm)
      rw [show n + 1 + m = n + (m + 1) by omega]
      simpa using this)
    rw [decodeLoop, List.length_cons, show n + (cs.length + 1) = n + 1 + cs.length by omega]
    exact this

theorem length_encode (x : Bytes) : (encode x).length = encodeLen x.length := by
  simp [encode]

theorem getD_replicate_zero (n k : ℕ) : (List.replicate n (0 : UInt8)).getD k 0 = 0 := by
  rw [List.getD_eq_getElem?_getD, List.getElem?_replicate]
  split <;> rfl

/-- Before the first digit nothing is known. -/
theorem decodeInv_init (len v : ℕ) :
    DecodeInv ⟨List.replicate len 0, 0, 0⟩ len 0 (v % 2 ^ (0 * 5)) := by
  simp only [Nat.zero_mul, pow_zero, Nat.mod_one]
  refine ⟨by simp, by simp, ?_, ?_, ?_, by simp⟩
  · intro k _ _
    simp only [getD_replicate_zero, Nat.zero_div]
    rfl
  · intro _
    refine .inl ⟨?_, rfl⟩
    simp only [getD_replicate_zero, Nat.zero_div]
    rfl
  · intro _
    simp

/-- Decoding into the right length undoes the encoding. -/
theorem decodeInner_encode (x : Bytes) : decodeInner (encode x) x.length = .ok x := by
  have hdigit : ∀ m, m < (encode x).reverse.length →
      (0 + m) * 5 / 8 < x.length ∧
        base32Ord ((encode x).reverse.getD m 0) =
          UInt8.ofNat (leValue x / 32 ^ (0 + m) % 32) := by
    intro m hm
    rw [List.length_reverse, length_encode, encodeLen] at hm
    refine ⟨by omega, ?_⟩
    have hget : (encode x).reverse.getD m 0 = ALPHABET.getD (encodeWord x m) 0 := by
      have hm' : m < encodeLen x.length := by rw [encodeLen]; omega
      simp [encode, ← List.map_reverse, List.getD_eq_getElem?_getD, hm']
    rw [hget, encodeWord_eq_digit, Nat.zero_add]
    exact (ALPHABET_digit ⟨_, Nat.mod_lt _ (by omega)⟩).1
  have hend := DecodeInv.loop _ (decodeInv_init x.length (leValue x)) hdigit
  rw [Nat.zero_add, List.length_reverse, length_encode, encodeLen] at hend
  set n := (x.length * 8 + 4) / 5 with hn
  have hlast : n * 5 / 8 = x.length := by omega
  have hval : leValue x % 2 ^ (n * 5) = leValue x := by
    refine Nat.mod_eq_of_lt (lt_of_lt_of_le (leValue_lt x) ?_)
    have : (256 : ℕ) ^ x.length = 2 ^ (8 * x.length) := by rw [pow_mul]; rfl
    rw [this]
    exact Nat.pow_le_pow_right (by omega) (by omega)
  rw [hval] at hend
  set s := decodeLoop ⟨List.replicate x.length 0, 0, 0⟩ 0 (encode x).reverse with hs
  have hmask : s.mask ≠ 0xFF := by
    intro h
    have := hend.mask
    rw [h] at this
    exact absurd this (by decide)
  have hcarry : s.carry = 0 := by
    have := hend.excess (by omega)
    rw [hlast, Nat.div_eq_of_lt (leValue_lt x)] at this
    exact UInt8.toNat_inj.mp this
  have hout : s.output = x := by
    refine List.ext_getElem hend.length fun k hk hk' => ?_
    have := hend.done k hk' (by omega)
    rw [← getD_eq_digit, UInt8.toNat_inj] at this
    simpa [List.getD_eq_getElem?_getD, hk, hk'] using this
  simp [decodeInner, ← hs, hmask, hcarry, hout]

/-- The fixed-size decoder undoes the encoding. -/
theorem decodeFixed_encode {k : ℕ} (x : ByteArr k) :
    decodeFixed k (encode x.val) = .ok x := by
  obtain ⟨x, rfl⟩ := x
  have h := decodeInner_encode x
  simp only [decodeFixed, length_encode, ne_eq, not_true_eq_false, if_false]
  split
  · next out hout =>
    rw [h] at hout
    cases hout
    rfl
  · next e he =>
    rw [h] at he
    cases he

theorem decodeLen_encodeLen (len : ℕ) : decodeLen (encodeLen len) = len := by
  simp only [decodeLen, encodeLen]
  omega

/-- The decoder undoes the encoding. -/
theorem decode_encode (x : Bytes) : decode (encode x) = .ok x := by
  simp [decode, length_encode, decodeLen_encodeLen, decodeInner_encode]

/-- An encoding consists of digits of the alphabet only. -/
theorem mem_ALPHABET_of_mem_encode {x : Bytes} {c : UInt8} (h : c ∈ encode x) :
    c ∈ ALPHABET := by
  simp only [encode, List.mem_map] at h
  obtain ⟨n, -, rfl⟩ := h
  rw [encodeWord_eq_digit]
  exact (ALPHABET_digit ⟨_, Nat.mod_lt _ (by omega)⟩).2

-- ====================
-- What is accepted is an encoding
-- ====================

theorem or_ff (x : UInt8) : x ||| 0xFF = 0xFF := UInt8.or_neg_one

theorem ff_or (x : UInt8) : 0xFF ||| x = 0xFF := UInt8.neg_one_or

/-- A byte outside of the alphabet spoils the mask for good. -/
theorem mask_decodeLoop {cs : Bytes} {s : DecodeState} {n : ℕ}
    (h : s.mask = 0xFF ∨ ∃ c ∈ cs, c ∉ ALPHABET) : (decodeLoop s n cs).mask = 0xFF := by
  induction cs generalizing s n with
  | nil =>
    obtain h | ⟨c, hc, -⟩ := h
    · exact h
    · cases hc
  | cons c cs ih =>
    rw [decodeLoop]
    apply ih
    obtain h | ⟨d, hd, hnot⟩ := h
    · left
      show s.mask ||| base32Ord c = 0xFF
      rw [h, ff_or]
    · rcases List.mem_cons.mp hd with rfl | hd
      · left
        show s.mask ||| base32Ord d = 0xFF
        rw [base32Ord, if_neg hnot, or_ff]
      · exact .inr ⟨d, hd, hnot⟩

theorem base32Ord_spec : ∀ c : UInt8, c ∈ ALPHABET →
    (base32Ord c).toNat < 32 ∧ ALPHABET.getD (base32Ord c).toNat 0 = c := by
  decide +kernel

/-- The number that digits make up, the lowest first. -/
def digitsValue : Bytes → ℕ
  | [] => 0
  | c :: cs => (base32Ord c).toNat + 32 * digitsValue cs

theorem digitsValue_lt {cs : Bytes} (h : ∀ c ∈ cs, c ∈ ALPHABET) :
    digitsValue cs < 32 ^ cs.length := by
  induction cs with
  | nil => exact Nat.one_pos
  | cons c cs ih =>
    have hc := (base32Ord_spec c (h c List.mem_cons_self)).1
    have hcs := ih fun d hd => h d (List.mem_cons_of_mem _ hd)
    rw [digitsValue, List.length_cons, Nat.pow_succ]
    omega

theorem digit_digitsValue {cs : Bytes} (h : ∀ c ∈ cs, c ∈ ALPHABET) {m : ℕ} (hm : m < cs.length) :
    digitsValue cs / 32 ^ m % 32 = (base32Ord (cs.getD m 0)).toNat := by
  induction cs generalizing m with
  | nil => cases hm
  | cons c cs ih =>
    have hc := (base32Ord_spec c (h c List.mem_cons_self)).1
    cases m with
    | zero =>
      rw [digitsValue, pow_zero, Nat.div_one, List.getD_cons_zero]
      omega
    | succ m =>
      have hdiv : digitsValue (c :: cs) / 32 = digitsValue cs := by
        rw [digitsValue]
        omega
      rw [Nat.pow_succ, Nat.mul_comm, ← Nat.div_div_eq_div_mul, hdiv, List.getD_cons_succ]
      exact ih (fun d hd => h d (List.mem_cons_of_mem _ hd)) (Nat.lt_of_succ_lt_succ hm)

/-- A string is known from the digits of its value. -/
theorem leValue_eq_of_digits {x : Bytes} {v : ℕ} (hv : v < 256 ^ x.length)
    (h : ∀ k < x.length, (x.getD k 0).toNat = v / 256 ^ k % 256) : leValue x = v := by
  induction x generalizing v with
  | nil =>
    rw [List.length_nil, pow_zero] at hv
    rw [leValue]
    omega
  | cons b x ih =>
    have h0 := h 0 (Nat.succ_pos _)
    rw [List.getD_cons_zero, pow_zero, Nat.div_one] at h0
    have hrest : leValue x = v / 256 := by
      apply ih
      · rw [List.length_cons, Nat.pow_succ] at hv
        omega
      · intro k hk
        have hk := h (k + 1) (Nat.succ_lt_succ hk)
        rwa [List.getD_cons_succ, Nat.pow_succ, Nat.mul_comm, ← Nat.div_div_eq_div_mul] at hk
    rw [leValue, hrest, h0]
    omega

/-- The decoder accepts only what the encoder gives. -/
theorem encode_of_decodeInner {input out : Bytes} {len : ℕ} (hlen : input.length = encodeLen len)
    (h : decodeInner input len = .ok out) : encode out = input := by
  have hout := length_decodeInner h
  simp only [decodeInner] at h
  split_ifs at h with hmask hcarry
  rw [Except.ok.injEq] at h
  rw [not_not] at hcarry
  have halpha : ∀ c ∈ input.reverse, c ∈ ALPHABET := by
    intro c hc
    by_contra hnot
    exact hmask (mask_decodeLoop (.inr ⟨c, hc, hnot⟩))
  set v := digitsValue input.reverse with hv
  have hn : input.reverse.length = (len * 8 + 4) / 5 := by rw [List.length_reverse, hlen, encodeLen]
  have hdigit : ∀ m, m < input.reverse.length →
      (0 + m) * 5 / 8 < len ∧
        base32Ord (input.reverse.getD m 0) = UInt8.ofNat (v / 32 ^ (0 + m) % 32) := by
    intro m hm
    refine ⟨by omega, ?_⟩
    rw [Nat.zero_add, hv, digit_digitsValue halpha hm, UInt8.ofNat_toNat]
  have hend := DecodeInv.loop _ (decodeInv_init len v) hdigit
  have hpow : (2 : ℕ) ^ ((0 + input.reverse.length) * 5) = 32 ^ input.reverse.length := by
    rw [Nat.zero_add, Nat.mul_comm, pow_mul]
    rfl
  rw [hpow, Nat.mod_eq_of_lt (digitsValue_lt halpha)] at hend
  have hlast : (0 + input.reverse.length) * 5 / 8 = len := by omega
  have hsmall : v < 256 ^ len := by
    have hexc := hend.excess (Nat.le_of_eq hlast.symm)
    rw [hcarry, hlast] at hexc
    by_contra hge
    have := Nat.div_pos (Nat.not_lt.mp hge) (Nat.pos_of_ne_zero (by positivity) : 0 < 256 ^ len)
    rw [← hexc] at this
    cases this
  have hvalue : leValue out = v := by
    refine leValue_eq_of_digits (by rwa [hout]) fun k hk => ?_
    rw [hout] at hk
    rw [← h, hend.done k hk (by omega)]
  apply List.reverse_injective
  apply List.ext_getElem?
  intro m
  rw [encode, ← List.map_reverse, List.reverse_reverse, List.getElem?_map, hout, encodeLen, ← hn]
  by_cases hm : m < input.reverse.length
  · have hget : input.reverse.getD m 0 = input.reverse[m] := by
      rw [List.getD_eq_getElem?_getD, List.getElem?_eq_getElem hm, Option.getD_some]
    rw [List.getElem?_range hm, List.getElem?_eq_getElem hm, Option.map_some, encodeWord_eq_digit, hvalue,
      hv, digit_digitsValue halpha hm, hget]
    exact congrArg some (base32Ord_spec _ (halpha _ (List.getElem_mem hm))).2
  · rw [List.getElem?_eq_none (Nat.not_lt.mp hm), List.getElem?_eq_none (by simpa using hm), Option.map_none]

theorem encode_of_decodeFixed {k : ℕ} {input : Bytes} {x : ByteArr k}
    (h : decodeFixed k input = .ok x) : encode x.val = input := by
  unfold decodeFixed at h
  split_ifs at h with hlen
  split at h
  · next out hout =>
    cases h
    exact encode_of_decodeInner (not_not.mp hlen) hout
  · cases h

-- ====================
-- Decoders of an input of the expected length
-- ====================

theorem encode_of_decode {input out : Bytes} (h : decode input = .ok out) : encode out = input := by
  simp only [decode] at h
  split_ifs at h with hlen
  exact encode_of_decodeInner (not_not.mp hlen) h

theorem decodeFixed_eq_decode {k : ℕ} {input : Bytes} (h : input.length = encodeLen k) :
    (decodeFixed k input).map Subtype.val = decode input := by
  have hdecode : decode input = decodeInner input k := by
    rw [decode, h, decodeLen_encodeLen]
    exact if_neg (not_not_intro rfl)
  rw [hdecode, decodeFixed, if_neg (not_not_intro h)]
  split
  · next out hout => exact hout.symm
  · next e he => exact he.symm

-- ====================
-- The loops stay inside of what they index
-- ====================

/-- `encodeWord`, where reading the first byte past the end of the input is a panic. -/
def encodeWordIndexed (input : Bytes) (n : ℕ) : Option ℕ :=
  let b := n * 5
  let i := b / 8
  let j := b % 8
  input[i]?.map fun lsb =>
    let word := lsb.toNat ||| ((input.getD (i + 1) 0).toNat <<< 8)
    (word >>> j) &&& 0x1f

/-- `encode`, where an index past the end of a slice is a panic. -/
def encodeIndexed (input : Bytes) : Option Bytes :=
  (List.range (encodeLen input.length)).reverse.mapM fun n =>
    (encodeWordIndexed input n).bind fun c => ALPHABET[c]?

/-- `decodeLoop`, where writing past the end of the output is a panic. -/
def decodeLoopIndexed (s : DecodeState) (n : ℕ) : Bytes → Option DecodeState
  | [] => some s
  | c :: rest =>
    if n * 5 / 8 < s.output.length then decodeLoopIndexed (decodeStep s n c) (n + 1) rest else none

/-- `decodeInner`, where also looking in vain for an invalid byte is a panic. -/
def decodeInnerIndexed (input : Bytes) (len : ℕ) : Option (Except DecodeError Bytes) :=
  (decodeLoopIndexed ⟨List.replicate len 0, 0, 0⟩ 0 input.reverse).bind fun s =>
    if s.mask = 0xFF then
      (input.findIdx? fun c => c ∉ ALPHABET).map fun position => .error ⟨position, .symbol⟩
    else if s.carry ≠ 0 then some (.error ⟨0, .trailing⟩)
    else some (.ok s.output)

def decodeIndexed (input : Bytes) : Option (Except DecodeError Bytes) :=
  let outputLen := decodeLen input.length
  if input.length ≠ encodeLen outputLen then
    some (.error ⟨min input.length (encodeLen outputLen), .length⟩)
  else decodeInnerIndexed input outputLen

def decodeFixedIndexed (k : ℕ) (input : Bytes) : Option (Except DecodeError Bytes) :=
  if input.length ≠ encodeLen k then some (.error ⟨min input.length (encodeLen k), .length⟩)
  else decodeInnerIndexed input k

theorem encodeWordIndexed_eq {input : Bytes} {n : ℕ} (h : n < encodeLen input.length) :
    encodeWordIndexed input n = some (encodeWord input n) := by
  have hi : n * 5 / 8 < input.length := by
    rw [encodeLen] at h
    omega
  simp only [encodeWordIndexed, encodeWord, List.getElem?_eq_getElem hi, Option.map_some,
    List.getD_eq_getElem?_getD, Option.getD_some]

/-- Encoding reads its input and its alphabet within bounds. -/
theorem encodeIndexed_eq (input : Bytes) : encodeIndexed input = some (encode input) := by
  have hdigit : ∀ n ∈ (List.range (encodeLen input.length)).reverse,
      ((encodeWordIndexed input n).bind fun c => ALPHABET[c]?) =
        some (ALPHABET.getD (encodeWord input n) 0) := by
    intro n hn
    rw [List.mem_reverse, List.mem_range] at hn
    have hc : encodeWord input n < ALPHABET.length := by
      rw [encodeWord_eq_digit]
      exact Nat.mod_lt _ (by decide)
    rw [encodeWordIndexed_eq hn, Option.bind_some, List.getD_eq_getElem?_getD,
      List.getElem?_eq_getElem hc, Option.getD_some]
  rw [encodeIndexed, encode]
  generalize (List.range (encodeLen input.length)).reverse = ns at hdigit
  induction ns with
  | nil => rfl
  | cons n ns ih =>
    rw [List.mapM_cons, hdigit n List.mem_cons_self, ih fun m hm => hdigit m (List.mem_cons_of_mem _ hm)]
    rfl

theorem decodeLoopIndexed_eq {cs : Bytes} {s : DecodeState} {n : ℕ}
    (h : ∀ m < cs.length, (n + m) * 5 / 8 < s.output.length) :
    decodeLoopIndexed s n cs = some (decodeLoop s n cs) := by
  induction cs generalizing s n with
  | nil => rfl
  | cons c cs ih =>
    have hlen : (decodeStep s n c).output.length = s.output.length := length_decodeLoop [c] s n
    have hn : n * 5 / 8 < s.output.length := h 0 (Nat.succ_pos _)
    rw [decodeLoopIndexed, if_pos hn, decodeLoop]
    apply ih
    intro m hm
    rw [hlen, Nat.add_assoc, Nat.add_comm 1 m]
    exact h (m + 1) (Nat.succ_lt_succ hm)

/-- Digits of the alphabet never make up the mask of an invalid byte. -/
theorem mask_lt_of_alphabet {cs : Bytes} {s : DecodeState} {n : ℕ} (hs : s.mask.toNat < 2 ^ 5)
    (h : ∀ c ∈ cs, c ∈ ALPHABET) : (decodeLoop s n cs).mask.toNat < 2 ^ 5 := by
  induction cs generalizing s n with
  | nil => exact hs
  | cons c cs ih =>
    rw [decodeLoop]
    apply ih _ fun d hd => h d (List.mem_cons_of_mem _ hd)
    have hc := (base32Ord_spec c (h c List.mem_cons_self)).1
    simpa [decodeStep] using Nat.or_lt_two_pow hs hc

theorem decodeInnerIndexed_eq {input : Bytes} {len : ℕ} (h : input.length = encodeLen len) :
    decodeInnerIndexed input len = some (decodeInner input len) := by
  have hin : ∀ m < input.reverse.length,
      (0 + m) * 5 / 8 < (List.replicate len (0 : UInt8)).length := by
    intro m hm
    rw [List.length_reverse, h, encodeLen] at hm
    rw [List.length_replicate]
    omega
  rw [decodeInnerIndexed, decodeLoopIndexed_eq hin, Option.bind_some]
  simp only [decodeInner]
  split_ifs with hmask hcarry
  · have hbad : ∃ c ∈ input, c ∉ ALPHABET := by
      by_contra hnone
      push Not at hnone
      have hlt := mask_lt_of_alphabet (n := 0) (s := ⟨List.replicate len 0, 0, 0⟩) (Nat.two_pow_pos 5)
        fun c hc => hnone c (List.mem_reverse.mp hc)
      rw [hmask] at hlt
      exact absurd hlt (by decide)
    have hfind : (input.findIdx? fun c => c ∉ ALPHABET) = some (findInvalid input) := by
      rw [List.findIdx?_eq_guard_findIdx_lt, Option.guard_eq_some_iff]
      refine ⟨rfl, ?_⟩
      obtain ⟨c, hc, hnot⟩ := hbad
      exact decide_eq_true (List.findIdx_lt_length_of_exists ⟨c, hc, decide_eq_true hnot⟩)
    rw [hfind]
    rfl
  · rfl
  · rfl

/-- Decoding writes within its output, and an invalid byte that is looked for is found. -/
theorem decodeIndexed_eq (input : Bytes) : decodeIndexed input = some (decode input) := by
  simp only [decodeIndexed, decode]
  split_ifs with hlen
  · rfl
  · exact decodeInnerIndexed_eq (not_not.mp hlen)

theorem decodeFixedIndexed_eq (k : ℕ) (input : Bytes) :
    decodeFixedIndexed k input = some ((decodeFixed k input).map Subtype.val) := by
  rw [decodeFixedIndexed]
  split_ifs with hlen
  · rw [decodeFixed, if_pos hlen]
    rfl
  · have hlen' := not_not.mp hlen
    have hdec : decodeLen input.length = k := by rw [hlen', decodeLen_encodeLen]
    rw [decodeFixed_eq_decode hlen', decodeInnerIndexed_eq hlen', decode, hdec, if_neg hlen]

-- ====================
-- Order
-- ====================

theorem leValue_eq_ofDigits (x : Bytes) : leValue x = Nat.ofDigits 256 (x.map UInt8.toNat) := by
  induction x with
  | nil => rfl
  | cons b x ih => rw [leValue, ih, List.map_cons, Nat.ofDigits_cons]

theorem compare_toNat (a b : UInt8) : compare a.toNat b.toNat = compare a b := by
  simp only [compare, compareOfLessAndEq, UInt8.lt_iff_toNat_lt, UInt8.toNat_inj]

/-- Byte strings read backwards are in the order of their values. -/
theorem compare_reverse {x y : Bytes} (h : x.length = y.length) :
    compare x.reverse y.reverse = compare (leValue x) (leValue y) := by
  have hlt : ∀ z : Bytes, ∀ d ∈ z.map UInt8.toNat, d < 256 := by
    intro z d hd
    obtain ⟨b, -, rfl⟩ := List.mem_map.mp hd
    exact b.toNat_lt
  rw [leValue_eq_ofDigits, leValue_eq_ofDigits,
    ← compare_reverse_ofDigits (by simpa using h) (hlt x) (hlt y), ← List.map_reverse, ← List.map_reverse,
    compare_map fun a _ b _ => compare_toNat a b]

theorem ALPHABET_ascending : ∀ d e : Fin 32,
    compare (ALPHABET.getD d 0) (ALPHABET.getD e 0) = compare d.val e.val := by
  decide +kernel

/-- The digits of an encoding, the last character first, and the value they make up. -/
theorem encode_eq_map_digits (x : Bytes) :
    encode x = ((List.range (encodeLen x.length)).map fun n => leValue x / 32 ^ n % 32).reverse.map
      fun d => ALPHABET.getD d 0 := by
  rw [encode, ← List.map_reverse, List.map_map]
  apply List.map_congr_left
  intro n _
  rw [encodeWord_eq_digit]
  rfl

theorem ofDigits_encode (x : Bytes) :
    Nat.ofDigits 32 ((List.range (encodeLen x.length)).map fun n => leValue x / 32 ^ n % 32) =
      leValue x := by
  rw [ofDigits_range]
  apply Nat.mod_eq_of_lt
  calc leValue x < 256 ^ x.length := leValue_lt x
    _ = 2 ^ (8 * x.length) := by rw [pow_mul]; rfl
    _ ≤ 2 ^ (5 * encodeLen x.length) :=
      Nat.pow_le_pow_right (by decide) (by rw [encodeLen]; omega)
    _ = 32 ^ encodeLen x.length := by rw [pow_mul]; rfl

/-- Encodings of one length are in the order of the byte strings read from the last byte. -/
theorem compare_encode {x y : Bytes} (h : x.length = y.length) :
    compare (encode x) (encode y) = compare x.reverse y.reverse := by
  have hlt : ∀ z : Bytes, ∀ d ∈ (List.range (encodeLen z.length)).map fun n => leValue z / 32 ^ n % 32,
      d < 32 := by
    intro z d hd
    obtain ⟨n, -, rfl⟩ := List.mem_map.mp hd
    exact Nat.mod_lt _ (by decide)
  have hmap : ∀ d ∈ ((List.range (encodeLen x.length)).map fun n => leValue x / 32 ^ n % 32).reverse,
      ∀ e ∈ ((List.range (encodeLen y.length)).map fun n => leValue y / 32 ^ n % 32).reverse,
      compare (ALPHABET.getD d 0) (ALPHABET.getD e 0) = compare d e := by
    intro d hd e he
    exact ALPHABET_ascending ⟨d, hlt x d (List.mem_reverse.mp hd)⟩ ⟨e, hlt y e (List.mem_reverse.mp he)⟩
  rw [encode_eq_map_digits x, encode_eq_map_digits y, compare_map hmap,
    compare_reverse_ofDigits (by simp [h]) (hlt x) (hlt y), ofDigits_encode, ofDigits_encode,
    compare_reverse h]

/-- The encoding is a bijection onto the strings that decode, which are decoded alike by both
    decoders; its loops stay within bounds, and it keeps the order from the last byte on. -/
theorem bijection :
    (∀ x, decode (encode x) = .ok x) ∧
      (∀ s x, decode s = .ok x → encode x = s) ∧
      (∀ k s, s.length = encodeLen k → (decodeFixed k s).map Subtype.val = decode s) ∧
      (∀ x, encodeIndexed x = some (encode x)) ∧
      (∀ s, decodeIndexed s = some (decode s)) ∧
      (∀ k s, decodeFixedIndexed k s = some ((decodeFixed k s).map Subtype.val)) ∧
      ∀ x y : Bytes, x.length = y.length →
        compare (encode x) (encode y) = compare x.reverse y.reverse := by
  refine ⟨decode_encode, ?_, ?_, encodeIndexed_eq, decodeIndexed_eq, decodeFixedIndexed_eq, ?_⟩
  · intro s x h
    exact encode_of_decode h
  · intro k s h
    exact decodeFixed_eq_decode h
  · intro x y h
    exact compare_encode h

end Snix.Nixbase32
