import Snix.Lib.Bytes

/-!
# Base64

Base64 with padding: three bytes are four digits of six bits. The decoder wants the
bits behind the last byte to be zero. It takes padding at the end of every block, so
that encodings may be joined together.

## Main definitions

- `base64Encode`, `base64Decode` — the coder and the decoder

## Main results

- `base64Decode_base64Encode` — the decoder is a left inverse
- `length_base64Encode` — the length of an encoding
- `length_base64Decode` — the length of what was decoded
-/

namespace Snix

/-- The digit for six bits. -/
def base64Digit (v : ℕ) : UInt8 :=
  if v < 26 then UInt8.ofNat (v + 65)
  else if v < 52 then UInt8.ofNat (v + 71)
  else if v < 62 then UInt8.ofNat (v - 4)
  else if v = 62 then 43
  else 47

/-- The six bits of a digit. -/
def base64Value? (c : UInt8) : Option ℕ :=
  if 65 ≤ c && c ≤ 90 then some (c.toNat - 65)
  else if 97 ≤ c && c ≤ 122 then some (c.toNat - 71)
  else if 48 ≤ c && c ≤ 57 then some (c.toNat + 4)
  else if c = 43 then some 62
  else if c = 47 then some 63
  else none

/-- Four digits for every three bytes; the last block is padded. -/
def base64Encode : Bytes → Bytes
  | [] => []
  | [a] => [base64Digit (a.toNat / 4), base64Digit (a.toNat % 4 * 16), 61, 61]
  | [a, b] =>
    [base64Digit (a.toNat / 4), base64Digit (a.toNat % 4 * 16 + b.toNat / 16),
      base64Digit (b.toNat % 16 * 4), 61]
  | a :: b :: c :: rest =>
    base64Digit (a.toNat / 4) :: base64Digit (a.toNat % 4 * 16 + b.toNat / 16) ::
      base64Digit (b.toNat % 16 * 4 + c.toNat / 64) :: base64Digit (c.toNat % 64) ::
      base64Encode rest

/-- The bytes of a block of four characters. -/
def base64Block (a b c d : UInt8) : Option Bytes := do
  let x ← base64Value? a
  let y ← base64Value? b
  if d = 61 then
    if c = 61 then
      if y % 16 ≠ 0 then none else some [UInt8.ofNat (x * 4 + y / 16)]
    else do
      let z ← base64Value? c
      if z % 4 ≠ 0 then none
      else some [UInt8.ofNat (x * 4 + y / 16), UInt8.ofNat (y % 16 * 16 + z / 4)]
  else do
    let z ← base64Value? c
    let w ← base64Value? d
    some [UInt8.ofNat (x * 4 + y / 16), UInt8.ofNat (y % 16 * 16 + z / 4),
      UInt8.ofNat (z % 4 * 64 + w)]

/-- Decodes whole blocks. -/
def base64Decode : Bytes → Option Bytes
  | [] => some []
  | a :: b :: c :: d :: rest => do
    let x ← base64Block a b c d
    let y ← base64Decode rest
    some (x ++ y)
  | _ => none

theorem base64Digit_spec : ∀ v < 64, base64Value? (base64Digit v) = some v ∧
    base64Digit v ≠ 61 ∧ 43 ≤ base64Digit v ∧ base64Digit v ≤ 122 ∧ base64Digit v ≠ 58 := by
  decide +kernel

theorem base64Value?_digit {v : ℕ} (h : v < 64) : base64Value? (base64Digit v) = some v :=
  (base64Digit_spec v h).1

theorem base64Digit_ne_pad {v : ℕ} (h : v < 64) : base64Digit v ≠ 61 := (base64Digit_spec v h).2.1

theorem ofNat_eq_of_toNat {a : UInt8} {n : ℕ} (h : n = a.toNat) : UInt8.ofNat n = a := by
  rw [h, UInt8.ofNat_toNat]

/-- The first byte of a block, from its digits. -/
theorem base64_first (a : UInt8) {y : ℕ} (hy : y < 16) :
    UInt8.ofNat (a.toNat / 4 * 4 + (a.toNat % 4 * 16 + y) / 16) = a :=
  ofNat_eq_of_toNat (by omega)

/-- The second byte of a block. -/
theorem base64_second (b : UInt8) (x : ℕ) {z : ℕ} (hz : z < 4) :
    UInt8.ofNat ((x * 16 + b.toNat / 16) % 16 * 16 + (b.toNat % 16 * 4 + z) / 4) = b := by
  have hb : b.toNat < 256 := b.toNat_lt
  exact ofNat_eq_of_toNat (by omega)

theorem base64Block_one (a : UInt8) :
    base64Block (base64Digit (a.toNat / 4)) (base64Digit (a.toNat % 4 * 16)) 61 61 = some [a] := by
  have ha : a.toNat < 256 := a.toNat_lt
  have hbyte : UInt8.ofNat (a.toNat / 4 * 4 + a.toNat % 4 * 16 / 16) = a :=
    base64_first a (y := 0) (by decide)
  rw [base64Block, base64Value?_digit (by omega), base64Value?_digit (by omega)]
  simp only [Option.bind_eq_bind, Option.bind_some, if_true, hbyte]
  rw [if_neg (by omega)]

theorem base64Block_two (a b : UInt8) :
    base64Block (base64Digit (a.toNat / 4)) (base64Digit (a.toNat % 4 * 16 + b.toNat / 16))
      (base64Digit (b.toNat % 16 * 4)) 61 = some [a, b] := by
  have ha : a.toNat < 256 := a.toNat_lt
  have hb : b.toNat < 256 := b.toNat_lt
  have hfirst : UInt8.ofNat (a.toNat / 4 * 4 + (a.toNat % 4 * 16 + b.toNat / 16) / 16) = a :=
    base64_first a (by omega)
  have hsecond : UInt8.ofNat ((a.toNat % 4 * 16 + b.toNat / 16) % 16 * 16 +
      b.toNat % 16 * 4 / 4) = b := base64_second b _ (z := 0) (by decide)
  rw [base64Block, base64Value?_digit (by omega), base64Value?_digit (by omega),
    base64Value?_digit (by omega)]
  simp only [Option.bind_eq_bind, Option.bind_some, if_true, hfirst, hsecond]
  rw [if_neg (base64Digit_ne_pad (by omega)), if_neg (by omega)]

theorem base64Block_three (a b c : UInt8) :
    base64Block (base64Digit (a.toNat / 4)) (base64Digit (a.toNat % 4 * 16 + b.toNat / 16))
      (base64Digit (b.toNat % 16 * 4 + c.toNat / 64)) (base64Digit (c.toNat % 64)) =
        some [a, b, c] := by
  have ha : a.toNat < 256 := a.toNat_lt
  have hb : b.toNat < 256 := b.toNat_lt
  have hc : c.toNat < 256 := c.toNat_lt
  have hfirst : UInt8.ofNat (a.toNat / 4 * 4 + (a.toNat % 4 * 16 + b.toNat / 16) / 16) = a :=
    base64_first a (by omega)
  have hsecond : UInt8.ofNat ((a.toNat % 4 * 16 + b.toNat / 16) % 16 * 16 +
      (b.toNat % 16 * 4 + c.toNat / 64) / 4) = b := base64_second b _ (by omega)
  have hthird : UInt8.ofNat ((b.toNat % 16 * 4 + c.toNat / 64) % 4 * 64 + c.toNat % 64) = c :=
    ofNat_eq_of_toNat (by omega)
  have hpad : base64Digit (c.toNat % 64) ≠ 61 := base64Digit_ne_pad (by omega)
  rw [base64Block, base64Value?_digit (by omega), base64Value?_digit (by omega),
    base64Value?_digit (by omega), base64Value?_digit (by omega)]
  simp only [Option.bind_eq_bind, Option.bind_some, if_neg hpad, hfirst, hsecond, hthird]

/-- Decoding an encoding gives the bytes back. -/
@[simp] theorem base64Decode_base64Encode (b : Bytes) : base64Decode (base64Encode b) = some b := by
  induction b using base64Encode.induct with
  | case1 => rfl
  | case2 a =>
    rw [base64Encode, base64Decode, base64Block_one]
    rfl
  | case3 a b =>
    rw [base64Encode, base64Decode, base64Block_two]
    rfl
  | case4 a b c rest ih =>
    rw [base64Encode, base64Decode, base64Block_three, ih]
    rfl

@[simp] theorem length_base64Encode (b : Bytes) :
    (base64Encode b).length = (b.length + 2) / 3 * 4 := by
  induction b using base64Encode.induct with
  | case1 => rfl
  | case2 a => simp only [base64Encode, List.length_cons, List.length_nil]
  | case3 a b => simp only [base64Encode, List.length_cons, List.length_nil]
  | case4 a b c rest ih =>
    rw [base64Encode]
    simp only [List.length_cons, ih]
    omega

/-- An encoding consists of digits and padding. -/
theorem mem_base64Encode {b : Bytes} {c : UInt8} (h : c ∈ base64Encode b) :
    c = 61 ∨ ∃ v < 64, c = base64Digit v := by
  induction b using base64Encode.induct with
  | case1 => cases h
  | case2 a =>
    have ha : a.toNat < 256 := a.toNat_lt
    simp only [base64Encode, List.mem_cons, List.not_mem_nil, or_false] at h
    rcases h with h | h | h | h
    · exact .inr ⟨_, by omega, h⟩
    · exact .inr ⟨_, by omega, h⟩
    · exact .inl h
    · exact .inl h
  | case3 a b =>
    have ha : a.toNat < 256 := a.toNat_lt
    have hb : b.toNat < 256 := b.toNat_lt
    simp only [base64Encode, List.mem_cons, List.not_mem_nil, or_false] at h
    rcases h with h | h | h | h
    · exact .inr ⟨_, by omega, h⟩
    · exact .inr ⟨_, by omega, h⟩
    · exact .inr ⟨_, by omega, h⟩
    · exact .inl h
  | case4 a b c rest ih =>
    have ha : a.toNat < 256 := a.toNat_lt
    have hb : b.toNat < 256 := b.toNat_lt
    have hc : c.toNat < 256 := c.toNat_lt
    simp only [base64Encode, List.mem_cons] at h
    rcases h with h | h | h | h | h
    · exact .inr ⟨_, by omega, h⟩
    · exact .inr ⟨_, by omega, h⟩
    · exact .inr ⟨_, by omega, h⟩
    · exact .inr ⟨_, by omega, h⟩
    · exact ih h

/-- An encoding is printable ASCII. -/
theorem base64Encode_range {b : Bytes} {c : UInt8} (h : c ∈ base64Encode b) :
    43 ≤ c ∧ c ≤ 122 ∧ c ≠ 58 := by
  rcases mem_base64Encode h with rfl | ⟨v, hv, rfl⟩
  · decide
  · exact (base64Digit_spec v hv).2.2

/-- A byte of a block for every character that is not padding, less one. -/
theorem length_base64Block {a b c d : UInt8} {x : Bytes} (h : base64Block a b c d = some x) :
    x.length + [a, b, c, d].count 61 = 3 := by
  have hpad : base64Value? 61 = none := by decide
  have hne : ∀ {e : UInt8} {v : ℕ}, base64Value? e = some v → (e == 61) = false := by
    intro e v he
    rw [beq_eq_false_iff_ne]
    rintro rfl
    cases hpad.symm.trans he
  unfold base64Block at h
  obtain ⟨u, hu, h⟩ := Option.bind_eq_some_iff.mp h
  obtain ⟨v, hv, h⟩ := Option.bind_eq_some_iff.mp h
  simp only [List.count_cons, List.count_nil, hne hu, hne hv]
  split_ifs at h with hd hc hbits
  · cases h
    simp [hc, hd]
  · obtain ⟨w, hw, h⟩ := Option.bind_eq_some_iff.mp h
    split_ifs at h
    cases h
    simp [hd, hne hw]
  · obtain ⟨w, hw, h⟩ := Option.bind_eq_some_iff.mp h
    obtain ⟨z, hz, h⟩ := Option.bind_eq_some_iff.mp h
    cases h
    simp [hne hw, hne hz]

/-- Three bytes for every block, less the padding. -/
theorem length_base64Decode {s x : Bytes} (h : base64Decode s = some x) :
    x.length + s.count 61 = s.length / 4 * 3 := by
  induction s using base64Decode.induct generalizing x with
  | case1 =>
    cases h
    rfl
  | case2 a b c d rest ih =>
    rw [base64Decode] at h
    obtain ⟨u, hu, h⟩ := Option.bind_eq_some_iff.mp h
    obtain ⟨v, hv, h⟩ := Option.bind_eq_some_iff.mp h
    cases h
    have hblock := length_base64Block hu
    have hrest := ih hv
    have hcount : ([a, b, c, d] ++ rest).count 61 = [a, b, c, d].count 61 + rest.count 61 :=
      List.count_append
    simp only [List.cons_append, List.nil_append] at hcount
    simp only [List.length_append, List.length_cons, hcount]
    omega
  | case3 s hnil hblock =>
    unfold base64Decode at h
    split at h
    · exact absurd rfl hnil
    · exact absurd rfl (hblock _ _ _ _ _)
    · cases h

theorem mem_base64Block {a b c d e : UInt8} {x : Bytes} (h : base64Block a b c d = some x)
    (he : e ∈ [a, b, c, d]) : e = 61 ∨ (base64Value? e).isSome = true := by
  unfold base64Block at h
  obtain ⟨u, hu, h⟩ := Option.bind_eq_some_iff.mp h
  obtain ⟨v, hv, h⟩ := Option.bind_eq_some_iff.mp h
  have hc : c = 61 ∨ (base64Value? c).isSome = true := by
    split_ifs at h with hd hc hbits
    · exact .inl hc
    · obtain ⟨w, hw, -⟩ := Option.bind_eq_some_iff.mp h
      exact .inr (Option.isSome_of_eq_some hw)
    · obtain ⟨w, hw, -⟩ := Option.bind_eq_some_iff.mp h
      exact .inr (Option.isSome_of_eq_some hw)
  have hd : d = 61 ∨ (base64Value? d).isSome = true := by
    split_ifs at h with hd
    · exact .inl hd
    · exact .inl hd
    · obtain ⟨w, -, h⟩ := Option.bind_eq_some_iff.mp h
      obtain ⟨z, hz, -⟩ := Option.bind_eq_some_iff.mp h
      exact .inr (Option.isSome_of_eq_some hz)
  simp only [List.mem_cons, List.not_mem_nil, or_false] at he
  obtain rfl | rfl | rfl | rfl := he
  · exact .inr (Option.isSome_of_eq_some hu)
  · exact .inr (Option.isSome_of_eq_some hv)
  · exact hc
  · exact hd

/-- What can be decoded consists of digits and padding. -/
theorem mem_base64Decode {s x : Bytes} {e : UInt8} (h : base64Decode s = some x) (he : e ∈ s) :
    e = 61 ∨ (base64Value? e).isSome = true := by
  induction s using base64Decode.induct generalizing x with
  | case1 => cases he
  | case2 a b c d rest ih =>
    rw [base64Decode] at h
    obtain ⟨u, hu, h⟩ := Option.bind_eq_some_iff.mp h
    obtain ⟨v, hv, -⟩ := Option.bind_eq_some_iff.mp h
    have he : e ∈ [a, b, c, d] ++ rest := he
    obtain he | he := List.mem_append.mp he
    · exact mem_base64Block hu he
    · exact ih hv he
  | case3 s hnil hblock =>
    unfold base64Decode at h
    split at h
    · exact absurd rfl hnil
    · exact absurd rfl (hblock _ _ _ _ _)
    · cases h

end Snix
