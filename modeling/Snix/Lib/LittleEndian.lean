import Snix.Lib.Bytes

/-!
# Little-endian numbers

## Main definitions

- `leValue`, `leBytes` — a byte string read as a number, and back

## Main results

- `leValue_leBytes`, `leBytes_leValue` — the two are inverse
-/

namespace Snix

/-- A byte string read as a little-endian number. -/
def leValue : Bytes → ℕ
  | [] => 0
  | b :: rest => b.toNat + 256 * leValue rest

/-- The lowest `w` bytes of a number, least significant first. -/
def leBytes : ℕ → ℕ → Bytes
  | 0, _ => []
  | w + 1, n => UInt8.ofNat (n % 256) :: leBytes w (n / 256)

theorem leValue_lt (x : Bytes) : leValue x < 256 ^ x.length := by
  induction x with
  | nil => simp [leValue]
  | cons b rest ih =>
    have hb : b.toNat < 256 := b.toNat_lt
    simp only [leValue, List.length_cons, Nat.pow_succ]
    omega

@[simp] theorem length_leBytes (w n : ℕ) : (leBytes w n).length = w := by
  induction w generalizing n with
  | zero => rfl
  | succ w ih => simp [leBytes, ih]

theorem leValue_leBytes {w n : ℕ} (h : n < 256 ^ w) : leValue (leBytes w n) = n := by
  induction w generalizing n with
  | zero =>
    obtain rfl : n = 0 := by simpa using h
    rfl
  | succ w ih =>
    have hdiv : n / 256 < 256 ^ w := by
      rw [Nat.pow_succ] at h
      omega
    have hmod : (UInt8.ofNat (n % 256)).toNat = n % 256 := by
      rw [UInt8.toNat_ofNat', Nat.mod_mod]
    rw [leBytes, leValue, ih hdiv, hmod]
    omega

theorem leBytes_leValue (x : Bytes) : leBytes x.length (leValue x) = x := by
  induction x with
  | nil => rfl
  | cons b rest ih =>
    have hb : b.toNat < 256 := b.toNat_lt
    have hmod : (b.toNat + 256 * leValue rest) % 256 = b.toNat := by omega
    have hdiv : (b.toNat + 256 * leValue rest) / 256 = leValue rest := by omega
    rw [List.length_cons, leValue, leBytes, hmod, hdiv, ih, UInt8.ofNat_toNat]

end Snix
