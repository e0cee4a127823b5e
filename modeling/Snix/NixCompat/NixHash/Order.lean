import Snix.NixCompat.NixHash

/-!
# The order of hashes

Hashes are ordered by their digests, byte by byte from the front. In nixbase32 the last byte of a
digest comes first.

## Main definitions

- `NixHash.cmp` — the order

## Main results

- `NixHash.cmp_eq_nixbase32_iff` — when it is that of the encoded strings
-/

namespace Snix.NixHash

def cmp (a b : NixHash) : Ordering := compare a.digestAsBytes b.digestAsBytes

instance : Std.TransCmp cmp := inferInstanceAs (Std.TransCmp (compareOn digestAsBytes))

theorem length_digestAsBytes (h : NixHash) : h.digestAsBytes.length = h.algo.digestLength := by
  cases h with
  | md5 d | sha1 d | sha256 d | sha512 d => exact d.property

theorem digestLength_injective : Function.Injective HashAlgo.digestLength := by
  intro a b h
  cases a <;> cases b <;> first | rfl | cases h

/-- Digests of different algorithms have different lengths. -/
theorem digestAsBytes_injective : Function.Injective digestAsBytes := by
  intro a b h
  have hlen : a.algo.digestLength = b.algo.digestLength := by
    rw [← length_digestAsBytes, ← length_digestAsBytes, h]
  have ha := fromAlgoAndDigest_algo_digest a
  rw [h, digestLength_injective hlen, fromAlgoAndDigest_algo_digest b] at ha
  exact (Except.ok.inj ha).symm

/-- Only equal hashes are equal in the order, whatever their algorithms. -/
theorem cmp_eq_eq_iff {a b : NixHash} : cmp a b = .eq ↔ a = b := by
  constructor
  · intro h
    exact digestAsBytes_injective (Std.LawfulEqCmp.eq_of_compare h)
  · rintro rfl
    exact Std.ReflCmp.compare_self

theorem length_eq_of_algo {a b : NixHash} (h : a.algo = b.algo) :
    a.digestAsBytes.length = b.digestAsBytes.length := by
  rw [length_digestAsBytes, length_digestAsBytes, h]

/-- The order is total, and consistent with equality. It is the order of the strings in nixbase32
    exactly when the first and the last bytes in which two digests differ are ordered in the same
    way. -/
theorem cmp_eq_nixbase32_iff (a b : NixHash) :
    (cmp a b = .eq ↔ a = b) ∧ cmp b a = (cmp a b).swap ∧
      (∀ c, (cmp a b).isLE = true → (cmp b c).isLE = true → (cmp a c).isLE = true) ∧
      (a.algo = b.algo →
        (cmp a b = compare (Nixbase32.encode a.digestAsBytes) (Nixbase32.encode b.digestAsBytes) ↔
          SameDirection a.digestAsBytes b.digestAsBytes)) := by
  refine ⟨cmp_eq_eq_iff, Std.OrientedCmp.eq_swap, ?_, fun halgo => ?_⟩
  · intro c hab hbc
    exact Std.TransCmp.isLE_trans hab hbc
  · have hlen := length_eq_of_algo halgo
    rw [Nixbase32.compare_encode hlen, cmp]
    exact compare_eq_compare_reverse_iff hlen

/-- An MD5 digest of zeroes with a first and a last byte. -/
def ofEnds (first last : UInt8) : NixHash := md5 ⟨first :: List.replicate 14 0 ++ [last], rfl⟩

/-- The order of hashes is not that of their strings. -/
theorem cmp_ne_nixbase32 :
    ¬∀ a b : NixHash, a.algo = b.algo →
      cmp a b = compare (Nixbase32.encode a.digestAsBytes) (Nixbase32.encode b.digestAsBytes) := by
  intro h
  have hends := h (ofEnds 0 1) (ofEnds 1 0) rfl
  have hlen : (ofEnds 0 1).digestAsBytes.length = (ofEnds 1 0).digestAsBytes.length := rfl
  rw [Nixbase32.compare_encode hlen] at hends
  exact absurd hends (by decide)

end Snix.NixHash
