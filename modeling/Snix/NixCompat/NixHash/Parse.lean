import Mathlib.Data.List.DropRight
import Snix.Lib.Base64NoPad
import Snix.Lib.Text
import Snix.NixCompat.NixHash

/-!
# Parsing hashes

All written forms of a hash: SRI, an algorithm with a colon and a digest, and a digest alone. In
what a digest is encoded is guessed from its length.

A panic is the absence of a result.

## Main definitions

- `NixHash.fromSri`, `HashAlgo.decodeDigest` — SRI hashes, and digests
- `NixHash.fromStr` — all forms
- `Misfits` — padded Base64 that decodes to a digest of another length

## Main results

- `NixHash.fromStr_ne_none_iff` — when parsing does not panic
-/

namespace Snix

/-- The length of an encoding in Base64. -/
def base64Len (n : ℕ) : ℕ := (n + 2) / 3 * 4

/-- The length of an encoding in Base64 without padding. -/
def base64NoPadLen (n : ℕ) : ℕ := (n * 4 + 2) / 3

/-- The digest behind what is decoded, from its length in hexadecimal, nixbase32 or Base64. -/
def HashAlgo.decodeBytes (algo : HashAlgo) (s : Bytes) : Except NixHash.Error Bytes :=
  if s.length = 2 * algo.digestLength then (hexDecode s).mapError .invalidBase16Encoding
  else if s.length = Nixbase32.encodeLen algo.digestLength then
    (Nixbase32.decode s).mapError .invalidBase32Encoding
  else if s.length = base64Len algo.digestLength then
    match base64Decode s with
    | some digest => .ok digest
    | none => .error .invalidBase64Encoding
  else .error (.invalidDigestLength algo)

/-- Decodes a digest. The hash that is made of it is unwrapped. -/
def HashAlgo.decodeDigest (algo : HashAlgo) (s : Bytes) : Option (Except NixHash.Error NixHash) :=
  match algo.decodeBytes s with
  | .error e => some (.error e)
  | .ok digest =>
    match NixHash.fromAlgoAndDigest algo digest with
    | .ok h => some (.ok h)
    | .error _ => none

namespace NixHash

/-- Reads an algorithm, a dash and the digest in Base64. What is longer than the digest with
    padding is cut off, and the padding may be missing. -/
def fromSri (s : Bytes) : Except Error NixHash := do
  let (algoStr, digestStr) ← match splitOnce 45 s with
    | some parts => .ok parts
    | none => .error .invalidSRI
  let algo ← HashAlgo.fromStr algoStr
  let digestStr := digestStr.take (base64Len algo.digestLength)
  if digestStr.length < base64NoPadLen algo.digestLength then
    throw (.invalidDigestLength algo)
  -- Trailing bits are not checked.
  match base64DecodeNoPad base64Value? false (digestStr.rdropWhile fun c => c == 61) with
  | some digest => fromAlgoAndDigest algo digest
  | none => .error .invalidBase64Encoding

/-- What may stand before a digest. -/
def inlineAlgos : List (Bytes × HashAlgo) :=
  [(ascii "sha1:", .sha1), (ascii "sha256:", .sha256), (ascii "sha512:", .sha512),
    (ascii "md5:", .md5)]

/-- The digest behind an algorithm and a colon. -/
def inlineDigest (s : Bytes) : Option (Bytes × HashAlgo) :=
  inlineAlgos.findSome? fun a => (stripPrefix a.1 s).map fun rest => (rest, a.2)

/-- Ensures that the algorithm is the wanted one, if there is one. -/
def checkAlgo (wantAlgo : Option HashAlgo) (h : NixHash) : Except Error NixHash :=
  match wantAlgo with
  | none => .ok h
  | some algo => if algo ≠ h.algo then .error (.conflictingHashAlgos algo h.algo) else .ok h

/-- Parses all forms. An algorithm has to be given for a digest alone. -/
def fromStr (s : Bytes) (wantAlgo : Option HashAlgo) : Option (Except Error NixHash) :=
  match fromSri s with
  | .ok h => some (checkAlgo wantAlgo h)
  | .error _ =>
    match inlineDigest s with
    | some (rest, algo) =>
      match algo.decodeDigest rest with
      | none => none
      | some (.error e) => some (.error e)
      | some (.ok h) => some (checkAlgo wantAlgo h)
    | none =>
      match wantAlgo with
      | none => some (.error (.missingInlineHashAlgo s))
      | some algo => algo.decodeDigest s

end NixHash

-- ====================
-- Digests of the wrong length
-- ====================

/-- Padded Base64 of the right length, with more or less padding than an encoded digest has. -/
def Misfits (algo : HashAlgo) (s : Bytes) : Prop :=
  s.length = base64Len algo.digestLength ∧ (base64Decode s).isSome = true ∧
    s.count 61 + algo.digestLength ≠ s.length / 4 * 3

variable {algo : HashAlgo} {s : Bytes} {wantAlgo : Option HashAlgo}

theorem eq_ok_of_mapError {ε ε' α : Type} {f : ε → ε'} {r : Except ε α} {a : α}
    (h : r.mapError f = .ok a) : r = .ok a := by
  cases r with
  | error e => cases h
  | ok b =>
    cases h
    rfl

theorem fromAlgoAndDigest_eq_error {digest : Bytes} (h : digest.length ≠ algo.digestLength) :
    NixHash.fromAlgoAndDigest algo digest = .error (.invalidDigestLength algo) := by
  rw [NixHash.fromAlgoAndDigest, dif_pos h]

/-- Unwrapping fails on a digest of another length. -/
theorem HashAlgo.decodeDigest_eq_none_iff_length :
    algo.decodeDigest s = none ↔
      ∃ digest, algo.decodeBytes s = .ok digest ∧ digest.length ≠ algo.digestLength := by
  rw [HashAlgo.decodeDigest]
  cases hdecode : algo.decodeBytes s with
  | error e =>
    refine iff_of_false (Option.some_ne_none _) ?_
    rintro ⟨digest, hd, -⟩
    cases hd
  | ok digest =>
    by_cases hlen : digest.length = algo.digestLength
    · refine iff_of_false ?_ ?_
      · simp only [NixHash.fromAlgoAndDigest, dif_neg (not_not.mpr hlen)]
        exact Option.some_ne_none _
      · rintro ⟨digest', hd, hne⟩
        cases hd
        exact hne hlen
    · have herror := fromAlgoAndDigest_eq_error hlen
      simp only [herror]
      exact iff_of_true trivial ⟨digest, rfl, hlen⟩

/-- Decoding a digest panics on padded Base64 that does not fit. -/
theorem HashAlgo.decodeDigest_eq_none_iff : algo.decodeDigest s = none ↔ Misfits algo s := by
  have hlens : base64Len algo.digestLength ≠ 2 * algo.digestLength ∧
      base64Len algo.digestLength ≠ Nixbase32.encodeLen algo.digestLength := by
    cases algo <;> decide
  rw [HashAlgo.decodeDigest_eq_none_iff_length]
  constructor
  · rintro ⟨digest, hdecode, hne⟩
    rw [HashAlgo.decodeBytes] at hdecode
    split_ifs at hdecode with hhex hnix hbase
    · have hlen := length_hexDecode (eq_ok_of_mapError hdecode)
      omega
    · have hlen := Nixbase32.length_decode (eq_ok_of_mapError hdecode)
      rw [hnix, Nixbase32.decodeLen_encodeLen] at hlen
      exact absurd hlen hne
    · cases hx : base64Decode s with
      | none =>
        rw [hx] at hdecode
        cases hdecode
      | some x =>
        rw [hx] at hdecode
        cases hdecode
        have hlen := length_base64Decode hx
        exact ⟨hbase, Option.isSome_of_eq_some hx, by omega⟩
  · rintro ⟨hbase, hsome, hne⟩
    obtain ⟨x, hx⟩ := Option.isSome_iff_exists.mp hsome
    have hlen := length_base64Decode hx
    refine ⟨x, ?_, by omega⟩
    rw [HashAlgo.decodeBytes, if_neg (hbase ▸ hlens.1), if_neg (hbase ▸ hlens.2), if_pos hbase, hx]

-- ====================
-- What is decoded
-- ====================

namespace NixHash

/-- The digest alone, and its algorithm: the one that it follows, or else the wanted one. -/
def digestPart (s : Bytes) (wantAlgo : Option HashAlgo) : Option (Bytes × HashAlgo) :=
  match inlineDigest s with
  | some p => some p
  | none => wantAlgo.map fun algo => (s, algo)

/-- A dash is no part of the algorithm and the colon. -/
theorem dash_mem_of_digestPart {p : Bytes × HashAlgo} (h : digestPart s wantAlgo = some p)
    (hdash : 45 ∈ s) : 45 ∈ p.1 := by
  rw [digestPart] at h
  cases hinline : inlineDigest s with
  | some q =>
    rw [hinline] at h
    cases h
    obtain ⟨a, ha, hstrip⟩ := List.exists_of_findSome?_eq_some hinline
    obtain ⟨rest, hrest, rfl⟩ := Option.map_eq_some_iff.mp hstrip
    have hnot : ∀ a ∈ inlineAlgos, 45 ∉ a.1 := by decide
    rw [stripPrefix_eq_some_iff.mp hrest] at hdash
    exact (List.mem_append.mp hdash).resolve_left (hnot a ha)
  | none =>
    rw [hinline] at h
    obtain ⟨algo, -, rfl⟩ := Option.map_eq_some_iff.mp h
    exact hdash

/-- An SRI hash has a dash. -/
theorem dash_mem_of_fromSri {h : NixHash} (hsri : fromSri s = .ok h) : 45 ∈ s := by
  cases hsplit : splitOnce 45 s with
  | none =>
    rw [fromSri, hsplit] at hsri
    cases hsri
  | some parts =>
    rw [(splitOnce_eq_some_iff.mp hsplit).1]
    exact List.mem_append_right _ List.mem_cons_self

theorem not_misfits_of_dash (hdash : 45 ∈ s) : ¬Misfits algo s := by
  rintro ⟨-, hsome, -⟩
  obtain ⟨x, hx⟩ := Option.isSome_iff_exists.mp hsome
  obtain hpad | hvalue := mem_base64Decode hx hdash
  · exact absurd hpad (by decide)
  · exact absurd hvalue (by decide)

/-- What is no SRI hash is decoded from its digest. -/
theorem fromStr_eq_none_iff_digestPart {e : Error} (hsri : fromSri s = .error e) :
    fromStr s wantAlgo = none ↔ ∃ p, digestPart s wantAlgo = some p ∧ p.2.decodeDigest p.1 = none := by
  unfold fromStr
  rw [hsri, digestPart]
  cases hinline : inlineDigest s with
  | some p =>
    obtain ⟨rest, algo⟩ := p
    simp only [Option.some.injEq, exists_eq_left']
    cases algo.decodeDigest rest with
    | none => rfl
    | some r => cases r <;> simp
  | none =>
    cases wantAlgo with
    | none => simp
    | some algo => simp

/-- Parsing does not panic, unless the digest is padded Base64 of the right length that decodes to
    a digest of another. -/
theorem fromStr_ne_none_iff (s : Bytes) (wantAlgo : Option HashAlgo) :
    fromStr s wantAlgo ≠ none ↔ ∀ p, digestPart s wantAlgo = some p → ¬Misfits p.2 p.1 := by
  cases hsri : fromSri s with
  | ok h =>
    refine iff_of_true ?_ fun p hp => ?_
    · unfold fromStr
      rw [hsri]
      exact Option.some_ne_none _
    · exact not_misfits_of_dash (dash_mem_of_digestPart hp (dash_mem_of_fromSri hsri))
  | error e =>
    rw [ne_eq, fromStr_eq_none_iff_digestPart hsri]
    simp only [HashAlgo.decodeDigest_eq_none_iff, not_exists, not_and]

/-- An MD5 digest of 24 digits in Base64, without the padding that there should be, panics. -/
theorem fromStr_md5_eq_none : fromStr (ascii "md5:" ++ List.replicate 24 65) none = none := by
  have hsri : fromSri (ascii "md5:" ++ List.replicate 24 65) = .error .invalidSRI := by rfl
  rw [fromStr_eq_none_iff_digestPart hsri]
  exact ⟨(List.replicate 24 65, .md5), by decide +kernel, by decide +kernel⟩

end NixHash

end Snix
