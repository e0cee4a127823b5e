import Snix.NixCompat.CaHash
import Snix.NixCompat.NixHash.Order
import Snix.NixCompat.NixHash.Parse

/-!
# Written hashes are read back

A hash is read back from all forms in which it can be written. Which one it is follows from a dash
or a colon, and from the length of the digest. Padding may be left out in SRI hashes alone.

## Main definitions

- `NixHash.notations`, `NixHash.digestNotations` — the forms with and without the algorithm
- `NixHash.namedAlgo` — the algorithm that a string names

## Main results

- `NixHash.fromStr_notations` — all forms are read back, and another algorithm is an error
-/

namespace Snix

/-- The encodings of a digest. They are told apart by their lengths. -/
inductive DigestEncoding where
  | hex | nixbase32 | base64
  deriving DecidableEq, Repr

def DigestEncoding.encode : DigestEncoding → Bytes → Bytes
  | hex => hexEncode
  | nixbase32 => Nixbase32.encode
  | base64 => base64Encode

/-- The characters of digests. A dash or a colon is none. -/
def isDigestChar (c : UInt8) : Bool := 43 ≤ c && c ≤ 122 && c ≠ 45 && c ≠ 58

namespace NixHash

def toSriString (h : NixHash) : Bytes := h.algo.asStr ++ 45 :: base64Encode h.digestAsBytes

/-- The SRI form with the padding left out. -/
def toSriStringNoPad (h : NixHash) : Bytes :=
  h.algo.asStr ++ 45 :: base64EncodeNoPad base64Digit h.digestAsBytes

/-- The algorithm, a colon and the digest in Base64. -/
def asNixBase64String (h : NixHash) : Bytes := h.algo.asStr ++ 58 :: base64Encode h.digestAsBytes

/-- The forms that name the algorithm. -/
def notations (h : NixHash) : List Bytes :=
  [h.toSriString, h.toSriStringNoPad, h.asNixLowerhexString, h.toNixNixbase32, h.asNixBase64String]

/-- The digest alone. -/
def digestNotations (h : NixHash) : List Bytes :=
  [hexEncode h.digestAsBytes, Nixbase32.encode h.digestAsBytes, base64Encode h.digestAsBytes]

/-- The algorithm that stands in front of a dash or a colon. -/
def namedAlgo (s : Bytes) : Option HashAlgo :=
  match splitOnce 45 s with
  | none => (inlineDigest s).map Prod.snd
  | some (algoStr, _) =>
    match HashAlgo.fromStr algoStr with
    | .ok algo => some algo
    | .error _ => (inlineDigest s).map Prod.snd

end NixHash

variable {algo : HashAlgo} {s digest : Bytes} {h : NixHash} {wantAlgo : Option HashAlgo}

-- ====================
-- Digests
-- ====================

/-- The length of an encoding tells which one it is. -/
theorem decodeBytes_encode (e : DigestEncoding) (hlen : digest.length = algo.digestLength) :
    algo.decodeBytes (e.encode digest) = .ok digest := by
  have hlens : Nixbase32.encodeLen algo.digestLength ≠ 2 * algo.digestLength ∧
      base64Len algo.digestLength ≠ 2 * algo.digestLength ∧
      base64Len algo.digestLength ≠ Nixbase32.encodeLen algo.digestLength := by
    cases algo <;> decide
  rw [HashAlgo.decodeBytes]
  cases e with
  | hex =>
    have hhex : (hexEncode digest).length = 2 * algo.digestLength := by rw [length_hexEncode, hlen]
    simp only [DigestEncoding.encode, if_pos hhex, hexDecode_hexEncode]
    rfl
  | nixbase32 =>
    have hnix : (Nixbase32.encode digest).length = Nixbase32.encodeLen algo.digestLength := by
      rw [Nixbase32.length_encode, hlen]
    simp only [DigestEncoding.encode, hnix, if_neg hlens.1, if_true, Nixbase32.decode_encode]
    rfl
  | base64 =>
    have hbase : (base64Encode digest).length = base64Len algo.digestLength := by
      rw [length_base64Encode, hlen, base64Len]
    simp only [DigestEncoding.encode, hbase, if_neg hlens.2.1, if_neg hlens.2.2, if_true,
      base64Decode_base64Encode]

theorem HashAlgo.decodeDigest_encode (e : DigestEncoding) (h : NixHash) :
    h.algo.decodeDigest (e.encode h.digestAsBytes) = some (.ok h) := by
  rw [HashAlgo.decodeDigest, decodeBytes_encode e h.length_digestAsBytes]
  simp only [NixHash.fromAlgoAndDigest_algo_digest]

/-- Base64 without padding is as long as no encoding of a digest. -/
theorem HashAlgo.decodeDigest_noPad (h : NixHash) :
    h.algo.decodeDigest (base64EncodeNoPad base64Digit h.digestAsBytes) =
      some (.error (.invalidDigestLength h.algo)) := by
  have hlens : ∀ algo : HashAlgo, (algo.digestLength * 4 + 2) / 3 ≠ 2 * algo.digestLength ∧
      (algo.digestLength * 4 + 2) / 3 ≠ Nixbase32.encodeLen algo.digestLength ∧
      (algo.digestLength * 4 + 2) / 3 ≠ base64Len algo.digestLength := by
    intro algo
    cases algo <;> decide
  obtain ⟨hhex, hnix, hbase⟩ := hlens h.algo
  rw [HashAlgo.decodeDigest, HashAlgo.decodeBytes, length_base64EncodeNoPad,
    h.length_digestAsBytes, if_neg hhex, if_neg hnix, if_neg hbase]

theorem isDigestChar_of_mem_encode {e : DigestEncoding} {c : UInt8} (hc : c ∈ e.encode digest) :
    isDigestChar c = true := by
  cases e with
  | hex =>
    have key : ∀ c : UInt8, (48 ≤ c ∧ c ≤ 57) ∨ (97 ≤ c ∧ c ≤ 102) → isDigestChar c = true := by
      refine forall_byte ?_
      decide +kernel
    exact key c (hexEncode_digits hc)
  | nixbase32 =>
    have key : ∀ c ∈ Nixbase32.ALPHABET, isDigestChar c = true := by
      apply List.all_eq_true.mp
      decide +kernel
    exact key c (Nixbase32.mem_ALPHABET_of_mem_encode hc)
  | base64 =>
    have key : ∀ v < 64, isDigestChar (base64Digit v) = true := by decide +kernel
    obtain rfl | ⟨v, hv, rfl⟩ := mem_base64Encode hc
    · decide
    · exact key v hv

theorem isDigestChar_of_mem_noPad {c : UInt8} (hc : c ∈ base64EncodeNoPad base64Digit digest) :
    isDigestChar c = true := by
  have key : ∀ v < 64, isDigestChar (base64Digit v) = true := by decide +kernel
  obtain ⟨v, hv, rfl⟩ := mem_base64EncodeNoPad hc
  exact key v hv

namespace NixHash

-- ====================
-- What stands in front of a digest
-- ====================

theorem dash_not_mem_asStr (a : HashAlgo) : 45 ∉ a.asStr := by
  cases a <;> decide

theorem splitOnce_dash (a : HashAlgo) (digest : Bytes) :
    splitOnce 45 (a.asStr ++ 45 :: digest) = some (a.asStr, digest) :=
  splitOnce_eq_some_iff.mpr ⟨rfl, dash_not_mem_asStr a⟩

theorem inlineDigest_append (a : HashAlgo) (digest : Bytes) :
    inlineDigest (a.asStr ++ 58 :: digest) = some (digest, a) := by
  cases a <;> rfl

theorem eq_append_of_inlineDigest (hinline : inlineDigest s = some (digest, algo)) :
    s = algo.asStr ++ 58 :: digest := by
  obtain ⟨a, ha, hstrip⟩ := List.exists_of_findSome?_eq_some hinline
  obtain ⟨rest, hrest, heq⟩ := Option.map_eq_some_iff.mp hstrip
  cases heq
  have hname : ∀ a ∈ inlineAlgos, a.1 = a.2.asStr ++ [58] := by decide
  rw [stripPrefix_eq_some_iff.mp hrest, hname a ha, List.append_assoc, List.singleton_append]

theorem inlineDigest_eq_none (hcolon : 58 ∉ s) : inlineDigest s = none := by
  cases hinline : inlineDigest s with
  | none => rfl
  | some p =>
    rw [eq_append_of_inlineDigest hinline] at hcolon
    exact absurd (List.mem_append_right _ List.mem_cons_self) hcolon

/-- No string names an algorithm in both ways. -/
theorem inlineDigest_dash (a : HashAlgo) (digest : Bytes) :
    inlineDigest (a.asStr ++ 45 :: digest) = none := by
  cases a <;> rfl

theorem fromSri_eq_error (hdash : 45 ∉ s) : fromSri s = .error .invalidSRI := by
  rw [fromSri, splitOnce_eq_none_iff.mpr hdash]
  rfl

/-- The digest of an SRI hash may be padded or not. -/
theorem fromSri_append (h : NixHash) (hle : digest.length ≤ base64Len h.algo.digestLength)
    (hlong : base64NoPadLen h.algo.digestLength ≤ digest.length)
    (hpad : digest.rdropWhile (fun c => c == 61) =
      base64EncodeNoPad base64Digit h.digestAsBytes) :
    fromSri (h.algo.asStr ++ 45 :: digest) = .ok h := by
  have hdecode : base64DecodeNoPad base64Value? false
      (base64EncodeNoPad base64Digit h.digestAsBytes) = some h.digestAsBytes :=
    base64DecodeNoPad_base64EncodeNoPad (fun v hv => base64Value?_digit hv) false _
  rw [fromSri, splitOnce_dash]
  simp only [bind, Except.bind, HashAlgo.fromStr_asStr, List.take_of_length_le hle,
    if_neg (Nat.not_lt.mpr hlong), hpad, hdecode, fromAlgoAndDigest_algo_digest]

-- ====================
-- All forms
-- ====================

theorem checkAlgo_self (hwant : ∀ a ∈ wantAlgo, a = h.algo) : checkAlgo wantAlgo h = .ok h := by
  cases wantAlgo with
  | none => rfl
  | some a => rw [checkAlgo, hwant a rfl, if_neg (not_not.mpr rfl)]

theorem fromStr_of_fromSri (hsri : fromSri s = .ok h) (hwant : ∀ a ∈ wantAlgo, a = h.algo) :
    fromStr s wantAlgo = some (.ok h) := by
  unfold fromStr
  rw [hsri]
  exact congrArg some (checkAlgo_self hwant)

theorem fromStr_inline (hdash : 45 ∉ digest) :
    fromStr (algo.asStr ++ 58 :: digest) wantAlgo =
      match algo.decodeDigest digest with
      | none => none
      | some (.error e) => some (.error e)
      | some (.ok h) => some (checkAlgo wantAlgo h) := by
  have hsri : fromSri (algo.asStr ++ 58 :: digest) = .error .invalidSRI := by
    refine fromSri_eq_error fun hmem => ?_
    obtain hname | hrest := List.mem_append.mp hmem
    · exact dash_not_mem_asStr algo hname
    · exact hdash ((List.mem_cons.mp hrest).resolve_left (by decide))
  cases hdecode : algo.decodeDigest digest with
  | none => simp only [fromStr, hsri, inlineDigest_append, hdecode]
  | some r => cases r <;> simp only [fromStr, hsri, inlineDigest_append, hdecode]

theorem fromStr_bare (hdash : 45 ∉ s) (hcolon : 58 ∉ s) :
    fromStr s (some algo) = algo.decodeDigest s := by
  unfold fromStr
  rw [fromSri_eq_error hdash]
  simp only [inlineDigest_eq_none hcolon]

theorem fromStr_inline_encode (e : DigestEncoding) (hwant : ∀ a ∈ wantAlgo, a = h.algo) :
    fromStr (h.algo.asStr ++ 58 :: e.encode h.digestAsBytes) wantAlgo = some (.ok h) := by
  have hdash : 45 ∉ e.encode h.digestAsBytes := fun hmem =>
    absurd (isDigestChar_of_mem_encode hmem) (by decide)
  rw [fromStr_inline hdash, HashAlgo.decodeDigest_encode e h]
  exact congrArg some (checkAlgo_self hwant)

theorem fromStr_bare_encode (e : DigestEncoding) (h : NixHash) :
    fromStr (e.encode h.digestAsBytes) (some h.algo) = some (.ok h) := by
  have hdash : 45 ∉ e.encode h.digestAsBytes := fun hmem =>
    absurd (isDigestChar_of_mem_encode hmem) (by decide)
  have hcolon : 58 ∉ e.encode h.digestAsBytes := fun hmem =>
    absurd (isDigestChar_of_mem_encode hmem) (by decide)
  rw [fromStr_bare hdash hcolon, HashAlgo.decodeDigest_encode]

theorem fromSri_toSriString (h : NixHash) : fromSri h.toSriString = .ok h := by
  have hlen : (base64Encode h.digestAsBytes).length = base64Len h.algo.digestLength := by
    rw [length_base64Encode, length_digestAsBytes, base64Len]
  have hlong : ∀ algo : HashAlgo,
      base64NoPadLen algo.digestLength ≤ base64Len algo.digestLength := by
    intro algo
    cases algo <;> decide
  exact fromSri_append h hlen.le (hlen ▸ hlong h.algo) (rdropWhile_base64Encode _)

theorem fromSri_toSriStringNoPad (h : NixHash) : fromSri h.toSriStringNoPad = .ok h := by
  have hlen : (base64EncodeNoPad base64Digit h.digestAsBytes).length =
      base64NoPadLen h.algo.digestLength := by
    rw [length_base64EncodeNoPad, length_digestAsBytes, base64NoPadLen]
  have hle : ∀ algo : HashAlgo,
      base64NoPadLen algo.digestLength ≤ base64Len algo.digestLength := by
    intro algo
    cases algo <;> decide
  exact fromSri_append h (hlen ▸ hle h.algo) hlen.ge (rdropWhile_base64EncodeNoPad _)

/-- All forms are read back. -/
theorem fromStr_notation (h : NixHash) (hs : s ∈ h.notations) (hwant : ∀ a ∈ wantAlgo, a = h.algo) :
    fromStr s wantAlgo = some (.ok h) := by
  simp only [notations, List.mem_cons, List.not_mem_nil, or_false] at hs
  obtain rfl | rfl | rfl | rfl | rfl := hs
  · exact fromStr_of_fromSri (fromSri_toSriString h) hwant
  · exact fromStr_of_fromSri (fromSri_toSriStringNoPad h) hwant
  · rw [asNixLowerhexString, List.append_assoc]
    exact fromStr_inline_encode .hex hwant
  · exact fromStr_inline_encode .nixbase32 hwant
  · exact fromStr_inline_encode .base64 hwant

theorem fromStr_digestNotation (h : NixHash) (hs : s ∈ h.digestNotations) :
    fromStr s (some h.algo) = some (.ok h) := by
  simp only [digestNotations, List.mem_cons, List.not_mem_nil, or_false] at hs
  obtain rfl | rfl | rfl := hs
  · exact fromStr_bare_encode .hex h
  · exact fromStr_bare_encode .nixbase32 h
  · exact fromStr_bare_encode .base64 h

/-- Only in SRI hashes the padding may be left out. -/
theorem fromStr_noPad (h : NixHash) (wantAlgo : Option HashAlgo) :
    fromStr (h.algo.asStr ++ 58 :: base64EncodeNoPad base64Digit h.digestAsBytes) wantAlgo =
        some (.error (.invalidDigestLength h.algo)) ∧
      fromStr (base64EncodeNoPad base64Digit h.digestAsBytes) (some h.algo) =
        some (.error (.invalidDigestLength h.algo)) := by
  have hdash : 45 ∉ base64EncodeNoPad base64Digit h.digestAsBytes := fun hmem =>
    absurd (isDigestChar_of_mem_noPad hmem) (by decide)
  have hcolon : 58 ∉ base64EncodeNoPad base64Digit h.digestAsBytes := fun hmem =>
    absurd (isDigestChar_of_mem_noPad hmem) (by decide)
  rw [fromStr_inline hdash, fromStr_bare hdash hcolon, HashAlgo.decodeDigest_noPad]
  exact ⟨rfl, rfl⟩

-- ====================
-- Another algorithm
-- ====================

/-- What is decoded has no dash. -/
theorem dash_not_mem_of_decodeBytes (hdecode : algo.decodeBytes s = .ok digest) : 45 ∉ s := by
  intro hdash
  rw [HashAlgo.decodeBytes] at hdecode
  split_ifs at hdecode with hhex hnix hbase
  · have hsome := isSome_of_mem_hexDecode (eq_ok_of_mapError hdecode) hdash
    exact absurd hsome (by decide)
  · rw [← Nixbase32.encode_of_decode (eq_ok_of_mapError hdecode)] at hdash
    exact absurd (isDigestChar_of_mem_encode (e := .nixbase32) hdash) (by decide)
  · cases hx : base64Decode s with
    | none =>
      rw [hx] at hdecode
      cases hdecode
    | some x =>
      obtain hpad | hvalue := mem_base64Decode hx hdash
      · exact absurd hpad (by decide)
      · exact absurd hvalue (by decide)

theorem decodeDigest_dash (hdash : 45 ∈ s) : ∃ e, algo.decodeDigest s = some (.error e) := by
  cases hdecode : algo.decodeBytes s with
  | ok digest => exact absurd hdash (dash_not_mem_of_decodeBytes hdecode)
  | error e =>
    rw [HashAlgo.decodeDigest, hdecode]
    exact ⟨e, rfl⟩

theorem algo_of_fromAlgoAndDigest (hok : fromAlgoAndDigest algo digest = .ok h) : h.algo = algo := by
  rw [fromAlgoAndDigest] at hok
  split at hok
  · cases hok
  · cases algo <;> cases hok <;> rfl

theorem fromStr_eq_ok_iff {algoStr : Bytes} :
    HashAlgo.fromStr algoStr = .ok algo ↔ algoStr = algo.asStr := by
  constructor
  · intro hok
    unfold HashAlgo.fromStr at hok
    split_ifs at hok with hmd5 hsha1 hsha256 hsha512
    · cases hok
      exact hmd5
    · cases hok
      exact hsha1
    · cases hok
      exact hsha256
    · cases hok
      exact hsha512
  · rintro rfl
    exact HashAlgo.fromStr_asStr algo

theorem algo_of_decodeDigest (hok : algo.decodeDigest s = some (.ok h)) : h.algo = algo := by
  rw [HashAlgo.decodeDigest] at hok
  split at hok
  · cases hok
  split at hok
  case h_1 h' hmake =>
    cases hok
    exact algo_of_fromAlgoAndDigest hmake
  case h_2 => cases hok

/-- An SRI hash names its algorithm. -/
theorem namedAlgo_of_fromSri (hsri : fromSri s = .ok h) : namedAlgo s = some h.algo := by
  unfold fromSri at hsri
  cases hsplit : splitOnce 45 s with
  | none =>
    rw [hsplit] at hsri
    cases hsri
  | some parts =>
    obtain ⟨algoStr, digestStr⟩ := parts
    rw [hsplit] at hsri
    cases halgo : HashAlgo.fromStr algoStr with
    | error e =>
      simp only [bind, Except.bind, halgo] at hsri
      cases hsri
    | ok algo =>
      simp only [bind, Except.bind, halgo] at hsri
      split at hsri
      · cases hsri
      split at hsri
      · rw [namedAlgo, hsplit]
        simp only [halgo, algo_of_fromAlgoAndDigest hsri]
      · cases hsri

/-- The algorithm stands in front of a dash or a colon. -/
theorem inlineDigest_of_namedAlgo (hnamed : namedAlgo s = some algo) :
    (∃ digest, inlineDigest s = some (digest, algo)) ∨ (inlineDigest s = none ∧ 45 ∈ s) := by
  have hmap : ∀ {o : Option (Bytes × HashAlgo)}, o.map Prod.snd = some algo →
      ∃ digest, o = some (digest, algo) := by
    intro o ho
    obtain ⟨⟨digest, a⟩, rfl, rfl⟩ := Option.map_eq_some_iff.mp ho
    exact ⟨digest, rfl⟩
  rw [namedAlgo] at hnamed
  cases hsplit : splitOnce 45 s with
  | none =>
    rw [hsplit] at hnamed
    exact .inl (hmap hnamed)
  | some parts =>
    obtain ⟨algoStr, digestStr⟩ := parts
    rw [hsplit] at hnamed
    cases halgo : HashAlgo.fromStr algoStr with
    | error e =>
      simp only [halgo] at hnamed
      exact .inl (hmap hnamed)
    | ok a =>
      obtain ⟨rfl, -⟩ := splitOnce_eq_some_iff.mp hsplit
      rw [fromStr_eq_ok_iff.mp halgo]
      exact .inr ⟨inlineDigest_dash a digestStr,
        List.mem_append_right _ List.mem_cons_self⟩

theorem checkAlgo_conflict {want : HashAlgo} (hne : want ≠ h.algo) :
    checkAlgo (some want) h = .error (.conflictingHashAlgos want h.algo) := by
  rw [checkAlgo, if_pos hne]

/-- Another algorithm than the one that is wanted is an error, or a panic of the decoder. -/
theorem fromStr_otherAlgo {named want : HashAlgo} (hnamed : namedAlgo s = some named)
    (hne : want ≠ named) :
    (∃ e, fromStr s (some want) = some (.error e)) ∨
      ∃ digest, s = named.asStr ++ 58 :: digest ∧ Misfits named digest := by
  unfold fromStr
  cases hsri : fromSri s with
  | ok h =>
    obtain rfl : h.algo = named := Option.some.inj ((namedAlgo_of_fromSri hsri).symm.trans hnamed)
    exact .inl ⟨_, congrArg some (checkAlgo_conflict hne)⟩
  | error e =>
    obtain ⟨digest, hinline⟩ | ⟨hinline, hdash⟩ := inlineDigest_of_namedAlgo hnamed
    · simp only [hinline]
      cases hdecode : named.decodeDigest digest with
      | none =>
        exact .inr ⟨digest, eq_append_of_inlineDigest hinline,
          HashAlgo.decodeDigest_eq_none_iff.mp hdecode⟩
      | some r =>
        cases r with
        | error e => exact .inl ⟨e, rfl⟩
        | ok h =>
          have halgo : h.algo = named := algo_of_decodeDigest hdecode
          exact .inl ⟨_, congrArg some (checkAlgo_conflict (halgo.symm ▸ hne))⟩
    · simp only [hinline]
      exact .inl (decodeDigest_dash hdash)

/-- A hash is read back from its SRI form with and without padding, from its algorithm, a colon
    and any padded encoding, and from any padded encoding alone if the algorithm is given. Without
    padding the latter are errors. If another algorithm is wanted than the string names, that is an
    error too, unless the digest makes the decoder panic. -/
theorem fromStr_notations :
    (∀ h : NixHash,
      (∀ s ∈ h.notations, ∀ wantAlgo : Option HashAlgo, (∀ a ∈ wantAlgo, a = h.algo) →
        fromStr s wantAlgo = some (.ok h)) ∧
      (∀ s ∈ h.digestNotations, fromStr s (some h.algo) = some (.ok h)) ∧
      (∀ wantAlgo : Option HashAlgo,
        fromStr (h.algo.asStr ++ 58 :: base64EncodeNoPad base64Digit h.digestAsBytes) wantAlgo =
          some (.error (.invalidDigestLength h.algo))) ∧
      fromStr (base64EncodeNoPad base64Digit h.digestAsBytes) (some h.algo) =
        some (.error (.invalidDigestLength h.algo))) ∧
    ∀ (s : Bytes) (named want : HashAlgo), namedAlgo s = some named → want ≠ named →
      (∀ digest, s = named.asStr ++ 58 :: digest → ¬Misfits named digest) →
      ∃ e, fromStr s (some want) = some (.error e) := by
  refine ⟨fun h => ⟨fun s hs wantAlgo hwant => fromStr_notation h hs hwant,
    fun s hs => fromStr_digestNotation h hs, fun wantAlgo => (fromStr_noPad h wantAlgo).1,
    (fromStr_noPad h none).2⟩, fun s named want hnamed hne hfits => ?_⟩
  obtain herror | ⟨digest, rfl, hmisfits⟩ := fromStr_otherAlgo hnamed hne
  · exact herror
  · exact absurd hmisfits (hfits digest rfl)

/-- Behind a colon a digest in Base64 without padding is not read back. -/
theorem fromStr_noPad_ne :
    ¬∀ h : NixHash,
      fromStr (h.algo.asStr ++ 58 :: base64EncodeNoPad base64Digit h.digestAsBytes) none =
        some (.ok h) := by
  intro h
  have hok := h (ofEnds 0 0)
  rw [(fromStr_noPad (ofEnds 0 0) none).1] at hok
  cases hok

end NixHash

end Snix
