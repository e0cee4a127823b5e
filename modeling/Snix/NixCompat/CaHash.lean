import Snix.Lib.Text
import Snix.NixCompat.NixHash

/-!
# Hashes in text formats

Hashes and content addresses as they are written in text formats: the algorithm, a
colon, and the digest in nixbase32; for a content address, before that, what was hashed.

## Main definitions

- `NixHash.fromNixNixbase32`, `NixHash.toNixNixbase32` — hashes
- `CAHash.fromNixHexStr`, `CAHash.display` — content addresses

## Main results

- `CAHash.fromNixHexStr_display` — a printed content address is read back
-/

namespace Snix

namespace NixHash

/-- Decodes a digest of a fixed length into a hash. -/
def decodeDigest (k : ℕ) (of : ByteArr k → NixHash) (digest : Bytes) : Option NixHash :=
  (Nixbase32.decodeFixed k digest).toOption.map of

/-- Reads an algorithm, a colon and a digest. -/
def fromNixNixbase32 (s : Bytes) : Option NixHash := do
  let (tag, digest) ← splitOnce 58 s
  if tag = ascii "md5" then decodeDigest 16 md5 digest
  else if tag = ascii "sha1" then decodeDigest 20 sha1 digest
  else if tag = ascii "sha256" then decodeDigest 32 sha256 digest
  else if tag = ascii "sha512" then decodeDigest 64 sha512 digest
  else none

def toNixNixbase32 (h : NixHash) : Bytes :=
  h.algo.asStr ++ 58 :: Nixbase32.encode h.digestAsBytes

theorem colon_not_mem_asStr (a : HashAlgo) : 58 ∉ a.asStr := by
  cases a <;> decide

theorem splitOnce_toNixNixbase32 (h : NixHash) :
    splitOnce 58 h.toNixNixbase32 = some (h.algo.asStr, Nixbase32.encode h.digestAsBytes) := by
  exact splitOnce_eq_some_iff.mpr ⟨rfl, colon_not_mem_asStr h.algo⟩

theorem decodeDigest_encode {k : ℕ} (of : ByteArr k → NixHash) (digest : ByteArr k) :
    decodeDigest k of (Nixbase32.encode digest.val) = some (of digest) := by
  rw [decodeDigest, Nixbase32.decodeFixed_encode]
  rfl

/-- A printed hash is read back. -/
theorem fromNixNixbase32_toNixNixbase32 (h : NixHash) :
    fromNixNixbase32 h.toNixNixbase32 = some h := by
  rw [fromNixNixbase32, splitOnce_toNixNixbase32]
  cases h with
  | md5 d => exact decodeDigest_encode md5 d
  | sha1 d => exact decodeDigest_encode sha1 d
  | sha256 d => exact decodeDigest_encode sha256 d
  | sha512 d => exact decodeDigest_encode sha512 d

/-- A digest of another length is rejected. -/
theorem decodeDigest_eq_none {k : ℕ} (of : ByteArr k → NixHash) {digest : Bytes}
    (h : digest.length ≠ Nixbase32.encodeLen k) : decodeDigest k of digest = none := by
  rw [decodeDigest, Nixbase32.decodeFixed, if_pos h]
  rfl

theorem fromNixNixbase32_eq_none (h : NixHash) {digest : Bytes}
    (hlen : digest.length ≠ Nixbase32.encodeLen h.digestAsBytes.length) :
    fromNixNixbase32 (h.algo.asStr ++ 58 :: digest) = none := by
  have hsplit : splitOnce 58 (h.algo.asStr ++ 58 :: digest) = some (h.algo.asStr, digest) :=
    splitOnce_eq_some_iff.mpr ⟨rfl, colon_not_mem_asStr h.algo⟩
  rw [fromNixNixbase32, hsplit]
  cases h with
  | md5 d => exact decodeDigest_eq_none md5 (d.property ▸ hlen)
  | sha1 d => exact decodeDigest_eq_none sha1 (d.property ▸ hlen)
  | sha256 d => exact decodeDigest_eq_none sha256 (d.property ▸ hlen)
  | sha512 d => exact decodeDigest_eq_none sha512 (d.property ▸ hlen)

end NixHash

/-- The characters of hashes: no blanks, no line feeds. -/
def isHashChar (c : UInt8) : Bool := 0x20 < c && c < 0x7F

theorem isHashChar_of_mem_ALPHABET : ∀ c ∈ Nixbase32.ALPHABET, isHashChar c = true := by
  apply List.all_eq_true.mp
  decide +kernel

theorem isHashChar_encode {x : Bytes} {c : UInt8} (h : c ∈ Nixbase32.encode x) :
    isHashChar c = true :=
  isHashChar_of_mem_ALPHABET c (Nixbase32.mem_ALPHABET_of_mem_encode h)

namespace CAHash

/-- Reads a content address. -/
def fromNixHexStr (s : Bytes) : Option CAHash := do
  let (tag, s) ← splitOnce 58 s
  if tag = ascii "text" then do
    let digest ← stripPrefix (ascii "sha256:") s
    let digest ← (Nixbase32.decodeFixed 32 digest).toOption
    some (text digest)
  else if tag = ascii "fixed" then
    match stripPrefix (ascii "r:") s with
    | some s => (NixHash.fromNixNixbase32 s).map nar
    | none => (NixHash.fromNixNixbase32 s).map flat
  else none

/-- What stands before the digest. -/
def label : CAHash → Bytes
  | flat (.md5 _) => ascii "fixed:md5"
  | flat (.sha1 _) => ascii "fixed:sha1"
  | flat (.sha256 _) => ascii "fixed:sha256"
  | flat (.sha512 _) => ascii "fixed:sha512"
  | nar (.md5 _) => ascii "fixed:r:md5"
  | nar (.sha1 _) => ascii "fixed:r:sha1"
  | nar (.sha256 _) => ascii "fixed:r:sha256"
  | nar (.sha512 _) => ascii "fixed:r:sha512"
  | text _ => ascii "text:sha256"

def digestAsBytes : CAHash → Bytes
  | flat h => h.digestAsBytes
  | nar h => h.digestAsBytes
  | text d => d.val

def display (ca : CAHash) : Bytes := ca.label ++ 58 :: Nixbase32.encode ca.digestAsBytes

theorem display_flat (h : NixHash) :
    (flat h).display = ascii "fixed" ++ 58 :: h.toNixNixbase32 := by
  cases h <;> rfl

theorem display_nar (h : NixHash) :
    (nar h).display = ascii "fixed" ++ 58 :: (ascii "r:" ++ h.toNixNixbase32) := by
  cases h <;> rfl

theorem display_text (d : ByteArr 32) :
    (text d).display = ascii "text" ++ 58 :: (ascii "sha256:" ++ Nixbase32.encode d.val) :=
  rfl

/-- No algorithm is taken for the mark of a recursive hash. -/
theorem stripPrefix_toNixNixbase32 (h : NixHash) :
    stripPrefix (ascii "r:") h.toNixNixbase32 = none := by
  cases h <;> rfl

/-- A printed content address is read back. -/
theorem fromNixHexStr_display (ca : CAHash) : fromNixHexStr ca.display = some ca := by
  cases ca with
  | flat h =>
    have hsplit : splitOnce 58 (flat h).display = some (ascii "fixed", h.toNixNixbase32) :=
      splitOnce_eq_some_iff.mpr ⟨display_flat h, by decide⟩
    rw [fromNixHexStr, hsplit]
    show (match stripPrefix (ascii "r:") h.toNixNixbase32 with
      | some s => (NixHash.fromNixNixbase32 s).map nar
      | none => (NixHash.fromNixNixbase32 h.toNixNixbase32).map flat) = some (flat h)
    rw [stripPrefix_toNixNixbase32, NixHash.fromNixNixbase32_toNixNixbase32]
    rfl
  | nar h =>
    have hsplit : splitOnce 58 (nar h).display =
        some (ascii "fixed", ascii "r:" ++ h.toNixNixbase32) :=
      splitOnce_eq_some_iff.mpr ⟨display_nar h, by decide⟩
    rw [fromNixHexStr, hsplit]
    show (match stripPrefix (ascii "r:") (ascii "r:" ++ h.toNixNixbase32) with
      | some s => (NixHash.fromNixNixbase32 s).map nar
      | none => (NixHash.fromNixNixbase32 (ascii "r:" ++ h.toNixNixbase32)).map flat) =
        some (nar h)
    rw [stripPrefix_append]
    show (NixHash.fromNixNixbase32 h.toNixNixbase32).map nar = some (nar h)
    rw [NixHash.fromNixNixbase32_toNixNixbase32]
    rfl
  | text d =>
    have hsplit : splitOnce 58 (text d).display =
        some (ascii "text", ascii "sha256:" ++ Nixbase32.encode d.val) :=
      splitOnce_eq_some_iff.mpr ⟨display_text d, by decide⟩
    rw [fromNixHexStr, hsplit]
    show (stripPrefix (ascii "sha256:") (ascii "sha256:" ++ Nixbase32.encode d.val) >>=
      fun digest => (Nixbase32.decodeFixed 32 digest).toOption >>= fun digest =>
        some (text digest)) = some (text d)
    rw [stripPrefix_append, Option.bind_eq_bind, Option.bind_some, Nixbase32.decodeFixed_encode]
    rfl

/-- A content address with a digest of another length is rejected. -/
theorem fromNixHexStr_eq_none (ca : CAHash) {digest : Bytes}
    (hlen : digest.length ≠ Nixbase32.encodeLen ca.digestAsBytes.length) :
    fromNixHexStr (ca.label ++ 58 :: digest) = none := by
  cases ca with
  | flat h =>
    have hlabel : (flat h).label ++ 58 :: digest =
        ascii "fixed" ++ 58 :: (h.algo.asStr ++ 58 :: digest) := by cases h <;> rfl
    have hsplit : splitOnce 58 ((flat h).label ++ 58 :: digest) =
        some (ascii "fixed", h.algo.asStr ++ 58 :: digest) :=
      splitOnce_eq_some_iff.mpr ⟨hlabel, by decide⟩
    have hstrip : stripPrefix (ascii "r:") (h.algo.asStr ++ 58 :: digest) = none := by
      cases h <;> rfl
    rw [fromNixHexStr, hsplit]
    show (match stripPrefix (ascii "r:") (h.algo.asStr ++ 58 :: digest) with
      | some s => (NixHash.fromNixNixbase32 s).map nar
      | none => (NixHash.fromNixNixbase32 (h.algo.asStr ++ 58 :: digest)).map flat) = none
    rw [hstrip]
    show (NixHash.fromNixNixbase32 (h.algo.asStr ++ 58 :: digest)).map flat = none
    rw [NixHash.fromNixNixbase32_eq_none h hlen]
    rfl
  | nar h =>
    have hlabel : (nar h).label ++ 58 :: digest =
        ascii "fixed" ++ 58 :: (ascii "r:" ++ (h.algo.asStr ++ 58 :: digest)) := by cases h <;> rfl
    have hsplit : splitOnce 58 ((nar h).label ++ 58 :: digest) =
        some (ascii "fixed", ascii "r:" ++ (h.algo.asStr ++ 58 :: digest)) :=
      splitOnce_eq_some_iff.mpr ⟨hlabel, by decide⟩
    rw [fromNixHexStr, hsplit]
    show (match stripPrefix (ascii "r:") (ascii "r:" ++ (h.algo.asStr ++ 58 :: digest)) with
      | some s => (NixHash.fromNixNixbase32 s).map nar
      | none =>
        (NixHash.fromNixNixbase32 (ascii "r:" ++ (h.algo.asStr ++ 58 :: digest))).map flat) = none
    rw [stripPrefix_append]
    show (NixHash.fromNixNixbase32 (h.algo.asStr ++ 58 :: digest)).map nar = none
    rw [NixHash.fromNixNixbase32_eq_none h hlen]
    rfl
  | text d =>
    have hsplit : splitOnce 58 ((text d).label ++ 58 :: digest) =
        some (ascii "text", ascii "sha256:" ++ digest) :=
      splitOnce_eq_some_iff.mpr ⟨rfl, by decide⟩
    have hdigest : Nixbase32.decodeFixed 32 digest =
        .error ⟨min digest.length (Nixbase32.encodeLen 32), .length⟩ := by
      have hlen : digest.length ≠ Nixbase32.encodeLen 32 := d.property ▸ hlen
      rw [Nixbase32.decodeFixed, if_pos hlen]
    rw [fromNixHexStr, hsplit]
    show (stripPrefix (ascii "sha256:") (ascii "sha256:" ++ digest) >>=
      fun digest => (Nixbase32.decodeFixed 32 digest).toOption >>= fun digest =>
        some (text digest)) = none
    rw [stripPrefix_append, Option.bind_eq_bind, Option.bind_some, hdigest]
    rfl

/-- A printed content address is printable. -/
theorem isHashChar_of_mem_display {ca : CAHash} {c : UInt8} (h : c ∈ ca.display) :
    isHashChar c = true := by
  rw [display, List.mem_append, List.mem_cons] at h
  rcases h with h | rfl | h
  · have hlabel : ∀ ca : CAHash, ca.label.all isHashChar = true := by
      rintro ((d | d | d | d) | (d | d | d | d) | d) <;> rfl
    exact List.all_eq_true.mp (hlabel ca) c h
  · rfl
  · exact isHashChar_encode h

end CAHash

end Snix
