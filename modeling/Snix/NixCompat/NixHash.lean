import Snix.NixCompat.Nixbase32

/-!
# Nix hashes

The hash algorithms Nix knows, their digests, and content addresses.

## Main definitions

- `HashAlgo`, `NixHash` — an algorithm, and a digest of it
- `CAHash` — a content address: a hash together with what was hashed
-/

namespace Snix

/-- The hash algorithms supported by Nix. -/
inductive HashAlgo where
  | md5 | sha1 | sha256 | sha512
  deriving DecidableEq, Repr

namespace HashAlgo

def asStr : HashAlgo → Bytes
  | md5 => ascii "md5"
  | sha1 => ascii "sha1"
  | sha256 => ascii "sha256"
  | sha512 => ascii "sha512"

/-- The number of bytes in a digest. -/
def digestLength : HashAlgo → ℕ
  | sha1 => 20
  | sha256 => 32
  | sha512 => 64
  | md5 => 16

end HashAlgo

/-- A digest of one of the known algorithms. -/
inductive NixHash where
  | md5 (digest : ByteArr 16)
  | sha1 (digest : ByteArr 20)
  | sha256 (digest : ByteArr 32)
  | sha512 (digest : ByteArr 64)
  deriving DecidableEq

namespace NixHash

/-- Errors of hash construction. -/
inductive Error where
  | invalidAlgo (algo : Bytes)
  | invalidSRI
  | invalidDigestLength (algo : HashAlgo)
  | invalidBase16Encoding (e : DecodeError)
  | invalidBase32Encoding (e : DecodeError)
  | invalidBase64Encoding
  | conflictingHashAlgos (algo inline : HashAlgo)
  | missingInlineHashAlgo (s : Bytes)
  deriving DecidableEq, Repr

def algo : NixHash → HashAlgo
  | md5 _ => .md5
  | sha1 _ => .sha1
  | sha256 _ => .sha256
  | sha512 _ => .sha512

def digestAsBytes : NixHash → Bytes
  | md5 d => d.val
  | sha1 d => d.val
  | sha256 d => d.val
  | sha512 d => d.val

/-- Builds a hash from its algorithm and digest, checking the length. -/
def fromAlgoAndDigest (algo : HashAlgo) (digest : Bytes) : Except Error NixHash :=
  if h : digest.length ≠ algo.digestLength then .error (.invalidDigestLength algo)
  else
    have h : digest.length = algo.digestLength := not_not.mp h
    .ok <| match algo, h with
      | .md5, h => .md5 ⟨digest, h⟩
      | .sha1, h => .sha1 ⟨digest, h⟩
      | .sha256, h => .sha256 ⟨digest, h⟩
      | .sha512, h => .sha512 ⟨digest, h⟩

/-- The algorithm, a colon and the digest in lowercase hexadecimal. -/
def asNixLowerhexString (h : NixHash) : Bytes :=
  h.algo.asStr ++ ascii ":" ++ hexEncode h.digestAsBytes

@[simp] theorem fromAlgoAndDigest_algo_digest (h : NixHash) :
    fromAlgoAndDigest h.algo h.digestAsBytes = .ok h := by
  cases h with
  | md5 d | sha1 d | sha256 d | sha512 d =>
    obtain ⟨d, hd⟩ := d
    simp [fromAlgoAndDigest, algo, digestAsBytes, HashAlgo.digestLength, hd]

end NixHash

/-- Parses the name of an algorithm. -/
def HashAlgo.fromStr (s : Bytes) : Except NixHash.Error HashAlgo :=
  if s = ascii "md5" then .ok .md5
  else if s = ascii "sha1" then .ok .sha1
  else if s = ascii "sha256" then .ok .sha256
  else if s = ascii "sha512" then .ok .sha512
  else .error (.invalidAlgo s)

@[simp] theorem HashAlgo.fromStr_asStr (a : HashAlgo) : fromStr a.asStr = .ok a := by
  cases a <;> decide

/-- A content address: a hash of a single file, of a NAR, or of a text. -/
inductive CAHash where
  | flat (hash : NixHash)
  | nar (hash : NixHash)
  | text (digest : ByteArr 32)
  deriving DecidableEq

end Snix
