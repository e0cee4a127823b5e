import Snix.NixCompat.CaHash
import Snix.NixCompat.Narinfo.Signature
import Snix.NixCompat.StorePath
import Snix.NixCompat.Wire.Serde

/-!
# Path infos on the wire

The daemon describes a store path by eight fields, three of which are texts of their own:
the hash of its archive, its signatures and its content address. What is missing is an
empty string.

The hash is written in nixbase32 and read as hexadecimal, so that no path info is read
back. A path info that is encoded as the protocol says is read if it has a content
address whose digest is in nixbase32: a content address that is missing is taken for
the end of the input.

## Main definitions

- `NarHash`, `UnkeyedValidPathInfo` — path infos
- `UnkeyedValidPathInfo.documented` — the encoding of the protocol
- `UnkeyedValidPathInfo.Accepted` — the path infos that are read

## Main results

- `UnkeyedValidPathInfo.not_roundTrips` — what was written is not read back
- `UnkeyedValidPathInfo.decodes_documented_iff` — what is read of the encoding of the protocol
-/

namespace Snix

open Wire
open NixSerialize (serialize)
open NixDeserialize (tryDeserialize)

namespace NixDaemon

-- ====================
-- Fields
-- ====================

/-- Which characters are alphanumeric, by their encodings: a table of Unicode. -/
class AlphanumericTable where
  isAlphanumeric : Bytes → Bool

open AlphanumericTable (isAlphanumeric)

/-- Reads a byte string as a value, where there is one. -/
def readAs {α : Type} (parse : Bytes → Option α) : De (Option α) := do
  match ← De.tryReadBytes with
  | some buf =>
    match parse buf with
    | some a => pure (some a)
    | none => .fail .invalidData
  | none => pure none

instance : NixDeserialize Utf8 := ⟨readAs Utf8.ofBytes?⟩

instance : NixSerialize StorePath := ⟨fun p => [.display p.toAbsolutePath]⟩

instance : NixDeserialize StorePath := ⟨readAs fun buf => (StorePath.fromAbsolutePath buf).toOption⟩

/-- A store path, or an empty string. -/
instance : NixSerialize (Option StorePath) where
  serialize
    | some value => serialize value
    | none => [.slice []]

instance : NixDeserialize (Option StorePath) where
  tryDeserialize := do
    match ← De.tryReadBytes with
    | some buf =>
      if buf = [] then pure (some none)
      else match StorePath.fromAbsolutePath buf with
        | .ok p => pure (some (some p))
        | .error _ => .fail .invalidData
    | none => pure (some none)

/-- The SHA-256 hash of an archive. -/
structure NarHash where
  digest : ByteArr 32
  deriving DecidableEq

instance : NixSerialize NarHash := ⟨fun h => [.slice (Nixbase32.encode h.digest.val)]⟩

/-- The hash with these hexadecimal digits. -/
def NarHash.fromHex (bytes : Bytes) : Option NarHash :=
  match hexDecode bytes with
  | .error _ => none
  | .ok result => if h : result.length = 32 then some ⟨result, h⟩ else none

instance : NixDeserialize NarHash := ⟨readAs NarHash.fromHex⟩

instance : NixSerialize Signature := ⟨fun sig => [.display sig.display]⟩

instance [AlphanumericTable] : NixDeserialize Signature where
  tryDeserialize := do
    match ← (tryDeserialize : De (Option Utf8)) with
    | some value =>
      match Signature.parse isAlphanumeric value.val with
      | .ok sig => pure (some sig)
      | .error _ => .fail .invalidData
    | none => pure none

/-- A content address, or an empty string. -/
instance : NixSerialize (Option CAHash) where
  serialize
    | some value => [.slice value.display]
    | none => [.slice []]

/-- There is no value where the string is empty, as at the end of the input. -/
def readContentAddress : Option Utf8 → De (Option (Option CAHash))
  | some value =>
    if value.val = [] then pure none
    else match CAHash.fromNixHexStr value.val with
      | some ca => pure (some (some ca))
      | none => .fail .invalidData
  | none => pure none

instance : NixDeserialize (Option CAHash) where
  tryDeserialize := do
    let value ← (tryDeserialize : De (Option Utf8))
    readContentAddress value

-- ====================
-- Path infos
-- ====================

structure UnkeyedValidPathInfo where
  deriver : Option StorePath
  narHash : NarHash
  references : List StorePath
  registrationTime : ℕ
  narSize : ℕ
  ultimate : Bool
  signatures : List Signature
  ca : Option CAHash
  deriving DecidableEq

namespace UnkeyedValidPathInfo

instance : NixSerialize UnkeyedValidPathInfo where
  serialize v :=
    serialize v.deriver ++ serialize v.narHash ++ serialize v.references ++
      serialize v.registrationTime ++ serialize v.narSize ++ serialize v.ultimate ++
      serialize v.signatures ++ serialize v.ca

/-- The fields behind the first have to be there. -/
def readFields [AlphanumericTable] (deriver : Option StorePath) : De UnkeyedValidPathInfo := do
  let narHash ← deserialize NarHash
  let references ← deserialize (List StorePath)
  let registrationTime ← deserialize ℕ
  let narSize ← deserialize ℕ
  let ultimate ← deserialize Bool
  let signatures ← deserialize (List Signature)
  let ca ← deserialize (Option CAHash)
  pure ⟨deriver, narHash, references, registrationTime, narSize, ultimate, signatures, ca⟩

/-- Without a first field there is no value. -/
instance [AlphanumericTable] : NixDeserialize UnkeyedValidPathInfo where
  tryDeserialize := do
    match ← (tryDeserialize : De (Option (Option StorePath))) with
    | some deriver => do
      let v ← readFields deriver
      pure (some v)
    | none => pure none

end UnkeyedValidPathInfo

-- ====================
-- The encoding of the protocol
-- ====================

/-- The encodings of digests. -/
inductive DigestEncoding where
  | base16
  | nixbase32
  | base64
  deriving DecidableEq, Repr

def DigestEncoding.encode : DigestEncoding → Bytes → Bytes
  | base16, digest => hexEncode digest
  | nixbase32, digest => Nixbase32.encode digest
  | base64, digest => base64Encode digest

/-- A content address with its digest in the given encoding, or an empty string. -/
def optContentAddress (enc : DigestEncoding) : Option CAHash → Bytes
  | some ca => ca.label ++ 58 :: enc.encode ca.digestAsBytes
  | none => []

/-- A store path, or an empty string. -/
def optStorePath : Option StorePath → Bytes
  | some p => p.toAbsolutePath
  | none => []

/-- The number of elements, and the elements. -/
def encodeSet (xs : List Bytes) : Bytes := leBytes 8 xs.length ++ xs.flatMap encodeBytes

namespace UnkeyedValidPathInfo

/-- The bytes of a path info as the protocol describes them. The digest of the content
    address may be in any encoding. -/
def documented (v : UnkeyedValidPathInfo) (enc : DigestEncoding) : Bytes :=
  encodeBytes (optStorePath v.deriver) ++ (encodeBytes (hexEncode v.narHash.digest.val) ++
    (encodeSet (v.references.map StorePath.toAbsolutePath) ++
      (leBytes 8 v.registrationTime ++ (leBytes 8 v.narSize ++
        (leBytes 8 (if v.ultimate then 1 else 0) ++ (encodeSet (v.signatures.map Signature.display) ++
          encodeBytes (optContentAddress enc v.ca)))))))

/-- What the types of the source promise: numbers have 64 bits, lists and strings are in
    memory, and names are strings. -/
structure WellTyped (v : UnkeyedValidPathInfo) : Prop where
  references : v.references.length < 2 ^ 64
  registrationTime : v.registrationTime < 2 ^ 64
  narSize : v.narSize < 2 ^ 64
  signatures : v.signatures.length < 2 ^ 64
  name : ∀ sig ∈ v.signatures, utf8Valid sig.name = true
  display : ∀ sig ∈ v.signatures, sig.display.length < 2 ^ 63

/-- The path infos that are read: there is a content address, its digest is in nixbase32,
    the names of the signatures are valid, and no string is too long for the reader. -/
structure Accepted [AlphanumericTable] (N : ℕ) (v : UnkeyedValidPathInfo)
    (enc : DigestEncoding) : Prop where
  deriver : (optStorePath v.deriver).length ≤ N
  narHash : 64 ≤ N
  references : ∀ p ∈ v.references, p.toAbsolutePath.length ≤ N
  signatures : ∀ sig ∈ v.signatures,
    sig.display.length ≤ N ∧ Signature.ValidName isAlphanumeric sig.name
  ca : v.ca ≠ none ∧ enc = .nixbase32 ∧ (optContentAddress enc v.ca).length ≤ N

end UnkeyedValidPathInfo

-- ====================
-- What is read of the fields
-- ====================

section

variable {α : Type} {N : ℕ}

theorem readsIff_readAs {parse : Bytes → Option α} {x : Bytes} {a : α} {C : Prop}
    (hx : x.length < 2 ^ 63) (hparse : C → parse x = some a) (hnot : ¬ C → parse x = none) :
    De.ReadsIff N (readAs parse) (encodeBytes x) (some a) (x.length ≤ N ∧ C) := by
  have hbind := (De.readsIff_bytes (N := N) hx).bind (y := []) (b := some a) (D := C) (f := fun
    | some buf =>
      match parse buf with
      | some a => pure (some a)
      | none => .fail .invalidData
    | none => pure none) fun _ => by
      refine ⟨fun hC => ?_, fun hC => ?_⟩
      · simp only [hparse hC]
        exact De.reads_pure (some a)
      · simp only [hnot hC]
        exact De.fails_fail .invalidData
  rwa [List.append_nil] at hbind

theorem length_toAbsolutePath (p : StorePath) : p.toAbsolutePath.length ≤ 255 := by
  have hdigest : p.digest.val.length = DIGEST_SIZE := p.digest.property
  have hname := p.valid.2.1
  have hencoded : Nixbase32.encodeLen DIGEST_SIZE = 32 := rfl
  have hdir : STORE_DIR_WITH_SLASH.length = 11 := rfl
  have hdash : (ascii "-").length = 1 := rfl
  rw [StorePath.toAbsolutePath, StorePath.display, List.length_append, List.length_append,
    List.length_append, Nixbase32.length_encode, hdigest, hencoded, hdir, hdash]
  omega

theorem readsIff_storePath (p : StorePath) :
    De.ReadsIff N (tryDeserialize : De (Option StorePath)) (encodeBytes p.toAbsolutePath) (some p)
      (p.toAbsolutePath.length ≤ N) := by
  have hlen := length_toAbsolutePath p
  refine (readsIff_readAs (C := True) (by omega) (fun _ => ?_) fun h => absurd trivial h).congr
    (and_iff_left trivial)
  rw [StorePath.fromAbsolutePath_toAbsolutePath]
  rfl

theorem length_optStorePath (p : Option StorePath) : (optStorePath p).length ≤ 255 := by
  cases p with
  | none => exact Nat.zero_le 255
  | some p => exact length_toAbsolutePath p

/-- An empty string is the store path that is missing. -/
theorem readsIff_optStorePath (p : Option StorePath) :
    De.ReadsIff N (tryDeserialize : De (Option (Option StorePath))) (encodeBytes (optStorePath p))
      (some p) ((optStorePath p).length ≤ N) := by
  have hlen := length_optStorePath p
  have hbind := (De.readsIff_bytes (N := N) (x := optStorePath p) (by omega)).bind (y := [])
    (b := some p) (D := True) (f := fun
    | some buf =>
      if buf = [] then pure (some none)
      else match StorePath.fromAbsolutePath buf with
        | .ok p => pure (some (some p))
        | .error _ => .fail .invalidData
    | none => pure (some none)) fun _ => by
      cases p with
      | none => exact .of_reads (De.reads_pure _)
      | some p =>
        have hne : optStorePath (some p) ≠ [] := by
          show STORE_DIR_WITH_SLASH ++ p.display ≠ []
          exact List.append_ne_nil_of_left_ne_nil (by decide) _
        simp only [if_neg hne]
        rw [optStorePath, StorePath.fromAbsolutePath_toAbsolutePath]
        exact .of_reads (De.reads_pure _)
  rw [List.append_nil] at hbind
  exact hbind.congr (and_iff_left trivial)

/-- A hash in hexadecimal is read. -/
theorem readsIff_narHash (h : NarHash) :
    De.ReadsIff N (tryDeserialize : De (Option NarHash)) (encodeBytes (hexEncode h.digest.val))
      (some h) (64 ≤ N) := by
  have hdigest : h.digest.val.length = 32 := h.digest.property
  have hlen : (hexEncode h.digest.val).length = 64 := by rw [length_hexEncode, hdigest]
  refine (readsIff_readAs (C := True) (by omega) (fun _ => ?_) fun h => absurd trivial h).congr ?_
  · rw [NarHash.fromHex, hexDecode_hexEncode]
    exact dif_pos hdigest
  · rw [hlen]
    exact and_iff_left trivial

/-- A hash in nixbase32 is rejected: 52 digits are no 32 bytes in hexadecimal. -/
theorem fails_nixbase32 (h : NarHash) :
    De.Fails N (tryDeserialize : De (Option NarHash)) (encodeBytes (Nixbase32.encode h.digest.val)) := by
  have hdigest : h.digest.val.length = 32 := h.digest.property
  have hlen : (Nixbase32.encode h.digest.val).length = 52 := by
    rw [Nixbase32.length_encode, hdigest]
    rfl
  have hnone : NarHash.fromHex (Nixbase32.encode h.digest.val) = none := by
    rw [NarHash.fromHex]
    cases hdecode : hexDecode (Nixbase32.encode h.digest.val) with
    | error e => rfl
    | ok result =>
      have hresult := length_hexDecode hdecode
      exact dif_neg (by omega)
  exact (readsIff_readAs (a := h) (C := False) (by omega) False.elim fun _ => hnone).fails And.right

theorem readsIff_utf8 {x : Bytes} (hx : x.length < 2 ^ 63) (hutf8 : utf8Valid x = true) :
    De.ReadsIff N (tryDeserialize : De (Option Utf8)) (encodeBytes x) (some ⟨x, hutf8⟩)
      (x.length ≤ N) :=
  (readsIff_readAs (C := True) hx (fun _ => Utf8.ofBytes?_val ⟨x, hutf8⟩)
    fun h => absurd trivial h).congr (and_iff_left trivial)

theorem readsIff_signature [AlphanumericTable] (hcolon : isAlphanumeric [58] = false)
    {sig : Signature} (hname : utf8Valid sig.name = true) (hlen : sig.display.length < 2 ^ 63) :
    De.ReadsIff N (tryDeserialize : De (Option Signature)) (encodeBytes sig.display) (some sig)
      (sig.display.length ≤ N ∧ Signature.ValidName isAlphanumeric sig.name) := by
  have hutf8 : utf8Valid sig.display = true := by
    refine utf8Valid_append hname (utf8Valid_of_ascii fun c hc => ?_)
    rcases List.mem_cons.mp hc with rfl | hc
    · decide
    · exact UInt8.le_trans (base64Encode_range hc).2.1 (by decide)
  have hbind := (readsIff_utf8 (N := N) hlen hutf8).bind (y := []) (b := some sig)
    (D := Signature.ValidName isAlphanumeric sig.name) (f := fun
    | some value =>
      match Signature.parse isAlphanumeric value.val with
      | .ok sig => pure (some sig)
      | .error _ => .fail .invalidData
    | none => pure none) fun _ => by
      refine ⟨fun hvalid => ?_, fun hvalid => ?_⟩
      · simp only [Signature.parse_display hcolon hvalid]
        exact De.reads_pure _
      · obtain ⟨e, he⟩ := Signature.parse_display_error hvalid
        simp only [he]
        exact De.fails_fail _
  rwa [List.append_nil] at hbind

theorem length_digestAsBytes (ca : CAHash) : ca.digestAsBytes.length ∈ [16, 20, 32, 64] := by
  rcases ca with (d | d | d | d) | (d | d | d | d) | d <;>
    exact (d.property.symm ▸ by decide : d.val.length ∈ [16, 20, 32, 64])

theorem length_label (ca : CAHash) : ca.label.length ≤ 16 := by
  rcases ca with (d | d | d | d) | (d | d | d | d) | d <;> exact Nat.le_of_ble_eq_true rfl

theorem length_encode_ne {enc : DigestEncoding} (henc : enc ≠ .nixbase32) (ca : CAHash) :
    (enc.encode ca.digestAsBytes).length ≠ Nixbase32.encodeLen ca.digestAsBytes.length := by
  have hlen := length_digestAsBytes ca
  have hbase16 : ∀ n ∈ [16, 20, 32, 64], 2 * n ≠ Nixbase32.encodeLen n := by decide
  have hbase64 : ∀ n ∈ [16, 20, 32, 64], (n + 2) / 3 * 4 ≠ Nixbase32.encodeLen n := by decide
  cases enc with
  | base16 =>
    rw [DigestEncoding.encode, length_hexEncode]
    exact hbase16 _ hlen
  | nixbase32 => exact absurd rfl henc
  | base64 =>
    rw [DigestEncoding.encode, length_base64Encode]
    exact hbase64 _ hlen

theorem length_optContentAddress (enc : DigestEncoding) (ca : Option CAHash) :
    (optContentAddress enc ca).length < 2 ^ 63 := by
  cases ca with
  | none => exact (by decide : 0 < 2 ^ 63)
  | some ca =>
    have hlabel := length_label ca
    have hdigest : ca.digestAsBytes.length ≤ 64 :=
      (by decide : ∀ n ∈ [16, 20, 32, 64], n ≤ 64) _ (length_digestAsBytes ca)
    have hencoded : (enc.encode ca.digestAsBytes).length ≤ 128 := by
      cases enc with
      | base16 =>
        rw [DigestEncoding.encode, length_hexEncode]
        omega
      | nixbase32 =>
        rw [DigestEncoding.encode, Nixbase32.length_encode, Nixbase32.encodeLen]
        omega
      | base64 =>
        rw [DigestEncoding.encode, length_base64Encode]
        omega
    rw [optContentAddress, List.length_append, List.length_cons]
    omega

theorem fails_readContentAddress {x : Bytes} (hx : x.length < 2 ^ 63) (hne : x ≠ [])
    (hnone : CAHash.fromNixHexStr x = none) :
    De.Fails N (tryDeserialize : De (Option (Option CAHash))) (encodeBytes x) := by
  by_cases hutf8 : utf8Valid x = true
  · have hbind := (readsIff_utf8 (N := N) hx hutf8).bind (y := [])
      (b := (none : Option (Option CAHash))) (D := False) (f := readContentAddress) fun _ => by
        refine ⟨False.elim, fun _ => ?_⟩
        simp only [readContentAddress, if_neg hne, hnone]
        exact De.fails_fail _
    rw [List.append_nil] at hbind
    exact hbind.fails And.right
  · have hfails : De.Fails N (tryDeserialize : De (Option Utf8)) (encodeBytes x) :=
      (readsIff_readAs (a := ⟨[], rfl⟩) (C := False) hx False.elim
        fun _ => dif_neg hutf8).fails And.right
    have hbind := hfails.bind readContentAddress []
    rwa [List.append_nil] at hbind

/-- A content address is read if there is one and its digest is in nixbase32. An empty
    string is no content address, and where there is none the input has ended. -/
theorem readsIff_contentAddress (enc : DigestEncoding) (ca : Option CAHash) :
    De.ReadsIff N (deserialize (Option CAHash)) (encodeBytes (optContentAddress enc ca)) ca
      (ca ≠ none ∧ enc = .nixbase32 ∧ (optContentAddress enc ca).length ≤ N) := by
  have hlen := length_optContentAddress enc ca
  cases ca with
  | none =>
    have hnone : readContentAddress (some ⟨[], rfl⟩) = pure none := by
      rw [readContentAddress]
      exact if_pos rfl
    have hread : De.Reads N (tryDeserialize : De (Option (Option CAHash)))
        (encodeBytes [] ++ []) none :=
      ((readsIff_utf8 (x := []) (by decide) rfl).reads (Nat.zero_le N)).bind
        (hnone.symm ▸ De.reads_pure none)
    rw [List.append_nil] at hread
    exact (De.ReadsIff.of_fails (fails_deserialize hread) none).congr
      ⟨False.elim, fun h => h.1 rfl⟩
  | some ca =>
    have hne : optContentAddress enc (some ca) ≠ [] :=
      List.append_ne_nil_of_right_ne_nil _ (List.cons_ne_nil _ _)
    by_cases henc : enc = .nixbase32
    · subst henc
      have hutf8 : utf8Valid ca.display = true := utf8Valid_of_ascii fun c hc => by
        have hchar := CAHash.isHashChar_of_mem_display hc
        simp only [isHashChar, Bool.and_eq_true, decide_eq_true_eq] at hchar
        exact UInt8.le_of_lt hchar.2
      have hbind := (readsIff_utf8 (N := N) hlen hutf8).bind (y := [])
        (b := some (some ca)) (D := True) (f := readContentAddress) fun _ => by
          have hdisplay : CAHash.fromNixHexStr (optContentAddress .nixbase32 (some ca)) = some ca :=
            CAHash.fromNixHexStr_display ca
          simp only [readContentAddress]
          rw [if_neg hne, hdisplay]
          exact .of_reads (De.reads_pure _)
      rw [List.append_nil] at hbind
      exact (readsIff_deserialize hbind).congr
        ⟨fun h => ⟨nofun, rfl, h.1⟩, fun h => ⟨h.2.2, trivial⟩⟩
    · have hnone := CAHash.fromNixHexStr_eq_none ca (length_encode_ne henc ca)
      have hfails := fails_readContentAddress (N := N) hlen hne hnone
      refine (readsIff_deserialize (.of_fails hfails (some (some ca)))).congr ?_
      exact iff_of_false id fun hread => henc hread.2.1

end

namespace UnkeyedValidPathInfo

section

variable {N : ℕ} {v : UnkeyedValidPathInfo}

theorem readsIff_references (hv : v.WellTyped) :
    De.ReadsIff N (deserialize (List StorePath))
      (encodeSet (v.references.map StorePath.toAbsolutePath)) v.references
      (∀ p ∈ v.references, p.toAbsolutePath.length ≤ N) := by
  rw [encodeSet, List.length_map, List.flatMap_map]
  exact readsIff_deserialize (readsIff_list hv.references fun p _ => readsIff_storePath p)

theorem readsIff_signatures [AlphanumericTable] (hcolon : isAlphanumeric [58] = false) (hv : v.WellTyped) :
    De.ReadsIff N (deserialize (List Signature))
      (encodeSet (v.signatures.map Signature.display)) v.signatures
      (∀ sig ∈ v.signatures,
        sig.display.length ≤ N ∧ Signature.ValidName isAlphanumeric sig.name) := by
  rw [encodeSet, List.length_map, List.flatMap_map]
  exact readsIff_deserialize (readsIff_list hv.signatures fun sig hsig =>
    readsIff_signature hcolon (hv.name sig hsig) (hv.display sig hsig))

theorem readsIff_number {n : ℕ} (hn : n < 2 ^ 64) :
    De.ReadsIff N (deserialize ℕ) (leBytes 8 n) n True :=
  readsIff_deserialize (.of_reads (De.reads_number hn))

theorem readsIff_bool (b : Bool) :
    De.ReadsIff N (deserialize Bool) (leBytes 8 (if b then 1 else 0)) b True := by
  have hread : ReadsBack N b := readsBack_bool b
  have hbytes : encode b = leBytes 8 (if b then 1 else 0) := List.append_nil _
  rw [ReadsBack, hbytes] at hread
  exact readsIff_deserialize (.of_reads hread)

theorem readsIff_fields [AlphanumericTable] (hcolon : isAlphanumeric [58] = false)
    (hv : v.WellTyped) (enc : DigestEncoding) :
    De.ReadsIff N (readFields v.deriver)
      (encodeBytes (hexEncode v.narHash.digest.val) ++
        (encodeSet (v.references.map StorePath.toAbsolutePath) ++
          (leBytes 8 v.registrationTime ++ (leBytes 8 v.narSize ++
            (leBytes 8 (if v.ultimate then 1 else 0) ++
              (encodeSet (v.signatures.map Signature.display) ++
                encodeBytes (optContentAddress enc v.ca)))))))
      v
      (64 ≤ N ∧ (∀ p ∈ v.references, p.toAbsolutePath.length ≤ N) ∧ True ∧ True ∧ True ∧
        (∀ sig ∈ v.signatures,
          sig.display.length ≤ N ∧ Signature.ValidName isAlphanumeric sig.name) ∧
        v.ca ≠ none ∧ enc = .nixbase32 ∧ (optContentAddress enc v.ca).length ≤ N) := by
  unfold readFields
  refine (readsIff_deserialize (readsIff_narHash v.narHash)).bind fun _ => ?_
  refine (readsIff_references hv).bind fun _ => ?_
  refine (readsIff_number hv.registrationTime).bind fun _ => ?_
  refine (readsIff_number hv.narSize).bind fun _ => ?_
  refine (readsIff_bool v.ultimate).bind fun _ => ?_
  refine (readsIff_signatures hcolon hv).bind fun _ => ?_
  exact (readsIff_contentAddress enc v.ca).map fun ca => { v with ca := ca }

/-- A path info in the encoding of the protocol is read exactly if it is accepted. -/
theorem readsIff_documented [AlphanumericTable] (hcolon : isAlphanumeric [58] = false)
    (hv : v.WellTyped) (enc : DigestEncoding) :
    De.ReadsIff N (deserialize UnkeyedValidPathInfo) (v.documented enc) v
      (v.Accepted N enc) := by
  have hall := (readsIff_optStorePath (N := N) v.deriver).bind (f := fun
    | some deriver => do
      let v ← readFields deriver
      pure (some v)
    | none => pure none) fun _ => (readsIff_fields hcolon hv enc).map some
  refine (readsIff_deserialize hall).congr ⟨?_, fun h => ?_⟩
  · rintro ⟨hderiver, hnarHash, hreferences, -, -, -, hsignatures, hca⟩
    exact ⟨hderiver, hnarHash, hreferences, hsignatures, hca⟩
  · exact ⟨h.deriver, h.narHash, h.references, trivial, trivial, trivial, h.signatures, h.ca⟩

theorem encode_eq (v : UnkeyedValidPathInfo) :
    encode v = encode v.deriver ++ (encode v.narHash ++ (encode v.references ++
      (encode v.registrationTime ++ (encode v.narSize ++ (encode v.ultimate ++
        (encode v.signatures ++ encode v.ca)))))) := by
  show encodeItems (serialize v.deriver ++ serialize v.narHash ++ serialize v.references ++
    serialize v.registrationTime ++ serialize v.narSize ++ serialize v.ultimate ++
    serialize v.signatures ++ serialize v.ca) = _
  simp only [encodeItems_append, List.append_assoc]
  rfl

/-- What was written is rejected: at the hash, if not before. -/
theorem fails_encode [AlphanumericTable] (v : UnkeyedValidPathInfo) :
    De.Fails N (deserialize UnkeyedValidPathInfo) (encode v) := by
  have hderiver : encode v.deriver = encodeBytes (optStorePath v.deriver) := by
    cases v.deriver <;> exact List.append_nil _
  have hnarHash : encode v.narHash = encodeBytes (Nixbase32.encode v.narHash.digest.val) :=
    List.append_nil _
  have hfields : ∀ y, De.Fails N (readFields v.deriver) (encode v.narHash ++ y) := by
    intro y
    unfold readFields
    rw [hnarHash]
    exact ((readsIff_deserialize (.of_fails (fails_nixbase32 v.narHash)
      (some v.narHash))).fails id).bind _ y
  rw [encode_eq, hderiver]
  generalize encode v.references ++ _ = y
  have hall := (readsIff_optStorePath (N := N) v.deriver).bind (f := fun
    | some deriver => do
      let v ← readFields deriver
      pure (some v)
    | none => pure none) fun _ => (De.ReadsIff.of_fails (hfields y) v).map some
  exact (readsIff_deserialize hall).fails And.right

end

-- ====================
-- Through writers and readers
-- ====================

/-- Writes a path info to the sink. -/
def write (k : ℕ) (v : UnkeyedValidPathInfo) : Prog WriteError NixWriter Unit := do
  NixWriter.writeItems k (serialize v)
  NixWriter.flush k

/-- Reads a path info that has to be there. -/
def read [AlphanumericTable] (k : ℕ) : Prog IoError NixReader UnkeyedValidPathInfo :=
  (deserialize UnkeyedValidPathInfo).exec k

/-- The path info is written, and a reader of the bytes returns it. -/
def RoundTrips [AlphanumericTable] (v : UnkeyedValidPathInfo) (w : NixWriter) (r : NixReader) :
    Prop :=
  ∃ bytes w', Returns (fun k => write k v) w (.ok ((), w')) ∧
    w'.inner.written = w.inner.written ++ w.buf.data ++ bytes ∧
    ∃ r', Returns read { r with inner := { r.inner with rest := bytes } } (.ok (v, r'))

section

variable {v : UnkeyedValidPathInfo} {w : NixWriter} {r : NixReader}

theorem returns_write (v : UnkeyedValidPathInfo) (hw : w.inner.Steady) :
    ∃ w', Returns (fun k => write k v) w (.ok ((), w')) ∧
      w'.inner.written = w.inner.written ++ w.buf.data ++ encode v := by
  obtain ⟨w₁, hs₁, hout₁, hret₁⟩ := NixWriter.returns_writeItems (serialize v) hw
  obtain ⟨w', -, hwritten, -, hret⟩ := NixWriter.returns_flush hs₁
  exact ⟨w', hret₁.bind (f := fun _ k => NixWriter.flush k) hret, hwritten.trans hout₁⟩

variable [AlphanumericTable]

/-- A reader of the bytes that were written fails. -/
theorem read_fails (v : UnkeyedValidPathInfo) (hempty : r.buf.data = [])
    (hfaultless : r.inner.Faultless) (hfair : r.inner.Fair) (hreserved : 0 < r.reservedBufSize) :
    ∃ e, Returns read { r with inner := { r.inner with rest := encode v } } (.error e) := by
  obtain ⟨e, he⟩ := fails_encode (N := r.maxBufSize) v []
  refine De.returns_exec_error (e := e) (N := r.maxBufSize)
    ⟨⟨hfaultless, hfair⟩, hreserved, rfl⟩ ?_
  show (deserialize UnkeyedValidPathInfo).decode r.maxBufSize (r.buf.data ++ encode v) = .error e
  rwa [hempty, List.nil_append, ← List.append_nil (encode v)]

theorem RoundTrips.returns_read (h : v.RoundTrips w r) (hw : w.inner.Steady) :
    ∃ r', Returns read { r with inner := { r.inner with rest := encode v } } (.ok (v, r')) := by
  obtain ⟨bytes, w', hwrite, hwritten, hread⟩ := h
  obtain ⟨w₁, hwrite₁, hwritten₁⟩ := returns_write v hw
  cases hwrite.unique hwrite₁
  obtain rfl := List.append_cancel_left (hwritten.symm.trans hwritten₁)
  exact hread

/-- No path info is read back, whatever the writer, the reader and the streams do. -/
theorem not_roundTrips (v : UnkeyedValidPathInfo) (hw : w.inner.Steady)
    (hempty : r.buf.data = []) (hfaultless : r.inner.Faultless) (hfair : r.inner.Fair)
    (hreserved : 0 < r.reservedBufSize) : ¬ v.RoundTrips w r := by
  intro h
  obtain ⟨r', hread⟩ := h.returns_read hw
  obtain ⟨e, hfail⟩ := read_fails v hempty hfaultless hfair hreserved
  cases hread.unique hfail

/-- The encoding of the protocol is read exactly if it is accepted, whatever the buffer of
    the reader and however the bytes arrive. -/
theorem decodes_documented_iff (hcolon : isAlphanumeric [58] = false) (hv : v.WellTyped)
    (enc : DigestEncoding) (hfaultless : r.inner.Faultless) (hfair : r.inner.Fair)
    (hreserved : 0 < r.reservedBufSize) {tail : Bytes}
    (hrest : r.buf.data ++ r.inner.rest = v.documented enc ++ tail) :
    (∃ r', Returns read r (.ok (v, r')) ∧ r'.buf.data ++ r'.inner.rest = tail) ↔
      v.Accepted r.maxBufSize enc := by
  have hdecode := (readsIff_documented (N := r.maxBufSize) hcolon hv enc).decode_iff tail
  rw [← hrest] at hdecode
  exact (De.returns_exec_iff ⟨⟨hfaultless, hfair⟩, hreserved, rfl⟩).trans hdecode

end

-- ====================
-- Samples
-- ====================

section

/-- The ASCII letters and digits. -/
local instance : AlphanumericTable where
  isAlphanumeric c := match c with
    | [b] => (97 ≤ b && b ≤ 122) || (65 ≤ b && b ≤ 90) || (48 ≤ b && b ≤ 57)
    | _ => false

/-- A path that has no deriver and no references, and a content address where one is given. -/
def sample (ca : Option CAHash) : UnkeyedValidPathInfo :=
  ⟨none, ⟨List.Vector.replicate 32 0⟩, [], 0, 0, false, [], ca⟩

def textHash : CAHash := .text (List.Vector.replicate 32 0)

/-- A reader of the bytes, which gets as many of them as it has room for. -/
def sampleReader (bytes : Bytes) : NixReader :=
  ⟨⟨bytes, fun _ => .chunk 1000⟩, .withCapacity 0 fun _ => 0, 8192, 8192⟩

theorem sample_wellTyped (ca : Option CAHash) : (sample ca).WellTyped :=
  ⟨Nat.two_pow_pos 64, Nat.two_pow_pos 64, Nat.two_pow_pos 64, Nat.two_pow_pos 64, nofun, nofun⟩

/-- A path info with as little in it as possible is rejected after it was written. -/
theorem sample_not_read_back :
    ¬ (sample none).RoundTrips ⟨slowSink, noRoom, 1⟩ (sampleReader []) := by
  intro h
  obtain ⟨r', hread⟩ := h.returns_read slowSink_steady
  obtain ⟨e, hfail⟩ := read_fails (r := sampleReader []) (sample none) rfl
    (fun _ => Answer.noConfusion) (fun _ => ⟨0, Answer.noConfusion⟩) (by decide)
  cases hread.unique hfail

theorem sample_not_roundTrips :
    ¬ (sample none).RoundTrips ⟨slowSink, noRoom, 1⟩ (sampleReader []) :=
  not_roundTrips (sample none) slowSink_steady rfl (fun _ => Answer.noConfusion)
    (fun _ => ⟨0, Answer.noConfusion⟩) (by decide)

/-- The text address of the sample is read, in nixbase32. -/
theorem decodes_sample :
    (∃ r', Returns read (sampleReader ((sample (some textHash)).documented .nixbase32))
        (.ok (sample (some textHash), r')) ∧ r'.buf.data ++ r'.inner.rest = []) ↔
      (sample (some textHash)).Accepted 8192 .nixbase32 :=
  decodes_documented_iff (r := sampleReader ((sample (some textHash)).documented .nixbase32))
    rfl (sample_wellTyped _) .nixbase32 (fun _ => Answer.noConfusion)
    (fun _ => ⟨0, Answer.noConfusion⟩) (by decide) (List.append_nil _).symm

/-- Without a content address nothing is read: the end of the input is reported. -/
theorem absent_contentAddress_fails :
    ¬ ∃ r', Returns read (sampleReader ((sample none).documented .nixbase32))
      (.ok (sample none, r')) := by
  rintro ⟨r', hread⟩
  obtain ⟨e, he⟩ := (readsIff_documented (N := 8192) rfl (sample_wellTyped none)
    .nixbase32).fails (fun h => h.ca.1 rfl) []
  obtain ⟨e', hfail⟩ := De.returns_exec_error (N := 8192) (e := e)
    (r := sampleReader ((sample none).documented .nixbase32))
    ⟨⟨fun _ => Answer.noConfusion, fun _ => ⟨0, Answer.noConfusion⟩⟩, by decide, rfl⟩
    (by rwa [List.append_nil] at he)
  cases hread.unique hfail

end

end UnkeyedValidPathInfo

end NixDaemon

end Snix
