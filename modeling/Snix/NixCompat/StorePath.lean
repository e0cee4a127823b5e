import Snix.Lib.SortedMap
import Snix.NixCompat.NixHash

/-!
# Store paths

A store path is a 20 byte digest and a name over a small alphabet. Store paths
are ordered by their digests alone.

## Main definitions

- `StorePath` — digest and name, the name valid by construction
- `StorePath.fromBytes`, `StorePath.fromAbsolutePath` — the parsers
- `StorePath.display`, `StorePath.toAbsolutePath` — the printed forms
- `StorePath.cmp` — the order

## Main results

- `fromAbsolutePath_toAbsolutePath` — parsing a printed store path returns it
- `isPlain_of_mem_toAbsolutePath` — a printed store path needs no escaping
- `cmp_eq_compare_display_iff` — when the order is that of the printed forms
-/

namespace Snix

/-- Why a store path name is rejected. -/
inductive ParseStorePathNameError where
  | length | name
  deriving DecidableEq, Repr

/-- Why a store path is rejected. -/
inductive ParseStorePathError where
  | missingDash
  | digestEncoding (e : DecodeError)
  | length
  | name
  | missingStoreDir
  deriving DecidableEq, Repr

def ParseStorePathError.ofNameError : ParseStorePathNameError → ParseStorePathError
  | .length => .length
  | .name => .name

/-- The bytes a store path name may consist of. -/
def isNameChar (c : UInt8) : Bool :=
  (97 ≤ c && c ≤ 122) || (65 ≤ c && c ≤ 90) || (48 ≤ c && c ≤ 57) ||
    c ∈ ascii "+-_?=."

/-- Checks a store path name. -/
def validateName (s : Bytes) : Except ParseStorePathNameError Bytes :=
  if s.isEmpty || s.length > 211 then .error .length
  else if s.all isNameChar then .ok s
  else .error .name

/-- Names that pass the check. -/
def ValidName (s : Bytes) : Prop := s ≠ [] ∧ s.length ≤ 211 ∧ ∀ c ∈ s, isNameChar c = true

instance (s : Bytes) : Decidable (ValidName s) :=
  have : Decidable (∀ c ∈ s, isNameChar c = true) := List.decidableBAll _ s
  inferInstanceAs (Decidable (s ≠ [] ∧ s.length ≤ 211 ∧ ∀ c ∈ s, isNameChar c = true))

theorem validateName_eq_ok {s : Bytes} {s' : Bytes} :
    validateName s = .ok s' ↔ ValidName s ∧ s' = s := by
  unfold validateName ValidName
  split
  · next h =>
    simp only [Bool.or_eq_true, List.isEmpty_iff, decide_eq_true_eq] at h
    simp only [reduceCtorEq, false_iff]
    rintro ⟨⟨hne, hle, -⟩, -⟩
    rcases h with h | h
    · exact hne h
    · omega
  · next h =>
    simp only [Bool.or_eq_true, List.isEmpty_iff, decide_eq_true_eq, not_or] at h
    split
    · next hall =>
      simp only [List.all_eq_true] at hall
      simp only [Except.ok.injEq]
      exact ⟨fun hs => ⟨⟨h.1, by omega, hall⟩, hs.symm⟩, fun hs => hs.2.symm⟩
    · next hall =>
      simp only [List.all_eq_true] at hall
      simp only [reduceCtorEq, false_iff]
      exact fun hs => hall hs.1.2.2

/-- The number of bytes in the digest of a store path. -/
def DIGEST_SIZE : ℕ := 20

def ENCODED_DIGEST_SIZE : ℕ := Nixbase32.encodeLen DIGEST_SIZE

/-- The store directory, without the trailing slash. -/
def STORE_DIR : Bytes := ascii "/nix/store"

def STORE_DIR_WITH_SLASH : Bytes := ascii "/nix/store/"

/-- A store path. -/
structure StorePath where
  digest : ByteArr DIGEST_SIZE
  name : Bytes
  valid : ValidName name
  deriving DecidableEq

namespace StorePath

/-- Parses a store path without the store directory. -/
def fromBytes (s : Bytes) : Except ParseStorePathError StorePath :=
  if s.length < ENCODED_DIGEST_SIZE + 2 then .error .length
  else match Nixbase32.decodeFixed DIGEST_SIZE (s.take ENCODED_DIGEST_SIZE) with
    | .error e => .error (.digestEncoding e)
    | .ok digest =>
      if s.getD ENCODED_DIGEST_SIZE 0 ≠ 45 then .error .missingDash
      else match h : validateName (s.drop (ENCODED_DIGEST_SIZE + 1)) with
        | .error e => .error (.ofNameError e)
        | .ok name => .ok ⟨digest, name, by
            obtain ⟨hv, rfl⟩ := validateName_eq_ok.mp h
            exact hv⟩

/-- Builds a store path from its parts. -/
def fromNameAndDigestFixed (name : Bytes) (digest : ByteArr DIGEST_SIZE) :
    Except ParseStorePathError StorePath :=
  match h : validateName name with
  | .error e => .error (.ofNameError e)
  | .ok name' => .ok ⟨digest, name', by
      obtain ⟨hv, rfl⟩ := validateName_eq_ok.mp h
      exact hv⟩

/-- Builds a store path from its parts, checking the length of the digest. -/
def fromNameAndDigest (name digest : Bytes) : Except ParseStorePathError StorePath :=
  if h : digest.length = DIGEST_SIZE then fromNameAndDigestFixed name ⟨digest, h⟩ else .error .length

/-- Parses a store path with the store directory. -/
def fromAbsolutePath (s : Bytes) : Except ParseStorePathError StorePath :=
  if STORE_DIR_WITH_SLASH <+: s then fromBytes (s.drop STORE_DIR_WITH_SLASH.length)
  else .error .missingStoreDir

/-- The store path without the store directory. -/
def display (p : StorePath) : Bytes := Nixbase32.encode p.digest.val ++ ascii "-" ++ p.name

/-- The store path with the store directory. -/
def toAbsolutePath (p : StorePath) : Bytes := STORE_DIR_WITH_SLASH ++ p.display

/-- Store paths are ordered by their digests, from the last byte to the first. -/
def cmp (p q : StorePath) : Ordering := compareOn (fun p => p.digest.val.reverse) p q

instance : Std.TransCmp cmp :=
  inferInstanceAs (Std.TransCmp (compareOn fun p : StorePath => p.digest.val.reverse))

/-- Parsing a printed store path returns it. -/
theorem fromBytes_display (p : StorePath) : fromBytes p.display = .ok p := by
  obtain ⟨digest, name, hvalid⟩ := p
  have hlen : (Nixbase32.encode digest.val).length = ENCODED_DIGEST_SIZE := by
    rw [Nixbase32.length_encode, digest.property]
    rfl
  have hpos : 0 < name.length := List.length_pos_of_ne_nil hvalid.1
  have hname : validateName name = .ok name := validateName_eq_ok.mpr ⟨hvalid, rfl⟩
  have htake : ((Nixbase32.encode digest.val ++ ascii "-") ++ name).take ENCODED_DIGEST_SIZE =
      Nixbase32.encode digest.val := by
    rw [List.append_assoc, List.take_left' hlen]
  have hdash : ((Nixbase32.encode digest.val ++ ascii "-") ++ name).getD ENCODED_DIGEST_SIZE 0 =
      45 := by
    rw [List.append_assoc, List.getD_eq_getElem?_getD, List.getElem?_append_right (by omega),
      hlen, Nat.sub_self]
    rfl
  have hdrop : ((Nixbase32.encode digest.val ++ ascii "-") ++ name).drop
      (ENCODED_DIGEST_SIZE + 1) = name := by
    refine List.drop_left' ?_
    rw [List.length_append, hlen]
    rfl
  have hlong : ¬ ((Nixbase32.encode digest.val ++ ascii "-") ++ name).length <
      ENCODED_DIGEST_SIZE + 2 := by
    simp only [List.length_append, hlen]
    have : (ascii "-").length = 1 := rfl
    omega
  simp only [fromBytes, display, if_neg hlong, htake, Nixbase32.decodeFixed_encode, hdash]
  simp only [ne_eq, not_true_eq_false, if_false]
  split
  · next e he =>
    rw [hdrop, hname] at he
    cases he
  · next n he =>
    rw [hdrop, hname] at he
    cases he
    rfl

theorem fromNameAndDigestFixed_eq_ok_iff {name : Bytes} {digest : ByteArr DIGEST_SIZE}
    {p : StorePath} :
    fromNameAndDigestFixed name digest = .ok p ↔ p.name = name ∧ p.digest = digest := by
  unfold fromNameAndDigestFixed
  constructor
  · intro h
    split at h
    · cases h
    · next name' hname =>
      cases h
      exact ⟨(validateName_eq_ok.mp hname).2, rfl⟩
  · rintro ⟨rfl, rfl⟩
    have hname : validateName p.name = .ok p.name := validateName_eq_ok.mpr ⟨p.valid, rfl⟩
    split
    · next e he =>
      rw [hname] at he
      cases he
    · next name' he =>
      rw [hname] at he
      cases he
      rfl

theorem fromNameAndDigest_eq_ok_iff {name digest : Bytes} {p : StorePath} :
    fromNameAndDigest name digest = .ok p ↔ p.name = name ∧ p.digest.val = digest := by
  unfold fromNameAndDigest
  split_ifs with hlen
  · refine fromNameAndDigestFixed_eq_ok_iff.trans ?_
    exact and_congr_right fun _ => ⟨fun h => by rw [h], fun h => Subtype.ext h⟩
  · refine iff_of_false (by simp) ?_
    rintro ⟨-, rfl⟩
    exact hlen p.digest.property

/-- Only printed store paths are accepted. -/
theorem display_of_fromBytes {s : Bytes} {p : StorePath} (h : fromBytes s = .ok p) : p.display = s := by
  unfold fromBytes at h
  split at h
  · cases h
  · next hlen =>
    split at h
    · cases h
    · next digest hdigest =>
      split at h
      · cases h
      · next hdash =>
        split at h
        · cases h
        · next name hname =>
          cases h
          obtain ⟨-, rfl⟩ := validateName_eq_ok.mp hname
          have hat : ENCODED_DIGEST_SIZE < s.length := by omega
          rw [not_not, List.getD_eq_getElem?_getD, List.getElem?_eq_getElem hat, Option.getD_some] at hdash
          rw [display, Nixbase32.encode_of_decodeFixed hdigest, List.append_assoc]
          show s.take ENCODED_DIGEST_SIZE ++ (45 :: s.drop (ENCODED_DIGEST_SIZE + 1)) = s
          rw [← hdash, List.cons_getElem_drop_succ, List.take_append_drop]

@[simp] theorem fromAbsolutePath_toAbsolutePath (p : StorePath) :
    fromAbsolutePath p.toAbsolutePath = .ok p := by
  simp [fromAbsolutePath, toAbsolutePath, fromBytes_display]

-- ====================
-- The order and the printed form
-- ====================

theorem cmp_eq_compare_encode (p q : StorePath) :
    cmp p q = compare (Nixbase32.encode p.digest.val) (Nixbase32.encode q.digest.val) :=
  (Nixbase32.compare_encode (p.digest.property.trans q.digest.property.symm)).symm

/-- Printed store paths are in the order of their digests, and of their names on a tie. -/
theorem compare_display (p q : StorePath) :
    compare p.display q.display = (cmp p q).then (compare p.name q.name) := by
  have hlen : (Nixbase32.encode p.digest.val).length = (Nixbase32.encode q.digest.val).length := by
    rw [Nixbase32.length_encode, Nixbase32.length_encode, p.digest.property, q.digest.property]
  have hdash : compare (ascii "-") (ascii "-") = .eq := Std.ReflCmp.compare_self
  rw [display, display, List.append_assoc, List.append_assoc, compare_append hlen, compare_append rfl,
    hdash, Ordering.eq_then, ← cmp_eq_compare_encode]

theorem cmp_eq_eq_iff {p q : StorePath} : cmp p q = .eq ↔ p.digest = q.digest := by
  rw [cmp, compareOn, Std.LawfulEqCmp.compare_eq_iff_eq, List.reverse_inj]
  exact Subtype.ext_iff.symm

/-- The order agrees with equality and with the printed forms exactly for store paths that do not
    have one digest and two names, and sorted collections keep all of a list of store paths exactly
    if no two of them do. -/
theorem cmp_eq_compare_display_iff (p q : StorePath) :
    (((cmp p q = .eq ↔ p = q) ∧ cmp p q = compare p.display q.display) ↔
      ¬ (p.digest = q.digest ∧ p.name ≠ q.name)) ∧
      ∀ {β : Type} (l : List (StorePath × β)),
        (∀ e ∈ l, e.1 ∈ (SortedMap.ofList l : SortedMap cmp β).keys) ↔
          ∀ e ∈ l, ∀ e' ∈ l, ¬ (e.1.digest = e'.1.digest ∧ e.1.name ≠ e'.1.name) := by
  have heq : ∀ {p q : StorePath}, p = q ↔ p.digest = q.digest ∧ p.name = q.name := by
    intro p q
    constructor
    · rintro rfl
      exact ⟨rfl, rfl⟩
    · rintro ⟨hdigest, hname⟩
      cases p
      cases q
      cases hdigest
      cases hname
      rfl
  constructor
  · rw [cmp_eq_eq_iff, compare_display, not_and, not_not]
    constructor
    · rintro ⟨hiff, -⟩ hdigest
      exact (heq.mp (hiff.mp hdigest)).2
    · intro h
      refine ⟨⟨fun hdigest => heq.mpr ⟨hdigest, h hdigest⟩, fun hpq => by rw [hpq]⟩, ?_⟩
      cases hc : cmp p q with
      | lt => rfl
      | gt => rfl
      | eq =>
        have hname : compare p.name q.name = .eq := by
          rw [h (cmp_eq_eq_iff.mp hc)]
          exact Std.ReflCmp.compare_self
        rw [Ordering.eq_then, hname]
  · intro β l
    rw [SortedMap.forall_mem_keys_ofList_iff]
    refine forall₂_congr fun e _ => forall₂_congr fun e' _ => ?_
    rw [cmp_eq_eq_iff, heq, not_and, not_not]
    exact ⟨fun h hdigest => (h hdigest).2, fun h hdigest => ⟨hdigest, h hdigest⟩⟩

/-- Two store paths with the digest of zeros, which differ in their names. -/
def twin (name : UInt8) (h : ValidName [name]) : StorePath := ⟨List.Vector.replicate DIGEST_SIZE 0, [name], h⟩

theorem validName_a : ValidName [97] := by decide +kernel

theorem validName_b : ValidName [98] := by decide +kernel

/-- Store paths that differ compare equal though their printed forms do not, and a set that has the
    one does not take the other. -/
theorem cmp_twin :
    cmp (twin 97 validName_a) (twin 98 validName_b) = .eq ∧ twin 97 validName_a ≠ twin 98 validName_b ∧
      compare (twin 97 validName_a).display (twin 98 validName_b).display = .lt ∧
      (SortedMap.ofList [(twin 97 validName_a, ()), (twin 98 validName_b, ())] : SortedSet cmp).elems =
        [twin 97 validName_a] := by
  decide +kernel

end StorePath

/-- The digest that stands for a fixed output: of its declared hash, and of its
    path once that is known. -/
def fodDigest (sha256 : Bytes → ByteArr 32) (isRecursive : Bool) (hash : NixHash)
    (outOutputPath : Option StorePath) : ByteArr 32 :=
  let path := (outOutputPath.map StorePath.toAbsolutePath).getD []
  if isRecursive then
    sha256 (ascii "fixed:out:r:" ++ hash.asNixLowerhexString ++ ascii ":" ++ path)
  else sha256 (ascii "fixed:out:" ++ hash.asNixLowerhexString ++ ascii ":" ++ path)

/-- Bytes that need no escaping and are ASCII: neither a quote, a backslash nor
    a line or tabulator control. -/
def isPlain (c : UInt8) : Bool := 0x20 < c && c ≤ 0x7F && c ≠ 34 && c ≠ 92

theorem isPlain_of_isNameChar : ∀ c : UInt8, isNameChar c = true → isPlain c = true := by
  refine forall_byte ?_
  decide +kernel

theorem isPlain_of_mem_ALPHABET : ∀ c : UInt8, c ∈ Nixbase32.ALPHABET → isPlain c = true := by
  apply List.all_eq_true.mp
  decide +kernel

theorem isPlain_of_mem_hexEncode {b : Bytes} {c : UInt8} (h : c ∈ hexEncode b) :
    isPlain c = true := by
  have key : ∀ c : UInt8, (48 ≤ c ∧ c ≤ 57) ∨ (97 ≤ c ∧ c ≤ 102) → isPlain c = true := by
    refine forall_byte ?_
    decide +kernel
  exact key c (hexEncode_digits h)

/-- A printed store path needs no escaping. -/
theorem StorePath.isPlain_of_mem_toAbsolutePath {p : StorePath} {c : UInt8}
    (h : c ∈ p.toAbsolutePath) : isPlain c = true := by
  simp only [toAbsolutePath, display, List.mem_append] at h
  have hdir : STORE_DIR_WITH_SLASH.all isPlain = true := by decide +kernel
  rcases h with h | (h | h) | h
  · exact List.all_eq_true.mp hdir c h
  · exact isPlain_of_mem_ALPHABET c (Nixbase32.mem_ALPHABET_of_mem_encode h)
  · obtain rfl := List.mem_singleton.mp h
    decide +kernel
  · exact isPlain_of_isNameChar c (p.valid.2.2 c h)

end Snix
