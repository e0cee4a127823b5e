import Snix.Lib.ByteReader
import Snix.Castore.Proto
import Snix.Store.PathInfo

/-!
# The messages of path infos

A path info as a message of plain lists of bytes, and the checks when it is read back.
References stand in the message twice, as digests and by name.

## Main definitions

- `PathInfo`, `NarInfo`, `Ca` — the messages
- `PathInfo.tryFrom`, `PathInfo.ofPathInfo` — both conversions

## Main results

- `PathInfo.tryFrom_eq_ok_iff` — what is accepted is what the other conversion gives
-/

namespace Snix.Store.Proto

open Castore.Proto (Entry)

/-- The hashing types of content addresses. -/
inductive CaHashType where
  | narSha256
  | narSha1
  | narSha512
  | narMd5
  | textSha256
  | flatSha1
  | flatMd5
  | flatSha256
  | flatSha512
  deriving DecidableEq

/-- The number of a hashing type in messages. -/
def CaHashType.asI32 : CaHashType → Int32
  | .narSha256 => 0
  | .narSha1 => 1
  | .narSha512 => 2
  | .narMd5 => 3
  | .textSha256 => 4
  | .flatSha1 => 5
  | .flatMd5 => 6
  | .flatSha256 => 7
  | .flatSha512 => 8

@[ext] structure Ca where
  typ : Int32
  digest : Bytes

@[ext] structure StorePath where
  name : Bytes
  digest : Bytes

@[ext] structure Signature where
  name : Bytes
  data : Bytes

@[ext] structure NarInfo where
  narSize : UInt64
  narSha256 : Bytes
  signatures : List Signature
  referenceNames : List Bytes
  deriver : Option StorePath
  ca : Option Ca

/-- The entry is a message of its own, which may be there without being of any kind. -/
@[ext] structure PathInfo where
  entry : Option (Option Entry)
  references : List Bytes
  narinfo : Option NarInfo

inductive ConvertCAError where
  | invalidReferenceDigestLen (len : ℕ) (typ : String)
  | unknownHashType (typ : Int32)

inductive ValidatePathInfoError where
  | invalidReferenceDigestLen (i len : ℕ)
  | noEntryPresent
  | invalidRootNode (e : Castore.DirectoryError)
  | invalidNodeName (name : Bytes) (e : ParseStorePathError)
  | invalidNarSha256DigestLen (len : ℕ)
  | inconsistentNumberOfReferences (references referenceNames : ℕ)
  | invalidNarinfoReferenceName (i : ℕ) (name : Bytes)
  | inconsistentNarinfoReferenceNameDigest (i : ℕ) (reference : Bytes) (digest : ByteArr DIGEST_SIZE)
  | invalidDeriverField (e : ParseStorePathError)
  | narInfoFieldMissing
  | invalidCaField (e : ConvertCAError)
  | invalidSignature (i len : ℕ)

-- ====================
-- Content addresses
-- ====================

/-- A byte string as one of fixed length; none if it has another. -/
def tryFixed (k : ℕ) (b : Bytes) : Option (ByteArr k) := if h : b.length = k then some ⟨b, h⟩ else none

/-- The content address with a digest of a known length. -/
def convertDigest (k : ℕ) (label : String) (of : ByteArr k → CAHash) (digest : Bytes) :
    Except ConvertCAError CAHash :=
  match tryFixed k digest with
  | none => .error (.invalidReferenceDigestLen digest.length label)
  | some digest => .ok (of digest)

def Ca.tryInto (value : Ca) : Except ConvertCAError CAHash :=
  if value.typ = CaHashType.narSha256.asI32 then
    convertDigest 32 "NarSha256" (fun d => .nar (.sha256 d)) value.digest
  else if value.typ = CaHashType.narSha1.asI32 then
    convertDigest 20 "NarSha1" (fun d => .nar (.sha1 d)) value.digest
  else if value.typ = CaHashType.narSha512.asI32 then
    convertDigest 64 "NarSha512" (fun d => .nar (.sha512 d)) value.digest
  else if value.typ = CaHashType.narMd5.asI32 then
    convertDigest 16 "NarMd5" (fun d => .nar (.md5 d)) value.digest
  else if value.typ = CaHashType.textSha256.asI32 then
    convertDigest 32 "TextSha256" .text value.digest
  else if value.typ = CaHashType.flatSha1.asI32 then
    convertDigest 20 "FlatSha1" (fun d => .flat (.sha1 d)) value.digest
  else if value.typ = CaHashType.flatMd5.asI32 then
    convertDigest 16 "FlatMd5" (fun d => .flat (.md5 d)) value.digest
  else if value.typ = CaHashType.flatSha256.asI32 then
    convertDigest 32 "FlatSha256" (fun d => .flat (.sha256 d)) value.digest
  else if value.typ = CaHashType.flatSha512.asI32 then
    convertDigest 64 "FlatSha512" (fun d => .flat (.sha512 d)) value.digest
  else .error (.unknownHashType value.typ)

def CaHashType.ofCAHash : CAHash → CaHashType
  | .flat (.md5 _) => .flatMd5
  | .flat (.sha1 _) => .flatSha1
  | .flat (.sha256 _) => .flatSha256
  | .flat (.sha512 _) => .flatSha512
  | .nar (.md5 _) => .narMd5
  | .nar (.sha1 _) => .narSha1
  | .nar (.sha256 _) => .narSha256
  | .nar (.sha512 _) => .narSha512
  | .text _ => .textSha256

/-- The hash of a content address. -/
def caHash : CAHash → NixHash
  | .flat hash => hash
  | .nar hash => hash
  | .text digest => .sha256 digest

def Ca.ofCAHash (value : CAHash) : Ca := ⟨(CaHashType.ofCAHash value).asI32, (caHash value).digestAsBytes⟩

-- ====================
-- Path infos
-- ====================

namespace PathInfo

/-- The value of a field that must be there. -/
def okOr {α : Type} (e : ValidatePathInfoError) : Option α → Except ValidatePathInfoError α
  | none => .error e
  | some a => .ok a

/-- The references have the right number of bytes. -/
def checkReferences : ℕ → List Bytes → Except ValidatePathInfoError Unit
  | _, [] => .ok ()
  | i, reference :: references =>
    if reference.length ≠ DIGEST_SIZE then .error (.invalidReferenceDigestLen i reference.length)
    else checkReferences (i + 1) references

/-- There are as many names as references. -/
def checkCount (references referenceNames : ℕ) : Except ValidatePathInfoError Unit :=
  if referenceNames ≠ references then .error (.inconsistentNumberOfReferences references referenceNames)
  else .ok ()

/-- Parses the names of the references, and compares their digests with the references. -/
def parseReferences : ℕ → List Bytes → List Bytes →
    Except ValidatePathInfoError (List Snix.StorePath)
  | i, name :: names, reference :: references =>
    match Snix.StorePath.fromBytes name with
    | .error _ => .error (.invalidNarinfoReferenceName i name)
    | .ok path =>
      if path.digest.val ≠ reference then
        .error (.inconsistentNarinfoReferenceNameDigest i reference path.digest)
      else do
        let paths ← parseReferences (i + 1) names references
        return path :: paths
  | _, _, _ => .ok []

def splitEntry : Option Entry → Except ValidatePathInfoError (Castore.PathComponent × Castore.Node)
  | none => .error (.invalidRootNode .noEntrySet)
  | some entry =>
    match entry.tryIntoNameAndNode with
    | .error e => .error (.invalidRootNode e)
    | .ok x => .ok x

/-- The name of the root node, which castore accepts but need not be a store path. -/
def parseStorePath (name : Castore.PathComponent) : Except ValidatePathInfoError Snix.StorePath :=
  match Snix.StorePath.fromBytes name.val with
  | .error e => .error (.invalidNodeName name.val e)
  | .ok path => .ok path

def convertNarSha256 (narSha256 : Bytes) : Except ValidatePathInfoError (ByteArr 32) :=
  match tryFixed 32 narSha256 with
  | none => .error (.invalidNarSha256DigestLen narSha256.length)
  | some digest => .ok digest

def convertDeriver : Option StorePath → Except ValidatePathInfoError (Option Snix.StorePath)
  | none => .ok none
  | some deriver =>
    match Snix.StorePath.fromNameAndDigest deriver.name deriver.digest with
    | .error e => .error (.invalidDeriverField e)
    | .ok path => .ok (some path)

def convertSignatures : ℕ → List Signature → Except ValidatePathInfoError (List Store.Signature)
  | _, [] => .ok []
  | i, signature :: signatures =>
    match tryFixed 64 signature.data with
    | none => .error (.invalidSignature i signature.data.length)
    | some data => do
      let signatures ← convertSignatures (i + 1) signatures
      return ⟨signature.name, data⟩ :: signatures

def convertCa : Option Ca → Except ValidatePathInfoError (Option CAHash)
  | none => .ok none
  | some ca =>
    match ca.tryInto with
    | .error e => .error (.invalidCaField e)
    | .ok ca => .ok (some ca)

def tryFrom (value : PathInfo) : Except ValidatePathInfoError Store.PathInfo := do
  let narinfo ← okOr .narInfoFieldMissing value.narinfo
  checkReferences 0 value.references
  checkCount value.references.length narinfo.referenceNames.length
  let references ← parseReferences 0 narinfo.referenceNames value.references
  let entry ← okOr .noEntryPresent value.entry
  let (name, node) ← splitEntry entry
  let storePath ← parseStorePath name
  let narSha256 ← convertNarSha256 narinfo.narSha256
  let deriver ← convertDeriver narinfo.deriver
  let signatures ← convertSignatures 0 narinfo.signatures
  let ca ← convertCa narinfo.ca
  return ⟨storePath, node, references, narinfo.narSize, narSha256, signatures, deriver, ca⟩

def ofPathInfo (value : Store.PathInfo) : PathInfo where
  entry := some (some (.fromNameAndNode value.storePath.display value.node))
  references := value.references.map fun reference => reference.digest.val
  narinfo := some {
    narSize := value.narSize
    narSha256 := value.narSha256.val
    signatures := value.signatures.map fun sig => ⟨sig.name, sig.bytes.val⟩
    referenceNames := value.references.map Snix.StorePath.display
    deriver := value.deriver.map fun sp => ⟨sp.name, sp.digest.val⟩
    ca := value.ca.map Ca.ofCAHash }

end PathInfo

-- ====================
-- What the conversions accept
-- ====================

theorem tryFixed_eq_some_iff {k : ℕ} {b : Bytes} {x : ByteArr k} : tryFixed k b = some x ↔ b = x.val := by
  unfold tryFixed
  split_ifs with h
  · constructor
    · intro hx
      cases hx
      rfl
    · rintro rfl
      rfl
  · refine iff_of_false (by simp) ?_
    rintro rfl
    exact h x.property

theorem convertDigest_eq_ok_iff {k : ℕ} {label : String} {of : ByteArr k → CAHash} {digest : Bytes}
    {ca : CAHash} : convertDigest k label of digest = .ok ca ↔ ∃ d, digest = d.val ∧ ca = of d := by
  unfold convertDigest
  cases hd : tryFixed k digest with
  | none =>
    refine iff_of_false (by simp) ?_
    rintro ⟨d, hdigest, -⟩
    rw [tryFixed_eq_some_iff.mpr hdigest] at hd
    cases hd
  | some d =>
    rw [tryFixed_eq_some_iff] at hd
    constructor
    · intro h
      cases h
      exact ⟨d, hd, rfl⟩
    · rintro ⟨d', hdigest, rfl⟩
      rw [hd] at hdigest
      rw [Subtype.ext hdigest]

theorem Ca.tryInto_ofCAHash (ca : CAHash) : (ofCAHash ca).tryInto = .ok ca := by
  have hconv : ∀ (k : ℕ) (label : String) (of : ByteArr k → CAHash) (d : ByteArr k),
      convertDigest k label of d.val = .ok (of d) := fun k label of d =>
    convertDigest_eq_ok_iff.mpr ⟨d, rfl, rfl⟩
  cases ca with
  | flat hash => cases hash <;> exact hconv _ _ _ _
  | nar hash => cases hash <;> exact hconv _ _ _ _
  | text digest => exact hconv _ _ _ _

/-- A digest that converts under the type of its content address is given back as it was. -/
theorem Ca.ofCAHash_of_convertDigest {k : ℕ} {label : String} {of : ByteArr k → CAHash} {t : CaHashType}
    {value : Ca} {ca : CAHash} (hof : ∀ d, ofCAHash (of d) = ⟨t.asI32, d.val⟩) (htyp : value.typ = t.asI32)
    (h : convertDigest k label of value.digest = .ok ca) : ofCAHash ca = value := by
  obtain ⟨d, hd, rfl⟩ := convertDigest_eq_ok_iff.mp h
  rw [hof]
  exact Ca.ext htyp.symm hd.symm

theorem Ca.ofCAHash_of_tryInto {value : Ca} {ca : CAHash} (h : value.tryInto = .ok ca) :
    ofCAHash ca = value := by
  unfold tryInto at h
  split at h
  case isTrue htyp => exact ofCAHash_of_convertDigest (fun _ => rfl) htyp h
  split at h
  case isTrue htyp => exact ofCAHash_of_convertDigest (fun _ => rfl) htyp h
  split at h
  case isTrue htyp => exact ofCAHash_of_convertDigest (fun _ => rfl) htyp h
  split at h
  case isTrue htyp => exact ofCAHash_of_convertDigest (fun _ => rfl) htyp h
  split at h
  case isTrue htyp => exact ofCAHash_of_convertDigest (fun _ => rfl) htyp h
  split at h
  case isTrue htyp => exact ofCAHash_of_convertDigest (fun _ => rfl) htyp h
  split at h
  case isTrue htyp => exact ofCAHash_of_convertDigest (fun _ => rfl) htyp h
  split at h
  case isTrue htyp => exact ofCAHash_of_convertDigest (fun _ => rfl) htyp h
  split at h
  case isTrue htyp => exact ofCAHash_of_convertDigest (fun _ => rfl) htyp h
  cases h

namespace PathInfo

theorem okOr_eq_ok_iff {α : Type} {e : ValidatePathInfoError} {o : Option α} {a : α} :
    okOr e o = .ok a ↔ o = some a := by
  cases o <;> simp [okOr]

theorem checkReferences_eq_ok_iff {i : ℕ} {references : List Bytes} :
    checkReferences i references = .ok () ↔ ∀ r ∈ references, r.length = DIGEST_SIZE := by
  induction references generalizing i with
  | nil => simp [checkReferences]
  | cons r references ih =>
    rw [checkReferences, List.forall_mem_cons]
    split_ifs with h
    · simp [h]
    · rw [ih, and_iff_right (not_not.mp h)]

theorem checkCount_eq_ok_iff {n m : ℕ} : checkCount n m = .ok () ↔ m = n := by
  rw [checkCount]
  split_ifs with h
  · simp [h]
  · simp [not_not.mp h]

theorem parseReferences_eq_ok_iff {i : ℕ} {names references : List Bytes} {paths : List Snix.StorePath}
    (hlen : names.length = references.length) :
    parseReferences i names references = .ok paths ↔
      names = paths.map Snix.StorePath.display ∧ references = paths.map fun p => p.digest.val := by
  induction names generalizing i references paths with
  | nil =>
    obtain rfl := List.length_eq_zero_iff.mp hlen.symm
    cases paths <;> simp [parseReferences]
  | cons name names ih =>
    cases references with
    | nil => cases hlen
    | cons reference references =>
      have hlen' := Nat.succ.inj hlen
      rw [parseReferences]
      cases hpath : Snix.StorePath.fromBytes name with
      | error e =>
        refine iff_of_false (by simp) ?_
        rintro ⟨hnames, -⟩
        cases paths with
        | nil => cases hnames
        | cons p paths =>
          rw [(List.cons.inj hnames).1, Snix.StorePath.fromBytes_display] at hpath
          cases hpath
      | ok p =>
        have hname := Snix.StorePath.display_of_fromBytes hpath
        dsimp only
        split_ifs with hdigest
        · refine iff_of_false (by simp) ?_
          rintro ⟨hnames, href⟩
          cases paths with
          | nil => cases hnames
          | cons q paths =>
            rw [(List.cons.inj hnames).1, Snix.StorePath.fromBytes_display] at hpath
            cases hpath
            exact hdigest (List.cons.inj href).1.symm
        · rw [not_not] at hdigest
          rw [except_bind_eq_ok_iff]
          constructor
          · rintro ⟨rest, hrest, hpaths⟩
            cases hpaths
            obtain ⟨rfl, rfl⟩ := (ih hlen').mp hrest
            exact ⟨by rw [List.map_cons, hname], by rw [List.map_cons, hdigest]⟩
          · rintro ⟨hnames, href⟩
            cases paths with
            | nil => cases hnames
            | cons q paths =>
              obtain ⟨hq, htail⟩ := List.cons.inj hnames
              rw [hq, Snix.StorePath.fromBytes_display] at hpath
              cases hpath
              exact ⟨paths, (ih hlen').mpr ⟨htail, (List.cons.inj href).2⟩, rfl⟩

theorem splitEntry_eq_ok_iff {entry : Option Entry} {x : Castore.PathComponent × Castore.Node} :
    splitEntry entry = .ok x ↔ entry = some (.fromNameAndNode x.1.val x.2) := by
  cases entry with
  | none => simp [splitEntry]
  | some entry =>
    rw [splitEntry, Option.some.injEq, @eq_comm _ entry, ← Castore.Proto.Entry.tryIntoNameAndNode_eq_ok_iff]
    cases entry.tryIntoNameAndNode with
    | error e => simp
    | ok y => simp [eq_comm]

theorem parseStorePath_eq_ok_iff {name : Castore.PathComponent} {path : Snix.StorePath} :
    parseStorePath name = .ok path ↔ name.val = path.display := by
  rw [parseStorePath]
  cases hpath : Snix.StorePath.fromBytes name.val with
  | error e =>
    refine iff_of_false (by simp) fun h => ?_
    rw [h, Snix.StorePath.fromBytes_display] at hpath
    cases hpath
  | ok p =>
    have hname := Snix.StorePath.display_of_fromBytes hpath
    constructor
    · intro h
      cases h
      exact hname.symm
    · intro h
      rw [h, Snix.StorePath.fromBytes_display] at hpath
      cases hpath
      rfl

theorem convertNarSha256_eq_ok_iff {b : Bytes} {x : ByteArr 32} :
    convertNarSha256 b = .ok x ↔ b = x.val := by
  rw [convertNarSha256, ← tryFixed_eq_some_iff]
  cases tryFixed 32 b <;> simp

theorem convertDeriver_eq_ok_iff {deriver : Option StorePath} {path : Option Snix.StorePath} :
    convertDeriver deriver = .ok path ↔ deriver = path.map fun p => ⟨p.name, p.digest.val⟩ := by
  cases deriver with
  | none => cases path <;> simp [convertDeriver]
  | some d =>
    rw [convertDeriver]
    cases path with
    | none => cases Snix.StorePath.fromNameAndDigest d.name d.digest <;> simp
    | some p =>
      have hiff : Snix.StorePath.fromNameAndDigest d.name d.digest = .ok p ↔
          some d = some ⟨p.name, p.digest.val⟩ := by
        rw [Snix.StorePath.fromNameAndDigest_eq_ok_iff, Option.some.injEq, StorePath.ext_iff]
        exact ⟨fun h => ⟨h.1.symm, h.2.symm⟩, fun h => ⟨h.1.symm, h.2.symm⟩⟩
      rw [Option.map_some, ← hiff]
      cases Snix.StorePath.fromNameAndDigest d.name d.digest <;> simp

theorem convertSignatures_eq_ok_iff {i : ℕ} {signatures : List Signature}
    {sigs : List Store.Signature} :
    convertSignatures i signatures = .ok sigs ↔ signatures = sigs.map fun s => ⟨s.name, s.bytes.val⟩ := by
  induction signatures generalizing i sigs with
  | nil => cases sigs <;> simp [convertSignatures]
  | cons s signatures ih =>
    rw [convertSignatures]
    cases hdata : tryFixed 64 s.data with
    | none =>
      refine iff_of_false (by simp) fun h => ?_
      cases sigs with
      | nil => cases h
      | cons x sigs =>
        have hx : s.data = x.bytes.val := congrArg Signature.data (List.cons.inj h).1
        rw [tryFixed_eq_some_iff.mpr hx] at hdata
        cases hdata
    | some data =>
      have hs := tryFixed_eq_some_iff.mp hdata
      rw [except_bind_eq_ok_iff]
      constructor
      · rintro ⟨rest, hrest, hsigs⟩
        cases hsigs
        rw [List.map_cons, ← ih.mp hrest, ← hs]
      · intro h
        cases sigs with
        | nil => cases h
        | cons x sigs =>
          obtain ⟨hx, htail⟩ := List.cons.inj h
          refine ⟨sigs, ih.mpr htail, ?_⟩
          subst hx
          rw [Subtype.ext hs.symm]
          rfl

theorem convertCa_eq_ok_iff {ca : Option Ca} {x : Option CAHash} :
    convertCa ca = .ok x ↔ ca = x.map Ca.ofCAHash := by
  cases ca with
  | none => cases x <;> simp [convertCa]
  | some c =>
    rw [convertCa]
    cases hc : c.tryInto with
    | error e =>
      refine iff_of_false (by simp) fun h => ?_
      cases x with
      | none => cases h
      | some y =>
        rw [Option.some.inj h, Ca.tryInto_ofCAHash] at hc
        cases hc
    | ok y =>
      constructor
      · intro h
        cases h
        rw [Option.map_some, Ca.ofCAHash_of_tryInto hc]
      · intro h
        cases x with
        | none => cases h
        | some z =>
          rw [Option.some.inj h, Ca.tryInto_ofCAHash] at hc
          cases hc
          rfl

/-- The name of a store path is a valid name of a node. -/
theorem validateName_display (path : Snix.StorePath) :
    Castore.validateName path.display = .ok () := by
  have hdigest : (Nixbase32.encode path.digest.val).length = 32 := by
    rw [Nixbase32.length_encode, path.digest.property]
    rfl
  have hlen : path.display.length = 33 + path.name.length := by
    rw [Snix.StorePath.display, List.length_append, List.length_append, hdigest]
    rfl
  have hname : path.name.length ≤ 211 := path.valid.2.1
  -- neither digits, nor the dash, nor the characters of a name are null bytes or slashes
  have hmem : ∀ c, c = 0 ∨ c = 47 → c ∉ path.display := by
    intro c hc hin
    rw [Snix.StorePath.display, List.mem_append, List.mem_append] at hin
    obtain (hin | hin) | hin := hin
    · have halpha := Nixbase32.mem_ALPHABET_of_mem_encode hin
      obtain rfl | rfl := hc
      · exact absurd halpha (by decide +kernel)
      · exact absurd halpha (by decide +kernel)
    · obtain rfl | rfl := hc
      · exact absurd hin (by decide +kernel)
      · exact absurd hin (by decide +kernel)
    · have hchar := path.valid.2.2 c hin
      obtain rfl | rfl := hc
      · exact absurd hchar (by decide +kernel)
      · exact absurd hchar (by decide +kernel)
  have hne : ∀ b : Bytes, b.length < 33 → path.display ≠ b := by
    rintro b hb rfl
    omega
  rw [Castore.validateName, if_neg (hne _ (by decide)), if_neg (hne _ (by decide)),
    if_neg (hne _ (by decide)),
    if_neg (show ¬ Castore.MAX_NAME_LEN < path.display.length by rw [hlen, Castore.MAX_NAME_LEN]; omega),
    if_neg (hmem 0 (.inl rfl)), if_neg (hmem 47 (.inr rfl))]

/-- What is accepted is what the other conversion gives. -/
theorem tryFrom_eq_ok_iff {m : PathInfo} {p : Store.PathInfo} : tryFrom m = .ok p ↔ m = ofPathInfo p := by
  unfold tryFrom
  simp only [except_bind_eq_ok_iff, okOr_eq_ok_iff, splitEntry_eq_ok_iff, parseStorePath_eq_ok_iff,
    convertNarSha256_eq_ok_iff, convertDeriver_eq_ok_iff, convertSignatures_eq_ok_iff, convertCa_eq_ok_iff]
  constructor
  · rintro ⟨narinfo, hnarinfo, ⟨⟩, hrefs, ⟨⟩, hcount, references, hparse, entry, hentry, ⟨name, node⟩, rfl,
      storePath, hname, narSha256, hsha, deriver, hderiver, signatures, hsigs, ca, hca, hp⟩
    cases hp
    rw [checkCount_eq_ok_iff] at hcount
    obtain ⟨hnames, hdigests⟩ := (parseReferences_eq_ok_iff hcount).mp hparse
    apply PathInfo.ext
    · rw [hentry, hname]
      rfl
    · exact hdigests
    · rw [hnarinfo]
      exact congrArg some (NarInfo.ext rfl hsha hsigs hnames hderiver hca)
  · rintro rfl
    refine ⟨_, rfl, (), ?_, (), ?_, p.references, ?_, _, rfl,
      (⟨p.storePath.display, validateName_display p.storePath⟩, p.node), rfl, p.storePath, rfl,
      p.narSha256, rfl, p.deriver, rfl, p.signatures, rfl, p.ca, rfl, rfl⟩
    · rw [checkReferences_eq_ok_iff]
      intro r hr
      obtain ⟨path, -, rfl⟩ := List.mem_map.mp hr
      exact path.digest.property
    · rw [checkCount_eq_ok_iff]
      simp only [ofPathInfo, List.length_map]
    · rw [parseReferences_eq_ok_iff (by simp only [ofPathInfo, List.length_map])]
      exact ⟨rfl, rfl⟩

/-- Both conversions are inverse to each other. -/
theorem tryFrom_ofPathInfo_inverse :
    (∀ p, tryFrom (ofPathInfo p) = .ok p) ∧ ∀ m p, tryFrom m = .ok p → ofPathInfo p = m :=
  ⟨fun _ => tryFrom_eq_ok_iff.mpr rfl, fun _ _ h => (tryFrom_eq_ok_iff.mp h).symm⟩

end PathInfo

end Snix.Store.Proto
