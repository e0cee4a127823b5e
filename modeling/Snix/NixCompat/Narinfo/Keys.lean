import Snix.Lib.Iteration
import Snix.NixCompat.Narinfo.RoundTrip

/-!
# Keys

The keys that signatures are made and verified with. Like signatures they are a name, a colon and
bytes in Base64. All three parsers check the length of the Base64 and take it that there are as
many bytes as should be; with more or less padding there are not, and they panic. So does the
parser of NAR infos, which parses signatures.

## Main definitions

- `parseNamedBytes` — a name, a colon and bytes in Base64
- `VerifyingKey.parse`, `parseKeypair` — public keys, and pairs of keys
- `Mispadded` — what makes the parsers panic

## Main results

- `NarInfo.parse_reaches_iff` — when the parsers panic
-/

namespace Snix

def PUBLIC_KEY_LENGTH : ℕ := 32

def SECRET_KEY_LENGTH : ℕ := 32

/-- Why a name with bytes is rejected. -/
inductive NamedBytesError where
  | missingSeparator
  | invalidName (name : Bytes)
  | invalidLen (len : ℕ)
  | decodeError (input : Bytes)
  /-- The program panicked: there are more or less bytes than there should be. -/
  | unreachable
  deriving DecidableEq

section

variable (isAlphanumeric : Bytes → Bool)

/-- Reads a name and `n` bytes. -/
def parseNamedBytes (n : ℕ) (input : Bytes) : Except NamedBytesError (Bytes × ByteArr n) :=
  match splitOnce 58 input with
  | none => .error .missingSeparator
  | some (name, bytes64) =>
    if ¬Signature.ValidName isAlphanumeric name then .error (.invalidName name)
    else if bytes64.length ≠ (n + 2) / 3 * 4 then .error (.invalidLen bytes64.length)
    else match base64Decode bytes64 with
      | none => .error (.decodeError input)
      | some bytes => if h : bytes.length = n then .ok (name, ⟨bytes, h⟩) else .error .unreachable

/-- Base64 of the right length for `n` bytes behind a valid name, with more or less padding than
    `n` bytes have. -/
def Mispadded (n : ℕ) (input : Bytes) : Prop :=
  ∃ name bytes64, splitOnce 58 input = some (name, bytes64) ∧
    Signature.ValidName isAlphanumeric name ∧ bytes64.length = (n + 2) / 3 * 4 ∧
    (base64Decode bytes64).isSome = true ∧ bytes64.count 61 + n ≠ (n + 2) / 3 * 3

end

-- ====================
-- Verifying keys
-- ====================

/-- A public key and its name. -/
structure VerifyingKey (Key : Type) where
  name : Bytes
  verifyingKey : Key
  deriving DecidableEq

namespace VerifyingKey

variable {Key SignatureError : Type}

inductive Error (SignatureError : Type) where
  | invalidName (name : Bytes)
  | missingSeparator
  | invalidVerifyingKeyLen (len : ℕ)
  | invalidVerifyingKey (e : SignatureError)
  | decodeError (input : Bytes)
  /-- The program panicked. -/
  | unreachable

def Error.ofNamedBytes : NamedBytesError → Error SignatureError
  | .missingSeparator => .missingSeparator
  | .invalidName name => .invalidName name
  | .invalidLen len => .invalidVerifyingKeyLen len
  | .decodeError input => .decodeError input
  | .unreachable => .unreachable

/-- Reads a public key. Which bytes are one is left to a library. -/
def parse (isAlphanumeric : Bytes → Bool)
    (fromBytes : ByteArr PUBLIC_KEY_LENGTH → Except SignatureError Key) (input : Bytes) :
    Except (Error SignatureError) (VerifyingKey Key) :=
  match parseNamedBytes isAlphanumeric PUBLIC_KEY_LENGTH input with
  | .error e => .error (.ofNamedBytes e)
  | .ok (name, bytes) =>
    match fromBytes bytes with
    | .error e => .error (.invalidVerifyingKey e)
    | .ok verifyingKey => .ok ⟨name, verifyingKey⟩

end VerifyingKey

-- ====================
-- Signing keys
-- ====================

/-- A secret key and its name. -/
structure SigningKey (Secret : Type) where
  name : Bytes
  signingKey : Secret

namespace SigningKey

inductive Error (SignatureError : Type) where
  | invalidName (name : Bytes)
  | missingSeparator
  | invalidSigningKeyLen (len : ℕ)
  | decodeError (input : Bytes)
  | invalidVerifyingKey (e : SignatureError)
  /-- The program panicked. -/
  | unreachable

def Error.ofNamedBytes {SignatureError : Type} : NamedBytesError → Error SignatureError
  | .missingSeparator => .missingSeparator
  | .invalidName name => .invalidName name
  | .invalidLen len => .invalidSigningKeyLen len
  | .decodeError input => .decodeError input
  | .unreachable => .unreachable

end SigningKey

/-- The first bytes of a key pair. -/
def secretPart (bytes : ByteArr (SECRET_KEY_LENGTH + PUBLIC_KEY_LENGTH)) : ByteArr SECRET_KEY_LENGTH :=
  ⟨bytes.val.take SECRET_KEY_LENGTH, by
    rw [List.length_take, bytes.property]
    decide⟩

/-- The other bytes of a key pair. -/
def publicPart (bytes : ByteArr (SECRET_KEY_LENGTH + PUBLIC_KEY_LENGTH)) : ByteArr PUBLIC_KEY_LENGTH :=
  ⟨bytes.val.drop SECRET_KEY_LENGTH, by
    rw [List.length_drop, bytes.property]
    decide⟩

/-- Reads a secret key with its public key. -/
def parseKeypair {Secret Key SignatureError : Type} (isAlphanumeric : Bytes → Bool)
    (signingKeyFromBytes : ByteArr SECRET_KEY_LENGTH → Secret)
    (fromBytes : ByteArr PUBLIC_KEY_LENGTH → Except SignatureError Key) (input : Bytes) :
    Except (SigningKey.Error SignatureError) (SigningKey Secret × VerifyingKey Key) :=
  match parseNamedBytes isAlphanumeric (SECRET_KEY_LENGTH + PUBLIC_KEY_LENGTH) input with
  | .error e => .error (.ofNamedBytes e)
  | .ok (name, bytes) =>
    match fromBytes (publicPart bytes) with
    | .error e => .error (.invalidVerifyingKey e)
    | .ok verifyingKey =>
      .ok (⟨name, signingKeyFromBytes (secretPart bytes)⟩, ⟨name, verifyingKey⟩)

-- ====================
-- Panics
-- ====================

variable {isAlphanumeric : Bytes → Bool}

theorem parseNamedBytes_eq_unreachable_iff {n : ℕ} {input : Bytes} :
    parseNamedBytes isAlphanumeric n input = .error .unreachable ↔
      Mispadded isAlphanumeric n input := by
  unfold parseNamedBytes Mispadded
  cases hsplit : splitOnce 58 input with
  | none => exact iff_of_false nofun (by rintro ⟨_, _, h, -⟩; cases h)
  | some parts =>
    obtain ⟨name, bytes64⟩ := parts
    dsimp only
    by_cases hname : Signature.ValidName isAlphanumeric name
    case neg =>
      rw [if_pos hname]
      refine iff_of_false nofun ?_
      rintro ⟨name', bytes', h, hvalid, -⟩
      cases h
      exact hname hvalid
    rw [if_neg (not_not.mpr hname)]
    by_cases hlen : bytes64.length = (n + 2) / 3 * 4
    case neg =>
      rw [if_pos hlen]
      refine iff_of_false nofun ?_
      rintro ⟨name', bytes', h, -, hlength, -⟩
      cases h
      exact hlen hlength
    rw [if_neg (not_not.mpr hlen)]
    cases hdecode : base64Decode bytes64 with
    | none =>
      refine iff_of_false nofun ?_
      rintro ⟨name', bytes', h, -, -, hsome, -⟩
      cases h
      rw [hdecode] at hsome
      cases hsome
    | some bytes =>
      have hcount := length_base64Decode hdecode
      rw [hlen, Nat.mul_div_cancel _ (by decide)] at hcount
      dsimp only
      by_cases hbytes : bytes.length = n
      · rw [dif_pos hbytes]
        refine iff_of_false nofun ?_
        rintro ⟨name', bytes', h, -, -, -, hpad⟩
        cases h
        omega
      · rw [dif_neg hbytes]
        refine iff_of_true rfl ⟨name, bytes64, rfl, hname, hlen, ?_, ?_⟩
        · rw [hdecode]
          rfl
        · omega

/-- Signatures are read like keys. -/
theorem Signature.parse_eq_unreachable_iff {input : Bytes} :
    Signature.parse isAlphanumeric input = .error .unreachable ↔
      Mispadded isAlphanumeric SIGNATURE_LENGTH input := by
  rw [← parseNamedBytes_eq_unreachable_iff, Signature.parse, parseNamedBytes]
  cases splitOnce 58 input with
  | none => simp only [Except.error.injEq, reduceCtorEq]
  | some parts =>
    obtain ⟨name, bytes64⟩ := parts
    dsimp only
    by_cases hname : Signature.ValidName isAlphanumeric name
    case neg =>
      rw [if_pos hname, if_pos hname]
      simp only [Except.error.injEq, reduceCtorEq]
    rw [if_neg (not_not.mpr hname), if_neg (not_not.mpr hname)]
    by_cases hlen : bytes64.length = (SIGNATURE_LENGTH + 2) / 3 * 4
    case neg =>
      rw [if_pos hlen, if_pos hlen]
      simp only [Except.error.injEq, reduceCtorEq]
    rw [if_neg (not_not.mpr hlen), if_neg (not_not.mpr hlen)]
    cases base64Decode bytes64 with
    | none => simp only [Except.error.injEq, reduceCtorEq]
    | some bytes =>
      dsimp only
      by_cases hbytes : bytes.length = SIGNATURE_LENGTH
      · rw [dif_pos hbytes, dif_pos hbytes]
        simp only [reduceCtorEq]
      · rw [dif_neg hbytes, dif_neg hbytes]
        exact iff_of_true rfl rfl

section

variable {Key Secret SignatureError : Type}
  {fromBytes : ByteArr PUBLIC_KEY_LENGTH → Except SignatureError Key}
  {signingKeyFromBytes : ByteArr SECRET_KEY_LENGTH → Secret} {input : Bytes}

theorem VerifyingKey.parse_eq_unreachable_iff :
    VerifyingKey.parse isAlphanumeric fromBytes input = .error .unreachable ↔
      Mispadded isAlphanumeric PUBLIC_KEY_LENGTH input := by
  rw [← parseNamedBytes_eq_unreachable_iff, VerifyingKey.parse]
  cases parseNamedBytes isAlphanumeric PUBLIC_KEY_LENGTH input with
  | error e => cases e <;> simp [VerifyingKey.Error.ofNamedBytes]
  | ok p =>
    dsimp only
    cases fromBytes p.2 <;> simp

theorem parseKeypair_eq_unreachable_iff :
    parseKeypair isAlphanumeric signingKeyFromBytes fromBytes input = .error .unreachable ↔
      Mispadded isAlphanumeric (SECRET_KEY_LENGTH + PUBLIC_KEY_LENGTH) input := by
  rw [← parseNamedBytes_eq_unreachable_iff, parseKeypair]
  cases parseNamedBytes isAlphanumeric (SECRET_KEY_LENGTH + PUBLIC_KEY_LENGTH) input with
  | error e => cases e <;> simp [SigningKey.Error.ofNamedBytes]
  | ok p =>
    dsimp only
    cases fromBytes (publicPart p.2) <;> simp

end

namespace NarInfo

-- ====================
-- NAR infos
-- ====================

/-- Did the program panic? -/
def Error.isPanic : Error → Bool
  | .unableToParseSignature _ .unreachable => true
  | _ => false

variable {f : Fields} {tag : Tag} {val : Bytes} {e : Error}

theorem eq_error_of_map {α β : Type} {x : Except Error α} {g : α → β} (h : x.map g = .error e) :
    x = .error e := by
  cases x with
  | error e' =>
    cases h
    rfl
  | ok a => cases h

theorem isPanic_of_once {α : Type} {old : Option α} {val : α} (h : once tag old val = .error e) :
    e.isPanic = false := by
  unfold once at h
  split at h
  · cases h
    rfl
  · cases h

theorem isPanic_of_parseText {old : Option Bytes} (h : parseText tag old val = .error e) :
    e.isPanic = false := by
  unfold parseText at h
  split at h
  · cases h
    rfl
  · exact isPanic_of_once h

theorem isPanic_of_parseSize {old : Option ℕ} (h : parseSize tag old val = .error e) :
    e.isPanic = false := by
  unfold parseSize at h
  split at h
  · cases h
    rfl
  · exact isPanic_of_once h

theorem isPanic_of_parseHash {old : Option (ByteArr 32)}
    {decode : Bytes → Except DecodeError (ByteArr 32)} (h : parseHash tag old decode val = .error e) :
    e.isPanic = false := by
  unfold parseHash at h
  split at h
  · cases h
    rfl
  split at h
  · cases h
    rfl
  · exact isPanic_of_once h

theorem isPanic_of_parseReferences {i : ℕ} {prev : Bytes} {pieces : List Bytes}
    (h : parseReferences i prev pieces = .error e) : e.isPanic = false := by
  induction pieces generalizing i prev with
  | nil => cases h
  | cons s rest ih =>
    unfold parseReferences at h
    split at h
    · cases h
      rfl
    split at h
    case h_1 e' hrest =>
      cases h
      exact ih hrest
    case h_2 => cases h

/-- Reading a field panics on a signature that is mispadded alone. -/
theorem parseField_panics (h : parseField isAlphanumeric f tag val = .error e)
    (hpanic : e.isPanic = true) : tag = .sig ∧ Mispadded isAlphanumeric SIGNATURE_LENGTH val := by
  have hquiet : e.isPanic = false → tag = .sig ∧ Mispadded isAlphanumeric SIGNATURE_LENGTH val := by
    intro hfalse
    rw [hpanic] at hfalse
    cases hfalse
  cases tag with
  | sig =>
    cases hparse : Signature.parse isAlphanumeric val with
    | ok sig =>
      simp only [parseField, hparse] at h
      cases h
    | error e' =>
      simp only [parseField, hparse] at h
      cases h
      cases e' with
      | unreachable => exact ⟨rfl, Signature.parse_eq_unreachable_iff.mp hparse⟩
      | invalidName => cases hpanic
      | missingSeparator => cases hpanic
      | invalidSignatureLen => cases hpanic
      | decodeError => cases hpanic
  | url => exact hquiet (isPanic_of_parseText (eq_error_of_map h))
  | compression => exact hquiet (isPanic_of_parseText (eq_error_of_map h))
  | system => exact hquiet (isPanic_of_parseText (eq_error_of_map h))
  | fileSize => exact hquiet (isPanic_of_parseSize (eq_error_of_map h))
  | narSize => exact hquiet (isPanic_of_parseSize (eq_error_of_map h))
  | fileHash => exact hquiet (isPanic_of_parseHash (eq_error_of_map h))
  | narHash =>
    simp only [parseField] at h
    split at h
    · exact hquiet (isPanic_of_parseHash (eq_error_of_map h))
    · exact hquiet (isPanic_of_parseHash (eq_error_of_map h))
  | storePath =>
    simp only [parseField] at h
    split at h
    · cases h
      cases hpanic
    split at h
    · cases h
      cases hpanic
    · exact hquiet (isPanic_of_once (eq_error_of_map h))
  | references =>
    simp only [parseField] at h
    split at h
    case h_1 e' hrefs =>
      cases h
      split at hrefs
      · cases hrefs
      · exact hquiet (isPanic_of_parseReferences hrefs)
    case h_2 => exact hquiet (isPanic_of_once (eq_error_of_map h))
  | deriver =>
    simp only [parseField] at h
    split at h
    · split at h
      · cases h
        cases hpanic
      · exact hquiet (isPanic_of_once (eq_error_of_map h))
    · split at h
      · cases h
      · cases h
        cases hpanic
  | ca =>
    simp only [parseField] at h
    split at h
    · cases h
      cases hpanic
    · exact hquiet (isPanic_of_once (eq_error_of_map h))

/-- A line panics exactly if it is a signature that is mispadded. -/
theorem parseLine_panics_iff {l : Bytes} :
    (∃ e, parseLine isAlphanumeric f l = .error e ∧ e.isPanic = true) ↔
      ∃ val, l = line .sig val ∧ Mispadded isAlphanumeric SIGNATURE_LENGTH val := by
  constructor
  · rintro ⟨e, h, hpanic⟩
    unfold parseLine at h
    split at h
    · cases h
      cases hpanic
    case h_2 tagStr rest hsplit =>
      split at h
      · cases h
        cases hpanic
      case h_2 val hval =>
        split at h
        case h_1 tag htag =>
          obtain ⟨rfl, hpad⟩ := parseField_panics h hpanic
          refine ⟨val, ?_, hpad⟩
          have hstr : Tag.sig.asStr = tagStr := by simpa using List.find?_some htag
          rw [line, hstr, (splitOnce_eq_some_iff.mp hsplit).1, stripPrefix_eq_some_iff.mp hval]
          rfl
        case h_2 => cases h
  · rintro ⟨val, rfl, hpad⟩
    refine ⟨.unableToParseSignature f.signatures.length .unreachable, ?_, rfl⟩
    have hsplit : splitOnce 58 (line .sig val) = some (Tag.sig.asStr, 32 :: val) :=
      splitOnce_eq_some_iff.mpr ⟨rfl, by decide⟩
    have hblank : stripPrefix [32] (32 :: val) = some val := stripPrefix_append [32] val
    rw [parseLine, hsplit]
    simp only [hblank, Tag.ofStr_asStr]
    simp only [parseField, Signature.parse_eq_unreachable_iff.mpr hpad]

theorem isPanic_of_required {α : Type} {o : Option α} (h : required tag o = .error e) :
    e.isPanic = false := by
  cases o with
  | none =>
    cases h
    rfl
  | some a => cases h

theorem isPanic_of_finish (h : finish f = .error e) : e.isPanic = false := by
  unfold finish at h
  cases hstorePath : required .storePath f.storePath with
  | error e' =>
    rw [hstorePath] at h
    cases h
    exact isPanic_of_required hstorePath
  | ok storePath =>
  rw [hstorePath] at h
  cases hnarHash : required .narHash f.narHash with
  | error e' =>
    rw [hnarHash] at h
    cases h
    exact isPanic_of_required hnarHash
  | ok narHash =>
  rw [hnarHash] at h
  cases hnarSize : required .narSize f.narSize with
  | error e' =>
    rw [hnarSize] at h
    cases h
    exact isPanic_of_required hnarSize
  | ok narSize =>
  rw [hnarSize] at h
  cases hurl : required .url f.url with
  | error e' =>
    rw [hurl] at h
    cases h
    exact isPanic_of_required hurl
  | ok url =>
    rw [hurl] at h
    cases h

/-- Is there a line that the parser reaches, as it accepts those before it, and that is a mispadded
    signature? -/
def ReachesMispadded (isAlphanumeric : Bytes → Bool) (t : Bytes) : Prop :=
  ∃ before val after f, lines t = before ++ line .sig val :: after ∧
    before.foldlM (parseLine isAlphanumeric) Fields.empty = .ok f ∧
    Mispadded isAlphanumeric SIGNATURE_LENGTH val

theorem parse_panics_iff {t : Bytes} :
    (∃ e, parse isAlphanumeric t = .error e ∧ e.isPanic = true) ↔
      ReachesMispadded isAlphanumeric t := by
  have hfold : (∃ e, parse isAlphanumeric t = .error e ∧ e.isPanic = true) ↔
      ∃ e, (lines t).foldlM (parseLine isAlphanumeric) Fields.empty = .error e ∧
        e.isPanic = true := by
    rw [parse]
    cases (lines t).foldlM (parseLine isAlphanumeric) Fields.empty with
    | error e =>
      constructor
      · rintro ⟨e', h, hpanic⟩
        cases h
        exact ⟨e, rfl, hpanic⟩
      · rintro ⟨e', h, hpanic⟩
        cases h
        exact ⟨e, rfl, hpanic⟩
    | ok f =>
      refine iff_of_false ?_ ?_
      · rintro ⟨e, h, hpanic⟩
        rw [isPanic_of_finish h] at hpanic
        cases hpanic
      · rintro ⟨e, h, -⟩
        cases h
  rw [hfold]
  constructor
  · rintro ⟨e, h, hpanic⟩
    obtain ⟨before, l, after, f, hlines, hbefore, hfail⟩ := foldlM_eq_error_iff.mp h
    obtain ⟨val, rfl, hpad⟩ := parseLine_panics_iff.mp ⟨e, hfail, hpanic⟩
    exact ⟨before, val, after, f, hlines, hbefore, hpad⟩
  · rintro ⟨before, val, after, f, hlines, hbefore, hpad⟩
    obtain ⟨e, hfail, hpanic⟩ := parseLine_panics_iff.mpr ⟨val, rfl, hpad⟩
    exact ⟨e, foldlM_eq_error_iff.mpr ⟨before, _, after, f, hlines, hbefore, hfail⟩, hpanic⟩

/-- The parsers of signatures and keys do not panic, unless they are mispadded, and the parser of
    NAR infos does not, unless it reaches a signature that is. -/
theorem parse_reaches_iff {Key Secret SignatureError : Type} (isAlphanumeric : Bytes → Bool)
    (signingKeyFromBytes : ByteArr SECRET_KEY_LENGTH → Secret)
    (fromBytes : ByteArr PUBLIC_KEY_LENGTH → Except SignatureError Key) (input : Bytes) :
    (Signature.parse isAlphanumeric input ≠ .error .unreachable ↔
        ¬Mispadded isAlphanumeric SIGNATURE_LENGTH input) ∧
      (VerifyingKey.parse isAlphanumeric fromBytes input ≠ .error .unreachable ↔
        ¬Mispadded isAlphanumeric PUBLIC_KEY_LENGTH input) ∧
      (parseKeypair isAlphanumeric signingKeyFromBytes fromBytes input ≠ .error .unreachable ↔
        ¬Mispadded isAlphanumeric (SECRET_KEY_LENGTH + PUBLIC_KEY_LENGTH) input) ∧
      ((∀ e, parse isAlphanumeric input = .error e → e.isPanic = false) ↔
        ¬ReachesMispadded isAlphanumeric input) := by
  refine ⟨not_congr Signature.parse_eq_unreachable_iff,
    not_congr VerifyingKey.parse_eq_unreachable_iff, not_congr parseKeypair_eq_unreachable_iff, ?_⟩
  rw [← parse_panics_iff]
  simp only [not_exists, not_and, Bool.not_eq_true]

/-- A signature with 88 digits of Base64 and no padding. -/
def unpadded : Bytes := ascii "a:" ++ List.replicate 88 65

theorem mispadded_unpadded : Mispadded asciiAlphanumeric SIGNATURE_LENGTH unpadded :=
  ⟨ascii "a", List.replicate 88 65, by decide +kernel, by decide +kernel, by decide +kernel,
    by decide +kernel, by decide +kernel⟩

/-- A line with such a signature makes the parser of NAR infos panic. -/
theorem parse_unpadded :
    Signature.parse asciiAlphanumeric unpadded = .error .unreachable ∧
      ∃ e, parse asciiAlphanumeric (line .sig unpadded) = .error e ∧ e.isPanic = true := by
  refine ⟨Signature.parse_eq_unreachable_iff.mpr mispadded_unpadded, parse_panics_iff.mpr ?_⟩
  exact ⟨[], unpadded, [], Fields.empty, by decide +kernel, rfl, mispadded_unpadded⟩

end NarInfo

end Snix
