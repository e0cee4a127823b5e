import Snix.Lib.Hex
import Snix.NixCompat.CaHash
import Snix.NixCompat.Narinfo.Signature
import Snix.NixCompat.StorePath

/-!
# NAR infos

The description of a store path in a binary cache: lines with a tag, a colon, a blank
and a value. The lines may stand in any order, those with unknown tags are skipped, and
some deviations from what Nix writes are noted in flags.

## Main definitions

- `NarInfo`, `Flags` — the description, and what was noted when it was read
- `NarInfo.parse` — reading a text
- `NarInfo.display` — printing a description
-/

namespace Snix

/-- What was noted when a description was read. -/
structure Flags where
  unknownField : Bool
  compressionDefault : Bool
  referencesOutOfOrder : Bool
  narHashHex : Bool
  /-- There was a line that says that the deriver is unknown. -/
  explicitUnknownDeriver : Bool
  referencesMissing : Bool
  deriving DecidableEq

def Flags.empty : Flags := ⟨false, false, false, false, false, false⟩

structure NarInfo where
  flags : Flags
  storePath : StorePath
  narHash : ByteArr 32
  narSize : ℕ
  references : List StorePath
  signatures : List Signature
  ca : Option CAHash
  system : Option Bytes
  /-- The derivation that produced the path, without the suffix `.drv`. -/
  deriver : Option StorePath
  url : Bytes
  /-- Nothing stands for `Compression: none`. -/
  compression : Option Bytes
  fileHash : Option (ByteArr 32)
  fileSize : Option ℕ

namespace NarInfo

/-- The tags that are known. -/
inductive Tag where
  | storePath | url | compression | fileHash | fileSize | narHash | narSize | references
  | system | deriver | sig | ca
  deriving DecidableEq, Repr

namespace Tag

def asStr : Tag → Bytes
  | storePath => ascii "StorePath"
  | url => ascii "URL"
  | compression => ascii "Compression"
  | fileHash => ascii "FileHash"
  | fileSize => ascii "FileSize"
  | narHash => ascii "NarHash"
  | narSize => ascii "NarSize"
  | references => ascii "References"
  | system => ascii "System"
  | deriver => ascii "Deriver"
  | sig => ascii "Sig"
  | ca => ascii "CA"

def all : List Tag :=
  [storePath, url, compression, fileHash, fileSize, narHash, narSize, references, system, deriver,
    sig, ca]

/-- The tag with a name. -/
def ofStr (s : Bytes) : Option Tag := all.find? (·.asStr = s)

theorem ofStr_asStr (t : Tag) : ofStr t.asStr = some t := by
  cases t <;> decide +kernel

end Tag

inductive Error where
  | duplicateField (tag : Tag)
  | missingField (tag : Tag)
  | invalidLine (line : Bytes)
  | invalidStorePath (e : ParseStorePathError)
  | emptyField (tag : Tag)
  | unableToParseSize (tag : Tag) (val : Bytes)
  | invalidReference (i : ℕ) (e : ParseStorePathError)
  | invalidDeriverStorePath (e : ParseStorePathError)
  | invalidDeriverStorePathMissingSuffix
  | missingPrefixForHash (tag : Tag)
  | unableToDecodeHash (tag : Tag) (e : DecodeError)
  | unableToParseSignature (i : ℕ) (e : Signature.Error)
  | unableToParseCA (val : Bytes)
  deriving DecidableEq

/-- The fields that were read so far. -/
structure Fields where
  flags : Flags
  storePath : Option StorePath
  url : Option Bytes
  compression : Option Bytes
  fileHash : Option (ByteArr 32)
  fileSize : Option ℕ
  narHash : Option (ByteArr 32)
  narSize : Option ℕ
  references : Option (List StorePath)
  system : Option Bytes
  deriver : Option StorePath
  signatures : List Signature
  ca : Option CAHash

def Fields.empty : Fields :=
  ⟨.empty, none, none, none, none, none, none, none, none, none, none, [], none⟩

/-- Sets a field that may stand once. -/
def once {α : Type} (tag : Tag) (old : Option α) (val : α) : Except Error (Option α) :=
  if old.isSome then .error (.duplicateField tag) else .ok (some val)

/-- Reads a text that may not be empty. -/
def parseText (tag : Tag) (old : Option Bytes) (val : Bytes) : Except Error (Option Bytes) :=
  if val = [] then .error (.emptyField tag) else once tag old val

def parseSize (tag : Tag) (old : Option ℕ) (val : Bytes) : Except Error (Option ℕ) :=
  match parseU64 val with
  | none => .error (.unableToParseSize tag val)
  | some n => once tag old n

/-- Decodes 32 bytes in hexadecimal. -/
def decodeHex (val : Bytes) : Except DecodeError (ByteArr 32) :=
  match hexDecode val with
  | .error e => .error e
  | .ok out => if h : out.length = 32 then .ok ⟨out, h⟩ else .error ⟨0, .length⟩

/-- Reads a digest behind the name of its algorithm. -/
def parseHash (tag : Tag) (old : Option (ByteArr 32))
    (decode : Bytes → Except DecodeError (ByteArr 32)) (val : Bytes) :
    Except Error (Option (ByteArr 32)) :=
  match stripPrefix (ascii "sha256:") val with
  | none => .error (.missingPrefixForHash tag)
  | some digest =>
    match decode digest with
    | .error e => .error (.unableToDecodeHash tag e)
    | .ok digest => once tag old digest

/-- Is the digest of this value in hexadecimal? -/
def isHex (val : Bytes) : Bool := (val.drop (ascii "sha256:").length).length = 64

/-- Reads store paths, and whether they are out of order. -/
def parseReferences (i : ℕ) (prev : Bytes) : List Bytes → Except Error (List StorePath × Bool)
  | [] => .ok ([], false)
  | s :: rest =>
    match StorePath.fromBytes s with
    | .error e => .error (.invalidReference i e)
    | .ok path =>
      match parseReferences (i + 1) s rest with
      | .error e => .error e
      | .ok (paths, outOfOrder) => .ok (path :: paths, !decide (prev < s) || outOfOrder)

section

variable (isAlphanumeric : Bytes → Bool)

/-- Reads the value of a known tag. -/
def parseField (f : Fields) : Tag → Bytes → Except Error Fields
  | .storePath, val =>
    match stripPrefix STORE_DIR_WITH_SLASH val with
    | none => .error (.invalidStorePath .missingStoreDir)
    | some val =>
      match StorePath.fromBytes val with
      | .error e => .error (.invalidStorePath e)
      | .ok path => (once .storePath f.storePath path).map fun x => { f with storePath := x }
  | .url, val => (parseText .url f.url val).map fun x => { f with url := x }
  | .compression, val =>
    (parseText .compression f.compression val).map fun x => { f with compression := x }
  | .fileHash, val =>
    (parseHash .fileHash f.fileHash (Nixbase32.decodeFixed 32) val).map
      fun x => { f with fileHash := x }
  | .fileSize, val => (parseSize .fileSize f.fileSize val).map fun x => { f with fileSize := x }
  | .narHash, val =>
    if isHex val then
      (parseHash .narHash f.narHash decodeHex val).map
        fun x => { f with flags := { f.flags with narHashHex := true }, narHash := x }
    else
      (parseHash .narHash f.narHash (Nixbase32.decodeFixed 32) val).map
        fun x => { f with narHash := x }
  | .narSize, val => (parseSize .narSize f.narSize val).map fun x => { f with narSize := x }
  | .references, val =>
    match if val = [] then .ok ([], false) else parseReferences 0 [] (val.splitOn 32) with
    | .error e => .error e
    | .ok (paths, outOfOrder) =>
      (once .references f.references paths).map fun x =>
        { f with
          flags := { f.flags with
            referencesOutOfOrder := f.flags.referencesOutOfOrder || outOfOrder }
          references := x }
  | .system, val => (parseText .system f.system val).map fun x => { f with system := x }
  | .deriver, val =>
    match stripSuffix (ascii ".drv") val with
    | some val =>
      match StorePath.fromBytes val with
      | .error e => .error (.invalidDeriverStorePath e)
      | .ok path => (once .deriver f.deriver path).map fun x => { f with deriver := x }
    | none =>
      if val = ascii "unknown-deriver" then
        .ok { f with flags := { f.flags with explicitUnknownDeriver := true } }
      else .error .invalidDeriverStorePathMissingSuffix
  | .sig, val =>
    match Signature.parse isAlphanumeric val with
    | .error e => .error (.unableToParseSignature f.signatures.length e)
    | .ok sig => .ok { f with signatures := f.signatures ++ [sig] }
  | .ca, val =>
    match CAHash.fromNixHexStr val with
    | none => .error (.unableToParseCA val)
    | some ca => (once .ca f.ca ca).map fun x => { f with ca := x }

def parseLine (f : Fields) (line : Bytes) : Except Error Fields :=
  match splitOnce 58 line with
  | none => .error (.invalidLine line)
  | some (tag, val) =>
    match stripPrefix [32] val with
    | none => .error (.invalidLine line)
    | some val =>
      match Tag.ofStr tag with
      | some tag => parseField isAlphanumeric f tag val
      | none => .ok { f with flags := { f.flags with unknownField := true } }

def required {α : Type} (tag : Tag) : Option α → Except Error α
  | none => .error (.missingField tag)
  | some x => .ok x

/-- The method of compression; Nix takes `bzip2` where there is no line for it. -/
def compressionMethod : Option Bytes → Option Bytes
  | none => some (ascii "bzip2")
  | some c => if c = ascii "none" then none else some c

/-- The description, once all lines are read. -/
def finish (f : Fields) : Except Error NarInfo := do
  let storePath ← required .storePath f.storePath
  let narHash ← required .narHash f.narHash
  let narSize ← required .narSize f.narSize
  let url ← required .url f.url
  pure {
    flags := { f.flags with
      referencesMissing := f.flags.referencesMissing || f.references.isNone
      compressionDefault := f.flags.compressionDefault || f.compression.isNone }
    storePath := storePath
    narHash := narHash
    narSize := narSize
    references := f.references.getD []
    signatures := f.signatures
    ca := f.ca
    system := f.system
    deriver := f.deriver
    url := url
    compression := compressionMethod f.compression
    fileHash := f.fileHash
    fileSize := f.fileSize }

def parse (input : Bytes) : Except Error NarInfo := do
  let f ← (lines input).foldlM (parseLine isAlphanumeric) Fields.empty
  finish f

end

/-- A line with a tag. -/
def line (tag : Tag) (val : Bytes) : Bytes := tag.asStr ++ 58 :: 32 :: val

def displayHash (digest : ByteArr 32) : Bytes := ascii "sha256:" ++ Nixbase32.encode digest.val

/-- The value of the line with the references: a blank before each but the first. -/
def displayReferences (paths : List StorePath) : Bytes :=
  (paths.flatMap fun path => 32 :: path.display).drop 1

/-- The tags and the values that are printed. -/
def printed (n : NarInfo) : List (Tag × Bytes) :=
  [(Tag.storePath, STORE_DIR_WITH_SLASH ++ n.storePath.display), (Tag.url, n.url)] ++
    (if n.flags.compressionDefault then []
      else [(Tag.compression, n.compression.getD (ascii "none"))]) ++
    n.fileHash.toList.map (fun digest => (Tag.fileHash, displayHash digest)) ++
    n.fileSize.toList.map (fun size => (Tag.fileSize, decimal size)) ++
    [(Tag.narHash, displayHash n.narHash), (Tag.narSize, decimal n.narSize)] ++
    (if n.flags.referencesMissing then [] else [(Tag.references, displayReferences n.references)]) ++
    (match n.deriver with
      | some path => [(Tag.deriver, path.display ++ ascii ".drv")]
      | none =>
        if n.flags.explicitUnknownDeriver then [(Tag.deriver, ascii "unknown-deriver")] else []) ++
    n.system.toList.map (fun system => (Tag.system, system)) ++
    n.signatures.map (fun sig => (Tag.sig, sig.display)) ++
    n.ca.toList.map (fun ca => (Tag.ca, ca.display))

def display (n : NarInfo) : Bytes := unlines (n.printed.map fun (tag, val) => line tag val)

end NarInfo

end Snix
