import Snix.Castore.Proto
import Snix.Lib.Base64NoPad
import Snix.Lib.Protobuf
import Snix.Lib.Text

/-!
# Nodes in URLs

The URL of a NAR holds the root node, as the protobuf message of an entry without a name in Base64.
The parser refuses a message that is too long to be reasonable, and some symlinks are.

## Main definitions

- `Prost` — what is used of the protobuf library
- `writeInfusedNarPath`, `parseInfusedNarPath` — the writer and the parser
- `Prost.wire` — a library that reads the fields one after another

## Main results

- `length_encodeToVec_le_iff` — how long the message of a node is
- `parse_writeInfusedNarPath_iff` — which nodes are read back
-/

namespace Snix.Castore.Proto

open Protobuf

-- ====================
-- Messages of entries
-- ====================

def DirectoryEntry.fields (e : DirectoryEntry) : ProtoFields :=
  bytesField 1 e.name ++ (bytesField 2 e.digest ++ varintField 3 e.size.toNat)

def FileEntry.fields (e : FileEntry) : ProtoFields :=
  bytesField 1 e.name ++ (bytesField 2 e.digest ++
    (varintField 3 e.size.toNat ++ varintField 4 e.executable.toNat))

def SymlinkEntry.fields (e : SymlinkEntry) : ProtoFields :=
  bytesField 1 e.name ++ bytesField 2 e.target

/-- The entry that is set is there even if all of it has defaults. -/
def Entry.fields : Entry → ProtoFields
  | .directory e => [(1, .bytes (writeFields e.fields))]
  | .file e => [(2, .bytes (writeFields e.fields))]
  | .symlink e => [(3, .bytes (writeFields e.fields))]

/-- What is used of the protobuf library: entries are encoded field by field, and decoded again. -/
structure Prost where
  encodeToVec : Entry → Bytes
  decode : Bytes → Option (Option Entry)
  encodeToVec_eq : ∀ e, encodeToVec e = writeFields e.fields
  decode_encodeToVec : ∀ e, (encodeToVec e).length < 2 ^ 63 → decode (encodeToVec e) = some (some e)

-- ====================
-- URLs
-- ====================

/-- The node of an entry that must not have a name. -/
def Entry.tryIntoAnonymousNode : Option Entry → Except DirectoryError Node
  | none => .error .noEntrySet
  | some entry =>
    match entry.tryIntoUncheckedNameAndCheckedNode with
    | .error e => .error e
    | .ok (name, node) => if name ≠ [] then .error .nameInAnonymousNode else .ok node

/-- The length of some bytes in Base64. -/
def encodeLen (len : ℕ) : ℕ := (len * 4 + 2) / 3

/-- The node in Base64. -/
def urlsafeProto (prost : Prost) (node : Node) : Bytes :=
  base64EncodeNoPad base64UrlDigit (prost.encodeToVec (Entry.fromNameAndNode [] node))

/-- The path of a NAR, with its size. -/
def writeInfusedNarPath (prost : Prost) (node : Node) (narSize : UInt64) : Bytes :=
  ascii "nar/snix-castore/" ++
    (urlsafeProto prost node ++ (ascii "?narsize=" ++ decimal narSize.toNat))

/-- Reads a node in Base64. Long ones are refused. -/
def parseUrlsafeProto (prost : Prost) (nodeEnc : Bytes) : Option Node :=
  if nodeEnc.length > encodeLen 4096 then none
  else
    match base64DecodeNoPad base64UrlValue? true nodeEnc with
    | none => none
    | some nodeBytes =>
      match prost.decode nodeBytes with
      | none => none
      | some nodeProto => (Entry.tryIntoAnonymousNode nodeProto).toOption

/-- Reads the path of a NAR. -/
def parseInfusedNarPath (prost : Prost) (s : Bytes) : Option (Node × UInt64) := do
  let s ← stripPrefix (ascii "nar/snix-castore/") s
  let (nodeEnc, narSizeStr) ← splitOnceOn (ascii "?narsize=") s
  let narSize ← parseU64 narSizeStr
  let node ← parseUrlsafeProto prost nodeEnc
  return (node, UInt64.ofNat narSize)

variable {prost : Prost} {node : Node}

theorem tryIntoAnonymousNode_fromNameAndNode :
    Entry.tryIntoAnonymousNode (some (Entry.fromNameAndNode [] node)) = .ok node := by
  rw [Entry.tryIntoAnonymousNode, Entry.tryIntoUnchecked_fromNameAndNode]
  rfl

theorem length_bytesField_le {number : ℕ} (h : number < 16) {b : Bytes} (hb : b.length < 128) :
    (writeFields (bytesField number b)).length ≤ 2 + b.length := by
  rw [bytesField]
  split_ifs
  · exact Nat.zero_le _
  · rw [length_writeFields_bytes h, writeVarint_of_lt hb, List.length_singleton]

theorem length_entry {number : ℕ} (h : number < 16) (fields : ProtoFields) {n : ℕ}
    (hn : (writeFields fields).length ≤ n) (hlt : n < 16384) :
    (writeFields [(number, .bytes (writeFields fields))]).length ≤ 3 + n := by
  have hvarint := length_writeVarint_of_lt (Nat.lt_of_le_of_lt hn hlt)
  rw [length_writeFields_bytes h, hvarint]
  split_ifs <;> omega

theorem target_bounds (target : SymlinkTarget) :
    target.val ≠ [] ∧ target.val.length ≤ MAX_TARGET_LEN := by
  have hvalid := target.valid
  rw [validateSymlinkTarget] at hvalid
  split_ifs at hvalid with hnil hlong
  · exact ⟨hnil, Nat.le_of_not_lt hlong⟩

theorem length_encodeToVec_symlink (target : SymlinkTarget) :
    (prost.encodeToVec (Entry.fromNameAndNode [] (.symlink target))).length ≤ 4096 ↔
      target.val.length ≤ 4090 := by
  obtain ⟨hne, hle⟩ := target_bounds target
  rw [MAX_TARGET_LEN] at hle
  have hfields : SymlinkEntry.fields ⟨[], target.val⟩ = [(2, .bytes target.val)] := by
    rw [SymlinkEntry.fields, bytesField, if_pos rfl, bytesField, if_neg hne, List.nil_append]
  have hinner : (writeFields [(2, .bytes target.val)]).length =
      1 + (if target.val.length < 128 then 1 else 2) + target.val.length := by
    rw [length_writeFields_bytes (by decide), length_writeVarint_of_lt (by omega)]
  rw [prost.encodeToVec_eq, Entry.fromNameAndNode, Entry.fields, hfields,
    length_writeFields_bytes (by decide), length_writeVarint_of_lt (by split_ifs at hinner <;> omega),
    hinner]
  split_ifs <;> omega

theorem length_encodeToVec_le (h : ∀ target, node ≠ .symlink target) :
    (prost.encodeToVec (Entry.fromNameAndNode [] node)).length ≤ 4096 := by
  rw [prost.encodeToVec_eq]
  cases node with
  | directory digest size =>
    have hdigest := length_bytesField_le (show 2 < 16 by decide)
      (lt_of_eq_of_lt digest.property (by decide : 32 < 128))
    have hsize := length_writeFields_varint_le (show 3 < 16 by decide) size.toNat
    refine Nat.le_trans (length_entry (n := 45) (by decide) _ ?_ (by decide)) (by decide)
    rw [DirectoryEntry.fields, bytesField, if_pos rfl, List.nil_append, length_writeFields_append]
    dsimp only
    have := digest.property
    omega
  | file digest size executable =>
    have hdigest := length_bytesField_le (show 2 < 16 by decide)
      (lt_of_eq_of_lt digest.property (by decide : 32 < 128))
    have hsize := length_writeFields_varint_le (show 3 < 16 by decide) size.toNat
    have hexecutable := length_writeFields_varint_le (show 4 < 16 by decide) executable.toNat
    refine Nat.le_trans (length_entry (n := 56) (by decide) _ ?_ (by decide)) (by decide)
    rw [FileEntry.fields, bytesField, if_pos rfl, List.nil_append, length_writeFields_append,
      length_writeFields_append]
    dsimp only
    have := digest.property
    omega
  | symlink target => exact absurd rfl (h target)

/-- How long the message of a node is. -/
theorem length_encodeToVec_le_iff (prost : Prost) :
    (prost.encodeToVec (Entry.fromNameAndNode [] node)).length ≤ 4096 ↔
      ∀ target, node = .symlink target → target.val.length ≤ 4090 := by
  constructor
  · rintro h target rfl
    exact (length_encodeToVec_symlink target).mp h
  · intro h
    cases node with
    | directory digest size => exact length_encodeToVec_le fun _ => nofun
    | file digest size executable => exact length_encodeToVec_le fun _ => nofun
    | symlink target => exact (length_encodeToVec_symlink target).mpr (h target rfl)

theorem parseUrlsafeProto_urlsafeProto :
    parseUrlsafeProto prost (urlsafeProto prost node) =
      if (prost.encodeToVec (Entry.fromNameAndNode [] node)).length ≤ 4096 then some node else none := by
  have hlen : (urlsafeProto prost node).length > encodeLen 4096 ↔
      ¬(prost.encodeToVec (Entry.fromNameAndNode [] node)).length ≤ 4096 := by
    rw [urlsafeProto, length_base64EncodeNoPad, encodeLen]
    omega
  rw [parseUrlsafeProto]
  split_ifs with hlong hshort hshort
  · exact absurd hshort (hlen.mp hlong)
  · rfl
  · rw [urlsafeProto, base64DecodeNoPad_base64EncodeNoPad fun v hv => (base64UrlDigit_spec v hv).1]
    dsimp only
    rw [prost.decode_encodeToVec _ (by omega)]
    dsimp only
    rw [tryIntoAnonymousNode_fromNameAndNode]
    rfl
  · exact absurd (hlen.mpr hshort) hlong

theorem parseInfusedNarPath_writeInfusedNarPath (narSize : UInt64) :
    parseInfusedNarPath prost (writeInfusedNarPath prost node narSize) =
      (parseUrlsafeProto prost (urlsafeProto prost node)).map fun node => (node, narSize) := by
  have hdigits : (63 : UInt8) ∉ urlsafeProto prost node := by
    intro hmem
    obtain ⟨v, hv, heq⟩ := mem_base64EncodeNoPad hmem
    exact (base64UrlDigit_spec v hv).2 heq.symm
  have hsep : ascii "?narsize=" = 63 :: ascii "narsize=" := by decide
  rw [parseInfusedNarPath, writeInfusedNarPath, stripPrefix_append]
  simp only [Option.bind_eq_bind, Option.bind_some]
  rw [hsep, splitOnceOn_append hdigits]
  simp only [Option.bind_some, parseU64_decimal narSize.toNat_lt, UInt64.ofNat_toNat]
  cases parseUrlsafeProto prost (urlsafeProto prost node) <;> rfl

/-- A node is read back, by the parser of the path and by the server, unless it is a symlink with
    one of the longest targets. -/
theorem parse_writeInfusedNarPath_iff (prost : Prost) (node : Node) (narSize : UInt64) :
    (parseInfusedNarPath prost (writeInfusedNarPath prost node narSize) = some (node, narSize) ↔
      ∀ target, node = .symlink target → target.val.length ≤ 4090) ∧
    (parseUrlsafeProto prost (urlsafeProto prost node) = some node ↔
      ∀ target, node = .symlink target → target.val.length ≤ 4090) := by
  rw [parseInfusedNarPath_writeInfusedNarPath, parseUrlsafeProto_urlsafeProto,
    ← length_encodeToVec_le_iff prost]
  split_ifs with h <;> simp [h]

-- ====================
-- Reading entries
-- ====================

/-- A field with a known number has to have a value of its type. Others are skipped. -/
def DirectoryEntry.merge (e : DirectoryEntry) : ℕ × ProtoValue → Option DirectoryEntry
  | (1, .bytes b) => some { e with name := b }
  | (2, .bytes b) => some { e with digest := b }
  | (3, .varint n) => some { e with size := UInt64.ofNat n }
  | (number, _) => if number ≤ 3 then none else some e

def FileEntry.merge (e : FileEntry) : ℕ × ProtoValue → Option FileEntry
  | (1, .bytes b) => some { e with name := b }
  | (2, .bytes b) => some { e with digest := b }
  | (3, .varint n) => some { e with size := UInt64.ofNat n }
  | (4, .varint n) => some { e with executable := decide (n ≠ 0) }
  | (number, _) => if number ≤ 4 then none else some e

def SymlinkEntry.merge (e : SymlinkEntry) : ℕ × ProtoValue → Option SymlinkEntry
  | (1, .bytes b) => some { e with name := b }
  | (2, .bytes b) => some { e with target := b }
  | (number, _) => if number ≤ 2 then none else some e

/-- Reads a message into a record. -/
def mergeFields {α : Type} (merge : α → ℕ × ProtoValue → Option α) (e : α) (b : Bytes) : Option α := do
  let fields ← readFields b
  fields.foldlM merge e

/-- The entry that was set last is there. If it was there before, its fields are merged. -/
def Entry.merge : Option Entry → ℕ × ProtoValue → Option (Option Entry)
  | some (.directory e), (1, .bytes b) =>
    (mergeFields DirectoryEntry.merge e b).map fun e => some (.directory e)
  | some (.file e), (2, .bytes b) => (mergeFields FileEntry.merge e b).map fun e => some (.file e)
  | some (.symlink e), (3, .bytes b) =>
    (mergeFields SymlinkEntry.merge e b).map fun e => some (.symlink e)
  | _, (1, .bytes b) =>
    (mergeFields DirectoryEntry.merge ⟨[], [], 0⟩ b).map fun e => some (.directory e)
  | _, (2, .bytes b) =>
    (mergeFields FileEntry.merge ⟨[], [], 0, false⟩ b).map fun e => some (.file e)
  | _, (3, .bytes b) =>
    (mergeFields SymlinkEntry.merge ⟨[], []⟩ b).map fun e => some (.symlink e)
  | e, (number, _) => if number ≤ 3 then none else some e

theorem fieldsFit_append {fields fields' : ProtoFields} :
    FieldsFit (fields ++ fields') ↔ FieldsFit fields ∧ FieldsFit fields' :=
  List.forall_mem_append

theorem fieldsFit_bytesField {number : ℕ} (hpos : 0 < number) (hlt : number < 2 ^ 29) {b : Bytes}
    (hb : b.length < 2 ^ 64) : FieldsFit (bytesField number b) := by
  rw [bytesField]
  split_ifs
  · exact fun _ h => absurd h List.not_mem_nil
  · exact List.forall_mem_singleton.mpr ⟨hpos, hlt, hb⟩

theorem fieldsFit_varintField {number n : ℕ} (hpos : 0 < number) (hlt : number < 2 ^ 29)
    (hn : n < 2 ^ 64) : FieldsFit (varintField number n) := by
  rw [varintField]
  split_ifs
  · exact fun _ h => absurd h List.not_mem_nil
  · exact List.forall_mem_singleton.mpr ⟨hpos, hlt, hn⟩

section Merge

variable {α : Type} {merge : α → ℕ × ProtoValue → Option α} {e e' : α} {number : ℕ}

/-- A field that is left out is merged as its default. -/
theorem foldlM_bytesField {b : Bytes} {rest : ProtoFields}
    (h : merge e (number, .bytes b) = some e') (hnil : b = [] → e' = e) :
    (bytesField number b ++ rest).foldlM merge e = rest.foldlM merge e' := by
  rw [bytesField]
  split_ifs with hb
  · rw [hnil hb]
    rfl
  · rw [List.singleton_append, List.foldlM_cons, h]
    rfl

theorem foldlM_varintField {n : ℕ} {rest : ProtoFields}
    (h : merge e (number, .varint n) = some e') (hzero : n = 0 → e' = e) :
    (varintField number n ++ rest).foldlM merge e = rest.foldlM merge e' := by
  rw [varintField]
  split_ifs with hn
  · rw [hzero hn]
    rfl
  · rw [List.singleton_append, List.foldlM_cons, h]
    rfl

theorem mergeFields_writeFields {fields : ProtoFields} (h : FieldsFit fields) :
    mergeFields merge e (writeFields fields) = fields.foldlM merge e := by
  rw [mergeFields, readFields_writeFields h]
  rfl

end Merge

theorem eq_zero_of_toNat_eq_zero {n : UInt64} (h : n.toNat = 0) : n = 0 := UInt64.toNat_inj.mp h

theorem foldlM_fields_directory (e : DirectoryEntry) :
    e.fields.foldlM DirectoryEntry.merge ⟨[], [], 0⟩ = some e := by
  obtain ⟨name, digest, size⟩ := e
  have hname : DirectoryEntry.merge ⟨[], [], 0⟩ (1, .bytes name) = some ⟨name, [], 0⟩ := rfl
  have hdigest : DirectoryEntry.merge ⟨name, [], 0⟩ (2, .bytes digest) = some ⟨name, digest, 0⟩ := rfl
  have hsize : DirectoryEntry.merge ⟨name, digest, 0⟩ (3, .varint size.toNat) =
      some ⟨name, digest, size⟩ := by
    rw [DirectoryEntry.merge, UInt64.ofNat_toNat]
  rw [DirectoryEntry.fields, ← List.append_nil (varintField _ _),
    foldlM_bytesField hname fun hnil => hnil ▸ rfl, foldlM_bytesField hdigest fun hnil => hnil ▸ rfl,
    foldlM_varintField hsize fun hzero => eq_zero_of_toNat_eq_zero hzero ▸ rfl]
  rfl

theorem foldlM_fields_file (e : FileEntry) :
    e.fields.foldlM FileEntry.merge ⟨[], [], 0, false⟩ = some e := by
  obtain ⟨name, digest, size, executable⟩ := e
  have hname : FileEntry.merge ⟨[], [], 0, false⟩ (1, .bytes name) = some ⟨name, [], 0, false⟩ := rfl
  have hdigest : FileEntry.merge ⟨name, [], 0, false⟩ (2, .bytes digest) =
      some ⟨name, digest, 0, false⟩ := rfl
  have hsize : FileEntry.merge ⟨name, digest, 0, false⟩ (3, .varint size.toNat) =
      some ⟨name, digest, size, false⟩ := by
    rw [FileEntry.merge, UInt64.ofNat_toNat]
  have hexecutable : FileEntry.merge ⟨name, digest, size, false⟩ (4, .varint executable.toNat) =
      some ⟨name, digest, size, executable⟩ := by
    cases executable <;> rfl
  rw [FileEntry.fields, ← List.append_nil (varintField 4 _),
    foldlM_bytesField hname fun hnil => hnil ▸ rfl, foldlM_bytesField hdigest fun hnil => hnil ▸ rfl,
    foldlM_varintField hsize fun hzero => eq_zero_of_toNat_eq_zero hzero ▸ rfl,
    foldlM_varintField hexecutable fun hzero => ?_]
  · rfl
  · cases executable with
    | true => cases hzero
    | false => rfl

theorem foldlM_fields_symlink (e : SymlinkEntry) :
    e.fields.foldlM SymlinkEntry.merge ⟨[], []⟩ = some e := by
  obtain ⟨name, target⟩ := e
  have hname : SymlinkEntry.merge ⟨[], []⟩ (1, .bytes name) = some ⟨name, []⟩ := rfl
  have htarget : SymlinkEntry.merge ⟨name, []⟩ (2, .bytes target) = some ⟨name, target⟩ := rfl
  rw [SymlinkEntry.fields, ← List.append_nil (bytesField 2 _),
    foldlM_bytesField hname fun hnil => hnil ▸ rfl,
    foldlM_bytesField htarget fun hnil => hnil ▸ rfl]
  rfl

/-- What is in a short message is short. -/
theorem length_le_of_bytesField (number : ℕ) (b : Bytes) :
    b.length ≤ (writeFields (bytesField number b)).length := by
  rw [bytesField]
  split_ifs with hb
  · rw [hb]
    exact Nat.zero_le _
  · rw [writeFields, List.flatMap_singleton, writeField, List.length_append, List.length_append]
    omega

theorem DirectoryEntry.fieldsFit {e : DirectoryEntry} (h : (writeFields e.fields).length < 2 ^ 64) :
    FieldsFit e.fields := by
  have hname := length_le_of_bytesField 1 e.name
  have hdigest := length_le_of_bytesField 2 e.digest
  rw [fields, length_writeFields_append, length_writeFields_append] at h
  exact fieldsFit_append.mpr ⟨fieldsFit_bytesField (by decide) (by decide) (by omega),
    fieldsFit_append.mpr ⟨fieldsFit_bytesField (by decide) (by decide) (by omega),
      fieldsFit_varintField (by decide) (by decide) e.size.toNat_lt⟩⟩

theorem FileEntry.fieldsFit {e : FileEntry} (h : (writeFields e.fields).length < 2 ^ 64) :
    FieldsFit e.fields := by
  have hname := length_le_of_bytesField 1 e.name
  have hdigest := length_le_of_bytesField 2 e.digest
  have hexecutable : e.executable.toNat < 2 ^ 64 :=
    Nat.lt_of_le_of_lt (Bool.toNat_le e.executable) (by decide)
  rw [fields, length_writeFields_append, length_writeFields_append] at h
  exact fieldsFit_append.mpr ⟨fieldsFit_bytesField (by decide) (by decide) (by omega),
    fieldsFit_append.mpr ⟨fieldsFit_bytesField (by decide) (by decide) (by omega),
      fieldsFit_append.mpr ⟨fieldsFit_varintField (by decide) (by decide) e.size.toNat_lt,
        fieldsFit_varintField (by decide) (by decide) hexecutable⟩⟩⟩

theorem SymlinkEntry.fieldsFit {e : SymlinkEntry} (h : (writeFields e.fields).length < 2 ^ 64) :
    FieldsFit e.fields := by
  have hname := length_le_of_bytesField 1 e.name
  have htarget := length_le_of_bytesField 2 e.target
  rw [fields, length_writeFields_append] at h
  exact fieldsFit_append.mpr ⟨fieldsFit_bytesField (by decide) (by decide) (by omega),
    fieldsFit_bytesField (by decide) (by decide) (by omega)⟩

theorem length_lt_of_entry {number : ℕ} {b : Bytes}
    (h : (writeFields [(number, .bytes b)]).length < 2 ^ 63) : b.length < 2 ^ 64 := by
  rw [writeFields, List.flatMap_singleton, writeField, List.length_append, List.length_append] at h
  omega

/-- An entry is read back. -/
theorem mergeFields_entry {e : Entry} (h : (writeFields e.fields).length < 2 ^ 63) :
    mergeFields Entry.merge none (writeFields e.fields) = some (some e) := by
  have hstart : ∀ {number : ℕ} {b : Bytes} {e' : Option Entry}, 0 < number → number < 2 ^ 29 →
      (writeFields [(number, .bytes b)]).length < 2 ^ 63 →
      Entry.merge none (number, .bytes b) = some e' →
      mergeFields Entry.merge none (writeFields [(number, .bytes b)]) = some e' := by
    intro number b e' hpos hlt hlen hmerge
    have hfit : FieldsFit [(number, .bytes b)] :=
      List.forall_mem_singleton.mpr ⟨hpos, hlt, length_lt_of_entry hlen⟩
    rw [mergeFields_writeFields hfit, List.foldlM_cons, hmerge]
    rfl
  cases e with
  | directory e =>
    refine hstart (by decide) (by decide) h ?_
    rw [Entry.merge, mergeFields_writeFields (DirectoryEntry.fieldsFit (length_lt_of_entry h)),
      foldlM_fields_directory]
    · rfl
    · nofun
  | file e =>
    refine hstart (by decide) (by decide) h ?_
    rw [Entry.merge, mergeFields_writeFields (FileEntry.fieldsFit (length_lt_of_entry h)),
      foldlM_fields_file]
    · rfl
    · nofun
  | symlink e =>
    refine hstart (by decide) (by decide) h ?_
    rw [Entry.merge, mergeFields_writeFields (SymlinkEntry.fieldsFit (length_lt_of_entry h)),
      foldlM_fields_symlink]
    · rfl
    · nofun

/-- A library that reads the fields one after another. -/
def Prost.wire : Prost where
  encodeToVec e := writeFields e.fields
  decode := mergeFields Entry.merge none
  encodeToVec_eq _ := rfl
  decode_encodeToVec _ h := mergeFields_entry h

theorem parse_writeInfusedNarPath_file :
    parseInfusedNarPath .wire
        (writeInfusedNarPath .wire (.file (List.Vector.replicate 32 7) 5 false) 120) =
      some (.file (List.Vector.replicate 32 7) 5 false, 120) :=
  (parse_writeInfusedNarPath_iff .wire _ 120).1.mpr fun _ => nofun

theorem validateSymlinkTarget_replicate :
    validateSymlinkTarget (List.replicate 4091 97) = .ok () := by
  have hne : List.replicate 4091 (97 : UInt8) ≠ [] := by
    refine List.ne_nil_of_length_pos ?_
    rw [List.length_replicate]
    decide
  have hnull : (0 : UInt8) ∉ List.replicate 4091 97 := by
    intro hmem
    exact absurd (List.eq_of_mem_replicate hmem) (by decide)
  rw [validateSymlinkTarget, List.length_replicate, if_neg hne, if_neg (by decide), if_neg hnull]

/-- The shortest target that is too long. -/
def longTarget : SymlinkTarget := ⟨List.replicate 4091 97, validateSymlinkTarget_replicate⟩

theorem parseInfusedNarPath_longTarget :
    parseInfusedNarPath .wire (writeInfusedNarPath .wire (.symlink longTarget) 0) = none ∧
      parseUrlsafeProto .wire (urlsafeProto .wire (.symlink longTarget)) = none := by
  have hlong : ¬(Prost.wire.encodeToVec (Entry.fromNameAndNode [] (.symlink longTarget))).length ≤
      4096 := by
    rw [length_encodeToVec_symlink, longTarget, List.length_replicate]
    decide
  have hnone : parseUrlsafeProto .wire (urlsafeProto .wire (.symlink longTarget)) = none := by
    rw [parseUrlsafeProto_urlsafeProto, if_neg hlong]
  rw [parseInfusedNarPath_writeInfusedNarPath, hnone]
  exact ⟨rfl, rfl⟩

end Snix.Castore.Proto
