import Snix.Eval.Opcode
import Snix.Lib.Slices

/-!
# Chunks

A chunk is the bytes of instructions and the constants that they refer to. Operands come after the
byte of the operation: numbers in an encoding of variable length, jumps in two bytes, a byte for a
coercion, and the upvalues of a blueprint as a list with its length. A read that is out of bounds
panics.

## Main definitions

- `Vu128` — the encoding of numbers, and what is known of it
- `Chunk` — its bytes and constants, with what is written and read
- `Chunk.disassembleOp`, `Chunk.disassembleChunk` — the disassembler
- `Chunk.opCount` — the number of instructions
- `BytecodeFrame.fetch` — what the machine reads for an instruction

## Main results

- `Chunk.readUvarint_of_at`, `Chunk.readU16_of_at` — what was written is read
-/

namespace Snix.Eval

/-- An encoding of 64-bit numbers in up to nine bytes. What is decoded are always nine bytes, and
    the number of those that were used is told. -/
structure Vu128 where
  encode : UInt64 → Bytes
  decode : Bytes → UInt64 × ℕ

/-- Numbers are read back, whatever the bytes after them are. -/
structure Vu128.Lawful (v : Vu128) : Prop where
  length_pos : ∀ x, 0 < (v.encode x).length
  length_le : ∀ x, (v.encode x).length ≤ 9
  decode_encode : ∀ x rest, (v.encode x ++ rest).length = 9 →
    v.decode (v.encode x ++ rest) = (x, (v.encode x).length)

/-- Maximum size of an encoded number. -/
def U64_VARINT_SIZE : ℕ := 9

/-- The last operation is known by its index. -/
structure Chunk where
  code : Bytes
  constants : List Value
  lastOp : ℕ

namespace Chunk

variable (v : Vu128)

def empty : Chunk := ⟨[], [], 0⟩

-- ====================
-- Writing
-- ====================

def pushOp (c : Chunk) (op : Op) : Chunk :=
  { c with code := c.code ++ [op.toByte], lastOp := c.code.length }

def pushUvarint (c : Chunk) (data : UInt64) : Chunk := { c with code := c.code ++ v.encode data }

def pushU8 (c : Chunk) (data : UInt8) : Chunk := { c with code := c.code ++ [data] }

def pushU16 (c : Chunk) (data : UInt16) : Chunk := { c with code := c.code ++ leBytes 2 data.toNat }

/-- The chunk, and the index of the constant. -/
def pushConstant (c : Chunk) (data : Value) : Chunk × UInt64 :=
  ({ c with constants := c.constants ++ [data] }, UInt64.ofNat c.constants.length)

/-- The jump at the index goes to the next instruction that is emitted. -/
def patchJump (c : Chunk) (idx : ℕ) : Option Chunk :=
  if idx + 3 ≤ c.code.length then
    let offset := UInt16.ofNat (c.code.length - idx - 1 - 2)
    some { c with
      code := c.code.take (idx + 1) ++ leBytes 2 offset.toNat ++ c.code.drop (idx + 3) }
  else none

-- ====================
-- Reading
-- ====================

/-- The number at the index, and its size. Where less than nine bytes are left, there are zeros
    after them. -/
def readUvarint (c : Chunk) (idx : ℕ) : Option (UInt64 × ℕ) :=
  if c.code.length ≤ idx then none
  else if U64_VARINT_SIZE ≤ c.code.length - idx then
    some (v.decode ((c.code.drop idx).take U64_VARINT_SIZE))
  else
    some (v.decode (c.code.drop idx ++
      List.replicate (U64_VARINT_SIZE - (c.code.length - idx)) 0))

def readU16 (c : Chunk) (idx : ℕ) : Option UInt16 :=
  if c.code.length < idx + 2 then none
  else some (UInt16.ofNat (leValue ((c.code.drop idx).take 2)))

/-- The last operation, and its index. -/
def lastOp? (c : Chunk) : Option (Op × ℕ) :=
  (c.code[c.lastOp]?).map fun num => (Op.ofByte num, c.lastOp)

/-- The index after that many numbers. -/
def skipUvarints (c : Chunk) : ℕ → ℕ → Option ℕ
  | 0, idx => some idx
  | n + 1, idx => do
    let (_, size) ← c.readUvarint v idx
    skipUvarints c n (idx + size)

-- ====================
-- The disassembler
-- ====================

/-- What is shown of an instruction. -/
inductive Shown where
  | op (op : Op)
  /-- With the constant that the argument is the index of. -/
  | arg (op : Op) (arg : UInt64) (constant : Option Value)
  | jump (op : Op) (arg : UInt16)
  | kind (op : Op) (kind : CoercionKind)
  | blueprint (op : Op) (idx : UInt64) (capturesWith : Bool) (count : ℕ)

/-- What is shown of the instruction at the index, and its size. -/
def disassembleOp (c : Chunk) (idx : ℕ) : Option (Shown × ℕ) := do
  let op := Op.ofByte (← c.code[idx]?)
  match op.argType with
  | .none => some (.op op, 1)
  | .fixed =>
    let arg ← c.readU16 (idx + 1)
    some (.jump op arg, 3)
  | .uvarint =>
    let (arg, size) ← c.readUvarint v (idx + 1)
    if op = .constant then
      let constant ← c.constants[arg.toNat]?
      some (.arg op arg (some constant), 1 + size)
    else some (.arg op arg none, 1 + size)
  | .custom =>
    match op with
    | .coerceToString =>
      let kind := CoercionKind.ofByte (← c.code[idx + 1]?)
      some (.kind op kind, 2)
    | .closure | .thunkClosure | .thunkSuspended =>
      let cidx := idx + 1
      let (bpIdx, size) ← c.readUvarint v cidx
      let cidx := cidx + size
      let (packedCount, size) ← c.readUvarint v cidx
      let cidx := cidx + size
      let capturesWith := packedCount &&& 0b1 == 1
      let count := (packedCount >>> 1).toNat
      let cidx ← c.skipUvarints v count cidx
      some (.blueprint op bpIdx capturesWith count, cidx - idx)
    | _ => none

/-- The instructions from an index on. None if there are more than the given number. -/
def disassembleFrom (c : Chunk) : ℕ → ℕ → Option (List (ℕ × Shown))
  | 0, _ => none
  | n + 1, idx =>
    if idx < c.code.length then do
      let (shown, size) ← c.disassembleOp v idx
      let rest ← disassembleFrom c n (idx + size)
      some ((idx, shown) :: rest)
    else some []

/-- The instructions with their indices. The width of an index is that of the last one, so a chunk
    without code panics. -/
def disassembleChunk (c : Chunk) : Option (List (ℕ × Shown)) :=
  if c.code = [] then none else c.disassembleFrom v (c.code.length + 1) 0

-- ====================
-- The number of instructions
-- ====================

/-- The size of the instruction at the index. -/
def opLen (c : Chunk) (idx : ℕ) : Option ℕ := do
  let op := Op.ofByte (← c.code[idx]?)
  match op.argType with
  | .none => some 1
  | .uvarint =>
    let (_, len) ← c.readUvarint v (idx + 1)
    some (len + 1)
  | .fixed => some 3
  | .custom =>
    match op with
    | .coerceToString => some 2
    | .closure | .thunkClosure | .thunkSuspended =>
      let len := 1
      let (_, size) ← c.readUvarint v (idx + len)
      let len := len + size
      let (packedCount, size) ← c.readUvarint v (idx + len)
      let len := len + size
      let count := (packedCount >>> 1).toNat
      let next ← c.skipUvarints v count (idx + len)
      some (next - idx)
    | _ => none

/-- Counts the instructions from an index on. None if there are more than the given number. -/
def countFrom (c : Chunk) : ℕ → ℕ → ℕ → Option ℕ
  | 0, _, _ => none
  | n + 1, idx, count =>
    if idx ≤ c.lastOp then do
      let len ← c.opLen v idx
      countFrom c n (idx + len) (count + 1)
    else some count

def opCount (c : Chunk) : Option ℕ :=
  if c.code = [] then some 0 else c.countFrom v (c.code.length + 1) 0 0

end Chunk

-- ====================
-- The machine
-- ====================

/-- The frame of a function that is run: its chunk, and the index of the next byte. -/
structure BytecodeFrame where
  chunk : Chunk
  ip : ℕ

namespace BytecodeFrame

variable (v : Vu128)

def incIp (f : BytecodeFrame) : Option (Op × BytecodeFrame) := do
  let op ← f.chunk.code[f.ip]?
  some (Op.ofByte op, { f with ip := f.ip + 1 })

def readUvarint (f : BytecodeFrame) : Option (UInt64 × BytecodeFrame) := do
  let (arg, size) ← f.chunk.readUvarint v f.ip
  some (arg, { f with ip := f.ip + size })

def readU16 (f : BytecodeFrame) : Option (UInt16 × BytecodeFrame) := do
  let arg ← f.chunk.readU16 f.ip
  some (arg, { f with ip := f.ip + 2 })

/-- Reads that many positions. A position that is none panics. -/
def readPositions : ℕ → BytecodeFrame → Option (List Capture × BytecodeFrame)
  | 0, f => some ([], f)
  | n + 1, f => do
    let (pos, f) ← f.readUvarint v
    let capture ← Position.capture? pos
    let (captures, f) ← readPositions n f
    some (capture :: captures, f)

/-- Whether the `with` stack is captured, and where the upvalues are. -/
def populateUpvalues (f : BytecodeFrame) : Option (Bool × List Capture × BytecodeFrame) := do
  let (data, f) ← f.readUvarint v
  let count := UpvalueData.count data
  let captureWith := UpvalueData.capturesWith data
  let (captures, f) ← readPositions v count f
  some (captureWith, captures, f)

/-- The operation at the index and what is read for it, up to the next instruction. -/
def fetch (f : BytecodeFrame) : Option (Instr × BytecodeFrame) := do
  let (op, f) ← f.incIp
  match op with
  | .thunkSuspended | .thunkClosure | .closure =>
    let (idx, f) ← f.readUvarint v
    match f.chunk.constants[idx.toNat]? with
    | some (.blueprint _) =>
      let (captureWith, captures, f) ← f.populateUpvalues v
      some (.capture op idx captureWith captures, f)
    | _ => none
  | .constant =>
    let (idx, f) ← f.readUvarint v
    let _ ← f.chunk.constants[idx.toNat]?
    some (.uvarint op idx, f)
  | .getUpvalue | .closeScope | .getLocal | .attrs | .list | .finalise | .interpolate
  | .interpolatePath | .pushWith =>
    let (arg, f) ← f.readUvarint v
    some (.uvarint op arg, f)
  | .jumpIfFalse | .jumpIfCatchable | .jumpIfNoFinaliseRequest | .jumpIfNotFound | .jump
  | .jumpIfTrue =>
    let (offset, f) ← f.readU16
    some (.fixed op offset, f)
  | .coerceToString =>
    let byte ← f.chunk.code[f.ip]?
    some (.coerce (CoercionKind.ofByte byte), { f with ip := f.ip + 1 })
  | .invalid => none
  | _ => some (.plain op, f)

end BytecodeFrame

-- ====================
-- What was written is read
-- ====================

variable {v : Vu128} {c : Chunk} {idx : ℕ} {x : UInt64}

/-- A number is read at any place, also at the end of the code. -/
theorem Chunk.readUvarint_of_at (hv : v.Lawful) (h : At c.code idx (v.encode x)) :
    c.readUvarint v idx = some (x, (v.encode x).length) := by
  have hpos := hv.length_pos x
  have hle := hv.length_le x
  have hlen := h.length_le (List.length_pos_iff.mp hpos)
  have hdrop := h.drop
  have hnot : ¬c.code.length ≤ idx := by omega
  rw [readUvarint, if_neg hnot, U64_VARINT_SIZE]
  split_ifs with hnine
  · rw [hdrop, List.take_append, List.take_of_length_le hle]
    rw [hv.decode_encode]
    rw [List.length_append, List.length_take, List.length_drop]
    omega
  · rw [hdrop, List.append_assoc, hv.decode_encode]
    rw [List.length_append, List.length_append, List.length_drop, List.length_replicate]
    omega

theorem Chunk.readU16_of_at {x : UInt16} (h : At c.code idx (leBytes 2 x.toNat)) :
    c.readU16 idx = some x := by
  have hlen := h.length_le (by simp [leBytes])
  rw [length_leBytes] at hlen
  have htake : (c.code.drop idx).take 2 = leBytes 2 x.toNat := by
    rw [h.drop, List.take_append_of_le_length (by rw [length_leBytes]), List.take_of_length_le]
    rw [length_leBytes]
  rw [readU16, if_neg (by omega), htake, leValue_leBytes x.toNat_lt, UInt16.ofNat_toNat]

/-- Numbers one after the other are skipped. -/
theorem Chunk.skipUvarints_of_at (hv : v.Lawful) {l : List UInt64}
    (h : At c.code idx (l.flatMap v.encode)) :
    c.skipUvarints v l.length idx = some (idx + (l.flatMap v.encode).length) := by
  induction l generalizing idx with
  | nil => rfl
  | cons x l ih =>
    rw [List.flatMap_cons] at h ⊢
    obtain ⟨hx, hl⟩ := at_append_iff.mp h
    simp only [List.length_cons, skipUvarints, readUvarint_of_at hv hx, Option.bind_eq_bind,
      Option.bind_some, ih hl, List.length_append, Nat.add_assoc]

namespace BytecodeFrame

theorem readUvarint_of_at (hv : v.Lawful) (h : At c.code idx (v.encode x)) :
    readUvarint v ⟨c, idx⟩ = some (x, ⟨c, idx + (v.encode x).length⟩) := by
  rw [readUvarint, Chunk.readUvarint_of_at hv h]
  rfl

theorem readPositions_of_at (hv : v.Lawful) {captures : List Capture}
    (hidx : ∀ u ∈ captures, u.idx.toNat < 2 ^ 62)
    (h : At c.code idx ((captures.map Position.ofCapture).flatMap v.encode)) :
    readPositions v captures.length ⟨c, idx⟩ = some (captures,
      ⟨c, idx + ((captures.map Position.ofCapture).flatMap v.encode).length⟩) := by
  induction captures generalizing idx with
  | nil => rfl
  | cons u captures ih =>
    rw [List.map_cons, List.flatMap_cons] at h ⊢
    obtain ⟨hu, hrest⟩ := at_append_iff.mp h
    have hcapture := Position.capture?_ofCapture (hidx u List.mem_cons_self)
    have hread := ih (fun u hu => hidx u (List.mem_cons_of_mem _ hu)) hrest
    simp only [List.length_cons, readPositions, readUvarint_of_at hv hu, Option.bind_eq_bind,
      Option.bind_some, hcapture, hread, List.length_append, Nat.add_assoc]

end BytecodeFrame

end Snix.Eval
