import Snix.Eval.Chunk

/-!
# What the compiler emits

The compiler appends one instruction after the other to a chunk. Jumps are emitted with zero as
their operand and patched when their target is known, a closure is first emitted as one that needs
a thunk, and a constant may be replaced by an attribute that is selected from it. The machine, the
disassembler and the count of instructions each know the operands of every operation by themselves.

## Main definitions

- `Instr.bytes` — an instruction as it is emitted
- `Emitted` — the chunks that are emitted, with their instructions

## Main results

- `Emitted.code_eq` — the bytes of a chunk are those of its instructions
- `fetch_of_at`, `disassembleOp_of_at`, `opLen_of_at` — what is read of one instruction
- `decoders_agree` — all of them see the instructions that were emitted
-/

namespace Snix.Eval

open Chunk

-- ====================
-- Instructions
-- ====================

namespace Instr

variable (v : Vu128)

/-- The numbers that tell what is captured. -/
def upvalueData (capturesWith : Bool) (upvalues : List Capture) : List UInt64 :=
  UpvalueData.new upvalues.length capturesWith :: upvalues.map Position.ofCapture

/-- The operation, and the numbers that are its operands. -/
def op : Instr → Op
  | .plain op | .uvarint op _ | .fixed op _ | .capture op _ _ _ => op
  | .coerce _ => .coerceToString

/-- The bytes after that of the operation. -/
def operands : Instr → Bytes
  | .plain _ => []
  | .uvarint _ x => v.encode x
  | .fixed _ x => leBytes 2 x.toNat
  | .coerce kind => [kind.toByte]
  | .capture _ idx capturesWith upvalues =>
    (idx :: upvalueData capturesWith upvalues).flatMap v.encode

def bytes (i : Instr) : Bytes := i.op.toByte :: i.operands v

def size (i : Instr) : ℕ := (i.bytes v).length

/-- The operands are those of the operation. The indices of what is captured are indices into
    vectors of locals and of upvalues, so there is room for two bits next to them. -/
def WellFormed (constants : List Value) : Instr → Prop
  | .plain op => op.argType = .none ∧ op ≠ .invalid
  | .uvarint op x => op.argType = .uvarint ∧ (op = .constant → x.toNat < constants.length)
  | .fixed op _ => op.argType = .fixed
  | .coerce _ => True
  | .capture op idx _ upvalues =>
    (op = .closure ∨ op = .thunkClosure ∨ op = .thunkSuspended) ∧
      (∃ p, constants[idx.toNat]? = some (.blueprint p)) ∧
      upvalues.length < 2 ^ 63 ∧ ∀ u ∈ upvalues, u.idx.toNat < 2 ^ 62

/-- What the disassembler is to show. -/
def shown (constants : List Value) : Instr → Shown
  | .plain op => .op op
  | .uvarint op x => .arg op x (if op = .constant then constants[x.toNat]? else none)
  | .fixed op x => .jump op x
  | .coerce kind => .kind .coerceToString kind
  | .capture op idx capturesWith upvalues => .blueprint op idx capturesWith upvalues.length

/-- The numbers of variable length that are operands. -/
def numbers : Instr → List UInt64
  | .uvarint _ x => [x]
  | .capture _ idx capturesWith upvalues => idx :: upvalueData capturesWith upvalues
  | _ => []

end Instr

variable {v : Vu128} {c : Chunk} {idx : ℕ} {i : Instr}

open Instr

/-- The machine reads an instruction, and goes on with the one after it. -/
theorem fetch_of_at (hv : v.Lawful) (h : At c.code idx (i.bytes v)) (hi : i.WellFormed c.constants) :
    BytecodeFrame.fetch v ⟨c, idx⟩ = some (i, ⟨c, idx + i.size v⟩) := by
  obtain ⟨hop, hargs⟩ := at_cons_iff.mp h
  have hinc : BytecodeFrame.incIp ⟨c, idx⟩ = some (i.op, ⟨c, idx + 1⟩) := by
    rw [BytecodeFrame.incIp, hop, Option.bind_eq_bind, Option.bind_some, Op.ofByte_toByte]
  rw [BytecodeFrame.fetch, hinc]
  simp only [Option.bind_eq_bind, Option.bind_some]
  cases i with
  | plain op =>
    obtain ⟨hkind, hinvalid⟩ := hi
    cases op <;> first | rfl | exact absurd hkind (by decide) | exact absurd rfl hinvalid
  | uvarint op x =>
    obtain ⟨hkind, hconstant⟩ := hi
    have hread := BytecodeFrame.readUvarint_of_at hv hargs
    have hsize : idx + 1 + (v.encode x).length = idx + (uvarint op x).size v := by
      rw [Nat.add_assoc, Nat.add_comm 1]
      rfl
    rw [hsize] at hread
    cases op
    case constant =>
      have hget := List.getElem?_eq_getElem (hconstant rfl)
      simp only [Instr.op, hread, Option.bind_some, hget]
    all_goals first
      | exact absurd hkind (by decide)
      | simp only [Instr.op, hread, Option.bind_some]
  | fixed op x =>
    have hkind : op.argType = .fixed := hi
    have hread := readU16_of_at hargs
    cases op <;> first
      | exact absurd hkind (by decide)
      | simp only [Instr.op, BytecodeFrame.readU16, hread, Option.bind_eq_bind, Option.bind_some]
        rfl
  | coerce kind =>
    have hbyte := (at_cons_iff.mp hargs).1
    simp only [Instr.op, hbyte, Option.bind_some, CoercionKind.ofByte_toByte]
    rfl
  | capture op bp w ups =>
    obtain ⟨hkind, ⟨p, hp⟩, hlen, hidx⟩ := hi
    rw [operands, List.flatMap_cons, upvalueData, List.flatMap_cons] at hargs
    obtain ⟨hbp, hargs⟩ := at_append_iff.mp hargs
    obtain ⟨hdata, hups⟩ := at_append_iff.mp hargs
    have hpopulate := BytecodeFrame.readPositions_of_at hv hidx hups
    have hsize : idx + 1 + (v.encode bp).length + (v.encode (UpvalueData.new ups.length w)).length +
        ((ups.map Position.ofCapture).flatMap v.encode).length =
          idx + (capture op bp w ups).size v := by
      simp only [size, bytes, operands, upvalueData, List.flatMap_cons, List.length_cons,
        List.length_append]
      omega
    obtain rfl | rfl | rfl := hkind
    all_goals
      simp only [Instr.op, BytecodeFrame.readUvarint_of_at hv hbp, Option.bind_some, hp,
        BytecodeFrame.populateUpvalues, Option.bind_eq_bind,
        BytecodeFrame.readUvarint_of_at hv hdata, UpvalueData.count_new hlen,
        UpvalueData.capturesWith_new hlen, hpopulate, hsize]

/-- The numbers of a blueprint and of what is captured for it are read and skipped. -/
theorem read_capture_of_at (hv : v.Lawful) {op : Op} {bp : UInt64} {w : Bool} {ups : List Capture}
    (h : At c.code (idx + 1) ((capture op bp w ups).operands v)) :
    c.readUvarint v (idx + 1) = some (bp, (v.encode bp).length) ∧
    c.readUvarint v (idx + 1 + (v.encode bp).length) = some (UpvalueData.new ups.length w,
      (v.encode (UpvalueData.new ups.length w)).length) ∧
    c.skipUvarints v ups.length
      (idx + 1 + (v.encode bp).length + (v.encode (UpvalueData.new ups.length w)).length) =
        some (idx + (capture op bp w ups).size v) := by
  rw [operands, List.flatMap_cons, upvalueData, List.flatMap_cons] at h
  obtain ⟨hbp, h⟩ := at_append_iff.mp h
  obtain ⟨hdata, hups⟩ := at_append_iff.mp h
  refine ⟨readUvarint_of_at hv hbp, readUvarint_of_at hv hdata, ?_⟩
  have hskip := skipUvarints_of_at hv hups
  rw [List.length_map] at hskip
  rw [hskip]
  simp only [size, bytes, operands, upvalueData, List.flatMap_cons, List.length_cons,
    List.length_append]
  congr 1
  omega

/-- The disassembler shows an instruction, and knows its size. -/
theorem disassembleOp_of_at (hv : v.Lawful) (h : At c.code idx (i.bytes v))
    (hi : i.WellFormed c.constants) :
    c.disassembleOp v idx = some (i.shown c.constants, i.size v) := by
  obtain ⟨hop, hargs⟩ := at_cons_iff.mp h
  rw [disassembleOp, hop]
  simp only [Option.bind_eq_bind, Option.bind_some, Op.ofByte_toByte]
  cases i with
  | plain op =>
    simp only [Instr.op, hi.1]
    rfl
  | uvarint op x =>
    obtain ⟨hkind, hconstant⟩ := hi
    simp only [Instr.op, hkind, readUvarint_of_at hv hargs, Option.bind_some, shown, size, bytes,
      operands, List.length_cons, Nat.add_comm 1]
    split_ifs with hop
    · have hget := List.getElem?_eq_getElem (hconstant hop)
      simp only [hget, Option.bind_some]
    · rfl
  | fixed op x =>
    have hkind : op.argType = .fixed := hi
    simp only [Instr.op, hkind, readU16_of_at hargs, Option.bind_some]
    rfl
  | coerce kind =>
    have hbyte := (at_cons_iff.mp hargs).1
    simp only [Instr.op, Op.argType, hbyte, Option.bind_some, CoercionKind.ofByte_toByte]
    rfl
  | capture op bp w ups =>
    obtain ⟨hkind, -, hlen, -⟩ := hi
    obtain ⟨hbp, hdata, hskip⟩ := read_capture_of_at hv hargs
    have hcount : (UpvalueData.new ups.length w >>> 1).toNat = ups.length :=
      UpvalueData.count_new hlen w
    have hwith : (UpvalueData.new ups.length w &&& 0b1 == 1) = w :=
      UpvalueData.capturesWith_new hlen w
    obtain rfl | rfl | rfl := hkind
    all_goals
      simp only [Instr.op, Op.argType, hbp, hdata, hcount, hwith, hskip, Option.bind_some,
        Nat.add_sub_cancel_left]
      rfl

/-- The count of instructions knows the size of an instruction. -/
theorem opLen_of_at (hv : v.Lawful) (h : At c.code idx (i.bytes v))
    (hi : i.WellFormed c.constants) : c.opLen v idx = some (i.size v) := by
  obtain ⟨hop, hargs⟩ := at_cons_iff.mp h
  rw [opLen, hop]
  simp only [Option.bind_eq_bind, Option.bind_some, Op.ofByte_toByte]
  cases i with
  | plain op =>
    simp only [Instr.op, hi.1]
    rfl
  | uvarint op x =>
    simp only [Instr.op, hi.1, readUvarint_of_at hv hargs, Option.bind_some]
    rfl
  | fixed op x =>
    have hkind : op.argType = .fixed := hi
    simp only [Instr.op, hkind]
    rfl
  | coerce kind => rfl
  | capture op bp w ups =>
    obtain ⟨hkind, -, hlen, -⟩ := hi
    obtain ⟨hbp, hdata, hskip⟩ := read_capture_of_at hv hargs
    have hcount : (UpvalueData.new ups.length w >>> 1).toNat = ups.length :=
      UpvalueData.count_new hlen w
    obtain rfl | rfl | rfl := hkind
    all_goals
      simp only [Instr.op, Op.argType, ← Nat.add_assoc, hbp, hdata, hcount, hskip,
        Option.bind_some, Nat.add_sub_cancel_left]

/-- Constants may be added, and those that are no blueprints replaced. -/
def Extends (constants constants' : List Value) : Prop :=
  constants.length ≤ constants'.length ∧
    ∀ (k p : ℕ), constants[k]? = some (Value.blueprint p) → constants'[k]? = some (Value.blueprint p)

theorem Extends.refl (constants : List Value) : Extends constants constants :=
  ⟨Nat.le_refl _, fun _ _ h => h⟩

theorem Extends.append (constants : List Value) (value : Value) :
    Extends constants (constants ++ [value]) := by
  refine ⟨by simp, fun k p h => ?_⟩
  obtain ⟨hk, -⟩ := List.getElem?_eq_some_iff.mp h
  rw [List.getElem?_append_left hk, h]

theorem Extends.set {constants : List Value} {k : ℕ} {attrs : AttrsRep Value}
    (h : constants[k]? = some (.attrs attrs)) (value : Value) :
    Extends constants (constants.set k value) := by
  refine ⟨by simp, fun j p hj => ?_⟩
  have hne : k ≠ j := by
    rintro rfl
    rw [h] at hj
    cases hj
  rw [List.getElem?_set_ne hne, hj]

theorem Instr.WellFormed.extends {constants constants' : List Value}
    (h : i.WellFormed constants) (hext : Extends constants constants') :
    i.WellFormed constants' := by
  cases i with
  | plain op => exact h
  | uvarint op x => exact ⟨h.1, fun hop => Nat.lt_of_lt_of_le (h.2 hop) hext.1⟩
  | fixed op x => exact h
  | coerce kind => exact h
  | capture op bp w ups =>
    obtain ⟨hop, ⟨p, hp⟩, hrest⟩ := h
    exact ⟨hop, ⟨p, hext.2 _ _ hp⟩, hrest⟩

-- ====================
-- The compiler
-- ====================

namespace Chunk

variable (v : Vu128)

def emitConstant (c : Chunk) (value : Value) : Chunk :=
  let (c, idx) := c.pushConstant value
  (c.pushOp .constant).pushUvarint v idx

def emitUpvalueData (c : Chunk) (upvalues : List Capture) (captureWith : Bool) : Chunk :=
  upvalues.foldl (fun c u => c.pushUvarint v (Position.ofCapture u))
    (c.pushUvarint v (UpvalueData.new upvalues.length captureWith))

/-- The code of a thunk or a function is a constant, from which a value is made with its upvalues. -/
def emitBlueprint (c : Chunk) (op : Op) (lambda : ℕ) (upvalues : List Capture)
    (captureWith : Bool) : Chunk :=
  let (c, idx) := c.pushConstant (.blueprint lambda)
  emitUpvalueData v ((c.pushOp op).pushUvarint v idx) upvalues captureWith

/-- A set that is the last constant is replaced by the attribute that a path selects from it.
    Whether it was is told. -/
def optimiseSelect (c : Chunk) (select : AttrsRep Value → Option Value) : Option (Chunk × Bool) :=
  match c.lastOp? with
  | some (.constant, opIdx) => do
    let (idx, _) ← c.readUvarint v (opIdx + 1)
    match ← c.constants[idx.toNat]? with
    | .attrs attrs =>
      match select attrs with
      | some selected => some ({ c with constants := c.constants.set idx.toNat selected }, true)
      | none => some (c, false)
    | _ => some (c, false)
  | _ => some (c, false)

end Chunk

namespace Bytecode

/-- The chunks that the compiler may have emitted at some point, with their instructions. There are
    fewer constants and fewer captured values than a vector has room for. -/
inductive Emitted (v : Vu128) : Chunk → List Instr → Prop
  | empty : Emitted v Chunk.empty []
  | plain {c : Chunk} {l : List Instr} {op : Op} (h : Emitted v c l) (hkind : op.argType = .none)
      (hvalid : op ≠ .invalid) : Emitted v (c.pushOp op) (l ++ [.plain op])
  | uvarint {c : Chunk} {l : List Instr} {op : Op} (h : Emitted v c l)
      (hkind : op.argType = .uvarint) (hconstant : op ≠ .constant) (x : UInt64) :
      Emitted v ((c.pushOp op).pushUvarint v x) (l ++ [.uvarint op x])
  | constant {c : Chunk} {l : List Instr} (h : Emitted v c l) (hlen : c.constants.length < 2 ^ 64)
      (value : Value) : Emitted v (c.emitConstant v value)
        (l ++ [.uvarint .constant (UInt64.ofNat c.constants.length)])
  /-- A constant without an instruction, as for a blueprint in code that is never run. -/
  | dead {c : Chunk} {l : List Instr} (h : Emitted v c l) (value : Value) :
      Emitted v (c.pushConstant value).1 l
  /-- A constant that is there already. This is how the call of a function that is suspended is
      written. -/
  | refer {c : Chunk} {l : List Instr} {idx : UInt64} (h : Emitted v c l)
      (hidx : idx.toNat < c.constants.length) :
      Emitted v ((c.pushOp .constant).pushUvarint v idx) (l ++ [.uvarint .constant idx])
  | jump {c : Chunk} {l : List Instr} {op : Op} (h : Emitted v c l) (hkind : op.argType = .fixed) :
      Emitted v ((c.pushOp op).pushU16 0) (l ++ [.fixed op 0])
  /-- The jump goes over the instructions that were emitted after it, if two bytes are enough. -/
  | patch {c c' : Chunk} {front back : List Instr} {op : Op} {x : UInt16}
      (h : Emitted v c (front ++ .fixed op x :: back))
      (hpatch : c.patchJump (extent (size v) front) = some c') :
      Emitted v c' (front ++ .fixed op (UInt16.ofNat (extent (size v) back)) :: back)
  | coerce {c : Chunk} {l : List Instr} (h : Emitted v c l) (kind : CoercionKind) :
      Emitted v ((c.pushOp .coerceToString).pushU8 kind.toByte) (l ++ [.coerce kind])
  | capture {c : Chunk} {l : List Instr} {op : Op} {upvalues : List Capture} (h : Emitted v c l)
      (hop : op = .thunkSuspended ∨ op = .thunkClosure) (hlen : c.constants.length < 2 ^ 64)
      (hcount : upvalues.length < 2 ^ 63) (hidx : ∀ u ∈ upvalues, u.idx.toNat < 2 ^ 62)
      (lambda : ℕ) (captureWith : Bool) :
      Emitted v (c.emitBlueprint v op lambda upvalues captureWith)
        (l ++ [.capture op (UInt64.ofNat c.constants.length) captureWith upvalues])
  /-- A function that does not refer to itself. -/
  | closure {c : Chunk} {front back : List Instr} {bp : UInt64} {captureWith : Bool}
      {upvalues : List Capture}
      (h : Emitted v c (front ++ .capture .thunkClosure bp captureWith upvalues :: back)) :
      Emitted v { c with code := c.code.set (extent (size v) front) Op.closure.toByte }
        (front ++ .capture .closure bp captureWith upvalues :: back)
  | select {c c' : Chunk} {l : List Instr} {select : AttrsRep Value → Option Value} {done : Bool}
      (h : Emitted v c l) (hselect : c.optimiseSelect v select = some (c', done)) : Emitted v c' l

-- ====================
-- Chunks and their instructions
-- ====================

/-- The chunk consists of the instructions. -/
structure Holds (v : Vu128) (c : Chunk) (l : List Instr) : Prop where
  code_eq : c.code = l.flatMap (bytes v)
  wellFormed : ∀ i ∈ l, i.WellFormed c.constants
  lastOp_eq : c.lastOp = (l.map (size v)).dropLast.sum

variable {c' : Chunk} {l front back : List Instr}

theorem length_flatMap_bytes (l : List Instr) : (l.flatMap (bytes v)).length = extent (size v) l := by
  rw [List.length_flatMap]
  rfl

theorem Holds.length_code (h : Holds v c l) : c.code.length = extent (size v) l := by
  rw [h.code_eq, length_flatMap_bytes]

theorem Holds.code_ne_nil (h : Holds v c l) (hne : l ≠ []) : c.code ≠ [] := by
  obtain ⟨i, l, rfl⟩ := List.exists_cons_of_ne_nil hne
  rw [h.code_eq]
  exact List.cons_ne_nil _ _

/-- One more instruction. -/
theorem Holds.append (h : Holds v c l) (hcode : c'.code = c.code ++ i.bytes v)
    (hlast : c'.lastOp = c.code.length) (hext : Extends c.constants c'.constants)
    (hi : i.WellFormed c'.constants) : Holds v c' (l ++ [i]) where
  code_eq := by
    rw [hcode, h.code_eq, List.flatMap_append, List.flatMap_singleton]
  wellFormed j hj := by
    obtain hj | hj := List.mem_append.mp hj
    · exact (h.wellFormed j hj).extends hext
    · exact List.mem_singleton.mp hj ▸ hi
  lastOp_eq := by
    rw [hlast, h.length_code, List.map_append, List.map_singleton, List.dropLast_concat]
    rfl

/-- Another instruction of the same size. -/
theorem Holds.replace {j : Instr} (h : Holds v c (front ++ i :: back))
    (hcode : c'.code = (front ++ j :: back).flatMap (bytes v)) (hlast : c'.lastOp = c.lastOp)
    (hconstants : c'.constants = c.constants) (hsize : j.size v = i.size v)
    (hj : j.WellFormed c.constants) : Holds v c' (front ++ j :: back) where
  code_eq := hcode
  wellFormed k hk := by
    rw [hconstants]
    obtain hk | hk := List.mem_append.mp hk
    · exact h.wellFormed k (List.mem_append_left _ hk)
    · obtain rfl | hk := List.mem_cons.mp hk
      · exact hj
      · exact h.wellFormed k (List.mem_append_right _ (List.mem_cons_of_mem _ hk))
  lastOp_eq := by
    rw [hlast, h.lastOp_eq, List.map_append, List.map_append, List.map_cons, List.map_cons, hsize]

theorem bytes_flatMap_split : (front ++ i :: back).flatMap (bytes v) =
    front.flatMap (bytes v) ++ i.op.toByte :: (i.operands v ++ back.flatMap (bytes v)) := by
  rw [List.flatMap_append, List.flatMap_cons, bytes, List.cons_append]

/-- A jump is patched where it is, with the number of the bytes after it. -/
theorem Holds.patch {op : Op} {x : UInt16} (h : Holds v c (front ++ .fixed op x :: back))
    (hpatch : c.patchJump (extent (size v) front) = some c') :
    Holds v c' (front ++ .fixed op (UInt16.ofNat (extent (size v) back)) :: back) := by
  have hlen : ∀ x : UInt16, (leBytes 2 x.toNat).length = 2 := fun x => length_leBytes 2 _
  have hcode := h.code_eq
  rw [bytes_flatMap_split, operands] at hcode
  have hfront := length_flatMap_bytes (v := v) front
  have hback := length_flatMap_bytes (v := v) back
  have htotal : c.code.length - extent (size v) front - 1 - 2 = extent (size v) back := by
    rw [hcode, List.length_append, List.length_cons, List.length_append, hlen, hfront, hback]
    omega
  have htake : c.code.take (extent (size v) front + 1) = front.flatMap (bytes v) ++ [op.toByte] := by
    rw [hcode, ← hfront, List.append_cons, List.take_left' (by simp)]
    rfl
  have hdrop : c.code.drop (extent (size v) front + 3) = back.flatMap (bytes v) := by
    rw [hcode, ← hfront, ← List.cons_append, ← List.append_assoc, List.drop_left' (by simp [hlen])]
  unfold patchJump at hpatch
  split_ifs at hpatch
  obtain rfl := Option.some.inj hpatch
  have hjump : (fixed op x).WellFormed c.constants :=
    h.wellFormed _ (List.mem_append_right _ List.mem_cons_self)
  refine h.replace ?_ rfl rfl ?_ hjump
  · simp only [htotal, htake, hdrop, bytes_flatMap_split, operands, Instr.op, List.append_assoc,
      List.cons_append, List.nil_append]
  · simp only [size, bytes, operands, List.length_cons, hlen]

/-- The operation of a closure is put in place of the one that needs a thunk. -/
theorem Holds.closure {bp : UInt64} {captureWith : Bool} {upvalues : List Capture}
    (h : Holds v c (front ++ .capture .thunkClosure bp captureWith upvalues :: back)) :
    Holds v { c with code := c.code.set (extent (size v) front) Op.closure.toByte }
      (front ++ .capture .closure bp captureWith upvalues :: back) := by
  obtain ⟨-, hrest⟩ := h.wellFormed _ (List.mem_append_right _ List.mem_cons_self)
  refine h.replace ?_ rfl rfl rfl ⟨.inl rfl, hrest⟩
  rw [h.code_eq, bytes_flatMap_split, bytes_flatMap_split, ← length_flatMap_bytes,
    List.set_append_right _ _ (Nat.le_refl _), Nat.sub_self, List.set_cons_zero]
  rfl

theorem emitUpvalueData_eq (c : Chunk) (upvalues : List Capture) (captureWith : Bool) :
    c.emitUpvalueData v upvalues captureWith =
      { c with code := c.code ++ (upvalueData captureWith upvalues).flatMap v.encode } := by
  have hfold : ∀ (l : List Capture) (c : Chunk),
      l.foldl (fun c u => c.pushUvarint v (Position.ofCapture u)) c =
        { c with code := c.code ++ (l.map Position.ofCapture).flatMap v.encode } := by
    intro l
    induction l with
    | nil =>
      intro c
      simp
    | cons u l ih =>
      intro c
      rw [List.foldl_cons, ih]
      simp [pushUvarint]
  rw [emitUpvalueData, hfold, pushUvarint, upvalueData, List.flatMap_cons, List.append_assoc]

/-- The last constant is replaced if it is a set, and nothing else changes. -/
theorem Holds.select {select : AttrsRep Value → Option Value} {done : Bool} (h : Holds v c l)
    (hselect : c.optimiseSelect v select = some (c', done)) : Holds v c' l := by
  have hcases : c' = c ∨ ∃ k attrs value, c.constants[k]? = some (.attrs attrs) ∧
      c' = { c with constants := c.constants.set k value } := by
    unfold optimiseSelect at hselect
    split at hselect
    · obtain ⟨⟨idx, n⟩, -, hselect⟩ := Option.bind_eq_some_iff.mp hselect
      obtain ⟨constant, hconstant, hselect⟩ := Option.bind_eq_some_iff.mp hselect
      cases constant with
      | attrs attrs =>
        cases hattr : select attrs with
        | none =>
          simp only [hattr] at hselect
          exact .inl (Prod.mk.inj (Option.some.inj hselect)).1.symm
        | some value =>
          simp only [hattr] at hselect
          exact .inr ⟨_, attrs, value, hconstant, (Prod.mk.inj (Option.some.inj hselect)).1.symm⟩
      | _ => exact .inl (Prod.mk.inj (Option.some.inj hselect)).1.symm
    · exact .inl (Prod.mk.inj (Option.some.inj hselect)).1.symm
  obtain rfl | ⟨k, attrs, value, hattrs, rfl⟩ := hcases
  · exact h
  · exact ⟨h.code_eq, fun i hi => (h.wellFormed i hi).extends (.set hattrs value), h.lastOp_eq⟩

theorem Emitted.holds (h : Emitted v c l) : Holds v c l := by
  induction h with
  | empty => exact ⟨rfl, nofun, rfl⟩
  | plain h hkind hvalid ih => exact ih.append rfl rfl (.refl _) ⟨hkind, hvalid⟩
  | uvarint h hkind hconstant x ih =>
    exact ih.append (List.append_assoc ..) rfl (.refl _) ⟨hkind, fun he => absurd he hconstant⟩
  | @constant c l h hlen value ih =>
    refine ih.append (List.append_assoc ..) rfl (.append _ value) ⟨rfl, fun _ => ?_⟩
    rw [UInt64.toNat_ofNat_of_lt' hlen]
    simp [emitConstant, pushConstant, pushOp, pushUvarint]
  | refer h hidx ih => exact ih.append (List.append_assoc ..) rfl (.refl _) ⟨rfl, fun _ => hidx⟩
  | dead h value ih =>
    exact ⟨ih.code_eq, fun i hi => (ih.wellFormed i hi).extends (.append _ _), ih.lastOp_eq⟩
  | jump h hkind ih => exact ih.append (List.append_assoc ..) rfl (.refl _) hkind
  | patch h hpatch ih => exact ih.patch hpatch
  | coerce h kind ih => exact ih.append (List.append_assoc ..) rfl (.refl _) trivial
  | @capture c l op upvalues h hop hlen hcount hidx lambda captureWith ih =>
    have hemit := emitUpvalueData_eq (v := v)
      (((c.pushConstant (.blueprint lambda)).1.pushOp op).pushUvarint v
        (UInt64.ofNat c.constants.length)) upvalues captureWith
    refine ih.append ?_ ?_ ?_ ⟨.inr hop.symm, ⟨lambda, ?_⟩, hcount, hidx⟩
    all_goals
      simp only [emitBlueprint, pushConstant] at hemit ⊢
      rw [hemit]
    · simp [pushOp, pushUvarint, bytes, Instr.op, operands]
    · rfl
    · exact .append _ _
    · rw [UInt64.toNat_ofNat_of_lt' hlen]
      simp [pushOp, pushUvarint]
  | closure h ih => exact ih.closure
  | select h hselect ih => exact ih.select hselect

-- ====================
-- The decoders
-- ====================

theorem size_pos (i : Instr) : 0 < i.size v := Nat.succ_pos _

/-- An instruction is found where the layout has it, and is a good one. -/
theorem Holds.at_of_mem (h : Holds v c l) (hi : (idx, i) ∈ layout (size v) 0 l) :
    At c.code idx (i.bytes v) ∧ i.WellFormed c.constants := by
  have hall := at_zero c.code
  nth_rewrite 2 [h.code_eq] at hall
  exact ⟨hall.of_mem_layout (bytes v) (fun _ _ => rfl) hi, h.wellFormed i (snd_mem_of_mem_layout hi)⟩

theorem Holds.at_extent (h : Holds v c (front ++ i :: back)) :
    At c.code (extent (size v) front) (i.bytes v) ∧ i.WellFormed c.constants := by
  refine h.at_of_mem ?_
  rw [layout_append, Nat.zero_add]
  exact List.mem_append_right _ List.mem_cons_self

theorem extent_concat (front : List Instr) (i : Instr) :
    extent (size v) (front ++ [i]) = extent (size v) front + i.size v := by
  rw [extent_append, extent_cons, extent_nil, Nat.add_zero]

/-- The disassembler shows the rest of a chunk. By induction on the instructions of the rest. -/
theorem Holds.disassembleFrom_eq (hv : v.Lawful) (h : Holds v c (front ++ back)) {n : ℕ}
    (hn : extent (size v) back < n) :
    c.disassembleFrom v n (extent (size v) front) =
      some ((layout (size v) (extent (size v) front) back).map fun p =>
        (p.1, p.2.shown c.constants)) := by
  have hlen := h.length_code
  induction back generalizing front n with
  | nil =>
    obtain _ | n := n
    · cases hn
    · have hend : ¬extent (size v) front < c.code.length := by
        rw [hlen, List.append_nil]
        exact Nat.lt_irrefl _
      rw [disassembleFrom, if_neg hend]
      rfl
  | cons i back ih =>
    obtain _ | n := n
    · cases hn
    · have hpos := size_pos (v := v) i
      rw [extent_cons] at hn
      have hlt : extent (size v) front < c.code.length := by
        rw [hlen, extent_append, extent_cons]
        omega
      obtain ⟨hat, hwf⟩ := h.at_extent
      rw [List.append_cons] at h hlen
      have hrest := ih h (n := n) (by omega) hlen
      rw [extent_concat] at hrest
      rw [disassembleFrom, if_pos hlt, disassembleOp_of_at hv hat hwf]
      simp only [Option.bind_eq_bind, Option.bind_some, hrest]
      rfl

/-- The instructions of the rest are counted up to the last one. -/
theorem Holds.countFrom_eq (hv : v.Lawful) (h : Holds v c (front ++ back)) (hne : front ++ back ≠ [])
    {n : ℕ} (hn : extent (size v) back < n) (count : ℕ) :
    c.countFrom v n (extent (size v) front) count = some (count + back.length) := by
  have hlast := h.lastOp_eq
  induction back generalizing front n count with
  | nil =>
    obtain _ | n := n
    · cases hn
    · have hend : ¬extent (size v) front ≤ c.lastOp := by
        rw [List.append_nil] at hne hlast
        obtain ⟨front, i, rfl⟩ := List.eq_nil_or_concat front |>.resolve_left hne
        rw [List.concat_eq_append] at hlast ⊢
        rw [List.map_append, List.map_singleton, List.dropLast_concat] at hlast
        rw [extent_concat, hlast]
        exact Nat.not_le.mpr (Nat.lt_add_of_pos_right (size_pos i))
      rw [countFrom, if_neg hend]
      rfl
  | cons i back ih =>
    obtain _ | n := n
    · cases hn
    · have hpos := size_pos (v := v) i
      rw [extent_cons] at hn
      have hle : extent (size v) front ≤ c.lastOp := by
        rw [hlast, List.map_append, List.map_cons, List.dropLast_append_of_ne_nil (by simp),
          List.sum_append]
        exact Nat.le_add_right _ _
      obtain ⟨hat, hwf⟩ := h.at_extent
      rw [List.append_cons] at h hne hlast
      have hrest := ih h hne (n := n) (by omega) (count + 1) hlast
      rw [extent_concat] at hrest
      rw [countFrom, if_pos hle, opLen_of_at hv hat hwf]
      simp only [Option.bind_eq_bind, Option.bind_some, hrest, List.length_cons]
      congr 1
      omega

/-- The numbers of an instruction are read one after the other. -/
theorem readUvarint_of_mem (hv : v.Lawful) (h : At c.code idx (i.bytes v)) {off : ℕ} {x : UInt64}
    (hx : (off, x) ∈ layout (fun x => (v.encode x).length) (idx + 1) i.numbers) :
    c.readUvarint v off = some (x, (v.encode x).length) := by
  have hargs := (at_cons_iff.mp h).2
  have hnumbers : i.numbers = [] ∨ At c.code (idx + 1) (i.numbers.flatMap v.encode) := by
    cases i with
    | uvarint op y =>
      rw [numbers, List.flatMap_singleton]
      exact .inr hargs
    | capture op bp w ups => exact .inr hargs
    | _ => exact .inl rfl
  obtain hnil | hnumbers := hnumbers
  · rw [hnil] at hx
    cases hx
  · exact readUvarint_of_at hv (hnumbers.of_mem_layout v.encode (fun _ _ => rfl) hx)

/-- In a chunk that is emitted, at the index of every instruction the machine reads the operation
    with its operands and goes on with the next instruction, the disassembler shows both and has the
    same size for them, and so has every number that is read by itself. The disassembler and the
    count of instructions meet all instructions, and no others. -/
theorem decoders_agree (hv : v.Lawful) (h : Emitted v c l) :
    c.code = l.flatMap (bytes v) ∧
    (∀ idx i, (idx, i) ∈ layout (size v) 0 l →
      BytecodeFrame.fetch v ⟨c, idx⟩ = some (i, ⟨c, idx + i.size v⟩) ∧
      c.disassembleOp v idx = some (i.shown c.constants, i.size v) ∧
      ∀ off x, (off, x) ∈ layout (fun x => (v.encode x).length) (idx + 1) i.numbers →
        c.readUvarint v off = some (x, (v.encode x).length)) ∧
    (l ≠ [] → c.disassembleChunk v =
      some ((layout (size v) 0 l).map fun p => (p.1, p.2.shown c.constants))) ∧
    c.opCount v = some l.length := by
  have hholds := h.holds
  have hall : Holds v c ([] ++ l) := hholds
  refine ⟨hholds.code_eq, fun idx i hi => ?_, fun hne => ?_, ?_⟩
  · obtain ⟨hat, hwf⟩ := hholds.at_of_mem hi
    exact ⟨fetch_of_at hv hat hwf, disassembleOp_of_at hv hat hwf, fun off x hx =>
      readUvarint_of_mem hv hat hx⟩
  · rw [disassembleChunk, if_neg (hholds.code_ne_nil hne)]
    rw [hholds.length_code]
    exact hall.disassembleFrom_eq hv (Nat.lt_succ_self _)
  · by_cases hne : l = []
    · subst hne
      have hcode : c.code = [] := hholds.code_eq
      rw [opCount, if_pos hcode]
      rfl
    · rw [opCount, if_neg (hholds.code_ne_nil hne), hholds.length_code]
      exact (hall.countFrom_eq hv hne (Nat.lt_succ_self _) 0).trans (by rw [Nat.zero_add])

/-- Small numbers in one byte, and all others in nine. -/
def shortOrFull : Vu128 where
  encode x := if x.toNat < 128 then [UInt8.ofNat x.toNat] else 0xF7 :: leBytes 8 x.toNat
  decode
    | [] => (0, 0)
    | b :: rest =>
      if b.toNat < 128 then (UInt64.ofNat b.toNat, 1)
      else (UInt64.ofNat (leValue (rest.take 8)), 9)

theorem shortOrFull_lawful : shortOrFull.Lawful where
  length_pos x := by
    simp only [shortOrFull]
    split_ifs <;> simp
  length_le x := by
    simp only [shortOrFull]
    split_ifs <;> simp
  decode_encode x rest hlen := by
    simp only [shortOrFull]
    split_ifs with h
    · have hbyte : (UInt8.ofNat x.toNat).toNat = x.toNat :=
        UInt8.toNat_ofNat_of_lt' (Nat.lt_trans h (by decide))
      rw [List.singleton_append]
      dsimp only
      rw [hbyte, if_pos h, UInt64.ofNat_toNat]
      rfl
    · have hvalue : leValue (leBytes 8 x.toNat) = x.toNat := leValue_leBytes x.toNat_lt
      rw [List.cons_append]
      dsimp only
      rw [if_neg (by decide), List.take_left' (length_leBytes 8 _), hvalue, UInt64.ofNat_toNat,
        List.length_cons, length_leBytes]

/-- A closure with two upvalues that a jump goes over, and a number at the end of the code. -/
theorem decoders_agree_closure :
    let c : Chunk := ⟨[45, 15, 5, 0, 42, 0, 5, 4, 9, 38, 7], [.blueprint 0], 9⟩
    c.disassembleChunk shortOrFull = some [(0, .op .force), (1, .jump .jumpIfFalse 5),
      (4, .blueprint .closure 0 true 2), (9, .arg .closeScope 7 none)] ∧
    BytecodeFrame.fetch shortOrFull ⟨c, 4⟩ =
      some (.capture .closure 0 true [.stack 1, .deferred 2], ⟨c, 9⟩) ∧
    c.readUvarint shortOrFull 10 = some (7, 1) := by
  intro c
  have hforce : Emitted shortOrFull _ [.plain .force] := .plain .empty rfl nofun
  have hjump : Emitted shortOrFull _ [.plain .force, .fixed .jumpIfFalse 0] := .jump hforce rfl
  have hthunk : Emitted shortOrFull _
      ([.plain .force, .fixed .jumpIfFalse 0] ++
        [.capture .thunkClosure 0 true [.stack 1, .deferred 2]]) :=
    .capture hjump (.inr rfl) (by decide) (by decide) (by decide) 0 true
  have hclosure : Emitted shortOrFull _
      ([.plain .force] ++ .fixed .jumpIfFalse 0 ::
        [.capture .closure 0 true [.stack 1, .deferred 2]]) := .closure hthunk
  have hpatch : Emitted shortOrFull _
      [.plain .force, .fixed .jumpIfFalse 5, .capture .closure 0 true [.stack 1, .deferred 2]] :=
    .patch hclosure rfl
  have hscope : Emitted shortOrFull c (_ ++ [.uvarint .closeScope 7]) :=
    .uvarint hpatch (rfl : Op.closeScope.argType = .uvarint) nofun 7
  obtain ⟨-, hall, hshown, -⟩ := decoders_agree shortOrFull_lawful hscope
  have hread := (hall 9 (.uvarint .closeScope 7) (by decide)).2.2 10 7 (by decide)
  exact ⟨hshown nofun, (hall 4 _ (by decide)).1, hread⟩

end Bytecode

end Snix.Eval
