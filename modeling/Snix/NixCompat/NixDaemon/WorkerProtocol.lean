import Snix.Lib.ByteReader
import Snix.Lib.ByteWriter

/-!
# The worker protocol

A client of the daemon names the operation it asks for by a number. `write_op` writes
the number most significant byte first, and `read_op` reads it least significant byte
first, as all the other numbers of the protocol: an operation that was written is
not read back.

## Main definitions

- `Operation` — the operations, and their numbers
- `writeOp`, `readOp` — writing and reading one
- `RoundTrips` — a sequence that is written is read back

## Main results

- `returns_writeOps`, `readOp_fails` — what is written, and what is read
- `roundTrips_iff` — only the empty sequence is read back
-/

namespace Snix.NixDaemon

inductive Operation where
  | isValidPath
  | hasSubstitutes
  | queryPathHash
  | queryReferences
  | queryReferrers
  | addToStore
  | addTextToStore
  | buildPaths
  | ensurePath
  | addTempRoot
  | addIndirectRoot
  | syncWithGC
  | findRoots
  | exportPath
  | queryDeriver
  | setOptions
  | collectGarbage
  | querySubstitutablePathInfo
  | queryDerivationOutputs
  | queryAllValidPaths
  | queryFailedPaths
  | clearFailedPaths
  | queryPathInfo
  | importPaths
  | queryDerivationOutputNames
  | queryPathFromHashPart
  | querySubstitutablePathInfos
  | queryValidPaths
  | querySubstitutablePaths
  | queryValidDerivers
  | optimiseStore
  | verifyStore
  | buildDerivation
  | addSignatures
  | narFromPath
  | addToStoreNar
  | queryMissing
  | queryDerivationOutputMap
  | registerDrvOutput
  | queryRealisation
  | addMultipleToStore
  | addBuildLog
  | buildPathsWithResults
  | addPermRoot
  deriving DecidableEq, Repr

namespace Operation

/-- The number of an operation. -/
def toU64 : Operation → ℕ
  | isValidPath => 1
  | hasSubstitutes => 3
  | queryPathHash => 4
  | queryReferences => 5
  | queryReferrers => 6
  | addToStore => 7
  | addTextToStore => 8
  | buildPaths => 9
  | ensurePath => 10
  | addTempRoot => 11
  | addIndirectRoot => 12
  | syncWithGC => 13
  | findRoots => 14
  | exportPath => 16
  | queryDeriver => 18
  | setOptions => 19
  | collectGarbage => 20
  | querySubstitutablePathInfo => 21
  | queryDerivationOutputs => 22
  | queryAllValidPaths => 23
  | queryFailedPaths => 24
  | clearFailedPaths => 25
  | queryPathInfo => 26
  | importPaths => 27
  | queryDerivationOutputNames => 28
  | queryPathFromHashPart => 29
  | querySubstitutablePathInfos => 30
  | queryValidPaths => 31
  | querySubstitutablePaths => 32
  | queryValidDerivers => 33
  | optimiseStore => 34
  | verifyStore => 35
  | buildDerivation => 36
  | addSignatures => 37
  | narFromPath => 38
  | addToStoreNar => 39
  | queryMissing => 40
  | queryDerivationOutputMap => 41
  | registerDrvOutput => 42
  | queryRealisation => 43
  | addMultipleToStore => 44
  | addBuildLog => 45
  | buildPathsWithResults => 46
  | addPermRoot => 47

def all : List Operation :=
  [isValidPath, hasSubstitutes, queryPathHash, queryReferences, queryReferrers, addToStore,
    addTextToStore, buildPaths, ensurePath, addTempRoot, addIndirectRoot, syncWithGC,
    findRoots, exportPath, queryDeriver, setOptions, collectGarbage,
    querySubstitutablePathInfo, queryDerivationOutputs, queryAllValidPaths, queryFailedPaths,
    clearFailedPaths, queryPathInfo, importPaths, queryDerivationOutputNames,
    queryPathFromHashPart, querySubstitutablePathInfos, queryValidPaths,
    querySubstitutablePaths, queryValidDerivers, optimiseStore, verifyStore, buildDerivation,
    addSignatures, narFromPath, addToStoreNar, queryMissing, queryDerivationOutputMap,
    registerDrvOutput, queryRealisation, addMultipleToStore, addBuildLog,
    buildPathsWithResults, addPermRoot]

/-- The operation with a number. -/
def tryFrom (n : ℕ) : Option Operation := all.find? (·.toU64 = n)

theorem toU64_lt (op : Operation) : 0 < op.toU64 ∧ op.toU64 < 48 := by
  cases op <;> decide

theorem tryFrom_toU64 (op : Operation) : tryFrom op.toU64 = some op := by
  cases op <;> rfl

theorem toU64_of_tryFrom {n : ℕ} {op : Operation} (h : tryFrom n = some op) : op.toU64 = n := by
  simpa using List.find?_some h

end Operation

-- ====================
-- Reading and writing
-- ====================

/-- Writes an operation: `write_u64` puts the most significant byte first. -/
def writeOp (k : ℕ) (op : Operation) : Prog WriteError AsyncSink Unit :=
  AsyncSink.writeAll k (bigEndian 8 op.toU64)

/-- Reads an operation: `read_u64_le` takes the first byte as the least significant one. -/
def readOp (k : ℕ) : Prog IoError AsyncStream Operation := do
  let buf ← readExact AsyncStream.read k 8
  match Operation.tryFrom (leValue buf) with
  | none => .fail .invalidData
  | some op => pure op

/-- Writes one operation after the other. -/
def writeOps (k : ℕ) : List Operation → Prog WriteError AsyncSink Unit
  | [] => pure ()
  | op :: ops => do
    writeOp k op
    writeOps k ops

/-- Reads as many operations. -/
def readOps (k : ℕ) : ℕ → Prog IoError AsyncStream (List Operation)
  | 0 => pure []
  | n + 1 => do
    let op ← readOp k
    let ops ← readOps k n
    pure (op :: ops)

/-- The bytes of a sequence of operations. -/
def opBytes (ops : List Operation) : Bytes := ops.flatMap fun op => bigEndian 8 op.toU64

/-- The sequence is written, and reading as many operations from a stream that starts
    with these bytes returns it and leaves what follows. -/
def RoundTrips (ops : List Operation) (w : AsyncSink) (answers : ℕ → Answer) (rest : Bytes) :
    Prop :=
  ∃ bytes w', Returns (fun k => writeOps k ops) w (.ok ((), w')) ∧
    w'.written = w.written ++ bytes ∧
    ∃ r', Returns (fun k => readOps k ops.length) ⟨bytes ++ rest, answers⟩ (.ok (ops, r')) ∧
      r'.rest = rest

theorem returns_writeOps (ops : List Operation) {w : AsyncSink} (hw : w.Steady) :
    ∃ w', w'.Steady ∧ w'.written = w.written ++ opBytes ops ∧
      Returns (fun k => writeOps k ops) w (.ok ((), w')) := by
  induction ops generalizing w with
  | nil => exact ⟨w, hw, (List.append_nil _).symm, .pure () w⟩
  | cons op ops ih =>
    obtain ⟨w₁, hw₁, hwritten₁, hret₁⟩ := AsyncSink.returns_writeAll (bigEndian 8 op.toU64) hw
    obtain ⟨w', hw', hwritten, hret⟩ := ih hw₁
    refine ⟨w', hw', ?_, hret₁.bind (f := fun _ k => writeOps k ops) hret⟩
    rw [hwritten, hwritten₁, opBytes, opBytes, List.flatMap_cons, List.append_assoc]

/-- The number that is read for the bytes of an operation is that of no operation. -/
theorem tryFrom_bigEndian (op : Operation) :
    Operation.tryFrom (leValue (bigEndian 8 op.toU64)) = none := by
  obtain ⟨hpos, hlt⟩ := op.toU64_lt
  have hvalue : op.toU64 ≤ leValue (bigEndian 8 op.toU64) / 256 ^ 7 := by
    rw [leValue_bigEndian_succ, Nat.add_mul_div_left _ _ (by decide), Nat.mod_eq_of_lt (by omega)]
    exact Nat.le_add_left _ _
  cases hop : Operation.tryFrom (leValue (bigEndian 8 op.toU64)) with
  | none => rfl
  | some op' =>
    have hsmall := op'.toU64_lt.2
    rw [Operation.toU64_of_tryFrom hop] at hsmall
    rw [Nat.div_eq_of_lt (by omega)] at hvalue
    omega

/-- An operation that was written is not read. -/
theorem readOp_fails {answers : ℕ → Answer} (op : Operation) (rest : Bytes)
    (hs : (AsyncStream.view fun _ : IoError => False).Valid ⟨bigEndian 8 op.toU64 ++ rest, answers⟩) :
    Returns readOp ⟨bigEndian 8 op.toU64 ++ rest, answers⟩ (.error .invalidData) := by
  have htake : takeExact IoError.unexpectedEof 8 (bigEndian 8 op.toU64 ++ rest) =
      .ok (bigEndian 8 op.toU64, rest) :=
    takeExact_eq_ok_iff.mpr ⟨rfl, length_bigEndian 8 _⟩
  have hread := agrees_readExact (AsyncStream.spec_read _) (d := IoError.unexpectedEof) id 8 hs
  rw [show (AsyncStream.view fun _ : IoError => False).rest
    ⟨bigEndian 8 op.toU64 ++ rest, answers⟩ = bigEndian 8 op.toU64 ++ rest from rfl, htake] at hread
  rcases hread with ⟨buf, s', hr, -, hret⟩ | ⟨d, e, hr, -, -⟩ | ⟨d, hr, -, -⟩
  · cases hr
    refine hret.bind (f := fun buf _ => match Operation.tryFrom (leValue buf) with
      | none => Prog.fail .invalidData
      | some op => pure op) ?_
    rw [tryFrom_bigEndian]
    exact .fail _ s'
  · cases hr
  · cases hr

theorem not_roundTrips_cons (op : Operation) (ops : List Operation) {w : AsyncSink} (hw : w.Steady)
    {answers : ℕ → Answer} (rest : Bytes) (hfair : AsyncStream.Fair ⟨rest, answers⟩)
    (hfaultless : AsyncStream.Faultless ⟨rest, answers⟩) :
    ¬ RoundTrips (op :: ops) w answers rest := by
  rintro ⟨bytes, w', hwrite, hwritten, r', hread, -⟩
  obtain ⟨w₁, -, hwritten₁, hret⟩ := returns_writeOps (op :: ops) hw
  cases hret.unique hwrite
  obtain rfl := List.append_cancel_left (hwritten.symm.trans hwritten₁)
  have hfail : Returns readOp ⟨bigEndian 8 op.toU64 ++ (opBytes ops ++ rest), answers⟩
      (.error .invalidData) := readOp_fails op _ ⟨hfaultless, hfair⟩
  have hbytes : opBytes (op :: ops) ++ rest = bigEndian 8 op.toU64 ++ (opBytes ops ++ rest) := by
    rw [opBytes, opBytes, List.flatMap_cons, List.append_assoc]
  rw [hbytes] at hread
  have hall := hfail.bind_error (f := fun op k => do
    let ops ← readOps k ops.length
    pure (op :: ops))
  cases hall.unique hread

/-- Only the empty sequence is read back, to whatever sink it is written and however the
    bytes arrive. -/
theorem roundTrips_iff (ops : List Operation) {w : AsyncSink} (hw : w.Steady)
    {answers : ℕ → Answer} (rest : Bytes) (hfair : AsyncStream.Fair ⟨rest, answers⟩)
    (hfaultless : AsyncStream.Faultless ⟨rest, answers⟩) :
    RoundTrips ops w answers rest ↔ ops = [] := by
  constructor
  · intro h
    cases ops with
    | nil => rfl
    | cons op ops => exact absurd h (not_roundTrips_cons op ops hw rest hfair hfaultless)
  · rintro rfl
    exact ⟨[], w, .pure () w, (List.append_nil _).symm, ⟨rest, answers⟩, .pure [] _, rfl⟩

/-- A sink that takes a number at a time. -/
def wordSink : AsyncSink := ⟨[], fun _ => .accept 8⟩

theorem wordSink_steady : wordSink.Steady where
  fair i := ⟨0, by rw [wordSink]; exact SinkAnswer.noConfusion⟩
  faultless i := by rw [wordSink]; exact SinkAnswer.noConfusion
  takes i h := by
    rw [wordSink] at h
    cases h

theorem roundTrips_nil : RoundTrips [] wordSink (fun _ => .chunk 7) [42] :=
  (roundTrips_iff [] wordSink_steady [42] (fun _ => ⟨0, Answer.noConfusion⟩)
    fun _ => Answer.noConfusion).mpr rfl

/-- The number 1 is read as 2 ^ 56. -/
theorem isValidPath_not_read_back :
    ¬ RoundTrips [.isValidPath] wordSink (fun _ => .chunk 7) [] :=
  not_roundTrips_cons .isValidPath [] wordSink_steady [] (fun _ => ⟨0, Answer.noConfusion⟩)
    fun _ => Answer.noConfusion

end Snix.NixDaemon
