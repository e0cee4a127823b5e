import Snix.NixCompat.Derivation.HashModulo
import Snix.NixCompat.Derivation.OutputSet

/-!
# Calculating output paths

The path of an output is built from a fingerprint, and its name is that of the derivation followed
by that of the output. The outputs are assigned their paths one by one, in the order of their names.
An output for which the name is too long ends this, and those before it keep their paths.

## Main definitions

- `StorePath.buildCaPath`, `StorePath.buildOutputPath` — paths from fingerprints
- `Outputs.calculateOutputPaths`, `Derivation.calculateOutputPaths` — the assignment
- `Outputs.Assigned` — an output before and after

## Main results

- `Outputs.calculatePaths_outcome` — what the loop leaves behind
- `Derivation.calculateOutputPaths_outcome` — what becomes of the derivation
-/

namespace Snix

-- ====================
-- Paths from fingerprints
-- ====================

namespace StorePath

/-- One byte is added to the output, at its index modulo the size. -/
def compressStep (outputSize : ℕ) (output : Bytes) (e : UInt8 × ℕ) : Bytes :=
  output.modify (e.2 % outputSize) (· ^^^ e.1)

theorem length_foldl_compressStep (n : ℕ) (l : List (UInt8 × ℕ)) (output : Bytes) :
    (l.foldl (compressStep n) output).length = output.length := by
  induction l generalizing output with
  | nil => rfl
  | cons e l ih => rw [List.foldl_cons, ih, compressStep, List.length_modify]

/-- Folds bytes to a shorter sequence. -/
def compressHash (outputSize : ℕ) (input : Bytes) : ByteArr outputSize :=
  ⟨input.zipIdx.foldl (compressStep outputSize) (List.replicate outputSize 0), by
    rw [length_foldl_compressStep, List.length_replicate]⟩

variable (sha256 : Bytes → ByteArr 32)

def buildStorePathFromFingerprintParts (ty : Bytes) (innerDigest : ByteArr 32) (name : Bytes) :
    Except ParseStorePathError StorePath :=
  let fingerprintHash := sha256 (ty ++ ascii ":sha256:" ++ hexEncode innerDigest.val ++ ascii ":" ++
    STORE_DIR ++ ascii ":" ++ name)
  fromNameAndDigestFixed name (compressHash DIGEST_SIZE fingerprintHash.val)

def formatReferences (ty : Bytes) (references : List StorePath) (hasSelfRef : Bool) : Bytes :=
  ty ++ (references.flatMap fun reference => ascii ":" ++ reference.toAbsolutePath) ++
    if hasSelfRef then ascii ":self" else []

/-- The path of contents with the given hash. -/
def buildCaPath (name : Bytes) (isRecursive : Bool) (hash : NixHash) (references : List StorePath)
    (hasSelfRef : Bool) : Except ParseStorePathError StorePath :=
  let innerDigest := match hash, isRecursive with
    | .sha256 digest, true => digest
    | hash, isRecursive => fodDigest sha256 isRecursive hash none
  if hash.algo = .sha256 ∧ isRecursive then
    buildStorePathFromFingerprintParts sha256 (formatReferences (ascii "source") references hasSelfRef)
      innerDigest name
  else buildStorePathFromFingerprintParts sha256 (ascii "output:out") innerDigest name

/-- The path of an output of the derivation with the given hash. -/
def buildOutputPath (name : Bytes) (hashDerivationModulo : ByteArr 32) (outputName : OutputName) :
    Except ParseStorePathError StorePath :=
  buildStorePathFromFingerprintParts sha256 (ascii "output:" ++ outputName.name) hashDerivationModulo
    name

end StorePath

-- ====================
-- Outputs
-- ====================

def Output.setPath (output : Output) (path : StorePath) : Output := { output with path := some path }

namespace Outputs

variable (sha256 : Bytes → ByteArr 32) (drvName : Bytes) (hashDerivationModulo : ByteArr 32)

/-- The name in the path of one of several outputs. That of `out` is the name of the derivation. -/
def assembleName (outputName : OutputName) : Bytes :=
  if outputName ≠ OutputName.out then drvName ++ ascii "-" ++ outputName.name else drvName

/-- The path of a single output. A fixed one is addressed by its hash. -/
def singlePath (output : Output) : Except ParseStorePathError StorePath :=
  match output.outputHash with
  | some outputHash =>
    StorePath.buildCaPath sha256 drvName (outputHash.mode = .recursive) outputHash.hash [] false
  | none => StorePath.buildOutputPath sha256 drvName hashDerivationModulo OutputName.out

/-- Assigns their paths to several outputs. An error ends this, and what is assigned by then stays.
    None of several outputs is fixed, so the assertion of that has no branch of its own. -/
def calculatePaths : List (OutputName × Output) →
    Except OutputsError Unit × List (OutputName × Output)
  | [] => (.ok (), [])
  | (outputName, output) :: rest =>
    let name := assembleName drvName outputName
    match StorePath.buildOutputPath sha256 name hashDerivationModulo outputName with
    | .error e => (.error (.invalidOutputDerivationPath name e), (outputName, output) :: rest)
    | .ok storePath =>
      let (result, rest) := calculatePaths rest
      (result, (outputName, Output.setPath output storePath) :: rest)

/-- Only paths are assigned. -/
theorem map_calculatePaths (l : List (OutputName × Output)) :
    ((calculatePaths sha256 drvName hashDerivationModulo l).2.map fun e => (e.1, e.2.outputHash)) =
      l.map fun e => (e.1, e.2.outputHash) := by
  induction l with
  | nil => rfl
  | cons e rest ih =>
    obtain ⟨outputName, output⟩ := e
    rw [calculatePaths]
    dsimp only
    cases StorePath.buildOutputPath sha256 (assembleName drvName outputName) hashDerivationModulo
        outputName with
    | error e => rfl
    | ok storePath =>
      rw [List.map_cons, List.map_cons, ih]
      rfl

/-- The outputs with their paths still are in the order of their names, as many and not fixed. -/
theorem valid_calculatePaths {outputs : SortedMap OutputName.cmp Output}
    (hvalid : (OutputsInner.multiple outputs).Valid) :
    ∃ hsorted : (calculatePaths sha256 drvName hashDerivationModulo outputs.entries).2.Pairwise
        (entryLt OutputName.cmp),
      (OutputsInner.multiple
        ⟨(calculatePaths sha256 drvName hashDerivationModulo outputs.entries).2, hsorted⟩).Valid := by
  have hmap := map_calculatePaths sha256 drvName hashDerivationModulo outputs.entries
  refine ⟨?_, ?_, fun e he => ?_⟩
  · have hkeys : (outputs.entries.map fun e => (e.1, e.2.outputHash)).Pairwise
        (entryLt OutputName.cmp) := List.pairwise_map.mpr outputs.sorted
    rw [← hmap, List.pairwise_map] at hkeys
    exact hkeys
  · have hlen := congrArg List.length hmap
    rw [List.length_map, List.length_map] at hlen
    exact hlen ▸ hvalid.1
  · have hmem : (e.1, e.2.outputHash) ∈ outputs.entries.map fun e => (e.1, e.2.outputHash) :=
      hmap ▸ List.mem_map_of_mem he
    obtain ⟨e', he', heq⟩ := List.mem_map.mp hmem
    have hfixed := hvalid.2 e' he'
    rw [Output.isFixed, (Prod.mk.inj heq).2] at hfixed
    exact hfixed

/-- Assigns their paths to the outputs. `none` stands for the failed assertion that a single output
    has no path yet. -/
def calculateOutputPaths : Outputs → Option (Except OutputsError Unit × Outputs)
  | ⟨.single output, hvalid⟩ =>
    if output.path.isSome then none
    else match singlePath sha256 drvName hashDerivationModulo output with
      | .error e => some (.error (.invalidOutputDerivationPath drvName e), ⟨.single output, hvalid⟩)
      | .ok storePath => some (.ok (), ⟨.single (output.setPath storePath), trivial⟩)
  | ⟨.multiple outputs, hvalid⟩ =>
    let result := calculatePaths sha256 drvName hashDerivationModulo outputs.entries
    have h := valid_calculatePaths sha256 drvName hashDerivationModulo hvalid
    some (result.1, ⟨.multiple ⟨result.2, h.1⟩, h.2⟩)

/-- The path an output is assigned. -/
def outputPath (e : OutputName × Output) : Except ParseStorePathError StorePath :=
  match e.2.outputHash with
  | some outputHash =>
    StorePath.buildCaPath sha256 (assembleName drvName e.1) (outputHash.mode = .recursive)
      outputHash.hash [] false
  | none =>
    StorePath.buildOutputPath sha256 (assembleName drvName e.1) hashDerivationModulo e.1

/-- An output before and after it is assigned its path. -/
def Assigned (e e' : OutputName × Output) : Prop :=
  ∃ storePath, outputPath sha256 drvName hashDerivationModulo e = .ok storePath ∧
    e' = (e.1, e.2.setPath storePath)

/-- How far an assignment comes: to the end, or to an output that has no path. -/
inductive Progress (l : List (OutputName × Output)) :
    Except OutputsError Unit → List (OutputName × Output) → Prop
  | complete {l' : List (OutputName × Output)}
      (h : List.Forall₂ (Assigned sha256 drvName hashDerivationModulo) l l') : Progress l (.ok ()) l'
  | stopped {done done' rest : List (OutputName × Output)} {e : OutputName × Output}
      {err : ParseStorePathError} (hl : l = done ++ e :: rest)
      (h : List.Forall₂ (Assigned sha256 drvName hashDerivationModulo) done done')
      (herr : outputPath sha256 drvName hashDerivationModulo e = .error err) :
      Progress l (.error (.invalidOutputDerivationPath (assembleName drvName e.1) err))
        (done' ++ e :: rest)

variable {sha256 drvName hashDerivationModulo}

/-- An output has a path if its name is one for a store path. -/
theorem exists_outputPath_iff {e : OutputName × Output} :
    (∃ storePath, outputPath sha256 drvName hashDerivationModulo e = .ok storePath) ↔
      ValidName (assembleName drvName e.1) := by
  have hfixed : ∀ (ty : Bytes) (digest : ByteArr 32) (name : Bytes),
      (∃ storePath, StorePath.buildStorePathFromFingerprintParts sha256 ty digest name =
        .ok storePath) ↔ ValidName name := by
    intro ty digest name
    simp only [StorePath.buildStorePathFromFingerprintParts, StorePath.fromNameAndDigestFixed_eq_ok_iff]
    constructor
    · rintro ⟨storePath, rfl, -⟩
      exact storePath.valid
    · intro hvalid
      exact ⟨⟨_, name, hvalid⟩, rfl, rfl⟩
  rw [outputPath]
  cases e.2.outputHash with
  | none => exact hfixed _ _ _
  | some outputHash =>
    unfold StorePath.buildCaPath
    dsimp only
    split_ifs
    · exact hfixed _ _ _
    · exact hfixed _ _ _

theorem outputPath_of_not_fixed {e : OutputName × Output} (h : e.2.isFixed = false) :
    outputPath sha256 drvName hashDerivationModulo e =
      StorePath.buildOutputPath sha256 (assembleName drvName e.1) hashDerivationModulo e.1 := by
  have hnone : e.2.outputHash = none := Option.not_isSome_iff_eq_none.mp (ne_true_of_eq_false h)
  rw [outputPath, hnone]

/-- The loop assigns paths up to the first output that has none. -/
theorem calculatePaths_outcome {l : List (OutputName × Output)}
    (hfixed : ∀ e ∈ l, e.2.isFixed = false) :
    Progress sha256 drvName hashDerivationModulo l
      (calculatePaths sha256 drvName hashDerivationModulo l).1
      (calculatePaths sha256 drvName hashDerivationModulo l).2 := by
  induction l with
  | nil => exact .complete .nil
  | cons e rest ih =>
    obtain ⟨hhead, htail⟩ := List.forall_mem_cons.mp hfixed
    obtain ⟨outputName, output⟩ := e
    have hpath : outputPath sha256 drvName hashDerivationModulo (outputName, output) = _ :=
      outputPath_of_not_fixed hhead
    rw [calculatePaths]
    dsimp only at hpath ⊢
    cases hbuild : StorePath.buildOutputPath sha256 (assembleName drvName outputName)
        hashDerivationModulo outputName with
    | error err => exact .stopped (List.nil_append _).symm .nil (hpath.trans hbuild)
    | ok storePath =>
      have hassigned : Assigned sha256 drvName hashDerivationModulo (outputName, output)
          (outputName, output.setPath storePath) := ⟨storePath, hpath.trans hbuild, rfl⟩
      replace ih := ih htail
      generalize calculatePaths sha256 drvName hashDerivationModulo rest = result at ih ⊢
      obtain ⟨result, rest'⟩ := result
      dsimp only at ih ⊢
      cases ih with
      | complete h => exact .complete (.cons hassigned h)
      | stopped hl h herr =>
        subst hl
        exact .stopped (List.cons_append ..).symm (.cons hassigned h) herr

/-- However many outputs there are, they are assigned paths up to the first that has none. -/
theorem progress_of_calculateOutputPaths {o o' : Outputs} {result : Except OutputsError Unit}
    (h : o.calculateOutputPaths sha256 drvName hashDerivationModulo = some (result, o')) :
    Progress sha256 drvName hashDerivationModulo o.iter result o'.iter := by
  obtain ⟨inner, hvalid⟩ := o
  cases inner with
  | single output =>
    have hsingle : outputPath sha256 drvName hashDerivationModulo (OutputName.out, output) =
        singlePath sha256 drvName hashDerivationModulo output := rfl
    rw [calculateOutputPaths] at h
    split_ifs at h
    cases hpath : singlePath sha256 drvName hashDerivationModulo output with
    | error err =>
      rw [hpath] at h
      cases h
      exact .stopped (List.nil_append _).symm .nil (hsingle.trans hpath)
    | ok storePath =>
      rw [hpath] at h
      cases h
      exact .complete (.cons ⟨storePath, hsingle.trans hpath, rfl⟩ .nil)
  | multiple outputs =>
    cases h
    exact calculatePaths_outcome hvalid.2

end Outputs

namespace Derivation

variable (sha256 : Bytes → ByteArr 32) (drvName : Bytes) (hashDerivationModulo : ByteArr 32)

/-- Adds the paths of outputs to the environment. `none` stands for the panic at an unknown one. -/
def insertPaths : List (OutputName × Output) → Environment → Option Environment
  | [], environment => some environment
  | (outputName, output) :: rest, environment => do
    let path ← output.path
    insertPaths rest (environment.insert outputName.toStr path.toAbsolutePath)

/-- Assigns their paths to the outputs, and adds them to the environment. -/
def calculateOutputPaths (d : Derivation) : Option (Except DerivationError Unit × Derivation) := do
  let (result, outputs) ← d.outputs.calculateOutputPaths sha256 drvName hashDerivationModulo
  match result with
  | .error e => return (.error (.invalidOutputs e), { d with outputs })
  | .ok () =>
    let environment ← insertPaths outputs.iter d.environment
    return (.ok (), { d with outputs, environment })

variable {sha256 drvName hashDerivationModulo} {l : List (OutputName × Output)} {d d' : Derivation}
  {environment environment' : Environment}

/-- Other variables than those of the outputs are left alone. -/
theorem get?_insertPaths_of_ne {k : Utf8} (h : insertPaths l environment = some environment')
    (hk : ∀ e ∈ l, e.1.toStr ≠ k) : environment'.get? k = environment.get? k := by
  induction l generalizing environment with
  | nil =>
    cases h
    rfl
  | cons e rest ih =>
    obtain ⟨hhead, htail⟩ := List.forall_mem_cons.mp hk
    obtain ⟨path, -, hrest⟩ := Option.bind_eq_some_iff.mp h
    rw [ih hrest htail, SortedMap.get?_insert, if_neg hhead]

/-- The variable of each output is its path. -/
theorem get?_insertPaths (h : insertPaths l environment = some environment')
    (hnodup : (l.map Prod.fst).Nodup) {e : OutputName × Output} (he : e ∈ l) :
    ∃ path, e.2.path = some path ∧ environment'.get? e.1.toStr = some path.toAbsolutePath := by
  induction l generalizing environment with
  | nil => cases he
  | cons e₀ rest ih =>
    obtain ⟨hhead, htail⟩ := List.nodup_cons.mp hnodup
    obtain ⟨path, hpath, hrest⟩ := Option.bind_eq_some_iff.mp h
    rcases List.mem_cons.mp he with rfl | he
    · have hne : ∀ e' ∈ rest, e'.1.toStr ≠ e.1.toStr := by
        intro e' he' heq
        exact hhead (toStr_injective heq ▸ List.mem_map_of_mem he')
      refine ⟨path, hpath, ?_⟩
      rw [get?_insertPaths_of_ne hrest hne, SortedMap.get?_insert, if_pos rfl]
    · exact ih hrest htail he

/-- An error leaves everything but the outputs as it was. Those before the first whose name is not
    one for a store path have been assigned theirs. -/
theorem calculateOutputPaths_eq_error {err : DerivationError}
    (h : d.calculateOutputPaths sha256 drvName hashDerivationModulo = some (.error err, d')) :
    ∃ done done' e rest, d.outputs.iter = done ++ e :: rest ∧
      d' = { d with outputs := d'.outputs } ∧ d'.outputs.iter = done' ++ e :: rest ∧
      List.Forall₂ (Outputs.Assigned sha256 drvName hashDerivationModulo) done done' ∧
      ¬ValidName (Outputs.assembleName drvName e.1) := by
  obtain ⟨⟨result, outputs⟩, houtputs, h⟩ := Option.bind_eq_some_iff.mp h
  dsimp only at h
  cases result with
  | ok u =>
    obtain ⟨environment, -, h⟩ := Option.bind_eq_some_iff.mp h
    cases h
  | error e =>
    cases h
    obtain ⟨iter', hiter'⟩ : ∃ iter', outputs.iter = iter' := ⟨_, rfl⟩
    have hprogress := Outputs.progress_of_calculateOutputPaths houtputs
    rw [hiter'] at hprogress
    cases hprogress with
    | stopped hl hdone herr =>
      refine ⟨_, _, _, _, hl, rfl, hiter', hdone, fun hvalid => ?_⟩
      obtain ⟨storePath, hpath⟩ := Outputs.exists_outputPath_iff.mpr hvalid
      exact absurd (herr.symm.trans hpath) (by simp)

/-- On success all outputs have paths, which are in the environment. -/
theorem calculateOutputPaths_eq_ok
    (h : d.calculateOutputPaths sha256 drvName hashDerivationModulo = some (.ok (), d')) :
    List.Forall₂ (Outputs.Assigned sha256 drvName hashDerivationModulo) d.outputs.iter
        d'.outputs.iter ∧
      ∀ e ∈ d'.outputs.iter, ∃ path, e.2.path = some path ∧
        d'.environment.get? e.1.toStr = some path.toAbsolutePath := by
  obtain ⟨⟨result, outputs⟩, houtputs, h⟩ := Option.bind_eq_some_iff.mp h
  dsimp only at h
  cases result with
  | error e => cases h
  | ok u =>
    obtain ⟨environment, hinsert, h⟩ := Option.bind_eq_some_iff.mp h
    cases h
    have hprogress := Outputs.progress_of_calculateOutputPaths houtputs
    refine ⟨?_, fun e he => get?_insertPaths hinsert outputs.nodup_iter he⟩
    cases hprogress with
    | complete h => exact h

/-- An assignment that fails changes nothing but the outputs before the first whose name is too long
    or has other bytes than a store path may; those have been assigned their paths. One that succeeds
    leaves every output with a path, which is in the environment. The order in which the outputs are
    listed is of no importance. -/
theorem calculateOutputPaths_outcome (sha256 : Bytes → ByteArr 32) (drvName : Bytes)
    (hashDerivationModulo : ByteArr 32) (d : Derivation) :
    (∀ err d', d.calculateOutputPaths sha256 drvName hashDerivationModulo =
        some (.error err, d') →
      ∃ done done' e rest, d.outputs.iter = done ++ e :: rest ∧
        d' = { d with outputs := d'.outputs } ∧ d'.outputs.iter = done' ++ e :: rest ∧
        List.Forall₂ (Outputs.Assigned sha256 drvName hashDerivationModulo) done done' ∧
        ¬ValidName (Outputs.assembleName drvName e.1) ∧ (d' = d ↔ done' = done)) ∧
      (∀ d', d.calculateOutputPaths sha256 drvName hashDerivationModulo = some (.ok (), d') →
        List.Forall₂ (Outputs.Assigned sha256 drvName hashDerivationModulo) d.outputs.iter
            d'.outputs.iter ∧
          ∀ e ∈ d'.outputs.iter, ∃ path, e.2.path = some path ∧
            d'.environment.get? e.1.toStr = some path.toAbsolutePath) ∧
      ∀ l, l.Perm d.outputs.iter → ∃ outputs, Outputs.tryFromIter l = .ok outputs ∧
        { d with outputs }.calculateOutputPaths sha256 drvName hashDerivationModulo =
          d.calculateOutputPaths sha256 drvName hashDerivationModulo := by
  refine ⟨fun err d' h => ?_, fun d' h => calculateOutputPaths_eq_ok h, fun l hl => ?_⟩
  · obtain ⟨done, done', e, rest, hiter, hd', hiter', hdone, hname⟩ := calculateOutputPaths_eq_error h
    refine ⟨done, done', e, rest, hiter, hd', hiter', hdone, hname, ?_⟩
    constructor
    · intro heq
      rw [heq, hiter] at hiter'
      exact (List.append_cancel_right hiter').symm
    · rintro rfl
      have houtputs : d'.outputs = d.outputs := Outputs.iter_injective (hiter'.trans hiter.symm)
      rw [hd', houtputs]
  · have hvalid := (Outputs.tryFromIter_eq_ok_iff.mp (Outputs.tryFromIter_iter d.outputs)).1
    exact ⟨d.outputs, Outputs.tryFromIter_eq_ok_iff.mpr ⟨hvalid.perm hl.symm, hl.symm⟩, rfl⟩

/-- Outputs `out` and `tests`, without paths. -/
def outAndTests : Outputs :=
  ⟨.multiple (.ofList [(OutputName.out, ⟨none, none⟩),
    (⟨ascii "tests", by decide +kernel, by decide +kernel⟩, ⟨none, none⟩)]),
    by decide +kernel, List.forall_mem_cons.mpr ⟨rfl, List.forall_mem_singleton.mpr rfl⟩⟩

/-- For a derivation whose name is as long as that of a store path may be, `out` has been assigned its
    path when the assignment fails. -/
theorem calculateOutputPaths_outAndTests :
    ¬∀ (d : Derivation) (drvName : Bytes) (hashDerivationModulo : ByteArr 32)
      (err : DerivationError) (d' : Derivation),
      d.calculateOutputPaths Sha256.digest drvName hashDerivationModulo = some (.error err, d') →
        d'.outputs = d.outputs ∧ d'.environment = d.environment := by
  intro h
  have hrun : (({ ofInputs .empty with outputs := outAndTests }.calculateOutputPaths Sha256.digest
      (List.replicate 211 97) (List.Vector.replicate 32 0)).map
        fun r : Except DerivationError Unit × Derivation =>
          (r.1.isOk, decide (r.2.outputs = outAndTests))) = some (false, false) := by
    decide +kernel
  obtain ⟨⟨result, d'⟩, hresult, hproj⟩ := Option.map_eq_some_iff.mp hrun
  obtain ⟨herr, houtputs⟩ := Prod.mk.inj hproj
  cases result with
  | ok u => cases herr
  | error err => exact of_decide_eq_false houtputs (h _ _ _ err d' hresult).1

end Derivation

end Snix
