import Snix.Build.BuildRequest
import Snix.Castore.Proto
import Snix.Lib.ByteReader

/-!
# Build requests as protobuf messages

A request is sent to a remote builder as a message, where its constraints are a record. The set
of constraints is iterated over in any order.

## Main definitions

- `Proto.BuildRequest` — the message
- `ofBuildRequest`, `tryFrom` — the conversions
- `Kept` — the constraints that survive them, in the order they are iterated over

## Main results

- `tryFrom_eq_ok_iff`, `ofBuildRequest_eq_some_iff` — what the conversions give
- `roundTrip_iff` — when a request is read back from its message
-/

namespace Snix.Build.Proto

open Castore

structure BuildConstraints where
  system : Bytes
  minMemory : UInt64
  availableRoPaths : List Utf8
  networkAccess : Bool
  provideBinSh : Bool

structure AdditionalFile where
  path : Utf8
  contents : Bytes

/-- The message. An entry may be there without being of any kind. -/
structure BuildRequest where
  inputs : List (Option Castore.Proto.Entry)
  commandArgs : List Bytes
  workingDir : Utf8
  scratchPaths : List Utf8
  inputsDir : Utf8
  outputs : List Utf8
  environmentVars : List EnvVar
  constraints : Option BuildConstraints
  additionalFiles : List AdditionalFile
  refscanNeedles : List Bytes

inductive ValidateBuildConstraintsError where
  | invalidSystem
  | invalidAvailableRoPaths (i : ℕ)
  | availableRoPathsNotSorted

inductive ValidateBuildRequestError where
  | invalidInputNode (i : ℕ) (e : DirectoryError)
  | inputNodesNotSorted
  | invalidWorkingDir
  | scratchPathsNotSorted
  | invalidScratchPath (i : ℕ)
  | invalidInputsDir
  | invalidOutputPath (i : ℕ)
  | outputsNotSorted
  | invalidEnvVar (i : ℕ)
  | envVarNotSorted
  | invalidBuildConstraints (e : ValidateBuildConstraintsError)
  | invalidAdditionalFilePath (i : ℕ)
  | additionalFilesNotSorted

-- ====================
-- To the message
-- ====================

/-- A path as a string; none is a panic. -/
def pathToString (path : Bytes) : Option Utf8 := Utf8.ofBytes? path

def BuildConstraints.default : BuildConstraints := ⟨[], 0, [], false, false⟩

/-- Adds a constraint to the record. -/
def setConstraint (constraints : BuildConstraints) : Build.BuildConstraints → Option BuildConstraints
  | .system system => some { constraints with system := system }
  | .minMemory minMemory => some { constraints with minMemory := minMemory }
  | .availableReadOnlyPath path =>
    (pathToString path).map fun path =>
      { constraints with availableRoPaths := constraints.availableRoPaths ++ [path] }
  | .provideBinSh => some { constraints with provideBinSh := true }
  | .networkAccess => some { constraints with networkAccess := true }

/-- The record of a set of constraints, which is iterated over in the given order. -/
def ofConstraints (order : List Build.BuildConstraints) (constraints : Finset Build.BuildConstraints) :
    Option (Option BuildConstraints) :=
  if constraints = ∅ then some none else (order.foldlM setConstraint .default).map some

def AdditionalFile.ofAdditionalFile (value : Build.AdditionalFile) : Option AdditionalFile :=
  (pathToString value.path).map fun path => ⟨path, value.contents⟩

/-- The message of a request; none is a panic. -/
def ofBuildRequest (order : List Build.BuildConstraints) (value : Build.BuildRequest) :
    Option BuildRequest := do
  let constraints ← ofConstraints order value.constraints
  let workingDir ← pathToString value.workingDir
  let scratchPaths ← value.scratchPaths.mapM pathToString
  let inputsDir ← pathToString value.inputsDir
  let outputs ← value.outputs.mapM pathToString
  let additionalFiles ← value.additionalFiles.mapM AdditionalFile.ofAdditionalFile
  return {
    inputs := value.inputs.entries.map fun e => some (.fromNameAndNode e.1.val e.2)
    commandArgs := value.commandArgs
    workingDir, scratchPaths, inputsDir, outputs
    environmentVars := value.environmentVars
    constraints, additionalFiles
    refscanNeedles := value.refscanNeedles }

-- ====================
-- From the message
-- ====================

def demand {ε : Type} (c : Bool) (e : ε) : Except ε Unit := if c then .ok () else .error e

/-- Checks the elements of a list, counting from `i`. -/
def demandEach {α ε : Type} (p : α → Bool) (e : ℕ → ε) : ℕ → List α → Except ε Unit
  | _, [] => .ok ()
  | i, a :: rest => if p a then demandEach p e (i + 1) rest else .error (e i)

def tryIntoNameAndNode : Option Castore.Proto.Entry → Except DirectoryError (PathComponent × Node)
  | none => .error .noEntrySet
  | some entry => entry.tryIntoNameAndNode

/-- Collects the inputs, whose names have to ascend from the last one on. -/
def convertInputs : ℕ → Bytes → List (Option Castore.Proto.Entry) → SortedMap PathComponent.cmp Node →
    Except ValidateBuildRequestError (SortedMap PathComponent.cmp Node)
  | _, _, [], inputs => .ok inputs
  | i, lastName, entry :: rest, inputs =>
    match tryIntoNameAndNode entry with
    | .error e => .error (.invalidInputNode i e)
    | .ok (name, node) =>
      if (compare name.val lastName).isLE then .error .inputNodesNotSorted
      else convertInputs (i + 1) name.val rest (inputs.insert name node)

/-- The set of constraints of the record. -/
def tryIntoConstraints (value : BuildConstraints) :
    Except ValidateBuildConstraintsError (Finset Build.BuildConstraints) := do
  demand (!value.system.isEmpty) .invalidSystem
  demandEach isCleanAbsolutePath .invalidAvailableRoPaths 0 (value.availableRoPaths.map Subtype.val)
  demand (isSorted (value.availableRoPaths.map Subtype.val)) .availableRoPathsNotSorted
  return {.system value.system, .minMemory value.minMemory} ∪
    (value.availableRoPaths.map fun p => .availableReadOnlyPath p.val).toFinset ∪
    (if value.networkAccess then {.networkAccess} else ∅) ∪
    (if value.provideBinSh then {.provideBinSh} else ∅)

def convertConstraints : Option BuildConstraints →
    Except ValidateBuildRequestError (Finset Build.BuildConstraints)
  | none => .ok ∅
  | some constraints => (tryIntoConstraints constraints).mapError .invalidBuildConstraints

def tryFrom (value : BuildRequest) : Except ValidateBuildRequestError Build.BuildRequest := do
  let inputs ← convertInputs 0 [] value.inputs .empty
  demand (isCleanRelativePath value.workingDir.val) .invalidWorkingDir
  demandEach isCleanRelativePath .invalidScratchPath 0 (value.scratchPaths.map Subtype.val)
  demand (isSorted (value.scratchPaths.map Subtype.val)) .scratchPathsNotSorted
  demand (isCleanRelativePath value.inputsDir.val) .invalidInputsDir
  demandEach isCleanRelativePath .invalidOutputPath 0 (value.outputs.map Subtype.val)
  demand (isSorted (value.outputs.map Subtype.val)) .outputsNotSorted
  demandEach EnvVar.isValid .invalidEnvVar 0 value.environmentVars
  demand (isSorted (value.environmentVars.map (·.key))) .envVarNotSorted
  let constraints ← convertConstraints value.constraints
  demandEach isCleanRelativePath .invalidAdditionalFilePath 0
    (value.additionalFiles.map (·.path.val))
  demand (isSorted (value.additionalFiles.map (·.path.val))) .additionalFilesNotSorted
  return {
    inputs
    commandArgs := value.commandArgs
    workingDir := value.workingDir.val
    scratchPaths := value.scratchPaths.map Subtype.val
    inputsDir := value.inputsDir.val
    outputs := value.outputs.map Subtype.val
    environmentVars := value.environmentVars
    constraints
    additionalFiles := value.additionalFiles.map fun f => ⟨f.path.val, f.contents⟩
    refscanNeedles := value.refscanNeedles }

-- ====================
-- What the conversions give
-- ====================

theorem demand_eq_ok_iff {ε : Type} {c : Bool} {e : ε} {u : Unit} : demand c e = .ok u ↔ c = true := by
  cases c with
  | true => exact iff_of_true rfl rfl
  | false => exact iff_of_false (fun h => by cases h) (by decide)

theorem demandEach_eq_ok_iff {α ε : Type} {p : α → Bool} {e : ℕ → ε} {i : ℕ} {l : List α} {u : Unit} :
    demandEach p e i l = .ok u ↔ ∀ a ∈ l, p a = true := by
  induction l generalizing i with
  | nil => exact iff_of_true rfl fun a ha => by cases ha
  | cons a l ih =>
    rw [demandEach, List.forall_mem_cons]
    split_ifs with h
    · exact ih.trans (and_iff_right h).symm
    · exact iff_of_false (fun hok => by cases hok) fun hall => h hall.1

/-- The entry of an input. -/
def ofInput (e : PathComponent × Node) : Option Castore.Proto.Entry := some (.fromNameAndNode e.1.val e.2)

theorem tryIntoNameAndNode_eq_ok_iff {entry : Option Castore.Proto.Entry} {e : PathComponent × Node} :
    tryIntoNameAndNode entry = .ok e ↔ entry = ofInput e := by
  cases entry with
  | none => exact iff_of_false (fun h => by cases h) (fun h => by cases h)
  | some entry =>
    rw [ofInput, Option.some.injEq, @eq_comm _ entry]
    exact Castore.Proto.Entry.tryIntoNameAndNode_eq_ok_iff

/-- Inputs that ascend from the last name on are put at the end of those before. -/
theorem convertInputs_eq_ok_iff {i : ℕ} {lastName : Bytes} {l : List (Option Castore.Proto.Entry)}
    {m m' : SortedMap PathComponent.cmp Node} (hm : ∀ e ∈ m.entries, (compare e.1.val lastName).isLE) :
    convertInputs i lastName l m = .ok m' ↔
      ∃ elems : List (PathComponent × Node), l = elems.map ofInput ∧
        (lastName :: elems.map (·.1.val)).Pairwise (fun a b => compare a b = .lt) ∧
        m'.entries = m.entries ++ elems := by
  induction l generalizing i lastName m with
  | nil =>
    rw [convertInputs, Except.ok.injEq]
    constructor
    · rintro rfl
      exact ⟨[], rfl, List.pairwise_singleton _ _, (List.append_nil _).symm⟩
    · rintro ⟨elems, hnil, -, hentries⟩
      obtain rfl := List.map_eq_nil_iff.mp hnil.symm
      exact SortedMap.ext (by rw [hentries, List.append_nil])
  | cons entry l ih =>
    rw [convertInputs]
    cases he : tryIntoNameAndNode entry with
    | error e =>
      refine iff_of_false (fun h => by cases h) ?_
      rintro ⟨elems, hl, -, -⟩
      obtain ⟨x, xs, -, hx, -⟩ := List.map_eq_cons_iff.mp hl.symm
      rw [tryIntoNameAndNode_eq_ok_iff.mpr hx.symm] at he
      cases he
    | ok e =>
      obtain ⟨name, node⟩ := e
      rw [tryIntoNameAndNode_eq_ok_iff] at he
      subst he
      simp only
      split_ifs with hle
      · refine iff_of_false (fun h => by cases h) ?_
        rintro ⟨elems, hl, hasc, -⟩
        obtain ⟨x, xs, rfl, hx, -⟩ := List.map_eq_cons_iff.mp hl.symm
        have hname : x.1 = name := by
          have hx' := tryIntoNameAndNode_eq_ok_iff.mpr hx.symm
          rw [tryIntoNameAndNode_eq_ok_iff.mpr rfl] at hx'
          exact (congrArg Prod.fst (Except.ok.inj hx')).symm
        have hlt := (List.pairwise_cons.mp hasc).1 x.1.val List.mem_cons_self
        rw [hname, ← Std.OrientedCmp.gt_iff_lt] at hlt
        rw [hlt] at hle
        cases hle
      · have hlt : compare lastName name.val = .lt := by
          rw [← Std.OrientedCmp.gt_iff_lt]
          exact Ordering.isGT_iff_eq_gt.mp (by simpa using hle)
        have hgt : ∀ e ∈ m.entries, PathComponent.cmp name e.1 = .gt := by
          intro e he
          have helt : compare e.1.val name.val = .lt := Std.TransCmp.lt_of_isLE_of_lt (hm e he) hlt
          exact Std.OrientedCmp.gt_iff_lt.mpr helt
        have hins : (m.insert name node).entries = m.entries ++ [(name, node)] :=
          SortedMap.insertEntry_of_gt hgt
        have hm' : ∀ e ∈ (m.insert name node).entries, (compare e.1.val name.val).isLE := by
          intro e he
          rw [hins, List.mem_append, List.mem_singleton] at he
          obtain he | rfl := he
          · exact Ordering.isLE_of_eq_lt (Std.OrientedCmp.gt_iff_lt.mp (hgt e he))
          · exact Std.ReflCmp.isLE_rfl
        rw [ih hm', hins]
        constructor
        · rintro ⟨elems, rfl, hasc, hentries⟩
          refine ⟨(name, node) :: elems, rfl, ?_, by rw [hentries, List.append_assoc]; rfl⟩
          refine List.pairwise_cons.mpr ⟨fun x hx => ?_, hasc⟩
          obtain rfl | hx := List.mem_cons.mp hx
          · exact hlt
          · exact Std.TransCmp.lt_trans hlt ((List.pairwise_cons.mp hasc).1 x hx)
        · rintro ⟨elems, hl, hasc, hentries⟩
          obtain ⟨x, xs, rfl, hx, hxs⟩ := List.map_eq_cons_iff.mp hl.symm
          have hxe : x = (name, node) := by
            have hx' := tryIntoNameAndNode_eq_ok_iff.mpr hx.symm
            rw [tryIntoNameAndNode_eq_ok_iff.mpr rfl] at hx'
            exact (Except.ok.inj hx').symm
          subst hxe
          exact ⟨xs, hxs.symm, (List.pairwise_cons.mp hasc).2, by rw [hentries, List.append_assoc]; rfl⟩

theorem convertInputs_empty_eq_ok_iff {l : List (Option Castore.Proto.Entry)}
    {m : SortedMap PathComponent.cmp Node} :
    convertInputs 0 [] l .empty = .ok m ↔ l = m.entries.map ofInput := by
  rw [convertInputs_eq_ok_iff (fun e he => by cases he)]
  constructor
  · rintro ⟨elems, rfl, -, hentries⟩
    rw [hentries]
    rfl
  · rintro rfl
    refine ⟨m.entries, rfl, List.pairwise_cons.mpr ⟨fun x hx => ?_, ?_⟩, rfl⟩
    · obtain ⟨e, -, rfl⟩ := List.mem_map.mp hx
      obtain ⟨c, rest, hname⟩ := List.exists_cons_of_ne_nil e.1.val_ne_nil
      rw [hname]
      rfl
    · exact List.pairwise_map.mpr m.sorted

/-- Everything but the constraints is the same in a message and in a request. -/
structure Matches (m : BuildRequest) (b : Build.BuildRequest) : Prop where
  inputs : m.inputs = b.inputs.entries.map ofInput
  commandArgs : m.commandArgs = b.commandArgs
  workingDir : m.workingDir.val = b.workingDir
  scratchPaths : m.scratchPaths.map Subtype.val = b.scratchPaths
  inputsDir : m.inputsDir.val = b.inputsDir
  outputs : m.outputs.map Subtype.val = b.outputs
  environmentVars : m.environmentVars = b.environmentVars
  additionalFiles : m.additionalFiles.map (fun f => ⟨f.path.val, f.contents⟩) = b.additionalFiles
  refscanNeedles : m.refscanNeedles = b.refscanNeedles

/-- What a message is read as. -/
theorem tryFrom_eq_ok_iff {m : BuildRequest} {b : Build.BuildRequest} :
    tryFrom m = .ok b ↔ Matches m b ∧ Valid b ∧ convertConstraints m.constraints = .ok b.constraints := by
  have hfiles : ∀ l : List AdditionalFile, (l.map fun f => (⟨f.path.val, f.contents⟩ :
      Build.AdditionalFile)).map (·.path) = l.map (·.path.val) := by
    intro l
    rw [List.map_map]
    rfl
  simp only [tryFrom, except_bind_eq_ok_iff, convertInputs_empty_eq_ok_iff, demand_eq_ok_iff,
    demandEach_eq_ok_iff, exists_const]
  constructor
  · rintro ⟨inputs, hinputs, hwd, hscratch, hscratchSorted, hdir, houts, houtsSorted, henv, henvSorted,
      constraints, hconstraints, hadd, haddSorted, hb⟩
    cases hb
    refine ⟨⟨hinputs, rfl, rfl, rfl, rfl, rfl, rfl, rfl, rfl⟩, ?_, hconstraints⟩
    refine ⟨hwd, hscratch, hscratchSorted, hdir, houts, houtsSorted, henv, henvSorted, fun f hf => ?_, ?_⟩
    · obtain ⟨g, hg, rfl⟩ := List.mem_map.mp hf
      exact hadd _ (List.mem_map.mpr ⟨g, hg, rfl⟩)
    · rw [hfiles]
      exact haddSorted
  · rintro ⟨hm, hv, hconstraints⟩
    obtain ⟨inputs, commandArgs, workingDir, scratchPaths, inputsDir, outputs, environmentVars,
      constraints, additionalFiles, refscanNeedles⟩ := b
    obtain ⟨hinputs, rfl, rfl, rfl, rfl, rfl, rfl, rfl, rfl⟩ := hm
    refine ⟨inputs, hinputs, hv.workingDir, hv.scratchPaths, hv.scratchPathsSorted, hv.inputsDir,
      hv.outputs, hv.outputsSorted, hv.environmentVars, hv.environmentVarsSorted, constraints,
      hconstraints, fun p hp => ?_, ?_, rfl⟩
    · obtain ⟨f, hf, rfl⟩ := List.mem_map.mp hp
      exact hv.additionalFiles _ (List.mem_map.mpr ⟨f, hf, rfl⟩)
    · rw [← hfiles]
      exact hv.additionalFilesSorted

theorem pathToString_eq_some_iff {p : Bytes} {s : Utf8} : pathToString p = some s ↔ s.val = p := by
  constructor
  · intro h
    unfold pathToString Utf8.ofBytes? at h
    split_ifs at h
    cases h
    rfl
  · rintro rfl
    exact Utf8.ofBytes?_val s

/-- A conversion that undoes a function is undone by it on whole lists. -/
theorem mapM_eq_some_iff {α β : Type} {f : α → Option β} {g : β → α}
    (h : ∀ a b, f a = some b ↔ g b = a) {l : List α} {l' : List β} :
    l.mapM f = some l' ↔ l'.map g = l := by
  induction l generalizing l' with
  | nil =>
    rw [List.mapM_nil, List.map_eq_nil_iff]
    exact ⟨fun h => (Option.some.inj h).symm, fun h => by rw [h]; rfl⟩
  | cons a l ih =>
    simp only [List.mapM_cons, Option.bind_eq_bind, Option.bind_eq_some_iff, Option.pure_def,
      Option.some.injEq, List.map_eq_cons_iff, h, ih]
    constructor
    · rintro ⟨b, hb, bs, hbs, rfl⟩
      exact ⟨b, bs, rfl, hb, hbs⟩
    · rintro ⟨b, bs, rfl, hb, hbs⟩
      exact ⟨b, hb, bs, hbs, rfl⟩

theorem ofAdditionalFile_eq_some_iff (a : Build.AdditionalFile) (f : AdditionalFile) :
    AdditionalFile.ofAdditionalFile a = some f ↔ ⟨f.path.val, f.contents⟩ = a := by
  obtain ⟨path, contents⟩ := a
  obtain ⟨path', contents'⟩ := f
  simp only [AdditionalFile.ofAdditionalFile, Option.map_eq_some_iff, pathToString_eq_some_iff,
    AdditionalFile.mk.injEq, Build.AdditionalFile.mk.injEq]
  constructor
  · rintro ⟨p, hp, rfl, rfl⟩
    exact ⟨hp, rfl⟩
  · rintro ⟨hp, rfl⟩
    exact ⟨path', hp, rfl, rfl⟩

/-- What a request is written as. -/
theorem ofBuildRequest_eq_some_iff {order : List Build.BuildConstraints} {m : BuildRequest}
    {b : Build.BuildRequest} :
    ofBuildRequest order b = some m ↔
      Matches m b ∧ ofConstraints order b.constraints = some m.constraints := by
  simp only [ofBuildRequest, Option.bind_eq_bind, Option.bind_eq_some_iff, Option.pure_def,
    Option.some.injEq, pathToString_eq_some_iff, mapM_eq_some_iff fun _ _ => pathToString_eq_some_iff,
    mapM_eq_some_iff ofAdditionalFile_eq_some_iff]
  constructor
  · rintro ⟨constraints, hconstraints, wd, hwd, scratch, hscratch, dir, hdir, outs, houts, files, hfiles, rfl⟩
    exact ⟨⟨rfl, rfl, hwd, hscratch, hdir, houts, rfl, hfiles, rfl⟩, hconstraints⟩
  · rintro ⟨hm, hconstraints⟩
    refine ⟨m.constraints, hconstraints, m.workingDir, hm.workingDir, m.scratchPaths, hm.scratchPaths,
      m.inputsDir, hm.inputsDir, m.outputs, hm.outputs, m.additionalFiles, hm.additionalFiles, ?_⟩
    obtain ⟨inputs, commandArgs, workingDir, scratchPaths, inputsDir, outputs, environmentVars,
      constraints, additionalFiles, refscanNeedles⟩ := m
    obtain ⟨rfl, rfl, -, -, -, -, rfl, -, rfl⟩ := hm
    rfl

-- ====================
-- Constraints
-- ====================

def system? : Build.BuildConstraints → Option Bytes
  | .system system => some system
  | _ => none

def minMemory? : Build.BuildConstraints → Option UInt64
  | .minMemory minMemory => some minMemory
  | _ => none

def availableReadOnlyPath? : Build.BuildConstraints → Option Bytes
  | .availableReadOnlyPath path => some path
  | _ => none

/-- The read-only paths, in the order of the constraints. -/
def roPaths (order : List Build.BuildConstraints) : List Bytes := order.filterMap availableReadOnlyPath?

theorem mem_filterMap_system? {order : List Build.BuildConstraints} {s : Bytes} :
    s ∈ order.filterMap system? ↔ .system s ∈ order := by
  rw [List.mem_filterMap]
  constructor
  · rintro ⟨c, hc, hs⟩
    cases c <;> cases hs
    exact hc
  · intro h
    exact ⟨_, h, rfl⟩

theorem mem_filterMap_minMemory? {order : List Build.BuildConstraints} {n : UInt64} :
    n ∈ order.filterMap minMemory? ↔ .minMemory n ∈ order := by
  rw [List.mem_filterMap]
  constructor
  · rintro ⟨c, hc, hn⟩
    cases c <;> cases hn
    exact hc
  · intro h
    exact ⟨_, h, rfl⟩

theorem mem_roPaths {order : List Build.BuildConstraints} {p : Bytes} :
    p ∈ roPaths order ↔ .availableReadOnlyPath p ∈ order := by
  rw [roPaths, List.mem_filterMap]
  constructor
  · rintro ⟨c, hc, hp⟩
    cases c <;> cases hp
    exact hc
  · intro h
    exact ⟨_, h, rfl⟩

/-- The record after a set of constraints: the last system and the last minimum of memory count. -/
theorem foldlM_setConstraint_eq_some_iff {order : List Build.BuildConstraints} {c c' : BuildConstraints} :
    order.foldlM setConstraint c = some c' ↔
      c'.system = (order.filterMap system?).getLast?.getD c.system ∧
      c'.minMemory = (order.filterMap minMemory?).getLast?.getD c.minMemory ∧
      c'.availableRoPaths.map Subtype.val = c.availableRoPaths.map Subtype.val ++ roPaths order ∧
      c'.networkAccess = (c.networkAccess || decide (.networkAccess ∈ order)) ∧
      c'.provideBinSh = (c.provideBinSh || decide (.provideBinSh ∈ order)) := by
  induction order generalizing c with
  | nil =>
    obtain ⟨system, minMemory, ro, network, binSh⟩ := c
    obtain ⟨system', minMemory', ro', network', binSh'⟩ := c'
    have hinj : ro'.map Subtype.val = ro.map Subtype.val ↔ ro' = ro :=
      (List.map_injective_iff.mpr Subtype.val_injective).eq_iff
    simp only [List.foldlM_nil, Option.pure_def, Option.some.injEq, BuildConstraints.mk.injEq, roPaths,
      List.filterMap_nil, List.getLast?_nil, Option.getD_none, List.append_nil, hinj, List.not_mem_nil,
      decide_false, Bool.or_false, @eq_comm _ system', @eq_comm _ minMemory', @eq_comm _ ro',
      @eq_comm _ network', @eq_comm _ binSh']
  | cons a order ih =>
    rw [List.foldlM_cons]
    cases a with
    | system system =>
      refine ih.trans ?_
      simp [roPaths, system?, minMemory?, availableReadOnlyPath?, List.filterMap_cons, List.getLast?_cons]
    | minMemory minMemory =>
      refine ih.trans ?_
      simp [roPaths, system?, minMemory?, availableReadOnlyPath?, List.filterMap_cons, List.getLast?_cons]
    | networkAccess =>
      refine ih.trans ?_
      simp [roPaths, system?, minMemory?, availableReadOnlyPath?, List.filterMap_cons]
    | provideBinSh =>
      refine ih.trans ?_
      simp [roPaths, system?, minMemory?, availableReadOnlyPath?, List.filterMap_cons]
    | availableReadOnlyPath path =>
      have hro : roPaths (.availableReadOnlyPath path :: order) = path :: roPaths order := rfl
      rw [hro, Option.bind_eq_bind, Option.bind_eq_some_iff]
      simp only [setConstraint, Option.map_eq_some_iff, pathToString_eq_some_iff]
      constructor
      · rintro ⟨d, ⟨s, rfl, rfl⟩, h⟩
        simpa [system?, minMemory?, List.filterMap_cons] using ih.mp h
      · rintro ⟨hsystem, hmin, hpaths, hnetwork, hbinSh⟩
        obtain ⟨ss, ts, hsplit, hss, hts⟩ := List.map_eq_append_iff.mp hpaths
        obtain ⟨t, ts, rfl, ht, hts⟩ := List.map_eq_cons_iff.mp hts
        refine ⟨_, ⟨t, ht, rfl⟩, ih.mpr ?_⟩
        refine ⟨hsystem, hmin, ?_, ?_, ?_⟩
        · rw [hpaths, List.map_append, List.map_singleton, ht, List.append_assoc]
          rfl
        · simpa using hnetwork
        · simpa using hbinSh

theorem tryIntoConstraints_eq_ok_iff {c : BuildConstraints} {s : Finset Build.BuildConstraints} :
    tryIntoConstraints c = .ok s ↔
      c.system ≠ [] ∧ (∀ p ∈ c.availableRoPaths.map Subtype.val, isCleanAbsolutePath p) ∧
      isSorted (c.availableRoPaths.map Subtype.val) ∧
      ∀ x, x ∈ s ↔ match x with
        | .system system => system = c.system
        | .minMemory minMemory => minMemory = c.minMemory
        | .availableReadOnlyPath path => path ∈ c.availableRoPaths.map Subtype.val
        | .networkAccess => c.networkAccess = true
        | .provideBinSh => c.provideBinSh = true := by
  simp only [tryIntoConstraints, except_bind_eq_ok_iff, demand_eq_ok_iff, demandEach_eq_ok_iff,
    exists_const, Bool.not_eq_true', List.isEmpty_eq_false_iff, pure, Except.pure, Except.ok.injEq]
  refine and_congr_right fun _ => and_congr_right fun _ => and_congr_right fun _ => ?_
  rw [@eq_comm _ _ s, Finset.ext_iff]
  refine forall_congr' fun x => ?_
  have hset : (x ∈ ({.system c.system, .minMemory c.minMemory} ∪
      (c.availableRoPaths.map fun p => Build.BuildConstraints.availableReadOnlyPath p.val).toFinset ∪
      (if c.networkAccess then {.networkAccess} else ∅) ∪
      (if c.provideBinSh then {.provideBinSh} else ∅) : Finset Build.BuildConstraints)) ↔
      match x with
        | .system system => system = c.system
        | .minMemory minMemory => minMemory = c.minMemory
        | .availableReadOnlyPath path => path ∈ c.availableRoPaths.map Subtype.val
        | .networkAccess => c.networkAccess = true
        | .provideBinSh => c.provideBinSh = true := by
    cases x <;> cases c.networkAccess <;> cases c.provideBinSh <;> simp
  rw [hset]

theorem convertConstraints_some_eq_ok_iff {c : BuildConstraints} {s : Finset Build.BuildConstraints} :
    convertConstraints (some c) = .ok s ↔ tryIntoConstraints c = .ok s := by
  rw [convertConstraints]
  cases tryIntoConstraints c with
  | ok s' => exact Iff.of_eq (by rw [Except.mapError, Except.ok.injEq, Except.ok.injEq])
  | error e => exact iff_of_false (fun h => by cases h) (fun h => by cases h)

/-- The constraints that survive the conversions, if they are iterated over in this order. -/
structure Kept (order : List Build.BuildConstraints) : Prop where
  system : ∃ s ≠ [], ∀ t, .system t ∈ order ↔ t = s
  minMemory : ∃ m, ∀ n, .minMemory n ∈ order ↔ n = m
  clean : ∀ p ∈ roPaths order, utf8Valid p = true ∧ isCleanAbsolutePath p
  sorted : isSorted (roPaths order)

/-- An order in which a set is iterated over. -/
def Iterates {α : Type} [DecidableEq α] (order : List α) (s : Finset α) : Prop :=
  order.Nodup ∧ order.toFinset = s

theorem exists_map_val_iff {ps : List Bytes} :
    (∃ ss : List Utf8, ss.map Subtype.val = ps) ↔ ∀ p ∈ ps, utf8Valid p = true := by
  constructor
  · rintro ⟨ss, rfl⟩ p hp
    obtain ⟨s, -, rfl⟩ := List.mem_map.mp hp
    exact s.property
  · intro h
    refine ⟨ps.attach.map fun p => ⟨p.val, h p.val p.property⟩, ?_⟩
    rw [List.map_map]
    exact List.attach_map_subtype_val ps

/-- The last element of a list all of whose elements are one. -/
theorem getLast?_getD_of_forall {α : Type} {l : List α} {a d : α} (h : ∀ b, b ∈ l ↔ b = a) :
    l.getLast?.getD d = a := by
  cases hlast : l.getLast? with
  | none =>
    rw [List.getLast?_eq_none_iff.mp hlast] at h
    exact absurd ((h a).mpr rfl) List.not_mem_nil
  | some b => exact (h b).mp (List.mem_of_getLast? hlast)

theorem constraints_iff {order : List Build.BuildConstraints} {s : Finset Build.BuildConstraints}
    (h : Iterates order s) :
    (∃ c, ofConstraints order s = some c ∧ convertConstraints c = .ok s) ↔ s = ∅ ∨ Kept order := by
  obtain ⟨-, rfl⟩ := h
  unfold ofConstraints
  split_ifs with hempty
  · refine iff_of_true ⟨none, rfl, ?_⟩ (.inl hempty)
    rw [hempty]
    rfl
  · rw [or_iff_right hempty]
    constructor
    · rintro ⟨c, hc, hs⟩
      obtain ⟨c, hfold, rfl⟩ := Option.map_eq_some_iff.mp hc
      rw [convertConstraints_some_eq_ok_iff, tryIntoConstraints_eq_ok_iff] at hs
      obtain ⟨-, -, hpaths, -, -⟩ := foldlM_setConstraint_eq_some_iff.mp hfold
      obtain ⟨hsystem, hclean, hsorted, hmem⟩ := hs
      change _ = [] ++ roPaths order at hpaths
      rw [List.nil_append] at hpaths
      rw [hpaths] at hclean hsorted
      refine ⟨⟨c.system, hsystem, fun t => ?_⟩, ⟨c.minMemory, fun n => ?_⟩, fun p hp => ?_, hsorted⟩
      · rw [← List.mem_toFinset]
        exact hmem (.system t)
      · rw [← List.mem_toFinset]
        exact hmem (.minMemory n)
      · exact ⟨exists_map_val_iff.mp ⟨_, hpaths⟩ p hp, hclean p hp⟩
    · rintro ⟨⟨s, hne, hs⟩, ⟨m, hm⟩, hclean, hsorted⟩
      obtain ⟨ss, hss⟩ := exists_map_val_iff.mpr fun p hp => (hclean p hp).1
      refine ⟨some ⟨s, m, ss, decide (.networkAccess ∈ order), decide (.provideBinSh ∈ order)⟩, ?_, ?_⟩
      · refine Option.map_eq_some_iff.mpr ⟨_, foldlM_setConstraint_eq_some_iff.mpr ?_, rfl⟩
        refine ⟨?_, ?_, hss, rfl, rfl⟩
        · exact (getLast?_getD_of_forall fun t => mem_filterMap_system?.trans (hs t)).symm
        · exact (getLast?_getD_of_forall fun n => mem_filterMap_minMemory?.trans (hm n)).symm
      · rw [convertConstraints_some_eq_ok_iff, tryIntoConstraints_eq_ok_iff]
        simp only [hss]
        refine ⟨hne, fun p hp => (hclean p hp).2, hsorted, fun x => ?_⟩
        rw [List.mem_toFinset]
        cases x with
        | system t => exact hs t
        | minMemory n => exact hm n
        | availableReadOnlyPath p => exact mem_roPaths.symm
        | networkAccess => exact decide_eq_true_iff.symm
        | provideBinSh => exact decide_eq_true_iff.symm

-- ====================
-- Round trips
-- ====================

/-- The message of the request is read as the request. -/
def RoundTrips (order : List Build.BuildConstraints) (b : Build.BuildRequest) : Prop :=
  ∃ m, ofBuildRequest order b = some m ∧ tryFrom m = .ok b

/-- The paths of a request are strings. -/
structure Utf8Paths (b : Build.BuildRequest) : Prop where
  workingDir : utf8Valid b.workingDir = true
  scratchPaths : ∀ p ∈ b.scratchPaths, utf8Valid p = true
  inputsDir : utf8Valid b.inputsDir = true
  outputs : ∀ p ∈ b.outputs, utf8Valid p = true
  additionalFiles : ∀ f ∈ b.additionalFiles, utf8Valid f.path = true

theorem Matches.utf8Paths {m : BuildRequest} {b : Build.BuildRequest} (h : Matches m b) : Utf8Paths b where
  workingDir := h.workingDir ▸ m.workingDir.property
  scratchPaths := exists_map_val_iff.mp ⟨_, h.scratchPaths⟩
  inputsDir := h.inputsDir ▸ m.inputsDir.property
  outputs := exists_map_val_iff.mp ⟨_, h.outputs⟩
  additionalFiles f hf := by
    rw [← h.additionalFiles] at hf
    obtain ⟨g, -, rfl⟩ := List.mem_map.mp hf
    exact g.path.property

theorem Utf8Paths.exists_matches {b : Build.BuildRequest} (h : Utf8Paths b)
    (constraints : Option BuildConstraints) : ∃ m, Matches m b ∧ m.constraints = constraints := by
  obtain ⟨scratch, hscratch⟩ := exists_map_val_iff.mpr h.scratchPaths
  obtain ⟨outs, houts⟩ := exists_map_val_iff.mpr h.outputs
  refine ⟨⟨b.inputs.entries.map ofInput, b.commandArgs, ⟨b.workingDir, h.workingDir⟩, scratch,
    ⟨b.inputsDir, h.inputsDir⟩, outs, b.environmentVars, constraints,
    b.additionalFiles.attach.map fun f => ⟨⟨f.val.path, h.additionalFiles f.val f.property⟩, f.val.contents⟩,
    b.refscanNeedles⟩, ⟨rfl, rfl, rfl, hscratch, rfl, houts, rfl, ?_, rfl⟩, rfl⟩
  rw [List.map_map]
  exact List.attach_map_subtype_val b.additionalFiles

theorem Matches.valid {m : BuildRequest} {b b' : Build.BuildRequest} (h : Matches m b) (h' : Matches m b')
    (hv : Valid b) : Valid b' := by
  have hwd := h.workingDir.symm.trans h'.workingDir
  have hscratch := h.scratchPaths.symm.trans h'.scratchPaths
  have hdir := h.inputsDir.symm.trans h'.inputsDir
  have houts := h.outputs.symm.trans h'.outputs
  have henv := h.environmentVars.symm.trans h'.environmentVars
  have hfiles := h.additionalFiles.symm.trans h'.additionalFiles
  exact ⟨hwd ▸ hv.workingDir, hscratch ▸ hv.scratchPaths, hscratch ▸ hv.scratchPathsSorted,
    hdir ▸ hv.inputsDir, houts ▸ hv.outputs, houts ▸ hv.outputsSorted, henv ▸ hv.environmentVars,
    henv ▸ hv.environmentVarsSorted, hfiles ▸ hv.additionalFiles, hfiles ▸ hv.additionalFilesSorted⟩

/-- When the message of a request is read at all. -/
theorem exists_tryFrom_iff {order : List Build.BuildConstraints} {b : Build.BuildRequest} :
    (∃ m b', ofBuildRequest order b = some m ∧ tryFrom m = .ok b') ↔
      Utf8Paths b ∧ Valid b ∧
        ∃ c s, ofConstraints order b.constraints = some c ∧ convertConstraints c = .ok s := by
  simp only [ofBuildRequest_eq_some_iff, tryFrom_eq_ok_iff]
  constructor
  · rintro ⟨m, b', ⟨hm, hof⟩, hm', hv, hconv⟩
    exact ⟨hm.utf8Paths, hm'.valid hm hv, m.constraints, b'.constraints, hof, hconv⟩
  · rintro ⟨hutf8, hv, c, s, hof, hconv⟩
    obtain ⟨m, hm, rfl⟩ := hutf8.exists_matches c
    have hm' : Matches m { b with constraints := s } :=
      ⟨hm.inputs, hm.commandArgs, hm.workingDir, hm.scratchPaths, hm.inputsDir, hm.outputs,
        hm.environmentVars, hm.additionalFiles, hm.refscanNeedles⟩
    exact ⟨m, { b with constraints := s }, ⟨hm, hof⟩, hm', hm.valid hm' hv, hconv⟩

/-- A set of constraints with one system and without read-only paths is always read. -/
theorem exists_convertConstraints {order : List Build.BuildConstraints} {s : Finset Build.BuildConstraints}
    {system : Bytes} (h : Iterates order s) (hne : system ≠ [])
    (hsystem : ∀ t, .system t ∈ s ↔ t = system) (hpaths : ∀ p, .availableReadOnlyPath p ∉ s) :
    ∃ c s', ofConstraints order s = some c ∧ convertConstraints c = .ok s' := by
  obtain ⟨-, rfl⟩ := h
  simp only [List.mem_toFinset] at hsystem hpaths
  have hnonempty : order.toFinset ≠ ∅ := by
    intro hempty
    rw [List.toFinset_eq_empty_iff] at hempty
    rw [hempty] at hsystem
    exact List.not_mem_nil ((hsystem system).mpr rfl)
  have hnone : roPaths order = [] :=
    List.eq_nil_iff_forall_not_mem.mpr fun p hp => hpaths p (mem_roPaths.mp hp)
  obtain ⟨c, hc⟩ : ∃ c, order.foldlM setConstraint .default = some c :=
    ⟨⟨_, _, [], _, _⟩, foldlM_setConstraint_eq_some_iff.mpr ⟨rfl, rfl, by rw [hnone]; rfl, rfl, rfl⟩⟩
  obtain ⟨hcsystem, -, hcpaths, -, -⟩ := foldlM_setConstraint_eq_some_iff.mp hc
  rw [hnone] at hcpaths
  have hcne : c.system ≠ [] := by
    rw [hcsystem, getLast?_getD_of_forall fun t => mem_filterMap_system?.trans (hsystem t)]
    exact hne
  have hro : c.availableRoPaths = [] := List.map_eq_nil_iff.mp hcpaths
  have hread : ∃ s', tryIntoConstraints c = .ok s' := by
    simp only [tryIntoConstraints, except_bind_eq_ok_iff, demand_eq_ok_iff, demandEach_eq_ok_iff,
      exists_const, hro, List.map_nil, Bool.not_eq_true', List.isEmpty_eq_false_iff]
    exact ⟨_, hcne, List.forall_mem_nil _, rfl, rfl⟩
  obtain ⟨s', hs'⟩ := hread
  refine ⟨some c, s', ?_, convertConstraints_some_eq_ok_iff.mpr hs'⟩
  rw [ofConstraints, if_neg hnonempty, hc]
  rfl

/-- A request is read back from its message exactly if its fields are valid, its paths are strings,
    and it has no constraints or such that survive. Of a request that was read from a message, the
    order of its read-only paths decides. -/
theorem roundTrip_iff (b : Build.BuildRequest) (order : List Build.BuildConstraints) :
    (Iterates order b.constraints →
      (RoundTrips order b ↔ Utf8Paths b ∧ Valid b ∧ (b.constraints = ∅ ∨ Kept order))) ∧
    ∀ m, tryFrom m = .ok b → Iterates order b.constraints →
      (RoundTrips order b ↔ isSorted (roPaths order) = true) := by
  have hiff : Iterates order b.constraints →
      (RoundTrips order b ↔ Utf8Paths b ∧ Valid b ∧ (b.constraints = ∅ ∨ Kept order)) := by
    intro h
    rw [← constraints_iff h, RoundTrips]
    simp only [ofBuildRequest_eq_some_iff, tryFrom_eq_ok_iff]
    constructor
    · rintro ⟨m, ⟨hm, hof⟩, -, hv, hconv⟩
      exact ⟨hm.utf8Paths, hv, m.constraints, hof, hconv⟩
    · rintro ⟨hutf8, hv, c, hof, hconv⟩
      obtain ⟨m, hm, rfl⟩ := hutf8.exists_matches c
      exact ⟨m, ⟨hm, hof⟩, hm, hv, hconv⟩
  refine ⟨hiff, fun m hread h => ?_⟩
  obtain ⟨hm, hv, hconv⟩ := tryFrom_eq_ok_iff.mp hread
  rw [hiff h, and_iff_right hm.utf8Paths, and_iff_right hv]
  obtain ⟨-, hset⟩ := h
  cases hc : m.constraints with
  | none =>
    rw [hc] at hconv
    have hempty : b.constraints = ∅ := (Except.ok.inj hconv).symm
    rw [hempty, List.toFinset_eq_empty_iff] at hset
    exact iff_of_true (.inl hempty) (by rw [hset]; rfl)
  | some c =>
    rw [hc, convertConstraints_some_eq_ok_iff, tryIntoConstraints_eq_ok_iff] at hconv
    obtain ⟨hne, hclean, -, hmem⟩ := hconv
    simp only [← hset, List.mem_toFinset] at hmem
    constructor
    · rintro (hempty | hkept)
      · have hsystem : Build.BuildConstraints.system c.system ∈ order := (hmem (.system c.system)).mpr rfl
        rw [← List.mem_toFinset, hset, hempty] at hsystem
        cases hsystem
      · exact hkept.sorted
    · intro hsorted
      refine .inr ⟨⟨c.system, hne, fun t => hmem (.system t)⟩, ⟨c.minMemory, fun n => hmem (.minMemory n)⟩,
        fun p hp => ?_, hsorted⟩
      have hp' := (hmem (.availableReadOnlyPath p)).mp (mem_roPaths.mp hp)
      exact ⟨exists_map_val_iff.mp ⟨_, rfl⟩ p hp', hclean p hp'⟩

theorem utf8Valid_fixture_build : utf8Valid (ascii "build") = true := by decide +kernel

theorem utf8Valid_fixture_store : utf8Valid (ascii "nix/store") = true := by decide +kernel

theorem utf8Valid_fixture_a : utf8Valid [47, 97] = true := by decide +kernel

theorem utf8Valid_fixture_b : utf8Valid [47, 98] = true := by decide +kernel

/-- A message that asks for the paths `/a` and `/b`. -/
def roMessage : BuildRequest :=
  ⟨[], [], ⟨ascii "build", utf8Valid_fixture_build⟩, [], ⟨ascii "nix/store", utf8Valid_fixture_store⟩, [], [],
    some ⟨ascii "x86_64-linux", 0, [⟨[47, 97], utf8Valid_fixture_a⟩, ⟨[47, 98], utf8Valid_fixture_b⟩],
      false, false⟩, [], []⟩

def roRequest (constraints : Finset Build.BuildConstraints) : Build.BuildRequest :=
  ⟨.empty, [], ascii "build", [], ascii "nix/store", [], [], constraints, [], []⟩

/-- The constraints of the message, in an order in which their set may be iterated over. -/
def roOrder : List Build.BuildConstraints :=
  [.availableReadOnlyPath [47, 98], .availableReadOnlyPath [47, 97], .system (ascii "x86_64-linux"),
    .minMemory 0]

/-- A request that was read from a message is not read back from the message it is written as, if
    its read-only paths are iterated over in descending order, and neither is one without a minimum
    of memory. -/
theorem not_roundTrips_roOrder :
    tryFrom roMessage = .ok (roRequest roOrder.toFinset) ∧ Iterates roOrder roOrder.toFinset ∧
      ¬ RoundTrips roOrder (roRequest roOrder.toFinset) ∧
      ¬ RoundTrips [.system (ascii "x86_64-linux")]
        (roRequest [.system (ascii "x86_64-linux")].toFinset) := by
  have hrelative : isCleanRelativePath (ascii "build") = true ∧
      isCleanRelativePath (ascii "nix/store") = true := by decide +kernel
  have hkept : ∀ order, order.Nodup → RoundTrips order (roRequest order.toFinset) →
      order.toFinset = ∅ ∨ Kept order := by
    rintro order hnodup ⟨m, hof, hread⟩
    obtain ⟨-, hconstraints⟩ := ofBuildRequest_eq_some_iff.mp hof
    obtain ⟨-, -, hconvert⟩ := tryFrom_eq_ok_iff.mp hread
    exact (constraints_iff ⟨hnodup, rfl⟩).mp ⟨m.constraints, hconstraints, hconvert⟩
  refine ⟨tryFrom_eq_ok_iff.mpr ⟨⟨rfl, rfl, rfl, rfl, rfl, rfl, rfl, rfl, rfl⟩, ?_, ?_⟩,
    ⟨by decide +kernel, rfl⟩, fun h => ?_, fun h => ?_⟩
  · refine ⟨hrelative.1, ?_, rfl, hrelative.2, ?_, rfl, ?_, rfl, ?_, rfl⟩ <;> exact fun _ h => by cases h
  · rw [roMessage, convertConstraints_some_eq_ok_iff, tryIntoConstraints_eq_ok_iff]
    refine ⟨by decide +kernel, by decide +kernel, by decide +kernel, fun x => ?_⟩
    cases x <;> simp [roRequest, roOrder, or_comm]
  · obtain hempty | hkept := hkept roOrder (by decide +kernel) h
    · exact absurd (List.toFinset_eq_empty_iff _ |>.mp hempty) (by simp [roOrder])
    · exact absurd hkept.sorted (by decide +kernel)
  · obtain hempty | hkept := hkept _ (List.nodup_singleton _) h
    · exact absurd (List.toFinset_eq_empty_iff _ |>.mp hempty) (List.cons_ne_nil _ _)
    · obtain ⟨m, hm⟩ := hkept.minMemory
      exact absurd ((hm m).mpr rfl) (by simp)

end Snix.Build.Proto
