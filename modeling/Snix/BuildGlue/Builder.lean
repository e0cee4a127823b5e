import Snix.Build.BuildRequest
import Snix.Lib.Effect
import Snix.Lib.StableSort
import Snix.NixCompat.Derivation.HashModulo
import Snix.Store.PathInfo

/-!
# From derivations to build requests

What a builder is asked to do for a derivation: which inputs it sees, which
command it runs in which environment, and which outputs it has to produce.

The file contents for structured attributes are JSON and shell text made from
JSON; the function that makes them is a parameter.

## Main definitions

- `BuildRequest`, `BuildResult` — what is sent to a builder, what comes back
- `KnownPaths` — what the evaluator has learnt about store paths
- `getAllInputs` — the closure of the inputs of a derivation
- `derivationIntoBuildRequest` — the build request of a derivation
-/

namespace Snix.BuildGlue

open Castore Store

open Build (BuildConstraints)

/-- An I/O error, or a panic. -/
inductive Fault where
  | other (message : Bytes)
  | invalidInput (message : Bytes)
  | invalidData (message : Bytes)
  | panic (message : Bytes)
  /-- The run was cut off. -/
  | cutOff
  deriving DecidableEq

/-- A map from byte strings in their order. -/
abbrev BytesMap := SortedMap (compare : Bytes → Bytes → Ordering) Bytes

/-- What is sent to a builder. -/
structure BuildRequest where
  inputs : List (Bytes × Node)
  commandArgs : List Bytes
  workingDir : Bytes
  scratchPaths : List Bytes
  inputsDir : Bytes
  outputs : List Bytes
  environmentVars : List (Bytes × Bytes)
  constraints : List BuildConstraints
  additionalFiles : List (Bytes × Bytes)
  refscanNeedles : List Bytes

/-- One output of a build: its contents, and which needles were found in it. -/
structure BuildOutput where
  node : Node
  outputNeedles : List ℕ
  deriving DecidableEq

/-- What comes back, in the order of the requested outputs. -/
structure BuildResult where
  outputs : List BuildOutput

/-- What the evaluator has learnt about store paths. -/
structure KnownPaths (Fetch : Type) where
  derivations : List (StorePath × ByteArr 32 × Derivation)
  outputsToDrvpath : List (StorePath × StorePath)
  outputsToFetches : List (StorePath × Bytes × Fetch)

namespace KnownPaths

variable {Fetch : Type} (known : KnownPaths Fetch)

def getDrvByDrvpath (drvPath : StorePath) : Option Derivation :=
  (known.derivations.lookup drvPath).map Prod.snd

def getDrvPathForOutputPath (outputPath : StorePath) : Option StorePath :=
  known.outputsToDrvpath.lookup outputPath

def getFetchForOutputPath (outputPath : StorePath) : Option (Bytes × Fetch) :=
  known.outputsToFetches.lookup outputPath

end KnownPaths

-- ====================
-- Inputs
-- ====================

/-- The store path of one output of an input derivation. -/
def inputOutputPath (drv : Derivation) (output : OutputName) : Except Fault StorePath :=
  match drv.outputs.get output with
  | none => .error (.panic (ascii "No output bug!"))
  | some o =>
    match o.path with
    | none => .error (.panic (ascii "output has no store path"))
    | some path => .ok path

/-- The direct inputs: the input sources, and the used outputs of the input
    derivations. -/
def directInputs {Fetch : Type} (derivation : Derivation) (known : KnownPaths Fetch) :
    Except Fault (List StorePath) := do
  let outputs ← derivation.inputDerivations.entries.mapM fun e =>
    match known.getDrvByDrvpath e.1 with
    | none => .error (.panic (ascii "drv Bug!!"))
    | some drv => e.2.elems.mapM (inputOutputPath drv)
  return derivation.inputSources.elems ++ outputs.flatten

/-- Queues the references that were not seen before. -/
def queueReferences : List StorePath → List StorePath → List StorePath →
    List StorePath × List StorePath
  | [], queue, visited => (queue, visited)
  | reference :: rest, queue, visited =>
    if visited.contains reference then queueReferences rest queue visited
    else queueReferences rest (queue ++ [reference]) (reference :: visited)

/-- The nodes of the inputs by store path. -/
abbrev InputNodes := SortedMap StorePath.cmp Node

/-- Works off the queue of inputs, adding the references of each. -/
def getAllInputs {σ : Type} (getPathInfo : StorePath → EStateM Fault σ (Option PathInfo)) :
    ℕ → List StorePath → List StorePath → InputNodes → EStateM Fault σ InputNodes
  | _, [], _, nodes => pure nodes
  | 0, _ :: _, _, _ => throw .cutOff
  | fuel + 1, storePath :: queue, visited, nodes => do
    let info? ← getPathInfo storePath
    match info? with
    | none => throw (.other (ascii "path_info not present"))
    | some info =>
      let (queue, visited) := queueReferences info.references queue visited
      getAllInputs getPathInfo fuel queue visited (nodes.insert info.storePath info.node)

-- ====================
-- Placeholders
-- ====================

/-- Replaces the matches of `pat` from left to right; `skip` bytes of the last
    match are still to be dropped. -/
def replaceGo (pat rep : Bytes) : ℕ → Bytes → Bytes
  | _, [] => []
  | skip + 1, _ :: rest => replaceGo pat rep skip rest
  | 0, c :: rest =>
    if pat <+: c :: rest then rep ++ replaceGo pat rep (pat.length - 1) rest
    else c :: replaceGo pat rep 0 rest

/-- The text that stands for the path of an output in a derivation. -/
def hashPlaceholder (sha256 : Bytes → ByteArr 32) (name : Bytes) : Bytes :=
  ascii "/" ++ Nixbase32.encode (sha256 (ascii "nix-output:" ++ name)).val

/-- Replaces the placeholders of the outputs by their paths. -/
def replacePlaceholders (sha256 : Bytes → ByteArr 32) (s : Bytes) (outputs : Outputs) : Bytes :=
  outputs.iter.foldl (fun s e =>
    match e.2.path with
    | some path => replaceGo (hashPlaceholder sha256 e.1.name) path.toAbsolutePath 0 s
    | none => s) s

-- ====================
-- Build requests
-- ====================

/-- The environment variables set for every build. -/
def NIX_ENVIRONMENT_VARS : List (Bytes × Bytes) :=
  [(ascii "HOME", ascii "/homeless-shelter"), (ascii "NIX_BUILD_CORES", ascii "0"),
    (ascii "NIX_BUILD_TOP", ascii "/build"), (ascii "NIX_LOG_FD", ascii "2"),
    (ascii "NIX_STORE", ascii "/nix/store"), (ascii "PATH", ascii "/path-not-set"),
    (ascii "PWD", ascii "/build"), (ascii "TEMP", ascii "/build"),
    (ascii "TEMPDIR", ascii "/build"), (ascii "TERM", ascii "xterm-256color"),
    (ascii "TMP", ascii "/build"), (ascii "TMPDIR", ascii "/build")]

/-- The variable and the file that replace a variable passed as file. -/
def calculatePassAsFileEnv (sha256 : Bytes → ByteArr 32) (k : Bytes) : Bytes × Bytes :=
  (k ++ ascii "Path", ascii "/build/.attr-" ++ Nixbase32.encode (sha256 k).val)

/-- Moves the listed variables into files, one by one. -/
def passAsFileLoop (sha256 : Bytes → ByteArr 32) :
    List Bytes → BytesMap × BytesMap → Except Fault (BytesMap × BytesMap)
  | [], maps => .ok maps
  | x :: rest, (environmentVars, additionalFiles) =>
    match environmentVars.get? x with
    | none => .error (.invalidData (ascii "passAsFile refers to non-existent env key"))
    | some contents =>
      let (newKey, path) := calculatePassAsFileEnv sha256 x
      passAsFileLoop sha256 rest
        ((environmentVars.erase x).insert newKey path, additionalFiles.insert (path.drop 1) contents)

/-- Handles `passAsFile`, if it is set. -/
def handlePassAsFile (sha256 : Bytes → ByteArr 32) (maps : BytesMap × BytesMap) :
    Except Fault (BytesMap × BytesMap) :=
  match maps.1.get? (ascii "passAsFile") with
  | none => .ok maps
  | some v =>
    if utf8Valid v then passAsFileLoop sha256 (v.splitOn 32) maps
    else .error (.invalidInput (ascii "passAsFile elements are no valid utf8 strings"))

/-- Adds the files and variables of structured attributes. `render` makes the
    contents of the JSON and of the shell file. -/
def handleStructuredAttrs (render : Bytes → List (Bytes × Bytes) → Except Fault (Bytes × Bytes))
    (json : Bytes) (outputs : List (Bytes × Bytes)) (maps : BytesMap × BytesMap) :
    Except Fault (BytesMap × BytesMap) := do
  let (jsonFile, shFile) ← render json outputs
  return ((maps.1.insert (ascii "NIX_ATTRS_JSON_FILE") (ascii "/build/.attrs.json")).insert
      (ascii "NIX_ATTRS_SH_FILE") (ascii "/build/.attrs.sh"),
    (maps.2.insert (ascii "build/.attrs.json") jsonFile).insert (ascii "build/.attrs.sh") shFile)

/-- The paths of the outputs, which all have to be known. -/
def outputPaths (outputs : Outputs) : Except Fault (List StorePath) :=
  outputs.iter.mapM fun e =>
    match e.2.path with
    | some path => .ok path
    | none => .error (.panic (ascii "Snix bug: Output has no path"))

/-- The environment and the additional files of a build. -/
def buildEnvironment (sha256 : Bytes → ByteArr 32)
    (render : Bytes → List (Bytes × Bytes) → Except Fault (Bytes × Bytes))
    (derivation : Derivation) : Except Fault (BytesMap × BytesMap) :=
  let start : BytesMap := NIX_ENVIRONMENT_VARS.foldl (fun m e => m.insert e.1 e.2) .empty
  match (derivation.environment.entries.find? fun e => e.1.val = ascii "__json").map Prod.snd with
  | some json => do
    let paths ← outputPaths derivation.outputs
    let named := (derivation.outputs.iter.map fun e => e.1.name).zip
      (paths.map StorePath.toAbsolutePath)
    handleStructuredAttrs render (replacePlaceholders sha256 json derivation.outputs) named
      (start, .empty)
  | none =>
    let vars := derivation.environment.entries.foldl (fun m e =>
      m.insert e.1.val (replacePlaceholders sha256 e.2 derivation.outputs)) start
    handlePassAsFile sha256 (vars, .empty)

/-- The build request of a derivation. -/
def derivationIntoBuildRequest (sha256 : Bytes → ByteArr 32)
    (render : Bytes → List (Bytes × Bytes) → Except Fault (Bytes × Bytes))
    (derivation : Derivation) (inputs : InputNodes) : Except Fault BuildRequest := do
  let commandArgs := (derivation.builder :: derivation.arguments).map fun s =>
    replacePlaceholders sha256 s.val derivation.outputs
  let (environmentVars, additionalFiles) ← buildEnvironment sha256 render derivation
  let paths ← outputPaths derivation.outputs
  return {
    refscanNeedles := (paths ++ inputs.keys).map fun p => Nixbase32.encode p.digest.val
    commandArgs := commandArgs
    outputs := paths.map fun p => p.toAbsolutePath.drop 1
    environmentVars := environmentVars.entries
    inputs := inputs.entries.map fun e => (e.1.display, e.2)
    inputsDir := STORE_DIR.drop 1
    constraints :=
      [.system derivation.system.val, .provideBinSh] ++
        (if derivation.outputs.len = 1 ∧ (derivation.outputs.get .out).any Output.isFixed then
          [.networkAccess] else [])
    workingDir := ascii "build"
    scratchPaths := [ascii "build", ascii "nix/store"]
    additionalFiles := additionalFiles.entries }

end Snix.BuildGlue
