import Snix.NixCompat.Derivation.Write

/-!
# Parsing derivations

The parser of the ATerm serialisation. Errors carry the input they were raised
at. A rejected output is a recoverable error without its reason, as the
conversion runs under `mapRes`; everything else that is rejected after it was
read is an unrecoverable failure.

## Main definitions

- `parseOutputs`, `parseInputDerivations`, `parseInputSources`, `parseKv` — the
  sections
- `parseDerivation` — the whole term
- `Derivation.fromAtermBytes` — the term and nothing else, validated
-/

namespace Snix

open StreamParser Aterm

/-- Why a derivation is rejected. -/
inductive ErrorKind where
  | duplicateMapKey (key : Utf8)
  | duplicateInputDerivationOutputName (name : OutputName) (path : Utf8)
  | duplicateInputSource (path : StorePath)
  | invalidOutputName (e : ParseOutputNameError)
  | invalidOutputs (e : OutputsError)
  | nixHashError (e : NixHash.Error)
  | storePathError (e : ParseStorePathError)
  | nom (kind : Kind)
  deriving DecidableEq

/-- An error and where it was raised. -/
structure NomError where
  input : Bytes
  code : ErrorKind
  deriving DecidableEq

instance : ParseError NomError := ⟨fun input kind => ⟨input, .nom kind⟩⟩

def NomError.ofError (e : StreamParser.Error) : NomError := ⟨e.input, .nom e.code⟩

/-- Raises a plain parser error as a derivation parser error. -/
def intoNomError {α : Type} (p : Parser StreamParser.Error α) : Parser NomError α :=
  mapErr NomError.ofError p

/-- Returns a converted value, with `rest` unread, or fails at `i` for good. -/
def orFailAt {α : Type} (i rest : Bytes) : Except ErrorKind α → IResult NomError α
  | .ok a => .ok (rest, a)
  | .error code => .error (.failure ⟨i, code⟩)

def stringToStorePath (s : Bytes) : Except ErrorKind StorePath :=
  (StorePath.fromAbsolutePath s).mapError .storePathError

/-- The declared hash of an output, if the fields are not both empty. -/
def parseOutputHash (algoAndMode encodedDigest : Bytes) : Except ErrorKind (Option OutputHash) :=
  if algoAndMode.isEmpty && encodedDigest.isEmpty then .ok none
  else do
    let digest ← (hexDecode encodedDigest).mapError fun e =>
      ErrorKind.nixHashError (.invalidBase16Encoding e)
    let outputHash ← (OutputHash.fromModeAlgoAndDigest algoAndMode digest).mapError .nixHashError
    return some outputHash

/-- Converts the four fields of an output. -/
def outputOfFields (x : Utf8 × Utf8 × Utf8 × Bytes) : Except ErrorKind (OutputName × Output) := do
  let (outputNameStr, outputPathStr, algoAndMode, encodedDigest) := x
  let outputName ← (OutputName.fromStr outputNameStr.val).mapError .invalidOutputName
  let outputPath ← stringToStorePath outputPathStr.val
  let outputHash ← parseOutputHash algoAndMode.val encodedDigest
  return (outputName, ⟨some outputPath, outputHash⟩)

/-- The four fields of an output. -/
def parseOutputFields : Parser StreamParser.Error (Utf8 × Utf8 × Utf8 × Bytes) :=
  andThen (terminated parseStringField (char COMMA)) fun name =>
    andThen (terminated parseStringField (char COMMA)) fun path =>
      andThen (terminated parseStringField (char COMMA)) fun algoAndMode =>
        andThen parseBytesField fun digest => success (name, path, algoAndMode, digest)

/-- One output. -/
def parseOutput : Parser NomError (OutputName × Output) :=
  delimited (char PAREN_OPEN)
    (mapRes (fun x => (outputOfFields x).toOption) (intoNomError parseOutputFields))
    (char PAREN_CLOSE)

/-- All outputs. -/
def parseOutputs : Parser NomError Outputs := fun i =>
  match delimited (char BRACKET_OPEN) (separatedList1 (tag [COMMA]) parseOutput)
      (char BRACKET_CLOSE) i with
  | .ok (rest, outputsLst) =>
    orFailAt i rest ((Outputs.tryFromIter outputsLst).mapError .invalidOutputs)
  | .error e => .error e

/-- One pair of a map. -/
def parsePair {β : Type} (vf : Parser StreamParser.Error β) :
    Parser StreamParser.Error (Utf8 × β) :=
  delimited (char PAREN_OPEN) (separatedPair parseStringField (char COMMA) vf) (char PAREN_CLOSE)

/-- Collects pairs, refusing a repeated key. -/
def collectPairs {β : Type} (pairs : List (Utf8 × β)) : Except ErrorKind (SortedMap Utf8.cmp β) :=
  SortedMap.collectNew .ok (fun _ key => .duplicateMapKey key) pairs .empty

/-- A list of pairs as a map. Values are read by `vf`; a repeated key is a
    failure at the start of the list. -/
def parseKv {β : Type} (vf : Parser StreamParser.Error β) :
    Parser NomError (SortedMap Utf8.cmp β) := fun i =>
  delimited (char BRACKET_OPEN)
    (fun ii =>
      match intoNomError (separatedList0 (char COMMA) (parsePair vf)) ii with
      | .ok (rest, pairs) => orFailAt i rest (collectPairs pairs)
      | .error e => .error e)
    (char BRACKET_CLOSE) i

/-- The output names of one input derivation. -/
def collectOutputNames (inputDerivation : Utf8) (names : List Utf8) :
    Except ErrorKind OutputNames :=
  SortedMap.collectNew
    (fun s : Utf8 => do
      let name ← (OutputName.fromStr s.val).mapError ErrorKind.invalidOutputName
      return (name, ()))
    (fun _ name => .duplicateInputDerivationOutputName name inputDerivation) names .empty

/-- Converts the input derivations one by one. -/
def collectInputDerivations : List (Utf8 × List Utf8) → InputDerivations →
    Except ErrorKind InputDerivations
  | [], m => .ok m
  | (inputDerivation, names) :: rest, m => do
    let outputNames ← collectOutputNames inputDerivation names
    let path ← stringToStorePath inputDerivation.val
    collectInputDerivations rest (m.insert path outputNames)

def parseInputDerivations : Parser NomError InputDerivations := fun i =>
  match parseKv parseStringList i with
  | .ok (rest, inputDerivationsList) =>
    orFailAt rest rest (collectInputDerivations inputDerivationsList.entries .empty)
  | .error e => .error e

/-- Converts the input sources one by one. -/
def collectInputSources (sources : List Utf8) : Except ErrorKind (SortedSet StorePath.cmp) :=
  SortedMap.collectNew
    (fun s : Utf8 => do
      let path ← stringToStorePath s.val
      return (path, ()))
    (fun _ path => .duplicateInputSource path) sources .empty

def parseInputSources : Parser NomError (SortedSet StorePath.cmp) := fun i =>
  match intoNomError parseStringList i with
  | .ok (rest, inputSourcesLst) => orFailAt rest rest (collectInputSources inputSourcesLst)
  | .error e => .error e

/-- The fields of a derivation. -/
def parseDerivationFields : Parser NomError Derivation :=
  andThen (terminated parseOutputs (char COMMA)) fun outputs =>
  andThen (terminated parseInputDerivations (char COMMA)) fun inputDerivations =>
  andThen (terminated parseInputSources (char COMMA)) fun inputSources =>
  andThen (intoNomError (terminated parseStringField (char COMMA))) fun system =>
  andThen (intoNomError (terminated parseStringField (char COMMA))) fun builder =>
  andThen (intoNomError (terminated parseStringList (char COMMA))) fun arguments =>
  andThen (parseKv parseBytesField) fun environment =>
  success ⟨arguments, builder, environment, inputDerivations, inputSources, outputs, system⟩

/-- A derivation. -/
def parseDerivation : Parser NomError Derivation :=
  preceded (tag DERIVATION_PREFIX)
    (delimited (char PAREN_OPEN) parseDerivationFields (char PAREN_CLOSE))

/-- Errors of the derivation parser. -/
inductive ParserError where
  | parser (e : NomError)
  | incomplete
  | validation (e : DerivationError)
  deriving DecidableEq

namespace Derivation

/-- Parses a derivation that must be the whole input, and validates it. -/
def fromAtermBytes (i : Bytes) : Except ParserError Derivation :=
  match allConsuming parseDerivation i with
  | .ok (_, d) =>
    match d.validate with
    | .ok _ => .ok d
    | .error e => .error (.validation e)
  | .error .incomplete => .error .incomplete
  | .error (.error e) => .error (.parser e)
  | .error (.failure e) => .error (.parser e)

end Derivation

end Snix
