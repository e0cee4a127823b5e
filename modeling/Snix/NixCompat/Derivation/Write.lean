import Snix.NixCompat.Aterm
import Snix.NixCompat.Derivation.Basic

/-!
# Writing derivations

The ATerm serialisation of a derivation. The key of an input derivation is a
store path in the file that is stored, and a digest where the derivation is
hashed, so the writer takes the entries with their keys already written.

## Main definitions

- `Derivation.serializeWithReplacements` — the writer
- `Derivation.toAtermBytes` — the serialisation
-/

namespace Snix

open StreamParser Aterm

def DERIVATION_PREFIX : Bytes := ascii "Derive"

/-- A store path, written without escaping. -/
def StorePath.atermWrite (p : StorePath) : Bytes := QUOTE :: (p.toAbsolutePath ++ [QUOTE])

/-- A string, written with escaping. -/
def strAtermWrite (s : Bytes) : Bytes := writeField s true

/-- A digest, written in hexadecimal without escaping. -/
def digestAtermWrite (digest : ByteArr 32) : Bytes := writeField (hexEncode digest.val) false

def OutputName.atermWrite (n : OutputName) : Bytes := writeField n.name false

/-- Writes elements with commas between them. -/
def writeArrayElements {α : Type} (atermWrite : α → Bytes) (elements : List α) : Bytes :=
  joined COMMA atermWrite elements

/-- Writes one output: name, path, mode and algorithm, digest. -/
def writeOutput (e : OutputName × Output) : Bytes :=
  let pathStr := (e.2.path.map StorePath.toAbsolutePath).getD []
  PAREN_OPEN ::
    ((match e.2.outputHash with
      | some outputHash =>
        writeArrayElements strAtermWrite
          [e.1.name, pathStr, outputHash.asModeAndAlgoStr,
            hexEncode outputHash.hash.digestAsBytes]
      | none => writeArrayElements strAtermWrite [e.1.name, pathStr, [], []]) ++
      [PAREN_CLOSE])

def writeOutputs (outputs : Outputs) : Bytes :=
  BRACKET_OPEN :: (joined COMMA writeOutput outputs.iter ++ [BRACKET_CLOSE])

/-- Writes one input derivation, whose key is written by `atermWrite`. -/
def writeInputDerivation {κ : Type} (atermWrite : κ → Bytes) (e : κ × OutputNames) : Bytes :=
  PAREN_OPEN ::
    (atermWrite e.1 ++ COMMA :: BRACKET_OPEN ::
      (writeArrayElements OutputName.atermWrite e.2.elems ++ [BRACKET_CLOSE]) ++ [PAREN_CLOSE])

def writeInputDerivations {κ : Type} (atermWrite : κ → Bytes)
    (inputDerivationsSorted : List (κ × OutputNames)) : Bytes :=
  BRACKET_OPEN ::
    (joined COMMA (writeInputDerivation atermWrite) inputDerivationsSorted ++ [BRACKET_CLOSE])

def writeInputSources (inputSources : SortedSet StorePath.cmp) : Bytes :=
  BRACKET_OPEN ::
    (writeArrayElements StorePath.atermWrite inputSources.elems ++ [BRACKET_CLOSE])

def writeSystem (platform : Utf8) : Bytes := writeField platform.val true

def writeBuilder (builder : Utf8) : Bytes := writeField builder.val true

def writeArguments (arguments : List Utf8) : Bytes :=
  BRACKET_OPEN ::
    (writeArrayElements (fun s : Utf8 => strAtermWrite s.val) arguments ++ [BRACKET_CLOSE])

/-- Writes one environment variable. The name is written without escaping. -/
def writeEnvironmentEntry (e : Utf8 × Bytes) : Bytes :=
  PAREN_OPEN :: (writeField e.1.val false ++ COMMA :: writeField e.2 true ++ [PAREN_CLOSE])

def writeEnvironment (environment : Environment) : Bytes :=
  BRACKET_OPEN ::
    (joined COMMA writeEnvironmentEntry environment.entries ++ [BRACKET_CLOSE])

namespace Derivation

/-- Writes the derivation, with the input derivations replaced. -/
def serializeWithReplacements {κ : Type} (atermWrite : κ → Bytes) (d : Derivation)
    (inputDerivationsSorted : List (κ × OutputNames)) : Bytes :=
  DERIVATION_PREFIX ++ PAREN_OPEN ::
    (writeOutputs d.outputs ++ COMMA ::
      (writeInputDerivations atermWrite inputDerivationsSorted ++ COMMA ::
        (writeInputSources d.inputSources ++ COMMA ::
          (writeSystem d.system ++ COMMA ::
            (writeBuilder d.builder ++ COMMA ::
              (writeArguments d.arguments ++ COMMA ::
                (writeEnvironment d.environment ++ [PAREN_CLOSE])))))))

/-- The ATerm serialisation. -/
def toAtermBytes (d : Derivation) : Bytes :=
  d.serializeWithReplacements StorePath.atermWrite d.inputDerivations.entries

end Derivation

end Snix
