import Snix.NixCompat.Derivation.Output

/-!
# Derivations

The data of a derivation and the validation every parsed derivation passes.

## Main definitions

- `Derivation` — the derivation
- `Derivation.validate` — what is checked beyond the types
- `Derivation.allPaths` — every output carries a path
-/

namespace Snix

/-- Strings are ordered by their bytes. -/
def Utf8.cmp (a b : Utf8) : Ordering := compareOn Subtype.val a b

instance : Std.TransCmp Utf8.cmp :=
  inferInstanceAs (Std.TransCmp (compareOn fun a : Utf8 => a.val))

instance : Std.LawfulEqCmp Utf8.cmp where
  eq_of_compare h := Subtype.ext (Std.LawfulEqCmp.eq_of_compare h)

/-- Environment variables by name. -/
abbrev Environment := SortedMap Utf8.cmp Bytes

/-- Derivation paths, each with the output names that are used of it. -/
abbrev InputDerivations := SortedMap StorePath.cmp OutputNames

/-- A derivation. -/
structure Derivation where
  arguments : List Utf8
  builder : Utf8
  environment : Environment
  inputDerivations : InputDerivations
  inputSources : SortedSet StorePath.cmp
  outputs : Outputs
  system : Utf8
  deriving DecidableEq

/-- Why a derivation is invalid. -/
inductive DerivationError where
  | invalidOutputs (e : OutputsError)
  | invalidInputDerivationPrefix (path : Bytes)
  | invalidPlatform (system : Bytes)
  | invalidBuilder (builder : Bytes)
  | invalidEnvironmentKey (key : Bytes)
  deriving DecidableEq

namespace Derivation

/-- Checks that the derivation is properly populated. -/
def validate (d : Derivation) : Except DerivationError Unit := do
  match d.inputDerivations.keys.find? fun p => !(ascii ".drv" <:+ p.name) with
  | some p => throw (.invalidInputDerivationPrefix p.display)
  | none => pure ()
  if d.system.val.isEmpty then throw (.invalidPlatform d.system.val)
  if d.builder.val.isEmpty then throw (.invalidBuilder d.builder.val)
  match d.environment.keys.find? fun k => k.val.isEmpty with
  | some k => throw (.invalidEnvironmentKey k.val)
  | none => pure ()

/-- Every output carries a path. -/
def allPaths (d : Derivation) : Prop := ∀ e ∈ d.outputs.iter, e.2.path.isSome = true

instance (d : Derivation) : Decidable d.allPaths := by
  unfold allPaths
  infer_instance

end Derivation

end Snix
