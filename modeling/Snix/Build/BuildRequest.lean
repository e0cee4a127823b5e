import Mathlib.Data.Finset.Dedup
import Mathlib.Data.Finset.Lattice.Lemmas
import Snix.Castore.Node
import Snix.Lib.Path
import Snix.Lib.SortedMap

/-!
# Build requests

What is sent to a builder. Its paths are relative to the build root and clean, and its lists are
sorted.

## Main definitions

- `BuildRequest` — the request
- `isCleanPath`, `isSorted` — what is demanded of paths and lists
- `Valid` — the demands on a whole request
-/

namespace Snix.Build

open Castore

/-- Conditions a build host has to meet. -/
inductive BuildConstraints where
  | system (system : Bytes)
  | minMemory (bytes : UInt64)
  | availableReadOnlyPath (path : Bytes)
  | networkAccess
  | provideBinSh
  deriving DecidableEq

structure EnvVar where
  key : Bytes
  value : Bytes
  deriving DecidableEq

structure AdditionalFile where
  path : Bytes
  contents : Bytes
  deriving DecidableEq

/-- What is sent to a builder. Paths are those of the operating system and may be any bytes. -/
@[ext] structure BuildRequest where
  inputs : SortedMap PathComponent.cmp Node
  commandArgs : List Bytes
  workingDir : Bytes
  scratchPaths : List Bytes
  inputsDir : Bytes
  outputs : List Bytes
  environmentVars : List EnvVar
  constraints : Finset BuildConstraints
  additionalFiles : List AdditionalFile
  refscanNeedles : List Bytes

-- ====================
-- Clean paths and sorted lists
-- ====================

/-- Puts the components together again; none if one of them is a dot or two. -/
def cleanedPath : List Path.Component → Bytes → Option Bytes
  | [], cleaned => some cleaned
  | .curDir :: _, _ => none
  | .parentDir :: _, _ => none
  | .rootDir :: rest, cleaned => cleanedPath rest (Path.push cleaned Path.Component.rootDir.asPath)
  | .normal a :: rest, cleaned =>
    if a.isEmpty then none else cleanedPath rest (Path.push cleaned (Path.Component.normal a).asPath)

/-- Checks a path to be without dots and superfluous slashes. -/
def isCleanPath (p : Bytes) : Bool := cleanedPath (Path.components p) [] == some p

def isCleanRelativePath (p : Bytes) : Bool := !Path.isAbsolute p && isCleanPath p

def isCleanAbsolutePath (p : Bytes) : Bool := Path.isAbsolute p && isCleanPath p

def isSorted : List Bytes → Bool
  | a :: b :: rest => (compare a b).isLE && isSorted (b :: rest)
  | _ => true

/-- Is the variable one that can be set? -/
def EnvVar.isValid (e : EnvVar) : Bool :=
  !(e.key.isEmpty || e.key.contains 61 || e.key.contains 0) && !e.value.contains 0

/-- Clean paths with the same components are the same. -/
theorem eq_of_components {p q : Bytes} (hp : isCleanPath p) (hq : isCleanPath q)
    (h : Path.components p = Path.components q) : p = q := by
  rw [isCleanPath, beq_iff_eq] at hp hq
  rw [h, hq] at hp
  exact (Option.some.inj hp).symm

theorem cleanedPath_append {a : Bytes} (ha : a ≠ []) (cs : List Path.Component) (cleaned : Bytes) :
    cleanedPath (cs ++ [.normal a]) cleaned = (cleanedPath cs cleaned).map (Path.push · a) := by
  have hempty : a.isEmpty = false := List.isEmpty_eq_false_iff.mpr ha
  induction cs generalizing cleaned with
  | nil =>
    rw [List.nil_append, cleanedPath.eq_def]
    simp only [hempty, Bool.false_eq_true, if_false]
    rfl
  | cons c cs ih =>
    cases c with
    | rootDir => exact ih _
    | curDir => rfl
    | parentDir => rfl
    | normal b =>
      rw [List.cons_append, cleanedPath, cleanedPath]
      split
      · rfl
      · exact ih _

/-- A clean path stays clean with one more piece. -/
theorem isCleanRelativePath_append {p a : Bytes} (hp : isCleanRelativePath p) (hne : p ≠ [])
    (hlast : p.getLast? ≠ some 47) (ha : Path.Plain a) : isCleanRelativePath (p ++ 47 :: a) := by
  rw [isCleanRelativePath, Bool.and_eq_true, Bool.not_eq_true', isCleanPath, beq_iff_eq] at hp ⊢
  refine ⟨(Path.isAbsolute_append hne).trans hp.1, ?_⟩
  rw [Path.components_append hne ha, cleanedPath_append ha.1, hp.2, Option.map_some,
    Path.push_plain hne hlast ha]

theorem isSorted_iff {l : List Bytes} :
    isSorted l = true ↔ l.Pairwise fun a b => (compare a b).isLE = true := by
  induction l with
  | nil => exact iff_of_true rfl List.Pairwise.nil
  | cons a l ih =>
    cases l with
    | nil => exact iff_of_true rfl (List.pairwise_singleton _ _)
    | cons b l =>
      rw [isSorted, Bool.and_eq_true, ih, @List.pairwise_cons _ _ a]
      refine and_congr_left fun hsorted => ?_
      constructor
      · intro hab c hc
        obtain rfl | hc := List.mem_cons.mp hc
        · exact hab
        · exact Std.TransCmp.isLE_trans hab ((List.pairwise_cons.mp hsorted).1 c hc)
      · intro h
        exact h b List.mem_cons_self

/-- The demands on the fields of a request, its constraints apart. -/
structure Valid (b : BuildRequest) : Prop where
  workingDir : isCleanRelativePath b.workingDir
  scratchPaths : ∀ p ∈ b.scratchPaths, isCleanRelativePath p
  scratchPathsSorted : isSorted b.scratchPaths
  inputsDir : isCleanRelativePath b.inputsDir
  outputs : ∀ p ∈ b.outputs, isCleanRelativePath p
  outputsSorted : isSorted b.outputs
  environmentVars : ∀ e ∈ b.environmentVars, e.isValid
  environmentVarsSorted : isSorted (b.environmentVars.map (·.key))
  additionalFiles : ∀ f ∈ b.additionalFiles, isCleanRelativePath f.path
  additionalFilesSorted : isSorted (b.additionalFiles.map (·.path))

end Snix.Build
