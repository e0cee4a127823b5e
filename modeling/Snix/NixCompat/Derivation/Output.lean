import Snix.Lib.SortedMap
import Snix.NixCompat.StorePath

/-!
# Derivation outputs

Output names, the declared hash of a fixed output, and the outputs of a
derivation. The invariants of `Outputs` are part of the type: there is a single
output, or there are at least two of which none is fixed.

## Main definitions

- `OutputName` — a store path name other than `drv`
- `OutputHash`, `OutputHashMode` — the declared hash of a fixed output
- `Output`, `Outputs` — one output, all outputs
- `Outputs.tryFromIter` — the only way to build several outputs

## Main results

- `OutputHash.fromModeAlgoAndDigest_of_parts` — the written form of a declared
  hash is read back
- `Outputs.tryFromIter_iter` — outputs are rebuilt from their own entries
-/

namespace Snix

-- ====================
-- Output names
-- ====================

inductive ParseOutputNameError where
  | invalidLength | invalidName | reservedNameDrv
  deriving DecidableEq, Repr

def ParseOutputNameError.ofNameError : ParseStorePathNameError → ParseOutputNameError
  | .length => .invalidLength
  | .name => .invalidName

/-- A derivation output name: a store path name other than `drv`. -/
structure OutputName where
  name : Bytes
  valid : ValidName name
  notDrv : name ≠ ascii "drv"

instance : DecidableEq OutputName := fun a b =>
  decidable_of_iff (a.name = b.name) ⟨fun h => by cases a; cases b; cases h; rfl, congrArg _⟩

namespace OutputName

/-- The name of the only output of a derivation with one output. -/
def out : OutputName := ⟨ascii "out", by decide +kernel, by decide +kernel⟩

/-- Checks and wraps an output name. -/
def fromStr (s : Bytes) : Except ParseOutputNameError OutputName :=
  match h : validateName s with
  | .error e => .error (.ofNameError e)
  | .ok _ =>
    if hdrv : s = ascii "drv" then .error .reservedNameDrv
    else .ok ⟨s, (validateName_eq_ok.mp h).1, hdrv⟩

/-- Output names are ordered as strings. -/
def cmp (a b : OutputName) : Ordering := compareOn name a b

instance : Std.TransCmp cmp :=
  inferInstanceAs (Std.TransCmp (compareOn fun a : OutputName => a.name))

@[simp] theorem fromStr_name (n : OutputName) : fromStr n.name = .ok n := by
  have hval : validateName n.name = .ok n.name := validateName_eq_ok.mpr ⟨n.valid, rfl⟩
  unfold fromStr
  split
  · next e he =>
    rw [hval] at he
    cases he
  · rw [dif_neg n.notDrv]

theorem isPlain_of_mem_name {n : OutputName} {c : UInt8} (h : c ∈ n.name) : isPlain c = true :=
  isPlain_of_isNameChar c (n.valid.2.2 c h)

end OutputName

/-- The set of output names a derivation uses of another. -/
abbrev OutputNames := SortedSet OutputName.cmp

-- ====================
-- Declared hashes
-- ====================

/-- Whether the hash is over the raw contents of a file or over a NAR. -/
inductive OutputHashMode where
  | flat | recursive
  deriving DecidableEq, Repr

def OutputHashMode.asModePrefix : OutputHashMode → Bytes
  | .flat => []
  | .recursive => ascii "r:"

/-- The declared hash of a fixed output. -/
structure OutputHash where
  mode : OutputHashMode
  hash : NixHash
  deriving DecidableEq

namespace OutputHash

/-- Builds a declared hash from the algorithm, with an optional `r:` in front,
    and a digest. -/
def fromModeAlgoAndDigest (modeAndAlgo digest : Bytes) : Except NixHash.Error OutputHash :=
  let (hashMode, algoStr) :=
    if ascii "r:" <+: modeAndAlgo then (OutputHashMode.recursive, modeAndAlgo.drop 2)
    else (OutputHashMode.flat, modeAndAlgo)
  match HashAlgo.fromStr algoStr with
  | .error e => .error e
  | .ok algo =>
    match NixHash.fromAlgoAndDigest algo digest with
    | .error e => .error e
    | .ok hash => .ok ⟨hashMode, hash⟩

/-- The prefix of the mode and the algorithm, concatenated. -/
def asModeAndAlgoStr (h : OutputHash) : Bytes :=
  match h.mode with
  | .flat => h.hash.algo.asStr
  | .recursive =>
    match h.hash.algo with
    | .md5 => ascii "r:md5"
    | .sha1 => ascii "r:sha1"
    | .sha256 => ascii "r:sha256"
    | .sha512 => ascii "r:sha512"

theorem asModeAndAlgoStr_eq (h : OutputHash) :
    h.asModeAndAlgoStr = h.mode.asModePrefix ++ h.hash.algo.asStr := by
  obtain ⟨mode, hash⟩ := h
  simp only [asModeAndAlgoStr]
  generalize hash.algo = a
  cases mode <;> cases a <;> decide +kernel

/-- The written form of a declared hash is read back. -/
theorem fromModeAlgoAndDigest_of_parts (h : OutputHash) :
    fromModeAlgoAndDigest h.asModeAndAlgoStr h.hash.digestAsBytes = .ok h := by
  obtain ⟨mode, hash⟩ := h
  have hdigest := NixHash.fromAlgoAndDigest_algo_digest hash
  have halgo : ∀ a : HashAlgo, ¬ ascii "r:" <+: a.asStr := by
    intro a
    cases a <;> decide +kernel
  rw [asModeAndAlgoStr_eq]
  cases mode with
  | flat => simp [fromModeAlgoAndDigest, OutputHashMode.asModePrefix, halgo, hdigest]
  | recursive =>
    have hdrop : (ascii "r:" ++ hash.algo.asStr).drop 2 = hash.algo.asStr := rfl
    simp [fromModeAlgoAndDigest, OutputHashMode.asModePrefix, hdrop, hdigest]

theorem isPlain_of_mem_asModeAndAlgoStr {h : OutputHash} {c : UInt8}
    (hc : c ∈ h.asModeAndAlgoStr) : isPlain c = true := by
  have key : ∀ (mode : OutputHashMode) (a : HashAlgo),
      (mode.asModePrefix ++ a.asStr).all isPlain = true := by
    intro mode a
    cases mode <;> cases a <;> decide +kernel
  rw [asModeAndAlgoStr_eq] at hc
  exact List.all_eq_true.mp (key _ _) c hc

theorem asModeAndAlgoStr_ne_nil (h : OutputHash) : h.asModeAndAlgoStr ≠ [] := by
  have key : ∀ (mode : OutputHashMode) (a : HashAlgo), mode.asModePrefix ++ a.asStr ≠ [] := by
    intro mode a
    cases mode <;> cases a <;> decide +kernel
  rw [asModeAndAlgoStr_eq]
  exact key _ _

end OutputHash

-- ====================
-- Outputs
-- ====================

/-- One output. Its path is unknown while the derivation is being built. -/
structure Output where
  path : Option StorePath
  outputHash : Option OutputHash
  deriving DecidableEq

def Output.isFixed (o : Output) : Bool := o.outputHash.isSome

/-- Why a collection of outputs is rejected. -/
inductive OutputsError where
  | noOutputs
  | invalidOutputName (name : Bytes)
  | duplicateOutputName (name : OutputName)
  | moreThanOneOutputButFixed
  | invalidOutputDerivationPath (name : Bytes) (e : ParseStorePathError)
  deriving DecidableEq

/-- The outputs, as data. -/
inductive OutputsInner where
  | single (output : Output)
  | multiple (outputs : SortedMap OutputName.cmp Output)
  deriving DecidableEq

/-- Several outputs are at least two, and none of them is fixed. -/
def OutputsInner.Valid : OutputsInner → Prop
  | .single _ => True
  | .multiple outputs =>
    2 ≤ outputs.entries.length ∧ ∀ e ∈ outputs.entries, e.2.isFixed = false

/-- The outputs of a derivation. -/
abbrev Outputs := { inner : OutputsInner // inner.Valid }

namespace Outputs

/-- Adds the outputs after the second. -/
def tryFromIterRest : List (OutputName × Output) → SortedMap OutputName.cmp Output →
    Except OutputsError (SortedMap OutputName.cmp Output) :=
  SortedMap.collectNew
    (fun e => if e.2.isFixed then .error .moreThanOneOutputButFixed else .ok e)
    (fun _ name => .duplicateOutputName name)

/-- Collects outputs and checks the invariants. -/
def tryFromIterInner : List (OutputName × Output) → Except OutputsError OutputsInner
  | [] => .error .noOutputs
  | [(name, output)] =>
    if name = OutputName.out then .ok (.single output)
    else .error (.invalidOutputName name.name)
  | (name, output) :: (second, secondOutput) :: rest =>
    if output.isFixed || secondOutput.isFixed then .error .moreThanOneOutputButFixed
    else
      let outputs := (SortedMap.empty : SortedMap OutputName.cmp Output).insert name output
      if outputs.contains second then .error (.duplicateOutputName second)
      else match tryFromIterRest rest (outputs.insert second secondOutput) with
        | .error e => .error e
        | .ok outputs => .ok (.multiple outputs)

theorem forall₂_of_tryFromIterRest {l es : List (OutputName × Output)}
    (h : List.Forall₂ (fun x e => (if x.2.isFixed then
      (.error .moreThanOneOutputButFixed : Except OutputsError _) else .ok x) = .ok e) l es) :
    es = l ∧ ∀ e ∈ l, e.2.isFixed = false := by
  induction h with
  | nil => simp
  | @cons x e l es hx _ ih =>
    obtain ⟨rfl, hfixed⟩ := ih
    split at hx
    · cases hx
    · next hf =>
      cases hx
      exact ⟨rfl, List.forall_mem_cons.mpr ⟨by simpa using hf, hfixed⟩⟩

/-- What is collected has the invariants. -/
theorem valid_of_tryFromIterInner {l : List (OutputName × Output)} {inner : OutputsInner}
    (h : tryFromIterInner l = .ok inner) : inner.Valid := by
  unfold tryFromIterInner at h
  split at h
  · cases h
  · split at h
    · cases h
      exact trivial
    · cases h
  · next name output second secondOutput rest =>
    split at h
    · cases h
    · next hfixed =>
      dsimp only at h
      split at h
      · cases h
      · next hnew =>
        split at h
        · cases h
        · next outputs hrest =>
          cases h
          obtain ⟨es, hes, hperm⟩ := SortedMap.perm_of_collectNew hrest
          obtain ⟨rfl, hrestFixed⟩ := forall₂_of_tryFromIterRest hes
          have hins := SortedMap.insert_perm (v := secondOutput) (by simpa using hnew)
          have hperm := hperm.trans (hins.append_left es)
          have hfixed : output.isFixed = false ∧ secondOutput.isFixed = false := by
            simpa using hfixed
          refine ⟨?_, fun e he => ?_⟩
          · rw [hperm.length_eq]
            simp [SortedMap.insert, SortedMap.insertEntry, SortedMap.empty]
          · have he := hperm.mem_iff.mp he
            simp only [SortedMap.insert, SortedMap.insertEntry, SortedMap.empty,
              List.mem_append, List.mem_cons, List.not_mem_nil, or_false] at he
            rcases he with he | rfl | rfl
            · exact hrestFixed e he
            · exact hfixed.2
            · exact hfixed.1

/-- Collects outputs and checks the invariants. -/
def tryFromIter (l : List (OutputName × Output)) : Except OutputsError Outputs :=
  match h : tryFromIterInner l with
  | .error e => .error e
  | .ok inner => .ok ⟨inner, valid_of_tryFromIterInner h⟩

/-- The entries, sorted by name. -/
def iter (o : Outputs) : List (OutputName × Output) :=
  match o.val with
  | .single output => [(OutputName.out, output)]
  | .multiple outputs => outputs.entries

/-- The number of outputs. -/
def len (o : Outputs) : ℕ :=
  match o.val with
  | .single _ => 1
  | .multiple outputs => outputs.entries.length

/-- The output of the given name. -/
def get (o : Outputs) (name : OutputName) : Option Output :=
  match o.val with
  | .single output => if name = OutputName.out then some output else none
  | .multiple outputs => outputs.get? name

/-- Is this a single fixed output? -/
def isFixed (o : Outputs) : Bool :=
  match o.val with
  | .single output => output.isFixed
  | .multiple _ => false

theorem iter_ne_nil (o : Outputs) : o.iter ≠ [] := by
  obtain ⟨inner, hvalid⟩ := o
  cases inner with
  | single output => simp [iter]
  | multiple outputs =>
    intro h
    have hlen : 2 ≤ outputs.entries.length := hvalid.1
    have hnil : outputs.entries = [] := h
    simp [hnil] at hlen

/-- Outputs are rebuilt from their own entries. -/
theorem tryFromIter_iter (o : Outputs) : tryFromIter o.iter = .ok o := by
  have hinner : tryFromIterInner o.iter = .ok o.val := by
    obtain ⟨inner, hvalid⟩ := o
    cases inner with
    | single output => simp [iter, tryFromIterInner]
    | multiple outputs =>
      obtain ⟨entries, hsorted⟩ := outputs
      obtain ⟨hlen, hfixed⟩ := hvalid
      match entries, hsorted, hlen, hfixed with
      | (name, output) :: (second, secondOutput) :: rest, hsorted, _, hfixed =>
        have hlt : OutputName.cmp name second = .lt := by
          simpa [entryLt] using (List.pairwise_cons.mp hsorted).1 (second, secondOutput) (by simp)
        have hgt : OutputName.cmp second name = .gt := Std.OrientedCmp.gt_iff_lt.mpr hlt
        have hfix : output.isFixed = false ∧ secondOutput.isFixed = false :=
          ⟨hfixed (name, output) (by simp), hfixed (second, secondOutput) (by simp)⟩
        have hrest : tryFromIterRest rest
            (((SortedMap.empty : SortedMap OutputName.cmp Output).insert name output).insert second
              secondOutput) = .ok ⟨_, hsorted⟩ := by
          have hconv : List.Forall₂ (fun x e => (if x.2.isFixed then
              (.error .moreThanOneOutputButFixed : Except OutputsError _) else .ok x) = .ok e)
              rest rest := by
            refine List.forall₂_same.mpr fun e he => ?_
            simp [hfixed e (by simp [he])]
          refine SortedMap.collectNew_of_perm hconv ?_
          simp only [SortedMap.insert, SortedMap.insertEntry, SortedMap.empty, hgt]
          exact List.perm_append_comm
        simp only [iter, tryFromIterInner, hfix.1, hfix.2, Bool.or_self, Bool.false_eq_true,
          if_false, hrest]
        simp [SortedMap.contains, SortedMap.insert, SortedMap.insertEntry, SortedMap.empty, hgt]
  unfold tryFromIter
  split
  · next e he =>
    rw [hinner] at he
    cases he
  · next inner he =>
    rw [hinner] at he
    cases he
    rfl

end Outputs

end Snix
