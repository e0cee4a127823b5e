import Snix.BuildGlue.Builder
import Snix.Lib.Iteration

/-!
# Building what is missing

A store path that has no path info yet is fetched or built, after its inputs
were. Everything outside of the builder glue is a service, whose state is a
parameter. The state of the model also keeps a record of every path info that
was persisted for a build, with the derivation and the output it was made from.

## Main definitions

- `Services` — the services the build state talks to
- `storePathToPathInfo` — looks up, fetches or builds a store path
- `Contents`, `Truthful` — what a path info of a fixed output should say

## Main results

- `persisted_ok` — every persisted path info is made from its build output
- `truthful_persisted_iff` — when a fixed output is recorded truthfully
-/

namespace Snix.BuildGlue

open Castore Store

variable {σ Fetch : Type}

/-- The services, over the state they share. -/
structure Services (σ Fetch : Type) where
  sha256 : Bytes → ByteArr 32
  renderStructuredAttrs : Bytes → List (Bytes × Bytes) → Except Fault (Bytes × Bytes)
  getPathInfo : ByteArr DIGEST_SIZE → EStateM Fault σ (Option PathInfo)
  putPathInfo : PathInfo → EStateM Fault σ Unit
  calculateNar : Node → EStateM Fault σ (UInt64 × ByteArr 32)
  descendTo : Node → List Bytes → EStateM Fault σ (Option Node)
  doBuild : BuildRequest → EStateM Fault σ BuildResult
  ingestAndPersist : Bytes → Fetch → EStateM Fault σ (StorePath × PathInfo)

/-- A path info that was persisted for an output of a build. -/
structure Persisted where
  drv : Derivation
  output : BuildOutput
  pathInfo : PathInfo

/-- The state of the services, and what was persisted for builds so far. -/
structure World (σ : Type) where
  services : σ
  persisted : List Persisted

/-- A call of a service. -/
def call {α : Type} (m : EStateM Fault σ α) : EStateM Fault (World σ) α := fun w =>
  match m w.services with
  | .ok a s => .ok a { w with services := s }
  | .error e s => .error e { w with services := s }

/-- Notes what was persisted. -/
def note (p : Persisted) : EStateM Fault (World σ) Unit := fun w =>
  .ok () { w with persisted := p :: w.persisted }

def liftFault {α : Type} : Except Fault α → EStateM Fault (World σ) α
  | .ok a => pure a
  | .error e => throw e

/-- The store path of a requested output. -/
def outputOfRequest (p : Bytes) : Except Fault StorePath :=
  if ascii "nix/store/" <+: p then
    match StorePath.fromBytes (p.drop (ascii "nix/store/").length) with
    | .ok sp => .ok sp
    | .error _ => .error (.panic (ascii "Snix bug: cannot parse output as StorePath"))
  else .error (.panic (ascii "output doesn't have expected store_dir prefix"))

/-- The store paths of the needles that were found. -/
def referencesOfNeedles (allPossibleRefs : List StorePath) (needles : List ℕ) :
    Except Fault (List StorePath) := do
  let references ← needles.mapM fun i =>
    match allPossibleRefs[i]? with
    | some sp => .ok sp
    | none => .error (.other (ascii "invalid needle_idx"))
  return sortByKey StorePath.cmp id references

/-- The name of the derivation, without the suffix. -/
def deriverOf (drvPath : StorePath) : Except Fault StorePath :=
  if ascii ".drv" <:+ drvPath.name then
    match StorePath.fromNameAndDigestFixed
        (drvPath.name.take (drvPath.name.length - (ascii ".drv").length)) drvPath.digest with
    | .ok sp => .ok sp
    | .error _ => .error (.panic (ascii "Snix bug: StorePath without .drv suffix must be valid"))
  else .error (.panic (ascii "missing .drv suffix"))

/-- Persists the outputs of a build one by one. The content address goes to the
    first of them. Returns the path info of the requested store path. -/
def persistOutputs (S : Services σ Fetch) (drv : Derivation) (drvPath storePath : StorePath)
    (allPossibleRefs : List StorePath) : List (BuildOutput × StorePath) → Option CAHash →
    Option PathInfo → EStateM Fault (World σ) (Option PathInfo)
  | [], _, outPathInfo => pure outPathInfo
  | (output, outputPath) :: rest, ca, outPathInfo => do
    let (narSize, narSha256) ← call (S.calculateNar output.node)
    let references ← liftFault (referencesOfNeedles allPossibleRefs output.outputNeedles)
    let deriver ← liftFault (deriverOf drvPath)
    let pathInfo : PathInfo := {
      storePath := outputPath
      node := output.node
      references := references
      narSize := narSize
      narSha256 := narSha256
      signatures := []
      deriver := some deriver
      ca := ca }
    call (S.putPathInfo pathInfo)
    note ⟨drv, output, pathInfo⟩
    persistOutputs S drv drvPath storePath allPossibleRefs rest none
      (if storePath = outputPath then some pathInfo else outPathInfo)

/-- Builds a derivation whose inputs are there, and persists its outputs. -/
def buildDerivation (S : Services σ Fetch) (drv : Derivation) (drvPath storePath : StorePath)
    (resolvedInputs : InputNodes) : EStateM Fault (World σ) PathInfo := do
  let ca := (drv.fodDigest S.sha256).map fun digest => CAHash.nar (.sha256 digest)
  let buildRequest ← liftFault
    (derivationIntoBuildRequest S.sha256 S.renderStructuredAttrs drv resolvedInputs)
  let outputPaths ← liftFault (buildRequest.outputs.mapM outputOfRequest)
  let buildResult ← call (S.doBuild buildRequest)
  let outPathInfo ← persistOutputs S drv drvPath storePath (outputPaths ++ resolvedInputs.keys)
    (buildResult.outputs.zip outputPaths) ca none
  match outPathInfo with
  | some pathInfo => pure pathInfo
  | none => throw (.other (ascii "build didn't produce store path"))

/-- Looks up the path info of a store path, or fetches or builds it, and descends
    to a path inside of it. `fuel` bounds the depth of the recursion into inputs
    and their number. -/
def storePathToPathInfo (S : Services σ Fetch) (known : KnownPaths Fetch) :
    ℕ → StorePath → List Bytes → EStateM Fault (World σ) (Option PathInfo)
  | 0, _, _ => throw .cutOff
  | fuel + 1, storePath, subPath => do
    let descend (pathInfo : PathInfo) : EStateM Fault (World σ) (Option PathInfo) := do
      let node? ← call (S.descendTo pathInfo.node subPath)
      return node?.map fun node => { pathInfo with node := node }
    let found ← call (S.getPathInfo storePath.digest)
    match found with
    | some pathInfo => descend pathInfo
    | none =>
      match known.getFetchForOutputPath storePath with
      | some (name, fetch) => do
        let (_, pathInfo) ← call (S.ingestAndPersist name fetch)
        descend pathInfo
      | none =>
        match known.getDrvPathForOutputPath storePath with
        | none => return none
        | some drvPath =>
          match known.getDrvByDrvpath drvPath with
          | none => throw (.panic (ascii "called `Option::unwrap()` on a `None` value"))
          | some drv => do
            let queue ← liftFault (directInputs drv known)
            let resolvedInputs ← getAllInputs
              (fun path => storePathToPathInfo S known fuel path []) fuel queue [] .empty
            let pathInfo ← buildDerivation S drv drvPath storePath resolvedInputs
            descend pathInfo

-- ====================
-- What is persisted
-- ====================

/-- A path info has the node of the build output, and the content address of a
    fixed output is made from the digest of the derivation. -/
def Persisted.Ok (sha256 : Bytes → ByteArr 32) (p : Persisted) : Prop :=
  p.pathInfo.node = p.output.node ∧
    (p.drv.outputs.isFixed = true →
      p.pathInfo.ca = (p.drv.fodDigest sha256).map fun digest => CAHash.nar (.sha256 digest))

def World.Ok (sha256 : Bytes → ByteArr 32) (w : World σ) : Prop := ∀ p ∈ w.persisted, p.Ok sha256

section Invariant

variable {S : Services σ Fetch}

theorem preserves_call {α : Type} (m : EStateM Fault σ α) :
    Preserves (World.Ok S.sha256) (call m) := by
  intro w hw
  unfold finalState call
  cases m w.services with
  | ok a s => exact hw
  | error e s => exact hw

theorem preserves_liftFault {α : Type} (r : Except Fault α) :
    Preserves (fun w : World σ => w.Ok S.sha256) (liftFault r) := by
  cases r with
  | ok a => exact .pure a
  | error e => exact .throw e

theorem preserves_liftFault_bind {α β : Type} {r : Except Fault α}
    {f : α → EStateM Fault (World σ) β}
    (hf : ∀ a, r = .ok a → Preserves (World.Ok S.sha256) (f a)) :
    Preserves (World.Ok S.sha256) (liftFault r >>= f) := by
  cases r with
  | ok a => exact hf a rfl
  | error e => exact fun _ hw => hw

theorem preserves_note {p : Persisted} (hp : p.Ok S.sha256) :
    Preserves (fun w : World σ => w.Ok S.sha256) (note p) := by
  intro w hw q hq
  rcases List.mem_cons.mp hq with rfl | hq
  · exact hp
  · exact hw q hq

theorem preserves_persistOutputs {drv : Derivation} {drvPath storePath : StorePath}
    {allPossibleRefs : List StorePath} (outputs : List (BuildOutput × StorePath))
    (ca : Option CAHash) (outPathInfo : Option PathInfo)
    (hca : drv.outputs.isFixed = true → outputs.length ≤ 1 ∧ (outputs ≠ [] →
      ca = (drv.fodDigest S.sha256).map fun digest => CAHash.nar (.sha256 digest))) :
    Preserves (World.Ok S.sha256)
      (persistOutputs S drv drvPath storePath allPossibleRefs outputs ca outPathInfo) := by
  induction outputs generalizing ca outPathInfo with
  | nil => exact .pure _
  | cons head rest ih =>
    obtain ⟨output, outputPath⟩ := head
    rw [persistOutputs]
    refine .bind (preserves_call _) fun nar => ?_
    obtain ⟨narSize, narSha256⟩ := nar
    refine .bind (preserves_liftFault _) fun references => ?_
    refine .bind (preserves_liftFault _) fun deriver => ?_
    refine .bind (preserves_call _) fun _ => ?_
    refine .bind (preserves_note ⟨rfl, fun hfixed => (hca hfixed).2 (by simp)⟩) fun _ => ?_
    -- A fixed-output derivation has no second output, which would get no content address.
    apply ih
    intro hfixed
    have hlen : rest.length = 0 := by simpa using (hca hfixed).1
    exact ⟨by omega, fun hne => absurd (List.length_eq_zero_iff.mp hlen) hne⟩

/-- A build request asks for as many outputs as the derivation has. -/
theorem length_outputs_buildRequest {sha256 : Bytes → ByteArr 32}
    {render : Bytes → List (Bytes × Bytes) → Except Fault (Bytes × Bytes)} {drv : Derivation}
    {inputs : InputNodes} {r : BuildRequest}
    (h : derivationIntoBuildRequest sha256 render drv inputs = .ok r) :
    r.outputs.length = drv.outputs.iter.length := by
  unfold derivationIntoBuildRequest at h
  cases henv : buildEnvironment sha256 render drv with
  | error e => simp [henv, Bind.bind, Except.bind] at h
  | ok env =>
    cases hpaths : outputPaths drv.outputs with
    | error e => simp [henv, hpaths, Bind.bind, Except.bind] at h
    | ok paths =>
      simp only [henv, hpaths, Bind.bind, Except.bind, Pure.pure, Except.pure,
        Except.ok.injEq] at h
      rw [← h, List.length_map]
      exact (mapM_eq_ok_iff.mp hpaths).length_eq.symm

theorem length_iter_of_isFixed {o : Outputs} (h : o.isFixed = true) : o.iter.length = 1 := by
  obtain ⟨inner, hvalid⟩ := o
  cases inner with
  | single output => rfl
  | multiple outputs => cases h

theorem preserves_buildDerivation (drv : Derivation) (drvPath storePath : StorePath)
    (resolvedInputs : InputNodes) :
    Preserves (World.Ok S.sha256) (buildDerivation S drv drvPath storePath resolvedInputs) := by
  unfold buildDerivation
  refine preserves_liftFault_bind fun request hrequest => ?_
  refine preserves_liftFault_bind fun outputPaths hpaths => ?_
  refine .bind (preserves_call _) fun result => ?_
  refine .bind (preserves_persistOutputs _ _ _ fun hfixed => ⟨?_, fun _ => rfl⟩) fun info? => ?_
  · have hlen : outputPaths.length = 1 := by
      rw [← (mapM_eq_ok_iff.mp hpaths).length_eq, length_outputs_buildRequest hrequest,
        length_iter_of_isFixed hfixed]
    rw [List.length_zip, hlen]
    omega
  · cases info? with
    | some pathInfo => exact .pure _
    | none => exact .throw _

theorem preserves_getAllInputs
    {getPathInfo : StorePath → EStateM Fault (World σ) (Option PathInfo)}
    (h : ∀ p, Preserves (World.Ok S.sha256) (getPathInfo p)) (fuel : ℕ)
    (queue visited : List StorePath) (nodes : InputNodes) :
    Preserves (World.Ok S.sha256) (getAllInputs getPathInfo fuel queue visited nodes) := by
  induction fuel generalizing queue visited nodes with
  | zero =>
    cases queue with
    | nil => exact .pure _
    | cons p queue => exact .throw _
  | succ fuel ih =>
    cases queue with
    | nil => exact .pure _
    | cons p queue =>
      rw [getAllInputs]
      refine .bind (h p) fun info? => ?_
      cases info? with
      | none => exact .throw _
      | some info => exact ih _ _ _

/-- Every run keeps the record of what was persisted in order. -/
theorem preserves_storePathToPathInfo (known : KnownPaths Fetch) (fuel : ℕ)
    (storePath : StorePath) (subPath : List Bytes) :
    Preserves (World.Ok S.sha256) (storePathToPathInfo S known fuel storePath subPath) := by
  induction fuel generalizing storePath subPath with
  | zero => exact .throw _
  | succ fuel ih =>
    have hdescend : ∀ pathInfo : PathInfo, Preserves (World.Ok S.sha256)
        (call (S.descendTo pathInfo.node subPath) >>= fun node? =>
          (pure (node?.map fun node => { pathInfo with node := node }) :
            EStateM Fault (World σ) (Option PathInfo))) :=
      fun pathInfo => .bind (preserves_call _) fun _ => .pure _
    rw [storePathToPathInfo]
    refine .bind (preserves_call _) fun found => ?_
    cases found with
    | some pathInfo => exact hdescend pathInfo
    | none =>
      dsimp only
      cases known.getFetchForOutputPath storePath with
      | some fetch =>
        obtain ⟨name, fetch⟩ := fetch
        exact .bind (preserves_call _) fun r => hdescend r.2
      | none =>
        dsimp only
        cases known.getDrvPathForOutputPath storePath with
        | none => exact .pure _
        | some drvPath =>
          dsimp only
          cases known.getDrvByDrvpath drvPath with
          | none => exact .throw _
          | some drv =>
            refine .bind (preserves_liftFault _) fun queue => ?_
            refine .bind (preserves_getAllInputs (fun p => ih p []) _ _ _ _) fun inputs => ?_
            refine .bind (preserves_buildDerivation _ _ _ _) fun pathInfo => ?_
            exact hdescend pathInfo

end Invariant

-- ====================
-- Fixed outputs
-- ====================

/-- What the nodes of the store hold, and the hash functions. -/
structure Contents where
  /-- The bytes of a regular file. -/
  file : Node → Option Bytes
  /-- The NAR representation. -/
  nar : Node → Bytes
  digest : HashAlgo → Bytes → NixHash

/-- The hash of the contents of a node in one of the modes. -/
def Contents.hash (c : Contents) (node : Node) (algo : HashAlgo) : OutputHashMode → Option NixHash
  | .flat => (c.file node).map (c.digest algo)
  | .recursive => some (c.digest algo (c.nar node))

/-- The contents of a node hash to the declared hash in the declared mode. -/
def Contents.Match (c : Contents) (node : Node) (declared : OutputHash) : Prop :=
  c.hash node declared.hash.algo declared.mode = some declared.hash

instance (c : Contents) (node : Node) (declared : OutputHash) : Decidable (c.Match node declared) :=
  inferInstanceAs (Decidable (_ = _))

/-- The content address of a declared hash. -/
def declaredCa (declared : OutputHash) : CAHash :=
  match declared.mode with
  | .flat => .flat declared.hash
  | .recursive => .nar declared.hash

/-- A path info says about a fixed output what was declared, and it is so. -/
def Truthful (c : Contents) (declared : OutputHash) (pathInfo : PathInfo) : Prop :=
  c.Match pathInfo.node declared ∧ pathInfo.ca = some (declaredCa declared)

instance (c : Contents) (declared : OutputHash) (pathInfo : PathInfo) :
    Decidable (Truthful c declared pathInfo) :=
  inferInstanceAs (Decidable (_ ∧ _))

/-- The declared hash is a recursive one, whose digest is the digest of the text
    that mentions it. -/
def SelfDescribing (sha256 : Bytes → ByteArr 32) (declared : OutputHash)
    (path : Option StorePath) : Prop :=
  declared.mode = .recursive ∧ declared.hash = .sha256 (fodDigest sha256 true declared.hash path)

/-- In every run, a path info that was persisted for a fixed output is truthful
    exactly when the build service returned the declared contents and the declared
    hash describes itself. -/
theorem truthful_persisted_iff (S : Services σ Fetch) (known : KnownPaths Fetch) (c : Contents)
    (fuel : ℕ) (storePath : StorePath) (subPath : List Bytes) (s : σ) (p : Persisted)
    (hp : p ∈ (finalState (storePathToPathInfo S known fuel storePath subPath) ⟨s, []⟩).persisted)
    (output : Output) (declared : OutputHash) (hsingle : p.drv.outputs.val = .single output)
    (hdeclared : output.outputHash = some declared) :
    Truthful c declared p.pathInfo ↔
      c.Match p.output.node declared ∧ SelfDescribing S.sha256 declared output.path := by
  have hok : p.Ok S.sha256 :=
    preserves_storePathToPathInfo known fuel storePath subPath ⟨s, []⟩ (by simp [World.Ok]) p hp
  obtain ⟨hnode, hca⟩ := hok
  have hfixed : p.drv.outputs.isFixed = true := by
    simp [Outputs.isFixed, hsingle, Output.isFixed, hdeclared]
  have hdigest : p.drv.fodDigest S.sha256 =
      some (fodDigest S.sha256 (declared.mode = .recursive) declared.hash output.path) := by
    simp [Derivation.fodDigest, Outputs.len, Outputs.get, hsingle, hdeclared]
  rw [Truthful, hnode, hca hfixed, hdigest]
  refine and_congr_right fun _ => ?_
  obtain ⟨mode, hash⟩ := declared
  cases mode with
  | flat => simp [declaredCa, SelfDescribing]
  | recursive => simp [declaredCa, SelfDescribing, eq_comm]

namespace Hello

/-- A derivation that declares the flat hash of the text it should produce. -/
def declared : OutputHash := ⟨.flat, .sha256 (Sha256.digest (ascii "hello"))⟩

theorem validName_hello : ValidName (ascii "hello") := by decide +kernel

def path : StorePath := ⟨List.Vector.replicate 20 0, ascii "hello", validName_hello⟩

def drvPath : StorePath := ⟨List.Vector.replicate 20 1, ascii "hello.drv", by decide +kernel⟩

def output : Output := ⟨some path, some declared⟩

theorem utf8Valid_builder : utf8Valid (ascii "/bin/sh") = true :=
  utf8Valid_of_ascii (by decide +kernel)

theorem utf8Valid_system : utf8Valid (ascii "x86_64-linux") = true :=
  utf8Valid_of_ascii (by decide +kernel)

def drv : Derivation where
  arguments := []
  builder := ⟨ascii "/bin/sh", utf8Valid_builder⟩
  environment := .empty
  inputDerivations := .empty
  inputSources := .empty
  outputs := ⟨.single output, trivial⟩
  system := ⟨ascii "x86_64-linux", utf8Valid_system⟩

def known : KnownPaths Empty := ⟨[(drvPath, List.Vector.replicate 32 0, drv)], [(path, drvPath)], []⟩

/-- The file with the text. -/
def node : Node := .file (List.Vector.replicate 32 7) 5 false

/-- A byte string as it stands in a NAR. -/
def wire (s : Bytes) : Bytes :=
  UInt8.ofNat s.length :: List.replicate 7 0 ++ s ++ List.replicate ((8 - s.length % 8) % 8) 0

/-- A store that holds this file. -/
def contents : Contents where
  file n := if n = node then some (ascii "hello") else none
  nar _ := [ascii "nix-archive-1", ascii "(", ascii "type", ascii "regular", ascii "contents",
    ascii "hello", ascii ")"].flatMap wire
  digest _ b := .sha256 (Sha256.digest b)

/-- Services over a list of path infos, with a builder that returns the file. -/
def services : Services (List PathInfo) Empty where
  sha256 := Sha256.digest
  renderStructuredAttrs _ _ := .error (.other [])
  getPathInfo digest := fun s => .ok (s.find? fun i => i.storePath.digest = digest) s
  putPathInfo pathInfo := fun s => .ok () (pathInfo :: s)
  calculateNar n := pure (.ofNat (contents.nar n).length, Sha256.digest (contents.nar n))
  descendTo n _ := pure (some n)
  doBuild _ := pure ⟨[⟨node, []⟩]⟩
  ingestAndPersist _ fetch := fetch.elim

/-- What is persisted when the store path is asked for. -/
def recorded : List Persisted :=
  (finalState (storePathToPathInfo services known 1 path []) ⟨[], []⟩).persisted

end Hello

theorem truthful_persisted_iff_hello :
    ∃ p ∈ Hello.recorded, p.drv.outputs.val = .single Hello.output ∧
      (Truthful Hello.contents Hello.declared p.pathInfo ↔
        Hello.contents.Match p.output.node Hello.declared ∧
          SelfDescribing Sha256.digest Hello.declared Hello.output.path) := by
  obtain ⟨p, hp, hsingle⟩ : ∃ p ∈ Hello.recorded, p.drv.outputs.val = .single Hello.output := by
    decide +kernel
  exact ⟨p, hp, hsingle, truthful_persisted_iff Hello.services Hello.known Hello.contents 1
    Hello.path [] [] p hp Hello.output Hello.declared hsingle rfl⟩

/-- The builder returns what was declared, and it is recorded under another
    content address. -/
theorem not_truthful_persisted_hello :
    ∃ p ∈ Hello.recorded, p.drv.outputs.val = .single Hello.output ∧
      Hello.output.outputHash = some Hello.declared ∧
      Hello.contents.Match p.output.node Hello.declared ∧
      ¬ Truthful Hello.contents Hello.declared p.pathInfo := by
  decide +kernel

end Snix.BuildGlue
