import Mathlib.Data.Set.Finite.List
import Snix.BuildGlue.BuildState
import Snix.Lib.ByteReader
import Snix.Lib.Discovery
import Snix.Lib.Iteration

/-!
# The inputs of a build

The closure of the direct inputs under references is worked off from a queue. References count as
visited when they are queued, but the direct inputs do not, so that one which is referenced too is
yielded twice.

## Main definitions

- `getAllInputsStream` — the stream of inputs
- `IsDirectInput`, `InClosure` — the inputs a derivation names, and their closure

## Main results

- `inputsStream_eq_sweep` — the stream is a closure by discovery
- `getAllInputsStream_closure` — the stream ends, with the whole closure or an error
- `getAllInputs_of_inputsStream` — what is collected of the stream
-/

namespace Snix.BuildGlue

open Castore Store

variable {Fetch : Type} {derivation : Derivation} {known : KnownPaths Fetch}
  {getPathInfo : StorePath → Except Fault (Option PathInfo)} {fuel : ℕ}
  {queue visited : List StorePath} {p : StorePath}

/-- The items of the stream, and the error it ends with, if it does. None if it has more items than
    the given number. -/
def inputsStream (getPathInfo : StorePath → Except Fault (Option PathInfo)) :
    ℕ → List StorePath → List StorePath → Option (List (StorePath × Node) × Option Fault)
  | _, [], _ => some ([], none)
  | 0, _ :: _, _ => none
  | fuel + 1, storePath :: queue, visited =>
    match getPathInfo storePath with
    | .error e => some ([], some e)
    | .ok none => some ([], some (.other (ascii "path_info not present")))
    | .ok (some info) =>
      let (queue, visited) := queueReferences info.references queue visited
      (inputsStream getPathInfo fuel queue visited).map fun r =>
        ((info.storePath, info.node) :: r.1, r.2)

/-- The stream of all inputs of a derivation. -/
def getAllInputsStream (derivation : Derivation) (known : KnownPaths Fetch)
    (getPathInfo : StorePath → Except Fault (Option PathInfo)) (fuel : ℕ) :
    Except Fault (Option (List (StorePath × Node) × Option Fault)) := do
  let queue ← directInputs derivation known
  return inputsStream getPathInfo fuel queue []

-- ====================
-- The closure
-- ====================

/-- The input sources, and the selected outputs of the input derivations. -/
def IsDirectInput (derivation : Derivation) (known : KnownPaths Fetch) (p : StorePath) : Prop :=
  p ∈ derivation.inputSources.elems ∨
    ∃ e ∈ derivation.inputDerivations.entries, ∃ drv, known.getDrvByDrvpath e.1 = some drv ∧
      ∃ name ∈ e.2.elems, ∃ output, drv.outputs.get name = some output ∧ output.path = some p

/-- What is reached from the direct inputs through references. -/
inductive InClosure (derivation : Derivation) (known : KnownPaths Fetch)
    (getPathInfo : StorePath → Except Fault (Option PathInfo)) : StorePath → Prop
  | direct {p : StorePath} (h : IsDirectInput derivation known p) :
      InClosure derivation known getPathInfo p
  | reference {p r : StorePath} {info : PathInfo} (hp : InClosure derivation known getPathInfo p)
      (hinfo : getPathInfo p = .ok (some info)) (hr : r ∈ info.references) :
      InClosure derivation known getPathInfo r

/-- The input derivations are known, with paths for the outputs that are used. -/
def KnownInputs (derivation : Derivation) (known : KnownPaths Fetch) : Prop :=
  ∀ e ∈ derivation.inputDerivations.entries, ∃ drv, known.getDrvByDrvpath e.1 = some drv ∧
    ∀ name ∈ e.2.elems, ∃ output path, drv.outputs.get name = some output ∧ output.path = some path

theorem inputOutputPath_eq_ok_iff {drv : Derivation} {name : OutputName} :
    inputOutputPath drv name = .ok p ↔
      ∃ output, drv.outputs.get name = some output ∧ output.path = some p := by
  rw [inputOutputPath]
  cases drv.outputs.get name with
  | none => simp
  | some output =>
    dsimp only
    cases hpath : output.path with
    | none => simp [hpath]
    | some path => simp [hpath]

/-- The outputs that are used of one input derivation. -/
def usedOutputs (known : KnownPaths Fetch) (e : StorePath × OutputNames) :
    Except Fault (List StorePath) :=
  match known.getDrvByDrvpath e.1 with
  | none => .error (.panic (ascii "drv Bug!!"))
  | some drv => e.2.elems.mapM (inputOutputPath drv)

theorem usedOutputs_eq_ok_iff {e : StorePath × OutputNames} {paths : List StorePath} :
    usedOutputs known e = .ok paths ↔
      ∃ drv, known.getDrvByDrvpath e.1 = some drv ∧ e.2.elems.mapM (inputOutputPath drv) = .ok paths := by
  rw [usedOutputs]
  cases known.getDrvByDrvpath e.1 with
  | none => simp
  | some drv => simp

theorem directInputs_eq_ok_iff :
    directInputs derivation known = .ok queue ↔
      ∃ outputs, derivation.inputDerivations.entries.mapM (usedOutputs known) = .ok outputs ∧
        derivation.inputSources.elems ++ outputs.flatten = queue := by
  rw [directInputs, except_bind_eq_ok_iff]
  simp only [pure, Except.pure, Except.ok.injEq]
  rfl

theorem exists_directInputs (h : KnownInputs derivation known) :
    ∃ queue, directInputs derivation known = .ok queue := by
  have hused : ∀ e ∈ derivation.inputDerivations.entries, ∃ paths, usedOutputs known e = .ok paths := by
    intro e he
    obtain ⟨drv, hdrv, hnames⟩ := h e he
    have hpath : ∀ name ∈ e.2.elems, ∃ path, inputOutputPath drv name = .ok path := by
      intro name hname
      obtain ⟨output, path, hget, hpath⟩ := hnames name hname
      exact ⟨path, inputOutputPath_eq_ok_iff.mpr ⟨output, hget, hpath⟩⟩
    obtain ⟨paths, hpaths⟩ := exists_mapM_eq_ok hpath
    exact ⟨paths, usedOutputs_eq_ok_iff.mpr ⟨drv, hdrv, hpaths⟩⟩
  obtain ⟨outputs, houtputs⟩ := exists_mapM_eq_ok hused
  exact ⟨_, directInputs_eq_ok_iff.mpr ⟨outputs, houtputs, rfl⟩⟩

theorem mem_directInputs_iff (h : directInputs derivation known = .ok queue) :
    p ∈ queue ↔ IsDirectInput derivation known p := by
  obtain ⟨outputs, houtputs, rfl⟩ := directInputs_eq_ok_iff.mp h
  rw [List.mem_append, IsDirectInput, List.mem_flatten]
  refine or_congr_right ⟨?_, ?_⟩
  · rintro ⟨paths, hpaths, hp⟩
    obtain ⟨e, he, hused⟩ := (mem_iff_of_mapM_eq_ok houtputs).mp hpaths
    obtain ⟨drv, hdrv, hmap⟩ := usedOutputs_eq_ok_iff.mp hused
    obtain ⟨name, hname, hpath⟩ := (mem_iff_of_mapM_eq_ok hmap).mp hp
    exact ⟨e, he, drv, hdrv, name, hname, inputOutputPath_eq_ok_iff.mp hpath⟩
  · rintro ⟨e, he, drv, hdrv, name, hname, hpath⟩
    obtain ⟨paths, hpaths⟩ := exists_of_mapM_eq_ok houtputs he
    obtain ⟨drv', hdrv', hmap⟩ := usedOutputs_eq_ok_iff.mp hpaths
    cases hdrv.symm.trans hdrv'
    exact ⟨paths, (mem_iff_of_mapM_eq_ok houtputs).mpr ⟨e, he, hpaths⟩,
      (mem_iff_of_mapM_eq_ok hmap).mpr ⟨name, hname, inputOutputPath_eq_ok_iff.mpr hpath⟩⟩

-- ====================
-- The stream
-- ====================

/-- What an input refers to. -/
def expandInput (getPathInfo : StorePath → Except Fault (Option PathInfo)) (p : StorePath) :
    Except Fault (List StorePath) :=
  match getPathInfo p with
  | .error e => .error e
  | .ok none => .error (.other (ascii "path_info not present"))
  | .ok (some info) => .ok info.references

/-- What the stream has for an input. -/
def inputItem (getPathInfo : StorePath → Except Fault (Option PathInfo)) (p : StorePath) :
    Option (StorePath × Node) :=
  match getPathInfo p with
  | .ok (some info) => some (info.storePath, info.node)
  | _ => none

theorem expandInput_eq_ok_iff {next : List StorePath} :
    expandInput getPathInfo p = .ok next ↔
      ∃ info, getPathInfo p = .ok (some info) ∧ info.references = next := by
  rw [expandInput]
  rcases getPathInfo p with e | _ | info <;> simp

theorem expandInput_eq_error_iff {e : Fault} :
    expandInput getPathInfo p = .error e ↔
      getPathInfo p = .error e ∨
        getPathInfo p = .ok none ∧ e = .other (ascii "path_info not present") := by
  rw [expandInput]
  rcases getPathInfo p with e' | _ | info <;> simp [eq_comm]

theorem inputItem_eq_some_iff {item : StorePath × Node} :
    inputItem getPathInfo p = some item ↔
      ∃ info, getPathInfo p = .ok (some info) ∧ (info.storePath, info.node) = item := by
  rw [inputItem]
  rcases getPathInfo p with e | _ | info <;> simp

theorem queueReferences_eq_enqueueNew (references queue visited : List StorePath) :
    queueReferences references queue visited = enqueueNew references queue visited := by
  induction references generalizing queue visited with
  | nil => rfl
  | cons reference rest ih => rw [queueReferences, enqueueNew, ih, ih]

/-- The stream takes what a closure by discovery takes. -/
theorem inputsStream_eq_sweep (fuel : ℕ) (queue visited : List StorePath) :
    inputsStream getPathInfo fuel queue visited =
      (sweep (expandInput getPathInfo) fuel queue visited).map fun r =>
        (r.1.filterMap (inputItem getPathInfo), r.2) := by
  induction fuel generalizing queue visited with
  | zero => cases queue <;> rfl
  | succ fuel ih =>
    cases queue with
    | nil => rfl
    | cons p queue =>
      rw [inputsStream]
      cases hinfo : getPathInfo p with
      | error e =>
        rw [sweep, expandInput_eq_error_iff.mpr (.inl hinfo)]
        rfl
      | ok info? =>
        cases info? with
        | none =>
          rw [sweep, expandInput_eq_error_iff.mpr (.inr ⟨hinfo, rfl⟩)]
          rfl
        | some info =>
          rcases henqueue : enqueueNew info.references queue visited with ⟨queue', visited'⟩
          rw [sweep_cons_of_ok (expandInput_eq_ok_iff.mpr ⟨info, hinfo, rfl⟩) henqueue]
          dsimp only
          rw [queueReferences_eq_enqueueNew, henqueue]
          dsimp only
          rw [ih, Option.map_map, Option.map_map]
          refine congrArg (Option.map · _) (funext fun r => ?_)
          have hitem : inputItem getPathInfo p = some (info.storePath, info.node) :=
            inputItem_eq_some_iff.mpr ⟨info, hinfo, rfl⟩
          simp only [Function.comp_apply, List.filterMap_cons_some hitem]

theorem inClosure_iff_discovered (h : directInputs derivation known = .ok queue) :
    InClosure derivation known getPathInfo p ↔ Discovered (expandInput getPathInfo) queue p := by
  constructor
  · intro hp
    induction hp with
    | direct hdirect => exact .start ((mem_directInputs_iff h).mpr hdirect)
    | reference _ hinfo hr ih => exact .step ih (expandInput_eq_ok_iff.mpr ⟨_, hinfo, rfl⟩) hr
  · intro hp
    induction hp with
    | start hx => exact .direct ((mem_directInputs_iff h).mp hx)
    | step _ hnext hy ih =>
      obtain ⟨info, hinfo, rfl⟩ := expandInput_eq_ok_iff.mp hnext
      exact .reference ih hinfo hy

/-- Names are short, so there are finitely many store paths, and every closure is finite. -/
instance : Finite StorePath := by
  have : Finite UInt8 := Finite.of_injective UInt8.toFin fun _ _ => UInt8.toFin_inj.mp
  have : Finite {name : Bytes // name.length ≤ 211} := (List.finite_length_le UInt8 211).to_subtype
  let key (p : StorePath) : ByteArr DIGEST_SIZE × {name : Bytes // name.length ≤ 211} :=
    (p.digest, ⟨p.name, p.valid.2.1⟩)
  refine Finite.of_injective key ?_
  rintro ⟨digest, name, hvalid⟩ ⟨digest', name', hvalid'⟩ h
  obtain ⟨hdigest, hname⟩ := Prod.mk.inj h
  cases hdigest
  cases Subtype.mk.inj hname
  rfl

theorem exists_inputsStream (getPathInfo : StorePath → Except Fault (Option PathInfo))
    (queue : List StorePath) :
    ∃ n done stop, sweep (expandInput getPathInfo) n queue [] = some (done, stop) ∧
      ∀ fuel ≥ n, inputsStream getPathInfo fuel queue [] =
        some (done.filterMap (inputItem getPathInfo), stop) := by
  have := Fintype.ofFinite StorePath
  obtain ⟨⟨done, stop⟩, hsweep⟩ : ∃ r, sweep (expandInput getPathInfo)
      ((Finset.univ : Finset StorePath).card + queue.length) queue [] = some r :=
    exists_sweep (fun _ _ _ _ _ _ => Finset.mem_univ _) (fun _ _ => Finset.mem_univ _)
      (fun _ _ => Finset.mem_univ _) List.nodup_nil (Nat.le_refl _)
  refine ⟨_, done, stop, hsweep, fun fuel hfuel => ?_⟩
  rw [inputsStream_eq_sweep, sweep_of_le hsweep hfuel]
  rfl

theorem getAllInputsStream_closure (derivation : Derivation) (known : KnownPaths Fetch)
    (getPathInfo : StorePath → Except Fault (Option PathInfo)) (h : KnownInputs derivation known) :
    ∃ n items stop,
      (∀ fuel ≥ n, getAllInputsStream derivation known getPathInfo fuel = .ok (some (items, stop))) ∧
      (stop = none ↔ ∀ p, InClosure derivation known getPathInfo p →
        ∃ info, getPathInfo p = .ok (some info)) ∧
      (∀ item ∈ items, ∃ p info, InClosure derivation known getPathInfo p ∧
        getPathInfo p = .ok (some info) ∧ item = (info.storePath, info.node)) ∧
      (stop = none → ∀ p info, InClosure derivation known getPathInfo p →
        getPathInfo p = .ok (some info) → (info.storePath, info.node) ∈ items) ∧
      (stop = none → (∀ p info, getPathInfo p = .ok (some info) → info.storePath = p) →
        (∀ p, p ∈ items.map Prod.fst ↔ InClosure derivation known getPathInfo p) ∧
          ∀ p node, (p, node) ∈ items → ∃ info, getPathInfo p = .ok (some info) ∧ info.node = node) ∧
      ∀ e, stop = some e → ∃ p, InClosure derivation known getPathInfo p ∧
        (getPathInfo p = .error e ∨
          getPathInfo p = .ok none ∧ e = .other (ascii "path_info not present")) := by
  obtain ⟨queue, hqueue⟩ := exists_directInputs h
  obtain ⟨n, done, stop, hsweep, hstream⟩ := exists_inputsStream getPathInfo queue
  have hclosure (p : StorePath) : InClosure derivation known getPathInfo p ↔
      Discovered (expandInput getPathInfo) queue p := inClosure_iff_discovered hqueue
  have hend : stop = none ↔ ∀ p, InClosure derivation known getPathInfo p →
      ∃ info, getPathInfo p = .ok (some info) := by
    rw [sweep_end_eq_none_iff hsweep]
    simp only [hclosure, expandInput_eq_ok_iff]
    refine forall₂_congr fun p _ => ⟨?_, ?_⟩
    · rintro ⟨-, info, hinfo, -⟩
      exact ⟨info, hinfo⟩
    · rintro ⟨info, hinfo⟩
      exact ⟨_, info, hinfo, rfl⟩
  have hsound : ∀ item ∈ done.filterMap (inputItem getPathInfo), ∃ p info,
      InClosure derivation known getPathInfo p ∧ getPathInfo p = .ok (some info) ∧
        item = (info.storePath, info.node) := by
    intro item hitem
    obtain ⟨p, hp, hsome⟩ := List.mem_filterMap.mp hitem
    obtain ⟨info, hinfo, heq⟩ := inputItem_eq_some_iff.mp hsome
    exact ⟨p, info, (hclosure p).mpr (discovered_of_mem_sweep hsweep hp), hinfo, heq.symm⟩
  have hcomplete : stop = none → ∀ p info, InClosure derivation known getPathInfo p →
      getPathInfo p = .ok (some info) →
        (info.storePath, info.node) ∈ done.filterMap (inputItem getPathInfo) := by
    rintro rfl p info hp hinfo
    have hdone := (mem_sweep_iff hsweep p).mpr ((hclosure p).mp hp)
    exact List.mem_filterMap.mpr ⟨p, hdone, inputItem_eq_some_iff.mpr ⟨info, hinfo, rfl⟩⟩
  refine ⟨n, _, stop, fun fuel hfuel => ?_, hend, hsound, hcomplete, fun he hown => ⟨fun p => ?_, ?_⟩,
    fun e he => ?_⟩
  · rw [getAllInputsStream, hqueue]
    exact congrArg Except.ok (hstream fuel hfuel)
  · rw [List.mem_map]
    constructor
    · rintro ⟨item, hitem, rfl⟩
      obtain ⟨p, info, hp, hinfo, rfl⟩ := hsound item hitem
      rwa [hown p info hinfo]
    · intro hp
      obtain ⟨info, hinfo⟩ := hend.mp he p hp
      exact ⟨_, hcomplete he p info hp hinfo, hown p info hinfo⟩
  · intro p node hitem
    obtain ⟨p', info, -, hinfo, heq⟩ := hsound _ hitem
    obtain ⟨rfl, rfl⟩ := Prod.mk.inj heq
    exact ⟨info, by rwa [hown p' info hinfo], rfl⟩
  · obtain ⟨p, hp, herr⟩ := exists_of_sweep_end hsweep he
    exact ⟨p, (hclosure p).mpr hp, expandInput_eq_error_iff.mp herr⟩

/-- A derivation that uses the output of another one. -/
def Hello.user : Derivation :=
  { Hello.drv with inputDerivations := .ofList [(Hello.drvPath, .ofList [(OutputName.out, ())])] }

/-- Every store path refers to itself and to a fixed cycle. -/
def Hello.cyclic (p : StorePath) : Except Fault (Option PathInfo) :=
  .ok (some {
    storePath := p
    node := Hello.node
    references := [p, Hello.path, Hello.drvPath]
    narSize := 0
    narSha256 := List.Vector.replicate 32 0
    signatures := []
    deriver := none
    ca := none })

theorem Hello.knownInputs_user : KnownInputs Hello.user Hello.known := by
  intro e he
  obtain rfl : e = (Hello.drvPath, .ofList [(OutputName.out, ())]) := List.mem_singleton.mp he
  refine ⟨Hello.drv, rfl, fun name hname => ?_⟩
  obtain rfl : name = OutputName.out := List.mem_singleton.mp hname
  exact ⟨Hello.output, Hello.path, rfl, rfl⟩

theorem getAllInputsStream_closure_hello : ∃ n items,
    (∀ fuel ≥ n, getAllInputsStream Hello.user Hello.known Hello.cyclic fuel =
      .ok (some (items, none))) ∧
    Hello.drvPath ∈ items.map Prod.fst := by
  obtain ⟨n, items, stop, hstream, hend, -, -, hown, -⟩ :=
    getAllInputsStream_closure Hello.user Hello.known Hello.cyclic Hello.knownInputs_user
  obtain rfl := hend.mpr fun p _ => ⟨_, rfl⟩
  obtain ⟨hmem, -⟩ := hown rfl fun p info hinfo => by
    cases hinfo
    rfl
  have hdirect : InClosure Hello.user Hello.known Hello.cyclic Hello.path := by
    refine .direct (.inr ⟨_, List.mem_singleton_self _, Hello.drv, rfl, OutputName.out, ?_⟩)
    exact ⟨List.mem_singleton_self _, Hello.output, rfl, rfl⟩
  exact ⟨n, items, hstream, (hmem _).mpr (.reference hdirect rfl (by simp))⟩

-- ====================
-- Collecting
-- ====================

/-- The inputs of a build are collected from the stream, each under its store path. -/
theorem getAllInputs_of_inputsStream {σ : Type} {items : List (StorePath × Node)}
    {stop : Option Fault} (h : inputsStream getPathInfo fuel queue visited = some (items, stop))
    (nodes : InputNodes) (w : World σ) :
    getAllInputs (fun p => liftFault (getPathInfo p)) fuel queue visited nodes w =
      stop.elim (.ok (items.foldl (fun m e => m.insert e.1 e.2) nodes) w) fun e => .error e w := by
  induction fuel generalizing queue visited items nodes with
  | zero =>
    cases queue with
    | nil =>
      cases h
      rfl
    | cons p queue => cases h
  | succ fuel ih =>
    cases queue with
    | nil =>
      cases h
      rfl
    | cons p queue =>
      rw [inputsStream] at h
      rw [getAllInputs]
      rcases hinfo : getPathInfo p with e | _ | info
      · rw [hinfo] at h
        cases h
        rfl
      · rw [hinfo] at h
        cases h
        rfl
      · rw [hinfo] at h
        obtain ⟨⟨rest, stop'⟩, hrest, hcons⟩ := Option.map_eq_some_iff.mp h
        cases hcons
        exact ih hrest (nodes.insert info.storePath info.node)

end Snix.BuildGlue
