import Snix.Build.Proto
import Snix.BuildGlue.Builder
import Snix.Store.Proto

/-!
# The build request of a derivation

A build request is sorted in the order in which it is assembled: outputs by their names, inputs,
variables and files through sorted maps. A remote builder checks the order of the strings.

## Main definitions

- `derivationIntoRequest` — the request of a derivation, with its fields in their types
- `OutputsAscend`, `Settable` — what a remote builder demands of the derivation

## Main results

- `request_accepted_iff` — when the request of a derivation is accepted
-/

namespace Snix.BuildGlue

open Castore

/-- The inputs by name; the name of each has to be one of a node. -/
def inputNames (inputs : List (Bytes × Node)) : Except Fault (SortedMap PathComponent.cmp Node) := do
  let inputs ← inputs.mapM fun e =>
    match PathComponent.tryFrom e.1 with
    | .ok name => .ok (name, e.2)
    | .error _ =>
      .error (.panic (ascii "Snix bug: unable to convert store path basename to PathComponent"))
  return SortedMap.ofList inputs

/-- The request of a derivation, with its fields in their types. -/
def derivationIntoRequest (sha256 : Bytes → ByteArr 32)
    (render : Bytes → List (Bytes × Bytes) → Except Fault (Bytes × Bytes))
    (derivation : Derivation) (inputs : InputNodes) : Except Fault Build.BuildRequest := do
  let request ← derivationIntoBuildRequest sha256 render derivation inputs
  let inputs ← inputNames request.inputs
  return {
    inputs
    commandArgs := request.commandArgs
    workingDir := request.workingDir
    scratchPaths := request.scratchPaths
    inputsDir := request.inputsDir
    outputs := request.outputs
    environmentVars := request.environmentVars.map fun e => ⟨e.1, e.2⟩
    constraints := request.constraints.toFinset
    additionalFiles := request.additionalFiles.map fun e => ⟨e.1, e.2⟩
    refscanNeedles := request.refscanNeedles }

-- ====================
-- What a remote builder demands of the derivation
-- ====================

/-- The paths of the outputs ascend, in the order of the names of the outputs. -/
def OutputsAscend (derivation : Derivation) : Prop :=
  (derivation.outputs.iter.filterMap fun e => e.2.path).Pairwise fun p q =>
    (compare p.display q.display).isLE = true

/-- The variables that are passed as files. -/
def passedAsFile (sha256 : Bytes → ByteArr 32) (derivation : Derivation) : List Bytes :=
  match derivation.environment.entries.find? fun e => e.1.val = ascii "passAsFile" with
  | some e => (replacePlaceholders sha256 e.2 derivation.outputs).splitOn 32
  | none => []

/-- No variable has a name that cannot be set, and none a null byte in its value that is still there
    after variables were moved into files. -/
def Settable (sha256 : Bytes → ByteArr 32) (derivation : Derivation) : Prop :=
  ∀ e ∈ derivation.environment.entries, 61 ∉ e.1.val ∧ 0 ∉ e.1.val ∧
    (0 ∈ e.2 → e.1.val ∈ passedAsFile sha256 derivation ∨
      ∃ x ∈ passedAsFile sha256 derivation, e.1.val = x ++ ascii "Path")

/-- Has the derivation structured attributes? -/
def Structured (derivation : Derivation) : Prop :=
  ∃ e ∈ derivation.environment.entries, e.1.val = ascii "__json"

variable {sha256 : Bytes → ByteArr 32}

-- ====================
-- Placeholders keep null bytes
-- ====================

theorem zero_mem_replaceGo_iff {c : UInt8} {pat rep : Bytes} (hpat : 0 ∉ c :: pat) (hrep : 0 ∉ rep)
    {s : Bytes} {skip : ℕ} (hskip : 0 ∉ s.take skip) :
    0 ∈ replaceGo (c :: pat) rep skip s ↔ 0 ∈ s := by
  induction s generalizing skip with
  | nil => cases skip <;> rfl
  | cons d s ih =>
    cases skip with
    | succ skip =>
      rw [List.take_succ_cons, List.mem_cons, not_or] at hskip
      rw [replaceGo, ih hskip.2, List.mem_cons, or_iff_right hskip.1]
    | zero =>
      rw [replaceGo]
      split_ifs with h
      · obtain ⟨t, ht⟩ := h
        obtain ⟨rfl, rfl⟩ := List.cons_eq_cons.mp ht
        rw [List.mem_cons, not_or] at hpat
        have htake : 0 ∉ (pat ++ t).take ((c :: pat).length - 1) := by
          rw [List.length_cons, Nat.add_sub_cancel, List.take_left']
          · exact hpat.2
          · rfl
        rw [List.mem_append, or_iff_right hrep, ih htake, List.mem_cons, or_iff_right hpat.1]
      · rw [List.mem_cons, List.mem_cons, ih (by simp)]

theorem zero_not_mem_encode (x : Bytes) : 0 ∉ Nixbase32.encode x := fun h =>
  absurd (Nixbase32.mem_ALPHABET_of_mem_encode h) (by decide)

theorem zero_not_mem_toAbsolutePath (p : StorePath) : 0 ∉ p.toAbsolutePath := fun h =>
  absurd (StorePath.isPlain_of_mem_toAbsolutePath h) (by decide)

/-- A value has a null byte after its placeholders are replaced exactly if it had one before. -/
theorem zero_mem_replacePlaceholders_iff {s : Bytes} {outputs : Outputs} :
    0 ∈ replacePlaceholders sha256 s outputs ↔ 0 ∈ s := by
  rw [replacePlaceholders]
  generalize outputs.iter = l
  induction l generalizing s with
  | nil => rfl
  | cons e l ih =>
    rw [List.foldl_cons, ih]
    cases e.2.path with
    | none => rfl
    | some path =>
      have hplaceholder : hashPlaceholder sha256 e.1.name =
          47 :: Nixbase32.encode (sha256 (ascii "nix-output:" ++ e.1.name)).val := rfl
      simp only [hplaceholder]
      refine zero_mem_replaceGo_iff ?_ (zero_not_mem_toAbsolutePath path) (by simp)
      rw [List.mem_cons, not_or]
      exact ⟨by decide, zero_not_mem_encode _⟩

-- ====================
-- Variables passed as files
-- ====================

/-- The names of the variables can be set. -/
def Named (vars : BytesMap) : Prop := ∀ e ∈ vars.entries, 61 ∉ e.1 ∧ 0 ∉ e.1

/-- The values have no null bytes, those apart that are passed as files or written over. -/
def NulFree (passed : List Bytes) (vars : BytesMap) : Prop :=
  ∀ e ∈ vars.entries, 0 ∈ e.2 → e.1 ∈ passed ∨ ∃ x ∈ passed, e.1 = x ++ ascii "Path"

/-- The path of a file that is put into the build. -/
def GoodFile (path : Bytes) : Prop := Build.isCleanRelativePath path ∧ utf8Valid path = true

theorem mem_passAsFile_step {vars : BytesMap} {x path : Bytes} {e : Bytes × Bytes} :
    e ∈ ((vars.erase x).insert (x ++ ascii "Path") path).entries ↔
      e = (x ++ ascii "Path", path) ∨ (e ∈ vars.entries ∧ e.1 ≠ x ∧ e.1 ≠ x ++ ascii "Path") := by
  rw [SortedMap.mem_entries_insert_iff, SortedMap.mem_entries_erase_iff, and_assoc]

theorem named_step_iff {vars : BytesMap} {x path contents : Bytes} (hx : (x, contents) ∈ vars.entries) :
    Named ((vars.erase x).insert (x ++ ascii "Path") path) ↔ Named vars := by
  have hpath : 61 ∉ ascii "Path" ∧ 0 ∉ ascii "Path" := by decide
  have hnew : 61 ∉ x ++ ascii "Path" ∧ 0 ∉ x ++ ascii "Path" ↔ 61 ∉ x ∧ 0 ∉ x := by
    rw [List.mem_append, List.mem_append, or_iff_left hpath.1, or_iff_left hpath.2]
  constructor
  · intro h e he
    have hxPath := h _ (mem_passAsFile_step.mpr (.inl rfl))
    by_cases hex : e.1 = x
    · rw [hex]
      exact hnew.mp hxPath
    · by_cases hep : e.1 = x ++ ascii "Path"
      · rw [hep]
        exact hxPath
      · exact h e (mem_passAsFile_step.mpr (.inr ⟨he, hex, hep⟩))
  · intro h e he
    obtain rfl | ⟨he, -⟩ := mem_passAsFile_step.mp he
    · exact hnew.mpr (h _ hx)
    · exact h e he

theorem nulFree_step_iff {vars : BytesMap} {x path : Bytes} {passed : List Bytes} (hpath : 0 ∉ path) :
    NulFree passed ((vars.erase x).insert (x ++ ascii "Path") path) ↔ NulFree (x :: passed) vars := by
  constructor
  · intro h e he hnul
    by_cases hex : e.1 = x
    · exact .inl (hex ▸ List.mem_cons_self)
    · by_cases hep : e.1 = x ++ ascii "Path"
      · exact .inr ⟨x, List.mem_cons_self, hep⟩
      · obtain hmem | ⟨y, hy, heq⟩ := h e (mem_passAsFile_step.mpr (.inr ⟨he, hex, hep⟩)) hnul
        · exact .inl (List.mem_cons_of_mem _ hmem)
        · exact .inr ⟨y, List.mem_cons_of_mem _ hy, heq⟩
  · intro h e he hnul
    obtain rfl | ⟨he, hex, hep⟩ := mem_passAsFile_step.mp he
    · exact absurd hnul hpath
    · obtain hmem | ⟨y, hy, heq⟩ := h e he hnul
      · exact .inl ((List.mem_cons.mp hmem).resolve_left hex)
      · obtain rfl | hy := List.mem_cons.mp hy
        · exact absurd heq hep
        · exact .inr ⟨y, hy, heq⟩

theorem plain_attr (x : Bytes) : Path.Plain (ascii ".attr-" ++ Nixbase32.encode x) := by
  have hcons : ascii ".attr-" ++ Nixbase32.encode x = 46 :: 97 :: (ascii "ttr-" ++ Nixbase32.encode x) := rfl
  refine ⟨?_, ?_, ?_, ?_⟩
  · rw [hcons]
    exact List.cons_ne_nil _ _
  · rw [hcons]
    intro h
    cases h
  · rw [hcons]
    intro h
    cases h
  · rw [List.mem_append, not_or]
    exact ⟨by decide, fun h => absurd (Nixbase32.mem_ALPHABET_of_mem_encode h) (by decide)⟩

theorem goodFile_attr (x : Bytes) : GoodFile ((calculatePassAsFileEnv sha256 x).2.drop 1) := by
  have hdrop : (calculatePassAsFileEnv sha256 x).2.drop 1 =
      ascii "build" ++ 47 :: (ascii ".attr-" ++ Nixbase32.encode (sha256 x).val) := rfl
  constructor
  · rw [hdrop]
    exact Build.isCleanRelativePath_append (by decide) (by decide) (by decide)
      (plain_attr _)
  · apply utf8Valid_of_ascii
    intro c hc
    have hbuild : (ascii "build").all (· ≤ 0x7F) = true := by decide
    have hattr : (ascii ".attr-").all (· ≤ 0x7F) = true := by decide
    rw [hdrop, List.mem_append, List.mem_cons, List.mem_append] at hc
    obtain hc | rfl | hc | hc := hc
    · exact of_decide_eq_true (List.all_eq_true.mp hbuild c hc)
    · decide
    · exact of_decide_eq_true (List.all_eq_true.mp hattr c hc)
    · have hplain := isPlain_of_mem_ALPHABET c (Nixbase32.mem_ALPHABET_of_mem_encode hc)
      simp only [isPlain, Bool.and_eq_true, decide_eq_true_eq] at hplain
      exact hplain.1.1.2

/-- What moving variables into files keeps. -/
theorem passAsFileLoop_spec {passed : List Bytes} {vars vars' files files' : BytesMap}
    (h : passAsFileLoop sha256 passed (vars, files) = .ok (vars', files')) :
    (Named vars' ↔ Named vars) ∧ (NulFree [] vars' ↔ NulFree passed vars) ∧
      ((∀ e ∈ vars.entries, e.1 ≠ []) → ∀ e ∈ vars'.entries, e.1 ≠ []) ∧
      ((∀ e ∈ files.entries, GoodFile e.1) → ∀ e ∈ files'.entries, GoodFile e.1) := by
  induction passed generalizing vars files with
  | nil =>
    cases h
    exact ⟨Iff.rfl, Iff.rfl, id, id⟩
  | cons x passed ih =>
    rw [passAsFileLoop] at h
    cases hget : vars.get? x with
    | none =>
      rw [hget] at h
      cases h
    | some contents =>
      rw [hget] at h
      have hx := SortedMap.mem_of_get? hget
      obtain ⟨hnamed, hnul, hne, hgood⟩ := ih h
      have hzero : 0 ∉ (calculatePassAsFileEnv sha256 x).2 := by
        rw [calculatePassAsFileEnv, List.mem_append, not_or]
        exact ⟨by decide, zero_not_mem_encode _⟩
      refine ⟨hnamed.trans (named_step_iff hx), hnul.trans (nulFree_step_iff hzero),
        fun hall => hne ?_, fun hall => hgood ?_⟩
      · intro e he
        obtain rfl | ⟨he, -⟩ := mem_passAsFile_step.mp he
        · exact List.append_ne_nil_of_right_ne_nil _ (by decide)
        · exact hall e he
      · intro e he
        obtain rfl | ⟨he, -⟩ := SortedMap.mem_entries_insert_iff.mp he
        · exact goodFile_attr x
        · exact hall e he

-- ====================
-- The environment
-- ====================

theorem pairwise_NIX_ENVIRONMENT_VARS : NIX_ENVIRONMENT_VARS.Pairwise fun a b => a.1 ≠ b.1 := by
  decide +kernel

theorem NIX_ENVIRONMENT_VARS_settable : ∀ e ∈ NIX_ENVIRONMENT_VARS,
    e.1 ≠ [] ∧ e.1 ≠ ascii "passAsFile" ∧ 61 ∉ e.1 ∧ 0 ∉ e.1 ∧ 0 ∉ e.2 := by
  decide +kernel

/-- The variables set for every build. -/
def startVars : BytesMap := NIX_ENVIRONMENT_VARS.foldl (fun m e => m.insert e.1 e.2) .empty

theorem mem_startVars {e : Bytes × Bytes} : e ∈ startVars.entries ↔ e ∈ NIX_ENVIRONMENT_VARS := by
  refine (SortedMap.mem_entries_foldl_insert_iff (f := fun e => e) pairwise_NIX_ENVIRONMENT_VARS).trans ?_
  constructor
  · rintro (⟨x, hx, rfl⟩ | ⟨hnone, -⟩)
    · exact hx
    · cases hnone
  · intro h
    exact .inl ⟨e, h, rfl⟩

/-- The variables of a derivation without structured attributes, before any are moved into files. -/
def derivationVars (sha256 : Bytes → ByteArr 32) (derivation : Derivation) : BytesMap :=
  derivation.environment.entries.foldl (fun m e =>
    m.insert e.1.val (replacePlaceholders sha256 e.2 derivation.outputs)) startVars

variable {derivation : Derivation}

theorem mem_derivationVars {e : Bytes × Bytes} :
    e ∈ (derivationVars sha256 derivation).entries ↔
      (∃ x ∈ derivation.environment.entries,
        e = (x.1.val, replacePlaceholders sha256 x.2 derivation.outputs)) ∨
      (e ∈ NIX_ENVIRONMENT_VARS ∧ ∀ x ∈ derivation.environment.entries, e.1 ≠ x.1.val) := by
  have hne : derivation.environment.entries.Pairwise fun a b => a.1.val ≠ b.1.val := by
    refine derivation.environment.sorted.imp fun {a b} hlt heq => ?_
    have hlt : compare a.1.val b.1.val = .lt := hlt
    rw [heq, Std.LawfulEqOrd.compare_eq_iff_eq.mpr rfl] at hlt
    cases hlt
  refine (SortedMap.mem_entries_foldl_insert_iff
    (f := fun x : Utf8 × Bytes => (x.1.val, replacePlaceholders sha256 x.2 derivation.outputs)) hne).trans ?_
  rw [mem_startVars]

theorem settable_iff :
    Settable sha256 derivation ↔ Named (derivationVars sha256 derivation) ∧
      NulFree (passedAsFile sha256 derivation) (derivationVars sha256 derivation) := by
  constructor
  · intro h
    constructor
    · intro e he
      obtain ⟨x, hx, rfl⟩ | ⟨he, -⟩ := mem_derivationVars.mp he
      · exact ⟨(h x hx).1, (h x hx).2.1⟩
      · exact ⟨(NIX_ENVIRONMENT_VARS_settable e he).2.2.1, (NIX_ENVIRONMENT_VARS_settable e he).2.2.2.1⟩
    · intro e he hnul
      obtain ⟨x, hx, rfl⟩ | ⟨he, -⟩ := mem_derivationVars.mp he
      · exact (h x hx).2.2 (zero_mem_replacePlaceholders_iff.mp hnul)
      · exact absurd hnul (NIX_ENVIRONMENT_VARS_settable e he).2.2.2.2
  · rintro ⟨hnamed, hnul⟩ x hx
    have hmem : (x.1.val, replacePlaceholders sha256 x.2 derivation.outputs) ∈
        (derivationVars sha256 derivation).entries := mem_derivationVars.mpr (.inl ⟨x, hx, rfl⟩)
    exact ⟨(hnamed _ hmem).1, (hnamed _ hmem).2,
      fun h => hnul _ hmem (zero_mem_replacePlaceholders_iff.mpr h)⟩

variable (derivation) in
/-- The list of variables to pass as files is read from the variables. -/
theorem handlePassAsFile_derivationVars {maps : BytesMap × BytesMap} {files : BytesMap}
    (h : handlePassAsFile sha256 (derivationVars sha256 derivation, files) = .ok maps) :
    passAsFileLoop sha256 (passedAsFile sha256 derivation) (derivationVars sha256 derivation, files) =
      .ok maps := by
  rw [passedAsFile]
  cases hfind : derivation.environment.entries.find? fun e => e.1.val = ascii "passAsFile" with
  | none =>
    have hget : (derivationVars sha256 derivation).get? (ascii "passAsFile") = none := by
      rw [Option.eq_none_iff_forall_not_mem]
      intro v hv
      obtain ⟨x, hx, heq⟩ | ⟨he, -⟩ := mem_derivationVars.mp (SortedMap.mem_of_get? hv)
      · exact List.find?_eq_none.mp hfind x hx (decide_eq_true (congrArg Prod.fst heq).symm)
      · exact (NIX_ENVIRONMENT_VARS_settable _ he).2.1 rfl
    rw [handlePassAsFile, hget] at h
    exact h
  | some e =>
    have hkey := List.find?_some hfind
    rw [decide_eq_true_eq] at hkey
    have hget : (derivationVars sha256 derivation).get? (ascii "passAsFile") =
        some (replacePlaceholders sha256 e.2 derivation.outputs) := by
      apply SortedMap.get?_of_mem
      exact mem_derivationVars.mpr (.inl ⟨e, List.mem_of_find?_eq_some hfind, by rw [hkey]⟩)
    rw [handlePassAsFile, hget] at h
    simp only at h ⊢
    split_ifs at h
    exact h

theorem validate_eq_ok_iff : derivation.validate = .ok () ↔
    (∀ p ∈ derivation.inputDerivations.keys, ascii ".drv" <:+ p.name) ∧ derivation.system.val ≠ [] ∧
      derivation.builder.val ≠ [] ∧ ∀ x ∈ derivation.environment.entries, x.1.val ≠ [] := by
  have hkeys : (derivation.environment.keys.find? fun k => k.val.isEmpty) = none ↔
      ∀ x ∈ derivation.environment.entries, x.1.val ≠ [] := by
    rw [List.find?_eq_none]
    constructor
    · intro h x hx hnil
      exact h x.1 (List.mem_map_of_mem hx) (by rw [hnil]; rfl)
    · intro h k hk hempty
      obtain ⟨x, hx, rfl⟩ := List.mem_map.mp hk
      exact h x hx (List.isEmpty_iff.mp hempty)
  have hinputs : (derivation.inputDerivations.keys.find? fun p => !(ascii ".drv" <:+ p.name)) = none ↔
      ∀ p ∈ derivation.inputDerivations.keys, ascii ".drv" <:+ p.name := by
    rw [List.find?_eq_none]
    exact forall₂_congr fun p _ => by simp
  rw [← hkeys, ← hinputs, Derivation.validate]
  cases hi : derivation.inputDerivations.keys.find? fun p => !(ascii ".drv" <:+ p.name) with
  | some p => exact iff_of_false (fun h => by cases h) fun h => by cases h.1
  | none =>
    rw [and_iff_right rfl]
    cases hs : derivation.system.val with
    | nil => exact iff_of_false (fun h => by cases h) fun h => h.1 rfl
    | cons a system =>
      rw [and_iff_right (List.cons_ne_nil _ _)]
      cases hb : derivation.builder.val with
      | nil => exact iff_of_false (fun h => by cases h) fun h => h.1 rfl
      | cons b builder =>
        rw [and_iff_right (List.cons_ne_nil _ _)]
        cases he : derivation.environment.keys.find? fun k => k.val.isEmpty with
        | some k => exact iff_of_false (fun h => by cases h) fun h => by cases h
        | none => exact iff_of_true rfl rfl

/-- The variables with structured attributes. -/
theorem structuredVars_settable : ∀ e ∈ ((startVars.insert (ascii "NIX_ATTRS_JSON_FILE")
    (ascii "/build/.attrs.json")).insert (ascii "NIX_ATTRS_SH_FILE") (ascii "/build/.attrs.sh")).entries,
    e.1 ≠ [] ∧ 61 ∉ e.1 ∧ 0 ∉ e.1 ∧ 0 ∉ e.2 := by
  intro e he
  obtain rfl | ⟨he, -⟩ := SortedMap.mem_entries_insert_iff.mp he
  · decide
  · obtain rfl | ⟨he, -⟩ := SortedMap.mem_entries_insert_iff.mp he
    · decide
    · obtain ⟨hne, -, hnamed⟩ := NIX_ENVIRONMENT_VARS_settable e (mem_startVars.mp he)
      exact ⟨hne, hnamed⟩

theorem goodFile_attrs : GoodFile (ascii "build/.attrs.json") ∧ GoodFile (ascii "build/.attrs.sh") := by
  unfold GoodFile
  decide +kernel

/-- What is known of the environment and of the files of a build. -/
theorem buildEnvironment_spec {render : Bytes → List (Bytes × Bytes) → Except Fault (Bytes × Bytes)}
    {vars files : BytesMap} (hvalid : derivation.validate = .ok ())
    (h : buildEnvironment sha256 render derivation = .ok (vars, files)) :
    (∀ e ∈ vars.entries, e.1 ≠ []) ∧ (∀ e ∈ files.entries, GoodFile e.1) ∧
      (Named vars ∧ NulFree [] vars ↔ Structured derivation ∨ Settable sha256 derivation) := by
  obtain ⟨-, -, -, hkeys⟩ := validate_eq_ok_iff.mp hvalid
  unfold buildEnvironment at h
  cases hfind : derivation.environment.entries.find? fun e => e.1.val = ascii "__json" with
  | some e =>
    have hkey := List.find?_some hfind
    rw [decide_eq_true_eq] at hkey
    have hstructured : Structured derivation := ⟨e, List.mem_of_find?_eq_some hfind, hkey⟩
    rw [hfind] at h
    simp only [Option.map_some, handleStructuredAttrs, except_bind_eq_ok_iff] at h
    obtain ⟨paths, -, ⟨json, sh⟩, -, hmaps⟩ := h
    cases hmaps
    refine ⟨fun e he => (structuredVars_settable e he).1, fun e he => ?_,
      iff_of_true ⟨fun e he => ?_, fun e he hnul => ?_⟩ (.inl hstructured)⟩
    · obtain rfl | ⟨he, -⟩ := SortedMap.mem_entries_insert_iff.mp he
      · exact goodFile_attrs.2
      · obtain rfl | ⟨he, -⟩ := SortedMap.mem_entries_insert_iff.mp he
        · exact goodFile_attrs.1
        · cases he
    · exact ⟨(structuredVars_settable e he).2.1, (structuredVars_settable e he).2.2.1⟩
    · exact absurd hnul (structuredVars_settable e he).2.2.2
  | none =>
    have hnot : ¬ Structured derivation := by
      rintro ⟨x, hx, hkey⟩
      exact List.find?_eq_none.mp hfind x hx (decide_eq_true hkey)
    rw [hfind] at h
    have hloop := handlePassAsFile_derivationVars derivation h
    obtain ⟨hnamed, hnul, hne, hgood⟩ := passAsFileLoop_spec hloop
    rw [or_iff_right hnot, settable_iff, hnamed, hnul]
    refine ⟨hne fun e he => ?_, hgood fun e he => (by cases he), Iff.rfl⟩
    obtain ⟨x, hx, rfl⟩ | ⟨he, -⟩ := mem_derivationVars.mp he
    · exact hkeys x hx
    · exact (NIX_ENVIRONMENT_VARS_settable e he).1

-- ====================
-- The request
-- ====================

theorem outputPaths_eq_ok {outputs : Outputs} {paths : List StorePath}
    (h : outputPaths outputs = .ok paths) : outputs.iter.filterMap (fun e => e.2.path) = paths := by
  rw [outputPaths] at h
  generalize outputs.iter = l at h ⊢
  induction l generalizing paths with
  | nil =>
    cases h
    rfl
  | cons e l ih =>
    rw [List.mapM_cons] at h
    simp only [except_bind_eq_ok_iff] at h
    obtain ⟨path, hpath, paths', hpaths, hcons⟩ := h
    cases hcons
    cases hp : e.2.path with
    | none =>
      rw [hp] at hpath
      cases hpath
    | some p =>
      rw [hp] at hpath
      cases hpath
      rw [List.filterMap_cons, hp, ih hpaths]

/-- The path of an output relative to the root of a build. -/
theorem drop_toAbsolutePath (p : StorePath) :
    p.toAbsolutePath.drop 1 = ascii "nix/store" ++ 47 :: p.display := rfl

theorem plain_display (p : StorePath) : Path.Plain p.display := by
  have h := Store.Proto.PathInfo.validateName_display p
  unfold Castore.validateName at h
  split_ifs at h with hnil hparent hcur hlong hnull hslash
  exact ⟨hnil, hcur, hparent, hslash⟩

theorem le_of_mem_toAbsolutePath {p : StorePath} {c : UInt8} (h : c ∈ p.toAbsolutePath) : c ≤ 0x7F := by
  have hplain := StorePath.isPlain_of_mem_toAbsolutePath h
  simp only [isPlain, Bool.and_eq_true, decide_eq_true_eq] at hplain
  exact hplain.1.1.2

theorem goodFile_output (p : StorePath) : GoodFile (p.toAbsolutePath.drop 1) := by
  constructor
  · rw [drop_toAbsolutePath]
    exact Build.isCleanRelativePath_append (by decide) (by decide) (by decide)
      (plain_display p)
  · exact utf8Valid_of_ascii fun c hc => le_of_mem_toAbsolutePath (List.mem_of_mem_drop hc)

theorem isSorted_outputs_iff {paths : List StorePath} :
    Build.isSorted (paths.map fun p => p.toAbsolutePath.drop 1) = true ↔
      paths.Pairwise fun p q => (compare p.display q.display).isLE = true := by
  rw [Build.isSorted_iff, List.pairwise_map]
  refine List.Pairwise.iff fun {p q} => ?_
  have hprefix : compare (ascii "nix/store") (ascii "nix/store") = .eq := Std.ReflCmp.compare_self
  have hslash : compare (47 : UInt8) 47 = .eq := Std.ReflCmp.compare_self
  rw [drop_toAbsolutePath, drop_toAbsolutePath, compare_append rfl, List.compare_cons_cons, hprefix, hslash,
    Ordering.eq_then, Ordering.eq_then]

theorem isSorted_keys (m : BytesMap) : Build.isSorted (m.entries.map Prod.fst) = true := by
  rw [Build.isSorted_iff, List.pairwise_map]
  exact m.sorted.imp fun h => Ordering.isLE_of_eq_lt h

/-- What the request of a derivation is made of. -/
structure Assembled (sha256 : Bytes → ByteArr 32) (derivation : Derivation) (b : Build.BuildRequest)
    (vars files : BytesMap) : Prop where
  workingDir : b.workingDir = ascii "build"
  scratchPaths : b.scratchPaths = [ascii "build", ascii "nix/store"]
  inputsDir : b.inputsDir = ascii "nix/store"
  outputs : b.outputs =
    (derivation.outputs.iter.filterMap fun e => e.2.path).map fun p => p.toAbsolutePath.drop 1
  environmentVars : b.environmentVars = vars.entries.map fun e => ⟨e.1, e.2⟩
  additionalFiles : b.additionalFiles = files.entries.map fun e => ⟨e.1, e.2⟩
  system : ∀ t, .system t ∈ b.constraints ↔ t = derivation.system.val
  noPaths : ∀ p, .availableReadOnlyPath p ∉ b.constraints

variable {render : Bytes → List (Bytes × Bytes) → Except Fault (Bytes × Bytes)} {inputs : InputNodes}
  {b : Build.BuildRequest}

theorem derivationIntoRequest_spec (h : derivationIntoRequest sha256 render derivation inputs = .ok b) :
    ∃ vars files, buildEnvironment sha256 render derivation = .ok (vars, files) ∧
      Assembled sha256 derivation b vars files := by
  simp only [derivationIntoRequest, derivationIntoBuildRequest, except_bind_eq_ok_iff] at h
  obtain ⟨request, ⟨⟨vars, files⟩, henv, paths, hpaths, hrequest⟩, names, -, hb⟩ := h
  cases hrequest
  cases hb
  refine ⟨vars, files, henv, rfl, rfl, rfl, ?_, rfl, rfl, fun t => ?_, fun p => ?_⟩
  · rw [outputPaths_eq_ok hpaths]
  · rw [List.mem_toFinset]
    split_ifs <;> simp
  · rw [List.mem_toFinset]
    split_ifs <;> simp

theorem isValid_iff {e : Bytes × Bytes} :
    (⟨e.1, e.2⟩ : Build.EnvVar).isValid = true ↔ e.1 ≠ [] ∧ (61 ∉ e.1 ∧ 0 ∉ e.1) ∧ 0 ∉ e.2 := by
  simp [Build.EnvVar.isValid, and_assoc]

theorem Assembled.valid_iff {vars files : BytesMap} (h : Assembled sha256 derivation b vars files)
    (hvalid : derivation.validate = .ok ())
    (henv : buildEnvironment sha256 render derivation = .ok (vars, files)) :
    Build.Valid b ↔ OutputsAscend derivation ∧ (Structured derivation ∨ Settable sha256 derivation) := by
  obtain ⟨hne, hgood, hiff⟩ := buildEnvironment_spec hvalid henv
  have hvars : (∀ e ∈ b.environmentVars, e.isValid = true) ↔ Named vars ∧ NulFree [] vars := by
    rw [h.environmentVars, List.forall_mem_map]
    constructor
    · intro hall
      refine ⟨fun e he => (isValid_iff.mp (hall e he)).2.1, fun e he hnul => ?_⟩
      exact absurd hnul (isValid_iff.mp (hall e he)).2.2
    · rintro ⟨hnamed, hnul⟩ e he
      refine isValid_iff.mpr ⟨hne e he, hnamed e he, fun hzero => ?_⟩
      obtain hmem | ⟨x, hx, -⟩ := hnul e he hzero
      · cases hmem
      · cases hx
  rw [← hiff, ← hvars, OutputsAscend, ← isSorted_outputs_iff, ← h.outputs]
  constructor
  · intro hb
    exact ⟨hb.outputsSorted, hb.environmentVars⟩
  · rintro ⟨hsorted, hset⟩
    have hpaths : Build.isCleanRelativePath (ascii "build") = true ∧
        Build.isCleanRelativePath (ascii "nix/store") = true := by decide
    refine ⟨h.workingDir ▸ hpaths.1, ?_, ?_, h.inputsDir ▸ hpaths.2, ?_, hsorted, hset, ?_, ?_, ?_⟩
    · rw [h.scratchPaths]
      exact List.forall_mem_cons.mpr ⟨hpaths.1, List.forall_mem_singleton.mpr hpaths.2⟩
    · rw [h.scratchPaths]
      decide
    · rw [h.outputs, List.forall_mem_map]
      exact fun p _ => (goodFile_output p).1
    · rw [h.environmentVars, List.map_map]
      exact isSorted_keys vars
    · rw [h.additionalFiles, List.forall_mem_map]
      exact fun e he => (hgood e he).1
    · rw [h.additionalFiles, List.map_map]
      exact isSorted_keys files

/-- The paths of the request of a derivation are strings. -/
theorem Assembled.utf8Paths {vars files : BytesMap} (h : Assembled sha256 derivation b vars files)
    (hgood : ∀ e ∈ files.entries, GoodFile e.1) : Build.Proto.Utf8Paths b := by
  have hpaths : utf8Valid (ascii "build") = true ∧ utf8Valid (ascii "nix/store") = true := by decide +kernel
  refine ⟨h.workingDir ▸ hpaths.1, ?_, h.inputsDir ▸ hpaths.2, ?_, ?_⟩
  · rw [h.scratchPaths]
    exact List.forall_mem_cons.mpr ⟨hpaths.1, List.forall_mem_singleton.mpr hpaths.2⟩
  · rw [h.outputs, List.forall_mem_map]
    exact fun p _ => (goodFile_output p).2
  · rw [h.additionalFiles, List.forall_mem_map]
    exact fun e he => (hgood e he).2

theorem inputNames_eq_ok (inputs : InputNodes) :
    ∃ names, inputNames (inputs.entries.map fun e => (e.1.display, e.2)) = .ok names := by
  rw [inputNames]
  generalize inputs.entries = l
  suffices ∃ names, (l.map fun e => (e.1.display, e.2)).mapM (fun e : Bytes × Node =>
      match PathComponent.tryFrom e.1 with
      | .ok name => (.ok (name, e.2) : Except Fault (PathComponent × Node))
      | .error _ => .error (.panic
          (ascii "Snix bug: unable to convert store path basename to PathComponent"))) = .ok names by
    obtain ⟨names, hnames⟩ := this
    rw [hnames]
    exact ⟨_, rfl⟩
  induction l with
  | nil => exact ⟨[], rfl⟩
  | cons e l ih =>
    obtain ⟨names, hnames⟩ := ih
    have hname : PathComponent.tryFrom e.1.display =
        .ok ⟨e.1.display, Store.Proto.PathInfo.validateName_display e.1⟩ :=
      PathComponent.tryFrom_val ⟨e.1.display, Store.Proto.PathInfo.validateName_display e.1⟩
    rw [List.map_cons, List.mapM_cons, hnames, hname]
    exact ⟨_, rfl⟩

/-- A derivation whose outputs have paths has a request, if its environment can be set up. -/
theorem exists_derivationIntoRequest {maps : BytesMap × BytesMap} (hpaths : derivation.allPaths)
    (henv : buildEnvironment sha256 render derivation = .ok maps) (inputs : InputNodes) :
    ∃ b, derivationIntoRequest sha256 render derivation inputs = .ok b := by
  have hout : ∃ paths, outputPaths derivation.outputs = .ok paths := by
    rw [outputPaths]
    rw [Derivation.allPaths] at hpaths
    generalize derivation.outputs.iter = l at hpaths
    induction l with
    | nil => exact ⟨[], rfl⟩
    | cons e l ih =>
      obtain ⟨he, hl⟩ := List.forall_mem_cons.mp hpaths
      obtain ⟨path, hpath⟩ := Option.isSome_iff_exists.mp he
      obtain ⟨paths, hpaths⟩ := ih hl
      rw [List.mapM_cons, hpaths, hpath]
      exact ⟨_, rfl⟩
  obtain ⟨paths, hpaths⟩ := hout
  obtain ⟨names, hnames⟩ := inputNames_eq_ok inputs
  simp only [derivationIntoRequest, derivationIntoBuildRequest, henv, hpaths]
  refine ⟨_, except_bind_eq_ok_iff.mpr ⟨_, rfl, except_bind_eq_ok_iff.mpr ⟨names, hnames, rfl⟩⟩⟩

/-- The request is sent to a remote builder, which accepts it, in whatever order its constraints are
    written. -/
def Accepted (b : Build.BuildRequest) : Prop :=
  ∀ order, Build.Proto.Iterates order b.constraints →
    ∃ m b', Build.Proto.ofBuildRequest order b = some m ∧ Build.Proto.tryFrom m = .ok b'

/-- The request of a validated derivation meets what is demanded of requests, and is accepted by a
    remote builder, exactly if the paths of the outputs ascend in the order of their names, and its
    variables can be set or are given as structured attributes. -/
theorem request_accepted_iff (hvalid : derivation.validate = .ok ())
    (h : derivationIntoRequest sha256 render derivation inputs = .ok b) :
    (Build.Valid b ∧ Accepted b) ↔
      OutputsAscend derivation ∧ (Structured derivation ∨ Settable sha256 derivation) := by
  obtain ⟨vars, files, henv, hassembled⟩ := derivationIntoRequest_spec h
  obtain ⟨-, hgood, -⟩ := buildEnvironment_spec hvalid henv
  rw [← hassembled.valid_iff hvalid henv, and_iff_left_iff_imp]
  intro hb order horder
  have hsystem := (validate_eq_ok_iff.mp hvalid).2.1
  exact Build.Proto.exists_tryFrom_iff.mpr ⟨hassembled.utf8Paths hgood, hb,
    Build.Proto.exists_convertConstraints horder hsystem hassembled.system hassembled.noPaths⟩

/-- A derivation without variables, of given outputs. -/
def bare (outputs : Outputs) : Derivation := { Derivation.minimal .empty with outputs := outputs }

theorem buildEnvironment_bare (outputs : Outputs) :
    buildEnvironment sha256 render (bare outputs) = .ok (startVars, .empty) := by
  have hget : startVars.get? (ascii "passAsFile") = none := by decide
  have hentries : (bare outputs).environment.entries = [] := rfl
  rw [buildEnvironment, hentries, List.find?_nil, Option.map_none, List.foldl_nil]
  change handlePassAsFile sha256 (startVars, .empty) = _
  rw [handlePassAsFile, hget]

theorem validName_fixture_lib : ValidName (ascii "lib") := by decide

theorem validName_fixture_hello : ValidName (ascii "hello") := by decide

theorem validName_fixture_hello_lib : ValidName (ascii "hello-lib") := by decide

theorem fixture_lib_ne_drv : ascii "lib" ≠ ascii "drv" := by decide

def helloPath : StorePath := ⟨List.Vector.replicate 20 0, ascii "hello", validName_fixture_hello⟩

def helloLibPath : StorePath :=
  ⟨List.Vector.replicate 20 0xFF, ascii "hello-lib", validName_fixture_hello_lib⟩

def libOutput : OutputName := ⟨ascii "lib", validName_fixture_lib, fixture_lib_ne_drv⟩

def libAndOutMap : SortedMap OutputName.cmp Output :=
  .ofList [(libOutput, ⟨some helloLibPath, none⟩), (OutputName.out, ⟨some helloPath, none⟩)]

theorem valid_libAndOutMap : (OutputsInner.multiple libAndOutMap).Valid := by
  unfold OutputsInner.Valid
  decide +kernel

/-- Two outputs, of which the first one has the greater path. -/
def libAndOut : Outputs := ⟨.multiple libAndOutMap, valid_libAndOutMap⟩

/-- One output. -/
def onlyOut : Outputs := ⟨.single ⟨some helloPath, none⟩, trivial⟩

theorem request_accepted_iff_onlyOut :
    ∃ b, derivationIntoRequest (fun _ => List.Vector.replicate 32 0) (fun _ _ => .error .cutOff)
        (bare onlyOut) .empty = .ok b ∧
      ((Build.Valid b ∧ Accepted b) ↔ OutputsAscend (bare onlyOut) ∧ (Structured (bare onlyOut) ∨
        Settable (fun _ => List.Vector.replicate 32 0) (bare onlyOut))) := by
  have hpaths : (bare onlyOut).allPaths := by decide +kernel
  obtain ⟨b, hb⟩ := exists_derivationIntoRequest hpaths (buildEnvironment_bare onlyOut) .empty
  exact ⟨b, hb, request_accepted_iff (by decide +kernel) hb⟩

/-- The outputs of a derivation with two outputs, in the order of their names, need not be sorted. -/
theorem request_libAndOut :
    (bare libAndOut).validate = .ok () ∧ (bare libAndOut).allPaths ∧
      ∃ b, derivationIntoRequest (fun _ => List.Vector.replicate 32 0) (fun _ _ => .error .cutOff)
        (bare libAndOut) .empty = .ok b ∧ ¬ Build.Valid b ∧ ¬ Accepted b := by
  have hvalid : (bare libAndOut).validate = .ok () := by decide +kernel
  have hpaths : (bare libAndOut).allPaths := by decide +kernel
  obtain ⟨b, hb⟩ : ∃ b, derivationIntoRequest (fun _ => List.Vector.replicate 32 0)
      (fun _ _ => .error .cutOff) (bare libAndOut) .empty = .ok b :=
    exists_derivationIntoRequest hpaths (buildEnvironment_bare libAndOut) .empty
  obtain ⟨vars, files, henv, hassembled⟩ := derivationIntoRequest_spec hb
  have hnot : ¬ Build.Valid b := by
    rw [hassembled.valid_iff hvalid henv, OutputsAscend]
    rintro ⟨hascend, -⟩
    exact absurd hascend (by decide +kernel)
  refine ⟨hvalid, hpaths, b, hb, hnot, fun haccepted => ?_⟩
  obtain ⟨m, b', hm, hread⟩ := haccepted b.constraints.toList
    ⟨b.constraints.nodup_toList, b.constraints.toList_toFinset⟩
  exact hnot (Build.Proto.exists_tryFrom_iff.mp ⟨m, b', hm, hread⟩).2.1

end Snix.BuildGlue
