import Snix.Lib.Text
import Snix.NixCompat.Derivation.OutputSet

/-!
# Derived paths

A derived path is a store path, or outputs of a store path. It is written with a separator between
the store path and the outputs, and there are two separators.

## Main definitions

- `OutputSpec` — all outputs, or some by their names
- `DerivedPath`, `LegacyDerivedPath` — one value with two written forms
- `DerivedPath.Selects` — if there are outputs to select, one is selected

## Main results

- `OutputSpec.fromStr_eq_ok_iff` — the lists of outputs that are accepted
- `DerivedPath.read_written_forms` — both written forms are read back
-/

namespace Snix

-- ====================
-- Outputs
-- ====================

instance : Std.LawfulEqCmp OutputName.cmp where
  eq_of_compare {a b} h := by
    by_contra hne
    exact Outputs.cmp_ne_eq_iff.mpr hne h

/-- Outputs that are selected. -/
inductive OutputSpec where
  | all
  | named (outputs : OutputNames)
  deriving DecidableEq

inductive ParseOutputSpecError where
  | outputName (idx : ℕ) (err : ParseOutputNameError)
  deriving DecidableEq, Repr

namespace OutputSpec

def display : OutputSpec → Bytes
  | all => ascii "*"
  | named outputs => [44].intercalate (outputs.elems.map OutputName.name)

/-- Adds the outputs from the one at `idx` on. -/
def insertNames : List Bytes → ℕ → OutputNames → Except ParseOutputSpecError OutputNames
  | [], _, outputs => .ok outputs
  | name :: names, idx, outputs =>
    match OutputName.fromStr name with
    | .error err => .error (.outputName idx err)
    | .ok output => insertNames names (idx + 1) (outputs.insert output ())

def fromStr (s : Bytes) : Except ParseOutputSpecError OutputSpec :=
  if s = ascii "*" then .ok .all else (insertNames (s.splitOn 44) 0 .empty).map .named

/-- The set of the output names in a list. -/
def setOf (names : List OutputName) : OutputNames := .ofList (names.map fun n => (n, ()))

theorem mem_elems_setOf {names : List OutputName} {n : OutputName} :
    n ∈ (setOf names).elems ↔ n ∈ names := by
  rw [setOf, SortedMap.mem_keys_ofList_iff]
  simp

theorem fromStr_name_iff {s : Bytes} {n : OutputName} : OutputName.fromStr s = .ok n ↔ n.name = s := by
  constructor
  · intro h
    unfold OutputName.fromStr at h
    split at h
    · cases h
    · split at h
      · cases h
      · cases h
        rfl
  · rintro rfl
    exact OutputName.fromStr_name n

theorem insertNames_eq_ok_iff {pieces : List Bytes} {idx : ℕ} {outputs outputs' : OutputNames} :
    insertNames pieces idx outputs = .ok outputs' ↔
      ∃ names : List OutputName, names.map OutputName.name = pieces ∧
        names.foldl (fun m n => m.insert n ()) outputs = outputs' := by
  induction pieces generalizing idx outputs with
  | nil =>
    refine ⟨fun h => ⟨[], rfl, Except.ok.inj h⟩, ?_⟩
    rintro ⟨names, hnames, rfl⟩
    rw [List.map_eq_nil_iff.mp hnames]
    rfl
  | cons piece pieces ih =>
    rw [insertNames]
    cases hpiece : OutputName.fromStr piece with
    | error err =>
      refine iff_of_false nofun ?_
      rintro ⟨names, hnames, -⟩
      obtain ⟨n, names, rfl, hn, -⟩ := List.map_eq_cons_iff.mp hnames
      rw [fromStr_name_iff.mpr hn] at hpiece
      cases hpiece
    | ok n =>
      have hn := fromStr_name_iff.mp hpiece
      refine ih.trans ⟨?_, ?_⟩
      · rintro ⟨names, hnames, houtputs⟩
        exact ⟨n :: names, by rw [List.map_cons, hn, hnames], houtputs⟩
      · rintro ⟨names, hnames, houtputs⟩
        obtain ⟨n', names, rfl, hn', htail⟩ := List.map_eq_cons_iff.mp hnames
        rw [fromStr_name_iff.mpr hn'] at hpiece
        cases hpiece
        exact ⟨names, htail, houtputs⟩

/-- The lists of outputs that are accepted: the star, and names with commas between them. -/
theorem fromStr_eq_ok_iff {s : Bytes} {spec : OutputSpec} :
    fromStr s = .ok spec ↔
      (s = ascii "*" ∧ spec = .all) ∨ (s ≠ ascii "*" ∧
        ∃ names : List OutputName, names.map OutputName.name = s.splitOn 44 ∧
          spec = .named (setOf names)) := by
  unfold fromStr
  split
  case isTrue h =>
    rw [Except.ok.injEq, and_iff_right h, or_iff_left fun hne => hne.1 h, eq_comm]
  case isFalse h =>
    rw [or_iff_right fun heq => h heq.1, and_iff_right h]
    have hset : ∀ names : List OutputName,
        names.foldl (fun m n => m.insert n ()) SortedMap.empty = setOf names := by
      intro names
      rw [setOf, SortedMap.ofList, List.foldl_map]
    constructor
    · intro hspec
      cases hnames : insertNames (s.splitOn 44) 0 .empty with
      | error err =>
        rw [hnames] at hspec
        cases hspec
      | ok outputs =>
        rw [hnames] at hspec
        cases hspec
        obtain ⟨names, hpieces, rfl⟩ := insertNames_eq_ok_iff.mp hnames
        exact ⟨names, hpieces, by rw [hset]⟩
    · rintro ⟨names, hpieces, rfl⟩
      rw [insertNames_eq_ok_iff.mpr ⟨names, hpieces, hset names⟩]
      rfl

/-- A list of outputs with the pieces of another, in any order and any number of times, is read as
    the same. -/
theorem fromStr_of_mem_iff {s s' : Bytes} {spec : OutputSpec} (hs' : s' ≠ ascii "*")
    (h : ∀ piece, piece ∈ s.splitOn 44 ↔ piece ∈ s'.splitOn 44) (hs : s ≠ ascii "*")
    (hspec : fromStr s = .ok spec) : fromStr s' = .ok spec := by
  obtain ⟨heq, -⟩ | ⟨-, names, hpieces, rfl⟩ := fromStr_eq_ok_iff.mp hspec
  · exact absurd heq hs
  have hexists : s'.splitOn 44 ∈ Set.range (List.map OutputName.name) := by
    rw [Set.range_list_map]
    intro piece hpiece
    rw [← h, ← hpieces] at hpiece
    obtain ⟨n, -, hn⟩ := List.mem_map.mp hpiece
    exact ⟨n, hn⟩
  obtain ⟨names', hpieces'⟩ := hexists
  have hinj : Function.Injective OutputName.name := by
    intro a b hab
    cases a
    cases b
    cases hab
    rfl
  refine fromStr_eq_ok_iff.mpr (.inr ⟨hs', names', hpieces', congrArg named ?_⟩)
  refine SortedMap.ext_elems fun n => ?_
  rw [mem_elems_setOf, mem_elems_setOf, ← List.mem_map_of_injective hinj,
    ← List.mem_map_of_injective (l := names') hinj, hpieces, hpieces', h]

theorem toOption_fromStr_congr {s s' : Bytes} (hs : s ≠ ascii "*") (hs' : s' ≠ ascii "*")
    (h : ∀ piece, piece ∈ s.splitOn 44 ↔ piece ∈ s'.splitOn 44) :
    (fromStr s).toOption = (fromStr s').toOption := by
  cases hspec : fromStr s with
  | ok spec => rw [fromStr_of_mem_iff hs' h hs hspec]
  | error err =>
    cases hspec' : fromStr s' with
    | ok spec =>
      rw [fromStr_of_mem_iff hs (fun piece => (h piece).symm) hs' hspec'] at hspec
      cases hspec
    | error err' => rfl

/-- No other byte is written for outputs. -/
theorem mem_display {spec : OutputSpec} {c : UInt8} (h : c ∈ spec.display) :
    isNameChar c = true ∨ c ∈ ascii "*," := by
  cases spec with
  | all => exact .inr (List.mem_append_left [44] h)
  | named outputs =>
    obtain rfl | ⟨piece, hpiece, hc⟩ := mem_of_mem_intercalate h
    · exact .inr (by decide)
    · obtain ⟨n, -, rfl⟩ := List.mem_map.mp hpiece
      exact .inl (n.valid.2.2 c hc)

/-- All outputs, or at least one. -/
def Selects : OutputSpec → Prop
  | all => True
  | named outputs => outputs.elems ≠ []

theorem display_named_ne {outputs : OutputNames} (h : outputs.elems ≠ []) :
    (named outputs).display ≠ ascii "*" := by
  intro heq
  obtain ⟨n, hn⟩ := List.exists_mem_of_ne_nil _ h
  obtain ⟨c, hc⟩ := List.exists_mem_of_ne_nil _ n.valid.1
  have hstar : c ∈ (named outputs).display := mem_intercalate (List.mem_map_of_mem hn) hc
  rw [heq] at hstar
  have hchar := n.valid.2.2 c hc
  rw [List.mem_singleton.mp hstar] at hchar
  exact absurd hchar (by decide +kernel)

/-- Outputs that are written are read back. -/
theorem fromStr_display {spec : OutputSpec} (h : spec.Selects) : fromStr spec.display = .ok spec := by
  cases spec with
  | all => exact fromStr_eq_ok_iff.mpr (.inl ⟨rfl, rfl⟩)
  | named outputs =>
    refine fromStr_eq_ok_iff.mpr (.inr ⟨display_named_ne h, outputs.elems, ?_, ?_⟩)
    · refine (List.splitOn_intercalate 44 (fun piece hpiece hcomma => ?_) ?_).symm
      · obtain ⟨n, -, rfl⟩ := List.mem_map.mp hpiece
        exact absurd (n.valid.2.2 44 hcomma) (by decide +kernel)
      · exact fun hnil => h (List.map_eq_nil_iff.mp hnil)
    · exact congrArg named (SortedMap.ext_elems fun n => mem_elems_setOf.symm)

end OutputSpec

-- ====================
-- Derived paths
-- ====================

/-- A derived path: a store path, or outputs of a derivation. -/
inductive DerivedPath where
  | opaquePath (path : StorePath)
  | built (drvPath : StorePath) (outputs : OutputSpec)
  deriving DecidableEq

inductive ParseDerivedPathError where
  | storePath (e : ParseStorePathError)
  | missingDrvSuffix
  | outputSpec (e : ParseOutputSpecError)
  deriving DecidableEq, Repr

namespace DerivedPath

/-- The form with the separator between the store path and the outputs. -/
def format (sep : UInt8) : DerivedPath → Bytes
  | opaquePath path => path.toAbsolutePath
  | built drvPath outputs => drvPath.toAbsolutePath ++ sep :: outputs.display

/-- Parses the form with the separator between the store path and the outputs. -/
def parse (sep : UInt8) (s : Bytes) : Except ParseDerivedPathError DerivedPath :=
  match rsplitOnce sep s with
  | some (front, outputsS) => do
    let drvPath ← (StorePath.fromAbsolutePath front).mapError .storePath
    let outputs ← (OutputSpec.fromStr outputsS).mapError .outputSpec
    pure (built drvPath outputs)
  | none => (StorePath.fromAbsolutePath s).mapError .storePath |>.map opaquePath

def display : DerivedPath → Bytes := format 94

def fromStr : Bytes → Except ParseDerivedPathError DerivedPath := parse 94

/-- If there are outputs to select, one is selected. -/
def Selects : DerivedPath → Prop
  | opaquePath _ => True
  | built _ outputs => outputs.Selects

end DerivedPath

/-- A derived path that is written with an exclamation mark. -/
structure LegacyDerivedPath where
  path : DerivedPath
  deriving DecidableEq

namespace LegacyDerivedPath

def display (p : LegacyDerivedPath) : Bytes := p.path.format 33

def fromStr (s : Bytes) : Except ParseDerivedPathError LegacyDerivedPath :=
  (DerivedPath.parse 33 s).map mk

end LegacyDerivedPath

namespace DerivedPath

theorem mem_toAbsolutePath {p : StorePath} {c : UInt8} (h : c ∈ p.toAbsolutePath) :
    isNameChar c = true ∨ c = 47 := by
  have halphabet : ∀ c ∈ Nixbase32.ALPHABET, isNameChar c = true := by decide +kernel
  have hdir : ∀ c ∈ STORE_DIR_WITH_SLASH, isNameChar c = true ∨ c = 47 := by decide +kernel
  rw [StorePath.toAbsolutePath, StorePath.display, List.mem_append, List.mem_append,
    List.mem_append] at h
  obtain h | (h | h) | h := h
  · exact hdir c h
  · exact .inl (halphabet c (Nixbase32.mem_ALPHABET_of_mem_encode h))
  · rw [List.mem_singleton.mp h]
    exact .inl (by decide +kernel)
  · exact .inl (p.valid.2.2 c h)

/-- The written form is read back, with any separator that occurs neither in store paths nor in
    outputs. -/
theorem parse_format {sep : UInt8} (hname : isNameChar sep = false) (hsep : sep ∉ ascii "/*,")
    {p : DerivedPath} (h : p.Selects) : parse sep (p.format sep) = .ok p := by
  have hpath : ∀ q : StorePath, sep ∉ q.toAbsolutePath := by
    intro q hmem
    obtain hchar | rfl := mem_toAbsolutePath hmem
    · rw [hname] at hchar
      cases hchar
    · exact hsep (by decide)
  cases p with
  | opaquePath path =>
    rw [format, parse, rsplitOnce_eq_none (hpath path), StorePath.fromAbsolutePath_toAbsolutePath]
    rfl
  | built drvPath outputs =>
    have houtputs : sep ∉ outputs.display := by
      intro hmem
      obtain hchar | hother := OutputSpec.mem_display hmem
      · rw [hname] at hchar
        cases hchar
      · exact hsep (List.mem_cons_of_mem 47 hother)
    rw [format, parse, rsplitOnce_append houtputs]
    dsimp only
    rw [StorePath.fromAbsolutePath_toAbsolutePath, OutputSpec.fromStr_display h]
    rfl

/-- Both written forms are read back, and neither the order nor the repetition of the names in a
    list of outputs makes a difference. -/
theorem read_written_forms {p : DerivedPath} (h : p.Selects) :
    fromStr p.display = .ok p ∧
      LegacyDerivedPath.fromStr (LegacyDerivedPath.mk p).display = .ok ⟨p⟩ ∧
      ∀ s s' : Bytes, s ≠ ascii "*" → s' ≠ ascii "*" →
        (∀ piece, piece ∈ s.splitOn 44 ↔ piece ∈ s'.splitOn 44) →
        (OutputSpec.fromStr s).toOption = (OutputSpec.fromStr s').toOption := by
  refine ⟨parse_format rfl (by decide) h, ?_, fun s s' => OutputSpec.toOption_fromStr_congr⟩
  rw [LegacyDerivedPath.fromStr, LegacyDerivedPath.display, parse_format rfl (by decide) h]
  rfl

/-- The output `out` of a derivation. -/
def outOf (drvPath : StorePath) : DerivedPath := built drvPath (.named (OutputSpec.setOf [.out]))

theorem selects_outOf (drvPath : StorePath) : (outOf drvPath).Selects := by
  have hout : OutputName.out ∈ (OutputSpec.setOf [.out]).elems :=
    OutputSpec.mem_elems_setOf.mpr List.mem_cons_self
  exact List.ne_nil_of_mem hout

theorem read_written_forms_outOf :
    fromStr (outOf (.twin 97 StorePath.validName_a)).display =
        .ok (outOf (.twin 97 StorePath.validName_a)) ∧
      (OutputSpec.fromStr (ascii "out,out")).toOption = (OutputSpec.fromStr (ascii "out")).toOption := by
  obtain ⟨hread, -, hpieces⟩ :=
    read_written_forms (selects_outOf (.twin 97 StorePath.validName_a))
  exact ⟨hread, hpieces _ _ (by decide) (by decide) fun piece => by
    rw [show (ascii "out,out").splitOn 44 = [ascii "out", ascii "out"] by decide,
      show (ascii "out").splitOn 44 = [ascii "out"] by decide]
    simp⟩

end DerivedPath

end Snix
