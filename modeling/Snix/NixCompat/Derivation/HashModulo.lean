import Snix.Lib.Sha256
import Snix.Lib.StableSort
import Snix.NixCompat.Derivation.RoundTrip

/-!
# Hashing derivations modulo their inputs

The hash of a derivation that is not fixed-output is that of its serialisation,
with each input derivation replaced by its own hash and the entries sorted by
that. The sort is stable and looks at the hash alone, so inputs with the same
hash stay in the order of their store paths.

## Main definitions

- `Derivation.fodDigest`, `Derivation.hashDerivationModulo` — the hash
- `Derivation.replacements` — the inputs after the replacement
- `Derivation.SameTies` — inputs with the same hash come in the same order

## Main results

- `serializeWithReplacements_inj` — the serialisation determines the replaced inputs
- `hashDerivationModulo_eq_iff` — when the hash ignores the store paths of inputs
-/

namespace Snix

open StreamParser Aterm

namespace Derivation

/-- The digest of a fixed-output derivation, if it is one. -/
def fodDigest (sha256 : Bytes → ByteArr 32) (d : Derivation) : Option (ByteArr 32) :=
  if d.outputs.len ≠ 1 then none
  else do
    let outOutput ← d.outputs.get OutputName.out
    let outOutputHash ← outOutput.outputHash
    return Snix.fodDigest sha256 (outOutputHash.mode = .recursive) outOutputHash.hash
      outOutput.path

/-- The input derivations, with their paths replaced by what is looked up for them. -/
def replacements (lookup : StorePath → ByteArr 32) (d : Derivation) :
    List (ByteArr 32 × OutputNames) :=
  d.inputDerivations.entries.map fun e => (lookup e.1, e.2)

/-- The serialisation that is hashed. -/
def serializeModulo (lookup : StorePath → ByteArr 32) (d : Derivation) : Bytes :=
  d.serializeWithReplacements digestAtermWrite
    (sortByKey compare (fun e => e.1.val) (d.replacements lookup))

/-- The hash of a derivation modulo fixed-output derivations. -/
def hashDerivationModulo (sha256 : Bytes → ByteArr 32) (lookup : StorePath → ByteArr 32)
    (d : Derivation) : ByteArr 32 :=
  (d.fodDigest sha256).getD (sha256 (d.serializeModulo lookup))

-- ====================
-- The serialisation determines the replaced inputs
-- ====================

/-- Only fixed-output derivations have a digest of their own. -/
theorem fodDigest_isSome (sha256 : Bytes → ByteArr 32) (d : Derivation) :
    (d.fodDigest sha256).isSome = d.outputs.isFixed := by
  obtain ⟨arguments, builder, environment, inputs, sources, ⟨inner, hvalid⟩, system⟩ := d
  cases inner with
  | single output =>
    obtain ⟨path, hash⟩ := output
    cases hash <;> simp [fodDigest, Outputs.len, Outputs.get, Outputs.isFixed, Output.isFixed]
  | multiple outputs =>
    have hlen : outputs.entries.length ≠ 1 := by
      have := hvalid.1
      omega
    simp [fodDigest, Outputs.len, Outputs.isFixed, hlen]

/-- A digest as a string. -/
def digestStr (digest : ByteArr 32) : Utf8 :=
  Utf8.ofPlain (hexEncode digest.val) fun _ => isPlain_of_mem_hexEncode

theorem digestStr_injective {a b : ByteArr 32} (h : digestStr a = digestStr b) : a = b :=
  Subtype.ext (hexEncode_injective (congrArg Subtype.val h))

theorem toStr_injective {a b : OutputName} (h : a.toStr = b.toStr) : a = b := by
  obtain ⟨a, _, _⟩ := a
  obtain ⟨b, _, _⟩ := b
  obtain rfl : a = b := congrArg Subtype.val h
  rfl

theorem elems_injective {a b : OutputNames} (h : a.elems = b.elems) : a = b := by
  refine SortedMap.ext ?_
  exact List.map_injective_iff.mpr (fun x y hxy => Prod.ext hxy rfl) h

theorem inputDerivationStrings_injective :
    Function.Injective (inputDerivationStrings digestStr) := by
  rintro ⟨a, s⟩ ⟨b, t⟩ h
  obtain ⟨hkey, hnames⟩ := Prod.mk.inj h
  have hab : a = b := digestStr_injective hkey
  have hst : s = t :=
    elems_injective (List.map_injective_iff.mpr (fun _ _ => toStr_injective) hnames)
  rw [hab, hst]

/-- Different lists of replaced inputs are written differently. -/
theorem writeInputDerivations_inj {es es' : List (ByteArr 32 × OutputNames)}
    (h : writeInputDerivations digestAtermWrite es = writeInputDerivations digestAtermWrite es') :
    es = es' := by
  have hplain : ∀ k : ByteArr 32, ∀ c ∈ (digestStr k).val, c ≠ 34 ∧ c ≠ 92 :=
    fun _ _ hc => ne_of_isPlain (isPlain_of_mem_hexEncode hc)
  have hread := separatedList0_inputDerivations hplain es []
  have hread' := separatedList0_inputDerivations hplain es' []
  have hjoined : joined COMMA (writeInputDerivation digestAtermWrite) es ++ [BRACKET_CLOSE] =
      joined COMMA (writeInputDerivation digestAtermWrite) es' ++ [BRACKET_CLOSE] :=
    (List.cons.inj h).2
  have hwrite : (fun k => writeField (digestStr k).val false) = digestAtermWrite := rfl
  rw [hwrite] at hread hread'
  rw [hjoined, hread'] at hread
  have hmap : es'.map (inputDerivationStrings digestStr) =
      es.map (inputDerivationStrings digestStr) := by
    simpa using hread
  exact (List.map_injective_iff.mpr inputDerivationStrings_injective hmap).symm

/-- The serialisation determines the replaced inputs. -/
theorem serializeWithReplacements_inj {d : Derivation} {m : InputDerivations}
    {es es' : List (ByteArr 32 × OutputNames)}
    (h : d.serializeWithReplacements digestAtermWrite es =
      { d with inputDerivations := m }.serializeWithReplacements digestAtermWrite es') :
    es = es' := by
  refine writeInputDerivations_inj ?_
  simp only [serializeWithReplacements] at h
  have h := (List.cons.inj (List.append_cancel_left h)).2
  have h := (List.cons.inj (List.append_cancel_left h)).2
  exact List.append_cancel_right h

-- ====================
-- Inputs with the same hash
-- ====================

/-- For every hash, the inputs it replaces use the same output names in the same
    order, the order of their store paths. -/
def SameTies (lookup : StorePath → ByteArr 32) (d d' : Derivation) : Prop :=
  ∀ hash : ByteArr 32,
    (d.inputDerivations.entries.filter fun e => lookup e.1 = hash).map Prod.snd =
      (d'.inputDerivations.entries.filter fun e => lookup e.1 = hash).map Prod.snd

/-- The replaced inputs of one hash, seen on the original inputs. -/
theorem filter_replacements (lookup : StorePath → ByteArr 32) (d : Derivation)
    (hash : ByteArr 32) :
    (d.replacements lookup).filter (fun e => e.1.val = hash.val) =
      ((d.inputDerivations.entries.filter fun e => lookup e.1 = hash).map Prod.snd).map
        fun names => (hash, names) := by
  rw [replacements, List.filter_map, List.map_map]
  have hfilter : ((fun e : ByteArr 32 × OutputNames => decide (e.1.val = hash.val)) ∘
      fun e : StorePath × OutputNames => (lookup e.1, e.2)) =
        fun e : StorePath × OutputNames => decide (lookup e.1 = hash) := by
    funext e
    simp only [Function.comp_apply, decide_eq_decide]
    exact Subtype.ext_iff.symm
  rw [hfilter]
  refine List.map_congr_left fun e he => ?_
  have hlookup : lookup e.1 = hash := by simpa using (List.mem_filter.mp he).2
  simp [hlookup]

theorem serializeModulo_eq_iff {lookup : StorePath → ByteArr 32} {d : Derivation}
    {m : InputDerivations} :
    d.serializeModulo lookup = { d with inputDerivations := m }.serializeModulo lookup ↔
      d.SameTies lookup { d with inputDerivations := m } := by
  have hsort : d.serializeModulo lookup =
      { d with inputDerivations := m }.serializeModulo lookup ↔
        sortByKey compare (fun e => e.1.val) (d.replacements lookup) =
          sortByKey compare (fun e => e.1.val)
            ({ d with inputDerivations := m }.replacements lookup) := by
    refine ⟨serializeWithReplacements_inj, fun h => ?_⟩
    simp only [serializeModulo, h]
    rfl
  rw [hsort, sortByKey_eq_iff]
  constructor
  · intro h hash
    have hkey := h hash.val
    rw [filter_replacements, filter_replacements] at hkey
    exact List.map_injective_iff.mpr (fun _ _ hn => (Prod.mk.inj hn).2) hkey
  · intro h key
    -- A key that is no digest selects nothing on either side.
    by_cases hlen : key.length = 32
    · have hkey := h ⟨key, hlen⟩
      have hd := filter_replacements lookup d ⟨key, hlen⟩
      have hd' := filter_replacements lookup { d with inputDerivations := m } ⟨key, hlen⟩
      rw [hkey, ← hd'] at hd
      exact hd
    · have hnone : ∀ l : List (ByteArr 32 × OutputNames),
          l.filter (fun e => e.1.val = key) = [] := by
        intro l
        refine List.filter_eq_nil_iff.mpr fun e _ he => hlen ?_
        have he : e.1.val = key := by simpa using he
        rw [← he]
        exact e.1.property
      rw [hnone, hnone]

/-- Two derivations that differ in their inputs only, which are the same after the
    replacement up to order, hash the same exactly when they are fixed-output or
    inputs with the same hash come in the same order. -/
theorem hashDerivationModulo_eq_iff (sha256 : Bytes → ByteArr 32)
    (lookup : StorePath → ByteArr 32) (d : Derivation) (m : InputDerivations)
    (_bijection : (d.replacements lookup).Perm
      ({ d with inputDerivations := m }.replacements lookup))
    (collisionFree : sha256 (d.serializeModulo lookup) =
        sha256 ({ d with inputDerivations := m }.serializeModulo lookup) →
      d.serializeModulo lookup = { d with inputDerivations := m }.serializeModulo lookup) :
    d.hashDerivationModulo sha256 lookup =
        { d with inputDerivations := m }.hashDerivationModulo sha256 lookup ↔
      d.outputs.isFixed = true ∨ d.SameTies lookup { d with inputDerivations := m } := by
  have hfod : { d with inputDerivations := m }.fodDigest sha256 = d.fodDigest sha256 := rfl
  rw [← fodDigest_isSome sha256 d, hashDerivationModulo, hashDerivationModulo, hfod]
  cases d.fodDigest sha256 with
  | some digest => simp
  | none =>
    simp only [Option.getD_none, Option.isSome_none, Bool.false_eq_true, false_or]
    rw [← serializeModulo_eq_iff]
    exact ⟨collisionFree, congrArg sha256⟩

/-- Two input derivations, at paths told apart by a byte. -/
def twoInputs (a b : UInt8) (first second : OutputName) : InputDerivations :=
  .ofList
    [(⟨List.Vector.replicate 20 a, ascii "x.drv", by decide +kernel⟩, .ofList [(first, ())]),
      (⟨List.Vector.replicate 20 b, ascii "x.drv", by decide +kernel⟩, .ofList [(second, ())])]

/-- A derivation with nothing but input derivations. -/
def ofInputs (inputs : InputDerivations) : Derivation where
  arguments := []
  builder := ⟨ascii "b", utf8Valid_of_ascii (by decide +kernel)⟩
  environment := .empty
  inputDerivations := inputs
  inputSources := .empty
  outputs := ⟨.single ⟨none, none⟩, trivial⟩
  system := ⟨ascii "s", utf8Valid_of_ascii (by decide +kernel)⟩

def dev : OutputName := ⟨ascii "dev", by decide +kernel, by decide +kernel⟩

/-- A lookup that finds the same hash for every input. -/
def constLookup (_ : StorePath) : ByteArr 32 := List.Vector.replicate 32 0

theorem hashDerivationModulo_eq_twoInputs :
    (ofInputs (twoInputs 0 1 .out dev)).hashDerivationModulo Sha256.digest constLookup =
      (ofInputs (twoInputs 2 3 .out dev)).hashDerivationModulo Sha256.digest constLookup := by
  have hreplaced : (ofInputs (twoInputs 0 1 .out dev)).replacements constLookup =
      (ofInputs (twoInputs 2 3 .out dev)).replacements constLookup := by decide +kernel
  have hser : (ofInputs (twoInputs 0 1 .out dev)).serializeModulo constLookup =
      (ofInputs (twoInputs 2 3 .out dev)).serializeModulo constLookup := by
    simp only [serializeModulo, hreplaced]
    rfl
  exact (hashDerivationModulo_eq_iff Sha256.digest constLookup (ofInputs (twoInputs 0 1 .out dev))
    (twoInputs 2 3 .out dev) (.of_eq hreplaced) (fun _ => hser)).mpr
    (.inr (serializeModulo_eq_iff.mp hser))

/-- Inputs with the same hash leak the order of their store paths. -/
theorem hashDerivationModulo_ne_twoInputs :
    ((ofInputs (twoInputs 0 1 .out dev)).replacements constLookup).Perm
        ((ofInputs (twoInputs 0 1 dev .out)).replacements constLookup) ∧
      (ofInputs (twoInputs 0 1 .out dev)).hashDerivationModulo Sha256.digest constLookup ≠
        (ofInputs (twoInputs 0 1 dev .out)).hashDerivationModulo Sha256.digest constLookup := by
  refine ⟨?_, by decide +kernel⟩
  have hswap : (ofInputs (twoInputs 0 1 dev .out)).replacements constLookup =
      ((ofInputs (twoInputs 0 1 .out dev)).replacements constLookup).reverse := by decide +kernel
  rw [hswap]
  exact (List.reverse_perm _).symm

end Derivation

end Snix
