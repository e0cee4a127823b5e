import Snix.Lib.ByteReader
import Snix.NixCompat.Derivation.Output

/-!
# Sets of outputs

Which collections of outputs are accepted, from an iterator and from JSON. Both ways look at the
first two outputs before they build a map. A document needs a path for every output.

## Main definitions

- `Outputs.ValidSet` — the collections that are accepted
- `Output.serialize`, `Output.deserialize` — an output as a JSON object
- `Outputs.visitMap` — the outputs of a JSON object

## Main results

- `Outputs.tryFromIter_eq_ok_iff` — what is accepted, and what comes of it
- `Outputs.visitMap_eq_ok_iff` — the same, read from JSON
- `Outputs.tryFromIter_accepts` — both, in any order
-/

namespace Snix

-- ====================
-- JSON
-- ====================

/-- A field of a JSON object, as far as it is looked at. -/
inductive JsonField where
  | string (s : Bytes)
  | other
  deriving DecidableEq

/-- The fields of the JSON object for an output. -/
structure OutputFields where
  path : Option JsonField
  hash : Option JsonField
  hashAlgo : Option JsonField

/-- Why a document is rejected. -/
inductive SerdeError where
  | missingField (field : Bytes)
  | invalidType (unexpected expected : Bytes)
  | invalidValue (unexpected expected : Bytes)
  | invalidLength (len : ℕ) (expected : Bytes)
  | custom (message : Bytes)
  | customName (e : ParseOutputNameError)
  | customDecode (e : DecodeError)
  | customHash (e : NixHash.Error)
  deriving DecidableEq

def JsonField.asStr (f : JsonField) (expected : Bytes) : Except SerdeError Bytes :=
  match f with
  | .string s => .ok s
  | .other => .error (.invalidType (ascii "certainly not a string") expected)

namespace Output

/-- An unknown path is written as null. -/
def serialize (o : Output) : OutputFields where
  path := some (match o.path with
    | some path => .string path.toAbsolutePath
    | none => .other)
  hash := o.outputHash.map fun h => .string (hexEncode h.hash.digestAsBytes)
  hashAlgo := o.outputHash.map fun h => .string h.asModeAndAlgoStr

def deserializePath (fields : OutputFields) : Except SerdeError StorePath := do
  let field ← match fields.path with
    | some field => .ok field
    | none => .error (.missingField (ascii "`path` is missing but required for outputs"))
  let path ← field.asStr (ascii "a string")
  (StorePath.fromAbsolutePath path).mapError fun _ => .invalidValue path (ascii "StorePath")

/-- The declared hash. Both of its fields are given, or none. -/
def deserializeHash (fields : OutputFields) : Except SerdeError (Option OutputHash) :=
  match fields.hash, fields.hashAlgo with
  | none, none => .ok none
  | some hash, some modeAndAlgo => do
    let hashStr ← hash.asStr (ascii "a string")
    let modeAndAlgo ← modeAndAlgo.asStr (ascii "a mode:algo string")
    let digest ← (hexDecode hashStr).mapError .customDecode
    let outputHash ← (OutputHash.fromModeAlgoAndDigest modeAndAlgo digest).mapError .customHash
    return some outputHash
  | _, _ =>
    .error (.invalidValue (ascii "Exactly one of `hash` and `hashAlgo`")
      (ascii "none or both fields"))

def deserialize (fields : OutputFields) : Except SerdeError Output := do
  let path ← deserializePath fields
  let outputHash ← deserializeHash fields
  return ⟨some path, outputHash⟩

/-- An output with a path is read back. -/
theorem deserialize_serialize {o : Output} (h : o.path.isSome = true) :
    deserialize o.serialize = .ok o := by
  obtain ⟨path, hash⟩ := o
  obtain ⟨path, rfl⟩ := Option.isSome_iff_exists.mp h
  have hpath : deserializePath (serialize ⟨some path, hash⟩) = .ok path := by
    show (StorePath.fromAbsolutePath path.toAbsolutePath).mapError _ = _
    rw [StorePath.fromAbsolutePath_toAbsolutePath]
    rfl
  have hhash : deserializeHash (serialize ⟨some path, hash⟩) = .ok hash := by
    cases hash with
    | none => rfl
    | some hash =>
      have hdigest : (hexDecode (hexEncode hash.hash.digestAsBytes)).mapError
          SerdeError.customDecode = .ok hash.hash.digestAsBytes := by
        rw [hexDecode_hexEncode]
        rfl
      have hread : (OutputHash.fromModeAlgoAndDigest hash.asModeAndAlgoStr
          hash.hash.digestAsBytes).mapError SerdeError.customHash = .ok hash := by
        rw [OutputHash.fromModeAlgoAndDigest_of_parts]
        rfl
      show Except.bind ((hexDecode (hexEncode hash.hash.digestAsBytes)).mapError _) _ = _
      rw [hdigest]
      show Except.bind ((OutputHash.fromModeAlgoAndDigest hash.asModeAndAlgoStr
        hash.hash.digestAsBytes).mapError _) _ = _
      rw [hread]
      rfl
  rw [deserialize, hpath, hhash]
  rfl

/-- One without a path is rejected. -/
theorem deserialize_serialize_of_none {o : Output} (h : o.path = none) :
    deserialize o.serialize =
      .error (.invalidType (ascii "certainly not a string") (ascii "a string")) := by
  obtain ⟨path, hash⟩ := o
  cases h
  rfl

end Output

namespace Outputs

/-- A name and an output, as they are read. -/
def nextEntry (e : Bytes × OutputFields) : Except SerdeError (OutputName × Output) := do
  let name ← (OutputName.fromStr e.1).mapError .customName
  let output ← Output.deserialize e.2
  return (name, output)

def fodOutput : SerdeError := .invalidValue (ascii "FOD output") (ascii "non-FOD outputs")

def duplicateOutput : SerdeError := .custom (ascii "duplicate derivation output")

def checkNotFod (e : OutputName × Output) : Except SerdeError (OutputName × Output) :=
  if e.2.isFixed then .error fodOutput else .ok e

/-- Adds the outputs after the second. -/
def visitRest : List (Bytes × OutputFields) → SortedMap OutputName.cmp Output →
    Except SerdeError (SortedMap OutputName.cmp Output) :=
  SortedMap.collectNew (fun e => nextEntry e >>= checkNotFod) (fun _ _ => duplicateOutput)

/-- Collects the entries of a JSON object, one by one. -/
def visitMap : List (Bytes × OutputFields) → Except SerdeError OutputsInner
  | [] => .error (.invalidLength 0 (ascii "non-empty derivation outputs"))
  | [e] => do
    let (name, output) ← nextEntry e
    if name = OutputName.out then .ok (.single output)
    else .error (.invalidValue name.name (ascii "single derivation output named 'out'"))
  | e :: e₂ :: rest => do
    let (name, output) ← nextEntry e
    let (second, secondOutput) ← nextEntry e₂
    if output.isFixed || secondOutput.isFixed then .error fodOutput
    else
      let outputs := (SortedMap.empty : SortedMap OutputName.cmp Output).insert name output
      if outputs.contains second then .error duplicateOutput
      else do
        let outputs ← visitRest rest (outputs.insert second secondOutput)
        return .multiple outputs

-- ====================
-- What is accepted
-- ====================

/-- Outputs with different names, at least one. A single one is called `out`, and of several none
    is fixed. -/
structure ValidSet (l : List (OutputName × Output)) : Prop where
  nonempty : l ≠ []
  nodup : (l.map Prod.fst).Nodup
  lone : ∀ e, l = [e] → e.1 = OutputName.out
  notFixed : 2 ≤ l.length → ∀ e ∈ l, e.2.isFixed = false

variable {l l' : List (OutputName × Output)} {a b : OutputName × Output} {o o' : Outputs}
  {inner : OutputsInner} {m : SortedMap OutputName.cmp Output}

theorem ValidSet.perm (h : ValidSet l) (hperm : l.Perm l') : ValidSet l' where
  nonempty hnil := h.nonempty (List.perm_nil.mp (hnil ▸ hperm))
  nodup := (hperm.map Prod.fst).nodup_iff.mp h.nodup
  lone e he := h.lone e (List.perm_singleton.mp (he ▸ hperm))
  notFixed hlen e he := h.notFixed (hperm.length_eq ▸ hlen) e (hperm.mem_iff.mpr he)

theorem cmp_ne_eq_iff {a b : OutputName} : OutputName.cmp a b ≠ .eq ↔ a ≠ b := by
  rw [not_iff_not]
  constructor
  · intro h
    obtain ⟨a, _, _⟩ := a
    obtain ⟨b, _, _⟩ := b
    obtain rfl : a = b := Std.LawfulEqCmp.eq_of_compare h
    rfl
  · rintro rfl
    exact Std.ReflCmp.compare_self

theorem pairwise_cmp_iff : (l.Pairwise fun x y => OutputName.cmp x.1 y.1 ≠ .eq) ↔
    (l.map Prod.fst).Nodup := by
  rw [List.nodup_iff_pairwise_ne, List.pairwise_map]
  simp only [cmp_ne_eq_iff]

/-- Entries are in ascending order of their names. -/
theorem pairwise_iter (o : Outputs) :
    o.iter.Pairwise fun x y => OutputName.cmp x.1 y.1 = .lt := by
  obtain ⟨inner, hvalid⟩ := o
  cases inner with
  | single output => exact List.pairwise_singleton _ _
  | multiple outputs => exact outputs.sorted

theorem iter_injective : Function.Injective iter := by
  intro o o' h
  have ho := tryFromIter_iter o
  rw [h, tryFromIter_iter o'] at ho
  exact (Except.ok.inj ho).symm

theorem tryFromIterRest_cons_eq_ok_iff {rest : List (OutputName × Output)}
    {m m' : SortedMap OutputName.cmp Output} :
    tryFromIterRest (a :: rest) m = .ok m' ↔
      a.2.isFixed = false ∧ m.contains a.1 = false ∧
        tryFromIterRest rest (m.insert a.1 a.2) = .ok m' := by
  rw [tryFromIterRest, SortedMap.collectNew_cons_eq_ok_iff]
  cases a.2.isFixed with
  | false => simp
  | true =>
    refine iff_of_false ?_ fun h => by cases h.1
    rintro ⟨_, h, -⟩
    cases h

/-- Several outputs are collected as if the first two were no different. -/
theorem tryFromIterInner_eq_ok_iff_rest {rest : List (OutputName × Output)} :
    tryFromIterInner (a :: b :: rest) = .ok inner ↔
      ∃ m, tryFromIterRest (a :: b :: rest) .empty = .ok m ∧ inner = .multiple m := by
  obtain ⟨name, output⟩ := a
  obtain ⟨second, secondOutput⟩ := b
  simp only [tryFromIterRest_cons_eq_ok_iff]
  rw [tryFromIterInner]
  cases output.isFixed with
  | true =>
    refine iff_of_false (fun h => by cases h) ?_
    rintro ⟨_, ⟨h, -⟩, -⟩
    cases h
  | false =>
    cases secondOutput.isFixed with
    | true =>
      refine iff_of_false (fun h => by cases h) ?_
      rintro ⟨_, ⟨-, -, h, -⟩, -⟩
      cases h
    | false =>
      cases hnew : ((SortedMap.empty : SortedMap OutputName.cmp Output).insert name output).contains
          second with
      | true =>
        constructor
        · intro h
          simp only [Bool.or_self, Bool.false_eq_true, if_false, hnew, if_true] at h
          cases h
        · rintro ⟨_, ⟨-, -, -, h, -⟩, -⟩
          cases h
      | false =>
        simp only [Bool.or_self, Bool.false_eq_true, if_false, hnew]
        have hempty : (SortedMap.empty : SortedMap OutputName.cmp Output).contains name = false := rfl
        simp only [hempty, true_and]
        cases tryFromIterRest rest _ with
        | error e =>
          refine iff_of_false (fun h => by cases h) ?_
          rintro ⟨_, h, -⟩
          cases h
        | ok m => simp [eq_comm]

/-- Several outputs with different names are collected, if none of them is fixed. -/
theorem tryFromIterRest_empty_eq_ok_iff :
    tryFromIterRest l .empty = .ok m ↔
      (∀ e ∈ l, e.2.isFixed = false) ∧ m.entries.Perm l := by
  constructor
  · intro h
    obtain ⟨es, hes, hperm⟩ := SortedMap.perm_of_collectNew h
    obtain ⟨rfl, hfixed⟩ := forall₂_of_tryFromIterRest hes
    exact ⟨hfixed, by simpa [SortedMap.empty] using hperm⟩
  · rintro ⟨hfixed, hperm⟩
    refine SortedMap.collectNew_of_perm (List.forall₂_same.mpr fun e he => ?_) ?_
    · rw [hfixed e he, if_neg Bool.false_ne_true]
    · simpa [SortedMap.empty] using hperm.symm

theorem tryFromIter_eq_ok_iff_inner : tryFromIter l = .ok o ↔ tryFromIterInner l = .ok o.val := by
  unfold tryFromIter
  constructor
  · intro h
    split at h
    · cases h
    · next inner hinner =>
      cases h
      exact hinner
  · intro h
    split
    · next e he => cases h.symm.trans he
    · next inner hinner =>
      rw [hinner] at h
      exact congrArg Except.ok (Subtype.ext (Except.ok.inj h))

/-- What is accepted are the valid sets, and the outputs have their entries. -/
theorem tryFromIter_eq_ok_iff : tryFromIter l = .ok o ↔ ValidSet l ∧ o.iter.Perm l := by
  rw [tryFromIter_eq_ok_iff_inner]
  obtain ⟨inner, hvalid⟩ := o
  match l with
  | [] => exact iff_of_false (fun h => by cases h) fun h => h.1.nonempty rfl
  | [(name, output)] =>
    rw [tryFromIterInner]
    constructor
    · intro h
      split_ifs at h with hout
      cases h
      subst hout
      refine ⟨⟨List.cons_ne_nil _ _, List.nodup_singleton _, ?_, ?_⟩, List.Perm.refl _⟩
      · intro e he
        rw [← List.singleton_inj.mp he]
      · intro hlen
        exact absurd hlen (Nat.not_succ_le_self 1)
    · rintro ⟨hset, hperm⟩
      have hout : name = OutputName.out := hset.lone _ rfl
      rw [if_pos hout]
      have hiter := List.perm_singleton.mp hperm
      cases inner with
      | single output' =>
        cases hiter
        rfl
      | multiple outputs =>
        have hlen : 2 ≤ outputs.entries.length := hvalid.1
        have hentries : outputs.entries = [(name, output)] := hiter
        rw [hentries] at hlen
        exact absurd hlen (Nat.not_succ_le_self 1)
  | a :: b :: rest =>
    rw [tryFromIterInner_eq_ok_iff_rest]
    constructor
    · rintro ⟨m, hm, rfl⟩
      obtain ⟨hfixed, hperm⟩ := tryFromIterRest_empty_eq_ok_iff.mp hm
      refine ⟨⟨List.cons_ne_nil _ _, ?_, ?_, fun _ => hfixed⟩, hperm⟩
      · have hkeys : m.entries.Pairwise fun x y => OutputName.cmp x.1 y.1 ≠ .eq :=
          m.sorted.imp fun {x y} (hlt : OutputName.cmp x.1 y.1 = .lt) => by rw [hlt]; decide
        exact (hperm.map Prod.fst).nodup_iff.mp (pairwise_cmp_iff.mp hkeys)
      · intro e he
        cases (List.cons.inj he).2
    · rintro ⟨hset, hperm⟩
      cases inner with
      | single output =>
        have hlen := hperm.length_eq
        cases hlen
      | multiple m =>
        have hfixed := hset.notFixed (Nat.le_add_left 2 _)
        exact ⟨m, tryFromIterRest_empty_eq_ok_iff.mpr ⟨hfixed, hperm⟩, rfl⟩

theorem exists_tryFromIter_of_inner (h : tryFromIterInner l = .ok inner) :
    ∃ o, tryFromIter l = .ok o :=
  ⟨⟨inner, valid_of_tryFromIterInner h⟩, tryFromIter_eq_ok_iff_inner.mpr h⟩

theorem nodup_iter (o : Outputs) : (o.iter.map Prod.fst).Nodup :=
  (tryFromIter_eq_ok_iff.mp (tryFromIter_iter o)).1.nodup

/-- Every valid set is accepted. -/
theorem ValidSet.exists_tryFromIter (h : ValidSet l) : ∃ o, tryFromIter l = .ok o := by
  match l with
  | [] => exact absurd rfl h.nonempty
  | [(name, output)] =>
    have hout : name = OutputName.out := h.lone _ rfl
    exact exists_tryFromIter_of_inner (if_pos hout)
  | a :: b :: rest =>
    have hfixed := h.notFixed (Nat.le_add_left 2 _)
    obtain ⟨m, hm⟩ : ∃ m, tryFromIterRest (a :: b :: rest) .empty = .ok m := by
      refine SortedMap.exists_collectNew (List.forall₂_same.mpr fun e he => ?_)
        (pairwise_cmp_iff.mpr h.nodup) fun _ _ _ hy => absurd hy List.not_mem_nil
      rw [hfixed e he, if_neg Bool.false_ne_true]
    exact exists_tryFromIter_of_inner (tryFromIterInner_eq_ok_iff_rest.mpr ⟨m, hm, rfl⟩)

/-- The order in which outputs are given makes no difference, but perhaps for the error. -/
theorem tryFromIter_perm (h : l.Perm l') :
    (tryFromIter l').toOption = (tryFromIter l).toOption := by
  refine Option.ext fun o => ?_
  have hiff : ∀ l : List (OutputName × Output),
      (tryFromIter l).toOption = some o ↔ ValidSet l ∧ o.iter.Perm l := by
    intro l
    rw [← tryFromIter_eq_ok_iff]
    cases tryFromIter l with
    | error e => exact iff_of_false (fun h => by cases h) fun h => by cases h
    | ok o' => simp [Except.toOption]
  rw [hiff, hiff]
  constructor
  · rintro ⟨hset, hperm⟩
    exact ⟨hset.perm h.symm, hperm.trans h.symm⟩
  · rintro ⟨hset, hperm⟩
    exact ⟨hset.perm h, hperm.trans h⟩

-- ====================
-- Outputs from JSON
-- ====================

variable {fields : List (Bytes × OutputFields)} {x y : Bytes × OutputFields}

theorem checkNotFod_eq_ok_iff : checkNotFod a = .ok b ↔ a.2.isFixed = false ∧ a = b := by
  rw [checkNotFod]
  cases a.2.isFixed with
  | false => simp
  | true => exact iff_of_false (fun h => by cases h) fun h => by cases h.1

theorem visitRest_cons_eq_ok_iff {m m' : SortedMap OutputName.cmp Output} :
    visitRest (x :: fields) m = .ok m' ↔
      ∃ e, nextEntry x = .ok e ∧ e.2.isFixed = false ∧ m.contains e.1 = false ∧
        visitRest fields (m.insert e.1 e.2) = .ok m' := by
  rw [visitRest, SortedMap.collectNew_cons_eq_ok_iff]
  constructor
  · rintro ⟨e', he', hnew, hrest⟩
    obtain ⟨e, he, hcheck⟩ := except_bind_eq_ok_iff.mp he'
    obtain ⟨hfixed, rfl⟩ := checkNotFod_eq_ok_iff.mp hcheck
    exact ⟨e, he, hfixed, hnew, hrest⟩
  · rintro ⟨e, he, hfixed, hnew, hrest⟩
    have hcheck := checkNotFod_eq_ok_iff.mpr ⟨hfixed, rfl⟩
    exact ⟨e, except_bind_eq_ok_iff.mpr ⟨e, he, hcheck⟩, hnew, hrest⟩

/-- The rest of the entries is collected like the rest of an iterator. -/
theorem visitRest_eq_ok_iff {m m' : SortedMap OutputName.cmp Output} :
    visitRest fields m = .ok m' ↔
      ∃ es, List.Forall₂ (fun x e => nextEntry x = .ok e) fields es ∧
        tryFromIterRest es m = .ok m' := by
  induction fields generalizing m with
  | nil => simp [visitRest, tryFromIterRest, SortedMap.collectNew]
  | cons x fields ih =>
    rw [visitRest_cons_eq_ok_iff]
    constructor
    · rintro ⟨e, he, hfixed, hnew, hrest⟩
      obtain ⟨es, hes, hrest⟩ := ih.mp hrest
      exact ⟨e :: es, .cons he hes, tryFromIterRest_cons_eq_ok_iff.mpr ⟨hfixed, hnew, hrest⟩⟩
    · rintro ⟨_, hes, hrest⟩
      cases hes with
      | @cons _ e _ es he hes =>
        obtain ⟨hfixed, hnew, hrest⟩ := tryFromIterRest_cons_eq_ok_iff.mp hrest
        exact ⟨e, he, hfixed, hnew, ih.mpr ⟨es, hes, hrest⟩⟩

/-- Several entries are collected as if the first two were no different. -/
theorem visitMap_eq_ok_iff_rest :
    visitMap (x :: y :: fields) = .ok inner ↔
      ∃ m, visitRest (x :: y :: fields) .empty = .ok m ∧ inner = .multiple m := by
  simp only [visitRest_cons_eq_ok_iff]
  constructor
  · intro h
    obtain ⟨⟨name, output⟩, hx, h⟩ := except_bind_eq_ok_iff.mp h
    obtain ⟨⟨second, secondOutput⟩, hy, h⟩ := except_bind_eq_ok_iff.mp h
    dsimp only at h
    split_ifs at h with hfixed hnew
    obtain ⟨m, hm, h⟩ := except_bind_eq_ok_iff.mp h
    cases h
    obtain ⟨hfixed₁, hfixed₂⟩ : output.isFixed = false ∧ secondOutput.isFixed = false := by
      simpa using hfixed
    exact ⟨m, ⟨_, hx, hfixed₁, rfl, _, hy, hfixed₂, eq_false_of_ne_true hnew, hm⟩, rfl⟩
  · rintro ⟨m, ⟨e, hx, hfixed₁, -, e', hy, hfixed₂, hnew, hm⟩, rfl⟩
    refine except_bind_eq_ok_iff.mpr ⟨e, hx, except_bind_eq_ok_iff.mpr ⟨e', hy, ?_⟩⟩
    dsimp only
    rw [hfixed₁, hfixed₂, hnew]
    exact except_bind_eq_ok_iff.mpr ⟨m, hm, rfl⟩

/-- The visitor accepts entries that can be read and that an iterator accepts. -/
theorem visitMap_eq_ok_iff :
    visitMap fields = .ok inner ↔
      ∃ es, List.Forall₂ (fun x e => nextEntry x = .ok e) fields es ∧
        tryFromIterInner es = .ok inner := by
  match fields with
  | [] =>
    refine iff_of_false (fun h => by cases h) ?_
    rintro ⟨_, ⟨⟩, h⟩
    cases h
  | [x] =>
    constructor
    · intro h
      obtain ⟨⟨name, output⟩, hx, h⟩ := except_bind_eq_ok_iff.mp h
      dsimp only at h
      split_ifs at h with hout
      cases h
      exact ⟨_, .cons hx .nil, if_pos hout⟩
    · rintro ⟨es, hes, h⟩
      obtain ⟨⟨name, output⟩, _, hx, hnil, rfl⟩ := List.forall₂_cons_left_iff.mp hes
      cases hnil
      rw [tryFromIterInner] at h
      split_ifs at h with hout
      cases h
      refine except_bind_eq_ok_iff.mpr ⟨_, hx, ?_⟩
      dsimp only
      rw [if_pos hout]
  | x :: y :: fields =>
    rw [visitMap_eq_ok_iff_rest]
    simp only [visitRest_eq_ok_iff]
    constructor
    · rintro ⟨m, ⟨es, hes, hm⟩, rfl⟩
      refine ⟨es, hes, ?_⟩
      obtain ⟨a, _, -, hes', rfl⟩ := List.forall₂_cons_left_iff.mp hes
      obtain ⟨b, rest, -, -, rfl⟩ := List.forall₂_cons_left_iff.mp hes'
      exact tryFromIterInner_eq_ok_iff_rest.mpr ⟨m, hm, rfl⟩
    · rintro ⟨es, hes, h⟩
      obtain ⟨a, _, -, hes', rfl⟩ := List.forall₂_cons_left_iff.mp hes
      obtain ⟨b, rest, -, -, rfl⟩ := List.forall₂_cons_left_iff.mp hes'
      obtain ⟨m, hm, rfl⟩ := tryFromIterInner_eq_ok_iff_rest.mp h
      exact ⟨m, ⟨_, hes, hm⟩, rfl⟩

theorem valid_of_visitMap (h : visitMap fields = .ok inner) : inner.Valid := by
  obtain ⟨es, -, h⟩ := visitMap_eq_ok_iff.mp h
  exact valid_of_tryFromIterInner h

/-- Reads the outputs of a JSON object. -/
def deserialize (fields : List (Bytes × OutputFields)) : Except SerdeError Outputs :=
  match h : visitMap fields with
  | .error e => .error e
  | .ok inner => .ok ⟨inner, valid_of_visitMap h⟩

theorem deserialize_eq_ok_iff : deserialize fields = .ok o ↔ visitMap fields = .ok o.val := by
  unfold deserialize
  constructor
  · intro h
    split at h
    · cases h
    · next inner hinner =>
      cases h
      exact hinner
  · intro h
    split
    · next e he => cases h.symm.trans he
    · next inner hinner =>
      rw [hinner] at h
      exact congrArg Except.ok (Subtype.ext (Except.ok.inj h))

/-- A name and an output, as they are written. -/
def serializeEntry (e : OutputName × Output) : Bytes × OutputFields := (e.1.name, e.2.serialize)

/-- Reading back what was written takes a path. -/
theorem nextEntry_serializeEntry_iff :
    nextEntry (serializeEntry a) = .ok b ↔ a.2.path.isSome = true ∧ b = a := by
  have hname : (OutputName.fromStr a.1.name).mapError SerdeError.customName = .ok a.1 := by
    rw [OutputName.fromStr_name]
    rfl
  show Except.bind ((OutputName.fromStr a.1.name).mapError _) _ = _ ↔ _
  rw [hname]
  show Except.bind (Output.deserialize a.2.serialize) _ = _ ↔ _
  cases hpath : a.2.path with
  | none =>
    rw [Output.deserialize_serialize_of_none hpath]
    exact iff_of_false (fun h => by cases h) fun h => by cases h.1
  | some path =>
    rw [Output.deserialize_serialize (Option.isSome_of_eq_some hpath)]
    constructor
    · intro h
      cases h
      exact ⟨rfl, rfl⟩
    · rintro ⟨-, rfl⟩
      rfl

theorem forall₂_serializeEntry_iff {es : List (OutputName × Output)} :
    List.Forall₂ (fun x e => nextEntry x = .ok e) (l.map serializeEntry) es ↔
      (∀ e ∈ l, e.2.path.isSome = true) ∧ es = l := by
  rw [List.forall₂_map_left_iff]
  simp only [nextEntry_serializeEntry_iff]
  induction l generalizing es with
  | nil => simp
  | cons a l ih =>
    cases es with
    | nil => simp
    | cons e es =>
      rw [List.forall₂_cons, ih, List.forall_mem_cons, List.cons.injEq]
      tauto

/-- Outputs that are written to JSON are read back if all of them have paths. -/
theorem deserialize_serialize_iff :
    deserialize (l.map serializeEntry) = .ok o ↔
      (∀ e ∈ l, e.2.path.isSome = true) ∧ tryFromIter l = .ok o := by
  rw [deserialize_eq_ok_iff, visitMap_eq_ok_iff, tryFromIter_eq_ok_iff_inner]
  simp only [forall₂_serializeEntry_iff]
  constructor
  · rintro ⟨_, ⟨hpaths, rfl⟩, h⟩
    exact ⟨hpaths, h⟩
  · rintro ⟨hpaths, h⟩
    exact ⟨l, ⟨hpaths, rfl⟩, h⟩

/-- The valid sets of outputs are accepted, in any order, and have their entries in ascending order
    of the names. From JSON the same outputs are read if all of them have paths; otherwise they are
    rejected. -/
theorem tryFromIter_accepts (l : List (OutputName × Output)) :
    ((∃ o, tryFromIter l = .ok o) ↔ ValidSet l) ∧
      (∀ l', l.Perm l' → (tryFromIter l').toOption = (tryFromIter l).toOption) ∧
      (∀ o, tryFromIter l = .ok o →
        o.iter.Perm l ∧ o.iter.Pairwise fun x y => OutputName.cmp x.1 y.1 = .lt) ∧
      ∀ o, deserialize (l.map serializeEntry) = .ok o ↔
        (∀ e ∈ l, e.2.path.isSome = true) ∧ tryFromIter l = .ok o := by
  refine ⟨⟨?_, ValidSet.exists_tryFromIter⟩, fun l' => tryFromIter_perm, fun o h => ?_,
    fun o => deserialize_serialize_iff⟩
  · rintro ⟨o, h⟩
    exact (tryFromIter_eq_ok_iff.mp h).1
  · exact ⟨(tryFromIter_eq_ok_iff.mp h).2, pairwise_iter o⟩

/-- A single output without a path is accepted, but not from JSON. -/
theorem deserialize_pathless :
    ¬∀ (l : List (OutputName × Output)) (o : Outputs), tryFromIter l = .ok o →
      deserialize (l.map serializeEntry) = .ok o := by
  intro h
  have hread := h [(OutputName.out, ⟨none, none⟩)] ⟨.single ⟨none, none⟩, trivial⟩ rfl
  exact absurd ((deserialize_serialize_iff.mp hread).1 _ List.mem_cons_self) (by decide)

end Outputs

end Snix
