import Snix.Eval.Value.NixString
import Snix.Lib.HashTable

/-!
# Interned strings

Short strings without a context are kept in a table, so that the same contents are allocated once.
The table is searched with the hash of the contents, but when it grows it is given the hashes of the
addresses.

## Main definitions

- `InternerInner.intern`, `Allocated.new` — how strings are made
- `Harmless` — what a construction must not do for the table to stay in order
- `Canonical` — equal contents are one allocation

## Main results

- `canonical_of_run` — runs of harmless constructions keep the table in order
-/

namespace Snix.Eval.Interner

-- ====================
-- Allocations
-- ====================

/-- An address. -/
abbrev Ptr := UInt64

/-- The strings that were allocated. One without a context is never freed. -/
abbrev Heap := List (Ptr × NixString)

/-- The allocator. It does not hand out an address that is in use. -/
structure Allocator where
  alloc : Heap → ℕ → Option Ptr
  fresh : ∀ {heap n p}, alloc heap n = some p → heap.lookup p = none

/-- The hash of what is hashed here. -/
structure Hash where
  bytes : Bytes → UInt64
  address : Ptr → UInt64

def asBytes (heap : Heap) (p : Ptr) : Bytes := ((heap.lookup p).map NixString.contents).getD []

/-- The table of the interned strings, and the heap they are on. -/
structure InternerInner (H : HashTable Ptr) where
  map : H.Table
  heap : Heap

/-- Up to this length strings are interned. -/
def INTERN_THRESHOLD : ℕ := 32

variable {H : HashTable Ptr}

def newInner (A : Allocator) (contents : Bytes) (context : NixContext) (heap : Heap) :
    Option (Ptr × Heap) :=
  (A.alloc heap contents.length).map fun p => (p, (p, ⟨contents, context⟩) :: heap)

namespace InternerInner

/-- Looks for a string with these contents, and allocates one if there is none. None if there is no
    memory left. -/
def intern (A : Allocator) (hash : Hash) (contents : Bytes) (s : InternerInner H) :
    Option (Ptr × InternerInner H) :=
  let hashed := hash.bytes contents
  match H.find s.map hashed fun m => decide (asBytes s.heap m = contents) with
  | some p => some (p, s)
  | none =>
    match newInner A contents [] s.heap with
    | none => none
    | some (p, heap) => some (p, ⟨H.insertUnique s.map hashed p fun val => hash.address val, heap⟩)

/-- Makes a string. -/
def new (A : Allocator) (hash : Hash) (c : Bytes × NixContext) (s : InternerInner H) :
    Option (Ptr × InternerInner H) :=
  if c.1.length ≤ INTERN_THRESHOLD ∧ c.2 = [] then intern A hash c.1 s
  else (newInner A c.1 c.2 s.heap).map fun r => (r.1, ⟨s.map, r.2⟩)

/-- Makes several strings, one after another. -/
def run (A : Allocator) (hash : Hash) :
    List (Bytes × NixContext) → InternerInner H → Option (List Ptr × InternerInner H)
  | [], s => some ([], s)
  | c :: rest, s =>
    match new A hash c s with
    | none => none
    | some (p, s) => (run A hash rest s).map fun r => (p :: r.1, r.2)

/-- Nothing was made yet. -/
def default : InternerInner H := ⟨H.empty, []⟩

/-- The contents are there already, or the table has room, or every entry that is moved has an address
    with the hash of its contents. -/
def Harmless (hash : Hash) (c : Bytes × NixContext) (s : InternerInner H) : Prop :=
  c.1.length ≤ INTERN_THRESHOLD ∧ c.2 = [] →
    (∃ p ∈ H.values s.map, asBytes s.heap p = c.1) ∨ H.grows s.map = false ∨
      ∀ p ∈ H.values s.map, hash.address p = hash.bytes (asBytes s.heap p)

instance (hash : Hash) (c : Bytes × NixContext) (s : InternerInner H) :
    Decidable (Harmless hash c s) :=
  have : Decidable (∃ p ∈ H.values s.map, asBytes s.heap p = c.1) := List.decidableBEx _ _
  have : Decidable (∀ p ∈ H.values s.map, hash.address p = hash.bytes (asBytes s.heap p)) :=
    List.decidableBAll _ _
  inferInstanceAs (Decidable (_ → _ ∨ _ ∨ _))

/-- Every construction of a run is harmless. -/
def HarmlessRun (A : Allocator) (hash : Hash) :
    List (Bytes × NixContext) → InternerInner H → Prop
  | [], _ => True
  | c :: rest, s => Harmless hash c s ∧
    match new A hash c s with
    | none => True
    | some (_, s) => HarmlessRun A hash rest s

instance decidableHarmlessRun (A : Allocator) (hash : Hash) :
    ∀ (cs : List (Bytes × NixContext)) (s : InternerInner H), Decidable (HarmlessRun A hash cs s)
  | [], _ => .isTrue trivial
  | c :: rest, s =>
    have : Decidable (match new A hash c s with
        | none => True
        | some (_, s) => HarmlessRun A hash rest s) :=
      match new A hash c s with
      | none => .isTrue trivial
      | some (_, s) => decidableHarmlessRun A hash rest s
    inferInstanceAs (Decidable (_ ∧ _))

/-- What holds between two constructions. -/
structure Canonical (hash : Hash) (s : InternerInner H) : Prop where
  wellFiled : H.WellFiled (asBytes s.heap) hash.bytes s.map
  allocated : ∀ p ∈ H.values s.map, s.heap.lookup p ≠ none

/-- What was interned stays interned, with its contents. -/
def Keeps (s s' : InternerInner H) : Prop :=
  ∀ p ∈ H.values s.map, p ∈ H.values s'.map ∧ asBytes s'.heap p = asBytes s.heap p

variable {A : Allocator} {hash : Hash} {s s' : InternerInner H} {contents : Bytes}
  {context : NixContext} {c : Bytes × NixContext} {heap heap' : Heap} {p q : Ptr}

theorem Keeps.refl (s : InternerInner H) : Keeps s s := fun _ hp => ⟨hp, rfl⟩

theorem Keeps.trans {s'' : InternerInner H} (h : Keeps s s') (h' : Keeps s' s'') : Keeps s s'' := by
  intro p hp
  obtain ⟨hp', heq⟩ := h p hp
  obtain ⟨hp'', heq'⟩ := h' p hp'
  exact ⟨hp'', heq'.trans heq⟩

theorem newInner_eq_some (h : newInner A contents context heap = some (p, heap')) :
    heap.lookup p = none ∧ heap' = (p, ⟨contents, context⟩) :: heap := by
  obtain ⟨q, hq, heq⟩ := Option.map_eq_some_iff.mp h
  obtain ⟨rfl, rfl⟩ := Prod.mk.inj heq
  exact ⟨A.fresh hq, rfl⟩

theorem asBytes_cons_self {str : NixString} : asBytes ((p, str) :: heap) p = str.contents := by
  simp [asBytes]

theorem asBytes_cons_of_ne {str : NixString} (h : q ≠ p) :
    asBytes ((p, str) :: heap) q = asBytes heap q := by
  simp [asBytes, List.lookup_cons, beq_false_of_ne h]

theorem Canonical.ne_of_fresh (h : Canonical hash s) (hp : s.heap.lookup p = none)
    (hq : q ∈ H.values s.map) : q ≠ p := by
  rintro rfl
  exact h.allocated q hq hp

/-- An allocation leaves the table as it is. -/
theorem Canonical.allocate (h : Canonical hash s) (hp : s.heap.lookup p = none) (str : NixString) :
    Canonical hash ⟨s.map, (p, str) :: s.heap⟩ ∧ Keeps s ⟨s.map, (p, str) :: s.heap⟩ := by
  have hsame : ∀ q ∈ H.values s.map, asBytes ((p, str) :: s.heap) q = asBytes s.heap q :=
    fun q hq => asBytes_cons_of_ne (h.ne_of_fresh hp hq)
  refine ⟨⟨h.wellFiled.congr hsame, fun q hq => ?_⟩, fun q hq => ⟨hq, hsame q hq⟩⟩
  rw [List.lookup_cons, beq_false_of_ne (h.ne_of_fresh hp hq)]
  exact h.allocated q hq

/-- A new string is put into the table. -/
theorem Canonical.insert (h : Canonical hash s) (hp : s.heap.lookup p = some (.plain contents))
    (hnew : ∀ q ∈ H.values s.map, asBytes s.heap q ≠ contents)
    (hmoved : H.grows s.map = true → ∀ q ∈ H.values s.map,
      hash.address q = hash.bytes (asBytes s.heap q)) :
    Canonical hash ⟨H.insertUnique s.map (hash.bytes contents) p hash.address, s.heap⟩ := by
  have hcontents : asBytes s.heap p = contents := by rw [asBytes, hp]; rfl
  refine ⟨?_, fun q hq => ?_⟩
  · have hfiled := h.wellFiled.insertUnique (hcontents.symm ▸ hnew) hmoved
    rwa [hcontents] at hfiled
  · rcases List.mem_cons.mp ((HashTable.perm_values_insertUnique _).mem_iff.mp hq) with rfl | hq
    · rw [hp]
      exact Option.some_ne_none _
    · exact h.allocated q hq

/-- A harmless call gives the one allocation that has these contents. -/
theorem Canonical.intern (h : Canonical hash s)
    (hharmless : (∃ p ∈ H.values s.map, asBytes s.heap p = contents) ∨ H.grows s.map = false ∨
      ∀ p ∈ H.values s.map, hash.address p = hash.bytes (asBytes s.heap p))
    (hintern : intern A hash contents s = some (p, s')) :
    Canonical hash s' ∧ Keeps s s' ∧ p ∈ H.values s'.map ∧ asBytes s'.heap p = contents := by
  rw [InternerInner.intern] at hintern
  cases hfind : H.find s.map (hash.bytes contents) fun m => decide (asBytes s.heap m = contents) with
  | some q =>
    rw [hfind] at hintern
    obtain ⟨rfl, rfl⟩ := Prod.mk.inj (Option.some.inj hintern)
    obtain ⟨heq, hq⟩ := H.of_find_eq_some hfind
    exact ⟨h, .refl s, HashTable.mem_values_iff.mpr hq, of_decide_eq_true heq⟩
  | none =>
    rw [hfind] at hintern
    have hnew := h.wellFiled.find_eq_none_iff.mp hfind
    cases halloc : newInner A contents [] s.heap with
    | none =>
      rw [halloc] at hintern
      cases hintern
    | some r =>
      obtain ⟨q, heap⟩ := r
      rw [halloc] at hintern
      obtain ⟨rfl, rfl⟩ := Prod.mk.inj (Option.some.inj hintern)
      obtain ⟨hfresh, rfl⟩ := newInner_eq_some halloc
      obtain ⟨hcanonical, hkeeps⟩ := h.allocate hfresh (.plain contents)
      have hlookup : List.lookup q ((q, NixString.plain contents) :: s.heap) = some (.plain contents) :=
        List.lookup_cons_self
      have hinserted := hcanonical.insert hlookup (fun w hw => ?_) fun hgrows w hw => ?_
      · have hvalues : ∀ w, w ∈ H.values (H.insertUnique s.map (hash.bytes contents) q hash.address) ↔
            w = q ∨ w ∈ H.values s.map := fun w =>
          (HashTable.perm_values_insertUnique _).mem_iff.trans List.mem_cons
        refine ⟨hinserted, fun w hw => ⟨(hvalues w).mpr (.inr hw), (hkeeps w hw).2⟩,
          (hvalues q).mpr (.inl rfl), asBytes_cons_self⟩
      · rw [(hkeeps w hw).2]
        exact hnew w hw
      · rw [(hkeeps w hw).2]
        rcases hharmless with hthere | hroom | hmoved
        · obtain ⟨w', hw', heq⟩ := hthere
          exact absurd heq (hnew w' hw')
        · rw [hgrows] at hroom
          cases hroom
        · exact hmoved w hw

theorem Canonical.new (h : Canonical hash s) (hharmless : Harmless hash c s)
    (hnew : InternerInner.new A hash c s = some (p, s')) :
    Canonical hash s' ∧ Keeps s s' ∧ (c.1.length ≤ INTERN_THRESHOLD ∧ c.2 = [] →
      p ∈ H.values s'.map ∧ asBytes s'.heap p = c.1) := by
  rw [InternerInner.new] at hnew
  split_ifs at hnew with hshort
  · obtain ⟨hcanonical, hkeeps, hp⟩ := h.intern (hharmless hshort) hnew
    exact ⟨hcanonical, hkeeps, fun _ => hp⟩
  · obtain ⟨⟨q, heap⟩, halloc, heq⟩ := Option.map_eq_some_iff.mp hnew
    obtain ⟨rfl, rfl⟩ := Prod.mk.inj heq
    obtain ⟨hfresh, rfl⟩ := newInner_eq_some halloc
    obtain ⟨hcanonical, hkeeps⟩ := h.allocate hfresh ⟨c.1, c.2⟩
    exact ⟨hcanonical, hkeeps, fun h => absurd h hshort⟩

theorem Canonical.run {cs : List (Bytes × NixContext)} {ps : List Ptr} (h : Canonical hash s)
    (hharmless : HarmlessRun A hash cs s) (hrun : run A hash cs s = some (ps, s')) :
    Canonical hash s' ∧ Keeps s s' ∧ ∀ e ∈ cs.zip ps, e.1.1.length ≤ INTERN_THRESHOLD ∧ e.1.2 = [] →
      e.2 ∈ H.values s'.map ∧ asBytes s'.heap e.2 = e.1.1 := by
  induction cs generalizing s ps with
  | nil =>
    cases hrun
    exact ⟨h, .refl _, fun e he => absurd he List.not_mem_nil⟩
  | cons c rest ih =>
    obtain ⟨hhead, htail⟩ := hharmless
    rw [InternerInner.run] at hrun
    cases hnew : InternerInner.new A hash c s with
    | none =>
      rw [hnew] at hrun
      cases hrun
    | some r =>
      obtain ⟨p, s₁⟩ := r
      rw [hnew] at hrun htail
      obtain ⟨⟨ps', s₂⟩, hrest, heq⟩ := Option.map_eq_some_iff.mp hrun
      obtain ⟨rfl, rfl⟩ := Prod.mk.inj heq
      obtain ⟨hcanonical, hkeeps, hp⟩ := h.new hhead hnew
      obtain ⟨hcanonical', hkeeps', hps⟩ := ih hcanonical htail hrest
      refine ⟨hcanonical', hkeeps.trans hkeeps', List.forall_mem_cons.mpr ⟨fun hshort => ?_, hps⟩⟩
      obtain ⟨hmem, hcontents⟩ := hp hshort
      obtain ⟨hmem', hcontents'⟩ := hkeeps' p hmem
      exact ⟨hmem', hcontents'.trans hcontents⟩

theorem canonical_default : Canonical hash (default : InternerInner H) := by
  refine ⟨HashTable.wellFiled_empty, fun p hp => ?_⟩
  obtain ⟨h, hmem⟩ := HashTable.mem_values_iff.mp hp
  rw [default, H.filed_empty] at hmem
  exact absurd hmem List.not_mem_nil

/-- In every state that harmless constructions lead to, no contents are in the table twice, each is
    found under its hash, and constructions of the same contents gave the same allocation. -/
theorem canonical_of_run (H : HashTable Ptr) (A : Allocator) (hash : Hash)
    (cs : List (Bytes × NixContext)) (ps : List Ptr) (s : InternerInner H)
    (hrun : run A hash cs default = some (ps, s))
    (hharmless : HarmlessRun A hash cs (default : InternerInner H)) :
    ((H.values s.map).map (asBytes s.heap)).Nodup ∧
      (∀ p ∈ H.values s.map, H.find s.map (hash.bytes (asBytes s.heap p))
        (fun m => decide (asBytes s.heap m = asBytes s.heap p)) = some p) ∧
      ∀ c p q, c.length ≤ INTERN_THRESHOLD → ((c, []), p) ∈ cs.zip ps → ((c, []), q) ∈ cs.zip ps →
        p = q ∧ p ∈ H.values s.map ∧ asBytes s.heap p = c := by
  obtain ⟨hcanonical, -, hps⟩ := canonical_default.run hharmless hrun
  refine ⟨hcanonical.wellFiled.nodup, fun p hp => hcanonical.wellFiled.find_eq_some hp,
    fun c p q hc hp hq => ?_⟩
  obtain ⟨hmem, hcontents⟩ := hps _ hp ⟨hc, rfl⟩
  obtain ⟨hmem', hcontents'⟩ := hps _ hq ⟨hc, rfl⟩
  exact ⟨hcanonical.wellFiled.eq_of_key_eq hmem hmem' (hcontents.trans hcontents'.symm), hmem,
    hcontents⟩

-- ====================
-- Runs
-- ====================

/-- A multiplicative hash of addresses, and of contents of at most three bytes. -/
def fxHash : Hash where
  address p := rotate (p * 0xf1357aea2e62a9c5)
  bytes contents := rotate ((UInt64.ofNat contents.length * 0xf1357aea2e62a9c5 +
    mix contents) * 0xf1357aea2e62a9c5)
where
  rotate (x : UInt64) : UInt64 := x <<< 26 ||| x >>> 38
  mix (contents : Bytes) : UInt64 :=
    let lo := contents.headD 0
    let mid := contents.getD (contents.length / 2) 0
    let hi := contents.getLastD 0
    let product := (0x243f6a8885a308d3 ^^^ lo.toNat) *
      (0x13198a2e03707344 ^^^ (hi.toNat <<< 8 ||| mid.toNat))
    UInt64.ofNat product ^^^ UInt64.ofNat (product >>> 64) ^^^ UInt64.ofNat contents.length

/-- An allocator that goes through the memory in steps of 32 bytes. -/
def bump : Allocator where
  alloc heap _ :=
    let p := 0x5581a0b2c2a0 + 32 * UInt64.ofNat heap.length
    if heap.lookup p = none then some p else none
  fresh {heap n p} h := by
    dsimp only at h
    split_ifs at h with hfree
    cases h
    exact hfree

def plain (s : String) : Bytes × NixContext := (ascii s, [])

/-- The addresses that a run on a flat table gives. -/
def addresses (cs : List (Bytes × NixContext)) : Option (List Ptr) :=
  (run bump fxHash cs (default : InternerInner (HashTable.flat Ptr))).map Prod.fst

/-- Three strings fit into the table, and are not made again. -/
theorem canonical_of_run_three :
    ∃ ps, addresses [plain "a", plain "b", plain "a", plain "c", plain "a"] = some ps ∧
      ∀ p q, (plain "a", p) ∈ [plain "a", plain "b", plain "a", plain "c", plain "a"].zip ps →
        (plain "a", q) ∈ [plain "a", plain "b", plain "a", plain "c", plain "a"].zip ps → p = q := by
  obtain ⟨⟨ps, s⟩, hrun⟩ : ∃ r, run bump fxHash
      [plain "a", plain "b", plain "a", plain "c", plain "a"]
      (default : InternerInner (HashTable.flat Ptr)) = some r :=
    Option.isSome_iff_exists.mp (by decide +kernel)
  obtain ⟨-, -, hsame⟩ := canonical_of_run _ bump fxHash _ ps s hrun (by decide +kernel)
  refine ⟨ps, congrArg (Option.map Prod.fst) hrun, fun p q hp hq => ?_⟩
  exact (hsame (ascii "a") p q (by decide +kernel) hp hq).1

/-- The fourth string makes the table grow. After that the first one is not found any more. -/
theorem exists_addresses_ne :
    ∃ ps p q, addresses [plain "a", plain "b", plain "c", plain "d", plain "a"] = some ps ∧
      (plain "a", p) ∈ [plain "a", plain "b", plain "c", plain "d", plain "a"].zip ps ∧
      (plain "a", q) ∈ [plain "a", plain "b", plain "c", plain "d", plain "a"].zip ps ∧ p ≠ q := by
  refine ⟨[0x5581a0b2c2a0, 0x5581a0b2c2c0, 0x5581a0b2c2e0, 0x5581a0b2c300, 0x5581a0b2c320],
    0x5581a0b2c2a0, 0x5581a0b2c320, ?_, ?_, ?_, ?_⟩ <;> decide +kernel

end InternerInner
end Snix.Eval.Interner
