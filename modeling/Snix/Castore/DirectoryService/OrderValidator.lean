import Snix.Castore.Directory
import Snix.Lib.Merkle
import Mathlib.Data.Finset.Card
import Mathlib.Data.List.AList

/-!
# Validators of a sequence of directories

A closure of directories is sent either with every directory after the ones it
refers to, or from the root down. A validator takes the directories one by one
and keeps only digests and sizes.

A validator that has reported an error is poisoned: calling it again is a bug. So an
error carries no validator here.

## Main definitions

- `LeavesToRootValidator`, `RootToLeavesValidator` with `tryAccept` and `finalize`
- `Directory.merkle` — directories as items that refer to each other

## Main results

- `LeavesToRootValidator.accepts_iff`, `RootToLeavesValidator.accepts_iff` — which sequences
  a validator accepts
- `LeavesToRootValidator.finalize_ne_panic`
-/

namespace Snix.Castore

inductive OrderingError where
  | wrongSize (digest : B3Digest) (size : ℕ)
  | unknownLTR (digest parentDigest : B3Digest) (pathComponent : PathComponent)
  | unexpected (directory : Directory)
  | directoriesMissing (digests : Finset B3Digest)
  | emptySet

/-- Why a call does not succeed: an error, or a panic. -/
inductive Fault where
  | error (e : OrderingError)
  | panic (message : String)

/-- A call that does not panic. -/
def NoPanic {α : Type} (x : Except Fault α) : Prop := ∀ message, x ≠ .error (.panic message)

theorem NoPanic.bind {α β : Type} {x : Except Fault α} {f : α → Except Fault β} (hx : NoPanic x)
    (hf : ∀ a, x = .ok a → NoPanic (f a)) : NoPanic (x >>= f) := by
  cases x with
  | error e =>
    intro message h
    cases h
    exact hx message rfl
  | ok a => exact hf a rfl

theorem noPanic_ok {α : Type} (a : α) : NoPanic (.ok a) := fun _ h => nomatch h

theorem noPanic_error {α : Type} (e : OrderingError) : NoPanic (α := α) (.error (.error e)) :=
  fun _ h => nomatch h

namespace Directory

/-- The entries that are directories, with the recorded digest and size. -/
def children (d : Directory) : List (PathComponent × B3Digest × ℕ) :=
  d.nodes.entries.filterMap fun e =>
    match e.2 with
    | .directory digest size => some (e.1, digest, size.toNat)
    | _ => none

/-- `size`, as part of a call. -/
def sizeOrPanic (checks : Bool) (d : Directory) : Except Fault ℕ :=
  match d.size checks with
  | some size => .ok size
  | none => .error (.panic "attempt to add with overflow")

/-- Directories are items with their digest for a key. -/
def merkle (digest : Directory → B3Digest) (checks : Bool) : Merkle Directory B3Digest ℕ :=
  ⟨digest, fun d => d.children.map Prod.snd, Directory.size checks⟩

theorem sizeOrPanic_eq_ok {checks : Bool} {d : Directory} {size : ℕ} :
    d.sizeOrPanic checks = .ok size ↔ d.size checks = some size := by
  unfold sizeOrPanic
  cases d.size checks with
  | none => simp only [reduceCtorEq]
  | some s => simp only [Except.ok.injEq, Option.some.injEq]

end Directory

/-- Digests with a value each. -/
abbrev DigestMap (β : Type) := AList fun _ : B3Digest => β

-- ====================
-- From the leaves to the root
-- ====================

structure LeavesToRootValidator where
  acceptedDirectories : DigestMap ℕ
  pendingDirectories : Finset B3Digest
  lastInsertedDigest : Option B3Digest

namespace LeavesToRootValidator

def new : LeavesToRootValidator := ⟨∅, ∅, none⟩

/-- Checks one entry of a directory. -/
def checkChild (parentDigest : B3Digest) (v : LeavesToRootValidator)
    (child : PathComponent × B3Digest × ℕ) : Except Fault LeavesToRootValidator :=
  match v.acceptedDirectories.lookup child.2.1 with
  | some s =>
    if s = child.2.2 then
      .ok { v with pendingDirectories := v.pendingDirectories.erase child.2.1 }
    else .error (.error (.wrongSize child.2.1 s))
  | none => .error (.error (.unknownLTR child.2.1 parentDigest child.1))

section

variable (digest : Directory → B3Digest) (checks : Bool)

def tryAccept (v : LeavesToRootValidator) (directory : Directory) :
    Except Fault LeavesToRootValidator := do
  let v ← directory.children.foldlM (checkChild (digest directory)) v
  match v.acceptedDirectories.lookup (digest directory) with
  -- received multiple times
  | some _ => .ok v
  | none =>
    let size ← directory.sizeOrPanic checks
    .ok { acceptedDirectories := v.acceptedDirectories.insert (digest directory) size
          pendingDirectories := insert (digest directory) v.pendingDirectories
          lastInsertedDigest := some (digest directory) }

end

/-- The end of the sequence. The last two checks are there with debug assertions only. -/
def finalize (debug : Bool) (v : LeavesToRootValidator) : Except Fault Unit :=
  if v.acceptedDirectories.entries = [] then .error (.error .emptySet)
  else if v.pendingDirectories.card ≠ 1 then
    .error (.error (.directoriesMissing v.pendingDirectories))
  else if debug then
    match v.lastInsertedDigest with
    | none => .error (.panic "Snix bug: have dangling_directories, but no last_inserted_digest")
    | some lastInsertedDigest =>
      if lastInsertedDigest ∈ v.pendingDirectories then .ok ()
      else .error (.panic "Snix bug: dangling directory is not last inserted one")
  else .ok ()

/-- Accepts all directories of a sequence. -/
def acceptAll (digest : Directory → B3Digest) (checks : Bool) (directories : List Directory) :
    Except Fault LeavesToRootValidator :=
  directories.foldlM (tryAccept digest checks) new

variable {digest : Directory → B3Digest} {checks : Bool}

theorem checkChild_eq_ok {parentDigest : B3Digest} {v v' : LeavesToRootValidator}
    {child : PathComponent × B3Digest × ℕ} :
    checkChild parentDigest v child = .ok v' ↔
      v.acceptedDirectories.lookup child.2.1 = some child.2.2 ∧
        v' = { v with pendingDirectories := v.pendingDirectories.erase child.2.1 } := by
  unfold checkChild
  cases v.acceptedDirectories.lookup child.2.1 with
  | none => simp only [reduceCtorEq, false_and]
  | some s =>
    by_cases hs : s = child.2.2
    · simp only [hs, if_true, Except.ok.injEq, true_and]
      exact eq_comm
    · simp only [hs, if_false, reduceCtorEq, Option.some.injEq, false_and]

/-- The children of an accepted directory are known with the recorded size. They are no longer
    candidates for the root. -/
theorem of_checkChildren {parentDigest : B3Digest} {children : List (PathComponent × B3Digest × ℕ)}
    {v v' : LeavesToRootValidator}
    (h : children.foldlM (checkChild parentDigest) v = .ok v') :
    (∀ c ∈ children.map Prod.snd, v.acceptedDirectories.lookup c.1 = some c.2) ∧
      v'.acceptedDirectories = v.acceptedDirectories ∧
      v'.lastInsertedDigest = v.lastInsertedDigest ∧
      ∀ k, k ∈ v'.pendingDirectories ↔
        k ∈ v.pendingDirectories ∧ ∀ s, (k, s) ∉ children.map Prod.snd := by
  induction children generalizing v with
  | nil =>
    cases h
    simp
  | cons child children ih =>
    rw [List.foldlM_cons] at h
    cases hc : checkChild parentDigest v child with
    | error e =>
      rw [hc] at h
      cases h
    | ok v₁ =>
      rw [hc] at h
      obtain ⟨hlookup, rfl⟩ := checkChild_eq_ok.mp hc
      obtain ⟨hall, hacc, hlast, hpending⟩ := ih h
      refine ⟨?_, hacc, hlast, ?_⟩
      · intro c hmem
        rw [List.map_cons] at hmem
        rcases List.mem_cons.mp hmem with rfl | hmem
        · exact hlookup
        · exact hall c hmem
      · intro k
        rw [hpending, Finset.mem_erase, List.map_cons]
        constructor
        · rintro ⟨⟨hne, hk⟩, hnot⟩
          refine ⟨hk, fun s hs => ?_⟩
          rcases List.mem_cons.mp hs with heq | hs
          · exact hne (congrArg Prod.fst heq)
          · exact hnot s hs
        · rintro ⟨hk, hnot⟩
          refine ⟨⟨?_, hk⟩, fun s hs => hnot s (List.mem_cons_of_mem _ hs)⟩
          rintro rfl
          exact hnot child.2.2 List.mem_cons_self

theorem exists_checkChildren {parentDigest : B3Digest}
    {children : List (PathComponent × B3Digest × ℕ)} {v : LeavesToRootValidator}
    (h : ∀ c ∈ children.map Prod.snd, v.acceptedDirectories.lookup c.1 = some c.2) :
    ∃ v', children.foldlM (checkChild parentDigest) v = .ok v' := by
  induction children generalizing v with
  | nil => exact ⟨v, rfl⟩
  | cons child children ih =>
    rw [List.map_cons] at h
    have hc : checkChild parentDigest v child = .ok _ :=
      checkChild_eq_ok.mpr ⟨h child.2 List.mem_cons_self, rfl⟩
    rw [List.foldlM_cons, hc]
    exact ih (v := { v with pendingDirectories := v.pendingDirectories.erase child.2.1 })
      fun c hmem => h c (List.mem_cons_of_mem _ hmem)

/-- The state after some directories: what was accepted, and which of it has no parent. -/
structure Inv (digest : Directory → B3Digest) (checks : Bool) (before : List Directory)
    (v : LeavesToRootValidator) : Prop where
  accepted : ∀ k s, v.acceptedDirectories.lookup k = some s ↔
    (Directory.merkle digest checks).Held before k s
  pending : ∀ k, k ∈ v.pendingDirectories ↔ (Directory.merkle digest checks).Root before k
  last : ∀ k, v.lastInsertedDigest = some k → (Directory.merkle digest checks).Root before k
  nonempty : v.lastInsertedDigest = none → before = []
  closed : (Directory.merkle digest checks).Closed before

theorem inv_new : Inv digest checks [] new where
  accepted k s := by simp [new, Merkle.Held]
  pending k := by simp [new, Merkle.Root, Merkle.Has]
  last k h := nomatch h
  nonempty _ := rfl
  closed := by simp [Merkle.Closed, Merkle.claims]

section

variable {directories before : List Directory} {directory : Directory}
  {v v' : LeavesToRootValidator}

/-- The check of one directory, in terms of the sequence. -/
theorem checkChildren_iff (hinv : Inv digest checks before v) :
    (∀ c ∈ directory.children.map Prod.snd, v.acceptedDirectories.lookup c.1 = some c.2) ↔
      ∀ c ∈ (Directory.merkle digest checks).refs directory,
        (Directory.merkle digest checks).Held before c.1 c.2 :=
  forall₂_congr fun c _ => hinv.accepted c.1 c.2

theorem Inv.has_of_lookup (hinv : Inv digest checks before v) {k : B3Digest} {s : ℕ}
    (h : v.acceptedDirectories.lookup k = some s) : (Directory.merkle digest checks).Has before k :=
  ((hinv.accepted k s).mp h).has

theorem Inv.not_has_of_lookup (hinv : Inv digest checks before v) {k : B3Digest}
    (h : v.acceptedDirectories.lookup k = none) :
    ¬(Directory.merkle digest checks).Has before k := by
  intro hhas
  obtain ⟨s, hs⟩ := hinv.closed.exists_held hhas
  rw [(hinv.accepted k s).mpr hs] at h
  cases h

/-- A directory that was accepted before changes nothing. -/
theorem Inv.concat_of_mem (hinv : Inv digest checks before v) (hmem : directory ∈ before) :
    Inv digest checks (before ++ [directory]) v := by
  have hsub : before ++ [directory] ⊆ before :=
    List.append_subset.mpr ⟨List.Subset.refl before, by simpa using hmem⟩
  have hsub' : before ⊆ before ++ [directory] := List.subset_append_left before [directory]
  constructor
  · intro k s
    rw [hinv.accepted]
    exact ⟨Merkle.Held.of_subset hsub', Merkle.Held.of_subset hsub⟩
  · intro k
    rw [hinv.pending, Merkle.root_concat_of_mem hmem]
  · intro k hk
    exact (Merkle.root_concat_of_mem hmem).mpr (hinv.last k hk)
  · intro hnone
    rw [hinv.nonempty hnone] at hmem
    cases hmem
  · exact hinv.closed.concat (hinv.closed.1 directory hmem)
      fun c hc => hinv.closed.2 c (Merkle.mem_claims.mpr ⟨directory, hmem, hc⟩)

/-- A validator accepts a directory if its children were accepted with the recorded sizes. -/
theorem tryAccept_sound (hfree : (Directory.merkle digest checks).CollisionFree directories)
    (hbefore : before ⊆ directories) (hdirectory : directory ∈ directories)
    (hinv : Inv digest checks before v) (h : tryAccept digest checks v directory = .ok v') :
    ((∃ s, directory.size checks = some s) ∧
      ∀ c ∈ (Directory.merkle digest checks).refs directory,
        (Directory.merkle digest checks).Held before c.1 c.2) ∧
    Inv digest checks (before ++ [directory]) v' := by
  unfold tryAccept at h
  cases hloop : directory.children.foldlM (checkChild (digest directory)) v with
  | error e =>
    rw [hloop] at h
    cases h
  | ok v₁ =>
    obtain ⟨hchildren, hacc, hlast, hpending⟩ := of_checkChildren hloop
    have hrefs := (checkChildren_iff hinv).mp hchildren
    simp only [hloop, bind, Except.bind, hacc] at h
    cases hlookup : v.acceptedDirectories.lookup (digest directory) with
    | some s =>
      simp only [hlookup, Except.ok.injEq] at h
      subst h
      obtain ⟨b, hb, hkey⟩ := hinv.has_of_lookup hlookup
      obtain rfl := hfree.injective b (hbefore hb) directory hdirectory hkey
      refine ⟨⟨hinv.closed.1 b hb, hrefs⟩, ?_⟩
      -- nothing that this directory refers to was pending
      have hsame : v₁.pendingDirectories = v.pendingDirectories := by
        ext k
        rw [hpending, hinv.pending]
        refine and_iff_left_of_imp fun hroot s hs => hroot.2 ⟨s, ?_⟩
        exact Merkle.mem_claims.mpr ⟨b, hb, hs⟩
      have hv₁ : v₁ = v := by
        cases v
        cases v₁
        simp_all
      rw [hv₁]
      exact hinv.concat_of_mem hb
    | none =>
      rw [hlookup] at h
      cases hsize : directory.sizeOrPanic checks with
      | error e =>
        simp only [hsize, reduceCtorEq] at h
      | ok size =>
        simp only [hsize, Except.ok.injEq] at h
        subst h
        have hsize' : directory.size checks = some size := Directory.sizeOrPanic_eq_ok.mp hsize
        have hnew := hinv.not_has_of_lookup hlookup
        have hroot : ∀ k, (Directory.merkle digest checks).Root (before ++ [directory]) k ↔ _ :=
          fun k => hinv.closed.root_concat hnew hrefs
        refine ⟨⟨⟨size, hsize'⟩, hrefs⟩, ?_⟩
        constructor
        · intro k s
          rw [Merkle.held_concat, ← hinv.accepted k s]
          by_cases hk : k = digest directory
          · subst hk
            simp only [AList.lookup_insert, hlookup, reduceCtorEq, false_or]
            exact ⟨fun h => ⟨rfl, hsize'.trans h⟩, fun h => hsize'.symm.trans h.2⟩
          · rw [AList.lookup_insert_ne hk]
            exact (or_iff_left fun h => hk h.1.symm).symm
        · intro k
          rw [hroot, Finset.mem_insert, hpending, hinv.pending]
          rfl
        · intro k hk
          cases hk
          exact (hroot _).mpr (.inl rfl)
        · intro hnone
          cases hnone
        · exact hinv.closed.concat ⟨size, hsize'⟩ hrefs

theorem tryAccept_complete (hinv : Inv digest checks before v)
    (hsize : ∃ s, directory.size checks = some s)
    (hrefs : ∀ c ∈ (Directory.merkle digest checks).refs directory,
      (Directory.merkle digest checks).Held before c.1 c.2) :
    ∃ v', tryAccept digest checks v directory = .ok v' := by
  obtain ⟨s, hs⟩ := hsize
  obtain ⟨v₁, hloop⟩ : ∃ v₁, directory.children.foldlM (checkChild (digest directory)) v = .ok v₁ :=
    exists_checkChildren ((checkChildren_iff hinv).mpr hrefs)
  unfold tryAccept
  rw [hloop]
  cases hlookup : v₁.acceptedDirectories.lookup (digest directory) with
  | some s => exact ⟨v₁, by simp only [bind, Except.bind, hlookup]⟩
  | none =>
    rw [← Directory.sizeOrPanic_eq_ok] at hs
    exact ⟨_, by simp only [bind, Except.bind, hlookup, hs]; rfl⟩

theorem decides (hfree : (Directory.merkle digest checks).CollisionFree directories) :
    Decides directories (tryAccept digest checks) (Inv digest checks)
      (fun before a => (∃ s, (Directory.merkle digest checks).size a = some s) ∧
        ∀ c ∈ (Directory.merkle digest checks).refs a,
          (Directory.merkle digest checks).Held before c.1 c.2) where
  sound _ _ _ _ hbefore ha hinv h := tryAccept_sound hfree hbefore ha hinv h
  complete _ _ _ _ _ hinv h := tryAccept_complete hinv h.1 h.2

theorem Inv.accepted_eq_nil (hinv : Inv digest checks before v) :
    v.acceptedDirectories.entries = [] ↔ before = [] := by
  constructor
  · intro hnil
    rw [List.eq_nil_iff_forall_not_mem]
    intro b hb
    obtain ⟨s, hs⟩ := hinv.closed.exists_held ⟨b, hb, rfl⟩
    have hempty : v.acceptedDirectories = ∅ := AList.ext hnil
    rw [← hinv.accepted, hempty] at hs
    cases hs
  · rintro rfl
    have hempty : v.acceptedDirectories.keys = [] := by
      rw [List.eq_nil_iff_forall_not_mem]
      intro k hk
      rw [← AList.mem_keys, ← AList.lookup_isSome, Option.isSome_iff_exists] at hk
      obtain ⟨s, hs⟩ := hk
      obtain ⟨b, hb, -⟩ := hinv.has_of_lookup hs
      cases hb
    exact List.map_eq_nil_iff.mp hempty

/-- The checks with debug assertions never fail. -/
theorem finalize_eq (hinv : Inv digest checks before v) (debug : Bool) :
    v.finalize debug =
      if before = [] then .error (.error .emptySet)
      else if v.pendingDirectories.card ≠ 1 then
        .error (.error (.directoriesMissing v.pendingDirectories))
      else .ok () := by
  unfold finalize
  simp only [hinv.accepted_eq_nil]
  by_cases hnil : before = []
  · rw [if_pos hnil, if_pos hnil]
  · rw [if_neg hnil, if_neg hnil]
    split_ifs with hcard hdebug
    · rfl
    · cases hlast : v.lastInsertedDigest with
      | none => exact absurd (hinv.nonempty hlast) hnil
      | some k => exact if_pos ((hinv.pending k).mpr (hinv.last k hlast))
    · rfl

theorem finalize_iff (hinv : Inv digest checks before v) (debug : Bool) :
    (∃ u, v.finalize debug = .ok u) ↔ (Directory.merkle digest checks).UniqueRoot before := by
  have hunique : v.pendingDirectories.card = 1 ↔
      (Directory.merkle digest checks).UniqueRoot before := by
    rw [Finset.card_eq_one, Finset.singleton_iff_unique_mem]
    simp only [hinv.pending]
    rfl
  rw [finalize_eq hinv, ← hunique]
  by_cases hnil : before = []
  · have hcard : v.pendingDirectories.card ≠ 1 := by
      intro hcard
      obtain ⟨k, ⟨⟨b, hb, -⟩, -⟩, -⟩ := hunique.mp hcard
      rw [hnil] at hb
      cases hb
    simp only [hnil, if_true, reduceCtorEq, exists_false, hcard]
  · by_cases hcard : v.pendingDirectories.card = 1
    · simp only [hnil, if_false, hcard, ne_eq, not_true_eq_false]
      exact iff_of_true ⟨(), trivial⟩ trivial
    · simp only [hnil, if_false, hcard, ne_eq, not_false_eq_true, if_true, reduceCtorEq,
        exists_false]

end

section

variable {directories : List Directory}

theorem inv_of_acceptAll (hfree : (Directory.merkle digest checks).CollisionFree directories)
    {v : LeavesToRootValidator} (h : acceptAll digest checks directories = .ok v) :
    Inv digest checks directories v :=
  ((decides hfree).inv_of_run inv_new h).2

/-- A validator accepts the sequences in which every directory comes after its children, all
    recorded sizes are right and all but one have a parent. -/
theorem accepts_iff (hfree : (Directory.merkle digest checks).CollisionFree directories)
    (debug : Bool) :
    (∃ u, (acceptAll digest checks directories >>= finalize debug) = .ok u) ↔
      (Directory.merkle digest checks).BottomUp directories ∧
        (Directory.merkle digest checks).UniqueRoot directories :=
  (decides hfree).run_iff inv_new fun _ _ hinv => finalize_iff hinv debug

theorem finalize_ne_panic (hfree : (Directory.merkle digest checks).CollisionFree directories)
    {v : LeavesToRootValidator} (h : acceptAll digest checks directories = .ok v) (debug : Bool)
    (message : String) : v.finalize debug ≠ .error (.panic message) := by
  rw [finalize_eq (inv_of_acceptAll hfree h) debug]
  split_ifs <;> simp only [ne_eq, Except.error.injEq, reduceCtorEq, not_false_eq_true]

end

end LeavesToRootValidator

-- ====================
-- From the root to the leaves
-- ====================

structure RootToLeavesValidator where
  rootDigest : B3Digest
  referencedDirectories : DigestMap ℕ
  pendingDirectories : Finset B3Digest

namespace RootToLeavesValidator

def newWithRootDigest (rootDigest : B3Digest) : RootToLeavesValidator :=
  ⟨rootDigest, ∅, {rootDigest}⟩

/-- Notes one entry of a directory. A size that was noted before is overwritten. -/
def introduceChild (v : RootToLeavesValidator) (child : PathComponent × B3Digest × ℕ) :
    RootToLeavesValidator :=
  { v with
    referencedDirectories := v.referencedDirectories.insert child.2.1 child.2.2
    pendingDirectories :=
      match v.referencedDirectories.lookup child.2.1 with
      | none => insert child.2.1 v.pendingDirectories
      | some _ => v.pendingDirectories }

def introduceChildrenOf (v : RootToLeavesValidator) (directory : Directory) :
    RootToLeavesValidator :=
  directory.children.foldl introduceChild v

section

variable (digest : Directory → B3Digest) (checks : Bool)

def tryAccept (v : RootToLeavesValidator) (directory : Directory) :
    Except Fault RootToLeavesValidator := do
  let size ← directory.sizeOrPanic checks
  match v.referencedDirectories.lookup (digest directory) with
  | some s =>
    if s = size then
      let v := { v with pendingDirectories := v.pendingDirectories.erase (digest directory) }
      .ok (v.introduceChildrenOf directory)
    else .error (.error (.wrongSize (digest directory) size))
  | none =>
    if digest directory = v.rootDigest then
      let v := v.introduceChildrenOf directory
      .ok { v with pendingDirectories := v.pendingDirectories.erase v.rootDigest }
    else .error (.error (.unexpected directory))

end

/-- The end of the sequence. -/
def finalize (v : RootToLeavesValidator) : Except Fault Unit :=
  if v.pendingDirectories = ∅ then .ok ()
  else .error (.error (.directoriesMissing v.pendingDirectories))

/-- Accepts all directories of a sequence. -/
def acceptAll (digest : Directory → B3Digest) (checks : Bool) (rootDigest : B3Digest)
    (directories : List Directory) : Except Fault RootToLeavesValidator :=
  directories.foldlM (tryAccept digest checks) (newWithRootDigest rootDigest)

variable {digest : Directory → B3Digest} {checks : Bool}

/-- The validator after some claims: the last size claimed for each digest. -/
theorem introduceChildren_spec (children : List (PathComponent × B3Digest × ℕ))
    (v : RootToLeavesValidator) {claims : List (B3Digest × ℕ)}
    (hclaims : ∀ k, v.referencedDirectories.lookup k = Merkle.lastClaim claims k) :
    (children.foldl introduceChild v).rootDigest = v.rootDigest ∧
      (∀ k, (children.foldl introduceChild v).referencedDirectories.lookup k =
        Merkle.lastClaim (claims ++ children.map Prod.snd) k) ∧
      ∀ k, k ∈ (children.foldl introduceChild v).pendingDirectories ↔ k ∈ v.pendingDirectories ∨
        (∀ s, (k, s) ∉ claims) ∧ ∃ s, (k, s) ∈ children.map Prod.snd := by
  induction children generalizing v claims with
  | nil =>
    refine ⟨rfl, fun k => ?_, fun k => ?_⟩
    · rw [List.map_nil, List.append_nil]
      exact hclaims k
    · simp
  | cons child children ih =>
    have hclaims' : ∀ k, (introduceChild v child).referencedDirectories.lookup k =
        Merkle.lastClaim (claims ++ [child.2]) k := by
      intro k
      rw [Merkle.lastClaim_concat, ← hclaims k]
      by_cases hk : child.2.1 = k
      · subst hk
        rw [if_pos rfl]
        exact AList.lookup_insert _
      · rw [if_neg hk]
        exact AList.lookup_insert_ne (Ne.symm hk)
    obtain ⟨hroot, hlookup, hpending⟩ := ih (introduceChild v child) hclaims'
    rw [List.map_cons, List.foldl_cons]
    refine ⟨hroot, fun k => ?_, fun k => ?_⟩
    · rw [hlookup, List.append_assoc, List.singleton_append]
    · have hfirst : k ∈ (introduceChild v child).pendingDirectories ↔
          k ∈ v.pendingDirectories ∨ (∀ s, (k, s) ∉ claims) ∧ k = child.2.1 := by
        unfold introduceChild
        dsimp only
        rw [hclaims]
        cases hlast : Merkle.lastClaim claims child.2.1 with
        | none =>
          rw [Merkle.lastClaim_eq_none] at hlast
          rw [Finset.mem_insert]
          constructor
          · rintro (rfl | hk)
            · exact .inr ⟨hlast, rfl⟩
            · exact .inl hk
          · rintro (hk | ⟨-, rfl⟩)
            · exact .inr hk
            · exact .inl rfl
        | some t =>
          refine (or_iff_left ?_).symm
          rintro ⟨hnot, rfl⟩
          exact hnot t (Merkle.mem_of_lastClaim hlast)
      rw [hpending, hfirst, or_assoc]
      refine or_congr_right ?_
      constructor
      · rintro (⟨hnot, rfl⟩ | ⟨hnot, s, hs⟩)
        · exact ⟨hnot, child.2.2, List.mem_cons_self⟩
        · exact ⟨fun s hs => hnot s (List.mem_append_left _ hs), s, List.mem_cons_of_mem _ hs⟩
      · rintro ⟨hnot, s, hs⟩
        by_cases hk : k = child.2.1
        · exact .inl ⟨hnot, hk⟩
        · refine .inr ⟨fun t ht => ?_, s, (List.mem_cons.mp hs).resolve_left ?_⟩
          · rcases List.mem_append.mp ht with ht | ht
            · exact hnot t ht
            · exact hk (congrArg Prod.fst (List.mem_singleton.mp ht))
          · exact fun heq => hk (congrArg Prod.fst heq)

/-- The state after some directories: what was claimed last, and what is still missing. -/
structure Inv (digest : Directory → B3Digest) (checks : Bool) (rootDigest : B3Digest)
    (before : List Directory) (v : RootToLeavesValidator) : Prop where
  root : v.rootDigest = rootDigest
  referenced : ∀ k, v.referencedDirectories.lookup k =
    Merkle.lastClaim ((Directory.merkle digest checks).claims before) k
  pending : ∀ k, k ∈ v.pendingDirectories ↔
    (k = rootDigest ∨ (Directory.merkle digest checks).Claimed before k) ∧
      ¬(Directory.merkle digest checks).Has before k
  rooted : (Directory.merkle digest checks).Rooted rootDigest before

variable {rootDigest : B3Digest}

theorem inv_new : Inv digest checks rootDigest [] (newWithRootDigest rootDigest) where
  root := rfl
  referenced k := rfl
  pending k := by simp [newWithRootDigest, Merkle.Claimed, Merkle.claims, Merkle.Has]
  rooted := along_nil

section

variable {directories before : List Directory} {directory : Directory}
  {v v' : RootToLeavesValidator}

/-- What is missing after one more directory. -/
theorem pending_concat (hfree : (Directory.merkle digest checks).CollisionFree directories)
    (hsub : before ++ [directory] ⊆ directories)
    (hrooted : (Directory.merkle digest checks).Rooted rootDigest (before ++ [directory]))
    (hinv : Inv digest checks rootDigest before v) (k : B3Digest) :
    ((k ∈ v.pendingDirectories ∧ k ≠ digest directory) ∨
      (∀ s, (k, s) ∉ (Directory.merkle digest checks).claims before) ∧
        ∃ s, (k, s) ∈ (Directory.merkle digest checks).refs directory) ↔
    (k = rootDigest ∨ (Directory.merkle digest checks).Claimed (before ++ [directory]) k) ∧
      ¬(Directory.merkle digest checks).Has (before ++ [directory]) k := by
  have hroot := hrooted.root_not_claimed (hfree.of_subset hsub)
  rw [hinv.pending, Merkle.has_concat, Merkle.claimed_concat]
  rw [Merkle.claimed_concat] at hroot
  constructor
  · rintro (⟨⟨hwhy, hnot⟩, hne⟩ | ⟨hnot, hs⟩)
    · refine ⟨hwhy.imp_right .inl, ?_⟩
      rintro (hhas | hkey)
      · exact hnot hhas
      · exact hne hkey.symm
    · refine ⟨.inr (.inr hs), ?_⟩
      -- what is there is the root or was claimed before
      have harrived : k = rootDigest ∨ (Directory.merkle digest checks).Claimed before k → False := by
        rintro (rfl | ⟨s, hs⟩)
        · exact hroot (.inr hs)
        · exact hnot s hs
      rintro (⟨b, hb, rfl⟩ | rfl)
      · exact harrived (hinv.rooted.root_or_claimed hb)
      · exact harrived (along_concat.mp hrooted).2
  · rintro ⟨hwhy, hnot⟩
    have hne : k ≠ digest directory := fun hk => hnot (.inr hk.symm)
    have hnot' : ¬(Directory.merkle digest checks).Has before k := fun hhas => hnot (.inl hhas)
    by_cases hclaimed : (Directory.merkle digest checks).Claimed before k
    · exact .inl ⟨⟨.inr hclaimed, hnot'⟩, hne⟩
    · rcases hwhy with hk | hclaimed' | hs
      · exact .inl ⟨⟨.inl hk, hnot'⟩, hne⟩
      · exact absurd hclaimed' hclaimed
      · exact .inr ⟨fun s hs => hclaimed ⟨s, hs⟩, hs⟩

/-- A validator accepts a directory if its size is the one claimed last. -/
theorem tryAccept_eq_ok (hinv : Inv digest checks rootDigest before v) :
    (∃ v', tryAccept digest checks v directory = .ok v') ↔
      ∃ s, directory.size checks = some s ∧
        (Merkle.lastClaim ((Directory.merkle digest checks).claims before) (digest directory) =
            some s ∨
          Merkle.lastClaim ((Directory.merkle digest checks).claims before) (digest directory) =
            none ∧ digest directory = rootDigest) := by
  unfold tryAccept
  rw [hinv.referenced, hinv.root]
  cases hsize : directory.size checks with
  | none => simp [Directory.sizeOrPanic, hsize, bind, Except.bind]
  | some size =>
    rw [← Directory.sizeOrPanic_eq_ok] at hsize
    simp only [hsize, bind, Except.bind, Option.some.injEq, exists_eq_left']
    cases Merkle.lastClaim ((Directory.merkle digest checks).claims before) (digest directory) with
    | none =>
      by_cases hroot : digest directory = rootDigest <;> simp [hroot]
    | some s =>
      by_cases hs : s = size <;> simp [hs]

theorem tryAccept_inv (hfree : (Directory.merkle digest checks).CollisionFree directories)
    (hsub : before ++ [directory] ⊆ directories)
    (hrooted : (Directory.merkle digest checks).Rooted rootDigest (before ++ [directory]))
    (hinv : Inv digest checks rootDigest before v)
    (h : tryAccept digest checks v directory = .ok v') :
    Inv digest checks rootDigest (before ++ [directory]) v' := by
  have hpending := pending_concat hfree hsub hrooted hinv
  unfold tryAccept at h
  cases hsize : directory.sizeOrPanic checks with
  | error e =>
    rw [hsize] at h
    cases h
  | ok size =>
    simp only [hsize, bind, Except.bind] at h
    split at h
    · next s hs =>
      split_ifs at h with heq
      cases h
      obtain ⟨hroot, hlookup, hmem⟩ := introduceChildren_spec directory.children
        { v with pendingDirectories := v.pendingDirectories.erase (digest directory) }
        hinv.referenced
      refine ⟨hroot.trans hinv.root, ?_, ?_, hrooted⟩
      · intro k
        rw [Merkle.claims_concat]
        exact hlookup k
      · intro k
        rw [introduceChildrenOf, hmem, Finset.mem_erase, and_comm, ← hpending]
        rfl
    · split_ifs at h with hkey
      cases h
      obtain ⟨hroot, hlookup, hmem⟩ :=
        introduceChildren_spec directory.children v hinv.referenced
      refine ⟨hroot.trans hinv.root, ?_, ?_, hrooted⟩
      · intro k
        rw [Merkle.claims_concat]
        exact hlookup k
      · intro k
        rw [introduceChildrenOf, hroot, ← hkey, Finset.mem_erase, hmem, ← hpending, and_or_left,
          and_comm]
        refine or_congr_right (and_iff_right_of_imp ?_)
        -- the root does not refer to itself
        rintro ⟨-, s, hs⟩ rfl
        have hdirectory : directory ∈ directories :=
          hsub (List.mem_append_right before (List.mem_singleton_self directory))
        exact hfree.not_self hdirectory hs

theorem decides (hfree : (Directory.merkle digest checks).CollisionFree directories) :
    Decides directories (tryAccept digest checks) (Inv digest checks rootDigest)
      (fun before a => ∃ s, (Directory.merkle digest checks).size a = some s ∧
        (Merkle.lastClaim ((Directory.merkle digest checks).claims before)
            ((Directory.merkle digest checks).key a) = some s ∨
          Merkle.lastClaim ((Directory.merkle digest checks).claims before)
            ((Directory.merkle digest checks).key a) = none ∧
              (Directory.merkle digest checks).key a = rootDigest)) where
  sound before v a v' hbefore ha hinv h := by
    obtain ⟨s, hs, hwhy⟩ := (tryAccept_eq_ok hinv).mp ⟨v', h⟩
    have hsub : before ++ [a] ⊆ directories :=
      List.append_subset.mpr ⟨hbefore, by simpa using ha⟩
    have hrooted : (Directory.merkle digest checks).Rooted rootDigest (before ++ [a]) := by
      refine along_concat.mpr ⟨hinv.rooted, ?_⟩
      rcases hwhy with hlast | ⟨-, hroot⟩
      · exact .inr ⟨s, Merkle.mem_of_lastClaim hlast⟩
      · exact .inl hroot
    exact ⟨⟨s, hs, hwhy⟩, tryAccept_inv hfree hsub hrooted hinv h⟩
  complete _ _ _ _ _ hinv h := (tryAccept_eq_ok hinv).mpr h

theorem finalize_iff (hinv : Inv digest checks rootDigest before v) :
    (∃ u, v.finalize = .ok u) ↔ (Directory.merkle digest checks).Complete rootDigest before := by
  have hempty : v.pendingDirectories = ∅ ↔
      (Directory.merkle digest checks).Complete rootDigest before := by
    simp only [Finset.eq_empty_iff_forall_notMem, hinv.pending, not_and_not_right]
    rfl
  rw [← hempty]
  unfold finalize
  by_cases h : v.pendingDirectories = ∅
  · rw [if_pos h]
    exact iff_of_true ⟨(), rfl⟩ h
  · rw [if_neg h]
    simp only [reduceCtorEq, exists_false, h]

/-- A validator accepts the sequences that start from the root, are complete, and have every
    directory with the size that was claimed last before it. -/
theorem accepts_iff (hfree : (Directory.merkle digest checks).CollisionFree directories) :
    (∃ u, (acceptAll digest checks rootDigest directories >>= finalize) = .ok u) ↔
      (Directory.merkle digest checks).TopDown rootDigest directories ∧
        (Directory.merkle digest checks).Complete rootDigest directories :=
  (decides hfree).run_iff inv_new fun _ _ hinv => finalize_iff hinv

end

end RootToLeavesValidator

end Snix.Castore
