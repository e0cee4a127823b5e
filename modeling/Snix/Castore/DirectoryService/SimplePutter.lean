import Snix.Castore.DirectoryService.DirectoryGraph.Drain
import Snix.Lib.Effect

/-!
# Putting directories one by one

Directories are collected in a graph, and put into the store when the last of them
was given, each of them after those it contains. So the store is closed under
references at every moment, wherever the puts break off.

## Main definitions

- `SimplePutter` — `put` and `close`
- `ClosedStore` — everything that a directory refers to is in the store

## Main results

- `close_spec` — what is put, and that the store stays closed
-/

namespace Snix.Castore

inductive PutterError where
  | alreadyClosed
  | unexpectedDigest (expected actual : B3Digest)
  | ordering (fault : Fault)
  | service
  | panic (message : String)

/-- Everything that a directory refers to is in the store. -/
def ClosedStore (store : DigestMap Directory) : Prop :=
  ∀ k d, store.lookup k = some d → ∀ child ∈ d.children, (store.lookup child.2.1).isSome

section

variable (digest : Directory → B3Digest)

/-- Puts the directories one after the other. The outcomes are those of the puts from the `k`-th
    on. -/
def putAll (outcome : ℕ → PutOutcome) :
    ℕ → List Directory → DigestMap Directory → Except PutterError Unit × DigestMap Directory
  | _, [], store => (.ok (), store)
  | k, directory :: rest, store =>
    match outcome k with
    | .stored => putAll outcome (k + 1) rest (store.insert (digest directory) directory)
    | .refused => (.error .service, store)
    | .storedAndFailed => (.error .service, store.insert (digest directory) directory)

end

structure SimplePutter where
  builder : Option DirectoryGraphBuilder

namespace SimplePutter

def new : SimplePutter := ⟨some .newLeavesToRoot⟩

section

variable (digest : Directory → B3Digest) (checks debug : Bool)
  (bfs dfsPostOrder : DiGraph Directory → ℕ → List ℕ)

def put (p : SimplePutter) (directory : Directory) : Except PutterError SimplePutter :=
  match p.builder with
  | none => .error .alreadyClosed
  | some builder =>
    match builder.tryInsert digest checks directory with
    | .error e => .error (.ordering e)
    | .ok builder => .ok ⟨some builder⟩

/-- Puts what was collected into the store, which returns the digests that are expected. -/
def close (outcome : ℕ → PutOutcome) (p : SimplePutter) (store : DigestMap Directory) :
    Except PutterError B3Digest × DigestMap Directory :=
  match p.builder with
  | none => (.error .alreadyClosed, store)
  | some builder =>
    match builder.build digest debug with
    | .error e => (.error (.ordering e), store)
    | .ok graph =>
      match graph.root with
      | none => (.error (.panic "Snix bug: root not found"), store)
      | some root =>
        match graph.drain bfs dfsPostOrder .leavesToRoot with
        | none => (.error (.panic "index out of bounds"), store)
        | some directories =>
          match putAll digest outcome 0 directories store with
          | (.error e, store) => (.error e, store)
          | (.ok (), store) => (.ok (digest root), store)

/-- Puts all of the directories. -/
def putMultiple (p : SimplePutter) (directories : List Directory) : Except PutterError SimplePutter :=
  directories.foldlM (put digest checks) p

end

variable {digest : Directory → B3Digest} {checks debug : Bool}
  {bfs dfsPostOrder : DiGraph Directory → ℕ → List ℕ} {directories : List Directory}

theorem putMultiple_of_insertAll {b b' : DirectoryGraphBuilder}
    (h : b.insertAll digest checks directories = .ok b') :
    putMultiple digest checks ⟨some b⟩ directories = .ok ⟨some b'⟩ := by
  induction directories generalizing b with
  | nil =>
    cases h
    rfl
  | cons d directories ih =>
    unfold DirectoryGraphBuilder.insertAll at h
    rw [List.foldlM_cons] at h
    cases hd : b.tryInsert digest checks d with
    | error e =>
      rw [hd] at h
      cases h
    | ok b₁ =>
      rw [hd] at h
      unfold putMultiple
      rw [List.foldlM_cons]
      simp only [put, hd]
      exact ih h

end SimplePutter

-- ====================
-- The store stays closed
-- ====================

section

variable {digest : Directory → B3Digest} {checks : Bool} {store : DigestMap Directory}

/-- A directory all of whose entries are there can be put. -/
theorem ClosedStore.insert (h : ClosedStore store) {d : Directory}
    (hd : ∀ child ∈ d.children, (store.lookup child.2.1).isSome) :
    ClosedStore (store.insert (digest d) d) := by
  intro k d' hd' child hchild
  have hstored : (store.lookup child.2.1).isSome := by
    by_cases hk : k = digest d
    · subst hk
      rw [AList.lookup_insert, Option.some.injEq] at hd'
      subst hd'
      exact hd child hchild
    · rw [AList.lookup_insert_ne hk] at hd'
      exact h k d' hd' child hchild
  by_cases hchild' : child.2.1 = digest d
  · rw [hchild', AList.lookup_insert]
    rfl
  · rwa [AList.lookup_insert_ne hchild']

/-- Puts that break off at any point leave a store closed that was closed before. -/
theorem closedStore_putAll {outcome : ℕ → PutOutcome} {before rest : List Directory}
    (hbottomUp : (Directory.merkle digest checks).BottomUp (before ++ rest))
    (hbefore : ∀ d ∈ before, (store.lookup (digest d)).isSome) (h : ClosedStore store) (k : ℕ) :
    ClosedStore (putAll digest outcome k rest store).2 := by
  induction rest generalizing before store k with
  | nil => exact h
  | cons d rest ih =>
    have hchildren : ∀ child ∈ d.children, (store.lookup child.2.1).isSome := by
      intro child hchild
      obtain ⟨-, hheld⟩ := hbottomUp before d rest rfl
      obtain ⟨b, hb, hkey, -⟩ := hheld child.2 (List.mem_map_of_mem hchild)
      have hkey' : digest b = child.2.1 := hkey
      rw [← hkey']
      exact hbefore b hb
    have hinsert : ClosedStore (store.insert (digest d) d) := h.insert hchildren
    unfold putAll
    cases outcome k with
    | refused => exact h
    | storedAndFailed => exact hinsert
    | stored =>
      dsimp only
      rw [List.append_cons] at hbottomUp
      apply ih hbottomUp _ hinsert
      intro b hb
      by_cases hkey : digest b = digest d
      · rw [hkey, AList.lookup_insert]
        rfl
      · rw [AList.lookup_insert_ne hkey]
        rcases List.mem_append.mp hb with hb | hb
        · exact hbefore b hb
        · rw [List.mem_singleton.mp hb] at hkey
          exact absurd rfl hkey

/-- What is in the store afterwards was there or was put. -/
theorem lookup_putAll {outcome : ℕ → PutOutcome} {l : List Directory} {k : ℕ} {key : B3Digest}
    {d : Directory} (h : (putAll digest outcome k l store).2.lookup key = some d) :
    store.lookup key = some d ∨ d ∈ l ∧ digest d = key := by
  induction l generalizing store k with
  | nil => exact .inl h
  | cons a l ih =>
    -- one more directory in the store
    have hinsert : (store.insert (digest a) a).lookup key = some d →
        store.lookup key = some d ∨ d ∈ a :: l ∧ digest d = key := by
      intro hd
      by_cases hkey : key = digest a
      · subst hkey
        rw [AList.lookup_insert, Option.some.injEq] at hd
        subst hd
        exact .inr ⟨List.mem_cons_self, rfl⟩
      · rw [AList.lookup_insert_ne hkey] at hd
        exact .inl hd
    unfold putAll at h
    cases houtcome : outcome k with
    | refused =>
      rw [houtcome] at h
      exact .inl h
    | storedAndFailed =>
      rw [houtcome] at h
      exact hinsert h
    | stored =>
      rw [houtcome] at h
      rcases ih h with h | ⟨hmem, hkey⟩
      · exact hinsert h
      · exact .inr ⟨List.mem_cons_of_mem a hmem, hkey⟩

variable {debug : Bool} {bfs dfsPostOrder : DiGraph Directory → ℕ → List ℕ}

open DirectoryGraphBuilder in
/-- What is put when a putter is closed that has received a graph from the leaves to the root. Only
    directories of the graph come to the store, and a store that was closed stays closed, wherever
    the puts break off. -/
theorem SimplePutter.close_spec {directories : List Directory} {b : DirectoryGraphBuilder}
    {g : DirectoryGraph} (hfree : (Directory.merkle digest checks).CollisionFree directories)
    (hinsert : newLeavesToRoot.insertAll digest checks directories = .ok b)
    (hbuild : b.build digest debug = .ok g)
    (hdfs : ∀ g : DiGraph Directory, g.Acyclic → ∀ root, g.IsPostOrder root (dfsPostOrder g root))
    (outcome : ℕ → PutOutcome) (h : ClosedStore store) :
    ∃ r store', close digest debug bfs dfsPostOrder outcome ⟨some b⟩ store = (r, store') ∧
      ClosedStore store' ∧ (∀ key d, store'.lookup key = some d →
        store.lookup key = some d ∨ d ∈ directories ∧ digest d = key) := by
  have hok : (newLeavesToRoot.insertAll digest checks directories >>= build digest debug) = .ok g := by
    rw [hinsert]
    exact hbuild
  obtain ⟨-, root, hroot, -⟩ := root_of_build hfree (.inl rfl) hok
  obtain ⟨out, hdrain, -, hmem, hbottomUp⟩ := drain_leavesToRoot bfs dfsPostOrder hfree (.inl rfl) hok
    fun hacyclic => hdfs _ hacyclic _
  have hclosed : ClosedStore (putAll digest outcome 0 out store).2 := by
    apply @closedStore_putAll digest checks store outcome [] out hbottomUp
    · intro d hd
      cases hd
    · exact h
  have hlookup : ∀ key d, (putAll digest outcome 0 out store).2.lookup key = some d →
      store.lookup key = some d ∨ d ∈ directories ∧ digest d = key := by
    intro key d hd
    rcases lookup_putAll hd with hd | ⟨hd, hkey⟩
    · exact .inl hd
    · exact .inr ⟨(hmem d).mp hd, hkey⟩
  unfold close
  simp only [hbuild, hroot, hdrain]
  cases hput : putAll digest outcome 0 out store with
  | mk r store' =>
    rw [hput] at hclosed hlookup
    cases r with
    | error e => exact ⟨_, store', rfl, hclosed, hlookup⟩
    | ok u => exact ⟨_, store', rfl, hclosed, hlookup⟩

end

end Snix.Castore
