import Snix.Castore.Node
import Snix.Lib.MachineInt
import Snix.Lib.SortedMap

/-!
# Directories

A directory is a map from names to nodes. Its size counts its entries and, for
each entry that is a directory itself, the size recorded there. Sizes are 64-bit
numbers; the functions that add entries check that the size still fits.

The size that `Directory.size` computes counts every entry twice, and its sum is
not checked in a program without overflow checks.

## Main definitions

- `Directory`, `tryFromIter`, `add` — directories and how they are built
- `Directory.size` — the size as the program computes it
- `Directory.total` — the entries, and the sizes recorded in them

## Main results

- `size_eq` — what the program computes
- `tryFromIter_eq_ok_iff` — what can be built from a list
-/

namespace Snix.Castore

inductive ValidateNodeError where
  | invalidDigestLen (len : ℕ)
  | invalidSymlinkTarget (e : SymlinkTargetError)
  | invalidHashType

inductive DirectoryError where
  | duplicateName (name : PathComponent)
  | invalidNode (name : Bytes) (e : ValidateNodeError)
  | sizeOverflow
  | invalidName (e : PathComponentError)
  | nameInAnonymousNode
  | wrongSorting (name : Bytes)
  | noEntrySet

/-- A directory. -/
structure Directory where
  nodes : SortedMap PathComponent.cmp Node

/-- The size that a node records of the directory it points to. -/
def Node.childSize : Node → ℕ
  | .directory _ size => size.toNat
  | _ => 0

namespace Directory

@[ext] theorem ext {d d' : Directory} (h : d.nodes = d'.nodes) : d = d' := by
  cases d
  cases d'
  exact congrArg Directory.mk h

/-- An empty directory. -/
def new : Directory := ⟨.empty⟩

/-- What an entry adds to the sum in `size`. -/
def sizeTerm (checks : Bool) : Node → Option ℕ
  | .directory _ size => addU64 checks 1 size.toNat
  | _ => some 1

/-- The size of a directory; none if the program panics. -/
def size (checks : Bool) (d : Directory) : Option ℕ := do
  let sum ← d.nodes.entries.foldlM
    (fun acc e => do
      let term ← sizeTerm checks e.2
      addU64 checks acc term) 0
  addU64 checks d.nodes.entries.length sum

/-- Inserts a node after checking that the size still fits and that the name is new. Returns
    the new size. -/
def checkInsertNode (currentSize : ℕ) (nodes : SortedMap PathComponent.cmp Node)
    (name : PathComponent) (node : Node) :
    Except DirectoryError (ℕ × SortedMap PathComponent.cmp Node) :=
  match sumU64 true [currentSize, 1, node.childSize] with
  | none => .error .sizeOverflow
  | some newSize =>
    if nodes.contains name then .error (.duplicateName name)
    else .ok (newSize, nodes.insert name node)

/-- Inserts the nodes of a list, with the size so far. -/
def insertAll : List (PathComponent × Node) → ℕ × SortedMap PathComponent.cmp Node →
    Except DirectoryError (ℕ × SortedMap PathComponent.cmp Node)
  | [], s => .ok s
  | (name, node) :: rest, (size, nodes) => do
    let s ← checkInsertNode size nodes name node
    insertAll rest s

def tryFromIter (l : List (PathComponent × Node)) : Except DirectoryError Directory := do
  let (_, nodes) ← insertAll l (0, .empty)
  .ok ⟨nodes⟩

/-- Adds a node; none if computing the size panics. -/
def add (checks : Bool) (name : PathComponent) (node : Node) (d : Directory) :
    Option (Except DirectoryError Directory) := do
  let currentSize ← d.size checks
  some do
    let (_, nodes) ← checkInsertNode currentSize d.nodes name node
    .ok ⟨nodes⟩

/-- The directories that a program can build. -/
inductive Built (checks : Bool) : Directory → Prop
  | tryFromIter {l : List (PathComponent × Node)} {d : Directory} :
    Directory.tryFromIter l = .ok d → Built checks d
  | add {name : PathComponent} {node : Node} {d d' : Directory} :
    Built checks d → d.add checks name node = some (.ok d') → Built checks d'

-- ====================
-- Sizes
-- ====================

/-- The number of entries of a list, and the sizes recorded in them. -/
def weight (l : List (PathComponent × Node)) : ℕ := (l.map fun e => 1 + e.2.childSize).sum

/-- The number of entries of a directory, and the sizes recorded in them. -/
def total (d : Directory) : ℕ := weight d.nodes.entries

theorem weight_cons (e : PathComponent × Node) (l : List (PathComponent × Node)) :
    weight (e :: l) = 1 + e.2.childSize + weight l := List.sum_cons

theorem length_le_weight (l : List (PathComponent × Node)) : l.length ≤ weight l := by
  induction l with
  | nil => exact le_rfl
  | cons e l ih =>
    rw [weight_cons, List.length_cons]
    omega

theorem weight_perm {l l' : List (PathComponent × Node)} (h : l.Perm l') : weight l = weight l' :=
  (h.map _).sum_eq

theorem sizeTerm_eq (checks : Bool) (node : Node) :
    sizeTerm checks node = fitU64 checks (1 + node.childSize) := by
  cases node with
  | directory digest size => rfl
  | file digest size executable => exact (fitU64_of_lt (by decide)).symm
  | symlink target => exact (fitU64_of_lt (by decide)).symm

theorem foldlM_sizeTerm (checks : Bool) (l : List (PathComponent × Node)) (a : ℕ) :
    ((fitU64 checks a).bind fun acc => l.foldlM
      (fun acc e => do
        let term ← sizeTerm checks e.2
        addU64 checks acc term) acc) = fitU64 checks (a + weight l) := by
  induction l generalizing a with
  | nil => exact Option.bind_fun_some _
  | cons e l ih =>
    have hstep : ∀ acc : ℕ, ((sizeTerm checks e.2).bind fun term => addU64 checks acc term) =
        fitU64 checks (acc + (1 + e.2.childSize)) := by
      intro acc
      rw [sizeTerm_eq]
      have h := fitU64_bind checks (1 + e.2.childSize) acc
      simp only [Nat.add_comm _ acc] at h
      exact h
    rw [weight_cons, ← Nat.add_assoc, ← ih (a + (1 + e.2.childSize)),
      ← fitU64_bind checks a (1 + e.2.childSize), Option.bind_assoc]
    congr 1
    funext acc
    rw [List.foldlM_cons, ← hstep acc]
    rfl

/-- The program counts every entry twice. -/
theorem size_eq (checks : Bool) (d : Directory) :
    d.size checks = fitU64 checks (d.nodes.entries.length + d.total) := by
  have hsum := foldlM_sizeTerm checks d.nodes.entries 0
  rw [fitU64_of_lt (by decide), Option.bind_some, Nat.zero_add] at hsum
  unfold size
  rw [hsum]
  have h := fitU64_bind checks d.total d.nodes.entries.length
  simp only [Nat.add_comm _ d.nodes.entries.length] at h
  exact h

-- ====================
-- Building
-- ====================

section

variable {size : ℕ} {m m' : SortedMap PathComponent.cmp Node} {l : List (PathComponent × Node)}

theorem checkInsertNode_eq_ok {name : PathComponent} {node : Node}
    {s : ℕ × SortedMap PathComponent.cmp Node} :
    checkInsertNode size m name node = .ok s ↔
      size + (1 + node.childSize) < 2 ^ 64 ∧ m.contains name = false ∧
        s = (size + (1 + node.childSize), m.insert name node) := by
  have hsum : [size, 1, node.childSize].sum = size + (1 + node.childSize) := rfl
  unfold checkInsertNode
  rw [sumU64_eq, hsum]
  by_cases h : size + (1 + node.childSize) < 2 ^ 64
  · rw [fitU64_of_lt h]
    cases hc : m.contains name with
    | true => simp only [if_true, reduceCtorEq, false_and, and_false]
    | false =>
      simp only [Bool.false_eq_true, if_false, Except.ok.injEq, h, true_and]
      exact eq_comm
  · rw [fitU64, if_neg h, if_pos rfl]
    simp only [h, false_and, reduceCtorEq]

/-- Whatever is inserted is kept, and its size fits. -/
theorem perm_of_insertAll {s : ℕ × SortedMap PathComponent.cmp Node} (hsize : size < 2 ^ 64)
    (h : insertAll l (size, m) = .ok s) :
    s.2.entries.Perm (l ++ m.entries) ∧ size + weight l < 2 ^ 64 := by
  induction l generalizing size m with
  | nil =>
    cases h
    exact ⟨.refl _, hsize⟩
  | cons e l ih =>
    obtain ⟨name, node⟩ := e
    rw [insertAll] at h
    cases hins : checkInsertNode size m name node with
    | error err =>
      rw [hins] at h
      cases h
    | ok s' =>
      rw [hins] at h
      obtain ⟨hlt, hnew, rfl⟩ := checkInsertNode_eq_ok.mp hins
      obtain ⟨hperm, hsum⟩ := ih hlt h
      rw [weight_cons, ← Nat.add_assoc]
      refine ⟨hperm.trans ?_, hsum⟩
      exact ((SortedMap.insert_perm hnew).append_left l).trans List.perm_middle

/-- The entries of a directory can be inserted in any order when their size fits. -/
theorem insertAll_of_perm (hperm : (l ++ m.entries).Perm m'.entries)
    (hsize : size + weight l < 2 ^ 64) :
    insertAll l (size, m) = .ok (size + weight l, m') := by
  induction l generalizing size m with
  | nil => exact congrArg (fun m => Except.ok (size, m)) (SortedMap.eq_of_perm hperm)
  | cons e l ih =>
    obtain ⟨name, node⟩ := e
    rw [weight_cons, ← Nat.add_assoc] at hsize ⊢
    have hnew : m.contains name = false :=
      SortedMap.contains_eq_false.mpr fun y hy =>
        SortedMap.cmp_ne_eq_of_nodup (l := l ++ m.entries) hperm y (List.mem_append_right l hy)
    rw [insertAll, checkInsertNode_eq_ok.mpr ⟨by dsimp only at hsize; omega, hnew, rfl⟩]
    apply ih (List.Perm.trans ?_ hperm) hsize
    exact ((SortedMap.insert_perm hnew).append_left l).trans List.perm_middle

end

/-- A directory can be built from a list if the list has its entries and their size fits. -/
theorem tryFromIter_eq_ok_iff {l : List (PathComponent × Node)} {d : Directory} :
    tryFromIter l = .ok d ↔ l.Perm d.nodes.entries ∧ weight l < 2 ^ 64 := by
  constructor
  · intro h
    unfold tryFromIter at h
    cases hins : insertAll l (0, .empty) with
    | error e =>
      rw [hins] at h
      cases h
    | ok s =>
      rw [hins] at h
      cases h
      obtain ⟨hperm, hlt⟩ := perm_of_insertAll (by decide) hins
      rw [Nat.zero_add] at hlt
      rw [SortedMap.empty, List.append_nil] at hperm
      exact ⟨hperm.symm, hlt⟩
  · rintro ⟨hperm, hlt⟩
    unfold tryFromIter
    have hperm' : (l ++ (SortedMap.empty : SortedMap PathComponent.cmp Node).entries).Perm
        d.nodes.entries := by
      rw [SortedMap.empty, List.append_nil]
      exact hperm
    rw [insertAll_of_perm hperm' (by omega)]
    rfl

theorem add_eq_ok {checks : Bool} {name : PathComponent} {node : Node} {d : Directory}
    {currentSize : ℕ} (hsize : d.size checks = some currentSize)
    (hlt : currentSize + (1 + node.childSize) < 2 ^ 64) (hnew : d.nodes.contains name = false) :
    d.add checks name node = some (.ok ⟨d.nodes.insert name node⟩) := by
  unfold add
  rw [hsize, Option.bind_eq_bind, Option.bind_some, checkInsertNode_eq_ok.mpr ⟨hlt, hnew, rfl⟩]
  rfl

/-- A node that is added is kept, and fits with the size before. -/
theorem perm_of_add {checks : Bool} {name : PathComponent} {node : Node} {d d' : Directory}
    (h : d.add checks name node = some (.ok d')) :
    ∃ currentSize, d.size checks = some currentSize ∧
      currentSize + (1 + node.childSize) < 2 ^ 64 ∧
      d'.nodes.entries.Perm ((name, node) :: d.nodes.entries) := by
  unfold add at h
  cases hsize : d.size checks with
  | none =>
    rw [hsize] at h
    cases h
  | some currentSize =>
    rw [hsize, Option.bind_eq_bind, Option.bind_some] at h
    refine ⟨currentSize, rfl, ?_⟩
    cases hins : checkInsertNode currentSize d.nodes name node with
    | error e =>
      rw [hins] at h
      cases h
    | ok s =>
      rw [hins] at h
      cases h
      obtain ⟨hlt, hnew, rfl⟩ := checkInsertNode_eq_ok.mp hins
      exact ⟨hlt, SortedMap.insert_perm hnew⟩

/-- Adding a node adds to the total. -/
theorem total_of_add {checks : Bool} {name : PathComponent} {node : Node} {d d' : Directory}
    (h : d.add checks name node = some (.ok d')) :
    ∃ currentSize, d.size checks = some currentSize ∧
      currentSize + (1 + node.childSize) < 2 ^ 64 ∧
      d'.total = 1 + node.childSize + d.total := by
  obtain ⟨currentSize, hsize, hlt, hperm⟩ := perm_of_add h
  exact ⟨currentSize, hsize, hlt, (weight_perm hperm).trans (weight_cons _ _)⟩

/-- With overflow checks the size of a directory always fits. -/
theorem Built.total_lt {d : Directory} (h : Built true d) : d.total < 2 ^ 64 := by
  cases h with
  | tryFromIter h =>
    obtain ⟨hperm, hlt⟩ := tryFromIter_eq_ok_iff.mp h
    rw [weight_perm hperm] at hlt
    exact hlt
  | add hd h =>
    obtain ⟨currentSize, hsize, hlt, htotal⟩ := total_of_add h
    rw [size_eq] at hsize
    obtain ⟨rfl, -⟩ := fitU64_true_eq_some.mp hsize
    omega

-- ====================
-- Overflows
-- ====================

/-- What an addition leaves for the next one, as long as nodes are accepted. -/
def addNext (checks : Bool) (e : PathComponent × Node) :
    Except DirectoryError Directory → Option (Except DirectoryError Directory)
  | .ok d => d.add checks e.1 e.2
  | .error err => some (.error err)

/-- A directory made of a list, to which further nodes are added one by one. -/
def build (checks : Bool) (l adds : List (PathComponent × Node)) :
    Option (Except DirectoryError Directory) :=
  adds.foldlM (fun x e => addNext checks e x) (tryFromIter l)

/-- None of the sums in `size` overflows. -/
def SizeFits (d : Directory) : Prop := ∃ s, d.size true = some s

theorem perm_of_addNext {checks : Bool} {adds : List (PathComponent × Node)}
    {x : Except DirectoryError Directory} {d' : Directory}
    (h : adds.foldlM (fun x e => addNext checks e x) x = some (.ok d')) :
    ∃ d, x = .ok d ∧ d'.nodes.entries.Perm (d.nodes.entries ++ adds) := by
  induction adds generalizing x with
  | nil =>
    cases h
    exact ⟨d', rfl, List.Perm.of_eq (List.append_nil _).symm⟩
  | cons e adds ih =>
    obtain ⟨x₁, hadd, h⟩ := Option.bind_eq_some_iff.mp h
    obtain ⟨d₁, rfl, hperm⟩ := ih h
    cases x with
    | error err => cases hadd
    | ok d =>
      obtain ⟨-, -, -, hperm₁⟩ := perm_of_add hadd
      exact ⟨d, rfl, (hperm.trans (hperm₁.append_right adds)).trans List.perm_middle.symm⟩

theorem perm_of_build {checks : Bool} {l adds : List (PathComponent × Node)} {d : Directory}
    (h : build checks l adds = some (.ok d)) : d.nodes.entries.Perm (l ++ adds) := by
  obtain ⟨d₀, hd₀, hperm⟩ := perm_of_addNext h
  exact hperm.trans ((tryFromIter_eq_ok_iff.mp hd₀).1.symm.append_right adds)

theorem sizeFits_iff {d : Directory} :
    d.SizeFits ↔ d.nodes.entries.length + d.total < 2 ^ 64 := by
  unfold SizeFits
  rw [size_eq]
  constructor
  · rintro ⟨s, hs⟩
    exact (fitU64_true_eq_some.mp hs).2
  · intro h
    exact ⟨_, fitU64_true_eq_some.mpr ⟨rfl, h⟩⟩

theorem weight_eq (l : List (PathComponent × Node)) :
    weight l = l.length + (l.map fun e => e.2.childSize).sum := by
  induction l with
  | nil => rfl
  | cons e l ih =>
    rw [weight_cons, ih, List.length_cons, List.map_cons, List.sum_cons]
    omega

/-- The size of what is built from accepted entries overflows exactly if it does when every entry
    is counted twice. -/
theorem sizeFits_build_iff {checks : Bool} {l adds : List (PathComponent × Node)} {d : Directory}
    (h : build checks l adds = some (.ok d)) :
    d.SizeFits ↔
      2 * (l ++ adds).length + ((l ++ adds).map fun e => e.2.childSize).sum < 2 ^ 64 := by
  have hperm := perm_of_build h
  rw [sizeFits_iff, total, weight_perm hperm, hperm.length_eq, weight_eq, ← Nat.add_assoc,
    ← Nat.two_mul]

theorem validateName_containing : validateName [97] = .ok () := by rfl

/-- A directory of this size, as an entry of another one. -/
def containing (size : UInt64) : List (PathComponent × Node) :=
  [(⟨[97], validateName_containing⟩, .directory (List.Vector.replicate 32 0) size)]

theorem build_containing {size : UInt64} (h : 1 + size.toNat < 2 ^ 64) :
    ∃ d, build true (containing size) [] = some (.ok d) := by
  let d : Directory :=
    ⟨SortedMap.empty.insert ⟨[97], validateName_containing⟩ (.directory (List.Vector.replicate 32 0) size)⟩
  have hok : tryFromIter (containing size) = .ok d := by
    apply tryFromIter_eq_ok_iff.mpr
    exact ⟨.refl _, by simpa [weight, containing, Node.childSize] using h⟩
  exact ⟨d, congrArg some hok⟩

theorem sizeFits_build_containing :
    ∃ d, build true (containing 7) [] = some (.ok d) ∧ d.SizeFits := by
  obtain ⟨d, hd⟩ := @build_containing 7 (by decide)
  exact ⟨d, hd, (sizeFits_build_iff hd).mpr (by decide)⟩

/-- The entry is accepted, and the size of the directory overflows. -/
theorem sizeFits_fails_containing :
    ∃ d, build true (containing 0xfffffffffffffffe) [] = some (.ok d) ∧ ¬ d.SizeFits := by
  obtain ⟨d, hd⟩ := @build_containing 0xfffffffffffffffe (by decide)
  refine ⟨d, hd, ?_⟩
  rw [sizeFits_build_iff hd]
  decide

end Directory

end Snix.Castore
