import Snix.Castore.Directory

/-!
# Directories as protobuf messages

The message keeps the directories, files and symlinks of a directory in three
lists, each in ascending order of the names. The digest of a directory is the
digest of its message, so a message has to be accepted in one form only.

## Main definitions

- `Proto.Directory`, `Proto.Directory.size` — the message and its size
- `Proto.Directory.tryFrom`, `Proto.Directory.ofDirectory` — the conversions

## Main results

- `size_agrees_iff` — when both types compute the same size
- `conversion_iff` — the conversions are inverse to each other when the size fits
-/

namespace Snix.Castore.Proto

structure DirectoryEntry where
  name : Bytes
  digest : Bytes
  size : UInt64

structure FileEntry where
  name : Bytes
  digest : Bytes
  size : UInt64
  executable : Bool

structure SymlinkEntry where
  name : Bytes
  target : Bytes

/-- The message of a directory. -/
structure Directory where
  directories : List DirectoryEntry
  files : List FileEntry
  symlinks : List SymlinkEntry

/-- An entry of any kind. -/
inductive Entry where
  | directory (e : DirectoryEntry)
  | file (e : FileEntry)
  | symlink (e : SymlinkEntry)

-- ====================
-- From the message
-- ====================

namespace Entry

/-- Checks the node of an entry, and leaves its name unchecked. -/
def tryIntoUncheckedNameAndCheckedNode : Entry → Except DirectoryError (Bytes × Node)
  | .directory n =>
    match B3Digest.tryFrom n.digest with
    | none => .error (.invalidNode n.name (.invalidDigestLen n.digest.length))
    | some digest => .ok (n.name, .directory digest n.size)
  | .file n =>
    match B3Digest.tryFrom n.digest with
    | none => .error (.invalidNode n.name (.invalidDigestLen n.digest.length))
    | some digest => .ok (n.name, .file digest n.size n.executable)
  | .symlink n =>
    match SymlinkTarget.tryFrom n.target with
    | .error e => .error (.invalidNode n.name (.invalidSymlinkTarget e))
    | .ok target => .ok (n.name, .symlink target)

def tryIntoNameAndNode (e : Entry) : Except DirectoryError (PathComponent × Node) := do
  let (nameBytes, node) ← e.tryIntoUncheckedNameAndCheckedNode
  match PathComponent.tryFrom nameBytes with
  | .error e => .error (.invalidName e)
  | .ok name => .ok (name, node)

/-- The entry of a node with a name. -/
def fromNameAndNode (name : Bytes) : Node → Entry
  | .directory digest size => .directory ⟨name, digest.val, size⟩
  | .file digest size executable => .file ⟨name, digest.val, size, executable⟩
  | .symlink target => .symlink ⟨name, target.val⟩

theorem tryIntoUnchecked_fromNameAndNode (name : Bytes) (node : Node) :
    (fromNameAndNode name node).tryIntoUncheckedNameAndCheckedNode = .ok (name, node) := by
  cases node <;>
    simp only [fromNameAndNode, tryIntoUncheckedNameAndCheckedNode, B3Digest.tryFrom_val,
      SymlinkTarget.tryFrom_val]

theorem fromNameAndNode_of_tryIntoUnchecked {e : Entry} {x : Bytes × Node}
    (h : e.tryIntoUncheckedNameAndCheckedNode = .ok x) : fromNameAndNode x.1 x.2 = e := by
  unfold tryIntoUncheckedNameAndCheckedNode at h
  split at h
  · split at h
    · cases h
    · next n digest hdigest =>
      cases h
      rw [fromNameAndNode, B3Digest.val_of_tryFrom hdigest]
  · split at h
    · cases h
    · next n digest hdigest =>
      cases h
      rw [fromNameAndNode, B3Digest.val_of_tryFrom hdigest]
  · split at h
    · cases h
    · next n target htarget =>
      cases h
      rw [fromNameAndNode, SymlinkTarget.val_of_tryFrom htarget]

/-- The conversion accepts exactly the entries of nodes with a name. -/
theorem tryIntoNameAndNode_eq_ok_iff {e : Entry} {x : PathComponent × Node} :
    e.tryIntoNameAndNode = .ok x ↔ fromNameAndNode x.1.val x.2 = e := by
  unfold tryIntoNameAndNode
  constructor
  · intro h
    cases hunchecked : e.tryIntoUncheckedNameAndCheckedNode with
    | error err =>
      rw [hunchecked] at h
      cases h
    | ok y =>
      rw [hunchecked] at h
      obtain ⟨nameBytes, node⟩ := y
      dsimp only [bind, Except.bind] at h
      split at h
      · cases h
      · next name hname =>
        cases h
        rw [← fromNameAndNode_of_tryIntoUnchecked hunchecked, PathComponent.val_of_tryFrom hname]
  · rintro rfl
    rw [tryIntoUnchecked_fromNameAndNode]
    show (match PathComponent.tryFrom x.1.val with | .error e => _ | .ok name => _) = _
    rw [PathComponent.tryFrom_val]

end Entry

/-- Checks that names ascend, from the previous one on. -/
def checkSorted (prevName : Bytes) : List Bytes → Except DirectoryError Unit
  | [] => .ok ()
  | name :: rest =>
    match compare name prevName with
    | .lt => .error (.wrongSorting name)
    | .eq =>
      match PathComponent.tryFrom name with
      | .error e => .error (.invalidName e)
      | .ok name => .error (.duplicateName name)
    | .gt => checkSorted name rest

namespace Directory

/-- The entries in the order in which they are converted. -/
def entries (p : Directory) : List Entry :=
  p.directories.map .directory ++ p.files.map .file ++ p.symlinks.map .symlink

def tryFrom (p : Directory) : Except DirectoryError Castore.Directory := do
  checkSorted [] (p.directories.map (·.name))
  checkSorted [] (p.files.map (·.name))
  checkSorted [] (p.symlinks.map (·.name))
  let elems ← p.entries.mapM Entry.tryIntoNameAndNode
  Castore.Directory.tryFromIter elems

/-- The size of the message, if it fits. -/
def sizeChecked (p : Directory) : Option ℕ := do
  let sizes ← sumU64 true (p.directories.map (·.size.toNat))
  sumU64 true [p.files.length, p.symlinks.length, p.directories.length, sizes]

/-- The size of the message; none if the program panics. -/
def size (checks : Bool) (p : Directory) : Option ℕ :=
  if checks then p.sizeChecked else some (p.sizeChecked.getD (2 ^ 64 - 1))

-- ====================
-- To the message
-- ====================

/-- Puts a node in the list of its kind. -/
def push (e : PathComponent × Node) (p : Directory) : Directory :=
  match e with
  | (name, .file digest size executable) =>
    { p with files := p.files ++ [⟨name.val, digest.val, size, executable⟩] }
  | (name, .directory digest size) =>
    { p with directories := p.directories ++ [⟨name.val, digest.val, size⟩] }
  | (name, .symlink target) => { p with symlinks := p.symlinks ++ [⟨name.val, target.val⟩] }

def ofDirectory (d : Castore.Directory) : Directory :=
  d.nodes.entries.foldl (fun p e => p.push e) ⟨[], [], []⟩

-- ====================
-- The three lists
-- ====================

/-- The message of an entry, if it is a directory. -/
def asDirectory : PathComponent × Node → Option DirectoryEntry
  | (name, .directory digest size) => some ⟨name.val, digest.val, size⟩
  | _ => none

/-- The message of an entry, if it is a file. -/
def asFile : PathComponent × Node → Option FileEntry
  | (name, .file digest size executable) => some ⟨name.val, digest.val, size, executable⟩
  | _ => none

/-- The message of an entry, if it is a symlink. -/
def asSymlink : PathComponent × Node → Option SymlinkEntry
  | (name, .symlink target) => some ⟨name.val, target.val⟩
  | _ => none

theorem foldl_push (l : List (PathComponent × Node)) (p : Directory) :
    l.foldl (fun p e => p.push e) p =
      ⟨p.directories ++ l.filterMap asDirectory, p.files ++ l.filterMap asFile,
        p.symlinks ++ l.filterMap asSymlink⟩ := by
  induction l generalizing p with
  | nil => simp only [List.foldl_nil, List.filterMap_nil, List.append_nil]
  | cons e l ih =>
    obtain ⟨name, node⟩ := e
    rw [List.foldl_cons, ih]
    cases node <;>
      simp only [push, asDirectory, asFile, asSymlink, List.filterMap_cons, List.append_assoc,
        List.singleton_append]

theorem ofDirectory_eq (d : Castore.Directory) :
    ofDirectory d =
      ⟨d.nodes.entries.filterMap asDirectory, d.nodes.entries.filterMap asFile,
        d.nodes.entries.filterMap asSymlink⟩ := by
  rw [ofDirectory, foldl_push]
  simp only [List.nil_append]

theorem length_lists (l : List (PathComponent × Node)) :
    ((l.filterMap asDirectory).map (·.size.toNat)).sum +
        ((l.filterMap asFile).length + (l.filterMap asSymlink).length +
          (l.filterMap asDirectory).length) =
      Castore.Directory.weight l := by
  induction l with
  | nil => rfl
  | cons e l ih =>
    obtain ⟨name, node⟩ := e
    rw [Castore.Directory.weight_cons, ← ih]
    cases node <;>
      simp only [asDirectory, asFile, asSymlink, List.filterMap_cons, List.map_cons, List.sum_cons,
        List.length_cons, Node.childSize] <;> omega

theorem sizeChecked_ofDirectory (d : Castore.Directory) :
    (ofDirectory d).sizeChecked = fitU64 true d.total := by
  have hsum : ∀ a b c s : ℕ, sumU64 true [a, b, c, s] = fitU64 true (s + (a + b + c)) := by
    intro a b c s
    rw [sumU64_eq]
    congr 1
    simp only [List.sum_cons, List.sum_nil]
    omega
  unfold sizeChecked
  simp only [sumU64_eq true (List.map _ _), hsum, Option.bind_eq_bind]
  rw [fitU64_bind, ofDirectory_eq, length_lists]
  rfl

/-- The message has the size that its directory should have. -/
theorem size_ofDirectory {d : Castore.Directory} (h : d.total < 2 ^ 64) (checks : Bool) :
    (ofDirectory d).size checks = some d.total := by
  unfold size
  rw [sizeChecked_ofDirectory, fitU64_of_lt h]
  cases checks <;> rfl

theorem lt_of_size_ofDirectory {d : Castore.Directory} {checks : Bool} {n : ℕ}
    (h : (ofDirectory d).size checks = some n) : n < 2 ^ 64 := by
  unfold size at h
  rw [sizeChecked_ofDirectory] at h
  cases checks with
  | true => exact lt_of_fitU64 h
  | false =>
    cases hfit : fitU64 true d.total with
    | none =>
      rw [hfit] at h
      cases h
      decide
    | some m =>
      rw [hfit] at h
      cases h
      exact lt_of_fitU64 hfit

end Directory

/-- Both types agree on the size of a directory, and count its entries and the sizes recorded in
    them, only when it is empty. -/
theorem size_agrees_iff (checks : Bool) (d : Castore.Directory) :
    (d.size checks = some d.total ∧ (Directory.ofDirectory d).size checks = some d.total) ↔
      d.nodes.entries = [] := by
  have hle : d.nodes.entries.length ≤ d.total := Castore.Directory.length_le_weight _
  constructor
  · rintro ⟨hsize, hproto⟩
    have hlt := Directory.lt_of_size_ofDirectory hproto
    rw [Castore.Directory.size_eq, fitU64] at hsize
    apply List.length_eq_zero_iff.mp
    split_ifs at hsize with hfit
    · have := Option.some.inj hsize
      omega
    · have := Option.some.inj hsize
      omega
  · intro hnil
    have htotal : d.total = 0 := by
      rw [Castore.Directory.total, hnil]
      rfl
    refine ⟨?_, Directory.size_ofDirectory (by omega) checks⟩
    rw [Castore.Directory.size_eq, hnil, htotal]
    exact fitU64_of_lt (by decide)

theorem validateName_a : validateName [97] = .ok () := by rfl

/-- A directory with one file has size two, and its message has size one. -/
theorem size_differs_file :
    let d : Castore.Directory :=
      ⟨SortedMap.empty.insert ⟨[97], validateName_a⟩ (.file (List.Vector.replicate 32 0) 0 false)⟩
    Castore.Directory.tryFromIter
        [(⟨[97], validateName_a⟩, .file (List.Vector.replicate 32 0) 0 false)] = .ok d ∧
      ∀ checks, d.size checks = some 2 ∧ (Directory.ofDirectory d).size checks = some 1 := by
  refine ⟨rfl, fun checks => ?_⟩
  cases checks <;> exact ⟨rfl, rfl⟩

-- ====================
-- Both conversions
-- ====================

/-- Names in ascending order. -/
def Ascending (names : List Bytes) : Prop := names.Pairwise fun a b => compare a b = .lt

theorem checkSorted_eq_ok_iff {prevName : Bytes} {names : List Bytes} :
    checkSorted prevName names = .ok () ↔ Ascending (prevName :: names) := by
  induction names generalizing prevName with
  | nil => exact ⟨fun _ => List.pairwise_singleton _ _, fun _ => rfl⟩
  | cons name rest ih =>
    unfold checkSorted Ascending
    rw [List.pairwise_cons]
    cases hcmp : compare name prevName with
    | lt =>
      refine ⟨nofun, fun h => ?_⟩
      have hgt := Std.OrientedCmp.gt_iff_lt.mpr (h.1 name List.mem_cons_self)
      rw [hcmp] at hgt
      cases hgt
    | eq =>
      constructor
      · intro h
        dsimp only at h
        split at h <;> cases h
      · intro h
        have hgt := Std.OrientedCmp.gt_iff_lt.mpr (h.1 name List.mem_cons_self)
        rw [hcmp] at hgt
        cases hgt
    | gt =>
      have hlt : compare prevName name = .lt := Std.OrientedCmp.gt_iff_lt.mp hcmp
      refine ih.trans ⟨fun h => ⟨fun x hx => ?_, h⟩, And.right⟩
      rcases List.mem_cons.mp hx with rfl | hx
      · exact hlt
      · exact Std.TransCmp.lt_trans hlt ((List.pairwise_cons.mp h).1 x hx)

theorem mapM_tryIntoNameAndNode {l : List Entry} {elems : List (PathComponent × Node)} :
    l.mapM Entry.tryIntoNameAndNode = .ok elems ↔
      elems.map (fun x => Entry.fromNameAndNode x.1.val x.2) = l := by
  induction l generalizing elems with
  | nil =>
    rw [List.mapM_nil, List.map_eq_nil_iff]
    exact ⟨fun h => by cases h; rfl, fun h => by rw [h]; rfl⟩
  | cons e l ih =>
    rw [List.mapM_cons]
    constructor
    · intro h
      cases he : e.tryIntoNameAndNode with
      | error err =>
        rw [he] at h
        cases h
      | ok x =>
        rw [he] at h
        cases hl : l.mapM Entry.tryIntoNameAndNode with
        | error err =>
          rw [hl] at h
          cases h
        | ok xs =>
          rw [hl] at h
          cases h
          rw [List.map_cons, Entry.tryIntoNameAndNode_eq_ok_iff.mp he, ih.mp hl]
    · intro h
      obtain ⟨x, xs, rfl, he, hl⟩ := List.map_eq_cons_iff.mp h
      rw [Entry.tryIntoNameAndNode_eq_ok_iff.mpr he, ih.mpr hl]
      rfl

/-- The lists of a message ascend, and no name is empty. -/
structure Directory.Sorted (p : Directory) : Prop where
  directories : Ascending ([] :: p.directories.map (·.name))
  files : Ascending ([] :: p.files.map (·.name))
  symlinks : Ascending ([] :: p.symlinks.map (·.name))

/-- What the conversion of a message accepts. -/
theorem Directory.tryFrom_eq_ok_iff {p : Directory} {d : Castore.Directory} :
    p.tryFrom = .ok d ↔
      p.Sorted ∧ ∃ elems : List (PathComponent × Node),
        elems.map (fun x => Entry.fromNameAndNode x.1.val x.2) = p.entries ∧
        elems.Perm d.nodes.entries ∧ Castore.Directory.weight elems < 2 ^ 64 := by
  have hsorted : p.Sorted ↔
      checkSorted [] (p.directories.map (·.name)) = .ok () ∧
        checkSorted [] (p.files.map (·.name)) = .ok () ∧
        checkSorted [] (p.symlinks.map (·.name)) = .ok () := by
    rw [checkSorted_eq_ok_iff, checkSorted_eq_ok_iff, checkSorted_eq_ok_iff]
    exact ⟨fun h => ⟨h.directories, h.files, h.symlinks⟩, fun h => ⟨h.1, h.2.1, h.2.2⟩⟩
  rw [hsorted]
  unfold tryFrom
  constructor
  · intro h
    cases hd : checkSorted [] (p.directories.map (·.name)) with
    | error e =>
      rw [hd] at h
      cases h
    | ok u =>
    cases hf : checkSorted [] (p.files.map (·.name)) with
    | error e =>
      rw [hd, hf] at h
      cases h
    | ok u' =>
    cases hs : checkSorted [] (p.symlinks.map (·.name)) with
    | error e =>
      rw [hd, hf, hs] at h
      cases h
    | ok u'' =>
    cases he : p.entries.mapM Entry.tryIntoNameAndNode with
    | error e =>
      rw [hd, hf, hs, he] at h
      cases h
    | ok elems =>
      rw [hd, hf, hs, he] at h
      obtain ⟨hperm, hlt⟩ := Castore.Directory.tryFromIter_eq_ok_iff.mp h
      exact ⟨⟨rfl, rfl, rfl⟩, elems, mapM_tryIntoNameAndNode.mp he, hperm, hlt⟩
  · rintro ⟨⟨hd, hf, hs⟩, elems, he, hperm, hlt⟩
    rw [hd, hf, hs, mapM_tryIntoNameAndNode.mpr he]
    exact Castore.Directory.tryFromIter_eq_ok_iff.mpr ⟨hperm, hlt⟩

section Lists

variable {α : Type} {f : PathComponent × Node → Option α} {name : α → Bytes}

/-- The entries of one kind ascend, as those of the directory do. -/
theorem ascending_filterMap (hf : ∀ e a, f e = some a → name a = e.1.val)
    (m : SortedMap PathComponent.cmp Node) : Ascending ((m.entries.filterMap f).map name) := by
  have hpair : (m.entries.filterMap f).Pairwise fun a b => compare (name a) (name b) = .lt := by
    refine m.sorted.filterMap f fun e e' hlt a ha b hb => ?_
    rw [hf e a ha, hf e' b hb]
    exact hlt
  exact List.pairwise_map.mpr hpair

theorem ascending_cons_nil (hf : ∀ e a, f e = some a → name a = e.1.val)
    (m : SortedMap PathComponent.cmp Node) :
    Ascending ([] :: (m.entries.filterMap f).map name) := by
  refine List.pairwise_cons.mpr ⟨fun n hn => ?_, ascending_filterMap hf m⟩
  obtain ⟨a, ha, rfl⟩ := List.mem_map.mp hn
  obtain ⟨e, -, he⟩ := List.mem_filterMap.mp ha
  rw [hf e a he]
  cases hval : e.1.val with
  | nil => exact absurd hval e.1.val_ne_nil
  | cons b rest => rfl

/-- Lists with the same elements in ascending order are equal. -/
theorem eq_of_ascending {l l' : List α} (h : Ascending (l.map name))
    (h' : Ascending (l'.map name)) (hperm : l.Perm l') : l = l' := by
  refine List.Perm.eq_of_pairwise ?_ (List.pairwise_map.mp h) (List.pairwise_map.mp h') hperm
  intro a b _ _ hab hba
  have hgt : compare (name a) (name b) = .gt := Std.OrientedCmp.gt_iff_lt.mpr hba
  rw [hgt] at hab
  cases hab

end Lists

/-- The kind of a node, as the place of its list in a message. -/
def kind : PathComponent × Node → Fin 3
  | (_, .directory _ _) => 0
  | (_, .file _ _ _) => 1
  | (_, .symlink _) => 2

/-- The entries of a directory, kind by kind. -/
def byKind (l : List (PathComponent × Node)) : List (PathComponent × Node) :=
  l.filter (kind · = 0) ++ l.filter (kind · = 1) ++ l.filter (kind · = 2)

theorem byKind_perm (l : List (PathComponent × Node)) : (byKind l).Perm l := by
  induction l with
  | nil => exact .refl _
  | cons e l ih =>
    obtain ⟨name, node⟩ := e
    unfold byKind at ih ⊢
    cases node with
    | directory digest size => exact ih.cons _
    | file digest size executable =>
      simp only [kind, List.filter_cons, Fin.reduceEq, decide_false, decide_true, if_true,
        Bool.false_eq_true, if_false, List.append_assoc, List.cons_append] at ih ⊢
      exact List.perm_middle.trans (ih.cons _)
    | symlink target =>
      simp only [kind, List.filter_cons, Fin.reduceEq, decide_false, decide_true, if_true,
        Bool.false_eq_true, if_false] at ih ⊢
      exact List.perm_middle.trans (ih.cons _)

/-- The entries of one kind, and their list in the message. -/
theorem map_filter_kind {α : Type} {k : Fin 3} {f : PathComponent × Node → Option α} {g : α → Entry}
    (hsome : ∀ e, kind e = k → (f e).map g = some (Entry.fromNameAndNode e.1.val e.2))
    (hnone : ∀ e, kind e ≠ k → f e = none) (l : List (PathComponent × Node)) :
    (l.filter (kind · = k)).map (fun x => Entry.fromNameAndNode x.1.val x.2) =
      (l.filterMap f).map g := by
  induction l with
  | nil => rfl
  | cons e l ih =>
    by_cases h : kind e = k
    · obtain ⟨a, ha, hg⟩ := Option.map_eq_some_iff.mp (hsome e h)
      rw [List.filter_cons_of_pos (by simpa using h), List.map_cons, ih,
        List.filterMap_cons_some ha, List.map_cons, hg]
    · rw [List.filter_cons_of_neg (by simpa using h), ih, List.filterMap_cons_none (hnone e h)]

theorem map_byKind (l : List (PathComponent × Node)) :
    (byKind l).map (fun x => Entry.fromNameAndNode x.1.val x.2) =
      (l.filterMap Directory.asDirectory).map .directory ++ (l.filterMap Directory.asFile).map .file ++
        (l.filterMap Directory.asSymlink).map .symlink := by
  unfold byKind
  rw [List.map_append, List.map_append]
  congr 1
  · congr 1
    · apply map_filter_kind
      · rintro ⟨name, node⟩ h
        cases node <;> first | rfl | cases h
      · rintro ⟨name, node⟩ h
        cases node <;> first | rfl | exact absurd rfl h
    · apply map_filter_kind
      · rintro ⟨name, node⟩ h
        cases node <;> first | rfl | cases h
      · rintro ⟨name, node⟩ h
        cases node <;> first | rfl | exact absurd rfl h
  · apply map_filter_kind
    · rintro ⟨name, node⟩ h
      cases node <;> first | rfl | cases h
    · rintro ⟨name, node⟩ h
      cases node <;> first | rfl | exact absurd rfl h

theorem name_asDirectory (e : PathComponent × Node) (a : DirectoryEntry)
    (h : Directory.asDirectory e = some a) : a.name = e.1.val := by
  obtain ⟨name, node⟩ := e
  cases node <;> cases h
  rfl

theorem name_asFile (e : PathComponent × Node) (a : FileEntry)
    (h : Directory.asFile e = some a) : a.name = e.1.val := by
  obtain ⟨name, node⟩ := e
  cases node <;> cases h
  rfl

theorem name_asSymlink (e : PathComponent × Node) (a : SymlinkEntry)
    (h : Directory.asSymlink e = some a) : a.name = e.1.val := by
  obtain ⟨name, node⟩ := e
  cases node <;> cases h
  rfl

/-- The message of a directory is converted back when its size fits. -/
theorem Directory.tryFrom_ofDirectory_iff (d : Castore.Directory) :
    (ofDirectory d).tryFrom = .ok d ↔ d.total < 2 ^ 64 := by
  rw [tryFrom_eq_ok_iff]
  constructor
  · rintro ⟨-, elems, -, hperm, hlt⟩
    rw [Castore.Directory.weight_perm hperm] at hlt
    exact hlt
  · intro hlt
    refine ⟨?_, byKind d.nodes.entries, ?_, byKind_perm _, ?_⟩
    · rw [ofDirectory_eq]
      exact ⟨ascending_cons_nil name_asDirectory d.nodes, ascending_cons_nil name_asFile d.nodes,
        ascending_cons_nil name_asSymlink d.nodes⟩
    · rw [map_byKind, ofDirectory_eq]
      rfl
    · rw [Castore.Directory.weight_perm (byKind_perm _)]
      exact hlt

/-- An entry of the message, if it is a directory. -/
def Entry.directory? : Entry → Option DirectoryEntry
  | .directory e => some e
  | _ => none

/-- An entry of the message, if it is a file. -/
def Entry.file? : Entry → Option FileEntry
  | .file e => some e
  | _ => none

/-- An entry of the message, if it is a symlink. -/
def Entry.symlink? : Entry → Option SymlinkEntry
  | .symlink e => some e
  | _ => none

theorem Directory.filterMap_entries (p : Directory) :
    p.entries.filterMap Entry.directory? = p.directories ∧
      p.entries.filterMap Entry.file? = p.files ∧
      p.entries.filterMap Entry.symlink? = p.symlinks := by
  have hnone : ∀ {α β : Type} (l : List α), l.filterMap (fun _ => (none : Option β)) = [] := by
    intro α β l
    exact List.filterMap_eq_nil_iff.mpr fun _ _ => rfl
  unfold entries
  simp only [List.filterMap_append, List.filterMap_map, Function.comp_def, Entry.directory?,
    Entry.file?, Entry.symlink?, hnone, List.filterMap_some, List.append_nil, List.nil_append,
    and_self]

/-- The lists of a message, found again in its converted entries. -/
theorem Directory.filterMap_elems {p : Directory} {elems : List (PathComponent × Node)}
    (h : elems.map (fun x => Entry.fromNameAndNode x.1.val x.2) = p.entries) :
    elems.filterMap asDirectory = p.directories ∧ elems.filterMap asFile = p.files ∧
      elems.filterMap asSymlink = p.symlinks := by
  obtain ⟨hdirs, hfiles, hlinks⟩ := p.filterMap_entries
  rw [← h, List.filterMap_map] at hdirs hfiles hlinks
  refine ⟨?_, ?_, ?_⟩
  · rw [← hdirs]
    congr 1
    funext ⟨name, node⟩
    cases node <;> rfl
  · rw [← hfiles]
    congr 1
    funext ⟨name, node⟩
    cases node <;> rfl
  · rw [← hlinks]
    congr 1
    funext ⟨name, node⟩
    cases node <;> rfl

/-- A message that is accepted is the one of its directory. -/
theorem Directory.ofDirectory_of_tryFrom {p : Directory} {d : Castore.Directory}
    (h : p.tryFrom = .ok d) : ofDirectory d = p := by
  obtain ⟨hsorted, elems, helems, hperm, -⟩ := tryFrom_eq_ok_iff.mp h
  obtain ⟨hdirs, hfiles, hlinks⟩ := filterMap_elems helems
  have htail : ∀ {names : List Bytes}, Ascending ([] :: names) → Ascending names := fun h =>
    (List.pairwise_cons.mp h).2
  have hd : d.nodes.entries.filterMap asDirectory = p.directories := by
    apply eq_of_ascending (ascending_filterMap name_asDirectory _) (htail hsorted.directories)
    rw [← hdirs]
    exact (hperm.filterMap _).symm
  have hf : d.nodes.entries.filterMap asFile = p.files := by
    apply eq_of_ascending (ascending_filterMap name_asFile _) (htail hsorted.files)
    rw [← hfiles]
    exact (hperm.filterMap _).symm
  have hs : d.nodes.entries.filterMap asSymlink = p.symlinks := by
    apply eq_of_ascending (ascending_filterMap name_asSymlink _) (htail hsorted.symlinks)
    rw [← hlinks]
    exact (hperm.filterMap _).symm
  rw [ofDirectory_eq, hd, hf, hs]

/-- The name of an entry. -/
def Entry.name : Entry → Bytes
  | .directory e => e.name
  | .file e => e.name
  | .symlink e => e.name

/-- Is a message in the one form in which it is accepted? The lists ascend, and no two entries
    have the same name. -/
structure Directory.Canonical (p : Directory) : Prop where
  sorted : p.Sorted
  nodup : (p.directories.map (·.name) ++ p.files.map (·.name) ++ p.symlinks.map (·.name)).Nodup

theorem Directory.canonical_of_tryFrom {p : Directory} {d : Castore.Directory}
    (h : p.tryFrom = .ok d) : p.Canonical := by
  obtain ⟨hsorted, elems, helems, hperm, -⟩ := tryFrom_eq_ok_iff.mp h
  refine ⟨hsorted, ?_⟩
  have hnames : p.entries.map Entry.name = elems.map fun x => x.1.val := by
    rw [← helems, List.map_map]
    congr 1
    funext ⟨name, node⟩
    cases node <;> rfl
  have hnodup : (d.nodes.entries.map fun x => x.1.val).Nodup := by
    rw [List.Nodup, List.pairwise_map]
    refine d.nodes.sorted.imp fun {x y} hlt heq => ?_
    have hcmp : compare x.1.val y.1.val = .lt := hlt
    have hrefl : compare y.1.val y.1.val = .eq := Std.ReflCmp.compare_self
    rw [heq, hrefl] at hcmp
    cases hcmp
  have hlists : p.directories.map (·.name) ++ p.files.map (·.name) ++ p.symlinks.map (·.name) =
      p.entries.map Entry.name := by
    simp only [entries, List.map_append, List.map_map]
    rfl
  rw [hlists, hnames]
  exact (hperm.map _).nodup_iff.mpr hnodup

/-- The conversions between directories and messages are inverse to each other, and only messages
    in one form are accepted; except that a directory whose size does not fit is not converted
    back. With overflow checks there is no such directory. -/
theorem conversion_iff (d : Castore.Directory) :
    ((Directory.ofDirectory d).tryFrom = .ok d ↔ d.total < 2 ^ 64) ∧
      (∀ p : Directory, p.tryFrom = .ok d → Directory.ofDirectory d = p ∧ p.Canonical) ∧
      (Castore.Directory.Built true d → d.total < 2 ^ 64) :=
  ⟨Directory.tryFrom_ofDirectory_iff d,
    fun _ h => ⟨Directory.ofDirectory_of_tryFrom h, Directory.canonical_of_tryFrom h⟩,
    Castore.Directory.Built.total_lt⟩

theorem validateName_b : validateName [98] = .ok () := by rfl

/-- A directory that says of itself that it has almost as many entries as can be counted. -/
def hugeNode : Node := .directory (List.Vector.replicate 32 0) 0xFFFFFFFFFFFFFFFE

/-- A directory with one such entry. -/
def oneHuge : Castore.Directory := ⟨SortedMap.empty.insert ⟨[97], validateName_a⟩ hugeNode⟩

/-- A directory with two such entries. -/
def twoHuge : Castore.Directory := ⟨oneHuge.nodes.insert ⟨[98], validateName_b⟩ hugeNode⟩

/-- Without overflow checks, a directory can be built that its own message does not give back. -/
theorem conversion_overflow :
    Castore.Directory.Built false twoHuge ∧
      (Directory.ofDirectory twoHuge).tryFrom ≠ .ok twoHuge := by
  constructor
  · have hnew : Castore.Directory.Built false .new := .tryFromIter (l := []) rfl
    have hsize : Castore.Directory.new.size false = some 0 := rfl
    have hone : Castore.Directory.Built false oneHuge :=
      .add hnew (Castore.Directory.add_eq_ok hsize (by decide) rfl)
    -- the size of the first entry wraps around
    have hsize' : oneHuge.size false = some 0 := by
      rw [Castore.Directory.size_eq]
      rfl
    exact .add hone (Castore.Directory.add_eq_ok hsize' (by decide) rfl)
  · intro h
    exact absurd ((Directory.tryFrom_ofDirectory_iff twoHuge).mp h) (by decide)

end Snix.Castore.Proto
