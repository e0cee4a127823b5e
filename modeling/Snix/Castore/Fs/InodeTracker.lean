import Snix.Castore.Directory
import Mathlib.Logic.Function.Basic

/-!
# Inodes of a mounted store

The filesystem numbers what its clients have seen. What has the same contents gets
the same number, wherever it lies: files are told apart by the digest of their
blob, symlinks by their target, directories by their digest.

Every number that was handed out stays in the table, so the counter cannot come
near the end of its range.

## Main definitions

- `InodeData` — what is kept for a number
- `InodeTracker` — the table, `InodeTracker.put` and `InodeTracker.replace`
- `InodeTracker.Tracks` — the number stands for the node
- `InodeTracker.Grows` — nothing is forgotten or changed

## Main results

- `put_spec` — the number that is returned stands for the node, unless a file with
  the same blob is known with another size or another executable bit
-/

namespace Snix.Castore.Fs

/-- A directory of which only the node was seen, or one that was fetched. -/
inductive DirectoryInodeData where
  | sparse (digest : B3Digest) (size : UInt64)
  | populated (digest : B3Digest) (children : List (ℕ × PathComponent × Node))
  deriving DecidableEq

def DirectoryInodeData.digest : DirectoryInodeData → B3Digest
  | .sparse digest _ => digest
  | .populated digest _ => digest

inductive InodeData where
  | regular (digest : B3Digest) (size : UInt64) (executable : Bool)
  | symlink (target : SymlinkTarget)
  | directory (data : DirectoryInodeData)
  deriving DecidableEq

def InodeData.fromNode : Node → InodeData
  | .directory digest size => .directory (.sparse digest size)
  | .file digest size executable => .regular digest size executable
  | .symlink target => .symlink target

structure InodeTracker where
  data : ℕ → Option InodeData
  blobDigestToInode : B3Digest → Option ℕ
  symlinkTargetToInode : SymlinkTarget → Option ℕ
  directoryDigestToInode : B3Digest → Option ℕ
  nextInode : ℕ

namespace InodeTracker

/-- The table at the start. The number 1 is that of the root, which is not in the table. -/
def default : InodeTracker := ⟨fun _ => none, fun _ => none, fun _ => none, fun _ => none, 2⟩

def get (t : InodeTracker) (ino : ℕ) : Option InodeData := t.data ino

/-- Replaces what is kept for a number; none if the program panics because the number is
    unknown. -/
def replace (t : InodeTracker) (ino : ℕ) (data : InodeData) : Option InodeTracker :=
  match t.data ino with
  | none => none
  | some _ => some { t with data := Function.update t.data ino (some data) }

def insertAndIncrement (t : InodeTracker) (data : InodeData) : ℕ × InodeTracker :=
  let ino := t.nextInode
  let t := match data with
    | .regular digest _ _ =>
      { t with blobDigestToInode := Function.update t.blobDigestToInode digest (some ino) }
    | .symlink target =>
      { t with symlinkTargetToInode := Function.update t.symlinkTargetToInode target (some ino) }
    | .directory d =>
      { t with directoryDigestToInode :=
          Function.update t.directoryDigestToInode d.digest (some ino) }
  (ino, { t with data := Function.update t.data ino (some data), nextInode := t.nextInode + 1 })

/-- The number for some data: the one that stands in the lookup table, or a new one. None if the
    program panics, which it does when it is given a directory that was fetched. -/
def put (t : InodeTracker) (data : InodeData) : Option (ℕ × InodeTracker) :=
  let found := match data with
    | .regular digest _ _ => some (t.blobDigestToInode digest)
    | .symlink target => some (t.symlinkTargetToInode target)
    | .directory (.sparse digest _) => some (t.directoryDigestToInode digest)
    | .directory (.populated _ _) => none
  match found with
  | none => none
  | some (some ino) => some (ino, t)
  | some none => some (t.insertAndIncrement data)

/-- The same entry, except that a directory may have been fetched in between. -/
def Upgrades : InodeData → InodeData → Prop
  | .directory d, .directory d' => d.digest = d'.digest
  | data, data' => data = data'

theorem Upgrades.refl (data : InodeData) : Upgrades data data := by
  cases data <;> rfl

theorem Upgrades.trans {a b c : InodeData} (h : Upgrades a b) (h' : Upgrades b c) :
    Upgrades a c := by
  cases a <;> cases b <;> cases c <;> simp_all [Upgrades]

/-- What one table says, a later one says as well. -/
def Grows (t t' : InodeTracker) : Prop :=
  ∀ ino data, t.data ino = some data → ∃ data', t'.data ino = some data' ∧ Upgrades data data'

theorem Grows.refl (t : InodeTracker) : t.Grows t := by
  intro ino data h
  exact ⟨data, h, Upgrades.refl data⟩

theorem Grows.trans {t t' t'' : InodeTracker} (h : t.Grows t') (h' : t'.Grows t'') :
    t.Grows t'' := by
  intro ino data hdata
  obtain ⟨data', hdata', hup⟩ := h ino data hdata
  obtain ⟨data'', hdata'', hup'⟩ := h' ino data' hdata'
  exact ⟨data'', hdata'', hup.trans hup'⟩

/-- A directory that was fetched, with the numbers of its children. -/
def Fetched (t : InodeTracker) (ino : ℕ) (digest : B3Digest)
    (children : List (ℕ × PathComponent × Node)) : Prop :=
  t.data ino = some (.directory (.populated digest children))

/-- The number stands for the node. Of a directory only the digest counts. -/
def Tracks (t : InodeTracker) (ino : ℕ) (node : Node) : Prop :=
  ∃ data, t.data ino = some data ∧ Upgrades (.fromNode node) data

theorem Tracks.grows {t t' : InodeTracker} {ino : ℕ} {node : Node} (h : t.Tracks ino node)
    (hgrows : t.Grows t') : t'.Tracks ino node := by
  obtain ⟨data, hdata, hup⟩ := h
  obtain ⟨data', hdata', hup'⟩ := hgrows ino data hdata
  exact ⟨data', hdata', hup.trans hup'⟩

/-- The lookup tables lead to entries with the right contents, numbers from 2 up to the counter
    are taken, and the files are among those that were brought in. -/
structure WellFormed (t : InodeTracker) (brought : List Node) : Prop where
  bounds : ∀ ino data, t.data ino = some data → 2 ≤ ino ∧ ino < t.nextInode
  room : 2 ≤ t.nextInode
  blob : ∀ digest ino, t.blobDigestToInode digest = some ino →
    ∃ size executable, t.data ino = some (.regular digest size executable)
  symlink : ∀ target ino, t.symlinkTargetToInode target = some ino →
    t.data ino = some (.symlink target)
  directory : ∀ digest ino, t.directoryDigestToInode digest = some ino →
    ∃ d, t.data ino = some (.directory d) ∧ d.digest = digest
  files : ∀ ino digest size executable, t.data ino = some (.regular digest size executable) →
    .file digest size executable ∈ brought

/-- Files with the same blob have the same size and the same executable bit. -/
def SameFiles (nodes : List Node) : Prop :=
  ∀ digest size size' executable executable',
    .file digest size executable ∈ nodes → .file digest size' executable' ∈ nodes →
      size = size' ∧ executable = executable'

theorem SameFiles.mono {nodes nodes' : List Node} (h : SameFiles nodes') (hsub : nodes ⊆ nodes') :
    SameFiles nodes := by
  intro digest size size' executable executable' hmem hmem'
  exact h digest size size' executable executable' (hsub hmem) (hsub hmem')

theorem wellFormed_default : default.WellFormed [] where
  bounds := by
    intro ino data h
    cases h
  room := le_rfl
  blob := by
    intro digest ino h
    cases h
  symlink := by
    intro target ino h
    cases h
  directory := by
    intro digest ino h
    cases h
  files := by
    intro ino digest size executable h
    cases h

theorem WellFormed.mono {t : InodeTracker} {brought brought' : List Node}
    (h : t.WellFormed brought) (hsub : brought ⊆ brought') : t.WellFormed brought' := by
  refine { h with files := ?_ }
  intro ino digest size executable hdata
  exact hsub (h.files ino digest size executable hdata)

/-- An entry that is there keeps its place when a new number is given out. -/
theorem WellFormed.update_of_some {t : InodeTracker} {brought : List Node}
    (h : t.WellFormed brought) {ino : ℕ} {data : InodeData} (hdata : t.data ino = some data)
    (new : InodeData) : Function.update t.data t.nextInode (some new) ino = some data := by
  rw [Function.update_of_ne, hdata]
  exact ne_of_lt (h.bounds ino data hdata).2

@[simp] theorem insertAndIncrement_fst (t : InodeTracker) (data : InodeData) :
    (t.insertAndIncrement data).1 = t.nextInode := rfl

@[simp] theorem insertAndIncrement_nextInode (t : InodeTracker) (data : InodeData) :
    (t.insertAndIncrement data).2.nextInode = t.nextInode + 1 := by
  cases data <;> rfl

@[simp] theorem insertAndIncrement_data (t : InodeTracker) (data : InodeData) :
    (t.insertAndIncrement data).2.data = Function.update t.data t.nextInode (some data) := by
  cases data <;> rfl

theorem WellFormed.grows_insertAndIncrement {t : InodeTracker} {brought : List Node}
    (h : t.WellFormed brought) (data : InodeData) : t.Grows (t.insertAndIncrement data).2 := by
  intro ino old hold
  refine ⟨old, ?_, Upgrades.refl old⟩
  rw [insertAndIncrement_data]
  exact h.update_of_some hold data

/-- A new number never stands for a directory that was fetched. -/
theorem fetched_of_insertAndIncrement {t : InodeTracker} {node : Node} {ino : ℕ} {digest : B3Digest}
    {children : List (ℕ × PathComponent × Node)}
    (h : (t.insertAndIncrement (.fromNode node)).2.Fetched ino digest children) :
    t.Fetched ino digest children := by
  unfold Fetched at h ⊢
  rw [insertAndIncrement_data] at h
  by_cases hino : ino = t.nextInode
  · subst hino
    rw [Function.update_self] at h
    cases node <;> cases h
  · rwa [Function.update_of_ne hino] at h

theorem WellFormed.insertAndIncrement {t : InodeTracker} {brought : List Node}
    (h : t.WellFormed brought) {node : Node} (hnode : node ∈ brought) :
    (t.insertAndIncrement (.fromNode node)).2.WellFormed brought where
  bounds := by
    intro ino data hdata
    rw [insertAndIncrement_data] at hdata
    rw [insertAndIncrement_nextInode]
    by_cases hino : ino = t.nextInode
    · have hroom := h.room
      omega
    · rw [Function.update_of_ne hino] at hdata
      have hbounds := h.bounds ino data hdata
      omega
  room := by
    have hroom := h.room
    rw [insertAndIncrement_nextInode]
    omega
  blob := by
    intro digest ino hino
    rw [insertAndIncrement_data]
    cases node with
    | file digest' size executable =>
      change Function.update t.blobDigestToInode digest' (some t.nextInode) digest = some ino at hino
      by_cases hdigest : digest = digest'
      · subst hdigest
        rw [Function.update_self, Option.some.injEq] at hino
        subst hino
        exact ⟨size, executable, Function.update_self ..⟩
      · rw [Function.update_of_ne hdigest] at hino
        obtain ⟨size', executable', hdata⟩ := h.blob digest ino hino
        exact ⟨size', executable', h.update_of_some hdata _⟩
    | symlink target =>
      obtain ⟨size', executable', hdata⟩ := h.blob digest ino hino
      exact ⟨size', executable', h.update_of_some hdata _⟩
    | directory digest' size =>
      obtain ⟨size', executable', hdata⟩ := h.blob digest ino hino
      exact ⟨size', executable', h.update_of_some hdata _⟩
  symlink := by
    intro target ino hino
    rw [insertAndIncrement_data]
    cases node with
    | symlink target' =>
      change Function.update t.symlinkTargetToInode target' (some t.nextInode) target = some ino
        at hino
      by_cases htarget : target = target'
      · subst htarget
        rw [Function.update_self, Option.some.injEq] at hino
        subst hino
        exact Function.update_self ..
      · rw [Function.update_of_ne htarget] at hino
        exact h.update_of_some (h.symlink target ino hino) _
    | file digest size executable => exact h.update_of_some (h.symlink target ino hino) _
    | directory digest size => exact h.update_of_some (h.symlink target ino hino) _
  directory := by
    intro digest ino hino
    rw [insertAndIncrement_data]
    cases node with
    | directory digest' size =>
      change Function.update t.directoryDigestToInode digest' (some t.nextInode) digest = some ino
        at hino
      by_cases hdigest : digest = digest'
      · subst hdigest
        rw [Function.update_self, Option.some.injEq] at hino
        subst hino
        exact ⟨.sparse digest size, Function.update_self .., rfl⟩
      · rw [Function.update_of_ne hdigest] at hino
        obtain ⟨d, hdata, hd⟩ := h.directory digest ino hino
        exact ⟨d, h.update_of_some hdata _, hd⟩
    | file digest' size executable =>
      obtain ⟨d, hdata, hd⟩ := h.directory digest ino hino
      exact ⟨d, h.update_of_some hdata _, hd⟩
    | symlink target =>
      obtain ⟨d, hdata, hd⟩ := h.directory digest ino hino
      exact ⟨d, h.update_of_some hdata _, hd⟩
  files := by
    intro ino digest size executable hdata
    rw [insertAndIncrement_data] at hdata
    by_cases hino : ino = t.nextInode
    · subst hino
      rw [Function.update_self, Option.some.injEq] at hdata
      cases node with
      | file digest' size' executable' =>
        cases hdata
        exact hnode
      | symlink target => cases hdata
      | directory digest' size' => cases hdata
    · rw [Function.update_of_ne hino] at hdata
      exact h.files ino digest size executable hdata

/-- The node that was brought in gets a number that stands for it, every other number keeps its
    meaning, and no directory is fetched. -/
theorem put_spec {t : InodeTracker} {brought : List Node} (h : t.WellFormed brought)
    (hsame : SameFiles brought) {node : Node} (hnode : node ∈ brought) :
    ∃ ino t', t.put (.fromNode node) = some (ino, t') ∧ t'.WellFormed brought ∧ t.Grows t' ∧
      t'.Tracks ino node ∧
      ∀ ino digest children, t'.Fetched ino digest children → t.Fetched ino digest children := by
  -- a number that is found already stands for the node; it remains to look at a new one
  have hnew : (t.insertAndIncrement (.fromNode node)).2.Tracks t.nextInode node := by
    refine ⟨.fromNode node, ?_, Upgrades.refl _⟩
    rw [insertAndIncrement_data, Function.update_self]
  have hinsert (hput : t.put (.fromNode node) = some (t.insertAndIncrement (.fromNode node))) :
      ∃ ino t', t.put (.fromNode node) = some (ino, t') ∧ t'.WellFormed brought ∧ t.Grows t' ∧
        t'.Tracks ino node ∧
        ∀ ino digest children, t'.Fetched ino digest children → t.Fetched ino digest children :=
    ⟨_, _, hput, h.insertAndIncrement hnode, h.grows_insertAndIncrement _, hnew,
      fun _ _ _ => fetched_of_insertAndIncrement⟩
  cases node with
  | file digest size executable =>
    cases hfound : t.blobDigestToInode digest with
    | none =>
      refine hinsert ?_
      simp only [put, InodeData.fromNode, hfound]
    | some ino =>
      obtain ⟨size', executable', hdata⟩ := h.blob digest ino hfound
      have hmem := h.files ino digest size' executable' hdata
      obtain ⟨rfl, rfl⟩ := hsame digest size size' executable executable' hnode hmem
      refine ⟨ino, t, ?_, h, Grows.refl t, ⟨_, hdata, Upgrades.refl _⟩, fun _ _ _ hf => hf⟩
      simp only [put, InodeData.fromNode, hfound]
  | symlink target =>
    cases hfound : t.symlinkTargetToInode target with
    | none =>
      refine hinsert ?_
      simp only [put, InodeData.fromNode, hfound]
    | some ino =>
      refine ⟨ino, t, ?_, h, Grows.refl t, ⟨_, h.symlink target ino hfound, Upgrades.refl _⟩,
        fun _ _ _ hf => hf⟩
      simp only [put, InodeData.fromNode, hfound]
  | directory digest size =>
    cases hfound : t.directoryDigestToInode digest with
    | none =>
      refine hinsert ?_
      simp only [put, InodeData.fromNode, hfound]
    | some ino =>
      obtain ⟨d, hdata, hd⟩ := h.directory digest ino hfound
      refine ⟨ino, t, ?_, h, Grows.refl t, ⟨_, hdata, hd.symm⟩, fun _ _ _ hf => hf⟩
      simp only [put, InodeData.fromNode, hfound]

/-- A directory is replaced by what was fetched under its digest. -/
theorem replace_spec {t : InodeTracker} {brought : List Node} (h : t.WellFormed brought)
    {ino : ℕ} {d : DirectoryInodeData} (hdata : t.data ino = some (.directory d))
    (children : List (ℕ × PathComponent × Node)) :
    ∃ t', t.replace ino (.directory (.populated d.digest children)) = some t' ∧
      t'.data = Function.update t.data ino (some (.directory (.populated d.digest children))) ∧
      t'.WellFormed brought ∧ t.Grows t' := by
  obtain ⟨t', hreplace, hupdate, hblob, hsymlink, hdirectory, hnext⟩ :
      ∃ t', t.replace ino (.directory (.populated d.digest children)) = some t' ∧
        t'.data = Function.update t.data ino (some (.directory (.populated d.digest children))) ∧
        t'.blobDigestToInode = t.blobDigestToInode ∧
        t'.symlinkTargetToInode = t.symlinkTargetToInode ∧
        t'.directoryDigestToInode = t.directoryDigestToInode ∧ t'.nextInode = t.nextInode := by
    simp only [replace, hdata, Option.some.injEq, exists_eq_left', and_self]
  have hat : t'.data ino = some (.directory (.populated d.digest children)) := by
    rw [hupdate, Function.update_self]
  have helse : ∀ other, other ≠ ino → t'.data other = t.data other := by
    intro other hne
    rw [hupdate, Function.update_of_ne hne]
  -- an entry that is no directory stays as it is
  have hkeep : ∀ other data, t.data other = some data → (∀ d, data ≠ .directory d) →
      t'.data other = some data := by
    intro other data hother hleaf
    rw [helse, hother]
    rintro rfl
    rw [hdata, Option.some.injEq] at hother
    exact hleaf d hother.symm
  refine ⟨t', hreplace, hupdate, ?_, ?_⟩
  · constructor
    · intro other data hother
      rw [hnext]
      by_cases heq : other = ino
      · subst heq
        exact h.bounds other _ hdata
      · exact h.bounds other data (helse other heq ▸ hother)
    · rw [hnext]
      exact h.room
    · intro digest other hother
      rw [hblob] at hother
      obtain ⟨size, executable, hother⟩ := h.blob digest other hother
      exact ⟨size, executable, hkeep other _ hother (by simp)⟩
    · intro target other hother
      rw [hsymlink] at hother
      exact hkeep other _ (h.symlink target other hother) (by simp)
    · intro digest other hother
      rw [hdirectory] at hother
      obtain ⟨d', hother, hd'⟩ := h.directory digest other hother
      by_cases heq : other = ino
      · subst heq
        rw [hdata] at hother
        cases hother
        exact ⟨_, hat, hd'⟩
      · exact ⟨d', helse other heq ▸ hother, hd'⟩
    · intro other digest size executable hother
      by_cases heq : other = ino
      · subst heq
        rw [hat] at hother
        cases hother
      · exact h.files other digest size executable (helse other heq ▸ hother)
  · intro other data hother
    by_cases heq : other = ino
    · subst heq
      rw [hdata] at hother
      cases hother
      exact ⟨_, hat, rfl⟩
    · exact ⟨data, by rw [helse other heq, hother], Upgrades.refl data⟩

end InodeTracker

end Snix.Castore.Fs
