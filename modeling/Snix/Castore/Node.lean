import Snix.Lib.Bytes

/-!
# Nodes of the content-addressed store

A node points to a directory or to the contents of a file by its digest, or is a
symbolic link. Nodes have no names of their own; what gives them names is a
directory that holds them.

## Main definitions

- `PathComponent`, `SymlinkTarget` — names and targets that passed their checks
- `Node`
-/

namespace Snix.Castore

/-- A BLAKE3 digest. -/
abbrev B3Digest := ByteArr 32

/-- Conversion of a byte string, none if it has the wrong length. -/
def B3Digest.tryFrom (b : Bytes) : Option B3Digest :=
  if h : b.length = 32 then some ⟨b, h⟩ else none

@[simp] theorem B3Digest.tryFrom_val (d : B3Digest) : B3Digest.tryFrom d.val = some d :=
  dif_pos d.property

theorem B3Digest.val_of_tryFrom {b : Bytes} {d : B3Digest} (h : B3Digest.tryFrom b = some d) :
    d.val = b := by
  unfold B3Digest.tryFrom at h
  split at h
  · cases h
    rfl
  · cases h

-- ====================
-- Names
-- ====================

def MAX_NAME_LEN : ℕ := 255

inductive PathComponentError where
  | empty
  | null
  | curDir
  | parent
  | slashes
  | tooLong
  | convert (value : Bytes) (e : PathComponentError)

def validateName (name : Bytes) : Except PathComponentError Unit :=
  if name = [] then .error .empty
  else if name = [46, 46] then .error .parent
  else if name = [46] then .error .curDir
  else if MAX_NAME_LEN < name.length then .error .tooLong
  else if 0 ∈ name then .error .null
  else if 47 ∈ name then .error .slashes
  else .ok ()

/-- The order of byte strings, told from their comparison. -/
theorem lt_of_compare {a b : Bytes} (h : compare a b = .lt) : a < b := by
  induction a generalizing b with
  | nil =>
    cases b with
    | nil => cases h
    | cons y b => exact List.nil_lt_cons y b
  | cons x a ih =>
    cases b with
    | nil => cases h
    | cons y b =>
      rw [List.compare_cons_cons, Ordering.then_eq_lt] at h
      rw [List.cons_lt_cons_iff]
      rcases h with hlt | ⟨heq, hlt⟩
      · exact .inl (Std.compare_eq_lt.mp hlt)
      · exact .inr ⟨Std.compare_eq_iff_eq.mp heq, ih hlt⟩

/-- The name of an entry of a directory. -/
@[ext] structure PathComponent where
  val : Bytes
  valid : validateName val = .ok ()
  deriving DecidableEq

namespace PathComponent

def tryFrom (value : Bytes) : Except PathComponentError PathComponent :=
  match h : validateName value with
  | .error e => .error (.convert value e)
  | .ok () => .ok ⟨value, h⟩

/-- Names are ordered as byte strings. -/
def cmp (a b : PathComponent) : Ordering := compareOn (fun a : PathComponent => a.val) a b

instance : Std.TransCmp cmp :=
  inferInstanceAs (Std.TransCmp (compareOn fun a : PathComponent => a.val))

theorem val_lt_of_cmp {a b : PathComponent} (h : cmp a b = .lt) : a.val < b.val := by
  have h' : compare a.val b.val = .lt := h
  exact lt_of_compare h'

theorem eq_of_cmp {a b : PathComponent} (h : cmp a b = .eq) : a = b := by
  have h' : compare a.val b.val = .eq := h
  exact PathComponent.ext (Std.compare_eq_iff_eq.mp h')

@[simp] theorem tryFrom_val (name : PathComponent) : tryFrom name.val = .ok name := by
  unfold tryFrom
  split
  · next e he =>
    rw [name.valid] at he
    cases he
  · rfl

theorem val_of_tryFrom {value : Bytes} {name : PathComponent} (h : tryFrom value = .ok name) :
    name.val = value := by
  unfold tryFrom at h
  split at h
  · cases h
  · cases h
    rfl

theorem val_ne_nil (name : PathComponent) : name.val ≠ [] := by
  intro hnil
  have hvalid := name.valid
  rw [hnil] at hvalid
  cases hvalid

theorem nil_lt_val (name : PathComponent) : [] < name.val := by
  obtain ⟨x, rest, hname⟩ := List.exists_cons_of_ne_nil name.val_ne_nil
  rw [hname]
  exact List.nil_lt_cons x rest

end PathComponent

-- ====================
-- Targets of symlinks
-- ====================

def MAX_TARGET_LEN : ℕ := 4095

inductive SymlinkTargetError where
  | empty
  | null
  | tooLong
  | convert (value : Bytes) (e : SymlinkTargetError)

def validateSymlinkTarget (target : Bytes) : Except SymlinkTargetError Unit :=
  if target = [] then .error .empty
  else if MAX_TARGET_LEN < target.length then .error .tooLong
  else if 0 ∈ target then .error .null
  else .ok ()

/-- The target of a symlink. -/
structure SymlinkTarget where
  val : Bytes
  valid : validateSymlinkTarget val = .ok ()
  deriving DecidableEq

namespace SymlinkTarget

def tryFrom (value : Bytes) : Except SymlinkTargetError SymlinkTarget :=
  match h : validateSymlinkTarget value with
  | .error e => .error (.convert value e)
  | .ok () => .ok ⟨value, h⟩

@[simp] theorem tryFrom_val (target : SymlinkTarget) : tryFrom target.val = .ok target := by
  unfold tryFrom
  split
  · next e he =>
    rw [target.valid] at he
    cases he
  · rfl

theorem val_of_tryFrom {value : Bytes} {target : SymlinkTarget} (h : tryFrom value = .ok target) :
    target.val = value := by
  unfold tryFrom at h
  split at h
  · cases h
  · cases h
    rfl

end SymlinkTarget

/-- A node: a directory, a file or a symlink. -/
inductive Node where
  | directory (digest : B3Digest) (size : UInt64)
  | file (digest : B3Digest) (size : UInt64) (executable : Bool)
  | symlink (target : SymlinkTarget)
  deriving DecidableEq

end Snix.Castore
