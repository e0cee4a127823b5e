import Snix.Store.Nar.Archive

/-!
# Rendering an archive

The renderer that writes an archive from the start to the end. It looks up each
directory when it comes to it, and copies the contents of files through short reads.

## Main definitions

- `writeNar` — writes the archive of a node
- `fill` — the outline of an archive with the contents of files

## Main results

- `writeNar_gives` — what is written
-/

namespace Snix.Store

open Castore Nar

open Wire (TOK_PAR paddingLen)

/-- What goes wrong in the writer of archives, or in the reader it copies from. -/
inductive NarWriterError where
  | blobNotFound (digest : B3Digest)
  | writer (e : Nar.WriteError)

inductive RenderError where
  | directoryService (e : TraversalError)
  | directoryNotFound (digest : B3Digest) (name : Bytes)
  | orderingError (e : OrderingError)
  | narWriterError (e : NarWriterError)

/-- Why rendering does not succeed. -/
abbrev RenderFault := WalkFault RenderError

/-- A call of the writer. -/
def narWriter {α : Type} : Except Nar.WriteError α → Except RenderFault α
  | .ok a => .ok a
  | .error .panic => .error (.panic "assertion failed")
  | .error e => .error (.error (.narWriterError (.writer e)))

namespace Renderer

section

variable (debug : Bool) (feed : B3Digest → ℕ → ℕ) (store : DigestMap Castore.Directory)
  (blobs : DigestMap Bytes)

/-- Writes the entries of a directory. -/
def writeEntries (walkNode : Bytes → Node → Bytes → Except RenderFault Bytes) :
    List (PathComponent × Node) → Nar.Directory → Bytes → Except RenderFault Bytes
  | [], dir, w => .ok (dir.close w)
  | (name, node) :: rest, dir, w => do
    let (dir, w) ← narWriter (dir.entry debug name.val w)
    let w ← walkNode name.val node w
    writeEntries walkNode rest dir w

/-- Writes a node called `name`. The reader of a blob returns it in pieces of the sizes `feed`. -/
def walkNode : ℕ → Bytes → Node → Bytes → Except RenderFault Bytes
  | _, _, .symlink target, w => narWriter (symlink debug target.val w)
  | _, _, .file digest size executable, w =>
    match blobs.lookup digest with
    | none => .error (.error (.narWriterError (.blobNotFound digest)))
    | some contents => narWriter (file executable size.toNat ⟨contents, feed digest⟩ w)
  | 0, _, .directory _ _, _ => .error .tooDeep
  | n + 1, name, .directory digest _, w =>
    match store.lookup digest with
    | none => .error (.error (.directoryNotFound digest name))
    | some directory =>
      writeEntries debug (walkNode n) directory.nodes.entries ⟨none⟩ (w ++ TOK_DIR)

/-- Writes the archive of a node. -/
def writeNar (root : Node) : Except RenderFault Bytes :=
  walkNode debug feed store blobs (store.entries.length + 1) [] root TOK_NAR

end

end Renderer

-- ====================
-- The archive with the contents of files
-- ====================

/-- The bytes of a piece; none if a directory is missing, or if a file does not have the recorded
    size. -/
def Piece.fill (blobs : DigestMap Bytes) : Piece → Option Bytes
  | .literal bytes => some bytes
  | .file executable digest size => do
    let contents ← blobs.lookup digest
    if contents.length = size then
      some (fileHeader executable size ++ contents ++ fileFooter size)
    else none
  | .missing _ => none

def fill (blobs : DigestMap Bytes) : List Piece → Option Bytes
  | [] => some []
  | piece :: pieces => do
    let b ← piece.fill blobs
    let rest ← fill blobs pieces
    some (b ++ rest)

theorem fill_append (blobs : DigestMap Bytes) (pieces pieces' : List Piece) :
    fill blobs (pieces ++ pieces') = (fill blobs pieces).bind fun b =>
      (fill blobs pieces').bind fun b' => some (b ++ b') := by
  induction pieces with
  | nil =>
    simp only [List.nil_append, fill, Option.bind_some]
    exact (Option.bind_fun_some _).symm
  | cons piece pieces ih =>
    simp only [List.cons_append, fill, ih, Option.bind_eq_bind, Option.bind_assoc, Option.bind_some,
      List.append_assoc]

/-- A call that writes these bytes after `w`, or fails if there are none. -/
def Gives (w : Bytes) (x : Except RenderFault Bytes) : Option Bytes → Prop
  | some b => x = .ok (w ++ b)
  | none => ∃ e, x = .error (.error e)

theorem Gives.bind {w : Bytes} {x : Except RenderFault Bytes} {f : Bytes → Except RenderFault Bytes}
    {o o' : Option Bytes} (hx : Gives w x o) (hf : ∀ b, Gives (w ++ b) (f (w ++ b)) o') :
    Gives w (x >>= f) (o.bind fun b => o'.bind fun b' => some (b ++ b')) := by
  cases o with
  | none =>
    obtain ⟨e, rfl⟩ := hx
    exact ⟨e, rfl⟩
  | some b =>
    obtain rfl : x = .ok (w ++ b) := hx
    have hb := hf b
    cases o' with
    | none => exact hb
    | some b' =>
      have hb' : f (w ++ b) = .ok (w ++ b ++ b') := hb
      change f (w ++ b) = .ok (w ++ (b ++ b'))
      rw [hb', List.append_assoc]

/-- Writing some bytes first. -/
theorem Gives.cons {w b : Bytes} {x : Except RenderFault Bytes} {o : Option Bytes}
    (h : Gives (w ++ b) x o) : Gives w x (o.bind fun b' => some (b ++ b')) := by
  cases o with
  | none => exact h
  | some b' =>
    have hx : x = .ok (w ++ b ++ b') := h
    change x = .ok (w ++ (b ++ b'))
    rw [hx, List.append_assoc]

-- ====================
-- What is written
-- ====================

theorem not_badName (name : PathComponent) :
    ¬ BadName name.val ∧ name.val.length ≤ Nar.MAX_NAME_LEN := by
  have h := name.valid
  unfold Castore.validateName at h
  split_ifs at h with hnil hparent hcur hlong hnull hslash
  refine ⟨?_, Nat.not_lt.mp hlong⟩
  rintro (h | h | h | h | h)
  · exact hnil h
  · exact hnull h
  · exact hslash h
  · exact hcur h
  · exact hparent h

theorem valid_symlink (target : SymlinkTarget) : (Tree.symlink target.val).Valid := by
  have h := target.valid
  unfold validateSymlinkTarget at h
  split_ifs at h with hnil hlong hnull
  refine ⟨?_, Nat.not_lt.mp hlong⟩
  rintro (h | h)
  · exact hnil h
  · exact hnull h

namespace Renderer

variable {debug : Bool} {feed : B3Digest → ℕ → ℕ} {store : DigestMap Castore.Directory}
  {blobs : DigestMap Bytes}

theorem gives_file (executable : Bool) (digest : B3Digest) (size : UInt64) (n : ℕ) (name w : Bytes) :
    Gives w (walkNode debug feed store blobs n name (.file digest size executable) w)
      (fill blobs [.file executable digest size.toNat]) := by
  have hwalk : walkNode debug feed store blobs n name (.file digest size executable) w =
      match blobs.lookup digest with
      | none => .error (.error (.narWriterError (.blobNotFound digest)))
      | some contents => narWriter (file executable size.toNat ⟨contents, feed digest⟩ w) := by
    cases n <;> rfl
  rw [hwalk]
  cases hblob : blobs.lookup digest with
  | none =>
    simp only [fill, Piece.fill, hblob]
    exact ⟨_, rfl⟩
  | some contents =>
    by_cases hsize : contents.length = size.toNat
    · simp only [fill, Piece.fill, hblob, Option.bind_eq_bind, Option.bind_some, if_pos hsize,
        List.append_nil]
      change narWriter (file executable size.toNat ⟨contents, feed digest⟩ w) = .ok (w ++ _)
      rw [← hsize, file_eq_ok]
      simp [narWriter, Tree.encode, packet, fileHeader, fileFooter]
    · obtain ⟨e, he, hfile⟩ := file_eq_error executable hsize (feed digest) w
      simp only [fill, Piece.fill, hblob, Option.bind_eq_bind, Option.bind_some, if_neg hsize,
        Option.bind_none, hfile]
      cases e with
      | panic => exact absurd rfl he
      | unexpectedEof => exact ⟨_, rfl⟩
      | invalidInput => exact ⟨_, rfl⟩

theorem gives_entries {walk : Bytes → Node → Bytes → Except RenderFault Bytes}
    {f : Node → Option (List Piece)} {entries : List (PathComponent × Node)}
    (hwalk : ∀ e ∈ entries, ∀ pieces, f e.2 = some pieces →
      ∀ name w, Gives w (walk name e.2 w) (fill blobs pieces))
    (hsorted : entries.Pairwise (entryLt PathComponent.cmp)) (dir : Nar.Directory)
    (hdir : dir.prevName ≠ some []) (hprev : ∀ e ∈ entries, dir.prev < e.1.val)
    {pieces : List Piece} (hpieces : outlineEntries f dir.prev entries = some pieces) (w : Bytes) :
    Gives w (writeEntries debug walk entries dir w) (fill blobs pieces) := by
  induction entries generalizing dir pieces w with
  | nil =>
    cases hpieces
    simp only [fill, Piece.fill, Option.bind_eq_bind, Option.bind_some, List.append_nil]
    change Except.ok (dir.close w) = .ok (w ++ _)
    rw [close_eq hdir, List.append_assoc]
  | cons e entries ih =>
    obtain ⟨name, node⟩ := e
    obtain ⟨hlt, hsorted⟩ := List.pairwise_cons.mp hsorted
    obtain ⟨first, rest, hfirst, hrest, rfl⟩ := outlineEntries_cons.mp hpieces
    have hentry := entry_eq_ok debug (not_badName name) (hprev _ List.mem_cons_self) hdir w
    have hdir' : (⟨some name.val⟩ : Nar.Directory).prevName ≠ some [] := by
      simpa using name.val_ne_nil
    rw [writeEntries, hentry]
    simp only [fill, Piece.fill, fill_append, Option.bind_eq_bind, Option.bind_some]
    apply Gives.cons
    simp only [narWriter, bind, Except.bind, entryHeader, ← List.append_assoc]
    refine Gives.bind (hwalk _ List.mem_cons_self first hfirst name.val _) fun b => ?_
    refine ih (fun e he => hwalk e (List.mem_cons_of_mem _ he)) hsorted _ hdir' ?_ hrest _
    exact fun e he => PathComponent.val_lt_of_cmp (hlt e he)

theorem gives_walkNode {n : ℕ} {node : Node} {pieces : List Piece}
    (h : outline store n node = some pieces) (name w : Bytes) :
    Gives w (walkNode debug feed store blobs n name node w) (fill blobs pieces) := by
  induction n using Nat.strong_induction_on generalizing node pieces name w with | _ n ih =>
  obtain ⟨target, rfl, rfl⟩ | ⟨digest, size, executable, rfl, rfl⟩ |
    ⟨digest, size, m, rfl, rfl, hd, rfl⟩ | ⟨digest, size, m, d, rest, rfl, rfl, hd, hrest, rfl⟩ :=
    outline_cases h
  · have hwalk : walkNode debug feed store blobs n name (.symlink target) w =
        narWriter (symlink debug target.val w) := by
      cases n <;> rfl
    rw [hwalk, symlink_eq_ok debug (valid_symlink target)]
    simp only [fill, Piece.fill, Option.bind_eq_bind, Option.bind_some, List.append_nil]
    rfl
  · exact gives_file executable digest size n name w
  · rw [walkNode, hd]
    exact ⟨_, rfl⟩
  · rw [walkNode, hd]
    simp only [fill, Piece.fill, Option.bind_eq_bind, Option.bind_some]
    apply Gives.cons
    refine gives_entries (fun e he pieces hpieces name w => ?_) d.nodes.sorted ⟨none⟩ nofun
      (fun e _ => ?_) hrest _
    · exact ih m (Nat.lt_succ_self m) hpieces name w
    · exact e.1.nil_lt_val

end Renderer

/-- The archive of a node, if its directories are there and its files are as long as recorded. -/
def archive (store : DigestMap Castore.Directory) (blobs : DigestMap Bytes) (root : Node) :
    Option Bytes := do
  let pieces ← outline store (store.entries.length + 1) root
  fill blobs (.literal TOK_NAR :: pieces)

/-- What the renderer writes. -/
theorem writeNar_gives {digest : Castore.Directory → B3Digest}
    {store : DigestMap Castore.Directory} (haddr : Addressed digest store) (debug : Bool)
    (feed : B3Digest → ℕ → ℕ) (blobs : DigestMap Bytes) (root : Node) :
    Gives [] (Renderer.writeNar debug feed store blobs root) (archive store blobs root) := by
  obtain ⟨pieces, hpieces⟩ := exists_outline haddr root
  simp only [archive, hpieces, fill, Piece.fill, Option.bind_eq_bind, Option.bind_some]
  exact Gives.cons (Renderer.gives_walkNode hpieces [] TOK_NAR)

end Snix.Store
