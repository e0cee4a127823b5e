import Snix.Castore.DirectoryService.DirectoryGraph.Drain
import Snix.Lib.MachineInt
import Snix.Lib.Segments
import Snix.Store.Nar.Listing

/-!
# The segments of an archive

A renderer that can seek goes through the nodes once, and keeps the bytes of the archive in
segments. The contents of files are holes of the recorded size.

## Main definitions

- `Layout`, `walkNode` — the segments under construction
- `newSegments` — the segments of a node
- `Segmented` — segments that stand for an archive

## Main results

- `newSegments_spec` — the segments of a node stand for the archive that `writeNar` writes
-/

namespace Snix.Store

open Castore Nar

open Wire (TOK_PAR paddingLen)

namespace Seekable

/-- Bytes, or a hole for the contents of a blob. -/
inductive Data where
  | literal (bytes : Bytes)
  | blob (digest : B3Digest) (size : ℕ)

def Data.len : Data → ℕ
  | .literal bytes => bytes.length
  | .blob _ size => size

/-- The segments so far, the offset where the next one begins, and the bytes written since. -/
structure Layout where
  segments : List (ℕ × Data)
  offset : ℕ
  curSegment : Bytes

section

variable (checks debug : Bool) (directories : DigestMap Castore.Directory)

def addOffset (offset size : ℕ) : Except RenderFault ℕ :=
  match addU64 checks offset size with
  | none => .error (.panic "attempt to add with overflow")
  | some offset => .ok offset

/-- Makes what was written a segment. -/
def flushSegment (w : Layout) : Except RenderFault Layout := do
  let offset ← addOffset checks w.offset w.curSegment.length
  return ⟨w.segments ++ [(w.offset, .literal w.curSegment)], offset, []⟩

/-- Walks the entries of a directory. -/
def walkEntries (walkNode : Node → Layout → Except RenderFault Layout) :
    List (PathComponent × Node) → Nar.Directory → Layout → Except RenderFault Layout
  | [], dir, w => .ok { w with curSegment := dir.close w.curSegment }
  | (name, node) :: rest, dir, w => do
    let (dir, curSegment) ← narWriter (dir.entry debug name.val w.curSegment)
    let w ← walkNode node { w with curSegment := curSegment }
    walkEntries walkNode rest dir w

/-- Walks a node and its children. -/
def walkNode : ℕ → Node → Layout → Except RenderFault Layout
  | _, .symlink target, w => do
    let curSegment ← narWriter (symlink debug target.val w.curSegment)
    return { w with curSegment := curSegment }
  | _, .file digest size executable, w => do
    let w ← flushSegment checks
      { w with curSegment := fileManualWrite executable size.toNat w.curSegment }
    let offset ← addOffset checks w.offset size.toNat
    return ⟨w.segments ++ [(w.offset, .blob digest size.toNat)], offset,
      FileManualWrite.close size.toNat w.curSegment⟩
  | 0, .directory _ _, _ => .error .tooDeep
  | n + 1, .directory digest _, w =>
    match directories.lookup digest with
    | none => .error (.panic "Snix bug: directory not found")
    | some directory =>
      walkEntries debug (walkNode n) directory.nodes.entries ⟨none⟩
        { w with curSegment := w.curSegment ++ TOK_DIR }

/-- The segments of a node whose directories were fetched. -/
def newWithDirectories (root : Node) : Except RenderFault (List (ℕ × Data)) := do
  let w ← walkNode checks debug directories (directories.entries.length + 1) root ⟨[], 0, TOK_NAR⟩
  let w ← flushSegment checks w
  return w.segments

end

section

variable (digest : Castore.Directory → B3Digest) (checks debug : Bool)
  (bfs dfsPostOrder : DiGraph Castore.Directory → ℕ → List ℕ) (store : DigestMap Castore.Directory)

/-- A call of the builder of directory graphs. -/
def checkOrdering {α : Type} : Except Fault α → Except RenderFault α
  | .ok a => .ok a
  | .error (.error e) => .error (.error (.orderingError e))
  | .error (.panic message) => .error (.panic message)

/-- The graph of the directories below a digest; none if the digest is not found. -/
def directoryGraph (root : B3Digest) : Except RenderFault (Option DirectoryGraph) :=
  match rootToLeaves store root with
  | none => .error .tooDeep
  | some (directories, e) => do
    let builder ← checkOrdering
      ((DirectoryGraphBuilder.newRootToLeaves root).insertAll digest checks directories)
    match e with
    | some e => .error (.error (.directoryService e))
    | none =>
      match builder.build digest debug with
      | .error (.error .emptySet) => .ok none
      | built => do
        let graph ← checkOrdering built
        return some graph

/-- The directories of a graph. -/
def drained : Option DirectoryGraph → Except RenderFault (DigestMap Castore.Directory)
  | none => .ok ∅
  | some graph =>
    match graph.drain bfs dfsPostOrder .leavesToRoot with
    | none => .error (.panic "Snix bug: node not found")
    | some directories => .ok (collect digest directories)

/-- The graph of the directories below a node; none if it is not a directory itself. -/
def rootGraph : Node → Except RenderFault (Option DirectoryGraph)
  | .directory rootDigest _ => directoryGraph digest checks debug store rootDigest
  | _ => .ok none

/-- The segments of a node. -/
def newSegments (root : Node) : Except RenderFault (List (ℕ × Data)) := do
  let graph ← rootGraph digest checks debug store root
  let directories ← drained digest bfs dfsPostOrder graph
  newWithDirectories checks debug directories root

end

-- ====================
-- What the segments stand for
-- ====================

section

variable (blobs : DigestMap Bytes)

def Data.contents : Data → Bytes
  | .literal bytes => bytes
  | .blob digest _ => (blobs.lookup digest).getD []

/-- Literals are not empty, and blobs are there with the recorded size. -/
def Data.Sound : Data → Prop
  | .literal bytes => bytes ≠ []
  | .blob digest size => ∃ c, blobs.lookup digest = some c ∧ c.length = size

/-- The segments begin with a literal. -/
def StartsLiteral (l : List Data) : Prop :=
  ∀ d, l.head? = some d → ∃ bytes, d = .literal bytes

/-- The segments that are finished and what was written since stand for the bytes. -/
structure Stands (l : List Data) (w : Layout) (b : Bytes) : Prop where
  segments : w.segments = layout Data.len 0 l
  offset : w.offset = extent Data.len l
  sound : ∀ d ∈ l, d.Sound blobs
  starts : StartsLiteral l
  contents : l.flatMap (Data.contents blobs) ++ w.curSegment = b

/-- The segments stand for an archive. They begin and end with a literal. -/
structure Segmented (l : List Data) (nar : Bytes) : Prop where
  sound : ∀ d ∈ l, d.Sound blobs
  starts : StartsLiteral l
  ends : ∃ before bytes, l = before ++ [.literal bytes]
  contents : l.flatMap (Data.contents blobs) = nar

end

variable {checks debug : Bool} {directories : DigestMap Castore.Directory} {blobs : DigestMap Bytes}
  {l : List Data} {w : Layout} {b : Bytes}

theorem Data.Sound.length_contents {d : Data} (h : d.Sound blobs) :
    (d.contents blobs).length = d.len := by
  cases d with
  | literal bytes => rfl
  | blob digest size =>
    obtain ⟨c, hc, hlen⟩ := h
    rw [Data.contents, hc]
    exact hlen

theorem length_flatMap_contents (h : ∀ d ∈ l, d.Sound blobs) :
    (l.flatMap (Data.contents blobs)).length = extent Data.len l := by
  rw [List.length_flatMap, extent]
  congr 1
  exact List.map_congr_left fun d hd => (h d hd).length_contents

theorem StartsLiteral.append_literal (h : StartsLiteral l) (bytes : Bytes) :
    StartsLiteral (l ++ [.literal bytes]) := by
  intro d hd
  cases l with
  | nil =>
    cases hd
    exact ⟨bytes, rfl⟩
  | cons d' l => exact h d hd

theorem StartsLiteral.append (h : StartsLiteral l) (hne : l ≠ []) (l' : List Data) :
    StartsLiteral (l ++ l') := by
  obtain ⟨d', l, rfl⟩ := List.exists_cons_of_ne_nil hne
  exact fun d hd => h d hd

theorem addOffset_of_lt {offset size : ℕ} (h : offset + size < 2 ^ 64) :
    addOffset checks offset size = .ok (offset + size) := by
  rw [addOffset, addU64, if_pos h]

namespace Stands

/-- More is written into the segment. -/
theorem write (h : Stands blobs l w b) (bytes : Bytes) :
    Stands blobs l { w with curSegment := w.curSegment ++ bytes } (b ++ bytes) where
  segments := h.segments
  offset := h.offset
  sound := h.sound
  starts := h.starts
  contents := by rw [← h.contents, List.append_assoc]

theorem length_eq (h : Stands blobs l w b) : b.length = w.offset + w.curSegment.length := by
  rw [← h.contents, List.length_append, length_flatMap_contents h.sound, h.offset]

/-- A segment is flushed. -/
theorem flush (h : Stands blobs l w b) (hne : w.curSegment ≠ []) (hfit : b.length < 2 ^ 64) :
    ∃ w', flushSegment checks w = .ok w' ∧ w'.curSegment = [] ∧
      Stands blobs (l ++ [.literal w.curSegment]) w' b := by
  rw [h.length_eq] at hfit
  refine ⟨⟨w.segments ++ [(w.offset, .literal w.curSegment)], w.offset + w.curSegment.length, []⟩,
    ?_, rfl, ?_, ?_, ?_, h.starts.append_literal _, ?_⟩
  · rw [flushSegment, addOffset_of_lt hfit]
    rfl
  · rw [layout_append, Nat.zero_add, ← h.offset, ← h.segments]
    rfl
  · rw [extent_append, extent_cons, extent_nil, ← h.offset]
    rfl
  · intro d hd
    rcases List.mem_append.mp hd with hd | hd
    · exact h.sound d hd
    · rw [List.mem_singleton.mp hd]
      exact hne
  · rw [List.flatMap_append, List.append_nil, ← h.contents]
    exact congrArg _ (List.append_nil _)

end Stands

/-- A step of the walk that adds these bytes. -/
def Adds (blobs : DigestMap Bytes) (b : Bytes) (x : Except RenderFault Layout) : Prop :=
  ∃ l w, x = .ok w ∧ Stands blobs l w b ∧ w.curSegment ≠ []

theorem header_ne_nil (executable : Bool) (size : ℕ) (w : Bytes) :
    fileManualWrite executable size w ≠ [] := by
  intro h
  have hlen := congrArg List.length h
  simp only [fileManualWrite, List.length_append, length_leBytes, List.length_nil] at hlen
  omega

theorem close_ne_nil (size : ℕ) (w : Bytes) : FileManualWrite.close size w ≠ [] :=
  fun h => absurd (List.append_eq_nil_iff.mp h).2 (by decide)

/-- The contents of a file become a segment of their own. -/
theorem adds_file (h : Stands blobs l w b) {digest : B3Digest} {size : UInt64} {c : Bytes}
    (hc : blobs.lookup digest = some c) (hsize : c.length = size.toNat) (executable : Bool) (n : ℕ)
    (hfit : (b ++ (fileHeader executable size.toNat ++ c ++ fileFooter size.toNat)).length < 2 ^ 64) :
    Adds blobs (b ++ (fileHeader executable size.toNat ++ c ++ fileFooter size.toNat))
      (walkNode checks debug directories n (.file digest size executable) w) := by
  have hwrite := h.write (fileHeader executable size.toNat)
  rw [List.append_assoc, ← List.append_assoc b] at hfit ⊢
  have hheader : w.curSegment ++ fileHeader executable size.toNat =
      fileManualWrite executable size.toNat w.curSegment := (List.append_assoc _ _ _).symm
  rw [hheader] at hwrite
  obtain ⟨w', hw', hnil, hstands⟩ := @Stands.flush checks _ _ _ _ hwrite (header_ne_nil _ _ _) (by
    rw [List.length_append] at hfit
    exact Nat.lt_of_le_of_lt (Nat.le_add_right _ _) hfit)
  have hoff := hstands.length_eq
  rw [hnil, List.length_nil, Nat.add_zero] at hoff
  have hsum : w'.offset + size.toNat < 2 ^ 64 := by
    rw [List.length_append, hoff, List.length_append, hsize] at hfit
    omega
  have hwalk : walkNode checks debug directories n (.file digest size executable) w =
      .ok ⟨w'.segments ++ [(w'.offset, .blob digest size.toNat)], w'.offset + size.toNat,
        FileManualWrite.close size.toNat []⟩ := by
    have hunfold : walkNode checks debug directories n (.file digest size executable) w = (do
        let w ← flushSegment checks
          { w with curSegment := fileManualWrite executable size.toNat w.curSegment }
        let offset ← addOffset checks w.offset size.toNat
        return ⟨w.segments ++ [(w.offset, .blob digest size.toNat)], offset,
          FileManualWrite.close size.toNat w.curSegment⟩) := by
      cases n <;> rfl
    rw [hunfold, hw']
    show (do
      let offset ← addOffset checks w'.offset size.toNat
      return (⟨w'.segments ++ [(w'.offset, Data.blob digest size.toNat)], offset,
        FileManualWrite.close size.toNat w'.curSegment⟩ : Layout)) = _
    rw [addOffset_of_lt hsum, hnil]
    rfl
  refine ⟨_, _, hwalk, ⟨?_, ?_, ?_,
    hstands.starts.append (by simp) [Data.blob digest size.toNat], ?_⟩, close_ne_nil _ _⟩
  · rw [layout_append, Nat.zero_add, ← hstands.offset, ← hstands.segments]
    rfl
  · rw [extent_append, extent_cons, extent_nil, ← hstands.offset]
    rfl
  · intro d hd
    rcases List.mem_append.mp hd with hd | hd
    · exact hstands.sound d hd
    · rw [List.mem_singleton.mp hd]
      exact ⟨c, hc, hsize⟩
  · have hcontents := hstands.contents
    rw [hnil, List.append_nil] at hcontents
    rw [List.flatMap_append, hcontents, List.append_assoc]
    congr 1
    simp [Data.contents, hc, FileManualWrite.close, fileFooter, pad_eq]

theorem adds_entries {walk : Node → Layout → Except RenderFault Layout}
    {f : Node → Option (List Piece)} {entries : List (PathComponent × Node)}
    (hwalk : ∀ e ∈ entries, ∀ pieces b', f e.2 = some pieces → fill blobs pieces = some b' →
      ∀ l w b, Stands blobs l w b → (b ++ b').length < 2 ^ 64 → Adds blobs (b ++ b') (walk e.2 w))
    (hsorted : entries.Pairwise (entryLt PathComponent.cmp)) (dir : Nar.Directory)
    (hdir : dir.prevName ≠ some []) (hprev : ∀ e ∈ entries, dir.prev < e.1.val)
    {pieces : List Piece} (hpieces : outlineEntries f dir.prev entries = some pieces) {b' : Bytes}
    (hb' : fill blobs pieces = some b') (h : Stands blobs l w b) (hfit : (b ++ b').length < 2 ^ 64) :
    Adds blobs (b ++ b') (walkEntries debug walk entries dir w) := by
  induction entries generalizing dir pieces l w b b' with
  | nil =>
    cases hpieces
    simp only [fill, Piece.fill, Option.bind_eq_bind, Option.bind_some, List.append_nil,
      Option.some.injEq] at hb'
    subst hb'
    refine ⟨l, _, rfl, ?_, ?_⟩
    · have hwrite := h.write (sep dir.prev ++ TOK_PAR)
      rw [← List.append_assoc, ← close_eq hdir] at hwrite
      exact hwrite
    · exact fun hnil => absurd (List.append_eq_nil_iff.mp hnil).2 (by decide)
  | cons e entries ih =>
    obtain ⟨name, node⟩ := e
    obtain ⟨hlt, hsorted⟩ := List.pairwise_cons.mp hsorted
    obtain ⟨first, rest, hfirst, hrest, rfl⟩ := outlineEntries_cons.mp hpieces
    simp only [fill, Piece.fill, fill_append, Option.bind_eq_bind, Option.bind_some,
      Option.bind_eq_some_iff, Option.some.injEq] at hb'
    obtain ⟨_, ⟨b₁, hb₁, b₂, hb₂, rfl⟩, rfl⟩ := hb'
    have hentry := entry_eq_ok debug (not_badName name) (hprev _ List.mem_cons_self) hdir w.curSegment
    have hdir' : (⟨some name.val⟩ : Nar.Directory).prevName ≠ some [] := by
      simpa using name.val_ne_nil
    have hwrite := h.write (entryHeader dir.prev name.val)
    rw [← List.append_assoc, ← List.append_assoc] at hfit ⊢
    obtain ⟨l₁, w₁, hw₁, hstands, -⟩ := hwalk _ List.mem_cons_self first b₁ hfirst hb₁ _ _ _ hwrite (by
      rw [List.length_append] at hfit
      exact Nat.lt_of_le_of_lt (Nat.le_add_right _ _) hfit)
    obtain ⟨l₂, w₂, hw₂, hstands', hne⟩ := ih (fun e he => hwalk e (List.mem_cons_of_mem _ he)) hsorted
      ⟨some name.val⟩ hdir' (fun e he => PathComponent.val_lt_of_cmp (hlt e he)) hrest hb₂ hstands hfit
    refine ⟨l₂, w₂, ?_, hstands', hne⟩
    rw [walkEntries, hentry]
    show (do
      let w ← walk node
        { w with curSegment := w.curSegment ++ sep dir.prev ++ TOK_ENT ++ packet name.val ++ TOK_NOD }
      walkEntries debug walk entries ⟨some name.val⟩ w) = _
    simp only [entryHeader, ← List.append_assoc] at hw₁
    rw [hw₁]
    exact hw₂

theorem adds_walkNode {n : ℕ} {node : Node} {pieces : List Piece}
    (hpieces : outline directories n node = some pieces) {b' : Bytes}
    (hb' : fill blobs pieces = some b') (h : Stands blobs l w b) (hfit : (b ++ b').length < 2 ^ 64) :
    Adds blobs (b ++ b') (walkNode checks debug directories n node w) := by
  induction n using Nat.strong_induction_on generalizing node pieces l w b b' with | _ n ih =>
  obtain ⟨target, rfl, rfl⟩ | ⟨digest, size, executable, rfl, rfl⟩ |
    ⟨digest, size, m, rfl, rfl, hd, rfl⟩ | ⟨digest, size, m, d, rest, rfl, rfl, hd, hrest, rfl⟩ :=
    outline_cases hpieces
  · simp only [fill, Piece.fill, Option.bind_eq_bind, Option.bind_some, List.append_nil,
      Option.some.injEq] at hb'
    subst hb'
    have hwalk : walkNode checks debug directories n (.symlink target) w = (do
        let curSegment ← narWriter (symlink debug target.val w.curSegment)
        return { w with curSegment := curSegment }) := by
      cases n <;> rfl
    rw [hwalk, symlink_eq_ok debug (valid_symlink target)]
    refine ⟨l, _, rfl, h.write _, ?_⟩
    exact fun hnil => absurd (List.append_eq_nil_iff.mp (List.append_eq_nil_iff.mp hnil).2).2
      (by decide)
  · simp only [fill, Piece.fill, Option.bind_eq_bind, Option.bind_eq_some_iff, Option.some.injEq,
      List.append_nil, exists_eq_left'] at hb'
    obtain ⟨b₁, ⟨c, hc, hif⟩, rfl⟩ := hb'
    split_ifs at hif with hsize
    cases hif
    exact adds_file h hc hsize executable n hfit
  · simp [fill, Piece.fill] at hb'
  · simp only [fill, Piece.fill, Option.bind_eq_bind, Option.bind_some, Option.bind_eq_some_iff,
      Option.some.injEq] at hb'
    obtain ⟨b₁, hb₁, rfl⟩ := hb'
    rw [← List.append_assoc] at hfit ⊢
    rw [walkNode, hd]
    refine adds_entries (fun e he pieces b' hp hb l w b hs hlt => ?_) d.nodes.sorted ⟨none⟩
      (fun hnone => by cases hnone) (fun e _ => e.1.nil_lt_val) hrest hb₁ (h.write TOK_DIR) hfit
    exact ih m (Nat.lt_succ_self m) hp hb hs hlt

/-- The segments of a node stand for its archive. -/
theorem newWithDirectories_spec {root : Node} {pieces : List Piece} {nar : Bytes}
    (hpieces : outline directories (directories.entries.length + 1) root = some pieces)
    (hfill : fill blobs pieces = some nar) (hfit : (TOK_NAR ++ nar).length < 2 ^ 64) :
    ∃ l, newWithDirectories checks debug directories root = .ok (layout Data.len 0 l) ∧
      Segmented blobs l (TOK_NAR ++ nar) := by
  have hstart : Stands blobs [] ⟨[], 0, TOK_NAR⟩ TOK_NAR := by
    refine ⟨rfl, rfl, ?_, ?_, rfl⟩
    · intro d hd
      cases hd
    · intro d hd
      cases hd
  obtain ⟨l, w, hw, hstands, hne⟩ := @adds_walkNode checks debug _ _ _ _ _ _ _ _ hpieces _ hfill
    hstart hfit
  obtain ⟨w', hw', hnil, hstands'⟩ := @Stands.flush checks _ _ _ _ hstands hne hfit
  refine ⟨l ++ [.literal w.curSegment], ?_, hstands'.sound, hstands'.starts, ⟨l, _, rfl⟩, ?_⟩
  · rw [newWithDirectories, hw]
    show (do
      let w ← flushSegment checks w
      return w.segments) = _
    rw [hw', ← hstands'.segments]
    rfl
  · rw [← hstands'.contents, hnil, List.append_nil]

section

variable {digest : Castore.Directory → B3Digest} {store : DigestMap Castore.Directory}
  {bfs dfsPostOrder : DiGraph Castore.Directory → ℕ → List ℕ}

/-- The directories that are fetched are those below the digest. -/
theorem directoryGraph_spec
    (hdfs : ∀ g : DiGraph Castore.Directory, g.Acyclic → ∀ root,
      g.IsPostOrder root (dfsPostOrder g root))
    (haddr : Addressed digest store) {root : B3Digest} {size : UInt64}
    (hpresent : DirectoriesPresent checks store (.directory root size)) :
    ∃ graph directories, directoryGraph digest checks debug store root = .ok graph ∧
      drained digest bfs dfsPostOrder graph = .ok directories ∧
      (∀ k d, directories.lookup k = some d → store.lookup k = some d) ∧
      ∀ k, Reaches store root k → directories.lookup k = store.lookup k := by
  obtain ⟨directories, e, hrun, hstored, -, hrooted, hend⟩ := rootToLeaves_spec checks haddr root
  cases e with
  | some e =>
    obtain ⟨k⟩ := e
    obtain ⟨hk, -, hnone⟩ := hend
    obtain ⟨d, hd, -⟩ := hpresent.of_reaches hk
    cases hnone.symm.trans hd
  | none =>
    have hcomplete : (Directory.merkle digest checks).Complete root directories := by
      refine hend.resolve_right ?_
      rintro ⟨-, hnone⟩
      obtain ⟨d, hd, -⟩ := hpresent.of_reaches .refl
      cases hnone.symm.trans hd
    have hsized : ∀ d ∈ directories, ∃ s, d.size checks = some s := by
      intro d hd
      obtain ⟨d', hd', hs⟩ := hpresent.of_reaches (reaches_of_rooted hstored hrooted d hd)
      cases (hstored d hd).symm.trans hd'
      exact hs
    obtain ⟨g, hg⟩ := (insertAll_rootToLeaves_iff haddr hstored hrooted hcomplete hsized debug).mpr
      hpresent.sizesRight
    obtain ⟨out, hout, -, hmem, -⟩ := DirectoryGraphBuilder.drain_leavesToRoot bfs dfsPostOrder
      (haddr.collisionFree hstored) (.inr ⟨root, rfl⟩) hg fun hacyclic => hdfs _ hacyclic _
    have hstored' : ∀ d ∈ out, store.lookup (digest d) = some d :=
      fun d hd => hstored d ((hmem d).mp hd)
    refine ⟨some g, collect digest out, ?_, ?_, ?_, ?_⟩
    · rw [directoryGraph, hrun]
      cases hall : (DirectoryGraphBuilder.newRootToLeaves root).insertAll digest checks directories with
      | error e =>
        rw [hall] at hg
        cases hg
      | ok b =>
        rw [hall] at hg
        have hbuild : b.build digest debug = .ok g := hg
        dsimp only [checkOrdering, bind, Except.bind]
        rw [hall]
        dsimp only
        rw [hbuild]
        rfl
    · rw [drained, hout]
    · exact fun k d hd => ((lookup_collect hstored').mp hd).1
    · intro k hk
      obtain ⟨d, hd, -⟩ := hpresent.of_reaches hk
      rw [hd, lookup_collect hstored']
      obtain ⟨d', hd', heq⟩ := has_of_reaches hstored hcomplete hk
      exact ⟨hd, d', (hmem d').mpr hd', heq⟩

/-- The segments of a node stand for the archive that the other renderer writes. -/
theorem newSegments_spec
    (hdfs : ∀ g : DiGraph Castore.Directory, g.Acyclic → ∀ root,
      g.IsPostOrder root (dfsPostOrder g root))
    (haddr : Addressed digest store) {root : Node} (hpresent : DirectoriesPresent checks store root)
    {debug' : Bool} {feed : B3Digest → ℕ → ℕ} {nar : Bytes}
    (hnar : Renderer.writeNar debug' feed store blobs root = .ok nar) (hfit : nar.length < 2 ^ 64) :
    ∃ l, newSegments digest checks debug bfs dfsPostOrder store root = .ok (layout Data.len 0 l) ∧
      Segmented blobs l nar := by
  obtain ⟨pieces, hpieces⟩ := exists_outline haddr root
  obtain ⟨b, hb, rfl⟩ := exists_fill_of_writeNar haddr hnar hpieces
  obtain ⟨graph, directories, hgraph, hdrained, hsub, hagree⟩ : ∃ graph directories,
      rootGraph digest checks debug store root = .ok graph ∧
      drained digest bfs dfsPostOrder graph = .ok directories ∧
      (∀ k d, directories.lookup k = some d → store.lookup k = some d) ∧
      ∀ k s, InTree store root (.directory k s) → directories.lookup k = store.lookup k := by
    cases root with
    | directory rootDigest size =>
      obtain ⟨graph, directories, hgraph, hdrained, hsub, hagree⟩ :=
        @directoryGraph_spec checks debug _ _ bfs _ hdfs haddr _ _ hpresent
      exact ⟨graph, directories, hgraph, hdrained, hsub,
        fun k s hin => hagree k (reaches_of_inTree hin rfl)⟩
    | file k s x =>
      refine ⟨none, ∅, rfl, rfl, ?_, ?_⟩
      · intro k d hd
        cases hd
      · intro k s hin
        cases hin.eq_of_leaf fun k s h => by cases h
    | symlink t =>
      refine ⟨none, ∅, rfl, rfl, ?_, ?_⟩
      · intro k d hd
        cases hd
      · intro k s hin
        cases hin.eq_of_leaf fun k s h => by cases h
  obtain ⟨pieces', hpieces'⟩ := exists_outline (haddr.of_subset hsub) root
  obtain rfl := outline_congr hagree hpieces hpieces'
  obtain ⟨l, hl, hsegmented⟩ := @newWithDirectories_spec checks debug _ _ _ _ _ hpieces' hb hfit
  refine ⟨l, ?_, hsegmented⟩
  unfold newSegments
  rw [hgraph]
  show (do
    let directories ← drained digest bfs dfsPostOrder graph
    newWithDirectories checks debug directories root) = _
  rw [hdrained]
  exact hl

end

end Seekable

end Snix.Store
