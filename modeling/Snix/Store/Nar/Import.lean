import Snix.Castore.Import.Blobs
import Snix.Castore.Import.Order
import Snix.NixCompat.Nar.AsyncReader
import Snix.Store.Nar.Renderer

/-!
# Ingesting an archive

An archive is read from the start to the end. The entries of a directory are sent before
the directory itself, and the contents of files are handed to an uploader, which works in
the background. What is sent is put together by `ingestEntries`, which closes what it
uploads when the producer is done.

## Main definitions

- `produceNarInner`, `ingestNar` — the producer of entries, and the whole
- `Tree.fileTree?` — the file tree of an archive

## Main results

- `agrees_produce` — what is sent and uploaded for a node of an archive
-/

namespace Snix.Store

open Castore Nar

open Wire (TOK_PAR)

inductive NarImportError where
  | io (e : IoError)
  | blobUpload (e : BlobUploadError)
  deriving DecidableEq

inductive ProducerFault where
  | error (e : NarImportError)
  | panic (message : String)

/-- What the producer has besides the archive: the uploader, the tasks of it that run before the
    coming waits, and the entries that were sent. The contents that were uploaded are remembered
    in `uploads`, which nothing reads. -/
structure Ledger (β : Type) where
  uploader : ConcurrentBlobUploader β
  order : ℕ → List ℕ
  uploads : List Bytes
  sent : List IngestionEntry

def Ledger.start {β : Type} (blobService : β) (order : ℕ → List ℕ) : Ledger β :=
  ⟨.new blobService, order, [], []⟩

/-- Programs that read from a stream and keep a ledger, which is left when they fail. -/
abbrev Producer (σ β α : Type) := Prog (ProducerFault × Ledger β) (σ × Ledger β) α

/-- The name of the root node. -/
def rootName : PathComponent := ⟨ascii "root", rfl⟩

section

variable {σ F β δ α : Type}

namespace Producer

def halt (e : ProducerFault) : Producer σ β α := fun x => some (.error (e, x.2))

/-- Reads from the stream. -/
def fromStream (p : Prog IoError σ α) : Producer σ β α := fun x =>
  match p.run x.1 with
  | none => none
  | some (.error e) => some (.error (.error (.io e), x.2))
  | some (.ok (a, s)) => some (.ok (a, s, x.2))

def send (entry : IngestionEntry) : Producer σ β Unit := fun x =>
  some (.ok ((), x.1, { x.2 with sent := x.2.sent ++ [entry] }))

/-- Names in archives are names in the store. -/
def pushName (path : PathBuf) (name : Bytes) : Producer σ β PathBuf :=
  match PathComponent.tryFrom name with
  | .ok name => pure (path ++ [name])
  | .error _ => halt (.panic "Snix bug: failed to join name")

end Producer

open Producer

variable (A : Access σ F) (len : F → ℕ) (sink : BlobSink β) (hash : Bytes → B3Digest)

/-- Hands what was read to the uploader. -/
def uploadRead (path : PathBuf) (size : ℕ) (read : Except IoError Bytes) (x : σ × Ledger β) :
    Option (Except (ProducerFault × Ledger β) (B3Digest × σ × Ledger β)) :=
  let ledger := { x.2 with order := fun i => x.2.order (i + 1) }
  match x.2.uploader.awaitUpload sink hash (x.2.order 0) path size read with
  | none => none
  | some (.error e, u) => some (.error (.error (.blobUpload e), { ledger with uploader := u }))
  | some (.ok digest, u) =>
    some (.ok (digest, x.1,
      { ledger with uploader := u, uploads := x.2.uploads ++ read.toOption.toList }))

def upload (path : PathBuf) (size : ℕ) (reader : Prog IoError σ Bytes) : Producer σ β B3Digest :=
  fun x =>
    match reader.run x.1 with
    | none => none
    | some (.error e) => uploadRead sink hash path size (.error e) x
    | some (.ok (contents, s)) => uploadRead sink hash path size (.ok contents) (s, x.2)

/-- Produces the entry of a node, given how to send those of a directory. -/
def produceNarInner (k : ℕ) (produceEntries : PathBuf → DirReader → Producer σ β Unit)
    (path : PathBuf) : Nar.Node F → Producer σ β IngestionEntry
  | .symlink target => pure (.symlink path target)
  | .file executable reader => do
    let size := len reader
    let digest ← upload sink hash path size (A.readFile k reader)
    pure (.regular path (.ofNat size) executable digest)
  | .directory dir => do
    produceEntries path dir
    pure (.dir path)

/-- Sends the entries of a directory. -/
def produceEntries : ℕ → PathBuf → DirReader → Producer σ β Unit
  | 0, _, _ => .running
  | k + 1, path, dir => do
    match ← fromStream (dir.next A k) with
    | none => pure ()
    | some (name, node, dir) => do
      let below ← pushName path name
      let entry ← produceNarInner A len sink hash k (produceEntries k) below node
      send entry
      produceEntries k path dir

def openArchive (k : ℕ) : Prog IoError σ (Nar.Node F) := do
  token A.read k TOK_NAR
  Node.new A k

variable (digest : Castore.Directory → B3Digest) (checks debug : Bool) (P : DirectoryPutter δ)

/-- The consumer gets the entries that were sent, an error of the uploader, and the result of the
    producer. -/
def consume (sent : List IngestionEntry) (joined : Except BlobUploadError β)
    (result : Except NarImportError IngestionEntry) :
    Except (IngestionError NarImportError) (Ingested δ) :=
  let failure := match joined with
    | .error e => [.error (.blobUpload e)]
    | .ok _ => []
  ingestEntries digest checks debug P (sent.map .ok ++ failure ++ [result])

/-- The producer has ended. The uploader is joined, whatever the result is. -/
def finish (result : Except NarImportError IngestionEntry) (w : Ledger β) :
    Option (Except (IngestionError NarImportError) (Ingested δ × Except BlobUploadError β)) :=
  match w.uploader.join sink (w.order 0) with
  | none => none
  | some joined =>
    match consume digest checks debug P w.sent joined result with
    | .error e => some (.error e)
    | .ok ingested => some (.ok (ingested, joined))

/-- Goes on when the producer has ended, or has panicked. -/
def conclude (s : σ) :
    Except (ProducerFault × Ledger β) (IngestionEntry × σ × Ledger β) →
      Option (Except (IngestionError NarImportError) ((Ingested δ × Except BlobUploadError β) × σ))
  | .error (.panic message, _) => some (.error (.panic message))
  | .error (.error e, w) =>
    (finish sink digest checks debug P (.error e) w).map fun r => r.map fun y => (y, s)
  | .ok (entry, s, w) =>
    (finish sink digest checks debug P (.ok entry) w).map fun r => r.map fun y => (y, s)

/-- Ingests an archive. Returns what was ingested, and the blob service. -/
def ingestNar (blobService : β) (order : ℕ → List ℕ) (k : ℕ) :
    Prog (IngestionError NarImportError) σ (Ingested δ × Except BlobUploadError β) := fun s =>
  match (openArchive A k).run s with
  | none => none
  | some (.error e) => some (.error (.producer (.io e)))
  | some (.ok (node, s)) =>
    ((produceNarInner A len sink hash k (produceEntries A len sink hash k) [rootName] node).run
      (s, .start blobService order)).bind (conclude sink digest checks debug P s)

end

-- ====================
-- The file tree of an archive
-- ====================

section

variable (hash : Bytes → B3Digest)

mutual

/-- The file tree of an archive, if its names and targets are those of the store. -/
def fileTree? : Tree → Option FileTree
  | .symlink target => (SymlinkTarget.tryFrom target).toOption.map .symlink
  | .file executable contents => some (.file (hash contents) (.ofNat contents.length) executable)
  | .directory entries => (fileTrees? entries).map .directory

def fileTrees? : Entries → Option FileTrees
  | .nil => some .nil
  | .cons name node rest => do
    let name ← (PathComponent.tryFrom name).toOption
    let tree ← fileTree? node
    let rest ← fileTrees? rest
    some (.cons name tree rest)

end

end

mutual

/-- The contents of the files of an archive. -/
def contents : Tree → List Bytes
  | .symlink _ => []
  | .file _ contents => [contents]
  | .directory entries => entriesContents entries

def entriesContents : Entries → List Bytes
  | .nil => []
  | .cons _ node rest => contents node ++ entriesContents rest

end

mutual

/-- What is below a path, directories behind their entries. -/
def below (path : PathBuf) : FileTree → List Item
  | .file .. => []
  | .symlink _ => []
  | .directory entries => entriesBelow path entries

def entriesBelow (path : PathBuf) : FileTrees → List Item
  | .nil => []
  | .cons name tree rest =>
    below (path ++ [name]) tree ++ ⟨path ++ [name], tree⟩ :: entriesBelow path rest

end

theorem tryFrom_name {name : Bytes} (h : ¬ BadName name ∧ name.length ≤ Nar.MAX_NAME_LEN) :
    ∃ c, PathComponent.tryFrom name = .ok c ∧ c.val = name := by
  have hvalid : Castore.validateName name = .ok () := by
    simp only [BadName, not_or] at h
    obtain ⟨⟨hnil, hnull, hslash, hcur, hparent⟩, hle⟩ := h
    have hlen : ¬ Castore.MAX_NAME_LEN < name.length := Nat.not_lt.mpr hle
    rw [Castore.validateName, if_neg hnil, if_neg hparent, if_neg hcur, if_neg hlen, if_neg hnull,
      if_neg hslash]
  exact ⟨⟨name, hvalid⟩, PathComponent.tryFrom_val ⟨name, hvalid⟩, rfl⟩

theorem tryFrom_target {target : Bytes}
    (h : ¬ BadTarget target ∧ target.length ≤ Nar.MAX_TARGET_LEN) :
    ∃ t, SymlinkTarget.tryFrom target = .ok t ∧ t.val = target := by
  have hvalid : validateSymlinkTarget target = .ok () := by
    simp only [BadTarget, not_or] at h
    obtain ⟨⟨hnil, hnull⟩, hle⟩ := h
    have hlen : ¬ Castore.MAX_TARGET_LEN < target.length := Nat.not_lt.mpr hle
    rw [validateSymlinkTarget, if_neg hnil, if_neg hlen, if_neg hnull]
  exact ⟨⟨target, hvalid⟩, SymlinkTarget.tryFrom_val ⟨target, hvalid⟩, rfl⟩

mutual

/-- Every archive has a file tree. -/
theorem exists_fileTree (hash : Bytes → B3Digest) (tree : Tree) (h : tree.Valid) :
    ∃ t, fileTree? hash tree = some t := by
  cases tree with
  | symlink target =>
    obtain ⟨t, ht, -⟩ := tryFrom_target h
    exact ⟨.symlink t, by rw [fileTree?, ht]; rfl⟩
  | file executable contents => exact ⟨_, rfl⟩
  | directory entries =>
    obtain ⟨t, ht⟩ := exists_fileTrees hash entries h
    exact ⟨.directory t, by rw [fileTree?, ht]; rfl⟩

theorem exists_fileTrees (hash : Bytes → B3Digest) (entries : Entries) {prev : Bytes}
    (h : entries.Valid prev) : ∃ t, fileTrees? hash entries = some t := by
  cases entries with
  | nil => exact ⟨_, rfl⟩
  | cons name node rest =>
    obtain ⟨hname, -, hnode, hrest⟩ := h
    obtain ⟨c, hc, -⟩ := tryFrom_name hname
    obtain ⟨t, ht⟩ := exists_fileTree hash node hnode
    obtain ⟨ts, hts⟩ := exists_fileTrees hash rest hrest
    exact ⟨.cons c t ts, by rw [fileTrees?, hc, ht, hts]; rfl⟩

end

-- ====================
-- What is produced
-- ====================

/-- How a file is read: it is opened and read to its end, and is as long as announced when it was
    opened; or one of the two fails. -/
def FileSpec {σ F : Type} (A : Access σ F) (len : F → ℕ) (V : View ParseError σ Bytes) : Prop :=
  ∀ s, V.Valid s →
    (∃ c f s₁ s', dropSizedContents (V.rest s) = .ok (c, V.rest s') ∧ V.Valid s' ∧
      len f = c.length ∧ Snix.Returns A.openFile s (.ok (f, s₁)) ∧
      Snix.Returns (fun k => A.readFile k f) s₁ (.ok (c, s'))) ∨
    ∃ d e, dropSizedContents (V.rest s) = .error d ∧ ¬ V.Silent d ∧
      (Snix.Returns A.openFile s (.error e) ∨
        ∃ f s₁, Snix.Returns A.openFile s (.ok (f, s₁)) ∧
          Snix.Returns (fun k => A.readFile k f) s₁ (.error e))

section

variable {σ F β α γ : Type} {A : Access σ F} {len : F → ℕ} {sink : BlobSink β}
  {hash : Bytes → B3Digest} {blobs : β → B3Digest → Option Bytes} {s₀ : β}
  {V : View ParseError σ Bytes}

/-- The stream, what was uploaded and what was sent. -/
def producerView (V : View ParseError σ Bytes) (sink : BlobSink β) (hash : Bytes → B3Digest)
    (s₀ : β) : View ParseError (σ × Ledger β) (Bytes × List Bytes × List IngestionEntry) where
  rest x := (V.rest x.1, x.2.uploads, x.2.sent)
  Valid x := V.Valid x.1 ∧
    ConcurrentBlobUploader.Run sink hash s₀ x.2.uploads x.2.uploads x.2.uploader
  Silent := V.Silent

open Producer

section

variable {p : Prog IoError σ α} {x : σ × Ledger β}

theorem run_fromStream_none (h : p.run x.1 = none) :
    (fromStream p : Producer σ β α).run x = none := by
  unfold Prog.run at h ⊢
  rw [fromStream, Prog.run, h]

theorem run_fromStream_error {e : IoError} (h : p.run x.1 = some (.error e)) :
    (fromStream p : Producer σ β α).run x = some (.error (.error (.io e), x.2)) := by
  unfold Prog.run at h ⊢
  rw [fromStream, Prog.run, h]

theorem run_fromStream_ok {a : α} {s : σ} (h : p.run x.1 = some (.ok (a, s))) :
    (fromStream p : Producer σ β α).run x = some (.ok (a, s, x.2)) := by
  unfold Prog.run at h ⊢
  rw [fromStream, Prog.run, h]

end

theorem fromStream_pure (a : α) :
    fromStream (pure a : Prog IoError σ α) = (pure a : Producer σ β α) := rfl

theorem fromStream_bind (p : Prog IoError σ α) (f : α → Prog IoError σ γ) :
    (fromStream (p >>= f) : Producer σ β γ) = fromStream p >>= fun a => fromStream (f a) := by
  funext x
  change (fromStream (p >>= f) : Producer σ β γ).run x =
    (fromStream p >>= fun a => fromStream (f a) : Producer σ β γ).run x
  rw [Prog.run_bind]
  rcases hp : p.run x.1 with _ | e | ⟨a, s⟩
  · rw [run_fromStream_none hp]
    refine run_fromStream_none ?_
    rw [Prog.run_bind, hp]
  · rw [run_fromStream_error hp]
    refine run_fromStream_error ?_
    rw [Prog.run_bind, hp]
  · have hbind : (p >>= f).run x.1 = (f a).run s := by
      rw [Prog.run_bind, hp]
    rw [run_fromStream_ok hp]
    dsimp only
    rcases hf : (f a).run s with _ | e | ⟨b, s'⟩
    · rw [run_fromStream_none (hbind.trans hf)]
      exact (run_fromStream_none (x := (s, x.2)) hf).symm
    · rw [run_fromStream_error (hbind.trans hf)]
      exact (run_fromStream_error (x := (s, x.2)) hf).symm
    · rw [run_fromStream_ok (hbind.trans hf)]
      exact (run_fromStream_ok (x := (s, x.2)) hf).symm

theorem returns_fromStream_ok {p : ℕ → Prog IoError σ α} {x : σ × Ledger β} {a : α} {s : σ}
    (h : Snix.Returns p x.1 (.ok (a, s))) :
    Snix.Returns (fun k => (fromStream (p k) : Producer σ β α)) x (.ok (a, s, x.2)) := by
  obtain ⟨c, hc⟩ := h
  exact ⟨c, fun k hk => run_fromStream_ok (hc k hk)⟩

theorem returns_fromStream_error {p : ℕ → Prog IoError σ α} {x : σ × Ledger β} {e : IoError}
    (h : Snix.Returns p x.1 (.error e)) :
    Snix.Returns (fun k => (fromStream (p k) : Producer σ β α)) x (.error (.error (.io e), x.2)) := by
  obtain ⟨c, hc⟩ := h
  exact ⟨c, fun k hk => run_fromStream_error (hc k hk)⟩

theorem diverges_fromStream {p : ℕ → Prog IoError σ α} {x : σ × Ledger β}
    (h : Diverges p x.1) : Diverges (fun k => (fromStream (p k) : Producer σ β α)) x := by
  obtain ⟨c, hc⟩ := h
  exact ⟨c, fun k hk => run_fromStream_none (hc k hk)⟩

/-- Reading from the stream, and going on. -/
theorem agrees_fromStream {p : ℕ → Prog IoError σ α} {f : α → ℕ → Producer σ β γ}
    {x : σ × Ledger β} {r : Except ParseError (α × Bytes)}
    {g : α × Bytes → Except ParseError (γ × Bytes × List Bytes × List IngestionEntry)}
    (hp : Agrees V p x.1 r)
    (hf : ∀ a s, V.Valid s → r = .ok (a, V.rest s) →
      Agrees (producerView V sink hash s₀) (f a) (s, x.2) (g (a, V.rest s))) :
    Agrees (producerView V sink hash s₀) (fun k => fromStream (p k) >>= fun a => f a k) x
      (r >>= g) := by
  rcases hp with ⟨a, s, rfl, hs, hret⟩ | ⟨d, e, rfl, hd, hret⟩ | ⟨d, rfl, hd, hdiv⟩
  · exact .after (returns_fromStream_ok hret) (hf a s hs rfl)
  · exact .error hd (returns_fromStream_error hret).bind_error
  · exact .silent hd (diverges_fromStream hdiv).bind

/-- What is produced for a node that was parsed. -/
def nodeProduced (hash : Bytes → B3Digest) (path : PathBuf) (uploads : List Bytes)
    (sent : List IngestionEntry) (x : Tree × Bytes) :
    Except ParseError (IngestionEntry × Bytes × List Bytes × List IngestionEntry) :=
  match fileTree? hash x.1 with
  | none => .error .invalid
  | some t =>
    .ok (Item.entry ⟨path, t⟩, x.2, uploads ++ contents x.1,
      sent ++ (below path t).map Item.entry)

/-- What is produced for the entries of a directory. -/
def entriesProduced (hash : Bytes → B3Digest) (path : PathBuf) (uploads : List Bytes)
    (sent : List IngestionEntry) (x : Entries × Bytes) :
    Except ParseError (Unit × Bytes × List Bytes × List IngestionEntry) :=
  match fileTrees? hash x.1 with
  | none => .error .invalid
  | some t =>
    .ok ((), x.2, uploads ++ entriesContents x.1, sent ++ (entriesBelow path t).map Item.entry)

variable (A len sink hash s₀ V) in
/-- For up to `n` bytes, nodes produce what they should. -/
def NodesProduce (n : ℕ) : Prop :=
  ∀ path x, (producerView V sink hash s₀).Valid x → (V.rest x.1).length < n →
    Agrees (producerView V sink hash s₀)
      (fun k => fromStream (Node.new A k) >>=
        produceNarInner A len sink hash k (produceEntries A len sink hash k) path) x
      (parseNode n (V.rest x.1) >>= nodeProduced hash path x.2.uploads x.2.sent)

variable (A len sink hash s₀ V) in
def EntriesProduce (n : ℕ) : Prop :=
  ∀ path prev x, (producerView V sink hash s₀).Valid x → (V.rest x.1).length < n →
    Agrees (producerView V sink hash s₀)
      (fun k => produceEntries A len sink hash k path ⟨prev⟩) x
      (parseEntries n prev (V.rest x.1) >>= entriesProduced hash path x.2.uploads x.2.sent)

section

variable {path : PathBuf} {size : ℕ} {r : ℕ → Prog IoError σ Bytes} {s s' : σ} {w : Ledger β}
  {c : Bytes}

theorem returns_upload_ok (hlaw : sink.Lawful hash blobs) (hrel : sink.Reliable)
    (hrun : ConcurrentBlobUploader.Run sink hash s₀ w.uploads w.uploads w.uploader)
    (hread : Snix.Returns r s (.ok (c, s'))) (hsize : c.length = size) :
    ∃ w' : Ledger β, Snix.Returns (fun k => upload sink hash path size (r k)) (s, w)
        (.ok (hash c, s', w')) ∧ w'.uploads = w.uploads ++ [c] ∧ w'.sent = w.sent ∧
      ConcurrentBlobUploader.Run sink hash s₀ w'.uploads w'.uploads w'.uploader := by
  obtain ⟨result, u, hupload, -, hok⟩ := hrun.awaitUpload hlaw (w.order 0) path size (.ok c)
  obtain ⟨rfl, hrun'⟩ := hok hrel c rfl hsize
  obtain ⟨m, hm⟩ := hread
  refine ⟨⟨u, fun i => w.order (i + 1), w.uploads ++ [c], w.sent⟩, ⟨m, fun k hk => ?_⟩, rfl, rfl,
    hrun'⟩
  have hk' := hm k hk
  unfold Prog.run at hk' ⊢
  unfold upload Prog.run
  dsimp only
  rw [hk']
  dsimp only
  rw [uploadRead, hupload]
  rfl

theorem returns_upload_error (hlaw : sink.Lawful hash blobs)
    (hrun : ConcurrentBlobUploader.Run sink hash s₀ w.uploads w.uploads w.uploader) {e : IoError}
    (hread : Snix.Returns r s (.error e)) :
    ∃ e', Snix.Returns (fun k => upload sink hash path size (r k)) (s, w) (.error e') := by
  obtain ⟨result, u, hupload, herror, -⟩ := hrun.awaitUpload hlaw (w.order 0) path size (.error e)
  obtain ⟨e', rfl⟩ := herror e rfl
  obtain ⟨m, hm⟩ := hread
  refine ⟨(.error (.blobUpload e'), ⟨u, fun i => w.order (i + 1), w.uploads, w.sent⟩), m,
    fun k hk => ?_⟩
  have hk' := hm k hk
  unfold Prog.run at hk' ⊢
  unfold upload Prog.run
  dsimp only
  rw [hk']
  dsimp only
  rw [uploadRead, hupload]

end

/-- A file is read and uploaded. -/
theorem agrees_upload (hlaw : sink.Lawful hash blobs) (hrel : sink.Reliable)
    (hfile : FileSpec A len V) (executable : Bool) (path : PathBuf) {x : σ × Ledger β}
    (hx : (producerView V sink hash s₀).Valid x) :
    Agrees (producerView V sink hash s₀)
      (fun k => fromStream (A.openFile k) >>= fun reader =>
        upload sink hash path (len reader) (A.readFile k reader) >>= fun digest =>
          pure (IngestionEntry.regular path (.ofNat (len reader)) executable digest)) x
      (dropFile executable (V.rest x.1) >>= nodeProduced hash path x.2.uploads x.2.sent) := by
  obtain ⟨s, w⟩ := x
  obtain ⟨hs, hrun⟩ := hx
  rcases hfile s hs with ⟨c, f, s₁, s', hdrop, hs', hlen, hopen, hread⟩ |
    ⟨d, e, hdrop, hd, hfails⟩
  · obtain ⟨w', hret, huploads, hsent, hrun'⟩ :=
      @returns_upload_ok _ _ sink hash blobs s₀ path _ _ _ _ w _ hlaw hrel hrun hread hlen.symm
    have hvalid : (producerView V sink hash s₀).Valid (s', w') := ⟨hs', hrun'⟩
    refine .after (returns_fromStream_ok hopen) (.after hret ?_)
    have hresult : (dropFile executable (V.rest s) >>= nodeProduced hash path w.uploads w.sent) =
        .ok (IngestionEntry.regular path (.ofNat (len f)) executable (hash c),
          (producerView V sink hash s₀).rest (s', w')) := by
      rw [dropFile, hdrop, hlen]
      simp [bind, Except.bind, nodeProduced, fileTree?, below, contents, Item.entry, producerView,
        huploads, hsent]
    rw [hresult]
    exact .pure hvalid
  · have hresult : (dropFile executable (V.rest s) >>= nodeProduced hash path w.uploads w.sent) =
        .error d := by
      rw [dropFile, hdrop]
      rfl
    rw [hresult]
    rcases hfails with hopen | ⟨f, s₁, hopen, hread⟩
    · exact .error hd (returns_fromStream_error hopen).bind_error
    · obtain ⟨e', hret⟩ :=
        @returns_upload_error _ _ sink hash blobs s₀ path (len f) _ s₁ w hlaw hrun _ hread
      exact .after (returns_fromStream_ok hopen) (.error hd hret.bind_error)

/-- Nodes, given the entries of directories. -/
theorem nodesProduce_succ (hA : A.Spec V) (hfile : FileSpec A len V)
    (hlaw : sink.Lawful hash blobs) (hrel : sink.Reliable) {n : ℕ}
    (ih : EntriesProduce A len sink hash s₀ V n) : NodesProduce A len sink hash s₀ V (n + 1) := by
  rintro path x hx hlen
  simp only [Node.new, fromStream_bind, bind_assoc]
  rw [parseNode, bind_assoc]
  refine agrees_fromStream (agrees_tag hA.read hA.reported nodeTags hx.1) fun t s hs ht => ?_
  have hlen' : (V.rest s).length < n := by
    have hrest := dropTag_eq_ok_iff.mp ht
    have hmin := nodeTags.min_le t
    rw [hrest, List.length_append] at hlen
    simp only [nodeTags] at *
    omega
  cases t with
  | sym =>
    simp only [fromStream_bind, fromStream_pure, bind_assoc, pure_bind, produceNarInner, dropSymlink]
    refine agrees_fromStream (hA.target s hs) fun target s' hs' htarget => ?_
    refine agrees_fromStream (agrees_token hA.read hA.reported TOK_PAR hs') fun _ s'' hs'' _ => ?_
    obtain ⟨t, ht, hval⟩ := tryFrom_target (dropTarget_eq_ok_iff.mp htarget).1
    have hproduced : nodeProduced hash path x.2.uploads x.2.sent (.symlink target, V.rest s'') =
        .ok (.symlink path target, (producerView V sink hash s₀).rest (s'', x.2)) := by
      simp [nodeProduced, fileTree?, ht, hval, Except.toOption, contents, below, Item.entry,
        producerView]
    change Agrees _ _ _ (nodeProduced hash path x.2.uploads x.2.sent (.symlink target, V.rest s''))
    rw [hproduced]
    exact .pure ⟨hs'', hx.2⟩
  | reg =>
    simp only [fromStream_bind, fromStream_pure, bind_assoc, pure_bind, produceNarInner]
    exact agrees_upload hlaw hrel hfile false path ⟨hs, hx.2⟩
  | exe =>
    simp only [fromStream_bind, fromStream_pure, bind_assoc, pure_bind, produceNarInner]
    exact agrees_upload hlaw hrel hfile true path ⟨hs, hx.2⟩
  | dir =>
    simp only [fromStream_pure, pure_bind, produceNarInner]
    have hproduced : (parseEntries n [] (V.rest s) >>= fun y =>
          nodeProduced hash path x.2.uploads x.2.sent (.directory y.1, y.2)) =
        (parseEntries n [] (V.rest s) >>= entriesProduced hash path x.2.uploads x.2.sent) >>=
          fun y => .ok (.dir path, y.2) := by
      rcases hparse : parseEntries n [] (V.rest s) with e | ⟨entries, b⟩
      · rfl
      · obtain ⟨hvalid, -⟩ := ((nodeSpec_and_entriesSpec n).2 _ _ _ _ hlen').mp hparse
        obtain ⟨t, ht⟩ := exists_fileTrees hash entries hvalid
        simp [bind, Except.bind, nodeProduced, entriesProduced, fileTree?, ht, contents, below,
          Item.entry]
    change Agrees _ _ _ ((parseEntries n [] (V.rest s) >>= fun y => .ok (Tree.directory y.1, y.2)) >>=
      nodeProduced hash path x.2.uploads x.2.sent)
    rw [bind_assoc]
    change Agrees _ _ _ (parseEntries n [] (V.rest s) >>= fun y =>
      nodeProduced hash path x.2.uploads x.2.sent (.directory y.1, y.2))
    rw [hproduced]
    exact (ih path [] (s, x.2) ⟨hs, hx.2⟩ hlen').bind fun _ y hy _ => .pure hy

theorem pushName_eq {name : Bytes} {c : PathComponent} (h : PathComponent.tryFrom name = .ok c)
    (path : PathBuf) : (pushName path name : Producer σ β PathBuf) = pure (path ++ [c]) := by
  rw [pushName, h]

theorem agrees_send (entry : IngestionEntry) {f : ℕ → Producer σ β γ} {x : σ × Ledger β}
    {r : Except ParseError (γ × Bytes × List Bytes × List IngestionEntry)}
    (h : Agrees (producerView V sink hash s₀) f (x.1, { x.2 with sent := x.2.sent ++ [entry] }) r) :
    Agrees (producerView V sink hash s₀) (fun k => send entry >>= fun _ => f k) x r :=
  .after (f := fun _ k => f k) ⟨0, fun _ _ => rfl⟩ h

/-- What is produced for an entry, and then for those after it. -/
theorem entryProduced_eq {n : ℕ} {path : PathBuf} {uploads : List Bytes} {sent : List IngestionEntry}
    {name b : Bytes} {c : PathComponent} (hc : PathComponent.tryFrom name = .ok c)
    (hlen : b.length < n) :
    (parseNode n b >>= fun x => parseEntries n name x.2 >>= fun y =>
        Except.ok (Entries.cons name x.1 y.1, y.2) >>= entriesProduced hash path uploads sent) =
      parseNode n b >>= fun x => nodeProduced hash (path ++ [c]) uploads sent x >>= fun y =>
        parseEntries n name y.2.1 >>= entriesProduced hash path y.2.2.1 (y.2.2.2 ++ [y.1]) := by
  rcases hnode : parseNode n b with e | ⟨tree, b'⟩
  · rfl
  obtain ⟨hvalid, hb⟩ := ((nodeSpec_and_entriesSpec n).1 _ _ _ hlen).mp hnode
  have hlen' : b'.length < n := by
    rw [hb, List.length_append] at hlen
    omega
  obtain ⟨t, ht⟩ := exists_fileTree hash tree hvalid
  simp only [bind, Except.bind, nodeProduced, ht]
  rcases hrest : parseEntries n name b' with e | ⟨rest, b''⟩
  · rfl
  obtain ⟨hvalidRest, -⟩ := ((nodeSpec_and_entriesSpec n).2 _ _ _ _ hlen').mp hrest
  obtain ⟨ts, hts⟩ := exists_fileTrees hash rest hvalidRest
  simp [entriesProduced, fileTrees?, hc, ht, hts, Except.toOption, entriesContents, entriesBelow]

theorem length_le_of_nodeProduced {n : ℕ} {path : PathBuf} {uploads : List Bytes}
    {sent : List IngestionEntry} {b b' : Bytes} {entry : IngestionEntry}
    {more : List Bytes × List IngestionEntry} (hlen : b.length < n)
    (h : (parseNode n b >>= nodeProduced hash path uploads sent) = .ok (entry, b', more)) :
    b'.length ≤ b.length := by
  obtain ⟨⟨tree, rest⟩, hnode, hproduced⟩ := except_bind_eq_ok_iff.mp h
  obtain ⟨hvalid, rfl⟩ := ((nodeSpec_and_entriesSpec n).1 _ _ _ hlen).mp hnode
  obtain ⟨t, ht⟩ := exists_fileTree hash tree hvalid
  simp only [nodeProduced, ht, Except.ok.injEq, Prod.mk.injEq] at hproduced
  rw [← hproduced.2.1, List.length_append]
  omega

/-- The entries of directories, given nodes. -/
theorem entriesProduce_succ (hA : A.Spec V) {n : ℕ} (ihn : NodesProduce A len sink hash s₀ V n)
    (ihe : EntriesProduce A len sink hash s₀ V n) :
    EntriesProduce A len sink hash s₀ V (n + 1) := by
  rintro path prev x hx hlen
  refine .succ (q := fun k => fromStream (DirReader.next A k ⟨prev⟩) >>= _) ?_ fun k => by
    rw [produceEntries]
  simp only [DirReader.next, fromStream_bind, bind_assoc]
  rw [parseEntries, bind_assoc]
  refine agrees_fromStream (agrees_endEntry hA prev hx.1) fun _ s₁ hs₁ hsep => ?_
  rw [bind_assoc]
  refine agrees_fromStream (agrees_tag hA.read hA.reported entryTags hs₁) fun t s₂ hs₂ ht => ?_
  have hlen₂ : (V.rest s₂).length < n := by
    have hrest₁ := dropSep_eq_ok_iff.mp hsep
    have hrest₂ := dropTag_eq_ok_iff.mp ht
    have hmin := entryTags.min_le t
    rw [hrest₁, hrest₂] at hlen
    simp only [entryTags, List.length_append] at *
    omega
  cases t with
  | none =>
    simp only [fromStream_pure, pure_bind]
    have hproduced : entriesProduced hash path x.2.uploads x.2.sent (.nil, V.rest s₂) =
        .ok ((), (producerView V sink hash s₀).rest (s₂, x.2)) := by
      simp [entriesProduced, fileTrees?, entriesContents, entriesBelow, producerView]
    change Agrees _ _ _ (entriesProduced hash path x.2.uploads x.2.sent (.nil, V.rest s₂))
    rw [hproduced]
    exact .pure ⟨hs₂, hx.2⟩
  | some =>
    simp only [dropHead, fromStream_bind, bind_assoc]
    refine agrees_fromStream (hA.name s₂ hs₂) fun name s₃ hs₃ hname => ?_
    obtain ⟨hvalidName, hrest₂⟩ := dropName_eq_ok_iff.mp hname
    have hlen₃ : (V.rest s₃).length < n := by
      rw [hrest₂, List.length_append] at hlen₂
      omega
    by_cases hlt : ¬ prev < name
    · simp only [if_pos hlt]
      refine agrees_fromStream (g := fun _ => .error .invalid) (.fail _ hA.reported)
        fun _ _ _ h => ?_
      cases h
    simp only [if_neg hlt, fromStream_bind, fromStream_pure, bind_assoc, pure_bind]
    refine agrees_fromStream (agrees_token hA.read hA.reported TOK_NOD hs₃) fun _ s₄ hs₄ htok => ?_
    have hlen₄ : (V.rest s₄).length < n := by
      have hrest := dropToken_eq_ok_iff.mp htok
      rw [hrest, List.length_append] at hlen₃
      omega
    obtain ⟨c, hc, hval⟩ := tryFrom_name hvalidName
    simp only [pushName_eq hc, pure_bind]
    -- the node, its entry, and the entries after it
    have hnode := (ihn (path ++ [c]) (s₄, x.2) ⟨hs₄, hx.2⟩ hlen₄).bind
      (f := fun entry k => send entry >>= fun _ => produceEntries A len sink hash k path ⟨name⟩)
      (g := fun y => parseEntries n name y.2.1 >>=
        entriesProduced hash path y.2.2.1 (y.2.2.2 ++ [y.1]))
      fun entry y hy hentry => ?_
    · simp only [bind_assoc] at hnode
      rw [← entryProduced_eq hc hlen₄] at hnode
      exact hnode
    refine agrees_send entry (ihe path name (y.1, _) hy ?_)
    exact (length_le_of_nodeProduced hlen₄ hentry).trans_lt hlen₄

theorem nodesProduce_and_entriesProduce (hA : A.Spec V) (hfile : FileSpec A len V)
    (hlaw : sink.Lawful hash blobs) (hrel : sink.Reliable) (n : ℕ) :
    NodesProduce A len sink hash s₀ V n ∧ EntriesProduce A len sink hash s₀ V n := by
  induction n with
  | zero =>
    exact ⟨fun path x _ h => absurd h (Nat.not_lt_zero _),
      fun path prev x _ h => absurd h (Nat.not_lt_zero _)⟩
  | succ n ih =>
    exact ⟨nodesProduce_succ hA hfile hlaw hrel ih.2, entriesProduce_succ hA ih.1 ih.2⟩

/-- What is produced for an archive. -/
theorem agrees_produce (hA : A.Spec V) (hfile : FileSpec A len V) (hlaw : sink.Lawful hash blobs)
    (hrel : sink.Reliable) {x : σ × Ledger β} (hx : (producerView V sink hash s₀).Valid x) :
    Agrees (producerView V sink hash s₀)
      (fun k => fromStream (openArchive A k) >>=
        produceNarInner A len sink hash k (produceEntries A len sink hash k) [rootName]) x
      (parse (V.rest x.1) >>= nodeProduced hash [rootName] x.2.uploads x.2.sent) := by
  simp only [openArchive, fromStream_bind, bind_assoc]
  rw [parse, bind_assoc]
  refine agrees_fromStream (agrees_token hA.read hA.reported TOK_NAR hx.1) fun _ s hs _ => ?_
  exact (nodesProduce_and_entriesProduce hA hfile hlaw hrel _).1 [rootName] (s, x.2) ⟨hs, hx.2⟩
    (Nat.lt_succ_self _)

end

end Snix.Store
