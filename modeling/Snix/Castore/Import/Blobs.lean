import Snix.Castore.DirectoryService.OrderValidator
import Snix.Castore.Import.FileTree
import Snix.Lib.AsyncStream

/-!
# Uploading blobs in the background

The contents of small files are buffered and uploaded by tasks that run beside the reader of
an archive. A semaphore bounds what is buffered. When everything was read the tasks are
joined, and the first of them that failed is reported.

Which task goes on at a time is not known; between asking a blob service for a blob and
sending it, other tasks may send blobs.

## Main definitions

- `BlobSink` — a blob service that is written to
- `ConcurrentBlobUploader`, with `runTask`, `upload` and `join`
- `Run` — an uploader, after uploads and steps of its tasks in any order

## Main results

- `Run.inv` — what holds in any order
- `uploader_spec` — what is buffered, that no one waits forever, and what was uploaded
-/

namespace Snix.Castore

/-- Files smaller than this are uploaded in the background. -/
def CONCURRENT_BLOB_UPLOAD_THRESHOLD : ℕ := 1024 * 1024

def MAX_BUFFER_SIZE : ℕ := 128 * 1024 * 1024

inductive BlobUploadError where
  | blobRead (path : PathBuf) (e : IoError)
  | blobCheck (path : PathBuf) (e : IoError)
  | blobFinalize (path : PathBuf) (e : IoError)
  | unexpectedSize (path : PathBuf) (wanted got : ℕ)
  /-- A task panicked. -/
  | joinError
  deriving DecidableEq

/-- Why a blob is not written: copying into the writer fails, or closing it. -/
inductive WriteFault where
  | copy (e : IoError)
  | close (e : IoError)

/-- A blob service that blobs are written to. A blob is there when its writer is closed. -/
structure BlobSink (β : Type) where
  has : β → B3Digest → Except IoError Bool
  write : β → Bytes → Except WriteFault (B3Digest × β)

/-- An upload that runs in the background. It first asks whether the blob is there already. -/
structure UploadTask where
  path : PathBuf
  expectedSize : ℕ
  digest : B3Digest
  contents : Bytes
  checked : Bool

/-- The tasks that run, the results of those that ended, and the permits that are left. -/
structure ConcurrentBlobUploader (β : Type) where
  blobService : β
  uploadTasks : List UploadTask
  finished : List (Except BlobUploadError Unit)
  uploadSemaphore : ℕ

section

variable {β : Type} (sink : BlobSink β) (hash : Bytes → B3Digest)

def uploadBlob (path : PathBuf) (expectedSize : ℕ) (contents : Bytes) (s : β) :
    Except BlobUploadError B3Digest × β :=
  match sink.write s contents with
  | .error (.copy e) => (.error (.blobRead path e), s)
  | .error (.close e) => (.error (.blobFinalize path e), s)
  | .ok (digest, s) =>
    if contents.length ≠ expectedSize then
      (.error (.unexpectedSize path expectedSize contents.length), s)
    else (.ok digest, s)

/-- The next step of a task: it goes on, or ends with a result. -/
def UploadTask.poll (t : UploadTask) (s : β) :
    β × (UploadTask ⊕ Except BlobUploadError Unit) :=
  if t.checked then
    match uploadBlob sink t.path t.expectedSize t.contents s with
    | (.error e, s) => (s, .inr (.error e))
    -- the digests are compared
    | (.ok digest, s) => (s, .inr (if digest = t.digest then .ok () else .error .joinError))
  else
    match sink.has s t.digest with
    | .error e => (s, .inr (.error (.blobCheck t.path e)))
    | .ok true => (s, .inr (.ok ()))
    | .ok false => (s, .inl { t with checked := true })

namespace ConcurrentBlobUploader

def new (blobService : β) : ConcurrentBlobUploader β := ⟨blobService, [], [], MAX_BUFFER_SIZE⟩

/-- A task takes a step. When it ends it gives its permits back. -/
def runTask (i : ℕ) (u : ConcurrentBlobUploader β) : ConcurrentBlobUploader β :=
  match u.uploadTasks[i]? with
  | none => u
  | some t =>
    match t.poll sink u.blobService with
    | (s, .inl t) => { u with blobService := s, uploadTasks := u.uploadTasks.set i t }
    | (s, .inr result) =>
      ⟨s, u.uploadTasks.eraseIdx i, u.finished ++ [result], u.uploadSemaphore + t.expectedSize⟩

/-- Uploads what is read. `none` waits for permits. -/
def upload (path : PathBuf) (expectedSize : ℕ) (read : Except IoError Bytes)
    (u : ConcurrentBlobUploader β) :
    Option (Except BlobUploadError B3Digest × ConcurrentBlobUploader β) :=
  if expectedSize < CONCURRENT_BLOB_UPLOAD_THRESHOLD then
    if u.uploadSemaphore < expectedSize then none
    else
      match read with
      | .error e => some (.error (.blobRead path e), u)
      | .ok contents =>
        if contents.length ≠ expectedSize then
          some (.error (.unexpectedSize path expectedSize contents.length), u)
        else
          some (.ok (hash contents), { u with
            uploadTasks := u.uploadTasks ++ [⟨path, expectedSize, hash contents, contents, false⟩]
            uploadSemaphore := u.uploadSemaphore - expectedSize })
  else
    match read with
    | .error e => some (.error (.blobRead path e), u)
    | .ok contents =>
      let (result, s) := uploadBlob sink path expectedSize contents u.blobService
      some (result, { u with blobService := s })

/-- What the tasks have left to do. -/
def work (u : ConcurrentBlobUploader β) : ℕ :=
  (u.uploadTasks.map fun t => if t.checked then 1 else 2).sum

/-- Lets tasks run, in turn, until something is the case. `none` waits forever. -/
def runUntil (p : ConcurrentBlobUploader β → Bool) :
    ℕ → ConcurrentBlobUploader β → Option (ConcurrentBlobUploader β)
  | 0, u => if p u then some u else none
  | n + 1, u => if p u then some u else runUntil p n (u.runTask sink 0)

/-- Uploads what is read as soon as there are permits. The tasks run in the given order first. -/
def awaitUpload (order : List ℕ) (path : PathBuf) (expectedSize : ℕ) (read : Except IoError Bytes)
    (u : ConcurrentBlobUploader β) :
    Option (Except BlobUploadError B3Digest × ConcurrentBlobUploader β) :=
  let u := order.foldl (fun u i => u.runTask sink i) u
  match u.runUntil sink (fun u => (u.upload sink hash path expectedSize read).isSome) u.work with
  | none => none
  | some u => u.upload sink hash path expectedSize read

/-- The first result that is an error. -/
def firstError (u : ConcurrentBlobUploader β) : Option BlobUploadError :=
  u.finished.findSome? fun
    | .error e => some e
    | .ok () => none

/-- Waits for the tasks, which run in the given order first. The tasks that are left after an
    error are aborted. -/
def join (order : List ℕ) (u : ConcurrentBlobUploader β) : Option (Except BlobUploadError β) :=
  let u := order.foldl (fun u i => u.runTask sink i) u
  match u.runUntil sink (fun u => u.firstError.isSome || u.uploadTasks.isEmpty) u.work with
  | none => none
  | some u =>
    match u.firstError with
    | some e => some (.error e)
    | none => some (.ok u.blobService)

/-- The uploader after some contents were read and those of them in the second list were uploaded,
    where tasks took steps at any time. -/
inductive Run (s₀ : β) : List Bytes → List Bytes → ConcurrentBlobUploader β → Prop where
  | new : Run s₀ [] [] (.new s₀)
  | task {seen l u} (i : ℕ) (h : Run s₀ seen l u) : Run s₀ seen l (u.runTask sink i)
  | uploaded {seen l u path expectedSize contents digest u'} (h : Run s₀ seen l u)
      (hupload : u.upload sink hash path expectedSize (.ok contents) = some (.ok digest, u')) :
      Run s₀ (seen ++ [contents]) (l ++ [contents]) u'
  | failed {seen l u path expectedSize read e u'} (h : Run s₀ seen l u)
      (hupload : u.upload sink hash path expectedSize read = some (.error e, u')) :
      Run s₀ (seen ++ read.toOption.toList) l u'

end ConcurrentBlobUploader

end

-- ====================
-- What holds in any order
-- ====================

/-- A blob service that keeps what was written to it under the digest. -/
structure BlobSink.Lawful {β : Type} (sink : BlobSink β) (hash : Bytes → B3Digest)
    (blobs : β → B3Digest → Option Bytes) : Prop where
  has : ∀ s k b, sink.has s k = .ok b → b = (blobs s k).isSome
  write : ∀ s c k s', sink.write s c = .ok (k, s') → k = hash c ∧ (blobs s' k).isSome ∧
    ∀ j, blobs s' j = blobs s j ∨ j = k ∧ blobs s' j = some c

section

variable {β : Type} {sink : BlobSink β} {hash : Bytes → B3Digest}
  {blobs : β → B3Digest → Option Bytes} {s₀ s s' : β} {seen l : List Bytes}
  {u u' : ConcurrentBlobUploader β}

/-- The blob service has the old blobs and some of those that were read. -/
def Grown (hash : Bytes → B3Digest) (blobs : β → B3Digest → Option Bytes) (s₀ : β)
    (seen : List Bytes) (s : β) : Prop :=
  ∀ k c, blobs s k = some c → blobs s₀ k = some c ∨ hash c = k ∧ c ∈ seen

theorem Grown.mono {seen' : List Bytes} (h : Grown hash blobs s₀ seen s)
    (hsub : ∀ c ∈ seen, c ∈ seen') : Grown hash blobs s₀ seen' s := by
  intro k c hc
  rcases h k c hc with hold | ⟨hk, hmem⟩
  · exact .inl hold
  · exact .inr ⟨hk, hsub c hmem⟩

/-- The blobs that are there stay there. -/
def StillThere (blobs : β → B3Digest → Option Bytes) (s s' : β) : Prop :=
  ∀ k, (blobs s k).isSome → (blobs s' k).isSome

/-- What uploading a blob does to the service. -/
theorem uploadBlob_spec (hlaw : sink.Lawful hash blobs) {path : PathBuf} {size : ℕ}
    {contents : Bytes} {result : Except BlobUploadError B3Digest}
    (h : uploadBlob sink path size contents s = (result, s')) (hmem : contents ∈ seen)
    (hs : Grown hash blobs s₀ seen s) :
    Grown hash blobs s₀ seen s' ∧ StillThere blobs s s' ∧
      ∀ digest, result = .ok digest → digest = hash contents ∧ contents.length = size ∧
        (blobs s' (hash contents)).isSome := by
  unfold uploadBlob at h
  rcases hwrite : sink.write s contents with (e | e) | ⟨digest, s''⟩
  · rw [hwrite] at h
    cases h
    exact ⟨hs, fun _ hk => hk, fun _ h => by cases h⟩
  · rw [hwrite] at h
    cases h
    exact ⟨hs, fun _ hk => hk, fun _ h => by cases h⟩
  · obtain ⟨rfl, hthere, hblobs⟩ := hlaw.write _ _ _ _ hwrite
    rw [hwrite] at h
    have hs' : s'' = s' := by
      dsimp only at h
      split_ifs at h
      · exact congrArg Prod.snd h
      · exact congrArg Prod.snd h
    subst hs'
    refine ⟨fun k c hc => ?_, fun k hk => ?_, fun digest hresult => ?_⟩
    · rcases hblobs k with hsame | ⟨rfl, hnew⟩
      · exact hs k c (hsame.symm.trans hc)
      · cases hnew.symm.trans hc
        exact .inr ⟨rfl, hmem⟩
    · rcases hblobs k with hsame | ⟨-, hnew⟩
      · rwa [hsame]
      · rw [hnew]
        rfl
    · dsimp only at h
      split_ifs at h with hlen
      · cases (congrArg Prod.fst h).trans hresult
      · cases (congrArg Prod.fst h).trans hresult
        exact ⟨rfl, not_not.mp hlen, hthere⟩

/-- A task that was started for contents that were read. -/
structure UploadTask.Sound (hash : Bytes → B3Digest) (seen : List Bytes) (t : UploadTask) :
    Prop where
  digest : t.digest = hash t.contents
  mem : t.contents ∈ seen

/-- What a step of a task does. When it ends without an error the blob is there. -/
theorem UploadTask.poll_spec (hlaw : sink.Lawful hash blobs) {t : UploadTask}
    (ht : t.Sound hash seen) (hs : Grown hash blobs s₀ seen s)
    {next : UploadTask ⊕ Except BlobUploadError Unit} (h : t.poll sink s = (s', next)) :
    Grown hash blobs s₀ seen s' ∧ StillThere blobs s s' ∧
      ((next = .inl { t with checked := true } ∧ t.checked = false) ∨
        ∃ result, next = .inr result ∧
          (result = .ok () → (blobs s' (hash t.contents)).isSome)) := by
  unfold UploadTask.poll at h
  split_ifs at h with hchecked
  · rcases hup : uploadBlob sink t.path t.expectedSize t.contents s with ⟨e | digest, s''⟩
    · obtain ⟨hgrown, hkeeps, -⟩ := uploadBlob_spec hlaw hup ht.mem hs
      rw [hup] at h
      cases h
      exact ⟨hgrown, hkeeps, .inr ⟨_, rfl, fun h => by cases h⟩⟩
    · obtain ⟨hgrown, hkeeps, hok⟩ := uploadBlob_spec hlaw hup ht.mem hs
      rw [hup] at h
      cases h
      exact ⟨hgrown, hkeeps, .inr ⟨_, rfl, fun _ => (hok digest rfl).2.2⟩⟩
  · rcases hhas : sink.has s t.digest with e | _ | _
    · rw [hhas] at h
      cases h
      exact ⟨hs, fun _ hk => hk, .inr ⟨_, rfl, fun h => by cases h⟩⟩
    · rw [hhas] at h
      cases h
      exact ⟨hs, fun _ hk => hk, .inl ⟨rfl, by simpa using hchecked⟩⟩
    · have hthere := hlaw.has _ _ _ hhas
      rw [hhas] at h
      cases h
      refine ⟨hs, fun _ hk => hk, .inr ⟨_, rfl, fun _ => ?_⟩⟩
      rw [← ht.digest]
      exact hthere.symm

/-- A blob service that does not fail. -/
structure BlobSink.Reliable (sink : BlobSink β) : Prop where
  has : ∀ s k, ∃ b, sink.has s k = .ok b
  write : ∀ s c, ∃ x, sink.write s c = .ok x

theorem uploadBlob_ok (hrel : sink.Reliable) (hlaw : sink.Lawful hash blobs) (path : PathBuf)
    (contents : Bytes) (s : β) :
    ∃ s', uploadBlob sink path contents.length contents s = (.ok (hash contents), s') := by
  obtain ⟨⟨digest, s'⟩, hwrite⟩ := hrel.write s contents
  obtain ⟨rfl, -⟩ := hlaw.write _ _ _ _ hwrite
  refine ⟨s', ?_⟩
  rw [uploadBlob, hwrite]
  exact if_neg (not_not.mpr rfl)

theorem UploadTask.poll_ok (hrel : sink.Reliable) (hlaw : sink.Lawful hash blobs) {t : UploadTask}
    (hdigest : t.digest = hash t.contents) (hlen : t.contents.length = t.expectedSize)
    {result : Except BlobUploadError Unit} (h : t.poll sink s = (s', .inr result)) :
    result = .ok () := by
  unfold poll at h
  split_ifs at h
  · obtain ⟨s'', hup⟩ := uploadBlob_ok hrel hlaw t.path t.contents s
    rw [← hlen, hup] at h
    cases h
    exact if_pos hdigest.symm
  · obtain ⟨b, hhas⟩ := hrel.has s t.digest
    rw [hhas] at h
    cases b with
    | false => cases h
    | true =>
      cases h
      rfl

/-- A task that goes on has not asked for the blob before. -/
theorem UploadTask.poll_cases (sink : BlobSink β) (t : UploadTask) (s : β) :
    (∃ s' result, t.poll sink s = (s', .inr result)) ∨
      t.checked = false ∧ t.poll sink s = (s, .inl { t with checked := true }) := by
  unfold poll
  split_ifs with hchecked
  · left
    rcases uploadBlob sink t.path t.expectedSize t.contents s with ⟨e | digest, s'⟩
    · exact ⟨s', _, rfl⟩
    · exact ⟨s', _, rfl⟩
  · rcases sink.has s t.digest with e | _ | _
    · exact .inl ⟨s, _, rfl⟩
    · exact .inr ⟨by simpa using hchecked, rfl⟩
    · exact .inl ⟨s, _, rfl⟩

namespace ConcurrentBlobUploader

/-- What holds of an uploader in any order of steps. -/
structure Inv (hash : Bytes → B3Digest) (blobs : β → B3Digest → Option Bytes) (s₀ : β)
    (seen l : List Bytes) (u : ConcurrentBlobUploader β) : Prop where
  permits : u.uploadSemaphore + (u.uploadTasks.map fun t => t.expectedSize).sum = MAX_BUFFER_SIZE
  tasks : ∀ t ∈ u.uploadTasks, t.Sound hash seen ∧ t.contents.length = t.expectedSize
  grown : Grown hash blobs s₀ seen u.blobService
  subset : ∀ c ∈ l, c ∈ seen
  /-- What was uploaded is there, or on its way, or an error is going to be reported. -/
  uploaded : ∀ c ∈ l, (∃ t ∈ u.uploadTasks, t.contents = c) ∨
    (blobs u.blobService (hash c)).isSome ∨ ∃ e, .error e ∈ u.finished

theorem Inv.new : Inv hash blobs s₀ [] [] (.new s₀) where
  permits := Nat.add_zero _
  tasks _ h := by cases h
  grown _ _ h := .inl h
  subset _ h := by cases h
  uploaded _ h := by cases h

/-- A task ended: it is taken away, with its permits and with a result. -/
theorem Inv.ended (h : Inv hash blobs s₀ seen l u) {t : UploadTask} {rest : List UploadTask}
    (hperm : (t :: rest).Perm u.uploadTasks) (hgrown : Grown hash blobs s₀ seen s)
    (hkeeps : StillThere blobs u.blobService s) {result : Except BlobUploadError Unit}
    (hresult : result = .ok () → (blobs s (hash t.contents)).isSome) :
    Inv hash blobs s₀ seen l
      ⟨s, rest, u.finished ++ [result], u.uploadSemaphore + t.expectedSize⟩ where
  permits := by
    have hpermits := h.permits
    rw [← (hperm.map fun t => t.expectedSize).sum_eq, List.map_cons, List.sum_cons] at hpermits
    dsimp only
    omega
  tasks t' ht' := h.tasks t' (hperm.subset (List.mem_cons_of_mem t ht'))
  grown := hgrown
  subset := h.subset
  uploaded c hc := by
    rcases h.uploaded c hc with ⟨t', ht', rfl⟩ | hthere | ⟨e, he⟩
    · rcases List.mem_cons.mp (hperm.mem_iff.mpr ht') with rfl | ht'
      · cases result with
        | error e => exact .inr (.inr ⟨e, by simp⟩)
        | ok a => exact .inr (.inl (hresult rfl))
      · exact .inl ⟨t', ht', rfl⟩
    · exact .inr (.inl (hkeeps _ hthere))
    · exact .inr (.inr ⟨e, List.mem_append_left _ he⟩)

/-- A task goes on. -/
theorem Inv.checked (h : Inv hash blobs s₀ seen l u) {t : UploadTask} {rest tasks : List UploadTask}
    (hperm : (t :: rest).Perm u.uploadTasks)
    (hperm' : tasks.Perm ({ t with checked := true } :: rest))
    (hgrown : Grown hash blobs s₀ seen s) (hkeeps : StillThere blobs u.blobService s) :
    Inv hash blobs s₀ seen l { u with blobService := s, uploadTasks := tasks } where
  permits := by
    rw [(hperm'.map fun t => t.expectedSize).sum_eq, List.map_cons, List.sum_cons, ← h.permits,
      ← (hperm.map fun t => t.expectedSize).sum_eq, List.map_cons, List.sum_cons]
  tasks t' ht' := by
    rcases List.mem_cons.mp (hperm'.subset ht') with rfl | ht'
    · obtain ⟨⟨hdigest, hmem⟩, hlen⟩ := h.tasks t (hperm.subset List.mem_cons_self)
      exact ⟨⟨hdigest, hmem⟩, hlen⟩
    · exact h.tasks t' (hperm.subset (List.mem_cons_of_mem t ht'))
  grown := hgrown
  subset := h.subset
  uploaded c hc := by
    rcases h.uploaded c hc with ⟨t', ht', rfl⟩ | hthere | herror
    · left
      rcases List.mem_cons.mp (hperm.mem_iff.mpr ht') with rfl | ht'
      · exact ⟨_, hperm'.mem_iff.mpr List.mem_cons_self, rfl⟩
      · exact ⟨t', hperm'.mem_iff.mpr (List.mem_cons_of_mem _ ht'), rfl⟩
    · exact .inr (.inl (hkeeps _ hthere))
    · exact .inr (.inr herror)

theorem Inv.runTask (hlaw : sink.Lawful hash blobs) (h : Inv hash blobs s₀ seen l u) (i : ℕ) :
    Inv hash blobs s₀ seen l (u.runTask sink i) := by
  unfold ConcurrentBlobUploader.runTask
  cases ht : u.uploadTasks[i]? with
  | none => exact h
  | some t =>
    obtain ⟨hi, hget⟩ := List.getElem?_eq_some_iff.mp ht
    have hperm := List.getElem_cons_eraseIdx_perm hi
    rw [hget] at hperm
    obtain ⟨hsound, hlen⟩ := h.tasks t (List.mem_of_getElem? ht)
    rcases hpoll : t.poll sink u.blobService with ⟨s, next⟩
    obtain ⟨hgrown, hkeeps, ⟨rfl, -⟩ | ⟨result, rfl, hresult⟩⟩ :=
      UploadTask.poll_spec hlaw hsound h.grown hpoll
    · simp only [hpoll]
      exact h.checked hperm (List.set_perm_cons_eraseIdx hi _) hgrown hkeeps
    · simp only [hpoll]
      exact h.ended hperm hgrown hkeeps hresult

/-- More was read. -/
theorem Inv.mono (h : Inv hash blobs s₀ seen l u) (more : List Bytes) :
    Inv hash blobs s₀ (seen ++ more) l u where
  permits := h.permits
  tasks t ht :=
    ⟨⟨(h.tasks t ht).1.digest, List.mem_append_left more (h.tasks t ht).1.mem⟩, (h.tasks t ht).2⟩
  grown := h.grown.mono fun _ hc => List.mem_append_left more hc
  subset c hc := List.mem_append_left more (h.subset c hc)
  uploaded := h.uploaded

/-- A task is started for contents that were read. -/
theorem Inv.spawned (h : Inv hash blobs s₀ seen l u) {path : PathBuf} {contents : Bytes}
    (hfree : contents.length ≤ u.uploadSemaphore) :
    Inv hash blobs s₀ (seen ++ [contents]) (l ++ [contents]) { u with
      uploadTasks := u.uploadTasks ++ [⟨path, contents.length, hash contents, contents, false⟩]
      uploadSemaphore := u.uploadSemaphore - contents.length } where
  permits := by
    have hpermits := h.permits
    simp only [List.map_append, List.map_cons, List.map_nil, List.sum_append, List.sum_singleton]
    omega
  tasks t ht := by
    rcases List.mem_append.mp ht with ht | ht
    · exact (h.mono [contents]).tasks t ht
    · rw [List.mem_singleton.mp ht]
      exact ⟨⟨rfl, by simp⟩, rfl⟩
  grown := (h.mono [contents]).grown
  subset c hc := by
    rcases List.mem_append.mp hc with hc | hc
    · exact List.mem_append_left _ (h.subset c hc)
    · exact List.mem_append_right _ hc
  uploaded c hc := by
    rcases List.mem_append.mp hc with hc | hc
    · rcases h.uploaded c hc with ⟨t, ht, heq⟩ | hrest
      · exact .inl ⟨t, List.mem_append_left _ ht, heq⟩
      · exact .inr hrest
    · rw [List.mem_singleton.mp hc]
      exact .inl ⟨_, List.mem_append_right _ (List.mem_singleton_self _), rfl⟩

/-- Contents that were read go to the blob service at once. -/
theorem Inv.sent (h : Inv hash blobs s₀ seen l u) (hgrown : Grown hash blobs s₀ seen s)
    (hkeeps : StillThere blobs u.blobService s) :
    Inv hash blobs s₀ seen l { u with blobService := s } where
  permits := h.permits
  tasks := h.tasks
  grown := hgrown
  subset := h.subset
  uploaded c hc := by
    rcases h.uploaded c hc with htask | hthere | herror
    · exact .inl htask
    · exact .inr (.inl (hkeeps _ hthere))
    · exact .inr (.inr herror)

theorem Inv.concat (h : Inv hash blobs s₀ seen l u) {contents : Bytes} (hmem : contents ∈ seen)
    (hthere : (blobs u.blobService (hash contents)).isSome) :
    Inv hash blobs s₀ seen (l ++ [contents]) u where
  permits := h.permits
  tasks := h.tasks
  grown := h.grown
  subset c hc := by
    rcases List.mem_append.mp hc with hc | hc
    · exact h.subset c hc
    · rwa [List.mem_singleton.mp hc]
  uploaded c hc := by
    rcases List.mem_append.mp hc with hc | hc
    · exact h.uploaded c hc
    · rw [List.mem_singleton.mp hc]
      exact .inr (.inl hthere)

/-- What an upload does. -/
theorem Inv.upload (hlaw : sink.Lawful hash blobs) (h : Inv hash blobs s₀ seen l u)
    {path : PathBuf} {size : ℕ} {read : Except IoError Bytes}
    {result : Except BlobUploadError B3Digest}
    (hupload : u.upload sink hash path size read = some (result, u')) :
    (∃ e, result = .error e ∧ Inv hash blobs s₀ (seen ++ read.toOption.toList) l u') ∨
      ∃ contents, read = .ok contents ∧ result = .ok (hash contents) ∧ contents.length = size ∧
        Inv hash blobs s₀ (seen ++ [contents]) (l ++ [contents]) u' := by
  unfold ConcurrentBlobUploader.upload at hupload
  cases read with
  | error e =>
    left
    split_ifs at hupload
    · cases hupload
      exact ⟨_, rfl, h.mono _⟩
    · cases hupload
      exact ⟨_, rfl, h.mono _⟩
  | ok contents =>
    dsimp only at hupload
    split_ifs at hupload with hsmall hfree hlen
    · cases hupload
      exact .inl ⟨_, rfl, h.mono _⟩
    · obtain rfl := not_not.mp hlen
      cases hupload
      exact .inr ⟨contents, rfl, rfl, rfl, h.spawned (Nat.not_lt.mp hfree)⟩
    · rcases hup : uploadBlob sink path size contents u.blobService with ⟨result', s⟩
      rw [hup] at hupload
      cases hupload
      have hmem : contents ∈ seen ++ [contents] := by simp
      have hmono := h.mono [contents]
      obtain ⟨hgrown, hkeeps, hok⟩ := uploadBlob_spec hlaw hup hmem hmono.grown
      have hsent := hmono.sent hgrown hkeeps
      cases result' with
      | error e => exact .inl ⟨e, rfl, hsent⟩
      | ok digest =>
        obtain ⟨rfl, hsize, hthere⟩ := hok digest rfl
        exact .inr ⟨contents, rfl, rfl, hsize, hsent.concat hmem hthere⟩

/-- What holds in any order of steps. -/
theorem Run.inv (hlaw : sink.Lawful hash blobs) (h : Run sink hash s₀ seen l u) :
    Inv hash blobs s₀ seen l u := by
  induction h with
  | new => exact .new
  | task i _ ih => exact ih.runTask hlaw i
  | uploaded _ hupload ih =>
    rcases ih.upload hlaw hupload with ⟨e, hresult, -⟩ | ⟨contents', hread, -, -, hinv⟩
    · cases hresult
    · cases hread
      exact hinv
  | failed _ hupload ih =>
    rcases ih.upload hlaw hupload with ⟨e, -, hinv⟩ | ⟨contents', -, hresult, -⟩
    · exact hinv
    · cases hresult

-- ====================
-- Waiting
-- ====================

/-- A task that takes a step has less left to do. -/
theorem work_runTask (sink : BlobSink β) {i : ℕ} (hi : i < u.uploadTasks.length) :
    (u.runTask sink i).work < u.work := by
  have hperm := List.getElem_cons_eraseIdx_perm hi
  have hset := fun t => List.set_perm_cons_eraseIdx hi t
  have hwork : u.work = (if u.uploadTasks[i].checked then 1 else 2) +
      ((u.uploadTasks.eraseIdx i).map fun t => if t.checked then 1 else 2).sum := by
    rw [work, ← (hperm.map _).sum_eq, List.map_cons, List.sum_cons]
  unfold runTask
  rw [List.getElem?_eq_getElem hi]
  rcases u.uploadTasks[i].poll_cases sink u.blobService with ⟨s, result, hpoll⟩ | ⟨hchecked, hpoll⟩
  · simp only [hpoll]
    rw [hwork, work]
    dsimp only
    split_ifs <;> omega
  · simp only [hpoll]
    rw [hwork, work, ((hset _).map _).sum_eq, List.map_cons, List.sum_cons, hchecked]
    simp

/-- Only tasks that run are chosen. -/
def Busy (sink : BlobSink β) : ConcurrentBlobUploader β → List ℕ → Prop
  | _, [] => True
  | u, i :: order => i < u.uploadTasks.length ∧ Busy sink (u.runTask sink i) order

/-- In whatever order the tasks run, they come to an end. -/
theorem length_le_work {order : List ℕ} (h : Busy sink u order) : order.length ≤ u.work := by
  induction order generalizing u with
  | nil => exact Nat.zero_le _
  | cons i order ih =>
    have hlt := work_runTask sink h.1
    have hle := ih h.2
    rw [List.length_cons]
    omega

/-- What is the case when no task is left becomes the case, and what the tasks keep is kept. -/
theorem runUntil_spec {p : ConcurrentBlobUploader β → Bool} {I : ConcurrentBlobUploader β → Prop}
    (hI : ∀ u, I u → I (u.runTask sink 0)) (hp : ∀ u, I u → u.uploadTasks = [] → p u) {n : ℕ}
    (hn : u.work ≤ n) (h : I u) : ∃ u', u.runUntil sink p n = some u' ∧ p u' ∧ I u' := by
  induction n generalizing u with
  | zero =>
    have hnil : u.uploadTasks = [] := by
      rcases htasks : u.uploadTasks with _ | ⟨t, tasks⟩
      · rfl
      · have hlt := @work_runTask _ u sink 0 (by simp [htasks])
        omega
    exact ⟨u, by rw [runUntil, if_pos (hp u h hnil)], hp u h hnil, h⟩
  | succ n ih =>
    by_cases hnow : p u = true
    · exact ⟨u, by rw [runUntil, if_pos hnow], hnow, h⟩
    · have hpos : 0 < u.uploadTasks.length := by
        rw [List.length_pos_iff]
        exact fun hnil => hnow (hp u h hnil)
      have hlt := work_runTask sink hpos
      obtain ⟨u', hrun, hu', h'⟩ := ih (by omega) (hI u h)
      exact ⟨u', by rw [runUntil, if_neg hnow, hrun], hu', h'⟩

/-- Joining comes to an end. -/
theorem join_isSome (sink : BlobSink β) (order : List ℕ) (u : ConcurrentBlobUploader β) :
    ∃ result, u.join sink order = some result := by
  obtain ⟨u', hrun, -⟩ := @runUntil_spec β sink (order.foldl (fun u i => u.runTask sink i) u)
    (fun u => u.firstError.isSome || u.uploadTasks.isEmpty) (fun _ => True)
    (fun _ _ => trivial) (fun u _ hnil => by simp [hnil]) _ le_rfl trivial
  rw [join, hrun]
  cases herror : u'.firstError with
  | some e => exact ⟨.error e, by simp only [herror]⟩
  | none => exact ⟨.ok u'.blobService, by simp only [herror]⟩

theorem Run.foldl (h : Run sink hash s₀ seen l u) (order : List ℕ) :
    Run sink hash s₀ seen l (order.foldl (fun u i => u.runTask sink i) u) := by
  induction order generalizing u with
  | nil => exact h
  | cons i order ih => exact ih (h.task i)

/-- The permits of all tasks together are enough for any file. -/
theorem upload_isSome (hlaw : sink.Lawful hash blobs) (h : Run sink hash s₀ seen l u)
    (hnil : u.uploadTasks = []) (path : PathBuf) (size : ℕ) (read : Except IoError Bytes) :
    (u.upload sink hash path size read).isSome := by
  have hpermits := (h.inv hlaw).permits
  rw [hnil] at hpermits
  unfold upload
  split_ifs with hsmall hfree
  · simp only [List.map_nil, List.sum_nil, MAX_BUFFER_SIZE,
      CONCURRENT_BLOB_UPLOAD_THRESHOLD] at hpermits hsmall
    omega
  · cases read with
    | error e => rfl
    | ok contents =>
      dsimp only
      split_ifs <;> rfl
  · cases read with
    | error e => rfl
    | ok contents => rfl

/-- What cannot be read is not uploaded. -/
theorem upload_error {path : PathBuf} {size : ℕ} {e : IoError}
    {result : Except BlobUploadError B3Digest}
    (h : u.upload sink hash path size (.error e) = some (result, u')) :
    ∃ e', result = .error e' := by
  unfold upload at h
  split_ifs at h
  all_goals
    cases h
    exact ⟨_, rfl⟩

theorem upload_ok (hrel : sink.Reliable) (hlaw : sink.Lawful hash blobs) {path : PathBuf}
    {contents : Bytes} {result : Except BlobUploadError B3Digest}
    (h : u.upload sink hash path contents.length (.ok contents) = some (result, u')) :
    result = .ok (hash contents) := by
  unfold upload at h
  dsimp only at h
  split_ifs at h with hsmall hfree hlen
  · exact absurd rfl hlen
  · cases h
    rfl
  · obtain ⟨s, hup⟩ := uploadBlob_ok hrel hlaw path contents u.blobService
    rw [hup] at h
    cases h
    rfl

/-- An upload comes to its turn. If the blob service does not fail and the size is right it
    succeeds. -/
theorem Run.awaitUpload (hlaw : sink.Lawful hash blobs) (h : Run sink hash s₀ seen l u)
    (order : List ℕ) (path : PathBuf) (size : ℕ) (read : Except IoError Bytes) :
    ∃ result u', u.awaitUpload sink hash order path size read = some (result, u') ∧
      (∀ e, read = .error e → ∃ e', result = .error e') ∧
      (sink.Reliable → ∀ contents, read = .ok contents → contents.length = size →
        result = .ok (hash contents) ∧
          Run sink hash s₀ (seen ++ [contents]) (l ++ [contents]) u') := by
  obtain ⟨v, hrun, hready, h'⟩ := runUntil_spec
    (p := fun u => (u.upload sink hash path size read).isSome) (fun _ hu => hu.task 0)
    (fun u hu hnil => upload_isSome hlaw hu hnil path size read) le_rfl (h.foldl order)
  obtain ⟨⟨result, u'⟩, hupload⟩ := Option.isSome_iff_exists.mp hready
  refine ⟨result, u', ?_, ?_, ?_⟩
  · rw [ConcurrentBlobUploader.awaitUpload, hrun]
    exact hupload
  · rintro e rfl
    exact upload_error hupload
  · rintro hrel contents rfl rfl
    obtain rfl := upload_ok hrel hlaw hupload
    exact ⟨rfl, h'.uploaded hupload⟩

theorem finished_of_upload {path : PathBuf} {size : ℕ} {read : Except IoError Bytes}
    {result : Except BlobUploadError B3Digest}
    (h : u.upload sink hash path size read = some (result, u')) : u'.finished = u.finished := by
  unfold upload at h
  cases read with
  | error e =>
    split_ifs at h
    · cases h
      rfl
    · cases h
      rfl
  | ok contents =>
    dsimp only at h
    split_ifs at h
    all_goals
      cases h
      rfl

/-- No task fails if the blob service does not. -/
theorem Run.finished_ok (hrel : sink.Reliable) (hlaw : sink.Lawful hash blobs)
    (h : Run sink hash s₀ seen l u) : ∀ result ∈ u.finished, result = .ok () := by
  induction h with
  | new => exact fun _ h => by cases h
  | @task seen l u i h ih =>
    unfold runTask
    cases ht : u.uploadTasks[i]? with
    | none => exact ih
    | some t =>
      obtain ⟨hsound, hlen⟩ := (h.inv hlaw).tasks t (List.mem_of_getElem? ht)
      rcases hpoll : t.poll sink u.blobService with ⟨s, t' | result⟩
      · simp only [hpoll]
        exact ih
      · simp only [hpoll]
        intro result' hmem
        rcases List.mem_append.mp hmem with hmem | hmem
        · exact ih result' hmem
        · rw [List.mem_singleton.mp hmem]
          exact UploadTask.poll_ok hrel hlaw hsound.digest hlen hpoll
  | uploaded _ hupload ih =>
    rw [finished_of_upload hupload]
    exact ih
  | failed _ hupload ih =>
    rw [finished_of_upload hupload]
    exact ih

theorem firstError_eq_none : u.firstError = none ↔ ∀ result ∈ u.finished, result = .ok () := by
  rw [firstError, List.findSome?_eq_none_iff]
  refine forall₂_congr fun result _ => ?_
  cases result with
  | error e =>
    constructor
    · intro h
      cases h
    · intro h
      cases h
  | ok a => exact ⟨fun _ => rfl, fun _ => rfl⟩

/-- The tasks are joined, and what was uploaded is there unless an error is reported. -/
theorem Run.join (hlaw : sink.Lawful hash blobs) (h : Run sink hash s₀ seen l u)
    (order : List ℕ) :
    ∃ result, u.join sink order = some result ∧ (sink.Reliable → ∃ s, result = .ok s) ∧
      ∀ s, result = .ok s → Grown hash blobs s₀ seen s ∧
        ∀ c ∈ l, (blobs s (hash c)).isSome := by
  have hp : ∀ u, Run sink hash s₀ seen l u → u.uploadTasks = [] →
      u.firstError.isSome || u.uploadTasks.isEmpty := by
    intro u _ hnil
    simp [hnil]
  obtain ⟨u', hrun, hdone, h'⟩ := runUntil_spec (fun _ hu => hu.task 0) hp le_rfl (h.foldl order)
  rw [ConcurrentBlobUploader.join, hrun]
  cases herror : u'.firstError with
  | some e =>
    refine ⟨.error e, by simp only [herror], fun hrel => ?_, fun _ h => by cases h⟩
    rw [firstError_eq_none.mpr (h'.finished_ok hrel hlaw)] at herror
    cases herror
  | none =>
    refine ⟨.ok u'.blobService, by simp only [herror], fun _ => ⟨_, rfl⟩, fun s hs => ?_⟩
    cases hs
    have hinv := h'.inv hlaw
    refine ⟨hinv.grown, fun c hc => ?_⟩
    have hnil : u'.uploadTasks = [] := by simpa [herror] using hdone
    have hok := firstError_eq_none.mp herror
    rcases hinv.uploaded c hc with ⟨t, ht, -⟩ | hthere | ⟨e, he⟩
    · rw [hnil] at ht
      cases ht
    · exact hthere
    · cases hok _ he

end ConcurrentBlobUploader

open ConcurrentBlobUploader

/-- The digest of these contents is not that of another blob. -/
def Unmistakable (hash : Bytes → B3Digest) (blobs : β → B3Digest → Option Bytes) (s₀ : β)
    (seen : List Bytes) (c : Bytes) : Prop :=
  ∀ c', blobs s₀ (hash c) = some c' ∨ c' ∈ seen ∧ hash c' = hash c → c' = c

/-- The digest finds the contents that were uploaded. -/
theorem Grown.eq_some (h : Grown hash blobs s₀ seen s) {c : Bytes}
    (hc : Unmistakable hash blobs s₀ seen c) (hthere : (blobs s (hash c)).isSome) :
    blobs s (hash c) = some c := by
  obtain ⟨c', hc'⟩ := Option.isSome_iff_exists.mp hthere
  have hgrown := h _ _ hc'
  rw [hc', hc c' (hgrown.imp_right And.symm)]

/-- Whatever was uploaded and in whatever order the tasks run: what is buffered and what may still
    be buffered are `MAX_BUFFER_SIZE` together; the tasks come to an end, and when none is left
    an upload does not wait; joining them comes to an end, reports an error only if the blob
    service fails, and otherwise everything is there that was uploaded. -/
theorem uploader_spec (hlaw : sink.Lawful hash blobs) (h : Run sink hash s₀ seen l u) :
    u.uploadSemaphore + (u.uploadTasks.map fun t => t.contents.length).sum = MAX_BUFFER_SIZE ∧
    (∀ order, Busy sink u order → order.length ≤ u.work) ∧
    (u.uploadTasks = [] →
      ∀ path size read, (u.upload sink hash path size read).isSome) ∧
    ∀ order, ∃ result, u.join sink order = some result ∧
      (sink.Reliable → ∃ s, result = .ok s) ∧
      ∀ s, result = .ok s → ∀ c ∈ l, Unmistakable hash blobs s₀ seen c →
        blobs s (hash c) = some c := by
  have hinv := h.inv hlaw
  refine ⟨?_, fun order => length_le_work, upload_isSome hlaw h, fun order => ?_⟩
  · rw [← hinv.permits, List.map_congr_left fun t ht => (hinv.tasks t ht).2]
  · obtain ⟨result, hjoin, hreliable, hok⟩ := h.join hlaw order
    refine ⟨result, hjoin, hreliable, fun s hs c hc hfree => ?_⟩
    obtain ⟨hgrown, hthere⟩ := hok s hs
    exact hgrown.eq_some hfree (hthere c hc)

end

-- ====================
-- Blobs in memory
-- ====================

/-- A blob that is there already is not written again. -/
def MemoryBlobService.sink (hash : Bytes → B3Digest) : BlobSink (DigestMap Bytes) where
  has db digest := .ok (db.lookup digest).isSome
  write db buf :=
    .ok (hash buf, if (db.lookup (hash buf)).isSome then db else db.insert (hash buf) buf)

theorem MemoryBlobService.lawful_sink (hash : Bytes → B3Digest) :
    (sink hash).Lawful hash fun db k => db.lookup k where
  has db k b h := by
    cases h
    rfl
  write db buf k db' h := by
    cases h
    split_ifs with hthere
    · exact ⟨rfl, hthere, fun j => .inl rfl⟩
    · refine ⟨rfl, by rw [AList.lookup_insert]; rfl, fun j => ?_⟩
      by_cases hj : j = hash buf
      · subst hj
        exact .inr ⟨rfl, AList.lookup_insert _⟩
      · exact .inl (AList.lookup_insert_ne hj)

theorem MemoryBlobService.reliable_sink (hash : Bytes → B3Digest) : (sink hash).Reliable where
  has _ _ := ⟨_, rfl⟩
  write _ _ := ⟨_, rfl⟩

/-- Tells blobs apart by their first byte. -/
def fixtureHash (b : Bytes) : B3Digest := List.Vector.replicate 32 (b.headD 0)

/-- An uploader that was handed a blob of one byte. -/
def oneUpload : ConcurrentBlobUploader (DigestMap Bytes) :=
  ⟨∅, [⟨[], 1, fixtureHash [97], [97], false⟩], [], MAX_BUFFER_SIZE - 1⟩

theorem uploader_spec_one :
    ∃ s, oneUpload.join (MemoryBlobService.sink fixtureHash) [0] = some (.ok s) ∧
      s.lookup (fixtureHash [97]) = some [97] := by
  have hrun : ConcurrentBlobUploader.Run (MemoryBlobService.sink fixtureHash) fixtureHash ∅
      ([] ++ [[97]]) ([] ++ [[97]]) oneUpload :=
    @ConcurrentBlobUploader.Run.uploaded _ (MemoryBlobService.sink fixtureHash) fixtureHash ∅ [] []
      (.new ∅) [] 1 [97] _ oneUpload .new rfl
  obtain ⟨-, -, -, hjoin⟩ := uploader_spec (MemoryBlobService.lawful_sink fixtureHash) hrun
  obtain ⟨result, hresult, hreliable, hok⟩ := hjoin [0]
  obtain ⟨s, rfl⟩ := hreliable (MemoryBlobService.reliable_sink fixtureHash)
  refine ⟨s, hresult, hok s rfl [97] (List.mem_singleton_self _) fun c' hc' => ?_⟩
  rcases hc' with h | ⟨h, -⟩
  · cases h
  · exact List.mem_singleton.mp h

end Snix.Castore
