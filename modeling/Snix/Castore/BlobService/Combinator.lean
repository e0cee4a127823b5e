import Snix.Castore.BlobService.ObjectStore
import Snix.Lib.Memo
import Mathlib.Data.Finite.Vector

/-!
# A cache for blobs

Blobs are read from a near service. What it does not have is fetched from a far one: its
chunks are read one after the other, through the cache itself, and the blob is written to
the near service. Nothing says that the chunks of a blob are smaller than the blob, so
reading one may lead to reading the same one again.

## Main definitions

- `NearService`, `FarService` — the two services
- `Cache.openRead` — the cache
- `Cache.memo` — the same as a memoised recursion
- `Cache.Opens` — the chunks that are opened for a blob

## Main results

- `openRead_eq` — the cache is a memoised recursion
- `openRead_iff` — when it ends, with the blob, without it or with an error
-/

namespace Snix.Castore

open ObjectStore

/-- A service that blobs are written to: it has what was written, under its digest. -/
structure NearService (σ : Type) where
  hash : Bytes → B3Digest
  get : σ → B3Digest → Option Bytes
  put : σ → Bytes → σ
  addressed : ∀ s digest b, get s digest = some b → hash b = digest
  get_put : ∀ s b, get (put s b) (hash b) = some b
  get_put_ne : ∀ s b digest, digest ≠ hash b → get (put s b) digest = get s digest

/-- A service that blobs are read from. A reader that it opens may fail later. -/
structure FarService (Err : Type) where
  chunks : B3Digest → Except Err (Option (List ChunkMeta))
  openRead : B3Digest → Except Err (Option (Except Err Bytes))

/-- Why the program panics. -/
inductive CachePanic where
  /-- Invalid b3 digest. -/
  | invalidDigest
  | chunks (fault : ChunkedFault)

/-- Why a blob could not be read. -/
inductive CacheFault (Err : Type) where
  | far (e : Err)
  /-- Chunk not found. -/
  | chunkNotFound
  /-- Blob written to near blobservice returned unexpected digest. -/
  | unexpectedDigest
  | panic (p : CachePanic)

/-- The two services, with the overflow checks and the binary search of the reader. -/
structure Cache (σ Err : Type) where
  near : NearService σ
  far : FarService Err
  checks : Bool
  search : List Ordering → Except ℕ ℕ

namespace Cache

variable {σ Err : Type} (cache : Cache σ Err)

/-- The chunks that a reader opens one after the other, each with the bytes to skip. -/
def chunkReads (chunks : List ChunkMeta) : Except CachePanic (List (B3Digest × ℕ)) :=
  match chunks.mapM ChunkMeta.chunk with
  | none => .error .invalidDigest
  | some chunks =>
    match ChunkedReader.fromChunks cache.search cache.checks chunks with
    | .error fault => .error (.chunks fault)
    | .ok reader => .ok reader.r.rest

/-- The contents of some chunks. -/
def readChunks (openChunk : σ → B3Digest → Option (σ × Except (CacheFault Err) (Option Bytes))) :
    σ → List (B3Digest × ℕ) → Option (σ × Except (CacheFault Err) Bytes)
  | s, [] => some (s, .ok [])
  | s, (digest, skip) :: rest =>
    match openChunk s digest with
    | none => none
    | some (s, .error f) => some (s, .error f)
    | some (s, .ok none) => some (s, .error .chunkNotFound)
    | some (s, .ok (some b)) =>
      match readChunks openChunk s rest with
      | none => none
      | some (s, .error f) => some (s, .error f)
      | some (s, .ok bs) => some (s, .ok (b.drop skip ++ bs))

/-- The blob is written to the near service and read from there. -/
def copyToNear (s : σ) (digest : B3Digest) (b : Bytes) :
    σ × Except (CacheFault Err) (Option Bytes) :=
  if cache.near.hash b ≠ digest then (cache.near.put s b, .error .unexpectedDigest)
  else (cache.near.put s b, .ok (cache.near.get (cache.near.put s b) digest))

/-- A blob. None if there are more nested calls than the given number. -/
def openRead : ℕ → σ → B3Digest → Option (σ × Except (CacheFault Err) (Option Bytes))
  | 0, _, _ => none
  | n + 1, s, digest =>
    if (cache.near.get s digest).isSome then some (s, .ok (cache.near.get s digest))
    else
      match cache.far.chunks digest with
      | .error e => some (s, .error (.far e))
      | .ok none => some (s, .ok none)
      | .ok (some remoteChunks) =>
        if remoteChunks.isEmpty then
          match cache.far.openRead digest with
          | .error e => some (s, .error (.far e))
          | .ok none => some (s, .ok none)
          | .ok (some (.error e)) => some (s, .error (.far e))
          | .ok (some (.ok b)) => some (cache.copyToNear s digest b)
        else
          match cache.chunkReads remoteChunks with
          | .error p => some (s, .error (.panic p))
          | .ok reads =>
            match readChunks (openRead n) s reads with
            | none => none
            | some (s, .error f) => some (s, .error f)
            | some (s, .ok b) => some (cache.copyToNear s digest b)

/-- The chunks that a blob is read from, if the far service splits it. -/
def reads (digest : B3Digest) : List (B3Digest × ℕ) :=
  match cache.far.chunks digest with
  | .ok (some remoteChunks) =>
    if remoteChunks.isEmpty then []
    else
      match cache.chunkReads remoteChunks with
      | .ok reads => reads
      | .error _ => []
  | _ => []

-- ====================
-- The recursion
-- ====================

/-- Blobs as values of a recursion, where a blob that is not there is an error. -/
def memoResult (r : σ × Except (CacheFault Err) (Option Bytes)) :
    σ × Except (Option (CacheFault Err)) Bytes :=
  (r.1,
    match r.2 with
    | .error f => .error (some f)
    | .ok none => .error none
    | .ok (some b) => .ok b)

/-- What is read from some chunks. -/
def assemble (reads : List (B3Digest × ℕ)) (bs : List Bytes) : Bytes :=
  (List.zipWith (fun read b => b.drop read.2) reads bs).flatten

def memo : Memo σ B3Digest Bytes (Option (CacheFault Err)) where
  get := cache.near.get
  parts digest := (cache.reads digest).map Prod.fst
  make s digest bs :=
    match cache.far.chunks digest with
    | .error e => (s, .error (some (.far e)))
    | .ok none => (s, .error none)
    | .ok (some remoteChunks) =>
      if remoteChunks.isEmpty then
        match cache.far.openRead digest with
        | .error e => (s, .error (some (.far e)))
        | .ok none => (s, .error none)
        | .ok (some (.error e)) => (s, .error (some (.far e)))
        | .ok (some (.ok b)) => memoResult (cache.copyToNear s digest b)
      else
        match cache.chunkReads remoteChunks with
        | .error p => (s, .error (some (.panic p)))
        | .ok reads => memoResult (cache.copyToNear s digest (assemble reads bs))
  blame f := some (f.getD .chunkNotFound)

/-- To read a blob that is missing, a chunk of it is opened: those before it can be read. -/
def Opens (s : σ) (digest chunk : B3Digest) : Prop := cache.memo.Leads s digest chunk

/-- A missing blob whose chunks the reader does not take is opened on the way. -/
def Panics (s : σ) (digest : B3Digest) : Prop :=
  ∃ d remoteChunks p, Relation.ReflTransGen (cache.Opens s) digest d ∧ cache.near.get s d = none ∧
    cache.far.chunks d = .ok (some remoteChunks) ∧ remoteChunks ≠ [] ∧
      cache.chunkReads remoteChunks = .error p

variable {cache} {s s' : σ} {digest : B3Digest} {n : ℕ} {b : Bytes} {chunks : List (B3Digest × ℕ)}

theorem readChunks_eq
    {openChunk : σ → B3Digest → Option (σ × Except (CacheFault Err) (Option Bytes))}
    {run : σ → B3Digest → Option (σ × Except (Option (CacheFault Err)) Bytes)}
    (h : ∀ s digest, (openChunk s digest).map memoResult = run s digest) :
    (readChunks openChunk s chunks).map (fun r => (r.1, r.2.mapError some)) =
      (cache.memo.runParts run s (chunks.map Prod.fst)).map
        fun r => (r.1, r.2.map (assemble chunks)) := by
  induction chunks generalizing s with
  | nil => rfl
  | cons read chunks ih =>
    obtain ⟨d, skip⟩ := read
    rw [readChunks, List.map_cons, Memo.runParts, ← h]
    cases openChunk s d with
    | none => rfl
    | some r =>
      obtain ⟨s₁, f | _ | b⟩ := r
      · rfl
      · rfl
      · have hrest := @ih s₁
        simp only [Option.map_some, memoResult]
        cases hchunks : readChunks openChunk s₁ chunks with
        | none =>
          cases hparts : cache.memo.runParts run s₁ (chunks.map Prod.fst) with
          | none => rfl
          | some rs => rw [hchunks, hparts] at hrest; cases hrest
        | some r =>
          cases hparts : cache.memo.runParts run s₁ (chunks.map Prod.fst) with
          | none => rw [hchunks, hparts] at hrest; cases hrest
          | some rs =>
            obtain ⟨s₂, f | c⟩ := r <;> obtain ⟨s₃, e | bs⟩ := rs <;>
              rw [hchunks, hparts] at hrest <;> cases hrest <;> rfl

/-- The cache is a memoised recursion. -/
theorem openRead_eq (n : ℕ) (s : σ) (digest : B3Digest) :
    (cache.openRead n s digest).map memoResult = cache.memo.run n s digest := by
  induction n generalizing s digest with
  | zero => rfl
  | succ n ih =>
    rw [openRead, Memo.run]
    cases hget : cache.near.get s digest with
    | some b =>
      have hmemo : cache.memo.get s digest = some b := hget
      rw [hmemo, if_pos Option.isSome_some]
      rfl
    | none =>
      have hmemo : cache.memo.get s digest = none := hget
      rw [hmemo, if_neg (by simp)]
      have hparts : cache.memo.parts digest = (cache.reads digest).map Prod.fst := rfl
      simp only [hparts, reads]
      cases hchunks : cache.far.chunks digest with
      | error e =>
        simp only [List.map_nil, Memo.runParts, memo, hchunks]
        rfl
      | ok remote =>
        cases remote with
        | none =>
          simp only [List.map_nil, Memo.runParts, memo, hchunks]
          rfl
        | some remoteChunks =>
          by_cases hempty : remoteChunks.isEmpty
          · simp only [if_pos hempty, List.map_nil, Memo.runParts, memo, hchunks]
            cases cache.far.openRead digest with
            | error e => rfl
            | ok reader => obtain _ | e | b := reader <;> rfl
          · simp only [if_neg hempty]
            cases hreads : cache.chunkReads remoteChunks with
            | error p =>
              simp only [List.map_nil, Memo.runParts, memo, hchunks, if_neg hempty, hreads]
              rfl
            | ok chunks =>
              have hread := @readChunks_eq _ _ cache s chunks _ _ ih
              cases hc : readChunks (cache.openRead n) s chunks with
              | none =>
                cases hm : cache.memo.runParts (cache.memo.run n) s (chunks.map Prod.fst) with
                | none => simp only [hc, Option.map_none]
                | some rs => rw [hc, hm] at hread; cases hread
              | some r =>
                cases hm : cache.memo.runParts (cache.memo.run n) s (chunks.map Prod.fst) with
                | none => rw [hc, hm] at hread; cases hread
                | some rs =>
                  obtain ⟨s₁, f | c⟩ := r <;> obtain ⟨s₂, e | bs⟩ := rs <;>
                    rw [hc, hm] at hread <;> cases hread
                  · simp only [hc, Option.map_some, memoResult]
                  · simp only [hc, Option.map_some, memo, hchunks, if_neg hempty, hreads]

theorem openRead_eq_some {r : Except (CacheFault Err) (Option Bytes)}
    (h : cache.openRead n s digest = some (s', r)) :
    cache.memo.run n s digest = some (memoResult (s', r)) := by
  rw [← openRead_eq, h]
  rfl

theorem exists_openRead {r : σ × Except (Option (CacheFault Err)) Bytes}
    (h : cache.memo.run n s digest = some r) :
    ∃ s' r', cache.openRead n s digest = some (s', r') ∧ memoResult (s', r') = r := by
  rw [← openRead_eq, Option.map_eq_some_iff] at h
  obtain ⟨⟨s', r'⟩, hopen, hr⟩ := h
  exact ⟨s', r', hopen, hr⟩

theorem memoResult_eq_error_some {r : Except (CacheFault Err) (Option Bytes)} {f : CacheFault Err}
    (h : (memoResult (s, r)).2 = .error (some f)) : r = .error f := by
  obtain f' | _ | b := r <;> cases h
  rfl

-- ====================
-- What is in the near service
-- ====================

theorem copyToNear_of_eq (h : cache.near.hash b = digest) :
    memoResult (cache.copyToNear s digest b) = (cache.near.put s b, .ok b) := by
  subst h
  rw [copyToNear, if_neg (not_not.mpr rfl), memoResult]
  simp only [cache.near.get_put]

theorem copyToNear_of_ne (h : cache.near.hash b ≠ digest) :
    memoResult (cache.copyToNear s digest b) =
      (cache.near.put s b, .error (some .unexpectedDigest)) := by
  rw [copyToNear, if_pos h]
  rfl

theorem copyToNear_ok {v : Bytes} (h : (memoResult (cache.copyToNear s digest b)).2 = .ok v) :
    cache.near.hash b = digest ∧ v = b := by
  by_cases hhash : cache.near.hash b = digest
  · rw [copyToNear_of_eq hhash] at h
    cases h
    exact ⟨hhash, rfl⟩
  · rw [copyToNear_of_ne hhash] at h
    cases h

/-- The copy does not fail but for a digest that was not expected. -/
theorem copyToNear_error {e : Option (CacheFault Err)}
    (h : (memoResult (cache.copyToNear s digest b)).2 = .error e) : e = some .unexpectedDigest := by
  by_cases hhash : cache.near.hash b = digest
  · rw [copyToNear_of_eq hhash] at h
    cases h
  · rw [copyToNear_of_ne hhash] at h
    cases h
    rfl

theorem copyToNear_eq (s s' : σ) (digest : B3Digest) (b : Bytes) :
    (memoResult (cache.copyToNear s digest b)).2 = (memoResult (cache.copyToNear s' digest b)).2 := by
  by_cases hhash : cache.near.hash b = digest
  · rw [copyToNear_of_eq hhash, copyToNear_of_eq hhash]
  · rw [copyToNear_of_ne hhash, copyToNear_of_ne hhash]

/-- A blob is made by copying it, or not at all; what is in the near service does not matter. -/
theorem make_cases (digest : B3Digest) (bs : List Bytes) :
    (∃ e, ∀ s, cache.memo.make s digest bs = (s, .error e)) ∨
      ∃ b, ∀ s, cache.memo.make s digest bs = memoResult (cache.copyToNear s digest b) := by
  simp only [memo]
  cases cache.far.chunks digest with
  | error e => exact .inl ⟨_, fun _ => rfl⟩
  | ok remote =>
    cases remote with
    | none => exact .inl ⟨_, fun _ => rfl⟩
    | some remoteChunks =>
      by_cases hempty : remoteChunks.isEmpty
      · simp only [if_pos hempty]
        cases cache.far.openRead digest with
        | error e => exact .inl ⟨_, fun _ => rfl⟩
        | ok reader =>
          obtain _ | e | b := reader
          · exact .inl ⟨_, fun _ => rfl⟩
          · exact .inl ⟨_, fun _ => rfl⟩
          · exact .inr ⟨b, fun _ => rfl⟩
      · simp only [if_neg hempty]
        cases cache.chunkReads remoteChunks with
        | error p => exact .inl ⟨_, fun _ => rfl⟩
        | ok chunks => exact .inr ⟨_, fun _ => rfl⟩

/-- What is made is in the near service then, and nothing else is new there. -/
theorem make_ok {bs : List Bytes} (h : (cache.memo.make s digest bs).2 = .ok b) :
    (cache.memo.make s digest bs).1 = cache.near.put s b ∧ cache.near.hash b = digest := by
  obtain ⟨e, he⟩ | ⟨c, hc⟩ := cache.make_cases digest bs
  · rw [he] at h
    cases h
  · rw [hc] at h ⊢
    obtain ⟨hhash, rfl⟩ := copyToNear_ok h
    rw [copyToNear_of_eq hhash]
    exact ⟨rfl, hhash⟩

theorem lawful_memo : cache.memo.Lawful where
  get_make s digest bs b h := by
    obtain ⟨hput, rfl⟩ := make_ok h
    rw [hput]
    exact cache.near.get_put s b
  get_make_ne s digest bs b digest' h hne := by
    obtain ⟨hput, rfl⟩ := make_ok h
    rw [hput]
    exact cache.near.get_put_ne s b digest' hne
  make_eq s s' digest bs := by
    obtain ⟨e, he⟩ | ⟨b, hb⟩ := cache.make_cases digest bs
    · rw [he, he]
    · rw [hb, hb]
      exact copyToNear_eq s s' digest b

/-- A blob that is returned is one of the near service. -/
theorem get_of_openRead (h : cache.openRead n s digest = some (s', .ok (some b))) :
    cache.near.get s' digest = some b := by
  have hrun := openRead_eq_some h
  cases n with
  | zero => cases h
  | succ n =>
    rw [Memo.run_succ_eq_some_iff] at hrun
    generalize hr : memoResult (s', (.ok (some b) : Except (CacheFault Err) (Option Bytes))) = r at hrun
    have hs' : r.1 = s' := congrArg Prod.fst hr.symm
    have hb : r.2 = .ok b := congrArg Prod.snd hr.symm
    rw [← hs']
    cases hrun with
    | stored hget =>
      cases hb
      exact hget
    | failed hget hs => cases hb
    | made hget hs => exact lawful_memo.get_make _ digest _ b hb

-- ====================
-- Nested calls
-- ====================

instance : Finite B3Digest := by
  have : Finite UInt8 := Finite.of_injective UInt8.toFin fun _ _ h => UInt8.toFin_inj.mp h
  exact List.Vector.finite

/-- The program does not go on after the error. -/
def IsPanic (e : Option (CacheFault Err)) : Prop := ∃ p, e = some (.panic p)

theorem isPanic_blame (e : Option (CacheFault Err)) : IsPanic (cache.memo.blame e) ↔ IsPanic e := by
  cases e with
  | none =>
    constructor
    · rintro ⟨p, hp⟩
      cases hp
    · rintro ⟨p, hp⟩
      cases hp
  | some f => exact Iff.rfl

/-- The reader of the chunks is what panics. -/
theorem exists_spoils_iff : (∃ e, cache.memo.Spoils s digest e ∧ IsPanic e) ↔
    cache.near.get s digest = none ∧ ∃ remoteChunks p,
      cache.far.chunks digest = .ok (some remoteChunks) ∧ remoteChunks ≠ [] ∧
        cache.chunkReads remoteChunks = .error p := by
  constructor
  · rintro ⟨e, ⟨hget, bs, -, he⟩, p, rfl⟩
    refine ⟨hget, ?_⟩
    simp only [memo] at he
    cases hchunks : cache.far.chunks digest with
    | error e =>
      rw [hchunks] at he
      cases he
    | ok remote =>
      cases remote with
      | none =>
        rw [hchunks] at he
        cases he
      | some remoteChunks =>
        simp only [hchunks] at he
        by_cases hempty : remoteChunks.isEmpty
        · rw [if_pos hempty] at he
          cases hopen : cache.far.openRead digest with
          | error e =>
            rw [hopen] at he
            cases he
          | ok reader =>
            rw [hopen] at he
            obtain _ | e | b := reader
            · cases he
            · cases he
            · cases copyToNear_error he
        · rw [if_neg hempty] at he
          cases hreads : cache.chunkReads remoteChunks with
          | error p' =>
            exact ⟨remoteChunks, p', rfl, fun h => hempty (List.isEmpty_iff.mpr h), hreads⟩
          | ok chunks =>
            rw [hreads] at he
            cases copyToNear_error he
  · rintro ⟨hget, remoteChunks, p, hchunks, hne, hreads⟩
    have hempty : ¬remoteChunks.isEmpty := fun h => hne (List.isEmpty_iff.mp h)
    have hparts : cache.memo.parts digest = [] := by
      show (cache.reads digest).map Prod.fst = []
      simp only [reads, hchunks, if_neg hempty, hreads, List.map_nil]
    refine ⟨some (.panic p), ⟨hget, [], ?_, ?_⟩, p, rfl⟩
    · rw [hparts]
      exact .nil
    · simp only [memo, hchunks, if_neg hempty, hreads]

theorem exists_panic_iff :
    (∃ n t e, cache.memo.run n s digest = some (t, .error e) ∧ IsPanic e) ↔
      (∃ n r, cache.memo.run n s digest = some r) ∧ cache.Panics s digest := by
  rw [Memo.exists_run_error_iff lawful_memo IsPanic isPanic_blame]
  apply and_congr_right
  rintro -
  constructor
  · rintro ⟨d, e, hd, hpanic⟩
    obtain ⟨hget, remoteChunks, p, h⟩ := exists_spoils_iff.mp ⟨e, hpanic⟩
    exact ⟨d, remoteChunks, p, hd, hget, h⟩
  · rintro ⟨d, remoteChunks, p, hd, hget, h⟩
    obtain ⟨e, hpanic⟩ := exists_spoils_iff.mpr ⟨hget, remoteChunks, p, h⟩
    exact ⟨d, e, hd, hpanic⟩

/-- The cache returns the blob, nothing or an error just if no blob is opened for itself on the
    way, and none whose chunks the reader does not take. -/
theorem openRead_iff (s : σ) (digest : B3Digest) :
    (∃ n s' r, cache.openRead n s digest = some (s', r) ∧ (∀ p, r ≠ .error (.panic p)) ∧
        ∀ b, r = .ok (some b) → cache.near.hash b = digest) ↔
      (∀ d, Relation.ReflTransGen (cache.Opens s) digest d → ¬Relation.TransGen (cache.Opens s) d d) ∧
        ¬cache.Panics s digest := by
  have hends : (∃ n r, cache.memo.run n s digest = some r) ↔
      ∀ d, Relation.ReflTransGen (cache.Opens s) digest d →
        ¬Relation.TransGen (cache.Opens s) d d := by
    rw [Memo.exists_run_iff lawful_memo, Memo.Cyclic, not_exists]
    apply forall_congr'
    intro d
    exact not_and
  constructor
  · rintro ⟨n, s', r, hopen, hpanic, -⟩
    have hrun := openRead_eq_some hopen
    refine ⟨hends.mp ⟨n, _, hrun⟩, fun hpanics => ?_⟩
    obtain ⟨n', t, e, hrun', p, rfl⟩ := exists_panic_iff.mpr ⟨⟨n, _, hrun⟩, hpanics⟩
    have hr := congrArg Prod.snd (Memo.run_unique hrun hrun')
    exact hpanic p (memoResult_eq_error_some hr)
  · rintro ⟨hnot, hpanics⟩
    obtain ⟨n, r, hrun⟩ := hends.mpr hnot
    obtain ⟨s', r', hopen, hr⟩ := exists_openRead hrun
    refine ⟨n, s', r', hopen, ?_, ?_⟩
    · rintro p rfl
      subst hr
      exact hpanics (exists_panic_iff.mp ⟨n, s', some (.panic p), hrun, p, rfl⟩).2
    · rintro b rfl
      exact cache.near.addressed s' digest b (get_of_openRead hopen)

/-- A service that keeps blobs in memory. -/
def inMemory (hash : Bytes → B3Digest) : NearService (List Bytes) where
  hash := hash
  get s digest := s.find? fun b => hash b = digest
  put s b := b :: s
  addressed s digest b h := by
    have hb := List.find?_some h
    exact of_decide_eq_true hb
  get_put s b := List.find?_cons_of_pos (decide_eq_true rfl)
  get_put_ne s b digest h := by
    apply List.find?_cons_of_neg
    simpa using h.symm

/-- Blobs of one byte, named after it. -/
def byteHash (b : Bytes) : B3Digest := List.Vector.replicate 32 (b.headD 0)

/-- A far service whose blobs are not split: each is its only chunk. -/
def unsplit : FarService Empty where
  chunks digest := .ok (some [⟨digest.val, 1⟩])
  openRead digest := .ok (some (.ok [digest.head]))

/-- The cache in front of it. -/
def unsplitCache : Cache (List Bytes) Empty := ⟨inMemory byteHash, unsplit, true, searchLast⟩

/-- The call for a blob in one chunk makes the same call again. -/
theorem openRead_unsplit :
    unsplit.openRead (byteHash [7]) = .ok (some (.ok [7])) ∧
      ¬∃ n s' r, unsplitCache.openRead n [] (byteHash [7]) = some (s', r) := by
  refine ⟨rfl, ?_⟩
  rintro ⟨n, s', r, h⟩
  induction n generalizing s' r with
  | zero => cases h
  | succ n ih =>
    cases hn : unsplitCache.openRead n [] (byteHash [7]) with
    | some x => exact ih x.1 x.2 hn
    | none =>
      have hchunks : readChunks (unsplitCache.openRead n) [] [(byteHash [7], 0)] = none := by
        rw [readChunks, hn]
      have hreads : unsplitCache.chunkReads [⟨(byteHash [7]).val, 1⟩] = .ok [(byteHash [7], 0)] := rfl
      have hget : unsplitCache.near.get [] (byteHash [7]) = none := rfl
      have hfar : unsplitCache.far.chunks (byteHash [7]) = .ok (some [⟨(byteHash [7]).val, 1⟩]) := rfl
      rw [openRead, hget, hfar] at h
      simp only [hreads, hchunks] at h
      cases h

end Cache

end Snix.Castore
