import Snix.Lib.AsyncStream
import Snix.Castore.Node

/-!
# Writing a blob to an object store

The writer passes what is written on to a pipe. The upload reads from the other end of it,
and is polled whenever something is written or flushed. Closing shuts the pipe down and
waits for the upload, whose result is kept for closing again.

An upload that has ended must not be polled again, but it stays where it is when a write
finds that it has ended. After that only a shutdown does not panic.

## Main definitions

- `ObjectStoreBlobWriter` — the writer, with a step for every call
- `Tolerant` — no call panics, and closing tells how the upload ended
- `Orderly` — which calls may follow each other

## Main results

- `tolerant_iff` — calls are tolerated just if they are orderly
- `tolerant_fails_twice` — writing twice to an upload that has failed
-/

namespace Snix.Castore

/-- An error as it is reported: its kind and its text. -/
structure BlobWriteError (Kind : Type) where
  kind : Kind
  message : String
  deriving DecidableEq

/-- The end of the pipe that is written to. What it answers is given with every call. -/
structure Duplex where
  deriving DecidableEq

/-- The upload; what it answers is given with every call, as long as it has not ended. -/
inductive UploadFuture where
  | running
  | completed
  deriving DecidableEq

inductive BlobWriterPanic where
  /-- Not future. -/
  | notFuture
  /-- Writer must be some. -/
  | noWriter
  /-- Fut must be some. -/
  | noFut
  /-- There is no result to return. -/
  | noOutput
  /-- The upload was polled after it ended. -/
  | resumed
  deriving DecidableEq

def UploadFuture.poll {α : Type} (fut : UploadFuture) (answer : Poll α) :
    Except BlobWriterPanic (Poll α × UploadFuture) :=
  match fut with
  | .completed => .error .resumed
  | .running =>
    match answer with
    | .pending => .ok (.pending, .running)
    | .ready result => .ok (.ready result, .completed)

structure ObjectStoreBlobWriter (Kind : Type) where
  writer : Option Duplex
  fut : Option UploadFuture
  futOutput : Option (Except (BlobWriteError Kind) B3Digest)

namespace ObjectStoreBlobWriter

variable {Kind : Type}

/-- A writer as the blob service makes it. -/
def openWrite : ObjectStoreBlobWriter Kind := ⟨some ⟨⟩, some .running, none⟩

/-- A call, with what the upload and the pipe answer in it. Closing waits for them: it is pending if
    the caller gave up before they were ready. -/
inductive Call (Kind : Type) where
  | write (buf : Bytes) (upload : Poll (Except (BlobWriteError Kind) B3Digest))
      (pipe : Bytes → Poll (Except (BlobWriteError Kind) ℕ))
  | flush (upload : Poll (Except (BlobWriteError Kind) B3Digest))
      (pipe : Poll (Except (BlobWriteError Kind) Unit))
  | shutdown
  | close (pipe : Poll (Except (BlobWriteError Kind) Unit))
      (upload : Poll (Except (BlobWriteError Kind) B3Digest))

inductive Outcome (Kind : Type) where
  | wrote (result : Poll (Except (BlobWriteError Kind) ℕ))
  | flushed (result : Poll (Except (BlobWriteError Kind) Unit))
  | shut
  | closed (result : Poll (Except (BlobWriteError Kind) B3Digest))

/-- Errors cannot be cloned; the copy has the same kind and text. -/
def sloppyClone : Except (BlobWriteError Kind) B3Digest → Except (BlobWriteError Kind) B3Digest
  | .ok digest => .ok digest
  | .error e => .error ⟨e.kind, e.message⟩

section Calls

variable (other : Kind)

/-- Polls the upload, and passes a call on to the pipe if it has not ended. -/
def relay {α : Type} (w : ObjectStoreBlobWriter Kind)
    (upload : Poll (Except (BlobWriteError Kind) B3Digest))
    (pipe : Poll (Except (BlobWriteError Kind) α)) :
    Except BlobWriterPanic (Poll (Except (BlobWriteError Kind) α) × ObjectStoreBlobWriter Kind) :=
  match w.fut with
  | none => .error .notFuture
  | some fut =>
    match fut.poll upload with
    | .error p => .error p
    | .ok (.ready _, fut) =>
      .ok (.ready (.error ⟨other, "upload failed"⟩), { w with fut := some fut })
    | .ok (.pending, fut) =>
      match w.writer with
      | none => .error .noWriter
      | some _ => .ok (pipe, { w with fut := some fut })

def pollWrite (w : ObjectStoreBlobWriter Kind) (buf : Bytes)
    (upload : Poll (Except (BlobWriteError Kind) B3Digest))
    (pipe : Bytes → Poll (Except (BlobWriteError Kind) ℕ)) :
    Except BlobWriterPanic (Poll (Except (BlobWriteError Kind) ℕ) × ObjectStoreBlobWriter Kind) :=
  w.relay other upload (pipe buf)

def pollFlush (w : ObjectStoreBlobWriter Kind)
    (upload : Poll (Except (BlobWriteError Kind) B3Digest))
    (pipe : Poll (Except (BlobWriteError Kind) Unit)) :
    Except BlobWriterPanic (Poll (Except (BlobWriteError Kind) Unit) × ObjectStoreBlobWriter Kind) :=
  w.relay other upload pipe

def close (w : ObjectStoreBlobWriter Kind) (pipe : Poll (Except (BlobWriteError Kind) Unit))
    (upload : Poll (Except (BlobWriteError Kind) B3Digest)) :
    Except BlobWriterPanic
      (Poll (Except (BlobWriteError Kind) B3Digest) × ObjectStoreBlobWriter Kind) :=
  match w.writer with
  | some _ =>
    match pipe with
    | .pending => .ok (.pending, { w with writer := none })
    | .ready (.error e) => .ok (.ready (.error e), { w with writer := none })
    | .ready (.ok _) =>
      match w.fut with
      | none => .error .noFut
      | some fut =>
        match fut.poll upload with
        | .error p => .error p
        | .ok (.pending, _) => .ok (.pending, ⟨none, none, w.futOutput⟩)
        | .ok (.ready resp, _) => .ok (.ready resp, ⟨none, none, some (sloppyClone resp)⟩)
  | none =>
    match w.futOutput with
    | none => .error .noOutput
    | some output => .ok (.ready (sloppyClone output), w)

def step (w : ObjectStoreBlobWriter Kind) :
    Call Kind → Except BlobWriterPanic (Outcome Kind × ObjectStoreBlobWriter Kind)
  | .write buf upload pipe => do
    let (result, w) ← w.pollWrite other buf upload pipe
    return (.wrote result, w)
  | .flush upload pipe => do
    let (result, w) ← w.pollFlush other upload pipe
    return (.flushed result, w)
  -- there is nothing to do on shutdown
  | .shutdown => .ok (.shut, w)
  | .close pipe upload => do
    let (result, w) ← w.close pipe upload
    return (.closed result, w)

/-- Calls one after the other. -/
def run : ObjectStoreBlobWriter Kind → List (Call Kind) → Except BlobWriterPanic (List (Outcome Kind))
  | _, [] => .ok []
  | w, call :: calls => do
    let (outcome, w) ← w.step other call
    let outcomes ← run w calls
    return outcome :: outcomes

end Calls

-- ====================
-- Calls in an order that is tolerated
-- ====================

/-- A write or a flush that finds that the upload has failed. -/
def Call.FindsError (e : BlobWriteError Kind) : Call Kind → Prop
  | .write _ upload _ => upload = .ready (.error e)
  | .flush upload _ => upload = .ready (.error e)
  | _ => False

def Call.IsClose : Call Kind → Prop
  | .close _ _ => True
  | _ => False

/-- Closing after a write that failed returns the error of the upload, if it returns. Closing again
    returns the same. -/
structure Tolerates (calls : List (Call Kind)) (outcomes : List (Outcome Kind)) : Prop where
  closeFailed : ∀ (i j : ℕ) (e : BlobWriteError Kind) (c c' : Call Kind), i < j →
    calls[i]? = some c → c.FindsError e → calls[j]? = some c' → c'.IsClose →
      ∀ result, outcomes[j]? = some (.closed (.ready result)) → result = .error e
  closeAgain : ∀ (i j : ℕ) (c c' : Call Kind), i < j →
    calls[i]? = some c → c.IsClose → calls[j]? = some c' → c'.IsClose → outcomes[j]? = outcomes[i]?

/-- No call panics, and closing tells how the upload ended. -/
def Tolerant (other : Kind) (calls : List (Call Kind)) : Prop :=
  ∃ outcomes, run other openWrite calls = .ok outcomes ∧ Tolerates calls outcomes

/-- What has happened: nothing that matters; a write or a flush found that the upload had ended;
    closing came to an end before the upload was waited for, or before it had ended; the upload was
    waited for. -/
inductive Stage (Kind : Type) where
  | writing
  | ended (result : Except (BlobWriteError Kind) B3Digest)
  | halted
  | abandoned
  | closed

/-- The calls that may follow, by what the upload and the pipe answer in them. -/
inductive Follows : Stage Kind → Call Kind → Stage Kind → Prop where
  | shutdown (stage) : Follows stage .shutdown stage
  | write (buf pipe) : Follows .writing (.write buf .pending pipe) .writing
  | writeEnded (buf result pipe) : Follows .writing (.write buf (.ready result) pipe) (.ended result)
  | flush (pipe) : Follows .writing (.flush .pending pipe) .writing
  | flushEnded (result pipe) : Follows .writing (.flush (.ready result) pipe) (.ended result)
  | close (result) : Follows .writing (.close (.ready (.ok ())) (.ready result)) .closed
  | closeAgain (pipe upload) : Follows .closed (.close pipe upload) .closed
  | giveUp (upload) : Follows .writing (.close .pending upload) .halted
  | pipeFails (e upload) : Follows .writing (.close (.ready (.error e)) upload) .halted
  | writeHalted (buf result pipe) : Follows .halted (.write buf (.ready result) pipe) .abandoned
  | flushHalted (result pipe) : Follows .halted (.flush (.ready result) pipe) .abandoned
  | giveUpUpload : Follows .writing (.close (.ready (.ok ())) .pending) .abandoned
  | giveUpEnded (result upload) : Follows (.ended result) (.close .pending upload) .abandoned
  | pipeFailsEnded (result e upload) (h : ∀ e', result = .error e' → e = e') :
      Follows (.ended result) (.close (.ready (.error e)) upload) .abandoned

/-- Every call may follow those before it. -/
inductive Orderly : Stage Kind → List (Call Kind) → Prop where
  | nil (stage) : Orderly stage []
  | cons {stage stage' call calls} (h : Follows stage call stage') (hcalls : Orderly stage' calls) :
      Orderly stage (call :: calls)

-- ====================
-- One call
-- ====================

variable {other : Kind} {w w' : ObjectStoreBlobWriter Kind} {stage stage' : Stage Kind} {call : Call Kind}
  {calls : List (Call Kind)} {outcome : Outcome Kind} {outcomes : List (Outcome Kind)}

/-- What the writer holds. -/
def Stage.Holds (w : ObjectStoreBlobWriter Kind) : Stage Kind → Prop
  | .writing => w = ⟨some ⟨⟩, some .running, none⟩
  | .ended _ => w = ⟨some ⟨⟩, some .completed, none⟩
  | .halted => w = ⟨none, some .running, none⟩
  | .abandoned => w = ⟨none, some .completed, none⟩ ∨ w = ⟨none, none, none⟩
  | .closed => ∃ result, w = ⟨none, none, some result⟩

/-- What closing returns from a stage on. -/
def Stage.Answers (w : ObjectStoreBlobWriter Kind) (outcome : Outcome Kind) : Stage Kind → Prop
  | .writing => True
  | .ended result => ∀ e, result = .error e → ∀ r, outcome = .closed (.ready r) → r = .error e
  | .halted => False
  | .abandoned => False
  | .closed => ∃ result, w.futOutput = some result ∧ outcome = .closed (.ready result)

theorem sloppyClone_eq (result : Except (BlobWriteError Kind) B3Digest) : sloppyClone result = result := by
  cases result with
  | ok digest => rfl
  | error e => rfl

/-- A call that may follow does not panic, and is the first of those at the next stage. -/
theorem step_of_follows (h : Follows stage call stage') (hw : stage.Holds w) :
    ∃ outcome w', w.step other call = .ok (outcome, w') ∧ stage'.Holds w' ∧
      (call.IsClose → stage.Answers w outcome) := by
  cases h with
  | shutdown =>
    refine ⟨.shut, w, rfl, hw, ?_⟩
    intro hclose
    cases hclose
  | write buf pipe =>
    cases hw
    refine ⟨_, _, rfl, rfl, ?_⟩
    intro hclose
    cases hclose
  | writeEnded buf result pipe =>
    cases hw
    refine ⟨_, _, rfl, rfl, ?_⟩
    intro hclose
    cases hclose
  | flush pipe =>
    cases hw
    refine ⟨_, _, rfl, rfl, ?_⟩
    intro hclose
    cases hclose
  | flushEnded result pipe =>
    cases hw
    refine ⟨_, _, rfl, rfl, ?_⟩
    intro hclose
    cases hclose
  | close result =>
    cases hw
    exact ⟨_, _, rfl, ⟨sloppyClone result, rfl⟩, fun _ => trivial⟩
  | closeAgain pipe upload =>
    obtain ⟨result, rfl⟩ := hw
    refine ⟨_, _, rfl, ⟨result, rfl⟩, ?_⟩
    intro _
    refine ⟨result, rfl, ?_⟩
    rw [sloppyClone_eq]
  | giveUp upload =>
    cases hw
    exact ⟨_, _, rfl, rfl, fun _ => trivial⟩
  | pipeFails e upload =>
    cases hw
    exact ⟨_, _, rfl, rfl, fun _ => trivial⟩
  | writeHalted buf result pipe =>
    cases hw
    refine ⟨_, _, rfl, .inl rfl, ?_⟩
    intro hclose
    cases hclose
  | flushHalted result pipe =>
    cases hw
    refine ⟨_, _, rfl, .inl rfl, ?_⟩
    intro hclose
    cases hclose
  | giveUpUpload =>
    cases hw
    exact ⟨_, _, rfl, .inr rfl, fun _ => trivial⟩
  | giveUpEnded result upload =>
    cases hw
    refine ⟨_, _, rfl, .inl rfl, ?_⟩
    intro _ e _ r hr
    cases hr
  | pipeFailsEnded result e upload h =>
    cases hw
    refine ⟨_, _, rfl, .inl rfl, ?_⟩
    intro _ e' he r hr
    cases hr
    rw [h e' he]

/-- A call that does not panic, and tells how the upload ended, may follow. -/
theorem follows_of_step (hw : stage.Holds w) (hstep : w.step other call = .ok (outcome, w'))
    (hends : ∀ e, stage = .ended (.error e) → call.IsClose →
      ∀ r, outcome = .closed (.ready r) → r = .error e) :
    ∃ stage', Follows stage call stage' ∧ stage'.Holds w' := by
  cases call with
  | shutdown =>
    cases hstep
    exact ⟨stage, .shutdown stage, hw⟩
  | write buf upload pipe =>
    cases stage with
    | writing =>
      cases hw
      cases upload with
      | pending => cases hstep; exact ⟨_, .write buf pipe, rfl⟩
      | ready result => cases hstep; exact ⟨_, .writeEnded buf result pipe, rfl⟩
    | ended result => cases hw; cases hstep
    | halted =>
      cases hw
      cases upload with
      | pending => cases hstep
      | ready result => cases hstep; exact ⟨_, .writeHalted buf result pipe, .inl rfl⟩
    | abandoned => obtain rfl | rfl := hw <;> cases hstep
    | closed => obtain ⟨result, rfl⟩ := hw; cases hstep
  | flush upload pipe =>
    cases stage with
    | writing =>
      cases hw
      cases upload with
      | pending => cases hstep; exact ⟨_, .flush pipe, rfl⟩
      | ready result => cases hstep; exact ⟨_, .flushEnded result pipe, rfl⟩
    | ended result => cases hw; cases hstep
    | halted =>
      cases hw
      cases upload with
      | pending => cases hstep
      | ready result => cases hstep; exact ⟨_, .flushHalted result pipe, .inl rfl⟩
    | abandoned => obtain rfl | rfl := hw <;> cases hstep
    | closed => obtain ⟨result, rfl⟩ := hw; cases hstep
  | close pipe upload =>
    cases stage with
    | writing =>
      cases hw
      cases pipe with
      | pending => cases hstep; exact ⟨_, .giveUp upload, rfl⟩
      | ready answer =>
        cases answer with
        | error e => cases hstep; exact ⟨_, .pipeFails e upload, rfl⟩
        | ok _ =>
          cases upload with
          | pending => cases hstep; exact ⟨_, .giveUpUpload, .inr rfl⟩
          | ready result => cases hstep; exact ⟨_, .close result, sloppyClone result, rfl⟩
    | ended result =>
      cases hw
      cases pipe with
      | pending => cases hstep; exact ⟨_, .giveUpEnded result upload, .inl rfl⟩
      | ready answer =>
        cases answer with
        | error e =>
          cases hstep
          refine ⟨_, .pipeFailsEnded result e upload ?_, .inl rfl⟩
          rintro e' rfl
          exact Except.error.inj (hends e' rfl trivial _ rfl)
        | ok _ => cases hstep
    | halted => cases hw; cases hstep
    | abandoned => obtain rfl | rfl := hw <;> cases hstep
    | closed =>
      obtain ⟨result, rfl⟩ := hw
      cases hstep
      exact ⟨_, .closeAgain pipe upload, result, rfl⟩

/-- What closing returns later it returns from now on. -/
theorem answers_of_follows (h : Follows stage call stage') (hw : stage.Holds w)
    (hstep : w.step other call = .ok (outcome, w')) {o : Outcome Kind} (ho : stage'.Answers w' o) :
    stage.Answers w o := by
  cases h with
  | shutdown =>
    cases hstep
    exact ho
  | write | writeEnded | flush | flushEnded | close | giveUp | pipeFails | giveUpUpload => trivial
  | closeAgain pipe upload =>
    obtain ⟨result, rfl⟩ := hw
    cases hstep
    exact ho
  | writeHalted | flushHalted | giveUpEnded | pipeFailsEnded => cases ho

/-- Closing again returns what closing has returned. -/
theorem eq_of_follows_close (h : Follows stage call stage') (hw : stage.Holds w)
    (hstep : w.step other call = .ok (outcome, w')) (hclose : call.IsClose) {o : Outcome Kind}
    (ho : stage'.Answers w' o) : o = outcome := by
  cases h with
  | shutdown | write | writeEnded | flush | flushEnded | writeHalted | flushHalted => cases hclose
  | close result =>
    cases hw
    cases hstep
    obtain ⟨r, hr, rfl⟩ := ho
    rw [← Option.some.inj hr, sloppyClone_eq]
  | closeAgain pipe upload =>
    obtain ⟨result, rfl⟩ := hw
    cases hstep
    obtain ⟨r, hr, rfl⟩ := ho
    rw [← Option.some.inj hr, sloppyClone_eq]
  | giveUp | pipeFails | giveUpUpload | giveUpEnded | pipeFailsEnded => cases ho

/-- Closing after a write that failed returns the error of the upload. -/
theorem error_of_follows {e : BlobWriteError Kind} (h : Follows stage call stage')
    (hfinds : call.FindsError e) {r : Except (BlobWriteError Kind) B3Digest}
    (ho : stage'.Answers w' (.closed (.ready r))) : r = .error e := by
  cases h with
  | shutdown | close | closeAgain | giveUp | pipeFails | giveUpUpload | giveUpEnded
  | pipeFailsEnded => cases hfinds
  | write | flush => cases hfinds
  | writeEnded buf result pipe =>
    cases hfinds
    exact ho e rfl r rfl
  | flushEnded result pipe =>
    cases hfinds
    exact ho e rfl r rfl
  | writeHalted | flushHalted => cases ho

-- ====================
-- All calls
-- ====================

theorem run_cons (hstep : w.step other call = .ok (outcome, w'))
    (hrun : run other w' calls = .ok outcomes) :
    run other w (call :: calls) = .ok (outcome :: outcomes) := by
  rw [run, hstep]
  show (run other w' calls >>= fun outcomes => _) = _
  rw [hrun]
  rfl

theorem exists_of_run_cons {os : List (Outcome Kind)} (h : run other w (call :: calls) = .ok os) :
    ∃ outcome w' outcomes, w.step other call = .ok (outcome, w') ∧
      run other w' calls = .ok outcomes ∧ os = outcome :: outcomes := by
  rw [run] at h
  cases hstep : w.step other call with
  | error p =>
    rw [hstep] at h
    cases h
  | ok r =>
    obtain ⟨outcome, w'⟩ := r
    rw [hstep] at h
    change (run other w' calls >>= fun outcomes => _) = _ at h
    cases hrun : run other w' calls with
    | error p =>
      rw [hrun] at h
      cases h
    | ok outcomes =>
      rw [hrun] at h
      cases h
      exact ⟨outcome, w', outcomes, rfl, hrun, rfl⟩

/-- The calls after the first are tolerated if all are. -/
theorem Tolerates.tail (h : Tolerates (call :: calls) (outcome :: outcomes)) :
    Tolerates calls outcomes where
  closeFailed i j e c c' hij := h.closeFailed (i + 1) (j + 1) e c c' (Nat.succ_lt_succ hij)
  closeAgain i j c c' hij := h.closeAgain (i + 1) (j + 1) c c' (Nat.succ_lt_succ hij)

/-- Calls that may follow each other are tolerated. -/
theorem run_of_orderly (h : Orderly stage calls) (hw : stage.Holds w) :
    ∃ outcomes, run other w calls = .ok outcomes ∧ Tolerates calls outcomes ∧
      ∀ (j : ℕ) c, calls[j]? = some c → c.IsClose →
        ∃ o, outcomes[j]? = some o ∧ stage.Answers w o := by
  induction h generalizing w with
  | nil stage =>
    refine ⟨[], rfl, ⟨?_, ?_⟩, ?_⟩
    · intro i j e c c' _ hc
      cases hc
    · intro i j c c' _ hc
      cases hc
    · intro j c hc
      cases hc
  | @cons stage stage' call calls h _ ih =>
    obtain ⟨outcome, w', hstep, hw', hanswer⟩ := step_of_follows h hw
    obtain ⟨outcomes, hrun, htol, hanswers⟩ := ih hw'
    refine ⟨outcome :: outcomes, run_cons hstep hrun, ⟨?_, ?_⟩, ?_⟩
    · intro i j e c c' hij hc hfinds hc' hclose r hr
      cases j with
      | zero => cases hij
      | succ j =>
        cases i with
        | zero =>
          cases hc
          obtain ⟨o, ho, hstage⟩ := hanswers j c' hc' hclose
          rw [List.getElem?_cons_succ, ho] at hr
          cases hr
          exact error_of_follows h hfinds hstage
        | succ i => exact htol.closeFailed i j e c c' (Nat.lt_of_succ_lt_succ hij) hc hfinds hc' hclose r hr
    · intro i j c c' hij hc hfirst hc' hclose
      cases j with
      | zero => cases hij
      | succ j =>
        cases i with
        | zero =>
          cases hc
          obtain ⟨o, ho, hstage⟩ := hanswers j c' hc' hclose
          rw [List.getElem?_cons_succ, ho, eq_of_follows_close h hw hstep hfirst hstage]
          rfl
        | succ i => exact htol.closeAgain i j c c' (Nat.lt_of_succ_lt_succ hij) hc hfirst hc' hclose
    · intro j c hc hclose
      cases j with
      | zero =>
        cases hc
        exact ⟨outcome, rfl, hanswer hclose⟩
      | succ j =>
        obtain ⟨o, ho, hstage⟩ := hanswers j c hc hclose
        exact ⟨o, ho, answers_of_follows h hw hstep hstage⟩

/-- Calls that are tolerated may follow each other. -/
theorem orderly_of_run (hw : stage.Holds w) (hrun : run other w calls = .ok outcomes)
    (htol : Tolerates calls outcomes) (hends : ∀ e, stage = .ended (.error e) →
      ∀ (j : ℕ) c, calls[j]? = some c → c.IsClose →
        ∀ r, outcomes[j]? = some (.closed (.ready r)) → r = .error e) : Orderly stage calls := by
  induction calls generalizing w stage outcomes with
  | nil => exact .nil stage
  | cons call calls ih =>
    obtain ⟨outcome, w', outcomes, hstep, hrest, rfl⟩ := exists_of_run_cons hrun
    have hfirst : ∀ e, stage = .ended (.error e) → call.IsClose →
        ∀ r, outcome = .closed (.ready r) → r = .error e := by
      intro e he hclose r hr
      apply hends e he 0 call rfl hclose r
      rw [hr]
      rfl
    obtain ⟨stage', hfollows, hw'⟩ := follows_of_step hw hstep hfirst
    apply Orderly.cons hfollows
    apply ih hw' hrest htol.tail
    rintro e rfl j c hc hclose r hr
    -- the upload was found to have ended just now, or before
    cases hfollows with
    | shutdown => exact hends e rfl (j + 1) c hc hclose r hr
    | writeEnded buf result pipe =>
      exact htol.closeFailed 0 (j + 1) e _ c (Nat.succ_pos j) rfl rfl hc hclose r hr
    | flushEnded result pipe =>
      exact htol.closeFailed 0 (j + 1) e _ c (Nat.succ_pos j) rfl rfl hc hclose r hr

/-- Calls are tolerated just if every one of them may follow those before it. -/
theorem tolerant_iff (other : Kind) (calls : List (Call Kind)) :
    Tolerant other calls ↔ Orderly .writing calls := by
  have hw : Stage.writing.Holds (@openWrite Kind) := rfl
  constructor
  · rintro ⟨outcomes, hrun, htol⟩
    apply orderly_of_run hw hrun htol
    intro e he
    cases he
  · intro h
    obtain ⟨outcomes, hrun, htol, -⟩ := run_of_orderly h hw
    exact ⟨outcomes, hrun, htol⟩

/-- An error of the upload. -/
def storeError : BlobWriteError Bool := ⟨false, "put failed"⟩

/-- Writing twice to an upload that has failed panics, and so do closing after a write that failed,
    and writing after the writer was closed. -/
theorem tolerant_fails_twice :
    run true openWrite [.write [97] (.ready (.error storeError)) fun _ => .ready (.ok 1),
      .write [97] .pending fun _ => .ready (.ok 1)] = .error .resumed ∧
    run true openWrite [.write [97] (.ready (.error storeError)) fun _ => .ready (.ok 1),
      .close (.ready (.ok ())) .pending] = .error .resumed ∧
    run true openWrite [.close (.ready (.ok ())) (.ready (.error storeError)),
      .write [97] .pending fun _ => .ready (.ok 1)] = .error .notFuture ∧
    ¬ ∀ calls : List (Call Bool), Tolerant true calls := by
  refine ⟨rfl, rfl, rfl, ?_⟩
  intro h
  obtain ⟨outcomes, hrun, -⟩ := h [.write [97] (.ready (.error storeError)) fun _ => .ready (.ok 1),
    .close (.ready (.ok ())) .pending]
  cases hrun

end ObjectStoreBlobWriter

end Snix.Castore
