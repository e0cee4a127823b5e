import Snix.Lib.ByteWriter

/-!
# Length-delimited frames

A stream of frames, each after its length in four bytes, most significant first. Frames
that are longer than a limit are neither written nor read.

## Main definitions

- `writeFrame`, `writeFrames` — frames with their lengths
- `readFrames` — the frames of a stream, and how it ends

## Main results

- `readFrames_writeFrames` — the frames that were written are read
- `readFrames_take` — of a stream that breaks off some of the frames are read
-/

namespace Snix

/-- How a stream of frames ends. -/
inductive FramesEnd where
  | clean
  /-- Bytes remaining on stream. -/
  | trailing
  /-- Frame size too big. -/
  | tooBig
  deriving DecidableEq

variable (limit : ℕ)

/-- A frame with its length; none if it is too long. -/
def writeFrame (frame : Bytes) : Option Bytes :=
  if frame.length ≤ limit then some (bigEndian 4 frame.length ++ frame) else none

def writeFrames : List Bytes → Option Bytes
  | [] => some []
  | frame :: frames => do
    let first ← writeFrame limit frame
    let rest ← writeFrames frames
    return first ++ rest

/-- A length at the end of the stream, without any of the frame, goes unnoticed: it has been taken
    out of the buffer that must be empty. -/
def readFrames (s : Bytes) : List Bytes × FramesEnd :=
  if s.length < 4 then ([], if s = [] then .clean else .trailing)
  else if limit < leValue (s.take 4).reverse then ([], .tooBig)
  else if _h : 4 + leValue (s.take 4).reverse ≤ s.length then
    let (frames, e) := readFrames (s.drop (4 + leValue (s.take 4).reverse))
    ((s.drop 4).take (leValue (s.take 4).reverse) :: frames, e)
  else ([], if s.drop 4 = [] then .clean else .trailing)
termination_by s.length
decreasing_by
  simp only [List.length_drop]
  omega

variable {limit : ℕ}

theorem length_of_writeFrame {frame b : Bytes} (h : writeFrame limit frame = some b) :
    b.length = 4 + frame.length := by
  unfold writeFrame at h
  split_ifs at h
  cases h
  rw [List.length_append, length_bigEndian]

theorem writeFrames_cons {frame : Bytes} {frames : List Bytes} {b : Bytes} :
    writeFrames limit (frame :: frames) = some b ↔
      ∃ first rest, writeFrame limit frame = some first ∧ writeFrames limit frames = some rest ∧
        first ++ rest = b := by
  simp only [writeFrames, Option.bind_eq_bind, Option.bind_eq_some_iff, pure, Option.some.injEq,
    exists_and_left]

/-- The length of a frame that was written, as it is read. -/
theorem leValue_writeFrame {frame first : Bytes} (hlimit : limit < 2 ^ 32)
    (h : writeFrame limit frame = some first) (rest : Bytes) :
    leValue ((first ++ rest).take 4).reverse = frame.length ∧
      (first ++ rest).drop 4 = frame ++ rest ∧ frame.length ≤ limit := by
  unfold writeFrame at h
  split_ifs at h with hle
  cases h
  rw [List.append_assoc, List.take_left' (length_bigEndian 4 _), bigEndian, List.reverse_reverse,
    leValue_leBytes (Nat.lt_of_le_of_lt hle hlimit)]
  exact ⟨rfl, List.drop_left' (length_bigEndian 4 _), hle⟩

/-- A frame that was written is read, and then what comes after it. -/
theorem readFrames_append {frame first : Bytes} (hlimit : limit < 2 ^ 32)
    (h : writeFrame limit frame = some first) (rest : Bytes) :
    readFrames limit (first ++ rest) =
      (frame :: (readFrames limit rest).1, (readFrames limit rest).2) := by
  have hlen := length_of_writeFrame h
  obtain ⟨hvalue, hdrop, hle⟩ := leValue_writeFrame hlimit h rest
  have hall : (first ++ rest).length = 4 + frame.length + rest.length := by
    rw [List.length_append, hlen]
  rw [readFrames, hvalue, hall, if_neg (by omega), if_neg (Nat.not_lt.mpr hle), dif_pos (by omega),
    List.drop_left' hlen, hdrop, List.take_left' rfl]

theorem readFrames_nil : readFrames limit [] = ([], .clean) := by
  rw [readFrames]
  rfl

/-- The frames that were written are read. -/
theorem readFrames_writeFrames (hlimit : limit < 2 ^ 32) {frames : List Bytes} {b : Bytes}
    (h : writeFrames limit frames = some b) : readFrames limit b = (frames, .clean) := by
  induction frames generalizing b with
  | nil =>
    cases h
    exact readFrames_nil
  | cons frame frames ih =>
    obtain ⟨first, rest, hfirst, hrest, rfl⟩ := writeFrames_cons.mp h
    rw [readFrames_append hlimit hfirst, ih hrest]

/-- Of a stream that breaks off the frames that are complete are read. -/
theorem readFrames_take (hlimit : limit < 2 ^ 32) {frames : List Bytes} {b : Bytes}
    (h : writeFrames limit frames = some b) (n : ℕ) : (readFrames limit (b.take n)).1 <+: frames := by
  induction frames generalizing b n with
  | nil =>
    cases h
    simp only [List.take_nil, readFrames_nil, List.nil_prefix]
  | cons frame frames ih =>
    obtain ⟨first, rest, hfirst, hrest, rfl⟩ := writeFrames_cons.mp h
    have hlen := length_of_writeFrame hfirst
    rcases Nat.lt_or_ge n first.length with hlt | hge
    · -- nothing of the first frame is complete
      have hshort : ((first ++ rest).take n).length < 4 + frame.length := by
        rw [List.length_take]
        omega
      rw [readFrames]
      by_cases hfour : ((first ++ rest).take n).length < 4
      · rw [if_pos hfour]
        exact List.nil_prefix
      · have htake : ((first ++ rest).take n).take 4 = (first ++ rest).take 4 := by
          rw [List.take_take, Nat.min_eq_left]
          rw [List.length_take] at hfour
          omega
        obtain ⟨hvalue, -, hle⟩ := leValue_writeFrame hlimit hfirst rest
        rw [htake, hvalue, if_neg hfour, if_neg (Nat.not_lt.mpr hle), dif_neg (Nat.not_le.mpr hshort)]
        exact List.nil_prefix
    · rw [List.take_append, List.take_of_length_le hge, readFrames_append hlimit hfirst]
      exact (List.prefix_cons_inj frame).mpr (ih hrest _)

end Snix
