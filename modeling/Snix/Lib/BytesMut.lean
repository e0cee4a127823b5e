import Snix.Lib.Bytes

/-!
# Buffers that grow

A byte buffer with a capacity. Bytes are put behind those that are there and taken
from the front, together with the room they stood in. Where there is too little room
the buffer gets at least as much as was asked for; how much more is a parameter.

## Main definitions

- `BytesMut` — the buffer
- `BytesMut.reserve`, `BytesMut.putSlice`, `BytesMut.advance`, `BytesMut.patch`
-/

namespace Snix

/-- The bytes, how many of them fit, and by how much each of the coming allocations is
    larger than it has to be. -/
structure BytesMut where
  data : Bytes
  capacity : ℕ
  surplus : ℕ → ℕ
  length_le : data.length ≤ capacity

namespace BytesMut

/-- An empty buffer. -/
def withCapacity (capacity : ℕ) (surplus : ℕ → ℕ) : BytesMut :=
  ⟨[], capacity, surplus, Nat.zero_le capacity⟩

/-- The room that is left. -/
def remainingMut (b : BytesMut) : ℕ := b.capacity - b.data.length

/-- Makes room for `n` bytes. -/
def reserve (n : ℕ) (b : BytesMut) : BytesMut :=
  if n ≤ b.remainingMut then b
  else ⟨b.data, b.data.length + n + b.surplus 0, fun i => b.surplus (i + 1), by omega⟩

@[simp] theorem data_reserve (n : ℕ) (b : BytesMut) : (b.reserve n).data = b.data := by
  unfold reserve
  split <;> rfl

theorem le_remainingMut_reserve (n : ℕ) (b : BytesMut) : n ≤ (b.reserve n).remainingMut := by
  unfold reserve
  split
  case isTrue h => exact h
  case isFalse =>
    simp only [remainingMut]
    omega

/-- Puts bytes behind those that are there. -/
def putSlice (x : Bytes) (b : BytesMut) : BytesMut where
  data := b.data ++ x
  capacity := (b.reserve x.length).capacity
  surplus := (b.reserve x.length).surplus
  length_le := by
    have hroom := le_remainingMut_reserve x.length b
    have hle := (b.reserve x.length).length_le
    rw [remainingMut, data_reserve] at hroom
    rw [data_reserve] at hle
    rw [List.length_append]
    omega

@[simp] theorem data_putSlice (x : Bytes) (b : BytesMut) : (b.putSlice x).data = b.data ++ x := rfl

/-- Takes bytes from the front. -/
def advance (n : ℕ) (b : BytesMut) : BytesMut where
  data := b.data.drop n
  capacity := b.capacity - n
  surplus := b.surplus
  length_le := by
    have := b.length_le
    rw [List.length_drop]
    omega

@[simp] theorem data_advance (n : ℕ) (b : BytesMut) : (b.advance n).data = b.data.drop n := rfl

/-- Overwrites bytes from a position on. -/
def patch (pos : ℕ) (x : Bytes) (b : BytesMut) : BytesMut where
  data := (b.data.take pos ++ x ++ b.data.drop (pos + x.length)).take b.data.length
  capacity := b.capacity
  surplus := b.surplus
  length_le := (List.length_take_le _ _).trans b.length_le

theorem data_patch {pos : ℕ} {b : BytesMut} {y z w : Bytes} (x : Bytes) (h : b.data = y ++ z ++ w)
    (hpos : pos = y.length) (hx : x.length = z.length) : (b.patch pos x).data = y ++ x ++ w := by
  subst hpos
  show (b.data.take y.length ++ x ++ b.data.drop (y.length + x.length)).take b.data.length = _
  rw [h, hx, List.append_assoc y, List.take_left, List.drop_length_add_append, List.drop_left,
    List.take_of_length_le]
  simp only [List.length_append]
  omega

end BytesMut

end Snix
