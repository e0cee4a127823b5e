import Snix.Lib.Bytes

/-!
# SHA-256

The hash function, executable, for evaluating the model on concrete input.
Results that need no particular hash function take one as a parameter.

## Main definitions

- `Sha256.compress` — one block
- `Sha256.digest` — the digest of a message
-/

namespace Snix.Sha256

/-- The round constants. -/
def K : List UInt32 :=
  [0x428a2f98, 0x71374491, 0xb5c0fbcf, 0xe9b5dba5, 0x3956c25b, 0x59f111f1, 0x923f82a4, 0xab1c5ed5,
   0xd807aa98, 0x12835b01, 0x243185be, 0x550c7dc3, 0x72be5d74, 0x80deb1fe, 0x9bdc06a7, 0xc19bf174,
   0xe49b69c1, 0xefbe4786, 0x0fc19dc6, 0x240ca1cc, 0x2de92c6f, 0x4a7484aa, 0x5cb0a9dc, 0x76f988da,
   0x983e5152, 0xa831c66d, 0xb00327c8, 0xbf597fc7, 0xc6e00bf3, 0xd5a79147, 0x06ca6351, 0x14292967,
   0x27b70a85, 0x2e1b2138, 0x4d2c6dfc, 0x53380d13, 0x650a7354, 0x766a0abb, 0x81c2c92e, 0x92722c85,
   0xa2bfe8a1, 0xa81a664b, 0xc24b8b70, 0xc76c51a3, 0xd192e819, 0xd6990624, 0xf40e3585, 0x106aa070,
   0x19a4c116, 0x1e376c08, 0x2748774c, 0x34b0bcb5, 0x391c0cb3, 0x4ed8aa4a, 0x5b9cca4f, 0x682e6ff3,
   0x748f82ee, 0x78a5636f, 0x84c87814, 0x8cc70208, 0x90befffa, 0xa4506ceb, 0xbef9a3f7, 0xc67178f2]

/-- The working variables. -/
structure State where
  a : UInt32
  b : UInt32
  c : UInt32
  d : UInt32
  e : UInt32
  f : UInt32
  g : UInt32
  h : UInt32

/-- The initial state. -/
def init : State :=
  ⟨0x6a09e667, 0xbb67ae85, 0x3c6ef372, 0xa54ff53a, 0x510e527f, 0x9b05688c, 0x1f83d9ab, 0x5be0cd19⟩

def rotr (x : UInt32) (n : UInt32) : UInt32 := (x >>> n) ||| (x <<< (32 - n))

/-- One round, with the sum of the round constant and the scheduled word. -/
def round (s : State) (kw : UInt32) : State :=
  let t1 := s.h + (rotr s.e 6 ^^^ rotr s.e 11 ^^^ rotr s.e 25) +
    ((s.e &&& s.f) ^^^ (~~~ s.e &&& s.g)) + kw
  let t2 := (rotr s.a 2 ^^^ rotr s.a 13 ^^^ rotr s.a 22) +
    ((s.a &&& s.b) ^^^ (s.a &&& s.c) ^^^ (s.b &&& s.c))
  ⟨t1 + t2, s.a, s.b, s.c, s.d + t1, s.e, s.f, s.g⟩

/-- Four bytes as a word. -/
def word : Bytes → UInt32
  | [a, b, c, d] =>
    (a.toUInt32 <<< 24) ||| (b.toUInt32 <<< 16) ||| (c.toUInt32 <<< 8) ||| d.toUInt32
  | _ => 0

/-- Extends the message schedule, which is kept with the latest word first. -/
def extend : ℕ → List UInt32 → List UInt32
  | 0, w => w
  | n + 1, w =>
    let s0 := w.getD 14 0
    let s1 := w.getD 1 0
    extend n ((w.getD 15 0 + (rotr s0 7 ^^^ rotr s0 18 ^^^ (s0 >>> 3)) + w.getD 6 0 +
      (rotr s1 17 ^^^ rotr s1 19 ^^^ (s1 >>> 10))) :: w)

/-- The first `k` pieces of `n` bytes. -/
def chunks (n : ℕ) : ℕ → Bytes → List Bytes
  | 0, _ => []
  | k + 1, b => b.take n :: chunks n k (b.drop n)

/-- The message schedule of a block. -/
def schedule (block : Bytes) : List UInt32 :=
  (extend 48 ((chunks 4 16 block).map word).reverse).reverse

/-- Adds one block of 64 bytes to the state. -/
def compress (s : State) (block : Bytes) : State :=
  let t := (List.zipWith (· + ·) K (schedule block)).foldl round s
  ⟨s.a + t.a, s.b + t.b, s.c + t.c, s.d + t.d, s.e + t.e, s.f + t.f, s.g + t.g, s.h + t.h⟩

/-- The last `k` bytes of `n`, most significant first. -/
def beBytes (k n : ℕ) : Bytes :=
  (List.range k).reverse.map fun i => UInt8.ofNat (n >>> (8 * i))

/-- Pads a message to a multiple of 64 bytes. -/
def pad (m : Bytes) : Bytes :=
  m ++ 0x80 :: List.replicate ((119 - m.length % 64) % 64) 0 ++ beBytes 8 (8 * m.length)

def State.toBytes (s : State) : Bytes :=
  [s.a, s.b, s.c, s.d, s.e, s.f, s.g, s.h].flatMap fun w => beBytes 4 w.toNat

theorem State.length_toBytes (s : State) : s.toBytes.length = 32 := by
  simp [State.toBytes, beBytes]

/-- The digest of a message. -/
def digest (m : Bytes) : ByteArr 32 :=
  let p := pad m
  let final := (chunks 64 (p.length / 64) p).foldl compress init
  ⟨final.toBytes, final.length_toBytes⟩

example : (digest (ascii "abc")).val.take 4 = [0xba, 0x78, 0x16, 0xbf] := by decide +kernel

end Snix.Sha256
