import Snix.NixCompat.Wire.NixReader
import Snix.NixCompat.Wire.NixWriter

/-!
# Values on the wire

How values are written to a `NixWriter` and read from a `NixReader`. A value is written
as a sequence of numbers and byte strings. Reading one asks the reader for numbers and
byte strings, and may find the end of the input in place of any of them.

Values of which reading undoes writing are put together from numbers, byte strings and
lists, and a sequence of them survives every writer, reader and stream in between.

## Main definitions

- `De` — what a value asks a reader for
- `NixSerialize`, `NixDeserialize` — types with values that are written, and read
- `De.decode`, `De.exec` — reading off a byte string, and from a reader
- `De.Reads` — what is read off the bytes of a value
- `Ty`, `Message` — numbers, byte strings and lists, and sequences of them

## Main results

- `De.agrees_exec` — reading depends on the bytes alone
- `Ty.reads` — reading undoes writing
- `message_roundTrip` — a message is written as the encodings of its values, and read back
-/

namespace Snix.Wire

variable {α β : Type}

/-- What reading a value asks for: the next number, or the next byte string, and what
    to do with it. -/
inductive De (α : Type) where
  | done (a : α)
  | fail (e : IoError)
  | number (next : Option ℕ → De α)
  | bytes (next : Option Bytes → De α)

namespace De

def bind : De α → (α → De β) → De β
  | .done a, f => f a
  | .fail e, _ => .fail e
  | .number next, f => .number fun n => (next n).bind f
  | .bytes next, f => .bytes fun x => (next x).bind f

instance : Monad De where
  pure := done
  bind := bind

/-- Asks for a number. -/
def tryReadNumber : De (Option ℕ) := .number .done

/-- Asks for a byte string. -/
def tryReadBytes : De (Option Bytes) := .bytes .done

/-- Reads from a reader. -/
def exec : De α → ℕ → Prog IoError NixReader α
  | .done a, _ => pure a
  | .fail e, _ => Prog.fail e
  | .number next, k => do
    let n ← NixReader.tryReadNumber k
    (next n).exec k
  | .bytes next, k => do
    let x ← NixReader.tryReadBytes k
    (next x).exec k

/-- Reads off a byte string. Strings on the wire are at most `N` bytes long. -/
def decode (N : ℕ) : De α → Bytes → Except IoError (α × Bytes)
  | .done a, b => .ok (a, b)
  | .fail e, _ => .error e
  | .number next, b => takeNumber b >>= fun x => (next x.1).decode N x.2
  | .bytes next, b => takeBytesLimited 0 N b >>= fun x => (next x.1).decode N x.2

/-- Reads as many values. -/
def times (d : De α) : ℕ → De (List α)
  | 0 => pure []
  | n + 1 => do
    let a ← d
    let as ← d.times n
    pure (a :: as)

theorem decode_bind (N : ℕ) (d : De α) (f : α → De β) (b : Bytes) :
    (d >>= f).decode N b = (d.decode N b >>= fun x => (f x.1).decode N x.2) := by
  induction d generalizing b with
  | done a => rfl
  | fail e => rfl
  | number next ih =>
    show (takeNumber b >>= fun x => (next x.1 >>= f).decode N x.2) = _
    rw [decode, bind_assoc]
    congr 1
    funext x
    exact ih x.1 x.2
  | bytes next ih =>
    show (takeBytesLimited 0 N b >>= fun x => (next x.1 >>= f).decode N x.2) = _
    rw [decode, bind_assoc]
    congr 1
    funext x
    exact ih x.1 x.2

section

variable {N : ℕ} {r : NixReader}

/-- Reading from a reader does what reading off the bytes it has left does. -/
theorem agrees_exec (d : De α) (hr : (NixReader.view N).Valid r) :
    Agrees (NixReader.view N) (fun k => d.exec k) r
      (d.decode N ((NixReader.view N).rest r)) := by
  induction d generalizing r with
  | done a => exact .pure hr
  | fail e => exact .fail e id
  | number next ih =>
    exact (NixReader.agrees_tryReadNumber hr).bind fun n r' hr' _ => ih n hr'
  | bytes next ih =>
    exact (NixReader.agrees_tryReadBytes hr).bind fun x r' hr' _ => ih x hr'

theorem returns_exec {d : De α} {a : α} {tail : Bytes} (hr : (NixReader.view N).Valid r)
    (h : d.decode N ((NixReader.view N).rest r) = .ok (a, tail)) :
    ∃ r', (NixReader.view N).Valid r' ∧ (NixReader.view N).rest r' = tail ∧
      Returns (fun k => d.exec k) r (.ok (a, r')) := by
  rcases agrees_exec d hr with ⟨a', r', hres, hr', hret⟩ | ⟨d', e, hres, -, -⟩ | ⟨d', -, hd, -⟩
  · rw [h] at hres
    cases hres
    exact ⟨r', hr', rfl, hret⟩
  · rw [h] at hres
    cases hres
  · exact hd.elim

theorem returns_exec_iff {d : De α} {a : α} {tail : Bytes} (hr : (NixReader.view N).Valid r) :
    (∃ r', Returns (fun k => d.exec k) r (.ok (a, r')) ∧ (NixReader.view N).rest r' = tail) ↔
      d.decode N ((NixReader.view N).rest r) = .ok (a, tail) := by
  constructor
  · rintro ⟨r', hret, rfl⟩
    rcases agrees_exec d hr with ⟨a₁, r₁, hres, -, hret₁⟩ | ⟨d', e, -, -, hret₁⟩ | ⟨d', -, hd, -⟩
    · cases hret.unique hret₁
      exact hres
    · cases hret.unique hret₁
    · exact hd.elim
  · intro h
    obtain ⟨r', -, hrest, hret⟩ := returns_exec hr h
    exact ⟨r', hret, hrest⟩

theorem returns_exec_error {d : De α} {e : IoError} (hr : (NixReader.view N).Valid r)
    (h : d.decode N ((NixReader.view N).rest r) = .error e) :
    ∃ e', Returns (fun k => d.exec k) r (.error e') := by
  rcases agrees_exec d hr with ⟨a', r', hres, -, -⟩ | ⟨d', e', -, -, hret⟩ | ⟨d', -, hd, -⟩
  · rw [h] at hres
    cases hres
  · exact ⟨e', hret⟩
  · exact hd.elim

end

-- ====================
-- What is read off the bytes of a value
-- ====================

/-- In front of all other bytes, the bytes `x` are read as `a`. -/
def Reads (N : ℕ) (d : De α) (x : Bytes) (a : α) : Prop :=
  ∀ tail, d.decode N (x ++ tail) = .ok (a, tail)

section

variable {N : ℕ}

theorem reads_pure (a : α) : Reads N (pure a) [] a := fun _ => rfl

theorem Reads.bind {d : De α} {f : α → De β} {x y : Bytes} {a : α} {b : β}
    (h : Reads N d x a) (hf : Reads N (f a) y b) : Reads N (d >>= f) (x ++ y) b := by
  intro tail
  rw [decode_bind, List.append_assoc, h]
  exact hf tail

/-- A value is read before what is done with it. -/
theorem Reads.map {d : De α} {x : Bytes} {a : α} (h : Reads N d x a) (f : α → β) :
    Reads N (d >>= fun a => pure (f a)) x (f a) := by
  have hbind := h.bind (f := fun a => pure (f a)) (reads_pure (f a))
  rwa [List.append_nil] at hbind

theorem takeNumber_leBytes {n : ℕ} (hn : n < 2 ^ 64) (tail : Bytes) :
    takeNumber (leBytes 8 n ++ tail) = .ok (some n, tail) := by
  have hne : leBytes 8 n ++ tail ≠ [] := fun h => by
    rw [leBytes] at h
    cases h
  have htake : takeExact IoError.unexpectedEof 8 (leBytes 8 n ++ tail) = .ok (leBytes 8 n, tail) :=
    takeExact_eq_ok_iff.mpr ⟨rfl, length_leBytes 8 n⟩
  rw [takeNumber, if_neg hne, htake]
  show Except.ok (some (leValue (leBytes 8 n)), tail) = _
  rw [leValue_leBytes (by omega)]

theorem reads_number {n : ℕ} (hn : n < 2 ^ 64) :
    Reads N tryReadNumber (leBytes 8 n) (some n) := by
  intro tail
  rw [tryReadNumber, decode, takeNumber_leBytes hn]
  rfl

theorem decode_tryReadBytes {x : Bytes} (hx : x.length < 2 ^ 63) (tail : Bytes) :
    tryReadBytes.decode N (encodeBytes x ++ tail) =
      (takeContents 0 N x.length (x ++ List.replicate (paddingLen x.length) 0 ++ tail) >>=
        fun y => .ok (some y.1, y.2)) := by
  have hbytes : encodeBytes x ++ tail =
      leBytes 8 x.length ++ (x ++ List.replicate (paddingLen x.length) 0 ++ tail) := by
    rw [encodeBytes, List.append_assoc, List.append_assoc, List.append_assoc]
  rw [tryReadBytes, decode, hbytes, takeBytesLimited, takeNumber_leBytes (by omega)]
  show (takeContents 0 N x.length _ >>= _ >>= _) = _
  rw [bind_assoc]
  rfl

theorem reads_bytes {x : Bytes} (hmax : x.length ≤ N) (hx : x.length < 2 ^ 63) :
    Reads N tryReadBytes (encodeBytes x) (some x) := by
  intro tail
  have haligned : (x.length + 7) / 8 * 8 = x.length + paddingLen x.length := by
    unfold paddingLen
    omega
  have htake : takeExact IoError.unexpectedEof ((x.length + 7) / 8 * 8)
      (x ++ List.replicate (paddingLen x.length) 0 ++ tail) =
        .ok (x ++ List.replicate (paddingLen x.length) 0, tail) := by
    refine takeExact_eq_ok_iff.mpr ⟨rfl, ?_⟩
    rw [List.length_append, List.length_replicate, haligned]
  have hpadding : (x ++ List.replicate (paddingLen x.length) (0 : UInt8)).drop x.length =
      List.replicate ((x.length + 7) / 8 * 8 - x.length) 0 := by
    rw [List.drop_left, haligned, Nat.add_sub_cancel_left]
  have hcontents : takeContents 0 N x.length
      (x ++ List.replicate (paddingLen x.length) 0 ++ tail) = .ok (x, tail) := by
    rw [takeContents, if_neg (not_not.mpr ⟨Nat.zero_le _, hmax⟩), if_neg (by omega)]
    show (takeExact IoError.unexpectedEof ((x.length + 7) / 8 * 8) _ >>= _) = _
    rw [htake]
    show (if _ ≠ _ then _ else _) = _
    rw [if_neg (not_not.mpr hpadding), List.take_left]
    rfl
  rw [decode_tryReadBytes hx, hcontents]
  rfl

/-- In front of all other bytes, the bytes `x` are rejected. -/
def Fails (N : ℕ) (d : De α) (x : Bytes) : Prop :=
  ∀ tail, ∃ e, d.decode N (x ++ tail) = .error e

theorem fails_fail (e : IoError) : Fails N (.fail e : De α) [] := fun _ => ⟨e, rfl⟩

theorem Fails.bind {d : De α} {x : Bytes} (h : Fails N d x) (f : α → De β) (y : Bytes) :
    Fails N (d >>= f) (x ++ y) := by
  intro tail
  obtain ⟨e, he⟩ := h (y ++ tail)
  exact ⟨e, by rw [decode_bind, List.append_assoc, he]; rfl⟩

theorem Reads.bind_fails {d : De α} {f : α → De β} {x y : Bytes} {a : α} (h : Reads N d x a)
    (hf : Fails N (f a) y) : Fails N (d >>= f) (x ++ y) := by
  intro tail
  obtain ⟨e, he⟩ := hf tail
  exact ⟨e, by rw [decode_bind, List.append_assoc, h]; exact he⟩

theorem fails_bytes {x : Bytes} (hmax : N < x.length) (hx : x.length < 2 ^ 63) :
    Fails N tryReadBytes (encodeBytes x) := by
  intro tail
  refine ⟨.invalidData, ?_⟩
  rw [decode_tryReadBytes hx, takeContents, if_pos fun h => absurd h.2 (Nat.not_le_of_lt hmax)]
  rfl

/-- The bytes `x` are read as `a` where `C` holds, and rejected where it does not. -/
structure ReadsIff (N : ℕ) (d : De α) (x : Bytes) (a : α) (C : Prop) : Prop where
  reads : C → Reads N d x a
  fails : ¬ C → Fails N d x

namespace ReadsIff

variable {d : De α} {f : α → De β} {x y : Bytes} {a : α} {b : β} {C D : Prop}

theorem of_reads (h : Reads N d x a) : ReadsIff N d x a True :=
  ⟨fun _ => h, fun hnot => absurd trivial hnot⟩

theorem of_fails (h : Fails N d x) (a : α) : ReadsIff N d x a False :=
  ⟨False.elim, fun _ => h⟩

theorem congr (h : ReadsIff N d x a C) (hCD : C ↔ D) : ReadsIff N d x a D :=
  ⟨fun hD => h.reads (hCD.mpr hD), fun hD => h.fails fun hC => hD (hCD.mp hC)⟩

theorem bind (h : ReadsIff N d x a C) (hf : C → ReadsIff N (f a) y b D) :
    ReadsIff N (d >>= f) (x ++ y) b (C ∧ D) where
  reads hCD := (h.reads hCD.1).bind ((hf hCD.1).reads hCD.2)
  fails hnot := by
    by_cases hC : C
    · exact (h.reads hC).bind_fails ((hf hC).fails fun hD => hnot ⟨hC, hD⟩)
    · exact (h.fails hC).bind f y

theorem map (h : ReadsIff N d x a C) (f : α → β) :
    ReadsIff N (d >>= fun a => pure (f a)) x (f a) C := by
  have hbind := h.bind (f := fun a => pure (f a)) fun _ => of_reads (reads_pure (f a))
  rw [List.append_nil] at hbind
  exact hbind.congr (and_iff_left trivial)

theorem decode_iff (h : ReadsIff N d x a C) (tail : Bytes) :
    d.decode N (x ++ tail) = .ok (a, tail) ↔ C := by
  refine ⟨fun hdecode => ?_, fun hC => h.reads hC tail⟩
  by_contra hnot
  obtain ⟨e, he⟩ := h.fails hnot tail
  rw [hdecode] at he
  cases he

theorem times {C : α → Prop} {enc : α → Bytes} {as : List α}
    (h : ∀ a ∈ as, ReadsIff N d (enc a) a (C a)) :
    ReadsIff N (d.times as.length) (as.flatMap enc) as (∀ a ∈ as, C a) := by
  induction as with
  | nil => exact (of_reads (reads_pure [])).congr (by simp)
  | cons a as ih =>
    have htail := ih fun a' ha' => h a' (List.mem_cons_of_mem a ha')
    exact ((h a List.mem_cons_self).bind (f := fun a => d.times as.length >>= fun as =>
      pure (a :: as)) fun _ => htail.map (a :: ·)).congr List.forall_mem_cons.symm

end ReadsIff

theorem readsIff_bytes {x : Bytes} (hx : x.length < 2 ^ 63) :
    ReadsIff N tryReadBytes (encodeBytes x) (some x) (x.length ≤ N) :=
  ⟨fun hmax => reads_bytes hmax hx, fun hmax => fails_bytes (Nat.lt_of_not_le hmax) hx⟩

theorem Reads.times {d : De α} {enc : α → Bytes} {as : List α}
    (h : ∀ a ∈ as, Reads N d (enc a) a) :
    Reads N (d.times as.length) (as.flatMap enc) as :=
  (ReadsIff.times (C := fun _ => True) fun a ha => .of_reads (h a ha)).reads fun _ _ => trivial

end

end De

-- ====================
-- Types
-- ====================

/-- Types of which values are written. -/
class NixSerialize (α : Type) where
  serialize : α → List Item

/-- Types of which values are read. There is none at the end of the input. -/
class NixDeserialize (α : Type) where
  tryDeserialize : De (Option α)

open NixSerialize (serialize)
open NixDeserialize (tryDeserialize)

/-- Reads a value that has to be there. -/
def deserialize (α : Type) [NixDeserialize α] : De α := do
  match ← (tryDeserialize : De (Option α)) with
  | some v => pure v
  | none => .fail .unexpectedEof

/-- The bytes of a value. -/
def encode [NixSerialize α] (a : α) : Bytes := encodeItems (serialize a)

instance : NixSerialize ℕ := ⟨fun n => [.number n]⟩
instance : NixDeserialize ℕ := ⟨De.tryReadNumber⟩

instance : NixSerialize Bool := ⟨fun v => [.number (if v then 1 else 0)]⟩
instance : NixDeserialize Bool where
  tryDeserialize := do
    let v ← De.tryReadNumber
    pure (v.map (· != 0))

instance : NixSerialize Bytes := ⟨fun x => [.slice x]⟩
instance : NixDeserialize Bytes := ⟨De.tryReadBytes⟩

instance [NixSerialize α] : NixSerialize (List α) where
  serialize as := .number as.length :: as.flatMap serialize

instance [NixDeserialize α] : NixDeserialize (List α) where
  tryDeserialize := do
    match ← (tryDeserialize : De (Option ℕ)) with
    | some len => do
      let ret ← (deserialize α).times len
      pure (some ret)
    | none => pure none

section

variable {N : ℕ}

/-- Reading undoes writing. -/
def ReadsBack [NixSerialize α] [NixDeserialize α] (N : ℕ) (a : α) : Prop :=
  De.Reads N tryDeserialize (encode a) (some a)

theorem readsIff_deserialize [NixDeserialize α] {x : Bytes} {a : α} {C : Prop}
    (h : De.ReadsIff N tryDeserialize x (some a) C) :
    De.ReadsIff N (deserialize α) x a C := by
  have hbind := h.bind (f := fun
    | some v => pure v
    | none => .fail .unexpectedEof) fun _ => De.ReadsIff.of_reads (De.reads_pure a)
  rw [List.append_nil] at hbind
  exact hbind.congr (and_iff_left trivial)

/-- A value that is not there is the end of the input. -/
theorem fails_deserialize [NixDeserialize α] {x : Bytes}
    (h : De.Reads N (tryDeserialize : De (Option α)) x none) :
    De.Fails N (deserialize α) x := by
  have hbind := h.bind_fails (f := fun
    | some v => pure v
    | none => .fail .unexpectedEof) (De.fails_fail .unexpectedEof)
  rwa [List.append_nil] at hbind

theorem ReadsBack.deserialize [NixSerialize α] [NixDeserialize α] {a : α} (h : ReadsBack N a) :
    De.Reads N (deserialize α) (encode a) a :=
  (readsIff_deserialize (.of_reads h)).reads trivial

theorem encode_number (n : ℕ) : encode n = leBytes 8 n := List.append_nil _

theorem encode_slice (x : Bytes) : encode x = encodeBytes x := List.append_nil _

theorem encode_list [NixSerialize α] (as : List α) :
    encode as = leBytes 8 as.length ++ as.flatMap encode := by
  show leBytes 8 as.length ++ (as.flatMap serialize).flatMap Item.encode = _
  rw [List.flatMap_assoc]
  rfl

theorem readsBack_number {n : ℕ} (hn : n < 2 ^ 64) : ReadsBack N n := by
  rw [ReadsBack, encode_number]
  exact De.reads_number hn

theorem readsBack_bool (v : Bool) : ReadsBack N v := by
  have hread := (@De.reads_number N (if v then 1 else 0) (by split <;> decide)).map
    fun n => n.map (· != 0)
  have hv : ((if v then 1 else 0 : ℕ) != 0) = v := by cases v <;> rfl
  rw [Option.map_some, hv] at hread
  show De.Reads N _ (leBytes 8 (if v then 1 else 0) ++ []) (some v)
  rw [List.append_nil]
  exact hread

theorem readsBack_bytes {x : Bytes} (hmax : x.length ≤ N) (hx : x.length < 2 ^ 63) :
    ReadsBack N x := by
  rw [ReadsBack, encode_slice]
  exact De.reads_bytes hmax hx

theorem readsIff_list [NixDeserialize α] {enc : α → Bytes} {C : α → Prop} {as : List α}
    (hlen : as.length < 2 ^ 64)
    (h : ∀ a ∈ as, De.ReadsIff N tryDeserialize (enc a) (some a) (C a)) :
    De.ReadsIff N tryDeserialize (leBytes 8 as.length ++ as.flatMap enc) (some as)
      (∀ a ∈ as, C a) := by
  have htimes := De.ReadsIff.times fun a ha => readsIff_deserialize (h a ha)
  refine ((De.ReadsIff.of_reads (De.reads_number hlen)).bind (f := fun
    | some len => do
      let ret ← (deserialize α).times len
      pure (some ret)
    | none => pure none) fun _ => htimes.map some).congr (and_iff_right trivial)

theorem readsBack_list [NixSerialize α] [NixDeserialize α] {as : List α}
    (hlen : as.length < 2 ^ 64) (h : ∀ a ∈ as, ReadsBack N a) : ReadsBack N as := by
  rw [ReadsBack, encode_list]
  exact (readsIff_list (C := fun _ => True) hlen fun a ha => .of_reads (h a ha)).reads
    fun _ _ => trivial

end

-- ====================
-- Messages
-- ====================

/-- Numbers, byte strings, and lists of them. -/
inductive Ty where
  | number
  | bytes
  | list (elem : Ty)
  deriving DecidableEq, Repr

namespace Ty

@[reducible] def Val : Ty → Type
  | .number => ℕ
  | .bytes => Bytes
  | .list elem => List elem.Val

instance nixSerialize : (t : Ty) → NixSerialize t.Val
  | .number => inferInstanceAs (NixSerialize ℕ)
  | .bytes => inferInstanceAs (NixSerialize Bytes)
  | .list elem =>
    have := nixSerialize elem
    inferInstanceAs (NixSerialize (List elem.Val))

instance nixDeserialize : (t : Ty) → NixDeserialize t.Val
  | .number => inferInstanceAs (NixDeserialize ℕ)
  | .bytes => inferInstanceAs (NixDeserialize Bytes)
  | .list elem =>
    have := nixDeserialize elem
    inferInstanceAs (NixDeserialize (List elem.Val))

/-- Numbers have 64 bits, byte strings and lists are in memory, and byte strings are no
    longer than the reader accepts. -/
def Fits (N : ℕ) : (t : Ty) → t.Val → Prop
  | .number, n => n < 2 ^ 64
  | .bytes, x => x.length ≤ N ∧ x.length < 2 ^ 63
  | .list elem, vs => vs.length < 2 ^ 64 ∧ ∀ v ∈ vs, elem.Fits N v

theorem readsBack {N : ℕ} {t : Ty} {v : t.Val} (h : t.Fits N v) : ReadsBack N v := by
  induction t with
  | number => exact readsBack_number h
  | bytes => exact readsBack_bytes h.1 h.2
  | list elem ih => exact readsBack_list h.1 fun v hv => ih (h.2 v hv)

end Ty

/-- A sequence of values. -/
abbrev Message := List (Σ t : Ty, t.Val)

namespace Message

/-- Writes one value after the other. -/
def serialize (m : Message) : List Item := m.flatMap fun v => NixSerialize.serialize v.2

/-- The bytes of one value after the other. -/
def encode (m : Message) : Bytes := m.flatMap fun v => Wire.encode v.2

/-- Reads values of the given types. -/
def deserialize : List Ty → De Message
  | [] => pure []
  | t :: ts => do
    let v ← Wire.deserialize t.Val
    let m ← deserialize ts
    pure (⟨t, v⟩ :: m)

def Fits (N : ℕ) (m : Message) : Prop := ∀ v ∈ m, v.1.Fits N v.2

theorem encodeItems_serialize (m : Message) : encodeItems m.serialize = m.encode := by
  rw [encodeItems, serialize, List.flatMap_assoc]
  rfl

theorem reads {N : ℕ} {m : Message} (h : m.Fits N) :
    De.Reads N (deserialize (m.map Sigma.fst)) m.encode m := by
  induction m with
  | nil => exact De.reads_pure []
  | cons v m ih =>
    refine (Ty.readsBack (h v List.mem_cons_self)).deserialize.bind ?_
    exact (ih fun v' hv' => h v' (List.mem_cons_of_mem v hv')).map (⟨v.1, v.2⟩ :: ·)

/-- Writes a message to the sink. -/
def write (k : ℕ) (m : Message) : Prog WriteError NixWriter Unit := do
  NixWriter.writeItems k m.serialize
  NixWriter.flush k

/-- Reads a message from a reader. -/
def read (k : ℕ) (ts : List Ty) : Prog IoError NixReader Message := (deserialize ts).exec k

theorem returns_write (m : Message) {w : NixWriter} (hw : w.inner.Steady) :
    ∃ w', Returns (fun k => write k m) w (.ok ((), w')) ∧
      w'.inner.written = w.inner.written ++ w.buf.data ++ m.encode ∧ w'.buf.data = [] := by
  obtain ⟨w₁, hs₁, hout₁, hret₁⟩ := NixWriter.returns_writeItems m.serialize hw
  obtain ⟨w', -, hwritten, hnil, hret⟩ := NixWriter.returns_flush hs₁
  refine ⟨w', hret₁.bind (f := fun _ k => NixWriter.flush k) hret, ?_, hnil⟩
  rw [hwritten, hout₁, encodeItems_serialize]
  rfl

theorem returns_read {m : Message} {r : NixReader} (hfaultless : r.inner.Faultless)
    (hfair : r.inner.Fair) (hreserved : 0 < r.reservedBufSize) (hm : m.Fits r.maxBufSize)
    {tail : Bytes} (hrest : r.buf.data ++ r.inner.rest = m.encode ++ tail) :
    ∃ r', Returns (fun k => read k (m.map Sigma.fst)) r (.ok (m, r')) ∧
      r'.buf.data ++ r'.inner.rest = tail := by
  have hdecode := reads hm tail
  rw [← hrest] at hdecode
  obtain ⟨r', -, hrest', hret⟩ :=
    De.returns_exec (r := r) ⟨⟨hfaultless, hfair⟩, hreserved, rfl⟩ hdecode
  exact ⟨r', hret, hrest'⟩

end Message

/-- A message reaches the sink as the encodings of its values in order, whatever the
    buffer of the writer and however much the sink takes at a time. A reader of these
    bytes that reserves room returns the message, whatever its buffer and however the
    bytes arrive, and leaves what follows. -/
theorem message_roundTrip (m : Message) {w : NixWriter} (hw : w.inner.Steady) {r : NixReader}
    (hfaultless : r.inner.Faultless) (hfair : r.inner.Fair) (hreserved : 0 < r.reservedBufSize)
    (hm : m.Fits r.maxBufSize) {tail : Bytes}
    (hrest : r.buf.data ++ r.inner.rest = m.encode ++ tail) :
    (∃ w', Returns (fun k => m.write k) w (.ok ((), w')) ∧
        w'.inner.written = w.inner.written ++ w.buf.data ++ m.encode ∧ w'.buf.data = []) ∧
      ∃ r', Returns (fun k => Message.read k (m.map Sigma.fst)) r (.ok (m, r')) ∧
        r'.buf.data ++ r'.inner.rest = tail :=
  ⟨Message.returns_write m hw, Message.returns_read hfaultless hfair hreserved hm hrest⟩

/-- A sink that takes three bytes at a time. -/
def slowSink : AsyncSink := ⟨[], fun _ => .accept 3⟩

theorem slowSink_steady : slowSink.Steady where
  fair i := ⟨0, by rw [slowSink]; exact SinkAnswer.noConfusion⟩
  faultless i := by rw [slowSink]; exact SinkAnswer.noConfusion
  takes i h := by
    rw [slowSink] at h
    cases h

/-- Buffers without room, of which every allocation is as small as it can be. -/
def noRoom : BytesMut := .withCapacity 0 fun _ => 0

def sample : Message := [⟨.list .bytes, [ascii "a", ascii "bc"]⟩, ⟨.number, 7⟩]

/-- The reader of `sample` gets five bytes at a time, and reserves the given room. -/
def sampleReader (reserved : ℕ) : NixReader :=
  ⟨⟨sample.encode, fun _ => .chunk 4⟩, noRoom, reserved, 8⟩

theorem sample_fits : sample.Fits 8 := by
  rintro v hv
  rcases List.mem_cons.mp hv with rfl | hv
  · exact ⟨by decide, (by decide : ∀ x ∈ [ascii "a", ascii "bc"], x.length ≤ 8 ∧ x.length < 2 ^ 63)⟩
  · rcases List.mem_singleton.mp hv with rfl
    exact (by decide : 7 < 2 ^ 64)

theorem message_roundTrip_sample :
    (∃ w', Returns (fun k => sample.write k) ⟨slowSink, noRoom, 1⟩ (.ok ((), w')) ∧
        w'.inner.written = sample.encode ∧ w'.buf.data = []) ∧
      ∃ r', Returns (fun k => Message.read k (sample.map Sigma.fst)) (sampleReader 1)
          (.ok (sample, r')) ∧ r'.buf.data ++ r'.inner.rest = [] :=
  message_roundTrip (w := ⟨slowSink, noRoom, 1⟩) (r := sampleReader 1) sample slowSink_steady
    (fun _ => Answer.noConfusion) (fun _ => ⟨0, Answer.noConfusion⟩) Nat.one_pos sample_fits
    (List.append_nil _).symm

/-- Without reserved room nothing is read into an empty buffer, and the end of the input
    is reported in front of the message. -/
theorem unreserved_fails :
    Returns (fun k => Message.read k (sample.map Sigma.fst)) (sampleReader 0)
      (.error .unexpectedEof) := by
  refine ⟨1, fun k hk => ?_⟩
  obtain ⟨k, rfl⟩ : ∃ j, k = j + 1 := ⟨k - 1, by omega⟩
  rfl

theorem unreserved_not_read :
    ¬ ∀ (m : Message) (r : NixReader), r.inner.Faultless → r.inner.Fair → m.Fits r.maxBufSize →
      r.buf.data ++ r.inner.rest = m.encode →
      ∃ r', Returns (fun k => Message.read k (m.map Sigma.fst)) r (.ok (m, r')) ∧
        r'.buf.data ++ r'.inner.rest = [] := by
  intro h
  obtain ⟨r', hret, -⟩ := h sample (sampleReader 0) (fun _ => Answer.noConfusion)
    (fun _ => ⟨0, Answer.noConfusion⟩) sample_fits rfl
  cases unreserved_fails.unique hret

end Snix.Wire
