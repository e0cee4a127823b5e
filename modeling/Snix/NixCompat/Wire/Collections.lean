import Snix.Lib.SortedMap
import Snix.NixCompat.Wire.Serde

/-!
# Vectors and maps on the wire

A vector and a map are a number of elements, and the elements. Room for all elements of a vector
is made before any of them is read, and there is none for more than `isize::MAX` bytes. The number
comes from the other side.

## Main definitions

- `Elem` — types of elements: vectors, maps and all others
- `Elem.tryDeserialize` — how they are read
- `Elem.Fits` — all vectors that a byte string announces fit into memory

## Main results

- `Elem.no_panic_iff` — when reading a collection does not panic
-/

namespace Snix.Wire

variable {α β : Type}

-- ====================
-- Panics
-- ====================

/-- The program never panics. -/
def Calm {σ : Type} (p : Prog IoError σ α) : Prop := ∀ s, p.run s ≠ some (.error .panic)

namespace Calm

variable {σ : Type}

theorem pure (a : α) : Calm (Pure.pure a : Prog IoError σ α) := nofun

theorem running : Calm (Prog.running : Prog IoError σ α) := nofun

theorem fail {e : IoError} (he : e ≠ .panic) : Calm (Prog.fail e : Prog IoError σ α) := by
  intro s h
  cases h
  exact he rfl

theorem bind {p : Prog IoError σ α} {f : α → Prog IoError σ β} (hp : Calm p)
    (hf : ∀ a, Calm (f a)) : Calm (p >>= f) := by
  intro s h
  rw [Prog.run_bind] at h
  split at h
  case h_1 => cases h
  case h_2 e hrun =>
    cases h
    exact hp s hrun
  case h_3 a s' hrun => exact hf a s' h

theorem ite {c : Prop} [Decidable c] {p q : Prog IoError σ α} (hp : Calm p) (hq : Calm q) :
    Calm (if c then p else q) := by
  split
  · exact hp
  · exact hq

theorem await {poll : σ → Poll (Except IoError α) × σ}
    (h : ∀ s s', poll s ≠ (.ready (.error .panic), s')) (k : ℕ) : Calm (await poll k) := by
  induction k with
  | zero => exact running
  | succ k ih =>
    intro s hrun
    simp only [Prog.run, Snix.await] at hrun
    split at hrun
    case h_1 s' hpoll => exact ih s' hrun
    case h_2 e s' hpoll =>
      cases hrun
      exact h s s' hpoll
    case h_3 => cases hrun

theorem readExact {read : Read σ} (hread : ∀ k n, Calm (read k n)) (k n : ℕ) :
    Calm (readExact read k n) := by
  induction k generalizing n with
  | zero => exact running
  | succ k ih =>
    refine ite (pure []) ((hread k n).bind fun chunk => ?_)
    exact ite (fail (by decide)) ((ih _).bind fun more => pure _)

end Calm

namespace NixReader

theorem pollForceFillBuf_ne_panic (r r' : NixReader) :
    r.pollForceFillBuf ≠ (.ready (.error .panic), r') := by
  intro h
  have hinner : ∀ (s : AsyncStream) (n : ℕ) (s' : AsyncStream),
      s.pollRead n ≠ (.ready (.error .panic), s') := by
    intro s n s' h
    unfold AsyncStream.pollRead at h
    split at h <;> cases h
  unfold pollForceFillBuf at h
  dsimp only at h
  split at h
  case h_1 => cases h
  case h_2 e i hpoll =>
    cases h
    exact hinner _ _ _ hpoll
  case h_3 => cases h

theorem pollRead_ne_panic (n : ℕ) (r r' : NixReader) :
    r.pollRead n ≠ (.ready (.error .panic), r') := by
  intro h
  unfold pollRead pollFillBuf at h
  split_ifs at h
  · cases hpoll : r.pollForceFillBuf with
    | mk p r₁ =>
      rw [hpoll] at h
      cases p with
      | pending => cases h
      | ready x =>
        cases x with
        | error e =>
          cases h
          exact pollForceFillBuf_ne_panic _ _ hpoll
        | ok n => cases h
  · cases h

theorem calm_read (k n : ℕ) : Calm (read k n) := Calm.await (pollRead_ne_panic n) k

theorem calm_forceFill (k : ℕ) : Calm (forceFill k) := Calm.await pollForceFillBuf_ne_panic k

theorem calm_tryReadNumber (k : ℕ) : Calm (tryReadNumber k) := by
  refine (calm_read k 8).bind fun buf => .ite (.pure none) ?_
  refine Calm.bind (.ite (.readExact calm_read k _) (.pure [])) fun more => .pure _

theorem calm_fillTo (k aligned : ℕ) : Calm (fillTo k aligned) := by
  induction k with
  | zero => exact .running
  | succ k ih =>
    intro r hrun
    simp only [Prog.run, fillTo] at hrun
    split_ifs at hrun
    · have hfill : Calm (do
          let n ← forceFill k
          if n = 0 then .fail .unexpectedEof
          else fillTo k aligned : Prog IoError NixReader Unit) :=
        (calm_forceFill k).bind fun n => .ite (.fail (by decide)) ih
      exact hfill r hrun
    · cases hrun

theorem calm_readContents (k lo hi len : ℕ) : Calm (readContents k lo hi len) := by
  refine .ite (.fail (by decide)) (.ite (.fail (by decide)) ?_)
  dsimp only
  refine Calm.bind ?_ fun _ => (calm_fillTo k _).bind fun _ => Calm.bind ?_ fun contents =>
    .ite (.fail (by decide)) (.pure _)
  · intro r hrun
    cases hrun
  · intro r hrun
    cases hrun

/-- The limit of a reader is its own. -/
theorem calm_tryReadBytes (k : ℕ) : Calm (tryReadBytes k) := by
  intro r hrun
  have hlimit : (if r.maxBufSize ≤ r.maxBufSize then some (Except.ok ((), r))
      else some (.error IoError.panic)) = some (.ok ((), r)) := if_pos le_rfl
  simp only [Prog.run, tryReadBytes, tryReadBytesLimited, bind, hlimit] at hrun
  refine (calm_tryReadNumber k).bind (fun n => ?_) r hrun
  cases n with
  | none => exact .pure none
  | some len => exact (calm_readContents k 0 r.maxBufSize len).bind fun contents => .pure _

end NixReader

theorem takeNumber_ne_panic (b : Bytes) : takeNumber b ≠ .error .panic := by
  intro h
  rw [takeNumber, takeExact] at h
  split_ifs at h
  · cases h
  · cases h

theorem takeContents_ne_panic (lo hi len : ℕ) (b : Bytes) :
    takeContents lo hi len b ≠ .error .panic := by
  intro h
  unfold takeContents at h
  split at h
  · cases h
  split at h
  · cases h
  dsimp only at h
  cases htake : takeExact IoError.unexpectedEof ((len + 7) / 8 * 8) b with
  | error e =>
    rw [htake] at h
    cases h
    unfold takeExact at htake
    split at htake <;> cases htake
  | ok x =>
    rw [htake] at h
    simp only [bind, Except.bind] at h
    split at h <;> cases h

theorem takeBytesLimited_ne_panic (lo hi : ℕ) (b : Bytes) :
    takeBytesLimited lo hi b ≠ .error .panic := by
  intro h
  unfold takeBytesLimited at h
  cases hnumber : takeNumber b with
  | error e =>
    rw [hnumber] at h
    cases h
    exact takeNumber_ne_panic b hnumber
  | ok x =>
    obtain ⟨n, rest⟩ := x
    rw [hnumber] at h
    cases n with
    | none => cases h
    | some len =>
      simp only [bind, Except.bind] at h
      cases hcontents : takeContents lo hi len rest with
      | error e =>
        rw [hcontents] at h
        cases h
        exact takeContents_ne_panic lo hi len rest hcontents
      | ok y =>
        rw [hcontents] at h
        cases h

namespace De

variable {N : ℕ} {r : NixReader}

/-- A reader panics exactly if reading off the bytes that it has left does. -/
theorem returns_panic_iff (d : De α) (hr : (NixReader.view N).Valid r) :
    ∃ res, Returns (fun k => d.exec k) r res ∧
      (res = .error .panic ↔ d.decode N ((NixReader.view N).rest r) = .error .panic) := by
  induction d generalizing r with
  | done a => exact ⟨_, Returns.pure a r, iff_of_false nofun nofun⟩
  | fail e =>
    refine ⟨_, Returns.fail e r, ?_⟩
    rw [decode]
    simp
  | number next ih =>
    rw [decode]
    obtain ⟨n, r', hres, hr', hret⟩ | ⟨d', e, hres, -, hret⟩ | ⟨d', -, hd, -⟩ :=
      NixReader.agrees_tryReadNumber hr
    · obtain ⟨res, hret', hiff⟩ := ih n hr'
      refine ⟨res, hret.bind (f := fun n k => (next n).exec k) hret', ?_⟩
      rw [hres]
      exact hiff
    · refine ⟨.error e, hret.bind_error (f := fun n k => (next n).exec k), iff_of_false ?_ ?_⟩
      · rintro h
        cases h
        obtain ⟨c, hc⟩ := hret
        exact NixReader.calm_tryReadNumber c r (hc c le_rfl)
      · rw [hres]
        intro h
        cases h
        exact takeNumber_ne_panic _ hres
    · exact hd.elim
  | bytes next ih =>
    rw [decode]
    obtain ⟨x, r', hres, hr', hret⟩ | ⟨d', e, hres, -, hret⟩ | ⟨d', -, hd, -⟩ :=
      NixReader.agrees_tryReadBytes hr
    · obtain ⟨res, hret', hiff⟩ := ih x hr'
      refine ⟨res, hret.bind (f := fun x k => (next x).exec k) hret', ?_⟩
      rw [hres]
      exact hiff
    · refine ⟨.error e, hret.bind_error (f := fun x k => (next x).exec k), iff_of_false ?_ ?_⟩
      · rintro h
        cases h
        obtain ⟨c, hc⟩ := hret
        exact NixReader.calm_tryReadBytes c r (hc c le_rfl)
      · rw [hres]
        intro h
        cases h
        exact takeBytesLimited_ne_panic _ _ _ hres
    · exact hd.elim

/-- Reading off the bytes does not panic. -/
def Quiet (N : ℕ) (d : De α) (b : Bytes) : Prop := d.decode N b ≠ .error .panic

theorem quiet_bind_iff {d : De α} {f : α → De β} {b : Bytes} :
    Quiet N (d >>= f) b ↔
      Quiet N d b ∧ ∀ a rest, d.decode N b = .ok (a, rest) → Quiet N (f a) rest := by
  unfold Quiet
  rw [decode_bind]
  cases d.decode N b with
  | error e =>
    refine ⟨fun h => ⟨fun he => h ?_, nofun⟩, fun h hbind => h.1 ?_⟩
    · cases he
      rfl
    · cases hbind
      rfl
  | ok x =>
    refine ⟨fun h => ⟨nofun, fun a rest hx => ?_⟩, fun h => h.2 x.1 x.2 rfl⟩
    cases hx
    exact h

theorem quiet_pure (a : α) (b : Bytes) : Quiet N (pure a) b := nofun

/-- A property of the input holds wherever one of `n` values begins. -/
def Along (P : Bytes → Prop) (read : Bytes → Except IoError (α × Bytes)) : ℕ → Bytes → Prop
  | 0, _ => True
  | n + 1, b => P b ∧ ∀ a rest, read b = .ok (a, rest) → Along P read n rest

theorem along_congr {P Q : Bytes → Prop} (h : ∀ b, P b ↔ Q b)
    (read : Bytes → Except IoError (α × Bytes)) (n : ℕ) (b : Bytes) :
    Along P read n b ↔ Along Q read n b := by
  induction n generalizing b with
  | zero => exact Iff.rfl
  | succ n ih => exact and_congr (h b) (forall₃_congr fun a rest _ => ih rest)

theorem quiet_times_iff {d : De α} {n : ℕ} {b : Bytes} :
    Quiet N (d.times n) b ↔ Along (Quiet N d) (d.decode N) n b := by
  induction n generalizing b with
  | zero => exact iff_of_true (quiet_pure [] b) trivial
  | succ n ih =>
    rw [times, quiet_bind_iff, Along]
    refine and_congr_right fun _ => forall₃_congr fun a rest _ => ?_
    rw [quiet_bind_iff, ih]
    exact and_iff_left fun as rest _ => quiet_pure _ rest

/-- Reads a value that has to be there. -/
def required (d : De (Option α)) : De α := do
  match ← d with
  | some v => pure v
  | none => .fail .unexpectedEof

/-- Reads a key and a value. -/
def entry (key : De (Option α)) (value : De (Option β)) : De (α × β) := do
  let k ← key.required
  let v ← value.required
  pure (k, v)

/-- Reads a value that may be missing, and then more if it is there. -/
def andThen (d : De (Option α)) (next : α → De β) : De (Option β) := do
  match ← d with
  | some v => do
    let w ← next v
    pure (some w)
  | none => pure none

theorem quiet_andThen_iff {d : De (Option α)} {next : α → De β} {b : Bytes} :
    Quiet N (d.andThen next) b ↔
      Quiet N d b ∧ ∀ v rest, d.decode N b = .ok (some v, rest) → Quiet N (next v) rest := by
  rw [andThen, quiet_bind_iff]
  refine and_congr_right fun _ => ⟨fun h v rest hv => ?_, fun h v rest hv => ?_⟩
  · exact (quiet_bind_iff.mp (h (some v) rest hv)).1
  · cases v with
    | none => exact quiet_pure none rest
    | some v => exact quiet_bind_iff.mpr ⟨h v rest hv, fun w rest _ => quiet_pure _ rest⟩

theorem quiet_required_iff {d : De (Option α)} {b : Bytes} : Quiet N d.required b ↔ Quiet N d b := by
  rw [required, quiet_bind_iff]
  refine and_iff_left fun v rest _ => ?_
  cases v with
  | none => exact nofun
  | some v => exact quiet_pure v rest

def ofExcept : Except IoError α → De α
  | .ok a => pure a
  | .error e => .fail e

theorem quiet_ofExcept {x : Except IoError α} (hx : x ≠ .error .panic) (b : Bytes) :
    Quiet N (ofExcept x) b := by
  cases x with
  | ok a => exact quiet_pure a b
  | error e =>
    intro h
    cases h
    exact hx rfl

end De

-- ====================
-- Collections
-- ====================

/-- The largest allocation. -/
def isizeMax : ℕ := 2 ^ 63 - 1

/-- Makes room for `len` values. -/
def withCapacity (size len : ℕ) : De Unit :=
  if len * size ≤ isizeMax then pure () else .fail .panic

/-- The types of elements: vectors, maps, those with two fields, those that are read as another,
    and all others, with the size of a value in memory. Reading one of the others does not panic,
    and neither does making a value from one of another type. -/
inductive Elem : Type → Type 1 where
  | other {α : Type} (size : ℕ) (read : De (Option α)) (quiet : ∀ N b, read.Quiet N b) : Elem α
  | vec {α : Type} (elem : Elem α) : Elem (List α)
  | map {κ ν : Type} (cmp : κ → κ → Ordering) (trans : Std.TransCmp cmp) (key : Elem κ)
      (value : Elem ν) : Elem (SortedMap cmp ν)
  | fields {α β : Type} (size : ℕ) (first : Elem α) (second : Elem β) : Elem (α × β)
  | made {α β : Type} (size : ℕ) (repr : Elem α) (make : α → Except IoError β)
      (quiet : ∀ a, make a ≠ .error .panic) : Elem β

namespace Elem

/-- The size of a value. Vectors and maps are three words. -/
def size : {α : Type} → Elem α → ℕ
  | _, other size _ _ => size
  | _, vec _ => 24
  | _, map _ _ _ _ => 24
  | _, fields size _ _ => size
  | _, made size _ _ _ => size

def tryDeserialize : {α : Type} → Elem α → De (Option α)
  | _, other _ read _ => read
  | _, vec elem => do
    match ← De.tryReadNumber with
    | some len => do
      withCapacity elem.size len
      let ret ← elem.tryDeserialize.required.times len
      pure (some ret)
    | none => pure none
  | _, map _ _ key value => do
    match ← De.tryReadNumber with
    | some len => do
      let entries ← (De.entry key.tryDeserialize value.tryDeserialize).times len
      pure (some (SortedMap.ofList entries))
    | none => pure none
  | _, fields _ first second => first.tryDeserialize.andThen fun a => do
    let b ← second.tryDeserialize.required
    pure (a, b)
  | _, made _ repr make _ => repr.tryDeserialize.andThen fun a => De.ofExcept (make a)

/-- Wherever a number of elements of a vector is read, there is memory for them. -/
def Fits (N : ℕ) : {α : Type} → Elem α → Bytes → Prop
  | _, other _ _ _, _ => True
  | _, vec elem, b => ∀ len rest, takeNumber b = .ok (some len, rest) →
      len * elem.size ≤ isizeMax ∧
        De.Along (elem.Fits N) (elem.tryDeserialize.required.decode N) len rest
  | _, map _ _ key value, b => ∀ len rest, takeNumber b = .ok (some len, rest) →
      De.Along
        (fun b => key.Fits N b ∧
          ∀ k rest, key.tryDeserialize.required.decode N b = .ok (k, rest) → value.Fits N rest)
        ((De.entry key.tryDeserialize value.tryDeserialize).decode N) len rest
  | _, fields _ first second, b => first.Fits N b ∧
      ∀ a rest, first.tryDeserialize.decode N b = .ok (some a, rest) → second.Fits N rest
  | _, made _ repr _ _, b => repr.Fits N b

variable {N : ℕ}

theorem quiet_number_iff {f : Option ℕ → De α} {b : Bytes} (hnone : ∀ rest, (f none).Quiet N rest) :
    (De.tryReadNumber >>= f).Quiet N b ↔
      ∀ len rest, takeNumber b = .ok (some len, rest) → (f (some len)).Quiet N rest := by
  have hdecode : De.tryReadNumber.decode N b = takeNumber b := by
    rw [De.tryReadNumber, De.decode]
    cases takeNumber b <;> rfl
  rw [De.quiet_bind_iff, De.Quiet, hdecode]
  refine (and_iff_right (takeNumber_ne_panic b)).trans ⟨fun h len rest => h (some len) rest, ?_⟩
  intro h len rest hnumber
  cases len with
  | none => exact hnone rest
  | some len => exact h len rest hnumber

theorem quiet_withCapacity_iff {size len : ℕ} {f : Unit → De α} {b : Bytes} :
    (withCapacity size len >>= f).Quiet N b ↔ len * size ≤ isizeMax ∧ (f ()).Quiet N b := by
  unfold withCapacity
  split
  case isTrue h => exact (and_iff_right h).symm
  case isFalse h => exact iff_of_false (fun hq => hq rfl) fun hand => h hand.1

/-- Reading off the bytes panics exactly if there is not enough memory for a vector. By induction on
    the type. -/
theorem quiet_iff_fits (elem : Elem α) (b : Bytes) :
    elem.tryDeserialize.Quiet N b ↔ elem.Fits N b := by
  induction elem generalizing b with
  | other size read quiet => exact iff_of_true (quiet N b) trivial
  | vec elem ih =>
    rw [tryDeserialize, Fits]
    refine (quiet_number_iff ?_).trans ?_
    · exact fun rest => De.quiet_pure none rest
    refine forall₃_congr fun len rest _ => ?_
    rw [quiet_withCapacity_iff, De.quiet_bind_iff, De.quiet_times_iff]
    refine and_congr_right fun _ => (and_iff_left fun ret rest _ => De.quiet_pure _ rest).trans ?_
    exact De.along_congr (fun b => De.quiet_required_iff.trans (ih b)) _ _ _
  | map cmp trans key value ihKey ihValue =>
    rw [tryDeserialize, Fits]
    refine (quiet_number_iff ?_).trans ?_
    · exact fun rest => De.quiet_pure none rest
    refine forall₃_congr fun len rest _ => ?_
    rw [De.quiet_bind_iff, De.quiet_times_iff]
    refine (and_iff_left fun entries rest _ => De.quiet_pure _ rest).trans ?_
    refine De.along_congr (fun b => ?_) _ _ _
    rw [De.entry, De.quiet_bind_iff]
    refine and_congr (De.quiet_required_iff.trans (ihKey b)) (forall₃_congr fun k rest _ => ?_)
    rw [De.quiet_bind_iff]
    refine (and_iff_left fun v rest _ => De.quiet_pure _ rest).trans ?_
    exact De.quiet_required_iff.trans (ihValue rest)
  | fields size first second ihFirst ihSecond =>
    rw [tryDeserialize, De.quiet_andThen_iff, Fits]
    refine and_congr (ihFirst b) (forall₃_congr fun a rest _ => ?_)
    rw [De.quiet_bind_iff]
    refine (and_iff_left fun v rest _ => De.quiet_pure _ rest).trans ?_
    exact De.quiet_required_iff.trans (ihSecond rest)
  | made size repr make quiet ih =>
    rw [tryDeserialize, De.quiet_andThen_iff, Fits]
    exact (and_iff_left fun a rest _ => De.quiet_ofExcept (quiet a) rest).trans (ih b)

/-- Reading a collection from a reader returns a value or an error that is no panic, exactly if
    there is memory for all vectors of which the number of elements is read. -/
theorem no_panic_iff (elem : Elem α) {r : NixReader} (hr : (NixReader.view N).Valid r) :
    (∃ res, Returns (fun k => elem.tryDeserialize.required.exec k) r res ∧ res ≠ .error .panic) ↔
      elem.Fits N ((NixReader.view N).rest r) := by
  obtain ⟨res, hret, hiff⟩ := De.returns_panic_iff elem.tryDeserialize.required hr
  have hquiet := (De.quiet_required_iff (d := elem.tryDeserialize)).trans
    (elem.quiet_iff_fits (N := N) ((NixReader.view N).rest r))
  constructor
  · rintro ⟨res', hret', hne⟩
    rw [hret'.unique hret] at hne
    exact hquiet.mp fun hpanic => hne (hiff.mpr hpanic)
  · intro hfits
    exact ⟨res, hret, fun hpanic => hquiet.mpr hfits (hiff.mp hpanic)⟩

/-- Numbers as elements. -/
def number : Elem ℕ := .other 8 De.tryReadNumber fun N b => by
  rw [De.Quiet, De.tryReadNumber, De.decode]
  cases h : takeNumber b with
  | error e =>
    intro he
    cases he
    exact takeNumber_ne_panic b h
  | ok x => nofun

/-- A reader of eight bytes, of which one arrives at a time. -/
def eightReader (byte : UInt8) : NixReader :=
  ⟨⟨List.replicate 8 byte, fun _ => .chunk 0⟩, .withCapacity 0 fun _ => 0, 8192, 8192⟩

theorem eightReader_valid (byte : UInt8) : (NixReader.view 8192).Valid (eightReader byte) :=
  ⟨⟨fun _ => Answer.noConfusion, fun _ => ⟨0, Answer.noConfusion⟩⟩, Nat.zero_lt_succ _, rfl⟩

theorem not_fits_ones :
    ¬number.vec.Fits 8192 ((NixReader.view 8192).rest (eightReader 255)) := by
  intro h
  have hlen := (h (2 ^ 64 - 1) [] (by decide)).1
  exact absurd hlen (by decide)

/-- A list of numbers without elements is read. -/
theorem no_panic_zeros :
    ∃ res, Returns (fun k => number.vec.tryDeserialize.required.exec k) (eightReader 0) res ∧
      res ≠ .error .panic := by
  refine (no_panic_iff number.vec (eightReader_valid 0)).mpr fun len rest h => ?_
  have hzero : takeNumber (List.replicate 8 0) = .ok (some 0, []) := by decide
  obtain ⟨rfl, rfl⟩ : len = 0 ∧ rest = [] := by
    have heq := hzero.symm.trans h
    cases heq
    exact ⟨rfl, rfl⟩
  exact ⟨by decide, trivial⟩

/-- A list of numbers that claims to have as many elements as a number can say. -/
theorem panic_ones :
    Returns (fun k => number.vec.tryDeserialize.required.exec k) (eightReader 255)
      (.error .panic) := by
  obtain ⟨res, hret, hiff⟩ :=
    De.returns_panic_iff number.vec.tryDeserialize.required (eightReader_valid 255)
  have hpanic : res = .error .panic := by
    refine hiff.mpr (not_not.mp fun hquiet => not_fits_ones ?_)
    exact (number.vec.quiet_iff_fits _).mp (De.quiet_required_iff.mp hquiet)
  rwa [hpanic] at hret

end Elem

end Snix.Wire
