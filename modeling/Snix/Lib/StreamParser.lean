import Mathlib.Algebra.GroupWithZero.Nat
import Snix.Lib.Bytes

/-!
# Streaming parser combinators

A parser takes a byte string and returns the unread rest with a value, or one
of three failures: the input ended too early (`incomplete`), a recoverable
error, on which a list or an option may stop, and an unrecoverable failure.
The combinators follow the documented behaviour of streaming parser
combinators: a token parser that meets the end of the input is incomplete.

## Main definitions

- `Err`, `IResult`, `Parser` — results and parsers
- `char`, `tag`, `isNot`, `alt`, `opt`, `mapRes`, `delimited`, `separatedList0`,
  `escapedTransform`, `allConsuming`, … — the combinators

## Main results

- `separatedList0_of_elems`, `separatedList1_of_elems` — a list parser reads
  back a joined list whose elements it reads back
-/

namespace Snix.StreamParser

/-- What a combinator reports on failure. -/
inductive Kind where
  | char | tag | isNot | alt | mapRes | separatedList | eof
  deriving DecidableEq, Repr

/-- A parser failure. -/
inductive Err (E : Type) where
  | incomplete
  | error (e : E)
  | failure (e : E)
  deriving DecidableEq, Repr

/-- Error types that can be built from a position and a kind. -/
class ParseError (E : Type) where
  fromErrorKind : Bytes → Kind → E

/-- The plain error: where it happened and what was expected. -/
structure Error where
  input : Bytes
  code : Kind
  deriving DecidableEq, Repr

instance : ParseError Error := ⟨Error.mk⟩

/-- The unread rest and the value, or a failure. -/
abbrev IResult (E α : Type) := Except (Err E) (Bytes × α)

/-- A parser over complete or partial input. -/
abbrev Parser (E α : Type) := Bytes → IResult E α

variable {E α β γ : Type}

/-- Changes the error of a failure and leaves its severity. -/
def Err.map {E' : Type} (f : E → E') : Err E → Err E'
  | .incomplete => .incomplete
  | .error e => .error (f e)
  | .failure e => .failure (f e)

/-- Runs `p`, then the parser its value selects, on what `p` left. -/
def andThen (p : Parser E α) (q : α → Parser E β) : Parser E β := fun i =>
  match p i with
  | .ok (rest, a) => q a rest
  | .error e => .error e

/-- Succeeds without reading. -/
def success (a : α) : Parser E α := fun i => .ok (i, a)

/-- One given byte. -/
def char [ParseError E] (c : UInt8) : Parser E UInt8 := fun i =>
  match i with
  | [] => .error .incomplete
  | b :: rest =>
    if b = c then .ok (rest, c) else .error (.error (ParseError.fromErrorKind (b :: rest) .char))

/-- A given byte string. -/
def tag [ParseError E] (t : Bytes) : Parser E Bytes := fun i =>
  if t <+: i then .ok (i.drop t.length, t)
  else if i <+: t then .error .incomplete
  else .error (.error (ParseError.fromErrorKind i .tag))

/-- Is the byte outside of `set`? -/
def notIn (set : Bytes) (c : UInt8) : Bool := !set.contains c

/-- At least one byte that is not in `set`; the end of the run must be seen. -/
def isNot [ParseError E] (set : Bytes) : Parser E Bytes := fun i =>
  if i.all (notIn set) then .error .incomplete
  else if (i.takeWhile (notIn set)).isEmpty then
    .error (.error (ParseError.fromErrorKind i .isNot))
  else .ok (i.dropWhile (notIn set), i.takeWhile (notIn set))

/-- Tries the parsers in order; only a recoverable error moves on. -/
def alt [ParseError E] : List (Parser E α) → Parser E α
  | [], i => .error (.error (ParseError.fromErrorKind i .alt))
  | [p], i => p i
  | p :: q :: ps, i =>
    match p i with
    | .error (.error _) => alt (q :: ps) i
    | r => r

/-- Replaces the value of a parser. -/
def value (a : α) (p : Parser E β) : Parser E α := andThen p fun _ => success a

/-- Maps the value of a parser. -/
def map (f : α → β) (p : Parser E α) : Parser E β := andThen p fun a => success (f a)

/-- Turns a recoverable error into `none`. -/
def opt (p : Parser E α) : Parser E (Option α) := fun i =>
  match p i with
  | .ok (rest, a) => .ok (rest, some a)
  | .error (.error _) => .ok (i, none)
  | .error e => .error e

/-- Maps the value by a partial function; its failure is a recoverable error at
    the start of the input. -/
def mapRes [ParseError E] (f : α → Option β) (p : Parser E α) : Parser E β := fun i =>
  match p i with
  | .ok (rest, a) =>
    match f a with
    | some b => .ok (rest, b)
    | none => .error (.error (ParseError.fromErrorKind i .mapRes))
  | .error e => .error e

/-- Changes the error type of a parser. -/
def mapErr {E' : Type} (f : E → E') (p : Parser E α) : Parser E' α := fun i =>
  match p i with
  | .ok r => .ok r
  | .error e => .error (e.map f)

def preceded (p : Parser E α) (q : Parser E β) : Parser E β := andThen p fun _ => q

def terminated (p : Parser E α) (q : Parser E β) : Parser E α :=
  andThen p fun a => andThen q fun _ => success a

def delimited (p : Parser E α) (q : Parser E β) (r : Parser E γ) : Parser E β :=
  preceded p (terminated q r)

def separatedPair (p : Parser E α) (sep : Parser E γ) (q : Parser E β) : Parser E (α × β) :=
  andThen p fun a => preceded sep (andThen q fun b => success (a, b))

/-- The repetition of a separated list, after its first element. `fuel` bounds
    the number of elements; an element that consumes nothing is an error, so
    the length of the input is enough. -/
def separatedListRest [ParseError E] (sep : Parser E γ) (p : Parser E α) :
    ℕ → List α → Parser E (List α)
  | 0, _, _ => .error .incomplete
  | fuel + 1, acc, i =>
    match sep i with
    | .error (.error _) => .ok (i, acc)
    | .error e => .error e
    | .ok (i₁, _) =>
      match p i₁ with
      | .error (.error _) => .ok (i, acc)
      | .error e => .error e
      | .ok (i₂, a) =>
        if i₂.length = i.length then
          .error (.error (ParseError.fromErrorKind i .separatedList))
        else separatedListRest sep p fuel (acc ++ [a]) i₂

/-- A possibly empty list with separators. -/
def separatedList0 [ParseError E] (sep : Parser E γ) (p : Parser E α) : Parser E (List α) :=
  fun i =>
    match p i with
    | .error (.error _) => .ok (i, [])
    | .error e => .error e
    | .ok (i₁, a) => separatedListRest sep p (i₁.length + 1) [a] i₁

/-- A non-empty list with separators. -/
def separatedList1 [ParseError E] (sep : Parser E γ) (p : Parser E α) : Parser E (List α) :=
  fun i =>
    match p i with
    | .error e => .error e
    | .ok (i₁, a) => separatedListRest sep p (i₁.length + 1) [a] i₁

/-- The loop of `escapedTransform`; `fuel` bounds its iterations by the length
    of the input, as every iteration consumes. -/
def escapedTransformLoop (normal : Parser E Bytes) (control : UInt8)
    (transform : Parser E Bytes) : ℕ → Bytes → Parser E Bytes
  | 0, _, _ => .error .incomplete
  | _ + 1, _, [] => .error .incomplete
  | fuel + 1, res, c :: i =>
    match normal (c :: i) with
    | .ok (i₁, o) =>
      if i₁.isEmpty then .error .incomplete
      else escapedTransformLoop normal control transform fuel (res ++ o) i₁
    | .error (.error _) =>
      if c = control then
        if i.isEmpty then .error .incomplete
        else match transform i with
          | .ok (i₁, o) =>
            if i₁.isEmpty then .error .incomplete
            else escapedTransformLoop normal control transform fuel (res ++ o) i₁
          | .error e => .error e
      else .ok (c :: i, res)
    | .error e => .error e

/-- Runs of `normal` text and `control`-prefixed escapes, with the escapes
    replaced, up to the first byte that is neither. -/
def escapedTransform (normal : Parser E Bytes) (control : UInt8)
    (transform : Parser E Bytes) : Parser E Bytes := fun i =>
  escapedTransformLoop normal control transform (i.length + 1) [] i

/-- Succeeds only if the parser leaves nothing unread. -/
def allConsuming [ParseError E] (p : Parser E α) : Parser E α := fun i =>
  match p i with
  | .ok (rest, a) =>
    if rest.isEmpty then .ok (rest, a)
    else .error (.error (ParseError.fromErrorKind rest .eof))
  | .error e => .error e

-- ====================
-- What the combinators do on input they accept
-- ====================

section Accept

variable {p : Parser E α} {i rest : Bytes}

theorem andThen_ok {q : α → Parser E β} {a : α} (h : p i = .ok (rest, a)) :
    andThen p q i = q a rest := by
  simp [andThen, h]

/-- A sequence succeeds exactly when both parts do, in order. -/
theorem andThen_eq_ok {q : α → Parser E β} {r : Bytes × β} :
    andThen p q i = .ok r ↔ ∃ i₁ a, p i = .ok (i₁, a) ∧ q a i₁ = .ok r := by
  unfold andThen
  split
  · next i₁ a h => simp [h]
  · next e h => simp [h]

@[simp] theorem success_apply (a : α) : (success a : Parser E α) i = .ok (i, a) := rfl

@[simp] theorem char_cons [ParseError E] (c : UInt8) :
    (char c : Parser E UInt8) (c :: rest) = .ok (rest, c) := by
  simp [char]

theorem char_eq_ok [ParseError E] {c b : UInt8} :
    (char c : Parser E UInt8) i = .ok (rest, b) ↔ i = c :: rest ∧ b = c := by
  unfold char
  split
  · simp
  · next b' tl =>
    split
    · next h => simp [h, eq_comm]
    · next h => simp [h]

theorem char_cons_ne [ParseError E] {c b : UInt8} (h : b ≠ c) :
    (char c : Parser E UInt8) (b :: rest) =
      .error (.error (ParseError.fromErrorKind (b :: rest) .char)) := by
  simp [char, h]

@[simp] theorem tag_append [ParseError E] (t : Bytes) :
    (tag t : Parser E Bytes) (t ++ rest) = .ok (rest, t) := by
  simp [tag]

/-- A choice succeeds through one of its alternatives. -/
theorem exists_mem_of_alt_eq_ok [ParseError E] {ps : List (Parser E α)} {r : Bytes × α}
    (h : alt ps i = .ok r) : ∃ p ∈ ps, p i = .ok r := by
  induction ps with
  | nil => cases h
  | cons p ps ih =>
    cases ps with
    | nil => exact ⟨p, by simp, h⟩
    | cons q ps =>
      rw [alt] at h
      split at h
      · obtain ⟨p', hp', h'⟩ := ih h
        exact ⟨p', by simp [hp'], h'⟩
      · exact ⟨p, by simp, h⟩

theorem value_char_eq_ok [ParseError E] {c : UInt8} {a : α} {r : Bytes × α} :
    (value a (char c) : Parser E α) i = .ok r ↔ i = c :: r.1 ∧ r.2 = a := by
  obtain ⟨rest, b⟩ := r
  simp only [value, andThen_eq_ok, char_eq_ok, success_apply, Except.ok.injEq, Prod.mk.injEq]
  constructor
  · rintro ⟨i₁, c', ⟨rfl, -⟩, rfl, rfl⟩
    exact ⟨rfl, rfl⟩
  · rintro ⟨rfl, rfl⟩
    exact ⟨rest, c, ⟨rfl, rfl⟩, rfl, rfl⟩

/-- A run ends at the latest at a byte outside of it. -/
theorem takeWhile_append_cons {f : UInt8 → Bool} {d : UInt8} (hd : f d = false)
    (raw rest : Bytes) :
    (raw ++ d :: rest).takeWhile f = raw.takeWhile f ∧
      (raw ++ d :: rest).dropWhile f = raw.dropWhile f ++ d :: rest := by
  induction raw with
  | nil => simp [hd]
  | cons c raw ih => cases hc : f c <;> simp [hc, ih]

/-- A run of bytes outside of `set`, ended by a byte of `set`. -/
theorem isNot_of_run [ParseError E] {set raw : Bytes} {c d : UInt8} (hc : notIn set c = true)
    (hd : notIn set d = false) :
    (isNot set : Parser E Bytes) (c :: raw ++ d :: rest) =
      .ok (raw.dropWhile (notIn set) ++ d :: rest, c :: raw.takeWhile (notIn set)) := by
  obtain ⟨ht, hdr⟩ := takeWhile_append_cons hd raw rest
  simp [isNot, hc, hd, ht, hdr]

theorem isNot_of_stop [ParseError E] {set : Bytes} {d : UInt8} (hd : notIn set d = false) :
    (isNot set : Parser E Bytes) (d :: rest) =
      .error (.error (ParseError.fromErrorKind (d :: rest) .isNot)) := by
  simp [isNot, hd]

/-- A run that is read is a prefix of bytes outside of `set`. -/
theorem isNot_eq_ok [ParseError E] {set run : Bytes}
    (h : (isNot set : Parser E Bytes) i = .ok (rest, run)) :
    i = run ++ rest ∧ ∀ c ∈ run, notIn set c = true := by
  unfold isNot at h
  split at h
  · cases h
  · split at h
    · cases h
    · cases h
      exact ⟨List.takeWhile_append_dropWhile.symm, List.all_eq_true.mp List.all_takeWhile⟩

theorem mapRes_ok [ParseError E] {f : α → Option β} {a : α} {b : β} (h : p i = .ok (rest, a))
    (hf : f a = some b) : mapRes f p i = .ok (rest, b) := by
  simp [mapRes, h, hf]

theorem preceded_eq {q : Parser E β} {a : α} (h : p i = .ok (rest, a)) :
    preceded p q i = q rest := andThen_ok h

theorem terminated_ok {q : Parser E β} {a : α} {b : β} {rest' : Bytes}
    (h : p i = .ok (rest, a)) (hq : q rest = .ok (rest', b)) :
    terminated p q i = .ok (rest', a) := by
  rw [terminated, andThen_ok h, andThen_ok hq, success_apply]

theorem delimited_ok {q : Parser E β} {r : Parser E γ} {a : α} {b : β} {c : γ}
    {i₁ i₂ i₃ : Bytes} (hp : p i = .ok (i₁, a)) (hq : q i₁ = .ok (i₂, b))
    (hr : r i₂ = .ok (i₃, c)) : delimited p q r i = .ok (i₃, b) := by
  rw [delimited, preceded_eq hp, terminated_ok hq hr]

/-- What stands between two given bytes. -/
theorem delimited_char_ok [ParseError E] {q : Parser E β} {b : β} {l r : UInt8}
    {body rest : Bytes} (hq : q (body ++ r :: rest) = .ok (r :: rest, b)) :
    delimited (char l) q (char r) (l :: (body ++ [r]) ++ rest) = .ok (rest, b) := by
  have hl : (char l : Parser E UInt8) (l :: (body ++ [r]) ++ rest) =
      .ok (body ++ r :: rest, l) := by simp
  exact delimited_ok hl hq (char_cons _)

theorem terminated_eq_ok {q : Parser E β} {a : α} {rest' : Bytes} :
    terminated p q i = .ok (rest', a) ↔
      ∃ i₁ b, p i = .ok (i₁, a) ∧ q i₁ = .ok (rest', b) := by
  simp [terminated, andThen_eq_ok, success]

theorem delimited_eq_ok {q : Parser E β} {r : Parser E γ} {b : β} {rest' : Bytes} :
    delimited p q r i = .ok (rest', b) ↔
      ∃ i₁ a i₂ c, p i = .ok (i₁, a) ∧ q i₁ = .ok (i₂, b) ∧ r i₂ = .ok (rest', c) := by
  simp [delimited, preceded, andThen_eq_ok, terminated_eq_ok]

end Accept

-- ====================
-- Lists with separators
-- ====================

/-- The elements `xs`, each written by `w`, with the byte `c` between them. -/
def joined (c : UInt8) (w : α → Bytes) : List α → Bytes
  | [] => []
  | x :: xs => w x ++ xs.flatMap fun y => c :: w y

theorem joined_map {δ : Type} (c : UInt8) (w : α → Bytes) (f : δ → α) (xs : List δ) :
    joined c w (xs.map f) = joined c (fun x => w (f x)) xs := by
  cases xs with
  | nil => rfl
  | cons x xs => simp [joined, List.flatMap_map]

section SeparatedList

variable [ParseError E] {sep : Parser E γ} {p : Parser E α} {w : α → Bytes} {c : UInt8} {s : γ}

/-- The repetition reads back the separated elements, and stops where no
    further separator follows. -/
theorem separatedListRest_of_elems {xs : List α} {rest : Bytes} {e : E}
    (hsep : ∀ r, sep (c :: r) = .ok (r, s)) (hend : sep rest = .error (.error e))
    (hp : ∀ x ∈ xs, ∀ r, p (w x ++ r) = .ok (r, x)) (acc : List α) {fuel : ℕ}
    (hfuel : xs.length < fuel) :
    separatedListRest sep p fuel acc ((xs.flatMap fun y => c :: w y) ++ rest) =
      .ok (rest, acc ++ xs) := by
  induction xs generalizing acc fuel with
  | nil =>
    obtain ⟨fuel, rfl⟩ : ∃ f, fuel = f + 1 := ⟨fuel - 1, by simp at hfuel; omega⟩
    simp [separatedListRest, hend]
  | cons x xs ih =>
    obtain ⟨fuel, rfl⟩ : ∃ f, fuel = f + 1 := ⟨fuel - 1, by simp at hfuel; omega⟩
    have hx := hp x (by simp) ((xs.flatMap fun y => c :: w y) ++ rest)
    have hlen : ((xs.flatMap fun y => c :: w y) ++ rest).length ≠
        (c :: (w x ++ ((xs.flatMap fun y => c :: w y) ++ rest))).length := by
      simp only [List.length_append, List.length_cons]
      omega
    rw [List.flatMap_cons, List.cons_append, List.cons_append, List.append_assoc,
      separatedListRest, hsep]
    simp only [hx, if_neg hlen]
    rw [ih (fun y hy => hp y (by simp [hy])) (acc ++ [x]) (by simpa using hfuel)]
    simp

/-- The elements of a joined list are at most as many as its bytes and separators. -/
theorem length_le_flatMap (xs : List α) :
    xs.length ≤ (xs.flatMap fun y => c :: w y).length := by
  induction xs with
  | nil => simp
  | cons x xs ih =>
    simp only [List.flatMap_cons, List.length_append, List.length_cons]
    omega

theorem separatedList1_of_elems {x : α} {xs : List α} {rest : Bytes} {e : E}
    (hsep : ∀ r, sep (c :: r) = .ok (r, s)) (hend : sep rest = .error (.error e))
    (hp : ∀ y ∈ x :: xs, ∀ r, p (w y ++ r) = .ok (r, y)) :
    separatedList1 sep p (joined c w (x :: xs) ++ rest) = .ok (rest, x :: xs) := by
  have hx := hp x (by simp) ((xs.flatMap fun y => c :: w y) ++ rest)
  have hlen := length_le_flatMap (c := c) (w := w) xs
  rw [joined, List.append_assoc, separatedList1, hx]
  refine separatedListRest_of_elems hsep hend (fun y hy => hp y (by simp [hy])) [x] ?_
  simp only [List.length_append]
  omega

theorem separatedList0_of_elems {xs : List α} {rest : Bytes} {e e' : E}
    (hsep : ∀ r, sep (c :: r) = .ok (r, s)) (hend : sep rest = .error (.error e))
    (hnone : p rest = .error (.error e'))
    (hp : ∀ y ∈ xs, ∀ r, p (w y ++ r) = .ok (r, y)) :
    separatedList0 sep p (joined c w xs ++ rest) = .ok (rest, xs) := by
  cases xs with
  | nil => simp [joined, separatedList0, hnone]
  | cons x xs =>
    have h1 := separatedList1_of_elems hsep hend hp
    have hx : p (joined c w (x :: xs) ++ rest) =
        .ok ((xs.flatMap fun y => c :: w y) ++ rest, x) := by
      rw [joined, List.append_assoc]
      exact hp x (by simp) _
    simpa only [separatedList0, separatedList1, hx] using h1

end SeparatedList

-- ====================
-- Accounting for the input
-- ====================

/-- `p` accounts for the weight `φ` of what it reads: the weight of the input is
    the weight `ψ` of the value plus the weight of the rest. -/
def Weighs (φ : Bytes → ℕ) (p : Parser E α) (ψ : α → ℕ) : Prop :=
  ∀ i rest a, p i = .ok (rest, a) → φ i = ψ a + φ rest

section Weighs

variable {φ : Bytes → ℕ} {p : Parser E α} {q : Parser E β} {r : Parser E γ} {ψ : α → ℕ}
  {ψ' : β → ℕ}

theorem Weighs.char [ParseError E] {c : UInt8} (hφ : ∀ i, φ (c :: i) = φ i) :
    Weighs φ (char c : Parser E UInt8) fun _ => 0 := by
  intro i rest a h
  obtain ⟨rfl, -⟩ := char_eq_ok.mp h
  simp [hφ]

theorem Weighs.delimited (hp : Weighs φ p fun _ => 0) (hq : Weighs φ q ψ')
    (hr : Weighs φ r fun _ => 0) : Weighs φ (delimited p q r) ψ' := by
  intro i rest b h
  obtain ⟨i₁, a, i₂, c, h₁, h₂, h₃⟩ := delimited_eq_ok.mp h
  have w₁ := hp _ _ _ h₁
  have w₂ := hq _ _ _ h₂
  have w₃ := hr _ _ _ h₃
  dsimp only at w₁ w₃
  omega

theorem Weighs.separatedPair (hp : Weighs φ p ψ) (hr : Weighs φ r fun _ => 0)
    (hq : Weighs φ q ψ') : Weighs φ (separatedPair p r q) fun x => ψ x.1 + ψ' x.2 := by
  intro i rest x h
  obtain ⟨i₁, a, h₁, h⟩ := andThen_eq_ok.mp h
  obtain ⟨i₂, c, h₂, h⟩ := andThen_eq_ok.mp h
  obtain ⟨i₃, b, h₃, h⟩ := andThen_eq_ok.mp h
  obtain ⟨rfl, rfl⟩ : i₃ = rest ∧ (a, b) = x := by simpa [success] using h
  have w₁ := hp _ _ _ h₁
  have w₂ := hr _ _ _ h₂
  have w₃ := hq _ _ _ h₃
  dsimp only at w₂ ⊢
  omega

theorem Weighs.mapErr {E' : Type} {f : E → E'} (hp : Weighs φ p ψ) :
    Weighs φ (mapErr f p) ψ := by
  intro i rest a h
  unfold StreamParser.mapErr at h
  split at h
  · next r hr =>
    cases h
    exact hp i rest a hr
  · cases h

theorem Weighs.mapRes [ParseError E] {f : α → Option β} (hp : Weighs φ p ψ)
    (hf : ∀ a b, f a = some b → ψ' b = ψ a) : Weighs φ (mapRes f p) ψ' := by
  intro i rest b h
  unfold StreamParser.mapRes at h
  split at h
  · next rest' a ha =>
    split at h
    · next b' hb =>
      obtain ⟨rfl, rfl⟩ : rest' = rest ∧ b' = b := by simpa using h
      rw [hf a b' hb]
      exact hp i rest' a ha
    · cases h
  · cases h

theorem Weighs.separatedListRest [ParseError E] (hr : Weighs φ r fun _ => 0)
    (hp : Weighs φ p ψ) (fuel : ℕ) (acc : List α) (i rest : Bytes) (xs : List α)
    (h : separatedListRest r p fuel acc i = .ok (rest, xs)) :
    (acc.map ψ).sum + φ i = (xs.map ψ).sum + φ rest := by
  induction fuel generalizing acc i with
  | zero => cases h
  | succ fuel ih =>
    rw [StreamParser.separatedListRest] at h
    split at h
    · obtain ⟨rfl, rfl⟩ : i = rest ∧ acc = xs := by simpa using h
      rfl
    · cases h
    · next i₁ c h₁ =>
      split at h
      · obtain ⟨rfl, rfl⟩ : i = rest ∧ acc = xs := by simpa using h
        rfl
      · cases h
      · next i₂ a h₂ =>
        split at h
        · cases h
        · have w₁ := hr _ _ _ h₁
          have w₂ := hp _ _ _ h₂
          have := ih _ _ h
          dsimp only at w₁
          simp only [List.map_append, List.map_cons, List.map_nil, List.sum_append,
            List.sum_cons, List.sum_nil] at this
          omega

theorem Weighs.separatedList0 [ParseError E] (hr : Weighs φ r fun _ => 0)
    (hp : Weighs φ p ψ) : Weighs φ (separatedList0 r p) fun xs => (xs.map ψ).sum := by
  intro i rest xs h
  unfold StreamParser.separatedList0 at h
  split at h
  · obtain ⟨rfl, rfl⟩ : i = rest ∧ [] = xs := by simpa using h
    simp
  · cases h
  · next i₁ a h₁ =>
    have w₁ := hp _ _ _ h₁
    have := Weighs.separatedListRest hr hp _ _ _ _ _ h
    simp only [List.map_cons, List.map_nil, List.sum_cons, List.sum_nil] at this ⊢
    omega

end Weighs

end Snix.StreamParser
