import Snix.Eval.Value.Coerce
import Snix.Lib.Iteration
import Mathlib.Data.List.SplitBy

/-!
# Versions

A version is split into runs of digits and runs of other characters, with dividers between
them. Versions are compared part by part. Bytes that are no UTF-8 are read as replacement
characters, which take more bytes than they stand for.

## Main definitions

- `VersionPart`, `VersionPart.cmp` — the parts and their order
- `next` — the next part
- `splitVersion`, `compareVersions` — the parts of a byte string, and the comparison of two
- `runs` — the runs of a version
- `Consecutive`, `Exact` — where characters are, and those that are read as they are

## Main results

- `splitVersion_eq` — the parts are those of the runs
- `charIndicesFrom_of_valid` — in UTF-8 all characters are read as they are
-/

namespace Snix.Eval

inductive VersionPart where
  | word (w : Bytes)
  | number (n : Bytes)
  deriving DecidableEq

/-- The word `pre`. -/
def PRE : Bytes := [112, 114, 101]

/-- The number that a part stands for. The program trusts that there is one. -/
def unwrapU64 (s : Bytes) : Except Fault ℕ :=
  match parseU64 (toStringLossy s) with
  | some n => .ok n
  | none => .error .panic

def VersionPart.cmp : VersionPart → VersionPart → Except Fault Ordering
  | .number s₁, .number s₂ => do
    let n₁ ← unwrapU64 s₁
    let n₂ ← unwrapU64 s₂
    .ok (compare n₁ n₂)
  | .word x, .word y =>
    if x = PRE ∧ y = PRE then .ok .eq
    else if x = PRE then .ok .lt
    else if y = PRE then .ok .gt
    else .ok (compare x y)
  -- a number also wins against `pre`
  | .number _, .word _ => .ok .gt
  | .word _, .number _ => .ok .lt

-- ====================
-- Characters
-- ====================

/-- A character of a byte string: the range of what it was read from, and its encoding. -/
structure CharIndex where
  start : ℕ
  stop : ℕ
  char : Bytes
  deriving DecidableEq

/-- At most that many characters. What is no UTF-8 is read as a replacement character. -/
def charIndicesFrom : ℕ → ℕ → Bytes → List CharIndex
  | 0, _, _ => []
  | n + 1, pos, b =>
    match utf8Front b with
    | (_, 0) => []
    | (true, k) => ⟨pos, pos + k, b.take k⟩ :: charIndicesFrom n (pos + k) (b.drop k)
    | (false, k) => ⟨pos, pos + k, [0xEF, 0xBF, 0xBD]⟩ :: charIndicesFrom n (pos + k) (b.drop k)

def charIndices (version : Bytes) : List CharIndex := charIndicesFrom version.length 0 version

/-- What the iterator tells apart. -/
inductive CharClass where
  | divider
  | digit
  | char
  deriving DecidableEq

def byteClass (b : UInt8) : CharClass :=
  if b = 46 ∨ b = 45 then .divider else if 48 ≤ b ∧ b ≤ 57 then .digit else .char

namespace CharIndex

def lenUtf8 (c : CharIndex) : ℕ := c.char.length

/-- Dividers and digits take one byte. -/
def kind (c : CharIndex) : CharClass :=
  match c.char with
  | [b] => byteClass b
  | _ => .char

end CharIndex

-- ====================
-- The iterator
-- ====================

/-- A part while it is being read, with its first and its last index. -/
inductive InternalPart where
  | number (start last : ℕ)
  | word (start last : ℕ)
  /-- `Break`: nothing is cached. -/
  | noPart

structure VersionPartsIter where
  cachedPart : InternalPart
  iter : List CharIndex
  version : Bytes

namespace VersionPartsIter

def new (version : Bytes) : VersionPartsIter := ⟨.noPart, charIndices version, version⟩

/-- The bytes from the first to the last index. -/
def slice (version : Bytes) (start last : ℕ) : Except Fault Bytes :=
  if start ≤ last + 1 ∧ last + 1 ≤ version.length then
    .ok ((version.drop start).take (last + 1 - start))
  else .error .panic

/-- A part that is complete, if there is one, and the cache and the characters after it. -/
def yieldPart (version : Bytes) (part : Bytes → VersionPart) (start last : ℕ) (cached : InternalPart)
    (iter : List CharIndex) : Except Fault (Option (VersionPart × VersionPartsIter)) :=
  (slice version start last).map fun s => some (part s, ⟨cached, iter, version⟩)

/-- The next part. -/
def nextFrom (version : Bytes) : InternalPart → List CharIndex →
    Except Fault (Option (VersionPart × VersionPartsIter))
  | cached, [] =>
    match cached with
    | .noPart => .ok none
    | .number start last => yieldPart version .number start last .noPart []
    | .word start last => yieldPart version .word start last .noPart []
  | cached, c :: iter =>
    match c.kind with
    | .divider =>
      match cached with
      | .number start last => yieldPart version .number start last .noPart iter
      | .word start last => yieldPart version .word start last .noPart iter
      | .noPart => nextFrom version .noPart iter
    | .digit =>
      match cached with
      | .number start last => nextFrom version (.number start (last + 1)) iter
      | .word start last => yieldPart version .word start last (.number c.start (c.stop - 1)) iter
      | .noPart => nextFrom version (.number c.start (c.stop - 1)) iter
    | .char =>
      match cached with
      | .word start last => nextFrom version (.word start (last + c.lenUtf8)) iter
      | .number start last => yieldPart version .number start last (.word c.start (c.stop - 1)) iter
      | .noPart => nextFrom version (.word c.start (c.stop - 1)) iter

def next (s : VersionPartsIter) : Except Fault (Option (VersionPart × VersionPartsIter)) :=
  nextFrom s.version s.cachedPart s.iter

/-- What is left: the characters, and the part in the cache. -/
def size (s : VersionPartsIter) : ℕ :=
  match s.cachedPart with
  | .noPart => s.iter.length
  | _ => s.iter.length + 1

variable {version : Bytes} {part : Bytes → VersionPart} {start last : ℕ} {cached : InternalPart}
  {iter : List CharIndex} {p : VersionPart} {s : VersionPartsIter} {c : CharIndex}

theorem yieldPart_eq_some
    (h : yieldPart version part start last cached iter = .ok (some (p, s))) :
    s = ⟨cached, iter, version⟩ := by
  unfold yieldPart at h
  cases hs : slice version start last with
  | error e =>
    rw [hs] at h
    cases h
  | ok b =>
    rw [hs] at h
    cases h
    rfl

theorem size_cached_le : size ⟨cached, iter, version⟩ ≤ iter.length + 1 := by
  cases cached with
  | noPart => exact Nat.le_succ _
  | number _ _ => exact Nat.le_refl _
  | word _ _ => exact Nat.le_refl _

/-- A part uses up what is in the cache, or characters. By induction on the characters. -/
theorem nextFrom_decreases (h : nextFrom version cached iter = .ok (some (p, s))) :
    s.size < size ⟨cached, iter, version⟩ := by
  induction iter generalizing cached with
  | nil =>
    cases cached with
    | noPart => cases h
    | number start last =>
      rw [yieldPart_eq_some h]
      exact Nat.zero_lt_one
    | word start last =>
      rw [yieldPart_eq_some h]
      exact Nat.zero_lt_one
  | cons c iter ih =>
    -- the cache after a character, and with one more character to come
    have hmore {cached' : InternalPart} :
        size ⟨cached', iter, version⟩ ≤ (c :: iter).length := size_cached_le
    rw [nextFrom.eq_def] at h
    cases hk : c.kind with
    | divider =>
      simp only [hk] at h
      cases cached with
      | noPart => exact Nat.lt_succ_of_lt (ih h)
      | number start last =>
        rw [yieldPart_eq_some h]
        exact Nat.lt_succ_of_le hmore
      | word start last =>
        rw [yieldPart_eq_some h]
        exact Nat.lt_succ_of_le hmore
    | digit =>
      simp only [hk] at h
      cases cached with
      | noPart => exact Nat.lt_of_lt_of_le (ih h) hmore
      | number start last => exact Nat.lt_succ_of_lt (ih h)
      | word start last =>
        rw [yieldPart_eq_some h]
        exact Nat.lt_succ_of_le hmore
    | char =>
      simp only [hk] at h
      cases cached with
      | noPart => exact Nat.lt_of_lt_of_le (ih h) hmore
      | number start last =>
        rw [yieldPart_eq_some h]
        exact Nat.lt_succ_of_le hmore
      | word start last => exact Nat.lt_succ_of_lt (ih h)

def iteration : Iteration Fault VersionPartsIter VersionPart where
  next := next
  size := size
  decreases := nextFrom_decreases

end VersionPartsIter

open VersionPartsIter

/-- The parts of a version. -/
def splitVersion (version : Bytes) : Except Fault (List VersionPart) :=
  iteration.collect (.new version)

/-- The comparison of the parts, with an empty word behind them. -/
def compareVersions (x y : Bytes) : Except Fault Ordering :=
  iteration.chain.cmp VersionPart.cmp (some (.new x), some (.word [])) (some (.new y), some (.word []))

def VersionPart.bytes : VersionPart → Bytes
  | .number n => n
  | .word w => w

def builtinSplitVersion (s : Value) : Except Fault Value :=
  if s.isCatchable then .ok s
  else
    match s.toStr with
    | .error e => .error (.error e)
    | .ok s =>
      (splitVersion s.contents).map fun parts =>
        .list (parts.map fun part => .string (.plain part.bytes))

def builtinCompareVersions (x y : Value) : Except Fault Value :=
  match x.toStr with
  | .error e => .error (.error e)
  | .ok s₁ =>
    match y.toStr with
    | .error e => .error (.error e)
    | .ok s₂ =>
      match compareVersions s₁.contents s₂.contents with
      | .error e => .error e
      | .ok .lt => .ok (.integer (-1))
      | .ok .eq => .ok (.integer 0)
      | .ok .gt => .ok (.integer 1)

-- ====================
-- Runs
-- ====================

/-- The maximal runs of digits and of other characters between dividers. -/
def runs (chars : List CharIndex) : List (List CharIndex) :=
  (chars.splitBy fun c d => c.kind == d.kind).filter fun run => run.all fun c => c.kind != .divider

/-- The last index of a run, where each character but the first counts with its encoding. -/
def lastOf (c : CharIndex) (run : List CharIndex) : ℕ :=
  c.stop - 1 + (run.map CharIndex.lenUtf8).sum

/-- The part that a run is read as. -/
def partOf (version : Bytes) : List CharIndex → Except Fault VersionPart
  | [] => .ok (.word [])
  | c :: run =>
    (slice version c.start (lastOf c run)).map (if c.kind = .digit then .number else .word)

/-- The cache after a run. -/
def cachedOf : List CharIndex → InternalPart
  | [] => .noPart
  | c :: run =>
    if c.kind = .digit then .number c.start (lastOf c run) else .word c.start (lastOf c run)

section

variable {version : Bytes} {k : CharClass} {run iter : List CharIndex} {c : CharIndex}

/-- The characters are all of one kind. -/
def Uniform (k : CharClass) (run : List CharIndex) : Prop := ∀ c ∈ run, c.kind = k

theorem Uniform.append (h : Uniform k run) (hc : c.kind = k) : Uniform k (run ++ [c]) := by
  intro d hd
  obtain hd | hd := List.mem_append.mp hd
  · exact h d hd
  · rw [List.mem_singleton.mp hd]
    exact hc

theorem Uniform.splitBy (h : Uniform k run) (hne : run ≠ []) :
    run.splitBy (fun c d => c.kind == d.kind) = [run] := by
  apply List.splitBy_of_isChain hne
  apply List.Pairwise.isChain
  apply List.pairwise_of_forall_mem_list
  intro c hc d hd
  rw [h c hc, h d hd]
  exact beq_self_eq_true k

/-- A run that what follows does not go on with. -/
theorem runs_append (iter : List CharIndex) (h : Uniform k run) (hne : run ≠ [])
    (hiter : ∀ c ∈ iter.head?, c.kind ≠ k) :
    runs (run ++ iter) = (if k = .divider then [] else [run]) ++ runs iter := by
  have hcut : ∀ c ∈ run.getLast?, ∀ d ∈ iter.head?, (c.kind == d.kind) = false := by
    intro c hc d hd
    rw [h c (List.mem_of_getLast? hc), beq_eq_false_iff_ne]
    exact (hiter d hd).symm
  unfold runs
  rw [List.splitBy_append hcut, h.splitBy hne, List.filter_append]
  congr 1
  by_cases hk : k = .divider
  · rw [if_pos hk, List.filter_singleton]
    obtain ⟨c, hc⟩ := List.exists_mem_of_ne_nil run hne
    have hall : (run.all fun c => c.kind != .divider) = false := by
      rw [List.all_eq_false]
      exact ⟨c, hc, by rw [h c hc, hk]; decide⟩
    rw [hall]
    rfl
  · rw [if_neg hk, List.filter_singleton]
    have hall : (run.all fun c => c.kind != .divider) = true := by
      rw [List.all_eq_true]
      intro c hc
      rw [h c hc]
      exact bne_iff_ne.mpr hk
    rw [hall]
    rfl

theorem runs_uniform (h : Uniform k run) (hk : k ≠ .divider) (hne : run ≠ []) :
    runs run = [run] := by
  have happ := runs_append [] h hne (by simp)
  rwa [List.append_nil, if_neg hk] at happ

/-- A divider is in no run. The dividers that follow it are left out with it. -/
theorem runs_divider (hc : c.kind = .divider) : runs (c :: iter) = runs iter := by
  have hhead : ∀ d ∈ (iter.dropWhile fun d => d.kind == .divider).head?, d.kind ≠ .divider := by
    intro d hd
    have hnot := List.head?_dropWhile_not (fun d : CharIndex => d.kind == .divider) iter
    rw [Option.mem_def.mp hd] at hnot
    simpa using hnot
  have hfront : Uniform .divider (iter.takeWhile fun d => d.kind == .divider) := by
    intro d hd
    simpa using List.all_eq_true.mp List.all_takeWhile d hd
  have hsplit := List.takeWhile_append_dropWhile (p := fun d : CharIndex => d.kind == .divider) (l := iter)
  have hlong : Uniform .divider (c :: iter.takeWhile fun d => d.kind == .divider) := by
    intro d hd
    obtain rfl | hd := List.mem_cons.mp hd
    · exact hc
    · exact hfront d hd
  have hleft := runs_append _ hlong (List.cons_ne_nil _ _) hhead
  rw [List.cons_append, hsplit, if_pos rfl, List.nil_append] at hleft
  by_cases hnil : (iter.takeWhile fun d => d.kind == .divider) = []
  · rw [hnil, List.nil_append] at hsplit
    rw [hleft, hsplit]
  · have hright := runs_append _ hfront hnil hhead
    rw [hsplit, if_pos rfl, List.nil_append] at hright
    rw [hleft, hright]

theorem CharIndex.lenUtf8_of_digit (h : c.kind = .digit) : c.lenUtf8 = 1 := by
  unfold CharIndex.kind at h
  split at h
  case h_1 b hb => rw [CharIndex.lenUtf8, hb, List.length_singleton]
  case h_2 => cases h

theorem lastOf_append (d : CharIndex) : lastOf c (run ++ [d]) = lastOf c run + d.lenUtf8 := by
  simp [lastOf, Nat.add_assoc]

-- ====================
-- What the iterator does with a character
-- ====================

theorem nextFrom_skip (h : c.kind = .divider) :
    nextFrom version .noPart (c :: iter) = nextFrom version .noPart iter := by
  rw [nextFrom.eq_def]
  simp only [h]

theorem nextFrom_begin (h : c.kind ≠ .divider) :
    nextFrom version .noPart (c :: iter) = nextFrom version (cachedOf [c]) iter := by
  rw [nextFrom.eq_def]
  cases hk : c.kind with
  | divider => exact absurd hk h
  | digit => simp [hk, cachedOf, lastOf]
  | char => simp [hk, cachedOf, lastOf]

/-- A character of the same kind makes the range longer by its encoding. -/
theorem nextFrom_extend {d : CharIndex} (hk : c.kind ≠ .divider) (h : d.kind = c.kind) :
    nextFrom version (cachedOf (c :: run)) (d :: iter) =
      nextFrom version (cachedOf (c :: (run ++ [d]))) iter := by
  rw [nextFrom.eq_def]
  cases hc : c.kind with
  | divider => exact absurd hc hk
  | digit =>
    have hone := CharIndex.lenUtf8_of_digit (h.trans hc)
    simp [cachedOf, h, hc, lastOf_append, hone]
  | char => simp [cachedOf, h, hc, lastOf_append]

theorem yieldPart_eq {part : Bytes → VersionPart} {start last : ℕ} {cached : InternalPart} :
    yieldPart version part start last cached iter =
      ((slice version start last).map part).map fun p => some (p, ⟨cached, iter, version⟩) := by
  unfold yieldPart
  cases slice version start last <;> rfl

/-- A character of another kind ends the run. -/
theorem nextFrom_complete {d : CharIndex} (hk : c.kind ≠ .divider) (h : d.kind ≠ c.kind) :
    nextFrom version (cachedOf (c :: run)) (d :: iter) =
      (partOf version (c :: run)).map fun p =>
        some (p, ⟨cachedOf (if d.kind = .divider then [] else [d]), iter, version⟩) := by
  rw [nextFrom.eq_def]
  cases hc : c.kind with
  | divider => exact absurd hc hk
  | digit =>
    cases hd : d.kind with
    | digit => exact absurd (hd.trans hc.symm) h
    | divider => simp [cachedOf, hc, hd, yieldPart_eq, partOf]
    | char => simp [cachedOf, hc, hd, yieldPart_eq, partOf, lastOf]
  | char =>
    cases hd : d.kind with
    | char => exact absurd (hd.trans hc.symm) h
    | divider => simp [cachedOf, hc, hd, yieldPart_eq, partOf]
    | digit => simp [cachedOf, hc, hd, yieldPart_eq, partOf, lastOf]

theorem nextFrom_end :
    nextFrom version (cachedOf (c :: run)) [] =
      (partOf version (c :: run)).map fun p => some (p, ⟨.noPart, [], version⟩) := by
  rw [nextFrom.eq_def]
  by_cases hc : c.kind = .digit
  · simp [cachedOf, hc, yieldPart_eq, partOf]
  · simp [cachedOf, hc, yieldPart_eq, partOf]

/-- The parts after a part that may not be there. -/
theorem collect_of_partOf {s t : VersionPartsIter} {parts : List (List CharIndex)}
    (h : s.next = (partOf version run).map fun p => some (p, t))
    (ht : iteration.collect t = parts.mapM (partOf version)) :
    iteration.collect s = (run :: parts).mapM (partOf version) := by
  rw [List.mapM_cons]
  cases hp : partOf version run with
  | error e =>
    rw [hp] at h
    exact Iteration.collect_error h
  | ok p =>
    rw [hp] at h
    rw [Iteration.collect_some h, ht]
    cases parts.mapM (partOf version) <;> rfl

/-- The iterator hands out the runs. By induction on the characters after the cached run. -/
theorem collect_cachedOf {run : List CharIndex} (h : Uniform k run) (hk : k ≠ .divider) :
    iteration.collect ⟨cachedOf run, iter, version⟩ =
      (runs (run ++ iter)).mapM (partOf version) := by
  induction iter generalizing run k with
  | nil =>
    have hend : iteration.collect ⟨.noPart, [], version⟩ = .ok [] := Iteration.collect_none rfl
    cases run with
    | nil => exact hend
    | cons c run =>
      rw [List.append_nil, runs_uniform h hk (List.cons_ne_nil _ _)]
      exact collect_of_partOf nextFrom_end hend
  | cons d iter ih =>
    have hnil : Uniform k [] := fun c hc => absurd hc List.not_mem_nil
    have hone : Uniform d.kind [d] := fun c hc => by rw [List.mem_singleton.mp hc]
    cases run with
    | nil =>
      by_cases hd : d.kind = .divider
      · rw [List.nil_append, runs_divider hd]
        exact (Iteration.collect_congr (nextFrom_skip hd)).trans (ih hnil hk)
      · exact (Iteration.collect_congr (nextFrom_begin hd)).trans (ih hone hd)
    | cons c run =>
      have hc : c.kind = k := h c List.mem_cons_self
      by_cases hd : d.kind = k
      · have hnext : iteration.next ⟨cachedOf (c :: run), d :: iter, version⟩ =
            iteration.next ⟨cachedOf (c :: run ++ [d]), iter, version⟩ :=
          nextFrom_extend (hc.trans_ne hk) (hd.trans hc.symm)
        rw [Iteration.collect_congr hnext, ih (h.append hd) hk, List.append_assoc]
        rfl
      · have hruns := runs_append (d :: iter) h (List.cons_ne_nil _ _)
          fun e he => by
            cases he
            exact hd
        rw [hruns, if_neg hk]
        have hne : d.kind ≠ c.kind := fun he => hd (he.trans hc)
        refine collect_of_partOf (nextFrom_complete (hc.trans_ne hk) hne) ?_
        by_cases hdiv : d.kind = .divider
        · rw [if_pos hdiv, runs_divider hdiv]
          exact ih hnil hk
        · rw [if_neg hdiv]
          exact ih hone hdiv

theorem splitVersion_eq (version : Bytes) :
    splitVersion version = (runs (charIndices version)).mapM (partOf version) :=
  collect_cachedOf (k := .char) (fun _ hc => absurd hc List.not_mem_nil) (by decide)

end

-- ====================
-- The characters of a version
-- ====================

section

variable {version b : Bytes} {pos n : ℕ} {run chars : List CharIndex} {c : CharIndex}

/-- The characters follow one another from a position on. -/
def Consecutive : ℕ → List CharIndex → Prop
  | _, [] => True
  | pos, c :: iter => c.start = pos ∧ c.start < c.stop ∧ Consecutive c.stop iter

/-- A character that takes the bytes of its encoding. -/
def Exact (version : Bytes) (c : CharIndex) : Prop :=
  c.stop = c.start + c.lenUtf8 ∧ (version.drop c.start).take c.lenUtf8 = c.char

theorem byteClass_of_le {x : UInt8} (h : 0x80 ≤ x) : byteClass x = .char := by
  have hnot : ∀ y : UInt8, y < 0x80 → x ≠ y := fun y hy he => absurd hy (UInt8.not_lt.mpr (he ▸ h))
  unfold byteClass
  rw [if_neg, if_neg]
  · exact fun hdigit => absurd (UInt8.le_trans h hdigit.2) (by decide)
  · rintro (h46 | h45)
    · exact hnot 46 (by decide) h46
    · exact hnot 45 (by decide) h45

theorem CharIndex.kind_of_length_ne (h : c.char.length ≠ 1) : c.kind = .char := by
  unfold CharIndex.kind
  split
  case h_1 b hb => exact absurd (by rw [hb]; rfl) h
  case h_2 => rfl

theorem CharIndex.kind_of_length_eq (h : c.char.length = 1) :
    ∀ x ∈ c.char, byteClass x = c.kind := by
  obtain ⟨y, hy⟩ := List.length_eq_one_iff.mp h
  intro x hx
  rw [hy] at hx
  rw [List.mem_singleton.mp hx, CharIndex.kind, hy]

/-- The character at the front, and those after it. -/
theorem charIndicesFrom_cons (n pos : ℕ) (hb : b ≠ []) :
    ∃ c, charIndicesFrom (n + 1) pos b = c :: charIndicesFrom n c.stop (b.drop (utf8Front b).2) ∧
      c.start = pos ∧ c.stop = pos + (utf8Front b).2 ∧
      c.char = if (utf8Front b).1 then b.take (utf8Front b).2 else [0xEF, 0xBF, 0xBD] := by
  have hpos := (utf8Front_length hb).1
  cases hf : utf8Front b with
  | mk valid k =>
    rw [hf] at hpos
    cases k with
    | zero => exact absurd hpos (Nat.lt_irrefl 0)
    | succ k =>
      cases valid with
      | true =>
        refine ⟨⟨pos, pos + (k + 1), b.take (k + 1)⟩, ?_, rfl, rfl, rfl⟩
        simp [charIndicesFrom, hf]
      | false =>
        refine ⟨⟨pos, pos + (k + 1), [0xEF, 0xBF, 0xBD]⟩, ?_, rfl, rfl, rfl⟩
        simp [charIndicesFrom, hf]

theorem charIndicesFrom_nil : charIndicesFrom n pos [] = [] := by
  cases n <;> rfl

theorem consecutive_charIndicesFrom (n pos : ℕ) (b : Bytes) :
    Consecutive pos (charIndicesFrom n pos b) := by
  induction n generalizing pos b with
  | zero => trivial
  | succ n ih =>
    by_cases hb : b = []
    · rw [hb, charIndicesFrom_nil]
      trivial
    · obtain ⟨c, hc, hstart, hstop, -⟩ := charIndicesFrom_cons n pos hb
      rw [hc]
      refine ⟨hstart, ?_, ih _ _⟩
      rw [hstart, hstop]
      exact Nat.lt_add_of_pos_right (utf8Front_length hb).1

/-- A character that was read as it is takes the bytes of its encoding. -/
theorem exact_of_front (hb : b ≠ []) (hv : version.drop pos = b) (hstart : c.start = pos)
    (hstop : c.stop = pos + (utf8Front b).2) (hchar : c.char = b.take (utf8Front b).2) :
    Exact version c := by
  have hlen : c.lenUtf8 = (utf8Front b).2 := by
    rw [CharIndex.lenUtf8, hchar, List.length_take]
    exact Nat.min_eq_left (utf8Front_length hb).2
  refine ⟨by rw [hstop, hstart, hlen], ?_⟩
  rw [hlen, hstart, hv, hchar]

/-- Dividers and digits are no replacements. -/
theorem exact_of_mem_charIndicesFrom (hv : version.drop pos = b)
    (hc : c ∈ charIndicesFrom n pos b) (hone : c.lenUtf8 = 1) : Exact version c := by
  induction n generalizing pos b with
  | zero => cases hc
  | succ n ih =>
    by_cases hb : b = []
    · rw [hb, charIndicesFrom_nil] at hc
      cases hc
    · obtain ⟨d, hd, hstart, hstop, hchar⟩ := charIndicesFrom_cons n pos hb
      rw [hd] at hc
      obtain rfl | hc := List.mem_cons.mp hc
      · split_ifs at hchar with hvalid
        · exact exact_of_front hb hv hstart hstop hchar
        · rw [CharIndex.lenUtf8, hchar] at hone
          cases hone
      · refine ih ?_ hc
        rw [hstop, ← List.drop_drop, hv]

/-- In UTF-8 no character is a replacement, nothing is left out, and a character whose encoding
    takes several bytes has no divider and no digit in it. -/
theorem charIndicesFrom_of_valid (hv : version.drop pos = b) (hn : b.length ≤ n)
    (h : utf8Valid b = true) :
    (∀ c ∈ charIndicesFrom n pos b, Exact version c ∧ ∀ x ∈ c.char, byteClass x = c.kind) ∧
      (charIndicesFrom n pos b).flatMap CharIndex.char = b := by
  induction n generalizing pos b with
  | zero =>
    rw [List.length_eq_zero_iff.mp (Nat.le_zero.mp hn)]
    exact ⟨fun c hc => absurd hc List.not_mem_nil, rfl⟩
  | succ n ih =>
    by_cases hb : b = []
    · rw [hb, charIndicesFrom_nil]
      exact ⟨fun c hc => absurd hc List.not_mem_nil, rfl⟩
    · obtain ⟨d, hd, hstart, hstop, hchar⟩ := charIndicesFrom_cons n pos hb
      obtain ⟨k, hk, hrest, hbytes⟩ := utf8Front_of_valid hb h
      have hlen := utf8Front_length hb
      rw [hk, if_pos rfl] at hchar
      rw [hk] at hd hstop hlen
      have hdrop : (b.drop k).length ≤ n := by
        rw [List.length_drop]
        have := hlen.1
        omega
      have hvdrop : version.drop d.stop = b.drop k := by rw [hstop, ← List.drop_drop, hv]
      obtain ⟨hall, hflat⟩ := ih hvdrop hdrop hrest
      rw [hd]
      refine ⟨fun c hc => ?_, ?_⟩
      · obtain rfl | hc := List.mem_cons.mp hc
        · refine ⟨exact_of_front hb hv hstart (by rw [hstop, hk]) (by rw [hchar, hk]), ?_⟩
          have hclen : c.char.length = k := by
            rw [hchar, List.length_take]
            exact Nat.min_eq_left hlen.2
          by_cases hone : k = 1
          · exact CharIndex.kind_of_length_eq (hclen.trans hone)
          · intro x hx
            rw [CharIndex.kind_of_length_ne (hclen.trans_ne hone)]
            rw [hchar] at hx
            exact byteClass_of_le (hbytes.resolve_left hone x hx)
        · exact hall c hc
      · rw [List.flatMap_cons, hflat, hchar]
        exact List.take_append_drop _ _

end

end Snix.Eval
