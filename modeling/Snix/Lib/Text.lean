import Mathlib.Data.Nat.Digits.Defs
import Snix.Lib.Bytes

/-!
# Text

Strings as byte strings, and what is done with them to read and write line-based
formats: cutting at a separator, prefixes and suffixes, lines, and decimal numbers.

## Main definitions

- `splitOnce`, `splitOnceOn`, `stripPrefix`, `stripSuffix` — cutting a string once
- `lines`, `unlines` — lines and their terminators
- `decimal`, `parseU64` — numbers in decimal notation

## Main results

- `splitOnce_eq_some_iff`, `stripPrefix_eq_some_iff`, `stripSuffix_eq_some_iff` — what
  the parts are
- `lines_unlines` — the lines of joined lines
- `parseU64_decimal` — a printed number is read back
-/

namespace Snix

/-- The parts before and after the first separator. -/
def splitOnce (sep : UInt8) : Bytes → Option (Bytes × Bytes)
  | [] => none
  | c :: s => if c = sep then some ([], s) else (splitOnce sep s).map fun (a, b) => (c :: a, b)

def stripPrefix (p s : Bytes) : Option Bytes := if p <+: s then some (s.drop p.length) else none

def stripSuffix (p s : Bytes) : Option Bytes :=
  if p <:+ s then some (s.take (s.length - p.length)) else none

theorem splitOnce_eq_some_iff {sep : UInt8} {s a b : Bytes} :
    splitOnce sep s = some (a, b) ↔ s = a ++ sep :: b ∧ sep ∉ a := by
  induction s generalizing a with
  | nil =>
    constructor
    · nofun
    · rintro ⟨h, -⟩
      exact absurd h.symm (by simp)
  | cons c s ih =>
    rw [splitOnce]
    by_cases hc : c = sep
    · rw [if_pos hc]
      constructor
      · intro h
        cases h
        exact ⟨by rw [hc, List.nil_append], List.not_mem_nil⟩
      · rintro ⟨h, hnot⟩
        cases a with
        | nil =>
          obtain ⟨-, rfl⟩ := List.cons.inj h
          rfl
        | cons d a =>
          obtain ⟨rfl, -⟩ := List.cons.inj h
          exact absurd (hc ▸ List.mem_cons_self) hnot
    · rw [if_neg hc]
      constructor
      · intro h
        obtain ⟨⟨a', b'⟩, hsplit, hpair⟩ := Option.map_eq_some_iff.mp h
        cases hpair
        obtain ⟨rfl, hnot⟩ := ih.mp hsplit
        refine ⟨rfl, fun hmem => ?_⟩
        cases hmem with
        | head => exact hc rfl
        | tail _ hmem => exact hnot hmem
      · rintro ⟨h, hnot⟩
        cases a with
        | nil =>
          obtain ⟨hcs, -⟩ := List.cons.inj h
          exact absurd hcs hc
        | cons d a =>
          obtain ⟨rfl, hs⟩ := List.cons.inj h
          have hsplit := ih.mpr ⟨hs, fun hmem => hnot (List.mem_cons_of_mem c hmem)⟩
          rw [hsplit]
          rfl

theorem splitOnce_eq_none_iff {sep : UInt8} {s : Bytes} : splitOnce sep s = none ↔ sep ∉ s := by
  constructor
  · intro h hmem
    obtain ⟨a, b, rfl, hnot⟩ := List.eq_append_cons_of_mem hmem
    rw [splitOnce_eq_some_iff.mpr ⟨rfl, hnot⟩] at h
    cases h
  · intro h
    cases hsplit : splitOnce sep s with
    | none => rfl
    | some parts =>
      obtain ⟨rfl, -⟩ := splitOnce_eq_some_iff.mp (hsplit.trans rfl : _ = some (parts.1, parts.2))
      exact absurd (List.mem_append_right _ List.mem_cons_self) h

/-- The parts before and after the last separator. -/
def rsplitOnce (sep : UInt8) (s : Bytes) : Option (Bytes × Bytes) :=
  (splitOnce sep s.reverse).map fun (b, a) => (a.reverse, b.reverse)

theorem rsplitOnce_append {sep : UInt8} {a b : Bytes} (h : sep ∉ b) :
    rsplitOnce sep (a ++ sep :: b) = some (a, b) := by
  have hsplit : splitOnce sep (a ++ sep :: b).reverse = some (b.reverse, a.reverse) := by
    apply splitOnce_eq_some_iff.mpr
    refine ⟨by simp, ?_⟩
    rw [List.mem_reverse]
    exact h
  rw [rsplitOnce, hsplit, Option.map_some]
  simp only [List.reverse_reverse]

theorem rsplitOnce_eq_none {sep : UInt8} {s : Bytes} (h : sep ∉ s) : rsplitOnce sep s = none := by
  rw [rsplitOnce, splitOnce_eq_none_iff.mpr, Option.map_none]
  rw [List.mem_reverse]
  exact h

theorem stripPrefix_eq_some_iff {p s r : Bytes} : stripPrefix p s = some r ↔ s = p ++ r := by
  unfold stripPrefix
  constructor
  · intro h
    split at h
    case isTrue hp =>
      obtain ⟨t, rfl⟩ := hp
      simpa using h
    case isFalse => cases h
  · rintro rfl
    simp

theorem stripSuffix_eq_some_iff {p s r : Bytes} : stripSuffix p s = some r ↔ s = r ++ p := by
  unfold stripSuffix
  constructor
  · intro h
    split at h
    case isTrue hp =>
      obtain ⟨t, rfl⟩ := hp
      simpa using h
    case isFalse => cases h
  · rintro rfl
    simp

@[simp] theorem stripPrefix_append (p r : Bytes) : stripPrefix p (p ++ r) = some r :=
  stripPrefix_eq_some_iff.mpr rfl

@[simp] theorem stripSuffix_append (r p : Bytes) : stripSuffix p (r ++ p) = some r :=
  stripSuffix_eq_some_iff.mpr rfl

/-- Splits a string at the first occurrence of another one. -/
def splitOnceOn (sep : Bytes) : Bytes → Option (Bytes × Bytes)
  | [] => if sep = [] then some ([], []) else none
  | c :: s =>
    if sep <+: c :: s then some ([], (c :: s).drop sep.length)
    else (splitOnceOn sep s).map fun r => (c :: r.1, r.2)

/-- A string is split where the first byte of the other one is. -/
theorem splitOnceOn_append {c : UInt8} {sep a : Bytes} (h : c ∉ a) (b : Bytes) :
    splitOnceOn (c :: sep) (a ++ (c :: sep ++ b)) = some (a, b) := by
  induction a with
  | nil =>
    rw [List.nil_append, List.cons_append, splitOnceOn, ← List.cons_append,
      if_pos (List.prefix_append (c :: sep) b), List.drop_left]
  | cons d a ih =>
    obtain ⟨hne, ha⟩ := not_or.mp (List.mem_cons.not.mp h)
    rw [List.cons_append, splitOnceOn, if_neg, ih ha]
    · rfl
    · intro hprefix
      exact hne (List.cons_prefix_cons.mp hprefix).1

-- ====================
-- Lines
-- ====================

/-- A line that was terminated, without a carriage return at its end. -/
def stripCr (line : Bytes) : Bytes := (stripSuffix [13] line).getD line

/-- The lines of a text. The last one may not be terminated. -/
def lines (s : Bytes) : List Bytes :=
  let pieces := s.splitOn 10
  let last := pieces.getLastD []
  pieces.dropLast.map stripCr ++ if last = [] then [] else [last]

/-- Terminates every line. -/
def unlines (ls : List Bytes) : Bytes := ls.flatMap fun line => line ++ [10]

theorem stripCr_of_not_mem {line : Bytes} (h : 13 ∉ line) : stripCr line = line := by
  rw [stripCr]
  cases hs : stripSuffix [13] line with
  | none => rfl
  | some r =>
    rw [stripSuffix_eq_some_iff.mp hs] at h
    exact absurd (List.mem_append_right _ List.mem_cons_self) h

theorem splitOn_unlines {ls : List Bytes} (h : ∀ line ∈ ls, 10 ∉ line) :
    (unlines ls).splitOn 10 = ls ++ [[]] := by
  induction ls with
  | nil => rfl
  | cons line ls ih =>
    have hcons : unlines (line :: ls) = line ++ 10 :: unlines ls := by
      simp only [unlines, List.flatMap_cons, List.append_assoc, List.singleton_append]
    rw [hcons, List.splitOn_append_cons_self_of_not_mem (h line List.mem_cons_self),
      ih fun l hl => h l (List.mem_cons_of_mem _ hl), List.cons_append]

theorem lines_unlines {ls : List Bytes} (h : ∀ line ∈ ls, 10 ∉ line ∧ 13 ∉ line) :
    lines (unlines ls) = ls := by
  simp only [lines, splitOn_unlines fun line hline => (h line hline).1, List.dropLast_concat,
    List.getLastD_concat, if_true, List.append_nil]
  calc ls.map stripCr = ls.map id :=
      List.map_congr_left fun line hline => stripCr_of_not_mem (h line hline).2
    _ = ls := List.map_id ls

/-- No piece has a separator. -/
theorem not_mem_of_mem_splitOn {sep : UInt8} {s piece : Bytes} (h : piece ∈ s.splitOn sep) :
    sep ∉ piece := by
  induction s generalizing piece with
  | nil =>
    obtain rfl := List.mem_singleton.mp (h : piece ∈ [[]])
    exact List.not_mem_nil
  | cons c s ih =>
    rw [List.splitOn_cons_eq_if_modifyHead] at h
    split at h
    case isTrue =>
      rcases List.mem_cons.mp h with rfl | h
      · exact List.not_mem_nil
      · exact ih h
    case isFalse hc =>
      cases hs : s.splitOn sep with
      | nil => exact absurd hs (List.splitOn_ne_nil _ _)
      | cons first rest =>
        rw [hs] at h ih
        rcases List.mem_cons.mp h with rfl | h
        · intro hmem
          rcases List.mem_cons.mp hmem with heq | hmem
          · exact hc (by rw [heq]; exact beq_self_eq_true c)
          · exact ih List.mem_cons_self hmem
        · exact ih (List.mem_cons_of_mem _ h)

theorem mem_intercalate {sep c : UInt8} {pieces : List Bytes} {piece : Bytes}
    (h : piece ∈ pieces) (hc : c ∈ piece) : c ∈ [sep].intercalate pieces := by
  induction pieces with
  | nil => cases h
  | cons first rest ih =>
    cases rest with
    | nil =>
      obtain rfl := List.mem_singleton.mp h
      simpa using hc
    | cons second rest =>
      rw [List.intercalate_cons_cons]
      rcases List.mem_cons.mp h with rfl | h
      · simp [hc]
      · simp [ih h]

theorem mem_of_mem_intercalate {sep c : UInt8} {pieces : List Bytes}
    (h : c ∈ [sep].intercalate pieces) : c = sep ∨ ∃ piece ∈ pieces, c ∈ piece := by
  induction pieces with
  | nil => cases h
  | cons first rest ih =>
    cases rest with
    | nil =>
      rw [List.intercalate_singleton] at h
      exact .inr ⟨first, List.mem_cons_self, h⟩
    | cons second rest =>
      rw [List.intercalate_cons_cons, List.mem_append, List.mem_append] at h
      obtain (h | h) | h := h
      · exact .inr ⟨first, List.mem_cons_self, h⟩
      · exact .inl (List.mem_singleton.mp h)
      · obtain hsep | ⟨piece, hpiece, hc⟩ := ih h
        · exact .inl hsep
        · exact .inr ⟨piece, List.mem_cons_of_mem _ hpiece, hc⟩

/-- A byte of a piece is one of the string. -/
theorem mem_of_mem_splitOn {sep c : UInt8} {s piece : Bytes} (h : piece ∈ s.splitOn sep)
    (hc : c ∈ piece) : c ∈ s := by
  have hjoin : [sep].intercalate (s.splitOn sep) = s := List.intercalate_splitOn sep
  rw [← hjoin]
  exact mem_intercalate h hc

theorem mem_stripCr {c : UInt8} {line : Bytes} (h : c ∈ stripCr line) : c ∈ line := by
  rw [stripCr] at h
  cases hs : stripSuffix [13] line with
  | none =>
    rw [hs] at h
    exact h
  | some r =>
    rw [hs] at h
    rw [stripSuffix_eq_some_iff.mp hs]
    exact List.mem_append_left _ h

/-- A line consists of bytes of the text, and of no line feeds. -/
theorem mem_lines {s line : Bytes} (h : line ∈ lines s) : 10 ∉ line ∧ ∀ c ∈ line, c ∈ s := by
  have hpiece : ∃ piece ∈ s.splitOn 10, ∀ c ∈ line, c ∈ piece := by
    simp only [lines, List.mem_append] at h
    rcases h with h | h
    · obtain ⟨piece, hpiece, rfl⟩ := List.mem_map.mp h
      exact ⟨piece, (List.dropLast_sublist _).subset hpiece, fun c hc => mem_stripCr hc⟩
    · split at h
      case isTrue => cases h
      case isFalse hne =>
        obtain rfl := List.mem_singleton.mp h
        have hlast : (s.splitOn 10).getLastD [] ∈ s.splitOn 10 := by
          rw [List.getLastD_eq_getLast?,
            List.getLast?_eq_getLast_of_ne_nil (List.splitOn_ne_nil _ _)]
          exact List.getLast_mem _
        exact ⟨_, hlast, fun c hc => hc⟩
  obtain ⟨piece, hmem, hsub⟩ := hpiece
  exact ⟨fun h10 => not_mem_of_mem_splitOn hmem (hsub 10 h10),
    fun c hc => mem_of_mem_splitOn hmem (hsub c hc)⟩

-- ====================
-- Numbers
-- ====================

/-- A number in decimal notation. -/
def decimal (n : ℕ) : Bytes :=
  if n = 0 then [48] else ((Nat.digits 10 n).map fun d => UInt8.ofNat (d + 48)).reverse

/-- The value of a decimal digit. -/
def digitValue? (c : UInt8) : Option ℕ := if 48 ≤ c && c ≤ 57 then some (c.toNat - 48) else none

/-- Reads decimal digits behind what was read before. -/
def digitsFrom (n : ℕ) : Bytes → Option ℕ
  | [] => some n
  | c :: s => do
    let d ← digitValue? c
    digitsFrom (10 * n + d) s

/-- Reads a number of 64 bits. A plus sign is taken before it. -/
def parseU64 (s : Bytes) : Option ℕ := do
  let ds := (stripPrefix [43] s).getD s
  if ds = [] then none
  else do
    let n ← digitsFrom 0 ds
    if n < 2 ^ 64 then some n else none

theorem digitValue?_ofNat : ∀ d < 10, digitValue? (UInt8.ofNat (d + 48)) = some d := by
  decide

theorem digitsFrom_append (n : ℕ) (s t : Bytes) :
    digitsFrom n (s ++ t) = (digitsFrom n s).bind fun m => digitsFrom m t := by
  induction s generalizing n with
  | nil => rfl
  | cons c s ih =>
    rw [List.cons_append, digitsFrom, digitsFrom]
    cases digitValue? c with
    | none => rfl
    | some d => exact ih _

theorem digitsFrom_digits (ds : List ℕ) (h : ∀ d ∈ ds, d < 10) :
    digitsFrom 0 ((ds.map fun d => UInt8.ofNat (d + 48)).reverse) = some (Nat.ofDigits 10 ds) := by
  induction ds with
  | nil => rfl
  | cons d ds ih =>
    rw [List.map_cons, List.reverse_cons, digitsFrom_append,
      ih fun e he => h e (List.mem_cons_of_mem _ he), Option.bind_some, digitsFrom,
      digitValue?_ofNat d (h d List.mem_cons_self), Nat.ofDigits_cons]
    exact congrArg some (Nat.add_comm _ _)

theorem decimal_ne_nil (n : ℕ) : decimal n ≠ [] := by
  unfold decimal
  split_ifs with hn
  · exact List.cons_ne_nil _ _
  · intro h
    have hmap := List.reverse_eq_nil_iff.mp h
    exact Nat.digits_ne_nil_iff_ne_zero.mpr hn (List.map_eq_nil_iff.mp hmap)

/-- A printed number consists of digits. -/
theorem decimal_range {n : ℕ} {c : UInt8} (h : c ∈ decimal n) : 48 ≤ c ∧ c ≤ 57 := by
  have hdigit : ∀ d < 10, 48 ≤ UInt8.ofNat (d + 48) ∧ UInt8.ofNat (d + 48) ≤ 57 := by decide
  unfold decimal at h
  split_ifs at h with hn
  · obtain rfl := List.mem_singleton.mp h
    decide
  · obtain ⟨d, hd, rfl⟩ := List.mem_map.mp (List.mem_reverse.mp h)
    exact hdigit d (Nat.digits_lt_base (by decide) hd)

theorem digitsFrom_decimal (n : ℕ) : digitsFrom 0 (decimal n) = some n := by
  unfold decimal
  split_ifs with hn
  · rw [hn]
    rfl
  · rw [digitsFrom_digits _ fun d hd => Nat.digits_lt_base (by decide) hd, Nat.ofDigits_digits]

/-- A printed number is read back. -/
theorem parseU64_decimal {n : ℕ} (h : n < 2 ^ 64) : parseU64 (decimal n) = some n := by
  have hsign : (stripPrefix [43] (decimal n)).getD (decimal n) = decimal n := by
    cases hs : stripPrefix [43] (decimal n) with
    | none => rfl
    | some r =>
      have hplus : (43 : UInt8) ∈ decimal n := by
        rw [stripPrefix_eq_some_iff.mp hs]
        exact List.mem_cons_self
      exact absurd (decimal_range hplus).1 (by decide)
  rw [parseU64, hsign]
  simp only [if_neg (decimal_ne_nil n), digitsFrom_decimal, Option.bind_eq_bind, Option.bind_some,
    if_pos h]

theorem parseU64_lt {s : Bytes} {n : ℕ} (h : parseU64 s = some n) : n < 2 ^ 64 := by
  unfold parseU64 at h
  dsimp only at h
  split_ifs at h with hnil
  obtain ⟨m, -, hm⟩ := Option.bind_eq_some_iff.mp h
  split_ifs at hm with hlt
  cases hm
  exact hlt

end Snix
