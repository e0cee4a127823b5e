import Snix.Eval.Builtins.Versions

/-!
# The order of versions

Versions are compared part by part: `pre` is less than every other part, the empty word
behind the last part is less than every other part but `pre`, words are less than numbers.
Numbers have 64 bits, and a larger one is a panic.

## Main definitions

- `RunFits` — whether the part of a run ends within the version
- `NumbersFit` — whether the numbers that are compared have 64 bits
- `VersionPart.exactCmp` — the order of the parts without a bound on the numbers
- `versionParts` — the runs of digits and of other bytes between dividers
- `IsVersion` — UTF-8 with numbers of 64 bits

## Main results

- `compareVersions_returns_iff` — when splitting and comparing do not panic
- `compareVersions_preorder` — versions are preordered, and what decides between them
-/

namespace Snix.Eval

open VersionPartsIter

variable {version b : Bytes} {pos n : ℕ} {run chars : List CharIndex} {c : CharIndex}
  {k : CharClass}

-- ====================
-- The parts of the runs
-- ====================

/-- Whether a run ends within the version, where each character but the first counts with its
    encoding. -/
def RunFits (version : Bytes) (run : List CharIndex) : Prop :=
  ∀ c ∈ run.head?, c.stop + (run.tail.map CharIndex.lenUtf8).sum ≤ version.length

/-- The part of a run that ends within the version. -/
def textOf (version : Bytes) : List CharIndex → VersionPart
  | [] => .word []
  | c :: run =>
    (if c.kind = .digit then VersionPart.number else .word)
      ((version.drop c.start).take (lastOf c run + 1 - c.start))

theorem partOf_of_fits (hne : run ≠ []) (hpos : Consecutive pos run) (h : RunFits version run) :
    partOf version run = .ok (textOf version run) := by
  cases run with
  | nil => exact absurd rfl hne
  | cons c run =>
    have hfit := h c rfl
    have hlt := hpos.2.1
    rw [List.tail_cons] at hfit
    have hrange : c.start ≤ lastOf c run + 1 ∧ lastOf c run + 1 ≤ version.length := by
      unfold lastOf
      omega
    rw [partOf, slice, if_pos hrange]
    rfl

theorem partOf_of_not_fits (hpos : Consecutive pos run) (h : ¬RunFits version run) :
    partOf version run = .error .panic := by
  cases run with
  | nil => exact absurd (fun c hc => by cases hc) h
  | cons c run =>
    have hlt := hpos.2.1
    have hfit : ¬c.stop + (run.map CharIndex.lenUtf8).sum ≤ version.length :=
      fun hle => h fun d hd => by
        cases hd
        exact hle
    have hrange : ¬(c.start ≤ lastOf c run + 1 ∧ lastOf c run + 1 ≤ version.length) := by
      unfold lastOf
      omega
    rw [partOf, slice, if_neg hrange]
    rfl

theorem Consecutive.of_append {pre post : List CharIndex} (h : Consecutive pos (pre ++ run ++ post)) :
    ∃ pos', Consecutive pos' run := by
  induction pre generalizing pos with
  | nil =>
    refine ⟨pos, ?_⟩
    rw [List.nil_append] at h
    induction run generalizing pos with
    | nil => trivial
    | cons c run ih => exact ⟨h.1, h.2.1, ih h.2.2⟩
  | cons c pre ih => exact ih h.2.2

theorem mem_runs_iff : run ∈ runs chars ↔
    run ∈ chars.splitBy (fun c d => c.kind == d.kind) ∧ ∀ c ∈ run, c.kind ≠ .divider := by
  unfold runs
  rw [List.mem_filter, List.all_eq_true]
  simp only [bne_iff_ne]

/-- The characters of a run follow one another. -/
theorem consecutive_of_mem_runs (h : run ∈ runs (charIndices version)) :
    run ≠ [] ∧ ∃ pos, Consecutive pos run := by
  have hmem := (mem_runs_iff.mp h).1
  refine ⟨List.ne_nil_of_mem_splitBy hmem, ?_⟩
  obtain ⟨pre, post, hsplit⟩ := List.append_of_mem hmem
  have hflat := List.flatten_splitBy (fun c d => c.kind == d.kind) (charIndices version)
  have hchars : charIndices version = pre.flatten ++ run ++ post.flatten := by
    rw [← hflat, hsplit, List.flatten_append, List.flatten_cons, List.append_assoc]
  have hcons := consecutive_charIndicesFrom version.length 0 version
  rw [← charIndices, hchars] at hcons
  exact hcons.of_append

/-- The parts of a version, if its runs end within it. -/
def partsOf (version : Bytes) : List VersionPart := (runs (charIndices version)).map (textOf version)

theorem splitVersion_of_fits (h : ∀ run ∈ runs (charIndices version), RunFits version run) :
    splitVersion version = .ok (partsOf version) := by
  rw [splitVersion_eq]
  apply mapM_eq_ok
  intro run hrun
  obtain ⟨hne, pos, hpos⟩ := consecutive_of_mem_runs hrun
  exact partOf_of_fits hne hpos (h run hrun)

theorem splitVersion_returns_iff :
    (∃ parts, splitVersion version = .ok parts) ↔
      ∀ run ∈ runs (charIndices version), RunFits version run := by
  constructor
  · rintro ⟨parts, hparts⟩ run hrun
    by_contra hfit
    obtain ⟨-, pos, hpos⟩ := consecutive_of_mem_runs hrun
    rw [splitVersion_eq] at hparts
    exact mapM_ne_ok hrun (partOf_of_not_fits hpos hfit) parts hparts
  · exact fun h => ⟨_, splitVersion_of_fits h⟩

-- ====================
-- Runs that are read as they are
-- ====================

theorem take_consecutive (hpos : Consecutive pos run) (h : ∀ c ∈ run, Exact version c) :
    (version.drop pos).take (run.map CharIndex.lenUtf8).sum = run.flatMap CharIndex.char := by
  induction run generalizing pos with
  | nil => rfl
  | cons c run ih =>
    obtain ⟨hstop, hchar⟩ := h c List.mem_cons_self
    have hrest := ih hpos.2.2 fun d hd => h d (List.mem_cons_of_mem _ hd)
    obtain rfl := hpos.1
    rw [List.map_cons, List.sum_cons, List.take_add, hchar, List.drop_drop, ← hstop, hrest,
      List.flatMap_cons]

theorem length_flatMap_char : (run.flatMap CharIndex.char).length = (run.map CharIndex.lenUtf8).sum :=
  List.length_flatMap

/-- Such a run ends within the version, and its part is what was read. -/
theorem textOf_of_exact (hne : run ≠ []) (hpos : Consecutive pos run)
    (h : ∀ c ∈ run, Exact version c) (hk : Uniform k run) :
    RunFits version run ∧ textOf version run =
      (if k = .digit then VersionPart.number else .word) (run.flatMap CharIndex.char) := by
  have htake := take_consecutive hpos h
  have hlen := congrArg List.length htake
  rw [length_flatMap_char, List.length_take, List.length_drop] at hlen
  cases run with
  | nil => exact absurd rfl hne
  | cons c run =>
    obtain rfl := hpos.1
    have hstop := (h c List.mem_cons_self).1
    have hlt := hpos.2.1
    rw [List.map_cons, List.sum_cons] at hlen htake
    constructor
    · intro d hd
      cases hd
      rw [List.tail_cons]
      omega
    · have hcount : lastOf c run + 1 - c.start = c.lenUtf8 + (run.map CharIndex.lenUtf8).sum := by
        unfold lastOf
        omega
      rw [textOf, hcount, htake, hk c List.mem_cons_self]

theorem uniform_of_isChain (h : (c :: run).IsChain fun c d => (c.kind == d.kind) = true) :
    Uniform c.kind (c :: run) := by
  induction run generalizing c with
  | nil =>
    intro d hd
    rw [List.mem_singleton.mp hd]
  | cons d run ih =>
    rw [List.isChain_cons_cons] at h
    have hsame : c.kind = d.kind := beq_iff_eq.mp h.1
    intro e he
    obtain rfl | he := List.mem_cons.mp he
    · rfl
    · exact (ih h.2 e he).trans hsame.symm

/-- The characters between two changes of their kind. -/
theorem exists_uniform (h : run ∈ chars.splitBy fun c d => c.kind == d.kind) :
    ∃ k, Uniform k run := by
  have hchain := List.isChain_of_mem_splitBy h
  cases run with
  | nil => exact absurd rfl (List.ne_nil_of_mem_splitBy h)
  | cons c run => exact ⟨c.kind, uniform_of_isChain hchain⟩

theorem mem_of_mem_splitBy (h : run ∈ chars.splitBy fun c d => c.kind == d.kind) (hc : c ∈ run) :
    c ∈ chars := by
  rw [← List.flatten_splitBy (fun c d => c.kind == d.kind) chars]
  exact List.mem_flatten_of_mem h hc

theorem mem_of_mem_runs (h : run ∈ runs chars) (hc : c ∈ run) : c ∈ chars :=
  mem_of_mem_splitBy (mem_runs_iff.mp h).1 hc

-- ====================
-- Numbers
-- ====================

/-- Digits, and at least one. -/
def IsDigits (s : Bytes) : Prop := s ≠ [] ∧ ∀ x ∈ s, byteClass x = .digit

/-- The number that digits stand for. -/
def numberValue (s : Bytes) : ℕ := (digitsFrom 0 s).getD 0

theorem byteClass_eq_digit_iff {x : UInt8} : byteClass x = .digit ↔ 48 ≤ x ∧ x ≤ 57 := by
  unfold byteClass
  by_cases hdiv : x = 46 ∨ x = 45
  · rw [if_pos hdiv]
    obtain rfl | rfl := hdiv
    · decide
    · decide
  · rw [if_neg hdiv]
    by_cases hdigit : 48 ≤ x ∧ x ≤ 57
    · simp [hdigit]
    · simp [hdigit]

theorem digitsFrom_of_digits {s : Bytes} (h : ∀ x ∈ s, byteClass x = .digit) :
    ∃ v, digitsFrom n s = some v := by
  induction s generalizing n with
  | nil => exact ⟨n, rfl⟩
  | cons x s ih =>
    obtain ⟨hge, hle⟩ := byteClass_eq_digit_iff.mp (h x List.mem_cons_self)
    have hx : digitValue? x = some (x.toNat - 48) := by simp [digitValue?, hge, hle]
    obtain ⟨v, hv⟩ := @ih (10 * n + (x.toNat - 48)) fun y hy => h y (List.mem_cons_of_mem _ hy)
    refine ⟨v, ?_⟩
    rw [digitsFrom, hx]
    exact hv

theorem parseU64_of_digits {s : Bytes} (h : IsDigits s) :
    parseU64 s = if numberValue s < 2 ^ 64 then some (numberValue s) else none := by
  obtain ⟨v, hv⟩ := digitsFrom_of_digits (n := 0) h.2
  have hsign : stripPrefix [43] s = none := by
    cases hs : stripPrefix [43] s with
    | none => rfl
    | some r =>
      have hplus : (43 : UInt8) ∈ s := by
        rw [stripPrefix_eq_some_iff.mp hs]
        exact List.mem_cons_self
      exact absurd (h.2 43 hplus) (by decide)
  rw [parseU64, hsign]
  simp only [Option.getD_none, if_neg h.1, numberValue, hv, Option.getD_some, Option.bind_eq_bind,
    Option.bind_some]

theorem unwrapU64_of_digits {s : Bytes} (h : IsDigits s) :
    unwrapU64 s = if numberValue s < 2 ^ 64 then .ok (numberValue s) else .error .panic := by
  have hascii : utf8Valid s = true := by
    apply utf8Valid_of_ascii
    intro x hx
    exact UInt8.le_trans (byteClass_eq_digit_iff.mp (h.2 x hx)).2 (by decide)
  rw [unwrapU64, toStringLossy_of_valid hascii, parseU64_of_digits h]
  by_cases hv : numberValue s < 2 ^ 64
  · rw [if_pos hv, if_pos hv]
  · rw [if_neg hv, if_neg hv]

-- ====================
-- The order of the parts
-- ====================

namespace VersionPart

variable {p q : VersionPart}

def rank : VersionPart → ℕ
  | word w => if w = PRE then 0 else 1
  | number _ => 2

def value : VersionPart → ℕ
  | word _ => 0
  | number s => numberValue s

def text : VersionPart → Bytes
  | word w => w
  | number _ => []

/-- The order of the parts, without a bound on the numbers. -/
def exactCmp : VersionPart → VersionPart → Ordering :=
  compareLex (compareOn rank) (compareLex (compareOn value) (compareOn text))

instance : Std.TransCmp exactCmp := inferInstanceAs (Std.TransCmp (compareLex _ _))

/-- A number has digits. -/
def WellFormed (p : VersionPart) : Prop := ∀ s, p = number s → IsDigits s

/-- Two numbers have 64 bits. -/
def PairFits (p q : VersionPart) : Prop :=
  ∀ s t, p = number s → q = number t → numberValue s < 2 ^ 64 ∧ numberValue t < 2 ^ 64

theorem exactCmp_of_rank_lt (h : p.rank < q.rank) : exactCmp p q = .lt := by
  rw [exactCmp, compareLex, compareOn, Nat.compare_eq_lt.mpr h, Ordering.lt_then]

theorem exactCmp_of_rank_gt (h : q.rank < p.rank) : exactCmp p q = .gt := by
  rw [exactCmp, compareLex, compareOn, Nat.compare_eq_gt.mpr h, Ordering.gt_then]

theorem exactCmp_number (s t : Bytes) :
    exactCmp (number s) (number t) = compare (numberValue s) (numberValue t) := by
  simp [exactCmp, compareLex, compareOn, rank, value, text]

theorem exactCmp_word {x y : Bytes} (h : rank (word x) = rank (word y)) :
    exactCmp (word x) (word y) = compare x y := by
  simp [exactCmp, compareLex, compareOn, h, value, text]

theorem rank_pre : rank (word PRE) = 0 := rfl

theorem rank_word {x : Bytes} (h : x ≠ PRE) : rank (word x) = 1 := if_neg h

theorem rank_word_lt {x s : Bytes} : rank (word x) < rank (number s) := by
  have hword : rank (word x) ≤ 1 := by
    rw [rank]
    split_ifs
    · exact Nat.zero_le 1
    · exact Nat.le_refl 1
  exact Nat.lt_succ_of_le hword

theorem cmp_word (x y : Bytes) : (word x).cmp (word y) = .ok (exactCmp (word x) (word y)) := by
  rw [cmp]
  by_cases hx : x = PRE
  · by_cases hy : y = PRE
    · rw [if_pos ⟨hx, hy⟩, hx, hy, exactCmp_word rfl, Std.ReflOrd.compare_self]
    · have hrank : rank (word x) < rank (word y) := by
        rw [hx, rank_pre, rank_word hy]
        exact Nat.zero_lt_one
      rw [if_neg fun h => hy h.2, if_pos hx, exactCmp_of_rank_lt hrank]
  · rw [if_neg fun h => hx h.1, if_neg hx]
    by_cases hy : y = PRE
    · have hrank : rank (word y) < rank (word x) := by
        rw [hy, rank_pre, rank_word hx]
        exact Nat.zero_lt_one
      rw [if_pos hy, exactCmp_of_rank_gt hrank]
    · rw [if_neg hy, exactCmp_word ((rank_word hx).trans (rank_word hy).symm)]

theorem cmp_of_fits (hp : p.WellFormed) (hq : q.WellFormed) (h : PairFits p q) :
    p.cmp q = .ok (exactCmp p q) := by
  cases p with
  | number s =>
    cases q with
    | number t =>
      obtain ⟨hs, ht⟩ := h s t rfl rfl
      rw [cmp, unwrapU64_of_digits (hp s rfl), unwrapU64_of_digits (hq t rfl), if_pos hs, if_pos ht,
        exactCmp_number]
      rfl
    | word y => rw [exactCmp_of_rank_gt rank_word_lt, cmp]
  | word x =>
    cases q with
    | number t => rw [exactCmp_of_rank_lt rank_word_lt, cmp]
    | word y => exact cmp_word x y

theorem cmp_of_not_fits (hp : p.WellFormed) (hq : q.WellFormed) (h : ¬PairFits p q) :
    p.cmp q = .error .panic := by
  unfold PairFits at h
  push Not at h
  obtain ⟨s, t, rfl, rfl, hst⟩ := h
  rw [cmp, unwrapU64_of_digits (hp s rfl), unwrapU64_of_digits (hq t rfl)]
  by_cases hs : numberValue s < 2 ^ 64
  · rw [if_pos hs, if_neg (Nat.not_lt.mpr (hst hs))]
    rfl
  · rw [if_neg hs]
    rfl

theorem pairFits_word_left {w : Bytes} : PairFits (word w) q := fun _ _ h => by cases h

theorem pairFits_word_right {w : Bytes} : PairFits p (word w) := fun _ _ _ h => by cases h

end VersionPart

open VersionPart

-- ====================
-- Comparisons that return
-- ====================

variable {x y z : Bytes} {p q : VersionPart} {ps qs : List VersionPart}

theorem wellFormed_of_mem_partsOf (hp : p ∈ partsOf version) : p.WellFormed := by
  intro s hs
  obtain ⟨run, hrun, rfl⟩ := List.mem_map.mp hp
  obtain ⟨hne, pos, hpos⟩ := consecutive_of_mem_runs hrun
  obtain ⟨k, hk⟩ := exists_uniform (mem_runs_iff.mp hrun).1
  -- only the run of a number is read as it is for sure
  have hdigit : k = .digit := by
    cases run with
    | nil => exact absurd rfl hne
    | cons c run =>
      by_contra hnot
      rw [textOf, hk c List.mem_cons_self, if_neg hnot] at hs
      cases hs
  have hone : ∀ c ∈ run, c.lenUtf8 = 1 := fun c hc =>
    CharIndex.lenUtf8_of_digit ((hk c hc).trans hdigit)
  have hexact : ∀ c ∈ run, Exact version c := fun c hc =>
    exact_of_mem_charIndicesFrom rfl (mem_of_mem_runs hrun hc) (hone c hc)
  rw [(textOf_of_exact hne hpos hexact hk).2, if_pos hdigit] at hs
  cases hs
  constructor
  · intro hnil
    obtain ⟨c, hc⟩ := List.exists_mem_of_ne_nil run hne
    have hlen := hone c hc
    rw [CharIndex.lenUtf8, List.flatMap_eq_nil_iff.mp hnil c hc] at hlen
    cases hlen
  · intro b hb
    obtain ⟨c, hc, hb⟩ := List.mem_flatMap.mp hb
    rw [CharIndex.kind_of_length_eq (hone c hc) b hb, hk c hc, hdigit]

/-- Whether the numbers that are compared have 64 bits: those at the same place, if what comes
    before them is the same. -/
def NumbersFit (ps qs : List VersionPart) : Prop :=
  ∀ i p q, List.Forall₂ (fun p q => exactCmp p q = .eq) (ps.take i) (qs.take i) →
    ps[i]? = some p → qs[i]? = some q → PairFits p q

theorem numbersFit_cons :
    NumbersFit (p :: ps) (q :: qs) ↔ PairFits p q ∧ (exactCmp p q = .eq → NumbersFit ps qs) := by
  constructor
  · intro h
    refine ⟨h 0 p q .nil rfl rfl, fun hpq i p' q' hsame hp' hq' => ?_⟩
    exact h (i + 1) p' q' (.cons hpq hsame) hp' hq'
  · rintro ⟨hfit, hrest⟩ i p' q' hsame hp' hq'
    cases i with
    | zero =>
      cases hp'
      cases hq'
      exact hfit
    | succ i =>
      obtain ⟨hpq, hsame⟩ := List.forall₂_cons.mp hsame
      exact hrest hpq i p' q' hsame hp' hq'

theorem wellFormed_word {w : Bytes} : (word w).WellFormed := fun _ h => by cases h

/-- Parts are compared one after the other. By induction on the parts of both. -/
theorem cmpItems_returns_iff (hps : ∀ p ∈ ps, p.WellFormed) (hqs : ∀ q ∈ qs, q.WellFormed) :
    (∃ o, Iteration.cmpItems VersionPart.cmp (ps ++ [.word []]) (qs ++ [.word []]) = .ok o) ↔
      NumbersFit ps qs := by
  induction ps generalizing qs with
  | nil =>
    have hfit : NumbersFit [] qs := fun _ _ _ _ h => by cases h
    refine iff_of_true ?_ hfit
    cases qs with
    | nil => exact ⟨.eq, rfl⟩
    | cons q qs =>
      rw [List.nil_append, List.cons_append, Iteration.cmpItems,
        cmp_of_fits wellFormed_word (hqs q List.mem_cons_self) pairFits_word_left]
      cases exactCmp (.word []) q with
      | lt => exact ⟨.lt, rfl⟩
      | gt => exact ⟨.gt, rfl⟩
      | eq =>
        refine ⟨.lt, ?_⟩
        cases qs <;> rfl
  | cons p ps ih =>
    have hp := hps p List.mem_cons_self
    have hps' : ∀ p ∈ ps, p.WellFormed := fun p hp => hps p (List.mem_cons_of_mem _ hp)
    cases qs with
    | nil =>
      have hfit : NumbersFit (p :: ps) [] := fun _ _ _ _ _ h => by cases h
      refine iff_of_true ?_ hfit
      rw [List.nil_append, List.cons_append, Iteration.cmpItems,
        cmp_of_fits hp wellFormed_word pairFits_word_right]
      cases exactCmp p (.word []) with
      | lt => exact ⟨.lt, rfl⟩
      | gt => exact ⟨.gt, rfl⟩
      | eq =>
        refine ⟨.gt, ?_⟩
        cases ps <;> rfl
    | cons q qs =>
      have hq := hqs q List.mem_cons_self
      have hqs' : ∀ q ∈ qs, q.WellFormed := fun q hq => hqs q (List.mem_cons_of_mem _ hq)
      rw [numbersFit_cons, List.cons_append, List.cons_append, Iteration.cmpItems]
      by_cases hfit : PairFits p q
      · rw [cmp_of_fits hp hq hfit, ← ih hps' hqs']
        cases exactCmp p q with
        | lt => exact iff_of_true ⟨.lt, rfl⟩ ⟨hfit, fun h => by cases h⟩
        | gt => exact iff_of_true ⟨.gt, rfl⟩ ⟨hfit, fun h => by cases h⟩
        | eq => exact ⟨fun h => ⟨hfit, fun _ => h⟩, fun h => h.2 rfl⟩
      · rw [cmp_of_not_fits hp hq hfit]
        refine iff_of_false ?_ fun h => hfit h.1
        rintro ⟨_, h⟩
        cases h

/-- The comparison of versions that are split. -/
theorem compareVersions_eq (hx : splitVersion x = .ok ps) (hy : splitVersion y = .ok qs) :
    compareVersions x y =
      Iteration.cmpItems VersionPart.cmp (ps ++ [.word []]) (qs ++ [.word []]) :=
  Iteration.cmp_eq (Iteration.collect_chain hx) (Iteration.collect_chain hy)

/-- Splitting two versions and comparing them does not panic if and only if every run ends within
    its version and the numbers that are compared have 64 bits. -/
theorem compareVersions_returns_iff (x y : Bytes) :
    ((∃ ps, splitVersion x = .ok ps) ∧ (∃ qs, splitVersion y = .ok qs) ∧
        ∃ o, compareVersions x y = .ok o) ↔
      (∀ run ∈ runs (charIndices x), RunFits x run) ∧
      (∀ run ∈ runs (charIndices y), RunFits y run) ∧ NumbersFit (partsOf x) (partsOf y) := by
  rw [splitVersion_returns_iff, splitVersion_returns_iff]
  refine and_congr_right fun hx => and_congr_right fun hy => ?_
  rw [compareVersions_eq (splitVersion_of_fits hx) (splitVersion_of_fits hy)]
  exact cmpItems_returns_iff (fun _ => wellFormed_of_mem_partsOf) fun _ => wellFormed_of_mem_partsOf

/-- A number with 65 bits, and a word with a byte at its end that is no UTF-8. -/
theorem compareVersions_panics :
    compareVersions (ascii "18446744073709551616") (ascii "1") = .error .panic ∧
      splitVersion [97, 255] = .error .panic := by
  have hlong : splitVersion (ascii "18446744073709551616") =
      .ok [.number (ascii "18446744073709551616")] := by
    rw [splitVersion_eq]
    rfl
  have hone : splitVersion (ascii "1") = .ok [.number (ascii "1")] := by
    rw [splitVersion_eq]
    rfl
  constructor
  · rw [compareVersions_eq hlong hone]
    rfl
  · rw [splitVersion_eq]
    rfl

-- ====================
-- Versions in UTF-8
-- ====================

/-- The part of a run of bytes. -/
def partOfBytes (run : Bytes) : VersionPart :=
  if run.all fun x => byteClass x == .digit then .number run else .word run

/-- The parts of a version: the longest runs of digits and of other bytes, without the dividers
    `.` and `-` between them. -/
def versionParts (version : Bytes) : List VersionPart :=
  ((version.splitBy fun x y => byteClass x == byteClass y).filter
    fun run => run.all fun x => byteClass x != .divider).map partOfBytes

/-- A version in UTF-8 with numbers of 64 bits. -/
structure IsVersion (version : Bytes) : Prop where
  utf8 : utf8Valid version = true
  numbers : ∀ s, .number s ∈ versionParts version → numberValue s < 2 ^ 64

/-- The characters of a run, as bytes. -/
abbrev bytesOf (run : List CharIndex) : Bytes := run.flatMap CharIndex.char

theorem charIndices_of_valid (h : utf8Valid version = true) :
    (∀ c ∈ charIndices version, Exact version c ∧ ∀ x ∈ c.char, byteClass x = c.kind) ∧
      bytesOf (charIndices version) = version :=
  charIndicesFrom_of_valid rfl (Nat.le_refl _) h

theorem Consecutive.char_ne_nil (hpos : Consecutive pos chars) (h : ∀ c ∈ chars, Exact version c) :
    ∀ c ∈ chars, c.char ≠ [] := by
  induction chars generalizing pos with
  | nil => exact fun c hc => absurd hc List.not_mem_nil
  | cons d chars ih =>
    intro c hc hnil
    obtain rfl | hc := List.mem_cons.mp hc
    · have hstop := (h c List.mem_cons_self).1
      have hlt := hpos.2.1
      rw [CharIndex.lenUtf8, hnil, List.length_nil] at hstop
      omega
    · exact ih hpos.2.2 (fun c hc => h c (List.mem_cons_of_mem _ hc)) c hc hnil

/-- The bytes of a run in UTF-8. -/
theorem bytesOf_of_valid (h : utf8Valid version = true)
    (hrun : run ∈ (charIndices version).splitBy fun c d => c.kind == d.kind) (hk : Uniform k run) :
    (∀ c ∈ run, Exact version c) ∧ bytesOf run ≠ [] ∧ ∀ x ∈ bytesOf run, byteClass x = k := by
  obtain ⟨hall, -⟩ := charIndices_of_valid h
  have hmem : ∀ c ∈ run, c ∈ charIndices version := fun c hc => mem_of_mem_splitBy hrun hc
  have hchar := (consecutive_charIndicesFrom version.length 0 version).char_ne_nil
    fun c hc => (hall c hc).1
  refine ⟨fun c hc => (hall c (hmem c hc)).1, fun hnil => ?_, fun x hx => ?_⟩
  · obtain ⟨c, hc⟩ := List.exists_mem_of_ne_nil run (List.ne_nil_of_mem_splitBy hrun)
    exact hchar c (hmem c hc) (List.flatMap_eq_nil_iff.mp hnil c hc)
  · obtain ⟨c, hc, hx⟩ := List.mem_flatMap.mp hx
    rw [(hall c (hmem c hc)).2 x hx, hk c hc]

/-- In UTF-8 the bytes change their kind where the characters do. -/
theorem splitBy_of_valid (h : utf8Valid version = true) :
    version.splitBy (fun x y => byteClass x == byteClass y) =
      ((charIndices version).splitBy fun c d => c.kind == d.kind).map bytesOf := by
  rw [List.splitBy_eq_iff]
  refine ⟨?_, ?_, ?_, ?_⟩
  · have hflat := (charIndices_of_valid h).2
    rw [← List.flatten_splitBy (fun c d => c.kind == d.kind) (charIndices version), bytesOf,
      List.flatMap_def, List.map_flatten, List.flatten_flatten, List.map_map] at hflat
    exact hflat.symm
  · intro hnil
    obtain ⟨run, hrun, hrunnil⟩ := List.mem_map.mp hnil
    obtain ⟨k, hk⟩ := exists_uniform hrun
    exact (bytesOf_of_valid h hrun hk).2.1 hrunnil
  · intro m hm
    obtain ⟨run, hrun, rfl⟩ := List.mem_map.mp hm
    obtain ⟨k, hk⟩ := exists_uniform hrun
    have hclass := (bytesOf_of_valid h hrun hk).2.2
    apply List.Pairwise.isChain
    apply List.pairwise_of_forall_mem_list
    intro x hx y hy
    rw [hclass x hx, hclass y hy]
    exact beq_self_eq_true k
  · rw [List.isChain_map]
    refine List.IsChain.imp_of_mem_imp ?_
      (List.isChain_getLast_head_splitBy (fun c d => c.kind == d.kind) (charIndices version))
    rintro a b ha hb ⟨hane, hbne, hdiff⟩
    obtain ⟨j, hj⟩ := exists_uniform ha
    obtain ⟨k, hk⟩ := exists_uniform hb
    obtain ⟨-, hanil, haclass⟩ := bytesOf_of_valid h ha hj
    obtain ⟨-, hbnil, hbclass⟩ := bytesOf_of_valid h hb hk
    refine ⟨hanil, hbnil, ?_⟩
    rw [hj _ (List.getLast_mem hane), hk _ (List.head_mem hbne)] at hdiff
    rw [haclass _ (List.getLast_mem hanil), hbclass _ (List.head_mem hbnil)]
    exact hdiff

theorem all_eq_of_forall {α : Type} {l : List α} {f : α → Bool} {v : Bool} (hne : l ≠ [])
    (h : ∀ x ∈ l, f x = v) : l.all f = v := by
  cases v with
  | true => exact List.all_eq_true.mpr h
  | false =>
    obtain ⟨x, hx⟩ := List.exists_mem_of_ne_nil l hne
    exact List.all_eq_false.mpr ⟨x, hx, by simp [h x hx]⟩

/-- In UTF-8 the parts are the runs of the bytes. -/
theorem splitVersion_of_valid (h : utf8Valid version = true) :
    splitVersion version = .ok (versionParts version) := by
  have hrun : ∀ run ∈ runs (charIndices version),
      RunFits version run ∧ textOf version run = partOfBytes (bytesOf run) := by
    intro run hrun
    obtain ⟨hne, pos, hpos⟩ := consecutive_of_mem_runs hrun
    have hmem := (mem_runs_iff.mp hrun).1
    obtain ⟨k, hk⟩ := exists_uniform hmem
    obtain ⟨hexact, hnil, hclass⟩ := bytesOf_of_valid h hmem hk
    obtain ⟨hfit, htext⟩ := textOf_of_exact hne hpos hexact hk
    refine ⟨hfit, ?_⟩
    have hall : ((bytesOf run).all fun x => byteClass x == .digit) = (k == .digit) :=
      all_eq_of_forall hnil fun x hx => by rw [hclass x hx]
    rw [htext, partOfBytes, hall]
    by_cases hdigit : k = .digit
    · rw [if_pos hdigit, if_pos (beq_iff_eq.mpr hdigit)]
    · rw [if_neg hdigit, if_neg fun h => hdigit (beq_iff_eq.mp h)]
  have hfilter : (version.splitBy fun x y => byteClass x == byteClass y).filter
      (fun run => run.all fun x => byteClass x != .divider) =
      (runs (charIndices version)).map bytesOf := by
    rw [splitBy_of_valid h, List.filter_map, runs]
    apply congrArg (List.map bytesOf)
    apply List.filter_congr
    intro run hrun
    obtain ⟨k, hk⟩ := exists_uniform hrun
    obtain ⟨-, hnil, hclass⟩ := bytesOf_of_valid h hrun hk
    have hbytes : ((bytesOf run).all fun x => byteClass x != .divider) = (k != .divider) :=
      all_eq_of_forall hnil fun x hx => by rw [hclass x hx]
    have hchars : (run.all fun c => c.kind != .divider) = (k != .divider) :=
      all_eq_of_forall (List.ne_nil_of_mem_splitBy hrun) fun c hc => by rw [hk c hc]
    exact hbytes.trans hchars.symm
  rw [splitVersion_of_fits fun run hr => (hrun run hr).1, partsOf, versionParts, hfilter,
    List.map_map]
  exact congrArg _ (List.map_congr_left fun run hr => (hrun run hr).2)

-- ====================
-- The order of versions
-- ====================

/-- The order of lists of parts, with an empty word behind both. -/
def partsCmp (ps qs : List VersionPart) : Ordering :=
  List.compareLex exactCmp (ps ++ [.word []]) (qs ++ [.word []])

instance : Std.TransCmp partsCmp where
  eq_swap {ps qs} := by
    have h : Std.OrientedCmp (List.compareLex exactCmp) := inferInstance
    exact h.eq_swap
  isLE_trans {ps qs rs} hpq hqr := by
    have h : Std.TransCmp (List.compareLex exactCmp) := inferInstance
    exact h.isLE_trans hpq hqr

/-- Where all numbers have 64 bits, the items are compared by the order of the parts. -/
theorem cmpItems_eq_compareLex (h : ∀ p ∈ ps, ∀ q ∈ qs, p.cmp q = .ok (exactCmp p q)) :
    Iteration.cmpItems VersionPart.cmp ps qs = .ok (List.compareLex exactCmp ps qs) := by
  induction ps generalizing qs with
  | nil => cases qs <;> rfl
  | cons p ps ih =>
    cases qs with
    | nil => rfl
    | cons q qs =>
      have hrest := @ih qs fun p hp q hq => h p (List.mem_cons_of_mem _ hp) q (List.mem_cons_of_mem _ hq)
      rw [Iteration.cmpItems, h p List.mem_cons_self q List.mem_cons_self, hrest,
        List.compareLex_cons_cons]
      cases exactCmp p q <;> rfl

theorem IsVersion.wellFormed (h : IsVersion version) : ∀ p ∈ versionParts version, p.WellFormed := by
  have hfits : ∀ run ∈ runs (charIndices version), RunFits version run :=
    splitVersion_returns_iff.mp ⟨_, splitVersion_of_valid h.utf8⟩
  have hparts := (splitVersion_of_fits hfits).symm.trans (splitVersion_of_valid h.utf8)
  rw [← Except.ok.inj hparts]
  exact fun _ => wellFormed_of_mem_partsOf

/-- The parts of a version, and the empty word, are compared without a panic. -/
theorem IsVersion.cmp_eq (hx : IsVersion x) (hy : IsVersion y) :
    ∀ p ∈ versionParts x ++ [.word []], ∀ q ∈ versionParts y ++ [.word []],
      p.cmp q = .ok (exactCmp p q) := by
  have hword {w : VersionPart} (hw : w ∈ [VersionPart.word []]) : w = .word [] :=
    List.mem_singleton.mp hw
  intro p hp q hq
  obtain hp | hp := List.mem_append.mp hp
  · obtain hq | hq := List.mem_append.mp hq
    · refine cmp_of_fits (hx.wellFormed p hp) (hy.wellFormed q hq) fun s t hs ht => ?_
      exact ⟨hx.numbers s (hs ▸ hp), hy.numbers t (ht ▸ hq)⟩
    · rw [hword hq]
      exact cmp_of_fits (hx.wellFormed p hp) wellFormed_word pairFits_word_right
  · rw [hword hp]
    obtain hq | hq := List.mem_append.mp hq
    · exact cmp_of_fits wellFormed_word (hy.wellFormed q hq) pairFits_word_left
    · rw [hword hq]
      exact cmp_of_fits wellFormed_word wellFormed_word pairFits_word_left

theorem compareVersions_of_isVersion (hx : IsVersion x) (hy : IsVersion y) :
    compareVersions x y = .ok (partsCmp (versionParts x) (versionParts y)) := by
  rw [compareVersions_eq (splitVersion_of_valid hx.utf8) (splitVersion_of_valid hy.utf8)]
  exact cmpItems_eq_compareLex (hx.cmp_eq hy)

/-- After parts that are the same, the empty word decides. -/
theorem partsCmp_extra {same rest : List VersionPart}
    (hsame : List.Forall₂ (fun p q => exactCmp p q = .eq) ps same) (hp : p ≠ .word []) :
    partsCmp ps (same ++ p :: rest) = if p = .word PRE then .gt else .lt := by
  induction hsame with
  | nil =>
    have hlast : exactCmp (.word []) p = if p = .word PRE then .gt else .lt := by
      cases p with
      | number s =>
        rw [exactCmp_of_rank_lt rank_word_lt, if_neg]
        intro h
        cases h
      | word w =>
        by_cases hw : w = PRE
        · rw [hw, if_pos rfl]
          rfl
        · have hrank : rank (.word []) = rank (.word w) := (rank_word hw).symm
          have hne : VersionPart.word w ≠ .word PRE := fun h => hw (VersionPart.word.inj h)
          rw [exactCmp_word hrank, if_neg hne]
          cases w with
          | nil => exact absurd rfl hp
          | cons b w => rfl
    rw [partsCmp, List.nil_append, List.nil_append, List.cons_append, List.compareLex_cons_cons, hlast]
    split_ifs <;> rfl
  | cons hpq _ ih =>
    rw [partsCmp, List.cons_append, List.cons_append, List.cons_append, List.compareLex_cons_cons, hpq,
      Ordering.eq_then]
    exact ih

theorem forall₂_exactCmp (h : ∀ p ∈ ps, ∀ q ∈ qs, p.cmp q = .ok (exactCmp p q))
    (hsame : List.Forall₂ (fun p q => VersionPart.cmp p q = .ok .eq) ps qs) :
    List.Forall₂ (fun p q => exactCmp p q = .eq) ps qs := by
  induction hsame with
  | nil => exact .nil
  | cons hpq _ ih =>
    rw [h _ List.mem_cons_self _ List.mem_cons_self] at hpq
    exact .cons (Except.ok.inj hpq)
      (ih fun p hp q hq => h p (List.mem_cons_of_mem _ hp) q (List.mem_cons_of_mem _ hq))

theorem eq_lt_of_isLE {o : Ordering} (h : o.isLE = true) (hne : o ≠ .eq) : o = .lt := by
  cases o with
  | lt => rfl
  | eq => exact absurd rfl hne
  | gt => cases h

theorem ne_empty_of_mem_versionParts (h : p ∈ versionParts version) : p ≠ .word [] := by
  obtain ⟨run, hrun, rfl⟩ := List.mem_map.mp h
  have hne := List.ne_nil_of_mem_splitBy (List.mem_of_mem_filter hrun)
  unfold partOfBytes
  split_ifs
  · exact fun h => by cases h
  · exact fun h => hne (VersionPart.word.inj h)

/-- Versions in UTF-8 with numbers of 64 bits are split into their runs. Any two of them can be
    compared, the comparison is transitive, what compares equal compares alike, and of two versions
    that begin with the same parts the longer one is greater, unless it goes on with `pre`. -/
theorem compareVersions_preorder (hx : IsVersion x) (hy : IsVersion y) (hz : IsVersion z) :
    splitVersion x = .ok (versionParts x) ∧
    (∃ o, compareVersions x y = .ok o ∧ compareVersions y x = .ok o.swap) ∧
    (∀ o o', compareVersions x y = .ok o → compareVersions y z = .ok o' →
      o.isLE = true → o'.isLE = true →
        ∃ o'', compareVersions x z = .ok o'' ∧ o''.isLE = true ∧ (o'' = .eq ↔ o = .eq ∧ o' = .eq)) ∧
    (compareVersions x y = .ok .eq →
      compareVersions x z = compareVersions y z ∧ compareVersions z x = compareVersions z y) ∧
    ∀ same p rest, versionParts y = same ++ p :: rest →
      List.Forall₂ (fun p q => VersionPart.cmp p q = .ok .eq) (versionParts x) same →
      compareVersions x y = .ok (if p = .word PRE then .gt else .lt) := by
  have hxy := compareVersions_of_isVersion hx hy
  have hyx := compareVersions_of_isVersion hy hx
  have hyz := compareVersions_of_isVersion hy hz
  have hxz := compareVersions_of_isVersion hx hz
  have hzx := compareVersions_of_isVersion hz hx
  have hzy := compareVersions_of_isVersion hz hy
  refine ⟨splitVersion_of_valid hx.utf8, ⟨_, hxy, ?_⟩, ?_, ?_, ?_⟩
  · exact hyx.trans (congrArg Except.ok Std.OrientedCmp.eq_swap)
  · intro o o' ho ho' hle hle'
    obtain rfl := Except.ok.inj (hxy.symm.trans ho)
    obtain rfl := Except.ok.inj (hyz.symm.trans ho')
    refine ⟨_, hxz, Std.TransCmp.isLE_trans hle hle', fun heq => ?_, fun heq => ?_⟩
    · constructor
      · by_contra hne
        have hlt := Std.TransCmp.lt_of_lt_of_isLE (eq_lt_of_isLE hle hne) hle'
        rw [hlt] at heq
        cases heq
      · by_contra hne
        have hlt := Std.TransCmp.lt_of_isLE_of_lt hle (eq_lt_of_isLE hle' hne)
        rw [hlt] at heq
        cases heq
    · exact (Std.TransCmp.congr_left heq.1).trans heq.2
  · intro heq
    have hparts := Except.ok.inj (hxy.symm.trans heq)
    rw [hxz, hyz, hzx, hzy, Std.TransCmp.congr_left hparts, Std.TransCmp.congr_right hparts]
    exact ⟨rfl, rfl⟩
  · intro same p rest hparts hsame
    have hp : p ∈ versionParts y := by
      rw [hparts]
      exact List.mem_append_right _ List.mem_cons_self
    have hexact := forall₂_exactCmp (fun p hp q hq => hx.cmp_eq hy p (List.mem_append_left _ hp) q
      (List.mem_append_left _ (hparts ▸ List.mem_append_left _ hq))) hsame
    rw [hxy, hparts, partsCmp_extra hexact (ne_empty_of_mem_versionParts hp)]

/-- A version that goes on with `pre` is less. -/
theorem compareVersions_preorder_pre :
    compareVersions (ascii "2.3") (ascii "2.3pre") = .ok .gt := by
  have hx : IsVersion (ascii "2.3") := by
    refine ⟨utf8Valid_of_ascii (by decide +kernel), fun s hs => ?_⟩
    have hparts : versionParts (ascii "2.3") = [.number [50], .number [51]] := by decide +kernel
    simp only [hparts, List.mem_cons, List.not_mem_nil, VersionPart.number.injEq, or_false] at hs
    obtain rfl | rfl := hs
    · decide
    · decide
  have hparts : versionParts (ascii "2.3pre") = [.number [50], .number [51], .word PRE] := by
    decide +kernel
  have hy : IsVersion (ascii "2.3pre") := by
    refine ⟨utf8Valid_of_ascii (by decide +kernel), fun s hs => ?_⟩
    simp only [hparts, List.mem_cons, List.not_mem_nil, VersionPart.number.injEq, reduceCtorEq,
      or_false] at hs
    obtain rfl | rfl := hs
    · decide
    · decide
  have h := compareVersions_preorder hx hy hx
  exact h.2.2.2.2 [.number [50], .number [51]] (.word PRE) [] hparts (.cons rfl (.cons rfl .nil))

end Snix.Eval
