import Snix.Eval.Value.Basic
import Snix.Lib.Iteration

/-!
# Splitting by a regular expression

A string is searched for matches of a regular expression, one after the other. The result has
the text before each match and the captures of the match, and the text after the last one. The
next search begins where the last match ended.

## Main definitions

- `Regex` — the engine: where the first match from a position on is
- `builtinSplit` — the builtin
- `SplitsWhole` — the builtin returns, and nothing is lost
- `Searched` — the positions where the successive searches begin

## Main results

- `builtinSplit_iff` — when the builtin returns the parts of the string
-/

namespace Snix.Eval

-- ====================
-- Regular expressions
-- ====================

/-- A match, and where the groups of the expression matched. -/
structure Captures where
  start : ℕ
  stop : ℕ
  get : ℕ → Option (ℕ × ℕ)

/-- A compiled expression. Group 0 is the whole match. -/
structure Regex where
  numCaptures : ℕ
  capturesReadAt : Bytes → ℕ → Option Captures

def isCharBoundary (text : Bytes) (i : ℕ) : Bool :=
  i == 0 || i == text.length || text[i]?.any fun b => !isCont b

/-- A range of a text. -/
def Within (text : Bytes) (start stop : ℕ) : Prop :=
  start ≤ stop ∧ stop ≤ text.length ∧ isCharBoundary text start = true ∧
    isCharBoundary text stop = true

instance (text : Bytes) (start stop : ℕ) : Decidable (Within text start stop) :=
  inferInstanceAs (Decidable (_ ∧ _))

/-- The text of a range. -/
def range (text : Bytes) (start stop : ℕ) : Bytes := (text.drop start).take (stop - start)

/-- What a search in a text promises: a match at the position or after it, and ranges of the text
    for the match and its groups. -/
def Regex.SoundOn (re : Regex) (text : Bytes) : Prop :=
  ∀ pos m, Within text pos text.length → re.capturesReadAt text pos = some m →
    pos ≤ m.start ∧ Within text m.start m.stop ∧
      ∀ i r, m.get i = some r → Within text r.1 r.2

-- ====================
-- The builtin
-- ====================

def sliceText (text : Bytes) (start stop : ℕ) : Except Fault Bytes :=
  if Within text start stop then .ok (range text start stop) else .error .panic

/-- The characters of a capture group, without a context, or null where it did not match. -/
def captureValue (text : Bytes) : Option (ℕ × ℕ) → Except Fault Value
  | some (start, stop) => (sliceText text start stop).map fun b => .string (.plain b)
  | none => .ok .null

/-- What a match adds: the text before it, and its captures. -/
def splitRound (re : Regex) (s : NixString) (pos : ℕ) (m : Captures) : Except Fault (List Value) := do
  let unmatched ← sliceText s.contents pos m.start
  let captures ← ((List.range' 1 (re.numCaptures - 1)).map m.get).mapM (captureValue s.contents)
  .ok [.string ⟨unmatched, s.context⟩, .list captures]

/-- The text after the last match. -/
def splitEnd (text : Bytes) (pos : ℕ) (ret : List Value) : Except Fault Value :=
  (sliceText text pos text.length).map fun b => .list (ret ++ [.string (.plain b)])

/-- The loop. None if there are more rounds than the given number. -/
def splitLoop (re : Regex) (s : NixString) : ℕ → ℕ → List Value → Option (Except Fault Value)
  | 0, _, _ => none
  | n + 1, pos, ret =>
    match re.capturesReadAt s.contents pos with
    | none => some (splitEnd s.contents pos ret)
    | some m =>
      match splitRound re s pos m with
      | .error e => some (.error e)
      | .ok vs =>
        if pos = s.contents.length then some (splitEnd s.contents pos (ret ++ vs))
        else splitLoop re s n m.stop (ret ++ vs)

def builtinSplit (getRegex : Utf8 → Option Regex) (n : ℕ) (regex str : Value) :
    Option (Except Fault Value) :=
  if str.isCatchable then some (.ok str)
  else if regex.isCatchable then some (.ok regex)
  else
    let compiled : Except ErrorKind (NixString × Regex) := do
      let s ← str.toContextfulStr
      let _ ← s.asStr
      let re ← regex.toStr
      let pattern ← re.asStr
      match getRegex pattern with
      | some re => .ok (s, re)
      | none => .error (.invalidRegex pattern.val)
    match compiled with
    | .error e => some (.error (.error e))
    | .ok (s, re) => splitLoop re s n 0 []

-- ====================
-- Rounds
-- ====================

variable {re : Regex} {s : NixString} {text : Bytes} {pos n : ℕ} {m : Captures} {ret : List Value}

theorem sliceText_of_within {start stop : ℕ} (h : Within text start stop) :
    sliceText text start stop = .ok (range text start stop) := if_pos h

/-- The value for a group within the text. -/
def captureText (text : Bytes) : Option (ℕ × ℕ) → Value
  | some (start, stop) => .string (.plain (range text start stop))
  | none => .null

/-- The captures of a match. -/
def capturesOf (re : Regex) (text : Bytes) (m : Captures) : List Value :=
  ((List.range' 1 (re.numCaptures - 1)).map m.get).map (captureText text)

/-- A position where a search may begin. -/
def Position (text : Bytes) (pos : ℕ) : Prop := Within text pos text.length

theorem position_zero : Position text 0 :=
  ⟨Nat.zero_le _, Nat.le_refl _, rfl, by simp [isCharBoundary]⟩

/-- The next search begins at the position or after it. -/
theorem Position.next (hpos : Position text pos) (h : re.SoundOn text)
    (hm : re.capturesReadAt text pos = some m) : Position text m.stop ∧ pos ≤ m.stop := by
  obtain ⟨hstart, hwithin, -⟩ := h pos m hpos hm
  exact ⟨⟨hwithin.2.1, Nat.le_refl _, hwithin.2.2.2, hpos.2.2.2⟩, hstart.trans hwithin.1⟩

theorem splitEnd_eq (hpos : Position text pos) :
    splitEnd text pos ret = .ok (.list (ret ++ [.string (.plain (text.drop pos))])) := by
  have hrange : range text pos text.length = text.drop pos := by
    rw [range, List.take_of_length_le (by rw [List.length_drop])]
  rw [splitEnd, sliceText_of_within hpos, hrange]
  rfl

theorem splitRound_eq (hpos : Position s.contents pos) (h : re.SoundOn s.contents)
    (hm : re.capturesReadAt s.contents pos = some m) :
    splitRound re s pos m =
      .ok [.string ⟨range s.contents pos m.start, s.context⟩,
        .list (capturesOf re s.contents m)] := by
  obtain ⟨hstart, hwithin, hgroups⟩ := h pos m hpos hm
  have hbefore : Within s.contents pos m.start :=
    ⟨hstart, hwithin.1.trans hwithin.2.1, hpos.2.2.1, hwithin.2.2.1⟩
  have hcaptures : ∀ r ∈ (List.range' 1 (re.numCaptures - 1)).map m.get,
      captureValue s.contents r = .ok (captureText s.contents r) := by
    intro r hr
    obtain ⟨i, -, rfl⟩ := List.mem_map.mp hr
    cases hi : m.get i with
    | none => rfl
    | some r =>
      rw [captureValue, sliceText_of_within (hgroups i r hi)]
      rfl
  rw [splitRound, sliceText_of_within hbefore, mapM_eq_ok hcaptures]
  rfl

-- ====================
-- Runs
-- ====================

/-- What the matches add, each with the position its search began at. -/
def piecesList (re : Regex) (s : NixString) (pieces : List (ℕ × Captures)) : List Value :=
  pieces.flatMap fun p =>
    [.string ⟨range s.contents p.1 p.2.start, s.context⟩, .list (capturesOf re s.contents p.2)]

/-- The text before the matches, and the matches. -/
def piecesText (text : Bytes) (pieces : List (ℕ × Captures)) : Bytes :=
  pieces.flatMap fun p => range text p.1 p.2.start ++ range text p.2.start p.2.stop

/-- The builtin returns the text before each match and the captures of each match, and the text
    after the last match. Together with the matches that is the string. -/
def SplitsWhole (getRegex : Utf8 → Option Regex) (re : Regex) (pattern : Utf8) (s : NixString) :
    Prop :=
  ∃ n pieces last,
    builtinSplit getRegex n (.string (.plain pattern.val)) (.string s) =
      some (.ok (.list (piecesList re s pieces ++ [.string (.plain last)]))) ∧
    (∀ p ∈ pieces, re.capturesReadAt s.contents p.1 = some p.2) ∧
    piecesText s.contents pieces ++ last = s.contents

/-- The positions where the successive searches begin: the start of the text, and the end of each
    match. -/
inductive Searched (re : Regex) (text : Bytes) : ℕ → Prop
  | zero : Searched re text 0
  | next {pos : ℕ} {m : Captures} (h : Searched re text pos) (hpos : pos ≠ text.length)
    (hm : re.capturesReadAt text pos = some m) : Searched re text m.stop

/-- No search before the end of the text finds a match that ends where the search began. -/
def Progresses (re : Regex) (text : Bytes) : Prop :=
  ∀ pos m, Searched re text pos → pos ≠ text.length → re.capturesReadAt text pos = some m →
    m.stop ≠ pos

theorem Searched.position (h : re.SoundOn text) (hpos : Searched re text pos) :
    Position text pos := by
  induction hpos with
  | zero => exact position_zero
  | next _ _ hm ih => exact (ih.next h hm).1

theorem range_append {a b c : ℕ} (hab : a ≤ b) (hbc : b ≤ c) :
    range text a b ++ range text b c = range text a c := by
  unfold range
  have hsum : c - a = (b - a) + (c - b) := by omega
  have hdrop : text.drop b = (text.drop a).drop (b - a) := by
    rw [List.drop_drop]
    congr 1
    omega
  rw [hsum, List.take_add, hdrop]

theorem range_drop {a b : ℕ} (hab : a ≤ b) : range text a b ++ text.drop b = text.drop a := by
  have hdrop : text.drop b = (text.drop a).drop (b - a) := by
    rw [List.drop_drop]
    congr 1
    omega
  rw [range, hdrop, List.take_append_drop]

/-- The text of a piece, and what comes after it. -/
theorem piece_append (hpos : Position text pos) (h : re.SoundOn text)
    (hm : re.capturesReadAt text pos = some m) :
    range text pos m.start ++ range text m.start m.stop ++ text.drop m.stop = text.drop pos := by
  obtain ⟨hstart, hwithin, -⟩ := h pos m hpos hm
  rw [range_append hstart hwithin.1, range_drop (hstart.trans hwithin.1)]

theorem splitLoop_end (hpos : Position s.contents pos) (hm : re.capturesReadAt s.contents pos = none) :
    splitLoop re s (n + 1) pos ret =
      some (.ok (.list (ret ++ [.string (.plain (s.contents.drop pos))]))) := by
  rw [splitLoop, hm]
  exact congrArg some (splitEnd_eq hpos)

theorem splitLoop_some (hpos : Position s.contents pos) (h : re.SoundOn s.contents)
    (hm : re.capturesReadAt s.contents pos = some m) :
    splitLoop re s (n + 1) pos ret =
      if pos = s.contents.length then
        some (.ok (.list (ret ++ piecesList re s [(pos, m)] ++
          [.string (.plain (s.contents.drop pos))])))
      else splitLoop re s n m.stop (ret ++ piecesList re s [(pos, m)]) := by
  rw [splitLoop, hm]
  simp only [splitRound_eq hpos h hm, splitEnd_eq hpos]
  rfl

/-- Where every search makes progress, the loop ends. By induction on the length of the text that
    is left. -/
theorem exists_splitLoop (h : re.SoundOn s.contents) (hprog : Progresses re s.contents)
    (hpos : Searched re s.contents pos) :
    ∃ n pieces last,
      (∀ ret, splitLoop re s n pos ret =
        some (.ok (.list (ret ++ piecesList re s pieces ++ [.string (.plain last)])))) ∧
      (∀ p ∈ pieces, re.capturesReadAt s.contents p.1 = some p.2) ∧
      piecesText s.contents pieces ++ last = s.contents.drop pos := by
  have hp := hpos.position h
  induction hk : s.contents.length - pos using Nat.strongRecOn generalizing pos with
  | ind k ih =>
    cases hm : re.capturesReadAt s.contents pos with
    | none =>
      refine ⟨1, [], s.contents.drop pos, fun ret => ?_, fun p hp => absurd hp List.not_mem_nil, rfl⟩
      rw [splitLoop_end hp hm]
      simp [piecesList]
    | some m =>
      by_cases hend : pos = s.contents.length
      · refine ⟨1, [(pos, m)], s.contents.drop pos, fun ret => ?_, fun p hp => ?_, ?_⟩
        · rw [splitLoop_some hp h hm, if_pos hend]
        · rw [List.mem_singleton.mp hp]
          exact hm
        · have hnil : s.contents.drop pos = [] := List.drop_eq_nil_of_le hend.ge
          have hpiece := piece_append hp h hm
          rw [hnil, List.append_eq_nil_iff] at hpiece
          rw [hnil, List.append_nil, piecesText, List.flatMap_singleton]
          exact hpiece.1
      · have hnext := hp.next h hm
        have hne := hprog pos m hpos hend hm
        have hless : s.contents.length - m.stop < k := by
          have hle := hp.1
          omega
        obtain ⟨n, pieces, last, hloop, hpieces, htext⟩ :=
          ih _ hless (hpos.next hend hm) hnext.1 rfl
        refine ⟨n + 1, (pos, m) :: pieces, last, fun ret => ?_, fun p hp => ?_, ?_⟩
        · rw [splitLoop_some hp h hm, if_neg hend, hloop]
          simp [piecesList]
        · obtain rfl | hp := List.mem_cons.mp hp
          · exact hm
          · exact hpieces p hp
        · have hpiece := piece_append hp h hm
          rw [← htext] at hpiece
          rw [← hpiece, piecesText, List.flatMap_cons, piecesText]
          simp only [List.append_assoc]

/-- A search that ends where it began is made again and again. -/
theorem splitLoop_diverges (h : re.SoundOn s.contents) (hp : Position s.contents pos)
    (hend : pos ≠ s.contents.length) (hm : re.capturesReadAt s.contents pos = some m)
    (hstop : m.stop = pos) : splitLoop re s n pos ret = none := by
  induction n generalizing ret with
  | zero => rfl
  | succ n ih => rw [splitLoop_some hp h hm, if_neg hend, hstop, ih]

/-- So is one that is reached from the start. By induction on the searches before it. -/
theorem splitLoop_diverges_of_searched (h : re.SoundOn s.contents)
    (hpos : Searched re s.contents pos)
    (hloop : ∀ n ret, splitLoop re s n pos ret = none) : ∀ n, splitLoop re s n 0 [] = none := by
  induction hpos with
  | zero => exact fun n => hloop n []
  | next hpos hend hm ih =>
    refine ih fun n ret => ?_
    cases n with
    | zero => rfl
    | succ n => rw [splitLoop_some (hpos.position h) h hm, if_neg hend, hloop]

-- ====================
-- The builtin returns
-- ====================

theorem builtinSplit_eq {getRegex : Utf8 → Option Regex} {pattern : Utf8}
    (hre : getRegex pattern = some re) :
    builtinSplit getRegex n (.string (.plain pattern.val)) (.string s) =
      if utf8Valid s.contents = true then splitLoop re s n 0 [] else some (.error (.error .utf8)) := by
  have hpattern : NixString.asStr (.plain pattern.val) = .ok pattern := by
    rw [NixString.asStr, NixString.plain, Utf8.ofBytes?_val]
  have htoStr : (Value.string (.plain pattern.val)).toStr = .ok (.plain pattern.val) := rfl
  by_cases hs : utf8Valid s.contents = true
  · have hasStr : s.asStr = .ok ⟨s.contents, hs⟩ := by
      rw [NixString.asStr, Utf8.ofBytes?, dif_pos hs]
    rw [if_pos hs, builtinSplit]
    simp [Value.isCatchable, Value.toContextfulStr, hasStr, htoStr, hpattern, hre, bind, Except.bind]
  · have hasStr : s.asStr = .error .utf8 := by
      rw [NixString.asStr, Utf8.ofBytes?, dif_neg hs]
    rw [if_neg hs, builtinSplit]
    simp [Value.isCatchable, Value.toContextfulStr, hasStr, bind, Except.bind]

/-- A string is split without a loss if and only if it is UTF-8 and no search before its end finds
    a match that ends where the search began. -/
theorem builtinSplit_iff {getRegex : Utf8 → Option Regex} {pattern : Utf8}
    (hre : getRegex pattern = some re) (h : re.SoundOn s.contents) :
    SplitsWhole getRegex re pattern s ↔
      utf8Valid s.contents = true ∧ Progresses re s.contents := by
  constructor
  · rintro ⟨n, pieces, last, hrun, -, -⟩
    rw [builtinSplit_eq hre] at hrun
    by_cases hs : utf8Valid s.contents = true
    · rw [if_pos hs] at hrun
      refine ⟨hs, fun pos m hpos hend hm hstop => ?_⟩
      have hnone := splitLoop_diverges_of_searched h hpos
        (fun n ret => splitLoop_diverges h (hpos.position h) hend hm hstop) n
      rw [hnone] at hrun
      cases hrun
    · rw [if_neg hs] at hrun
      cases hrun
  · rintro ⟨hs, hprog⟩
    obtain ⟨n, pieces, last, hloop, hpieces, htext⟩ := exists_splitLoop h hprog .zero
    refine ⟨n, pieces, last, ?_, hpieces, htext⟩
    rw [builtinSplit_eq hre, if_pos hs, hloop, List.nil_append]

/-- The expression of a single letter: its first occurrence. -/
def letter (b : UInt8) : Regex where
  numCaptures := 1
  capturesReadAt text pos :=
    ((List.range text.length).find? fun i => decide (pos ≤ i) && text[i]? == some b).map
      fun i => ⟨i, i + 1, fun _ => none⟩

/-- The expression of a letter that is repeated: as many of it as there are. -/
def letterStar (b : UInt8) : Regex where
  numCaptures := 1
  capturesReadAt text pos :=
    some ⟨pos, pos + ((text.drop pos).takeWhile fun c => c == b).length, fun _ => none⟩

theorem letter_some {b : UInt8} (hm : (letter b).capturesReadAt text pos = some m) :
    pos ≤ m.start ∧ m.stop = m.start + 1 ∧ text[m.start]? = some b ∧ ∀ i, m.get i = none := by
  obtain ⟨i, hi, rfl⟩ := Option.map_eq_some_iff.mp hm
  have hfound := List.find?_some hi
  rw [Bool.and_eq_true_iff, decide_eq_true_eq, beq_iff_eq] at hfound
  exact ⟨hfound.1, rfl, hfound.2, fun _ => rfl⟩

/-- `a` in `bab`. -/
theorem builtinSplit_iff_letter :
    SplitsWhole (fun _ => some (letter 97)) (letter 97) ⟨[97], by decide⟩ ⟨[98, 97, 98], []⟩ := by
  refine (builtinSplit_iff rfl ?_).mpr ⟨by decide, ?_⟩
  · intro pos m _ hm
    obtain ⟨hstart, hstop, hbyte, hget⟩ := letter_some hm
    have hlt : m.start < 3 := (List.getElem?_eq_some_iff.mp hbyte).1
    have hone : m.start = 1 := by
      obtain h0 | h1 | h2 : m.start = 0 ∨ m.start = 1 ∨ m.start = 2 := by omega
      · rw [h0] at hbyte
        cases hbyte
      · exact h1
      · rw [h2] at hbyte
        cases hbyte
    rw [hstop, hone]
    refine ⟨hone ▸ hstart, by decide, fun i r hr => ?_⟩
    rw [hget] at hr
    cases hr
  · intro pos m _ _ hm hstop
    obtain ⟨hstart, hlast, -⟩ := letter_some hm
    omega

/-- `a*` in `b`: the empty match at the start is found again and again. -/
theorem builtinSplit_diverges :
    ¬SplitsWhole (fun _ => some (letterStar 97)) (letterStar 97) ⟨[97, 42], by decide⟩
      ⟨[98], []⟩ := by
  have hsound : (letterStar 97).SoundOn [98] := by
    intro pos m hpos hm
    have hle : pos ≤ 1 := hpos.1
    cases hm
    refine ⟨Nat.le_refl _, ?_, fun i r hr => by cases hr⟩
    obtain rfl | rfl : pos = 0 ∨ pos = 1 := by omega
    · decide
    · decide
  rintro ⟨n, pieces, last, hrun, -, -⟩
  rw [builtinSplit_eq rfl, if_pos (by decide),
    splitLoop_diverges hsound position_zero (by decide) rfl rfl] at hrun
  cases hrun

end Snix.Eval
