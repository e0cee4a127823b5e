import Snix.Eval.Value.Coerce

/-!
# Replacing strings

A string is scanned from left to right, and at each position the patterns are tried in their
order. A pattern that is empty matches everywhere, but does not move the position, so a flag
keeps it from being applied twice in a row.

## Main definitions

- `builtinReplaceStrings` — the builtin
- `matching`, `matchingText` — the first pair whose pattern is at a position, also without the
  empty patterns
- `Scans` — the scan of a string, with what is used of the replacements

## Main results

- `builtinReplaceStrings_scans` — the builtin returns what the scan gives
-/

namespace Snix.Eval

-- ====================
-- The builtin
-- ====================

/-- All elements are forced. An error among them is the result. -/
def forceAll (vm : Vm) : List Value → Except (Except Fault Value) (List Value)
  | [] => .ok []
  | v :: vs =>
    match v.force vm with
    | .error e => .error (.error (.error e))
    | .ok v => if v.isCatchable then .error (.ok v) else (forceAll vm vs).map (v :: ·)

/-- The first pair whose pattern is at the position. Empty patterns are skipped if one was
    applied there. -/
def findPair (string : Bytes) (i : ℕ) (emptyStringReplace : Bool) :
    List (Value × Value) → Except ErrorKind (Option (NixString × NixString))
  | [] => .ok none
  | elem :: pairs => do
    let fromStr ← elem.1.toContextfulStr
    let toStr ← elem.2.toContextfulStr
    if i + fromStr.contents.length > string.length then findPair string i emptyStringReplace pairs
    else if emptyStringReplace && fromStr.contents.isEmpty then
      findPair string i emptyStringReplace pairs
    else if (string.drop i).take fromStr.contents.length = fromStr.contents then .ok (some (fromStr, toStr))
    else findPair string i emptyStringReplace pairs

/-- The first pair with an empty pattern, for the end of the string. -/
def findEmpty : List (Value × Value) → Except ErrorKind (Option NixString)
  | [] => .ok none
  | elem :: pairs => do
    let fromStr ← elem.1.toContextfulStr
    let toStr ← elem.2.toContextfulStr
    if fromStr.contents.isEmpty then .ok (some toStr) else findEmpty pairs

/-- The variables of the loop. -/
structure Replacing where
  i : ℕ
  res : Bytes
  emptyStringReplace : Bool
  context : NixContext

/-- A replacement is put at the end. -/
def Replacing.apply (st : Replacing) (fromStr toStr : NixString) : Replacing where
  i := st.i + fromStr.contents.length
  res := st.res ++ toStr.contents
  emptyStringReplace := fromStr.contents.isEmpty
  context := st.context.extend toStr.context

/-- One byte is copied. -/
def Replacing.copy (st : Replacing) (string : Bytes) : Replacing where
  i := st.i + 1
  res := st.res ++ (string.drop st.i).take 1
  emptyStringReplace := false
  context := st.context

/-- The loop. None if there are more rounds than the given number. -/
def replaceLoop (pairs : List (Value × Value)) (string : Bytes) :
    ℕ → Replacing → Option (Except ErrorKind Replacing)
  | 0, _ => none
  | n + 1, st =>
    if st.i < string.length then
      match findPair string st.i st.emptyStringReplace pairs with
      | .error e => some (.error e)
      | .ok (some (fromStr, toStr)) => replaceLoop pairs string n (st.apply fromStr toStr)
      | .ok none => replaceLoop pairs string n (st.copy string)
    else some (.ok st)

/-- At the end of the string an empty pattern is applied once more. -/
def replaceEnd (pairs : List (Value × Value)) (st : Replacing) : Except ErrorKind Value := do
  match ← findEmpty pairs with
  | some toStr => .ok (.string ⟨st.res ++ toStr.contents, st.context.extend toStr.context⟩)
  | none => .ok (.string ⟨st.res, st.context⟩)

def replaceForced (pairs : List (Value × Value)) (n : ℕ) (s : Value) : Option (Except Fault Value) :=
  match s.toContextfulStr with
  | .error e => some (.error (.error e))
  | .ok string =>
    (replaceLoop pairs string.contents n ⟨0, [], false, NixContext.extend [] string.context⟩).map
      fun r => (r.bind (replaceEnd pairs)).mapError .error

def builtinReplaceStrings (vm : Vm) (n : ℕ) (froms tos s : Value) : Option (Except Fault Value) :=
  match froms.toList with
  | .error e => some (.error (.error e))
  | .ok froms =>
    match forceAll vm froms with
    | .error r => some r
    | .ok froms =>
      match tos.toList with
      | .error e => some (.error (.error e))
      | .ok tos =>
        match forceAll vm tos with
        | .error r => some r
        | .ok tos => replaceForced (froms.zip tos) n s

-- ====================
-- The scan
-- ====================

/-- Patterns with their replacements. -/
abbrev Pairs := List (NixString × NixString)

/-- The first pair whose pattern the text begins with. -/
def matching (pairs : Pairs) (rest : Bytes) : Option (NixString × NixString) :=
  pairs.find? fun p => p.1.contents.isPrefixOf rest

/-- The first pair whose pattern is not empty and is what the text begins with. -/
def matchingText (pairs : Pairs) (rest : Bytes) : Option (NixString × NixString) :=
  pairs.find? fun p => !p.1.contents.isEmpty && p.1.contents.isPrefixOf rest

/-- The first replacement of an empty pattern. -/
def emptyReplacement (pairs : Pairs) : Option NixString :=
  (pairs.find? fun p => p.1.contents.isEmpty).map Prod.snd

/-- The scan of a text: what it becomes, and the replacements that are used. Where an empty pattern
    is applied, the flag says whether a pattern that is not empty may be applied after it. -/
inductive Scans (again : Bool) (pairs : Pairs) : Bytes → Bytes → List NixString → Prop
  | done : Scans again pairs [] ((emptyReplacement pairs).elim [] NixString.contents)
      (emptyReplacement pairs).toList
  | copy {c : UInt8} {rest out : Bytes} {used : List NixString}
      (hnone : matching pairs (c :: rest) = none) (h : Scans again pairs rest out used) :
      Scans again pairs (c :: rest) (c :: out) used
  | replace {p : NixString × NixString} {rest out : Bytes} {used : List NixString}
      (hne : p.1.contents ≠ []) (hp : matching pairs (p.1.contents ++ rest) = some p)
      (h : Scans again pairs rest out used) :
      Scans again pairs (p.1.contents ++ rest) (p.2.contents ++ out) (p.2 :: used)
  | insertCopy {p : NixString × NixString} {c : UInt8} {rest out : Bytes} {used : List NixString}
      (hempty : p.1.contents = []) (hp : matching pairs (c :: rest) = some p)
      (hnone : again = true → matchingText pairs (c :: rest) = none)
      (h : Scans again pairs rest out used) :
      Scans again pairs (c :: rest) (p.2.contents ++ c :: out) (p.2 :: used)
  | insertReplace {p q : NixString × NixString} {rest out : Bytes} {used : List NixString}
      (hagain : again = true) (hempty : p.1.contents = [])
      (hp : matching pairs (q.1.contents ++ rest) = some p)
      (hq : matchingText pairs (q.1.contents ++ rest) = some q)
      (h : Scans again pairs rest out used) :
      Scans again pairs (q.1.contents ++ rest) (p.2.contents ++ q.2.contents ++ out)
        (p.2 :: q.2 :: used)

-- ====================
-- One round
-- ====================

variable {vm : Vm} {pairs : Pairs} {string : Bytes} {i n : ℕ} {flag : Bool} {st : Replacing}
  {f t : NixString} {out rest : Bytes} {used : List NixString} {p q : NixString × NixString}

@[simp] theorem apply_i : (st.apply f t).i = st.i + f.contents.length := rfl

@[simp] theorem apply_emptyStringReplace :
    (st.apply f t).emptyStringReplace = f.contents.isEmpty := rfl

@[simp] theorem copy_i : (st.copy string).i = st.i + 1 := rfl

/-- The pairs, as the values that the builtin has. -/
def valuesOf (pairs : Pairs) : List (Value × Value) :=
  pairs.map fun p => (.string p.1, .string p.2)

theorem isPrefixOf_iff_take {a b : Bytes} : a.isPrefixOf b = true ↔ b.take a.length = a := by
  rw [List.isPrefixOf_iff_prefix, List.prefix_iff_eq_take, eq_comm]

theorem findPair_values (hi : i ≤ string.length) :
    findPair string i flag (valuesOf pairs) =
      .ok (pairs.find? fun p =>
        !(flag && p.1.contents.isEmpty) && p.1.contents.isPrefixOf (string.drop i)) := by
  induction pairs with
  | nil => rfl
  | cons p pairs ih =>
    have hstep : findPair string i flag (valuesOf (p :: pairs)) =
        if i + p.1.contents.length > string.length then findPair string i flag (valuesOf pairs)
        else if flag && p.1.contents.isEmpty then findPair string i flag (valuesOf pairs)
        else if (string.drop i).take p.1.contents.length = p.1.contents then .ok (some p)
        else findPair string i flag (valuesOf pairs) := rfl
    rw [hstep, List.find?_cons, ih]
    by_cases hpre : (string.drop i).take p.1.contents.length = p.1.contents
    · have hlen := congrArg List.length hpre
      rw [List.length_take, List.length_drop] at hlen
      rw [isPrefixOf_iff_take.mpr hpre, if_neg (by omega), Bool.and_true]
      cases hskip : flag && p.1.contents.isEmpty with
      | true => rfl
      | false => exact if_pos hpre
    · have hnot : p.1.contents.isPrefixOf (string.drop i) = false :=
        Bool.eq_false_iff.mpr fun h => hpre (isPrefixOf_iff_take.mp h)
      rw [hnot, Bool.and_false, if_neg hpre, ite_self, ite_self]

theorem findPair_false (pairs : Pairs) (hi : i ≤ string.length) :
    findPair string i false (valuesOf pairs) = .ok (matching pairs (string.drop i)) := by
  rw [findPair_values hi]
  rfl

theorem findPair_true (pairs : Pairs) (hi : i ≤ string.length) :
    findPair string i true (valuesOf pairs) = .ok (matchingText pairs (string.drop i)) := by
  rw [findPair_values hi]
  rfl

theorem findEmpty_values : findEmpty (valuesOf pairs) = .ok (emptyReplacement pairs) := by
  induction pairs with
  | nil => rfl
  | cons p pairs ih =>
    have hstep : findEmpty (valuesOf (p :: pairs)) =
        if p.1.contents.isEmpty then .ok (some p.2) else findEmpty (valuesOf pairs) := rfl
    rw [hstep, ih, emptyReplacement, emptyReplacement, List.find?_cons]
    cases p.1.contents.isEmpty <;> rfl

-- ====================
-- Runs
-- ====================

/-- From a state on, the loop ends and puts a text behind the result, with the contexts of the
    replacements that are used. -/
def Finishes (pairs : Pairs) (string : Bytes) (st : Replacing) (out : Bytes)
    (used : List NixString) : Prop :=
  ∃ n st' context, replaceLoop (valuesOf pairs) string n st = some (.ok st') ∧
    replaceEnd (valuesOf pairs) st' = .ok (.string ⟨st.res ++ out, context⟩) ∧
    ∀ e, e ∈ context ↔ e ∈ st.context ∨ ∃ t ∈ used, e ∈ t.context

theorem finishes_done (h : string.length ≤ st.i) :
    Finishes pairs string st ((emptyReplacement pairs).elim [] NixString.contents)
      (emptyReplacement pairs).toList := by
  have hloop : replaceLoop (valuesOf pairs) string 1 st = some (.ok st) := if_neg (Nat.not_lt.mpr h)
  cases hempty : emptyReplacement pairs with
  | none =>
    refine ⟨1, st, st.context, hloop, ?_, fun e => by simp⟩
    rw [replaceEnd, findEmpty_values, hempty, Option.elim_none, List.append_nil]
    rfl
  | some t =>
    refine ⟨1, st, st.context.extend t.context, hloop, ?_, fun e => by simp [mem_extend]⟩
    rw [replaceEnd, findEmpty_values, hempty]
    rfl

theorem finishes_apply (hi : st.i < string.length)
    (hfind : findPair string st.i st.emptyStringReplace (valuesOf pairs) = .ok (some (f, t)))
    (h : Finishes pairs string (st.apply f t) out used) :
    Finishes pairs string st (t.contents ++ out) (t :: used) := by
  obtain ⟨n, st', context, hloop, hend, hmem⟩ := h
  refine ⟨n + 1, st', context, ?_, ?_, fun e => ?_⟩
  · rw [replaceLoop, if_pos hi, hfind]
    exact hloop
  · rw [hend, Replacing.apply, List.append_assoc]
  · rw [hmem, Replacing.apply, mem_extend, List.exists_mem_cons_iff, or_assoc]

theorem finishes_copy {c : UInt8} (hdrop : string.drop st.i = c :: rest)
    (hfind : findPair string st.i st.emptyStringReplace (valuesOf pairs) = .ok none)
    (h : Finishes pairs string (st.copy string) out used) :
    Finishes pairs string st (c :: out) used := by
  obtain ⟨n, st', context, hloop, hend, hmem⟩ := h
  have hi : st.i < string.length := by
    by_contra hge
    rw [List.drop_eq_nil_of_le (Nat.not_lt.mp hge)] at hdrop
    cases hdrop
  refine ⟨n + 1, st', context, ?_, ?_, hmem⟩
  · rw [replaceLoop, if_pos hi, hfind]
    exact hloop
  · rw [hend, Replacing.copy, hdrop, List.append_assoc]
    rfl

/-- What follows a pattern. -/
theorem drop_of_isPrefixOf (hpre : p.1.contents.isPrefixOf (string.drop i) = true) :
    ∃ rest, string.drop i = p.1.contents ++ rest ∧
      string.drop (i + p.1.contents.length) = rest := by
  obtain ⟨rest, hrest⟩ := List.isPrefixOf_iff_prefix.mp hpre
  refine ⟨rest, hrest.symm, ?_⟩
  rw [← List.drop_drop, ← hrest, List.drop_left]

/-- A pattern that is not empty moves the position, but not past the end. -/
theorem apply_moves (hpre : p.1.contents.isPrefixOf (string.drop st.i) = true)
    (hi : st.i ≤ string.length) (hne : p.1.contents ≠ []) :
    st.i < (st.apply p.1 p.2).i ∧ (st.apply p.1 p.2).i ≤ string.length ∧
      (st.apply p.1 p.2).emptyStringReplace = false := by
  obtain ⟨rest, hrest, -⟩ := drop_of_isPrefixOf hpre
  have hlen := congrArg List.length hrest
  rw [List.length_drop, List.length_append] at hlen
  have hpos := List.length_pos_of_ne_nil hne
  refine ⟨Nat.lt_add_of_pos_right hpos, ?_, List.isEmpty_eq_false_iff.mpr hne⟩
  rw [apply_i]
  omega

theorem isPrefixOf_of_matching (h : matching pairs rest = some p) :
    p.1.contents.isPrefixOf rest = true := by
  have hfound := List.find?_some h
  exact hfound

theorem isPrefixOf_of_matchingText (h : matchingText pairs rest = some p) :
    p.1.contents ≠ [] ∧ p.1.contents.isPrefixOf rest = true := by
  have hfound := List.find?_some h
  rw [Bool.and_eq_true_iff, Bool.not_eq_true', List.isEmpty_eq_false_iff] at hfound
  exact hfound

theorem lt_of_drop {c : UInt8} (h : string.drop i = c :: rest) : i < string.length := by
  by_contra hge
  rw [List.drop_eq_nil_of_le (Nat.not_lt.mp hge)] at h
  cases h

theorem drop_succ {c : UInt8} (h : string.drop i = c :: rest) : string.drop (i + 1) = rest := by
  rw [← List.drop_drop, h, List.drop_one, List.tail_cons]

/-- From a state on, the loop ends with what the scan gives. -/
def Scanned (pairs : Pairs) (string : Bytes) (st : Replacing) : Prop :=
  ∃ out used, Finishes pairs string st out used ∧ Scans true pairs (string.drop st.i) out used

/-- After an empty pattern, a pattern that is not empty is applied, or a byte is copied. -/
theorem exists_finishes_again {c : UInt8} (hflag : st.emptyStringReplace = true)
    (hdrop : string.drop st.i = c :: rest) (hp : matching pairs (c :: rest) = some p)
    (hempty : p.1.contents = [])
    (ih : ∀ st' : Replacing, st.i < st'.i → st'.i ≤ string.length → st'.emptyStringReplace = false →
      Scanned pairs string st') :
    ∃ out used, Finishes pairs string st out used ∧
      Scans true pairs (c :: rest) (p.2.contents ++ out) (p.2 :: used) := by
  have hlt := lt_of_drop hdrop
  have hfind := findPair_true pairs hlt.le
  rw [← hflag, hdrop] at hfind
  cases hq : matchingText pairs (c :: rest) with
  | none =>
    rw [hq] at hfind
    obtain ⟨out, used, hfin, hscan⟩ := ih (st.copy string) (Nat.lt_succ_self _) hlt rfl
    rw [copy_i, drop_succ hdrop] at hscan
    exact ⟨_, _, finishes_copy hdrop hfind hfin, .insertCopy hempty hp (fun _ => hq) hscan⟩
  | some q =>
    rw [hq] at hfind
    obtain ⟨hne, hpre⟩ := isPrefixOf_of_matchingText hq
    rw [← hdrop] at hpre hp hq ⊢
    obtain ⟨hless, hle, hfalse⟩ := apply_moves hpre hlt.le hne
    obtain ⟨rest', hrest, hafter⟩ := drop_of_isPrefixOf hpre
    obtain ⟨out, used, hfin, hscan⟩ := ih (st.apply q.1 q.2) hless hle hfalse
    rw [apply_i, hafter] at hscan
    rw [hrest] at hp hq ⊢
    refine ⟨_, _, finishes_apply hlt hfind hfin, ?_⟩
    rw [← List.append_assoc]
    exact .insertReplace rfl hempty hp hq hscan

/-- Where no empty pattern was just applied, the loop does what the scan does. By induction on the
    length of the text that is left. -/
theorem exists_finishes (hi : st.i ≤ string.length) (hflag : st.emptyStringReplace = false) :
    Scanned pairs string st := by
  induction hk : string.length - st.i using Nat.strongRecOn generalizing st with
  | ind k ih =>
    have hlater : ∀ st' : Replacing, st.i < st'.i → st'.i ≤ string.length →
        st'.emptyStringReplace = false → Scanned pairs string st' :=
      fun st' hless hle hfalse => ih _ (by omega) hle hfalse rfl
    have hfind := findPair_false pairs hi
    rw [← hflag] at hfind
    unfold Scanned
    cases hdrop : string.drop st.i with
    | nil => exact ⟨_, _, finishes_done (List.drop_eq_nil_iff.mp hdrop), .done⟩
    | cons c rest =>
      have hlt := lt_of_drop hdrop
      rw [hdrop] at hfind
      cases hm : matching pairs (c :: rest) with
      | none =>
        rw [hm] at hfind
        obtain ⟨out, used, hfin, hscan⟩ := hlater (st.copy string) (Nat.lt_succ_self _) hlt rfl
        rw [copy_i, drop_succ hdrop] at hscan
        exact ⟨_, _, finishes_copy hdrop hfind hfin, .copy hm hscan⟩
      | some p =>
        rw [hm] at hfind
        have hpre := isPrefixOf_of_matching hm
        by_cases hempty : p.1.contents = []
        · -- the empty pattern leaves the position where it is
          have hstay : (st.apply p.1 p.2).i = st.i := by
            rw [apply_i, hempty, List.length_nil, Nat.add_zero]
          have htrue : (st.apply p.1 p.2).emptyStringReplace = true := by
            rw [apply_emptyStringReplace, hempty, List.isEmpty_nil]
          rw [← hstay] at hdrop hlater
          obtain ⟨out, used, hfin, hscan⟩ := exists_finishes_again htrue hdrop hm hempty hlater
          exact ⟨_, _, finishes_apply hlt hfind hfin, hscan⟩
        · rw [← hdrop] at hpre hm ⊢
          obtain ⟨hless, hle, hfalse⟩ := apply_moves hpre hi hempty
          obtain ⟨rest', hrest, hafter⟩ := drop_of_isPrefixOf hpre
          obtain ⟨out, used, hfin, hscan⟩ := hlater (st.apply p.1 p.2) hless hle hfalse
          rw [apply_i, hafter] at hscan
          rw [hrest] at hm ⊢
          exact ⟨_, _, finishes_apply hlt hfind hfin, .replace hempty hm hscan⟩

-- ====================
-- The builtin scans
-- ====================

theorem forceAll_strings {vs : List Value} {ss : List NixString}
    (h : List.Forall₂ (fun v s => v.force vm = .ok (.string s)) vs ss) :
    forceAll vm vs = .ok (ss.map .string) := by
  induction h with
  | nil => rfl
  | cons hv _ ih =>
    rw [forceAll, hv, ih]
    rfl

theorem zip_strings (fs ts : List NixString) :
    (fs.map Value.string).zip (ts.map Value.string) = valuesOf (fs.zip ts) := by
  rw [valuesOf, List.zip_map]
  rfl

/-- For lists of strings the builtin returns what the scan gives. What the result depends on is what
    the string depends on, and what the replacements that are used depend on. -/
theorem builtinReplaceStrings_scans {froms tos : List Value} {fs ts : List NixString}
    (hf : List.Forall₂ (fun v s => v.force vm = .ok (.string s)) froms fs)
    (ht : List.Forall₂ (fun v s => v.force vm = .ok (.string s)) tos ts) (s : NixString) :
    ∃ n r used, builtinReplaceStrings vm n (.list froms) (.list tos) (.string s) =
        some (.ok (.string r)) ∧
      Scans true (fs.zip ts) s.contents r.contents used ∧
      ∀ e, e ∈ r.context ↔ e ∈ s.context ∨ ∃ t ∈ used, e ∈ t.context := by
  obtain ⟨out, used, ⟨n, st', context, hloop, hend, hmem⟩, hscan⟩ :=
    @exists_finishes (fs.zip ts) s.contents ⟨0, [], false, NixContext.extend [] s.context⟩
      (Nat.zero_le _) rfl
  refine ⟨n, ⟨out, context⟩, used, ?_, hscan, fun e => ?_⟩
  · have hto : (Value.list froms).toList = .ok froms ∧ (Value.list tos).toList = .ok tos :=
      ⟨rfl, rfl⟩
    simp only [builtinReplaceStrings, hto.1, hto.2, forceAll_strings hf, forceAll_strings ht,
      zip_strings, replaceForced, Value.toContextfulStr, hloop, Option.map_some]
    have hresult : (Except.bind (.ok st') (replaceEnd (valuesOf (fs.zip ts)))).mapError Fault.error =
        .ok (.string ⟨out, context⟩) := by
      change (replaceEnd (valuesOf (fs.zip ts)) st').mapError Fault.error = _
      rw [hend]
      rfl
    exact congrArg some hresult
  · rw [hmem, mem_extend, or_iff_right List.not_mem_nil]

/-- An empty pattern before a letter. -/
def insertBefore : Pairs := [(.plain [], .plain [88]), (.plain [97], .plain [89])]

/-- The replacements `X` and `Y` for the patterns that are empty and `a`, in `ab`. -/
theorem builtinReplaceStrings_scans_insert :
    ∃ n r used, builtinReplaceStrings idleVm n (.list [.string (.plain []), .string (.plain [97])])
        (.list [.string (.plain [88]), .string (.plain [89])]) (.string (.plain [97, 98])) =
        some (.ok (.string r)) ∧
      Scans true insertBefore [97, 98] r.contents used ∧
      ∀ e, e ∈ r.context ↔ e ∈ (NixString.plain [97, 98]).context ∨ ∃ t ∈ used, e ∈ t.context :=
  builtinReplaceStrings_scans (.cons rfl (.cons rfl .nil)) (.cons rfl (.cons rfl .nil)) _

theorem scans_insertBefore {text : Bytes} (h : Scans false insertBefore text out used) :
    (text = [] → out = [88]) ∧ (text = [97] → out = [88, 97, 88]) := by
  have hone : matching insertBefore [97] = some (.plain [], .plain [88]) := rfl
  induction h with
  | done => exact ⟨fun _ => rfl, fun h => by cases h⟩
  | copy hnone =>
    refine ⟨fun h => absurd h (List.cons_ne_nil _ _), fun h => ?_⟩
    rw [h, hone] at hnone
    cases hnone
  | replace hne hp =>
    refine ⟨fun h => absurd (List.append_eq_nil_iff.mp h).1 hne, fun h => ?_⟩
    rw [h, hone] at hp
    cases hp
    exact absurd rfl hne
  | insertCopy hempty hp hnone h ih =>
    refine ⟨fun h => absurd h (List.cons_ne_nil _ _), fun h => ?_⟩
    rw [h, hone] at hp
    cases hp
    cases h
    rw [ih.1 rfl]
    rfl
  | insertReplace hagain => cases hagain

/-- The letter is replaced after the empty pattern was applied before it, and not copied. -/
theorem builtinReplaceStrings_again :
    ¬∃ n r used, builtinReplaceStrings idleVm n (.list [.string (.plain []), .string (.plain [97])])
        (.list [.string (.plain [88]), .string (.plain [89])]) (.string (.plain [97])) =
        some (.ok (.string r)) ∧
      Scans false insertBefore [97] r.contents used := by
  rintro ⟨n, r, used, hrun, hscan⟩
  have hcontents := (scans_insertBefore hscan).2 rfl
  obtain _ | _ | _ | n := n
  · cases hrun
  · cases hrun
  · cases hrun
  · cases hrun
    cases hcontents

end Snix.Eval
