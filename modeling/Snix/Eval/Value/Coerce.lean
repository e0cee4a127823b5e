import Snix.Eval.Value.Attrs
import Snix.Lib.Text

/-!
# Coercion to strings

Values are turned into strings one after the other from a stack, and what is in a list or
behind an attribute goes back on the stack. A flag says whether the next string is the first
one of a list: there is no flag before the first list was met, and one flag for all lists that
are in it.

## Main definitions

- `coerceStep`, `coerceToString` — one value of the stack, and the loop
- `Leaves` — the strings that a value is made of
- `Weak` — the values that are a string or a path, or lead to one

## Main results

- `coerceToString_strong` — the leaves with a space between them, and what they depend on
- `coerceToString_weak_iff` — what a weak coercion accepts
- `coerceToString_leaves` — both of these
-/

namespace Snix.Eval

/-- The key `__toString`. -/
def TO_STRING : NixString := .plain [95, 95, 116, 111, 83, 116, 114, 105, 110, 103]

/-- The key `outPath`. -/
def OUT_PATH : NixString := .plain [111, 117, 116, 80, 97, 116, 104]

-- ====================
-- Text that is no text
-- ====================

/-- Whether there is a character at the front, and how many bytes it takes. Where there is none,
    the number of bytes that begin one but do not go on, or else a single byte. -/
def utf8Front : Bytes → Bool × ℕ
  | [] => (true, 0)
  | b :: rest =>
    if b ≤ 0x7F then (true, 1)
    else if 0xC2 ≤ b && b ≤ 0xDF then
      match rest with
      | c :: _ => if isCont c then (true, 2) else (false, 1)
      | [] => (false, 1)
    else if 0xE0 ≤ b && b ≤ 0xEF then
      match rest with
      | c :: rest =>
        if (if b = 0xE0 then 0xA0 ≤ c && c ≤ 0xBF
          else if b = 0xED then 0x80 ≤ c && c ≤ 0x9F
          else isCont c) then
          match rest with
          | d :: _ => if isCont d then (true, 3) else (false, 2)
          | [] => (false, 2)
        else (false, 1)
      | [] => (false, 1)
    else if 0xF0 ≤ b && b ≤ 0xF4 then
      match rest with
      | c :: rest =>
        if (if b = 0xF0 then 0x90 ≤ c && c ≤ 0xBF
          else if b = 0xF4 then 0x80 ≤ c && c ≤ 0x8F
          else isCont c) then
          match rest with
          | d :: rest =>
            if isCont d then
              match rest with
              | e :: _ => if isCont e then (true, 4) else (false, 3)
              | [] => (false, 3)
            else (false, 2)
          | [] => (false, 2)
        else (false, 1)
      | [] => (false, 1)
    else (false, 1)

/-- At most that many pieces, where those that are no characters are replaced. -/
def lossyPieces : ℕ → Bytes → Bytes
  | 0, _ => []
  | n + 1, b =>
    match utf8Front b with
    | (_, 0) => []
    | (true, k) => b.take k ++ lossyPieces n (b.drop k)
    | (false, k) => [0xEF, 0xBF, 0xBD] ++ lossyPieces n (b.drop k)

def toStringLossy (b : Bytes) : Bytes := lossyPieces b.length b

theorem utf8Front_length {b : Bytes} (h : b ≠ []) :
    0 < (utf8Front b).2 ∧ (utf8Front b).2 ≤ b.length := by
  fun_cases utf8Front b <;> simp_all

theorem le_of_isCont {y : UInt8} (h : isCont y = true) : 0x80 ≤ y := by
  unfold isCont at h
  exact of_decide_eq_true (Bool.and_eq_true_iff.mp h).1

/-- Also where a byte must be in a smaller range, it is at least that. -/
theorem le_of_range {p q : Prop} [Decidable p] [Decidable q] {u v w z y : UInt8} (hu : 0x80 ≤ u)
    (hw : 0x80 ≤ w)
    (h : (if p then u ≤ y && y ≤ v else if q then w ≤ y && y ≤ z else isCont y) = true) :
    0x80 ≤ y := by
  split_ifs at h
  · exact UInt8.le_trans hu (of_decide_eq_true (Bool.and_eq_true_iff.mp h).1)
  · exact UInt8.le_trans hw (of_decide_eq_true (Bool.and_eq_true_iff.mp h).1)
  · exact le_of_isCont h

theorem le_of_not_ascii {y : UInt8} (h : ¬y ≤ 0x7F) : 0x80 ≤ y := by
  rw [UInt8.le_iff_toNat_le] at h ⊢
  exact Nat.not_le.mp h

/-- What is at the front takes one byte, or it has no ASCII in it. -/
theorem utf8Front_high (b : Bytes) :
    utf8Front b = (true, 1) ∨ ∀ y ∈ b.take (utf8Front b).2, 0x80 ≤ y := by
  fun_cases utf8Front b
  case case2 => exact .inl rfl
  all_goals
    refine .inr ?_
    simp only [List.take_zero, List.take_succ_cons, List.take_nil, List.forall_mem_cons,
      List.not_mem_nil, false_imp_iff, implies_true, and_true]
    repeat' apply And.intro
  all_goals
    first
    | exact le_of_not_ascii ‹_›
    | exact le_of_isCont ‹_›
    | refine le_of_range ?_ ?_ (by assumption) <;> decide

/-- In UTF-8 there is a character at the front, and UTF-8 after it. -/
theorem utf8Front_of_valid {b : Bytes} (hne : b ≠ []) (h : utf8Valid b = true) :
    ∃ k, utf8Front b = (true, k) ∧ utf8Valid (b.drop k) = true ∧
      (k = 1 ∨ ∀ y ∈ b.take k, 0x80 ≤ y) := by
  induction b using utf8Valid.induct with
  | case1 => exact absurd rfl hne
  | case2 b rest hb _ =>
    unfold utf8Valid at h
    simp only [if_pos hb] at h
    exact ⟨1, by simp [utf8Front, hb], h, .inl rfl⟩
  | case3 b hb htwo c rest _ =>
    unfold utf8Valid at h
    simp only [if_neg hb, if_pos htwo] at h
    obtain ⟨hc, hrest⟩ := Bool.and_eq_true_iff.mp h
    refine ⟨2, ?_, hrest, .inr ?_⟩
    · unfold utf8Front
      simp only [if_neg hb, if_pos htwo, if_pos hc]
    · simp [le_of_not_ascii hb, le_of_isCont hc]
  | case5 b hb htwo hthree c d rest _ =>
    unfold utf8Valid at h
    simp only [if_neg hb, if_neg htwo, if_pos hthree] at h
    obtain ⟨hcd, hrest⟩ := Bool.and_eq_true_iff.mp h
    obtain ⟨hc, hd⟩ := Bool.and_eq_true_iff.mp hcd
    refine ⟨3, ?_, hrest, .inr ?_⟩
    · unfold utf8Front
      simp only [if_neg hb, if_neg htwo, if_pos hthree, if_pos hc, if_pos hd]
    · simp [le_of_not_ascii hb, le_of_range (by decide) (by decide) hc, le_of_isCont hd]
  | case7 b hb htwo hthree hfour c d e rest _ =>
    unfold utf8Valid at h
    simp only [if_neg hb, if_neg htwo, if_neg hthree, if_pos hfour] at h
    obtain ⟨hcde, hrest⟩ := Bool.and_eq_true_iff.mp h
    obtain ⟨hcd, he⟩ := Bool.and_eq_true_iff.mp hcde
    obtain ⟨hc, hd⟩ := Bool.and_eq_true_iff.mp hcd
    refine ⟨4, ?_, hrest, .inr ?_⟩
    · unfold utf8Front
      simp only [if_neg hb, if_neg htwo, if_neg hthree, if_pos hfour, if_pos hc, if_pos hd, if_pos he]
    · simp [le_of_not_ascii hb, le_of_range (by decide) (by decide) hc, le_of_isCont hd,
        le_of_isCont he]
  | case4 b rest hb htwo hcut =>
    unfold utf8Valid at h
    simp only [if_neg hb, if_pos htwo] at h
    cases h
  | case6 b rest hb htwo hthree hcut =>
    unfold utf8Valid at h
    simp only [if_neg hb, if_neg htwo, if_pos hthree] at h
    cases h
  | case8 b rest hb htwo hthree hfour hcut =>
    unfold utf8Valid at h
    simp only [if_neg hb, if_neg htwo, if_neg hthree, if_pos hfour] at h
    cases h
  | case9 b rest hb htwo hthree hfour =>
    unfold utf8Valid at h
    simp only [if_neg hb, if_neg htwo, if_neg hthree, if_neg hfour] at h
    cases h
/-- UTF-8 is left as it is. By induction on the number of pieces. -/
theorem lossyPieces_of_valid {n : ℕ} {b : Bytes} (hn : b.length ≤ n) (h : utf8Valid b = true) :
    lossyPieces n b = b := by
  induction n generalizing b with
  | zero => exact (List.length_eq_zero_iff.mp (Nat.le_zero.mp hn)).symm
  | succ n ih =>
    by_cases hne : b = []
    · rw [hne]
      rfl
    · obtain ⟨k, hk, hrest, -⟩ := utf8Front_of_valid hne h
      have hlen := utf8Front_length hne
      rw [hk] at hlen
      have hdrop : (b.drop k).length ≤ n := by
        rw [List.length_drop]
        omega
      obtain _ | k := k
      · exact absurd hlen.1 (Nat.lt_irrefl 0)
      · simp only [lossyPieces, hk]
        rw [ih hdrop hrest]
        exact List.take_append_drop _ _

theorem toStringLossy_of_valid {b : Bytes} (h : utf8Valid b = true) : toStringLossy b = b :=
  lossyPieces_of_valid (Nat.le_refl _) h

-- ====================
-- Coercions
-- ====================

namespace NixContext

def append (context : NixContext) (e : NixContextElement) : NixContext :=
  if e ∈ context then context else context ++ [e]

def extend (context : NixContext) (elements : List NixContextElement) : NixContext :=
  elements.foldl append context

end NixContext

/-- The decimal notation of an integer. -/
def Value.formatInteger (i : Int) : Bytes :=
  if i < 0 then 45 :: decimal i.natAbs else decimal i.natAbs

/-- The variables of the loop. The first value is the one on top of the stack. -/
structure Coercion where
  vals : List Value
  isListHead : Option Bool
  context : NixContext
  result : Bytes

/-- How a round of the loop ends. -/
inductive CoercionRound where
  | again (s : Coercion)
  | done (r : Except Fault Value)

/-- The string of one value is put at the end. -/
def Coercion.emit (s : Coercion) (elements : List NixContextElement) (coerced : Bytes) : Coercion :=
  { s with
    isListHead := s.isListHead.map fun _ => false
    context := s.context.extend elements
    result := s.result ++ (if s.isListHead = some false then [32] else []) ++ coerced }

/-- A value that was taken from the stack and forced. -/
def coerceStep (vm : Vm) (kind : CoercionKind) (s : Coercion) : Value → CoercionRound
  | .string str => .again (s.emit str.context str.contents)
  | .path p =>
    if kind.importPaths then
      match vm.pathImport p with
      | .error e => .done (.error (.error e))
      | .ok imported => .again (s.emit [.plain (toStringLossy imported)] imported)
    else .again (s.emit [] p)
  | .attrs attrs =>
    match attrs.select TO_STRING.contents with
    | some toString =>
      match toString.force vm with
      | .error e => .done (.error (.error e))
      | .ok callable =>
        match vm.call callable (.attrs attrs) with
        | .error e => .done (.error (.error e))
        | .ok result => .again { s with vals := result :: s.vals }
    | none =>
      match attrs.select OUT_PATH.contents with
      | some outPath => .again { s with vals := outPath :: s.vals }
      | none => .done (.error (.error (.notCoercibleToString "set" kind)))
  | .null =>
    if kind.strong then .again (s.emit [] [])
    else .done (.error (.error (.notCoercibleToString "null" kind)))
  | .bool b =>
    if kind.strong then .again (s.emit [] (if b then [49] else []))
    else .done (.error (.error (.notCoercibleToString "bool" kind)))
  | .integer i =>
    if kind.strong then .again (s.emit [] (Value.formatInteger i))
    else .done (.error (.error (.notCoercibleToString "int" kind)))
  | .float f =>
    if kind.strong then .again (s.emit [] (vm.formatFloat f))
    else .done (.error (.error (.notCoercibleToString "float" kind)))
  | .list list =>
    if kind.strong then
      .again { s with
        vals := list ++ s.vals
        isListHead := if s.isListHead.isNone then some true else s.isListHead }
    else .done (.error (.error (.notCoercibleToString "list" kind)))
  | .closure _ | .builtin _ => .done (.error (.error (.notCoercibleToString "lambda" kind)))
  | .catchable c => .done (.ok (.catchable c))
  -- a thunk was not forced, or the value is one that the language does not show
  | _ => .done (.error .panic)

/-- The loop. None if there are more values than the given number. -/
def coerceLoop (vm : Vm) (kind : CoercionKind) : ℕ → Coercion → Option (Except Fault Value)
  | 0, _ => none
  | n + 1, s =>
    match s.vals with
    | [] => some (.ok (.string ⟨s.result, s.context⟩))
    | v :: vals =>
      match v.force vm with
      | .error e => some (.error (.error e))
      | .ok value =>
        match coerceStep vm kind { s with vals := vals } value with
        | .again s => coerceLoop vm kind n s
        | .done r => some r

def coerceToString (vm : Vm) (n : ℕ) (kind : CoercionKind) (v : Value) :
    Option (Except Fault Value) :=
  coerceLoop vm kind n ⟨[v], none, [], []⟩

-- ====================
-- Leaves
-- ====================

/-- The string of a value that is neither a list nor an attribute set. -/
structure Leaf where
  contents : Bytes
  context : List NixContextElement

variable {vm : Vm} {importPaths : Bool} {v : Value} {vs : List Value} {leaf : Leaf}
  {ls : List Leaf}

/-- What a value that was forced stands for by itself. -/
inductive LeafOf (vm : Vm) : Bool → Value → Leaf → Prop
  | string (importPaths : Bool) (s : NixString) :
    LeafOf vm importPaths (.string s) ⟨s.contents, s.context⟩
  | path (p : Bytes) : LeafOf vm false (.path p) ⟨p, []⟩
  | imported (p imported : Bytes) (h : vm.pathImport p = .ok imported) :
    LeafOf vm true (.path p) ⟨imported, [.plain (toStringLossy imported)]⟩
  | null (importPaths : Bool) : LeafOf vm importPaths .null ⟨[], []⟩
  | bool (importPaths : Bool) (b : Bool) :
    LeafOf vm importPaths (.bool b) ⟨if b then [49] else [], []⟩
  | integer (importPaths : Bool) (i : Int) :
    LeafOf vm importPaths (.integer i) ⟨Value.formatInteger i, []⟩

mutual

/-- The strings that a value is made of, from left to right. -/
inductive Leaves (vm : Vm) (importPaths : Bool) : Value → List Leaf → Prop
  | leaf {v w : Value} {leaf : Leaf} (hv : v.force vm = .ok w) (h : LeafOf vm importPaths w leaf) :
    Leaves vm importPaths v [leaf]
  | list {v : Value} {vs : List Value} {ls : List Leaf} (hv : v.force vm = .ok (.list vs))
    (h : LeavesAll vm importPaths vs ls) : Leaves vm importPaths v ls
  | outPath {v outPath : Value} {attrs : AttrsRep Value} {ls : List Leaf}
    (hv : v.force vm = .ok (.attrs attrs)) (hcall : attrs.select TO_STRING.contents = none)
    (hpath : attrs.select OUT_PATH.contents = some outPath)
    (h : Leaves vm importPaths outPath ls) : Leaves vm importPaths v ls

/-- The strings that the values of a list are made of. -/
inductive LeavesAll (vm : Vm) (importPaths : Bool) : List Value → List Leaf → Prop
  | nil : LeavesAll vm importPaths [] []
  | cons {v : Value} {vs : List Value} {ls ls' : List Leaf} (h : Leaves vm importPaths v ls)
    (hs : LeavesAll vm importPaths vs ls') : LeavesAll vm importPaths (v :: vs) (ls ++ ls')

end

/-- A string or a path, or an attribute set that leads to one. -/
inductive Weak (vm : Vm) : Value → Prop
  | string {v : Value} (s : NixString) (hv : v.force vm = .ok (.string s)) : Weak vm v
  | path {v : Value} (p : Bytes) (hv : v.force vm = .ok (.path p)) : Weak vm v
  | outPath {v outPath : Value} {attrs : AttrsRep Value} (hv : v.force vm = .ok (.attrs attrs))
    (hcall : attrs.select TO_STRING.contents = none)
    (hpath : attrs.select OUT_PATH.contents = some outPath) (h : Weak vm outPath) : Weak vm v

/-- The strings are put at the end one after the other. -/
def Coercion.emitAll (s : Coercion) (ls : List Leaf) : Coercion :=
  ls.foldl (fun s leaf => s.emit leaf.context leaf.contents) s

theorem Coercion.vals_emitAll (s : Coercion) (ls : List Leaf) : (s.emitAll ls).vals = s.vals := by
  induction ls generalizing s with
  | nil => rfl
  | cons leaf ls ih => exact ih (s.emit leaf.context leaf.contents)

theorem Coercion.emitAll_vals (s : Coercion) (vals : List Value) (ls : List Leaf) :
    Coercion.emitAll { s with vals := vals } ls = { s.emitAll ls with vals := vals } := by
  induction ls generalizing s with
  | nil => rfl
  | cons leaf ls ih => exact ih (s.emit leaf.context leaf.contents)

theorem Coercion.emitAll_append (s : Coercion) (ls ls' : List Leaf) :
    s.emitAll (ls ++ ls') = (s.emitAll ls).emitAll ls' := List.foldl_append

theorem Coercion.isSome_emitAll {s : Coercion} (hs : s.isListHead.isSome) (ls : List Leaf) :
    (s.emitAll ls).isListHead.isSome := by
  induction ls generalizing s with
  | nil => exact hs
  | cons leaf ls ih => exact @ih (s.emit leaf.context leaf.contents) (Option.isSome_map.trans hs)

-- ====================
-- The loop
-- ====================

/-- A leaf on top of the stack is put at the end. -/
theorem coerceStep_leaf {w : Value} (h : LeafOf vm importPaths w leaf) (s : Coercion) :
    coerceStep vm ⟨true, importPaths⟩ s w = .again (s.emit leaf.context leaf.contents) := by
  cases h with
  | imported p imported hp => simp only [coerceStep, hp, if_true]
  | path p => rfl
  | _ => rfl

theorem coerceLoop_step {kind : CoercionKind} {s s' : Coercion} {w : Value} {n : ℕ}
    (hv : v.force vm = .ok w) (hstep : coerceStep vm kind s w = .again s') :
    coerceLoop vm kind (n + 1) { s with vals := v :: s.vals } = coerceLoop vm kind n s' := by
  rw [coerceLoop]
  simp only [hv, hstep]

theorem coerceStep_list {s : Coercion} (hs : s.isListHead.isSome) (vs : List Value) :
    coerceStep vm ⟨true, importPaths⟩ s (.list vs) = .again { s with vals := vs ++ s.vals } := by
  have hhead : (if s.isListHead.isNone then some true else s.isListHead) = s.isListHead := by
    apply if_neg
    rw [Option.isNone_iff_eq_none]
    exact Option.isSome_iff_ne_none.mp hs
  simp only [coerceStep, if_true, hhead]

theorem coerceStep_outPath {kind : CoercionKind} {attrs : AttrsRep Value} {outPath : Value}
    (hcall : attrs.select TO_STRING.contents = none)
    (hpath : attrs.select OUT_PATH.contents = some outPath) (s : Coercion) :
    coerceStep vm kind s (.attrs attrs) = .again { s with vals := outPath :: s.vals } := by
  simp only [coerceStep, hcall, hpath]

/-- Induction over the leaves of values and of lists of values. -/
theorem Leaves.induct {P : Value → List Leaf → Prop} {Q : List Value → List Leaf → Prop}
    (hleaf : ∀ v w leaf, v.force vm = .ok w → LeafOf vm importPaths w leaf → P v [leaf])
    (hlist : ∀ v vs ls, v.force vm = .ok (.list vs) → Q vs ls → P v ls)
    (houtPath : ∀ v outPath attrs ls, v.force vm = .ok (.attrs attrs) →
      attrs.select TO_STRING.contents = none → attrs.select OUT_PATH.contents = some outPath →
      P outPath ls → P v ls)
    (hnil : Q [] []) (hcons : ∀ v vs ls ls', P v ls → Q vs ls' → Q (v :: vs) (ls ++ ls')) :
    (∀ v ls, Leaves vm importPaths v ls → P v ls) ∧
      ∀ vs ls, LeavesAll vm importPaths vs ls → Q vs ls := by
  constructor
  · intro v ls h
    exact @Leaves.rec vm importPaths (fun v ls _ => P v ls) (fun vs ls _ => Q vs ls)
      (fun hv h => hleaf _ _ _ hv h) (fun hv _ ih => hlist _ _ _ hv ih)
      (fun hv hcall hpath _ ih => houtPath _ _ _ _ hv hcall hpath ih) hnil
      (fun _ _ ih ihs => hcons _ _ _ _ ih ihs) v ls h
  · intro vs ls h
    exact @LeavesAll.rec vm importPaths (fun v ls _ => P v ls) (fun vs ls _ => Q vs ls)
      (fun hv h => hleaf _ _ _ hv h) (fun hv _ ih => hlist _ _ _ hv ih)
      (fun hv hcall hpath _ ih => houtPath _ _ _ _ hv hcall hpath ih) hnil
      (fun _ _ ih ihs => hcons _ _ _ _ ih ihs) vs ls h

/-- From a stack with some values on top the loop gets to where their strings are put at the end. -/
def PutsLeaves (vm : Vm) (importPaths : Bool) (vs : List Value) (ls : List Leaf) : Prop :=
  ∀ s : Coercion, s.isListHead.isSome →
    ∃ k, ∀ n, coerceLoop vm ⟨true, importPaths⟩ (n + k) { s with vals := vs ++ s.vals } =
      coerceLoop vm ⟨true, importPaths⟩ n (s.emitAll ls)

theorem PutsLeaves.append {vs' : List Value} {ls' : List Leaf} (h : PutsLeaves vm importPaths vs ls)
    (h' : PutsLeaves vm importPaths vs' ls') :
    PutsLeaves vm importPaths (vs ++ vs') (ls ++ ls') := by
  intro s hs
  obtain ⟨k, hk⟩ := h { s with vals := vs' ++ s.vals } hs
  obtain ⟨k', hk'⟩ := h' (s.emitAll ls) (Coercion.isSome_emitAll hs ls)
  refine ⟨k' + k, fun n => ?_⟩
  rw [Coercion.emitAll_append, ← hk' n, Coercion.vals_emitAll, ← Coercion.emitAll_vals, ← hk,
    Nat.add_assoc, List.append_assoc]

/-- Inside of a list, the strings of a value are put at the end. -/
theorem putsLeaves : (∀ v ls, Leaves vm importPaths v ls → PutsLeaves vm importPaths [v] ls) ∧
    ∀ vs ls, LeavesAll vm importPaths vs ls → PutsLeaves vm importPaths vs ls := by
  apply Leaves.induct
  · intro v w leaf hv h s hs
    exact ⟨1, fun n => coerceLoop_step hv (coerceStep_leaf h s)⟩
  · intro v vs ls hv ih s hs
    obtain ⟨k, hk⟩ := ih s hs
    exact ⟨k + 1, fun n => (coerceLoop_step hv (coerceStep_list hs _)).trans (hk n)⟩
  · intro v outPath attrs ls hv hcall hpath ih s hs
    obtain ⟨k, hk⟩ := ih s hs
    exact ⟨k + 1, fun n => (coerceLoop_step hv (coerceStep_outPath hcall hpath s)).trans (hk n)⟩
  · exact fun s hs => ⟨0, fun n => rfl⟩
  · intro v vs ls ls' ih ihs
    exact ih.append ihs

-- ====================
-- The string and its context
-- ====================

theorem mem_extend {context : NixContext} {elements : List NixContextElement}
    {e : NixContextElement} : e ∈ context.extend elements ↔ e ∈ context ∨ e ∈ elements := by
  induction elements generalizing context with
  | nil => simp [NixContext.extend]
  | cons x elements ih =>
    have hstep : context.extend (x :: elements) = (context.append x).extend elements := rfl
    have hmem : e ∈ context.append x ↔ e ∈ context ∨ e = x := by
      unfold NixContext.append
      split
      · constructor
        · exact .inl
        · rintro (h | rfl)
          · exact h
          · assumption
      · rw [List.mem_append, List.mem_singleton]
    rw [hstep, ih, hmem, List.mem_cons, or_assoc]

theorem nodup_extend {context : NixContext} (h : context.Nodup)
    (elements : List NixContextElement) : (context.extend elements).Nodup := by
  induction elements generalizing context with
  | nil => exact h
  | cons x elements ih =>
    apply ih
    unfold NixContext.append
    split
    · exact h
    · rw [← List.concat_eq_append]
      exact List.Nodup.concat ‹_› h

theorem Coercion.mem_context_emitAll {s : Coercion} {e : NixContextElement} :
    e ∈ (s.emitAll ls).context ↔ e ∈ s.context ∨ ∃ leaf ∈ ls, e ∈ leaf.context := by
  induction ls generalizing s with
  | nil => simp [Coercion.emitAll]
  | cons leaf ls ih =>
    have hstep : s.emitAll (leaf :: ls) = (s.emit leaf.context leaf.contents).emitAll ls := rfl
    rw [hstep, ih]
    simp only [Coercion.emit, mem_extend, List.mem_cons, exists_eq_or_imp, or_assoc]

theorem Coercion.nodup_context_emitAll {s : Coercion} (h : s.context.Nodup) :
    (s.emitAll ls).context.Nodup := by
  induction ls generalizing s with
  | nil => exact h
  | cons leaf ls ih => exact @ih (s.emit leaf.context leaf.contents) (nodup_extend h _)

theorem intercalate_cons (sep x : Bytes) (xs : List Bytes) :
    sep.intercalate (x :: xs) = x ++ (xs.map fun y => sep ++ y).flatten := by
  induction xs generalizing x with
  | nil => simp
  | cons y xs ih =>
    rw [List.intercalate_cons_cons, ih, List.map_cons, List.flatten_cons]
    simp only [List.append_assoc]

/-- After the first string of a list, each one comes with a space before it. -/
theorem Coercion.result_emitAll {s : Coercion} (h : s.isListHead = some false) :
    (s.emitAll ls).result = s.result ++ (ls.map fun leaf => [32] ++ leaf.contents).flatten := by
  induction ls generalizing s with
  | nil => simp [Coercion.emitAll]
  | cons leaf ls ih =>
    have hhead : (s.emit leaf.context leaf.contents).isListHead = some false := by
      simp [Coercion.emit, h]
    refine (@ih (s.emit leaf.context leaf.contents) hhead).trans ?_
    simp only [Coercion.emit, h, if_true, List.map_cons, List.flatten_cons, List.append_assoc]

theorem Coercion.result_emitAll_head {s : Coercion} (h : s.isListHead = some true)
    (hresult : s.result = []) :
    (s.emitAll ls).result = [32].intercalate (ls.map Leaf.contents) := by
  cases ls with
  | nil => exact hresult
  | cons leaf ls =>
    have hhead : (s.emit leaf.context leaf.contents).isListHead = some false := by
      simp [Coercion.emit, h]
    refine (@Coercion.result_emitAll ls (s.emit leaf.context leaf.contents) hhead).trans ?_
    rw [List.map_cons, intercalate_cons, List.map_map]
    simp [Coercion.emit, h, hresult, Function.comp_def]

-- ====================
-- The whole coercion
-- ====================

/-- The context is the union of those of the leaves. -/
def IsUnion (ls : List Leaf) (context : NixContext) : Prop :=
  context.Nodup ∧ ∀ e, e ∈ context ↔ ∃ leaf ∈ ls, e ∈ leaf.context

/-- The whole coercion of a value. -/
def Coerced (vm : Vm) (importPaths : Bool) (v : Value) (ls : List Leaf) : Prop :=
  ∃ k context, IsUnion ls context ∧ ∀ n, coerceToString vm (n + k) ⟨true, importPaths⟩ v =
    some (.ok (.string ⟨[32].intercalate (ls.map Leaf.contents), context⟩))

theorem coerceLoop_nil {kind : CoercionKind} {s : Coercion} (hs : s.vals = []) (n : ℕ) :
    coerceLoop vm kind (n + 1) s = some (.ok (.string ⟨s.result, s.context⟩)) := by
  rw [coerceLoop, hs]

theorem coerced_leaf {w : Value} (hv : v.force vm = .ok w) (h : LeafOf vm importPaths w leaf) :
    Coerced vm importPaths v [leaf] := by
  refine ⟨2, NixContext.extend [] leaf.context, ⟨nodup_extend List.nodup_nil _, fun e => ?_⟩,
    fun n => ?_⟩
  · rw [mem_extend]
    simp
  · refine (coerceLoop_step hv (coerceStep_leaf h ⟨[], none, [], []⟩)).trans ?_
    rw [List.map_singleton, List.intercalate_singleton]
    exact coerceLoop_nil rfl n

theorem coerced_list {vs : List Value} (hv : v.force vm = .ok (.list vs))
    (h : LeavesAll vm importPaths vs ls) : Coerced vm importPaths v ls := by
  let s : Coercion := ⟨[], some true, [], []⟩
  obtain ⟨k, hk⟩ := putsLeaves.2 vs ls h s rfl
  refine ⟨k + 2, (s.emitAll ls).context,
    ⟨Coercion.nodup_context_emitAll List.nodup_nil, fun e => ?_⟩, fun n => ?_⟩
  · rw [Coercion.mem_context_emitAll, or_iff_right List.not_mem_nil]
  · have hstep : coerceStep vm ⟨true, importPaths⟩ ⟨[], none, [], []⟩ (.list vs) =
        .again { s with vals := vs ++ s.vals } := rfl
    have hfuel : n + (k + 2) = n + 1 + k + 1 := by omega
    rw [hfuel]
    refine ((coerceLoop_step hv hstep).trans (hk (n + 1))).trans ?_
    rw [coerceLoop_nil (Coercion.vals_emitAll s ls), Coercion.result_emitAll_head rfl rfl]

theorem coerced_outPath {outPath : Value} {attrs : AttrsRep Value}
    (hv : v.force vm = .ok (.attrs attrs)) (hcall : attrs.select TO_STRING.contents = none)
    (hpath : attrs.select OUT_PATH.contents = some outPath)
    (h : Coerced vm importPaths outPath ls) : Coerced vm importPaths v ls := by
  obtain ⟨k, context, hunion, hk⟩ := h
  refine ⟨k + 1, context, hunion, fun n => ?_⟩
  have hstep := @coerceStep_outPath vm ⟨true, importPaths⟩ attrs outPath hcall hpath
    ⟨[], none, [], []⟩
  exact (coerceLoop_step hv hstep).trans (hk n)

/-- The strings of a value with a space between them, and what all of them depend on. -/
theorem coerceToString_strong (h : Leaves vm importPaths v ls) : Coerced vm importPaths v ls := by
  have hall : (∀ v ls, Leaves vm importPaths v ls →
      Leaves vm importPaths v ls ∧ Coerced vm importPaths v ls) ∧
      ∀ vs ls, LeavesAll vm importPaths vs ls → LeavesAll vm importPaths vs ls := by
    apply Leaves.induct
    · exact fun v w leaf hv h => ⟨.leaf hv h, coerced_leaf hv h⟩
    · exact fun v vs ls hv h => ⟨.list hv h, coerced_list hv h⟩
    · exact fun v outPath attrs ls hv hcall hpath ih =>
        ⟨.outPath hv hcall hpath ih.1, coerced_outPath hv hcall hpath ih.2⟩
    · exact .nil
    · exact fun v vs ls ls' ih ihs => .cons ih.1 ihs
  exact (hall.1 v ls h).2

/-- A weak coercion of a value succeeds. -/
def WeakSucceeds (vm : Vm) (importPaths : Bool) (v : Value) : Prop :=
  ∃ n r, coerceToString vm n ⟨false, importPaths⟩ v = some (.ok r)

theorem coerceLoop_done {kind : CoercionKind} {s : Coercion} {w : Value} {r : Except Fault Value}
    {n : ℕ} (hv : v.force vm = .ok w) (hstep : coerceStep vm kind s w = .done r) :
    coerceLoop vm kind (n + 1) { s with vals := v :: s.vals } = some r := by
  rw [coerceLoop]
  simp only [hv, hstep]

/-- A value at which the coercion fails. -/
theorem not_weakSucceeds {w : Value} {f : Fault} (hv : v.force vm = .ok w)
    (hstep : coerceStep vm ⟨false, importPaths⟩ ⟨[], none, [], []⟩ w = .done (.error f)) :
    ¬WeakSucceeds vm importPaths v := by
  rintro ⟨n, r, hr⟩
  cases n with
  | zero => cases hr
  | succ n =>
    have hdone := (@coerceLoop_done vm v ⟨false, importPaths⟩ ⟨[], none, [], []⟩ w _ n hv hstep).symm.trans hr
    cases hdone

theorem weakSucceeds_leaf {w : Value} {s : Coercion} (hv : v.force vm = .ok w)
    (hstep : coerceStep vm ⟨false, importPaths⟩ ⟨[], none, [], []⟩ w = .again s)
    (hs : s.vals = []) : WeakSucceeds vm importPaths v :=
  ⟨2, _, (coerceLoop_step hv hstep).trans (coerceLoop_nil hs 0)⟩

/-- A value that is neither a string nor a path nor an attribute set is none of those that a weak
    coercion accepts. -/
theorem not_weak {w : Value} (hv : v.force vm = .ok w) (hstring : ∀ s, w ≠ .string s)
    (hpath : ∀ p, w ≠ .path p) (hattrs : ∀ attrs, w ≠ .attrs attrs) : ¬Weak vm v := by
  intro h
  cases h with
  | string s hv' => exact hstring s (Except.ok.inj (hv.symm.trans hv'))
  | path p hv' => exact hpath p (Except.ok.inj (hv.symm.trans hv'))
  | outPath hv' _ _ _ => exact hattrs _ (Except.ok.inj (hv.symm.trans hv'))

theorem weak_leaf_iff {w : Value} (hv : v.force vm = .ok w) (h : LeafOf vm importPaths w leaf) :
    WeakSucceeds vm importPaths v ↔ Weak vm v := by
  cases h with
  | string importPaths s => exact iff_of_true (weakSucceeds_leaf hv rfl rfl) (.string s hv)
  | path p => exact iff_of_true (weakSucceeds_leaf hv rfl rfl) (.path p hv)
  | imported p imported hp =>
    have hstep : coerceStep vm ⟨false, true⟩ ⟨[], none, [], []⟩ (.path p) =
        .again (Coercion.emit ⟨[], none, [], []⟩ [.plain (toStringLossy imported)] imported) := by
      simp only [coerceStep, hp, if_true]
    exact iff_of_true (weakSucceeds_leaf hv hstep rfl) (.path p hv)
  | null | bool | integer =>
    apply iff_of_false (not_weakSucceeds hv rfl)
    apply not_weak hv <;> intro _ h <;> cases h

/-- A weak coercion succeeds for strings and paths, and for what leads to them. -/
theorem coerceToString_weak_iff (h : Leaves vm importPaths v ls) :
    WeakSucceeds vm importPaths v ↔ Weak vm v := by
  have hall : (∀ v ls, Leaves vm importPaths v ls →
      (WeakSucceeds vm importPaths v ↔ Weak vm v)) ∧
      ∀ vs ls, LeavesAll vm importPaths vs ls → True := by
    apply Leaves.induct
    · exact fun v w leaf hv h => weak_leaf_iff hv h
    · intro v vs ls hv _
      apply iff_of_false (not_weakSucceeds hv rfl)
      apply not_weak hv <;> intro _ h <;> cases h
    · intro v outPath attrs ls hv hcall hpath ih
      have hstep := @coerceStep_outPath vm ⟨false, importPaths⟩ attrs outPath hcall hpath
        ⟨[], none, [], []⟩
      constructor
      · rintro ⟨n, r, hr⟩
        cases n with
        | zero => cases hr
        | succ n => exact .outPath hv hcall hpath (ih.mp ⟨n, r, (coerceLoop_step hv hstep).symm.trans hr⟩)
      · intro hw
        cases hw with
        | string s hv' => cases hv.symm.trans hv'
        | path p hv' => cases hv.symm.trans hv'
        | outPath hv' _ hpath' hw =>
          cases hv.symm.trans hv'
          cases hpath.symm.trans hpath'
          obtain ⟨n, r, hr⟩ := ih.mpr hw
          exact ⟨n + 1, r, (coerceLoop_step hv hstep).trans hr⟩
    · trivial
    · exact fun _ _ _ _ _ _ => trivial
  exact hall.1 v ls h

/-- A strong coercion joins the strings that a value is made of, and a weak one succeeds if there
    is nothing to join. -/
theorem coerceToString_leaves (vm : Vm) (importPaths : Bool) (v : Value) (ls : List Leaf)
    (h : Leaves vm importPaths v ls) :
    (∃ k context, (context.Nodup ∧ ∀ e, e ∈ context ↔ ∃ leaf ∈ ls, e ∈ leaf.context) ∧
      ∀ n, coerceToString vm (n + k) ⟨true, importPaths⟩ v =
        some (.ok (.string ⟨[32].intercalate (ls.map Leaf.contents), context⟩))) ∧
    ((∃ n r, coerceToString vm n ⟨false, importPaths⟩ v = some (.ok r)) ↔ Weak vm v) :=
  ⟨coerceToString_strong h, coerceToString_weak_iff h⟩

/-- A machine that imports a path to the same path below `/s`. -/
def importsBelow : Vm where
  force _ := .ok .null
  pathImport p := .ok ([47, 115] ++ p)
  call _ _ := .ok .null
  formatFloat _ := []

/-- The list `[ "a" [ ] { outPath = /b; } null ]`, where the string depends on `/c`. -/
def coercedList : Value :=
  .list [.string ⟨[97], [.plain [47, 99]]⟩, .list [], .attrs (.map [(OUT_PATH, .path [47, 98])]),
    .null]

theorem coerceToString_leaves_list :
    (∃ k context, (context.Nodup ∧ ∀ e, e ∈ context ↔
        ∃ leaf ∈ [⟨[97], [.plain [47, 99]]⟩, ⟨[47, 115, 47, 98], [.plain [47, 115, 47, 98]]⟩,
          (⟨[], []⟩ : Leaf)], e ∈ leaf.context) ∧
      ∀ n, coerceToString importsBelow (n + k) ⟨true, true⟩ coercedList =
        some (.ok (.string ⟨[97, 32, 47, 115, 47, 98, 32], context⟩))) ∧
    ((∃ n r, coerceToString importsBelow n ⟨false, true⟩ coercedList = some (.ok r)) ↔
      Weak importsBelow coercedList) := by
  have hset : Leaves importsBelow true (.attrs (.map [(OUT_PATH, .path [47, 98])]))
      [⟨[47, 115, 47, 98], [.plain [47, 115, 47, 98]]⟩] :=
    .outPath rfl rfl rfl (.leaf rfl (.imported [47, 98] _ rfl))
  have hstring : Leaves importsBelow true (.string ⟨[97], [.plain [47, 99]]⟩)
      [⟨[97], [.plain [47, 99]]⟩] := .leaf rfl (.string true _)
  have hempty : Leaves importsBelow true (.list []) [] := .list rfl .nil
  have hnull : Leaves importsBelow true .null [⟨[], []⟩] := .leaf rfl (.null true)
  have hall := LeavesAll.cons hstring (.cons hempty (.cons hset (.cons hnull .nil)))
  exact coerceToString_leaves importsBelow true coercedList _ (.list rfl hall)

end Snix.Eval
