import Snix.Eval.Value.Basic

/-!
# Attribute sets

An attribute set has one of three representations: none for the empty one, two slots
for one with just a name and a value, and a hash map for the others. Every operation
treats the representations case by case.

## Main definitions

- `construct` — an attribute set from the keys and values on the stack
- `update`, `intersect` — the operations on two sets
- `intoIterSorted`, `keysSorted` — iteration in the order of the keys
- `toMap` — the finite map that an attribute set is
- `Obtained` — what a sequence of operations leads to, beside the map it should be

## Main results

- `select_eq`, `intoIterSorted_eq` — reading an attribute set is reading its map
- `toMap_update`, `toMap_intersect` — the operations on two sets, for all representations
- `construct_eq_ok_iff` — when a construction succeeds, and with which map
- `obtained_agrees` — attribute sets are finite maps
-/

namespace Snix.Eval

/-- The key `name`. -/
def NAME : NixString := .plain [110, 97, 109, 101]

/-- The key `value`. -/
def VALUE : NixString := .plain [118, 97, 108, 117, 101]

namespace AttrsRep

variable {V : Type}

def select (a : AttrsRep V) (key : Bytes) : Option V :=
  match a with
  | .empty => none
  | .kv name value =>
    if key = NAME.contents then some name
    else if key = VALUE.contents then some value
    else none
  | .map m => HashMap.get? m key

def contains (a : AttrsRep V) (key : Bytes) : Bool :=
  match a with
  | .empty => false
  | .kv _ _ => key == NAME.contents || key == VALUE.contents
  | .map m => HashMap.containsKey m key

def fromIter (entries : List (NixString × V)) : AttrsRep V := .map (HashMap.extend [] entries)

def fromKv (name value : V) : AttrsRep V := .kv name value

/-- The merge of two sets. The other set has precedence. -/
def update (self other : AttrsRep V) : AttrsRep V :=
  match self, other with
  | .empty, .empty => self
  | .empty, _ => other
  | _, .empty => self
  | .kv _ _, .kv _ _ => other
  | .map m, .kv name value => .map (HashMap.insert VALUE value (HashMap.insert NAME name m))
  | .kv name value, .map m => .map (HashMap.orInsert VALUE value (HashMap.orInsert NAME name m))
  | .map m₁, .map m₂ =>
    .map (if m₁.length ≥ m₂.length then HashMap.extend m₁ m₂
      else m₁.foldl (fun m e => HashMap.orInsert e.1 e.2 m) m₂)

def len : AttrsRep V → ℕ
  | .map m => m.length
  | .empty => 0
  | .kv _ _ => 2

def isEmpty : AttrsRep V → Bool
  | .map m => m.isEmpty
  | .empty => true
  | .kv _ _ => false

/-- The iteration in the order of the keys, by reference. -/
def iterSorted : AttrsRep V → List (NixString × V)
  | .empty => []
  | .map m => HashMap.sorted compare m
  | .kv name value => [(NAME, name), (VALUE, value)]

/-- The iteration in the order of the keys, by value. -/
def intoIterSorted : AttrsRep V → List (NixString × V)
  | .empty => []
  | .map m => HashMap.sorted compare m
  | .kv name value => [(NAME, name), (VALUE, value)]

def keysSorted : AttrsRep V → List NixString
  | .map m => sortByKey compare borrow (m.map Prod.fst)
  | .empty => []
  | .kv _ _ => [NAME, VALUE]

/-- The entries of a hash map whose keys occur in the other set, as a set. -/
def ofFound (out : List (NixString × V)) : AttrsRep V := if out.isEmpty then .empty else .map out

/-- The common keys, with the values of the other set. -/
def intersect (self other : AttrsRep V) : AttrsRep V :=
  match self, other with
  | .empty, _ => .empty
  | _, .empty => .empty
  | .map lhs, .map rhs =>
    .map (if lhs.length < rhs.length then
        lhs.foldl (fun out e =>
          match HashMap.get? rhs e.1.contents with
          | some val => HashMap.insert e.1 val out
          | none => out) []
      else
        rhs.foldl (fun out e =>
          if HashMap.containsKey lhs e.1.contents then HashMap.insert e.1 e.2 out else out) [])
  | .map m, .kv name value =>
    let out := if HashMap.containsKey m NAME.contents then HashMap.insert NAME name [] else []
    ofFound (if HashMap.containsKey m VALUE.contents then HashMap.insert VALUE value out else out)
  | .kv _ _, .map m =>
    let out :=
      match HashMap.get? m NAME.contents with
      | some name => HashMap.insert NAME name []
      | none => []
    ofFound (match HashMap.get? m VALUE.contents with
      | some value => HashMap.insert VALUE value out
      | none => out)
  | .kv _ _, .kv _ _ => other

end AttrsRep

/-- The set of the stack slice of two pairs, if its keys are `name` and `value`. -/
def attemptOptimiseKv (slice : List Value) : Option (AttrsRep Value) :=
  match slice with
  | [.string s₂, v₁, .string s₁, v₃] =>
    if s₁.eq NAME && s₂.eq VALUE then some (.fromKv v₃ v₁)
    else if s₁.eq VALUE && s₂.eq NAME then some (.fromKv v₁ v₃)
    else none
  | _ => none

/-- Sets an attribute of a set under construction. -/
def setAttr (m : List (NixString × Value)) (key : NixString) (value : Value) :
    Except ErrorKind (List (NixString × Value)) :=
  match m.find? fun e => e.1.contents = key.contents with
  | some entry => .error (.duplicateAttrsKey entry.1)
  | none => .ok (HashMap.insert key value m)

/-- The loop of `construct`, which takes `count` pairs off the top of the stack. The
    answer `none` is a panic on an empty stack. -/
def constructLoop : ℕ → List Value → List (NixString × Value) →
    Option (Except ErrorKind (Except CatchableErrorKind (AttrsRep Value)))
  | 0, _, m => some (.ok (.ok (.map m)))
  | count + 1, value :: key :: stack, m =>
    match key with
    | .string ks =>
      match setAttr m ks value with
      | .error e => some (.error e)
      | .ok m => constructLoop count stack m
    | .null => constructLoop count stack m
    | .catchable err => some (.ok (.error err))
    | other => some (.error (.invalidAttributeName other))
  | _ + 1, _, _ => none

/-- An attribute set from a stack slice, in which each key stands below its value. -/
def construct (count : ℕ) (stackSlice : List Value) :
    Option (Except ErrorKind (Except CatchableErrorKind (AttrsRep Value))) :=
  if stackSlice.length ≠ count * 2 then none
  else if count = 0 then some (.ok (.ok .empty))
  else
    match if count = 2 then attemptOptimiseKv stackSlice else none with
    | some kv => some (.ok (.ok kv))
    | none => constructLoop count stackSlice.reverse []

-- ====================
-- Attribute sets are finite maps
-- ====================

/-- A finite map from attribute names. -/
abbrev AttrMap (V : Type) := SortedMap (compare : Bytes → Bytes → Ordering) V

namespace AttrsRep

variable {V : Type} {a b : AttrsRep V} {k : Bytes}

/-- The entries, as a hash map has them. -/
def entries : AttrsRep V → List (NixString × V)
  | .empty => []
  | .map m => m
  | .kv name value => [(NAME, name), (VALUE, value)]

/-- No key occurs twice. -/
def Valid (a : AttrsRep V) : Prop := HashMap.Distinct a.entries

/-- The finite map that an attribute set is. -/
def toMap (a : AttrsRep V) : AttrMap V := HashMap.toSortedMap compare a.entries

theorem compare_name_value : compare NAME.contents VALUE.contents = .lt := by decide

theorem name_ne_value : NAME.contents ≠ VALUE.contents := by decide

theorem valid_empty : (empty : AttrsRep V).Valid := HashMap.distinct_nil

theorem valid_kv (name value : V) : (kv name value).Valid := by
  refine List.pairwise_pair.mpr ?_
  exact name_ne_value

theorem select_eq_get? (a : AttrsRep V) (k : Bytes) : a.select k = HashMap.get? a.entries k := by
  cases a with
  | empty => rfl
  | map m => rfl
  | kv name value =>
    rw [select, entries, HashMap.get?, List.find?_cons, List.find?_singleton]
    by_cases hn : k = NAME.contents
    · subst hn
      simp [borrow]
    · by_cases hv : k = VALUE.contents
      · subst hv
        simp [borrow, name_ne_value, Ne.symm name_ne_value]
      · simp [borrow, hn, hv, Ne.symm hn, Ne.symm hv]

theorem contains_eq_isSome (a : AttrsRep V) (k : Bytes) : a.contains k = (a.select k).isSome := by
  cases a with
  | empty => rfl
  | map m => exact HashMap.containsKey_eq_isSome
  | kv name value =>
    rw [contains, select]
    by_cases hn : k = NAME.contents
    · simp [hn]
    · by_cases hv : k = VALUE.contents
      · simp [hv, name_ne_value.symm]
      · simp [hn, hv]

theorem iterSorted_eq_sorted (a : AttrsRep V) : a.iterSorted = HashMap.sorted compare a.entries := by
  cases a with
  | empty => rfl
  | map m => rfl
  | kv name value =>
    have hle : keyLe compare (fun e : NixString × V => borrow e.1) (NAME, name) (VALUE, value) := by
      show (compare NAME.contents VALUE.contents).isLE = true
      rw [compare_name_value]
      rfl
    rw [iterSorted, entries, HashMap.sorted, sortByKey, List.insertionSort_cons,
      List.insertionSort_cons, List.insertionSort_nil, List.orderedInsert, List.orderedInsert, if_pos hle]

theorem keysSorted_eq (a : AttrsRep V) : a.keysSorted = a.iterSorted.map Prod.fst := by
  cases a with
  | empty => rfl
  | map m => exact (List.map_insertionSort _ _ Prod.fst m fun _ _ _ _ => Iff.rfl).symm
  | kv name value => rfl

theorem select_eq (h : a.Valid) (k : Bytes) : a.select k = a.toMap.get? k := by
  rw [select_eq_get?, toMap, HashMap.get?_toSortedMap h]

theorem toMap_eq_iff (ha : a.Valid) {m : AttrMap V} : a.toMap = m ↔ ∀ k, a.select k = m.get? k := by
  constructor
  · rintro rfl k
    exact select_eq ha k
  · intro h
    refine SortedMap.ext_get? fun k => ?_
    rw [← select_eq ha, h k]

theorem entries_toMap (h : a.Valid) : a.toMap.entries = a.iterSorted.map HashMap.borrowed := by
  rw [toMap, HashMap.entries_toSortedMap h, iterSorted_eq_sorted]

theorem len_eq (h : a.Valid) : a.len = a.toMap.entries.length := by
  rw [toMap, HashMap.length_toSortedMap h]
  cases a <;> rfl

theorem isEmpty_eq (h : a.Valid) : a.isEmpty = a.toMap.entries.isEmpty := by
  have hlen : a.isEmpty = (a.len == 0) := by
    cases a with
    | empty => rfl
    | map m => cases m <;> rfl
    | kv name value => rfl
  rw [hlen, len_eq h]
  cases a.toMap.entries <;> rfl

theorem get?_entries_kv (name value : V) (k : Bytes) :
    HashMap.get? (kv name value).entries k =
      (if NAME.contents = k then some name else none).or
        (if VALUE.contents = k then some value else none) := by
  rw [← select_eq_get?, select]
  by_cases hn : k = NAME.contents
  · simp [hn]
  · by_cases hv : k = VALUE.contents
    · simp [hv, name_ne_value, name_ne_value.symm]
    · simp [hn, hv, Ne.symm hn, Ne.symm hv]

theorem valid_fromIter (l : List (NixString × V)) : (fromIter l).Valid :=
  HashMap.distinct_nil.extend l

theorem valid_update (ha : a.Valid) (hb : b.Valid) : (a.update b).Valid := by
  cases a with
  | empty => cases b <;> exact hb
  | kv name value =>
    cases b with
    | empty => exact ha
    | kv _ _ => exact hb
    | map m => exact (HashMap.Distinct.orInsert hb NAME name).orInsert VALUE value
  | map m =>
    cases b with
    | empty => exact ha
    | kv name value => exact (HashMap.Distinct.insert ha NAME name).insert VALUE value
    | map m' =>
      show HashMap.Distinct (if m.length ≥ m'.length then HashMap.extend m m' else _)
      split
      · exact HashMap.Distinct.extend ha m'
      · exact HashMap.Distinct.foldl_orInsert hb m

theorem select_update (ha : a.Valid) (hb : b.Valid) (k : Bytes) :
    (a.update b).select k = (b.select k).or (a.select k) := by
  simp only [select_eq_get?]
  cases a with
  | empty =>
    rw [show HashMap.get? (empty : AttrsRep V).entries k = none from rfl, Option.or_none]
    cases b <;> rfl
  | kv name value =>
    cases b with
    | empty => rfl
    | kv name' value' =>
      show HashMap.get? (kv name' value').entries k = _
      rw [get?_entries_kv, get?_entries_kv]
      by_cases hn : NAME.contents = k
      · simp [hn]
      · by_cases hv : VALUE.contents = k
        · simp [hn, hv]
        · simp [hn, hv]
    | map m =>
      show HashMap.get? (HashMap.orInsert VALUE value (HashMap.orInsert NAME name m)) k = _
      rw [HashMap.get?_orInsert, HashMap.get?_orInsert, Option.or_assoc, get?_entries_kv]
      rfl
  | map m =>
    cases b with
    | empty => rfl
    | kv name value =>
      show HashMap.get? (HashMap.insert VALUE value (HashMap.insert NAME name m)) k = _
      rw [HashMap.get?_insert, HashMap.get?_insert, get?_entries_kv]
      show (if VALUE.contents = k then _ else if NAME.contents = k then _ else _) = _
      by_cases hn : NAME.contents = k
      · have hv : VALUE.contents ≠ k := fun hv => name_ne_value (hn.trans hv.symm)
        simp [hn, hv]
      · by_cases hv : VALUE.contents = k
        · simp [hn, hv]
        · simp [hn, hv, entries]
    | map m' =>
      show HashMap.get? (if m.length ≥ m'.length then HashMap.extend m m' else _) k = _
      split
      · exact HashMap.get?_extend hb m k
      · exact HashMap.get?_foldl_orInsert ha m' k

/-- The update is the union in which the right side wins, for all representations. -/
theorem toMap_update (ha : a.Valid) (hb : b.Valid) : (a.update b).toMap = a.toMap.union b.toMap := by
  rw [toMap_eq_iff (valid_update ha hb)]
  intro k
  rw [select_update ha hb, SortedMap.get?_union, select_eq ha, select_eq hb]

theorem ofFound_entries (out : List (NixString × V)) : (ofFound out).entries = out := by
  rw [ofFound]
  cases out <;> rfl

/-- Both directions of looking the keys up collect entries of the right side. -/
theorem intersect_map (lhs rhs : List (NixString × V)) :
    ((map lhs).intersect (map rhs)).entries =
      if lhs.length < rhs.length then HashMap.collectSome (fun e => HashMap.get? rhs e.1.contents) lhs
      else HashMap.collectSome
        (fun e => if HashMap.containsKey lhs e.1.contents then some e.2 else none) rhs := by
  show (if lhs.length < rhs.length then _ else _) = _
  congr 1
  rw [HashMap.collectSome]
  congr 1
  funext out e
  cases HashMap.containsKey lhs e.1.contents <;> rfl

/-- A hash map with at most the keys `name` and `value`. -/
def slots (name value : Option V) : List (NixString × V) :=
  let out :=
    match name with
    | some name => HashMap.insert NAME name []
    | none => []
  match value with
  | some value => HashMap.insert VALUE value out
  | none => out

theorem distinct_slots (name value : Option V) : HashMap.Distinct (slots name value) := by
  cases name <;> cases value
  · exact HashMap.distinct_nil
  · exact HashMap.distinct_nil.insert _ _
  · exact HashMap.distinct_nil.insert _ _
  · exact (HashMap.distinct_nil.insert _ _).insert _ _

theorem get?_slots (name value : Option V) (k : Bytes) :
    HashMap.get? (slots name value) k =
      if NAME.contents = k then name else if VALUE.contents = k then value else none := by
  by_cases hn : NAME.contents = k
  · have hv : VALUE.contents ≠ k := fun hv => name_ne_value (hn.trans hv.symm)
    cases name <;> cases value <;>
      simp [slots, HashMap.get?_insert, HashMap.get?_nil, borrow, hn, hv]
  · by_cases hv : VALUE.contents = k
    · cases name <;> cases value <;>
        simp [slots, HashMap.get?_insert, HashMap.get?_nil, borrow, hn, hv]
    · cases name <;> cases value <;>
        simp [slots, HashMap.get?_insert, HashMap.get?_nil, borrow, hn, hv]

theorem intersect_kv_map (name value : V) (m : List (NixString × V)) :
    ((kv name value).intersect (map m)).entries =
      slots (HashMap.get? m NAME.contents) (HashMap.get? m VALUE.contents) :=
  ofFound_entries _

theorem intersect_map_kv (m : List (NixString × V)) (name value : V) :
    ((map m).intersect (kv name value)).entries =
      slots (if HashMap.containsKey m NAME.contents then some name else none)
        (if HashMap.containsKey m VALUE.contents then some value else none) := by
  refine (ofFound_entries _).trans ?_
  cases HashMap.containsKey m NAME.contents <;> cases HashMap.containsKey m VALUE.contents <;> rfl

theorem valid_intersect (hb : b.Valid) : (a.intersect b).Valid := by
  cases a with
  | empty => exact valid_empty
  | kv name value =>
    cases b with
    | empty => exact valid_empty
    | kv _ _ => exact hb
    | map m =>
      rw [Valid, intersect_kv_map]
      exact distinct_slots _ _
  | map m =>
    cases b with
    | empty => exact valid_empty
    | kv name value =>
      rw [Valid, intersect_map_kv]
      exact distinct_slots _ _
    | map m' =>
      rw [Valid, intersect_map]
      split
      · exact HashMap.distinct_collectSome (V := V) _ _
      · exact HashMap.distinct_collectSome (V := V) _ _

/-- Looking up the keys of either map gives the common keys, with the values of the right one. -/
theorem select_intersect_map {lhs rhs : List (NixString × V)} (hl : HashMap.Distinct lhs)
    (hr : HashMap.Distinct rhs) (k : Bytes) :
    ((map lhs).intersect (map rhs)).select k =
      if (HashMap.get? lhs k).isSome then HashMap.get? rhs k else none := by
  have hkey : ∀ {m : List (NixString × V)} {e : NixString × V},
      (m.find? fun e => borrow e.1 = k) = some e → e.1.contents = k := by
    intro m e hfind
    simpa [borrow] using List.find?_some hfind
  rw [select_eq_get?, intersect_map]
  split
  · rw [HashMap.get?_collectSome _ hl]
    show _ = if ((lhs.find? fun e : NixString × V => borrow e.1 = k).map Prod.snd).isSome then _ else none
    cases hfind : lhs.find? fun e => borrow e.1 = k with
    | none => rfl
    | some e =>
      rw [Option.bind_some, hkey hfind]
      rfl
  · rw [HashMap.get?_collectSome _ hr]
    show _ = if _ then (rhs.find? fun e : NixString × V => borrow e.1 = k).map Prod.snd else none
    cases hfind : rhs.find? fun e => borrow e.1 = k with
    | none => rw [Option.bind_none, Option.map_none, ite_self]
    | some e =>
      rw [Option.bind_some, hkey hfind, HashMap.containsKey_eq_isSome]
      rfl

theorem select_intersect (ha : a.Valid) (hb : b.Valid) (k : Bytes) :
    (a.intersect b).select k = if (a.select k).isSome then b.select k else none := by
  simp only [select_eq_get?]
  cases a with
  | empty => rfl
  | kv name value =>
    cases b with
    | empty => exact (ite_self _).symm
    | kv name' value' =>
      show HashMap.get? (kv name' value').entries k = _
      rw [get?_entries_kv, get?_entries_kv]
      by_cases hn : NAME.contents = k
      · simp [hn]
      · by_cases hv : VALUE.contents = k
        · simp [hn, hv]
        · simp [hn, hv]
    | map m =>
      rw [intersect_kv_map, get?_slots, get?_entries_kv]
      show _ = if _ then HashMap.get? m k else none
      by_cases hn : NAME.contents = k
      · simp [hn]
      · by_cases hv : VALUE.contents = k
        · simp [hn, hv]
        · simp [hn, hv]
  | map m =>
    cases b with
    | empty => exact (ite_self _).symm
    | kv name value =>
      rw [intersect_map_kv, get?_slots, get?_entries_kv, HashMap.containsKey_eq_isSome,
        HashMap.containsKey_eq_isSome]
      show _ = if (HashMap.get? m k).isSome then _ else none
      by_cases hn : NAME.contents = k
      · have hv : VALUE.contents ≠ k := fun hv => name_ne_value (hn.trans hv.symm)
        simp [hn, hv]
      · by_cases hv : VALUE.contents = k
        · simp [hn, hv]
        · simp [hn, hv]
    | map m' =>
      rw [← select_eq_get?]
      exact select_intersect_map ha hb k

theorem toMap_intersect (ha : a.Valid) (hb : b.Valid) :
    (a.intersect b).toMap = a.toMap.inter b.toMap := by
  rw [toMap_eq_iff (valid_intersect hb)]
  intro k
  rw [select_intersect ha hb, SortedMap.get?_inter, SortedMap.contains_eq_isSome, select_eq ha, select_eq hb]

end AttrsRep

-- ====================
-- Construction
-- ====================

/-- The stack slice of some pairs of a key and a value. -/
def stackOf (pairs : List (Value × Value)) : List Value := pairs.flatMap fun p => [p.1, p.2]

/-- The pairs that are named. -/
def named (pairs : List (Value × Value)) : List (NixString × Value) :=
  pairs.filterMap fun p =>
    match p.1 with
    | .string ks => some (ks, p.2)
    | _ => none

/-- Every key is a string or null, and no two strings are equal. -/
def Constructible (pairs : List (Value × Value)) : Prop :=
  (∀ p ∈ pairs, p.1 = .null ∨ ∃ ks, p.1 = .string ks) ∧ HashMap.Distinct (named pairs)

theorem stackOf_reverse (pairs : List (Value × Value)) :
    (stackOf pairs).reverse = pairs.reverse.flatMap fun p => [p.2, p.1] := by
  rw [stackOf, List.reverse_flatMap]
  rfl

theorem length_stackOf (pairs : List (Value × Value)) : (stackOf pairs).length = pairs.length * 2 := by
  induction pairs with
  | nil => rfl
  | cons p pairs ih =>
    show (p.1 :: p.2 :: stackOf pairs).length = (pairs.length + 1) * 2
    rw [List.length_cons, List.length_cons, ih]
    omega

theorem setAttr_eq_ok_iff {m m' : List (NixString × Value)} {ks : NixString} {v : Value} :
    setAttr m ks v = .ok m' ↔
      HashMap.get? m ks.contents = none ∧ m' = HashMap.insert ks v m := by
  have hget : HashMap.get? m ks.contents = (m.find? fun e => e.1.contents = ks.contents).map Prod.snd := rfl
  rw [setAttr, hget]
  cases m.find? fun e => e.1.contents = ks.contents with
  | none => simp [eq_comm]
  | some e => simp

theorem constructible_cons_string {ks : NixString} {v : Value} {pairs : List (Value × Value)} :
    Constructible ((.string ks, v) :: pairs) ↔
      Constructible pairs ∧ ∀ e ∈ named pairs, ks.contents ≠ e.1.contents := by
  rw [Constructible, Constructible, List.forall_mem_cons]
  show (_ ∧ _) ∧ HashMap.Distinct ((ks, v) :: named pairs) ↔ _
  rw [HashMap.Distinct, List.pairwise_cons]
  constructor
  · rintro ⟨⟨-, hkeys⟩, hne, hdistinct⟩
    exact ⟨⟨hkeys, hdistinct⟩, hne⟩
  · rintro ⟨⟨hkeys, hdistinct⟩, hne⟩
    exact ⟨⟨.inr ⟨ks, rfl⟩, hkeys⟩, hne, hdistinct⟩

theorem constructible_cons_null {v : Value} {pairs : List (Value × Value)} :
    Constructible ((.null, v) :: pairs) ↔ Constructible pairs := by
  rw [Constructible, Constructible, List.forall_mem_cons]
  exact and_congr_left' ⟨And.right, fun h => ⟨.inl rfl, h⟩⟩

theorem not_constructible_cons {key v : Value} {pairs : List (Value × Value)} (hnull : key ≠ .null)
    (hstring : ∀ ks, key ≠ .string ks) : ¬ Constructible ((key, v) :: pairs) := by
  rintro ⟨hkeys, -⟩
  obtain h | ⟨ks, h⟩ := hkeys _ List.mem_cons_self
  · exact hnull h
  · exact hstring ks h

/-- The loop sets the named pairs, as long as their keys are new. -/
theorem constructLoop_eq_ok_iff {pairs : List (Value × Value)} {m : List (NixString × Value)}
    {a : AttrsRep Value} :
    constructLoop pairs.length (pairs.flatMap fun p => [p.2, p.1]) m = some (.ok (.ok a)) ↔
      (Constructible pairs ∧ ∀ e ∈ named pairs, HashMap.get? m e.1.contents = none) ∧
        a = .map (HashMap.extend m (named pairs)) := by
  induction pairs generalizing m with
  | nil =>
    simp [constructLoop, Constructible, named, HashMap.extend, HashMap.distinct_nil, eq_comm]
  | cons p pairs ih =>
    obtain ⟨key, value⟩ := p
    cases key with
    | string ks =>
      show constructLoop (pairs.length + 1)
        (value :: .string ks :: pairs.flatMap fun p : Value × Value => [p.2, p.1]) m = _ ↔ _
      rw [constructLoop, constructible_cons_string]
      show _ ↔ (_ ∧ ∀ e ∈ (ks, value) :: named pairs, _) ∧
        a = .map (HashMap.extend (HashMap.insert ks value m) (named pairs))
      rw [List.forall_mem_cons]
      cases hset : setAttr m ks value with
      | error e =>
        refine iff_of_false (by simp) ?_
        rintro ⟨⟨-, hnew, -⟩, -⟩
        rw [setAttr_eq_ok_iff.mpr ⟨hnew, rfl⟩] at hset
        cases hset
      | ok m' =>
        obtain ⟨hnew, rfl⟩ := setAttr_eq_ok_iff.mp hset
        show constructLoop _ _ _ = _ ↔ _
        rw [ih, and_iff_right hnew]
        have hfresh : (∀ e ∈ named pairs, HashMap.get? (HashMap.insert ks value m) e.1.contents = none) ↔
            (∀ e ∈ named pairs, ks.contents ≠ e.1.contents) ∧
              ∀ e ∈ named pairs, HashMap.get? m e.1.contents = none := by
          rw [← forall₂_and]
          refine forall₂_congr fun e _ => ?_
          rw [HashMap.get?_insert]
          show (if ks.contents = e.1.contents then _ else _) = _ ↔ _
          by_cases h : ks.contents = e.1.contents
          · simp [h]
          · simp [h]
        rw [hfresh]
        exact and_congr_left' and_assoc.symm
    | null =>
      show constructLoop pairs.length (pairs.flatMap fun p : Value × Value => [p.2, p.1]) m = _ ↔ _
      rw [ih, constructible_cons_null]
      rfl
    | _ =>
      refine iff_of_false (by simp [constructLoop]) fun h => ?_
      exact not_constructible_cons Value.noConfusion (fun _ => Value.noConfusion) h.1.1

namespace AttrsRep

theorem toMap_kv {s t : NixString} (hs : s.contents = NAME.contents) (ht : t.contents = VALUE.contents)
    (v w : Value) : (kv v w).toMap = HashMap.toSortedMap compare [(s, v), (t, w)] := by
  show SortedMap.ofList [(NAME.contents, v), (VALUE.contents, w)] =
    SortedMap.ofList [(s.contents, v), (t.contents, w)]
  rw [hs, ht]

end AttrsRep

/-- The optimisation takes two pairs whose keys are `name` and `value`, in either order. -/
theorem attemptOptimiseKv_eq_some {pairs : List (Value × Value)} {a : AttrsRep Value}
    (hlen : pairs.length = 2) (h : attemptOptimiseKv (stackOf pairs) = some a) :
    Constructible pairs ∧ a.Valid ∧ a.toMap = HashMap.toSortedMap compare (named pairs) := by
  obtain ⟨⟨k₁, v₁⟩, ⟨k₂, v₂⟩, rfl⟩ := List.length_eq_two.mp hlen
  have hkeys : ∀ {s t : NixString}, s.contents ≠ t.contents →
      Constructible [(.string s, v₁), (.string t, v₂)] := by
    intro s t hne
    rw [constructible_cons_string, constructible_cons_string]
    exact ⟨⟨⟨List.forall_mem_nil _, HashMap.distinct_nil⟩, List.forall_mem_nil _⟩,
      List.forall_mem_singleton.mpr hne⟩
  change attemptOptimiseKv [k₁, v₁, k₂, v₂] = some a at h
  unfold attemptOptimiseKv at h
  split at h
  · next s _ t _ heq =>
    obtain ⟨rfl, rfl, rfl, rfl, -⟩ : k₁ = .string s ∧ v₁ = _ ∧ k₂ = .string t ∧ v₂ = _ ∧ True := by
      simpa using heq
    simp only [NixString.eq, Bool.and_eq_true, decide_eq_true_eq] at h
    split at h
    · next hst =>
      obtain rfl : _ = a := Option.some.inj h
      have hne : s.contents ≠ t.contents := by
        rw [hst.1, hst.2]
        exact AttrsRep.name_ne_value.symm
      refine ⟨hkeys hne, AttrsRep.valid_kv _ _, ?_⟩
      rw [AttrsRep.fromKv, AttrsRep.toMap_kv hst.1 hst.2]
      refine HashMap.toSortedMap_perm ?_ (List.Perm.swap _ _ _)
      exact List.pairwise_pair.mpr hne.symm
    · split at h
      · next hst =>
        obtain rfl : _ = a := Option.some.inj h
        have hne : s.contents ≠ t.contents := by
          rw [hst.1, hst.2]
          exact AttrsRep.name_ne_value
        exact ⟨hkeys hne, AttrsRep.valid_kv _ _, AttrsRep.toMap_kv hst.2 hst.1 _ _⟩
      · cases h
  · cases h

theorem constructible_reverse {pairs : List (Value × Value)} :
    Constructible pairs.reverse ↔ Constructible pairs := by
  have hnamed : (named pairs.reverse).Perm (named pairs) := (List.reverse_perm pairs).filterMap _
  rw [Constructible, Constructible]
  refine and_congr (forall_congr' fun p => by rw [List.mem_reverse]) ?_
  exact ⟨fun h => h.perm hnamed, fun h => h.perm hnamed.symm⟩

/-- A construction that succeeds gives the map of the named pairs. -/
theorem construct_eq_ok {pairs : List (Value × Value)} {a : AttrsRep Value}
    (h : construct pairs.length (stackOf pairs) = some (.ok (.ok a))) :
    Constructible pairs ∧ a.Valid ∧ a.toMap = HashMap.toSortedMap compare (named pairs) := by
  unfold construct at h
  rw [if_neg (not_not.mpr (length_stackOf pairs))] at h
  split at h
  · next hzero =>
    obtain rfl := List.length_eq_zero_iff.mp hzero
    obtain rfl : _ = a := by simpa using h
    exact ⟨⟨List.forall_mem_nil _, HashMap.distinct_nil⟩, AttrsRep.valid_empty, rfl⟩
  · split at h
    · next kv hkv =>
      obtain rfl : kv = a := by simpa using h
      by_cases hlen : pairs.length = 2
      · rw [if_pos hlen] at hkv
        exact attemptOptimiseKv_eq_some hlen hkv
      · rw [if_neg hlen] at hkv
        cases hkv
    · rw [stackOf_reverse, ← List.length_reverse, constructLoop_eq_ok_iff] at h
      obtain ⟨⟨hpairs, -⟩, rfl⟩ := h
      have hvalid : (AttrsRep.map (HashMap.extend [] (named pairs.reverse))).Valid :=
        HashMap.distinct_nil.extend _
      have hperm : (named pairs.reverse).Perm (named pairs) := (List.reverse_perm pairs).filterMap _
      refine ⟨constructible_reverse.mp hpairs, hvalid, (AttrsRep.toMap_eq_iff hvalid).mpr fun k => ?_⟩
      rw [HashMap.get?_toSortedMap (hpairs.2.perm hperm), AttrsRep.select_eq_get?]
      refine (HashMap.get?_extend hpairs.2 [] k).trans ?_
      rw [HashMap.get?_nil, Option.or_none, HashMap.get?_perm hpairs.2 hperm]

theorem exists_construct_eq_ok {pairs : List (Value × Value)} (h : Constructible pairs) :
    ∃ a, construct pairs.length (stackOf pairs) = some (.ok (.ok a)) := by
  unfold construct
  rw [if_neg (not_not.mpr (length_stackOf pairs))]
  split
  · exact ⟨_, rfl⟩
  · split
    · exact ⟨_, rfl⟩
    · rw [stackOf_reverse, ← List.length_reverse]
      exact ⟨_, constructLoop_eq_ok_iff.mpr ⟨⟨constructible_reverse.mpr h, fun _ _ => rfl⟩, rfl⟩⟩

-- ====================
-- Runs
-- ====================

/-- Reading the attribute set is reading the finite map. -/
structure Agrees (a : AttrsRep Value) (m : AttrMap Value) : Prop where
  select : ∀ k, a.select k = m.get? k
  contains : ∀ k, a.contains k = m.contains k
  len : a.len = m.entries.length
  isEmpty : a.isEmpty = m.entries.isEmpty
  keysSorted : a.keysSorted.map NixString.contents = m.keys
  iterSorted : a.iterSorted.map HashMap.borrowed = m.entries
  intoIterSorted : a.intoIterSorted.map HashMap.borrowed = m.entries

/-- A sequence of operations leads to the attribute set, and the same operations on
    finite maps lead to the map. Between two of them a hash map may be laid out anew. -/
inductive Obtained : AttrsRep Value → AttrMap Value → Prop
  | construct {pairs : List (Value × Value)} {a : AttrsRep Value}
      (h : construct pairs.length (stackOf pairs) = some (.ok (.ok a))) :
      Obtained a (SortedMap.ofList ((named pairs).map HashMap.borrowed))
  | fromKv (name value : Value) :
      Obtained (.fromKv name value)
        (SortedMap.ofList [(NAME.contents, name), (VALUE.contents, value)])
  | fromIter (entries : List (NixString × Value)) :
      Obtained (.fromIter entries) (SortedMap.ofList (entries.map HashMap.borrowed))
  | update {a b : AttrsRep Value} {m n : AttrMap Value} (ha : Obtained a m) (hb : Obtained b n) :
      Obtained (a.update b) (m.union n)
  | intersect {a b : AttrsRep Value} {m n : AttrMap Value} (ha : Obtained a m) (hb : Obtained b n) :
      Obtained (a.intersect b) (m.inter n)
  | rehash {es es' : List (NixString × Value)} {m : AttrMap Value} (h : Obtained (.map es) m)
      (hp : es.Perm es') : Obtained (.map es') m

theorem AttrsRep.toMap_fromIter (l : List (NixString × Value)) :
    (fromIter l).toMap = SortedMap.ofList (l.map HashMap.borrowed) := by
  rw [toMap_eq_iff (valid_fromIter l)]
  intro k
  rw [select_eq_get?]
  exact HashMap.get?_extend_nil l k

/-- What is obtained has distinct keys and stands for the map. -/
theorem Obtained.toMap_eq {a : AttrsRep Value} {m : AttrMap Value} (h : Obtained a m) :
    a.Valid ∧ a.toMap = m := by
  induction h with
  | construct h => exact (construct_eq_ok h).2
  | fromKv name value => exact ⟨AttrsRep.valid_kv name value, rfl⟩
  | fromIter entries => exact ⟨AttrsRep.valid_fromIter entries, AttrsRep.toMap_fromIter entries⟩
  | update ha hb iha ihb =>
    obtain ⟨hva, rfl⟩ := iha
    obtain ⟨hvb, rfl⟩ := ihb
    exact ⟨AttrsRep.valid_update hva hvb, AttrsRep.toMap_update hva hvb⟩
  | intersect ha hb iha ihb =>
    obtain ⟨hva, rfl⟩ := iha
    obtain ⟨hvb, rfl⟩ := ihb
    exact ⟨AttrsRep.valid_intersect hvb, AttrsRep.toMap_intersect hva hvb⟩
  | rehash h hp ih =>
    obtain ⟨hv, rfl⟩ := ih
    exact ⟨HashMap.Distinct.perm hv hp, (HashMap.toSortedMap_perm hv hp).symm⟩

theorem AttrsRep.agrees_toMap {a : AttrsRep Value} (h : a.Valid) : Agrees a a.toMap where
  select := select_eq h
  contains k := by rw [contains_eq_isSome, select_eq h, SortedMap.contains_eq_isSome]
  len := len_eq h
  isEmpty := isEmpty_eq h
  keysSorted := by
    rw [keysSorted_eq, SortedMap.keys, entries_toMap h, List.map_map, List.map_map]
    rfl
  iterSorted := (entries_toMap h).symm
  intoIterSorted := by
    rw [entries_toMap h]
    cases a <;> rfl

/-- Attribute sets are finite maps, whatever their representation, and a construction
    succeeds exactly when each key is a string or null and no string occurs twice. -/
theorem obtained_agrees :
    (∀ a m, Obtained a m → Agrees a m) ∧
      ∀ pairs, (∃ a, construct pairs.length (stackOf pairs) = some (.ok (.ok a))) ↔
        Constructible pairs := by
  refine ⟨fun a m h => ?_, fun pairs => ⟨fun ⟨a, h⟩ => (construct_eq_ok h).1, exists_construct_eq_ok⟩⟩
  obtain ⟨hvalid, rfl⟩ := h.toMap_eq
  exact AttrsRep.agrees_toMap hvalid

end Snix.Eval
