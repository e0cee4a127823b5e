import Snix.Lib.SortedMap
import Snix.Lib.StableSort

/-!
# Hash maps

A hash map as the list of its entries, in the order an iteration meets them. That
order is not specified, so what is proved here does not depend on it. Keys are
compared, and looked up, by what they borrow as; a key keeps its other data.

## Main definitions

- `HashMap.insert`, `HashMap.orInsert` — insertion, with and without overwriting
- `HashMap.Distinct` — no key occurs twice
- `HashMap.sorted` — the entries in the order of their keys
- `HashMap.toSortedMap` — the map from borrowed keys

## Main results

- `get?_perm` — a lookup does not depend on the order of the entries
- `entries_toSortedMap` — the sorted entries are those of the map they stand for
- `toSortedMap_insert`, `toSortedMap_orInsert` — what the insertions do to that map
-/

namespace Snix

/-- Keys that are compared by what they borrow as. -/
class Borrow (K : Type) (B : outParam Type) where
  borrow : K → B

export Borrow (borrow)

variable {K V B : Type} [Borrow K B]

namespace HashMap

section Operations

variable [DecidableEq B]

def get? (m : List (K × V)) (b : B) : Option V := (m.find? fun e => borrow e.1 = b).map Prod.snd

def containsKey (m : List (K × V)) (b : B) : Bool := m.any fun e => borrow e.1 = b

/-- Insertion. A key that is there keeps its entry, with the new value. -/
def insert (k : K) (v : V) : List (K × V) → List (K × V)
  | [] => [(k, v)]
  | (k', v') :: m => if borrow k' = borrow k then (k', v) :: m else (k', v') :: insert k v m

/-- Insertion of a key that is not there yet. -/
def orInsert (k : K) (v : V) (m : List (K × V)) : List (K × V) :=
  if containsKey m (borrow k) then m else insert k v m

/-- Insertion of several entries, one after the other. -/
def extend (m es : List (K × V)) : List (K × V) := es.foldl (fun m e => insert e.1 e.2 m) m

end Operations

/-- No key occurs twice. -/
def Distinct (m : List (K × V)) : Prop := m.Pairwise fun x y => borrow x.1 ≠ borrow y.1

/-- The entry with its key as what it borrows as. -/
def borrowed (e : K × V) : B × V := (borrow e.1, e.2)

/-- The entries in the order of their keys. -/
def sorted (cmp : B → B → Ordering) (m : List (K × V)) : List (K × V) :=
  sortByKey cmp (fun e => borrow e.1) m

/-- The finite map from borrowed keys that the entries are. -/
def toSortedMap (cmp : B → B → Ordering) [Std.TransCmp cmp] (m : List (K × V)) : SortedMap cmp V :=
  SortedMap.ofList (m.map borrowed)

variable {m m' : List (K × V)} {k : K} {v : V} {b : B}

theorem distinct_nil : Distinct ([] : List (K × V)) := List.Pairwise.nil

namespace Distinct

theorem perm (h : Distinct m) (hp : m.Perm m') : Distinct m' :=
  hp.pairwise h fun hxy => hxy.symm

theorem head {e : K × V} (h : Distinct (e :: m)) : ∀ x ∈ m, borrow e.1 ≠ borrow x.1 :=
  (List.pairwise_cons.mp h).1

theorem tail {e : K × V} (h : Distinct (e :: m)) : Distinct m := (List.pairwise_cons.mp h).2

end Distinct

section Lookup

variable [DecidableEq B]

theorem containsKey_eq_isSome : containsKey m b = (get? m b).isSome := by
  rw [containsKey, get?, Option.isSome_map, Bool.eq_iff_iff, List.any_eq_true, List.find?_isSome]

theorem borrow_of_mem_insert {e : K × V} (h : e ∈ insert k v m) :
    borrow e.1 = borrow k ∨ e ∈ m := by
  induction m with
  | nil => exact .inl (congrArg (fun e => borrow e.1) (List.mem_singleton.mp h))
  | cons hd m ih =>
    rw [insert] at h
    split at h
    · next heq =>
      obtain rfl | h := List.mem_cons.mp h
      · exact .inl heq
      · exact .inr (List.mem_cons_of_mem _ h)
    · obtain rfl | h := List.mem_cons.mp h
      · exact .inr List.mem_cons_self
      · exact (ih h).imp_right (List.mem_cons_of_mem _)

theorem Distinct.insert (h : Distinct m) (k : K) (v : V) : Distinct (HashMap.insert k v m) := by
  induction m with
  | nil => exact List.pairwise_singleton _ _
  | cons hd m ih =>
    rw [HashMap.insert]
    split
    · exact List.pairwise_cons.mpr ⟨h.head, h.tail⟩
    · next hne =>
      refine List.pairwise_cons.mpr ⟨fun e he => ?_, ih h.tail⟩
      obtain heq | he := borrow_of_mem_insert he
      · rw [heq]
        exact hne
      · exact h.head e he

theorem Distinct.orInsert (h : Distinct m) (k : K) (v : V) : Distinct (HashMap.orInsert k v m) := by
  rw [HashMap.orInsert]
  split
  · exact h
  · exact h.insert k v

theorem Distinct.extend (h : Distinct m) (es : List (K × V)) : Distinct (HashMap.extend m es) := by
  rw [HashMap.extend]
  induction es generalizing m with
  | nil => exact h
  | cons e es ih => exact ih (h.insert e.1 e.2)

theorem get?_nil (b : B) : get? ([] : List (K × V)) b = none := rfl

theorem get?_insert : get? (insert k v m) b = if borrow k = b then some v else get? m b := by
  induction m with
  | nil =>
    rw [insert, get?, List.find?_singleton]
    by_cases hb : borrow k = b
    · simp [hb]
    · simp [hb, get?]
  | cons hd m ih =>
    rw [insert]
    unfold get? at ih ⊢
    split
    · next heq =>
      rw [List.find?_cons, List.find?_cons, heq]
      by_cases hb : borrow k = b
      · simp [hb]
      · simp [hb]
    · next hne =>
      rw [List.find?_cons, List.find?_cons]
      by_cases hb : borrow hd.1 = b
      · have hkb : borrow k ≠ b := fun h => hne (hb.trans h.symm)
        simp [hb, hkb]
      · simp only [hb, decide_false]
        exact ih

theorem get?_orInsert :
    get? (orInsert k v m) b = (get? m b).or (if borrow k = b then some v else none) := by
  rw [orInsert]
  split
  · next h =>
    rw [containsKey_eq_isSome] at h
    split
    · next heq =>
      subst heq
      obtain ⟨w, hw⟩ := Option.isSome_iff_exists.mp h
      rw [hw, Option.some_or]
    · rw [Option.or_none]
  · next h =>
    rw [Bool.not_eq_true, containsKey_eq_isSome, Option.isSome_eq_false_iff, Option.isNone_iff_eq_none] at h
    rw [get?_insert]
    split
    · next heq =>
      subst heq
      rw [h, Option.none_or]
    · rw [Option.or_none]

/-- In a map, a lookup finds the one entry with the key. -/
theorem get?_eq_some_iff (h : Distinct m) : get? m b = some v ↔ ∃ k, borrow k = b ∧ (k, v) ∈ m := by
  induction m with
  | nil => simp [get?]
  | cons hd m ih =>
    unfold get? at ih ⊢
    rw [List.find?_cons]
    by_cases hb : borrow hd.1 = b
    · simp only [hb, decide_true, Option.map_some, Option.some.injEq]
      constructor
      · rintro rfl
        exact ⟨hd.1, hb, List.mem_cons_self⟩
      · rintro ⟨k, hk, hmem⟩
        obtain heq | hmem := List.mem_cons.mp hmem
        · exact (congrArg Prod.snd heq).symm
        · exact absurd (hb.trans hk.symm) (h.head _ hmem)
    · simp only [hb, decide_false]
      rw [ih h.tail]
      constructor
      · rintro ⟨k, hk, hmem⟩
        exact ⟨k, hk, List.mem_cons_of_mem _ hmem⟩
      · rintro ⟨k, hk, hmem⟩
        obtain heq | hmem := List.mem_cons.mp hmem
        · exact absurd ((congrArg (fun e => borrow e.1) heq).symm.trans hk) hb
        · exact ⟨k, hk, hmem⟩

/-- A lookup does not depend on the order of the entries. -/
theorem get?_perm (h : Distinct m) (hp : m.Perm m') (b : B) : get? m b = get? m' b := by
  refine Option.ext fun v => ?_
  rw [get?_eq_some_iff h, get?_eq_some_iff (h.perm hp)]
  exact exists_congr fun k => and_congr_right fun _ => hp.mem_iff

theorem get?_extend {es : List (K × V)} (h : Distinct es) (m : List (K × V)) (b : B) :
    get? (extend m es) b = (get? es b).or (get? m b) := by
  rw [extend]
  induction es generalizing m with
  | nil => rfl
  | cons e es ih =>
    rw [List.foldl_cons, ih h.tail, get?_insert]
    by_cases hb : borrow e.1 = b
    · have hnone : get? es b = none := by
        refine Option.eq_none_iff_forall_ne_some.mpr fun v hv => ?_
        obtain ⟨k, hk, hmem⟩ := (get?_eq_some_iff h.tail).mp hv
        exact h.head _ hmem (hb.trans hk.symm)
      rw [hnone, Option.none_or, if_pos hb, get?, List.find?_cons_of_pos (by simpa using hb)]
      rfl
    · rw [if_neg hb, get?, get?, get?, List.find?_cons_of_neg (by simpa using hb)]

theorem insert_of_not_mem (h : ∀ x ∈ m, borrow k ≠ borrow x.1) : insert k v m = m ++ [(k, v)] := by
  induction m with
  | nil => rfl
  | cons x m ih =>
    rw [insert, if_neg (h x List.mem_cons_self).symm,
      ih fun y hy => h y (List.mem_cons_of_mem _ hy)]
    rfl

/-- Entries with new keys are put behind the others. -/
theorem extend_of_distinct {es : List (K × V)} (h : Distinct (m ++ es)) : extend m es = m ++ es := by
  induction es generalizing m with
  | nil => rw [List.append_nil, extend, List.foldl_nil]
  | cons e es ih =>
    have hnew : ∀ x ∈ m, borrow e.1 ≠ borrow x.1 := fun x hx =>
      ((List.pairwise_append.mp h).2.2 x hx e List.mem_cons_self).symm
    have hrest : Distinct (m ++ [e] ++ es) := by
      rwa [List.append_assoc]
    have hstep := ih hrest
    rw [extend] at hstep ⊢
    rw [List.foldl_cons, insert_of_not_mem hnew, hstep, List.append_assoc]
    rfl

theorem get?_foldl_orInsert {es : List (K × V)} (h : Distinct es) (m : List (K × V)) (b : B) :
    get? (es.foldl (fun m e => orInsert e.1 e.2 m) m) b = (get? m b).or (get? es b) := by
  induction es generalizing m with
  | nil => rw [List.foldl_nil, get?, get?, List.find?_nil, Option.map_none, Option.or_none]
  | cons e es ih =>
    rw [List.foldl_cons, ih h.tail, get?_orInsert, Option.or_assoc]
    congr 1
    rw [get?, get?, List.find?_cons]
    by_cases hb : borrow e.1 = b
    · simp [hb]
    · simp [hb]

theorem Distinct.foldl_orInsert (h : Distinct m) (es : List (K × V)) :
    Distinct (es.foldl (fun m e => HashMap.orInsert e.1 e.2 m) m) := by
  induction es generalizing m with
  | nil => exact h
  | cons e es ih => exact ih (h.orInsert e.1 e.2)

/-- The entries that `f` gives the keys of a list, collected. -/
def collectSome (f : K × V → Option V) (es : List (K × V)) : List (K × V) :=
  es.foldl (fun out e =>
    match f e with
    | some v => insert e.1 v out
    | none => out) []

theorem collectSome_eq (f : K × V → Option V) (es : List (K × V)) :
    collectSome f es = extend [] (es.filterMap fun e => (f e).map fun v => (e.1, v)) := by
  rw [collectSome, extend, List.foldl_filterMap]
  congr 1
  funext out e
  cases f e with
  | none => rfl
  | some v => rfl

theorem distinct_collectSome (f : K × V → Option V) (es : List (K × V)) :
    Distinct (collectSome f es) := by
  rw [collectSome_eq]
  exact distinct_nil.extend _

theorem get?_collectSome (f : K × V → Option V) {es : List (K × V)} (h : Distinct es) (b : B) :
    get? (collectSome f es) b = (es.find? fun e => borrow e.1 = b).bind f := by
  have hdistinct : Distinct (es.filterMap fun e => (f e).map fun v => (e.1, v)) := by
    refine List.pairwise_filterMap.mpr (h.imp fun {x y} hxy => ?_)
    intro x' hx y' hy
    obtain ⟨_, -, rfl⟩ := Option.map_eq_some_iff.mp hx
    obtain ⟨_, -, rfl⟩ := Option.map_eq_some_iff.mp hy
    exact hxy
  rw [collectSome_eq, get?_extend hdistinct]
  clear hdistinct
  induction es with
  | nil => rfl
  | cons e es ih =>
    rw [List.find?_cons, List.filterMap_cons]
    by_cases hb : borrow e.1 = b
    · simp only [hb, decide_true, Option.bind_some]
      cases hf : f e with
      | none =>
        rw [Option.map_none]
        -- no other entry has the key
        refine (ih h.tail).trans ?_
        rw [List.find?_eq_none.mpr, Option.bind_none]
        intro x hx
        simpa [← hb] using (h.head x hx).symm
      | some v => simp [get?, hb]
    · simp only [hb, decide_false]
      refine Eq.trans ?_ (ih h.tail)
      cases hf : f e with
      | none => rfl
      | some v => simp [get?, hb]

end Lookup

-- ====================
-- The map the entries stand for
-- ====================

variable {cmp : B → B → Ordering} [Std.TransCmp cmp]

omit [Std.TransCmp cmp] in
theorem sorted_perm (m : List (K × V)) : (sorted cmp m).Perm m := List.perm_insertionSort _ m

/-- Keys that differ are sorted strictly. -/
theorem pairwise_sorted [Std.LawfulEqCmp cmp] (h : Distinct m) :
    (sorted cmp m).Pairwise fun x y => cmp (borrow x.1) (borrow y.1) = .lt := by
  have hle : (sorted cmp m).Pairwise (keyLe cmp fun e => borrow e.1) := pairwise_sortByKey m
  have hne : Distinct (sorted cmp m) := h.perm (sorted_perm m).symm
  refine (List.Pairwise.and hle hne).imp fun {x y} hxy => ?_
  obtain hlt | heq := Ordering.isLE_iff_eq_lt_or_eq_eq.mp hxy.1
  · exact hlt
  · exact absurd (Std.LawfulEqCmp.eq_of_compare heq) hxy.2

/-- The sorted entries are those of the map they stand for. -/
theorem entries_toSortedMap [Std.LawfulEqCmp cmp] (h : Distinct m) :
    (toSortedMap cmp m).entries = (sorted cmp m).map borrowed := by
  have hsorted : ((sorted cmp m).map borrowed).Pairwise (entryLt cmp) :=
    List.pairwise_map.mpr (pairwise_sorted h)
  exact congrArg SortedMap.entries (SortedMap.ofList_eq_of_perm (m := ⟨_, hsorted⟩)
    ((sorted_perm m).symm.map borrowed))

theorem length_toSortedMap [Std.LawfulEqCmp cmp] (h : Distinct m) :
    (toSortedMap cmp m).entries.length = m.length := by
  rw [entries_toSortedMap h, List.length_map, (sorted_perm m).length_eq]

/-- Equal entries in another order stand for the same map. -/
theorem toSortedMap_perm [Std.LawfulEqCmp cmp] (h : Distinct m) (hp : m.Perm m') :
    toSortedMap cmp m = toSortedMap cmp m' := by
  refine SortedMap.eq_of_perm ?_
  rw [entries_toSortedMap h, entries_toSortedMap (h.perm hp)]
  exact (((sorted_perm m).trans hp).trans (sorted_perm m').symm).map borrowed

theorem get?_toSortedMap [DecidableEq B] [Std.LawfulEqCmp cmp] (h : Distinct m) (b : B) :
    (toSortedMap cmp m).get? b = get? m b := by
  refine Option.ext fun v => ?_
  rw [SortedMap.get?_eq_some_iff, entries_toSortedMap h, get?_eq_some_iff h, List.mem_map]
  constructor
  · rintro ⟨⟨k, w⟩, hmem, heq⟩
    obtain ⟨rfl, rfl⟩ := Prod.mk.inj heq
    exact ⟨k, rfl, (sorted_perm m).mem_iff.mp hmem⟩
  · rintro ⟨k, rfl, hmem⟩
    exact ⟨(k, v), (sorted_perm m).mem_iff.mpr hmem, rfl⟩

/-- Collecting a list into a hash map and into a sorted map is the same map. -/
theorem get?_extend_nil [DecidableEq B] [Std.LawfulEqCmp cmp] (l : List (K × V)) (b : B) :
    get? (extend [] l) b = (SortedMap.ofList (l.map borrowed) : SortedMap cmp V).get? b := by
  suffices ∀ (m : List (K × V)) (m' : SortedMap cmp V), (∀ b, get? m b = m'.get? b) →
      get? (extend m l) b = ((l.map borrowed).foldl (fun m e => m.insert e.1 e.2) m').get? b from
    this [] SortedMap.empty fun _ => rfl
  induction l with
  | nil => exact fun m m' h => h b
  | cons e l ih =>
    intro m m' h
    refine ih _ _ fun b => ?_
    rw [get?_insert, SortedMap.get?_insert, h b]
    rfl

end HashMap

end Snix
