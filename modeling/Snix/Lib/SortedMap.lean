import Mathlib.Data.List.Basic
import Mathlib.Data.List.Sort

/-!
# Maps kept sorted by key

An ordered map over an arbitrary three-way comparison of keys. The entries are
a list that is strictly ascending, and the proof of that is part of the value,
so two maps with the same entries are equal. Keys that compare equal are the
same key of the map even when they differ as values.

## Main definitions

- `SortedMap` — the map; `SortedSet` — the map without values
- `SortedMap.insert` — insertion, which keeps the stored key on a hit
- `SortedMap.ofList` — collects a list
- `SortedMap.collectNew` — converts and collects a list, refusing a repeated key

## Main results

- `ofList_eq_of_perm` — collecting the entries of a map in any order rebuilds it
- `collectNew_of_perm` — so does collecting them with the repetition check
- `perm_of_collectNew` — whatever the checked collection accepts, it keeps
-/

namespace Snix

variable {α β γ ε : Type} {cmp : α → α → Ordering}

/-- The order of two entries is the order of their keys. -/
def entryLt (cmp : α → α → Ordering) (x y : α × β) : Prop := cmp x.1 y.1 = .lt

/-- A finite map from `α` to `β`, sorted strictly by `cmp`. -/
structure SortedMap (cmp : α → α → Ordering) (β : Type) where
  entries : List (α × β)
  sorted : entries.Pairwise (entryLt cmp)

/-- A finite set, sorted strictly by `cmp`. -/
abbrev SortedSet (cmp : α → α → Ordering) := SortedMap cmp Unit

namespace SortedMap

@[ext] theorem ext {m m' : SortedMap cmp β} (h : m.entries = m'.entries) : m = m' := by
  cases m
  cases m'
  simpa using h

instance [DecidableEq α] [DecidableEq β] : DecidableEq (SortedMap cmp β) := fun m m' =>
  decidable_of_iff (m.entries = m'.entries) ⟨ext, fun h => h ▸ rfl⟩

/-- The empty map. -/
def empty : SortedMap cmp β := ⟨[], List.Pairwise.nil⟩

/-- The keys, in ascending order. -/
def keys (m : SortedMap cmp β) : List α := m.entries.map Prod.fst

/-- The elements of a set, in ascending order. -/
abbrev elems (s : SortedSet cmp) : List α := s.keys

/-- The value stored under `k`. -/
def get? (m : SortedMap cmp β) (k : α) : Option β :=
  (m.entries.find? fun e => cmp k e.1 == .eq).map Prod.snd

/-- Is there an entry under `k`? -/
def contains (m : SortedMap cmp β) (k : α) : Bool :=
  m.entries.any fun e => cmp k e.1 == .eq

/-- Insertion into the entry list. On a hit the value is replaced and the
    stored key stays. -/
def insertEntry (cmp : α → α → Ordering) (k : α) (v : β) : List (α × β) → List (α × β)
  | [] => [(k, v)]
  | (k', v') :: rest =>
    match cmp k k' with
    | .lt => (k, v) :: (k', v') :: rest
    | .eq => (k', v) :: rest
    | .gt => (k', v') :: insertEntry cmp k v rest

theorem mem_insertEntry {k : α} {v : β} {l : List (α × β)} {e : α × β}
    (h : e ∈ insertEntry cmp k v l) :
    e = (k, v) ∨ e ∈ l ∨ ∃ k' v', (k', v') ∈ l ∧ cmp k k' = .eq ∧ e = (k', v) := by
  induction l with
  | nil => exact .inl (by simpa [insertEntry] using h)
  | cons hd tl ih =>
    obtain ⟨k', v'⟩ := hd
    rw [insertEntry] at h
    split at h
    · rcases List.mem_cons.mp h with rfl | h
      · exact .inl rfl
      · exact .inr (.inl h)
    · next heq =>
      rcases List.mem_cons.mp h with rfl | h
      · exact .inr (.inr ⟨k', v', by simp, heq, rfl⟩)
      · exact .inr (.inl (by simp [h]))
    · rcases List.mem_cons.mp h with rfl | h
      · exact .inr (.inl (by simp))
      · rcases ih h with h | h | ⟨k'', v'', hm, hc, rfl⟩
        · exact .inl h
        · exact .inr (.inl (by simp [h]))
        · exact .inr (.inr ⟨k'', v'', by simp [hm], hc, rfl⟩)

/-- A fresh key only adds its own entry. -/
theorem insertEntry_perm {k : α} {v : β} {l : List (α × β)}
    (h : ∀ e ∈ l, cmp k e.1 ≠ .eq) : (insertEntry cmp k v l).Perm ((k, v) :: l) := by
  induction l with
  | nil => exact List.Perm.refl _
  | cons hd tl ih =>
    obtain ⟨k', v'⟩ := hd
    rw [insertEntry]
    split
    · exact List.Perm.refl _
    · next heq => exact absurd heq (h (k', v') (by simp))
    · exact ((ih fun e he => h e (by simp [he])).cons (k', v')).trans (List.Perm.swap _ _ _)

/-- A key greater than all others goes to the end. -/
theorem insertEntry_of_gt {k : α} {v : β} {l : List (α × β)} (h : ∀ e ∈ l, cmp k e.1 = .gt) :
    insertEntry cmp k v l = l ++ [(k, v)] := by
  induction l with
  | nil => rfl
  | cons hd tl ih =>
    obtain ⟨k', v'⟩ := hd
    rw [insertEntry, h (k', v') List.mem_cons_self]
    exact congrArg (List.cons (k', v')) (ih fun e he => h e (List.mem_cons_of_mem _ he))

theorem insertEntry_sorted [Std.TransCmp cmp] {k : α} {v : β} {l : List (α × β)}
    (h : l.Pairwise (entryLt cmp)) : (insertEntry cmp k v l).Pairwise (entryLt cmp) := by
  induction l with
  | nil => simp [insertEntry]
  | cons hd tl ih =>
    obtain ⟨k', v'⟩ := hd
    obtain ⟨hhd, htl⟩ := List.pairwise_cons.mp h
    rw [insertEntry]
    split
    · next hlt =>
      refine List.pairwise_cons.mpr ⟨fun e he => ?_, h⟩
      rcases List.mem_cons.mp he with rfl | he
      · exact hlt
      · exact Std.TransCmp.lt_trans hlt (hhd e he)
    · exact List.pairwise_cons.mpr ⟨hhd, htl⟩
    · next hgt =>
      have hlt : cmp k' k = .lt := Std.OrientedCmp.gt_iff_lt.mp hgt
      refine List.pairwise_cons.mpr ⟨fun e he => ?_, ih htl⟩
      rcases mem_insertEntry he with rfl | he | ⟨k'', v'', hm, -, rfl⟩
      · exact hlt
      · exact hhd e he
      · exact hhd (k'', v'') hm

/-- Insertion. -/
def insert [Std.TransCmp cmp] (m : SortedMap cmp β) (k : α) (v : β) : SortedMap cmp β :=
  ⟨insertEntry cmp k v m.entries, insertEntry_sorted m.sorted⟩

/-- Removal of a key. -/
def erase (m : SortedMap cmp β) (k : α) : SortedMap cmp β :=
  ⟨m.entries.filter fun e => cmp k e.1 != .eq, m.sorted.filter _⟩

/-- Collects the entries of a list, later ones overwriting earlier ones. -/
def ofList [Std.TransCmp cmp] (l : List (α × β)) : SortedMap cmp β :=
  l.foldl (fun m e => m.insert e.1 e.2) empty

/-- Converts the elements of a list one by one and inserts them, refusing a key
    already present with the error `dup` reports for it. -/
def collectNew [Std.TransCmp cmp] (conv : γ → Except ε (α × β)) (dup : γ → α → ε) :
    List γ → SortedMap cmp β → Except ε (SortedMap cmp β)
  | [], m => .ok m
  | x :: rest, m =>
    match conv x with
    | .error e => .error e
    | .ok e =>
      if m.contains e.1 then .error (dup x e.1)
      else collectNew conv dup rest (m.insert e.1 e.2)

theorem contains_eq_false {m : SortedMap cmp β} {k : α} :
    m.contains k = false ↔ ∀ e ∈ m.entries, cmp k e.1 ≠ .eq := by
  simp [contains]

/-- Two maps whose entries are the same up to order are equal. -/
theorem eq_of_perm [Std.TransCmp cmp] {m m' : SortedMap cmp β}
    (h : m.entries.Perm m'.entries) : m = m' := by
  refine ext (List.Perm.eq_of_pairwise ?_ m.sorted m'.sorted h)
  intro a b _ _ hab hba
  have hgt : cmp a.1 b.1 = .gt := Std.OrientedCmp.gt_iff_lt.mpr hba
  rw [entryLt, hgt] at hab
  cases hab

/-- Entries of a map other than `e` have keys that differ from that of `e`. -/
theorem cmp_ne_eq_of_nodup [Std.TransCmp cmp] {e : α × β} {l : List (α × β)}
    {m : SortedMap cmp β} (h : (e :: l).Perm m.entries) :
    ∀ e' ∈ l, cmp e.1 e'.1 ≠ .eq := by
  have hsym : m.entries.Pairwise (fun x y => cmp x.1 y.1 ≠ .eq) :=
    m.sorted.imp fun {x y} (hxy : cmp x.1 y.1 = .lt) => by rw [hxy]; decide
  have hl : (e :: l).Pairwise (fun x y => cmp x.1 y.1 ≠ .eq) := by
    refine (h.pairwise_iff fun {x y} hxy hyx => hxy ?_).mpr hsym
    exact Std.OrientedCmp.eq_symm hyx
  exact (List.pairwise_cons.mp hl).1

theorem get?_of_mem [Std.TransCmp cmp] {m : SortedMap cmp β} {k : α} {v : β}
    (h : (k, v) ∈ m.entries) : m.get? k = some v := by
  obtain ⟨l₁, l₂, hsplit⟩ := List.append_of_mem h
  have hsorted := m.sorted
  rw [hsplit, List.pairwise_append] at hsorted
  -- an entry before this one has a smaller key
  have hbefore : l₁.find? (fun e => cmp k e.1 == .eq) = none := by
    rw [List.find?_eq_none]
    intro e he
    have hlt : cmp e.1 k = .lt := hsorted.2.2 e he (k, v) List.mem_cons_self
    rw [Std.OrientedCmp.gt_of_lt hlt]
    simp
  unfold get?
  rw [hsplit, List.find?_append, hbefore, Option.none_or,
    List.find?_cons_of_pos (by simp [Std.ReflCmp.compare_self])]
  rfl

/-- One insertion of a fresh key, seen on the entries. -/
theorem insert_perm [Std.TransCmp cmp] {m : SortedMap cmp β} {k : α} {v : β}
    (h : m.contains k = false) : (m.insert k v).entries.Perm ((k, v) :: m.entries) :=
  insertEntry_perm (contains_eq_false.mp h)

theorem collectNew_cons_eq_ok_iff [Std.TransCmp cmp] {conv : γ → Except ε (α × β)} {dup : γ → α → ε}
    {x : γ} {rest : List γ} {m m' : SortedMap cmp β} :
    collectNew conv dup (x :: rest) m = .ok m' ↔
      ∃ e, conv x = .ok e ∧ m.contains e.1 = false ∧
        collectNew conv dup rest (m.insert e.1 e.2) = .ok m' := by
  rw [collectNew]
  cases conv x with
  | error e =>
    refine iff_of_false (fun h => by cases h) ?_
    rintro ⟨_, h, -⟩
    cases h
  | ok e =>
    simp only [Except.ok.injEq, exists_eq_left']
    cases m.contains e.1 with
    | false => simp
    | true => exact iff_of_false (fun h => by cases h) fun h => by cases h.1

/-- Whatever the checked collection accepts, it keeps. -/
theorem perm_of_collectNew [Std.TransCmp cmp] {conv : γ → Except ε (α × β)} {dup : γ → α → ε}
    {l : List γ} {m m' : SortedMap cmp β} (h : collectNew conv dup l m = .ok m') :
    ∃ es, List.Forall₂ (fun x e => conv x = .ok e) l es ∧ m'.entries.Perm (es ++ m.entries) := by
  induction l generalizing m with
  | nil =>
    obtain rfl : m = m' := by simpa [collectNew] using h
    exact ⟨[], .nil, List.Perm.refl _⟩
  | cons x rest ih =>
    rw [collectNew] at h
    split at h
    · cases h
    · next e hconv =>
      split at h
      · cases h
      · next hnew =>
        obtain ⟨es, hes, hperm⟩ := ih h
        refine ⟨e :: es, .cons hconv hes, hperm.trans ?_⟩
        have hins := insert_perm (v := e.2) (by simpa using hnew)
        exact (hins.append_left es).trans List.perm_middle

/-- The checked collection accepts the entries of a map in any order. -/
theorem collectNew_of_perm [Std.TransCmp cmp] {conv : γ → Except ε (α × β)}
    {dup : γ → α → ε} {l : List γ} {es : List (α × β)} {m m' : SortedMap cmp β}
    (hconv : List.Forall₂ (fun x e => conv x = .ok e) l es)
    (h : (es ++ m.entries).Perm m'.entries) : collectNew conv dup l m = .ok m' := by
  induction hconv generalizing m with
  | nil => exact congrArg Except.ok (eq_of_perm h)
  | @cons x e rest es hx _ ih =>
    have hnew : m.contains e.1 = false :=
      contains_eq_false.mpr fun y hy =>
        cmp_ne_eq_of_nodup (l := es ++ m.entries) h y (by simp [hy])
    rw [collectNew, hx]
    simp only [hnew, Bool.false_eq_true, if_false]
    refine ih (List.Perm.trans ?_ h)
    exact ((insert_perm hnew).append_left es).trans List.perm_middle

/-- The checked collection accepts entries whose keys differ. -/
theorem exists_collectNew [Std.TransCmp cmp] {conv : γ → Except ε (α × β)}
    {dup : γ → α → ε} {l : List γ} {es : List (α × β)} {m : SortedMap cmp β}
    (hconv : List.Forall₂ (fun x e => conv x = .ok e) l es)
    (h : es.Pairwise fun x y => cmp x.1 y.1 ≠ .eq)
    (hm : ∀ x ∈ es, ∀ y ∈ m.entries, cmp x.1 y.1 ≠ .eq) :
    ∃ m', collectNew conv dup l m = .ok m' := by
  induction hconv generalizing m with
  | nil => exact ⟨m, rfl⟩
  | @cons x e rest es hx _ ih =>
    obtain ⟨hhd, htl⟩ := List.pairwise_cons.mp h
    have hnew : m.contains e.1 = false := contains_eq_false.mpr (hm e (by simp))
    rw [collectNew, hx]
    simp only [hnew, Bool.false_eq_true, if_false]
    refine ih htl fun y hy z hz => ?_
    rcases List.mem_cons.mp ((insert_perm hnew).mem_iff.mp hz) with rfl | hz
    · exact fun hyz => hhd y hy (Std.OrientedCmp.eq_symm hyz)
    · exact hm y (by simp [hy]) z hz

/-- Plain collection of the entries of a map, in any order, on top of others. -/
theorem foldl_insert_of_perm [Std.TransCmp cmp] {l : List (α × β)} {m m' : SortedMap cmp β}
    (h : (l ++ m.entries).Perm m'.entries) :
    l.foldl (fun m e => m.insert e.1 e.2) m = m' := by
  induction l generalizing m with
  | nil => exact eq_of_perm h
  | cons e rest ih =>
    have hnew : m.contains e.1 = false :=
      contains_eq_false.mpr fun y hy =>
        cmp_ne_eq_of_nodup (l := rest ++ m.entries) h y (by simp [hy])
    refine ih (List.Perm.trans ?_ h)
    exact ((insert_perm hnew).append_left rest).trans List.perm_middle

theorem mem_keys_insert [Std.TransCmp cmp] {m : SortedMap cmp β} {k k' : α} {v : β}
    (h : k' ∈ (m.insert k v).keys) : k' = k ∨ k' ∈ m.keys := by
  obtain ⟨e, he, rfl⟩ := List.mem_map.mp h
  obtain rfl | he | ⟨k', v', hmem, -, rfl⟩ := mem_insertEntry he
  · exact .inl rfl
  · exact .inr (List.mem_map_of_mem he)
  · exact .inr (List.mem_map.mpr ⟨_, hmem, rfl⟩)

/-- A stored key stays. -/
theorem mem_keys_insert_of_mem [Std.TransCmp cmp] {m : SortedMap cmp β} {k k' : α} {v : β}
    (h : k' ∈ m.keys) : k' ∈ (m.insert k v).keys := by
  obtain ⟨⟨k', v'⟩, he, rfl⟩ := List.mem_map.mp h
  suffices ∀ l : List (α × β), (k', v') ∈ l → k' ∈ (insertEntry cmp k v l).map Prod.fst from this _ he
  intro l hl
  induction l with
  | nil => cases hl
  | cons hd tl ih =>
    rw [insertEntry]
    cases cmp k hd.1 with
    | lt => exact List.mem_cons_of_mem _ (List.mem_map_of_mem hl)
    | eq =>
      obtain rfl | hl := List.mem_cons.mp hl
      · exact List.mem_cons_self
      · exact List.mem_cons_of_mem _ (List.mem_map_of_mem hl)
    | gt =>
      obtain rfl | hl := List.mem_cons.mp hl
      · exact List.mem_cons_self
      · exact List.mem_cons_of_mem _ (ih hl)

/-- After an insertion some key compares equal to the inserted one. -/
theorem exists_key_insert [Std.TransCmp cmp] (m : SortedMap cmp β) (k : α) (v : β) :
    ∃ k' ∈ (m.insert k v).keys, cmp k k' = .eq := by
  suffices ∀ l : List (α × β), ∃ k' ∈ (insertEntry cmp k v l).map Prod.fst, cmp k k' = .eq from
    this m.entries
  intro l
  induction l with
  | nil => exact ⟨k, List.mem_cons_self, Std.ReflCmp.compare_self⟩
  | cons hd tl ih =>
    rw [insertEntry]
    cases hc : cmp k hd.1 with
    | lt => exact ⟨k, List.mem_cons_self, Std.ReflCmp.compare_self⟩
    | eq => exact ⟨hd.1, List.mem_cons_self, hc⟩
    | gt =>
      obtain ⟨k', hmem, heq⟩ := ih
      exact ⟨k', List.mem_cons_of_mem _ hmem, heq⟩

/-- The keys of a collection: each is one of the list, and each of the list compares equal to one. -/
theorem keys_foldl_insert [Std.TransCmp cmp] (l : List (α × β)) (m : SortedMap cmp β) :
    (∀ k ∈ (l.foldl (fun m e => m.insert e.1 e.2) m).keys, k ∈ m.keys ∨ ∃ e ∈ l, e.1 = k) ∧
      (∀ k ∈ m.keys, k ∈ (l.foldl (fun m e => m.insert e.1 e.2) m).keys) ∧
      ∀ e ∈ l, ∃ k ∈ (l.foldl (fun m e => m.insert e.1 e.2) m).keys, cmp e.1 k = .eq := by
  induction l generalizing m with
  | nil => exact ⟨fun k hk => .inl hk, fun k hk => hk, fun e he => by cases he⟩
  | cons e l ih =>
    obtain ⟨hfrom, hkeep, hfound⟩ := ih (m.insert e.1 e.2)
    refine ⟨fun k hk => ?_, fun k hk => hkeep k (mem_keys_insert_of_mem hk), fun x hx => ?_⟩
    · obtain hk | ⟨x, hx, rfl⟩ := hfrom k hk
      · obtain rfl | hk := mem_keys_insert hk
        · exact .inr ⟨e, List.mem_cons_self, rfl⟩
        · exact .inl hk
      · exact .inr ⟨x, List.mem_cons_of_mem _ hx, rfl⟩
    · obtain rfl | hx := List.mem_cons.mp hx
      · obtain ⟨k, hk, heq⟩ := exists_key_insert m x.1 x.2
        exact ⟨k, hkeep k hk, heq⟩
      · exact hfound x hx

/-- The entries after an insertion: the new one, and those of other keys. -/
theorem mem_entries_insert_iff [Std.TransCmp cmp] [Std.LawfulEqCmp cmp] {m : SortedMap cmp β} {k : α}
    {v : β} {e : α × β} : e ∈ (m.insert k v).entries ↔ e = (k, v) ∨ (e ∈ m.entries ∧ e.1 ≠ k) := by
  suffices ∀ l : List (α × β), l.Pairwise (entryLt cmp) →
      (e ∈ insertEntry cmp k v l ↔ e = (k, v) ∨ (e ∈ l ∧ e.1 ≠ k)) from this _ m.sorted
  intro l hl
  induction l with
  | nil => simp [insertEntry]
  | cons hd tl ih =>
    obtain ⟨k', v'⟩ := hd
    obtain ⟨hhd, htl⟩ := List.pairwise_cons.mp hl
    have hne : ∀ {a b : α}, cmp a b = .lt → b ≠ a := by
      intro a b hlt heq
      have hself : cmp a a = .eq := Std.ReflCmp.compare_self
      rw [heq, hself] at hlt
      cases hlt
    rw [insertEntry]
    cases hc : cmp k k' with
    | lt =>
      have hall : e ∈ (k', v') :: tl → e.1 ≠ k := by
        intro he
        obtain rfl | he := List.mem_cons.mp he
        · exact hne hc
        · exact hne (Std.TransCmp.lt_trans hc (hhd e he))
      rw [List.mem_cons, and_iff_left_of_imp hall]
    | eq =>
      obtain rfl : k = k' := Std.LawfulEqCmp.eq_of_compare hc
      rw [List.mem_cons, List.mem_cons]
      refine or_congr_right ⟨fun he => ⟨.inr he, hne (hhd e he)⟩, ?_⟩
      rintro ⟨rfl | he, hk⟩
      · exact absurd rfl hk
      · exact he
    | gt =>
      rw [List.mem_cons, List.mem_cons, ih htl]
      constructor
      · rintro (rfl | rfl | ⟨he, hk⟩)
        · exact .inr ⟨.inl rfl, (hne (Std.OrientedCmp.gt_iff_lt.mp hc)).symm⟩
        · exact .inl rfl
        · exact .inr ⟨.inr he, hk⟩
      · rintro (rfl | ⟨rfl | he, hk⟩)
        · exact .inr (.inl rfl)
        · exact .inl rfl
        · exact .inr (.inr ⟨he, hk⟩)

theorem mem_entries_erase_iff [Std.TransCmp cmp] [Std.LawfulEqCmp cmp] {m : SortedMap cmp β} {k : α}
    {e : α × β} : e ∈ (m.erase k).entries ↔ e ∈ m.entries ∧ e.1 ≠ k := by
  rw [erase, List.mem_filter, bne_iff_ne, Ne, Std.LawfulEqCmp.compare_eq_iff_eq, @eq_comm _ k]

/-- The entries after inserting those of a list whose keys differ. -/
theorem mem_entries_foldl_insert_iff [Std.TransCmp cmp] [Std.LawfulEqCmp cmp] {f : γ → α × β} {l : List γ}
    (hl : l.Pairwise fun a b => (f a).1 ≠ (f b).1) {m : SortedMap cmp β} {e : α × β} :
    e ∈ (l.foldl (fun m x => m.insert (f x).1 (f x).2) m).entries ↔
      (∃ x ∈ l, e = f x) ∨ (e ∈ m.entries ∧ ∀ x ∈ l, e.1 ≠ (f x).1) := by
  induction l generalizing m with
  | nil => simp
  | cons x l ih =>
    obtain ⟨hhd, htl⟩ := List.pairwise_cons.mp hl
    rw [List.foldl_cons, ih htl, mem_entries_insert_iff]
    constructor
    · rintro (⟨y, hy, rfl⟩ | ⟨rfl | ⟨he, hx⟩, hne⟩)
      · exact .inl ⟨y, List.mem_cons_of_mem _ hy, rfl⟩
      · exact .inl ⟨x, List.mem_cons_self, rfl⟩
      · exact .inr ⟨he, List.forall_mem_cons.mpr ⟨hx, hne⟩⟩
    · rintro (⟨y, hy, rfl⟩ | ⟨he, hne⟩)
      · obtain rfl | hy := List.mem_cons.mp hy
        · exact .inr ⟨.inl rfl, hhd⟩
        · exact .inl ⟨y, hy, rfl⟩
      · obtain ⟨hx, hne⟩ := List.forall_mem_cons.mp hne
        exact .inr ⟨.inr ⟨he, hx⟩, hne⟩

theorem mem_of_get? [Std.TransCmp cmp] [Std.LawfulEqCmp cmp] {m : SortedMap cmp β} {k : α} {v : β}
    (h : m.get? k = some v) : (k, v) ∈ m.entries := by
  obtain ⟨⟨k', v'⟩, hfind, rfl⟩ := Option.map_eq_some_iff.mp h
  have hk := List.find?_some hfind
  rw [beq_iff_eq, Std.LawfulEqCmp.compare_eq_iff_eq] at hk
  subst hk
  exact List.mem_of_find?_eq_some hfind

theorem get?_eq_some_iff [Std.TransCmp cmp] [Std.LawfulEqCmp cmp] {m : SortedMap cmp β} {k : α} {v : β} :
    m.get? k = some v ↔ (k, v) ∈ m.entries :=
  ⟨mem_of_get?, get?_of_mem⟩

theorem pairwise_keys_ne [Std.TransCmp cmp] (m : SortedMap cmp β) :
    m.entries.Pairwise fun x y => x.1 ≠ y.1 := by
  refine m.sorted.imp fun {x y} (hxy : cmp x.1 y.1 = .lt) heq => ?_
  have hself : cmp y.1 y.1 = .eq := Std.ReflCmp.compare_self
  rw [heq, hself] at hxy
  cases hxy

/-- Maps with the same lookups are equal. -/
theorem ext_get? [Std.TransCmp cmp] [Std.LawfulEqCmp cmp] {m m' : SortedMap cmp β}
    (h : ∀ k, m.get? k = m'.get? k) : m = m' := by
  have hnodup : ∀ m : SortedMap cmp β, m.entries.Nodup := fun m =>
    m.pairwise_keys_ne.imp fun hxy heq => hxy (congrArg Prod.fst heq)
  refine eq_of_perm ((List.perm_ext_iff_of_nodup (hnodup m) (hnodup m')).mpr fun ⟨k, v⟩ => ?_)
  rw [← get?_eq_some_iff, ← get?_eq_some_iff, h k]

theorem contains_eq_isSome [Std.TransCmp cmp] (m : SortedMap cmp β) (k : α) :
    m.contains k = (m.get? k).isSome := by
  rw [contains, get?, Option.isSome_map, Bool.eq_iff_iff, List.any_eq_true, List.find?_isSome]

section Algebra

variable [DecidableEq α] [Std.TransCmp cmp] [Std.LawfulEqCmp cmp]

theorem get?_insert (m : SortedMap cmp β) (k : α) (v : β) (k' : α) :
    (m.insert k v).get? k' = if k = k' then some v else m.get? k' := by
  refine Option.ext fun w => ?_
  rw [get?_eq_some_iff, mem_entries_insert_iff]
  split
  · next heq =>
    subst heq
    simp [eq_comm]
  · next hne =>
    rw [get?_eq_some_iff]
    simp [hne, eq_comm]

theorem get?_erase (m : SortedMap cmp β) (k k' : α) :
    (m.erase k).get? k' = if k = k' then none else m.get? k' := by
  refine Option.ext fun w => ?_
  rw [get?_eq_some_iff, mem_entries_erase_iff]
  split
  · next heq =>
    subst heq
    simp
  · next hne =>
    rw [get?_eq_some_iff]
    simp [Ne.symm hne]

/-- The map with the entries of another one, which win. -/
def union (m n : SortedMap cmp β) : SortedMap cmp β :=
  n.entries.foldl (fun m e => m.insert e.1 e.2) m

/-- The entries of the second map whose keys are in the first. -/
def inter (m n : SortedMap cmp β) : SortedMap cmp β :=
  ⟨n.entries.filter fun e => m.contains e.1, n.sorted.filter _⟩

theorem get?_foldl_insert {l : List (α × β)} (hl : l.Pairwise fun x y => x.1 ≠ y.1)
    (m : SortedMap cmp β) (k : α) :
    (l.foldl (fun m e => m.insert e.1 e.2) m).get? k =
      ((l.find? fun e => k = e.1).map Prod.snd).or (m.get? k) := by
  induction l generalizing m with
  | nil => rfl
  | cons e l ih =>
    obtain ⟨hhd, htl⟩ := List.pairwise_cons.mp hl
    rw [List.foldl_cons, ih htl, get?_insert, List.find?_cons]
    by_cases hk : k = e.1
    · subst hk
      have hnone : l.find? (fun x => decide (e.1 = x.1)) = none := by
        rw [List.find?_eq_none]
        intro x hx
        simpa using hhd x hx
      simp [hnone]
    · simp [hk, Ne.symm hk]

theorem get?_union (m n : SortedMap cmp β) (k : α) :
    (m.union n).get? k = (n.get? k).or (m.get? k) := by
  have hfind : (fun e : α × β => decide (k = e.1)) = fun e => cmp k e.1 == .eq := by
    funext e
    rw [Bool.eq_iff_iff, decide_eq_true_iff, beq_iff_eq, Std.LawfulEqCmp.compare_eq_iff_eq]
  rw [union, get?_foldl_insert n.pairwise_keys_ne, hfind]
  rfl

omit [DecidableEq α] in
theorem get?_inter (m n : SortedMap cmp β) (k : α) :
    (m.inter n).get? k = if m.contains k then n.get? k else none := by
  refine Option.ext fun v => ?_
  rw [get?_eq_some_iff, inter, List.mem_filter]
  split
  · next h => simp [h, get?_eq_some_iff]
  · next h => simp [h]

end Algebra

/-- Two stored keys that compare equal are one key. -/
theorem eq_of_mem_keys [Std.TransCmp cmp] {m : SortedMap cmp β} {k k' : α} (hk : k ∈ m.keys)
    (hk' : k' ∈ m.keys) (h : cmp k k' = .eq) : k = k' := by
  have hsorted : m.keys.Pairwise fun a b => cmp a b = .lt := List.pairwise_map.mpr m.sorted
  obtain ⟨i, hi, rfl⟩ := List.getElem_of_mem hk
  obtain ⟨j, hj, rfl⟩ := List.getElem_of_mem hk'
  rw [List.pairwise_iff_getElem] at hsorted
  obtain hij | hij | hij := Nat.lt_trichotomy i j
  · rw [hsorted i j hi hj hij] at h
    cases h
  · subst hij
    rfl
  · have hlt := hsorted j i hj hi hij
    rw [Std.OrientedCmp.eq_symm h] at hlt
    cases hlt

/-- Collecting a list loses no key if and only if keys that compare equal are equal. -/
theorem forall_mem_keys_ofList_iff [Std.TransCmp cmp] {l : List (α × β)} :
    (∀ e ∈ l, e.1 ∈ (ofList l : SortedMap cmp β).keys) ↔
      ∀ e ∈ l, ∀ e' ∈ l, cmp e.1 e'.1 = .eq → e.1 = e'.1 := by
  obtain ⟨hfrom, -, hfound⟩ := keys_foldl_insert l (empty : SortedMap cmp β)
  constructor
  · intro h e he e' he' heq
    exact eq_of_mem_keys (h e he) (h e' he') heq
  · intro h e he
    obtain ⟨k, hk, heq⟩ := hfound e he
    obtain hnone | ⟨e', he', rfl⟩ := hfrom k hk
    · cases hnone
    · rw [h e he e' he' heq]
      exact hk

/-- Collecting the entries of a map in any order rebuilds it. -/
theorem ofList_eq_of_perm [Std.TransCmp cmp] {l : List (α × β)} {m : SortedMap cmp β}
    (h : l.Perm m.entries) : ofList l = m :=
  foldl_insert_of_perm (by simpa [empty] using h)

/-- The entries of a map that is built from sorted ones are these. -/
theorem entries_ofList [Std.TransCmp cmp] {l : List (α × β)} (h : l.Pairwise (entryLt cmp)) :
    (ofList l : SortedMap cmp β).entries = l :=
  congrArg entries (ofList_eq_of_perm (m := ⟨l, h⟩) (List.Perm.refl l))

/-- The keys of a map that is built from a list are those of the list. -/
theorem mem_keys_ofList_iff [Std.TransCmp cmp] [Std.LawfulEqCmp cmp] {l : List (α × β)} {k : α} :
    k ∈ (ofList l : SortedMap cmp β).keys ↔ ∃ e ∈ l, e.1 = k := by
  obtain ⟨hfrom, -, hfound⟩ := keys_foldl_insert l (empty : SortedMap cmp β)
  constructor
  · intro hk
    exact (hfrom k hk).resolve_left List.not_mem_nil
  · rintro ⟨e, he, rfl⟩
    obtain ⟨k, hk, heq⟩ := hfound e he
    rwa [Std.LawfulEqCmp.eq_of_compare heq]

/-- Sets with the same elements are equal. -/
theorem ext_elems [Std.TransCmp cmp] {s s' : SortedSet cmp} (h : ∀ k, k ∈ s.elems ↔ k ∈ s'.elems) : s = s' := by
  have hmem : ∀ (s : SortedSet cmp) (e : α × Unit), e ∈ s.entries ↔ e.1 ∈ s.elems := by
    rintro s ⟨k, -⟩
    refine ⟨fun he => List.mem_map_of_mem he, fun hk => ?_⟩
    obtain ⟨e, he, rfl⟩ := List.mem_map.mp hk
    exact he
  have hnodup : ∀ s : SortedSet cmp, s.entries.Nodup := fun s =>
    s.pairwise_keys_ne.imp fun hxy heq => hxy (congrArg Prod.fst heq)
  refine eq_of_perm ((List.perm_ext_iff_of_nodup (hnodup s) (hnodup s')).mpr fun e => ?_)
  rw [hmem, hmem]
  exact h e.1

end SortedMap

end Snix
