import Snix.Lib.Admission

/-!
# Items that refer to each other by key

An item has a key that is computed from it, and refers to other items by their key
and by the size it claims they have. A collection of items can be listed with every
item after the ones it refers to, or starting with a root and every item after one
that refers to it.

## Main definitions

- `Merkle` — the keys, references and sizes of items
- `CollisionFree` — keys tell the items of a list apart, and references do not go in circles
- `BottomUp`, `TopDown` — lists in which the claimed sizes are checked as items arrive
- `Connected` — lists from a root in which all claims agree
- `Closed`, `Root`, `UniqueRoot`, `Complete`

## Main results

- `connected_iff_topDown` — the difference between the two ways to check from a root
- `bottomUp_of_closed`, `topDown_of_closed` — any order with the right items before each item will do
-/

namespace Snix

/-- The key of an item, what it refers to and its size. -/
structure Merkle (α κ σ : Type) where
  key : α → κ
  refs : α → List (κ × σ)
  size : α → Option σ

namespace Merkle

variable {α κ σ : Type} (M : Merkle α κ σ)

/-- All references from the items of a list. -/
def claims (l : List α) : List (κ × σ) := l.flatMap M.refs

/-- Is there an item with this key? -/
def Has (l : List α) (k : κ) : Prop := ∃ a ∈ l, M.key a = k

/-- Is there an item with this key and this size? -/
def Held (l : List α) (k : κ) (s : σ) : Prop := ∃ a ∈ l, M.key a = k ∧ M.size a = some s

/-- Is there a reference to this key? -/
def Claimed (l : List α) (k : κ) : Prop := ∃ s, (k, s) ∈ M.claims l

/-- No two items of a list have the same key, and no item contains its own key, directly or
    through the items it refers to. -/
structure CollisionFree (l : List α) : Prop where
  injective : ∀ a ∈ l, ∀ b ∈ l, M.key a = M.key b → a = b
  acyclic : ∃ rank : κ → ℕ, ∀ a ∈ l, ∀ c ∈ M.refs a, rank c.1 < rank (M.key a)

/-- The size in the last claim about a key. -/
def lastClaim [DecidableEq κ] (claims : List (κ × σ)) (k : κ) : Option σ :=
  claims.foldl (fun acc c => if c.1 = k then some c.2 else acc) none

/-- Items after everything they refer to, with the right sizes. -/
def BottomUp (l : List α) : Prop :=
  Along (fun before a => (∃ s, M.size a = some s) ∧ ∀ c ∈ M.refs a, M.Held before c.1 c.2) l

/-- The root, and items that have the size last claimed when they arrive. -/
def TopDown [DecidableEq κ] (root : κ) (l : List α) : Prop :=
  Along (fun before a => ∃ s, M.size a = some s ∧
    (lastClaim (M.claims before) (M.key a) = some s ∨
      lastClaim (M.claims before) (M.key a) = none ∧ M.key a = root)) l

/-- The root, and items that were claimed before they arrive. -/
def Rooted (root : κ) (l : List α) : Prop :=
  Along (fun before a => M.key a = root ∨ M.Claimed before (M.key a)) l

/-- All claims about an item of the list state its size. -/
def Right (l : List α) : Prop :=
  ∀ a ∈ l, ∀ c ∈ M.claims l, c.1 = M.key a → M.size a = some c.2

/-- The claims of a list agree with each other and with the items. -/
def Consistent (l : List α) : Prop :=
  (∀ k s s', (k, s) ∈ M.claims l → (k, s') ∈ M.claims l → s = s') ∧ M.Right l

/-- The root, and items that were claimed before they arrive, all claims agreeing. -/
def Connected (root : κ) (l : List α) : Prop :=
  Along (fun before a => (∃ s, M.size a = some s) ∧
    (M.Has before (M.key a) ∨ before = [] ∧ M.key a = root ∨ M.Claimed before (M.key a)) ∧
    M.Consistent (before ++ [a])) l

/-- The root and everything that is claimed are there. -/
def Complete (root : κ) (l : List α) : Prop := ∀ k, k = root ∨ M.Claimed l k → M.Has l k

/-- Everything that is claimed is there, with the claimed size. -/
def Closed (l : List α) : Prop :=
  (∀ a ∈ l, ∃ s, M.size a = some s) ∧ ∀ c ∈ M.claims l, M.Held l c.1 c.2

/-- An item that no other refers to. -/
def Root (l : List α) (k : κ) : Prop := M.Has l k ∧ ¬M.Claimed l k

def UniqueRoot (l : List α) : Prop := ∃! k, M.Root l k

/-- Every item has the size that was last claimed when it arrives, and everything arrives, yet
    there is a claim with a wrong size: it was overtaken, or made after the item had arrived. -/
def Masked [DecidableEq κ] (root : κ) (l : List α) : Prop :=
  M.TopDown root l ∧ M.Complete root l ∧ ¬M.Right l

-- ====================
-- Claims
-- ====================

section

variable {M} {l l' : List α} {a : α} {k root : κ} {s : σ}

theorem mem_claims {c : κ × σ} : c ∈ M.claims l ↔ ∃ a ∈ l, c ∈ M.refs a := List.mem_flatMap

theorem claims_concat : M.claims (l ++ [a]) = M.claims l ++ M.refs a := by
  simp only [claims, List.flatMap_append, List.flatMap_cons, List.flatMap_nil, List.append_nil]

theorem mem_claims_of_subset (h : l ⊆ l') {c : κ × σ} (hc : c ∈ M.claims l) : c ∈ M.claims l' := by
  obtain ⟨b, hb, hcb⟩ := mem_claims.mp hc
  exact mem_claims.mpr ⟨b, h hb, hcb⟩

theorem Claimed.of_subset (h : l ⊆ l') (hk : M.Claimed l k) : M.Claimed l' k :=
  hk.imp fun _ hs => mem_claims_of_subset h hs

theorem Has.of_subset (h : l ⊆ l') (hk : M.Has l k) : M.Has l' k :=
  hk.imp fun _ hb => ⟨h hb.1, hb.2⟩

theorem Held.of_subset (h : l ⊆ l') (hk : M.Held l k s) : M.Held l' k s :=
  hk.imp fun _ hb => ⟨h hb.1, hb.2⟩

theorem Held.has (h : M.Held l k s) : M.Has l k := h.imp fun _ hb => ⟨hb.1, hb.2.1⟩

theorem has_concat : M.Has (l ++ [a]) k ↔ M.Has l k ∨ M.key a = k := by
  simp only [Has, List.mem_append, List.mem_singleton, or_and_right, exists_or, exists_eq_left]

theorem held_concat : M.Held (l ++ [a]) k s ↔ M.Held l k s ∨ M.key a = k ∧ M.size a = some s := by
  simp only [Held, List.mem_append, List.mem_singleton, or_and_right, exists_or, exists_eq_left]

theorem claimed_concat : M.Claimed (l ++ [a]) k ↔ M.Claimed l k ∨ ∃ s, (k, s) ∈ M.refs a := by
  simp only [Claimed, claims_concat, List.mem_append, exists_or]

theorem CollisionFree.of_subset (h : l ⊆ l') (hfree : M.CollisionFree l') : M.CollisionFree l :=
  ⟨fun a ha b hb => hfree.injective a (h ha) b (h hb),
    hfree.acyclic.imp fun _ hrank a ha => hrank a (h ha)⟩

theorem Right.of_subset (h : l ⊆ l') (hright : M.Right l') : M.Right l :=
  fun a ha c hc => hright a (h ha) c (mem_claims_of_subset h hc)

theorem CollisionFree.not_self (hfree : M.CollisionFree l) (ha : a ∈ l) :
    (M.key a, s) ∉ M.refs a := by
  intro hs
  obtain ⟨rank, hrank⟩ := hfree.acyclic
  exact Nat.lt_irrefl _ (hrank a ha _ hs)

/-- An item that is there under a key is the one that is listed under it. -/
theorem CollisionFree.held_iff (hfree : M.CollisionFree l) (ha : a ∈ l) (h : l' ⊆ l)
    (hhas : M.Has l' (M.key a)) : M.Held l' (M.key a) s ↔ M.size a = some s := by
  obtain ⟨b, hb, hkey⟩ := hhas
  obtain rfl := hfree.injective b (h hb) a ha hkey
  constructor
  · rintro ⟨c, hc, hckey, hsize⟩
    obtain rfl := hfree.injective c (h hc) b (h hb) hckey
    exact hsize
  · intro hsize
    exact ⟨b, hb, rfl, hsize⟩

section

variable [DecidableEq κ] {cs : List (κ × σ)} {c : κ × σ}

@[simp] theorem lastClaim_nil : lastClaim ([] : List (κ × σ)) k = none := rfl

theorem lastClaim_concat : lastClaim (cs ++ [c]) k = if c.1 = k then some c.2 else lastClaim cs k := by
  simp only [lastClaim, List.foldl_append, List.foldl_cons, List.foldl_nil]

theorem mem_of_lastClaim (h : lastClaim cs k = some s) : (k, s) ∈ cs := by
  induction cs using List.reverseRecOn with
  | nil => cases h
  | append_singleton cs c ih =>
    rw [lastClaim_concat] at h
    split_ifs at h with hk
    · cases h
      subst hk
      exact List.mem_append_right cs (List.mem_singleton_self c)
    · exact List.mem_append_left [c] (ih h)

theorem lastClaim_eq_none : lastClaim cs k = none ↔ ∀ s, (k, s) ∉ cs := by
  constructor
  · intro h s hs
    induction cs using List.reverseRecOn with
    | nil => cases hs
    | append_singleton cs c ih =>
      rw [lastClaim_concat] at h
      split_ifs at h with hk
      rcases List.mem_append.mp hs with hs | hs
      · exact ih h hs
      · cases List.mem_singleton.mp hs
        exact hk rfl
  · intro h
    cases hlast : lastClaim cs k with
    | none => rfl
    | some s => exact absurd (mem_of_lastClaim hlast) (h s)

end

-- ====================
-- Lists from a root
-- ====================

theorem Connected.sized (h : M.Connected root l) : ∀ a ∈ l, ∃ s, M.size a = some s := by
  intro a ha
  obtain ⟨before, after, rfl⟩ := List.append_of_mem ha
  exact (h before a after rfl).1

theorem Connected.consistent (h : M.Connected root l) : M.Consistent l := by
  rcases List.eq_nil_or_concat l with rfl | ⟨l, a, rfl⟩
  · constructor
    · intro k s s' hs
      cases hs
    · intro a ha
      cases ha
  · rw [List.concat_eq_append] at h ⊢
    obtain ⟨-, -, -, hconsistent⟩ := along_concat.mp h
    exact hconsistent

theorem Rooted.root_or_claimed (h : M.Rooted root l) (ha : a ∈ l) :
    M.key a = root ∨ M.Claimed l (M.key a) := by
  obtain ⟨before, after, rfl⟩ := List.append_of_mem ha
  refine (h before a after rfl).imp_right ?_
  exact Claimed.of_subset (List.subset_append_left before _)

/-- Nothing refers to the root. -/
theorem Rooted.root_not_claimed (h : M.Rooted root l) (hfree : M.CollisionFree l) :
    ¬M.Claimed l root := by
  obtain ⟨rank, hrank⟩ := hfree.acyclic
  have hle : ∀ a ∈ l, rank (M.key a) ≤ rank root := by
    clear hfree
    induction l using List.reverseRecOn with
    | nil =>
      intro a ha
      cases ha
    | append_singleton l b ih =>
      obtain ⟨hl, hb⟩ := along_concat.mp h
      have hbefore := ih hl fun a ha => hrank a (List.mem_append_left [b] ha)
      intro a ha
      rcases List.mem_append.mp ha with ha | ha
      · exact hbefore a ha
      · obtain rfl := List.mem_singleton.mp ha
        rcases hb with hroot | ⟨s, hs⟩
        · exact Nat.le_of_eq (congrArg rank hroot)
        · obtain ⟨c, hc, hcs⟩ := mem_claims.mp hs
          have hlt := hrank c (List.mem_append_left [a] hc) _ hcs
          exact Nat.le_of_lt (Nat.lt_of_lt_of_le hlt (hbefore c hc))
  rintro ⟨s, hs⟩
  obtain ⟨a, ha, has⟩ := mem_claims.mp hs
  exact absurd (hrank a ha _ has) (Nat.not_lt.mpr (hle a ha))

theorem TopDown.rooted [DecidableEq κ] (h : M.TopDown root l) : M.Rooted root l := by
  refine Along.mono h ?_
  rintro before a after - ⟨s, -, hlast | ⟨-, hroot⟩⟩
  · exact .inr ⟨s, mem_of_lastClaim hlast⟩
  · exact .inl hroot

/-- With all claims right, the last ones are. -/
theorem TopDown.of_rooted [DecidableEq κ] (h : M.Rooted root l)
    (hsize : ∀ a ∈ l, ∃ s, M.size a = some s) (hright : M.Right l) : M.TopDown root l := by
  refine Along.mono h ?_
  intro before a after heq hwhy
  have hsub : before ⊆ l := heq ▸ List.subset_append_left before _
  have ha : a ∈ l := heq ▸ List.mem_append_right before List.mem_cons_self
  obtain ⟨s, hs⟩ := hsize a ha
  refine ⟨s, hs, ?_⟩
  cases hlast : lastClaim (M.claims before) (M.key a) with
  | some t =>
    have ht := hright a ha _ (mem_claims_of_subset hsub (mem_of_lastClaim hlast)) rfl
    exact .inl (ht.symm.trans hs)
  | none =>
    refine .inr ⟨rfl, hwhy.resolve_right ?_⟩
    exact fun ⟨t, ht⟩ => lastClaim_eq_none.mp hlast t ht

theorem Connected.rooted (h : M.Connected root l) : M.Rooted root l := by
  induction l using List.reverseRecOn with
  | nil => exact along_nil
  | append_singleton l b ih =>
    obtain ⟨hl, -, hb, -⟩ := along_concat.mp h
    refine along_concat.mpr ⟨ih hl, ?_⟩
    rcases hb with ⟨c, hc, hkey⟩ | ⟨-, hroot⟩ | hclaimed
    · rw [← hkey]
      exact (ih hl).root_or_claimed hc
    · exact .inl hroot
    · exact .inr hclaimed

theorem Connected.closed (h : M.Connected root l) (hcomplete : M.Complete root l) : M.Closed l := by
  refine ⟨h.sized, ?_⟩
  intro c hc
  obtain ⟨a, ha, hkey⟩ := hcomplete c.1 (.inr ⟨c.2, hc⟩)
  exact ⟨a, ha, hkey, h.consistent.2 a ha c hc hkey.symm⟩

theorem Connected.root_iff (h : M.Connected root l) (hfree : M.CollisionFree l)
    (hcomplete : M.Complete root l) : M.Root l k ↔ k = root := by
  constructor
  · rintro ⟨⟨a, ha, rfl⟩, hnot⟩
    exact (h.rooted.root_or_claimed ha).resolve_right hnot
  · rintro rfl
    exact ⟨hcomplete k (.inl rfl), h.rooted.root_not_claimed hfree⟩

/-- Comparing with the last claim only is as good as comparing all claims where they all state
    the right sizes. -/
theorem connected_iff_topDown [DecidableEq κ] (hcomplete : M.Complete root l) :
    M.Connected root l ↔ M.TopDown root l ∧ M.Right l := by
  constructor
  · intro h
    exact ⟨.of_rooted h.rooted h.sized h.consistent.2, h.consistent.2⟩
  · rintro ⟨h, hright⟩ before a after heq
    obtain ⟨s, hs, hwhy⟩ := h before a after heq
    have hsub : before ++ [a] ⊆ l := by
      rw [heq]
      intro b hb
      rcases List.mem_append.mp hb with hb | hb
      · exact List.mem_append_left _ hb
      · exact List.mem_append_right _ (List.mem_cons.mpr (.inl (List.mem_singleton.mp hb)))
    refine ⟨⟨s, hs⟩, ?_, ?_, hright.of_subset hsub⟩
    · rcases hwhy with hlast | ⟨-, hroot⟩
      · exact .inr (.inr ⟨s, mem_of_lastClaim hlast⟩)
      · cases before with
        | nil => exact .inr (.inl ⟨rfl, hroot⟩)
        | cons b before =>
          -- the list starts with the root
          obtain ⟨_, -, hfirst⟩ := h [] b (before ++ a :: after) heq
          rcases hfirst with hfirst | ⟨-, hfirst⟩
          · cases hfirst
          · exact .inl ⟨b, List.mem_cons_self, hfirst.trans hroot.symm⟩
    · intro k t t' ht ht'
      obtain ⟨b, hb, hkey⟩ := hcomplete k (.inr ⟨t, mem_claims_of_subset hsub ht⟩)
      have hbt := hright b hb _ (mem_claims_of_subset hsub ht) hkey.symm
      have hbt' := hright b hb _ (mem_claims_of_subset hsub ht') hkey.symm
      exact Option.some.inj (hbt.symm.trans hbt')

-- ====================
-- Lists from the leaves
-- ====================

theorem BottomUp.closed (h : M.BottomUp l) : M.Closed l := by
  constructor
  · intro a ha
    obtain ⟨before, after, rfl⟩ := List.append_of_mem ha
    exact (h before a after rfl).1
  · intro c hc
    obtain ⟨a, ha, hca⟩ := mem_claims.mp hc
    obtain ⟨before, after, rfl⟩ := List.append_of_mem ha
    exact ((h before a after rfl).2 c hca).of_subset (List.subset_append_left before _)

theorem Closed.has_of_claimed (h : M.Closed l) (hk : M.Claimed l k) : M.Has l k := by
  obtain ⟨s, hs⟩ := hk
  exact (h.2 (k, s) hs).has

theorem Closed.exists_held (h : M.Closed l) (hk : M.Has l k) : ∃ s, M.Held l k s := by
  obtain ⟨a, ha, hkey⟩ := hk
  obtain ⟨s, hs⟩ := h.1 a ha
  exact ⟨s, a, ha, hkey, hs⟩

theorem Closed.concat (h : M.Closed l) (hsize : ∃ s, M.size a = some s)
    (hrefs : ∀ c ∈ M.refs a, M.Held l c.1 c.2) : M.Closed (l ++ [a]) := by
  constructor
  · intro b hb
    rcases List.mem_append.mp hb with hb | hb
    · exact h.1 b hb
    · rw [List.mem_singleton.mp hb]
      exact hsize
  · intro c hc
    rw [claims_concat] at hc
    refine Held.of_subset (List.subset_append_left l [a]) ?_
    exact (List.mem_append.mp hc).elim (h.2 c) (hrefs c)

/-- A new item takes the place of the roots it refers to. -/
theorem Closed.root_concat (h : M.Closed l) (hnew : ¬M.Has l (M.key a))
    (hrefs : ∀ c ∈ M.refs a, M.Held l c.1 c.2) :
    M.Root (l ++ [a]) k ↔ k = M.key a ∨ M.Root l k ∧ ∀ s, (k, s) ∉ M.refs a := by
  rw [Root, has_concat, claimed_concat]
  constructor
  · rintro ⟨hhas | hkey, hnot⟩
    · exact .inr ⟨⟨hhas, fun hc => hnot (.inl hc)⟩, fun s hs => hnot (.inr ⟨s, hs⟩)⟩
    · exact .inl hkey.symm
  · rintro (rfl | ⟨⟨hhas, hnot⟩, hrefs'⟩)
    · refine ⟨.inr rfl, ?_⟩
      rintro (hc | ⟨s, hs⟩)
      · exact hnew (h.has_of_claimed hc)
      · exact hnew (hrefs _ hs).has
    · refine ⟨.inl hhas, ?_⟩
      rintro (hc | ⟨s, hs⟩)
      · exact hnot hc
      · exact hrefs' s hs

theorem root_congr (h : l ⊆ l') (h' : l' ⊆ l) : M.Root l k ↔ M.Root l' k :=
  ⟨fun hk => ⟨hk.1.of_subset h, fun hc => hk.2 (hc.of_subset h')⟩,
    fun hk => ⟨hk.1.of_subset h', fun hc => hk.2 (hc.of_subset h)⟩⟩

/-- An item that is there already changes nothing. -/
theorem root_concat_of_mem (ha : a ∈ l) : M.Root (l ++ [a]) k ↔ M.Root l k :=
  root_congr (List.append_subset.mpr ⟨List.Subset.refl l, by simpa using ha⟩)
    (List.subset_append_left l [a])

-- ====================
-- Orders of a closed collection
-- ====================

variable {out : List α}

theorem Closed.right (h : M.Closed l) (hfree : M.CollisionFree l) : M.Right l := by
  intro a ha c hc hkey
  have hheld := h.2 c hc
  rw [hkey] at hheld
  exact (hfree.held_iff ha (List.Subset.refl l) hheld.has).mp hheld

/-- Any order that has what an item refers to before the item. -/
theorem bottomUp_of_closed (h : M.Closed l) (hfree : M.CollisionFree l) (hout : out ⊆ l)
    (horder : Along (fun before a => ∀ c ∈ M.refs a, M.Has before c.1) out) : M.BottomUp out := by
  refine horder.mono ?_
  intro before a after heq hbefore
  have ha : a ∈ l := hout (heq ▸ List.mem_append_right before List.mem_cons_self)
  refine ⟨h.1 a ha, ?_⟩
  intro c hc
  obtain ⟨b, hb, hkey⟩ := hbefore c hc
  have hbl : b ∈ l := hout (heq ▸ List.mem_append_left _ hb)
  have hright := h.right hfree b hbl c (mem_claims.mpr ⟨a, ha, hc⟩) hkey.symm
  exact ⟨b, hb, hkey, hright⟩

/-- Any order that starts with the root and goes on with what is referred to. -/
theorem topDown_of_closed [DecidableEq κ] (h : M.Closed l) (hfree : M.CollisionFree l)
    (hout : out ⊆ l) (horder : M.Rooted root out) : M.TopDown root out :=
  .of_rooted horder (fun a ha => h.1 a (hout ha)) ((h.right hfree).of_subset hout)

end

end Merkle

end Snix
