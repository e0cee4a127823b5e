import Snix.Castore.DirectoryService.DirectoryGraph.Basic

/-!
# What a builder of graphs accepts

A builder checks a sequence of directories as the validators do, but it looks at the
sizes in all references, not only at the last one before a directory arrives.

## Main results

- `accepts_iff_leavesToRoot`, `accepts_iff_rootToLeaves` — which sequences a builder accepts
- `leavesToRoot_agree` — from the leaves up these are the ones the validator accepts
- `rootToLeaves_agree_iff` — from the root down they are if no wrong claim is masked
-/

namespace Snix.Castore.DirectoryGraphBuilder

variable {digest : Directory → B3Digest} {checks : Bool}

-- ====================
-- From the leaves to the root
-- ====================

/-- The builder from the leaves up: everything that was referred to is there. -/
structure InvLeavesToRoot (digest : Directory → B3Digest) (checks : Bool)
    (before : List Directory) (b : DirectoryGraphBuilder) : Prop
    extends Inv digest checks before b where
  order : b.insertionOrder = .leavesToRoot
  closed : (Directory.merkle digest checks).Closed before

theorem inv_newLeavesToRoot : InvLeavesToRoot digest checks [] newLeavesToRoot where
  records := Records.nil
  mem_nodes _ := Iff.rfl
  sized _ hd := nomatch hd
  order := rfl
  closed := by simp [Merkle.Closed, Merkle.claims]

section

variable {directories before : List Directory} {directory : Directory}
  {b b' : DirectoryGraphBuilder}

theorem tryInsert_leavesToRoot (horder : b.insertionOrder = .leavesToRoot) {s : ℕ}
    (hs : directory.size checks = some s) :
    tryInsert digest checks b directory =
      match b.digestToNodeIdxSize.lookup (digest directory) with
      | some _ => .ok b
      | none => (directory.children.map Prod.snd).foldlM
          (addChild digest directory b.graph.nodeCount) (b.addDirectory digest directory s) := by
  have horder' : (b.addDirectory digest directory s).insertionOrder = .leavesToRoot := horder
  unfold tryInsert
  rw [Directory.sizeOrPanic_eq_ok.mpr hs]
  cases b.digestToNodeIdxSize.lookup (digest directory) with
  | some entry => simp only [bind, Except.bind]
  | none => simp only [bind, Except.bind, horder']

theorem size_of_tryInsert (hok : tryInsert digest checks b directory = .ok b') :
    ∃ s, directory.size checks = some s := by
  unfold tryInsert at hok
  cases hsize : directory.sizeOrPanic checks with
  | error e =>
    rw [hsize] at hok
    cases hok
  | ok s => exact ⟨s, Directory.sizeOrPanic_eq_ok.mp hsize⟩

theorem tryInsert_sound_leavesToRoot
    (hfree : (Directory.merkle digest checks).CollisionFree directories)
    (hbefore : before ⊆ directories) (hdirectory : directory ∈ directories)
    (hinv : InvLeavesToRoot digest checks before b)
    (hok : tryInsert digest checks b directory = .ok b') :
    ((∃ s, directory.size checks = some s) ∧
      ∀ c ∈ (Directory.merkle digest checks).refs directory,
        (Directory.merkle digest checks).Held before c.1 c.2) ∧
    InvLeavesToRoot digest checks (before ++ [directory]) b' := by
  obtain ⟨s, hs⟩ := size_of_tryInsert hok
  rw [tryInsert_leavesToRoot hinv.order hs] at hok
  cases hlookup : b.digestToNodeIdxSize.lookup (digest directory) with
  | some entry =>
    rw [hlookup] at hok
    cases hok
    have hmem : directory ∈ before := hinv.mem_of_lookup hfree hbefore hdirectory
      (by rw [hlookup]; exact Option.some_ne_none entry)
    have hrefs : ∀ c ∈ (Directory.merkle digest checks).refs directory,
        (Directory.merkle digest checks).Held before c.1 c.2 :=
      fun c hc => hinv.closed.2 c (Merkle.mem_claims.mpr ⟨directory, hmem, hc⟩)
    exact ⟨⟨⟨s, hs⟩, hrefs⟩,
      ⟨hinv.concat_of_mem hmem, hinv.order, hinv.closed.concat ⟨s, hs⟩ hrefs⟩⟩
  | none =>
    rw [hlookup] at hok
    have hnew := hinv.lookup_none_iff.mp hlookup
    have hrecords := hinv.records_addDirectory hs hnew
      fun hc => hnew (hinv.closed.has_of_claimed hc)
    obtain ⟨hinv', hsame, hheld⟩ := hinv.concat hs rfl hrecords hok
    have hrefs : ∀ c ∈ (Directory.merkle digest checks).refs directory,
        (Directory.merkle digest checks).Held before c.1 c.2 := by
      intro c hc
      have hc' := (mem_heldBy hinv.mem_concat (hinv.sized_concat hs)).mp (hheld hinv.order c hc)
      refine (Merkle.held_concat.mp hc').resolve_right ?_
      -- a directory does not refer to itself
      rintro ⟨hkey, -⟩
      refine hfree.not_self (s := c.2) hdirectory ?_
      rw [hkey]
      exact hc
    exact ⟨⟨⟨s, hs⟩, hrefs⟩,
      ⟨hinv', hsame.order.trans hinv.order, hinv.closed.concat ⟨s, hs⟩ hrefs⟩⟩

theorem tryInsert_complete_leavesToRoot (hinv : InvLeavesToRoot digest checks before b)
    (hsize : ∃ s, directory.size checks = some s)
    (hrefs : ∀ c ∈ (Directory.merkle digest checks).refs directory,
      (Directory.merkle digest checks).Held before c.1 c.2) :
    ∃ b', tryInsert digest checks b directory = .ok b' := by
  obtain ⟨s, hs⟩ := hsize
  rw [tryInsert_leavesToRoot hinv.order hs]
  cases hlookup : b.digestToNodeIdxSize.lookup (digest directory) with
  | some entry => exact ⟨b, rfl⟩
  | none =>
    have hnew := hinv.lookup_none_iff.mp hlookup
    have hrecords := hinv.records_addDirectory hs hnew
      fun hc => hnew (hinv.closed.has_of_claimed hc)
    apply addChildren_complete hrecords
    · intro horder
      exact absurd (hinv.order.symm.trans horder) (by decide)
    · intro _ c hc
      change c ∈ heldBy digest checks (b.graph.nodes ++ [directory])
      rw [mem_heldBy hinv.mem_concat (hinv.sized_concat hs)]
      exact Merkle.held_concat.mpr (.inl (hrefs c hc))

theorem decides_leavesToRoot (hfree : (Directory.merkle digest checks).CollisionFree directories) :
    Decides directories (tryInsert digest checks) (InvLeavesToRoot digest checks)
      (fun before a => (∃ s, (Directory.merkle digest checks).size a = some s) ∧
        ∀ c ∈ (Directory.merkle digest checks).refs a,
          (Directory.merkle digest checks).Held before c.1 c.2) where
  sound _ _ _ _ hbefore ha hinv h := tryInsert_sound_leavesToRoot hfree hbefore ha hinv h
  complete _ _ _ _ _ hinv h := tryInsert_complete_leavesToRoot hinv h.1 h.2

theorem build_leavesToRoot (hinv : InvLeavesToRoot digest checks before b) (debug : Bool) :
    (∃ g, b.build digest debug = .ok g) ↔ (Directory.merkle digest checks).UniqueRoot before := by
  rw [← hinv.externals_length_eq_one]
  unfold build
  rw [hinv.order]
  match b.graph.externals with
  | [] => simp
  | [i] => simp
  | i :: j :: rest =>
    refine iff_of_false ?_ (by simp)
    rintro ⟨g, hg⟩
    dsimp only at hg
    split at hg <;> cases hg

/-- The nodes without an edge that comes in are there, whatever was inserted before. -/
theorem build_ne_panic_leavesToRoot (horder : b.insertionOrder = .leavesToRoot) (debug : Bool)
    (message : String) : b.build digest debug ≠ .error (.panic message) := by
  obtain ⟨roots, hroots⟩ := DiGraph.exists_mapM_nodeWeight (l := b.graph.externals)
    fun i hi => (DiGraph.mem_externals.mp hi).1
  unfold build
  rw [horder]
  dsimp only
  split
  · simp
  · simp
  · rw [hroots]
    simp

/-- A builder accepts the sequences in which every directory comes after its children, all
    recorded sizes are right and all but one have a parent. -/
theorem accepts_iff_leavesToRoot
    (hfree : (Directory.merkle digest checks).CollisionFree directories) (debug : Bool) :
    (∃ g, (newLeavesToRoot.insertAll digest checks directories >>= build digest debug) = .ok g) ↔
      (Directory.merkle digest checks).BottomUp directories ∧
        (Directory.merkle digest checks).UniqueRoot directories :=
  (decides_leavesToRoot hfree).run_iff inv_newLeavesToRoot
    fun _ _ hinv => build_leavesToRoot hinv debug

end

/-- The validator and the builder accept the same sequences from the leaves to the root, and what
    they assert at the end always holds. -/
theorem leavesToRoot_agree (digest : Directory → B3Digest) (checks debug : Bool)
    (directories : List Directory)
    (hfree : (Directory.merkle digest checks).CollisionFree directories) :
    ((∃ u, (LeavesToRootValidator.acceptAll digest checks directories >>=
        LeavesToRootValidator.finalize debug) = .ok u) ↔
      ∃ g, (newLeavesToRoot.insertAll digest checks directories >>= build digest debug) = .ok g) ∧
    (∀ v, LeavesToRootValidator.acceptAll digest checks directories = .ok v →
      ∀ message, v.finalize debug ≠ .error (.panic message)) ∧
    ∀ b : DirectoryGraphBuilder, b.insertionOrder = .leavesToRoot →
      ∀ message, b.build digest debug ≠ .error (.panic message) := by
  refine ⟨?_, ?_, ?_⟩
  · rw [LeavesToRootValidator.accepts_iff hfree, accepts_iff_leavesToRoot hfree]
  · intro v hv message
    exact LeavesToRootValidator.finalize_ne_panic hfree hv debug message
  · intro b horder message
    exact build_ne_panic_leavesToRoot horder debug message

theorem leavesToRoot_agree_two :
    (Directory.merkle fixtureDigest true).CollisionFree [DIRECTORY_A, DIRECTORY_B] ∧
      ∃ g, (newLeavesToRoot.insertAll fixtureDigest true [DIRECTORY_A, DIRECTORY_B] >>=
        build fixtureDigest true) = .ok g :=
  ⟨collisionFree_b true,
    (leavesToRoot_agree fixtureDigest true true _ (collisionFree_b true)).1.mp ⟨(), rfl⟩⟩

-- ====================
-- From the root to the leaves
-- ====================

/-- The builder from the root down: the root is the first node. -/
structure InvRootToLeaves (digest : Directory → B3Digest) (checks : Bool) (rootDigest : B3Digest)
    (before : List Directory) (b : DirectoryGraphBuilder) : Prop
    extends Inv digest checks before b where
  order : b.insertionOrder = .rootToLeaves
  expRoot : b.graph.nodes = [] → b.expRootDigest = some rootDigest
  first : ∀ d, b.graph.nodes[0]? = some d → digest d = rootDigest

variable {rootDigest : B3Digest}

theorem inv_newRootToLeaves :
    InvRootToLeaves digest checks rootDigest [] (newRootToLeaves rootDigest) where
  records := Records.nil
  mem_nodes _ := Iff.rfl
  sized _ hd := nomatch hd
  order := rfl
  expRoot _ := rfl
  first _ hd := nomatch hd

section

variable {directories before : List Directory} {directory : Directory}
  {b b' b₁ : DirectoryGraphBuilder} {s : ℕ}

theorem tryInsert_rootToLeaves (horder : b.insertionOrder = .rootToLeaves)
    (hs : directory.size checks = some s) :
    tryInsert digest checks b directory =
      match b.digestToNodeIdxSize.lookup (digest directory) with
      | some _ => .ok b
      | none =>
        connect digest directory b.graph.nodeCount s (b.addDirectory digest directory s) >>=
          fun b₁ => (directory.children.map Prod.snd).foldlM
            (addChild digest directory b.graph.nodeCount) b₁ := by
  have horder' : (b.addDirectory digest directory s).insertionOrder = .rootToLeaves := horder
  unfold tryInsert
  rw [Directory.sizeOrPanic_eq_ok.mpr hs]
  cases b.digestToNodeIdxSize.lookup (digest directory) with
  | some entry => simp only [bind, Except.bind]
  | none => simp only [bind, Except.bind, horder']

/-- A directory that is connected is the root, or it was referred to with its size. -/
theorem connect_sound (hinv : InvRootToLeaves digest checks rootDigest before b)
    (hs : directory.size checks = some s)
    (hnew : ¬(Directory.merkle digest checks).Has before (digest directory))
    (hok : connect digest directory b.graph.nodeCount s (b.addDirectory digest directory s) =
      .ok b₁) :
    HasRecords (heldBy digest checks b₁.graph.nodes) (claimsBy b.graph.nodes) b₁ ∧
      b₁.graph.nodes = b.graph.nodes ++ [directory] ∧ b₁.insertionOrder = b.insertionOrder ∧
      (before = [] ∧ digest directory = rootDigest ∨
        before ≠ [] ∧ (Directory.merkle digest checks).Claimed before (digest directory)) := by
  have hnil : (b.addDirectory digest directory s).graph.nodeCount = 1 ↔ b.graph.nodes = [] := by
    rw [← List.length_eq_zero_iff]
    simp [addDirectory, DiGraph.addNode, DiGraph.nodeCount]
  have hbefore : b.graph.nodes = [] ↔ before = [] := by
    simp only [List.eq_nil_iff_forall_not_mem, hinv.mem_nodes]
  unfold connect at hok
  split_ifs at hok with hcount
  · rw [hnil] at hcount
    have hexp : (b.addDirectory digest directory s).expRootDigest = some rootDigest :=
      hinv.expRoot hcount
    rw [hexp] at hok
    dsimp only at hok
    split_ifs at hok with hkey
    cases hok
    have hnot : ¬(Directory.merkle digest checks).Claimed before (digest directory) := by
      rw [hbefore.mp hcount]
      rintro ⟨t, ht⟩
      cases ht
    refine ⟨hinv.records_addDirectory hs hnew hnot, rfl, rfl, .inl ⟨hbefore.mp hcount, ?_⟩⟩
    exact Classical.not_not.mp hkey
  · rw [hnil, hbefore] at hcount
    split at hok
    · next size srcIdxs htodo =>
      split_ifs at hok with hsize
      cases hok
      obtain rfl := Classical.not_not.mp hsize
      have htodo' : b.rtlEdgesTodo.lookup (digest directory) = some (size, srcIdxs) := htodo
      have hiff := hinv.records.todo_iff _ _ _ htodo'
      have hrecords := hinv.records_addNode hs hnew srcIdxs
        (fun i => ⟨fun hi => ⟨size, (hiff i size).mpr ⟨rfl, hi⟩⟩, fun ⟨t, ht⟩ => ((hiff i t).mp ht).2⟩)
        (fun i t ht => ((hiff i t).mp ht).1)
        (AList.lookup_erase _ _) (fun k hk => AList.lookup_erase_ne hk)
      refine ⟨?_, ?_, rfl, .inr ⟨hcount, ?_⟩⟩
      · unfold HasRecords
        simp only [DiGraph.foldl_addEdge]
        exact hrecords
      · simp only [DiGraph.foldl_addEdge]
        rfl
      · obtain ⟨src, hsrc⟩ := List.exists_mem_of_ne_nil _ (hinv.records.todo_ne_nil _ _ _ htodo')
        have hc := (hiff src size).mpr ⟨rfl, hsrc⟩
        exact ⟨size, (exists_mem_claimsBy hinv.mem_nodes).mp ⟨src, hc⟩⟩
    · cases hok

theorem connect_complete (hinv : InvRootToLeaves digest checks rootDigest before b)
    (hs : directory.size checks = some s)
    (hnew : ¬(Directory.merkle digest checks).Has before (digest directory))
    (hwhy : before = [] ∧ digest directory = rootDigest ∨
      (Directory.merkle digest checks).Claimed before (digest directory))
    (hright : (Directory.merkle digest checks).Right (before ++ [directory])) :
    ∃ b₁, connect digest directory b.graph.nodeCount s (b.addDirectory digest directory s) =
      .ok b₁ := by
  have hnil : (b.addDirectory digest directory s).graph.nodeCount = 1 ↔ before = [] := by
    have hnodes : b.graph.nodes = [] ↔ before = [] := by
      simp only [List.eq_nil_iff_forall_not_mem, hinv.mem_nodes]
    rw [← hnodes, ← List.length_eq_zero_iff]
    simp [addDirectory, DiGraph.addNode, DiGraph.nodeCount]
  unfold connect
  rcases hwhy with ⟨hbefore, hkey⟩ | ⟨t, ht⟩
  · have hexp : (b.addDirectory digest directory s).expRootDigest = some rootDigest := by
      apply hinv.expRoot
      simp only [List.eq_nil_iff_forall_not_mem, hinv.mem_nodes, hbefore, List.not_mem_nil,
        not_false_eq_true, implies_true]
    rw [if_pos (hnil.mpr hbefore), hexp]
    exact ⟨_, if_neg (Classical.not_not.mpr hkey)⟩
  · have hbefore : before ≠ [] := by
      rintro rfl
      cases ht
    rw [if_neg (mt hnil.mp hbefore)]
    cases htodo : (b.addDirectory digest directory s).rtlEdgesTodo.lookup (digest directory) with
    | none =>
      obtain ⟨i, hi⟩ := (exists_mem_claimsBy hinv.mem_nodes).mpr ht
      obtain ⟨u, hu⟩ := hinv.records.todo_none _ htodo i t hi
      exact absurd ((mem_heldBy hinv.mem_nodes hinv.sized).mp hu).has hnew
    | some entry =>
      obtain ⟨src, hsrc⟩ := List.exists_mem_of_ne_nil _ (hinv.records.todo_ne_nil _ _ _ htodo)
      have hc := (hinv.records.todo_iff _ _ _ htodo src entry.1).mpr ⟨rfl, hsrc⟩
      have hc' : (digest directory, entry.1) ∈ (Directory.merkle digest checks).claims before :=
        (exists_mem_claimsBy hinv.mem_nodes).mp ⟨src, hc⟩
      have hsize : directory.size checks = some entry.1 :=
        hright directory (List.mem_append_right before (List.mem_singleton_self directory)) _
          (Merkle.mem_claims_of_subset (List.subset_append_left before [directory]) hc') rfl
      have heq : entry.1 = s := Option.some.inj (hsize.symm.trans hs)
      exact ⟨_, if_neg (Classical.not_not.mpr heq)⟩

theorem tryInsert_sound_rootToLeaves
    (hfree : (Directory.merkle digest checks).CollisionFree directories)
    (hbefore : before ⊆ directories) (hdirectory : directory ∈ directories)
    (hinv : InvRootToLeaves digest checks rootDigest before b)
    (hok : tryInsert digest checks b directory = .ok b') :
    ((∃ s, directory.size checks = some s) ∧
      ((Directory.merkle digest checks).Has before (digest directory) ∨
        before = [] ∧ digest directory = rootDigest ∨
        (Directory.merkle digest checks).Claimed before (digest directory)) ∧
      (Directory.merkle digest checks).Consistent (before ++ [directory])) ∧
    InvRootToLeaves digest checks rootDigest (before ++ [directory]) b' := by
  obtain ⟨s, hs⟩ := size_of_tryInsert hok
  -- the invariant has the consistency of the claims in it
  have hconsistent : ∀ {b'}, Inv digest checks (before ++ [directory]) b' →
      (Directory.merkle digest checks).Consistent (before ++ [directory]) := fun h =>
    (agree_iff_consistent h.mem_nodes h.sized).mp h.records.agree
  rw [tryInsert_rootToLeaves hinv.order hs] at hok
  cases hlookup : b.digestToNodeIdxSize.lookup (digest directory) with
  | some entry =>
    rw [hlookup] at hok
    cases hok
    have hmem : directory ∈ before := hinv.mem_of_lookup hfree hbefore hdirectory
      (by rw [hlookup]; exact Option.some_ne_none entry)
    have hinv' := hinv.concat_of_mem hmem
    exact ⟨⟨⟨s, hs⟩, .inl ⟨directory, hmem, rfl⟩, hconsistent hinv'⟩,
      ⟨hinv', hinv.order, hinv.expRoot, hinv.first⟩⟩
  | none =>
    rw [hlookup] at hok
    dsimp only at hok
    cases hconnect : connect digest directory b.graph.nodeCount s
        (b.addDirectory digest directory s) with
    | error e =>
      rw [hconnect] at hok
      cases hok
    | ok b₁ =>
      rw [hconnect] at hok
      have hnew := hinv.lookup_none_iff.mp hlookup
      obtain ⟨hrecords, hnodes, horder, hwhy⟩ := connect_sound hinv hs hnew hconnect
      obtain ⟨hinv', hsame, -⟩ := hinv.concat hs hnodes hrecords hok
      have hnodes' : b'.graph.nodes = b.graph.nodes ++ [directory] := hsame.nodes.trans hnodes
      refine ⟨⟨⟨s, hs⟩, .inr (hwhy.imp_right And.right), hconsistent hinv'⟩, hinv',
        hsame.order.trans (horder.trans hinv.order), ?_, ?_⟩
      · rw [hnodes']
        intro hnil
        exact absurd hnil (List.append_ne_nil_of_right_ne_nil _ (List.cons_ne_nil directory []))
      · intro d hd
        rw [hnodes'] at hd
        cases hfirst : b.graph.nodes with
        | cons d' nodes =>
          rw [hfirst] at hd
          cases hd
          exact hinv.first d (by rw [hfirst]; rfl)
        | nil =>
          rw [hfirst] at hd
          cases hd
          have hnil : before = [] := by
            simp only [List.eq_nil_iff_forall_not_mem, ← hinv.mem_nodes, hfirst, List.not_mem_nil,
              not_false_eq_true, implies_true]
          exact (hwhy.resolve_right fun h => h.1 hnil).2

theorem tryInsert_complete_rootToLeaves
    (hinv : InvRootToLeaves digest checks rootDigest before b)
    (hsize : ∃ s, directory.size checks = some s)
    (hwhy : (Directory.merkle digest checks).Has before (digest directory) ∨
      before = [] ∧ digest directory = rootDigest ∨
      (Directory.merkle digest checks).Claimed before (digest directory))
    (hconsistent : (Directory.merkle digest checks).Consistent (before ++ [directory])) :
    ∃ b', tryInsert digest checks b directory = .ok b' := by
  obtain ⟨s, hs⟩ := hsize
  rw [tryInsert_rootToLeaves hinv.order hs]
  cases hlookup : b.digestToNodeIdxSize.lookup (digest directory) with
  | some entry => exact ⟨b, rfl⟩
  | none =>
    have hnew := hinv.lookup_none_iff.mp hlookup
    obtain ⟨b₁, hconnect⟩ := connect_complete hinv hs hnew (hwhy.resolve_left hnew) hconsistent.2
    obtain ⟨hrecords, hnodes, horder, -⟩ := connect_sound hinv hs hnew hconnect
    dsimp only
    rw [hconnect]
    apply addChildren_complete hrecords
    · intro _
      change Agree _ (claimsBy b.graph.nodes ++
        (directory.children.map Prod.snd).map fun out => (b.graph.nodes.length, out))
      rw [← claimsBy_concat, hnodes]
      exact (agree_iff_consistent hinv.mem_concat (hinv.sized_concat hs)).mpr hconsistent
    · intro hltr
      rw [horder, hinv.order] at hltr
      cases hltr

theorem decides_rootToLeaves
    (hfree : (Directory.merkle digest checks).CollisionFree directories) :
    Decides directories (tryInsert digest checks) (InvRootToLeaves digest checks rootDigest)
      (fun before a => (∃ s, (Directory.merkle digest checks).size a = some s) ∧
        ((Directory.merkle digest checks).Has before ((Directory.merkle digest checks).key a) ∨
          before = [] ∧ (Directory.merkle digest checks).key a = rootDigest ∨
          (Directory.merkle digest checks).Claimed before
            ((Directory.merkle digest checks).key a)) ∧
        (Directory.merkle digest checks).Consistent (before ++ [a])) where
  sound _ _ _ _ hbefore ha hinv h := tryInsert_sound_rootToLeaves hfree hbefore ha hinv h
  complete _ _ _ _ _ hinv h := tryInsert_complete_rootToLeaves hinv h.1 h.2.1 h.2.2

theorem todo_eq_nil (hinv : InvRootToLeaves digest checks rootDigest before b) :
    b.rtlEdgesTodo.entries = [] ↔ ∀ k, (Directory.merkle digest checks).Claimed before k →
      (Directory.merkle digest checks).Has before k := by
  constructor
  · intro hnil k hk
    obtain ⟨s, hs⟩ := hk
    obtain ⟨i, hi⟩ := (exists_mem_claimsBy hinv.mem_nodes).mpr hs
    have hempty : b.rtlEdgesTodo = ∅ := AList.ext hnil
    obtain ⟨t, ht⟩ := hinv.records.todo_none k (by rw [hempty]; rfl) i s hi
    exact ((mem_heldBy hinv.mem_nodes hinv.sized).mp ht).has
  · intro hall
    have hkeys : b.rtlEdgesTodo.keys = [] := by
      rw [List.eq_nil_iff_forall_not_mem]
      intro k hk
      rw [← AList.mem_keys, ← AList.lookup_isSome, Option.isSome_iff_exists] at hk
      obtain ⟨⟨s, srcs⟩, htodo⟩ := hk
      obtain ⟨src, hsrc⟩ := List.exists_mem_of_ne_nil _ (hinv.records.todo_ne_nil k s srcs htodo)
      have hc := (hinv.records.todo_iff k s srcs htodo src s).mpr ⟨rfl, hsrc⟩
      obtain ⟨d, hd, hkey⟩ := hall k ⟨s, (exists_mem_claimsBy hinv.mem_nodes).mp ⟨src, hc⟩⟩
      obtain ⟨t, ht⟩ := hinv.sized d hd
      exact hinv.records.todo_new k s srcs htodo t
        ((mem_heldBy hinv.mem_nodes hinv.sized).mpr ⟨d, hd, hkey, ht⟩)
    exact List.map_eq_nil_iff.mp hkeys

/-- The graph is built if all directories are there. There is one root then. -/
theorem build_rootToLeaves (hinv : InvRootToLeaves digest checks rootDigest before b)
    (hfree : (Directory.merkle digest checks).CollisionFree before)
    (hconnected : (Directory.merkle digest checks).Connected rootDigest before) (debug : Bool) :
    (∃ g, b.build digest debug = .ok g) ↔
      (Directory.merkle digest checks).Complete rootDigest before := by
  have hnil : b.graph.nodeCount = 0 ↔ before = [] := by
    rw [DiGraph.nodeCount, List.length_eq_zero_iff]
    simp only [List.eq_nil_iff_forall_not_mem, hinv.mem_nodes]
  unfold build
  rw [hinv.order]
  dsimp only
  constructor
  · rintro ⟨g, hg⟩
    split_ifs at hg with hcount htodo hexternals
    rw [not_not, todo_eq_nil hinv] at htodo
    rintro k (rfl | hk)
    · have hlt : 0 < b.graph.nodes.length := Nat.pos_of_ne_zero hcount
      have hd : b.graph.nodes[0]? = some b.graph.nodes[0] := List.getElem?_eq_getElem hlt
      exact ⟨_, (hinv.mem_nodes _).mp (List.mem_of_getElem? hd), hinv.first _ hd⟩
    · exact htodo k hk
  · intro hcomplete
    have hroot : (Directory.merkle digest checks).UniqueRoot before :=
      ⟨rootDigest, (hconnected.root_iff hfree hcomplete).mpr rfl,
        fun k hk => (hconnected.root_iff hfree hcomplete).mp hk⟩
    have hexternals := hinv.externals_length_eq_one.mpr hroot
    have hcount : ¬b.graph.nodeCount = 0 := by
      rw [hnil]
      rintro rfl
      obtain ⟨d, hd, -⟩ := hcomplete rootDigest (.inl rfl)
      cases hd
    have htodo : ¬b.rtlEdgesTodo.entries ≠ [] :=
      not_not.mpr ((todo_eq_nil hinv).mpr fun k hk => hcomplete k (.inr hk))
    rw [if_neg hcount, if_neg htodo, if_neg fun h => h.2 hexternals]
    exact ⟨_, rfl⟩

/-- A builder accepts the sequences that start from the root, are complete, and in which all
    recorded sizes are right. -/
theorem accepts_iff_rootToLeaves
    (hfree : (Directory.merkle digest checks).CollisionFree directories) (debug : Bool) :
    (∃ g, ((newRootToLeaves rootDigest).insertAll digest checks directories >>=
        build digest debug) = .ok g) ↔
      (Directory.merkle digest checks).Connected rootDigest directories ∧
        (Directory.merkle digest checks).Complete rootDigest directories :=
  (decides_rootToLeaves hfree).run_iff inv_newRootToLeaves
    fun _ hconnected hinv => build_rootToLeaves hinv hfree hconnected debug

end

-- ====================
-- What is asserted on the way
-- ====================

section

variable {directories before : List Directory} {directory : Directory}
  {b : DirectoryGraphBuilder} {s : ℕ}

theorem noPanic_addChildren {n : ℕ} {outs : List (B3Digest × ℕ)} {held : List (B3Digest × ℕ)}
    {claims : List (ℕ × B3Digest × ℕ)} (h : HasRecords held claims b)
    (horder : b.insertionOrder = .rootToLeaves) :
    NoPanic (outs.foldlM (addChild digest directory n) b) := by
  induction outs generalizing b claims with
  | nil => exact noPanic_ok b
  | cons out outs ih =>
    rw [List.foldlM_cons]
    refine NoPanic.bind ?_ ?_
    · unfold addChild
      rw [horder]
      dsimp only
      split
      · split_ifs
        · exact noPanic_error _
        · exact noPanic_ok _
      · split
        · split_ifs
          · exact noPanic_error _
          · exact noPanic_ok _
        · exact noPanic_ok _
    · intro b₁ hb₁
      obtain ⟨hrecords, hsame, -⟩ := addChild_sound h hb₁
      exact ih hrecords (hsame.order.trans horder)

theorem noPanic_connect (hinv : InvRootToLeaves digest checks rootDigest before b) :
    NoPanic (connect digest directory b.graph.nodeCount s (b.addDirectory digest directory s)) := by
  unfold connect
  split_ifs with hcount
  · have hnil : b.graph.nodes = [] := by
      rw [← List.length_eq_zero_iff]
      simpa [addDirectory, DiGraph.addNode, DiGraph.nodeCount] using hcount
    have hexp : (b.addDirectory digest directory s).expRootDigest = some rootDigest :=
      hinv.expRoot hnil
    rw [hexp]
    dsimp only
    split_ifs
    · exact noPanic_error _
    · exact noPanic_ok _
  · split
    · split_ifs
      · exact noPanic_error _
      · exact noPanic_ok _
    · exact noPanic_error _

/-- Inserting directories whose sizes fit fails with an error or not at all. -/
theorem noPanic_insertAll_rootToLeaves
    (hfree : (Directory.merkle digest checks).CollisionFree directories)
    (hsized : ∀ d ∈ directories, ∃ s, d.size checks = some s) :
    NoPanic ((newRootToLeaves rootDigest).insertAll digest checks directories) := by
  suffices h : ∀ m ⊆ directories, NoPanic (m.foldlM (tryInsert digest checks)
      (newRootToLeaves rootDigest)) from h directories (List.Subset.refl directories)
  intro m hm
  induction m using List.reverseRecOn with
  | nil => exact noPanic_ok _
  | append_singleton m directory ih =>
    obtain ⟨hml, hdl⟩ := List.append_subset.mp hm
    rw [Decides.foldlM_concat]
    refine (ih hml).bind fun b hb => ?_
    obtain ⟨-, hinv⟩ := (decides_rootToLeaves hfree).along_and_inv inv_newRootToLeaves hml hb
    obtain ⟨s, hs⟩ := hsized directory (hdl (List.mem_singleton_self directory))
    rw [tryInsert_rootToLeaves hinv.order hs]
    cases hlookup : b.digestToNodeIdxSize.lookup (digest directory) with
    | some entry => exact noPanic_ok b
    | none =>
      refine (noPanic_connect hinv).bind fun b₁ hb₁ => ?_
      have hnew := hinv.lookup_none_iff.mp hlookup
      obtain ⟨hrecords, -, horder, -⟩ := connect_sound hinv hs hnew hb₁
      exact noPanic_addChildren hrecords (horder.trans hinv.order)

end

/-- From the root to the leaves, the validator and the builder agree on a sequence unless a wrong
    claim is masked: then only the builder sees it. -/
theorem rootToLeaves_agree_iff (digest : Directory → B3Digest) (checks debug : Bool)
    (rootDigest : B3Digest) (directories : List Directory)
    (hfree : (Directory.merkle digest checks).CollisionFree directories) :
    ((∃ u, (RootToLeavesValidator.acceptAll digest checks rootDigest directories >>=
        RootToLeavesValidator.finalize) = .ok u) ↔
      ∃ g, ((newRootToLeaves rootDigest).insertAll digest checks directories >>=
        build digest debug) = .ok g) ↔
    ¬(Directory.merkle digest checks).Masked rootDigest directories := by
  rw [RootToLeavesValidator.accepts_iff hfree, accepts_iff_rootToLeaves hfree]
  by_cases hcomplete : (Directory.merkle digest checks).Complete rootDigest directories
  · rw [Merkle.connected_iff_topDown hcomplete, Merkle.Masked]
    tauto
  · simp only [hcomplete, and_false, Merkle.Masked, false_and, not_false_eq_true]

theorem rootToLeaves_agree_two :
    (Directory.merkle fixtureDigest true).CollisionFree [DIRECTORY_B, DIRECTORY_A] ∧
      ¬(Directory.merkle fixtureDigest true).Masked DIRECTORY_B_DIGEST
        [DIRECTORY_B, DIRECTORY_A] := by
  have hfree : (Directory.merkle fixtureDigest true).CollisionFree [DIRECTORY_B, DIRECTORY_A] :=
    (collisionFree_b true).of_subset (by simp)
  refine ⟨hfree, ?_⟩
  apply (rootToLeaves_agree_iff fixtureDigest true true DIRECTORY_B_DIGEST _ hfree).mp
  exact ⟨fun _ => ⟨_, rfl⟩, fun _ => ⟨(), rfl⟩⟩

/-- A directory that refers to another one with two different sizes is accepted by the validator,
    and the builder reports the wrong size. -/
theorem rootToLeaves_disagree :
    (Directory.merkle fixtureDigest true).CollisionFree [DIRECTORY_TWO_SIZES, DIRECTORY_A] ∧
      (RootToLeavesValidator.acceptAll fixtureDigest true DIRECTORY_TWO_SIZES_DIGEST
        [DIRECTORY_TWO_SIZES, DIRECTORY_A] >>= RootToLeavesValidator.finalize) = .ok () ∧
      ((newRootToLeaves DIRECTORY_TWO_SIZES_DIGEST).insertAll fixtureDigest true
        [DIRECTORY_TWO_SIZES, DIRECTORY_A] >>= build fixtureDigest true) =
          .error (.error (.wrongSize DIRECTORY_A_DIGEST 5)) := by
  refine ⟨?_, rfl, rfl⟩
  apply Merkle.CollisionFree.of_subset ?_ (collisionFree_fixture true (d := DIRECTORY_TWO_SIZES)
    (by decide) ?_)
  · simp
  · intro c hc
    rcases List.mem_pair.mp hc with rfl | rfl <;> rfl

end Snix.Castore.DirectoryGraphBuilder
