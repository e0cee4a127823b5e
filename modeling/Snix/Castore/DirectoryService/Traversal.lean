import Snix.Castore.DirectoryService.DirectoryGraph.Accept

/-!
# Traversing the directories of a store

From a root, the directories that can be reached are looked up one by one and sent,
each of them once. A directory that is missing ends the traversal with an error,
except for the root: then nothing is sent.

## Main definitions

- `rootToLeaves` — the directories that are sent, and the error at the end
- `Addressed` — a store in which every directory is found under its digest
- `Reaches` — from one digest to another through the directories of a store

## Main results

- `rootToLeaves_spec` — what is sent
- `insertAll_rootToLeaves_iff` — when a builder accepts it
- `rootToLeaves_closure` — it is the closure of the root
-/

namespace Snix.Castore

inductive TraversalError where
  | notFound (digest : B3Digest)
  deriving DecidableEq

namespace Traversal

/-- Adds a digest at the end of the worklist unless it is there or was sent. -/
def enqueue (sent queue : List B3Digest) (child : PathComponent × B3Digest × ℕ) : List B3Digest :=
  if child.2.1 ∈ queue ∨ child.2.1 ∈ sent then queue else queue ++ [child.2.1]

/-- The traversal with a worklist. None if there are more than the given number of rounds. -/
def loop (store : DigestMap Directory) (root : B3Digest) :
    ℕ → List B3Digest → List B3Digest → Option (List Directory × Option TraversalError)
  | 0, _, _ => none
  | _ + 1, [], _ => some ([], none)
  | n + 1, digest :: queue, sent =>
    match store.lookup digest with
    | none =>
      if digest = root then some ([], none) else some ([], some (.notFound digest))
    | some directory => do
      let sent := digest :: sent
      let (directories, e) ← loop store root n (directory.children.foldl (enqueue sent) queue) sent
      some (directory :: directories, e)

theorem mem_foldl_enqueue {sent queue : List B3Digest}
    {children : List (PathComponent × B3Digest × ℕ)} {k : B3Digest} :
    k ∈ children.foldl (enqueue sent) queue ↔
      k ∈ queue ∨ k ∉ sent ∧ ∃ child ∈ children, child.2.1 = k := by
  induction children generalizing queue with
  | nil => simp
  | cons child children ih =>
    rw [List.foldl_cons, ih]
    have hone : k ∈ enqueue sent queue child ↔ k ∈ queue ∨ k ∉ sent ∧ child.2.1 = k := by
      unfold enqueue
      split_ifs with h
      · constructor
        · exact .inl
        · rintro (hk | ⟨hk, rfl⟩)
          · exact hk
          · exact h.resolve_right hk
      · rw [not_or] at h
        rw [List.mem_append, List.mem_singleton]
        refine or_congr_right ⟨?_, fun hk => hk.2.symm⟩
        rintro rfl
        exact ⟨h.2, rfl⟩
    rw [hone, or_assoc, ← and_or_left]
    simp only [List.mem_cons, exists_eq_or_imp]

theorem nodup_foldl_enqueue {sent queue : List B3Digest}
    {children : List (PathComponent × B3Digest × ℕ)} (h : queue.Nodup) :
    (children.foldl (enqueue sent) queue).Nodup := by
  induction children generalizing queue with
  | nil => exact h
  | cons child children ih =>
    apply ih
    unfold enqueue
    split_ifs with hmem
    · exact h
    · rw [not_or] at hmem
      exact h.append (List.nodup_singleton _) (List.disjoint_singleton.mpr hmem.1)

end Traversal

/-- The directories that are sent, and the error at the end. -/
def rootToLeaves (store : DigestMap Directory) (root : B3Digest) :
    Option (List Directory × Option TraversalError) :=
  Traversal.loop store root (store.entries.length + 2) [root] []

/-- Every directory of a store is found under its digest, and no directory contains its own
    digest, directly or through others. -/
structure Addressed (digest : Directory → B3Digest) (store : DigestMap Directory) : Prop where
  digest_eq : ∀ k d, store.lookup k = some d → digest d = k
  acyclic : ∃ rank : B3Digest → ℕ, ∀ k d, store.lookup k = some d →
    ∀ child ∈ d.children, rank child.2.1 < rank k

theorem Addressed.of_subset {digest : Directory → B3Digest} {store store' : DigestMap Directory}
    (haddr : Addressed digest store)
    (hsub : ∀ k d, store'.lookup k = some d → store.lookup k = some d) : Addressed digest store' where
  digest_eq k d hd := haddr.digest_eq k d (hsub k d hd)
  acyclic := by
    obtain ⟨rank, hrank⟩ := haddr.acyclic
    exact ⟨rank, fun k d hd => hrank k d (hsub k d hd)⟩

/-- From a digest to another one through directories of the store. -/
def Reaches (store : DigestMap Directory) : B3Digest → B3Digest → Prop :=
  Relation.ReflTransGen fun k k' =>
    ∃ d, store.lookup k = some d ∧ ∃ child ∈ d.children, child.2.1 = k'

theorem mem_refs_iff {digest : Directory → B3Digest} {checks : Bool} {d : Directory} {k : B3Digest} :
    (∃ s, (k, s) ∈ (Directory.merkle digest checks).refs d) ↔
      ∃ child ∈ d.children, child.2.1 = k := by
  constructor
  · rintro ⟨s, hs⟩
    obtain ⟨child, hchild, heq⟩ := List.mem_map.mp hs
    exact ⟨child, hchild, congrArg Prod.fst heq⟩
  · rintro ⟨child, hchild, rfl⟩
    exact ⟨child.2.2, List.mem_map.mpr ⟨child, hchild, rfl⟩⟩

namespace Traversal

variable {digest : Directory → B3Digest} {checks : Bool} {store : DigestMap Directory}
  {root : B3Digest}

/-- A traversal that has sent some directories: they come from the store, each one once and after
    one that refers to it. What was referred to was sent or is in the worklist. -/
structure Inv (digest : Directory → B3Digest) (checks : Bool) (store : DigestMap Directory)
    (root : B3Digest) (before : List Directory) (queue sent : List B3Digest) : Prop where
  mem_sent : ∀ k, k ∈ sent ↔ (Directory.merkle digest checks).Has before k
  nodup_queue : queue.Nodup
  not_sent : ∀ k ∈ queue, k ∉ sent
  cover : ∀ k, k ∈ queue ∨ k ∈ sent ↔
    k = root ∨ (Directory.merkle digest checks).Claimed before k
  stored : ∀ d ∈ before, store.lookup (digest d) = some d
  nodup : (before.map digest).Nodup
  rooted : (Directory.merkle digest checks).Rooted root before

theorem inv_start : Inv digest checks store root [] [root] [] where
  mem_sent k := by simp [Merkle.Has]
  nodup_queue := List.nodup_singleton root
  not_sent k _ := List.not_mem_nil
  cover k := by simp [Merkle.Claimed, Merkle.claims]
  stored _ hd := absurd hd List.not_mem_nil
  nodup := List.nodup_nil
  rooted := along_nil

namespace Inv

variable {before : List Directory} {k : B3Digest} {queue sent : List B3Digest} {d : Directory}

/-- One round. -/
theorem step (h : Inv digest checks store root before (k :: queue) sent)
    (haddr : Addressed digest store) (hd : store.lookup k = some d) :
    Inv digest checks store root (before ++ [d]) (d.children.foldl (enqueue (k :: sent)) queue)
      (k :: sent) := by
  obtain ⟨hk, hqueue⟩ := List.nodup_cons.mp h.nodup_queue
  have hkey : digest d = k := haddr.digest_eq k d hd
  have hnew : k ∉ sent := h.not_sent k List.mem_cons_self
  constructor
  · intro k'
    rw [List.mem_cons, h.mem_sent, Merkle.has_concat, or_comm, eq_comm]
    change _ ↔ _ ∨ digest d = k'
    rw [hkey]
  · exact nodup_foldl_enqueue hqueue
  · intro k' hk'
    rcases mem_foldl_enqueue.mp hk' with hmem | ⟨hnot, -⟩
    · rw [List.mem_cons, not_or]
      exact ⟨fun heq => hk (heq ▸ hmem), h.not_sent k' (List.mem_cons_of_mem k hmem)⟩
    · exact hnot
  · intro k'
    have hcover := h.cover k'
    rw [List.mem_cons] at hcover
    rw [mem_foldl_enqueue, Merkle.claimed_concat, mem_refs_iff, ← or_assoc, ← hcover, List.mem_cons]
    constructor
    · rintro ((hqueue | ⟨-, hchild⟩) | hk' | hsent)
      · exact .inl (.inl (.inr hqueue))
      · exact .inr hchild
      · exact .inl (.inl (.inl hk'))
      · exact .inl (.inr hsent)
    · rintro (((hk' | hqueue) | hsent) | hchild)
      · exact .inr (.inl hk')
      · exact .inl (.inl hqueue)
      · exact .inr (.inr hsent)
      · by_cases hsent : k' = k ∨ k' ∈ sent
        · exact .inr hsent
        · exact .inl (.inr ⟨hsent, hchild⟩)
  · intro d' hd'
    rcases List.mem_append.mp hd' with hd' | hd'
    · exact h.stored d' hd'
    · rw [List.mem_singleton.mp hd', hkey]
      exact hd
  · rw [List.map_append, List.map_singleton, hkey]
    refine h.nodup.append (List.nodup_singleton k) (List.disjoint_singleton.mpr ?_)
    intro hmem
    obtain ⟨d', hd', hkey'⟩ := List.mem_map.mp hmem
    exact hnew ((h.mem_sent k).mpr ⟨d', hd', hkey'⟩)
  · refine along_concat.mpr ⟨h.rooted, ?_⟩
    change digest d = root ∨ (Directory.merkle digest checks).Claimed before (digest d)
    rw [hkey]
    exact (h.cover k).mp (.inl List.mem_cons_self)

theorem length_le (h : Inv digest checks store root before queue sent) :
    before.length ≤ store.entries.length := by
  have hsub : before.map digest ⊆ store.keys := by
    intro k hk
    obtain ⟨d, hd, rfl⟩ := List.mem_map.mp hk
    rw [← AList.mem_keys, ← AList.lookup_isSome, h.stored d hd]
    rfl
  have hle := (h.nodup.subperm hsub).length_le
  rw [List.length_map] at hle
  exact hle.trans_eq (List.length_map _)

/-- While the root is in the worklist nothing was sent. -/
theorem eq_nil (h : Inv digest checks store root before queue sent) (hroot : root ∈ queue) :
    before = [] := by
  cases before with
  | nil => rfl
  | cons d before =>
    have hfirst : digest d = root := by
      refine (h.rooted [] d before rfl).resolve_right ?_
      rintro ⟨s, hs⟩
      cases hs
    have hsent := (h.mem_sent root).mpr ⟨d, List.mem_cons_self, hfirst⟩
    exact absurd hsent (h.not_sent root hroot)

end Inv

/-- A traversal ends; with everything that was referred to, or at a directory that is missing. -/
theorem loop_spec (haddr : Addressed digest store) {n : ℕ} {before : List Directory}
    {queue sent : List B3Digest} (h : Inv digest checks store root before queue sent)
    (hn : store.entries.length + 2 ≤ n + before.length) :
    ∃ rest e, loop store root n queue sent = some (rest, e) ∧
      (∀ d ∈ before ++ rest, store.lookup (digest d) = some d) ∧
      ((before ++ rest).map digest).Nodup ∧
      (Directory.merkle digest checks).Rooted root (before ++ rest) ∧
      match e with
      | none =>
        (Directory.merkle digest checks).Complete root (before ++ rest) ∨
          before ++ rest = [] ∧ store.lookup root = none
      | some (.notFound k) =>
        (Directory.merkle digest checks).Claimed (before ++ rest) k ∧ store.lookup k = none := by
  induction n generalizing before queue sent with
  | zero =>
    have hle := h.length_le
    omega
  | succ n ih =>
    cases queue with
    | nil =>
      refine ⟨[], none, rfl, ?_⟩
      rw [List.append_nil]
      refine ⟨h.stored, h.nodup, h.rooted, .inl fun k hk => ?_⟩
      have hsent := ((h.cover k).mpr hk).resolve_left List.not_mem_nil
      exact (h.mem_sent k).mp hsent
    | cons k queue =>
      cases hd : store.lookup k with
      | some d =>
        have hlen : (before ++ [d]).length = before.length + 1 := List.length_append
        obtain ⟨rest, e, hloop, hrest⟩ := ih (h.step haddr hd) (by omega)
        rw [List.append_assoc] at hrest
        refine ⟨d :: rest, e, ?_, hrest⟩
        rw [loop, hd]
        simp only [hloop]
        rfl
      | none =>
        by_cases hk : k = root
        · refine ⟨[], none, ?_, ?_⟩
          · rw [loop, hd]
            exact if_pos hk
          · have hnil := h.eq_nil (hk ▸ List.mem_cons_self)
            rw [List.append_nil]
            exact ⟨h.stored, h.nodup, h.rooted, .inr ⟨hnil, hk ▸ hd⟩⟩
        · refine ⟨[], some (.notFound k), ?_, ?_⟩
          · rw [loop, hd]
            exact if_neg hk
          · rw [List.append_nil]
            refine ⟨h.stored, h.nodup, h.rooted, ?_, hd⟩
            exact ((h.cover k).mp (.inl List.mem_cons_self)).resolve_left hk

end Traversal

section

variable {digest : Directory → B3Digest} {checks : Bool} {store : DigestMap Directory}
  {root : B3Digest} {directories : List Directory}

theorem Addressed.collisionFree (haddr : Addressed digest store)
    (hstored : ∀ d ∈ directories, store.lookup (digest d) = some d) :
    (Directory.merkle digest checks).CollisionFree directories where
  injective a ha b hb hkey := by
    have hkey' : digest a = digest b := hkey
    have ha' := hstored a ha
    rw [hkey', hstored b hb] at ha'
    exact (Option.some.inj ha').symm
  acyclic := by
    obtain ⟨rank, hrank⟩ := haddr.acyclic
    refine ⟨rank, fun a ha c hc => ?_⟩
    obtain ⟨child, hchild, heq⟩ := mem_refs_iff.mp ⟨c.2, hc⟩
    rw [← heq]
    exact hrank (digest a) a (hstored a ha) child hchild

/-- What is sent can be reached. -/
theorem reaches_of_rooted (hstored : ∀ d ∈ directories, store.lookup (digest d) = some d)
    (hrooted : (Directory.merkle digest checks).Rooted root directories) :
    ∀ d ∈ directories, Reaches store root (digest d) := by
  induction directories using List.reverseRecOn with
  | nil => exact fun d hd => absurd hd List.not_mem_nil
  | append_singleton directories b ih =>
    obtain ⟨hbefore, hb⟩ := along_concat.mp hrooted
    have hreach := ih (fun d hd => hstored d (List.mem_append_left [b] hd)) hbefore
    intro d hd
    rcases List.mem_append.mp hd with hd | hd
    · exact hreach d hd
    · rw [List.mem_singleton.mp hd]
      rcases hb with hroot | ⟨s, hs⟩
      · have hroot' : digest b = root := hroot
        rw [hroot']
        exact Relation.ReflTransGen.refl
      · obtain ⟨parent, hparent, hs⟩ := Merkle.mem_claims.mp hs
        refine (hreach parent hparent).tail
          ⟨parent, hstored parent (List.mem_append_left [b] hparent), ?_⟩
        exact mem_refs_iff.mp ⟨s, hs⟩

theorem mem_of_has (hstored : ∀ d ∈ directories, store.lookup (digest d) = some d) {k : B3Digest}
    {d : Directory} (hk : (Directory.merkle digest checks).Has directories k)
    (hd : store.lookup k = some d) : d ∈ directories := by
  obtain ⟨d', hd', rfl⟩ := hk
  have heq := hstored d' hd'
  cases heq.symm.trans hd
  exact hd'

/-- What can be reached was sent. -/
theorem has_of_reaches (hstored : ∀ d ∈ directories, store.lookup (digest d) = some d)
    (hcomplete : (Directory.merkle digest checks).Complete root directories) {k : B3Digest}
    (hk : Reaches store root k) : (Directory.merkle digest checks).Has directories k := by
  induction hk with
  | refl => exact hcomplete root (.inl rfl)
  | tail _ hstep ih =>
    obtain ⟨d, hd, hchild⟩ := hstep
    obtain ⟨s, hs⟩ := (@mem_refs_iff digest checks d _).mpr hchild
    exact hcomplete _ (.inr ⟨s, Merkle.mem_claims.mpr ⟨d, mem_of_has hstored ih hd, hs⟩⟩)

/-- Every size that is recorded in a directory that can be reached is right. -/
def SizesRight (checks : Bool) (store : DigestMap Directory) (root : B3Digest) : Prop :=
  ∀ k d, Reaches store root k → store.lookup k = some d → ∀ child ∈ d.children,
    ∀ d', store.lookup child.2.1 = some d' → d'.size checks = some child.2.2

/-- The outcome of a traversal: nothing if the root is missing, an error if another directory is,
    and otherwise everything that can be reached. -/
theorem rootToLeaves_spec (checks : Bool) (haddr : Addressed digest store) (root : B3Digest) :
    ∃ directories e, rootToLeaves store root = some (directories, e) ∧
      (∀ d ∈ directories, store.lookup (digest d) = some d) ∧
      (directories.map digest).Nodup ∧
      (Directory.merkle digest checks).Rooted root directories ∧
      match e with
      | none =>
        (Directory.merkle digest checks).Complete root directories ∨
          directories = [] ∧ store.lookup root = none
      | some (.notFound k) => Reaches store root k ∧ k ≠ root ∧ store.lookup k = none := by
  obtain ⟨directories, e, hloop, hstored, hnodup, hrooted, hend⟩ := Traversal.loop_spec haddr
    (Traversal.inv_start : Traversal.Inv digest checks store root [] [root] []) (Nat.le_refl _)
  refine ⟨directories, e, hloop, hstored, hnodup, hrooted, ?_⟩
  cases e with
  | none => exact hend
  | some e =>
    obtain ⟨k⟩ := e
    obtain ⟨⟨s, hs⟩, hk⟩ := hend
    obtain ⟨parent, hparent, hs⟩ := Merkle.mem_claims.mp hs
    have hparent' := hstored parent hparent
    refine ⟨?_, ?_, hk⟩
    · exact (reaches_of_rooted hstored hrooted parent hparent).tail
        ⟨parent, hparent', mem_refs_iff.mp ⟨s, hs⟩⟩
    · rintro rfl
      exact hrooted.root_not_claimed (haddr.collisionFree hstored)
        ⟨s, Merkle.mem_claims.mpr ⟨parent, hparent, hs⟩⟩

/-- The recorded sizes are right if those in the directories that were sent are. -/
theorem sizesRight_iff (hstored : ∀ d ∈ directories, store.lookup (digest d) = some d)
    (hrooted : (Directory.merkle digest checks).Rooted root directories)
    (hcomplete : (Directory.merkle digest checks).Complete root directories) :
    (Directory.merkle digest checks).Right directories ↔ SizesRight checks store root := by
  constructor
  · intro hright k d hk hd child hchild d' hd'
    have hmem := mem_of_has hstored (has_of_reaches hstored hcomplete hk) hd
    have hc : child.2 ∈ (Directory.merkle digest checks).claims directories :=
      Merkle.mem_claims.mpr ⟨d, hmem, List.mem_map.mpr ⟨child, hchild, rfl⟩⟩
    obtain ⟨d₂, hd₂, hkey⟩ := hcomplete child.2.1 (.inr ⟨child.2.2, hc⟩)
    have hkey' : digest d₂ = child.2.1 := hkey
    have heq := hstored d₂ hd₂
    rw [hkey', hd'] at heq
    cases heq
    exact hright d' hd₂ child.2 hc hkey.symm
  · intro hright a ha c hc hkey
    obtain ⟨d, hd, hcd⟩ := Merkle.mem_claims.mp hc
    obtain ⟨child, hchild, rfl⟩ := List.mem_map.mp hcd
    have hkey' : child.2.1 = digest a := hkey
    refine hright (digest d) d (reaches_of_rooted hstored hrooted d hd) (hstored d hd) child hchild
      a ?_
    rw [hkey']
    exact hstored a ha

open DirectoryGraphBuilder in
/-- A builder accepts what is sent if the recorded sizes are right. -/
theorem insertAll_rootToLeaves_iff (haddr : Addressed digest store)
    (hstored : ∀ d ∈ directories, store.lookup (digest d) = some d)
    (hrooted : (Directory.merkle digest checks).Rooted root directories)
    (hcomplete : (Directory.merkle digest checks).Complete root directories)
    (hsized : ∀ d ∈ directories, ∃ s, d.size checks = some s) (debug : Bool) :
    (∃ g, ((newRootToLeaves root).insertAll digest checks directories >>= build digest debug) =
      .ok g) ↔ SizesRight checks store root := by
  rw [accepts_iff_rootToLeaves (haddr.collisionFree hstored),
    ← sizesRight_iff hstored hrooted hcomplete, and_iff_left hcomplete,
    Merkle.connected_iff_topDown hcomplete]
  exact ⟨And.right, fun hright => ⟨.of_rooted hrooted hsized hright, hright⟩⟩

/-- The root has a size, and every recorded size is right. -/
def SizesConsistent (checks : Bool) (store : DigestMap Directory) (root : B3Digest) : Prop :=
  (∀ d, store.lookup root = some d → ∃ s, d.size checks = some s) ∧ SizesRight checks store root

theorem SizesConsistent.exists_size (h : SizesConsistent checks store root) {k : B3Digest}
    {d : Directory} (hk : Reaches store root k) (hd : store.lookup k = some d) :
    ∃ s, d.size checks = some s := by
  cases hk with
  | refl => exact h.1 d hd
  | tail hparent hstep =>
    obtain ⟨parent, hlookup, child, hchild, rfl⟩ := hstep
    exact ⟨child.2.2, h.2 _ parent hparent hlookup child hchild d hd⟩

/-- A validator accepts what is sent if the sizes are consistent. -/
theorem acceptAll_rootToLeaves (haddr : Addressed digest store)
    (hstored : ∀ d ∈ directories, store.lookup (digest d) = some d)
    (hrooted : (Directory.merkle digest checks).Rooted root directories)
    (hcomplete : (Directory.merkle digest checks).Complete root directories)
    (hsizes : SizesConsistent checks store root) :
    ∃ u, (RootToLeavesValidator.acceptAll digest checks root directories >>=
      RootToLeavesValidator.finalize) = .ok u := by
  have hsized : ∀ d ∈ directories, ∃ s, (Directory.merkle digest checks).size d = some s :=
    fun d hd =>
      hsizes.exists_size (reaches_of_rooted hstored hrooted d hd) (hstored d hd)
  have hright := (sizesRight_iff hstored hrooted hcomplete).mpr hsizes.2
  apply (RootToLeavesValidator.accepts_iff (haddr.collisionFree hstored)).mpr
  exact ⟨.of_rooted hrooted hsized hright, hcomplete⟩

/-- The stream is the closure of the root. Every directory that can be reached is sent once, and a
    validator accepts the order. Nothing is sent if the root is missing, and there is an error at
    the end if another directory is. -/
theorem rootToLeaves_closure (digest : Directory → B3Digest) (checks : Bool)
    (store : DigestMap Directory) (root : B3Digest) (haddr : Addressed digest store) :
    ∃ directories e, rootToLeaves store root = some (directories, e) ∧
      directories.Nodup ∧
      (∀ d ∈ directories, ∃ k, Reaches store root k ∧ store.lookup k = some d) ∧
      ((∀ k, Reaches store root k → ∃ d, store.lookup k = some d) →
        e = none ∧
        (∀ k d, Reaches store root k → store.lookup k = some d → d ∈ directories) ∧
        (SizesConsistent checks store root →
          (RootToLeavesValidator.acceptAll digest checks root directories >>=
            RootToLeavesValidator.finalize) = .ok ())) ∧
      (store.lookup root = none → directories = [] ∧ e = none) ∧
      ((∃ d, store.lookup root = some d) →
        (∃ k, Reaches store root k ∧ store.lookup k = none) →
        ∃ k, e = some (.notFound k) ∧ Reaches store root k ∧ store.lookup k = none) := by
  obtain ⟨directories, e, hrun, hstored, hnodup, hrooted, hend⟩ := rootToLeaves_spec checks haddr root
  have hreach := reaches_of_rooted hstored hrooted
  refine ⟨directories, e, hrun, hnodup.of_map digest, fun d hd => ⟨digest d, hreach d hd, hstored d hd⟩,
    fun hall => ?_, fun hroot => ?_, fun hroot hmissing => ?_⟩
  · -- every directory that can be reached is in the store
    have he : e = none := by
      cases e with
      | none => rfl
      | some e =>
        obtain ⟨k⟩ := e
        obtain ⟨hk, -, hnone⟩ := hend
        obtain ⟨d, hd⟩ := hall k hk
        cases hd.symm.trans hnone
    subst he
    have hcomplete : (Directory.merkle digest checks).Complete root directories := by
      refine hend.resolve_right fun hnone => ?_
      obtain ⟨d, hd⟩ := hall root .refl
      cases hd.symm.trans hnone.2
    refine ⟨rfl, fun k d hk hd => mem_of_has hstored (has_of_reaches hstored hcomplete hk) hd, ?_⟩
    exact fun hsizes => (acceptAll_rootToLeaves haddr hstored hrooted hcomplete hsizes).elim
      fun _ hu => hu
  · -- without the root nothing is sent
    have hnil : directories = [] := by
      cases directories with
      | nil => rfl
      | cons d rest =>
        have hfirst : digest d = root := by
          refine (hrooted [] d rest rfl).resolve_right ?_
          rintro ⟨s, hs⟩
          cases hs
        have hd := hstored d List.mem_cons_self
        rw [hfirst, hroot] at hd
        cases hd
    refine ⟨hnil, ?_⟩
    cases e with
    | none => rfl
    | some e =>
      obtain ⟨k⟩ := e
      obtain ⟨hk, hne, -⟩ := hend
      cases hk.cases_head with
      | inl heq => exact absurd heq.symm hne
      | inr hstep =>
        obtain ⟨-, ⟨d, hd, -⟩, -⟩ := hstep
        cases hd.symm.trans hroot
  · -- the error says which directory is missing
    obtain ⟨k, hk, hnone⟩ := hmissing
    obtain ⟨d, hd⟩ := hroot
    cases e with
    | some e =>
      obtain ⟨k⟩ := e
      exact ⟨k, rfl, hend.1, hend.2.2⟩
    | none =>
      have hcomplete := hend.resolve_right fun hroot => by cases hd.symm.trans hroot.2
      obtain ⟨d', hd', hkey⟩ := has_of_reaches hstored hcomplete hk
      have hlookup := hstored d' hd'
      have hkey' : digest d' = k := hkey
      rw [hkey', hnone] at hlookup
      cases hlookup

end

-- ====================
-- A directory with the empty directory in it
-- ====================

theorem lookup_insert_eq_some {β : Type} {m : DigestMap β} {k k' : B3Digest} {v w : β} :
    (m.insert k' v).lookup k = some w ↔ k = k' ∧ w = v ∨ k ≠ k' ∧ m.lookup k = some w := by
  by_cases hk : k = k'
  · subst hk
    rw [AList.lookup_insert, Option.some.injEq]
    constructor
    · rintro rfl
      exact .inl ⟨rfl, rfl⟩
    · rintro (⟨-, rfl⟩ | ⟨hne, -⟩)
      · rfl
      · exact absurd rfl hne
  · rw [AList.lookup_insert_ne hk]
    constructor
    · exact fun h => .inr ⟨hk, h⟩
    · rintro (⟨heq, -⟩ | ⟨-, h⟩)
      · exact absurd heq hk
      · exact h

/-- The empty directory, and another one. -/
def storeOf (k : B3Digest) (d : Directory) : DigestMap Directory :=
  (AList.insert DIRECTORY_A_DIGEST DIRECTORY_A ∅).insert k d

section

variable {k : B3Digest} {d : Directory}

theorem lookup_storeOf {j : B3Digest} {d' : Directory} :
    (storeOf k d).lookup j = some d' ↔
      j = k ∧ d' = d ∨ j ≠ k ∧ j = DIRECTORY_A_DIGEST ∧ d' = DIRECTORY_A := by
  rw [storeOf, lookup_insert_eq_some, lookup_insert_eq_some]
  refine or_congr_right (and_congr_right fun _ => ?_)
  constructor
  · rintro (h | ⟨-, h⟩)
    · exact h
    · cases h
  · exact .inl

theorem addressed_storeOf {digest : Directory → B3Digest}
    (hempty : digest DIRECTORY_A = DIRECTORY_A_DIGEST) (hd : digest d = k)
    (hne : k ≠ DIRECTORY_A_DIGEST)
    (hchildren : ∀ child ∈ d.children, child.2.1 = DIRECTORY_A_DIGEST) :
    Addressed digest (storeOf k d) where
  digest_eq j d' hj := by
    rcases lookup_storeOf.mp hj with ⟨rfl, rfl⟩ | ⟨-, rfl, rfl⟩
    · exact hd
    · exact hempty
  acyclic := by
    refine ⟨fun j => if j = k then 1 else 0, fun j d' hj child hchild => ?_⟩
    rcases lookup_storeOf.mp hj with ⟨rfl, rfl⟩ | ⟨-, rfl, rfl⟩
    · rw [hchildren child hchild]
      dsimp only
      rw [if_neg hne.symm, if_pos rfl]
      exact Nat.one_pos
    · cases hchild

theorem of_reaches_storeOf (hchildren : ∀ child ∈ d.children, child.2.1 = DIRECTORY_A_DIGEST)
    {j : B3Digest} (hj : Reaches (storeOf k d) k j) : j = k ∨ j = DIRECTORY_A_DIGEST := by
  induction hj with
  | refl => exact .inl rfl
  | tail _ hstep _ =>
    obtain ⟨d', hd', child, hchild, rfl⟩ := hstep
    rcases lookup_storeOf.mp hd' with ⟨-, rfl⟩ | ⟨-, -, rfl⟩
    · exact .inr (hchildren child hchild)
    · cases hchild

end

theorem rootToLeaves_closure_b :
    ∃ directories, rootToLeaves (storeOf DIRECTORY_B_DIGEST DIRECTORY_B) DIRECTORY_B_DIGEST =
        some (directories, none) ∧
      DIRECTORY_A ∈ directories ∧
      (RootToLeavesValidator.acceptAll fixtureDigest true DIRECTORY_B_DIGEST directories >>=
        RootToLeavesValidator.finalize) = .ok () := by
  have hchildren : ∀ child ∈ DIRECTORY_B.children, child.2.1 = DIRECTORY_A_DIGEST := by
    intro child hchild
    cases List.mem_singleton.mp hchild
    rfl
  have hlookup : (storeOf DIRECTORY_B_DIGEST DIRECTORY_B).lookup DIRECTORY_A_DIGEST =
      some DIRECTORY_A := by rfl
  have hreaches : Reaches (storeOf DIRECTORY_B_DIGEST DIRECTORY_B) DIRECTORY_B_DIGEST
      DIRECTORY_A_DIGEST :=
    .single ⟨DIRECTORY_B, rfl, _, List.mem_singleton_self _, rfl⟩
  obtain ⟨directories, e, hrun, -, -, hpresent, -⟩ := rootToLeaves_closure fixtureDigest true
    (storeOf DIRECTORY_B_DIGEST DIRECTORY_B) DIRECTORY_B_DIGEST
    (addressed_storeOf rfl rfl (by decide) hchildren)
  obtain ⟨rfl, hall, haccepts⟩ := hpresent fun k hk => by
    rcases of_reaches_storeOf hchildren hk with rfl | rfl
    · exact ⟨DIRECTORY_B, rfl⟩
    · exact ⟨DIRECTORY_A, hlookup⟩
  refine ⟨directories, hrun, hall _ _ hreaches hlookup, haccepts ⟨fun d hd => ?_, ?_⟩⟩
  · cases hd
    exact ⟨2, by decide⟩
  · intro k d hk hd child hchild d' hd'
    rcases lookup_storeOf.mp hd with ⟨-, rfl⟩ | ⟨-, -, rfl⟩
    · cases List.mem_singleton.mp hchild
      cases hlookup.symm.trans hd'
      decide
    · cases hchild

end Snix.Castore
