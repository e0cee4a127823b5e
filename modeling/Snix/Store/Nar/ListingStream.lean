import Snix.Store.Nar.Listing

/-!
# Listings of what a directory service sends

A directory service sends the directories below a digest one after the other, and may stop
anywhere. Each of them is checked when it comes. That nothing is missing at the end is not
checked, and a lookup of a directory that was not sent is a panic.

## Main definitions

- `DirectoryStream`, `produceListingFrom` — what is sent, and the listing made from it
- `MeetsMissing` — the walk comes to a directory that is missing

## Main results

- `produceListingFrom_returns_iff` — a listing or an error is returned just if the walk does not
- `produceListingFrom_panics_empty` — a service that sends nothing
-/

namespace Snix.Store

open Castore Nar

/-- What a directory service sends: directories, and an error if it does not end well. -/
structure DirectoryStream where
  directories : List Castore.Directory
  error : Option TraversalError

namespace Listing

/-- The directories that are sent, after checking each of them. -/
def fetchFrom (digest : Castore.Directory → B3Digest) (checks : Bool) (stream : DirectoryStream)
    (root : B3Digest) : Except ListingFault (DigestMap Castore.Directory) := do
  let _ ← checkOrder (RootToLeavesValidator.acceptAll digest checks root stream.directories)
  match stream.error with
  | some e => .error (.error (.directoryService e))
  | none => .ok (collect digest stream.directories)

/-- Nothing is asked for if the node is not a directory. -/
def fetchRootFrom (digest : Castore.Directory → B3Digest) (checks : Bool)
    (stream : DirectoryStream) : Node → Except ListingFault (DigestMap Castore.Directory)
  | .directory rootDigest _ => fetchFrom digest checks stream rootDigest
  | _ => .ok ∅

end Listing

open Listing in
/-- The listing of a node, from what the directory service sends. -/
def produceListingFrom (digest : Castore.Directory → B3Digest) (checks debug : Bool)
    (stream : DirectoryStream) (root : Node) : Except ListingFault ListingEntry := do
  let directories ← fetchRootFrom digest checks stream root
  let (entry, _) ← produceListingInner debug directories (directories.entries.length + 1) root
    (count TOK_NAR 0)
  .ok entry

/-- A store sends what is found from the root to the leaves. -/
theorem produceListing_eq {digest : Castore.Directory → B3Digest} {checks debug : Bool}
    {store : DigestMap Castore.Directory} {k : B3Digest} {size : UInt64}
    {directories : List Castore.Directory} {e : Option TraversalError}
    (h : rootToLeaves store k = some (directories, e)) :
    produceListing digest checks debug store (.directory k size) =
      produceListingFrom digest checks debug ⟨directories, e⟩ (.directory k size) := by
  have hfetch : Listing.fetchRoot digest checks store (.directory k size) =
      Listing.fetchRootFrom digest checks ⟨directories, e⟩ (.directory k size) := by
    show Listing.fetch digest checks store k = Listing.fetchFrom digest checks ⟨directories, e⟩ k
    rw [Listing.fetch, h]
    rfl
  rw [produceListing, produceListingFrom, hfetch]

-- ====================
-- Trees from which something is missing
-- ====================

/-- The directories of the tree are there, and its names and targets are strings. -/
inductive Listable (store : DigestMap Castore.Directory) : Node → Prop
  | symlink {target : SymlinkTarget} : utf8Valid target.val = true → Listable store (.symlink target)
  | file {digest : B3Digest} {size : UInt64} {executable : Bool} :
    Listable store (.file digest size executable)
  | directory {digest : B3Digest} {size : UInt64} {d : Castore.Directory} :
    store.lookup digest = some d → (∀ e ∈ d.nodes.entries, utf8Valid e.1.val = true) →
    (∀ e ∈ d.nodes.entries, Listable store e.2) → Listable store (.directory digest size)

/-- Going through the tree one comes to a directory that is missing, before any name or target that
    is not a string. -/
inductive MeetsMissing (store : DigestMap Castore.Directory) : Node → Prop
  | missing {digest : B3Digest} {size : UInt64} : store.lookup digest = none →
    MeetsMissing store (.directory digest size)
  | entry {digest : B3Digest} {size : UInt64} {d : Castore.Directory}
      {before after : List (PathComponent × Node)} {name : PathComponent} {child : Node} :
    store.lookup digest = some d → d.nodes.entries = before ++ (name, child) :: after →
    (∀ e ∈ before, utf8Valid e.1.val = true ∧ Listable store e.2) → utf8Valid name.val = true →
    MeetsMissing store child → MeetsMissing store (.directory digest size)

/-- One of the entries leads to a directory that is missing, before any name that is not a string. -/
def EntriesMeetMissing (store : DigestMap Castore.Directory) (entries : List (PathComponent × Node)) :
    Prop :=
  ∃ before name child after, entries = before ++ (name, child) :: after ∧
    (∀ e ∈ before, utf8Valid e.1.val = true ∧ Listable store e.2) ∧ utf8Valid name.val = true ∧
    MeetsMissing store child

section

variable {store : DigestMap Castore.Directory} {node : Node} {name : PathComponent}
  {entries : List (PathComponent × Node)} {digest : B3Digest} {size : UInt64} {d : Castore.Directory}

theorem meetsMissing_directory (hd : store.lookup digest = some d) :
    MeetsMissing store (.directory digest size) ↔ EntriesMeetMissing store d.nodes.entries := by
  constructor
  · intro h
    cases h with
    | missing hnone =>
      rw [hd] at hnone
      cases hnone
    | entry hd' hentries hbefore hname hchild =>
      rw [hd] at hd'
      cases hd'
      exact ⟨_, _, _, _, hentries, hbefore, hname, hchild⟩
  · rintro ⟨before, name, child, after, hentries, hbefore, hname, hchild⟩
    exact .entry hd hentries hbefore hname hchild

/-- From a tree that is listable nothing is missing. -/
theorem MeetsMissing.not_listable (h : MeetsMissing store node) : ¬ Listable store node := by
  induction h with
  | missing hnone =>
    intro hlist
    cases hlist with
    | directory hd _ _ =>
      rw [hnone] at hd
      cases hd
  | entry hd hentries _ _ _ ih =>
    intro hlist
    cases hlist with
    | directory hd' _ hall =>
      rw [hd] at hd'
      cases hd'
      apply ih
      apply hall (_, _)
      rw [hentries]
      exact List.mem_append_right _ List.mem_cons_self

theorem entriesMeetMissing_cons : EntriesMeetMissing store ((name, node) :: entries) ↔
    utf8Valid name.val = true ∧
      (MeetsMissing store node ∨ Listable store node ∧ EntriesMeetMissing store entries) := by
  constructor
  · rintro ⟨before, name', child, after, hentries, hbefore, hname, hchild⟩
    cases before with
    | nil =>
      cases hentries
      exact ⟨hname, .inl hchild⟩
    | cons e before =>
      cases hentries
      obtain ⟨hvalid, hlist⟩ := hbefore _ List.mem_cons_self
      exact ⟨hvalid, .inr ⟨hlist, before, name', child, after, rfl,
        fun e he => hbefore e (List.mem_cons_of_mem _ he), hname, hchild⟩⟩
  · rintro ⟨hvalid, hchild | ⟨hlist, before, name', child, after, rfl, hbefore, hname, hchild⟩⟩
    · refine ⟨[], name, node, entries, rfl, ?_, hvalid, hchild⟩
      intro e he
      cases he
    · refine ⟨(name, node) :: before, name', child, after, rfl, ?_, hname, hchild⟩
      intro e he
      rcases List.mem_cons.mp he with rfl | he
      · exact ⟨hvalid, hlist⟩
      · exact hbefore e he

end

-- ====================
-- The walk
-- ====================

namespace Listing

/-- How the walk ends: with a result, if everything is there; with a panic, if it comes to a directory
    that is missing; and with an error otherwise. -/
def EndsAs {α : Type} (listable meetsMissing : Prop) (x : Except ListingFault α) : Prop :=
  (∃ a, x = .ok a) ∧ listable ∨
    (∃ e, x = .error (.error e)) ∧ ¬ listable ∧ ¬ meetsMissing ∨
      x = .error (.panic "Snix bug: lookup of unknown directory") ∧ meetsMissing

section

variable {debug : Bool} {directories : DigestMap Castore.Directory}

/-- The entries of a directory that has an outline have one. -/
theorem exists_outline_of_mem {f : Node → Option (List Piece)} {entries : List (PathComponent × Node)}
    {prev : Bytes} {pieces : List Piece} (h : outlineEntries f prev entries = some pieces)
    {e : PathComponent × Node} (he : e ∈ entries) : ∃ first, f e.2 = some first := by
  induction entries generalizing prev pieces with
  | nil => cases he
  | cons e' entries ih =>
    obtain ⟨first, rest, hfirst, hrest, -⟩ := outlineEntries_cons.mp h
    rcases List.mem_cons.mp he with rfl | he
    · exact ⟨first, hfirst⟩
    · exact ih hrest he

theorem listEntries_endsAs {listNode : Node → ℕ → Except ListingFault (ListingEntry × ℕ)}
    {entries : List (PathComponent × Node)}
    (hlist : ∀ e ∈ entries, ∀ c, EndsAs (Listable directories e.2) (MeetsMissing directories e.2)
      (listNode e.2 c))
    (hsorted : entries.Pairwise (entryLt PathComponent.cmp)) (dir : Nar.Directory)
    (hdir : dir.prevName ≠ some []) (hprev : ∀ e ∈ entries, dir.prev < e.1.val)
    (before : List (Utf8 × ListingEntry)) (c : ℕ) :
    EndsAs (∀ e ∈ entries, utf8Valid e.1.val = true ∧ Listable directories e.2)
      (EntriesMeetMissing directories entries) (listEntries debug listNode entries dir before c) := by
  induction entries generalizing dir before c with
  | nil => exact .inl ⟨⟨_, rfl⟩, fun e he => absurd he List.not_mem_nil⟩
  | cons e entries ih =>
    obtain ⟨name, node⟩ := e
    obtain ⟨hlt, hsorted⟩ := List.pairwise_cons.mp hsorted
    have hentry := entry_eq_ok debug (not_badName name) (hprev _ List.mem_cons_self) hdir []
    have hdir' : (⟨some name.val⟩ : Nar.Directory).prevName ≠ some [] := by
      simpa using name.val_ne_nil
    rw [EndsAs, entriesMeetMissing_cons, List.forall_mem_cons, listEntries, hentry]
    simp only [expectWriting, bind, Except.bind]
    by_cases hvalid : utf8Valid name.val = true
    · have hname : Utf8.ofBytes? name.val = some ⟨name.val, hvalid⟩ := dif_pos hvalid
      simp only [hname]
      obtain ⟨⟨⟨entry, c'⟩, hok⟩, hlistable⟩ | ⟨⟨e, herror⟩, hnot, hnot'⟩ | ⟨hpanic, hmeets⟩ :=
        hlist _ List.mem_cons_self
          (count ([] ++ sep dir.prev ++ TOK_ENT ++ packet name.val ++ TOK_NOD) c)
      · -- the entry is listed, and the others decide
        rw [hok]
        dsimp only
        have hnot : ¬ MeetsMissing directories node := fun h => h.not_listable hlistable
        obtain ⟨hrest, hall⟩ | ⟨hrest, hall, hall'⟩ | ⟨hrest, hall⟩ := ih
          (fun e he => hlist e (List.mem_cons_of_mem _ he)) hsorted ⟨some name.val⟩ hdir'
          (fun e he => PathComponent.val_lt_of_cmp (hlt e he))
          (SortedMap.insertEntry Utf8.cmp ⟨name.val, hvalid⟩ entry before) c'
        · exact .inl ⟨hrest, ⟨hvalid, hlistable⟩, hall⟩
        · refine .inr (.inl ⟨hrest, fun h => hall h.2, ?_⟩)
          rintro ⟨-, h | ⟨-, h⟩⟩
          · exact hnot h
          · exact hall' h
        · exact .inr (.inr ⟨hrest, hvalid, .inr ⟨hlistable, hall⟩⟩)
      · rw [herror]
        refine .inr (.inl ⟨⟨e, rfl⟩, fun h => hnot h.1.2, ?_⟩)
        rintro ⟨-, h | ⟨hlistable, -⟩⟩
        · exact hnot' h
        · exact hnot hlistable
      · rw [hpanic]
        exact .inr (.inr ⟨rfl, hvalid, .inl hmeets⟩)
    · have hname : Utf8.ofBytes? name.val = none := dif_neg hvalid
      simp only [hname]
      exact .inr (.inl ⟨⟨_, rfl⟩, fun h => hvalid h.1.1, fun h => hvalid h.1⟩)

theorem produceListingInner_endsAs {n : ℕ} {node : Node} {pieces : List Piece}
    (h : outline directories n node = some pieces) (c : ℕ) :
    EndsAs (Listable directories node) (MeetsMissing directories node)
      (produceListingInner debug directories n node c) := by
  induction n using Nat.strong_induction_on generalizing node pieces c with | _ n ih =>
  obtain ⟨target, rfl, rfl⟩ | ⟨digest, size, executable, rfl, rfl⟩ |
    ⟨digest, size, m, rfl, rfl, hd, rfl⟩ | ⟨digest, size, m, d, rest, rfl, rfl, hd, hrest, rfl⟩ :=
    outline_cases h
  · have hwalk : produceListingInner debug directories n (.symlink target) c = (do
        let bytes ← expectWriting (symlink debug target.val [])
        (Utf8.ofBytes? target.val).elim (.error (.error .symlinkTargetIsNoString)) fun t =>
          .ok (.symlink t, count bytes c)) := by
      cases n <;> (unfold produceListingInner; cases Utf8.ofBytes? target.val <;> rfl)
    rw [hwalk, symlink_eq_ok debug (valid_symlink target)]
    simp only [expectWriting, bind, Except.bind]
    by_cases hvalid : utf8Valid target.val = true
    · rw [show Utf8.ofBytes? target.val = some ⟨target.val, hvalid⟩ from dif_pos hvalid]
      exact .inl ⟨⟨_, rfl⟩, .symlink hvalid⟩
    · rw [show Utf8.ofBytes? target.val = none from dif_neg hvalid]
      refine .inr (.inl ⟨⟨_, rfl⟩, ?_, ?_⟩)
      · intro hlist
        cases hlist with
        | symlink h => exact hvalid h
      · intro hmeets
        cases hmeets
  · refine .inl ⟨?_, .file⟩
    cases n with
    | zero => exact ⟨_, rfl⟩
    | succ n => exact ⟨_, rfl⟩
  · rw [produceListingInner, hd]
    exact .inr (.inr ⟨rfl, .missing hd⟩)
  · have hlist : ∀ e ∈ d.nodes.entries, ∀ c, EndsAs (Listable directories e.2)
        (MeetsMissing directories e.2) (produceListingInner debug directories m e.2 c) := by
      intro e he c
      obtain ⟨pieces, hpieces⟩ := exists_outline_of_mem hrest he
      exact ih m (Nat.lt_succ_self m) hpieces c
    have hends := @listEntries_endsAs debug directories _ _ hlist d.nodes.sorted ⟨none⟩
      (Option.some_ne_none _).symm (fun e _ => e.1.nil_lt_val) [] (count TOK_DIR c)
    rw [produceListingInner, hd]
    obtain ⟨hok, hall⟩ | ⟨herror, hnot, hnot'⟩ | ⟨hpanic, hmeets⟩ := hends
    · exact .inl ⟨hok, .directory hd (fun e he => (hall e he).1) fun e he => (hall e he).2⟩
    · refine .inr (.inl ⟨herror, ?_, ?_⟩)
      · intro hlist
        cases hlist with
        | directory hd' hnames hlists =>
          rw [hd] at hd'
          cases hd'
          exact hnot fun e he => ⟨hnames e he, hlists e he⟩
      · rw [meetsMissing_directory hd]
        exact hnot'
    · exact .inr (.inr ⟨hpanic, (meetsMissing_directory hd).mpr hmeets⟩)

end

end Listing

-- ====================
-- The whole listing
-- ====================

section

variable {digest : Castore.Directory → B3Digest} {checks : Bool}
  {directories : List Castore.Directory} {k : B3Digest} {d : Castore.Directory}

theorem mem_of_lookup_collect (h : (collect digest directories).lookup k = some d) :
    d ∈ directories ∧ digest d = k := by
  induction directories using List.reverseRecOn with
  | nil => cases h
  | append_singleton directories last ih =>
    rw [collect_concat] at h
    by_cases hk : k = digest last
    · subst hk
      rw [AList.lookup_insert] at h
      cases h
      exact ⟨List.mem_append_right _ (List.mem_singleton_self d), rfl⟩
    · rw [AList.lookup_insert_ne hk] at h
      exact ⟨List.mem_append_left _ (ih h).1, (ih h).2⟩

theorem lookup_collect_of_mem (h : d ∈ directories) :
    ∃ d', (collect digest directories).lookup (digest d) = some d' := by
  induction directories using List.reverseRecOn with
  | nil => cases h
  | append_singleton directories last ih =>
    rw [collect_concat]
    by_cases hk : digest d = digest last
    · rw [hk, AList.lookup_insert]
      exact ⟨last, rfl⟩
    · rw [AList.lookup_insert_ne hk]
      rcases List.mem_append.mp h with h | h
      · exact ih h
      · rw [List.mem_singleton.mp h] at hk
        exact absurd rfl hk

/-- What is sent is found under its digests. -/
theorem addressed_collect (hfree : (Directory.merkle digest checks).CollisionFree directories) :
    Addressed digest (collect digest directories) where
  digest_eq k d hd := (mem_of_lookup_collect hd).2
  acyclic := by
    obtain ⟨rank, hrank⟩ := hfree.acyclic
    refine ⟨rank, ?_⟩
    intro k d hd child hchild
    obtain ⟨hmem, hkey⟩ := mem_of_lookup_collect hd
    rw [← hkey]
    exact hrank d hmem child.2 (List.mem_map_of_mem hchild)

/-- A listing or an error is returned. -/
def Returns {α : Type} (x : Except ListingFault α) : Prop :=
  (∃ a, x = .ok a) ∨ ∃ e, x = .error (.error e)

/-- What is sent below a directory is refused, or all of it is accepted, and then the service reports
    an error, or the walk does not come to a directory that is missing. -/
def Survives (digest : Castore.Directory → B3Digest) (checks : Bool) (stream : DirectoryStream)
    (root : Node) : Prop :=
  ∀ k size, root = .directory k size →
    (∃ e, RootToLeavesValidator.acceptAll digest checks k stream.directories = .error (.error e)) ∨
    (∃ v, RootToLeavesValidator.acceptAll digest checks k stream.directories = .ok v) ∧
      (stream.error ≠ none ∨ ¬ MeetsMissing (collect digest stream.directories) root)

theorem returns_walk (debug : Bool) {store : DigestMap Castore.Directory}
    (haddr : Addressed digest store) (root : Node) :
    Returns (do
      let (entry, _) ← Listing.produceListingInner debug store (store.entries.length + 1) root
        (Listing.count TOK_NAR 0)
      .ok entry) ↔ ¬ MeetsMissing store root := by
  obtain ⟨pieces, hpieces⟩ := exists_outline haddr root
  obtain ⟨⟨⟨entry, c⟩, hok⟩, hlist⟩ | ⟨⟨e, herror⟩, -, hnot⟩ | ⟨hpanic, hmeets⟩ :=
    @Listing.produceListingInner_endsAs debug store _ root pieces hpieces (Listing.count TOK_NAR 0)
  · rw [hok]
    exact iff_of_true (.inl ⟨entry, rfl⟩) fun h => h.not_listable hlist
  · rw [herror]
    exact iff_of_true (.inr ⟨e, rfl⟩) hnot
  · rw [hpanic]
    refine iff_of_false ?_ (not_not_intro hmeets)
    rintro (⟨a, ha⟩ | ⟨e, he⟩)
    · cases ha
    · cases he

/-- Whatever is sent for a node, a listing or an error is returned just if the walk does not come to a
    directory that is missing, or an error is found before. -/
theorem produceListingFrom_returns_iff (digest : Castore.Directory → B3Digest) (checks debug : Bool)
    (stream : DirectoryStream) (root : Node)
    (hfree : (Directory.merkle digest checks).CollisionFree stream.directories) :
    Returns (produceListingFrom digest checks debug stream root) ↔
      Survives digest checks stream root := by
  have hleaf : ∀ root, (∀ k size, root ≠ Node.directory k size) →
      (Returns (produceListingFrom digest checks debug stream root) ↔
        Survives digest checks stream root) := by
    intro root hroot
    have hempty : Addressed digest (∅ : DigestMap Castore.Directory) :=
      addressed_collect (hfree.of_subset (List.nil_subset _))
    have hfetch : Listing.fetchRootFrom digest checks stream root = .ok ∅ := by
      cases root with
      | directory k size => exact absurd rfl (hroot k size)
      | file k size executable => rfl
      | symlink target => rfl
    rw [produceListingFrom, hfetch]
    refine iff_of_true ((returns_walk debug hempty root).mpr ?_) fun k size h => absurd h (hroot k size)
    intro hmeets
    cases hmeets with
    | missing => exact hroot _ _ rfl
    | entry => exact hroot _ _ rfl
  cases root with
  | file k size executable => exact hleaf _ fun _ _ h => by cases h
  | symlink target => exact hleaf _ fun _ _ h => by cases h
  | directory k size =>
    have hsurvives : Survives digest checks stream (.directory k size) ↔
        (∃ e, RootToLeavesValidator.acceptAll digest checks k stream.directories =
          .error (.error e)) ∨
        (∃ v, RootToLeavesValidator.acceptAll digest checks k stream.directories = .ok v) ∧
          (stream.error ≠ none ∨
            ¬ MeetsMissing (collect digest stream.directories) (.directory k size)) := by
      constructor
      · intro h
        exact h k size rfl
      · rintro h k' size' heq
        cases heq
        exact h
    rw [hsurvives, produceListingFrom]
    show Returns (Listing.fetchFrom digest checks stream k >>= _) ↔ _
    rw [Listing.fetchFrom]
    cases haccept : RootToLeavesValidator.acceptAll digest checks k stream.directories with
    | error fault =>
      cases fault with
      | error e => exact iff_of_true (.inr ⟨_, rfl⟩) (.inl ⟨e, rfl⟩)
      | panic message =>
        refine iff_of_false ?_ ?_
        · rintro (⟨a, ha⟩ | ⟨e, he⟩)
          · cases ha
          · cases he
        · rintro (⟨e, he⟩ | ⟨⟨v, hv⟩, -⟩)
          · cases he
          · cases hv
    | ok v =>
      cases herror : stream.error with
      | some e => exact iff_of_true (.inr ⟨_, rfl⟩) (.inr ⟨⟨v, rfl⟩, .inl (Option.some_ne_none e)⟩)
      | none =>
        refine (returns_walk debug (addressed_collect hfree) (.directory k size)).trans ?_
        simp

/-- The digest of a directory that is missing, and that the walk comes to. -/
theorem MeetsMissing.exists_missing {store : DigestMap Castore.Directory} {node : Node}
    (h : MeetsMissing store node) :
    ∃ k size, InTree store node (.directory k size) ∧ store.lookup k = none := by
  induction h with
  | @missing digest size hnone => exact ⟨digest, size, .refl, hnone⟩
  | @entry digest size d before after name child hd hentries _ _ _ ih =>
    obtain ⟨k, s, hin, hnone⟩ := ih
    refine ⟨k, s, hin.head ⟨digest, size, d, name, rfl, hd, ?_⟩, hnone⟩
    rw [hentries]
    exact List.mem_append_right _ List.mem_cons_self

/-- If the end of what is sent were checked, nothing would be missing. -/
theorem not_meetsMissing_of_complete {size : UInt64}
    (h : (Directory.merkle digest checks).Complete k directories) :
    ¬ MeetsMissing (collect digest directories) (.directory k size) := by
  intro hmeets
  obtain ⟨k', s, hin, hnone⟩ := hmeets.exists_missing
  have hhas : (Directory.merkle digest checks).Has directories k' := by
    apply h
    rcases hin.cases_tail with heq | ⟨parent, -, digest', size', d, name, rfl, hd, he⟩
    · cases heq
      exact .inl rfl
    · right
      refine ⟨s.toNat, Merkle.mem_claims.mpr ⟨d, (mem_of_lookup_collect hd).1, ?_⟩⟩
      exact List.mem_map.mpr ⟨_, mem_children_of_mem_entries he, rfl⟩
  obtain ⟨d, hd, hkey⟩ := hhas
  obtain ⟨d', hd'⟩ := @lookup_collect_of_mem digest _ _ hd
  have hkey' : digest d = k' := hkey
  rw [hkey', hnone] at hd'
  cases hd'

end

/-- A directory with the empty directory in it, sent with it. -/
theorem produceListingFrom_returns_b :
    Returns (produceListingFrom fixtureDigest true true ⟨[DIRECTORY_B, DIRECTORY_A], none⟩
      (.directory DIRECTORY_B_DIGEST 2)) := by
  have hfree : (Directory.merkle fixtureDigest true).CollisionFree [DIRECTORY_B, DIRECTORY_A] :=
    (collisionFree_b true).of_subset (by simp)
  apply (produceListingFrom_returns_iff fixtureDigest true true ⟨[DIRECTORY_B, DIRECTORY_A], none⟩
    (.directory DIRECTORY_B_DIGEST 2) hfree).mpr
  intro k size heq
  cases heq
  refine .inr ⟨⟨_, rfl⟩, .inr ?_⟩
  apply @not_meetsMissing_of_complete _ true
  exact ((RootToLeavesValidator.accepts_iff hfree).mp ⟨(), rfl⟩).2

/-- The directory alone, and nothing at all. -/
theorem produceListingFrom_panics_empty :
    produceListingFrom fixtureDigest true true ⟨[DIRECTORY_B], none⟩ (.directory DIRECTORY_B_DIGEST 2) =
      .error (.panic "Snix bug: lookup of unknown directory") ∧
    produceListingFrom fixtureDigest true true ⟨[], none⟩ (.directory DIRECTORY_B_DIGEST 2) =
      .error (.panic "Snix bug: lookup of unknown directory") ∧
    ¬ ∀ stream, Returns (produceListingFrom fixtureDigest true true stream
      (.directory DIRECTORY_B_DIGEST 2)) := by
  have hempty : produceListingFrom fixtureDigest true true ⟨[], none⟩ (.directory DIRECTORY_B_DIGEST 2) =
      .error (.panic "Snix bug: lookup of unknown directory") := rfl
  refine ⟨rfl, hempty, ?_⟩
  intro h
  obtain ⟨a, ha⟩ | ⟨e, he⟩ := h ⟨[], none⟩
  · rw [hempty] at ha
    cases ha
  · rw [hempty] at he
    cases he

end Snix.Store
