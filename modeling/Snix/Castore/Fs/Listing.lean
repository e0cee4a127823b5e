import Snix.Castore.Fs.SnixStoreFs
import Snix.Lib.Paging

/-!
# Listing a directory with several requests

A reply has room for some entries only, so a client goes on from the offset of the last
entry it got, until it gets none. The entries of a directory are skipped up to the
offset. The root nodes come from a stream that is behind a handle: what was pulled from
it and did not fit into the reply is gone.

## Main definitions

- `SnixStoreFs.readAll` — the entries that a client gets
- `Shows` — the entries of a directory that is not the root

## Main results

- `readAll_root` — a full reply loses a root node
- `readAll_children` — a full reply loses no entry of another directory
- `readAll_perm_iff` — when everything is listed
-/

namespace Snix.Castore.Fs

/-- The two ways to list a directory. -/
inductive ListingCall where
  | readdir
  | readdirplus

def ListingCall.request : ListingCall → ℕ → ℕ → UInt64 → Request
  | .readdir => .readdir
  | .readdirplus => .readdirplus

/-- The entries that were offered. -/
def Reply.entries : Reply → List DirEntry
  | .listed offered _ => offered
  | .listedPlus offered _ => offered.map Prod.fst
  | _ => []

/-- A reply that has room for some entries. What it is offered after that it rejects. -/
def replyBuffer (room n : ℕ) : Except Unit ℕ := .ok (if n < room then 1 else 0)

/-- The stream of a handle goes on with the root nodes that were not pulled from it yet. -/
def Env.listing (services : Env) (items : List (PathComponent × Node)) (s : SnixStoreFs)
    (handle room : ℕ) : Env :=
  { services with
    next := (items.drop ((s.dirHandles handle).getD 0)).map .ok
    addEntry := replyBuffer room }

/-- An entry and a node, as far as a listing tells them apart. -/
def DirEntry.shown (e : DirEntry) : PathComponent × UInt32 := (e.name, e.type_)

def shownNode (x : PathComponent × Node) : PathComponent × UInt32 := (x.1, nodeToFuseType x.2)

/-- The entries of a directory that was fetched, or can be. -/
def Shows (services : Env) (t : InodeTracker) (inode : ℕ) (entries : List (PathComponent × Node)) :
    Prop :=
  (∃ digest children, t.get inode = some (.directory (.populated digest children)) ∧
    children.map Prod.snd = entries) ∨
  ∃ digest size directory, t.get inode = some (.directory (.sparse digest size)) ∧
    services.get digest = .ok (some directory) ∧ directory.nodes.entries = entries

namespace SnixStoreFs

section

variable (settings : FSSettings) (call : ListingCall) (services : Env)
  (items : List (PathComponent × Node)) (inode handle : ℕ)

/-- The entries that a client gets, where each reply has its room. None if there are more than the
    given number of requests. -/
def readAll : ℕ → (ℕ → ℕ) → SnixStoreFs → UInt64 → Option (List DirEntry)
  | 0, _, _, _ => none
  | n + 1, rooms, s, offset =>
    let r := step settings s (services.listing items s handle (rooms 0))
      (call.request inode handle offset)
    let accepted := r.1.entries.take (rooms 0)
    match accepted.getLast? with
    | none => some []
    | some last =>
      (readAll n (fun k => rooms (k + 1)) r.2 last.offset).map (accepted ++ ·)

end

variable {settings : FSSettings} {call : ListingCall} {services : Env}
  {items entries : List (PathComponent × Node)} {inode handle room : ℕ} {s : SnixStoreFs}

/-- Both ways to list a directory offer the same entries and go to the same state. -/
theorem step_listing (env : Env) (offset : UInt64) :
    ∃ itemError, (step settings s env (call.request inode handle offset)).1.entries =
        (list settings itemError env s inode handle offset).1.map Prod.fst ∧
      (step settings s env (call.request inode handle offset)).2 =
        (list settings itemError env s inode handle offset).2.2 := by
  cases call with
  | readdir => exact ⟨.eio, rfl, rfl⟩
  | readdirplus => exact ⟨.eperm, rfl, rfl⟩

/-- A client gets pages if one request gives a page and leaves the rest. -/
theorem readAll_succ {lost n : ℕ} {rooms : ℕ → ℕ} {offset : UInt64}
    {shown : List (PathComponent × UInt32)}
    (haccepted : ((step settings s (services.listing items s handle (rooms 0))
      (call.request inode handle offset)).1.entries.take (rooms 0)).map DirEntry.shown =
        shown.take (rooms 0))
    (hrest : ∀ last : DirEntry,
      ((step settings s (services.listing items s handle (rooms 0))
        (call.request inode handle offset)).1.entries.take (rooms 0)).getLast? = some last →
      (readAll settings call services items inode handle n (fun k => rooms (k + 1))
        (step settings s (services.listing items s handle (rooms 0))
          (call.request inode handle offset)).2 last.offset).map (List.map DirEntry.shown) =
        pages lost n (fun k => rooms (k + 1)) (shown.drop (rooms 0 + lost))) :
    (readAll settings call services items inode handle (n + 1) rooms s offset).map
      (List.map DirEntry.shown) = pages lost (n + 1) rooms shown := by
  unfold readAll pages
  dsimp only
  cases hlast : List.getLast? _ with
  | none =>
    have hnil := List.getLast?_eq_none_iff.mp hlast
    rw [hnil, List.map_nil] at haccepted
    rw [if_pos haccepted.symm]
    rfl
  | some last =>
    have hne : shown.take (rooms 0) ≠ [] := by
      rw [← haccepted]
      intro hnil
      rw [List.map_eq_nil_iff] at hnil
      rw [hnil] at hlast
      cases hlast
    rw [if_neg hne, ← hrest last hlast, Option.map_map, Option.map_map, ← haccepted]
    congr 1
    funext rest
    exact List.map_append

-- ====================
-- The root
-- ====================

/-- A node gets a number, and nothing is forgotten. -/
theorem exists_put (t : InodeTracker) (node : Node) :
    ∃ ino t', t.put (.fromNode node) = some (ino, t') ∧
      ∀ ino, t.data ino ≠ none → t'.data ino ≠ none := by
  have hinsert : ∀ ino, t.data ino ≠ none →
      (t.insertAndIncrement (.fromNode node)).2.data ino ≠ none := by
    intro ino hino
    rw [InodeTracker.insertAndIncrement_data]
    by_cases heq : ino = t.nextInode
    · subst heq
      rw [Function.update_self]
      exact Option.some_ne_none _
    · rwa [Function.update_of_ne heq]
  unfold InodeTracker.put
  cases node with
  | directory digest size =>
    simp only [InodeData.fromNode]
    cases t.directoryDigestToInode digest with
    | none => exact ⟨_, _, rfl, hinsert⟩
    | some ino => exact ⟨_, _, rfl, fun _ h => h⟩
  | file digest size executable =>
    simp only [InodeData.fromNode]
    cases t.blobDigestToInode digest with
    | none => exact ⟨_, _, rfl, hinsert⟩
    | some ino => exact ⟨_, _, rfl, fun _ h => h⟩
  | symlink target =>
    simp only [InodeData.fromNode]
    cases t.symlinkTargetToInode target with
    | none => exact ⟨_, _, rfl, hinsert⟩
    | some ino => exact ⟨_, _, rfl, fun _ h => h⟩

/-- A root node gets a number. -/
theorem exists_rootIno (s : SnixStoreFs) (name : PathComponent) (node : Node) :
    ∃ ino s', s.rootIno name node = some (ino, s') ∧ s'.dirHandles = s.dirHandles := by
  unfold rootIno
  cases s.rootNodes name with
  | some ino => exact ⟨ino, s, rfl, rfl⟩
  | none =>
    obtain ⟨ino, t, hput, -⟩ := exists_put s.inodeTracker node
    refine ⟨ino, { s with
      rootNodes := Function.update s.rootNodes name (some ino), inodeTracker := t }, ?_, rfl⟩
    simp only [insertRoot, hput]

/-- The root nodes up to the one that does not fit are pulled from the stream and offered. -/
theorem listRootLoop_replyBuffer {itemError : FsError} {offset : UInt64} {i n : ℕ}
    (hn : n ≤ room) (s : SnixStoreFs) :
    ∃ offered s', listRootLoop settings itemError offset (replyBuffer room) i n s (items.map .ok) =
        (offered, .ok (), i + min items.length (room - n + 1), s') ∧
      s'.dirHandles = s.dirHandles ∧
      (offered.map Prod.fst).map DirEntry.shown =
        (items.map shownNode).take (room - n + 1) := by
  induction items generalizing i n s with
  | nil => exact ⟨[], s, rfl, rfl, rfl⟩
  | cons item rest ih =>
    obtain ⟨name, node⟩ := item
    obtain ⟨ino, s₁, hino, hhandles⟩ := exists_rootIno s name node
    rw [List.map_cons]
    unfold listRootLoop
    by_cases hroom : n < room
    · have hwritten : replyBuffer room n = .ok 1 := congrArg Except.ok (if_pos hroom)
      obtain ⟨offered, s₂, hrest, hhandles', hshown⟩ := @ih (i + 1) (n + 1) hroom s₁
      have hleft : room - n + 1 = (room - (n + 1) + 1) + 1 := by omega
      simp only [hino, hwritten, hrest]
      refine ⟨listEntry settings offset i ino name node :: offered, s₂, ?_,
        hhandles'.trans hhandles, ?_⟩
      · rw [hleft, List.length_cons]
        congr 3
        omega
      · rw [hleft, List.map_cons, List.map_cons, List.map_cons, List.take_succ_cons, hshown]
        rfl
    · have hwritten : replyBuffer room n = .ok 0 := congrArg Except.ok (if_neg hroom)
      obtain rfl : n = room := by omega
      simp only [hino, hwritten]
      refine ⟨[listEntry settings offset i ino name node], s₁, ?_, hhandles, ?_⟩
      · rw [List.length_cons, Nat.sub_self]
        congr 3
        omega
      · rw [Nat.sub_self]
        rfl

/-- A reply for the root: what fits is accepted, and one node more is gone from the stream. -/
theorem step_root (hlist : settings.listRoot = true) {i : ℕ} (hopen : s.dirHandles handle = some i)
    (offset : UInt64) :
    let r := step settings s (services.listing items s handle room) (call.request ROOT_ID handle offset)
    (r.1.entries.take room).map DirEntry.shown = ((items.drop i).map shownNode).take room ∧
      ∃ i', r.2.dirHandles handle = some i' ∧ items.drop i' = (items.drop i).drop (room + 1) := by
  obtain ⟨itemError, hentries, hstate⟩ := @step_listing settings call ROOT_ID handle s
    (services.listing items s handle room) offset
  obtain ⟨offered, s', hloop, hhandles, hshown⟩ := @listRootLoop_replyBuffer settings (items.drop i)
    room itemError offset i 0 (Nat.zero_le room) s
  have hnext : (services.listing items s handle room).next = (items.drop i).map .ok := by
    simp only [Env.listing, hopen, Option.getD_some]
  have hrun : list settings itemError (services.listing items s handle room) s ROOT_ID handle offset =
      (offered, .ok (), { s' with
        dirHandles := Function.update s'.dirHandles handle
          (some (i + min (items.drop i).length (room - 0 + 1))) }) := by
    unfold list
    simp only [if_true, hlist, hopen, hnext]
    rw [show (services.listing items s handle room).addEntry = replyBuffer room from rfl, hloop]
  dsimp only
  rw [hentries, hstate, hrun]
  rw [Nat.sub_zero] at hshown
  refine ⟨?_, _, Function.update_self .., ?_⟩
  · rw [List.map_take, hshown, List.take_take, Nat.min_eq_left (Nat.le_succ room)]
  · rw [List.drop_drop, Nat.sub_zero]
    rcases Nat.le_total (items.drop i).length (room + 1) with hle | hle
    · have hle' := hle
      rw [List.length_drop] at hle'
      rw [Nat.min_eq_left hle, List.drop_of_length_le, List.drop_of_length_le]
      · omega
      · rw [List.length_drop]
        omega
    · rw [Nat.min_eq_right hle]

/-- A client that lists the root gets the pages of the stream, each of which loses a node when it
    is full. -/
theorem readAll_root (hlist : settings.listRoot = true) {n : ℕ} {rooms : ℕ → ℕ} {i : ℕ}
    (hopen : s.dirHandles handle = some i) (offset : UInt64) :
    (readAll settings call services items ROOT_ID handle n rooms s offset).map
        (List.map DirEntry.shown) = pages 1 n rooms ((items.drop i).map shownNode) := by
  induction n generalizing rooms s i offset with
  | zero => rfl
  | succ n ih =>
    obtain ⟨haccepted, i', hopen', hdrop⟩ := @step_root settings call services items handle (rooms 0) s
      hlist i hopen offset
    apply readAll_succ haccepted
    intro last _
    rw [ih hopen' last.offset, hdrop, List.map_drop]

-- ====================
-- Other directories
-- ====================

theorem exists_putAll (t : InodeTracker) (entries : List (PathComponent × Node)) :
    ∃ children t', putAll t entries = some (children, t') ∧ children.map Prod.snd = entries ∧
      ∀ ino, t.data ino ≠ none → t'.data ino ≠ none := by
  induction entries generalizing t with
  | nil => exact ⟨[], t, rfl, rfl, fun _ h => h⟩
  | cons entry rest ih =>
    obtain ⟨name, node⟩ := entry
    obtain ⟨ino, t₁, hput, hkeeps⟩ := exists_put t node
    obtain ⟨children, t₂, hrest, hentries, hkeeps'⟩ := ih t₁
    refine ⟨(ino, name, node) :: children, t₂, ?_, ?_, fun ino h => hkeeps' ino (hkeeps ino h)⟩
    · simp only [putAll, hput, hrest, Option.bind_eq_bind, Option.bind_some]
    · rw [List.map_cons, hentries]

/-- The children are found, and kept for the requests that follow. -/
theorem getDirectoryChildren_of_shows {t : InodeTracker} (h : Shows services t inode entries)
    {env : Env} (henv : env.get = services.get) :
    ∃ children t', getDirectoryChildren env t inode = .ok (children, t') ∧
      children.map Prod.snd = entries ∧ Shows services t' inode entries := by
  obtain ⟨digest, children, hdata, hentries⟩ | ⟨digest, size, directory, hdata, hget, hentries⟩ := h
  · refine ⟨children, t, ?_, hentries, .inl ⟨digest, children, hdata, hentries⟩⟩
    simp only [getDirectoryChildren, hdata]
  · obtain ⟨children, t₁, hput, hchildren, hkeeps⟩ := exists_putAll t directory.nodes.entries
    rw [hentries] at hchildren
    have hknown : t.data inode ≠ none := by
      intro hnone
      cases hdata.symm.trans hnone
    obtain ⟨data, hdata₁⟩ := Option.ne_none_iff_exists'.mp (hkeeps inode hknown)
    refine ⟨children, { t₁ with
      data := Function.update t₁.data inode (some (.directory (.populated digest children))) }, ?_,
      hchildren, .inl ⟨digest, children, Function.update_self .., hchildren⟩⟩
    simp only [getDirectoryChildren, hdata, henv, hget, hput, InodeTracker.replace, hdata₁]

/-- The entries up to the one that does not fit are offered. -/
theorem listChildrenLoop_replyBuffer {offset : UInt64} {i : ℕ} (hi : i ≤ room)
    (children : List (ℕ × PathComponent × Node)) :
    listChildrenLoop settings offset (replyBuffer room) i children =
      (((children.take (room - i + 1)).zipIdx i).map fun c =>
        listEntry settings offset c.2 c.1.1 c.1.2.1 c.1.2.2, .ok ()) := by
  induction children generalizing i with
  | nil => rfl
  | cons child rest ih =>
    obtain ⟨ino, name, node⟩ := child
    unfold listChildrenLoop
    by_cases hroom : i < room
    · have hwritten : replyBuffer room i = .ok 1 := congrArg Except.ok (if_pos hroom)
      have hleft : room - i + 1 = (room - (i + 1) + 1) + 1 := by omega
      simp only [hwritten, ih hroom]
      rw [hleft, List.take_succ_cons, List.zipIdx_cons, List.map_cons]
    · have hwritten : replyBuffer room i = .ok 0 := congrArg Except.ok (if_neg hroom)
      obtain rfl : i = room := by omega
      simp only [hwritten]
      rw [Nat.sub_self]
      rfl

theorem listEntry_offset {offset : UInt64} {i ino : ℕ} {name : PathComponent} {node : Node} :
    (listEntry settings offset i ino name node).1.offset = offset + i.toUInt64 + 1 := rfl

theorem toNat_offset {offset : UInt64} {i : ℕ} (h : offset.toNat + i + 1 < 2 ^ 64) :
    (offset + i.toUInt64 + 1).toNat = offset.toNat + i + 1 := by
  rw [UInt64.toNat_add, UInt64.toNat_add, Nat.toUInt64, UInt64.toNat_ofNat', UInt64.toNat_one]
  omega

theorem take_zipIdx {α : Type} (l : List α) (i n : ℕ) : (l.zipIdx i).take n = (l.take n).zipIdx i := by
  induction l generalizing i n with
  | nil => simp
  | cons a l ih =>
    cases n with
    | zero => rfl
    | succ n => rw [List.zipIdx_cons, List.take_succ_cons, List.take_succ_cons, List.zipIdx_cons, ih]

/-- A reply for another directory: what fits is accepted, and the offset of the last entry leads to
    the next one. -/
theorem step_children (hinode : inode ≠ ROOT_ID) (hshows : Shows services s.inodeTracker inode entries)
    (hlen : entries.length < 2 ^ 64) (offset : UInt64) :
    let r := step settings s (services.listing items s handle room) (call.request inode handle offset)
    (r.1.entries.take room).map DirEntry.shown =
        ((entries.drop offset.toNat).map shownNode).take room ∧
      Shows services r.2.inodeTracker inode entries ∧
      ∀ last, (r.1.entries.take room).getLast? = some last →
        entries.drop last.offset.toNat = (entries.drop offset.toNat).drop room := by
  obtain ⟨itemError, hentries, hstate⟩ := @step_listing settings call inode handle s
    (services.listing items s handle room) offset
  obtain ⟨children, t, hget, rfl, hshows'⟩ := @getDirectoryChildren_of_shows services entries inode
    s.inodeTracker hshows (services.listing items s handle room) rfl
  have hrun : list settings itemError (services.listing items s handle room) s inode handle offset =
      ((((children.drop offset.toNat).take (room + 1)).zipIdx).map fun c =>
        listEntry settings offset c.2 c.1.1 c.1.2.1 c.1.2.2, .ok (), { s with inodeTracker := t }) := by
    unfold list
    simp only [if_neg hinode, hget]
    rw [show (services.listing items s handle room).addEntry = replyBuffer room from rfl,
      listChildrenLoop_replyBuffer (Nat.zero_le room), Nat.sub_zero]
  dsimp only
  rw [hentries, hstate, hrun, List.map_map]
  rw [← List.map_take, take_zipIdx, List.take_take, Nat.min_eq_left (Nat.le_succ room)]
  refine ⟨?_, hshows', fun last hlast => ?_⟩
  · rw [List.map_map]
    have hindex : (DirEntry.shown ∘ Prod.fst ∘ fun c : (ℕ × PathComponent × Node) × ℕ =>
        listEntry settings offset c.2 c.1.1 c.1.2.1 c.1.2.2) = (shownNode ∘ Prod.snd) ∘ Prod.fst := rfl
    rw [hindex, ← List.map_map, List.zipIdx_map_fst, List.map_take, ← List.map_map, List.map_drop]
  · rw [List.getLast?_eq_getElem?, List.length_map, List.length_zipIdx, List.length_take,
      List.length_drop, List.getElem?_map, List.getElem?_zipIdx, Nat.zero_add] at hlast
    obtain ⟨c, hc, rfl⟩ := Option.map_eq_some_iff.mp hlast
    obtain ⟨child, hchild, rfl⟩ := Option.map_eq_some_iff.mp hc
    have hpos := (List.getElem?_eq_some_iff.mp hchild).1
    rw [List.length_map] at hlen
    rw [List.length_take, List.length_drop] at hpos
    -- the offset of the last entry is the number of the entries up to it
    rw [Function.comp_apply, listEntry_offset, toNat_offset (by omega), List.drop_drop]
    rcases Nat.le_total room (children.length - offset.toNat) with hle | hle
    · congr 1
      omega
    · rw [List.drop_of_length_le, List.drop_of_length_le]
      · rw [List.length_map]
        omega
      · rw [List.length_map]
        omega

/-- A client that lists another directory gets its pages, which lose nothing. -/
theorem readAll_children (hinode : inode ≠ ROOT_ID)
    (hshows : Shows services s.inodeTracker inode entries) (hlen : entries.length < 2 ^ 64)
    {n : ℕ} {rooms : ℕ → ℕ} (offset : UInt64) :
    (readAll settings call services items inode handle n rooms s offset).map
        (List.map DirEntry.shown) = pages 0 n rooms ((entries.drop offset.toNat).map shownNode) := by
  induction n generalizing rooms s offset with
  | zero => rfl
  | succ n ih =>
    obtain ⟨haccepted, hshows', hnext⟩ := @step_children settings call services items entries inode
      handle (rooms 0) s hinode hshows hlen offset
    apply readAll_succ haccepted
    intro last hlast
    rw [ih hshows' last.offset, hnext last hlast, List.map_drop, Nat.add_zero]

-- ====================
-- Listing everything
-- ====================

/-- A client that lists the root comes to an empty reply, and got every node once if the first reply
    had room for all of them, and only then. A client that lists another directory got every entry
    once if each reply had room for an entry until it had them all, and only then. -/
theorem readAll_perm_iff (settings : FSSettings) (call : ListingCall) (services : Env)
    (rooms : ℕ → ℕ) (s : SnixStoreFs) (handle : ℕ) :
    (∀ items, settings.listRoot = true → s.dirHandles handle = some 0 → ∀ n, items.length < n →
      ∃ delivered, readAll settings call services items ROOT_ID handle n rooms s 0 = some delivered ∧
        ((delivered.map DirEntry.shown).Perm (items.map shownNode) ↔ items.length ≤ rooms 0)) ∧
    ∀ inode entries, inode ≠ ROOT_ID → Shows services s.inodeTracker inode entries →
      entries.length < 2 ^ 64 → ∀ n, entries.length < n →
      ∃ delivered, readAll settings call services [] inode handle n rooms s 0 = some delivered ∧
        ((delivered.map DirEntry.shown).Perm (entries.map shownNode) ↔
          ∀ k, ∑ i ∈ Finset.range k, rooms i < entries.length → 0 < rooms k) := by
  constructor
  · intro items hlist hopen n hn
    have hpages := @readAll_root settings call services items handle s hlist n rooms 0 hopen 0
    obtain ⟨got, hgot⟩ := @exists_pages _ 1 n rooms (items.map shownNode) (by rwa [List.length_map])
    rw [List.drop_zero, hgot] at hpages
    obtain ⟨delivered, hdelivered, rfl⟩ := Option.map_eq_some_iff.mp hpages
    refine ⟨delivered, hdelivered, ?_⟩
    rw [pages_lossy_perm_iff hgot, List.length_map]
  · intro inode entries hinode hshows hlen n hn
    have hpages := @readAll_children settings call services [] entries inode handle s hinode hshows
      hlen n rooms 0
    obtain ⟨got, hgot⟩ := @exists_pages _ 0 n rooms (entries.map shownNode) (by rwa [List.length_map])
    rw [UInt64.toNat_zero, List.drop_zero, hgot] at hpages
    obtain ⟨delivered, hdelivered, rfl⟩ := Option.map_eq_some_iff.mp hpages
    refine ⟨delivered, hdelivered, ?_⟩
    rw [pages_perm_iff hgot, List.length_map]

/-- Two files that are root nodes, and a handle to list them. -/
def twoNodes : List (PathComponent × Node) :=
  [(nameA, .file (List.Vector.replicate 32 0) 1 false),
    (nameB, .file (List.Vector.replicate 32 1) 2 false)]

def openRoot : SnixStoreFs := (opendir ⟨true, none⟩ new ROOT_ID).2

theorem readAll_perm_iff_two :
    ∃ delivered, readAll ⟨true, none⟩ .readdir (twinEnv true) twoNodes ROOT_ID 1 3 (fun _ => 2) openRoot
        0 = some delivered ∧
      (delivered.map DirEntry.shown).Perm (twoNodes.map shownNode) := by
  obtain ⟨delivered, hdelivered, hiff⟩ := (readAll_perm_iff ⟨true, none⟩ .readdir (twinEnv true)
    (fun _ => 2) openRoot 1).1 twoNodes rfl rfl 3 (by decide)
  exact ⟨delivered, hdelivered, hiff.mpr (by decide)⟩

/-- If each reply has room for one entry, the second root node is lost. -/
theorem readAll_lost :
    openRoot.dirHandles 1 = some 0 ∧
      (readAll ⟨true, none⟩ .readdir (twinEnv true) twoNodes ROOT_ID 1 3 (fun _ => 1) openRoot 0).map
        (List.map DirEntry.shown) = some [(nameA, S_IFREG)] :=
  ⟨rfl, rfl⟩

end SnixStoreFs
end Snix.Castore.Fs
