import Snix.NixCompat.Nar.Writer

/-!
# Reading archives

There are two readers of archives, one that blocks and one that is polled. They have
the same structure, and differ in how they read from a stream, how they read byte
strings and how they read files: `Access`. Nodes, directories and the client that
walks the whole archive are built on it.

The reader that blocks follows. A client may read a file in pieces of any size, or
look at the bytes that come next and consume any number of them.

## Main definitions

- `Access`, `Node.new`, `DirReader.next` — the structure of the readers
- `walk` — a client that walks a whole archive
- `FileReader` — the files of the blocking reader
- `sync` — the blocking reader

## Main results

- `agrees_walk` — a reader whose parts agree with the parser agrees with it
- `walk_sync_writeNar` — the blocking reader reads what the writer writes, and
  nothing else
-/

namespace Snix.Nar

open Wire (TOK_PAR paddingLen)

variable {σ F : Type}

/-- What the readers differ in. -/
structure Access (σ F : Type) where
  read : Read σ
  readTarget : ℕ → Prog IoError σ Bytes
  readName : ℕ → Prog IoError σ Bytes
  /-- Starts to read a file. -/
  openFile : ℕ → Prog IoError σ F
  /-- A client that reads all of a file. -/
  readFile : ℕ → F → Prog IoError σ Bytes

/-- A directory that is being read, by the name of its last entry. -/
structure DirReader where
  prevName : Bytes

/-- A node that is being read. -/
inductive Node (F : Type) where
  | symlink (target : Bytes)
  | file (executable : Bool) (reader : F)
  | directory (dir : DirReader)

/-- Starts to read a node. -/
def Node.new (A : Access σ F) (k : ℕ) : Prog IoError σ (Node F) := do
  match ← tag A.read nodeTags k with
  | .sym => do
    let target ← A.readTarget k
    token A.read k TOK_PAR
    pure (.symlink target)
  | .reg => do
    let reader ← A.openFile k
    pure (.file false reader)
  | .exe => do
    let reader ← A.openFile k
    pure (.file true reader)
  | .dir => pure (.directory ⟨[]⟩)

/-- Reads the end of the last entry. -/
def DirReader.endEntry (A : Access σ F) (k : ℕ) (dir : DirReader) : Prog IoError σ Unit :=
  if dir.prevName = [] then pure () else token A.read k TOK_PAR

/-- Reads the next entry, if there is one. -/
def DirReader.next (A : Access σ F) (k : ℕ) (dir : DirReader) :
    Prog IoError σ (Option (Bytes × Node F × DirReader)) := do
  dir.endEntry A k
  match ← tag A.read entryTags k with
  | .none => pure none
  | .some => do
    let name ← A.readName k
    -- names ascend strictly
    if ¬ dir.prevName < name then .fail .invalidData
    else do
      token A.read k TOK_NOD
      let node ← Node.new A k
      pure (some (name, node, ⟨name⟩))

/-- Reads the rest of a node, given how to read the entries of a directory. -/
def walkNode (A : Access σ F) (k : ℕ) (walkDir : DirReader → Prog IoError σ Entries) :
    Node F → Prog IoError σ Tree
  | .symlink target => pure (.symlink target)
  | .file executable reader => do
    let contents ← A.readFile k reader
    pure (.file executable contents)
  | .directory dir => do
    let entries ← walkDir dir
    pure (.directory entries)

/-- Reads the entries of a directory. -/
def walkDir (A : Access σ F) : ℕ → DirReader → Prog IoError σ Entries
  | 0, _ => .running
  | k + 1, dir => do
    match ← dir.next A k with
    | none => pure .nil
    | some (name, node, dir) => do
      let tree ← walkNode A k (walkDir A k) node
      let rest ← walkDir A k dir
      pure (.cons name tree rest)

/-- Opens an archive and reads all of it. -/
def walk (A : Access σ F) (k : ℕ) : Prog IoError σ Tree := do
  token A.read k TOK_NAR
  let node ← Node.new A k
  walkNode A k (walkDir A k) node

/-- The parts of a reader agree with the parts of the parser. -/
structure Access.Spec (A : Access σ F) (V : View ParseError σ Bytes) : Prop where
  read : A.read.Spec V
  target : ∀ s, V.Valid s → Agrees V A.readTarget s (dropTarget (V.rest s))
  name : ∀ s, V.Valid s → Agrees V A.readName s (dropName (V.rest s))
  file : ∀ s, V.Valid s →
    Agrees V (fun k => A.openFile k >>= A.readFile k) s (dropSizedContents (V.rest s))
  reported : ¬ V.Silent .invalid

section

variable {A : Access σ F} {V : View ParseError σ Bytes}

/-- Reading nodes agrees with the parser, for up to `n` bytes. -/
def NodeAgrees (A : Access σ F) (V : View ParseError σ Bytes) (n : ℕ) : Prop :=
  ∀ s, V.Valid s → (V.rest s).length < n →
    Agrees V (fun k => Node.new A k >>= walkNode A k (walkDir A k)) s (parseNode n (V.rest s))

/-- Reading entries agrees with the parser, for up to `n` bytes. -/
def EntriesAgree (A : Access σ F) (V : View ParseError σ Bytes) (n : ℕ) : Prop :=
  ∀ prev s, V.Valid s → (V.rest s).length < n →
    Agrees V (fun k => walkDir A k ⟨prev⟩) s (parseEntries n prev (V.rest s))

theorem agrees_file (hA : A.Spec V) (executable : Bool) {s : σ} (hs : V.Valid s) :
    Agrees V
      (fun k => A.openFile k >>= fun f => A.readFile k f >>= fun contents =>
        pure (Tree.file executable contents)) s
      (dropFile executable (V.rest s)) := by
  have h := (hA.file s hs).bind (f := fun contents _ => pure (Tree.file executable contents))
    (g := fun x => .ok (Tree.file executable x.1, x.2)) fun contents s' hs' _ => .pure hs'
  simp only [bind_assoc] at h
  exact h

theorem nodeAgrees_succ (hA : A.Spec V) {n : ℕ} (ih : EntriesAgree A V n) :
    NodeAgrees A V (n + 1) := by
  intro s hs hlen
  simp only [Node.new, bind_assoc]
  rw [parseNode]
  refine (agrees_tag hA.read hA.reported nodeTags hs).bind fun t s' hs' ht => ?_
  have hlen' : (V.rest s').length < n := by
    have hrest := dropTag_eq_ok_iff.mp ht
    have hmin := nodeTags.min_le t
    rw [hrest, List.length_append] at hlen
    simp only [nodeTags] at *
    omega
  cases t with
  | sym =>
    simp only [bind_assoc, pure_bind, walkNode]
    refine (hA.target s' hs').bind fun target s'' hs'' _ => ?_
    refine (agrees_token hA.read hA.reported TOK_PAR hs'').bind fun _ s''' hs''' _ => ?_
    exact .pure hs'''
  | reg =>
    simp only [bind_assoc, pure_bind, walkNode]
    exact agrees_file hA false hs'
  | exe =>
    simp only [bind_assoc, pure_bind, walkNode]
    exact agrees_file hA true hs'
  | dir =>
    simp only [pure_bind, walkNode]
    exact (ih [] s' hs' hlen').bind fun entries s'' hs'' _ => .pure hs''

theorem agrees_endEntry (hA : A.Spec V) (prev : Bytes) {s : σ} (hs : V.Valid s) :
    Agrees V (fun k => DirReader.endEntry A k ⟨prev⟩) s (dropSep prev (V.rest s)) := by
  unfold DirReader.endEntry dropSep
  by_cases hprev : prev = []
  · simp only [if_pos hprev]
    exact .pure hs
  · simp only [if_neg hprev]
    exact agrees_token hA.read hA.reported TOK_PAR hs

theorem entriesAgree_succ (hA : A.Spec V) {n : ℕ} (ihn : NodeAgrees A V n)
    (ihe : EntriesAgree A V n) : EntriesAgree A V (n + 1) := by
  intro prev s hs hlen
  refine .succ (q := fun k => DirReader.next A k ⟨prev⟩ >>= _) ?_ (fun k => by rw [walkDir])
  simp only [DirReader.next, bind_assoc]
  rw [parseEntries]
  refine (agrees_endEntry hA prev hs).bind fun _ s₁ hs₁ hsep => ?_
  refine (agrees_tag hA.read hA.reported entryTags hs₁).bind fun t s₂ hs₂ ht => ?_
  have hlen₂ : (V.rest s₂).length < n := by
    have hrest₁ := dropSep_eq_ok_iff.mp hsep
    have hrest₂ := dropTag_eq_ok_iff.mp ht
    have hmin := entryTags.min_le t
    rw [hrest₁, hrest₂] at hlen
    simp only [entryTags, List.length_append] at *
    omega
  cases t with
  | none =>
    simp only [pure_bind]
    exact .pure hs₂
  | some =>
    simp only [dropHead, bind_assoc]
    refine (hA.name s₂ hs₂).bind fun name s₃ hs₃ hname => ?_
    have hlen₃ : (V.rest s₃).length < n := by
      have hrest := (dropName_eq_ok_iff.mp hname).2
      rw [hrest, List.length_append] at hlen₂
      omega
    by_cases hlt : ¬ prev < name
    · simp only [if_pos hlt]
      exact .fail _ hA.reported
    simp only [if_neg hlt, bind_assoc, pure_bind]
    refine (agrees_token hA.read hA.reported TOK_NOD hs₃).bind fun _ s₄ hs₄ htok => ?_
    have hlen₄ : (V.rest s₄).length < n := by
      have hrest := dropToken_eq_ok_iff.mp htok
      rw [hrest, List.length_append] at hlen₃
      omega
    have hnode := (ihn s₄ hs₄ hlen₄).bind
      (f := fun tree k => walkDir A k ⟨name⟩ >>= fun rest => pure (Entries.cons name tree rest))
      (g := fun x => parseEntries n name x.2 >>= fun y => .ok (Entries.cons name x.1 y.1, y.2))
      fun tree s₅ hs₅ htree => ?_
    · simp only [bind_assoc] at hnode
      exact hnode
    have hlen₅ : (V.rest s₅).length < n := by
      have hrest := (((nodeSpec_and_entriesSpec n).1 _ _ _ hlen₄).mp htree).2
      rw [hrest, List.length_append] at hlen₄
      omega
    exact (ihe name s₅ hs₅ hlen₅).bind fun rest s₆ hs₆ _ => .pure hs₆

theorem nodeAgrees_and_entriesAgree (hA : A.Spec V) (n : ℕ) :
    NodeAgrees A V n ∧ EntriesAgree A V n := by
  induction n with
  | zero => exact ⟨fun s _ h => absurd h (by omega), fun prev s _ h => absurd h (by omega)⟩
  | succ n ih => exact ⟨nodeAgrees_succ hA ih.2, entriesAgree_succ hA ih.1 ih.2⟩

/-- A reader whose parts agree with the parts of the parser agrees with the parser. -/
theorem agrees_walk (hA : A.Spec V) {s : σ} (hs : V.Valid s) :
    Agrees V (walk A) s (parse (V.rest s)) := by
  refine (agrees_token hA.read hA.reported TOK_NAR hs).bind fun _ s' hs' _ => ?_
  exact (nodeAgrees_and_entriesAgree hA _).1 s' hs' (Nat.lt_succ_self _)

end

-- ====================
-- The blocking reader
-- ====================

namespace Sync

def read : Read ShortReader := fun _ n => ShortReader.read n

/-- Reads a number of 64 bits. -/
def u64 (k : ℕ) : Prog IoError ShortReader ℕ := do
  let buf ← readExact read k 8
  pure (leValue buf)

/-- Reads a byte string of at most `maxLen` bytes. -/
def bytes (maxLen k : ℕ) : Prog IoError ShortReader Bytes := do
  let len ← u64 k
  if maxLen < len then .fail .invalidData
  else do
    -- data and padding together
    let buf ← readExact read k ((len + 7) / 8 * 8)
    if (buf.drop len).any (· ≠ 0) then .fail .invalidData else pure (buf.take len)

/-- The same into a buffer, which the caller has made large enough. -/
def bytesBuf (maxLen k : ℕ) : Prog IoError ShortReader Bytes := bytes maxLen k

/-- A file that is being read: how much of it is left, and its length modulo 256. -/
structure FileReader where
  len : ℕ
  pad : ℕ

namespace FileReader

/-- Starts to read a file. An empty file ends here, since it may never be read from. -/
def new (k len : ℕ) : Prog IoError ShortReader FileReader :=
  if len = 0 then do
    token read k TOK_PAR
    pure ⟨len, len % 256⟩
  else pure ⟨len, len % 256⟩

/-- Checks the padding and the end of the node. -/
def finish (k : ℕ) (f : FileReader) : Prog IoError ShortReader Unit := do
  let pad := f.pad % 8
  if pad ≠ 0 then do
    let buf ← readExact read k (8 - pad)
    if List.replicate pad 0 ++ buf ≠ List.replicate 8 0 then .fail .invalidData
    else token read k TOK_PAR
  else token read k TOK_PAR

/-- After bytes were taken: the last ones take padding and end with them. -/
def settle (k : ℕ) (f : FileReader) : Prog IoError ShortReader FileReader :=
  if f.len = 0 then do
    f.finish k
    pure f
  else pure f

/-- Reads into a buffer of `n` bytes. -/
def read (k n : ℕ) (f : FileReader) : Prog IoError ShortReader (Bytes × FileReader) :=
  if n = 0 ∨ f.len = 0 then pure ([], f)
  else do
    let chunk ← ShortReader.read (min n f.len)
    if chunk = [] then .fail .unexpectedEof
    else do
      let f ← settle k { f with len := f.len - chunk.length }
      pure (chunk, f)

/-- Shows bytes without consuming them. -/
def fillBuf (f : FileReader) : Prog IoError ShortReader Bytes :=
  if f.len = 0 then pure []
  else do
    let buf ← ShortReader.fillBuf
    if buf = [] then .fail .unexpectedEof else pure (buf.take f.len)

/-- Consumes bytes that were shown. -/
def consume (k n : ℕ) (f : FileReader) : Prog IoError ShortReader FileReader :=
  if n = 0 then pure f
  else if f.len < n then .fail .panic
  else do
    ShortReader.consume n
    settle k { f with len := f.len - n }

end FileReader

/-- A client that reads all of a file. What it does next may depend on the bytes it
    already has. -/
def readFile (client : Bytes → Wish) : ℕ → FileReader → Bytes → Prog IoError ShortReader Bytes
  | 0, _, _ => .running
  | k + 1, f, acc =>
    if f.len = 0 then pure acc
    else
      match client acc with
      | .read n => do
        let (chunk, f) ← f.read k (n + 1)
        readFile client k f (acc ++ chunk)
      | .view m => do
        let view ← f.fillBuf
        let n := min (m + 1) view.length
        let f ← f.consume k n
        readFile client k f (acc ++ view.take n)

end Sync

/-- The blocking reader, and a client that reads files as it wishes. -/
def sync (client : Bytes → Wish) : Access ShortReader Sync.FileReader where
  read := Sync.read
  readTarget k := do
    let target ← Sync.bytes MAX_TARGET_LEN k
    if BadTarget target then .fail .invalidData else pure target
  readName k := do
    let name ← Sync.bytesBuf MAX_NAME_LEN k
    if BadName name then .fail .invalidData else pure name
  openFile k := do
    let len ← Sync.u64 k
    Sync.FileReader.new k len
  readFile k f := Sync.readFile client k f []

namespace Sync

theorem spec_read : Read.Spec read (ShortReader.view ParseError) := ShortReader.spec_read

variable {s : ShortReader}

theorem agrees_u64 : Agrees (ShortReader.view ParseError) u64 s (dropU64 s.rest) :=
  (agrees_readExact spec_read (fun h => h) 8 trivial).bind fun _ _ _ _ => .pure trivial

theorem agrees_bytes (d : ParseError) (maxLen : ℕ) :
    Agrees (ShortReader.view ParseError) (bytes maxLen) s (dropPacket d maxLen s.rest) := by
  refine agrees_u64.bind fun len s' _ _ => ?_
  dsimp only
  split_ifs
  · exact .fail _ fun h => h
  · refine (agrees_readExact spec_read (fun h => h) _ trivial).bind fun buf s'' _ _ => ?_
    dsimp only
    split_ifs
    · exact .fail _ fun h => h
    · exact .pure trivial

theorem agrees_finish {len : ℕ} (f : FileReader) (hpad : f.pad = len % 256) :
    Agrees (ShortReader.view ParseError) (fun k => f.finish k) s (dropEnd len s.rest) := by
  have hmod : f.pad % 8 = len % 8 := by omega
  unfold FileReader.finish dropEnd
  simp only [hmod]
  by_cases hzero : len % 8 = 0
  · have htake : takeExact ParseError.invalid (paddingLen len) s.rest = .ok ([], s.rest) := by
      rw [takeExact_eq_ok_iff, paddingLen, hzero]
      exact ⟨rfl, rfl⟩
    simp only [hzero, ne_eq, not_true_eq_false, if_false, htake]
    exact agrees_token spec_read (fun h => h) TOK_PAR trivial
  · have hlen : paddingLen len = 8 - len % 8 := by
      rw [paddingLen]
      omega
    simp only [hzero, ne_eq, not_false_eq_true, if_true, hlen]
    refine (agrees_readExact spec_read (fun h => h) _ trivial).bind fun buf s' _ hbuf => ?_
    have hbuflen : buf.length = 8 - len % 8 := (takeExact_eq_ok_iff.mp hbuf).2
    have hiff : List.replicate (len % 8) 0 ++ buf = List.replicate 8 0 ↔
        buf.any (· ≠ 0) = false := by
      have hsplit : List.replicate 8 (0 : UInt8) =
          List.replicate (len % 8) 0 ++ List.replicate (8 - len % 8) 0 := by
        rw [← List.replicate_add]
        congr 1
        omega
      rw [hsplit, List.append_cancel_left_eq, any_ne_zero_iff, hbuflen]
    by_cases hany : buf.any (· ≠ 0) = true
    · have hne : ¬ (List.replicate (len % 8) 0 ++ buf = List.replicate 8 0) := by
        rw [hiff, hany]
        exact Bool.noConfusion
      simp only [hne, not_false_eq_true, if_true, hany]
      exact .fail _ fun h => h
    · have heq := hiff.mpr (Bool.not_eq_true _ ▸ hany)
      simp only [heq, not_true_eq_false, if_false, hany]
      exact agrees_token spec_read (fun h => h) TOK_PAR trivial

/-- Takes the last `m` bytes of a file of length `len`, after `acc`. -/
def dropRest (len m : ℕ) (acc b : Bytes) : Except ParseError (Bytes × Bytes) := do
  let (contents, b) ← takeExact .invalid m b
  let (_, b) ← dropEnd len b
  .ok (acc ++ contents, b)

theorem dropRest_append {m : ℕ} {chunk : Bytes} (h : chunk.length ≤ m) (len : ℕ) (acc b : Bytes) :
    dropRest len m acc (chunk ++ b) = dropRest len (m - chunk.length) (acc ++ chunk) b := by
  rw [dropRest, dropRest, takeExact_append h]
  cases takeExact ParseError.invalid (m - chunk.length) b with
  | error e => rfl
  | ok x =>
    simp only [bind, Except.bind, List.append_assoc]

theorem dropRest_nil {m : ℕ} (h : 0 < m) (len : ℕ) (acc : Bytes) :
    dropRest len m acc [] = .error .invalid := by
  rw [dropRest, takeExact, if_neg (by simpa using h.ne')]
  rfl

theorem agrees_settle {client : Bytes → Wish} {len m : ℕ} {acc : Bytes}
    (ih : 0 < m → Agrees (ShortReader.view ParseError)
      (fun k => readFile client k ⟨m, len % 256⟩ acc) s (dropRest len m acc s.rest)) :
    Agrees (ShortReader.view ParseError)
      (fun k => FileReader.settle k ⟨m, len % 256⟩ >>= fun f => readFile client k f acc) s
      (dropRest len m acc s.rest) := by
  by_cases hm : m = 0
  · subst hm
    have hdrop : dropRest len 0 acc s.rest = (dropEnd len s.rest >>= fun x => .ok (acc, x.2)) := by
      rw [dropRest, takeExact, if_pos (Nat.zero_le _)]
      simp [bind, Except.bind]
    simp only [FileReader.settle, if_true, bind_assoc, pure_bind, hdrop]
    refine (agrees_finish ⟨0, len % 256⟩ rfl).bind fun _ s' _ _ => ?_
    refine .succ (q := fun _ => pure acc) (.pure trivial) fun k => ?_
    rw [readFile, if_pos rfl]
  · simp only [FileReader.settle, if_neg hm, pure_bind]
    exact ih (Nat.pos_of_ne_zero hm)

theorem agrees_readFile (client : Bytes → Wish) (len : ℕ) {m : ℕ} (hm : 0 < m) (acc : Bytes)
    (s : ShortReader) :
    Agrees (ShortReader.view ParseError) (fun k => readFile client k ⟨m, len % 256⟩ acc) s
      (dropRest len m acc s.rest) := by
  induction m using Nat.strong_induction_on generalizing acc s with
  | _ m ih =>
  -- whatever the client does, it takes a piece of the contents, and goes on after it
  have hnext : ∀ (chunk : Bytes) (s' : ShortReader), chunk ≠ [] → chunk.length ≤ m →
      s.rest = chunk ++ s'.rest →
      Agrees (ShortReader.view ParseError)
        (fun k => FileReader.settle k ⟨m - chunk.length, len % 256⟩ >>= fun f =>
          readFile client k f (acc ++ chunk)) s' (dropRest len m acc s.rest) := by
    intro chunk s' hchunk hlen hrest
    have hpos := List.length_pos_iff.mpr hchunk
    rw [hrest, dropRest_append hlen]
    exact agrees_settle fun hm' => ih _ (by omega) hm' _ _
  cases hclient : client acc with
  | read n =>
    refine .succ (q := fun k => FileReader.read k (n + 1) ⟨m, len % 256⟩ >>= _) ?_ fun k => by
      rw [readFile, if_neg hm.ne', hclient]
    simp only [FileReader.read, Nat.add_one_ne_zero, hm.ne', or_self, if_false, bind_assoc]
    obtain ⟨chunk, s', -, hrest, hlen, hnil, hret⟩ :=
      spec_read s (min (n + 1) m) trivial (by omega)
    refine .after (f := fun chunk k => _) hret ?_
    by_cases hchunk : chunk = []
    · have hempty : s.rest = [] := hnil hchunk
      simp only [if_pos hchunk, hempty, dropRest_nil hm]
      exact .fail _ fun h => h
    · simp only [if_neg hchunk, bind_assoc, pure_bind]
      exact hnext chunk s' hchunk (by omega) hrest
  | view j =>
    refine .succ (q := fun k => FileReader.fillBuf ⟨m, len % 256⟩ >>= _) ?_ fun k => by
      rw [readFile, if_neg hm.ne', hclient]
    simp only [FileReader.fillBuf, hm.ne', if_false, bind_assoc]
    refine .after (f := fun buf k => _) (a := s.peek.1) (t := s.peek.2) ⟨0, fun _ _ => rfl⟩ ?_
    by_cases hbuf : s.peek.1 = []
    · have hempty : s.rest = [] := (List.take_eq_nil_iff.mp hbuf).resolve_left (by omega)
      simp only [if_pos hbuf, hempty, dropRest_nil hm]
      exact .fail _ fun h => h
    · have hpos := List.length_pos_iff.mpr hbuf
      have hview : s.peek.1.take m <+: s.rest :=
        (List.take_prefix _ _).trans (List.take_prefix _ _)
      have hviewlen : (s.peek.1.take m).length = min m s.peek.1.length := List.length_take
      generalize s.peek.1.take m = view at hview hviewlen
      simp only [if_neg hbuf, pure_bind]
      generalize hn : min (j + 1) view.length = n
      have hchunklen : (view.take n).length = n := by
        rw [List.length_take]
        omega
      have hskip : s.rest = view.take n ++ (s.peek.2.skip n).rest := by
        obtain ⟨after, hafter⟩ := hview
        have hpeek : s.peek.2.rest = s.rest := rfl
        rw [ShortReader.skip, hpeek, ← hafter, List.drop_append_of_le_length (by omega),
          ← List.append_assoc, List.take_append_drop]
      simp only [FileReader.consume, if_neg (by omega : ¬ n = 0), if_neg (by omega : ¬ m < n),
        bind_assoc]
      refine .after (f := fun _ k => _) (a := ()) (t := s.peek.2.skip n) ⟨0, fun _ _ => rfl⟩ ?_
      have h := hnext (view.take n) (s.peek.2.skip n)
        (List.length_pos_iff.mp (by omega)) (by omega) hskip
      rwa [hchunklen] at h

theorem agrees_file (client : Bytes → Wish) :
    Agrees (ShortReader.view ParseError)
      (fun k => (u64 k >>= FileReader.new k) >>= fun f => readFile client k f []) s
      (dropSizedContents s.rest) := by
  simp only [bind_assoc]
  refine agrees_u64.bind fun len s' _ _ => ?_
  dsimp only
  by_cases hlen : len = 0
  · subst hlen
    have hdrop : dropContents 0 s'.rest =
        (dropToken .invalid TOK_PAR s'.rest >>= fun x => .ok ([], x.2)) := by
      simp [dropContents, dropEnd, takeExact, paddingLen, bind, Except.bind]
    simp only [FileReader.new, if_true, bind_assoc, pure_bind]
    change Agrees _ _ s' (dropContents 0 s'.rest)
    rw [hdrop]
    refine (agrees_token spec_read (fun h => h) TOK_PAR trivial).bind fun _ s'' _ _ => ?_
    refine .succ (q := fun _ => pure []) (.pure trivial) fun k => ?_
    rw [readFile, if_pos rfl]
  · simp only [FileReader.new, if_neg hlen, pure_bind]
    exact agrees_readFile client len (Nat.pos_of_ne_zero hlen) [] s'

end Sync

theorem spec_sync (client : Bytes → Wish) :
    (sync client).Spec (ShortReader.view ParseError) where
  read := Sync.spec_read
  target s _ := by
    refine (Sync.agrees_bytes .invalid MAX_TARGET_LEN).bind fun target s' _ _ => ?_
    dsimp only
    split_ifs
    · exact .fail _ fun h => h
    · exact .pure trivial
  name s _ := by
    refine (Sync.agrees_bytes .endInName MAX_NAME_LEN).bind fun name s' _ _ => ?_
    dsimp only
    split_ifs
    · exact .fail _ fun h => h
    · exact .pure trivial
  file s _ := Sync.agrees_file client
  reported := fun h => h

/-- The blocking reader reads every valid tree back from what the writer wrote, for all
    short reads and for all clients. On any input it ends; and a tree it accepts is
    valid, and was read from the very bytes the writer writes for it. -/
theorem walk_sync_writeNar :
    (∀ tree : Tree, tree.Valid → ∀ debug feed, ∃ out, writeNar debug feed tree = .ok out ∧
      ∀ client sizes trailing, ∃ sizes',
        Returns (walk (sync client)) ⟨out ++ trailing, sizes⟩ (.ok (tree, ⟨trailing, sizes'⟩))) ∧
    ∀ client input sizes, ∃ result,
      Returns (walk (sync client)) ⟨input, sizes⟩ result ∧
        ∀ tree r, result = .ok (tree, r) → tree.Valid ∧
          ∀ debug feed, ∃ out, writeNar debug feed tree = .ok out ∧ input = out ++ r.rest := by
  constructor
  · intro tree hvalid debug feed
    refine ⟨_, writeNar_eq_ok debug feed hvalid, fun client sizes trailing => ?_⟩
    have hparse : parse (TOK_NAR ++ tree.encode ++ trailing) = .ok (tree, trailing) :=
      parse_eq_ok_iff.mpr ⟨hvalid, rfl⟩
    have hagrees := agrees_walk (spec_sync client)
      (s := ⟨TOK_NAR ++ tree.encode ++ trailing, sizes⟩) trivial
    rcases hagrees with ⟨tree', r, hr, -, hret⟩ | ⟨d, e, hr, -, -⟩ | ⟨d, -, hsilent, -⟩
    · obtain ⟨rfl, rfl⟩ : tree = tree' ∧ trailing = r.rest := by
        simpa [ShortReader.view] using hparse.symm.trans hr
      exact ⟨r.sizes, hret⟩
    · cases hparse.symm.trans hr
    · exact hsilent.elim
  · intro client input sizes
    rcases agrees_walk (spec_sync client) (s := ⟨input, sizes⟩) trivial with
      ⟨tree, r, hr, -, hret⟩ | ⟨d, e, -, -, hret⟩ | ⟨d, -, hsilent, -⟩
    · refine ⟨_, hret, fun tree' r' heq => ?_⟩
      obtain ⟨rfl, rfl⟩ : tree = tree' ∧ r = r' := by simpa using heq
      obtain ⟨hvalid, hinput⟩ := parse_eq_ok_iff.mp hr
      exact ⟨hvalid, fun debug feed => ⟨_, writeNar_eq_ok debug feed hvalid, hinput⟩⟩
    · exact ⟨_, hret, fun tree r heq => by cases heq⟩
    · exact hsilent.elim

end Snix.Nar
