import Snix.NixCompat.Nar.Wire

/-!
# Archives

File system trees, the trees an archive can hold, and the bytes of an archive. A
parser on byte strings accepts exactly these bytes; the readers are compared with
it.

## Main definitions

- `Tree`, `Tree.Valid`, `Tree.encode` — trees, the rules they obey, their bytes
- `parseNode`, `parse` — the parser

## Main results

- `parse_eq_ok_iff` — the parser accepts exactly the bytes of valid trees
-/

namespace Snix.Nar

open Wire (TOK_PAR paddingLen)

mutual

/-- A node of a file system tree. -/
inductive Tree where
  | symlink (target : Bytes)
  | file (executable : Bool) (contents : Bytes)
  | directory (entries : Entries)

/-- The entries of a directory, with their names. -/
inductive Entries where
  | nil
  | cons (name : Bytes) (node : Tree) (rest : Entries)

end

/-- The names no entry can have, apart from those that are too long. -/
def BadName (name : Bytes) : Prop :=
  name = [] ∨ 0 ∈ name ∨ 47 ∈ name ∨ name = [46] ∨ name = [46, 46]

instance (name : Bytes) : Decidable (BadName name) := by
  unfold BadName
  infer_instance

/-- The targets no symlink can have, apart from those that are too long. -/
def BadTarget (target : Bytes) : Prop := target = [] ∨ 0 ∈ target

instance (target : Bytes) : Decidable (BadTarget target) := by
  unfold BadTarget
  infer_instance

mutual

/-- The rules of archives. The length of a file has to fit into 64 bits. -/
def Tree.Valid : Tree → Prop
  | .symlink target => ¬ BadTarget target ∧ target.length ≤ MAX_TARGET_LEN
  | .file _ contents => contents.length < 256 ^ 8
  | .directory entries => entries.Valid []

/-- Names ascend strictly, from `prev` on. -/
def Entries.Valid (prev : Bytes) : Entries → Prop
  | .nil => True
  | .cons name node rest =>
    (¬ BadName name ∧ name.length ≤ MAX_NAME_LEN) ∧ prev < name ∧ node.Valid ∧ rest.Valid name

end

/-- A byte string on the wire: its length, its bytes, and zeros up to the next
    multiple of eight. -/
def packet (x : Bytes) : Bytes :=
  leBytes 8 x.length ++ x ++ List.replicate (paddingLen x.length) 0

mutual

/-- The bytes of a node. -/
def Tree.encode : Tree → Bytes
  | .symlink target => TOK_SYM ++ packet target ++ TOK_PAR
  | .file executable contents =>
    (if executable then TOK_EXE else TOK_REG) ++ packet contents ++ TOK_PAR
  | .directory entries => TOK_DIR ++ entries.encode

/-- The bytes of the entries of a directory, and of its end. -/
def Entries.encode : Entries → Bytes
  | .nil => TOK_PAR
  | .cons name node rest =>
    TOK_ENT ++ packet name ++ TOK_NOD ++ node.encode ++ TOK_PAR ++ rest.encode

end

/-- Why there is no tree. A string that ends within the name of an entry is told apart
    from all others. -/
inductive ParseError where
  | invalid
  | endInName
  deriving DecidableEq

def dropU64 (b : Bytes) : Except ParseError (ℕ × Bytes) := do
  let (x, b) ← takeExact .invalid 8 b
  .ok (leValue x, b)

/-- Takes a byte string of at most `max` bytes. -/
def dropPacket (d : ParseError) (max : ℕ) (b : Bytes) : Except ParseError (Bytes × Bytes) := do
  let (len, b) ← dropU64 b
  if max < len then .error .invalid
  else do
    let (buf, b) ← takeExact d ((len + 7) / 8 * 8) b
    if (buf.drop len).any (· ≠ 0) then .error .invalid else .ok (buf.take len, b)

/-- Takes the padding after the contents of a file, and the end of its node. -/
def dropEnd (len : ℕ) (b : Bytes) : Except ParseError (Unit × Bytes) := do
  let (pad, b) ← takeExact .invalid (paddingLen len) b
  if pad.any (· ≠ 0) then .error .invalid else dropToken .invalid TOK_PAR b

/-- Takes the contents of a file, and the end of its node. -/
def dropContents (len : ℕ) (b : Bytes) : Except ParseError (Bytes × Bytes) := do
  let (contents, b) ← takeExact .invalid len b
  let (_, b) ← dropEnd len b
  .ok (contents, b)

/-- Takes the contents of a file with their length, and the end of the node. -/
def dropSizedContents (b : Bytes) : Except ParseError (Bytes × Bytes) := do
  let (len, b) ← dropU64 b
  dropContents len b

/-- Takes the target of a symlink. -/
def dropTarget (b : Bytes) : Except ParseError (Bytes × Bytes) := do
  let (target, b) ← dropPacket .invalid MAX_TARGET_LEN b
  if BadTarget target then .error .invalid else .ok (target, b)

def dropSymlink (b : Bytes) : Except ParseError (Tree × Bytes) := do
  let (target, b) ← dropTarget b
  let (_, b) ← dropToken .invalid TOK_PAR b
  .ok (.symlink target, b)

def dropFile (executable : Bool) (b : Bytes) : Except ParseError (Tree × Bytes) := do
  let (contents, b) ← dropSizedContents b
  .ok (.file executable contents, b)

/-- Takes the end of the entry before, if there is one. -/
def dropSep (prev b : Bytes) : Except ParseError (Unit × Bytes) :=
  if prev = [] then .ok ((), b) else dropToken .invalid TOK_PAR b

/-- Takes the name of an entry. -/
def dropName (b : Bytes) : Except ParseError (Bytes × Bytes) := do
  let (name, b) ← dropPacket .endInName MAX_NAME_LEN b
  if BadName name then .error .invalid else .ok (name, b)

/-- Takes the head of an entry after the one named `prev`. -/
def dropHead (prev b : Bytes) : Except ParseError (Bytes × Bytes) := do
  let (name, b) ← dropName b
  if ¬ prev < name then .error .invalid
  else do
    let (_, b) ← dropToken .invalid TOK_NOD b
    .ok (name, b)

mutual

/-- Takes a node off a byte string. The bound is on the number of nested calls. -/
def parseNode : ℕ → Bytes → Except ParseError (Tree × Bytes)
  | 0, _ => .error .invalid
  | n + 1, b => do
    let (t, b) ← dropTag .invalid nodeTags b
    match t with
    | .sym => dropSymlink b
    | .reg => dropFile false b
    | .exe => dropFile true b
    | .dir => do
      let (entries, b) ← parseEntries n [] b
      .ok (.directory entries, b)

/-- Takes the entries of a directory after the one named `prev`. -/
def parseEntries : ℕ → Bytes → Bytes → Except ParseError (Entries × Bytes)
  | 0, _, _ => .error .invalid
  | n + 1, prev, b => do
    let (_, b) ← dropSep prev b
    let (t, b) ← dropTag .invalid entryTags b
    match t with
    | .none => .ok (.nil, b)
    | .some => do
      let (name, b) ← dropHead prev b
      let (node, b) ← parseNode n b
      let (rest, b) ← parseEntries n name b
      .ok (.cons name node rest, b)

end

/-- Takes an archive off a byte string. -/
def parse (b : Bytes) : Except ParseError (Tree × Bytes) := do
  let (_, b) ← dropToken .invalid TOK_NAR b
  parseNode (b.length + 1) b

-- ====================
-- What the parser accepts
-- ====================

theorem any_ne_zero_iff (x : Bytes) :
    (x.any (· ≠ 0)) = false ↔ x = List.replicate x.length 0 := by
  rw [List.any_eq_false, List.eq_replicate_iff]
  simp

theorem padded_eq (n : ℕ) : (n + 7) / 8 * 8 = n + paddingLen n := by
  rw [paddingLen]
  omega

theorem dropU64_eq_ok_iff {b r : Bytes} {n : ℕ} :
    dropU64 b = .ok (n, r) ↔ n < 256 ^ 8 ∧ b = leBytes 8 n ++ r := by
  rw [dropU64, except_bind_eq_ok_iff]
  constructor
  · rintro ⟨⟨x, b'⟩, hx, h⟩
    obtain ⟨rfl, hlen⟩ := takeExact_eq_ok_iff.mp hx
    obtain ⟨rfl, rfl⟩ : leValue x = n ∧ b' = r := by simpa using h
    rw [← hlen]
    exact ⟨leValue_lt x, by rw [leBytes_leValue]⟩
  · rintro ⟨hn, rfl⟩
    refine ⟨(leBytes 8 n, r), takeExact_eq_ok_iff.mpr ⟨rfl, length_leBytes 8 n⟩, ?_⟩
    dsimp only
    rw [leValue_leBytes hn]

theorem dropPacket_eq_ok_iff {d : ParseError} {max : ℕ} {b x r : Bytes} :
    dropPacket d max b = .ok (x, r) ↔
      (x.length < 256 ^ 8 ∧ x.length ≤ max) ∧ b = packet x ++ r := by
  rw [dropPacket, except_bind_eq_ok_iff]
  constructor
  · rintro ⟨⟨len, b'⟩, hlen, h⟩
    obtain ⟨hlt, rfl⟩ := dropU64_eq_ok_iff.mp hlen
    dsimp only at h
    split_ifs at h with hmax
    rw [except_bind_eq_ok_iff] at h
    obtain ⟨⟨buf, b''⟩, hbuf, h⟩ := h
    obtain ⟨rfl, hbuflen⟩ := takeExact_eq_ok_iff.mp hbuf
    dsimp only at h
    split_ifs at h with hpad
    obtain ⟨rfl, rfl⟩ : buf.take len = x ∧ b'' = r := by simpa using h
    rw [padded_eq] at hbuflen
    have hxlen : (buf.take len).length = len := by
      rw [List.length_take]
      omega
    have hzeros : buf.drop len = List.replicate (paddingLen len) 0 := by
      rw [Bool.not_eq_true, any_ne_zero_iff, List.length_drop] at hpad
      rw [hpad]
      congr 1
      omega
    rw [packet, hxlen, ← hzeros]
    refine ⟨⟨hlt, by omega⟩, ?_⟩
    simp only [List.append_assoc]
    rw [← List.append_assoc (buf.take len), List.take_append_drop]
  · rintro ⟨⟨hlt, hmax⟩, rfl⟩
    refine ⟨(x.length, x ++ List.replicate (paddingLen x.length) 0 ++ r), ?_, ?_⟩
    · rw [dropU64_eq_ok_iff, packet]
      exact ⟨hlt, by simp only [List.append_assoc]⟩
    · dsimp only
      rw [if_neg (by omega), except_bind_eq_ok_iff]
      refine ⟨(x ++ List.replicate (paddingLen x.length) 0, r), ?_, ?_⟩
      · rw [takeExact_eq_ok_iff, padded_eq]
        simp
      · simp

theorem dropEnd_eq_ok_iff {len : ℕ} {b r : Bytes} {u : Unit} :
    dropEnd len b = .ok (u, r) ↔ b = List.replicate (paddingLen len) 0 ++ TOK_PAR ++ r := by
  rw [dropEnd, except_bind_eq_ok_iff]
  constructor
  · rintro ⟨⟨pad, b'⟩, hpad, h⟩
    obtain ⟨rfl, hpadlen⟩ := takeExact_eq_ok_iff.mp hpad
    dsimp only at h
    split_ifs at h with hany
    obtain rfl := dropToken_eq_ok_iff.mp h
    rw [Bool.not_eq_true, any_ne_zero_iff, hpadlen] at hany
    rw [← hany, List.append_assoc]
  · rintro rfl
    refine ⟨(List.replicate (paddingLen len) 0, TOK_PAR ++ r), ?_, ?_⟩
    · rw [takeExact_eq_ok_iff]
      simp
    · dsimp only
      rw [if_neg (by simp)]
      exact dropToken_eq_ok_iff.mpr rfl

theorem dropContents_eq_ok_iff {len : ℕ} {b x r : Bytes} :
    dropContents len b = .ok (x, r) ↔
      x.length = len ∧ b = x ++ List.replicate (paddingLen len) 0 ++ TOK_PAR ++ r := by
  rw [dropContents, except_bind_eq_ok_iff]
  constructor
  · rintro ⟨⟨contents, b'⟩, hcontents, h⟩
    obtain ⟨rfl, hlen⟩ := takeExact_eq_ok_iff.mp hcontents
    rw [except_bind_eq_ok_iff] at h
    obtain ⟨⟨_, b''⟩, hend, h⟩ := h
    obtain rfl := dropEnd_eq_ok_iff.mp hend
    obtain ⟨rfl, rfl⟩ : contents = x ∧ b'' = r := by simpa using h
    exact ⟨hlen, by simp only [List.append_assoc]⟩
  · rintro ⟨rfl, rfl⟩
    refine ⟨(x, List.replicate (paddingLen x.length) 0 ++ TOK_PAR ++ r), ?_, ?_⟩
    · rw [takeExact_eq_ok_iff]
      simp only [List.append_assoc, and_self]
    · rw [except_bind_eq_ok_iff]
      exact ⟨((), r), dropEnd_eq_ok_iff.mpr rfl, rfl⟩

theorem dropSizedContents_eq_ok_iff {b x r : Bytes} :
    dropSizedContents b = .ok (x, r) ↔
      x.length < 256 ^ 8 ∧ b = packet x ++ TOK_PAR ++ r := by
  rw [dropSizedContents, except_bind_eq_ok_iff]
  constructor
  · rintro ⟨⟨len, b'⟩, hlen, h⟩
    obtain ⟨hlt, rfl⟩ := dropU64_eq_ok_iff.mp hlen
    obtain ⟨rfl, rfl⟩ := dropContents_eq_ok_iff.mp h
    exact ⟨hlt, by simp only [packet, List.append_assoc]⟩
  · rintro ⟨hlt, rfl⟩
    refine ⟨(x.length, x ++ List.replicate (paddingLen x.length) 0 ++ TOK_PAR ++ r), ?_,
      dropContents_eq_ok_iff.mpr ⟨rfl, rfl⟩⟩
    rw [dropU64_eq_ok_iff, packet]
    exact ⟨hlt, by simp only [List.append_assoc]⟩

theorem dropFile_eq_ok_iff {executable : Bool} {b r : Bytes} {t : Tree} :
    dropFile executable b = .ok (t, r) ↔
      ∃ contents, t = .file executable contents ∧ contents.length < 256 ^ 8 ∧
        b = packet contents ++ TOK_PAR ++ r := by
  rw [dropFile, except_bind_eq_ok_iff]
  constructor
  · rintro ⟨⟨contents, b'⟩, hcontents, h⟩
    obtain ⟨hlt, rfl⟩ := dropSizedContents_eq_ok_iff.mp hcontents
    obtain ⟨rfl, rfl⟩ : Tree.file executable contents = t ∧ b' = r := by simpa using h
    exact ⟨contents, rfl, hlt, rfl⟩
  · rintro ⟨contents, rfl, hlt, rfl⟩
    exact ⟨(contents, r), dropSizedContents_eq_ok_iff.mpr ⟨hlt, rfl⟩, rfl⟩

theorem dropTarget_eq_ok_iff {b x r : Bytes} :
    dropTarget b = .ok (x, r) ↔
      (¬ BadTarget x ∧ x.length ≤ MAX_TARGET_LEN) ∧ b = packet x ++ r := by
  rw [dropTarget, except_bind_eq_ok_iff]
  constructor
  · rintro ⟨⟨target, b'⟩, htarget, h⟩
    obtain ⟨⟨-, hmax⟩, rfl⟩ := dropPacket_eq_ok_iff.mp htarget
    dsimp only at h
    split_ifs at h with hbad
    obtain ⟨rfl, rfl⟩ : target = x ∧ b' = r := by simpa using h
    exact ⟨⟨hbad, hmax⟩, rfl⟩
  · rintro ⟨⟨hbad, hmax⟩, rfl⟩
    refine ⟨(x, r), dropPacket_eq_ok_iff.mpr ⟨⟨?_, hmax⟩, rfl⟩, if_neg hbad⟩
    rw [MAX_TARGET_LEN] at hmax
    omega

theorem dropSymlink_eq_ok_iff {b r : Bytes} {t : Tree} :
    dropSymlink b = .ok (t, r) ↔
      ∃ target, t = .symlink target ∧ (¬ BadTarget target ∧ target.length ≤ MAX_TARGET_LEN) ∧
        b = packet target ++ TOK_PAR ++ r := by
  rw [dropSymlink, except_bind_eq_ok_iff]
  constructor
  · rintro ⟨⟨target, b'⟩, htarget, h⟩
    obtain ⟨hvalid, rfl⟩ := dropTarget_eq_ok_iff.mp htarget
    rw [except_bind_eq_ok_iff] at h
    obtain ⟨⟨_, b''⟩, htok, h⟩ := h
    obtain rfl := dropToken_eq_ok_iff.mp htok
    obtain ⟨rfl, rfl⟩ : Tree.symlink target = t ∧ b'' = r := by simpa using h
    exact ⟨target, rfl, hvalid, by simp only [List.append_assoc]⟩
  · rintro ⟨target, rfl, hvalid, rfl⟩
    refine ⟨(target, TOK_PAR ++ r), dropTarget_eq_ok_iff.mpr ⟨hvalid, ?_⟩, ?_⟩
    · simp only [List.append_assoc]
    · rw [except_bind_eq_ok_iff]
      exact ⟨((), r), dropToken_eq_ok_iff.mpr rfl, rfl⟩

/-- The end of the entry before. -/
def sep (prev : Bytes) : Bytes := if prev = [] then [] else TOK_PAR

theorem dropSep_eq_ok_iff {prev b r : Bytes} {u : Unit} :
    dropSep prev b = .ok (u, r) ↔ b = sep prev ++ r := by
  unfold dropSep sep
  by_cases h : prev = []
  · simp [h]
  · rw [if_neg h, if_neg h, dropToken_eq_ok_iff]

theorem dropName_eq_ok_iff {b name r : Bytes} :
    dropName b = .ok (name, r) ↔
      (¬ BadName name ∧ name.length ≤ MAX_NAME_LEN) ∧ b = packet name ++ r := by
  rw [dropName, except_bind_eq_ok_iff]
  constructor
  · rintro ⟨⟨name', b'⟩, hname, h⟩
    obtain ⟨⟨-, hmax⟩, rfl⟩ := dropPacket_eq_ok_iff.mp hname
    dsimp only at h
    split_ifs at h with hbad
    obtain ⟨rfl, rfl⟩ : name' = name ∧ b' = r := by simpa using h
    exact ⟨⟨hbad, hmax⟩, rfl⟩
  · rintro ⟨⟨hbad, hmax⟩, rfl⟩
    refine ⟨(name, r), dropPacket_eq_ok_iff.mpr ⟨⟨?_, hmax⟩, rfl⟩, if_neg hbad⟩
    rw [MAX_NAME_LEN] at hmax
    omega

theorem dropHead_eq_ok_iff {prev b name r : Bytes} :
    dropHead prev b = .ok (name, r) ↔
      ((¬ BadName name ∧ name.length ≤ MAX_NAME_LEN) ∧ prev < name) ∧
        b = packet name ++ TOK_NOD ++ r := by
  rw [dropHead, except_bind_eq_ok_iff]
  constructor
  · rintro ⟨⟨name', b'⟩, hname, h⟩
    obtain ⟨hvalid, rfl⟩ := dropName_eq_ok_iff.mp hname
    dsimp only at h
    split_ifs at h with hlt
    rw [except_bind_eq_ok_iff] at h
    obtain ⟨⟨_, b''⟩, htok, h⟩ := h
    obtain rfl := dropToken_eq_ok_iff.mp htok
    obtain ⟨rfl, rfl⟩ : name' = name ∧ b'' = r := by simpa using h
    exact ⟨⟨hvalid, hlt⟩, by simp only [List.append_assoc]⟩
  · rintro ⟨⟨hvalid, hlt⟩, rfl⟩
    refine ⟨(name, TOK_NOD ++ r), dropName_eq_ok_iff.mpr ⟨hvalid, ?_⟩, ?_⟩
    · simp only [List.append_assoc]
    · dsimp only
      rw [if_neg (not_not.mpr hlt), except_bind_eq_ok_iff]
      exact ⟨((), r), dropToken_eq_ok_iff.mpr rfl, rfl⟩

/-- The parser of nodes accepts exactly the bytes of valid trees. -/
def NodeSpec (n : ℕ) : Prop :=
  ∀ b t r, b.length < n → (parseNode n b = .ok (t, r) ↔ t.Valid ∧ b = t.encode ++ r)

/-- The parser of entries accepts exactly the bytes of valid entries. -/
def EntriesSpec (n : ℕ) : Prop :=
  ∀ prev b es r, b.length < n →
    (parseEntries n prev b = .ok (es, r) ↔ es.Valid prev ∧ b = sep prev ++ es.encode ++ r)

theorem nodeSpec_succ {n : ℕ} (ih : EntriesSpec n) : NodeSpec (n + 1) := by
  intro b t r hlen
  have hmin := nodeTags.min_le
  rw [parseNode, except_bind_eq_ok_iff]
  constructor
  · rintro ⟨⟨tag, b'⟩, htag, h⟩
    obtain rfl := dropTag_eq_ok_iff.mp htag
    have hb' : b'.length < n := by
      have := hmin tag
      rw [List.length_append] at hlen
      simp only [nodeTags] at *
      omega
    cases tag with
    | sym =>
      obtain ⟨target, rfl, hvalid, rfl⟩ := dropSymlink_eq_ok_iff.mp h
      exact ⟨hvalid, by simp [nodeTags, NodeTag.asBytes, Tree.encode]⟩
    | reg =>
      obtain ⟨contents, rfl, hvalid, rfl⟩ := dropFile_eq_ok_iff.mp h
      exact ⟨hvalid, by simp [nodeTags, NodeTag.asBytes, Tree.encode]⟩
    | exe =>
      obtain ⟨contents, rfl, hvalid, rfl⟩ := dropFile_eq_ok_iff.mp h
      exact ⟨hvalid, by simp [nodeTags, NodeTag.asBytes, Tree.encode]⟩
    | dir =>
      dsimp only at h
      rw [except_bind_eq_ok_iff] at h
      obtain ⟨⟨es, b''⟩, hes, h⟩ := h
      obtain ⟨hvalid, rfl⟩ := (ih [] b' es b'' hb').mp hes
      obtain ⟨rfl, rfl⟩ : Tree.directory es = t ∧ b'' = r := by simpa using h
      exact ⟨hvalid, by simp [nodeTags, NodeTag.asBytes, Tree.encode, sep]⟩
  · rintro ⟨hvalid, rfl⟩
    cases t with
    | symlink target =>
      refine ⟨(.sym, packet target ++ TOK_PAR ++ r), dropTag_eq_ok_iff.mpr ?_,
        dropSymlink_eq_ok_iff.mpr ⟨target, rfl, hvalid, rfl⟩⟩
      simp [nodeTags, NodeTag.asBytes, Tree.encode]
    | file executable contents =>
      cases executable with
      | false =>
        refine ⟨(.reg, packet contents ++ TOK_PAR ++ r), dropTag_eq_ok_iff.mpr ?_,
          dropFile_eq_ok_iff.mpr ⟨contents, rfl, hvalid, rfl⟩⟩
        simp [nodeTags, NodeTag.asBytes, Tree.encode]
      | true =>
        refine ⟨(.exe, packet contents ++ TOK_PAR ++ r), dropTag_eq_ok_iff.mpr ?_,
          dropFile_eq_ok_iff.mpr ⟨contents, rfl, hvalid, rfl⟩⟩
        simp [nodeTags, NodeTag.asBytes, Tree.encode]
    | directory es =>
      refine ⟨(.dir, es.encode ++ r), dropTag_eq_ok_iff.mpr ?_, ?_⟩
      · simp [nodeTags, NodeTag.asBytes, Tree.encode]
      · dsimp only
        rw [except_bind_eq_ok_iff]
        refine ⟨(es, r), (ih [] _ es r ?_).mpr ⟨hvalid, by simp [sep]⟩, rfl⟩
        have := hmin .dir
        simp only [Tree.encode, nodeTags, NodeTag.asBytes, List.length_append] at *
        omega

theorem entriesSpec_succ {n : ℕ} (ihn : NodeSpec n) (ihe : EntriesSpec n) :
    EntriesSpec (n + 1) := by
  intro prev b es r hlen
  have hmin := entryTags.min_le
  rw [parseEntries, except_bind_eq_ok_iff]
  constructor
  · rintro ⟨⟨_, b₁⟩, hsep, h⟩
    obtain rfl := dropSep_eq_ok_iff.mp hsep
    rw [except_bind_eq_ok_iff] at h
    obtain ⟨⟨tag, b₂⟩, htag, h⟩ := h
    obtain rfl := dropTag_eq_ok_iff.mp htag
    have hb₂ : b₂.length < n := by
      have := hmin tag
      simp only [entryTags, List.length_append] at *
      omega
    cases tag with
    | none =>
      obtain ⟨rfl, rfl⟩ : Entries.nil = es ∧ b₂ = r := by simpa using h
      exact ⟨trivial, by simp [entryTags, EntryTag.asBytes, Entries.encode]⟩
    | some =>
      dsimp only at h
      rw [except_bind_eq_ok_iff] at h
      obtain ⟨⟨name, b₃⟩, hname, h⟩ := h
      obtain ⟨⟨hvalidName, hlt⟩, rfl⟩ := dropHead_eq_ok_iff.mp hname
      rw [except_bind_eq_ok_iff] at h
      obtain ⟨⟨node, b₄⟩, hnode, h⟩ := h
      have hb₃ : b₃.length < n := by
        simp only [List.length_append] at hb₂
        omega
      obtain ⟨hvalidNode, rfl⟩ := (ihn b₃ node b₄ hb₃).mp hnode
      rw [except_bind_eq_ok_iff] at h
      obtain ⟨⟨rest, b₅⟩, hrest, h⟩ := h
      have hb₄ : b₄.length < n := by
        simp only [List.length_append] at hb₃
        omega
      obtain ⟨hvalidRest, rfl⟩ := (ihe name b₄ rest b₅ hb₄).mp hrest
      obtain ⟨rfl, rfl⟩ : Entries.cons name node rest = es ∧ b₅ = r := by simpa using h
      have hne : name ≠ [] := fun h => hvalidName.1 (.inl h)
      exact ⟨⟨hvalidName, hlt, hvalidNode, hvalidRest⟩,
        by simp [entryTags, EntryTag.asBytes, Entries.encode, sep, hne]⟩
  · rintro ⟨hvalid, rfl⟩
    cases es with
    | nil =>
      refine ⟨((), TOK_PAR ++ r), dropSep_eq_ok_iff.mpr (by simp [Entries.encode]), ?_⟩
      rw [except_bind_eq_ok_iff]
      exact ⟨(.none, r), dropTag_eq_ok_iff.mpr rfl, rfl⟩
    | cons name node rest =>
      obtain ⟨hvalidName, hlt, hvalidNode, hvalidRest⟩ := hvalid
      have hne : name ≠ [] := fun h => hvalidName.1 (.inl h)
      have hent := hmin .some
      refine ⟨((), TOK_ENT ++ (packet name ++ TOK_NOD ++
        (node.encode ++ (sep name ++ rest.encode ++ r)))), dropSep_eq_ok_iff.mpr ?_, ?_⟩
      · simp [Entries.encode, sep, hne]
      rw [except_bind_eq_ok_iff]
      refine ⟨(.some, _), dropTag_eq_ok_iff.mpr rfl, ?_⟩
      dsimp only
      rw [except_bind_eq_ok_iff]
      refine ⟨(name, _), dropHead_eq_ok_iff.mpr ⟨⟨hvalidName, hlt⟩, rfl⟩, ?_⟩
      rw [except_bind_eq_ok_iff]
      have hlen' : (node.encode ++ (sep name ++ rest.encode ++ r)).length < n := by
        simp only [Entries.encode, sep, hne, if_false, entryTags, EntryTag.asBytes,
          List.length_append] at *
        omega
      refine ⟨(node, _), (ihn _ node _ hlen').mpr ⟨hvalidNode, rfl⟩, ?_⟩
      rw [except_bind_eq_ok_iff]
      have hlen'' : (sep name ++ rest.encode ++ r).length < n := by
        rw [List.length_append] at hlen'
        omega
      exact ⟨(rest, r), (ihe name _ rest r hlen'').mpr ⟨hvalidRest, rfl⟩, rfl⟩

theorem nodeSpec_and_entriesSpec (n : ℕ) : NodeSpec n ∧ EntriesSpec n := by
  induction n with
  | zero => exact ⟨fun b t r h => absurd h (by omega), fun prev b es r h => absurd h (by omega)⟩
  | succ n ih => exact ⟨nodeSpec_succ ih.2, entriesSpec_succ ih.1 ih.2⟩

/-- The parser accepts exactly the bytes of valid trees. -/
theorem parse_eq_ok_iff {b r : Bytes} {t : Tree} :
    parse b = .ok (t, r) ↔ t.Valid ∧ b = TOK_NAR ++ t.encode ++ r := by
  rw [parse, except_bind_eq_ok_iff]
  constructor
  · rintro ⟨⟨_, b'⟩, htok, h⟩
    obtain rfl := dropToken_eq_ok_iff.mp htok
    obtain ⟨hvalid, rfl⟩ := ((nodeSpec_and_entriesSpec _).1 b' t r (Nat.lt_succ_self _)).mp h
    exact ⟨hvalid, by simp only [List.append_assoc]⟩
  · rintro ⟨hvalid, rfl⟩
    refine ⟨((), t.encode ++ r), dropToken_eq_ok_iff.mpr (by simp only [List.append_assoc]), ?_⟩
    exact ((nodeSpec_and_entriesSpec _).1 _ t r (Nat.lt_succ_self _)).mpr ⟨hvalid, rfl⟩

end Snix.Nar
