import Snix.NixCompat.Nar.Format

/-!
# Writing archives

The writer, whose sink is the byte string written so far. Its rules on names and
targets are assertions that only a debug build checks. The contents of files are
pulled from readers that may return them in pieces.

## Main definitions

- `symlink`, `file`, `Directory.entry`, `Directory.close` — the operations of the writer
- `writeTree`, `writeNar` — a client that writes a whole tree

## Main results

- `writeNar_eq_ok` — what is written
-/

namespace Snix.Nar

open Wire (TOK_PAR paddingLen)

inductive WriteError where
  | unexpectedEof
  | invalidInput
  /-- An assertion of a debug build failed. -/
  | panic
  deriving DecidableEq

section

variable (debug : Bool)

def debugAssert (c : Prop) [Decidable c] : Except WriteError Unit :=
  if debug ∧ ¬ c then .error .panic else .ok ()

theorem debugAssert_of {c : Prop} [Decidable c] (h : c) : debugAssert debug c = .ok () := by
  simp [debugAssert, h]

def pad (n : ℕ) (w : Bytes) : Bytes :=
  if n % 8 = 0 then w else w ++ (List.replicate 8 0).drop (n % 8)

/-- Makes a node a symlink. -/
def symlink (target w : Bytes) : Except WriteError Bytes := do
  debugAssert debug (target.length ≤ MAX_TARGET_LEN)
  debugAssert debug (target ≠ [])
  debugAssert debug (0 ∉ target)
  .ok (pad target.length (w ++ TOK_SYM ++ leBytes 8 target.length ++ target) ++ TOK_PAR)

/-- Copies `need` bytes from the reader. -/
def copyContents (need : ℕ) (reader : ShortReader) (w : Bytes) :
    Except WriteError (ShortReader × Bytes) :=
  if need = 0 then .ok (reader, w)
  else
    match reader.peek with
    | ([], _) => .error .unexpectedEof
    | (b :: data, reader) =>
      let n := min need (b :: data).length
      copyContents (need - n) (reader.skip n) (w ++ (b :: data).take n)
termination_by need
decreasing_by
  simp only [List.length_cons]
  omega

/-- Makes a node a file of the given size. -/
def file (executable : Bool) (size : ℕ) (reader : ShortReader) (w : Bytes) :
    Except WriteError Bytes := do
  let w := w ++ (if executable then TOK_EXE else TOK_REG) ++ leBytes 8 size
  let (reader, w) ← copyContents size reader w
  -- there must be no data left in the reader
  if reader.peek.1 ≠ [] then .error .invalidInput
  else .ok (pad size w ++ TOK_PAR)

/-- Starts a file whose contents the caller writes. -/
def fileManualWrite (executable : Bool) (size : ℕ) (w : Bytes) : Bytes :=
  w ++ (if executable then TOK_EXE else TOK_REG) ++ leBytes 8 size

/-- Ends a file whose contents the caller has written. -/
def FileManualWrite.close (size : ℕ) (w : Bytes) : Bytes := pad size w ++ TOK_PAR

/-- A directory that is being written, by the name of its last entry. -/
structure Directory where
  prevName : Option Bytes

/-- Adds an entry to the directory. -/
def Directory.entry (dir : Directory) (name w : Bytes) : Except WriteError (Directory × Bytes) := do
  debugAssert debug (name.length ≤ MAX_NAME_LEN)
  debugAssert debug (name ≠ [])
  debugAssert debug (0 ∉ name)
  debugAssert debug (47 ∉ name)
  debugAssert debug (name ≠ [46])
  debugAssert debug (name ≠ [46, 46])
  let w ← match dir.prevName with
    | none => .ok w
    | some prev => do
      debugAssert debug (prev < name)
      .ok (w ++ TOK_PAR)
  .ok (⟨some name⟩, pad name.length (w ++ TOK_ENT ++ leBytes 8 name.length ++ name) ++ TOK_NOD)

/-- Closes the directory. -/
def Directory.close (dir : Directory) (w : Bytes) : Bytes :=
  (if dir.prevName.isSome then w ++ TOK_PAR else w) ++ TOK_PAR

variable (feed : Bytes → ℕ → ℕ)

mutual

/-- Writes a tree. The reader of contents `c` returns them in pieces of the sizes
    `feed c`. -/
def writeTree : Tree → Bytes → Except WriteError Bytes
  | .symlink target, w => symlink debug target w
  | .file executable contents, w =>
    file executable contents.length ⟨contents, feed contents⟩ w
  | .directory entries, w => writeEntries entries ⟨none⟩ (w ++ TOK_DIR)

def writeEntries : Entries → Directory → Bytes → Except WriteError Bytes
  | .nil, dir, w => .ok (dir.close w)
  | .cons name node rest, dir, w => do
    let (dir, w) ← dir.entry debug name w
    let w ← writeTree node w
    writeEntries rest dir w

end

/-- Writes an archive. -/
def writeNar (tree : Tree) : Except WriteError Bytes := writeTree debug feed tree TOK_NAR

-- ====================
-- What is written
-- ====================

theorem pad_eq (n : ℕ) (w : Bytes) : pad n w = w ++ List.replicate (paddingLen n) 0 := by
  rw [pad, paddingLen]
  by_cases h : n % 8 = 0
  · simp [h]
  · rw [if_neg h, List.drop_replicate, Nat.mod_eq_of_lt (by omega : 8 - n % 8 < 8)]

theorem copyContents_eq_ok (need : ℕ) (reader : ShortReader) (w : Bytes)
    (h : need ≤ reader.rest.length) :
    ∃ sizes, copyContents need reader w =
      .ok (⟨reader.rest.drop need, sizes⟩, w ++ reader.rest.take need) := by
  fun_induction copyContents need reader w with
  | case1 reader w => exact ⟨reader.sizes, by simp⟩
  | case2 need reader w hneed r' hpeek =>
    have hnil : reader.rest.take (reader.sizes 0 + 1) = [] := congrArg Prod.fst hpeek
    have : reader.rest = [] := (List.take_eq_nil_iff.mp hnil).resolve_left (by omega)
    rw [this] at h
    exact absurd h (by simpa using hneed)
  | case3 need reader w hneed b data r' hpeek n ih =>
    have hview : reader.rest.take (reader.sizes 0 + 1) = b :: data := congrArg Prod.fst hpeek
    have hrest : reader.rest = r'.rest := congrArg (ShortReader.rest ∘ Prod.snd) hpeek
    have hn : n ≤ (b :: data).length := Nat.min_le_right _ _
    have hneedn : n ≤ need := Nat.min_le_left _ _
    have htake : (b :: data).take n = reader.rest.take n := by
      rw [← hview, List.take_take, Nat.min_eq_left]
      rw [← hview, List.length_take] at hn
      omega
    obtain ⟨sizes, hsizes⟩ := ih (by
      simp only [ShortReader.skip, List.length_drop, ← hrest]
      omega)
    refine ⟨sizes, ?_⟩
    rw [hsizes]
    simp only [ShortReader.skip, ← hrest, List.drop_drop, List.append_assoc, htake]
    rw [← List.take_add, Nat.add_sub_cancel' hneedn]

theorem file_eq_ok (executable : Bool) (contents : Bytes) (sizes : ℕ → ℕ) (w : Bytes) :
    file executable contents.length ⟨contents, sizes⟩ w =
      .ok (w ++ (Tree.file executable contents).encode) := by
  obtain ⟨sizes', hcopy⟩ := copyContents_eq_ok contents.length ⟨contents, sizes⟩
    (w ++ (if executable then TOK_EXE else TOK_REG) ++ leBytes 8 contents.length) le_rfl
  simp only [file, hcopy, List.drop_length, List.take_length]
  simp [Except.bind, bind, ShortReader.peek, pad_eq, Tree.encode, packet]

theorem copyContents_eq_error {need : ℕ} {reader : ShortReader} (w : Bytes)
    (h : reader.rest.length < need) : copyContents need reader w = .error .unexpectedEof := by
  fun_induction copyContents need reader w with
  | case1 reader w => exact absurd h (Nat.not_lt_zero _)
  | case2 need reader w hneed r' hpeek => rfl
  | case3 need reader w hneed b data r' hpeek n ih =>
    have hview : reader.rest.take (reader.sizes 0 + 1) = b :: data := congrArg Prod.fst hpeek
    have hrest : reader.rest = r'.rest := congrArg (ShortReader.rest ∘ Prod.snd) hpeek
    have hn : n ≤ (b :: data).length := Nat.min_le_right _ _
    rw [← hview, List.length_take] at hn
    apply ih
    simp only [ShortReader.skip, List.length_drop, ← hrest]
    omega

/-- A file of another size than announced is an error. -/
theorem file_eq_error (executable : Bool) {size : ℕ} {contents : Bytes}
    (h : contents.length ≠ size) (sizes : ℕ → ℕ) (w : Bytes) :
    ∃ e, e ≠ .panic ∧ file executable size ⟨contents, sizes⟩ w = .error e := by
  by_cases hlt : contents.length < size
  · refine ⟨.unexpectedEof, by decide, ?_⟩
    have hcopy : ∀ w, copyContents size ⟨contents, sizes⟩ w = .error .unexpectedEof :=
      fun w => copyContents_eq_error w hlt
    simp only [file, hcopy]
    rfl
  · refine ⟨.invalidInput, by decide, ?_⟩
    obtain ⟨sizes', hcopy⟩ := copyContents_eq_ok size ⟨contents, sizes⟩
      (w ++ (if executable then TOK_EXE else TOK_REG) ++ leBytes 8 size) (Nat.not_lt.mp hlt)
    have hleft : (contents.drop size).take (sizes' 0 + 1) ≠ [] := by
      rw [Ne, List.take_eq_nil_iff, List.drop_eq_nil_iff]
      omega
    simp only [file, hcopy]
    simp [Except.bind, bind, ShortReader.peek, hleft]

theorem symlink_eq_ok {target : Bytes} (h : (Tree.symlink target).Valid) (w : Bytes) :
    symlink debug target w = .ok (w ++ (Tree.symlink target).encode) := by
  obtain ⟨hbad, hmax⟩ := h
  rw [BadTarget, not_or] at hbad
  simp only [symlink, debugAssert_of debug hmax, debugAssert_of debug hbad.1,
    debugAssert_of debug hbad.2, pad_eq]
  simp [Except.bind, bind, Tree.encode, packet]

/-- The name of the last entry, empty if there is none. -/
def Directory.prev (dir : Directory) : Bytes := dir.prevName.getD []

theorem entry_eq_ok {dir : Directory} {name : Bytes}
    (hname : ¬ BadName name ∧ name.length ≤ MAX_NAME_LEN) (hlt : dir.prev < name)
    (hdir : dir.prevName ≠ some []) (w : Bytes) :
    dir.entry debug name w =
      .ok (⟨some name⟩, w ++ sep dir.prev ++ TOK_ENT ++ packet name ++ TOK_NOD) := by
  obtain ⟨hbad, hmax⟩ := hname
  simp only [BadName, not_or] at hbad
  obtain ⟨hnil, hnul, hslash, hdot, hdotdot⟩ := hbad
  simp only [Directory.entry, debugAssert_of debug hmax, debugAssert_of debug hnil,
    debugAssert_of debug hnul, debugAssert_of debug hslash, debugAssert_of debug hdot,
    debugAssert_of debug hdotdot, pad_eq]
  obtain ⟨_ | prev⟩ := dir
  · simp [Except.bind, bind, Directory.prev, sep, packet]
  · have hprev : prev ≠ [] := fun h => hdir (by rw [h])
    simp only [Directory.prev, Option.getD_some] at hlt
    simp [Except.bind, bind, debugAssert_of debug hlt, Directory.prev, sep, packet, hprev]

theorem close_eq {dir : Directory} (hdir : dir.prevName ≠ some []) (w : Bytes) :
    dir.close w = w ++ sep dir.prev ++ TOK_PAR := by
  obtain ⟨_ | prev⟩ := dir
  · simp [Directory.close, Directory.prev, sep]
  · have hprev : prev ≠ [] := fun h => hdir (by rw [h])
    simp [Directory.close, Directory.prev, sep, hprev]

mutual

theorem writeTree_eq_ok (tree : Tree) (h : tree.Valid) (w : Bytes) :
    writeTree debug feed tree w = .ok (w ++ tree.encode) := by
  cases tree with
  | symlink target => exact symlink_eq_ok debug h w
  | file executable contents => exact file_eq_ok executable contents _ w
  | directory entries =>
    rw [writeTree, writeEntries_eq_ok entries ⟨none⟩ h (by simp)]
    simp [Directory.prev, sep, Tree.encode]

theorem writeEntries_eq_ok (entries : Entries) (dir : Directory) (h : entries.Valid dir.prev)
    (hdir : dir.prevName ≠ some []) (w : Bytes) :
    writeEntries debug feed entries dir w = .ok (w ++ sep dir.prev ++ entries.encode) := by
  cases entries with
  | nil => rw [writeEntries, close_eq hdir, Entries.encode]
  | cons name node rest =>
    obtain ⟨hname, hlt, hnode, hrest⟩ := h
    have hne : name ≠ [] := fun h => hname.1 (.inl h)
    rw [writeEntries, entry_eq_ok debug hname hlt hdir]
    simp only [bind, Except.bind]
    rw [writeTree_eq_ok node hnode]
    simp only
    rw [writeEntries_eq_ok rest ⟨some name⟩ hrest (by simpa using hne)]
    simp [Directory.prev, sep, hne, Entries.encode]

end

/-- Every valid tree can be written, also with assertions, whatever pieces the
    contents of its files come in. -/
theorem writeNar_eq_ok {tree : Tree} (h : tree.Valid) :
    writeNar debug feed tree = .ok (TOK_NAR ++ tree.encode) :=
  writeTree_eq_ok debug feed tree h TOK_NAR

end

end Snix.Nar
