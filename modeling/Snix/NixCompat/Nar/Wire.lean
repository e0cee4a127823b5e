import Snix.Lib.ByteReader
import Snix.Lib.LittleEndian
import Snix.NixCompat.Wire.BytesReader

/-!
# The wire format of archives

The tokens archives are made of, and the sets of tokens among which a reader has to
choose. The members of such a set differ in one byte within the length of the
shortest, so a reader knows which token it is about to read before it reads past
the end of it.

## Main definitions

- `TOK_NAR`, …, `TOK_NOD` — the tokens
- `TagSet`, `nodeTags`, `entryTags` — sets of tokens
- `tag`, `dropTag` — reading one of a set, through short reads and off a byte string

## Main results

- `agrees_tag` — the two do the same
- `dropTag_eq_ok_iff` — what is accepted
-/

namespace Snix.Nar

open Wire (TOK_PAR paddingLen)

/-- Maximum length of a directory entry name. -/
def MAX_NAME_LEN : ℕ := 255

/-- Maximum length of a symlink target. -/
def MAX_TARGET_LEN : ℕ := 4095

def TOK_NAR : Bytes :=
  [13, 0, 0, 0, 0, 0, 0, 0] ++ ascii "nix-archive-1" ++ [0, 0, 0] ++
    [1, 0, 0, 0, 0, 0, 0, 0] ++ ascii "(" ++ [0, 0, 0, 0, 0, 0, 0] ++
    [4, 0, 0, 0, 0, 0, 0, 0] ++ ascii "type" ++ [0, 0, 0, 0]

def TOK_SYM : Bytes :=
  [7, 0, 0, 0, 0, 0, 0, 0] ++ ascii "symlink" ++ [0] ++
    [6, 0, 0, 0, 0, 0, 0, 0] ++ ascii "target" ++ [0, 0]

def TOK_REG : Bytes :=
  [7, 0, 0, 0, 0, 0, 0, 0] ++ ascii "regular" ++ [0] ++
    [8, 0, 0, 0, 0, 0, 0, 0] ++ ascii "contents"

def TOK_EXE : Bytes :=
  [7, 0, 0, 0, 0, 0, 0, 0] ++ ascii "regular" ++ [0] ++
    [10, 0, 0, 0, 0, 0, 0, 0] ++ ascii "executable" ++ [0, 0, 0, 0, 0, 0] ++
    [0, 0, 0, 0, 0, 0, 0, 0] ++ [8, 0, 0, 0, 0, 0, 0, 0] ++ ascii "contents"

def TOK_DIR : Bytes :=
  [9, 0, 0, 0, 0, 0, 0, 0] ++ ascii "directory" ++ [0, 0, 0, 0, 0, 0, 0]

def TOK_ENT : Bytes :=
  [5, 0, 0, 0, 0, 0, 0, 0] ++ ascii "entry" ++ [0, 0, 0] ++
    [1, 0, 0, 0, 0, 0, 0, 0] ++ ascii "(" ++ [0, 0, 0, 0, 0, 0, 0] ++
    [4, 0, 0, 0, 0, 0, 0, 0] ++ ascii "name" ++ [0, 0, 0, 0]

def TOK_NOD : Bytes :=
  [4, 0, 0, 0, 0, 0, 0, 0] ++ ascii "node" ++ [0, 0, 0, 0] ++
    [1, 0, 0, 0, 0, 0, 0, 0] ++ ascii "(" ++ [0, 0, 0, 0, 0, 0, 0] ++
    [4, 0, 0, 0, 0, 0, 0, 0] ++ ascii "type" ++ [0, 0, 0, 0]

/-- A set of tokens that differ in the byte at `off`, none of them shorter than `min`. -/
structure TagSet (T : Type) where
  off : ℕ
  min : ℕ
  fromU8 : UInt8 → Option T
  asBytes : T → Bytes
  off_lt : off < min
  min_le : ∀ t, min ≤ (asBytes t).length
  fromU8_eq_some : ∀ x t, fromU8 x = some t ↔ (asBytes t)[off]? = some x

/-- The tokens a node starts with. -/
inductive NodeTag where
  | sym | reg | exe | dir
  deriving DecidableEq

def NodeTag.asBytes : NodeTag → Bytes
  | .sym => TOK_SYM
  | .reg => TOK_REG
  | .exe => TOK_EXE
  | .dir => TOK_DIR

def nodeTags : TagSet NodeTag where
  off := 16
  min := 24
  fromU8 x :=
    if x = 6 then some .sym
    else if x = 8 then some .reg
    else if x = 10 then some .exe
    else if x = 121 then some .dir
    else none
  asBytes := NodeTag.asBytes
  off_lt := by decide
  min_le t := by cases t <;> decide +kernel
  fromU8_eq_some x t := by
    have hsym : TOK_SYM[16]? = some 6 := by decide +kernel
    have hreg : TOK_REG[16]? = some 8 := by decide +kernel
    have hexe : TOK_EXE[16]? = some 10 := by decide +kernel
    have hdir : TOK_DIR[16]? = some 121 := by decide +kernel
    cases t <;>
      simp only [NodeTag.asBytes, hsym, hreg, hexe, hdir, Option.some.injEq, eq_comm (b := x)] <;>
      split_ifs <;> simp_all

/-- The end of a directory, or an entry. -/
inductive EntryTag where
  | none | some
  deriving DecidableEq

def EntryTag.asBytes : EntryTag → Bytes
  | .none => TOK_PAR
  | .some => TOK_ENT

def entryTags : TagSet EntryTag where
  off := 0
  min := 16
  fromU8 x := if x = 1 then some .none else if x = 5 then some .some else none
  asBytes := EntryTag.asBytes
  off_lt := by decide
  min_le t := by cases t <;> decide +kernel
  fromU8_eq_some x t := by
    have hnone : TOK_PAR[0]? = some 1 := by decide +kernel
    have hsome : TOK_ENT[0]? = some 5 := by decide +kernel
    cases t <;>
      simp only [EntryTag.asBytes, hnone, hsome, Option.some.injEq, eq_comm (b := x)] <;>
      split_ifs <;> simp_all

section

variable {δ σ T : Type}

/-- Reads one of a set of tokens. -/
def tag (read : Read σ) (ts : TagSet T) (k : ℕ) : Prog IoError σ T := do
  -- first the known minimum length, which tells the token
  let head ← readExact read k ts.min
  match ts.fromU8 (head.getD ts.off 0) with
  | none => .fail .invalidData
  | some t =>
    if head ≠ (ts.asBytes t).take ts.min then .fail .invalidData
    -- then the rest, if any
    else if (ts.asBytes t).drop ts.min = [] then pure t
    else do
      let tail ← readExact read k ((ts.asBytes t).drop ts.min).length
      if tail ≠ (ts.asBytes t).drop ts.min then .fail .invalidData else pure t

/-- Takes one of a set of tokens off a byte string. -/
def dropTag (d : δ) (ts : TagSet T) (b : Bytes) : Except δ (T × Bytes) := do
  let (head, b) ← takeExact d ts.min b
  match ts.fromU8 (head.getD ts.off 0) with
  | none => .error d
  | some t =>
    if head ≠ (ts.asBytes t).take ts.min then .error d
    else if (ts.asBytes t).drop ts.min = [] then .ok (t, b)
    else do
      let (tail, b) ← takeExact d ((ts.asBytes t).drop ts.min).length b
      if tail ≠ (ts.asBytes t).drop ts.min then .error d else .ok (t, b)

theorem agrees_tag {read : Read σ} {V : View δ σ Bytes} {d : δ} (hread : read.Spec V)
    (hd : ¬ V.Silent d) (ts : TagSet T) {s : σ} (hs : V.Valid s) :
    Agrees V (tag read ts) s (dropTag d ts (V.rest s)) := by
  refine (agrees_readExact hread hd ts.min hs).bind fun head s' hs' _ => ?_
  dsimp only
  cases ts.fromU8 (head.getD ts.off 0) with
  | none => exact .fail _ hd
  | some t =>
    dsimp only
    split_ifs
    · exact .fail _ hd
    · exact .pure hs'
    · refine (agrees_readExact hread hd _ hs').bind fun tail s'' hs'' _ => ?_
      dsimp only
      split_ifs
      · exact .fail _ hd
      · exact .pure hs''

theorem failsOnly_dropTag {d : δ} (ts : TagSet T) (b : Bytes) : FailsOnly d (dropTag d ts b) := by
  refine (FailsOnly.takeExact _ _).bind fun x => ?_
  dsimp only
  cases ts.fromU8 (x.1.getD ts.off 0) with
  | none => exact .error
  | some t =>
    refine .ite .error (.ite (.ok _) ?_)
    exact (FailsOnly.takeExact _ _).bind fun y => .ite .error (.ok _)

/-- A reader takes exactly the tokens of the set. -/
theorem dropTag_eq_ok_iff {d : δ} {ts : TagSet T} {b r : Bytes} {t : T} :
    dropTag d ts b = .ok (t, r) ↔ b = ts.asBytes t ++ r := by
  constructor
  · intro h
    rw [dropTag, except_bind_eq_ok_iff] at h
    obtain ⟨⟨head, b'⟩, hhead, h⟩ := h
    obtain ⟨rfl, -⟩ := takeExact_eq_ok_iff.mp hhead
    dsimp only at h
    split at h
    case h_1 => cases h
    case h_2 t' _ =>
      split_ifs at h with htake hdrop
      · obtain ⟨rfl, rfl⟩ : t' = t ∧ b' = r := by simpa using h
        rw [not_not.mp htake, List.take_of_length_le (List.drop_eq_nil_iff.mp hdrop)]
      · rw [except_bind_eq_ok_iff] at h
        obtain ⟨⟨tail, b''⟩, htail, h⟩ := h
        obtain ⟨rfl, -⟩ := takeExact_eq_ok_iff.mp htail
        dsimp only at h
        split_ifs at h with hne
        obtain ⟨rfl, rfl⟩ : t' = t ∧ b'' = r := by simpa using h
        rw [not_not.mp htake, not_not.mp hne, ← List.append_assoc, List.take_append_drop]
  · rintro rfl
    have hmin := ts.min_le t
    have hhead : takeExact d ts.min (ts.asBytes t ++ r) =
        .ok ((ts.asBytes t).take ts.min, (ts.asBytes t).drop ts.min ++ r) := by
      rw [takeExact_eq_ok_iff, ← List.append_assoc, List.take_append_drop]
      exact ⟨rfl, by simpa using hmin⟩
    have hfrom : ts.fromU8 (((ts.asBytes t).take ts.min).getD ts.off 0) = some t := by
      have hoff := ts.off_lt
      rw [ts.fromU8_eq_some, List.getD_eq_getElem?_getD, List.getElem?_take_of_lt hoff,
        List.getElem?_eq_getElem (by omega)]
      rfl
    have htail : takeExact d ((ts.asBytes t).drop ts.min).length
        ((ts.asBytes t).drop ts.min ++ r) = .ok ((ts.asBytes t).drop ts.min, r) :=
      takeExact_eq_ok_iff.mpr ⟨rfl, rfl⟩
    rw [dropTag, except_bind_eq_ok_iff]
    refine ⟨_, hhead, ?_⟩
    simp only [hfrom, ne_eq, not_true_eq_false, if_false]
    by_cases hdrop : (ts.asBytes t).drop ts.min = []
    · rw [if_pos hdrop, hdrop, List.nil_append]
    · rw [if_neg hdrop, except_bind_eq_ok_iff]
      exact ⟨_, htail, by simp⟩

end

end Snix.Nar
