import Mathlib.Data.List.DropRight
import Snix.Lib.Text

/-!
# Unix paths

A path is a byte string. Its components are the pieces between the slashes, where empty pieces
and pieces that are a dot are skipped, except for a dot at the front of a relative path.

## Main definitions

- `Path.components` — the components
- `Path.push` — a path with another at its end
- `Path.Plain` — pieces that are a component of their own
- `Path.next`, `Path.asPath` — taking components off the front of the pieces of a path
- `Path.stripPrefix` — what comes after an absolute path

## Main results

- `components_append` — the components with one more piece at the end
- `stripPrefix_eq_some`, `exists_stripPrefix` — the components are those of the two parts
-/

namespace Snix.Path

inductive Component where
  | rootDir
  | curDir
  | parentDir
  | normal (name : Bytes)
  deriving DecidableEq

/-- The component a piece between slashes is, if it is one. -/
def Component.ofPiece (piece : Bytes) : Option Component :=
  if piece = [] ∨ piece = [46] then none
  else if piece = [46, 46] then some .parentDir
  else some (.normal piece)

/-- The path that consists of a component. -/
def Component.asPath : Component → Bytes
  | .rootDir => [47]
  | .curDir => [46]
  | .parentDir => [46, 46]
  | .normal name => name

def isAbsolute (path : Bytes) : Bool := path.head? == some 47

def components (path : Bytes) : List Component :=
  let pieces := path.splitOn 47
  let rest := pieces.filterMap Component.ofPiece
  if isAbsolute path then .rootDir :: rest
  else if pieces.head? = some [46] then .curDir :: rest
  else rest

/-- Puts a path at the end of another. An absolute path replaces it. -/
def push (buf path : Bytes) : Bytes :=
  if isAbsolute path then path
  else if buf = [] ∨ buf.getLast? = some 47 then buf ++ path
  else buf ++ 47 :: path

/-- A piece that is a component of its own. -/
def Plain (piece : Bytes) : Prop :=
  piece ≠ [] ∧ piece ≠ [46] ∧ piece ≠ [46, 46] ∧ 47 ∉ piece

instance (piece : Bytes) : Decidable (Plain piece) :=
  inferInstanceAs (Decidable (piece ≠ [] ∧ piece ≠ [46] ∧ piece ≠ [46, 46] ∧ 47 ∉ piece))

variable {path piece : Bytes}

theorem Plain.ofPiece (h : Plain piece) : Component.ofPiece piece = some (.normal piece) := by
  rw [Component.ofPiece, if_neg (not_or.mpr ⟨h.1, h.2.1⟩), if_neg h.2.2.1]

theorem Plain.not_isAbsolute (h : Plain piece) : isAbsolute piece = false := by
  cases piece with
  | nil => rfl
  | cons c rest =>
    have hc : c ≠ 47 := fun hc => h.2.2.2 (hc ▸ List.mem_cons_self)
    simpa [isAbsolute] using hc

theorem isAbsolute_append (h : path ≠ []) : isAbsolute (path ++ piece) = isAbsolute path := by
  rw [isAbsolute, isAbsolute, List.head?_append_of_ne_nil _ h]

/-- The components of the pieces between the slashes, but for the front of a path. -/
def normalized (pieces : List Bytes) : List Component := pieces.filterMap Component.ofPiece

/-- The components with another path at the end. -/
theorem components_append_splitOn (hpath : path ≠ []) (rest : Bytes) :
    components (path ++ 47 :: rest) = components path ++ normalized (rest.splitOn 47) := by
  have hpieces : (path ++ 47 :: rest).splitOn 47 = path.splitOn 47 ++ rest.splitOn 47 :=
    List.splitOnP_append_cons _ _ (beq_self_eq_true _)
  have hne : path.splitOn 47 ≠ [] := List.splitOnP_ne_nil _ _
  simp only [components, normalized, hpieces, isAbsolute_append hpath,
    List.head?_append_of_ne_nil _ hne, List.filterMap_append]
  split_ifs <;> rfl

/-- The components with one more piece at the end. -/
theorem components_append (hpath : path ≠ []) (h : Plain piece) :
    components (path ++ 47 :: piece) = components path ++ [.normal piece] := by
  have hone : piece.splitOn 47 = [piece] := by
    apply List.splitOnP_eq_singleton
    intro c hc
    exact beq_eq_false_iff_ne.mpr fun heq => h.2.2.2 (heq ▸ hc)
  rw [components_append_splitOn hpath, hone, normalized, List.filterMap_cons_some h.ofPiece,
    List.filterMap_nil]

theorem push_plain (hpath : path ≠ []) (hlast : path.getLast? ≠ some 47) (h : Plain piece) :
    push path piece = path ++ 47 :: piece := by
  rw [push, h.not_isAbsolute, if_neg (by decide), if_neg (not_or.mpr ⟨hpath, hlast⟩)]

-- ====================
-- Taking components off the front
-- ====================

/-- The next component, and the pieces after it. -/
def next : List Bytes → Option (Component × List Bytes)
  | [] => none
  | piece :: pieces =>
    match Component.ofPiece piece with
    | some c => some (c, pieces)
    | none => next pieces

/-- Is the piece no component? -/
def isSkipped (piece : Bytes) : Bool := piece = [] ∨ piece = [46]

/-- The path that the pieces are left for, without what is skipped at its ends. -/
def asPath (pieces : List Bytes) : Bytes :=
  [47].intercalate ((pieces.dropWhile isSkipped).rdropWhile isSkipped)

/-- Takes the components off the front, if they are there. -/
def after : List Component → List Bytes → Option (List Bytes)
  | [], pieces => some pieces
  | c :: cs, pieces =>
    match next pieces with
    | some (d, rest) => if d = c then after cs rest else none
    | none => none

/-- What comes after an absolute path that the path starts with. -/
def stripPrefix (base path : Bytes) : Option Bytes :=
  if isAbsolute base ∧ isAbsolute path then
    (after ((components base).drop 1) (path.tail.splitOn 47)).map asPath
  else none

variable {pieces rest : List Bytes} {c : Component} {cs : List Component}

theorem ofPiece_eq_none_iff : Component.ofPiece piece = none ↔ isSkipped piece = true := by
  rw [Component.ofPiece, isSkipped, decide_eq_true_iff]
  split
  case isTrue h => exact iff_of_true rfl h
  case isFalse h =>
    refine iff_of_false ?_ h
    split <;> exact Option.some_ne_none _

theorem normalized_of_next (h : next pieces = some (c, rest)) :
    normalized pieces = c :: normalized rest := by
  induction pieces with
  | nil => cases h
  | cons piece pieces ih =>
    rw [next] at h
    cases hpiece : Component.ofPiece piece with
    | none =>
      rw [hpiece] at h
      rw [normalized, List.filterMap_cons_none hpiece]
      exact ih h
    | some d =>
      rw [hpiece] at h
      cases h
      exact List.filterMap_cons_some hpiece

theorem exists_next (h : normalized pieces = c :: cs) :
    ∃ rest, next pieces = some (c, rest) ∧ normalized rest = cs := by
  induction pieces with
  | nil => cases h
  | cons piece pieces ih =>
    rw [next]
    cases hpiece : Component.ofPiece piece with
    | none =>
      rw [normalized, List.filterMap_cons_none hpiece] at h
      exact ih h
    | some d =>
      rw [normalized, List.filterMap_cons_some hpiece] at h
      obtain ⟨rfl, hrest⟩ := List.cons.inj h
      exact ⟨pieces, rfl, hrest⟩

theorem normalized_of_after (h : after cs pieces = some rest) :
    normalized pieces = cs ++ normalized rest := by
  induction cs generalizing pieces with
  | nil =>
    cases h
    rfl
  | cons c cs ih =>
    rw [after] at h
    cases hnext : next pieces with
    | none =>
      rw [hnext] at h
      cases h
    | some x =>
      obtain ⟨d, more⟩ := x
      rw [hnext] at h
      dsimp only at h
      split at h
      case isTrue heq => rw [normalized_of_next hnext, heq, ih h, List.cons_append]
      case isFalse => cases h

theorem exists_after {ds : List Component} (h : normalized pieces = cs ++ ds) :
    ∃ rest, after cs pieces = some rest ∧ normalized rest = ds := by
  induction cs generalizing pieces with
  | nil => exact ⟨pieces, rfl, h⟩
  | cons c cs ih =>
    obtain ⟨more, hnext, hmore⟩ := exists_next h
    obtain ⟨rest, hafter, hrest⟩ := ih hmore
    refine ⟨rest, ?_, hrest⟩
    rw [after, hnext]
    exact (if_pos rfl).trans hafter

/-- The pieces that are left are pieces of the path. -/
theorem mem_of_mem_next (h : next pieces = some (c, rest)) : ∀ piece ∈ rest, piece ∈ pieces := by
  induction pieces with
  | nil => cases h
  | cons first pieces ih =>
    intro piece hpiece
    rw [next] at h
    split at h
    · cases h
      exact List.mem_cons_of_mem _ hpiece
    · exact List.mem_cons_of_mem _ (ih h piece hpiece)

theorem mem_of_mem_after (h : after cs pieces = some rest) : ∀ piece ∈ rest, piece ∈ pieces := by
  induction cs generalizing pieces with
  | nil =>
    cases h
    exact fun piece hpiece => hpiece
  | cons c cs ih =>
    rw [after] at h
    cases hnext : next pieces with
    | none =>
      rw [hnext] at h
      cases h
    | some x =>
      obtain ⟨d, more⟩ := x
      rw [hnext] at h
      dsimp only at h
      split at h
      case isTrue => exact fun piece hpiece => mem_of_mem_next hnext piece (ih h piece hpiece)
      case isFalse => cases h

/-- What is skipped at the ends makes no difference. -/
theorem normalized_trim (pieces : List Bytes) :
    normalized ((pieces.dropWhile isSkipped).rdropWhile isSkipped) = normalized pieces := by
  have hfront : ∀ pieces : List Bytes, normalized (pieces.dropWhile isSkipped) = normalized pieces := by
    intro pieces
    induction pieces with
    | nil => rfl
    | cons piece pieces ih =>
      cases hskipped : isSkipped piece with
      | true =>
        rw [List.dropWhile_cons_of_pos hskipped, ih, normalized, normalized,
          List.filterMap_cons_none (ofPiece_eq_none_iff.mpr hskipped)]
      | false => rw [List.dropWhile_cons_of_neg (by simp [hskipped])]
  have hback : ∀ pieces : List Bytes,
      normalized (pieces.rdropWhile isSkipped) = normalized pieces := by
    intro pieces
    have hreverse := hfront pieces.reverse
    rw [normalized, normalized, List.filterMap_reverse] at hreverse
    rw [List.rdropWhile, normalized, List.filterMap_reverse, hreverse, List.reverse_reverse,
      normalized]
  rw [hback, hfront]

/-- The components of the path that pieces are left for. -/
theorem normalized_splitOn_asPath (h : ∀ piece ∈ pieces, 47 ∉ piece) :
    normalized ((asPath pieces).splitOn 47) = normalized pieces := by
  have hpieces : ∀ piece ∈ (pieces.dropWhile isSkipped).rdropWhile isSkipped, 47 ∉ piece :=
    fun piece hpiece => h piece
      ((List.dropWhile_sublist _).mem ((List.rdropWhile_prefix _ _).mem hpiece))
  rw [← normalized_trim pieces, asPath]
  cases htrim : (pieces.dropWhile isSkipped).rdropWhile isSkipped with
  | nil => rfl
  | cons piece more =>
    rw [htrim] at hpieces
    rw [List.splitOn_intercalate 47 hpieces (List.cons_ne_nil _ _)]

/-- The path that pieces are left for is relative. -/
theorem isAbsolute_asPath (h : ∀ piece ∈ pieces, 47 ∉ piece) : isAbsolute (asPath pieces) = false := by
  cases htrim : (pieces.dropWhile isSkipped).rdropWhile isSkipped with
  | nil => rw [asPath, htrim]; rfl
  | cons piece more =>
    have hprefix : piece :: more <+: pieces.dropWhile isSkipped := by
      rw [← htrim]
      exact List.rdropWhile_prefix _ _
    obtain ⟨back, hback⟩ := hprefix
    have hmem : piece ∈ pieces :=
      (List.dropWhile_sublist isSkipped).mem (by rw [← hback]; exact List.mem_cons_self)
    have hhead : isSkipped piece = false := by
      have hne : pieces.dropWhile isSkipped ≠ [] := by
        rw [← hback]
        exact List.cons_ne_nil _ _
      have hnot := List.head_dropWhile_not isSkipped hne
      simpa [← hback] using hnot
    cases piece with
    | nil => cases hhead
    | cons c piece =>
      have hc : c ≠ 47 := fun hc => h _ hmem (hc ▸ List.mem_cons_self)
      have hjoin : (asPath pieces).head? = some c := by
        rw [asPath, htrim]
        cases more with
        | nil => rfl
        | cons second more => rfl
      rw [isAbsolute, hjoin]
      simpa using hc

/-- The components of an absolute path. -/
theorem components_of_isAbsolute (h : isAbsolute path = true) :
    components path = .rootDir :: normalized (path.tail.splitOn 47) := by
  cases path with
  | nil => cases h
  | cons c body =>
    obtain rfl : c = 47 := by simpa [isAbsolute] using h
    have hsplit : (47 :: body).splitOn 47 = [] :: body.splitOn 47 :=
      List.splitOnP_append_cons [] body (beq_self_eq_true _)
    rw [components]
    simp only [h, if_true, hsplit]
    rfl

theorem isAbsolute_of_components (h : components path = .rootDir :: cs) : isAbsolute path = true := by
  have hnot : ∀ pieces, Component.rootDir ∉ normalized pieces := by
    intro pieces hmem
    obtain ⟨piece, -, hpiece⟩ := List.mem_filterMap.mp hmem
    rw [Component.ofPiece] at hpiece
    split_ifs at hpiece
    all_goals cases hpiece
  by_contra hrelative
  simp only [components, Bool.not_eq_true _ ▸ hrelative, Bool.false_eq_true, if_false] at h
  split at h
  · cases h
  · exact hnot (path.splitOn 47) (by rw [normalized, h]; exact List.mem_cons_self)

/-- The components of a path are those of the path in front and those of what comes after it, which
    is relative. -/
theorem stripPrefix_eq_some {base after : Bytes} (h : stripPrefix base path = some after) :
    components path = components base ++ normalized (after.splitOn 47) ∧
      isAbsolute after = false := by
  rw [stripPrefix] at h
  split_ifs at h with habsolute
  obtain ⟨pieces, hafter, rfl⟩ := Option.map_eq_some_iff.mp h
  have hslash : ∀ piece ∈ pieces, 47 ∉ piece := fun piece hpiece =>
    not_mem_of_mem_splitOn (mem_of_mem_after hafter piece hpiece)
  refine ⟨?_, isAbsolute_asPath hslash⟩
  rw [components_of_isAbsolute habsolute.1, List.drop_succ_cons, List.drop_zero] at hafter
  rw [components_of_isAbsolute habsolute.2, components_of_isAbsolute habsolute.1,
    normalized_of_after hafter, normalized_splitOn_asPath hslash, List.cons_append]

/-- An absolute path is in front of every path with its components in front. -/
theorem exists_stripPrefix {base : Bytes} (hbase : isAbsolute base = true)
    (h : components path = components base ++ cs) :
    ∃ after, stripPrefix base path = some after ∧ normalized (after.splitOn 47) = cs := by
  rw [components_of_isAbsolute hbase, List.cons_append] at h
  have hpath := isAbsolute_of_components h
  rw [components_of_isAbsolute hpath] at h
  obtain ⟨pieces, hafter, hpieces⟩ := exists_after (List.cons.inj h).2
  have hslash : ∀ piece ∈ pieces, 47 ∉ piece := fun piece hpiece =>
    not_mem_of_mem_splitOn (mem_of_mem_after hafter piece hpiece)
  refine ⟨asPath pieces, ?_, (normalized_splitOn_asPath hslash).trans hpieces⟩
  rw [stripPrefix, if_pos ⟨hbase, hpath⟩, components_of_isAbsolute hbase, List.drop_succ_cons,
    List.drop_zero, hafter, Option.map_some]

/-- The components after a relative path is put at the end of an absolute one. -/
theorem components_push {base rest : Bytes} (hbase : base ≠ []) (hlast : base.getLast? ≠ some 47)
    (hrest : isAbsolute rest = false) :
    components (push base rest) = components base ++ normalized (rest.splitOn 47) := by
  rw [push, hrest, if_neg Bool.false_ne_true, if_neg (not_or.mpr ⟨hbase, hlast⟩),
    components_append_splitOn hbase]

end Snix.Path
