import Snix.Castore.Import.FileTree
import Snix.Lib.Path
import Snix.Lib.Text
import Mathlib.Logic.Relation

/-!
# Paths

A path in the store is relative, and it is a byte string with slashes between its
components. Most of what makes paths does not check the whole result again, but
relies on the paths that it starts from. The paths that can be made are those of
lists of components, so they can be taken for such lists.

A path of the host is read from the left, where two dots take the last component away again.

## Main definitions

- `Path` — a path by its bytes
- `fromBytes`, `fromStr`, `tryPush`, `tryJoin`, `parent`, `fromHostPath` — what makes paths
- `components`, `fileName` — what paths consist of
- `Reachable` — the paths that can be made
- `Cancels` — dots that can be left out of a path of the host

## Main results

- `reachable_iff` — the paths of lists of components
- `fromHostPath_eq_ok_iff` — a path of the host is normalised
- `paths_keep_invariant` — all of this
-/

namespace Snix

namespace Castore

/-- An I/O error of the kind `InvalidData`, with its message. -/
structure InvalidData where
  message : Option String

/-- A path by its bytes. -/
structure Path where
  inner : Bytes
  deriving DecidableEq

namespace Path

def root : Path := ⟨[]⟩

def fromBytes (bytes : Bytes) : Option Path :=
  if bytes ≠ [] ∧ (bytes.splitOn 47).any (fun component => !(validateName component).isOk) then none
  else some ⟨bytes⟩

def fromStr (s : String) : Except InvalidData Path :=
  match fromBytes s.toUTF8.toList with
  | none => .error ⟨none⟩
  | some p => .ok p

/-- The path without its last component. The root has none. -/
def parent (p : Path) : Option Path :=
  if p.inner = [] then none
  else
    match rsplitOnce 47 p.inner with
    | some (parent, _) => some ⟨parent⟩
    | none => some root

def tryPush (p : Path) (name : Bytes) : Except InvalidData Path :=
  match validateName name with
  | .error _ => .error ⟨none⟩
  | .ok () => .ok ⟨(if p.inner = [] then [] else p.inner ++ [47]) ++ name⟩

def tryJoin (p : Path) (name : Bytes) : Except InvalidData Path :=
  let v : Path := ⟨[] ++ p.inner⟩
  v.tryPush name

/-- The components. They are not checked again. -/
def components (p : Path) : List Bytes :=
  let pieces := p.inner.splitOn 47
  if p.inner = [] then pieces.tail else pieces

def fileName (p : Path) : Option Bytes := p.components.getLast?

/-- The next component of a path of the host. -/
def hostComponent (canonicalizeDotdot : Bool) (p : Path) :
    Snix.Path.Component → Except InvalidData Path
  | .rootDir => .error ⟨"found disallowed prefix or rootdir"⟩
  | .curDir => .ok p
  | .parentDir =>
    if canonicalizeDotdot then
      match p.parent with
      | none => .error ⟨"found .. going too far up"⟩
      | some parent => .ok parent
    else .error ⟨"found disallowed .."⟩
  | .normal s =>
    match p.tryPush s with
    | .error _ => .error ⟨"encountered invalid node in sub_path component"⟩
    | .ok p => .ok p

def fromHostPath (hostPath : Bytes) (canonicalizeDotdot : Bool) : Except InvalidData Path :=
  (Snix.Path.components hostPath).foldlM (hostComponent canonicalizeDotdot) root

/-- The paths that can be made. -/
inductive Reachable : Path → Prop
  | fromBytes {bytes : Bytes} {p : Path} : fromBytes bytes = some p → Reachable p
  | fromStr {s : String} {p : Path} : fromStr s = .ok p → Reachable p
  | tryPush {p q : Path} {name : Bytes} : Reachable p → p.tryPush name = .ok q → Reachable q
  | tryJoin {p q : Path} {name : Bytes} : Reachable p → p.tryJoin name = .ok q → Reachable q
  | parent {p q : Path} : Reachable p → p.parent = some q → Reachable q
  | fromHostPath {hostPath : Bytes} {canonicalizeDotdot : Bool} {p : Path} :
    fromHostPath hostPath canonicalizeDotdot = .ok p → Reachable p

-- ====================
-- Paths of lists of components
-- ====================

/-- The path of a list of components. -/
def ofComponents (cs : PathBuf) : Path := ⟨[47].intercalate (cs.map PathComponent.val)⟩

theorem slash_not_mem (c : PathComponent) : 47 ∉ c.val := by
  intro hmem
  have hvalid := c.valid
  unfold validateName at hvalid
  split_ifs at hvalid

theorem inner_ofComponents_ne_nil {cs : PathBuf} (h : cs ≠ []) : (ofComponents cs).inner ≠ [] := by
  intro hnil
  cases cs with
  | nil => exact h rfl
  | cons c cs =>
    have hsub : c.val = [] := by
      cases cs with
      | nil => simpa [ofComponents] using hnil
      | cons d cs => simp [ofComponents] at hnil
    exact c.val_ne_nil hsub

theorem inner_ofComponents_concat (cs : PathBuf) (c : PathComponent) :
    (ofComponents (cs ++ [c])).inner =
      (if cs = [] then [] else (ofComponents cs).inner ++ [47]) ++ c.val := by
  induction cs with
  | nil => simp [ofComponents]
  | cons d cs ih =>
    rw [if_neg (List.cons_ne_nil d cs)]
    cases cs with
    | nil => simp [ofComponents]
    | cons e cs =>
      rw [if_neg (List.cons_ne_nil e cs)] at ih
      have hcons : ∀ l : PathBuf, l ≠ [] →
          (ofComponents (d :: l)).inner = d.val ++ [47] ++ (ofComponents l).inner := by
        intro l hl
        apply List.intercalate_cons_of_ne_nil
        rwa [Ne, List.map_eq_nil_iff]
      rw [List.cons_append, hcons _ (by simp), ih, hcons _ (List.cons_ne_nil e cs)]
      simp only [List.append_assoc]

theorem components_ofComponents (cs : PathBuf) :
    (ofComponents cs).components = cs.map PathComponent.val := by
  by_cases hcs : cs = []
  · rw [hcs]
    rfl
  · rw [components, if_neg (inner_ofComponents_ne_nil hcs)]
    apply List.splitOn_intercalate
    · intro name hname
      obtain ⟨c, _, rfl⟩ := List.mem_map.mp hname
      exact slash_not_mem c
    · rwa [Ne, List.map_eq_nil_iff]

theorem fileName_ofComponents (cs : PathBuf) :
    (ofComponents cs).fileName = cs.fileName.map PathComponent.val := by
  rw [fileName, components_ofComponents, PathBuf.fileName, List.getLast?_map]

theorem ofComponents_inj {cs cs' : PathBuf} (h : ofComponents cs = ofComponents cs') : cs = cs' := by
  have hmap : cs.map PathComponent.val = cs'.map PathComponent.val := by
    rw [← components_ofComponents, h, components_ofComponents]
  exact List.map_injective_iff.mpr (fun c d hcd => PathComponent.ext hcd) hmap

/-- A list of valid names. -/
theorem exists_pathBuf {names : List Bytes} (h : ∀ name ∈ names, validateName name = .ok ()) :
    ∃ cs : PathBuf, cs.map PathComponent.val = names := by
  induction names with
  | nil => exact ⟨[], rfl⟩
  | cons name names ih =>
    obtain ⟨cs, hcs⟩ := ih fun n hn => h n (List.mem_cons_of_mem name hn)
    refine ⟨⟨name, h name List.mem_cons_self⟩ :: cs, ?_⟩
    rw [List.map_cons, hcs]

theorem isOk_validateName {name : Bytes} :
    (validateName name).isOk = true ↔ validateName name = .ok () := by
  cases validateName name with
  | error e => exact ⟨fun h => (by cases h), fun h => (by cases h)⟩
  | ok u => exact ⟨fun _ => rfl, fun _ => rfl⟩

theorem fromBytes_eq_some_iff {bytes : Bytes} {p : Path} :
    fromBytes bytes = some p ↔ p.inner = bytes ∧ ∃ cs, p = ofComponents cs := by
  unfold fromBytes
  constructor
  · intro h
    split_ifs at h with hinvalid
    cases h
    refine ⟨rfl, ?_⟩
    by_cases hnil : bytes = []
    · rw [hnil]
      exact ⟨[], rfl⟩
    · have hvalid : ∀ name ∈ bytes.splitOn 47, validateName name = .ok () := by
        intro name hname
        by_contra hname'
        apply hinvalid
        refine ⟨hnil, List.any_eq_true.mpr ⟨name, hname, ?_⟩⟩
        rwa [Bool.not_eq_true', ← Bool.not_eq_true, isOk_validateName]
      obtain ⟨cs, hcs⟩ := exists_pathBuf hvalid
      refine ⟨cs, ?_⟩
      rw [ofComponents, hcs, List.intercalate_splitOn]
  · rintro ⟨rfl, cs, rfl⟩
    apply if_neg
    rintro ⟨hne, hany⟩
    obtain ⟨name, hname, hbad⟩ := List.any_eq_true.mp hany
    have hpieces := components_ofComponents cs
    rw [components, if_neg hne] at hpieces
    rw [hpieces] at hname
    obtain ⟨c, _, rfl⟩ := List.mem_map.mp hname
    rw [isOk_validateName.mpr c.valid] at hbad
    cases hbad

theorem tryPush_ofComponents (cs : PathBuf) (c : PathComponent) :
    (ofComponents cs).tryPush c.val = .ok (ofComponents (cs ++ [c])) := by
  have hinner := inner_ofComponents_concat cs c
  have hempty : (ofComponents cs).inner = [] ↔ cs = [] :=
    ⟨fun h => by_contra fun hcs => inner_ofComponents_ne_nil hcs h, fun h => h ▸ rfl⟩
  simp only [tryPush, c.valid, hempty, ← hinner]

theorem exists_of_tryPush {cs : PathBuf} {name : Bytes} {q : Path}
    (h : (ofComponents cs).tryPush name = .ok q) :
    ∃ c : PathComponent, c.val = name ∧ q = ofComponents (cs ++ [c]) := by
  cases hvalid : validateName name with
  | error e =>
    rw [tryPush, hvalid] at h
    cases h
  | ok u =>
    have hpush := tryPush_ofComponents cs ⟨name, hvalid⟩
    refine ⟨⟨name, hvalid⟩, rfl, ?_⟩
    rw [h] at hpush
    exact Except.ok.inj hpush

theorem parent_ofComponents (cs : PathBuf) :
    (ofComponents cs).parent = cs.parent.map ofComponents := by
  obtain rfl | ⟨cs, c, rfl⟩ := List.eq_nil_or_concat' cs
  · rfl
  · have hne : cs ++ [c] ≠ [] := by simp
    rw [parent, if_neg (inner_ofComponents_ne_nil hne), PathBuf.parent, if_neg hne,
      List.dropLast_concat, Option.map_some, inner_ofComponents_concat]
    by_cases hcs : cs = []
    · rw [if_pos hcs, List.nil_append, rsplitOnce_eq_none (slash_not_mem c), hcs]
      rfl
    · rw [if_neg hcs, List.append_assoc, List.singleton_append, rsplitOnce_append (slash_not_mem c)]

-- ====================
-- Paths of the host
-- ====================

/-- Components of a path of the host that can be left out: a dot, and a name before two dots. -/
inductive Cancels (canonicalizeDotdot : Bool) :
    List Snix.Path.Component → List Snix.Path.Component → Prop
  | curDir (l r : List Snix.Path.Component) :
    Cancels canonicalizeDotdot (l ++ .curDir :: r) (l ++ r)
  | parentDir (l r : List Snix.Path.Component) (name : Bytes) (h : canonicalizeDotdot = true) :
    Cancels canonicalizeDotdot (l ++ .normal name :: .parentDir :: r) (l ++ r)

/-- The components of a path that is normalised. -/
def names (cs : PathBuf) : List Snix.Path.Component := cs.map fun c => .normal c.val

/-- All names are names of entries of directories. -/
def NamesValid (l : List Snix.Path.Component) : Prop :=
  ∀ name, .normal name ∈ l → validateName name = .ok ()

variable {canonicalizeDotdot : Bool} {cs : PathBuf} {q : Path}
  {component : Snix.Path.Component} {l : List Snix.Path.Component}

/-- One component is read. -/
theorem exists_of_hostComponent (rest : List Snix.Path.Component)
    (h : hostComponent canonicalizeDotdot (ofComponents cs) component = .ok q) :
    NamesValid [component] ∧ ∃ cs', q = ofComponents cs' ∧
      Relation.ReflTransGen (Cancels canonicalizeDotdot) (names cs ++ component :: rest)
        (names cs' ++ rest) := by
  cases component with
  | rootDir => cases h
  | curDir =>
    cases h
    refine ⟨fun name hname => ?_, cs, rfl, .single (.curDir _ _)⟩
    cases List.mem_singleton.mp hname
  | parentDir =>
    rw [hostComponent] at h
    split_ifs at h with hc
    refine ⟨fun name hname => (by cases List.mem_singleton.mp hname), ?_⟩
    rw [parent_ofComponents] at h
    obtain rfl | ⟨cs, c, rfl⟩ := List.eq_nil_or_concat' cs
    · cases h
    · rw [PathBuf.parent, if_neg (by simp), List.dropLast_concat, Option.map_some] at h
      cases h
      refine ⟨cs, rfl, .single ?_⟩
      rw [names, List.map_append, List.append_assoc]
      exact .parentDir _ _ c.val hc
  | normal name =>
    rw [hostComponent] at h
    cases hpush : (ofComponents cs).tryPush name with
    | error e =>
      rw [hpush] at h
      cases h
    | ok p =>
      rw [hpush] at h
      cases h
      obtain ⟨c, rfl, rfl⟩ := exists_of_tryPush hpush
      refine ⟨fun name hname => ?_, cs ++ [c], rfl, ?_⟩
      · cases List.mem_singleton.mp hname
        exact c.valid
      · rw [names, names, List.map_append, List.append_assoc]
        exact .refl

theorem exists_of_foldlM (h : l.foldlM (hostComponent canonicalizeDotdot) (ofComponents cs) = .ok q) :
    NamesValid l ∧ ∃ cs', q = ofComponents cs' ∧
      Relation.ReflTransGen (Cancels canonicalizeDotdot) (names cs ++ l) (names cs') := by
  induction l generalizing cs with
  | nil =>
    cases h
    refine ⟨fun name hname => absurd hname List.not_mem_nil, cs, rfl, ?_⟩
    rw [List.append_nil]
  | cons component l ih =>
    rw [List.foldlM_cons] at h
    cases hnext : hostComponent canonicalizeDotdot (ofComponents cs) component with
    | error e =>
      rw [hnext] at h
      cases h
    | ok p =>
      rw [hnext] at h
      obtain ⟨hvalid, cs', rfl, hstep⟩ := exists_of_hostComponent l hnext
      obtain ⟨hvalids, cs'', rfl, hrest⟩ := ih h
      refine ⟨fun name hname => ?_, cs'', rfl, hstep.trans hrest⟩
      obtain hname | hname := List.mem_cons.mp hname
      · exact hvalid name (List.mem_singleton.mpr hname)
      · exact hvalids name hname

/-- The names of a path lead to it. -/
theorem foldlM_names (cs cs' : PathBuf) :
    (names cs').foldlM (hostComponent canonicalizeDotdot) (ofComponents cs) =
      .ok (ofComponents (cs ++ cs')) := by
  induction cs' generalizing cs with
  | nil =>
    rw [List.append_nil]
    rfl
  | cons c cs' ih =>
    have hnext : hostComponent canonicalizeDotdot (ofComponents cs) (.normal c.val) =
        .ok (ofComponents (cs ++ [c])) := by
      rw [hostComponent, tryPush_ofComponents]
    rw [names, List.map_cons, List.foldlM_cons, hnext]
    refine (ih (cs ++ [c])).trans ?_
    rw [List.append_assoc, List.singleton_append]

/-- Whether components that can be left out are left out makes no difference. -/
theorem foldlM_of_cancels {l' : List Snix.Path.Component} (h : Cancels canonicalizeDotdot l l')
    (hvalid : NamesValid l) :
    l.foldlM (hostComponent canonicalizeDotdot) root =
      l'.foldlM (hostComponent canonicalizeDotdot) root := by
  cases h with
  | curDir l r =>
    rw [List.foldlM_append, List.foldlM_append]
    apply congrArg
    funext p
    exact List.foldlM_cons
  | parentDir l r name hc =>
    rw [List.foldlM_append, List.foldlM_append]
    cases hl : l.foldlM (hostComponent canonicalizeDotdot) root with
    | error e => rfl
    | ok p =>
      obtain ⟨-, cs, rfl, -⟩ := @exists_of_foldlM canonicalizeDotdot [] p l hl
      have hname : validateName name = .ok () :=
        hvalid name (List.mem_append_right _ List.mem_cons_self)
      have hpush : hostComponent canonicalizeDotdot (ofComponents cs) (.normal name) =
          .ok (ofComponents (cs ++ [⟨name, hname⟩])) := by
        rw [hostComponent, tryPush_ofComponents cs ⟨name, hname⟩]
      have hpop : hostComponent canonicalizeDotdot (ofComponents (cs ++ [⟨name, hname⟩]))
          .parentDir = .ok (ofComponents cs) := by
        rw [hostComponent, if_pos hc, parent_ofComponents, PathBuf.parent, if_neg (by simp),
          List.dropLast_concat, Option.map_some]
      show List.foldlM (hostComponent canonicalizeDotdot) (ofComponents cs)
        (.normal name :: .parentDir :: r) = _
      rw [List.foldlM_cons, hpush]
      show List.foldlM (hostComponent canonicalizeDotdot) (ofComponents (cs ++ [⟨name, hname⟩]))
        (.parentDir :: r) = _
      rw [List.foldlM_cons, hpop]

theorem NamesValid.cancels {l' : List Snix.Path.Component} (hvalid : NamesValid l)
    (h : Cancels canonicalizeDotdot l l') : NamesValid l' := by
  intro name hname
  cases h with
  | curDir l r =>
    apply hvalid
    obtain hname | hname := List.mem_append.mp hname
    · exact List.mem_append_left _ hname
    · exact List.mem_append_right _ (List.mem_cons_of_mem _ hname)
  | parentDir l r other hc =>
    apply hvalid
    obtain hname | hname := List.mem_append.mp hname
    · exact List.mem_append_left _ hname
    · exact List.mem_append_right _ (List.mem_cons_of_mem _ (List.mem_cons_of_mem _ hname))

/-- A path of the host leads to the path that is left when all dots are gone. -/
theorem fromHostPath_eq_ok_iff {hostPath : Bytes} :
    fromHostPath hostPath canonicalizeDotdot = .ok q ↔
      NamesValid (Snix.Path.components hostPath) ∧ ∃ cs, q = ofComponents cs ∧
        Relation.ReflTransGen (Cancels canonicalizeDotdot) (Snix.Path.components hostPath)
          (names cs) := by
  constructor
  · intro h
    exact @exists_of_foldlM canonicalizeDotdot [] q _ h
  · rintro ⟨hvalid, cs, rfl, hsteps⟩
    unfold fromHostPath
    generalize Snix.Path.components hostPath = l at hvalid hsteps
    induction hsteps using Relation.ReflTransGen.head_induction_on with
    | refl => exact foldlM_names [] cs
    | head hstep _ ih =>
      rw [foldlM_of_cancels hstep hvalid]
      exact ih (hvalid.cancels hstep)

-- ====================
-- The paths that can be made
-- ====================

theorem fromBytes_ofComponents (cs : PathBuf) :
    fromBytes (ofComponents cs).inner = some (ofComponents cs) :=
  fromBytes_eq_some_iff.mpr ⟨rfl, cs, rfl⟩

theorem reachable_iff {p : Path} : Reachable p ↔ ∃ cs, p = ofComponents cs := by
  constructor
  · intro h
    induction h with
    | fromBytes h => exact (fromBytes_eq_some_iff.mp h).2
    | @fromStr s p h =>
      unfold fromStr at h
      cases hbytes : fromBytes s.toUTF8.toList with
      | none =>
        rw [hbytes] at h
        cases h
      | some p =>
        rw [hbytes] at h
        cases h
        exact (fromBytes_eq_some_iff.mp hbytes).2
    | tryPush _ h ih =>
      obtain ⟨cs, rfl⟩ := ih
      obtain ⟨c, -, rfl⟩ := exists_of_tryPush h
      exact ⟨cs ++ [c], rfl⟩
    | tryJoin _ h ih =>
      obtain ⟨cs, rfl⟩ := ih
      obtain ⟨c, -, rfl⟩ := exists_of_tryPush h
      exact ⟨cs ++ [c], rfl⟩
    | parent _ h ih =>
      obtain ⟨cs, rfl⟩ := ih
      rw [parent_ofComponents] at h
      obtain ⟨cs', -, rfl⟩ := Option.map_eq_some_iff.mp h
      exact ⟨cs', rfl⟩
    | fromHostPath h =>
      obtain ⟨-, cs, rfl, -⟩ := fromHostPath_eq_ok_iff.mp h
      exact ⟨cs, rfl⟩
  · rintro ⟨cs, rfl⟩
    exact .fromBytes (fromBytes_ofComponents cs)

/-- Paths stay valid however they are made, a path that was joined can be taken apart again, and
    paths of the host are normalised when all of their names are valid. -/
theorem paths_keep_invariant :
    (∀ p, Reachable p →
      fromBytes p.inner = some p ∧ (∀ component ∈ p.components, validateName component = .ok ()) ∧
        [47].intercalate p.components = p.inner ∧
        ∀ name q, p.tryJoin name = .ok q → q.parent = some p ∧ q.fileName = some name) ∧
    ∀ hostPath canonicalizeDotdot q, fromHostPath hostPath canonicalizeDotdot = .ok q ↔
      NamesValid (Snix.Path.components hostPath) ∧ ∃ cs, q = ofComponents cs ∧
        Relation.ReflTransGen (Cancels canonicalizeDotdot) (Snix.Path.components hostPath)
          (names cs) := by
  refine ⟨fun p hp => ?_, fun hostPath c q => fromHostPath_eq_ok_iff⟩
  obtain ⟨cs, rfl⟩ := reachable_iff.mp hp
  rw [components_ofComponents]
  refine ⟨fromBytes_ofComponents cs, fun name hname => ?_, rfl, fun name q hjoin => ?_⟩
  · obtain ⟨c, _, rfl⟩ := List.mem_map.mp hname
    exact c.valid
  · obtain ⟨c, rfl, rfl⟩ := exists_of_tryPush hjoin
    rw [parent_ofComponents, fileName_ofComponents, PathBuf.parent, PathBuf.fileName,
      if_neg (by simp), List.dropLast_concat, List.getLast?_concat]
    exact ⟨rfl, rfl⟩

/-- A name that no entry can have is rejected even where two dots take it away again. -/
theorem fromHostPath_null :
    Relation.ReflTransGen (Cancels true) (Snix.Path.components [0, 47, 46, 46]) (names []) ∧
      fromHostPath [0, 47, 46, 46] true =
        .error ⟨"encountered invalid node in sub_path component"⟩ := by
  have hcomponents : Snix.Path.components [0, 47, 46, 46] = [.normal [0], .parentDir] := by decide
  refine ⟨?_, ?_⟩
  · rw [hcomponents]
    exact .single (.parentDir [] [] [0] rfl)
  · rw [fromHostPath, hcomponents]
    rfl

end Path

end Castore

end Snix
